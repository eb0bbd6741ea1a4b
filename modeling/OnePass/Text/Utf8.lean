/-!
# OnePass.Text.Utf8

Decoding of bytes as UTF-8, with the place and the extent of the first fault.

`decode` reads one character after the other. `Lead.ofByte?` says what the first
byte of a character asks for: how many bytes follow, and the range of the second
one, which is where overlong forms, surrogates and values beyond the last
character are refused. The bytes after the second range over all of `80` to `BF`.
-/

namespace OnePass.Utf8

/-- Why bytes are not UTF-8. Positions count bytes from the start. -/
inductive Fault where
  /-- From `index` on, `length` bytes can begin no character. -/
  | invalid (index length : Nat)
  /-- The input ends inside the character that starts at `index`. -/
  | incomplete (index : Nat)
  deriving DecidableEq, Repr

/-- The wording of a fault. -/
def Fault.message : Fault → String
  | .invalid index length => s!"invalid utf-8 sequence of {length} bytes from index {index}"
  | .incomplete index => s!"incomplete utf-8 byte sequence from index {index}"

/-! ### Single characters -/

/-- What the first byte of a character of several bytes demands. -/
structure Lead where
  /-- The bits of the character that the first byte carries. -/
  payload : Nat
  /-- How many bytes follow the first. -/
  following : Nat
  /-- The least second byte. -/
  low : UInt8
  /-- The greatest second byte. -/
  high : UInt8

/-- The demands of a byte that can start a character of several bytes. -/
def Lead.ofByte? (byte : UInt8) : Option Lead :=
  if 0xC2 ≤ byte ∧ byte ≤ 0xDF then some ⟨byte.toNat - 0xC0, 1, 0x80, 0xBF⟩
  else if byte = 0xE0 then some ⟨0, 2, 0xA0, 0xBF⟩
  else if byte = 0xED then some ⟨13, 2, 0x80, 0x9F⟩
  else if 0xE1 ≤ byte ∧ byte ≤ 0xEF then some ⟨byte.toNat - 0xE0, 2, 0x80, 0xBF⟩
  else if byte = 0xF0 then some ⟨0, 3, 0x90, 0xBF⟩
  else if 0xF1 ≤ byte ∧ byte ≤ 0xF3 then some ⟨byte.toNat - 0xF0, 3, 0x80, 0xBF⟩
  else if byte = 0xF4 then some ⟨4, 3, 0x80, 0x8F⟩
  else none

/-- Reading the bytes after the first ends with the character's code point, with
the number of bytes before an unfit one, or at the end of the input. -/
inductive Tail where
  | codePoint (value : Nat)
  | unfit (length : Nat)
  | cut

/-- The bytes that follow the first: `following` of them are due, the next of
which lies between `low` and `high`, after `read` good bytes that give `value`. -/
def readTail (value read : Nat) (low high : UInt8) : (following : Nat) → List UInt8 → Tail
  | 0, _ => .codePoint value
  | _ + 1, [] => .cut
  | following + 1, byte :: rest =>
    if low ≤ byte ∧ byte ≤ high then
      readTail (value * 64 + (byte.toNat - 0x80)) (read + 1) 0x80 0xBF following rest
    else .unfit read

/-! ### Whole texts -/

/-- Decode from the byte at `index` on; `skip` bytes belong to a character that
has been read already. -/
def decodeFrom (index skip : Nat) : List UInt8 → Except Fault (List Char)
  | [] => .ok []
  | byte :: rest =>
    match skip with
    | more + 1 => decodeFrom (index + 1) more rest
    | 0 =>
      if byte < 0x80 then
        (decodeFrom (index + 1) 0 rest).map (Char.ofNat byte.toNat :: ·)
      else match Lead.ofByte? byte with
        | none => .error (.invalid index 1)
        | some lead =>
          match readTail lead.payload 1 lead.low lead.high lead.following rest with
          | .codePoint value =>
            (decodeFrom (index + 1) lead.following rest).map (Char.ofNat value :: ·)
          | .unfit length => .error (.invalid index length)
          | .cut => .error (.incomplete index)

/-- The text that bytes encode, or the first fault in them. -/
def decode (bytes : List UInt8) : Except Fault String :=
  (decodeFrom 0 0 bytes).map String.ofList

end OnePass.Utf8
