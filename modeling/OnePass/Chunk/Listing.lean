import OnePass.Chunk.Instruction

/-!
# OnePass.Chunk.Listing

Listings of compiled code: a header line with a name, then a line for every
instruction. A line has the offset, the source line (a bar if it is that of the
instruction before), the mnemonic, and for an operand its number and, if it refers
to a constant, that constant.
-/

namespace OnePass

namespace Listing

/-- A number in at least `width` columns, filled from the left. -/
def padNumber (fill : Char) (width n : Nat) : String :=
  let digits := toString n
  String.ofList (List.replicate (width - digits.length) fill) ++ digits

/-- A name in at least `width` columns, filled from the right. -/
def padName (width : Nat) (name : String) : String :=
  name ++ String.ofList (List.replicate (width - name.length) ' ')

/-- The source line of an instruction, given that of the one before. -/
def lineColumn (last : Option Nat) (line : Nat) : String :=
  if last = some line then "   |" else padNumber ' ' 4 line

/-- What a listing shows of a constant that is not in the pool. -/
def missingConstant : String := "<missing>"

/-- The mnemonic and the operand of an instruction. -/
def body (c : Chunk) (strings : Interner) (i : Instruction) : String :=
  match i.operand with
  | none => i.op.mnemonic
  | some operand =>
    let columns := padName 16 i.op.mnemonic ++ " " ++ padNumber ' ' 4 operand.toNat
    if i.op.refersToConstant then
      let value := ((c.constant? operand).map (·.display strings)).getD missingConstant
      s!"{columns} '{value}'"
    else columns

/-- The line of an instruction, without the line break. -/
def row (c : Chunk) (strings : Interner) (last : Option Nat) (i : Instruction) : String :=
  padNumber '0' 4 i.offset ++ " " ++ lineColumn last i.line ++ " " ++ body c strings i

/-- The lines of instructions that follow one from the source line `last`. -/
def rows (c : Chunk) (strings : Interner) (last : Option Nat) : List Instruction → List String
  | [] => []
  | i :: rest => row c strings last i :: rows c strings (some i.line) rest

/-- The header line, without the line break. -/
def header (name : String) : String := s!"== {name} =="

end Listing

/-- The listing of a chunk under a name. Every line ends in a line break. -/
def Chunk.listing (c : Chunk) (strings : Interner) (name : String) : String :=
  String.join ((Listing.header name :: Listing.rows c strings none c.instructions).map (· ++ "\n"))

end OnePass
