import OnePass.Token.Kind

/-!
# OnePass.Lexical.Piece

Cutting a source into pieces. A piece is a token, a blank between tokens (white
space or a comment), or a fault. `munch` decides, from the first character and
those behind it, what the next piece is and how far it reaches; `pieces` goes on
after its end. A piece has at least one character, and the pieces of a source put
together are the source (`flatten_pieces`).
-/

namespace OnePass

/-- Why a stretch of source is no token. -/
inductive LexicalFault where
  | unterminatedString
  | unterminatedComment
  | loneAmpersand
  | loneBar
  | strayCharacter
  deriving DecidableEq, Repr

/-- The wording of a fault. -/
def LexicalFault.message : LexicalFault → String
  | .unterminatedString => "Unterminated string."
  | .unterminatedComment => "Unterminated comment."
  | .loneAmpersand => "Unexpected character: expected '&&'"
  | .loneBar => "Unexpected character: expected '||' or '|>'"
  | .strayCharacter => "Unexpected character"

/-- What a piece of source is. -/
inductive Shape where
  | blank
  | token (kind : TokenKind)
  | fault (fault : LexicalFault)
  deriving DecidableEq, Repr

/-- A stretch of source and what it is. -/
structure Piece where
  shape : Shape
  text : List Char
  deriving DecidableEq, Repr

/-! ### Character classes

The classes hold ASCII characters only. Any other character that is neither in a
string nor in a comment is stray. -/

def isBlank (c : Char) : Bool := c = ' ' || c = '\t' || c = '\r' || c = '\n'

/-- What a word can start with. -/
def isWordStart (c : Char) : Bool := c.isAlpha || c = '_'

/-- What a word can go on with. -/
def isWordPart (c : Char) : Bool := c.isAlphanum || c = '_'

/-! ### How far a piece reaches

Each function is given the characters behind those that decided on the kind of
piece, and counts how many of them belong to it. -/

/-- To the end of the line; the line break stays out. -/
def lineLength (rest : List Char) : Nat := (rest.takeWhile (· ≠ '\n')).length

/-- To the first `*/`, and over it; nothing if there is none. -/
def commentLength? : List Char → Option Nat
  | '*' :: '/' :: _ => some 2
  | _ :: rest => (commentLength? rest).map (· + 1)
  | [] => none

/-- To the first quote, and over it; nothing if there is none. -/
def stringLength? : List Char → Option Nat
  | [] => none
  | c :: rest => if c = '"' then some 1 else (stringLength? rest).map (· + 1)

/-- A fraction: a point and at least one digit. -/
def fractionLength : List Char → Nat
  | '.' :: d :: rest => if d.isDigit then 2 + (rest.takeWhile Char.isDigit).length else 0
  | _ => 0

/-- Digits, and a fraction if there is one. -/
def numberLength (rest : List Char) : Nat :=
  (rest.takeWhile Char.isDigit).length + fractionLength (rest.dropWhile Char.isDigit)

def wordLength (rest : List Char) : Nat := (rest.takeWhile isWordPart).length

/-- The longest mark at the start of a text. -/
def leadingMark? (text : List Char) : Option (String × TokenKind) :=
  TokenKind.marks.find? (·.1.toList.isPrefixOf text)

/-! ### Pieces -/

/-- A mark, or the fault of a character that starts none. -/
def munchMark (c : Char) (rest : List Char) : Shape × Nat :=
  match leadingMark? (c :: rest) with
  | some (spelling, kind) => (.token kind, spelling.length - 1)
  | none =>
    if c = '&' then (.fault .loneAmpersand, 0)
    else if c = '|' then (.fault .loneBar, 0)
    else (.fault .strayCharacter, 0)

/-- The piece that starts with `c`: what it is, and how many of the characters
behind `c` belong to it. -/
def munch (c : Char) (rest : List Char) : Shape × Nat :=
  if isBlank c then (.blank, 0)
  else if c = '/' ∧ rest.head? = some '/' then (.blank, lineLength rest)
  else if c = '/' ∧ rest.head? = some '*' then
    match commentLength? rest.tail with
    | some n => (.blank, n + 1)
    | none => (.fault .unterminatedComment, rest.length)
  else if c = '"' then
    match stringLength? rest with
    | some n => (.token .string, n)
    | none => (.fault .unterminatedString, rest.length)
  else if c.isDigit then (.token .number, numberLength rest)
  else if isWordStart c then
    let n := wordLength rest
    (.token (TokenKind.ofWord (String.ofList (c :: rest.take n))), n)
  else munchMark c rest

/-- The pieces of a source, in order. -/
def pieces : List Char → List Piece
  | [] => []
  | c :: rest =>
    let found := munch c rest
    ⟨found.1, c :: rest.take found.2⟩ :: pieces (rest.drop found.2)
termination_by source => source.length
decreasing_by rw [List.length_drop, List.length_cons]; omega

/-! ### A piece lies within its source -/

theorem commentLength?_le {rest : List Char} {n : Nat} (h : commentLength? rest = some n) :
    n ≤ rest.length := by
  fun_induction commentLength? rest generalizing n with
  | case1 => simp at h; simp [← h]
  | case2 c rest _ ih =>
    obtain ⟨m, hm, rfl⟩ := Option.map_eq_some_iff.1 h
    simpa using ih hm
  | case3 => simp at h

theorem stringLength?_le {rest : List Char} {n : Nat} (h : stringLength? rest = some n) :
    n ≤ rest.length := by
  fun_induction stringLength? rest generalizing n with
  | case1 => simp at h
  | case2 rest => simp at h; simp [← h]
  | case3 c rest _ ih =>
    obtain ⟨m, hm, rfl⟩ := Option.map_eq_some_iff.1 h
    simpa using ih hm

theorem lineLength_le (rest : List Char) : lineLength rest ≤ rest.length :=
  (List.takeWhile_sublist _).length_le

theorem wordLength_le (rest : List Char) : wordLength rest ≤ rest.length :=
  (List.takeWhile_sublist _).length_le

theorem fractionLength_le (rest : List Char) : fractionLength rest ≤ rest.length := by
  fun_cases fractionLength rest with
  | case1 d rest h =>
    have := (List.takeWhile_sublist (l := rest) Char.isDigit).length_le
    simp only [List.length_cons]
    omega
  | case2 => exact Nat.zero_le _
  | case3 => exact Nat.zero_le _

theorem numberLength_le (rest : List Char) : numberLength rest ≤ rest.length := by
  have digits :
      (rest.takeWhile Char.isDigit ++ rest.dropWhile Char.isDigit).length = rest.length := by
    rw [List.takeWhile_append_dropWhile]
  have fraction := fractionLength_le (rest.dropWhile Char.isDigit)
  rw [List.length_append] at digits
  rw [numberLength]
  omega

theorem leadingMark?_length_le {text : List Char} {spelling : String} {kind : TokenKind}
    (h : leadingMark? text = some (spelling, kind)) : spelling.length ≤ text.length := by
  unfold leadingMark? at h
  have hmark := List.find?_some h
  have := (List.isPrefixOf_iff_prefix.1 hmark).length_le
  rwa [String.length_toList] at this

theorem munchMark_le (c : Char) (rest : List Char) : (munchMark c rest).2 ≤ rest.length := by
  unfold munchMark
  split
  · rename_i h
    have := leadingMark?_length_le h
    simp only [List.length_cons] at this
    simp only
    omega
  · split <;> (try split) <;> exact Nat.zero_le _

/-- A piece does not reach beyond the end of the source. -/
theorem munch_le (c : Char) (rest : List Char) : (munch c rest).2 ≤ rest.length := by
  unfold munch
  split
  · exact Nat.zero_le _
  split
  · exact lineLength_le rest
  split
  · rename_i hslash
    obtain ⟨star, body, rfl⟩ : ∃ star body, rest = star :: body := by
      cases rest with
      | nil => simp at hslash
      | cons star body => exact ⟨star, body, rfl⟩
    split
    · rename_i n h
      have := commentLength?_le h
      simpa using this
    · exact Nat.le_refl _
  split
  · split
    · rename_i n h; exact stringLength?_le h
    · exact Nat.le_refl _
  split
  · exact numberLength_le rest
  split
  · exact wordLength_le rest
  · exact munchMark_le c rest

/-! ### Tiling -/

theorem flatten_pieces (source : List Char) :
    (pieces source).flatMap Piece.text = source := by
  fun_induction pieces source with
  | case1 => rfl
  | case2 c rest found ih => simp [ih]

end OnePass
