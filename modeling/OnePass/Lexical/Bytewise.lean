import OnePass.Lexical.Source

/-!
# OnePass.Lexical.Bytewise

Scanning a source on demand, by its bytes. A scanner goes over the bytes with a look-ahead of
two. It takes bytes one by one and jumps over strings and comments, and knows nothing of
characters until it cuts the text of a token out of the source.

Every access is checked. A byte that is taken has to be there, a stretch of bytes has to lie
within the source, and a text can only be cut out between characters; otherwise there is no
result. No check ever fails, and what is handed out are the tokens of `tokenize`: see
`OnePass.Proofs.Lexical.Bytewise`.
-/

namespace OnePass

/-! ### Bytes -/

namespace Bytes

/-- The bytes from a place on. -/
def from? (bytes : List UInt8) (place : Nat) : Option (List UInt8) :=
  if place ≤ bytes.length then some (bytes.drop place) else none

/-- The bytes between two places. -/
def between? (bytes : List UInt8) (start stop : Nat) : Option (List UInt8) :=
  if start ≤ stop ∧ stop ≤ bytes.length then some ((bytes.take stop).drop start) else none

/-- Whether a byte goes on with a character that an earlier one has started. -/
def isContinuation (byte : UInt8) : Bool := byte &&& 0xC0 = 0x80

/-- Whether a character starts at a place, or the bytes end there. -/
def isBoundary (bytes : List UInt8) (place : Nat) : Bool :=
  match bytes[place]? with
  | some byte => !isContinuation byte
  | none => place = bytes.length

/-- The text between two places, which must not be inside of characters. -/
def cut? (bytes : List UInt8) (start stop : Nat) : Option String :=
  if isBoundary bytes start ∧ isBoundary bytes stop then
    (between? bytes start stop).bind fun part => String.fromUTF8? part.toByteArray
  else none

def isDigit (byte : UInt8) : Bool := '0'.toUInt8 ≤ byte && byte ≤ '9'.toUInt8

/-- What a word can start with. -/
def isWordStart (byte : UInt8) : Bool :=
  ('a'.toUInt8 ≤ byte && byte ≤ 'z'.toUInt8) || ('A'.toUInt8 ≤ byte && byte ≤ 'Z'.toUInt8)
    || byte = '_'.toUInt8

/-- What a word can go on with. -/
def isWordPart (byte : UInt8) : Bool := isWordStart byte || isDigit byte

/-- White space that breaks no line. -/
def isSpace (byte : UInt8) : Bool :=
  byte = ' '.toUInt8 || byte = '\r'.toUInt8 || byte = '\t'.toUInt8

/-- The number of line breaks. -/
def breaks (bytes : List UInt8) : Nat := bytes.count '\n'.toUInt8

/-- Where the first `*/` starts. -/
def commentEnd? : List UInt8 → Option Nat
  | [] => none
  | byte :: rest =>
    if byte = '*'.toUInt8 ∧ rest.head? = some '/'.toUInt8 then some 0
    else (commentEnd? rest).map (· + 1)

end Bytes

/-- What the marks look like that start with a byte and are one or two bytes long: what it
makes with each of some second bytes, and what it is if none of these follows. -/
structure MarkRow where
  first : Char
  pairs : List (Char × TokenKind)
  single : Except LexicalFault TokenKind

/-- The marks of one and two bytes. Second bytes are tried in order. -/
def markRows : List MarkRow :=
  [⟨'(', [], .ok .leftParen⟩, ⟨')', [], .ok .rightParen⟩, ⟨'\x7b', [], .ok .leftBrace⟩,
   ⟨'\x7d', [], .ok .rightBrace⟩, ⟨'[', [], .ok .leftBracket⟩, ⟨']', [], .ok .rightBracket⟩,
   ⟨';', [], .ok .semicolon⟩, ⟨',', [], .ok .comma⟩, ⟨'?', [], .ok .question⟩,
   ⟨':', [], .ok .colon⟩,
   ⟨'+', [('=', .plusEqual), ('+', .plusPlus)], .ok .plus⟩,
   ⟨'-', [('=', .minusEqual), ('-', .minusMinus)], .ok .minus⟩,
   ⟨'*', [('=', .starEqual)], .ok .star⟩,
   ⟨'/', [('=', .slashEqual)], .ok .slash⟩,
   ⟨'%', [('=', .moduloEqual)], .ok .modulo⟩,
   ⟨'!', [('=', .bangEqual)], .ok .bang⟩,
   ⟨'=', [('=', .equalEqual), ('>', .equalGreater)], .ok .equal⟩,
   ⟨'>', [('=', .greaterEqual)], .ok .greater⟩,
   ⟨'<', [('=', .lessEqual), ('|', .lessOr)], .ok .less⟩,
   ⟨'&', [('&', .andAnd)], .error .loneAmpersand⟩,
   ⟨'|', [('|', .orOr), ('>', .orGreater)], .error .loneBar⟩]

/-- The bytes of a source that is being scanned, and how far it has been. -/
structure ByteScanner where
  bytes : List UInt8
  /-- Where the token starts that was read last. -/
  start : Nat
  /-- The first byte that has not been read. -/
  curr : Nat
  line : Nat
  /-- Whether an end token has been handed out by `next?`. -/
  finished : Bool
  deriving DecidableEq, Repr

namespace ByteScanner

def ofSource (source : String) : ByteScanner := ⟨source.toUTF8.data.toList, 0, 0, 1, false⟩

/-! ### Reading bytes -/

def atEnd (s : ByteScanner) : Bool := s.bytes.length ≤ s.curr

/-- Take a byte. There has to be one. -/
def advance? (s : ByteScanner) : Option (UInt8 × ByteScanner) :=
  s.bytes[s.curr]?.map fun byte => (byte, { s with curr := s.curr + 1 })

/-- The next byte; 0 at the end. -/
def peek (s : ByteScanner) : UInt8 := s.bytes[s.curr]?.getD 0

/-- The byte behind the next one; 0 at the end. -/
def peekNext (s : ByteScanner) : UInt8 := s.bytes[s.curr + 1]?.getD 0

/-- Take a byte if it is a given one. Also tells whether it is. -/
def match? (s : ByteScanner) (expected : UInt8) : Option (Bool × ByteScanner) :=
  if !s.atEnd ∧ s.peek = expected then s.advance?.map fun taken => (true, taken.2)
  else some (false, s)

theorem advance?_eq_some {s t : ByteScanner} {byte : UInt8} (h : s.advance? = some (byte, t)) :
    s.curr < s.bytes.length ∧ t = { s with curr := s.curr + 1 } := by
  obtain ⟨b, hb, heq⟩ := Option.map_eq_some_iff.1 h
  exact ⟨(List.getElem?_eq_some_iff.1 hb).1, (Prod.mk.inj heq).2.symm⟩

/-- Take bytes as long as the next one is of a class. -/
def advanceWhile? (inClass : UInt8 → Bool) (s : ByteScanner) : Option ByteScanner :=
  if inClass s.peek then
    match _ : s.advance? with
    | none => none
    | some (_, t) => advanceWhile? inClass t
  else some s
termination_by s.bytes.length - s.curr
decreasing_by
  rename_i hadvance
  obtain ⟨hlt, rfl⟩ := advance?_eq_some hadvance
  exact Nat.sub_lt_sub_left hlt (Nat.lt_succ_self _)

/-! ### Tokens -/

/-- The token of a kind whose text has just been read. -/
def token? (s : ByteScanner) (kind : TokenKind) : Option (Token × ByteScanner) :=
  (Bytes.cut? s.bytes s.start s.curr).map fun text => (⟨kind, text, s.start, s.line⟩, s)

/-- The token of a fault in what has just been read. -/
def faultToken (s : ByteScanner) (fault : LexicalFault) : Token :=
  ⟨.error, fault.message, s.start, s.line⟩

/-- What can be done with what stands next, if it may be trivia. -/
inductive Trivium where
  /-- A blank or a comment has been skipped. -/
  | skipped (s : ByteScanner)
  /-- There is a comment without an end. -/
  | fault (t : Token) (s : ByteScanner)
  /-- No trivia stands there. -/
  | absent

/-- Skip a blank or a comment. The line break behind a line comment is left to be skipped. -/
def skipTrivium? (s : ByteScanner) : Option Trivium :=
  if Bytes.isSpace s.peek then s.advance?.map fun taken => .skipped taken.2
  else if s.peek = '\n'.toUInt8 then
    advance? { s with line := s.line + 1 } |>.map fun taken => .skipped taken.2
  else if s.peek = '/'.toUInt8 ∧ s.peekNext = '/'.toUInt8 then
    (Bytes.from? s.bytes s.curr).map fun ahead =>
      match ahead.idxOf? '\n'.toUInt8 with
      | some place => .skipped { s with curr := s.curr + place }
      | none => .skipped { s with curr := s.bytes.length }
  else if s.peek = '/'.toUInt8 ∧ s.peekNext = '*'.toUInt8 then
    let s := { s with start := s.curr }
    (Bytes.from? s.bytes (s.curr + 2)).bind fun body =>
      match Bytes.commentEnd? body with
      | some place => (Bytes.between? body 0 place).map fun inside =>
        .skipped { s with line := s.line + Bytes.breaks inside, curr := s.curr + 2 + place + 2 }
      | none =>
        let s := { s with line := s.line + Bytes.breaks body, curr := s.bytes.length }
        some (.fault (s.faultToken .unterminatedComment) s)
  else some .absent

theorem lt_length_of_peek {s : ByteScanner} (h : s.peek ≠ 0) : s.curr < s.bytes.length := by
  refine Nat.lt_of_not_le fun hge => h ?_
  rw [peek, List.getElem?_eq_none hge]
  rfl

/-- Trivia that is skipped is not empty. -/
theorem skipTrivium?_lt {s t : ByteScanner} (h : s.skipTrivium? = some (.skipped t)) :
    t.bytes = s.bytes ∧ s.curr < t.curr ∧ s.curr < s.bytes.length := by
  have htaken : ∀ {u : ByteScanner}, u.advance?.map (fun taken => Trivium.skipped taken.2)
      = some (.skipped t) → t.bytes = u.bytes ∧ u.curr < t.curr ∧ u.curr < u.bytes.length := by
    intro u h
    obtain ⟨⟨byte, v⟩, hadvance, heq⟩ := Option.map_eq_some_iff.1 h
    obtain ⟨hlt, rfl⟩ := advance?_eq_some hadvance
    obtain rfl := Trivium.skipped.inj heq
    exact ⟨rfl, Nat.lt_succ_self _, hlt⟩
  unfold skipTrivium? at h
  split at h
  · exact htaken h
  split at h
  · exact htaken (u := { s with line := s.line + 1 }) h
  split at h
  · rename_i hslash
    have hlt : s.curr < s.bytes.length :=
      lt_length_of_peek (by rw [hslash.1]; decide)
    obtain ⟨ahead, hahead, hskipped⟩ := Option.map_eq_some_iff.1 h
    rw [Bytes.from?, if_pos (Nat.le_of_lt hlt)] at hahead
    obtain rfl := Option.some.inj hahead
    split at hskipped
    · rename_i place hplace
      obtain rfl := Trivium.skipped.inj hskipped
      -- The first byte is a slash, so that the line break is not the first one.
      obtain ⟨hbound, hbreak, -⟩ := List.idxOf?_eq_some_iff.1 hplace
      have hpos : place ≠ 0 := by
        rintro rfl
        rw [List.getElem_drop] at hbreak
        have hpeek := hslash.1
        rw [peek, List.getElem?_eq_getElem hlt, Option.getD_some] at hpeek
        exact absurd (hpeek.symm.trans hbreak) (by decide)
      exact ⟨rfl, Nat.lt_add_of_pos_right (Nat.pos_of_ne_zero hpos), hlt⟩
    · obtain rfl := Trivium.skipped.inj hskipped
      exact ⟨rfl, hlt, hlt⟩
  split at h
  · rename_i hcomment
    have hlt : s.curr < s.bytes.length :=
      lt_length_of_peek (by rw [hcomment.1]; decide)
    obtain ⟨body, -, hbody⟩ := Option.bind_eq_some_iff.1 h
    split at hbody
    · obtain ⟨inside, -, hskipped⟩ := Option.map_eq_some_iff.1 hbody
      obtain rfl := Trivium.skipped.inj hskipped
      exact ⟨rfl, by simp only; omega, hlt⟩
    · cases hbody
  · cases h

/-- Skip all trivia. Also gives the token of a comment without an end. -/
def skipTrivia? (s : ByteScanner) : Option (Option Token × ByteScanner) :=
  match _ : s.skipTrivium? with
  | none => none
  | some (.skipped t) => skipTrivia? t
  | some (.fault token t) => some (some token, t)
  | some .absent => some (none, s)
termination_by s.bytes.length - s.curr
decreasing_by
  rename_i hskipped
  obtain ⟨hbytes, hcurr, hlt⟩ := skipTrivium?_lt hskipped
  rw [hbytes]
  exact Nat.sub_lt_sub_left hlt hcurr

/-- A string, behind its opening quote. -/
def string? (s : ByteScanner) : Option (Token × ByteScanner) :=
  (Bytes.from? s.bytes s.curr).bind fun ahead =>
    match ahead.idxOf? '"'.toUInt8 with
    | some place => (Bytes.between? s.bytes s.curr (s.curr + place)).bind fun body =>
      { s with line := s.line + Bytes.breaks body, curr := s.curr + place + 1 }.token? .string
    | none =>
      let s := { s with line := s.line + Bytes.breaks ahead, curr := s.bytes.length }
      some (s.faultToken .unterminatedString, s)

/-- A number, behind its first digit. -/
def number? (s : ByteScanner) : Option (Token × ByteScanner) :=
  (s.advanceWhile? Bytes.isDigit).bind fun s =>
    if s.peek = '.'.toUInt8 ∧ Bytes.isDigit s.peekNext then
      s.advance?.bind fun taken =>
        (taken.2.advanceWhile? Bytes.isDigit).bind (token? · .number)
    else s.token? .number

/-- The kind of a word by its bytes. -/
def wordKind (word : List UInt8) : TokenKind :=
  ((TokenKind.keywords.find? (·.1.toUTF8.data.toList = word)).map (·.2)).getD .identifier

/-- A word, behind its first byte. -/
def word? (s : ByteScanner) : Option (Token × ByteScanner) :=
  (s.advanceWhile? Bytes.isWordPart).bind fun s =>
    (Bytes.between? s.bytes s.start s.curr).bind fun word => s.token? (wordKind word)

/-- A point, or three of them, behind the first. -/
def points? (s : ByteScanner) : Option (Token × ByteScanner) :=
  if s.peek = '.'.toUInt8 ∧ s.peekNext = '.'.toUInt8 then
    { s with curr := s.curr + 2 }.token? .dotDotDot
  else s.token? .dot

/-- A mark of a row, behind its first byte. -/
def mark? (s : ByteScanner) (single : Except LexicalFault TokenKind) :
    List (Char × TokenKind) → Option (Token × ByteScanner)
  | (second, kind) :: pairs =>
    (s.match? second.toUInt8).bind fun matched =>
      if matched.1 then matched.2.token? kind else matched.2.mark? single pairs
  | [] =>
    match single with
    | .ok kind => s.token? kind
    | .error fault => some (s.faultToken fault, s)

/-- A character that starts no token, behind its first byte. -/
def stray? (s : ByteScanner) : Option (Token × ByteScanner) :=
  (s.advanceWhile? Bytes.isContinuation).map fun s => (s.faultToken .strayCharacter, s)

/-- The token that stands next, in front of which there is no trivia. -/
def lexeme? (s : ByteScanner) : Option (Token × ByteScanner) :=
  let s := { s with start := s.curr }
  if s.atEnd then some (⟨.eof, "", s.curr, s.line⟩, s)
  else s.advance?.bind fun (byte, s) =>
    if byte = '.'.toUInt8 then s.points?
    else if byte = '"'.toUInt8 then s.string?
    else if Bytes.isDigit byte then s.number?
    else if Bytes.isWordStart byte then s.word?
    else match markRows.find? (·.first.toUInt8 = byte) with
      | some row => s.mark? row.single row.pairs
      | none => s.stray?

/-- The next token. The end token is handed out again and again. -/
def pull? (s : ByteScanner) : Option (Token × ByteScanner) :=
  s.skipTrivia?.bind fun
    | (some fault, s) => some (fault, s)
    | (none, s) => s.lexeme?

/-! ### Runs -/

/-- The next token, and no more once an end token has been handed out. -/
def next? (s : ByteScanner) : Option (Option Token × ByteScanner) :=
  if s.finished then some (none, s)
  else s.pull?.map fun (t, s) => (some t, { s with finished := t.kind = .eof })

end ByteScanner

/-- The two ways to ask a scanner for a token. -/
inductive TokenRequest where
  /-- As long as no end token has been handed out. -/
  | next
  /-- In any case. -/
  | pull
  deriving DecidableEq, Repr

/-- Answer a request. -/
def TokenIterator.answer (i : TokenIterator) : TokenRequest → Option Token × TokenIterator
  | .next => i.next?
  | .pull => (some i.pull.1, i.pull.2)

/-- Answer a request. -/
def ByteScanner.answer? (s : ByteScanner) : TokenRequest → Option (Option Token × ByteScanner)
  | .next => s.next?
  | .pull => s.pull?.map fun (t, s) => (some t, s)

/-- The answers to requests in a row, each with the iterator after it. -/
def TokenIterator.run (i : TokenIterator) : List TokenRequest → List (Option Token × TokenIterator)
  | [] => []
  | request :: rest => i.answer request :: (i.answer request).2.run rest

/-- The answers to requests in a row, each with the scanner after it. -/
def ByteScanner.run? (s : ByteScanner) :
    List TokenRequest → Option (List (Option Token × ByteScanner))
  | [] => some []
  | request :: rest =>
    (s.answer? request).bind fun answer => (answer.2.run? rest).map (answer :: ·)

end OnePass
