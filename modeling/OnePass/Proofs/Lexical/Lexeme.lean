import Mathlib.Data.List.Basic
import OnePass.Lexical.Piece

/-!
# OnePass.Proofs.Lexical.Lexeme

The lexemes of the language, said without reference to how they are found: what
the text of a token of each kind looks like (`Lexeme`), what stands between tokens
(`Trivia`), and that the first character of a lexeme tells its family apart.

The spellings are given kind by kind (`TokenKind.mark?`, `TokenKind.word?`); the
tables that the scanner searches are shown to hold exactly these.
-/

namespace OnePass

namespace TokenKind

/-- The spelling of a kind of punctuation or operator. -/
def mark? : TokenKind → Option String
  | .leftParen => some "("
  | .rightParen => some ")"
  | .leftBrace => some "\x7b"
  | .rightBrace => some "\x7d"
  | .leftBracket => some "["
  | .rightBracket => some "]"
  | .semicolon => some ";"
  | .comma => some ","
  | .plus => some "+"
  | .plusEqual => some "+="
  | .plusPlus => some "++"
  | .minus => some "-"
  | .minusEqual => some "-="
  | .minusMinus => some "--"
  | .star => some "*"
  | .starEqual => some "*="
  | .slash => some "/"
  | .slashEqual => some "/="
  | .modulo => some "%"
  | .moduloEqual => some "%="
  | .bang => some "!"
  | .bangEqual => some "!="
  | .equal => some "="
  | .equalEqual => some "=="
  | .equalGreater => some "=>"
  | .greater => some ">"
  | .greaterEqual => some ">="
  | .less => some "<"
  | .lessEqual => some "<="
  | .lessOr => some "<|"
  | .andAnd => some "&&"
  | .orOr => some "||"
  | .orGreater => some "|>"
  | .dot => some "."
  | .dotDotDot => some "..."
  | .question => some "?"
  | .colon => some ":"
  | _ => none

/-- The spelling of a reserved word. -/
def word? : TokenKind → Option String
  | .kwAs => some "as"
  | .kwAssert => some "assert"
  | .kwBreak => some "break"
  | .kwConst => some "const"
  | .kwContinue => some "continue"
  | .kwDo => some "do"
  | .kwElse => some "else"
  | .kwFalse => some "false"
  | .kwFor => some "for"
  | .kwForeach => some "foreach"
  | .kwIf => some "if"
  | .kwImport => some "import"
  | .kwIn => some "in"
  | .kwNil => some "nil"
  | .kwOf => some "of"
  | .kwPrint => some "print"
  | .kwReturn => some "return"
  | .kwTrue => some "true"
  | .kwVar => some "var"
  | .kwWhile => some "while"
  | _ => none

/-- The table of marks gives every spelling to the kind that is spelled so. -/
theorem mark?_of_mem {spelling : String} {kind : TokenKind} (h : (spelling, kind) ∈ marks) :
    kind.mark? = some spelling := by
  -- The table is closed, so it is checked as a whole and then read at one entry.
  have table : ∀ entry ∈ marks, entry.2.mark? = some entry.1 := by decide
  exact table _ h

/-- No mark is missing from the table. -/
theorem mem_marks_of_mark? {spelling : String} {kind : TokenKind}
    (h : kind.mark? = some spelling) : (spelling, kind) ∈ marks := by
  have table : ∀ k ∈ all, ∀ s ∈ k.mark?, (s, k) ∈ marks := by decide
  exact table kind (mem_all kind) spelling h

theorem word?_of_mem {word : String} {kind : TokenKind} (h : (word, kind) ∈ keywords) :
    kind.word? = some word := by
  have table : ∀ entry ∈ keywords, entry.2.word? = some entry.1 := by decide
  exact table _ h

theorem mem_keywords_of_word? {word : String} {kind : TokenKind}
    (h : kind.word? = some word) : (word, kind) ∈ keywords := by
  have table : ∀ k ∈ all, ∀ s ∈ k.word?, (s, k) ∈ keywords := by decide
  exact table kind (mem_all kind) word h

end TokenKind

/-! ### Lexemes -/

/-- A word: a letter or an underscore, and then letters, digits and underscores. -/
def IsWord (text : List Char) : Prop :=
  ∃ first tail, text = first :: tail ∧ (first.isAlpha ∨ first = '_')
    ∧ ∀ c ∈ tail, c.isAlphanum ∨ c = '_'

/-- A text that is, as a whole, the text of a token of a kind. -/
inductive Lexeme : TokenKind → List Char → Prop where
  | mark {kind spelling} (h : kind.mark? = some spelling) : Lexeme kind spelling.toList
  | whole {digits} (hne : digits ≠ []) (hd : ∀ d ∈ digits, d.isDigit) : Lexeme .number digits
  | fraction {digits places} (hne : digits ≠ []) (hd : ∀ d ∈ digits, d.isDigit)
      (pne : places ≠ []) (hp : ∀ d ∈ places, d.isDigit) :
      Lexeme .number (digits ++ '.' :: places)
  | string {body} (h : '"' ∉ body) : Lexeme .string ('"' :: (body ++ ['"']))
  | reserved {kind text} (hw : IsWord text) (h : kind.word? = some (String.ofList text)) :
      Lexeme kind text
  | name {text} (hw : IsWord text)
      (h : ∀ kind : TokenKind, kind.word? ≠ some (String.ofList text)) :
      Lexeme .identifier text

/-- A text in front of `rest` that holds white space and comments only. A line
comment reaches to the next line break or the end; a block comment to the first
end mark behind its start mark. -/
inductive Trivia : List Char → List Char → Prop where
  | nil {rest} : Trivia [] rest
  | blank {c text rest} (hc : c ∈ [' ', '\t', '\r', '\n']) (h : Trivia text rest) :
      Trivia (c :: text) rest
  | line {body text rest} (hb : '\n' ∉ body) (hend : ∀ c ∈ (text ++ rest).head?, c = '\n')
      (h : Trivia text rest) : Trivia ('/' :: '/' :: (body ++ text)) rest
  | block {body text rest} (hb : ¬ ['*', '/'] <:+: body ++ ['*']) (h : Trivia text rest) :
      Trivia ('/' :: '*' :: (body ++ '*' :: '/' :: text)) rest

/-- `Longest text rest`: of the prefixes of `text ++ rest` that are lexemes, none is
longer than `text`. -/
def Longest (text rest : List Char) : Prop :=
  ∀ kind other, Lexeme kind other → other <+: text ++ rest → other.length ≤ text.length

/-- A stretch in front of `rest` with which no token starts, and what is said of it. -/
inductive Unreadable : String → List Char → List Char → Prop where
  | string {body} (h : '"' ∉ body) : Unreadable "Unterminated string." ('"' :: body) []
  | comment {body} (h : ¬ ['*', '/'] <:+: body) :
      Unreadable "Unterminated comment." ('/' :: '*' :: body) []
  | ampersand {rest} (h : rest.head? ≠ some '&') :
      Unreadable "Unexpected character: expected '&&'" ['&'] rest
  | bar {rest} (h : rest.head? ≠ some '|') (h' : rest.head? ≠ some '>') :
      Unreadable "Unexpected character: expected '||' or '|>'" ['|'] rest
  | stray {c rest} (hc : c ∉ [' ', '\t', '\r', '\n'])
      (h : ∀ kind text, ¬ Lexeme kind (c :: text)) :
      Unreadable "Unexpected character" [c] rest

/-- Whether a comment starts a text. -/
def OpensComment (text : List Char) : Prop := ['/', '/'] <+: text ∨ ['/', '*'] <+: text

end OnePass
