/-!
# OnePass.Token.Kind

The kinds of token of the Toy language, their names, and the two tables from
which the spelled ones are recognised: `TokenKind.marks` for punctuation and
operators, `TokenKind.keywords` for reserved words.
-/

namespace OnePass

/-- What a token is. A kind carries no text: the token holds its own. -/
inductive TokenKind where
  -- Brackets and separators.
  | leftParen | rightParen | leftBrace | rightBrace | leftBracket | rightBracket
  | semicolon | comma
  -- Operators.
  | plus | plusEqual | plusPlus | minus | minusEqual | minusMinus | star | starEqual
  | slash | slashEqual | modulo | moduloEqual | bang | bangEqual | equal | equalEqual
  | equalGreater | greater | greaterEqual | less | lessEqual | lessOr | andAnd | orOr
  | orGreater | dot | dotDotDot | question | colon
  -- Names and literals; a string keeps its quotes.
  | identifier | number | string
  -- Reserved words.
  | kwAs | kwAssert | kwBreak | kwConst | kwContinue | kwDo | kwElse | kwFalse | kwFor
  | kwForeach | kwIf | kwImport | kwIn | kwNil | kwOf | kwPrint | kwReturn | kwTrue
  | kwVar | kwWhile
  -- `pass` is reserved, `error` carries a message as its text, `eof` ends the input.
  | pass | error | eof
  deriving DecidableEq, Repr, Inhabited

namespace TokenKind

/-- Every kind, in the order of declaration. -/
def all : List TokenKind :=
  [.leftParen, .rightParen, .leftBrace, .rightBrace, .leftBracket, .rightBracket,
   .semicolon, .comma, .plus, .plusEqual, .plusPlus, .minus, .minusEqual, .minusMinus,
   .star, .starEqual, .slash, .slashEqual, .modulo, .moduloEqual, .bang, .bangEqual,
   .equal, .equalEqual, .equalGreater, .greater, .greaterEqual, .less, .lessEqual,
   .lessOr, .andAnd, .orOr, .orGreater, .dot, .dotDotDot, .question, .colon, .identifier,
   .number, .string, .kwAs, .kwAssert, .kwBreak, .kwConst, .kwContinue, .kwDo, .kwElse,
   .kwFalse, .kwFor, .kwForeach, .kwIf, .kwImport, .kwIn, .kwNil, .kwOf, .kwPrint,
   .kwReturn, .kwTrue, .kwVar, .kwWhile, .pass, .error, .eof]

/-- The name under which a kind is printed. -/
def name : TokenKind → String
  | .leftParen => "LEFT_PAREN"
  | .rightParen => "RIGHT_PAREN"
  | .leftBrace => "LEFT_BRACE"
  | .rightBrace => "RIGHT_BRACE"
  | .leftBracket => "LEFT_BRACKET"
  | .rightBracket => "RIGHT_BRACKET"
  | .semicolon => "SEMICOLON"
  | .comma => "COMMA"
  | .plus => "PLUS"
  | .plusEqual => "PLUS_EQUAL"
  | .plusPlus => "PLUS_PLUS"
  | .minus => "MINUS"
  | .minusEqual => "MINUS_EQUAL"
  | .minusMinus => "MINUS_MINUS"
  | .star => "STAR"
  | .starEqual => "STAR_EQUAL"
  | .slash => "SLASH"
  | .slashEqual => "SLASH_EQUAL"
  | .modulo => "MODULO"
  | .moduloEqual => "MODULO_EQUAL"
  | .bang => "BANG"
  | .bangEqual => "BANG_EQUAL"
  | .equal => "EQUAL"
  | .equalEqual => "EQUAL_EQUAL"
  | .equalGreater => "EQUAL_GREATER"
  | .greater => "GREATER"
  | .greaterEqual => "GREATER_EQUAL"
  | .less => "LESS"
  | .lessEqual => "LESS_EQUAL"
  | .lessOr => "LESS_OR"
  | .andAnd => "AND_AND"
  | .orOr => "OR_OR"
  | .orGreater => "OR_GREATER"
  | .dot => "DOT"
  | .dotDotDot => "DOT_DOT_DOT"
  | .question => "QUESTION"
  | .colon => "COLON"
  | .identifier => "IDENTIFIER"
  | .number => "NUMBER"
  | .string => "STRING"
  | .kwAs => "AS"
  | .kwAssert => "ASSERT"
  | .kwBreak => "BREAK"
  | .kwConst => "CONST"
  | .kwContinue => "CONTINUE"
  | .kwDo => "DO"
  | .kwElse => "ELSE"
  | .kwFalse => "FALSE"
  | .kwFor => "FOR"
  | .kwForeach => "FOREACH"
  | .kwIf => "IF"
  | .kwImport => "IMPORT"
  | .kwIn => "IN"
  | .kwNil => "NIL"
  | .kwOf => "OF"
  | .kwPrint => "PRINT"
  | .kwReturn => "RETURN"
  | .kwTrue => "TRUE"
  | .kwVar => "VAR"
  | .kwWhile => "WHILE"
  | .pass => "PASS"
  | .error => "ERROR"
  | .eof => "EOF"

/-- The kind printed under a given name. -/
def ofName? (text : String) : Option TokenKind :=
  all.find? (·.name = text)

/-! ### Spellings -/

/-- Punctuation and operators, longest spelling first, so that the first entry
that begins a text is also the longest one that does. -/
def marks : List (String × TokenKind) :=
  [("...", .dotDotDot), ("+=", .plusEqual), ("++", .plusPlus), ("-=", .minusEqual),
   ("--", .minusMinus), ("*=", .starEqual), ("/=", .slashEqual), ("%=", .moduloEqual),
   ("!=", .bangEqual), ("==", .equalEqual), ("=>", .equalGreater), (">=", .greaterEqual),
   ("<=", .lessEqual), ("<|", .lessOr), ("&&", .andAnd), ("||", .orOr),
   ("|>", .orGreater), ("(", .leftParen), (")", .rightParen), ("\x7b", .leftBrace),
   ("\x7d", .rightBrace), ("[", .leftBracket), ("]", .rightBracket), (";", .semicolon),
   (",", .comma), ("+", .plus), ("-", .minus), ("*", .star), ("/", .slash),
   ("%", .modulo), ("!", .bang), ("=", .equal), (">", .greater), ("<", .less),
   (".", .dot), ("?", .question), (":", .colon)]

/-- The reserved words. -/
def keywords : List (String × TokenKind) :=
  [("as", .kwAs), ("assert", .kwAssert), ("break", .kwBreak), ("const", .kwConst),
   ("continue", .kwContinue), ("do", .kwDo), ("else", .kwElse), ("false", .kwFalse),
   ("for", .kwFor), ("foreach", .kwForeach), ("if", .kwIf), ("import", .kwImport),
   ("in", .kwIn), ("nil", .kwNil), ("of", .kwOf), ("print", .kwPrint),
   ("return", .kwReturn), ("true", .kwTrue), ("var", .kwVar), ("while", .kwWhile)]

/-- The kind of a word: a reserved word if the table has it, else a name. -/
def ofWord (word : String) : TokenKind :=
  (keywords.lookup word).getD .identifier

/-! ### The tables -/

theorem mem_all (kind : TokenKind) : kind ∈ all := by
  cases kind <;> decide

/-- No later mark is longer than an earlier one. -/
theorem marks_longest_first : marks.Pairwise (fun a b => b.1.length ≤ a.1.length) := by
  decide

theorem ofWord_of_mem {entry : String × TokenKind} (h : entry ∈ keywords) :
    ofWord entry.1 = entry.2 := by
  revert entry; decide

end TokenKind

end OnePass
