/-!
# OnePass.Text.Json

JSON documents whose objects keep the order of their fields, and their indented
form: two spaces a level, one item or field a line.
-/

namespace OnePass

/-- A JSON document, of the kinds that are printed. -/
inductive Json where
  | null
  | number (value : Nat)
  | text (value : String)
  | list (items : List Json)
  | object (fields : List (String × Json))

namespace Json

/-! ### Strings -/

/-- A hexadecimal digit, in lower case. -/
def hexDigit (n : Nat) : Char := Nat.digitChar (n % 16)

/-- A character inside a JSON string. Only quotes, backslashes and control
characters are escaped, the latter by a letter where there is one. -/
def escape (c : Char) : List Char :=
  match c with
  | '"' => ['\\', '"']
  | '\\' => ['\\', '\\']
  | '\n' => ['\\', 'n']
  | '\t' => ['\\', 't']
  | '\r' => ['\\', 'r']
  | '\x08' => ['\\', 'b']
  | '\x0c' => ['\\', 'f']
  | c =>
    if c.toNat < 32 then ['\\', 'u', '0', '0', hexDigit (c.toNat / 16), hexDigit c.toNat]
    else [c]

/-- A string between quotes. -/
def quote (s : String) : String :=
  String.ofList ('"' :: s.toList.flatMap escape ++ ['"'])

/-! ### Documents -/

/-- A new line at a level of indentation. -/
def lineBreak (level : Nat) : String :=
  String.ofList ('\n' :: List.replicate (2 * level) ' ')

/-- Items one level in, between brackets on lines of their own; brackets without
items stand together. -/
def enclose (opening closing : String) (level : Nat) : List String → String
  | [] => opening ++ closing
  | items =>
    opening ++ ",".intercalate (items.map (lineBreak (level + 1) ++ ·))
      ++ lineBreak level ++ closing

mutual

/-- The indented form of a document that starts at a level of indentation. -/
def indented (level : Nat) : Json → String
  | .null => "null"
  | .number n => toString n
  | .text s => quote s
  | .list items => enclose "[" "]" level (indentedItems (level + 1) items)
  | .object fields => enclose "\x7b" "\x7d" level (indentedFields (level + 1) fields)

def indentedItems (level : Nat) : List Json → List String
  | [] => []
  | item :: rest => indented level item :: indentedItems level rest

def indentedFields (level : Nat) : List (String × Json) → List String
  | [] => []
  | (name, value) :: rest =>
    (quote name ++ ": " ++ indented level value) :: indentedFields level rest

end

/-- The indented form of a whole document. -/
def pretty (document : Json) : String := document.indented 0

end Json

end OnePass
