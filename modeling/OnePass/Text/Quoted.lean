import OnePass.Text.Printable

/-!
# OnePass.Text.Quoted

Names between double quotes, as they stand in messages: what would not show, or
would be mistaken for part of the quoting, is escaped.
-/

namespace OnePass.Quoted

/-- A character of a quoted name. -/
def escape (c : Char) : List Char :=
  match c with
  | '\x00' => ['\\', '0']
  | '\t' => ['\\', 't']
  | '\r' => ['\\', 'r']
  | '\n' => ['\\', 'n']
  | '\\' => ['\\', '\\']
  | '"' => ['\\', '"']
  | c =>
    if isPrintable c then [c]
    else '\\' :: 'u' :: '{' :: Nat.toDigits 16 c.toNat ++ ['}']

/-- A name between quotes. -/
def quote (name : String) : String :=
  String.ofList ('"' :: name.toList.flatMap escape ++ ['"'])

end OnePass.Quoted
