import OnePass.Lexical.Piece
import OnePass.Token.Stream

/-!
# OnePass.Lexical.Source

From source text to tokens. Blanks are dropped; a token keeps the text of its
piece, a fault becomes an error token that carries its message. A token stands at
the byte where its piece starts, on the line where its piece ends.
-/

namespace OnePass

/-- The number of bytes of a text. -/
def byteCount (text : List Char) : Nat :=
  text.foldr (fun c count => c.utf8Size + count) 0

/-- A place in a source: bytes and line breaks passed so far. -/
structure Position where
  offset : Nat
  line : Nat
  deriving DecidableEq, Repr

namespace Position

def start : Position := ⟨0, 1⟩

/-- The place after a stretch of text. -/
def after (place : Position) (text : List Char) : Position :=
  ⟨place.offset + byteCount text, place.line + text.count '\n'⟩

end Position

/-- The token of a piece that starts at a place, if it has one. -/
def Piece.token? (piece : Piece) (place : Position) : Option Token :=
  let line := (place.after piece.text).line
  match piece.shape with
  | .blank => none
  | .token kind => some ⟨kind, String.ofList piece.text, place.offset, line⟩
  | .fault fault => some ⟨.error, fault.message, place.offset, line⟩

/-- The tokens of pieces that start at a place. -/
def locate (place : Position) : List Piece → List Token
  | [] => []
  | piece :: rest =>
    let tokens := locate (place.after piece.text) rest
    match piece.token? place with
    | none => tokens
    | some token => token :: tokens

/-- The tokens of a source, and the place of its end. -/
def TokenStream.ofSource (source : String) : TokenStream :=
  let text := source.toList
  let finish := Position.start.after text
  ⟨locate .start (pieces text), finish.offset, finish.line⟩

/-- All tokens of a source. The last one is its only end token. -/
def tokenize (source : String) : List Token := (TokenStream.ofSource source).toList

end OnePass
