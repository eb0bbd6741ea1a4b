import OnePass.Compile
import OnePass.Proofs.Lexical.Literal
import OnePass.Proofs.Parser.Expression

/-!
# OnePass.Proofs.Compile.Unit

What both kinds of unit have in common: a compilation succeeds if and only if the last
state of the parser has no error, and then its first state had none.
-/

namespace OnePass

/-- A compilation gives a chunk if and only if the parser ends without an error. -/
theorem compileUnit_eq_ok_iff {unit : UnitKind} {source : String} {strings stored : Interner}
    {chunk : Chunk} :
    compileUnit unit source strings = (.ok chunk, stored) ↔
      (Parser.ofSource unit source strings).hadError = false
        ∧ (Parser.ofSource unit source strings).chunk = chunk
        ∧ (Parser.ofSource unit source strings).strings = stored := by
  rw [compileUnit, Prod.mk.injEq, Parser.result]
  cases herror : (Parser.ofSource unit source strings).hadError with
  | true => simp
  | false => simp

/-- A compilation that ends without an error has started in front of all tokens. -/
theorem Parser.ofSource_of_no_error {unit : UnitKind} {source : String} {strings : Interner}
    (h : (Parser.ofSource unit source strings).hadError = false) :
    Parser.ofSource unit source strings = run unit (entry (.ofSource source) strings) := by
  have hstart := (run_reaches unit (start (.ofSource source) strings)).no_error h
  rw [Parser.ofSource, start_of_no_error hstart]

/-- The same holds if the tokens are readable. -/
theorem Parser.ofSource_of_readable {source : String}
    (h : Readable (TokenStream.ofSource source).pending) (unit : UnitKind)
    (strings : Interner) :
    Parser.ofSource unit source strings = run unit (entry (.ofSource source) strings) := by
  rw [Parser.ofSource, start_eq_entry strings h.kindAhead_ne]

/-- What is written from the entry on is all that is in the chunk. -/
theorem Parser.chunk_write_entry (stream : TokenStream) (strings : Interner) (last : Token)
    (rest : List Token) (code : List Written) (constants : List Constant) :
    (((entry stream strings).moveTo last rest).write code constants).chunk
      = ⟨code.flatMap Written.bytes, (TextStore.storeAll strings constants).1⟩ := rfl

end OnePass
