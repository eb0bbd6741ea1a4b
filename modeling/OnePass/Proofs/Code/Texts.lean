import OnePass.Proofs.Compile.Session
import OnePass.Proofs.Scope.Balanced

/-!
# OnePass.Proofs.Code.Texts

The store and the pool hold the same texts. Whatever a run has come to, its pool is what the
store has given for some constants one after the other (`Parser.exists_stored`), those that did
not fit an operand included, so that a text is stored if and only if the pool has it. What is done
with locals needs no texts (`variableUse_local`, `varDeclaration_local`).
-/

namespace OnePass

/-! ### The texts of a pool -/

/-- The texts in the pool of a chunk, in order, as often as they are there. -/
def Chunk.texts (c : Chunk) (strings : Interner) : List String :=
  c.constants.filterMap fun v => (v.content strings).text?

/-- A pool of constants that have been stored has their texts. -/
theorem texts_storeAll (s : Interner) (constants : List Constant) (code : List CodeByte) :
    Chunk.texts ⟨code, (TextStore.storeAll s constants).1⟩ (TextStore.storeAll s constants).2
      = constants.filterMap Constant.text? := by
  have hcontents := congrArg (List.filterMap Constant.text?)
    (TextStore.content_storeAll s constants)
  rwa [List.filterMap_map] at hcontents

namespace Parser

variable {p : Parser}

/-! ### Locals -/

/-- A use of a local stores nothing and adds nothing to the pool, except for the value of an
assignment. -/
theorem variableUse_local (operand : Precedence → Parser → Parser) (canAssign : Bool)
    {slot : UInt8} (h : p.resolveLocal p.previous = some slot) :
    let value := if canAssign && p.check .equal then operand .assignment p.advance else p
    (variableUse operand canAssign p).strings = value.strings
      ∧ (variableUse operand canAssign p).chunk.constants = value.chunk.constants := by
  have hplace : p.place p.previous = (.slot slot, p) := by
    rw [place, h]
  simp only [variableUse, hplace]
  split <;> exact ⟨rfl, rfl⟩

/-- Where a variable is a local, it comes into being without a text, or is refused. -/
theorem define_local (h : 0 < p.scope.depth) (name : Token) :
    (p.define name).strings = p.strings ∧ (p.define name).chunk = p.chunk := by
  rw [define, if_pos h, declareLocal]
  split
  · exact ⟨rfl, rfl⟩
  · exact ⟨errorAt_strings .., errorAt_chunk ..⟩

/-- A declaration of a local stores nothing and adds nothing to the pool, except for its
value. -/
theorem varDeclaration_local (h : 0 < p.scope.depth) :
    let value := (p.consume .identifier .variableNameMissing).initializer
    p.varDeclaration.strings = value.strings ∧ p.varDeclaration.chunk = value.chunk := by
  intro value
  have hvalue := (p.consume_does .identifier .variableNameMissing).append (initializer_does _)
  have hend := value.consume_does .semicolon .declarationEndMissing
  have hscope := (hvalue.append hend).scope_eq rfl
  rw [varDeclaration_eq]
  obtain ⟨hstrings, hchunk⟩ := define_local (hscope ▸ h)
    (p.consume .identifier .variableNameMissing).previous
  exact ⟨hstrings.trans (hend.strings_eq rfl),
    hchunk.trans (hend.chunk_eq rfl (by decide))⟩

end Parser

open OnePass.Parser

/-- The store of a compilation holds the texts of its pool and nothing else. Whatever the tokens
are, however many errors there have been and whether or not the pool has overflowed, a text is
stored if and only if it is that of a constant in the pool, constants have the same handle if
and only if they have the same text, and the size of the store is the number of different texts
in the pool. Locals that are used or declared add nothing to either, apart from the values that
they are given. -/
theorem stored_texts (unit : UnitKind) (stream : TokenStream) :
    (let p := (start stream .empty).run unit
    (∀ text, text ∈ p.strings.texts ↔ text ∈ p.chunk.texts p.strings)
      ∧ (∀ a b, .text a ∈ p.chunk.constants → .text b ∈ p.chunk.constants →
          (a = b ↔ p.strings.resolve a = p.strings.resolve b))
      ∧ p.strings.size = (p.chunk.texts p.strings).dedup.length)
    ∧ (∀ (p : Parser) (operand : Precedence → Parser → Parser) (canAssign : Bool) (slot : UInt8),
        p.resolveLocal p.previous = some slot →
        let value := if canAssign && p.check .equal then operand .assignment p.advance else p
        (variableUse operand canAssign p).strings = value.strings
          ∧ (variableUse operand canAssign p).chunk.constants = value.chunk.constants)
    ∧ ∀ p : Parser, 0 < p.scope.depth →
        let value := (p.consume .identifier .variableNameMissing).initializer
        p.varDeclaration.strings = value.strings
          ∧ p.varDeclaration.chunk = value.chunk := by
  refine ⟨?_, fun p operand canAssign slot h => variableUse_local operand canAssign h,
    fun p h => varDeclaration_local h⟩
  intro p
  obtain ⟨constants, hstored⟩ := exists_stored unit stream .empty
  obtain ⟨hpool, hstrings⟩ := Prod.mk.inj hstored
  -- Both sides are read off the constants that have been stored.
  have htexts : p.chunk.texts p.strings = constants.filterMap Constant.text? := by
    have hsame := texts_storeAll .empty constants p.chunk.code
    rwa [← hpool, ← hstrings] at hsame
  refine ⟨fun text => ?_, fun a b ha hb => ?_, ?_⟩
  · have hheld := TextStore.isSome_get?_storeAll Interner.empty constants text
    rw [← hstrings, ← htexts] at hheld
    exact Interner.isSome_get?_iff.symm.trans (hheld.trans (or_iff_right nofun))
  · have hholds := TextStore.holds_storeAll Interner.empty constants
    rw [← hpool, ← hstrings] at hholds
    exact (hholds _ ha).handle_eq_iff (hholds _ hb)
  · have hsize : p.strings.size = (constants.filterMap Constant.text?).dedup.length := by
      rw [hstrings]
      exact TextStore.size_storeAll Interner constants
    rw [hsize, htexts]

/-- A text that is in the pool twice, texts that locals are given, and an error; then an assignment
to a local, and a name that is refused as it is taken. -/
theorem stored_texts_in_blocks :
    (let source := "\x7b var x = \"a\"; x = \"b\"; \x7d y = \"a\"; )"
    let p := (start (.ofSource source) .empty).run .program
    p.hadError = true
      ∧ .text ⟨0⟩ ∈ p.chunk.constants ∧ .text ⟨1⟩ ∈ p.chunk.constants
      ∧ ((⟨0⟩ : Handle) = ⟨1⟩ ↔ p.strings.resolve ⟨0⟩ = p.strings.resolve ⟨1⟩)
      ∧ p.chunk.texts p.strings = ["a", "b", "y", "a"]
      ∧ p.strings.size = (p.chunk.texts p.strings).dedup.length)
    ∧ (let x : Token := ⟨.identifier, "x", 0, 1⟩
      let p : Parser := { start (.ofSource "= 1") .empty with
        previous := x, scope := ⟨[⟨x, 1⟩], 1⟩ }
      p.resolveLocal p.previous = some 0
        ∧ (variableUse parsePrecedence true p).strings
          = (p.advance.parsePrecedence .assignment).strings)
    ∧ let x : Token := ⟨.identifier, "x", 0, 1⟩
      let p : Parser := { start (.ofSource "x;") .empty with scope := ⟨[⟨x, 1⟩], 1⟩ }
      0 < p.scope.depth ∧ p.varDeclaration.hadError = true
        ∧ p.varDeclaration.strings
          = (p.consume .identifier .variableNameMissing).initializer.strings := by
  refine ⟨?_, ?_, ?_⟩
  · intro source p
    obtain ⟨-, hhandles, hsize⟩ := (stored_texts .program (.ofSource source)).1
    have hfirst : .text ⟨0⟩ ∈ p.chunk.constants := by decide +kernel
    have hsecond : .text ⟨1⟩ ∈ p.chunk.constants := by decide +kernel
    exact ⟨by decide +kernel, hfirst, hsecond, hhandles _ _ hfirst hsecond, by decide +kernel,
      hsize⟩
  · intro x p
    have hslot : p.resolveLocal p.previous = some 0 := by decide +kernel
    have hequal : p.check .equal = true := by decide +kernel
    have huse := ((stored_texts .program (.ofSource "")).2.1 p parsePrecedence true 0 hslot).1
    rw [hequal] at huse
    exact ⟨hslot, huse⟩
  · intro x p
    have hblock : 0 < p.scope.depth := by decide
    exact ⟨hblock, by decide +kernel, ((stored_texts .program (.ofSource "")).2.2 p hblock).1⟩

end OnePass
