import OnePass.Proofs.Code.Relocate
import OnePass.Proofs.Code.WellFormed
import OnePass.Proofs.Compile.Discipline

/-!
# OnePass.Proofs.Compile.Concat

Programs one behind the other, with a line break between them. Nothing of the first is
left when the second starts but its code and its constants, so that the second is
compiled to what it comes to alone, relocated (`compile_concat`).

The proof goes through the reference translation: both sources are the texts of trees, the trees
in a row are those of the whole, and translating them in a row is translating the second one in
the scope and behind the constants of the first (`Stmt.codeOf_append`), which at the outermost
level is relocation.
-/

namespace OnePass

open Stmt

/-! ### Rows of trees -/

/-- The row of a text behind another one is that of the text alone, moved. -/
theorem Stmt.Span.append {ss ss' : List Stmt} {p q : String} {eof eof' : Token}
    (h : Span ss p eof) (h' : Span ss' q eof') :
    Span (ss ++ shiftAll (bytesOver p) (linesOver p) ss') (p ++ "\n" ++ q)
      (eof'.shift (bytesOver p) (linesOver p)) := by
  obtain ⟨hderived, hpending, -⟩ := span_iff.1 h
  obtain ⟨hderived', hpending', hending'⟩ := span_iff.1 h'
  refine span_iff.2 ⟨fun s hs => ?_, ?_, ?_⟩
  · rcases List.mem_append.1 hs with hs | hs
    · exact hderived s hs
    · obtain ⟨s', hs', rfl⟩ := mem_shiftAll _ _ hs
      exact (hderived' s' hs').shift _ _
  · have hreadable : ∀ t ∈ (TokenStream.ofSource p).pending, t.kind ≠ .error :=
      fun t ht => kind_ne_error_of_mem hderived (hpending ▸ ht)
    rw [pending_append hreadable, hpending, hpending', tokensOf_append, tokensOf_shiftAll]
  · rw [ending_append, hending']

section Row

variable (bytes lines : Nat) (ss ss' : List Stmt)

theorem Stmt.constantsOf_row :
    constantsOf .global (ss ++ shiftAll bytes lines ss')
      = constantsOf .global ss ++ constantsOf .global ss' := by
  rw [constantsOf_append, afterAll_global]
  exact congrArg (_ ++ ·) (constantsOf_shift bytes lines .global ss')

theorem Stmt.validAll_row (h : ValidAll .global ss) (h' : ValidAll .global ss') :
    ValidAll .global (ss ++ shiftAll bytes lines ss') := by
  rw [validAll_append, afterAll_global]
  exact ⟨h, ValidAll.shift bytes lines (f := .global) h'⟩

/-- Behind a program no local is in scope, so that the next one starts as it does alone. -/
theorem Stmt.unitCode_row (eof : Token) :
    unitCode (ss ++ shiftAll bytes lines ss') (eof.shift bytes lines)
      = codeOf .global 0 ss
        ++ (unitCode ss' eof).map (Written.relocate (constantsOf .global ss).length lines) := by
  have hsecond := codeOf_shift bytes lines (constantsOf .global ss).length .global 0 ss'
  rw [unitCode, unitCode, codeOf_append, afterAll_global, Nat.zero_add, List.map_append,
    ← hsecond, Nat.add_zero, List.append_assoc]
  rfl

end Row

/-! ### Compiled programs -/

/-- The code of whatever compiles is well formed. -/
theorem wellFormed_of_ok {unit : UnitKind} {source : String} {strings stored : Interner}
    {chunk : Chunk} (h : compileUnit unit source strings = (.ok chunk, stored)) :
    chunk.WellFormed := by
  obtain ⟨-, rfl, -⟩ := compileUnit_eq_ok_iff.1 h
  obtain ⟨log, hcourse⟩ := Parser.unit_course unit (Parser.start_nesting_lt _ strings)
  obtain ⟨before, q, -, hwrites, hp⟩ := hcourse.unit_writes
  rw [Parser.ofSource, hp]
  refine hwrites.wellFormed ?_
  rw [Parser.start, Parser.advance_chunk]
  rfl

section Programs

variable {p q : String}

/-- What compiling one text behind another comes to, given the rows of both. -/
theorem compile_row_eq_ok_iff {ss ss' : List Stmt} {eof eof' : Token} (h : Span ss p eof)
    (h' : Span ss' q eof') (hvalid : ValidAll .global ss) (hvalid' : ValidAll .global ss')
    (strings : Interner) (chunk : Chunk) (stored : Interner) :
    compile (p ++ "\n" ++ q) strings = (.ok chunk, stored) ↔
      (constantsOf .global ss).length + (constantsOf .global ss').length ≤ 256
        ∧ chunk.code = (codeOf .global 0 ss).flatMap Written.bytes
            ++ ((unitCode ss' eof').map
                (Written.relocate (constantsOf .global ss).length (linesOver p))).flatMap
              Written.bytes
        ∧ (chunk.constants, stored)
            = TextStore.storeAll strings (constantsOf .global ss ++ constantsOf .global ss') := by
  have hrow := h.append h'
  rw [← constantsOf_row (bytesOver p) (linesOver p), ← List.length_append,
    ← constantsOf_row (bytesOver p) (linesOver p), ← List.flatMap_append,
    ← unitCode_row (bytesOver p) (linesOver p), compile_eq_ok_iff]
  constructor
  · rintro ⟨all, eof'', hall, -, hroom, hcode, hpool⟩
    -- Whatever the parser has read is the one row of trees that the text has.
    obtain rfl := hall.unique hrow
    obtain rfl : eof'' = eof'.shift (bytesOver p) (linesOver p) :=
      (span_iff.1 hall).2.2.symm.trans (span_iff.1 hrow).2.2
    exact ⟨hroom, hcode, hpool⟩
  · rintro ⟨hroom, hcode, hpool⟩
    exact ⟨_, _, hrow, validAll_row _ _ ss ss' hvalid hvalid', hroom, hcode, hpool⟩

/-- Two programs that compile can be put one behind the other if and only if there is room
for the constants of both. The code is then that of the first up to its return, and behind
it that of the second, in which the operands that refer to constants go up by the number of
the first one's constants and the lines by those that the second has moved. The pool holds
the constants of the first and, behind them, those of the second. -/
theorem compile_concat {s₁ stored₁ s₂ stored₂ : Interner} {first second : Chunk}
    (hp : compile p s₁ = (.ok first, stored₁)) (hq : compile q s₂ = (.ok second, stored₂))
    (strings : Interner) :
    ((∃ chunk, (compile (p ++ "\n" ++ q) strings).1 = .ok chunk) ↔
      first.constants.length + second.constants.length ≤ 256)
    ∧ ∀ chunk stored, compile (p ++ "\n" ++ q) strings = (.ok chunk, stored) →
        ∃ body line, first.code = body ++ [⟨OpCode.ret.toByte, line⟩]
          ∧ second.code = (second.instructions.map Written.ofInstruction).flatMap Written.bytes
          ∧ chunk.code = body ++ (second.instructions.map fun i =>
              (Written.ofInstruction i).relocate first.constants.length (linesOver p)).flatMap
                Written.bytes
          ∧ (∀ i ∈ second.instructions, i.op.refersToConstant = true →
              ∃ index, i.operand = some index ∧ first.constants.length + index.toNat < 256)
          ∧ chunk.constants.map (·.content stored)
              = first.constants.map (·.content stored₁)
                ++ second.constants.map (·.content stored₂) := by
  obtain ⟨ss, eof, hspan, hvalid, -, hcode, hpool⟩ := compile_eq_ok_iff.1 hp
  obtain ⟨ss', eof', hspan', hvalid', -, hcode', hpool'⟩ := compile_eq_ok_iff.1 hq
  obtain ⟨hfirst, rfl⟩ := Prod.mk.inj hpool
  obtain ⟨hsecond, rfl⟩ := Prod.mk.inj hpool'
  have hlength : first.constants.length = (constantsOf .global ss).length := by
    rw [hfirst, TextStore.length_storeAll]
  have hlength' : second.constants.length = (constantsOf .global ss').length := by
    rw [hsecond, TextStore.length_storeAll]
  have hiff := compile_row_eq_ok_iff hspan hspan' hvalid hvalid' strings
  rw [← hlength, ← hlength'] at hiff
  constructor
  · constructor
    · rintro ⟨chunk, hchunk⟩
      exact ((hiff _ _).1 (Prod.ext hchunk rfl)).1
    · intro hroom
      exact ⟨⟨_, _⟩, congrArg Prod.fst ((hiff _ _).2 ⟨hroom, rfl, rfl⟩)⟩
  · intro chunk stored hok
    obtain ⟨hroom, hchunk, hpool''⟩ := (hiff _ _).1 hok
    obtain ⟨hconstants, rfl⟩ := Prod.mk.inj hpool''
    have hinstructions : second.instructions.map Written.ofInstruction = unitCode ss' eof' :=
      Chunk.instructions_unit hcode' (codeOf_fits .global 0 ss')
    refine ⟨(codeOf .global 0 ss).flatMap Written.bytes, eof.line, ?_, ?_, ?_, ?_, ?_⟩
    · rw [hcode, unitCode, List.flatMap_append]
      rfl
    · rw [hinstructions, hcode']
    · rw [hchunk, ← hinstructions, List.map_map]
      rfl
    · intro i hi hop
      -- An operand of the second refers to its own pool, for which there is still room.
      obtain ⟨index, hoperand, hlt⟩ := (wellFormed_of_ok hq).pooled i hi hop
      exact ⟨index, hoperand, Nat.lt_of_lt_of_le (Nat.add_lt_add_left hlt _) hroom⟩
    · rw [hconstants, hfirst, hsecond, TextStore.content_storeAll, TextStore.content_storeAll,
        TextStore.content_storeAll]

end Programs

/-- A global that is printed behind a comment at the end of the text that defines it. -/
theorem exists_compiled_row :
    ∃ chunk stored,
      compile ("var a = \"x\"; // end" ++ "\n" ++ "print a;") .empty = (.ok chunk, stored)
        ∧ chunk.code = [⟨0, 1⟩, ⟨0, 1⟩, ⟨8, 1⟩, ⟨1, 1⟩, ⟨7, 2⟩, ⟨2, 2⟩, ⟨19, 2⟩, ⟨20, 2⟩]
        ∧ chunk.constants.map (·.content stored) = [.text "x", .text "a", .text "a"] := by
  have hp : compile "var a = \"x\"; // end" .empty
      = (.ok ⟨[⟨0, 1⟩, ⟨0, 1⟩, ⟨8, 1⟩, ⟨1, 1⟩, ⟨20, 1⟩], [.text ⟨0⟩, .text ⟨1⟩]⟩,
          ⟨["x", "a"], by decide⟩) := by
    decide +kernel
  have hq : compile "print a;" .empty
      = (.ok ⟨[⟨7, 1⟩, ⟨0, 1⟩, ⟨19, 1⟩, ⟨20, 1⟩], [.text ⟨0⟩]⟩, ⟨["a"], by decide⟩) := by
    decide +kernel
  obtain ⟨hok, hall⟩ := compile_concat hp hq .empty
  obtain ⟨chunk, hchunk⟩ := hok.2 (by decide)
  obtain ⟨body, line, hbody, -, hcode, -, hcontents⟩ := hall chunk _ (Prod.ext hchunk rfl)
  have hsplit : ([⟨0, 1⟩, ⟨0, 1⟩, ⟨8, 1⟩, ⟨1, 1⟩] : List CodeByte) ++ [⟨20, 1⟩]
      = body ++ [⟨20, line⟩] := hbody
  obtain ⟨rfl, -⟩ := List.append_inj' hsplit rfl
  exact ⟨chunk, _, Prod.ext hchunk rfl, hcode.trans (by decide), hcontents⟩

end OnePass
