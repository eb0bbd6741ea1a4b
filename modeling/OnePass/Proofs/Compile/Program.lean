import OnePass.Proofs.Compile.Unit
import OnePass.Proofs.Parser.Statement

/-!
# OnePass.Proofs.Compile.Program

Compiling a source that is a program, from end to end. It succeeds for the programs of
the grammar that keep the static rules, and for nothing else, and leads to the reference
translation of the program's only row of trees (`compile_reference`).
-/

namespace OnePass

open Stmt

namespace Parser

/-! ### The parser on a whole program -/

/-- The parser behind a program that it has compiled. -/
def completed (p : Parser) (f : Frames) (ss : List Stmt) : Parser :=
  ((p.ranAll f ss []).moveTo p.stream.ending []).write [⟨.ret, none, p.stream.ending.line⟩] []

/-- If a program compiles without an error, then it keeps the static rules. -/
theorem program_sound {p : Parser} {f : Frames} {ts : List Token} (h : p.Ready f ts)
    (hend : ∀ t ∈ ts, t.kind ≠ .eof) (herror : p.program.hadError = false) :
    ∃ ss, (∀ s ∈ ss, s.Derived) ∧ ts = tokensOf ss ∧ ValidAll f ss
      ∧ p.poolSize + (constantsOf f ss).length ≤ OpCode.operandCount
      ∧ p.program = p.completed f ss := by
  have hadvance := (emit_does _ _).no_error herror
  have hbody := (advance_does _).no_error hadvance
  obtain ⟨ss, rest, hderived, htokens, hrest, hvalid, hpool, heq⟩ :=
    declarations_sound _ hbody h (Nat.lt_succ_self _)
  -- The end has been reached, for no end token is among the tokens.
  obtain rfl : rest = [] := by
    cases rest with
    | nil => rfl
    | cons t rest =>
      have hkind : t.kind = .eof := hrest.elim id id
      exact absurd hkind (hend t (htokens ▸ List.mem_append_right _ List.mem_cons_self))
  refine ⟨ss, hderived, by simpa using htokens, hvalid, hpool, ?_⟩
  unfold program
  rw [heq, (p.at_ranAll f ss []).advance_nil, emit_eq]
  rfl

/-- A program that keeps the static rules compiles without an error. -/
theorem program_complete {p : Parser} {f : Frames} {ss : List Stmt}
    (h : p.Ready f (tokensOf ss)) (hlegible : Legible (tokensOf ss))
    (hderived : ∀ s ∈ ss, s.Derived) (hvalid : ValidAll f ss)
    (hpool : p.poolSize + (constantsOf f ss).length ≤ OpCode.operandCount) :
    p.program = p.completed f ss := by
  rw [← List.append_nil (tokensOf ss)] at h hlegible
  unfold program
  rw [declarations_complete _ (.inr rfl) rfl h hlegible (Nat.lt_succ_self _) hderived hvalid
    hpool, (p.at_ranAll f ss []).advance_nil, emit_eq]
  rfl

theorem entry_ready (stream : TokenStream) (strings : Interner) :
    (entry stream strings).Ready .global stream.pending :=
  ⟨at_entry .., rfl, Nat.zero_le _, rfl, Nat.zero_le _, rfl⟩

end Parser

/-! ### Programs of a source -/

/-- Whether statements are those of a program that is, up to its end, the whole source. -/
def Stmt.Span (ss : List Stmt) (source : String) (eof : Token) : Prop :=
  (∀ s ∈ ss, s.Derived) ∧ eof.kind = .eof ∧ tokenize source = tokensOf ss ++ [eof]

theorem Stmt.span_iff {ss : List Stmt} {source : String} {eof : Token} :
    Span ss source eof ↔ (∀ s ∈ ss, s.Derived)
      ∧ (TokenStream.ofSource source).pending = tokensOf ss
      ∧ (TokenStream.ofSource source).ending = eof := by
  constructor
  · rintro ⟨hderived, -, htokens⟩
    obtain ⟨hpending, hending⟩ := List.append_inj' htokens rfl
    exact ⟨hderived, hpending, List.singleton_injective hending⟩
  · rintro ⟨hderived, hpending, rfl⟩
    exact ⟨hderived, rfl, congrArg (· ++ _) hpending⟩

/-- A source is spanned by one row of statements at most. -/
theorem Stmt.Span.unique {ss ss' : List Stmt} {source : String} {eof eof' : Token}
    (h : Span ss source eof) (h' : Span ss' source eof') : ss = ss' := by
  obtain ⟨hderived, htokens, -⟩ := span_iff.1 h
  obtain ⟨hderived', htokens', -⟩ := span_iff.1 h'
  have heq : tokensOf ss ++ [] = tokensOf ss' ++ [] :=
    congrArg (· ++ []) (htokens.symm.trans htokens')
  exact (uniqueAll ss ss' hderived hderived' (.inr rfl) (.inr rfl) heq).1

/-! ### Compiling -/

/-- The reference translation of a program. -/
def Stmt.unitCode (ss : List Stmt) (eof : Token) : List Written :=
  codeOf .global 0 ss ++ [⟨.ret, none, eof.line⟩]

/-- All that a whole program writes; no local is left in scope. -/
theorem Parser.completed_entry (stream : TokenStream) (strings : Interner) (ss : List Stmt) :
    (entry stream strings).completed .global ss
      = ((entry stream strings).moveTo stream.ending []).write (unitCode ss stream.ending)
          (constantsOf .global ss) := by
  have hscope : (afterAll .global ss).scope = (entry stream strings).scope := by
    rw [afterAll_global]
    rfl
  rw [completed, ranAll, hscope]
  simp only [moveTo_rescope, write_rescope, write_moveTo, moveTo_moveTo, write_write,
    List.append_nil]
  rfl

/-- What the parser comes to on the tokens of a program that keeps the static rules. -/
theorem Parser.run_program {stream : TokenStream} {strings : Interner} {ss : List Stmt}
    (htokens : stream.pending = tokensOf ss) (hlegible : Legible stream.pending)
    (hderived : ∀ s ∈ ss, s.Derived) (hvalid : ValidAll .global ss)
    (hpool : (constantsOf .global ss).length ≤ OpCode.operandCount) :
    run .program (start stream strings)
      = ((entry stream strings).moveTo stream.ending []).write (unitCode ss stream.ending)
          (constantsOf .global ss) := by
  have hready := entry_ready stream strings
  have hsize : (entry stream strings).poolSize = 0 := rfl
  rw [htokens] at hready
  rw [← Nat.zero_add (constantsOf .global ss).length, ← hsize] at hpool
  rw [start_eq_entry strings hlegible.readable.kindAhead_ne, run,
    program_complete hready (htokens ▸ hlegible) hderived hvalid hpool, completed_entry]

/-- The tokens of a source without a lexical error are legible. -/
theorem legible_ofSource {source : String}
    (h : ∀ t ∈ (TokenStream.ofSource source).pending, t.kind ≠ .error) :
    Parser.Legible (TokenStream.ofSource source).pending :=
  fun t ht => ⟨h t ht, number?_isSome_of_mem ht⟩

theorem Stmt.Span.legible {ss : List Stmt} {source : String} {eof : Token}
    (h : Span ss source eof) : Parser.Legible (tokensOf ss) := by
  obtain ⟨hderived, htokens, -⟩ := span_iff.1 h
  rw [← htokens]
  refine legible_ofSource fun t ht => ?_
  rw [htokens] at ht
  exact kind_ne_error_of_mem hderived ht

/-- What compiling a source as a program comes to if there is no error. -/
theorem compile_eq_ok_iff {source : String} {strings : Interner} {chunk : Chunk}
    {stored : Interner} :
    compile source strings = (.ok chunk, stored) ↔
      ∃ (ss : List Stmt) (eof : Token), Span ss source eof ∧ ValidAll .global ss
        ∧ (constantsOf .global ss).length ≤ OpCode.operandCount
        ∧ chunk.code = (unitCode ss eof).flatMap Written.bytes
        ∧ (chunk.constants, stored) = TextStore.storeAll strings (constantsOf .global ss) := by
  have hsize : (Parser.entry (.ofSource source) strings).poolSize = 0 := rfl
  rw [compile, compileUnit_eq_ok_iff]
  constructor
  · rintro ⟨herror, rfl, rfl⟩
    have hentry := Parser.ofSource_of_no_error herror
    rw [hentry] at herror ⊢
    obtain ⟨ss, hderived, htokens, hvalid, hpool, heq⟩ :=
      Parser.program_sound (Parser.entry_ready _ _) (fun _ => kind_ne_eof_of_mem) herror
    rw [hsize, Nat.zero_add] at hpool
    refine ⟨ss, _, span_iff.2 ⟨hderived, htokens, rfl⟩, hvalid, hpool, ?_, ?_⟩
    all_goals rw [Parser.run, heq, Parser.completed_entry, Parser.chunk_write_entry]
    rfl
  · rintro ⟨ss, eof, hspan, hvalid, hpool, hcode, hconstants⟩
    have hlegible := hspan.legible
    obtain ⟨hderived, htokens, rfl⟩ := span_iff.1 hspan
    rw [← htokens] at hlegible
    obtain ⟨hconstants, hstored⟩ := Prod.mk.inj hconstants
    rw [Parser.ofSource, Parser.run_program htokens hlegible hderived hvalid hpool,
      Parser.chunk_write_entry, ← hcode, ← hconstants, hstored]
    exact ⟨rfl, rfl, rfl⟩

/-- Compiling a source as a program succeeds if and only if it has no lexical error, is a
program of the grammar that keeps the static rules, and has no more constants than an
operand can tell apart. The code is then the reference translation of the program's only
row of trees, and the pool holds its constants in the order of the source. -/
theorem compile_reference (source : String) :
    ((∃ chunk, (compile source .empty).1 = .ok chunk) ↔
      (∀ t ∈ tokenize source, t.kind ≠ .error)
        ∧ ∃ (ss : List Stmt) (eof : Token), Span ss source eof ∧ ValidAll .global ss
          ∧ (constantsOf .global ss).length ≤ 256)
    ∧ ∀ chunk strings, compile source .empty = (.ok chunk, strings) →
        ∃ (ss : List Stmt) (eof : Token), Span ss source eof
          ∧ (∀ ss' eof', Span ss' source eof' → ss' = ss)
          ∧ chunk.code = (unitCode ss eof).flatMap Written.bytes
          ∧ chunk.constants.map (·.content strings) = constantsOf .global ss := by
  refine ⟨⟨?_, ?_⟩, ?_⟩
  · rintro ⟨chunk, hchunk⟩
    obtain ⟨ss, eof, hspan, hvalid, hpool, -⟩ := compile_eq_ok_iff.1 (Prod.ext hchunk rfl)
    refine ⟨fun t ht => ?_, ss, eof, hspan, hvalid, hpool⟩
    obtain ⟨hderived, heof, htokens⟩ := hspan
    rw [htokens] at ht
    rcases List.mem_append.1 ht with ht | ht
    · exact kind_ne_error_of_mem hderived ht
    · rw [List.mem_singleton.1 ht, heof]
      decide
  · rintro ⟨-, ss, eof, hspan, hvalid, hpool⟩
    have hok : compile source .empty = (.ok ⟨(unitCode ss eof).flatMap Written.bytes, _⟩, _) :=
      compile_eq_ok_iff.2 ⟨ss, eof, hspan, hvalid, hpool, rfl, rfl⟩
    exact ⟨_, congrArg Prod.fst hok⟩
  · intro chunk strings h
    obtain ⟨ss, eof, hspan, -, -, hcode, hconstants⟩ := compile_eq_ok_iff.1 h
    refine ⟨ss, eof, hspan, fun ss' eof' h' => h'.unique hspan, hcode, ?_⟩
    obtain ⟨hpool, rfl⟩ := Prod.mk.inj hconstants
    rw [hpool, TextStore.content_storeAll]

end OnePass
