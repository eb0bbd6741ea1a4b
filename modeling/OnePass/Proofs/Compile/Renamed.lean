import OnePass.Proofs.Compile.Program
import OnePass.Proofs.Parser.Twins
import OnePass.Proofs.Scope.Rename

/-!
# OnePass.Proofs.Compile.Renamed

Names of locals leave no trace. If one local of a program is called otherwise, in its
declaration and wherever a name refers to it, then the program is compiled to the same
chunk, and the same texts are stored (`compile_renamed`).
-/

namespace OnePass

open Stmt

/-- The text of a program in which one local has another name. Nothing else changes. -/
def Renaming.source (r : Renaming) (source : String) (ss : List Stmt) : String :=
  respelled source ((tokensOf (renameAll r .global ss)).map Token.lexeme)

variable {r : Renaming} {source : String} {ss : List Stmt} {eof : Token}

/-- The tokens of the renamed program are those of its renamed trees. -/
theorem Stmt.Span.renamed (h : Span ss source eof) :
    (tokenize (r.source source ss)).map Token.unplaced
      = (tokensOf (renameAll r .global ss) ++ [eof]).map Token.unplaced := by
  obtain ⟨hderived, hpending, rfl⟩ := span_iff.1 h
  obtain ⟨htokens, hend⟩ := ofSource_respelled r.isName
    (hpending ▸ respelled_tokensOf .global ss hderived)
  rw [tokenize, TokenStream.toList, List.map_append, List.map_append, List.map_singleton,
    List.map_singleton, Renaming.source, htokens]
  simp only [TokenStream.ending, Token.unplaced, hend]

/-- Renamed tokens are as readable as they were. -/
theorem legible_of_respelled {name : String} {ts us : List Token}
    (h : List.Forall₂ (Token.Respelled name) ts us) (hlegible : Parser.Legible ts) :
    Parser.Legible us := by
  induction h with
  | nil => exact hlegible
  | cons hfirst hrest ih =>
    obtain ⟨ht, hts⟩ := List.forall_mem_cons.1 hlegible
    refine List.forall_mem_cons.2 ⟨?_, ih hts⟩
    cases hfirst with
    | same => exact ht
    | renamed hkind => simp [Token.spell, hkind]

/-- The parser on the tokens of the renamed trees writes what it wrote for the program. -/
theorem Parser.run_renameAll {stream : TokenStream} {strings : Interner}
    (hderived : ∀ s ∈ ss, s.Derived) (havoid : ∀ t ∈ tokensOf ss, t.Avoids r)
    (hlegible : Legible (tokensOf ss)) (hvalid : ValidAll .global ss)
    (hroom : (constantsOf .global ss).length ≤ OpCode.operandCount)
    (hpending : stream.pending = tokensOf (renameAll r .global ss)) :
    run .program (start stream strings)
      = ((entry stream strings).moveTo stream.ending []).write (unitCode ss stream.ending)
          (constantsOf .global ss) := by
  have hglobal : Frames.Avoids r .global := fun _ ht => absurd ht List.not_mem_nil
  have hconstants : constantsOf .global (renameAll r .global ss) = constantsOf .global ss :=
    constantsOf_rename hglobal ss hderived havoid
  have hcode : codeOf .global 0 (renameAll r .global ss) = codeOf .global 0 ss :=
    codeOf_rename hglobal ss hderived havoid 0
  have hlegible' : Legible stream.pending :=
    hpending ▸ legible_of_respelled (respelled_tokensOf .global ss hderived) hlegible
  rw [run_program hpending hlegible' (derived_renameAll .global ss hderived)
    (ValidAll.rename hglobal ss hderived havoid hvalid) (hconstants ▸ hroom), hconstants, unitCode,
    hcode, unitCode]

/-- Let a program compile, take a declaration in a block, and a name that no token of the
program is. Under that name, in the declaration and in all names that refer to it, the
program is compiled to the same bytes on the same lines and to the same constants, and stores
the same texts. -/
theorem compile_renamed {strings stored : Interner} {chunk : Chunk}
    (h : compile source strings = (.ok chunk, stored)) (r : Renaming)
    (hnew : ∀ t ∈ tokenize source, t.kind = .identifier → t.lexeme ≠ r.name) :
    ∃ (ss : List Stmt) (eof : Token), Span ss source eof
      ∧ (tokenize (r.source source ss)).map Token.unplaced
          = (tokensOf (renameAll r .global ss) ++ [eof]).map Token.unplaced
      ∧ compile (r.source source ss) strings = (.ok chunk, stored) := by
  obtain ⟨ss, eof, hspan, hvalid, hroom, hcode, hpool⟩ := compile_eq_ok_iff.1 h
  refine ⟨ss, eof, hspan, hspan.renamed, ?_⟩
  have hlegible := hspan.legible
  obtain ⟨hderived, hpending, rfl⟩ := span_iff.1 hspan
  have havoid : ∀ t ∈ tokensOf ss, t.Avoids r :=
    fun t ht => hnew t (List.mem_append_left _ (hpending ▸ ht))
  -- The renamed trees at the places of the old ones look like the tokens of the new text.
  obtain ⟨htokens, hend⟩ := ofSource_respelled r.isName
    (hpending ▸ respelled_tokensOf .global ss hderived)
  let stream : TokenStream :=
    { TokenStream.ofSource source with pending := tokensOf (renameAll r .global ss) }
  have hlook : (TokenStream.ofSource (r.source source ss)).mapLine id = stream.mapLine id :=
    congrArg₂ (fun ts line => TokenStream.mk ts 0 line) htokens hend
  have hrun : Parser.run .program (Parser.start stream strings) = _ :=
    Parser.run_renameAll hderived havoid hlegible hvalid hroom rfl
  have htwins := Parser.twins_run hlook .program strings strings
  rw [hrun] at htwins
  obtain ⟨constants, hrenamed, hwritten⟩ := htwins.pool
  obtain ⟨hconstants', hstored'⟩ := Prod.mk.inj (hrenamed.trans hwritten.symm)
  obtain ⟨hconstants, hstored⟩ := Prod.mk.inj hpool
  have hcode' := htwins.code
  rw [CodeByte.mapLine_id, List.map_id, List.map_id] at hcode'
  refine compileUnit_eq_ok_iff.2 ⟨htwins.hadError, ?_, hstored'.trans hstored.symm⟩
  exact congrArg₂ Chunk.mk (hcode'.trans hcode.symm) (hconstants'.trans hconstants.symm)

/-- The trees of `{ var a = a; print a; }`, in which the first `a` is a local that starts as
the second one, a global. -/
def Stmt.localOfGlobal : List Stmt :=
  [.block ⟨.leftBrace, "\x7b", 0, 1⟩
    [.declare ⟨.kwVar, "var", 2, 1⟩ ⟨.identifier, "a", 6, 1⟩
        (some (⟨.equal, "=", 8, 1⟩, .atom ⟨.identifier, "a", 10, 1⟩)) ⟨.semicolon, ";", 11, 1⟩,
      .print ⟨.kwPrint, "print", 13, 1⟩ (.atom ⟨.identifier, "a", 19, 1⟩) ⟨.semicolon, ";", 20, 1⟩]
    ⟨.rightBrace, "\x7d", 22, 1⟩]

/-- The local is to be called `b`. -/
def Renaming.localOfGlobal : Renaming where
  declaration := ⟨.identifier, "a", 6, 1⟩
  name := "b"
  isName := by
    refine .name ⟨'b', [], rfl, .inl rfl, fun _ h => absurd h List.not_mem_nil⟩ fun kind => ?_
    cases kind <;> decide

/-- A local with the name of a global, from which it starts. The global keeps its name. -/
theorem compile_renamed_localOfGlobal :
    ∃ chunk stored,
      compile "\x7b var a = a; print a; \x7d" .empty = (.ok chunk, stored)
        ∧ compile "\x7b var b = a; print b; \x7d" .empty = (.ok chunk, stored) := by
  have hatom : ∀ t : Token, t.kind = .identifier → Phrase .assignment (.atom t) :=
    fun t ht => (Phrase.atom (by simp [ht])).loosen (by decide)
  have hspan : Span localOfGlobal "\x7b var a = a; print a; \x7d" ⟨.eof, "", 23, 1⟩ := by
    refine ⟨List.forall_mem_singleton.2 (.block rfl (List.forall_mem_cons.2 ⟨?_, ?_⟩) rfl), rfl,
      by decide +kernel⟩
    · exact .declare rfl rfl ⟨rfl, hatom _ rfl⟩ rfl
    · exact List.forall_mem_singleton.2 (.print rfl (hatom _ rfl) rfl)
  have hok : compile "\x7b var a = a; print a; \x7d" .empty
      = (.ok ⟨[⟨7, 1⟩, ⟨0, 1⟩, ⟨5, 1⟩, ⟨0, 1⟩, ⟨19, 1⟩, ⟨4, 1⟩, ⟨20, 1⟩], [.text ⟨0⟩]⟩,
          ⟨["a"], by decide⟩) := by
    decide +kernel
  have htext : Renaming.localOfGlobal.source "\x7b var a = a; print a; \x7d" localOfGlobal
      = "\x7b var b = a; print b; \x7d" := by
    decide +kernel
  obtain ⟨ss, eof, hss, -, hrenamed⟩ := compile_renamed hok .localOfGlobal
    (show ∀ t ∈ tokenize _, t.kind = .identifier → t.lexeme ≠ "b" by decide +kernel)
  obtain rfl := hss.unique hspan
  rw [htext] at hrenamed
  exact ⟨_, _, hok, hrenamed⟩

end OnePass
