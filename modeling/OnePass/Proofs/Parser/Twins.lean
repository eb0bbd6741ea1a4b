import OnePass.Compile
import OnePass.Proofs.Code.Store
import OnePass.Proofs.Parser.Congruence

/-!
# OnePass.Proofs.Parser.Twins

Runs of the parser that differ only in where their tokens stand and in what their stores
held before. Offsets are never looked at, lines are carried along but not compared, and
texts are known by their contents (`Twins`). So the runs do the same, and what they come to
differs in lines and handles only (`twins_ofSource`).

Of a line only its image under `f` is seen: everything if `f` is the identity, nothing if
it is constant.
-/

namespace OnePass

section Lines

variable (f : Nat → Nat)

/-! ### What is seen of tokens -/

/-- What is seen of a token: not its offset, and of its line only the image. -/
def Token.mapLine (t : Token) : Token := { t with offset := 0, line := f t.line }

/-- What is seen of a byte of code. -/
def CodeByte.mapLine (b : CodeByte) : CodeByte := { b with line := f b.line }

/-- What is seen of a report. -/
def Diagnostic.mapLine (d : Diagnostic) : Diagnostic := { d with line := f d.line }

theorem CodeByte.mapLine_id : CodeByte.mapLine id = id := rfl

theorem Diagnostic.mapLine_id : Diagnostic.mapLine id = id := rfl

theorem Diagnostic.ofProblem_mapLine (problem : Problem) (t : Token) :
    ofProblem problem (t.mapLine f) = (ofProblem problem t).mapLine f := rfl

variable {f} in
/-- Tokens that look the same have the same kind and text, and are on lines with the same
image. -/
theorem Token.mapLine_eq_iff {t u : Token} :
    t.mapLine f = u.mapLine f ↔ t.kind = u.kind ∧ t.lexeme = u.lexeme ∧ f t.line = f u.line := by
  simp [mapLine]

namespace TokenStream

/-- What is seen of a stream. -/
def mapLine (s : TokenStream) : TokenStream :=
  ⟨s.pending.map (Token.mapLine f), 0, f s.endLine⟩

/-- Handing out a token commutes with looking at it: the end token is made up from the place of
the end, and that place is seen in the same way. -/
theorem next_mapLine (s : TokenStream) :
    (s.mapLine f).next = (s.next.1.mapLine f, s.next.2.mapLine f) := by
  obtain ⟨pending, endOffset, endLine⟩ := s
  cases pending <;> rfl

/-- Which tokens are errors is a matter of their kinds, which are seen. -/
theorem leadingErrors_mapLine (s : TokenStream) :
    (s.mapLine f).leadingErrors = s.leadingErrors.map (Token.mapLine f) := by
  rw [leadingErrors, mapLine, List.takeWhile_map]
  rfl

theorem afterErrors_mapLine (s : TokenStream) :
    (s.mapLine f).afterErrors = s.afterErrors.mapLine f := by
  simp only [afterErrors, mapLine, List.dropWhile_map]
  rfl

end TokenStream

/-! ### What is seen of locals -/

/-- What is seen of a local. -/
def Local.mapLine (l : Local) : Local := { l with name := l.name.mapLine f }

namespace Scope

/-- What is seen of the locals in scope. -/
def mapLine (s : Scope) : Scope := { s with locals := s.locals.map (Local.mapLine f) }

/-- The locals that leave a scope are counted by their depths, not by their names. -/
theorem leave_mapLine (s : Scope) : (s.mapLine f).leave = (s.leave.1, s.leave.2.mapLine f) := by
  obtain ⟨locals, depth⟩ := s
  cases depth with
  | zero => rfl
  | succ outer =>
    simp only [leave, mapLine, List.takeWhile_map, List.dropWhile_map, List.length_map]
    rfl

/-- A slot is found by the text of the name, whatever the line of its declaration is. -/
theorem slot?_mapLine (s : Scope) (name : String) : (s.mapLine f).slot? name = s.slot? name := by
  obtain ⟨locals, depth⟩ := s
  simp only [slot?, mapLine]
  induction locals with
  | nil => rfl
  | cons l earlier ih =>
    rw [List.map_cons, slotIn?, slotIn?, ih, List.length_map]
    rfl

/-- Whether a name may be declared does not depend on lines either. -/
theorem declare_mapLine (s : Scope) (name : Token) :
    (s.mapLine f).declare (name.mapLine f) = (s.declare name).map (Scope.mapLine f) := by
  have htaken : (s.mapLine f).declaresHere (name.mapLine f).lexeme
      = s.declaresHere name.lexeme := by
    simp only [declaresHere, mapLine, List.takeWhile_map, List.any_map]
    rfl
  have hlength : (s.mapLine f).locals.length = s.locals.length := List.length_map _
  unfold declare
  rw [htaken, hlength]
  split
  · rfl
  split
  · rfl
  · rfl

end Scope

end Lines

namespace Parser

/-- Store a constant and add it to the pool. Also gives its index. -/
def makeStored (p : Parser) (c : Constant) : UInt8 × Parser :=
  let stored := TextStore.store p.strings c
  { p with strings := stored.2 }.makeConstant stored.1

/-- Numbers and texts get into the pool in the same way, so that one lemma is enough for both. -/
theorem makeConstant_number_eq (p : Parser) (x : Binary64) :
    p.makeConstant (.number x) = p.makeStored (.number x) := rfl

theorem makeText_eq (p : Parser) (text : String) : p.makeText text = p.makeStored (.text text) :=
  rfl

/-! ### Twins -/

/-- Two states that look the same, in runs that started with the stores `s` and `t`. The
same constants have been stored since then. -/
structure Twins (f : Nat → Nat) (s t : Interner) (p q : Parser) : Prop where
  stream : p.stream.mapLine f = q.stream.mapLine f
  current : p.current.mapLine f = q.current.mapLine f
  previous : p.previous.mapLine f = q.previous.mapLine f
  code : p.chunk.code.map (CodeByte.mapLine f) = q.chunk.code.map (CodeByte.mapLine f)
  pool : ∃ constants, (p.chunk.constants, p.strings) = TextStore.storeAll s constants
    ∧ (q.chunk.constants, q.strings) = TextStore.storeAll t constants
  diagnostics : p.diagnostics.map (Diagnostic.mapLine f) = q.diagnostics.map (Diagnostic.mapLine f)
  scope : p.scope.mapLine f = q.scope.mapLine f
  nesting : p.nesting = q.nesting
  hadError : p.hadError = q.hadError
  mode : p.mode = q.mode

namespace Twins

variable {f : Nat → Nat} {s t : Interner} {p q : Parser}

/-! ### Errors and tokens -/

/-- What looks the same is reported alike, or suppressed alike. -/
theorem errorAt (h : Twins f s t p q) {a b : Token} (hat : a.mapLine f = b.mapLine f)
    (problem : Problem) : Twins f s t (p.errorAt a problem) (q.errorAt b problem) := by
  unfold Parser.errorAt
  rw [h.mode]
  cases q.mode with
  | panicking => exact { h with hadError := rfl, mode := rfl }
  | normal =>
    have hreport : (Diagnostic.ofProblem problem a).mapLine f
        = (Diagnostic.ofProblem problem b).mapLine f := by
      rw [← Diagnostic.ofProblem_mapLine, hat, Diagnostic.ofProblem_mapLine]
    refine { h with hadError := rfl, mode := rfl, diagnostics := ?_ }
    rw [List.map_append, List.map_append, h.diagnostics, List.map_singleton, List.map_singleton,
      hreport]

theorem error (h : Twins f s t p q) (problem : Problem) :
    Twins f s t (p.error problem) (q.error problem) :=
  h.errorAt h.previous problem

/-- Error tokens that look the same are reported alike. -/
theorem reportAll (h : Twins f s t p q) {errors errors' : List Token}
    (herrors : errors.map (Token.mapLine f) = errors'.map (Token.mapLine f)) :
    Twins f s t (errors.foldl (fun r a => r.errorAt a (.unreadable a.lexeme)) p)
      (errors'.foldl (fun r a => r.errorAt a (.unreadable a.lexeme)) q) := by
  induction errors generalizing errors' p q with
  | nil =>
    obtain rfl : errors' = [] := List.map_eq_nil_iff.1 herrors.symm
    exact h
  | cons a errors ih =>
    cases errors' with
    | nil => cases herrors
    | cons b errors' =>
      obtain ⟨hat, hrest⟩ := List.cons.inj herrors
      rw [List.foldl_cons, List.foldl_cons, (Token.mapLine_eq_iff.1 hat).2.1]
      exact ih (h.errorAt hat _) hrest

theorem advance (h : Twins f s t p q) : Twins f s t p.advance q.advance := by
  have herrors : p.stream.leadingErrors.map (Token.mapLine f)
      = q.stream.leadingErrors.map (Token.mapLine f) := by
    rw [← TokenStream.leadingErrors_mapLine, h.stream, TokenStream.leadingErrors_mapLine]
  have hnext : (p.stream.afterErrors.next.1.mapLine f, p.stream.afterErrors.next.2.mapLine f)
      = (q.stream.afterErrors.next.1.mapLine f, q.stream.afterErrors.next.2.mapLine f) := by
    rw [← TokenStream.next_mapLine, ← TokenStream.next_mapLine, ← TokenStream.afterErrors_mapLine,
      ← TokenStream.afterErrors_mapLine, h.stream]
  obtain ⟨hcurrent, hstream⟩ := Prod.mk.inj hnext
  -- Reports are made when the window has moved by half: the previous token is new, the
  -- current one is not.
  have htaken : Twins f s t { p with previous := p.current } { q with previous := q.current } :=
    { h with previous := h.current }
  exact { htaken.reportAll herrors with current := hcurrent, stream := hstream }

theorem tokensLeft_eq (h : Twins f s t p q) : p.tokensLeft = q.tokensLeft := by
  -- Streams that look the same are equally long.
  have hpending := congrArg (fun a : TokenStream => a.pending.length) h.stream
  simp only [TokenStream.mapLine, List.length_map] at hpending
  rw [tokensLeft, tokensLeft, hpending, (Token.mapLine_eq_iff.1 h.current).1]

/-! ### Code and constants -/

theorem line_eq (h : Twins f s t p q) : f p.previous.line = f q.previous.line :=
  (Token.mapLine_eq_iff.1 h.previous).2.2

theorem emit (h : Twins f s t p q) (op : OpCode) : Twins f s t (p.emit op) (q.emit op) := by
  refine { h with code := ?_ }
  rw [emit_code, emit_code, List.map_append, List.map_append, h.code]
  simp [CodeByte.mapLine, h.line_eq]

theorem emitWith (h : Twins f s t p q) (op : OpCode) (operand : UInt8) :
    Twins f s t (p.emitWith op operand) (q.emitWith op operand) := by
  refine { h with code := ?_ }
  rw [emitWith_code, emitWith_code, List.map_append, List.map_append, h.code]
  simp [CodeByte.mapLine, h.line_eq]

/-- A constant has the same index in both pools, whatever its handles are. -/
theorem makeStored (h : Twins f s t p q) (c : Constant) :
    (p.makeStored c).1 = (q.makeStored c).1
      ∧ Twins f s t (p.makeStored c).2 (q.makeStored c).2 := by
  obtain ⟨constants, hpool, hpool'⟩ := h.pool
  obtain ⟨hp₁, hp₂⟩ := Prod.mk.inj hpool
  obtain ⟨hq₁, hq₂⟩ := Prod.mk.inj hpool'
  have hindex : p.chunk.constants.length = q.chunk.constants.length := by
    rw [hp₁, hq₁, TextStore.length_storeAll, TextStore.length_storeAll]
  -- A constant is in the pool also if its index does not fit, so it counts as stored then.
  have hadded : Twins f s t
      { p with chunk := (p.chunk.addConstant (TextStore.store p.strings c).1).2
               strings := (TextStore.store p.strings c).2 }
      { q with chunk := (q.chunk.addConstant (TextStore.store q.strings c).1).2
               strings := (TextStore.store q.strings c).2 } := by
    refine { h with pool := ⟨constants ++ [c], ?_, ?_⟩ }
    · rw [TextStore.storeAll_append, TextStore.storeAll_singleton, ← hp₁, ← hp₂]
      rfl
    · rw [TextStore.storeAll_append, TextStore.storeAll_singleton, ← hq₁, ← hq₂]
      rfl
  simp only [Parser.makeStored, makeConstant, Chunk.addConstant, hindex]
  split
  · exact ⟨rfl, hadded⟩
  · exact ⟨rfl, hadded.error _⟩

/-- The constants are the same by content. -/
theorem contents_eq (h : Twins f s t p q) :
    p.chunk.constants.map (·.content p.strings) = q.chunk.constants.map (·.content q.strings) := by
  obtain ⟨constants, hpool, hpool'⟩ := h.pool
  obtain ⟨hp₁, hp₂⟩ := Prod.mk.inj hpool
  obtain ⟨hq₁, hq₂⟩ := Prod.mk.inj hpool'
  rw [hp₁, hp₂, hq₁, hq₂, TextStore.content_storeAll, TextStore.content_storeAll]

theorem number (h : Twins f s t p q) : Twins f s t p.number q.number := by
  have hvalue : p.previous.number? = q.previous.number? := by
    rw [Token.number?, Token.number?, (Token.mapLine_eq_iff.1 h.previous).2.1]
  unfold Parser.number
  rw [hvalue]
  cases q.previous.number? with
  | none => exact h.error _
  | some x =>
    obtain ⟨hindex, hmade⟩ := h.makeStored (.number x)
    simp only [emitConstant, makeConstant_number_eq, hindex]
    exact hmade.emitWith _ _

theorem string (h : Twins f s t p q) : Twins f s t p.string q.string := by
  have hcontents : p.previous.contents = q.previous.contents := by
    rw [Token.contents, Token.contents, (Token.mapLine_eq_iff.1 h.previous).2.1]
  obtain ⟨hindex, hmade⟩ := h.makeStored (.text q.previous.contents)
  simp only [Parser.string, makeText_eq, hcontents, hindex]
  exact hmade.emitWith _ _

/-! ### Names -/

/-- The name is that of a local in both runs, with the same slot, or its text is stored in both.
-/
theorem place (h : Twins f s t p q) :
    (p.place p.previous).1 = (q.place q.previous).1
      ∧ Twins f s t (p.place p.previous).2 (q.place q.previous).2 := by
  have hname := (Token.mapLine_eq_iff.1 h.previous).2.1
  have hslot : p.resolveLocal p.previous = q.resolveLocal q.previous := by
    rw [resolveLocal, resolveLocal, hname, ← Scope.slot?_mapLine f, h.scope, Scope.slot?_mapLine]
  unfold Parser.place
  rw [hslot]
  cases q.resolveLocal q.previous with
  | some slot => exact ⟨rfl, h⟩
  | none =>
    obtain ⟨hindex, hmade⟩ := h.makeStored (.text q.previous.lexeme)
    simp only [nameConstant, makeText_eq, hname]
    exact ⟨congrArg Place.global hindex, hmade⟩

theorem depth_eq (h : Twins f s t p q) : p.scope.depth = q.scope.depth := by
  have hdepth : (p.scope.mapLine f).depth = (q.scope.mapLine f).depth := by rw [h.scope]
  exact hdepth

theorem declareLocal (h : Twins f s t p q) {a b : Token} (hname : a.mapLine f = b.mapLine f) :
    Twins f s t (p.declareLocal a).2 (q.declareLocal b).2 := by
  have hdeclare : (p.scope.declare a).map (Scope.mapLine f)
      = (q.scope.declare b).map (Scope.mapLine f) := by
    rw [← Scope.declare_mapLine, ← Scope.declare_mapLine, h.scope, hname]
  -- Declaring succeeds in both runs or in none, as the outcomes look the same.
  unfold Parser.declareLocal
  cases hp : p.scope.declare a with
  | error problem =>
    cases hq : q.scope.declare b with
    | error problem' =>
      rw [hp, hq] at hdeclare
      obtain rfl : problem = problem' := Except.error.inj hdeclare
      exact h.errorAt hname problem
    | ok scope' => rw [hp, hq] at hdeclare; cases hdeclare
  | ok scope =>
    cases hq : q.scope.declare b with
    | error problem' => rw [hp, hq] at hdeclare; cases hdeclare
    | ok scope' =>
      rw [hp, hq] at hdeclare
      exact { h with scope := Except.ok.inj hdeclare }

/-- A variable comes into being alike. -/
theorem define (h : Twins f s t p q) {a b : Token} (hname : a.mapLine f = b.mapLine f) :
    Twins f s t (p.define a) (q.define b) := by
  unfold Parser.define
  rw [h.depth_eq]
  split
  · exact h.declareLocal hname
  · obtain ⟨hindex, hmade⟩ := h.makeStored (.text b.lexeme)
    simp only [nameConstant, makeText_eq, (Token.mapLine_eq_iff.1 hname).2.1, hindex]
    exact hmade.emitWith _ _

end Twins

/-! ### Whole runs -/

section Runs

variable {f : Nat → Nat} {s t : Interner}

theorem exprCongruence_twins : ExprCongruence (Twins f s t) where
  current_kind h := (Token.mapLine_eq_iff.1 h.current).1
  previous_kind h := (Token.mapLine_eq_iff.1 h.previous).1
  nesting h := h.nesting
  advance h := h.advance
  error problem h := h.error problem
  errorAtCurrent problem h := h.errorAt h.current problem
  emit op h := h.emit op
  emitWith op operand h := h.emitWith op operand
  nest _ h := { h with nesting := rfl }
  number h := h.number
  string h := h.string
  place h := h.place

theorem congruence_twins : Congruence (fun a b => a.mapLine f = b.mapLine f) (Twins f s t) where
  toExprCongruence := exprCongruence_twins
  tokensLeft h := h.tokensLeft_eq
  mode h := h.mode
  previous h := h.previous
  recover h := { h with mode := rfl }
  beginScope {p q} h := by
    have hscope : (p.scope.mapLine f).enter = (q.scope.mapLine f).enter := by rw [h.scope]
    exact { h with scope := hscope }
  endScope {p q} h := by
    have hleave : (p.scope.leave.1, p.scope.leave.2.mapLine f)
        = (q.scope.leave.1, q.scope.leave.2.mapLine f) := by
      rw [← Scope.leave_mapLine, ← Scope.leave_mapLine, h.scope]
    obtain ⟨hcount, hscope⟩ := Prod.mk.inj hleave
    unfold endScope
    dsimp only
    rw [hcount]
    exact exprCongruence_twins.emitAll _ { h with scope := hscope }
  define h hname := h.define hname

/-- Streams that look the same are read alike, from whatever stores on. -/
theorem twins_run {a b : TokenStream} (h : a.mapLine f = b.mapLine f) (unit : UnitKind)
    (s t : Interner) : Twins f s t (run unit (start a s)) (run unit (start b t)) := by
  refine congruence_twins.run unit (Twins.advance ?_)
  exact ⟨h, rfl, rfl, rfl, ⟨[], rfl, rfl⟩, rfl, rfl, rfl, rfl, rfl⟩

/-- Sources whose tokens look the same are read alike. -/
theorem twins_ofSource {a b : String}
    (h : (TokenStream.ofSource a).mapLine f = (TokenStream.ofSource b).mapLine f)
    (unit : UnitKind) (s t : Interner) :
    Twins f s t (ofSource unit a s) (ofSource unit b t) :=
  twins_run h unit s t

/-- Whatever a run has come to, its pool and its store hold the constants that it has
stored. -/
theorem exists_stored (unit : UnitKind) (stream : TokenStream) (s : Interner) :
    ∃ constants, ((run unit (start stream s)).chunk.constants, (run unit (start stream s)).strings)
      = TextStore.storeAll s constants := by
  obtain ⟨constants, hpool, -⟩ := (twins_run (f := id) (a := stream) rfl unit s s).pool
  exact ⟨constants, hpool⟩

end Runs

end Parser

end OnePass
