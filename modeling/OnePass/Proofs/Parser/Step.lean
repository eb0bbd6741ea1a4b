import Mathlib.Logic.Relation
import OnePass.Parser.Statement

/-!
# OnePass.Proofs.Parser.Step

All that the parser does is a sequence of a few small actions. They are told apart by what
they change (`Deed`), and each operation is shown once to be a sequence of actions of certain
deeds, its footprint (`Does`). Everything else about an operation that does not depend on the
order of its actions is read off the footprint: what no action of a deed changes is kept by all
operations whose footprint is without the others (`Does.part_eq`), and what every action keeps
up is kept up by all of them (`Does.keeps`). So the scope, the window, the code, the pool and
the store need one case analysis each, over the actions, and none over the operations.

The first property that all actions keep up is that an error is never forgotten
(`Does.hadError`).
-/

namespace OnePass.Parser

/-! ### Actions -/

/-- What an action does. -/
inductive Deed where
  /-- A token is taken. -/
  | advance
  /-- The token that was taken last is reported. -/
  | blame
  /-- Any token is reported. -/
  | report
  /-- Code is written. -/
  | write
  /-- A constant is added to the pool. -/
  | pool
  /-- A text is stored. -/
  | intern
  /-- An expression is opened or closed. -/
  | nest
  /-- The scope is changed. -/
  | rescope
  /-- A panic ends. -/
  | recover
  deriving DecidableEq, Repr

/-- The deeds of which the actions of an operation are. -/
abbrev Footprint := List Deed

namespace Footprint

variable {deeds deeds' : Footprint} {deed only : Deed}

/-- Whether a footprint is without a deed. Footprints are written out, so that it is enough to
evaluate this, and `rfl` is a proof. -/
def lacks (deeds : Footprint) (deed : Deed) : Bool := !deeds.contains deed

/-- Whether a footprint is a part of another one; again `rfl` is a proof. -/
def within (deeds deeds' : Footprint) : Bool := deeds.all deeds'.contains

theorem lacks_iff : deeds.lacks deed ↔ deed ∉ deeds := by
  simp [lacks]

theorem within_iff : deeds.within deeds' ↔ deeds ⊆ deeds' := by
  simp [within, List.subset_def]

theorem ne_of_lacks (h : deeds.lacks only) (hdeed : deed ∈ deeds) : deed ≠ only :=
  fun heq => lacks_iff.1 h (heq ▸ hdeed)

theorem mem_of_within (h : deeds.within deeds') (hdeed : deed ∈ deeds) : deed ∈ deeds' :=
  within_iff.1 h hdeed

theorem lacks_of_within (h : deeds.within deeds') (hlacks : deeds'.lacks deed) :
    deeds.lacks deed :=
  lacks_iff.2 fun hdeed => lacks_iff.1 hlacks (mem_of_within h hdeed)

end Footprint

namespace Deed

/-- What is done on the spot in expressions: no token is taken, and none that is ahead is
reported. -/
def onSpot : Footprint := [.blame, .write, .pool, .intern, .nest]

/-- What is done in expressions. They leave the scope alone and end no panic. -/
def inExpr : Footprint := .advance :: .report :: onSpot

/-- All that is done while a panic lasts. -/
def calm : Footprint := .rescope :: inExpr

/-- What is done in one place: no token is taken, and no expression opened or closed. -/
def inPlace : Footprint := [.blame, .report, .write, .pool, .intern, .rescope, .recover]

/-- What is done without a report, and without a token being taken. -/
def silent : Footprint := [.write, .pool, .intern, .nest, .rescope]

def all : Footprint := .recover :: calm

theorem mem_all (deed : Deed) : deed ∈ all := by
  cases deed <;> decide

end Deed

/-- One action, which changes what its deed says and nothing else. -/
inductive Action : Deed → Parser → Parser → Prop where
  | advance (p) : Action .advance p p.advance
  | blame (p problem) : Action .blame p (p.error problem)
  | report (p t problem) : Action .report p (p.errorAt t problem)
  | emit (p op) : Action .write p (p.emit op)
  | emitWith (p op operand) : Action .write p (p.emitWith op operand)
  | pool (p : Parser) (value : Value) :
      Action .pool p { p with chunk := (p.chunk.addConstant value).2 }
  | intern (p : Parser) (text : String) :
      Action .intern p { p with strings := (p.strings.intern text).2 }
  | nest (p : Parser) (nesting : Nat) : Action .nest p { p with nesting }
  | rescope (p : Parser) (scope : Scope) : Action .rescope p { p with scope }
  | recover (p) : Action .recover p p.recover.2

/-- A sequence of actions of certain deeds. -/
abbrev Does (deeds : Footprint) : Parser → Parser → Prop :=
  Relation.ReflTransGen fun p q => ∃ deed ∈ deeds, Action deed p q

/-- A sequence of actions none of which ends a panic. -/
abbrev Works : Parser → Parser → Prop := Does Deed.calm

/-- A sequence of actions. -/
abbrev Reaches : Parser → Parser → Prop := Does Deed.all

section Does

variable {deed : Deed} {deeds deeds' : Footprint} {p q r : Parser}

theorem Action.does (h : Action deed p q) : Does [deed] p q :=
  .single ⟨deed, List.mem_singleton_self deed, h⟩

/-- A footprint may be made larger. -/
theorem Does.mono (h : Does deeds p q) (hsub : deeds.within deeds') : Does deeds' p q :=
  Relation.ReflTransGen.mono
    (fun _ _ ⟨deed, hdeed, haction⟩ => ⟨deed, Footprint.mem_of_within hsub hdeed, haction⟩) p q h

/-- What is done one after the other has both footprints. -/
theorem Does.append (h : Does deeds p q) (h' : Does deeds' q r) : Does (deeds ++ deeds') p r :=
  (h.mono (Footprint.within_iff.2 (List.subset_append_left ..))).trans
    (h'.mono (Footprint.within_iff.2 (List.subset_append_right ..)))

theorem Does.reaches (h : Does deeds p q) : Reaches p q :=
  h.mono (Footprint.within_iff.2 fun deed _ => deed.mem_all)

theorem Does.works (h : Does deeds p q) (hcalm : deeds.within Deed.calm) : Works p q :=
  h.mono hcalm

/-! ### What is kept -/

/-- What the actions of a footprint keep up is kept up by their sequences. -/
theorem Does.keeps {motive : Parser → Prop}
    (hstep : ∀ {deed p q}, deed ∈ deeds → Action deed p q → motive p → motive q)
    (h : Does deeds p q) (hp : motive p) : motive q := by
  -- The induction is on the number of actions, from the end: the last one keeps up what the ones
  -- in front of it have.
  induction h with
  | refl => exact hp
  | tail _ hstep' ih =>
    obtain ⟨deed, hdeed, haction⟩ := hstep'
    exact hstep hdeed haction ih

/-- A part of the state that only one deed changes is the same where that is not done. -/
theorem Does.part_eq {α : Type} (part : Parser → α) {only : Deed}
    (hpart : ∀ {deed p q}, Action deed p q → deed ≠ only → part q = part p)
    (h : Does deeds p q) (honly : deeds.lacks only) : part q = part p :=
  h.keeps (motive := fun r => part r = part p)
    (fun hdeed haction hr => (hpart haction (Footprint.ne_of_lacks honly hdeed)).trans hr) rfl

/-- The next six say which deed each part of the state belongs to. They are the only case analyses
over actions that the parts of the state need. -/
theorem Action.window_eq (h : Action deed p q) (hdeed : deed ≠ .advance) :
    (q.stream, q.current, q.previous) = (p.stream, p.current, p.previous) := by
  cases h with
  | advance => exact absurd rfl hdeed
  | blame | report => simp [error]
  | _ => rfl

theorem Action.scope_eq (h : Action deed p q) (hdeed : deed ≠ .rescope) : q.scope = p.scope := by
  cases h with
  | advance => exact p.advance_scope
  | blame | report => exact errorAt_scope ..
  | rescope => exact absurd rfl hdeed
  | _ => rfl

theorem Action.nesting_eq (h : Action deed p q) (hdeed : deed ≠ .nest) :
    q.nesting = p.nesting := by
  cases h with
  | advance => exact p.advance_nesting
  | blame | report => exact errorAt_nesting ..
  | nest => exact absurd rfl hdeed
  | _ => rfl

theorem Action.code_eq (h : Action deed p q) (hdeed : deed ≠ .write) :
    q.chunk.code = p.chunk.code := by
  cases h with
  | advance => rw [advance_chunk]
  | blame | report => simp [error]
  | emit | emitWith => exact absurd rfl hdeed
  | _ => rfl

theorem Action.constants_eq (h : Action deed p q) (hdeed : deed ≠ .pool) :
    q.chunk.constants = p.chunk.constants := by
  cases h with
  | advance => rw [advance_chunk]
  | blame | report => simp [error]
  | pool => exact absurd rfl hdeed
  | _ => rfl

theorem Action.strings_eq (h : Action deed p q) (hdeed : deed ≠ .intern) :
    q.strings = p.strings := by
  cases h with
  | advance => exact p.advance_strings
  | blame | report => exact errorAt_strings ..
  | intern => exact absurd rfl hdeed
  | _ => rfl

/-- The window moves only where a token is taken. -/
theorem Does.window_eq (h : Does deeds p q) (hstill : deeds.lacks .advance) :
    q.stream = p.stream ∧ q.current = p.current ∧ q.previous = p.previous := by
  have hwindow := h.part_eq (fun r => (r.stream, r.current, r.previous)) Action.window_eq hstill
  exact ⟨congrArg (·.1) hwindow, congrArg (·.2.1) hwindow, congrArg (·.2.2) hwindow⟩

/-- Names come into scope and leave it by one deed, so expressions look all their names up in the
scope that they start with. -/
theorem Does.scope_eq (h : Does deeds p q) (hstill : deeds.lacks .rescope) : q.scope = p.scope :=
  h.part_eq scope Action.scope_eq hstill

theorem Does.nesting_eq (h : Does deeds p q) (hstill : deeds.lacks .nest) :
    q.nesting = p.nesting :=
  h.part_eq nesting Action.nesting_eq hstill

theorem Does.code_eq (h : Does deeds p q) (hstill : deeds.lacks .write) :
    q.chunk.code = p.chunk.code :=
  h.part_eq (fun r => r.chunk.code) Action.code_eq hstill

theorem Does.constants_eq (h : Does deeds p q) (hstill : deeds.lacks .pool) :
    q.chunk.constants = p.chunk.constants :=
  h.part_eq (fun r => r.chunk.constants) Action.constants_eq hstill

/-- What writes nothing and adds nothing to the pool leaves the whole chunk alone. -/
theorem Does.chunk_eq (h : Does deeds p q) (hwrite : deeds.lacks .write)
    (hpool : deeds.lacks .pool) : q.chunk = p.chunk :=
  congrArg₂ Chunk.mk (h.code_eq hwrite) (h.constants_eq hpool)

/-- Only `intern` touches the store; the scope and the window know names by their texts. -/
theorem Does.strings_eq (h : Does deeds p q) (hstill : deeds.lacks .intern) :
    q.strings = p.strings :=
  h.part_eq strings Action.strings_eq hstill

/-- What is silent reports nothing, and neither begins nor ends a panic. -/
theorem Does.reports_eq (h : Does deeds p q) (hsilent : deeds.within Deed.silent) :
    q.diagnostics = p.diagnostics ∧ q.mode = p.mode := by
  refine h.keeps (motive := fun r => r.diagnostics = p.diagnostics ∧ r.mode = p.mode)
    (fun hdeed haction hr => ?_) ⟨rfl, rfl⟩
  cases haction with
  | advance | blame | report | recover =>
    exact absurd (Footprint.mem_of_within hsilent hdeed) (by decide)
  | _ => exact hr

/-! ### Errors are not forgotten -/

/-- Taking a token is an error if there are error tokens behind it. -/
theorem advance_hadError (p : Parser) :
    p.advance.hadError = (p.hadError || !p.stream.leadingErrors.isEmpty) := by
  -- Each error token is reported on its own, so the reports are generalised over their start.
  have hfold : ∀ (errors : List Token) (q : Parser),
      (errors.foldl (fun q t => q.errorAt t (.unreadable t.lexeme)) q).hadError
        = (q.hadError || !errors.isEmpty) := by
    intro errors
    induction errors with
    | nil => simp
    | cons t rest ih => intro q; simp [ih]
  exact hfold _ _

/-- No action takes an error back: ending a panic clears the mode and not the error. -/
theorem Action.hadError (h : Action deed p q) (hp : p.hadError = true) : q.hadError = true := by
  cases h with
  | advance => rw [advance_hadError, hp, Bool.true_or]
  | blame | report => exact errorAt_hadError ..
  | _ => exact hp

/-- What follows an error is in error. -/
theorem Does.hadError (h : Does deeds p q) (hp : p.hadError = true) : q.hadError = true :=
  h.keeps (motive := fun r => r.hadError = true) (fun _ haction => haction.hadError) hp

/-- Before a state without an error there was none. -/
theorem Does.no_error (h : Does deeds p q) (hq : q.hadError = false) : p.hadError = false := by
  cases hp : p.hadError with
  | false => rfl
  | true => rw [h.hadError hp] at hq; exact hq

end Does

/-! ### Footprints of the operations -/

theorem advance_does (p : Parser) : Does [.advance] p p.advance := (Action.advance p).does

theorem error_does (p : Parser) (problem : Problem) : Does [.blame] p (p.error problem) :=
  (Action.blame p problem).does

theorem errorAt_does (p : Parser) (t : Token) (problem : Problem) :
    Does [.report] p (p.errorAt t problem) :=
  (Action.report p t problem).does

/-- Where the token is missing, the one that stands there instead is reported and not taken. -/
theorem consume_does (p : Parser) (kind : TokenKind) (problem : Problem) :
    Does [.advance, .report] p (p.consume kind problem) := by
  unfold consume
  split
  · exact p.advance_does.mono rfl
  · exact (p.errorAt_does _ problem).mono rfl

theorem accept_does (p : Parser) (kind : TokenKind) : Does [.advance] p (p.accept kind).2 := by
  unfold accept
  split
  · exact p.advance_does
  · exact .refl

theorem emit_does (p : Parser) (op : OpCode) : Does [.write] p (p.emit op) :=
  (Action.emit p op).does

theorem emitAll_does (p : Parser) (ops : List OpCode) : Does [.write] p (p.emitAll ops) := by
  induction ops generalizing p with
  | nil => exact .refl
  | cons op rest ih => exact (p.emit_does op).trans (ih (p.emit op))

theorem emitWith_does (p : Parser) (op : OpCode) (operand : UInt8) :
    Does [.write] p (p.emitWith op operand) :=
  (Action.emitWith p op operand).does

/-- A constant is added even if its index does not fit an operand. -/
theorem makeConstant_does (p : Parser) (value : Value) :
    Does [.pool, .blame] p (p.makeConstant value).2 := by
  have hadd : Does [.pool] p { p with chunk := (p.chunk.addConstant value).2 } :=
    (Action.pool p value).does
  unfold makeConstant
  dsimp only
  split
  · exact hadd.mono rfl
  · exact hadd.append (error_does _ _)

/-- The text is stored first, so that it is stored even if its constant is rejected. -/
theorem makeText_does (p : Parser) (text : String) :
    Does [.intern, .pool, .blame] p (p.makeText text).2 :=
  (Action.intern p text).does.append (makeConstant_does _ _)

theorem emitConstant_does (p : Parser) (value : Value) :
    Does [.pool, .blame, .write] p (p.emitConstant value) :=
  (p.makeConstant_does value).append (emitWith_does _ _ _)

theorem beginScope_does (p : Parser) : Does [.rescope] p p.beginScope :=
  (Action.rescope p _).does

/-- The locals leave the scope before the code that pops them is written. -/
theorem endScope_does (p : Parser) : Does [.rescope, .write] p p.endScope.2 :=
  (Action.rescope p _).does.append (emitAll_does _ _)

theorem declareLocal_does (p : Parser) (name : Token) :
    Does [.rescope, .report] p (p.declareLocal name).2 := by
  unfold declareLocal
  split
  · exact (Action.rescope p _).does.mono rfl
  · exact (p.errorAt_does name _).mono rfl

/-- Looking a name up stores it unless it is that of a local. -/
theorem place_does (p : Parser) (name : Token) :
    Does [.intern, .pool, .blame] p (p.place name).2 := by
  unfold place
  split
  · exact .refl
  · exact p.makeText_does name.lexeme

theorem emitGet_does (place : Place) (p : Parser) : Does [.write] p (place.emitGet p) := by
  cases place <;> exact p.emitWith_does _ _

theorem emitSet_does (place : Place) (p : Parser) : Does [.write] p (place.emitSet p) := by
  cases place <;> exact p.emitWith_does _ _

theorem number_does (p : Parser) : Does [.pool, .blame, .write] p p.number := by
  unfold number
  split
  · exact p.emitConstant_does _
  · exact (p.error_does _).mono rfl

theorem string_does (p : Parser) : Does [.intern, .pool, .blame, .write] p p.string :=
  (p.makeText_does _).append (emitWith_does _ _ _)

/-- The `=` of a bad assignment is taken; what would have been assigned is not. -/
theorem rejectTarget_does (canAssign : Bool) (p : Parser) :
    Does [.advance, .blame] p (rejectTarget canAssign p) := by
  unfold rejectTarget
  split
  · exact p.advance_does.append (error_does _ _)
  · exact .refl

theorem skipToBoundary_does (p : Parser) : Does [.advance] p p.skipToBoundary := by
  fun_induction skipToBoundary p with
  | case1 p h => exact .refl
  | case2 p h ih => exact p.advance_does.trans ih

/-- A panic ends where the parser stops, and no token is skipped after that. -/
theorem synchronize_does (p : Parser) : Does [.advance, .recover] p p.synchronize :=
  p.skipToBoundary_does.append (Action.recover _).does

end OnePass.Parser
