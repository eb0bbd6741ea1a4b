import Mathlib.Data.List.Induction
import OnePass.Parser.Scope

/-!
# OnePass.Proofs.Scope.Frames

Lexical scoping as a stack of frames, one for each open block and one below them. A
frame has the names declared directly in its block, in order. The flat row of locals
that the parser keeps holds the frames one on top of the other (`Frames.scope`), and
its operations are those of the stack: opening and closing a block (`scope_enter`,
`scope_leave`), declaring (`declare_ok_iff`) and looking up a name (`slot?_scope`).

Frames are what the statements about names are made in; the row is what runs. The translation of
trees, the static rules and the traces of programs are all given by frames, so that a proof about
the parser has to look at depths of locals only here.
-/

namespace OnePass

/-- The names that are in scope, by the block that declares them. -/
structure Frames where
  /-- The names declared in the innermost block so far. -/
  inner : List Token
  /-- The names declared in the blocks around it, from the inside out. -/
  outer : List (List Token)
  deriving DecidableEq, Repr

namespace Frames

/-- No block is open. -/
def global : Frames := ⟨[], []⟩

/-- A block is open if there is a frame around the innermost one. -/
def isGlobal (f : Frames) : Bool := f.outer.isEmpty

/-- Open a block. -/
def enter (f : Frames) : Frames := ⟨[], f.inner :: f.outer⟩

/-- Declare names in the innermost block, one after the other. -/
def declare (f : Frames) (names : List Token) : Frames := ⟨f.inner ++ names, f.outer⟩

/-- All names in scope, in the order of their declarations. -/
def inScope (f : Frames) : List Token := (f.inner :: f.outer).reverse.flatten

/-- The place of the latest of some tokens that has a name. -/
def latest? (name : String) : List Token → Option Nat
  | [] => none
  | t :: later =>
    match latest? name later with
    | some i => some (i + 1)
    | none => if t.lexeme = name then some 0 else none

/-- The slot of the local that a name refers to. -/
def slot? (f : Frames) (name : String) : Option Nat := latest? name f.inScope

/-- The declaration that a name refers to: the latest of it in the innermost block that
has one. -/
def declaration? (f : Frames) (name : String) : Option Token :=
  (f.inner :: f.outer).findSome? fun frame => frame.reverse.find? (·.lexeme = name)

theorem inScope_enter (f : Frames) : f.enter.inScope = f.inScope := by
  simp [enter, inScope]

theorem inScope_declare (f : Frames) (names : List Token) :
    (f.declare names).inScope = f.inScope ++ names := by
  simp [declare, inScope]

/-! ### The latest of a name -/

theorem latest?_eq_none_iff {name : String} {ts : List Token} :
    latest? name ts = none ↔ ∀ t ∈ ts, t.lexeme ≠ name := by
  induction ts with
  | nil => simp [latest?]
  | cons t later ih =>
    rw [latest?, List.forall_mem_cons, ← ih]
    cases latest? name later with
    | none => simp
    | some i => simp

/-- The latest of a name has it, and none behind it does. -/
theorem latest?_eq_some_iff {name : String} {ts : List Token} {slot : Nat} :
    latest? name ts = some slot ↔
      (∃ t, ts[slot]? = some t ∧ t.lexeme = name)
        ∧ ∀ j t, slot < j → ts[j]? = some t → t.lexeme ≠ name := by
  induction ts generalizing slot with
  | nil => simp [latest?]
  | cons t later ih =>
    rw [latest?]
    cases hlater : latest? name later with
    -- A later declaration is found first: the first one does not count.
    | some i =>
      have hi := ih.1 hlater
      constructor
      · intro h
        obtain rfl := Option.some.inj h
        refine ⟨hi.1, fun j u hj hu => ?_⟩
        cases j with
        | zero => exact absurd hj (Nat.not_lt_zero _)
        | succ j => exact hi.2 j u (Nat.lt_of_succ_lt_succ hj) hu
      · rintro ⟨⟨u, hu, hname⟩, hnone⟩
        cases slot with
        | zero =>
          obtain ⟨v, hv, hvname⟩ := hi.1
          exact absurd hvname (hnone (i + 1) v (Nat.succ_pos i) hv)
        | succ slot =>
          have hslot := ih.2 ⟨⟨u, hu, hname⟩, fun j v hj hv =>
            hnone (j + 1) v (Nat.succ_lt_succ hj) hv⟩
          rw [hlater] at hslot
          rw [Option.some.inj hslot]
    -- No later one has the name, so that it is the first one or none.
    | none =>
      have hnot := latest?_eq_none_iff.1 hlater
      constructor
      · intro h
        have hfirst : t.lexeme = name ∧ slot = 0 := by
          by_cases hname : t.lexeme = name
          · simp [hname] at h
            exact ⟨hname, h.symm⟩
          · simp [hname] at h
        obtain ⟨hname, rfl⟩ := hfirst
        refine ⟨⟨t, rfl, hname⟩, fun j u hj hu => ?_⟩
        cases j with
        | zero => exact absurd hj (Nat.lt_irrefl 0)
        | succ j => exact hnot u (List.mem_of_getElem? hu)
      · rintro ⟨⟨u, hu, hname⟩, -⟩
        cases slot with
        | zero =>
          obtain rfl := Option.some.inj hu
          simp [hname]
        | succ slot => exact absurd hname (hnot u (List.mem_of_getElem? hu))

theorem latest?_append_singleton (name : String) (ts : List Token) (t : Token) :
    latest? name (ts ++ [t])
      = if t.lexeme = name then some ts.length else latest? name ts := by
  induction ts with
  | nil => rfl
  | cons u ts ih =>
    rw [List.cons_append, latest?, ih, latest?]
    by_cases h : t.lexeme = name <;> simp [h]

theorem latest?_lt {name : String} {ts : List Token} {slot : Nat}
    (h : latest? name ts = some slot) : slot < ts.length := by
  obtain ⟨⟨t, ht, -⟩, -⟩ := latest?_eq_some_iff.1 h
  exact (List.getElem?_eq_some_iff.1 ht).1

/-- The latest of a name is the first one from the back. -/
theorem find?_reverse_of_latest? {name : String} {ts : List Token} :
    ∀ {slot : Nat}, latest? name ts = some slot →
      ts.reverse.find? (·.lexeme = name) = ts[slot]? := by
  induction ts using List.reverseRecOn with
  | nil => intro slot h; cases h
  | append_singleton ts t ih =>
    intro slot h
    rw [latest?_append_singleton] at h
    rw [List.reverse_append, List.reverse_singleton, List.singleton_append]
    by_cases hname : t.lexeme = name
    · rw [if_pos hname] at h
      obtain rfl := Option.some.inj h
      rw [List.find?_cons_of_pos (by simpa using hname), List.getElem?_concat_length]
    · rw [if_neg hname] at h
      rw [List.find?_cons_of_neg (by simpa using hname), ih h,
        List.getElem?_append_left (latest?_lt h)]

/-- The slot of a name is the place of the declaration that it refers to. -/
theorem getElem?_of_slot? {f : Frames} {name : String} {slot : Nat}
    (h : f.slot? name = some slot) : f.inScope[slot]? = f.declaration? name := by
  rw [← find?_reverse_of_latest? h, inScope, List.reverse_flatten, List.map_reverse,
    List.reverse_reverse, List.find?_flatten, List.findSome?_map]
  rfl

/-! ### The row of locals -/

/-- The locals of frames, the latest first. -/
def locals : List (List Token) → List Local
  | [] => []
  | frame :: outer => (frame.map fun name => ⟨name, outer.length⟩).reverse ++ locals outer

/-- The scope that the parser keeps for frames. -/
def scope (f : Frames) : Scope := ⟨locals (f.inner :: f.outer), f.outer.length⟩

theorem map_name_locals (frames : List (List Token)) :
    (locals frames).reverse.map Local.name = frames.reverse.flatten := by
  induction frames with
  | nil => rfl
  | cons frame outer ih =>
    rw [locals, List.reverse_append, List.reverse_reverse, List.map_append, ih, List.map_map,
      List.reverse_cons, List.flatten_append]
    simp [Function.comp_def]

theorem length_locals (f : Frames) : f.scope.locals.length = f.inScope.length := by
  have h := congrArg List.length (map_name_locals (f.inner :: f.outer))
  simpa [scope, inScope] using h

/-- A local's depth is the number of frames around its own. -/
theorem depth_lt_of_mem_locals {frames : List (List Token)} :
    ∀ l ∈ locals frames, l.depth < frames.length := by
  induction frames with
  | nil => simp [locals]
  | cons frame outer ih =>
    intro l hl
    rcases List.mem_append.1 hl with hl | hl
    · obtain ⟨name, -, rfl⟩ := List.mem_map.1 (List.mem_reverse.1 hl)
      exact Nat.lt_succ_self _
    · exact Nat.lt_succ_of_lt (ih l hl)

/-- The locals of the innermost block are those that are as deep as it. -/
theorem split_locals (frame : List Token) (outer : List (List Token)) :
    (locals (frame :: outer)).takeWhile (outer.length ≤ ·.depth)
        = (frame.map fun name => ⟨name, outer.length⟩).reverse
      ∧ (locals (frame :: outer)).dropWhile (outer.length ≤ ·.depth) = locals outer := by
  have hinner : ∀ l ∈ (frame.map fun name => (⟨name, outer.length⟩ : Local)).reverse,
      decide (outer.length ≤ l.depth) = true := by
    intro l hl
    obtain ⟨name, -, rfl⟩ := List.mem_map.1 (List.mem_reverse.1 hl)
    simp
  rw [locals, List.takeWhile_append_of_pos hinner, List.dropWhile_append_of_pos hinner]
  cases houter : locals outer with
  | nil => simp
  | cons l rest =>
    have hl := depth_lt_of_mem_locals l (houter ▸ List.mem_cons_self)
    have hneg : ¬ outer.length ≤ l.depth := Nat.not_le_of_lt hl
    simp [hneg]

/-! ### The operations -/

theorem scope_enter (f : Frames) : f.enter.scope = f.scope.enter := rfl

/-- Closing a block takes away its own locals and leaves those around it. -/
theorem scope_leave (inner frame : List Token) (outer : List (List Token)) :
    (scope ⟨inner, frame :: outer⟩).leave = (inner.length, scope ⟨frame, outer⟩) := by
  obtain ⟨htake, hdrop⟩ := split_locals inner (frame :: outer)
  unfold Scope.leave scope
  simp only [List.length_cons, Nat.lt_iff_add_one_le] at htake hdrop ⊢
  rw [htake, hdrop, List.length_reverse, List.length_map]

theorem declaresHere_scope (f : Frames) (name : String) :
    f.scope.declaresHere name = f.inner.any (·.lexeme = name) := by
  have hhere : f.scope.declaresHere name
      = ((locals (f.inner :: f.outer)).takeWhile (f.outer.length ≤ ·.depth)).any
          (·.name.lexeme = name) := rfl
  rw [hhere, (split_locals f.inner f.outer).1, List.any_reverse, List.any_map]
  rfl

theorem scope_declare (f : Frames) (name : Token) :
    (f.declare [name]).scope = ⟨⟨name, f.outer.length⟩ :: f.scope.locals, f.outer.length⟩ := by
  simp [scope, declare, locals]

/-- A name is declared once in a block, and as long as there is a slot for it. -/
def CanDeclare (f : Frames) (name : Token) : Prop :=
  (∀ t ∈ f.inner, t.lexeme ≠ name.lexeme) ∧ f.inScope.length < OpCode.operandCount

/-- The parser declares a local exactly if it can be declared, and on top of the
others. -/
theorem declare_scope_of_canDeclare {f : Frames} {name : Token} (h : f.CanDeclare name) :
    f.scope.declare name = .ok (f.declare [name]).scope := by
  have hnew : f.scope.declaresHere name.lexeme = false := by
    rw [declaresHere_scope]
    simpa using h.1
  have hroom : ¬ OpCode.operandCount ≤ f.scope.locals.length := by
    rw [length_locals]
    exact Nat.not_le_of_lt h.2
  rw [Scope.declare, hnew, if_neg Bool.false_ne_true, if_neg hroom, scope_declare]
  rfl

theorem canDeclare_of_declare_scope {f : Frames} {name : Token} {s : Scope}
    (h : f.scope.declare name = .ok s) : f.CanDeclare name := by
  unfold Scope.declare at h
  by_cases hnew : f.scope.declaresHere name.lexeme = true
  · rw [if_pos hnew] at h
    cases h
  rw [if_neg hnew] at h
  by_cases hroom : OpCode.operandCount ≤ f.scope.locals.length
  · rw [if_pos hroom] at h
    cases h
  · rw [declaresHere_scope] at hnew
    rw [length_locals] at hroom
    exact ⟨by simpa using hnew, Nat.lt_of_not_le hroom⟩

theorem slotIn?_eq_latest? (name : String) (locals : List Local) :
    Scope.slotIn? name locals = latest? name (locals.reverse.map Local.name) := by
  induction locals with
  | nil => rfl
  | cons l earlier ih =>
    rw [Scope.slotIn?, List.reverse_cons, List.map_append, List.map_singleton,
      latest?_append_singleton, ih, List.length_map, List.length_reverse]

/-- A name has the slot of the latest declaration of it that is in scope. -/
theorem slot?_scope (f : Frames) (name : String) : f.scope.slot? name = f.slot? name := by
  have hnames : f.scope.locals.reverse.map Local.name = f.inScope := map_name_locals _
  rw [Scope.slot?, slotIn?_eq_latest?, hnames]
  rfl

end Frames

end OnePass
