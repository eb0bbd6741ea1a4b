import OnePass.Proofs.Stack.Trace

/-!
# OnePass.Proofs.Stack.Discipline

Compiled code keeps the stack in order. The invariant is that between statements the
cells are those of the locals in scope, in the order of their declarations, and that an
expression adds one cell to whatever is on the stack (`Expr.runs`, `Stmt.runs`). Nothing
in the compiler counts cells; slots are right because declarations come into scope
exactly where their initializers have left a cell.

The induction is over trees and not over code. There are no jumps, so that code is run from its
beginning to its end and the trace of a tree is a segment of it. Each segment is a run of its own,
from the cells that the segments in front of it have left.
-/

namespace OnePass

/-- The cells of the locals in scope. -/
def Frames.cells (f : Frames) : List Cell := f.inScope.map some

variable {final : Nat}

/-! ### Single instructions -/

/-- An instruction replaces the cells that it takes by those that it puts there. -/
theorem Event.act_append {base top : List Cell} {w : Written} (target : Option Token)
    (h : top.length = w.op.pops) :
    Event.act (base ++ top) (.run w target) = base ++ List.replicate w.op.pushes none := by
  have hlength : (base ++ top).length - w.op.pops = base.length := by
    rw [List.length_append, h, Nat.add_sub_cancel]
  rw [Event.act, hlength, List.take_left]

namespace Runs

/-- An instruction that takes nothing from the stack. -/
theorem of_pops_eq_zero {cells : List Cell} {w : Written} {target : Option Token}
    (hw : Admissible final cells w target) (hpops : w.op.pops = 0) :
    Runs final cells [.run w target] (cells ++ List.replicate w.op.pushes none) := by
  have hact : Event.act (cells ++ []) (.run w target)
      = cells ++ List.replicate w.op.pushes none := Event.act_append target hpops.symm
  rw [List.append_nil] at hact
  exact hact ▸ single hw

/-- An instruction that puts a cell on the stack. -/
theorem pushed {cells : List Cell} {w : Written} {target : Option Token}
    (hw : Admissible final cells w target) (hpops : w.op.pops = 0) (hpushes : w.op.pushes = 1) :
    Runs final cells [.run w target] (cells ++ [none]) := by
  have h := of_pops_eq_zero hw hpops
  rwa [hpushes] at h

/-- An instruction that leaves the stack as it is. -/
theorem kept {cells : List Cell} {w : Written} {target : Option Token}
    (hw : Admissible final cells w target) (hpops : w.op.pops = 0) (hpushes : w.op.pushes = 0) :
    Runs final cells [.run w target] cells := by
  have h := of_pops_eq_zero hw hpops
  rwa [hpushes, List.replicate_zero, List.append_nil] at h

/-- An instruction that takes all its operands from the top of the stack. -/
theorem of_pops {base top : List Cell} {w : Written} {target : Option Token}
    (h : top.length = w.op.pops) (hpops : w.op.operands = w.op.pops)
    (hplain : w.op.isPlain = true) :
    Runs final (base ++ top) [.run w target] (base ++ List.replicate w.op.pushes none) := by
  have hoperands : w.op.operands ≤ (base ++ top).length := by
    rw [hpops, ← h, List.length_append]
    exact Nat.le_add_left _ _
  rw [← Event.act_append target h]
  exact single (.of_isPlain hplain hoperands)

/-- An instruction that takes one cell and puts nothing in its place. -/
theorem popped {base : List Cell} {cell : Cell} {w : Written} {target : Option Token}
    (hpops : w.op.pops = 1) (hpushes : w.op.pushes = 0) (hoperands : w.op.operands = 1)
    (hplain : w.op.isPlain = true) : Runs final (base ++ [cell]) [.run w target] base := by
  have h : Runs final (base ++ [cell]) [.run w target]
      (base ++ List.replicate w.op.pushes none) :=
    of_pops hpops.symm (hoperands.trans hpops.symm) hplain
  rwa [hpushes, List.replicate_zero, List.append_nil] at h

/-- A row of operator instructions replaces two cells by one. -/
theorem binary (base : List Cell) (op : BinaryOp) (line : Nat) :
    Runs final (base ++ [none, none]) (plainly (op.code.map (⟨·, none, line⟩)))
      (base ++ [none]) := by
  -- Three comparisons negate the opposite one.
  have hnegated : ∀ w : Written, w.op.operands = 2 → w.op.pops = 2 → w.op.pushes = 1 →
      w.op.isPlain = true →
      Runs final (base ++ [none, none]) [.run w none, .run ⟨.not, none, line⟩ none]
        (base ++ [none]) := by
    intro w hoperands hpops hpushes hplain
    have hfirst : Runs final (base ++ [none, none]) [.run w none]
        (base ++ List.replicate w.op.pushes none) :=
      of_pops hpops.symm (hoperands.trans hpops.symm) hplain
    rw [hpushes] at hfirst
    have hnot : Runs final (base ++ [none]) [.run ⟨.not, none, line⟩ none] (base ++ [none]) :=
      of_pops rfl rfl rfl
    exact hfirst.append hnot
  cases op with
  | notEqual => exact hnegated _ rfl rfl rfl rfl
  | greaterEqual => exact hnegated _ rfl rfl rfl rfl
  | lessEqual => exact hnegated _ rfl rfl rfl rfl
  | _ => exact of_pops rfl rfl rfl

/-- Closing a block takes its cells off the stack. -/
theorem pops (base : List Cell) (line : Nat) :
    ∀ (count : Nat) (top : List Cell), top.length = count →
      Runs final (base ++ top) (plainly (List.replicate count ⟨.pop, none, line⟩)) base := by
  intro count
  induction count with
  | zero =>
    intro top htop
    obtain rfl := List.length_eq_zero_iff.1 htop
    rw [List.append_nil]
    exact .nil
  | succ count ih =>
    intro top htop
    obtain ⟨rest, last, rfl⟩ : ∃ rest last, top = rest ++ [last] := by
      refine ⟨top.dropLast, top.getLast ?_, (List.dropLast_append_getLast _).symm⟩
      exact List.ne_nil_of_length_eq_add_one htop
    rw [List.length_append, List.length_singleton] at htop
    have hpop : Runs final (base ++ rest ++ [last]) [.run ⟨.pop, none, line⟩ none]
        (base ++ rest) := popped rfl rfl rfl rfl
    rw [List.append_assoc] at hpop
    exact hpop.append (ih rest (Nat.succ.inj htop))

end Runs

/-! ### Expressions -/

section Expression

variable {f : Frames}

/-- A name that has a slot finds there the cell of the declaration that it refers to. -/
theorem Frames.finds (hlocals : f.inScope.length ≤ OpCode.operandCount) {name : String}
    {slot : UInt8} (hslot : f.slots name = some slot) (temps : List Cell) :
    Finds (f.cells ++ temps) (some slot) (f.declaration? name) := by
  obtain ⟨s, hs, rfl⟩ := Option.map_eq_some_iff.1 hslot
  have hlt := latest?_lt hs
  have hnat : (UInt8.ofNat s).toNat = s :=
    UInt8.toNat_ofNat_of_lt (Nat.lt_of_lt_of_le hlt hlocals)
  have hget : f.inScope[s]? = some f.inScope[s] := List.getElem?_eq_getElem hlt
  refine ⟨UInt8.ofNat s, f.inScope[s], rfl, ?_, ?_⟩
  · rw [← getElem?_of_slot? hs, hget]
  · have hcells : s < f.cells.length := by
      rw [cells, List.length_map]
      exact hlt
    rw [hnat, List.getElem?_append_left hcells, cells, List.getElem?_map, hget]
    rfl

theorem Token.runs_load (hlocals : f.inScope.length ≤ OpCode.operandCount) {t : Token}
    (ht : t.kind ∈ [.number, .string, .kwTrue, .kwFalse, .kwNil, .identifier])
    (temps : List Cell) (index : Nat) :
    Runs final (f.cells ++ temps) ((t.load f.slots index).map (.run · (t.target? f)))
      (f.cells ++ temps ++ [none]) := by
  unfold Token.load
  simp only [List.mem_cons, List.not_mem_nil, or_false] at ht
  rcases ht with ht | ht | ht | ht | ht | ht <;> simp only [ht, List.map_singleton]
  case inr.inr.inr.inr.inr =>
    have htarget : t.target? f = f.declaration? t.lexeme := by rw [Token.target?, if_pos ht]
    cases hslot : f.slots t.lexeme with
    | none => exact .pushed (.of_isPlain rfl (Nat.zero_le _)) rfl rfl
    | some slot =>
      have hw : Admissible final (f.cells ++ temps) ⟨.getLocal, some slot, t.line⟩
          (t.target? f) :=
        ⟨Nat.zero_le _, nofun, nofun, fun _ => htarget ▸ f.finds hlocals hslot temps, nofun⟩
      exact .pushed hw rfl rfl
  -- All other atoms put their cell on the stack without any condition.
  all_goals exact .pushed (.of_isPlain rfl (Nat.zero_le _)) rfl rfl

/-- An assignment leaves its value on the stack. -/
theorem Token.runs_assignCode (hlocals : f.inScope.length ≤ OpCode.operandCount) {t : Token}
    (ht : t.kind = .identifier) (temps : List Cell) (index line : Nat) :
    Runs final (f.cells ++ temps ++ [none])
      [.run (t.assignCode f.slots index line) (t.target? f)] (f.cells ++ temps ++ [none]) := by
  have hone : 1 ≤ (f.cells ++ temps ++ [none]).length := by
    rw [List.length_append, List.length_singleton]
    exact Nat.le_add_left _ _
  have htarget : t.target? f = f.declaration? t.lexeme := by rw [Token.target?, if_pos ht]
  unfold Token.assignCode
  cases hslot : f.slots t.lexeme with
  | none => exact .kept (.of_isPlain rfl hone) rfl rfl
  | some slot =>
    have hw : Admissible final (f.cells ++ temps ++ [none]) ⟨.setLocal, some slot, line⟩
        (t.target? f) := by
      refine ⟨hone, nofun, nofun, nofun, fun _ => ?_⟩
      rw [List.dropLast_concat]
      exact htarget ▸ f.finds hlocals hslot temps
    exact .kept hw rfl rfl

/-- An expression leaves one cell on top of what has been there. -/
theorem Expr.runs_above (hlocals : f.inScope.length ≤ OpCode.operandCount) {level : Level}
    {e : Expr} (h : Phrase level e) :
    ∀ (temps : List Cell) (index : Nat),
      Runs final (f.cells ++ temps) (e.trace f index) (f.cells ++ temps ++ [none]) := by
  induction h with
  | tighter h ih => exact ih
  | assign ht heq h ih =>
    intro temps index
    exact (ih temps _).append (Token.runs_assignCode hlocals ht temps _ _)
  | @chain level left op right hop hl hr ihl ihr =>
    intro temps index
    obtain ⟨binary, hbinary, -⟩ := mem_operators_iff.1 hop
    have hright := ihr (temps ++ [none]) (index + (left.constants f.slots).length)
    rw [← List.append_assoc] at hright
    have hcode : Runs final (f.cells ++ temps ++ [none, none])
        (plainly (binary.code.map (⟨·, none, right.last.line⟩))) (f.cells ++ temps ++ [none]) :=
      .binary _ binary _
    rw [← TokenKind.binaryCode_of_binary? hbinary] at hcode
    refine ((ihl temps index).append hright).append ?_
    rwa [List.append_assoc (f.cells ++ temps) [none] [none]]
  | unary hop h ih =>
    intro temps index
    refine (ih temps index).append ?_
    rcases hop with hop | hop <;> rw [hop] <;> exact .of_pops rfl rfl rfl
  | atom ht => exact Token.runs_load hlocals ht
  | group ho h hc ih => exact ih

/-- Between statements, an expression leaves one cell on top of the locals. -/
theorem Expr.runs (hlocals : f.inScope.length ≤ OpCode.operandCount) {level : Level} {e : Expr}
    (h : Phrase level e) (index : Nat) :
    Runs final f.cells (e.trace f index) (f.cells ++ [none]) := by
  have habove : Runs final (f.cells ++ []) (e.trace f index) (f.cells ++ [] ++ [none]) :=
    e.runs_above hlocals h [] index
  rwa [List.append_nil] at habove

end Expression

/-! ### Statements -/

/-- Names in scope that the stack can hold as it does: every local has a slot, and there
is none outside of blocks. -/
structure Frames.Housed (f : Frames) : Prop where
  locals : f.inScope.length ≤ OpCode.operandCount
  global : f.isGlobal = true → f.inScope = []

namespace Frames

theorem housed_global : global.Housed := ⟨Nat.zero_le _, fun _ => rfl⟩

theorem Housed.enter {f : Frames} (h : f.Housed) : f.enter.Housed :=
  ⟨f.inScope_enter ▸ h.locals, nofun⟩

theorem Housed.after {f : Frames} (h : f.Housed) {s : Stmt} (hvalid : s.Valid f) :
    (s.after f).Housed := by
  refine ⟨Stmt.length_inScope_after h.locals hvalid, ?_⟩
  cases s with
  | declare var name init semicolon =>
    rw [Stmt.after]
    by_cases hglobal : f.isGlobal = true
    · rw [if_pos hglobal]
      exact h.global
    · rw [if_neg hglobal]
      intro hdeclared
      exact absurd hdeclared hglobal
  | _ => exact h.global

theorem cells_enter (f : Frames) : f.enter.cells = f.cells := by
  rw [cells, inScope_enter, cells]

theorem cells_declare (f : Frames) (names : List Token) :
    (f.declare names).cells = f.cells ++ names.map some := by
  rw [cells, inScope_declare, List.map_append]
  rfl

end Frames

/-- An initializer leaves one cell on top of the locals. -/
theorem Initializer.runs {f : Frames} (hlocals : f.inScope.length ≤ OpCode.operandCount)
    {init : Initializer} (h : init.Derived) (name : Token) (index : Nat) :
    Runs final f.cells (init.trace f index name) (f.cells ++ [none]) := by
  cases init with
  | none => exact .pushed (.of_isPlain rfl (Nat.zero_le _)) rfl rfl
  | some value => exact value.2.runs hlocals h.2 index

namespace Stmt

/-- What an initializer has left becomes a local, or goes into a global. -/
theorem runs_defineTrace {f : Frames} (h : f.Housed) (index : Nat) (name : Token) (line : Nat) :
    Runs final (f.cells ++ [none]) (defineTrace f index name line)
      (if f.isGlobal then f else f.declare [name]).cells := by
  unfold defineTrace defineCode
  by_cases hglobal : f.isGlobal = true
  · have hcells : f.cells = [] := by rw [Frames.cells, h.global hglobal, List.map_nil]
    have hw : Admissible final [none] ⟨.defineGlobal, some (UInt8.ofNat index), line⟩ none :=
      ⟨Nat.le_refl _, nofun, fun _ => rfl, nofun, nofun⟩
    rw [if_pos hglobal, if_pos hglobal, if_pos hglobal, hcells]
    exact .single hw
  · rw [if_neg hglobal, if_neg hglobal]
    have hne : f.cells ++ [none] ≠ [] := List.append_ne_nil_of_right_ne_nil _ (by simp)
    have hact : Event.act (f.cells ++ [none]) (.bind name) = (f.declare [name]).cells := by
      rw [Event.act, List.dropLast_concat, Frames.cells_declare]
      rfl
    exact .bind hne (hact ▸ .nil)

mutual

/-- A statement adds the cells of the locals that it brings into scope. -/
theorem runs {f : Frames} {s : Stmt} (h : f.Housed) (hs : s.Derived) (hvalid : s.Valid f)
    (index : Nat) : Runs final f.cells (s.trace f index) (s.after f).cells := by
  cases s with
  | declare var name init semicolon =>
    cases hs with
    | declare hv hn hi hs =>
      exact (Initializer.runs h.locals hi name index).append (runs_defineTrace h _ name _)
  | print word value semicolon =>
    cases hs with
    | print hw he hs =>
      exact (value.runs h.locals he index).append (.popped rfl rfl rfl rfl)
  | block opening body closing =>
    cases hs with
    | block ho hb hc =>
      have hbody : Runs final f.enter.cells (traceOf f.enter index body)
          (afterAll f.enter body).cells := runsAll h.enter hb hvalid index
      rw [afterAll_eq_declare rfl, Frames.cells_declare, Frames.cells_enter] at hbody
      exact hbody.append (.pops _ _ _ _ (List.length_map _))
  | expression value semicolon =>
    cases hs with
    | expression he hs =>
      exact (value.runs h.locals he index).append (.popped rfl rfl rfl rfl)

/-- Between the statements of a program, the cells are those of the locals in scope. -/
theorem runsAll {f : Frames} {ss : List Stmt} (h : f.Housed) (hss : ∀ s ∈ ss, s.Derived)
    (hvalid : ValidAll f ss) (index : Nat) :
    Runs final f.cells (traceOf f index ss) (afterAll f ss).cells := by
  cases ss with
  | nil => exact .nil
  | cons s rest =>
    obtain ⟨hs, hrest⟩ := List.forall_mem_cons.1 hss
    exact (runs h hs hvalid.1 index).append (runsAll (h.after hvalid.1) hrest hvalid.2 _)

end

end Stmt

end OnePass
