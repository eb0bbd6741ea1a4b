import OnePass.Proofs.Code.Statement
import OnePass.Proofs.Grammar.Shift

/-!
# OnePass.Proofs.Code.Relocate

The reference translation of a text that stands further behind, over a pool that holds
more constants already. The constants are the same, the operands that refer to constants
go up by as many, and the lines by as many as the text has moved (`Expr.code_shift`,
`Stmt.codeOf_shift`). The slots of locals stay: they depend on names alone
(`Frames.slots_shift`). The translation of statements in a row is put together from those
of the statements (`Stmt.codeOf_append`).
-/

namespace OnePass

variable (bytes lines : Nat)

/-! ### Instructions -/

namespace Written

/-- An instruction that is written over a pool with more constants, and further behind. -/
def relocate (constants lines : Nat) (w : Written) : Written :=
  { w with
    operand :=
      if w.op.refersToConstant then
        w.operand.map fun operand => UInt8.ofNat (constants + operand.toNat)
      else w.operand
    line := lines + w.line }

theorem relocate_zero (w : Written) : w.relocate 0 0 = w := by
  obtain ⟨op, operand, line⟩ := w
  cases operand <;> simp [relocate]

/-- An operand that is an index of the pool goes up with the pool. -/
theorem relocate_of_refersToConstant {op : OpCode} (h : op.refersToConstant = true)
    (constants index line : Nat) :
    relocate constants lines ⟨op, some (UInt8.ofNat index), line⟩
      = ⟨op, some (UInt8.ofNat (constants + index)), lines + line⟩ := by
  -- Bytes go round, so the index need not fit.
  have hbyte : UInt8.ofNat (constants + (UInt8.ofNat index).toNat)
      = UInt8.ofNat (constants + index) := by
    refine UInt8.toNat.inj ?_
    simp
  rw [relocate, if_pos h, Option.map_some, hbyte]

/-- Any other operand is a slot, and slots do not depend on the pool. -/
theorem relocate_of_not_refersToConstant {op : OpCode} (h : op.refersToConstant = false)
    (constants : Nat) (operand : Option UInt8) (line : Nat) :
    relocate constants lines ⟨op, operand, line⟩ = ⟨op, operand, lines + line⟩ := by
  rw [relocate, if_neg (by simp [h])]

/-- Of the code of an operator only the lines move. -/
theorem map_relocate_plain (constants line : Nat) {ops : List OpCode}
    (h : ∀ op ∈ ops, op.takesOperand = false) :
    (ops.map fun op => (⟨op, none, line⟩ : Written)).map (relocate constants lines)
      = ops.map fun op => ⟨op, none, lines + line⟩ := by
  rw [List.map_map]
  refine List.map_congr_left fun op hop => ?_
  have hplain : op.refersToConstant = false := by
    have hnone := h op hop
    revert hnone; cases op <;> decide
  exact relocate_of_not_refersToConstant lines hplain constants none line

end Written

/-! ### Expressions -/

@[simp] theorem Token.constant?_shift (slots : Slots) (t : Token) :
    (t.shift bytes lines).constant? slots = t.constant? slots := rfl

/-- An expression further behind asks for the same constants in the same order. -/
@[simp] theorem Expr.constants_shift (slots : Slots) (e : Expr) :
    (e.shift bytes lines).constants slots = e.constants slots := by
  induction e with
  | atom t => rfl
  | group opening inner closing ih => exact ih
  | unary op operand ih => exact ih
  | binary left op right ihl ihr => rw [shift, constants, constants, ihl, ihr]
  | assign target equal value ih => rw [shift, constants, constants, ih, Token.constant?_shift]

section Code

variable (constants : Nat) (slots : Slots) (index : Nat)

/-- Reading a name: a global refers to the pool and is relocated, a local keeps its slot. -/
theorem Token.load_shift (t : Token) :
    (t.shift bytes lines).load slots (constants + index)
      = (t.load slots index).map (Written.relocate constants lines) := by
  obtain ⟨kind, lexeme, offset, line⟩ := t
  have hload : ∀ op, op.refersToConstant = true →
      [⟨op, some (UInt8.ofNat (constants + index)), lines + line⟩]
        = [(⟨op, some (UInt8.ofNat index), line⟩ : Written)].map
            (Written.relocate constants lines) := by
    intro op hop
    rw [List.map_singleton, Written.relocate_of_refersToConstant lines hop]
  cases kind with
  | number => exact hload .constant rfl
  | string => exact hload .constant rfl
  | identifier =>
    simp only [load, shift]
    cases slots lexeme with
    | none => exact hload .getGlobal rfl
    | some slot => rfl
  | _ => rfl

theorem Token.assignCode_shift (target : Token) (line : Nat) :
    (target.shift bytes lines).assignCode slots (constants + index) (lines + line)
      = (target.assignCode slots index line).relocate constants lines := by
  simp only [assignCode, shift]
  cases slots target.lexeme with
  | none => exact (Written.relocate_of_refersToConstant lines rfl constants index line).symm
  | some slot => rfl

/-- The code of an expression that stands further behind, over a pool that holds `constants`
more constants. -/
theorem Expr.code_shift (e : Expr) :
    (e.shift bytes lines).code slots (constants + index)
      = (e.code slots index).map (Written.relocate constants lines) := by
  induction e generalizing index with
  | atom t => exact t.load_shift bytes lines constants slots index
  | group opening inner closing ih => exact ih index
  | unary op operand ih =>
    have hplain := Written.map_relocate_plain lines constants operand.last.line
      (fun _ (hcode : _ ∈ op.kind.unaryCode) => TokenKind.takesOperand_of_operator (.inl hcode))
    rw [shift, code, code, ih, List.map_append, hplain, last_shift]
    rfl
  | binary left op right ihl ihr =>
    -- The right operand starts behind the constants of the left one, which have not changed.
    have hplain := Written.map_relocate_plain lines constants right.last.line
      (fun _ (hcode : _ ∈ op.kind.binaryCode) => TokenKind.takesOperand_of_operator (.inr hcode))
    rw [shift, code, code, ihl, constants_shift, Nat.add_assoc, ihr, List.map_append,
      List.map_append, hplain, last_shift]
    rfl
  | assign target equal value ih =>
    rw [shift, code, code, Token.constant?_shift, Nat.add_assoc, ih, List.map_append,
      List.map_singleton, last_shift]
    exact congrArg (_ ++ [·]) (target.assignCode_shift bytes lines constants slots index _)

end Code

/-! ### Scopes -/

namespace Frames

/-- The frames of a text that stands further behind. -/
def shift (f : Frames) : Frames :=
  ⟨f.inner.map (Token.shift bytes lines), f.outer.map (List.map (Token.shift bytes lines))⟩

theorem shift_enter (f : Frames) : f.enter.shift bytes lines = (f.shift bytes lines).enter :=
  rfl

/-- A declaration joins the innermost frame and moves with it. -/
theorem shift_declare (f : Frames) (names : List Token) :
    (f.declare names).shift bytes lines
      = (f.shift bytes lines).declare (names.map (Token.shift bytes lines)) := by
  rw [shift, declare, List.map_append]
  rfl

@[simp] theorem isGlobal_shift (f : Frames) : (f.shift bytes lines).isGlobal = f.isGlobal :=
  List.isEmpty_map

theorem inScope_shift (f : Frames) :
    (f.shift bytes lines).inScope = f.inScope.map (Token.shift bytes lines) := by
  rw [inScope, inScope, List.map_flatten, List.map_reverse]
  rfl

/-- A name is looked up by its text, so its latest declaration keeps its place. -/
theorem latest?_map_shift (name : String) (ts : List Token) :
    latest? name (ts.map (Token.shift bytes lines)) = latest? name ts := by
  induction ts with
  | nil => rfl
  | cons t later ih =>
    rw [List.map_cons, latest?, latest?, ih]
    rfl

/-- No slot changes, because a slot is a place among the declarations in scope. This is why only
operands that refer to constants are relocated. -/
@[simp] theorem slots_shift (f : Frames) : (f.shift bytes lines).slots = f.slots := by
  funext name
  rw [slots, slots, slot?, slot?, inScope_shift, latest?_map_shift]

theorem CanDeclare.shift {f : Frames} {name : Token} (h : f.CanDeclare name) :
    (f.shift bytes lines).CanDeclare (name.shift bytes lines) := by
  refine ⟨fun t ht => ?_, ?_⟩
  · obtain ⟨t', ht', rfl⟩ := List.mem_map.1 ht
    exact h.1 t' ht'
  · rw [inScope_shift, List.length_map]
    exact h.2

end Frames

/-! ### Statements -/

@[simp] theorem Initializer.constants_shift (slots : Slots) (init : Initializer) :
    (init.shift bytes lines).constants slots = init.constants slots := by
  cases init with
  | none => rfl
  | some value => exact value.2.constants_shift bytes lines slots

/-- The code of an initializer, of which `nil` stands on the line of the name. -/
theorem Initializer.code_shift (constants : Nat) (slots : Slots) (index : Nat) (name : Token)
    (init : Initializer) :
    (init.shift bytes lines).code slots (constants + index) (name.shift bytes lines)
      = (init.code slots index name).map (Written.relocate constants lines) := by
  cases init with
  | none => rfl
  | some value => exact value.2.code_shift bytes lines constants slots index

theorem Initializer.depth_le_of_mem_values_shift {init : Initializer} {n : Nat}
    (h : ∀ e ∈ init.values, e.depth ≤ n) :
    ∀ e ∈ (init.shift bytes lines).values, e.depth ≤ n := by
  cases init with
  | none => exact h
  | some value =>
    intro e he
    rw [List.mem_singleton.1 he, Expr.depth_shift]
    exact h value.2 List.mem_cons_self

namespace Stmt

theorem after_shift (f : Frames) (s : Stmt) :
    (s.shift bytes lines).after (f.shift bytes lines) = (s.after f).shift bytes lines := by
  cases s with
  | declare var name init semicolon =>
    rw [shift, after, after, Frames.isGlobal_shift]
    by_cases hglobal : f.isGlobal = true
    · rw [if_pos hglobal, if_pos hglobal]
    · rw [if_neg hglobal, if_neg hglobal, Frames.shift_declare]
      rfl
  | _ => rfl

/-- A moved block takes as many locals away at its end. -/
theorem length_declared_shiftAll (ss : List Stmt) :
    (declared (shiftAll bytes lines ss)).length = (declared ss).length := by
  induction ss with
  | nil => rfl
  | cons s rest ih =>
    cases s with
    | declare => exact congrArg (· + 1) ih
    | _ => exact ih

mutual

theorem constants_shift (f : Frames) (s : Stmt) :
    (s.shift bytes lines).constants (f.shift bytes lines) = s.constants f := by
  cases s with
  | declare var name init semicolon =>
    rw [shift, constants, constants, Initializer.constants_shift, Frames.isGlobal_shift,
      Frames.slots_shift]
    rfl
  | block opening body closing =>
    rw [shift, constants, constants, ← Frames.shift_enter, constantsOf_shift]
  | _ => simp [shift, constants]

theorem constantsOf_shift (f : Frames) (ss : List Stmt) :
    constantsOf (f.shift bytes lines) (shiftAll bytes lines ss) = constantsOf f ss := by
  cases ss with
  | nil => rfl
  | cons s rest =>
    rw [shiftAll, constantsOf, constantsOf, constants_shift, after_shift, constantsOf_shift]

end

/-- The definition of a global refers to its name in the pool, that of a local is no code. -/
theorem defineCode_shift (constants : Nat) (f : Frames) (index line : Nat) :
    defineCode (f.shift bytes lines) (constants + index) (lines + line)
      = (defineCode f index line).map (Written.relocate constants lines) := by
  unfold defineCode
  rw [Frames.isGlobal_shift]
  by_cases hglobal : f.isGlobal = true
  · rw [if_pos hglobal, if_pos hglobal, List.map_singleton,
      Written.relocate_of_refersToConstant lines rfl]
  · rw [if_neg hglobal, if_neg hglobal, List.map_nil]

mutual

/-- The code of a statement that stands further behind. Constants and scopes of the moved text are
rewritten to those of the original first, so that both sides count alike. -/
theorem code_shift (n : Nat) (f : Frames) (index : Nat) (s : Stmt) :
    (s.shift bytes lines).code (f.shift bytes lines) (n + index)
      = (s.code f index).map (Written.relocate n lines) := by
  cases s with
  | declare var name init semicolon =>
    -- What comes behind the initializer counts on from its constants.
    rw [shift, code, code, Initializer.constants_shift, Frames.slots_shift,
      Initializer.code_shift, Nat.add_assoc, List.map_append]
    exact congrArg (_ ++ ·) (defineCode_shift bytes lines n f _ semicolon.line)
  | print word value semicolon =>
    rw [shift, code, code, Frames.slots_shift, Expr.code_shift, List.map_append]
    rfl
  | block opening body closing =>
    rw [shift, code, code, ← Frames.shift_enter, codeOf_shift, length_declared_shiftAll,
      List.map_append, List.map_replicate]
    rfl
  | expression value semicolon =>
    rw [shift, code, code, Frames.slots_shift, Expr.code_shift, List.map_append]
    rfl

/-- The code of statements that stand further behind, over a pool that holds `n` more
constants. -/
theorem codeOf_shift (n : Nat) (f : Frames) (index : Nat) (ss : List Stmt) :
    codeOf (f.shift bytes lines) (n + index) (shiftAll bytes lines ss)
      = (codeOf f index ss).map (Written.relocate n lines) := by
  cases ss with
  | nil => rfl
  | cons s rest =>
    rw [shiftAll, codeOf, codeOf, code_shift, constants_shift, after_shift, Nat.add_assoc,
      codeOf_shift, List.map_append]

end

mutual

/-- A statement within the limits is within them further behind: they are about depths, names and
numbers of locals. -/
theorem Valid.shift {f : Frames} {s : Stmt} (h : s.Valid f) :
    (s.shift bytes lines).Valid (f.shift bytes lines) := by
  cases s with
  | declare var name init semicolon =>
    refine ⟨Initializer.depth_le_of_mem_values_shift bytes lines h.1, fun hblock => ?_⟩
    exact (h.2 (Frames.isGlobal_shift bytes lines f ▸ hblock)).shift bytes lines
  | print word value semicolon => exact (value.depth_shift bytes lines).trans_le h
  | block opening body closing => exact ValidAll.shift (f := f.enter) h
  | expression value semicolon => exact (value.depth_shift bytes lines).trans_le h

theorem ValidAll.shift {f : Frames} {ss : List Stmt} (h : ValidAll f ss) :
    ValidAll (f.shift bytes lines) (shiftAll bytes lines ss) := by
  cases ss with
  | nil => trivial
  | cons s rest =>
    refine ⟨Valid.shift h.1, ?_⟩
    rw [after_shift]
    exact ValidAll.shift h.2

end

/-! ### Statements in a row -/

section Append

variable (f : Frames) (ss ss' : List Stmt)

/-- Statements leave names in scope for those behind them. -/
theorem constantsOf_append :
    constantsOf f (ss ++ ss') = constantsOf f ss ++ constantsOf (afterAll f ss) ss' := by
  induction ss generalizing f with
  | nil => rfl
  | cons s rest ih =>
    rw [List.cons_append, constantsOf, constantsOf, ih, afterAll, List.append_assoc]

/-- The code of two rows: the second one runs in the scope that the first one leaves, and starts
behind its constants. -/
theorem codeOf_append (index : Nat) :
    codeOf f index (ss ++ ss')
      = codeOf f index ss ++ codeOf (afterAll f ss) (index + (constantsOf f ss).length) ss' := by
  -- The first row is taken apart, so the scope and the index it starts with vary.
  induction ss generalizing f index with
  | nil => rfl
  | cons s rest ih =>
    rw [List.cons_append, codeOf, codeOf, ih, afterAll, List.append_assoc, constantsOf,
      List.length_append, Nat.add_assoc]

theorem validAll_append :
    ValidAll f (ss ++ ss') ↔ ValidAll f ss ∧ ValidAll (afterAll f ss) ss' := by
  induction ss generalizing f with
  | nil => exact (and_iff_right trivial).symm
  | cons s rest ih =>
    rw [List.cons_append, ValidAll, ValidAll, ih, afterAll, and_assoc]

end Append

end Stmt

end OnePass
