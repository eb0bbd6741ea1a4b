import OnePass.Proofs.Code.Expression
import OnePass.Proofs.Grammar.Stmt
import OnePass.Proofs.Scope.Frames

/-!
# OnePass.Proofs.Code.Statement

The reference translation of statements, and the static rules that go with it. Both
follow the tree with the frames of names that are in scope: a declaration adds its name
behind its own initializer, a block starts a frame of its own and ends with code that
takes its locals off the stack. Outside of blocks names are global and no local is in
scope.
-/

namespace OnePass

/-- The slots of the names in scope. -/
def Frames.slots (f : Frames) : Slots := fun name => (f.slot? name).map UInt8.ofNat

/-! ### Initializers -/

namespace Initializer

def constants (slots : Slots) : Initializer → List Constant
  | none => []
  | some (_, value) => value.constants slots

/-- The code of an initializer behind `name`. Without a value a variable is `nil`. -/
def code (slots : Slots) (index : Nat) (name : Token) : Initializer → List Written
  | none => [⟨.pushNil, none, name.line⟩]
  | some (_, value) => value.code slots index

theorem code_fits (slots : Slots) (index : Nat) (name : Token) (init : Initializer) :
    ∀ w ∈ init.code slots index name, w.Fits := by
  cases init with
  | none =>
    intro w hw
    obtain rfl := List.mem_singleton.1 hw
    rfl
  | some value => exact value.2.code_fits slots index

end Initializer

namespace Stmt

/-! ### Scopes -/

/-- The name that a statement declares in the block it stands in. -/
def declared? : Stmt → Option Token
  | declare _ name _ _ => some name
  | _ => none

/-- The names that statements declare in the block they stand in. -/
def declared (ss : List Stmt) : List Token := ss.filterMap declared?

/-- What is in scope behind a statement. -/
def after (f : Frames) : Stmt → Frames
  | declare _ name _ _ => if f.isGlobal then f else f.declare [name]
  | _ => f

/-- What is in scope behind statements. -/
def afterAll (f : Frames) : List Stmt → Frames
  | [] => f
  | s :: rest => afterAll (s.after f) rest

theorem afterAll_global (ss : List Stmt) : afterAll .global ss = .global := by
  induction ss with
  | nil => rfl
  | cons s rest ih =>
    have hafter : s.after .global = .global := by cases s <;> rfl
    rw [afterAll, hafter, ih]

/-- In a block, statements put the names that they declare into the innermost frame. -/
theorem afterAll_eq_declare {f : Frames} (h : f.isGlobal = false) (ss : List Stmt) :
    afterAll f ss = f.declare (declared ss) := by
  induction ss generalizing f with
  | nil => simp [afterAll, declared, Frames.declare]
  | cons s rest ih =>
    cases hs : s.declared? with
    | none =>
      have hafter : s.after f = f := by cases s <;> first | rfl | cases hs
      rw [afterAll, hafter, ih h, declared, declared, List.filterMap_cons_none hs]
    | some name =>
      have hafter : s.after f = f.declare [name] := by
        cases s with
        | declare var name' init semicolon =>
          obtain rfl := Option.some.inj hs
          rw [after, h, if_neg Bool.false_ne_true]
        | _ => cases hs
      have hblock : (f.declare [name]).isGlobal = false := h
      rw [afterAll, hafter, ih hblock, declared, declared, List.filterMap_cons_some hs]
      simp [Frames.declare]

/-! ### Constants -/

mutual

/-- The constants of a statement, in the order of the source. A global is defined under
its name, which comes behind the constants of its initializer. -/
def constants (f : Frames) : Stmt → List Constant
  | declare _ name init _ =>
    init.constants f.slots ++ if f.isGlobal then [.text name.lexeme] else []
  | print _ value _ => value.constants f.slots
  | block _ body _ => constantsOf f.enter body
  | expression value _ => value.constants f.slots

def constantsOf (f : Frames) : List Stmt → List Constant
  | [] => []
  | s :: rest => s.constants f ++ constantsOf (s.after f) rest

end

/-! ### Code -/

/-- The code behind the initializer of a declaration. A local needs none: it is the cell
that its initializer has left. -/
def defineCode (f : Frames) (index line : Nat) : List Written :=
  if f.isGlobal then [⟨.defineGlobal, some (UInt8.ofNat index), line⟩] else []

mutual

/-- The code of a statement. -/
def code (f : Frames) (index : Nat) : Stmt → List Written
  | declare _ name init semicolon =>
    init.code f.slots index name
      ++ defineCode f (index + (init.constants f.slots).length) semicolon.line
  | print _ value semicolon => value.code f.slots index ++ [⟨.print, none, semicolon.line⟩]
  | block _ body closing =>
    codeOf f.enter index body
      ++ List.replicate (declared body).length ⟨.pop, none, closing.line⟩
  | expression value semicolon =>
    value.code f.slots index ++ [⟨.pop, none, semicolon.line⟩]

def codeOf (f : Frames) (index : Nat) : List Stmt → List Written
  | [] => []
  | s :: rest => s.code f index ++ codeOf (s.after f) (index + (s.constants f).length) rest

end

theorem defineCode_fits (f : Frames) (index line : Nat) :
    ∀ w ∈ defineCode f index line, w.Fits := by
  intro w hw
  unfold defineCode at hw
  by_cases hglobal : f.isGlobal = true
  · rw [if_pos hglobal] at hw
    obtain rfl := List.mem_singleton.1 hw
    rfl
  · rw [if_neg hglobal] at hw
    exact absurd hw List.not_mem_nil

mutual

/-- Every instruction of a statement has the operand that its opcode takes. -/
theorem code_fits (f : Frames) (index : Nat) (s : Stmt) : ∀ w ∈ s.code f index, w.Fits := by
  intro w hw
  cases s with
  | declare var name init semicolon =>
    rcases List.mem_append.1 hw with hw | hw
    · exact init.code_fits f.slots index name w hw
    · exact defineCode_fits f _ _ w hw
  | print word value semicolon =>
    rcases List.mem_append.1 hw with hw | hw
    · exact value.code_fits f.slots index w hw
    · rw [List.mem_singleton.1 hw]
      rfl
  | block opening body closing =>
    rcases List.mem_append.1 hw with hw | hw
    · exact codeOf_fits f.enter index body w hw
    · rw [List.eq_of_mem_replicate hw]
      rfl
  | expression value semicolon =>
    rcases List.mem_append.1 hw with hw | hw
    · exact value.code_fits f.slots index w hw
    · rw [List.mem_singleton.1 hw]
      rfl

theorem codeOf_fits (f : Frames) (index : Nat) (ss : List Stmt) :
    ∀ w ∈ codeOf f index ss, w.Fits := by
  intro w hw
  cases ss with
  | nil => exact absurd hw List.not_mem_nil
  | cons s rest =>
    rcases List.mem_append.1 hw with hw | hw
    · exact code_fits f index s w hw
    · exact codeOf_fits (s.after f) _ rest w hw

end

/-! ### Static rules -/

mutual

/-- The static rules. Expressions nest 256 levels at most; in a block a name is declared
once, and only while fewer than 256 locals are in scope. -/
def Valid (f : Frames) : Stmt → Prop
  | declare _ name init _ =>
    (∀ e ∈ init.values, e.depth ≤ 256) ∧ (f.isGlobal = false → f.CanDeclare name)
  | print _ value _ => value.depth ≤ 256
  | block _ body _ => ValidAll f.enter body
  | expression value _ => value.depth ≤ 256

def ValidAll (f : Frames) : List Stmt → Prop
  | [] => True
  | s :: rest => s.Valid f ∧ ValidAll (s.after f) rest

end

/-- A statement that keeps the static rules brings no more locals into scope than there
are slots. -/
theorem length_inScope_after {f : Frames} {s : Stmt}
    (h : f.inScope.length ≤ OpCode.operandCount) (hvalid : s.Valid f) :
    (s.after f).inScope.length ≤ OpCode.operandCount := by
  cases s with
  | declare var name init semicolon =>
    rw [after]
    by_cases hglobal : f.isGlobal = true
    · rw [if_pos hglobal]
      exact h
    · rw [if_neg hglobal]
      have hlt := (hvalid.2 (by simpa using hglobal)).2
      rw [Frames.inScope_declare, List.length_append]
      exact hlt
  | _ => exact h

end Stmt

end OnePass
