import OnePass.Grammar.Operator
import OnePass.Proofs.Code.Output
import OnePass.Proofs.Code.Store
import OnePass.Proofs.Grammar.Expr

/-!
# OnePass.Proofs.Code.Expression

The reference translation of expressions. The code of a tree is its postorder: first
the code of the operands, from left to right, then the instructions of the operator,
on the line of the last token that has been read by then. Every literal and every
global name has a pool entry of its own, in the order of the source.

Which names are locals, and in which slots, is given by a function. `index` is the
number of constants that the pool holds already.
-/

namespace OnePass

/-- The slots that names refer to. A name without one is that of a global. -/
abbrev Slots := String → Option UInt8

/-- No name is that of a local. -/
def noLocals : Slots := fun _ => none

namespace TokenKind

/-- The instructions of an operator before one operand. -/
def unaryCode : TokenKind → List OpCode
  | .minus => [.negate]
  | .bang => [.not]
  | _ => []

/-- The instructions of an operator between two operands. -/
def binaryCode : TokenKind → List OpCode
  | .equalEqual => [.equal]
  | .bangEqual => [.equal, .not]
  | .greater => [.greater]
  | .greaterEqual => [.less, .not]
  | .less => [.less]
  | .lessEqual => [.greater, .not]
  | .plus => [.add]
  | .minus => [.subtract]
  | .star => [.multiply]
  | .slash => [.divide]
  | _ => []

theorem unaryCode_of_opening? {kind : TokenKind} {op : UnaryOp}
    (h : kind.opening? = some (.unary op)) : kind.unaryCode = [op.code] := by
  revert h; cases kind <;> cases op <;> decide

theorem binaryCode_of_binary? {kind : TokenKind} {op : BinaryOp} (h : kind.binary? = some op) :
    kind.binaryCode = op.code := by
  revert h; cases kind <;> cases op <;> decide

end TokenKind

/-! ### Constants -/

/-- The constant that a token puts into the pool: the value of a number, what stands
between the quotes of a string, or the name of a global. -/
def Token.constant? (slots : Slots) (t : Token) : Option Constant :=
  match t.kind with
  | .number => some (.number (t.number?.getD .zero))
  | .string => some (.text t.contents)
  | .identifier => if (slots t.lexeme).isSome then none else some (.text t.lexeme)
  | _ => none

/-- The constants of an expression, in the order of the source. -/
def Expr.constants (slots : Slots) : Expr → List Constant
  | atom t => (t.constant? slots).toList
  | group _ inner _ => inner.constants slots
  | unary _ operand => operand.constants slots
  | binary left _ right => left.constants slots ++ right.constants slots
  | assign target _ value => (target.constant? slots).toList ++ value.constants slots

/-- Only numbers, strings and names put constants into the pool. -/
theorem Token.constant?_eq_none {slots : Slots} {t : Token}
    (h : t.kind ∉ [.number, .string, .identifier]) : t.constant? slots = none := by
  unfold Token.constant?
  split <;> simp_all

/-- The constants of an expression are those of its tokens. -/
theorem Phrase.constants_eq (slots : Slots) {level : Level} {e : Expr} (h : Phrase level e) :
    e.constants slots = e.tokens.filterMap (·.constant? slots) := by
  induction h with
  | tighter h ih => exact ih
  | @assign target equal value ht heq h ih =>
    have hnone : equal.constant? slots = none := Token.constant?_eq_none (by simp [heq])
    rw [Expr.constants, Expr.tokens, ih, List.filterMap_cons, List.filterMap_cons, hnone]
    cases target.constant? slots <;> rfl
  | @chain level left op right hop hl hr ihl ihr =>
    have hnone : op.constant? slots = none := by
      refine Token.constant?_eq_none ?_
      revert hop
      generalize op.kind = kind
      cases level <;> cases kind <;> decide
    rw [Expr.constants, Expr.tokens, ihl, ihr, List.filterMap_append, List.filterMap_cons, hnone]
  | @unary op operand hop h ih =>
    have hnone : op.constant? slots = none := by
      refine Token.constant?_eq_none ?_
      rcases hop with hop | hop <;> simp [hop]
    rw [Expr.constants, Expr.tokens, ih, List.filterMap_cons, hnone]
  | @atom t ht =>
    rw [Expr.constants, Expr.tokens, List.filterMap_cons, List.filterMap_nil]
    cases t.constant? slots <;> rfl
  | @group opening inner closing ho h hc ih =>
    have hfirst : opening.constant? slots = none := Token.constant?_eq_none (by simp [ho])
    have hlast : closing.constant? slots = none := Token.constant?_eq_none (by simp [hc])
    rw [Expr.constants, Expr.tokens, ih, List.filterMap_cons, hfirst, List.filterMap_append,
      List.filterMap_cons, hlast, List.filterMap_nil, List.append_nil]

/-! ### Code -/

/-- The code of an expression that is a single token. -/
def Token.load (slots : Slots) (index : Nat) (t : Token) : List Written :=
  match t.kind with
  | .number => [⟨.constant, some (UInt8.ofNat index), t.line⟩]
  | .string => [⟨.constant, some (UInt8.ofNat index), t.line⟩]
  | .kwNil => [⟨.pushNil, none, t.line⟩]
  | .kwTrue => [⟨.pushTrue, none, t.line⟩]
  | .kwFalse => [⟨.pushFalse, none, t.line⟩]
  | .identifier =>
    match slots t.lexeme with
    | some slot => [⟨.getLocal, some slot, t.line⟩]
    | none => [⟨.getGlobal, some (UInt8.ofNat index), t.line⟩]
  | _ => []

/-- The instruction that assigns to a name. -/
def Token.assignCode (slots : Slots) (index : Nat) (target : Token) (line : Nat) : Written :=
  match slots target.lexeme with
  | some slot => ⟨.setLocal, some slot, line⟩
  | none => ⟨.setGlobal, some (UInt8.ofNat index), line⟩

/-- The code of an expression. -/
def Expr.code (slots : Slots) (index : Nat) : Expr → List Written
  | atom t => t.load slots index
  | group _ inner _ => inner.code slots index
  | unary op operand =>
    operand.code slots index ++ op.kind.unaryCode.map (⟨·, none, operand.last.line⟩)
  | binary left op right =>
    left.code slots index ++ right.code slots (index + (left.constants slots).length)
      ++ op.kind.binaryCode.map (⟨·, none, right.last.line⟩)
  | assign target _ value =>
    value.code slots (index + (target.constant? slots).toList.length)
      ++ [target.assignCode slots index value.last.line]

theorem Token.load_fits (slots : Slots) (index : Nat) (t : Token) :
    ∀ w ∈ t.load slots index, w.Fits := by
  intro w hw
  unfold Token.load at hw
  split at hw
  case h_6 =>
    split at hw <;> obtain rfl := List.mem_singleton.1 hw <;> rfl
  case h_7 => exact absurd hw List.not_mem_nil
  all_goals obtain rfl := List.mem_singleton.1 hw; rfl

theorem Token.assignCode_fits (slots : Slots) (index : Nat) (target : Token) (line : Nat) :
    (target.assignCode slots index line).Fits := by
  unfold Token.assignCode
  split <;> rfl

/-- The instructions of operators take no operands. -/
theorem TokenKind.takesOperand_of_operator {kind : TokenKind} {op : OpCode}
    (h : op ∈ kind.unaryCode ∨ op ∈ kind.binaryCode) : op.takesOperand = false := by
  revert h; cases kind <;> cases op <;> decide

/-- What holds for the instructions of single tokens, of operators and of assignments
holds for all instructions of an expression. -/
theorem Expr.forall_code {slots : Slots} {P : Written → Prop}
    (hload : ∀ (t : Token) index, ∀ w ∈ t.load slots index, P w)
    (hoperator : ∀ op line, op.takesOperand = false → P ⟨op, none, line⟩)
    (hassign : ∀ (target : Token) index line, P (target.assignCode slots index line))
    (e : Expr) : ∀ index, ∀ w ∈ e.code slots index, P w := by
  induction e with
  | atom t => exact fun index => hload t index
  | group opening inner closing ih => exact ih
  | unary op operand ih =>
    intro index w hw
    rcases List.mem_append.1 hw with hw | hw
    · exact ih index w hw
    · obtain ⟨code, hcode, rfl⟩ := List.mem_map.1 hw
      exact hoperator code _ (TokenKind.takesOperand_of_operator (.inl hcode))
  | binary left op right ihl ihr =>
    intro index w hw
    rcases List.mem_append.1 hw with hw | hw
    · rcases List.mem_append.1 hw with hw | hw
      · exact ihl index w hw
      · exact ihr _ w hw
    · obtain ⟨code, hcode, rfl⟩ := List.mem_map.1 hw
      exact hoperator code _ (TokenKind.takesOperand_of_operator (.inr hcode))
  | assign target equal value ih =>
    intro index w hw
    rcases List.mem_append.1 hw with hw | hw
    · exact ih _ w hw
    · obtain rfl := List.mem_singleton.1 hw
      exact hassign target index _

/-- Every instruction of an expression has the operand that its opcode takes. -/
theorem Expr.code_fits (slots : Slots) (e : Expr) (index : Nat) :
    ∀ w ∈ e.code slots index, w.Fits :=
  e.forall_code (fun t index => t.load_fits slots index) (fun _ _ h => h.symm)
    (fun target index => target.assignCode_fits slots index) index

/-- Whether an instruction accesses a local. -/
def Written.IsLocal (w : Written) : Prop := w.op = .getLocal ∨ w.op = .setLocal

/-- Without locals, no instruction of an expression accesses one. -/
theorem Expr.not_isLocal (e : Expr) (index : Nat) :
    ∀ w ∈ e.code noLocals index, ¬ w.IsLocal := by
  refine e.forall_code (fun t index w hw => ?_) (fun op line hop => ?_) (fun t index line => ?_)
    index
  · unfold Token.load noLocals at hw
    split at hw
    case h_7 => exact absurd hw List.not_mem_nil
    all_goals
      obtain rfl := List.mem_singleton.1 hw
      simp [Written.IsLocal]
  · rintro (rfl | rfl) <;> cases hop
  · simp [Token.assignCode, noLocals, Written.IsLocal]

end OnePass
