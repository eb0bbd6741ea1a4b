import OnePass.Proofs.Parser.Step

/-!
# OnePass.Proofs.Parser.Walk

Which tokens the rules for expressions take, in a panic or not. A token is taken where an
operand is due, whatever it is; elsewhere only if it is an operator, or an `=`, `)` or `;`
that goes on with what stands before it. A step of a *walk* (`Move`) says so of the token
it takes, and says where what it reports stands; all expressions are walks
(`parseLevel_walks`).

The rules are gone through once, for every relation of one token to the next that admits what
they take (`Admits`). For the finest such relation (`Follows`) a walk says where tokens are
taken; for the one that always holds it says only what is done, which is the footprint of
expressions (`Walks.does`).
-/

namespace OnePass

namespace TokenKind

/-- Whether an operand is due directly behind a token. -/
def asksOperand (kind : TokenKind) : Bool :=
  kind = .kwPrint || kind = .leftParen || kind = .equal || kind = .bang || kind.binary?.isSome

/-- Whether a token goes on with what stands before it, whatever that is. -/
def goesOn (kind : TokenKind) : Bool :=
  kind = .equal || kind = .rightParen || kind = .semicolon || kind.binary?.isSome

theorem asksOperand_of_binary {kind : TokenKind} {o : BinaryOp} (h : kind.binary? = some o) :
    kind.asksOperand = true := by
  simp [asksOperand, h]

theorem goesOn_of_binary {kind : TokenKind} {o : BinaryOp} (h : kind.binary? = some o) :
    kind.goesOn = true := by
  simp [goesOn, h]

/-- Behind what opens a group, and behind an operator that stands in front of its operand. -/
theorem asksOperand_of_opening {kind : TokenKind} {first : Opening}
    (h : kind.opening? = some first) (hfirst : first = .group ∨ ∃ op, first = .unary op) :
    kind.asksOperand = true := by
  rcases hfirst with rfl | ⟨op, rfl⟩ <;> revert h <;>
    cases kind <;> simp [opening?, asksOperand, binary?]

/-- Whether a token of the kind `next` is taken directly behind one of the kind `last`. -/
def Follows (last next : TokenKind) : Prop :=
  last.asksOperand = true ∨ next.goesOn = true
    ∨ last ≠ .semicolon ∧ next.startsStatement = false

end TokenKind

open TokenKind

namespace Parser

/-! ### Moves -/

/-- Whether a relation of the token that was taken last to the next one admits what the rules
for expressions take: any token where an operand is due, and everywhere a token that goes on. -/
structure Admits (may : TokenKind → TokenKind → Prop) : Prop where
  operand : ∀ {last next}, last.asksOperand = true → may last next
  goesOn : ∀ {last next}, next.goesOn = true → may last next

theorem follows_admits : Admits Follows := ⟨.inl, fun h => .inr (.inl h)⟩

/-- The relation that does not ask which token is taken. -/
def Anything (_ _ : TokenKind) : Prop := True

theorem anything_admits : Admits Anything := ⟨fun _ => trivial, fun _ => trivial⟩

/-- One step of a walk. A `;` is taken only as an operand that it is not, or in a panic. -/
inductive Move (may : TokenKind → TokenKind → Prop) : Parser → Parser → Prop where
  | take (p : Parser) (h : may p.previous.kind p.current.kind)
      (hother : p.current.kind ≠ .semicolon) : Move may p p.advance
  | misplaced (p : Parser) (h : may p.previous.kind p.current.kind) (problem : Problem) :
      Move may p (p.advance.error problem)
  | blameCurrent (p : Parser) (problem : Problem) : Move may p (p.errorAtCurrent problem)
  | onSpot {deed : Deed} {p q : Parser} (h : Action deed p q) (hdeed : deed ∈ Deed.onSpot) :
      Move may p q

/-- A sequence of moves. -/
abbrev Walks (may : TokenKind → TokenKind → Prop) : Parser → Parser → Prop :=
  Relation.ReflTransGen (Move may)

section Walk

variable {may : TokenKind → TokenKind → Prop} {p q : Parser}

/-- Whatever tokens a walk takes, it does no more than expressions do. -/
theorem Walks.does (h : Walks may p q) : Does Deed.inExpr p q := by
  induction h with
  | refl => exact .refl
  | tail _ hmove ih =>
    refine ih.trans ?_
    cases hmove with
    | take => exact (advance_does _).mono rfl
    | misplaced => exact ((advance_does _).append (error_does _ _)).mono rfl
    | blameCurrent => exact (errorAt_does _ _ _).mono rfl
    | onSpot haction hdeed =>
      exact .single ⟨_, List.mem_cons_of_mem _ (List.mem_cons_of_mem _ hdeed), haction⟩

/-- Operations that stay on the spot need not be looked into again. -/
theorem Does.walks {deeds : Footprint} (h : Does deeds p q) (hspot : deeds.within Deed.onSpot) :
    Walks may p q :=
  Relation.ReflTransGen.mono
    (fun _ _ ⟨_, hdeed, haction⟩ => .onSpot haction (Footprint.mem_of_within hspot hdeed)) p q h

theorem consume_walks {kind : TokenKind} (h : may p.previous.kind kind)
    (hkind : kind ≠ .semicolon) (problem : Problem) : Walks may p (p.consume kind problem) := by
  unfold consume
  split
  · rename_i hcheck
    have hcurrent : p.current.kind = kind := of_decide_eq_true hcheck
    exact .single (.take p (hcurrent ▸ h) (hcurrent ▸ hkind))
  · exact .single (.blameCurrent p problem)

/-- A token that goes on with what stands before it is taken. -/
theorem advance_walks (hmay : Admits may) {kind : TokenKind} (hcheck : p.check kind = true)
    (h : kind.goesOn = true) (hkind : kind ≠ .semicolon) : Walks may p p.advance := by
  have hcurrent : p.current.kind = kind := of_decide_eq_true hcheck
  exact .single (.take p (hmay.goesOn (hcurrent ▸ h)) (hcurrent ▸ hkind))

theorem rejectTarget_walks (hmay : Admits may) (canAssign : Bool) (p : Parser) :
    Walks may p (rejectTarget canAssign p) := by
  unfold rejectTarget
  split
  · rename_i hreject
    exact (advance_walks hmay ((Bool.and_eq_true _ _).mp hreject).2 rfl (by decide)).trans
      ((error_does _ _).walks rfl)
  · exact .refl

end Walk

/-! ### Expressions -/

/-- Every way to compile an operand is a walk where any token may be taken. -/
def OperandWalks (may : TokenKind → TokenKind → Prop)
    (operand : Precedence → Parser → Parser) : Prop :=
  ∀ min p, (∀ next, may p.previous.kind next) → Walks may p (operand min p)

section Operand

variable {may : TokenKind → TokenKind → Prop} {operand : Precedence → Parser → Parser}
  (hmay : Admits may) (h : OperandWalks may operand)

include hmay h

/-- What is done with a name after it has been looked up. -/
theorem place_walks_variableUse (canAssign : Bool) (p : Parser) :
    Walks may (p.place p.previous).2 (variableUse operand canAssign p) := by
  unfold variableUse
  dsimp only
  split
  · rename_i hassign
    have hequal := ((Bool.and_eq_true _ _).mp hassign).2
    have hcurrent : (p.place p.previous).2.current.kind = .equal := of_decide_eq_true hequal
    have hvalue := h .assignment (p.place p.previous).2.advance fun next => by
      rw [advance_previous, hcurrent]
      exact hmay.operand rfl
    exact (advance_walks hmay hequal rfl (by decide)).trans
      (hvalue.trans ((emitSet_does _ _).walks rfl))
  · exact (emitGet_does _ _).walks rfl

theorem variableUse_walks (canAssign : Bool) (p : Parser) :
    Walks may p (variableUse operand canAssign p) :=
  ((p.place_does p.previous).walks rfl).trans (place_walks_variableUse hmay h canAssign p)

theorem opening_walks (canAssign : Bool) {p : Parser} {first : Opening}
    (hfirst : p.previous.kind.opening? = some first) :
    Walks may p (opening operand canAssign p first) := by
  cases first with
  | group =>
    have hasks := asksOperand_of_opening hfirst (.inl rfl)
    exact (h _ p fun _ => hmay.operand hasks).trans
      (consume_walks (hmay.goesOn rfl) (by decide) _)
  | unary op =>
    have hasks := asksOperand_of_opening hfirst (.inr ⟨op, rfl⟩)
    exact (h _ p fun _ => hmay.operand hasks).trans ((emit_does _ _).walks rfl)
  | word literal => exact (p.emit_does _).walks rfl
  | number => exact p.number_does.walks rfl
  | string => exact p.string_does.walks rfl
  | «variable» => exact variableUse_walks hmay h canAssign p

theorem operators_walks (min : Precedence) (fuel : Nat) (p : Parser) :
    Walks may p (operators operand min fuel p) := by
  induction fuel generalizing p with
  | zero => exact .refl
  | succ fuel ih =>
    unfold operators
    split
    · exact .refl
    rename_i o hop
    split
    · exact .refl
    · have hother : p.current.kind ≠ .semicolon := by
        intro hkind
        rw [hkind] at hop
        cases hop
      have htake : Walks may p p.advance :=
        .single (.take p (hmay.goesOn (goesOn_of_binary hop)) hother)
      have hasks : p.advance.previous.kind.asksOperand = true := by
        rw [advance_previous]
        exact asksOperand_of_binary hop
      have hright := h o.precedence.next p.advance fun _ => hmay.operand hasks
      exact htake.trans (hright.trans (((emitAll_does _ _).walks rfl).trans (ih _)))

/-- Behind its first token an expression is a walk, if the token is one that starts one. -/
theorem climb_walks_behind (min : Precedence) (p : Parser) :
    climb operand min p = p.advance.error .expressionMissing
      ∨ p.current.kind ≠ .semicolon ∧ Walks may p.advance (climb operand min p) := by
  unfold climb
  dsimp only
  split
  · exact .inl rfl
  · rename_i first hfirst
    refine .inr ⟨fun hkind => ?_, ?_⟩
    · rw [advance_previous, hkind] at hfirst
      cases hfirst
    · exact (opening_walks hmay h _ hfirst).trans
        ((operators_walks hmay h min _ _).trans (rejectTarget_walks hmay _ _))

theorem climb_walks (min : Precedence) {p : Parser} (hdue : ∀ next, may p.previous.kind next) :
    Walks may p (climb operand min p) := by
  rcases climb_walks_behind hmay h min p with heq | ⟨hother, hwalks⟩
  · rw [heq]
    exact .single (.misplaced p (hdue _) _)
  · exact .head (.take p (hdue _) hother) hwalks

end Operand

theorem parseLevel_walks {may : TokenKind → TokenKind → Prop} (hmay : Admits may) (more : Nat) :
    OperandWalks may (parseLevel more) := by
  induction more with
  | zero => exact fun min p _ => (p.error_does _).walks rfl
  | succ more ih =>
    intro min p hdue
    unfold parseLevel
    split
    · exact (p.error_does _).walks rfl
    · have hopen : Walks may p { p with nesting := p.nesting + 1 } :=
        (Action.nest p _).does.walks rfl
      have hclimb : Walks may { p with nesting := p.nesting + 1 }
          (climb (parseLevel more) min { p with nesting := p.nesting + 1 }) :=
        climb_walks hmay ih min hdue
      exact hopen.trans (hclimb.trans ((Action.nest _ _).does.walks rfl))

/-- Where an operand is due, an expression takes tokens that follow. -/
theorem expression_walks {p : Parser} (hasks : p.previous.kind.asksOperand = true) :
    Walks Follows p p.expression :=
  parseLevel_walks follows_admits maxNesting _ p fun _ => follows_admits.operand hasks

/-! ### Footprints of expressions -/

/-- Every way to compile an operand is a walk, whatever tokens it takes. -/
abbrev OperandWorks : (Precedence → Parser → Parser) → Prop := OperandWalks Anything

theorem OperandWorks.does {operand : Precedence → Parser → Parser} (h : OperandWorks operand)
    (min : Precedence) (p : Parser) : Does Deed.inExpr p (operand min p) :=
  (h min p fun _ => trivial).does

theorem operators_does {operand : Precedence → Parser → Parser} (h : OperandWorks operand)
    (min : Precedence) (fuel : Nat) (p : Parser) :
    Does Deed.inExpr p (operators operand min fuel p) :=
  (operators_walks anything_admits h min fuel p).does

/-- Whatever an expression comes to, it has taken a token before. -/
theorem climb_does_behind {operand : Precedence → Parser → Parser} (h : OperandWorks operand)
    (min : Precedence) (p : Parser) : Does Deed.inExpr p.advance (climb operand min p) := by
  rcases climb_walks_behind anything_admits h min p with heq | ⟨-, hwalks⟩
  · rw [heq]
    exact (error_does _ _).mono rfl
  · exact hwalks.does

theorem parseLevel_works (more : Nat) : OperandWorks (parseLevel more) :=
  parseLevel_walks anything_admits more

theorem parsePrecedence_does (min : Precedence) (p : Parser) :
    Does Deed.inExpr p (p.parsePrecedence min) :=
  (parseLevel_works maxNesting).does min p

theorem expression_does (p : Parser) : Does Deed.inExpr p p.expression :=
  p.parsePrecedence_does .assignment

/-- Where no operator follows there is nothing to do, however much fuel there is. -/
theorem operators_of_not_binary {operand : Precedence → Parser → Parser} {min : Precedence}
    {fuel : Nat} {p : Parser} (h : p.current.kind.binary? = none) :
    operators operand min fuel p = p := by
  cases fuel with
  | zero => rfl
  | succ fuel => rw [operators, h]

/-- Unless too many expressions are open, an expression is one more. -/
theorem parsePrecedence_eq {p : Parser} (min : Precedence) (h : p.nesting < maxNesting) :
    p.parsePrecedence min
      = { climb (parseLevel 255) min { p with nesting := p.nesting + 1 } with
          nesting := (climb (parseLevel 255) min
            { p with nesting := p.nesting + 1 }).nesting - 1 } := by
  unfold parsePrecedence
  rw [show maxNesting = 255 + 1 from rfl, parseLevel, if_neg (Nat.not_le_of_lt h)]

/-- Beyond that it is refused. -/
theorem parsePrecedence_of_le {p : Parser} (min : Precedence) (h : maxNesting ≤ p.nesting) :
    p.parsePrecedence min = p.error .nestingTooDeep := by
  unfold parsePrecedence
  rw [show maxNesting = 255 + 1 from rfl, parseLevel, if_pos h]

theorem expression_eq {p : Parser} (h : p.nesting < maxNesting) :
    p.expression
      = { climb (parseLevel 255) .assignment { p with nesting := p.nesting + 1 } with
          nesting := (climb (parseLevel 255) .assignment
            { p with nesting := p.nesting + 1 }).nesting - 1 } :=
  parsePrecedence_eq .assignment h

end Parser

end OnePass
