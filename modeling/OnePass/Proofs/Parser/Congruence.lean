import OnePass.Proofs.Parser.Progress

/-!
# OnePass.Proofs.Parser.Congruence

Two runs of the parser side by side. What it does next depends on little: on the kinds of
the two tokens in its window, on how many expressions are open, on how many tokens are
left, and on whether it is panicking. A relation between states under which all that is the
same, and which the single operations keep, is kept by whole expressions
(`ExprCongruence.expression`), and by whole units if it is also kept by what statements do
(`Congruence.run`).

The relations that it is used for are twins, which differ in lines and handles, and runs on
screened tokens, which differ in reports. Runs whose tokens differ have no such relation and are
compared by a proof of their own.
-/

namespace OnePass.Parser

/-- A relation between states that is kept by the operations that expressions are made
of. -/
structure ExprCongruence (R : Parser → Parser → Prop) : Prop where
  current_kind {p q} (h : R p q) : p.current.kind = q.current.kind
  previous_kind {p q} (h : R p q) : p.previous.kind = q.previous.kind
  nesting {p q} (h : R p q) : p.nesting = q.nesting
  advance {p q} (h : R p q) : R p.advance q.advance
  error {p q} (problem) (h : R p q) : R (p.error problem) (q.error problem)
  errorAtCurrent {p q} (problem) (h : R p q) :
    R (p.errorAtCurrent problem) (q.errorAtCurrent problem)
  emit {p q} (op) (h : R p q) : R (p.emit op) (q.emit op)
  emitWith {p q} (op operand) (h : R p q) : R (p.emitWith op operand) (q.emitWith op operand)
  nest {p q : Parser} (nesting) (h : R p q) : R { p with nesting } { q with nesting }
  number {p q} (h : R p q) : R p.number q.number
  string {p q} (h : R p q) : R p.string q.string
  place {p q} (h : R p q) : (p.place p.previous).1 = (q.place q.previous).1
    ∧ R (p.place p.previous).2 (q.place q.previous).2

/-- A relation between states that is kept by the operations that units are made of. Names
of variables, which are taken long before they are declared, are related by `T`. -/
structure Congruence (T : Token → Token → Prop) (R : Parser → Parser → Prop) : Prop
    extends ExprCongruence R where
  tokensLeft {p q} (h : R p q) : p.tokensLeft = q.tokensLeft
  mode {p q} (h : R p q) : p.mode = q.mode
  previous {p q} (h : R p q) : T p.previous q.previous
  recover {p q} (h : R p q) : R p.recover.2 q.recover.2
  beginScope {p q} (h : R p q) : R p.beginScope q.beginScope
  endScope {p q} (h : R p q) : R p.endScope.2 q.endScope.2
  define {p q t u} (h : R p q) (hname : T t u) : R (p.define t) (q.define u)

variable {R : Parser → Parser → Prop} {T : Token → Token → Prop} {p q : Parser}

/-! ### Expressions -/

/-- Whether a relation is kept by a way to compile an operand. -/
def OperandKeeps (R : Parser → Parser → Prop) (operand : Precedence → Parser → Parser) : Prop :=
  ∀ min ⦃p q⦄, R p q → R (operand min p) (operand min q)

namespace ExprCongruence

variable (c : ExprCongruence R)

include c

/-- Every decision of an expression is one about a kind, so both runs take it alike. -/
theorem check_eq (h : R p q) (kind : TokenKind) : p.check kind = q.check kind := by
  rw [check, check, c.current_kind h]

/-- Both runs take the token, or both report the one that stands there instead. -/
theorem consume (kind : TokenKind) (problem : Problem) (h : R p q) :
    R (p.consume kind problem) (q.consume kind problem) := by
  unfold Parser.consume
  rw [c.check_eq h]
  split
  · exact c.advance h
  · exact c.errorAtCurrent problem h

theorem emitAll (ops : List OpCode) (h : R p q) : R (p.emitAll ops) (q.emitAll ops) := by
  induction ops generalizing p q with
  | nil => exact h
  | cons op rest ih => exact ih (c.emit op h)

theorem emitGet (place : Place) (h : R p q) : R (place.emitGet p) (place.emitGet q) := by
  cases place <;> exact c.emitWith _ _ h

theorem emitSet (place : Place) (h : R p q) : R (place.emitSet p) (place.emitSet q) := by
  cases place <;> exact c.emitWith _ _ h

section Operand

variable {operand : Precedence → Parser → Parser} (hoperand : OperandKeeps R operand)

include hoperand

/-- A name is read or assigned to. Whether a `=` follows is looked up after the name has been
found, which is why `place` has to keep the relation first. -/
theorem variableUse (canAssign : Bool) (h : R p q) :
    R (variableUse operand canAssign p) (variableUse operand canAssign q) := by
  obtain ⟨hplace, hfound⟩ := c.place h
  unfold Parser.variableUse
  dsimp only
  rw [hplace, c.check_eq hfound]
  split
  · exact c.emitSet _ (hoperand _ (c.advance hfound))
  · exact c.emitGet _ hfound

theorem opening (canAssign : Bool) (first : Opening) (h : R p q) :
    R (opening operand canAssign p first) (opening operand canAssign q first) := by
  cases first with
  | group => exact c.consume _ _ (hoperand _ h)
  | unary op => exact c.emit _ (hoperand _ h)
  | word literal => exact c.emit _ h
  | number => exact c.number h
  | string => exact c.string h
  | «variable» => exact c.variableUse hoperand canAssign h

/-- The operators are the same however much fuel each run has, if it is enough for its
tokens. -/
theorem operators (hworks : OperandWorks operand) (min : Precedence) (fuel : Nat) :
    ∀ {fuel' : Nat} {p q : Parser}, p.tokensLeft ≤ fuel → q.tokensLeft ≤ fuel' → R p q →
      R (operators operand min fuel p) (operators operand min fuel' q) := by
  -- An operator is a token, and behind its right operand fewer tokens are left.
  have hless : ∀ {s : Parser} {op : BinaryOp}, s.current.kind.binary? = some op →
      ((operand op.precedence.next s.advance).emitAll op.code).tokensLeft < s.tokensLeft := by
    intro s op hop
    have hkind : s.current.kind ≠ .eof := by
      intro hkind
      rw [hkind] at hop
      cases hop
    have hrest := (hworks.does op.precedence.next s.advance).append (emitAll_does _ op.code)
    exact Nat.lt_of_le_of_lt hrest.tokensLeft_le (s.tokensLeft_advance_lt hkind)
  -- The fuels differ, so the induction is on one of them and the other is taken apart when it is
  -- needed.
  induction fuel with
  | zero =>
    intro fuel' p q hfuel hfuel' h
    cases hop : p.current.kind.binary? with
    | none =>
      rw [operators_of_not_binary hop, operators_of_not_binary (c.current_kind h ▸ hop)]
      exact h
    | some op => exact absurd (Nat.lt_of_lt_of_le (hless hop) hfuel) (Nat.not_lt_zero _)
  | succ fuel ih =>
    intro fuel' p q hfuel hfuel' h
    cases hop : p.current.kind.binary? with
    | none =>
      rw [operators_of_not_binary hop, operators_of_not_binary (c.current_kind h ▸ hop)]
      exact h
    | some op =>
      have hop' : q.current.kind.binary? = some op := c.current_kind h ▸ hop
      cases fuel' with
      | zero => exact absurd (Nat.lt_of_lt_of_le (hless hop') hfuel') (Nat.not_lt_zero _)
      | succ fuel' =>
        unfold Parser.operators
        rw [hop, hop']
        dsimp only
        split
        · exact h
        · exact ih (Nat.le_of_lt_succ (Nat.lt_of_lt_of_le (hless hop) hfuel))
            (Nat.le_of_lt_succ (Nat.lt_of_lt_of_le (hless hop') hfuel'))
            (c.emitAll op.code (hoperand _ (c.advance h)))

omit hoperand in
theorem rejectTarget (canAssign : Bool) (h : R p q) :
    R (rejectTarget canAssign p) (rejectTarget canAssign q) := by
  unfold Parser.rejectTarget
  rw [c.check_eq h]
  split
  · exact c.error _ (c.advance h)
  · exact h

/-- One level: the opening, the operators behind it, and the `=` that may not follow. -/
theorem climb (hworks : OperandWorks operand) (min : Precedence) (h : R p q) :
    R (climb operand min p) (climb operand min q) := by
  have hnext := c.advance h
  unfold Parser.climb
  dsimp only
  rw [c.previous_kind hnext]
  split
  · exact c.error _ hnext
  · exact c.rejectTarget _ (c.operators hoperand hworks min _ (Nat.le_refl _) (Nat.le_refl _)
      (c.opening hoperand _ _ hnext))

end Operand

/-- The levels of nesting, by induction on how many there may still be. -/
theorem parseLevel (more : Nat) : OperandKeeps R (parseLevel more) := by
  induction more with
  | zero => exact fun min p q h => c.error _ h
  | succ more ih =>
    intro min p q h
    unfold Parser.parseLevel
    rw [c.nesting h]
    split
    · exact c.error _ h
    · -- What is put back at the end is one less than what the expression has left, not what
      -- was there before.
      have hclimb := c.climb ih (parseLevel_works more) min (c.nest (q.nesting + 1) h)
      dsimp only
      rw [c.nesting hclimb]
      exact c.nest _ hclimb

theorem expression (h : R p q) : R p.expression q.expression := c.parseLevel maxNesting _ h

end ExprCongruence

/-! ### Statements -/

namespace Congruence

variable (c : Congruence T R)

include c

theorem isPanicking_eq (h : R p q) : p.isPanicking = q.isPanicking := by
  rw [isPanicking, isPanicking, c.mode h]

/-- Both runs skip to the same boundary, as a boundary is seen in the kinds of the window. -/
theorem skipToBoundary (h : R p q) : R p.skipToBoundary q.skipToBoundary := by
  have hboundary : ∀ {p q : Parser}, R p q → p.atBoundary = q.atBoundary := by
    intro p q h
    rw [atBoundary, atBoundary, c.check_eq h, c.previous_kind h, c.current_kind h]
  -- Only one of the runs is followed; the other one is unfolded along with it.
  fun_induction Parser.skipToBoundary p generalizing q with
  | case1 p hstop =>
    rw [Parser.skipToBoundary, if_pos (hboundary h ▸ hstop)]
    exact h
  | case2 p hgo ih =>
    rw [Parser.skipToBoundary.eq_def q, if_neg (hboundary h ▸ hgo)]
    exact ih (c.advance h)

theorem initializer (h : R p q) : R p.initializer q.initializer := by
  unfold Parser.initializer
  rw [c.check_eq h]
  split
  · exact c.expression (c.advance h)
  · exact c.emit _ h

theorem varDeclaration (h : R p q) : R p.varDeclaration q.varDeclaration := by
  have hname := c.consume .identifier .variableNameMissing h
  rw [varDeclaration_eq, varDeclaration_eq]
  exact c.define (c.consume _ _ (c.initializer hname)) (c.previous hname)

theorem printStatement (h : R p q) : R p.printStatement q.printStatement :=
  c.emit _ (c.consume _ _ (c.expression h))

theorem expressionStatement (h : R p q) : R p.expressionStatement q.expressionStatement :=
  c.emit _ (c.consume _ _ (c.expression h))

section Body

variable {body : TokenKind → Parser → Parser}
  (hbody : ∀ closing {p q}, R p q → R (body closing p) (body closing q))

include hbody

theorem declarationBody (h : R p q) : R (declarationBody body p) (declarationBody body q) := by
  have hnext := c.advance h
  unfold Parser.declarationBody statement
  rw [c.check_eq h, c.check_eq h, c.check_eq h]
  split
  · exact c.varDeclaration hnext
  split
  · exact c.printStatement hnext
  split
  · exact c.endScope (c.consume _ _ (hbody _ (c.beginScope hnext)))
  · exact c.expressionStatement h

/-- What is related behind the body is in the same mode, so both runs recover or none does. -/
theorem declaration (h : R p q) : R (declaration body p) (declaration body q) := by
  have hdone := c.declarationBody hbody h
  unfold Parser.declaration
  dsimp only
  rw [c.isPanicking_eq hdone]
  split
  · exact c.recover (c.skipToBoundary hdone)
  · exact hdone

end Body

/-- The fuel need not be compared here, as it is the same in both: it is the number of tokens that
are left at the start of the unit. -/
theorem declarations (fuel : Nat) (closing : TokenKind) (h : R p q) :
    R (declarations fuel closing p) (declarations fuel closing q) := by
  induction fuel generalizing closing p q with
  | zero => exact h
  | succ fuel ih =>
    unfold Parser.declarations
    rw [c.check_eq h, c.check_eq h]
    split
    · exact h
    · exact ih closing (c.declaration (fun closing _ _ => ih closing) h)

/-- What the operations keep is kept from the start of a unit to its end. -/
theorem run (unit : UnitKind) (h : R p q) : R (run unit p) (run unit q) := by
  cases unit with
  | program =>
    unfold Parser.run program
    dsimp only
    rw [c.tokensLeft h]
    exact c.emit _ (c.advance (c.declarations _ _ h))
  | expression => exact c.emit _ (c.consume _ _ (c.expression h))

end Congruence

end OnePass.Parser
