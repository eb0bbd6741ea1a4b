import OnePass.Proofs.Code.Output
import OnePass.Proofs.Parser.Progress

/-!
# OnePass.Proofs.Course.Expression

The course that the compilation of an expression takes, told by rules. No rule bounds how
often a loop turns or how deep expressions are nested, so that there is a course exactly if
the compilation comes to an end. It notes every instruction with the state in which it is
written. What starts in a state takes at most one course (`ExprCourse.unique`), and an
expression takes one from every state, to where `parseLevel` leads
(`parseLevel_course`).

The program has fuel in its loops and a bound on its recursion, so that what it does could be the
work of either. A course has neither: that there is one from every state says that the fuel never
runs out. It is also the place where anything about the order of emissions is proved, since the
rules name the states in between, and a footprint does not.
-/

namespace OnePass

/-- An instruction, and the state of the parser in which it is written. -/
structure Emission where
  state : Parser
  op : OpCode
  operand : Option UInt8

/-- An emission as it stands in the code. -/
def Emission.written (e : Emission) : Written := ⟨e.op, e.operand, e.state.previous.line⟩

namespace Parser

/-- Instructions without operands that are written one after the other. -/
def emissions (p : Parser) : List OpCode → List Emission
  | [] => []
  | op :: rest => ⟨p, op, none⟩ :: (p.emit op).emissions rest

namespace Place

/-- The instruction that reads a place. -/
def getCode : Place → OpCode
  | slot _ => .getLocal
  | global _ => .getGlobal

/-- The instruction that writes a place. -/
def setCode : Place → OpCode
  | slot _ => .setLocal
  | global _ => .setGlobal

def operand : Place → UInt8
  | slot i => i
  | global i => i

/-- Reading a place is one instruction, so that it can be noted as one emission. -/
theorem emitGet_eq (place : Place) (p : Parser) :
    place.emitGet p = p.emitWith place.getCode place.operand := by
  cases place <;> rfl

theorem emitSet_eq (place : Place) (p : Parser) :
    place.emitSet p = p.emitWith place.setCode place.operand := by
  cases place <;> rfl

end Place

/-! ### The rules -/

/-- What is done in the course of an expression. -/
inductive ExprTask where
  /-- An expression of a level, unless too many are open. -/
  | level (min : Precedence)
  /-- An expression of a level. -/
  | climb (min : Precedence)
  /-- What the token that was taken last starts. -/
  | opening (canAssign : Bool) (first : Opening)
  /-- The operators of a level or tighter that follow, with their right operands. -/
  | operators (min : Precedence)
  deriving DecidableEq, Repr

/-- A task that is begun in one state ends in another, after some emissions. -/
inductive ExprCourse : ExprTask → Parser → List Emission → Parser → Prop where
  | refused {min p} (h : maxNesting ≤ p.nesting) :
      ExprCourse (.level min) p [] (p.error .nestingTooDeep)
  | nested {min p log q} (h : p.nesting < maxNesting)
      (inside : ExprCourse (.climb min) { p with nesting := p.nesting + 1 } log q) :
      ExprCourse (.level min) p log { q with nesting := q.nesting - 1 }
  | missing {min p} (h : p.current.kind.opening? = none) :
      ExprCourse (.climb min) p [] (p.advance.error .expressionMissing)
  | climb {min p first log q log' r} (h : p.current.kind.opening? = some first)
      (left : ExprCourse (.opening min.allowsAssignment first) p.advance log q)
      (rest : ExprCourse (.operators min) q log' r) :
      ExprCourse (.climb min) p (log ++ log') (rejectTarget min.allowsAssignment r)
  | group {canAssign p log q} (inside : ExprCourse (.level .assignment) p log q) :
      ExprCourse (.opening canAssign .group) p log (q.consume .rightParen .closingParenMissing)
  | unary {canAssign op p log q} (inside : ExprCourse (.level .unary) p log q) :
      ExprCourse (.opening canAssign (.unary op)) p (log ++ [⟨q, op.code, none⟩]) (q.emit op.code)
  | word {canAssign literal p} :
      ExprCourse (.opening canAssign (.word literal)) p [⟨p, literal.code, none⟩]
        (p.emit literal.code)
  | number {canAssign p x} (h : p.previous.number? = some x) :
      ExprCourse (.opening canAssign .number) p
        [⟨(p.makeConstant (.number x)).2, .constant, some (p.makeConstant (.number x)).1⟩]
        (p.emitConstant (.number x))
  | invalid {canAssign p} (h : p.previous.number? = none) :
      ExprCourse (.opening canAssign .number) p [] (p.error .numberInvalid)
  | string {canAssign p} :
      ExprCourse (.opening canAssign .string) p
        [⟨(p.makeText p.previous.contents).2, .constant, some (p.makeText p.previous.contents).1⟩]
        p.string
  | read {canAssign p} (h : (canAssign && (p.place p.previous).2.check .equal) = false) :
      ExprCourse (.opening canAssign .variable) p
        [⟨(p.place p.previous).2, (p.place p.previous).1.getCode,
          some (p.place p.previous).1.operand⟩]
        ((p.place p.previous).1.emitGet (p.place p.previous).2)
  | assign {canAssign p log q} (h : (canAssign && (p.place p.previous).2.check .equal) = true)
      (value : ExprCourse (.level .assignment) (p.place p.previous).2.advance log q) :
      ExprCourse (.opening canAssign .variable) p
        (log ++ [⟨q, (p.place p.previous).1.setCode, some (p.place p.previous).1.operand⟩])
        ((p.place p.previous).1.emitSet q)
  | stop {min p} (h : ∀ op, p.current.kind.binary? = some op → op.precedence < min) :
      ExprCourse (.operators min) p [] p
  | operator {min p op log q log' r} (h : p.current.kind.binary? = some op)
      (hmin : ¬ op.precedence < min)
      (right : ExprCourse (.level op.precedence.next) p.advance log q)
      (rest : ExprCourse (.operators min) (q.emitAll op.code) log' r) :
      ExprCourse (.operators min) p (log ++ q.emissions op.code ++ log') r

/-- A task takes at most one course. -/
theorem ExprCourse.unique {task : ExprTask} {p q q' : Parser} {log log' : List Emission}
    (h : ExprCourse task p log q) (h' : ExprCourse task p log' q') : log' = log ∧ q' = q := by
  -- The conditions of the rules exclude each other, so the second course begins with the same
  -- rule.
  induction h generalizing log' q' with
  | refused h =>
    cases h' with
    | refused => exact ⟨rfl, rfl⟩
    | nested h' => exact absurd h (Nat.not_le_of_lt h')
  | nested h inside ih =>
    cases h' with
    | refused h' => exact absurd h' (Nat.not_le_of_lt h)
    | nested _ inside' =>
      obtain ⟨rfl, rfl⟩ := ih inside'
      exact ⟨rfl, rfl⟩
  | missing h =>
    cases h' with
    | missing => exact ⟨rfl, rfl⟩
    | climb h' => cases h.symm.trans h'
  | climb h left rest ihleft ihrest =>
    cases h' with
    | missing h' => cases h.symm.trans h'
    | climb h' left' rest' =>
      obtain rfl := Option.some.inj (h.symm.trans h')
      obtain ⟨rfl, rfl⟩ := ihleft left'
      obtain ⟨rfl, rfl⟩ := ihrest rest'
      exact ⟨rfl, rfl⟩
  | group inside ih =>
    cases h' with
    | group inside' =>
      obtain ⟨rfl, rfl⟩ := ih inside'
      exact ⟨rfl, rfl⟩
  | unary inside ih =>
    cases h' with
    | unary inside' =>
      obtain ⟨rfl, rfl⟩ := ih inside'
      exact ⟨rfl, rfl⟩
  | word | string => cases h'; exact ⟨rfl, rfl⟩
  | number h =>
    cases h' with
    | number h' =>
      obtain rfl := Option.some.inj (h.symm.trans h')
      exact ⟨rfl, rfl⟩
    | invalid h' => cases h.symm.trans h'
  | invalid h =>
    cases h' with
    | number h' => cases h.symm.trans h'
    | invalid => exact ⟨rfl, rfl⟩
  | read h =>
    cases h' with
    | read => exact ⟨rfl, rfl⟩
    | assign h' => cases h.symm.trans h'
  | assign h value ih =>
    cases h' with
    | read h' => cases h.symm.trans h'
    | assign _ value' =>
      obtain ⟨rfl, rfl⟩ := ih value'
      exact ⟨rfl, rfl⟩
  | stop h =>
    cases h' with
    | stop => exact ⟨rfl, rfl⟩
    | operator h' hmin' => exact absurd (h _ h') hmin'
  | operator h hmin right rest ihright ihrest =>
    cases h' with
    | stop h' => exact absurd (h' _ h) hmin
    | operator h' _ right' rest' =>
      obtain rfl := Option.some.inj (h.symm.trans h')
      obtain ⟨rfl, rfl⟩ := ihright right'
      obtain ⟨rfl, rfl⟩ := ihrest rest'
      exact ⟨rfl, rfl⟩

/-! ### What expressions leave as it is -/

/-- As many expressions are open as before, and the same names are in scope. -/
structure Kept (p q : Parser) : Prop where
  nesting : q.nesting = p.nesting
  scope : q.scope = p.scope

section Kept

variable {p q r : Parser}

theorem Kept.refl (p : Parser) : Kept p p := ⟨rfl, rfl⟩

theorem Kept.trans (h : Kept p q) (h' : Kept q r) : Kept p r :=
  ⟨h'.nesting.trans h.nesting, h'.scope.trans h.scope⟩

/-- What neither opens an expression nor changes the scope. -/
theorem Does.kept {deeds : Footprint} (h : Does deeds p q)
    (hdeeds : deeds.lacks .nest && deeds.lacks .rescope) : Kept p q := by
  obtain ⟨hnest, hrescope⟩ := (Bool.and_eq_true _ _).mp hdeeds
  exact ⟨h.nesting_eq hnest, h.scope_eq hrescope⟩

/-- An expression is closed whatever becomes of it. All else that is done in it is done by
operations that keep both. -/
theorem ExprCourse.kept {task : ExprTask} {log : List Emission} (h : ExprCourse task p log q) :
    Kept p q := by
  induction h with
  | refused | invalid => exact (error_does _ _).kept rfl
  | nested h inside ih => exact ⟨by simp [ih.nesting], ih.scope⟩
  | missing => exact ((advance_does _).append (error_does _ _)).kept rfl
  | climb h left rest ihleft ihrest =>
    have hfirst := ((advance_does _).kept rfl).trans ihleft
    exact hfirst.trans (ihrest.trans ((rejectTarget_does _ _).kept rfl))
  | group inside ih => exact ih.trans ((consume_does _ _ _).kept rfl)
  | unary inside ih => exact ih.trans ((emit_does _ _).kept rfl)
  | word => exact (emit_does _ _).kept rfl
  | number => exact (emitConstant_does _ _).kept rfl
  | string => exact (string_does _).kept rfl
  | read => exact ((place_does _ _).append (emitGet_does _ _)).kept rfl
  | @assign _ p _ _ h value ih =>
    have hequal := ((p.place_does p.previous).append (advance_does _)).kept rfl
    exact (hequal.trans ih).trans ((emitSet_does _ _).kept rfl)
  | stop => exact .refl _
  | @operator _ p op _ q _ _ h hmin right rest ihright ihrest =>
    have htaken := (p.advance_does.kept rfl).trans ihright
    have hcode := (q.emitAll_does op.code).kept rfl
    exact htaken.trans (hcode.trans ihrest)

end Kept

/-! ### Every expression takes its course -/

/-- With a number of expressions open, every way to compile an operand follows the rules. -/
def OperandCourse (operand : Precedence → Parser → Parser) (nesting : Nat) : Prop :=
  ∀ min p, p.nesting = nesting → ∃ log, ExprCourse (.level min) p log (operand min p)

section Operand

variable {operand : Precedence → Parser → Parser} {nesting : Nat}

/-- The six openings follow the rules, if their operands do. Of an assignment it has to be known
that looking the name up opens no expression. -/
theorem opening_course (h : OperandCourse operand nesting) (canAssign : Bool) {p : Parser}
    (hp : p.nesting = nesting) (first : Opening) :
    ∃ log, ExprCourse (.opening canAssign first) p log (opening operand canAssign p first) := by
  cases first with
  | group =>
    obtain ⟨log, hinside⟩ := h .assignment p hp
    exact ⟨_, .group hinside⟩
  | unary op =>
    obtain ⟨log, hinside⟩ := h .unary p hp
    exact ⟨_, .unary hinside⟩
  | word literal => exact ⟨_, .word⟩
  | number =>
    show ∃ log, ExprCourse _ p log p.number
    unfold Parser.number
    cases hnumber : p.previous.number? with
    | none => exact ⟨_, .invalid hnumber⟩
    | some x => exact ⟨_, .number hnumber⟩
  | string => exact ⟨_, .string⟩
  | «variable» =>
    show ∃ log, ExprCourse _ p log (variableUse operand canAssign p)
    unfold variableUse
    cases hassign : canAssign && (p.place p.previous).2.check .equal with
    | false =>
      dsimp only
      rw [hassign]
      exact ⟨_, .read hassign⟩
    | true =>
      dsimp only
      rw [hassign]
      have hfound := ((p.place_does p.previous).append (advance_does _)).kept rfl
      obtain ⟨log, hvalue⟩ := h .assignment _ (hfound.nesting.trans hp)
      exact ⟨_, .assign hassign hvalue⟩

/-- The loop follows the rules although it has fuel and they have none, because the fuel is enough
for the tokens that are left. -/
theorem operators_course (h : OperandCourse operand nesting) (hworks : OperandWorks operand)
    (min : Precedence) {fuel : Nat} {p : Parser} (hp : p.nesting = nesting)
    (hfuel : p.tokensLeft ≤ fuel) :
    ∃ log, ExprCourse (.operators min) p log (operators operand min fuel p) := by
  induction fuel generalizing p with
  | zero =>
    have hend := current_kind_of_tokensLeft (Nat.le_zero.1 hfuel)
    exact ⟨_, .stop fun op hop => by rw [hend] at hop; cases hop⟩
  | succ fuel ih =>
    unfold operators
    split
    · rename_i hnone
      exact ⟨_, .stop fun op hop => by cases hnone.symm.trans hop⟩
    · rename_i o hop
      split
      · rename_i hloose
        refine ⟨_, .stop fun op hop' => ?_⟩
        rwa [← Option.some.inj (hop.symm.trans hop')]
      · rename_i htight
        obtain ⟨log, hright⟩ := h o.precedence.next p.advance (p.advance_nesting.trans hp)
        have hbehind := hright.kept.trans ((emitAll_does _ o.code).kept rfl)
        -- The operator is a token, and what follows it takes no token back.
        have hfewer : ((operand o.precedence.next p.advance).emitAll o.code).tokensLeft ≤ fuel := by
          have hright : Does _ p.advance ((operand o.precedence.next p.advance).emitAll o.code) :=
            (hworks.does _ _).append (emitAll_does _ _)
          have hle := hright.tokensLeft_le
          have hlt := p.tokensLeft_advance_lt fun hend => by rw [hend] at hop; cases hop
          omega
        obtain ⟨log', hrest⟩ := ih (hbehind.nesting.trans (p.advance_nesting.trans hp)) hfewer
        exact ⟨_, .operator hop htight hright hrest⟩

/-- The token that is taken first decides which rule applies. -/
theorem climb_course (h : OperandCourse operand nesting) (hworks : OperandWorks operand)
    (min : Precedence) {p : Parser} (hp : p.nesting = nesting) :
    ∃ log, ExprCourse (.climb min) p log (climb operand min p) := by
  unfold climb
  dsimp only
  rw [advance_previous]
  cases hfirst : p.current.kind.opening? with
  | none => exact ⟨_, .missing hfirst⟩
  | some first =>
    have hadvance := p.advance_nesting.trans hp
    obtain ⟨log, hleft⟩ := opening_course h min.allowsAssignment hadvance first
    obtain ⟨log', hrest⟩ := operators_course h hworks min (hleft.kept.nesting.trans hadvance)
      (Nat.le_refl _)
    exact ⟨_, .climb hfirst hleft hrest⟩

end Operand

/-- Where `parseLevel` has no levels left, no more expressions may be open either. -/
theorem parseLevel_course (more : Nat) (min : Precedence) {p : Parser}
    (hp : maxNesting ≤ p.nesting + more) :
    ∃ log, ExprCourse (.level min) p log (parseLevel more min p) := by
  induction more generalizing min p with
  | zero => exact ⟨_, .refused hp⟩
  | succ more ih =>
    unfold parseLevel
    split
    · rename_i hdeep
      exact ⟨_, .refused hdeep⟩
    · rename_i hshallow
      -- Inside one more expression is open and one level less is left, so the sum stays.
      have hoperand : OperandCourse (parseLevel more) (p.nesting + 1) := by
        intro min q hq
        exact ih min (by omega)
      obtain ⟨log, hinside⟩ := climb_course hoperand (parseLevel_works more) min
        (p := { p with nesting := p.nesting + 1 }) rfl
      exact ⟨log, .nested (Nat.lt_of_not_le hshallow) hinside⟩

theorem parsePrecedence_course (min : Precedence) (p : Parser) :
    ∃ log, ExprCourse (.level min) p log (p.parsePrecedence min) :=
  parseLevel_course maxNesting min (Nat.le_add_left ..)

/-- An expression takes a course from every state, even one in which no more can be opened. -/
theorem expression_course (p : Parser) :
    ∃ log, ExprCourse (.level .assignment) p log p.expression :=
  p.parsePrecedence_course .assignment

/-- The course does not appear in what it shows: an expression leaves nesting and scope as they
were. -/
theorem parsePrecedence_kept (min : Precedence) (p : Parser) :
    Kept p (p.parsePrecedence min) := by
  obtain ⟨log, h⟩ := p.parsePrecedence_course min
  exact h.kept

end Parser

end OnePass
