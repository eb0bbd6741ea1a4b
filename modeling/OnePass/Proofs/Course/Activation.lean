import OnePass.Parser.Call
import OnePass.Proofs.Course.Statement

/-!
# OnePass.Proofs.Course.Activation

The rules of a course as a machine that shows what is active at any time. It has a stack of
return points, one for each activity that waits for another one to come to its end, and goes on
by one turn at a time (`Config.turn?`), for which it tells how many tokens are taken. What it
does is determined (`Runs.rest`), and begun with a course of the rules it comes to where the
course ends, with the stack as it was (`ExprCourse.completes`, `Course.completes`). Operations
of the parser are activities too, and so are sequences of them (`session_completes`).

The rules themselves relate the beginning of an activity to its end and are silent about the
states in between, among which are the ones that a bound on the depth of calls is about. A machine
with a stack of its own makes each of them a state that is reached. It is not another parser:
every turn carries out operations of the parser, and that it follows the rules is proved along a
course.
-/

namespace OnePass.Parser

/-! ### The machine -/

/-- What can be active. -/
inductive Activity where
  | expr (task : ExprTask)
  | unit (task : UnitTask)
  | operation (call : Call)
  /-- Operations one after the other. -/
  | session (calls : List Call)

/-- Where an activity goes on when the one that it has begun has come to its end. -/
inductive Return where
  /-- An expression is closed: the climb that it stands for is over. -/
  | level
  /-- A climb goes on behind what starts its expression. -/
  | opening (min : Precedence)
  /-- A climb goes on behind its operators. -/
  | operators (min : Precedence)
  | group
  | unary (op : UnaryOp)
  | assign (place : Place)
  /-- The operators of a level go on behind a right operand. -/
  | operand (min : Precedence) (op : BinaryOp)
  /-- A variable comes into being behind its value. -/
  | define (name : Token)
  | print
  | pop
  | block
  /-- A declaration is over, unless the parser is panicking. -/
  | declaration
  | boundary
  | declarations (closing : TokenKind)
  | unit (unit : UnitKind)
  | session (calls : List Call)

/-- A state of the machine: the activity that is to begin, if none has just come to its end, and
what is to be done afterwards, the next first. -/
structure Config where
  next : Option Activity
  state : Parser
  stack : List Return

namespace Config

/-- An activity is about to begin. -/
def begins (activity : Activity) (p : Parser) (stack : List Return) : Config :=
  ⟨some activity, p, stack⟩

/-- An activity has come to its end. -/
def ended (p : Parser) (stack : List Return) : Config := ⟨none, p, stack⟩

end Config

open Config

/-- How many tokens are taken if there is one of a kind. -/
def takes (p : Parser) (kind : TokenKind) : Nat := if p.check kind then 1 else 0

/-- How an activity of an expression begins, and how many tokens it takes at once. -/
def beginExpr (p : Parser) (stack : List Return) : ExprTask → Nat × Config
  | .level min =>
    if maxNesting ≤ p.nesting then (0, ended (p.error .nestingTooDeep) stack)
    else (0, begins (.expr (.climb min)) { p with nesting := p.nesting + 1 } (.level :: stack))
  | .climb min =>
    match p.current.kind.opening? with
    | none => (1, ended (p.advance.error .expressionMissing) stack)
    | some first =>
      (1, begins (.expr (.opening min.allowsAssignment first)) p.advance (.opening min :: stack))
  | .opening _ .group => (0, begins (.expr (.level .assignment)) p (.group :: stack))
  | .opening _ (.unary op) => (0, begins (.expr (.level .unary)) p (.unary op :: stack))
  | .opening _ (.word literal) => (0, ended (p.emit literal.code) stack)
  | .opening _ .number => (0, ended p.number stack)
  | .opening _ .string => (0, ended p.string stack)
  | .opening canAssign .variable =>
    let found := p.place p.previous
    if canAssign && found.2.check .equal then
      (1, begins (.expr (.level .assignment)) found.2.advance (.assign found.1 :: stack))
    else (0, ended (found.1.emitGet found.2) stack)
  | .operators min =>
    match p.current.kind.binary? with
    | none => (0, ended p stack)
    | some op =>
      if op.precedence < min then (0, ended p stack)
      else (1, begins (.expr (.level op.precedence.next)) p.advance (.operand min op :: stack))

/-- How an activity of a unit begins. -/
def beginUnit (p : Parser) (stack : List Return) : UnitTask → Nat × Config
  | .boundary =>
    if p.atBoundary then (0, ended p stack) else (1, begins (.unit .boundary) p.advance stack)
  | .initializer =>
    if p.check .equal then (1, begins (.expr (.level .assignment)) p.advance stack)
    else (0, ended (p.emit .pushNil) stack)
  | .body =>
    if p.check .kwVar then
      let named := p.advance.consume .identifier .variableNameMissing
      (1 + p.advance.takes .identifier,
        begins (.unit .initializer) named (.define named.previous :: stack))
    else if p.check .kwPrint then
      (1, begins (.expr (.level .assignment)) p.advance (.print :: stack))
    else if p.check .leftBrace then
      (1, begins (.unit (.declarations .rightBrace)) p.advance.beginScope (.block :: stack))
    else (0, begins (.expr (.level .assignment)) p (.pop :: stack))
  | .declaration => (0, begins (.unit .body) p (.declaration :: stack))
  | .declarations closing =>
    if p.check closing || p.check .eof then (0, ended p stack)
    else (0, begins (.unit .declaration) p (.declarations closing :: stack))
  | .unit .program => (0, begins (.unit (.declarations .eof)) p (.unit .program :: stack))
  | .unit .expression => (0, begins (.expr (.level .assignment)) p (.unit .expression :: stack))

/-- How an operation begins. All but those for expressions are over at once. -/
def beginOperation (p : Parser) (stack : List Return) : Call → Nat × Config
  | .expression => (0, begins (.expr (.level .assignment)) p stack)
  | .parsePrecedence min => (0, begins (.expr (.level min)) p stack)
  | .advance => (1, ended p.advance stack)
  | .consume kind message => (p.takes kind, ended (p.perform (.consume kind message)).2 stack)
  | .accept kind => (p.takes kind, ended (p.perform (.accept kind)).2 stack)
  | call => (0, ended (p.perform call).2 stack)

/-- How an activity begins. -/
def Activity.start (p : Parser) (stack : List Return) : Activity → Nat × Config
  | .expr task => beginExpr p stack task
  | .unit task => beginUnit p stack task
  | .operation call => beginOperation p stack call
  | .session [] => (0, ended p stack)
  | .session (call :: rest) => (0, begins (.operation call) p (.session rest :: stack))

/-- How an activity goes on. -/
def Return.resume (p : Parser) (stack : List Return) : Return → Nat × Config
  | .level => (0, ended { p with nesting := p.nesting - 1 } stack)
  | .opening min => (0, begins (.expr (.operators min)) p (.operators min :: stack))
  | .operators min =>
    (if min.allowsAssignment then p.takes .equal else 0,
      ended (rejectTarget min.allowsAssignment p) stack)
  | .group => (p.takes .rightParen, ended (p.consume .rightParen .closingParenMissing) stack)
  | .unary op => (0, ended (p.emit op.code) stack)
  | .assign place => (0, ended (place.emitSet p) stack)
  | .operand min op => (0, begins (.expr (.operators min)) (p.emitAll op.code) stack)
  | .define name =>
    (p.takes .semicolon, ended ((p.consume .semicolon .declarationEndMissing).define name) stack)
  | .print =>
    (p.takes .semicolon, ended ((p.consume .semicolon .valueEndMissing).emit .print) stack)
  | .pop =>
    (p.takes .semicolon, ended ((p.consume .semicolon .expressionEndMissing).emit .pop) stack)
  | .block =>
    (p.takes .rightBrace, ended (p.consume .rightBrace .blockEndMissing).endScope.2 stack)
  | .declaration =>
    if p.isPanicking then (0, begins (.unit .boundary) p (.boundary :: stack))
    else (0, ended p stack)
  | .boundary => (0, ended p.recover.2 stack)
  | .declarations closing => (0, begins (.unit (.declarations closing)) p stack)
  | .unit .program => (1, ended (p.advance.emit .ret) stack)
  | .unit .expression => (p.takes .eof, ended ((p.consume .eof .inputEndMissing).emit .ret) stack)
  | .session calls => (0, begins (.session calls) p stack)

/-- One turn of the machine, with the number of tokens that it takes. There is none once the
first activity has come to its end. -/
def Config.turn? : Config → Option (Nat × Config)
  | ⟨some activity, p, stack⟩ => some (activity.start p stack)
  | ⟨none, p, point :: stack⟩ => some (point.resume p stack)
  | ⟨none, _, []⟩ => none

/-! ### Runs -/

/-- Some turns of the machine, with the number of tokens that are taken in all. -/
inductive Runs : Nat → Config → Config → Prop where
  | refl (c) : Runs 0 c c
  | head {n k c d e} (h : c.turn? = some (n, d)) (rest : Runs k d e) : Runs (n + k) c e

section Runs

variable {n k : Nat} {c d e : Config}

/-- Runs compose, and the tokens that they take add up. -/
theorem Runs.trans (h : Runs n c d) (h' : Runs k d e) : Runs (n + k) c e := by
  induction h with
  | refl => rwa [Nat.zero_add]
  | head hturn rest ih =>
    rw [Nat.add_assoc]
    exact .head hturn (ih h')

/-- Nothing follows the end of a run. Whatever is reached from its beginning stands on the way
to its end. -/
theorem Runs.rest (h : Runs n c d) (hend : d.turn? = none) (h' : Runs k c e) :
    ∃ m, Runs m e d ∧ n = k + m := by
  induction h' generalizing n with
  | refl => exact ⟨n, h, (Nat.zero_add n).symm⟩
  | head hturn rest ih =>
    cases h with
    | refl => cases hend.symm.trans hturn
    | head hturn' rest' =>
      -- There is one next turn at most, so both runs begin with the same one.
      obtain ⟨rfl, rfl⟩ := Prod.mk.inj (Option.some.inj (hturn.symm.trans hturn'))
      obtain ⟨m, hm, rfl⟩ := ih rest'
      exact ⟨m, hm, (Nat.add_assoc ..).symm⟩

end Runs

/-- Whether the machine gets from one state to another. -/
def Leads (c d : Config) : Prop := ∃ n, Runs n c d

section Leads

variable {c d e : Config}

theorem Leads.refl (c : Config) : Leads c c := ⟨0, .refl c⟩

theorem Leads.trans (h : Leads c d) (h' : Leads d e) : Leads c e := by
  obtain ⟨n, hn⟩ := h
  obtain ⟨k, hk⟩ := h'
  exact ⟨n + k, hn.trans hk⟩

theorem Leads.head {n : Nat} (h : c.turn? = some (n, d)) (rest : Leads d e) : Leads c e := by
  obtain ⟨k, hk⟩ := rest
  exact ⟨n + k, .head h hk⟩

theorem Leads.turn {n : Nat} (h : c.turn? = some (n, d)) : Leads c d := .head h (.refl d)

end Leads

/-- Whether an activity that begins in one state ends in another, whatever waits for it. -/
def Completes (activity : Activity) (p q : Parser) : Prop :=
  ∀ stack, Leads (begins activity p stack) (ended q stack)

/-! ### Courses -/

variable {p q : Parser}

section Turns

variable {stack : List Return} {r : Nat × Config}

/-- A turn is known as soon as it is known how its activity begins. -/
theorem turn?_expr {task : ExprTask} (h : beginExpr p stack task = r) :
    (begins (.expr task) p stack).turn? = some r :=
  congrArg some h

theorem turn?_unit {task : UnitTask} (h : beginUnit p stack task = r) :
    (begins (.unit task) p stack).turn? = some r :=
  congrArg some h

end Turns

/-- The machine keeps to the rules for expressions. -/
theorem ExprCourse.completes {task : ExprTask} {log : List Emission}
    (h : ExprCourse task p log q) : Completes (.expr task) p q := by
  intro stack
  -- What is done inside has return points of its own on top of those that wait.
  induction h generalizing stack with
  | refused h => exact .turn (turn?_expr (by rw [beginExpr, if_pos h]))
  | nested h inside ih =>
    refine .head (turn?_expr (by rw [beginExpr, if_neg (Nat.not_le_of_lt h)])) ?_
    exact (ih _).trans (.turn rfl)
  | missing h => exact .turn (turn?_expr (by rw [beginExpr, h]))
  | climb h left rest ihleft ihrest =>
    refine .head (turn?_expr (by rw [beginExpr, h])) ((ihleft _).trans (.head rfl ?_))
    exact (ihrest _).trans (.turn rfl)
  | group inside ih | unary inside ih => exact .head rfl ((ih _).trans (.turn rfl))
  | word | string => exact .turn rfl
  | number h => exact .turn (turn?_expr (by rw [beginExpr, Parser.number, h]))
  | invalid h => exact .turn (turn?_expr (by rw [beginExpr, Parser.number, h]))
  | read h => exact .turn (turn?_expr (by simp only [beginExpr, h]; rfl))
  | assign h value ih =>
    exact .head (turn?_expr (by simp only [beginExpr, h]; rfl)) ((ih _).trans (.turn rfl))
  | @stop min p h =>
    refine .turn (n := 0) (turn?_expr ?_)
    rw [beginExpr]
    cases hop : p.current.kind.binary? with
    | none => rfl
    | some op => exact if_pos (h op hop)
  | operator h hmin right rest ihright ihrest =>
    refine .head (turn?_expr (by rw [beginExpr, h]; exact if_neg hmin)) ((ihright _).trans ?_)
    exact .head rfl (ihrest _)

/-- There is a course from every state, so the machine comes to an end from every state. -/
theorem parsePrecedence_completes (min : Precedence) (p : Parser) :
    Completes (.expr (.level min)) p (p.parsePrecedence min) := by
  obtain ⟨log, hcourse⟩ := p.parsePrecedence_course min
  exact hcourse.completes

/-- The machine keeps to the rules for units. -/
theorem Course.completes {task : UnitTask} {log : List Mark} (h : Course task p log q) :
    Completes (.unit task) p q := by
  intro stack
  -- Each rule names the states between its parts, and the machine passes through the same ones;
  -- the stack is that of the whole with return points of the part on top.
  induction h generalizing stack with
  | found h => exact .turn (turn?_unit (by rw [beginUnit, if_pos h]))
  | skip h rest ih =>
    exact .head (turn?_unit (by rw [beginUnit, if_neg (Bool.eq_false_iff.1 h)])) (ih _)
  | value h value => exact .head (turn?_unit (by rw [beginUnit, if_pos h])) (value.completes _)
  | noValue h => exact .turn (turn?_unit (by rw [beginUnit, if_neg (Bool.eq_false_iff.1 h)]))
  | var h value ih =>
    exact .head (turn?_unit (by rw [beginUnit, if_pos h])) ((ih _).trans (.turn rfl))
  | @print p _ _ h value =>
    have hvar : p.check .kwVar ≠ true := Bool.eq_false_iff.1 (check_eq_false_of_ne h (by decide))
    refine .head (turn?_unit (by rw [beginUnit, if_neg hvar, if_pos h])) ?_
    exact (value.completes _).trans (.turn rfl)
  | @block p _ _ h inside ih =>
    have hvar : p.check .kwVar ≠ true := Bool.eq_false_iff.1 (check_eq_false_of_ne h (by decide))
    have hprint : p.check .kwPrint ≠ true :=
      Bool.eq_false_iff.1 (check_eq_false_of_ne h (by decide))
    refine .head (turn?_unit (by rw [beginUnit, if_neg hvar, if_neg hprint, if_pos h])) ?_
    exact (ih _).trans (.turn rfl)
  | expression h value =>
    have hvar := Bool.eq_false_iff.1 (h .kwVar (by simp))
    have hprint := Bool.eq_false_iff.1 (h .kwPrint (by simp))
    have hbrace := Bool.eq_false_iff.1 (h .leftBrace (by simp))
    refine .head (turn?_unit (by rw [beginUnit, if_neg hvar, if_neg hprint, if_neg hbrace])) ?_
    exact (value.completes _).trans (.turn rfl)
  | @calm p log q body h ih =>
    have hresume : (ended q (.declaration :: stack)).turn? = some (0, ended q stack) :=
      congrArg some (if_neg (Bool.eq_false_iff.1 h))
    exact .head rfl ((ih _).trans (.turn hresume))
  | @panic p log q log' r body h skip ihbody ihskip =>
    have hresume : (ended q (.declaration :: stack)).turn?
        = some (0, begins (.unit .boundary) q (.boundary :: stack)) := congrArg some (if_pos h)
    exact .head rfl ((ihbody _).trans (.head hresume ((ihskip _).trans (.turn rfl))))
  | done h => exact .turn (turn?_unit (by rw [beginUnit, if_pos h]))
  | more h first rest ihfirst ihrest =>
    refine .head (turn?_unit (by rw [beginUnit, if_neg (Bool.eq_false_iff.1 h)])) ?_
    exact (ihfirst _).trans (.head rfl (ihrest _))
  | program all ih => exact .head rfl ((ih _).trans (.turn rfl))
  | single value => exact .head rfl ((value.completes _).trans (.turn rfl))

theorem run_completes (unit : UnitKind) (hnesting : p.nesting < maxNesting) :
    Completes (.unit (.unit unit)) p (p.run unit) := by
  obtain ⟨log, hcourse⟩ := unit_course unit hnesting
  exact hcourse.completes

/-! ### Operations -/

/-- An operation is over in one turn, or is an expression. -/
theorem operation_completes (call : Call) (p : Parser) :
    Completes (.operation call) p (p.perform call).2 := by
  intro stack
  cases call with
  | expression => exact .head rfl (p.parsePrecedence_completes .assignment stack)
  | parsePrecedence min => exact .head rfl (p.parsePrecedence_completes min stack)
  | _ => exact .turn rfl

/-- And so is a sequence of operations, of which the ones that are still to come wait on the
stack. -/
theorem session_completes (calls : List Call) (p : Parser) :
    Completes (.session calls) p (p.performAll calls) := by
  intro stack
  induction calls generalizing p with
  | nil => exact .turn rfl
  | cons call rest ih =>
    refine .head rfl ((p.operation_completes call _).trans (.head rfl ?_))
    exact ih (p.perform call).2

end OnePass.Parser
