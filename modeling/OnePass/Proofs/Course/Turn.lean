import OnePass.Proofs.Course.Activation

/-!
# OnePass.Proofs.Course.Turn

What one turn of the machine comes to (`Effect`). It opens an expression, which is the only way
to begin a climb, or closes one, or else takes as many tokens as it says, one after the other,
and between them stays in place (`Advances`). That it does is read off the footprints of the
operations that are carried out in a turn. What is kept by all that is done without taking a
token, and by the taking of one, is kept by all that the parser does (`Runs.keeps`).

A property of all states that are reached is thus proved for three kinds of turns, and not for
each of the many ways in which an activity begins or goes on.
-/

namespace OnePass.Parser

variable {p q r : Parser} {n k : Nat} {deeds : Footprint}

/-! ### States behind a number of tokens -/

/-- Between two states a number of tokens are taken, one after the other, and all else is done
in place. -/
inductive Advances : Nat → Parser → Parser → Prop where
  | stays {p q : Parser} (h : Does Deed.inPlace p q) : Advances 0 p q
  | next {n : Nat} {p q r : Parser} (h : Advances n p q) (h' : Does Deed.inPlace q.advance r) :
      Advances (n + 1) p r

/-- What is done in place afterwards belongs to what is done behind the last token. -/
theorem Advances.before (h : Advances n p q) (h' : Does deeds q r)
    (hplace : deeds.within Deed.inPlace) : Advances n p r := by
  cases h with
  | stays h => exact .stays (h.trans (h'.mono hplace))
  | next h hstays => exact .next h (hstays.trans (h'.mono hplace))

theorem Advances.trans (h : Advances n p q) (h' : Advances k q r) : Advances (n + k) p r := by
  induction h' with
  | stays h' => exact h.before h' rfl
  | next _ hstays ih => exact .next (ih h) hstays

theorem Advances.nesting (h : Advances n p q) : q.nesting = p.nesting := by
  induction h with
  | stays h => exact h.nesting_eq rfl
  | next _ hstays ih => rw [hstays.nesting_eq rfl, advance_nesting, ih]

theorem advance_advances (p : Parser) : Advances 1 p p.advance := .next (.stays .refl) .refl

/-- The number of tokens depends on the state, so it is told by `takes` and not by the footprint.
-/
theorem consume_advances (p : Parser) (kind : TokenKind) (problem : Problem) :
    Advances (p.takes kind) p (p.consume kind problem) := by
  unfold takes consume
  split
  · exact p.advance_advances
  · exact .stays ((p.errorAt_does _ _).mono rfl)

theorem accept_advances (p : Parser) (kind : TokenKind) :
    Advances (p.takes kind) p (p.accept kind).2 := by
  unfold takes accept
  split
  · exact p.advance_advances
  · exact .stays .refl

theorem rejectTarget_advances (canAssign : Bool) (p : Parser) :
    Advances (if canAssign then p.takes .equal else 0) p (rejectTarget canAssign p) := by
  unfold takes rejectTarget
  cases canAssign with
  | false => exact .stays .refl
  | true =>
    simp only [if_true, Bool.true_and]
    split
    · exact p.advance_advances.before (error_does _ _) rfl
    · exact .stays .refl

/-! ### Turns -/

/-- How many climbs are active. Each has been begun by an expression that is still open, and
that one waits for it. -/
def openClimbs : List Return → Nat
  | [] => 0
  | .level :: stack => openClimbs stack + 1
  | _ :: stack => openClimbs stack

open Config

/-- What a turn comes to. -/
inductive Effect : Nat → Config → Config → Prop where
  /-- An expression is opened, and its climb begins. -/
  | opens {min : Precedence} {p : Parser} {stack : List Return} (h : p.nesting < maxNesting) :
      Effect 0 (begins (.expr (.level min)) p stack)
        (begins (.expr (.climb min)) { p with nesting := p.nesting + 1 } (.level :: stack))
  /-- A climb has come to its end, and the expression is closed. -/
  | closes {p : Parser} {stack : List Return} :
      Effect 0 (ended p (.level :: stack)) (ended { p with nesting := p.nesting - 1 } stack)
  /-- Some tokens are taken. -/
  | advances {n : Nat} {c d : Config} (hopen : openClimbs d.stack = openClimbs c.stack)
      (h : Advances n c.state d.state) : Effect n c d

theorem Effect.stays {c d : Config} (hopen : openClimbs d.stack = openClimbs c.stack)
    (h : Does deeds c.state d.state) (hplace : deeds.within Deed.inPlace) : Effect 0 c d :=
  .advances hopen (.stays (h.mono hplace))

/-- A turn that only decides what is begun next. -/
theorem Effect.decides {c d : Config} (hopen : openClimbs d.stack = openClimbs c.stack)
    (hstate : d.state = c.state) : Effect 0 c d :=
  .advances hopen (.stays (hstate ▸ .refl))

variable (p : Parser) (stack : List Return)

/-- Only here expressions are opened. The other tasks of an expression begin with one token at
most. -/
theorem beginExpr_effect (task : ExprTask) :
    Effect (beginExpr p stack task).1 (begins (.expr task) p stack)
      (beginExpr p stack task).2 := by
  cases task with
  | level min =>
    rw [beginExpr]
    split
    · exact .stays rfl (p.error_does _) rfl
    · rename_i hdeep
      exact .opens (Nat.lt_of_not_le hdeep)
  | climb min =>
    rw [beginExpr]
    split
    · exact .advances rfl (p.advance_advances.before (error_does _ _) rfl)
    · exact .advances rfl p.advance_advances
  | opening canAssign first =>
    cases first with
    | group | unary => exact .decides rfl rfl
    | word literal => exact .stays rfl (p.emit_does _) rfl
    | number => exact .stays rfl p.number_does rfl
    | string => exact .stays rfl p.string_does rfl
    | «variable» =>
      -- The name is looked up in front of the `=`, so what is done in place comes first here.
      have hplace := p.place_does p.previous
      rw [beginExpr]
      split
      · exact .advances rfl (.next (.stays (hplace.mono rfl)) .refl)
      · exact .stays rfl (hplace.append (emitGet_does _ _)) rfl
  | operators min =>
    rw [beginExpr]
    split
    · exact .decides rfl rfl
    split
    · exact .decides rfl rfl
    · exact .advances rfl p.advance_advances

/-- What a unit begins with. The name of a declaration is taken in the same turn as its `var`, so
that turn takes up to two tokens. -/
theorem beginUnit_effect (task : UnitTask) :
    Effect (beginUnit p stack task).1 (begins (.unit task) p stack)
      (beginUnit p stack task).2 := by
  cases task with
  | boundary =>
    rw [beginUnit]
    split
    · exact .decides rfl rfl
    · exact .advances rfl p.advance_advances
  | initializer =>
    rw [beginUnit]
    split
    · exact .advances rfl p.advance_advances
    · exact .stays rfl (p.emit_does _) rfl
  | body =>
    rw [beginUnit]
    dsimp only
    split
    · exact .advances rfl (p.advance_advances.trans (consume_advances _ _ _))
    split
    · exact .advances rfl p.advance_advances
    split
    · exact .advances rfl (p.advance_advances.before (beginScope_does _) rfl)
    · exact .decides rfl rfl
  | declaration => exact .decides rfl rfl
  | declarations closing =>
    rw [beginUnit]
    split <;> exact .decides rfl rfl
  | unit unit => cases unit <;> exact .decides rfl rfl

/-- Operations without an expression in them are carried out in one turn; what they change in
place is read off their footprints. -/
theorem beginOperation_effect (call : Call) :
    Effect (beginOperation p stack call).1 (begins (.operation call) p stack)
      (beginOperation p stack call).2 := by
  cases call with
  | expression | parsePrecedence | check | resolveLocal => exact .decides rfl rfl
  | advance => exact .advances rfl p.advance_advances
  | consume kind message => exact .advances rfl (p.consume_advances kind _)
  | accept kind => exact .advances rfl (p.accept_advances kind)
  | _ => exact .stays rfl (p.perform_does _) (by simp only [Call.deeds]; decide)

theorem start_effect (activity : Activity) :
    Effect (activity.start p stack).1 (begins activity p stack) (activity.start p stack).2 := by
  cases activity with
  | expr task => exact beginExpr_effect p stack task
  | unit task => exact beginUnit_effect p stack task
  | operation call => exact beginOperation_effect p stack call
  | session calls => cases calls <;> exact .decides rfl rfl

/-- Behind an activity most of what is left to do is a token to consume and something to write. -/
theorem resume_effect (point : Return) :
    Effect (point.resume p stack).1 (ended p (point :: stack)) (point.resume p stack).2 := by
  cases point with
  | level => exact .closes
  | opening | declarations | session => exact .decides rfl rfl
  | operators min => exact .advances rfl (rejectTarget_advances _ p)
  | group => exact .advances rfl (p.consume_advances _ _)
  | unary op => exact .stays rfl (p.emit_does _) rfl
  | assign place => exact .stays rfl (emitSet_does place p) rfl
  | operand min op => exact .stays rfl (p.emitAll_does _) rfl
  | define name =>
    exact .advances rfl ((p.consume_advances _ _).before (define_does _ _) rfl)
  | print | pop =>
    exact .advances rfl ((p.consume_advances _ _).before (emit_does _ _) rfl)
  | block => exact .advances rfl ((p.consume_advances _ _).before (endScope_does _) rfl)
  | declaration =>
    rw [Return.resume]
    split <;> exact .decides rfl rfl
  | boundary => exact .stays rfl (Action.recover p).does rfl
  | unit unit =>
    cases unit with
    | program => exact .advances rfl (p.advance_advances.before (emit_does _ _) rfl)
    | expression =>
      exact .advances rfl ((p.consume_advances _ _).before (emit_does _ _) rfl)

/-- Every turn is of one of the three kinds. -/
theorem Config.effect_of_turn? {c d : Config} {n : Nat} (h : c.turn? = some (n, d)) :
    Effect n c d := by
  obtain ⟨next, p, stack⟩ := c
  cases next with
  | some activity =>
    have heq : activity.start p stack = (n, d) := Option.some.inj h
    have heffect := start_effect p stack activity
    rwa [heq] at heffect
  | none =>
    cases stack with
    | nil => cases h
    | cons point stack =>
      have heq : point.resume p stack = (n, d) := Option.some.inj h
      have heffect := resume_effect p stack point
      rwa [heq] at heffect

/-! ### What is kept -/

section Keeps

variable {motive : Nat → Parser → Prop} {c d : Config}
  (hstill : ∀ {n p q deeds}, Does deeds p q → deeds.lacks .advance → motive n p → motive n q)
  (hadvance : ∀ {n p}, motive n p → motive (n + 1) p.advance)

include hstill hadvance

theorem Advances.keeps {p q : Parser} (h : Advances n p q) (hp : motive k p) :
    motive (k + n) q := by
  induction h with
  | stays h => exact hstill h (by decide) hp
  | next _ hrest ih => exact hstill hrest (by decide) (hadvance (ih hp))

theorem Effect.keeps (h : Effect n c d) (hc : motive k c.state) : motive (k + n) d.state := by
  cases h with
  | opens | closes => exact hstill (Action.nest _ _).does rfl hc
  | advances hopen h => exact h.keeps (motive := motive) hstill hadvance hc

/-- What can be said of a state and the number of tokens that have been taken can be said all
the way, if taking a token keeps it up, and so does all that is done without. -/
theorem Runs.keeps (h : Runs n c d) (hc : motive k c.state) : motive (k + n) d.state := by
  -- The first turn changes the number, so it varies in the induction.
  induction h generalizing k with
  | refl => exact hc
  | head hturn _ ih =>
    rw [← Nat.add_assoc]
    exact ih ((Config.effect_of_turn? hturn).keeps (motive := motive) hstill hadvance hc)

end Keeps

end OnePass.Parser
