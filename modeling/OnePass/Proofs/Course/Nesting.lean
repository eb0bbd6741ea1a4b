import OnePass.Lexical.Source
import OnePass.Proofs.Course.Turn

/-!
# OnePass.Proofs.Course.Nesting

How deep expressions are nested. While the machine runs, as many expressions are open as climbs
are active, and there are no more of them than are allowed (`Guarded`), since an expression that
would be one too many is refused. Every expression that has been opened is closed again,
whatever becomes of it, so that none is open when a declaration begins.
-/

namespace OnePass.Parser

open Config

/-- As many expressions are open as climbs are active, and not too many. -/
structure Guarded (c : Config) : Prop where
  nesting : c.state.nesting = openClimbs c.stack
  bounded : openClimbs c.stack ≤ maxNesting

section Guarded

variable {n : Nat} {c d : Config}

/-- It is an expression that is opened for which there must be room. -/
theorem Effect.guarded (h : Effect n c d) (hc : Guarded c) : Guarded d := by
  obtain ⟨hnesting, hbounded⟩ := hc
  cases h with
  | opens hroom => exact ⟨congrArg (· + 1) hnesting, hnesting ▸ hroom⟩
  | closes => exact ⟨congrArg (· - 1) hnesting, Nat.le_of_succ_le hbounded⟩
  | advances hopen h =>
    rw [← hopen] at hnesting hbounded
    exact ⟨h.nesting.trans hnesting, hbounded⟩

/-- What a turn keeps, a run keeps. -/
theorem Runs.guarded (h : Runs n c d) (hc : Guarded c) : Guarded d := by
  induction h with
  | refl => exact hc
  | head hturn _ ih => exact ih ((effect_of_turn? hturn).guarded hc)

/-- Where no expression is open an activity may begin. -/
theorem guarded_begins (activity : Activity) {p : Parser} (hp : p.nesting = 0) :
    Guarded (begins activity p []) :=
  ⟨hp, Nat.zero_le _⟩

end Guarded

/-! ### What is left open -/

section Closed

variable {p : Parser}

/-- Operations leave no expression open. -/
theorem performAll_nesting (calls : List Call) (hp : p.nesting = 0) :
    (p.performAll calls).nesting = 0 := by
  obtain ⟨n, hruns⟩ := p.session_completes calls []
  exact (hruns.guarded (guarded_begins _ hp)).nesting

theorem Course.mem_declaration_nesting {task : UnitTask} {log : List Mark} {q : Parser}
    (h : Course task p log q) {before after : Parser}
    (hmem : .declaration before after ∈ log) :
    before.nesting = p.nesting ∧ after.nesting = p.nesting := by
  obtain ⟨hbefore, _, hdeclaration⟩ := h.mem_declaration hmem
  exact ⟨hbefore, hdeclaration.nesting.trans hbefore⟩

/-- A refused expression leaves the window and the code as they are. -/
theorem parsePrecedence_refused (min : Precedence) (h : maxNesting ≤ p.nesting) :
    Pulled 0 p (p.parsePrecedence min)
      ∧ (p.parsePrecedence min).previous = p.previous
      ∧ (p.parsePrecedence min).chunk = p.chunk := by
  rw [parsePrecedence_of_le min h]
  exact ⟨⟨errorAt_stream .., errorAt_current ..⟩, errorAt_previous .., errorAt_chunk ..⟩

end Closed

end OnePass.Parser

namespace OnePass

open OnePass.Parser OnePass.Parser.Config

/-- The nesting of expressions is bounded and always given back. Whatever the tokens are, and
whatever has been asked of the parser, no more than 256 climbs are active at any time, of an
operation or of a unit, and the parser knows their number. An expression leaves as many of them
open as it has found, however it ends; if there are 256 already it takes no token and writes
nothing, and else it takes a token. So no expression is open where a declaration of a unit
begins, nor where one ends. -/
theorem nesting_guarded (stream : TokenStream) (strings : Interner) (calls : List Call) :
    let p := start stream strings
    let q := p.performAll calls
    (Completes (.session calls) p q
      ∧ ∀ n c, Runs n (begins (.session calls) p []) c →
          openClimbs c.stack ≤ 256 ∧ c.state.nesting = openClimbs c.stack)
    ∧ (∀ unit, Completes (.unit (.unit unit)) q (q.run unit)
      ∧ (∀ n c, Runs n (begins (.unit (.unit unit)) q []) c →
          openClimbs c.stack ≤ 256 ∧ c.state.nesting = openClimbs c.stack)
      ∧ ∃ log, Course (.unit unit) q log (q.run unit)
          ∧ ∀ before after, .declaration before after ∈ log →
              before.nesting = 0 ∧ after.nesting = 0)
    ∧ ∀ (min : Precedence) (p : Parser),
        Completes (.expr (.level min)) p (p.parsePrecedence min)
        ∧ (p.parsePrecedence min).nesting = p.nesting
        ∧ (256 ≤ p.nesting →
            Pulled 0 p (p.parsePrecedence min)
              ∧ (p.parsePrecedence min).previous = p.previous
              ∧ (p.parsePrecedence min).chunk = p.chunk)
        ∧ (p.nesting < 256 → ∃ n, Pulled (n + 1) p (p.parsePrecedence min)) := by
  intro p q
  have hp : p.nesting = 0 := start_nesting stream strings
  have hq : q.nesting = 0 := performAll_nesting calls hp
  have hguarded : ∀ {activity : Activity} {p : Parser}, p.nesting = 0 →
      ∀ n c, Runs n (begins activity p []) c →
        openClimbs c.stack ≤ 256 ∧ c.state.nesting = openClimbs c.stack := by
    intro activity p hp n c hruns
    obtain ⟨hnesting, hbounded⟩ := hruns.guarded (guarded_begins activity hp)
    exact ⟨hbounded, hnesting⟩
  refine ⟨⟨p.session_completes calls, hguarded hp⟩, fun unit => ?_, fun min p => ?_⟩
  · have hroom : q.nesting < maxNesting := nesting_lt_of_eq_zero hq
    obtain ⟨log, hcourse⟩ := unit_course unit hroom
    refine ⟨run_completes unit hroom, hguarded hq, log, hcourse, fun before after hmem => ?_⟩
    exact hq ▸ hcourse.mem_declaration_nesting hmem
  · exact ⟨p.parsePrecedence_completes min, (parsePrecedence_kept min p).nesting,
      parsePrecedence_refused min, fun hroom => (parsePrecedence_behind min hroom).pulled⟩

/-- Inside of as many expressions as there can be a number is refused, and inside of one less it
is taken; statements with errors in them leave no expression open. -/
theorem nesting_guarded_at_limit :
    (let p : Parser := { start (.ofSource "1") .empty with nesting := 256 }
    256 ≤ p.nesting ∧ Pulled 0 p (p.parsePrecedence .term)
      ∧ (p.parsePrecedence .term).chunk = p.chunk)
    ∧ (let p : Parser := { start (.ofSource "1") .empty with nesting := 255 }
    p.nesting < 256 ∧ ∃ n, Pulled (n + 1) p (p.parsePrecedence .term))
    ∧ let p := start (.ofSource "print (1 = ; (((") .empty
      (p.run .program).hadError = true
        ∧ ∃ log, Course (.unit .program) p log (p.run .program)
          ∧ ∀ before after, .declaration before after ∈ log →
              before.nesting = 0 ∧ after.nesting = 0 := by
  refine ⟨?_, ?_, ?_⟩
  · intro p
    have hfull : 256 ≤ p.nesting := Nat.le_refl 256
    have hrefused := ((nesting_guarded (.ofSource "") .empty []).2.2 .term p).2.2.1 hfull
    exact ⟨hfull, hrefused.1, hrefused.2.2⟩
  · intro p
    have hroom : p.nesting < 256 := Nat.lt_succ_self 255
    exact ⟨hroom, ((nesting_guarded (.ofSource "") .empty []).2.2 .term p).2.2.2 hroom⟩
  · intro p
    have hcourse := ((nesting_guarded (.ofSource "print (1 = ; (((") .empty []).2.1 .program).2.2
    exact ⟨by decide +kernel, hcourse⟩

end OnePass
