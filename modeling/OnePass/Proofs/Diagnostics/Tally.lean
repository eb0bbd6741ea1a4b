import OnePass.Compile
import OnePass.Proofs.Parser.Run

/-!
# OnePass.Proofs.Diagnostics.Tally

How many reports there are. Every panic begins with a report and no report is made in
one, so that the reports are as many as the panics that have ended, and one more while
the parser is panicking (`Tally`). All else keeps the tally, the end of a panic counts it
(`Does.tally`, `Tally.recover`); hence it is right after any sequence of operations,
and what a compilation returns can be told from its reports (`reports_tallied`).
-/

namespace OnePass

namespace Parser

/-! ### The tally -/

/-- How many panics have begun and not ended. -/
def openPanics (p : Parser) : Nat := if p.isPanicking then 1 else 0

/-- The reports of a state in which `ended` panics have ended. -/
structure Tally (ended : Nat) (p : Parser) : Prop where
  count : p.diagnostics.length = ended + p.openPanics
  noted : p.hadError = true ↔ p.diagnostics ≠ []

variable {p q : Parser} {ended : Nat} {deed : Deed} {deeds : Footprint}

theorem openPanics_of_normal (h : p.mode = .normal) : p.openPanics = 0 := by
  simp [openPanics, isPanicking, h]

theorem openPanics_of_panicking (h : p.mode = .panicking) : p.openPanics = 1 := by
  simp [openPanics, isPanicking, h]

/-- A panic has left a report behind, and thus is known to be an error. -/
theorem Tally.hadError_of_isPanicking (h : Tally ended p) (hp : p.isPanicking = true) :
    p.hadError = true := by
  refine h.noted.2 fun hnil => ?_
  have hcount := h.count
  rw [hnil, openPanics, if_pos hp] at hcount
  exact absurd hcount (Nat.succ_ne_zero ended).symm

/-- An error either begins a panic, with a report, or belongs to the one there is. -/
theorem Tally.errorAt (h : Tally ended p) (t : Token) (problem : Problem) :
    Tally ended (p.errorAt t problem) := by
  have hopen := openPanics_of_panicking (p.errorAt_mode t problem)
  have hdiagnostics := p.errorAt_diagnostics t problem
  -- Only an error outside a panic is reported, and it is the one that begins the panic.
  cases hmode : p.mode with
  | normal =>
    have hcalm : p.isPanicking = false := by simp [isPanicking, hmode]
    rw [hcalm, if_neg Bool.false_ne_true] at hdiagnostics
    refine ⟨?_, ?_⟩
    · rw [hdiagnostics, hopen, List.length_append, h.count, openPanics_of_normal hmode]
      rfl
    · rw [hdiagnostics]
      simp
  | panicking =>
    have hpanic : p.isPanicking = true := by simp [isPanicking, hmode]
    rw [hpanic, if_pos rfl, List.append_nil] at hdiagnostics
    refine ⟨?_, ?_⟩
    · rw [hdiagnostics, hopen, h.count, openPanics_of_panicking hmode]
    · rw [hdiagnostics, ← h.noted, h.hadError_of_isPanicking hpanic, errorAt_hadError]

/-- Error tokens are reported one after the other; only the first of them may find no panic. -/
theorem Tally.reportErrors (h : Tally ended p) : Tally ended p.reportErrors := by
  unfold Parser.reportErrors
  generalize p.stream.leadingErrors = errors
  induction errors generalizing p with
  | nil => exact h
  | cons t rest ih => exact ih (h.errorAt t _)

/-- All actions but the end of a panic: an error counts itself, the others touch neither reports
nor mode. -/
theorem Action.tally (h : Action deed p q) (hcalm : deed ≠ .recover) (hp : Tally ended p) :
    Tally ended q := by
  cases h with
  | advance =>
    have hbehind : Tally ended { p with previous := p.current } := ⟨hp.count, hp.noted⟩
    exact ⟨hbehind.reportErrors.count, hbehind.reportErrors.noted⟩
  | blame | report => exact hp.errorAt _ _
  | recover => exact absurd rfl hcalm
  | _ => exact ⟨hp.count, hp.noted⟩

/-- As long as no panic is ended the tally is the same. -/
theorem Does.tally (h : Does deeds p q) (hp : Tally ended p) (hcalm : deeds.lacks .recover) :
    Tally ended q :=
  h.keeps (motive := Tally ended)
    (fun hdeed haction hr => haction.tally (Footprint.ne_of_lacks hcalm hdeed) hr) hp

/-- The end of a panic counts it among the ended ones, if there was one. -/
theorem Tally.recover (h : Tally ended p) : Tally (ended + p.openPanics) p.recover.2 :=
  ⟨h.count, h.noted⟩

/-- Of a compilation it is not known how many panics it ends, only that the tally is right for
some number of them. -/
theorem Does.exists_tally (h : Does deeds p q) (hp : Tally ended p) : ∃ ended', Tally ended' q := by
  refine h.keeps (motive := fun r => ∃ ended', Tally ended' r) (fun {deed r r'} _ haction hr => ?_)
    ⟨ended, hp⟩
  obtain ⟨ended', hr⟩ := hr
  by_cases hdeed : deed = .recover
  · subst hdeed
    cases haction
    exact ⟨_, hr.recover⟩
  · exact ⟨ended', haction.tally hdeed hr⟩

theorem start_tally (stream : TokenStream) (strings : Interner) :
    Tally 0 (start stream strings) :=
  (advance_does _).tally ⟨rfl, by simp⟩ rfl

/-! ### Sequences of operations -/

/-- How many of some operations end a panic. -/
def recoveries (p : Parser) : List Call → Nat
  | [] => 0
  | call :: rest =>
    (if call = .recover ∧ (p.perform call).1 = .flag true then 1 else 0)
      + recoveries (p.perform call).2 rest

/-- Recovering is the only operation that ends a panic. -/
theorem Call.deeds_lacks_recover {call : Call} (h : call ≠ .recover) :
    call.deeds.lacks .recover := by
  cases call with
  | recover => exact absurd rfl h
  | _ => rfl

/-- Along a sequence of operations, the number of recoveries that found a panic is counted with
them. -/
theorem Tally.performAll (h : Tally ended p) (calls : List Call) :
    Tally (ended + recoveries p calls) (p.performAll calls) := by
  induction calls generalizing p ended with
  | nil => exact h
  | cons call rest ih =>
    have hstep : Tally (ended + if call = .recover ∧ (p.perform call).1 = .flag true then 1 else 0)
        (p.perform call).2 := by
      -- Any other operation lacks the deed that ends a panic.
      by_cases hcall : call = .recover
      · subst hcall
        have hreply : (p.perform .recover).1 = .flag true ↔ p.isPanicking = true := by
          simp [perform, Parser.recover]
        simp only [hreply, true_and]
        exact h.recover
      · rw [if_neg fun hboth => hcall hboth.1]
        exact (p.perform_does call).tally h (Call.deeds_lacks_recover hcall)
    have hrest := ih hstep
    rwa [Nat.add_assoc] at hrest

end Parser

/-! ### Compilations -/

open OnePass.Parser

theorem compileUnit_eq_error_iff {unit : UnitKind} {source : String} {strings : Interner}
    {e : CompileError} :
    (compileUnit unit source strings).1 = .error e ↔
      (Parser.ofSource unit source strings).hadError = true
        ∧ e = ⟨(Parser.ofSource unit source strings).diagnostics⟩ := by
  rw [compileUnit, Parser.result]
  split
  · rename_i herror
    simp [herror, eq_comm]
  · rename_i herror
    simp [herror]

theorem ofSource_tally (unit : UnitKind) (source : String) (strings : Interner) :
    ∃ ended, Tally ended (Parser.ofSource unit source strings) :=
  (run_reaches unit _).exists_tally (start_tally _ _)

/-- Whatever operations are carried out from the start, there are as many reports as
recoveries that ended a panic, and one more while the parser is panicking; an error is
known exactly if there is a report, is never forgotten, and is known in every panic.
Hence a compilation succeeds exactly if it makes no report, and one of an expression
that fails makes one. -/
theorem reports_tallied :
    (∀ (stream : TokenStream) (strings : Interner) (calls : List Call),
      let p := (start stream strings).performAll calls
      p.diagnostics.length
          = recoveries (start stream strings) calls + (if p.isPanicking then 1 else 0)
        ∧ (p.hadError = true ↔ p.diagnostics ≠ [])
        ∧ (p.hadError = true → ∀ more, (p.performAll more).hadError = true)
        ∧ (p.isPanicking = true → p.hadError = true))
    ∧ (∀ (source : String) (strings : Interner),
      (∃ chunk, (compile source strings).1 = .ok chunk) ↔
        (Parser.ofSource .program source strings).diagnostics = [])
    ∧ ∀ (source : String) (strings : Interner) (e : CompileError),
      (compileExpression source strings).1 = .error e → e.diagnostics.length = 1 := by
  refine ⟨fun stream strings calls => ?_, fun source strings => ?_, fun source strings e he => ?_⟩
  · have htally := (start_tally stream strings).performAll calls
    rw [Nat.zero_add] at htally
    exact ⟨htally.count, htally.noted, fun hp more => (performAll_reaches _ more).hadError hp,
      htally.hadError_of_isPanicking⟩
  · obtain ⟨ended, htally⟩ := ofSource_tally .program source strings
    have hnoted := htally.noted
    rw [compile, compileUnit, Parser.result]
    cases herror : (Parser.ofSource .program source strings).hadError with
    | true => simpa [herror] using hnoted
    | false => simpa [herror] using hnoted
  · obtain ⟨herror, rfl⟩ := compileUnit_eq_error_iff.1 he
    -- A single expression is never recovered from, so that its only panic is open.
    have htally : Tally 0 (Parser.ofSource .expression source strings) :=
      (singleExpression_does _).tally (start_tally _ _) rfl
    have hcount := htally.count
    have hsome := List.length_pos_iff.2 (htally.noted.1 herror)
    simp only [openPanics] at hcount
    split at hcount <;> omega

end OnePass
