import OnePass.Proofs.Grammar.Viable
import OnePass.Proofs.Parser.Statement

/-!
# OnePass.Proofs.Diagnostics.Misfit

What the parser reports of an expression that it cannot compile: that a limit is
reached, or the first token that cannot come next (`Due.Misfit`), with the problem that
what is due there makes of it. What the parser has compiled without an error, the state
`Due` has gone over, and what was due at the first error is due there; all that follows
happens in a panic and reports nothing (`Does.keeps_panic`). By induction on the levels
of nesting that are left, as for expressions without an error (`parseLevel_fails`).

Two things are followed side by side: what the parser has compiled, by the soundness of the parts
in front of the error, and what is due there, by `Reads.after?`. Where the first error occurs both
are known, so that its token and its wording can be compared with what the grammar says. The
limits of the parser are the exception, as the grammar does not know them (`Problem.IsLimit`).
-/

namespace OnePass

/-- What is wrong with a token that cannot come next. -/
def Due.problem : Due → TokenKind → Problem
  | operand .., _ => .expressionMissing
  | operator _ n, kind =>
    if kind = .equal then .targetInvalid
    else if 0 < n then .closingParenMissing
    else .inputEndMissing

/-- Behind an operand nothing but the end can stand that is not due there. -/
theorem Due.not_allows_operator {kind : TokenKind} {assignable : Bool} {n : Nat}
    (hop : kind.binary? = none) (heq : assignable = true → kind ≠ .equal)
    (hclose : kind = .rightParen → n = 0) (hend : kind = .eof → n ≠ 0) :
    ¬ (operator assignable n).Allows kind := by
  rintro (hnext | ⟨heof, assignable', hdone⟩)
  · rw [next?_operator_eq_none hop heq hclose] at hnext
    cases hnext
  · exact hend heof (Due.operator.inj hdone).2

/-- An operand can only start with what starts one. -/
theorem Due.not_allows_operand {kind : TokenKind} (h : kind.opening? = none) (canAssign : Bool)
    (n : Nat) : ¬ (operand canAssign n).Allows kind := by
  rintro (hnext | ⟨-, assignable, hdone⟩)
  · rw [next?, h] at hnext
    cases hnext
  · cases hdone

/-- Whether going over some tokens ends in front of the token `t`, which cannot come
next; behind the tokens stand ends. -/
def Due.Misfit (d : Due) (ts : List Token) (ending t : Token) (problem : Problem) : Prop :=
  ∃ before rest d', ts = before ++ rest ∧ d.after? before = some d'
    ∧ t = rest.headD ending ∧ ¬ d'.Allows t.kind ∧ problem = d'.problem t.kind

/-- Tokens that can come next only move the place of the misfit further behind. -/
theorem Due.Misfit.append {d d' : Due} {ts us : List Token} {ending t : Token} {problem : Problem}
    (h : d'.Misfit us ending t problem) (hafter : d.after? ts = some d') :
    d.Misfit (ts ++ us) ending t problem := by
  obtain ⟨before, rest, last, rfl, hbefore, hrest⟩ := h
  refine ⟨ts ++ before, rest, last, (List.append_assoc ..).symm, ?_, hrest⟩
  rw [after?_append_of_eq hafter, hbefore]

/-- The token in front of which going over has come to rest. -/
theorem Due.misfit_ahead {d : Due} {ts : List Token} (ending : Token) (hending : ending.kind = .eof)
    (h : ¬ d.Allows (kindAhead ts)) :
    d.Misfit ts ending (ts.headD ending) (d.problem (kindAhead ts)) := by
  have hkind : (ts.headD ending).kind = kindAhead ts := by
    cases ts with
    | nil => exact hending
    | cons t ts => rfl
  exact ⟨[], ts, d, rfl, rfl, rfl, hkind ▸ h, by rw [hkind]⟩

theorem Stops.binary?_eq_none {rest : List Token} (h : Stops .assignment rest) :
    (kindAhead rest).binary? = none := by
  cases hop : (kindAhead rest).binary? with
  | none => rfl
  | some o => exact absurd (h.1 o hop) (Nat.lt_asymm (assignment_lt_precedence o))

/-- Whether a problem is that of a limit of the parser. -/
def Problem.IsLimit (problem : Problem) : Prop :=
  problem = .nestingTooDeep ∨ problem = .constantsExhausted

namespace Parser

/-! ### Nothing is reported in a panic -/

theorem errorAt_of_panicking {p : Parser} (h : p.mode = .panicking) (t : Token)
    (problem : Problem) : (p.errorAt t problem).diagnostics = p.diagnostics := by
  simp [errorAt_diagnostics, isPanicking, h]

/-- Error tokens are reported like other errors, so that also taking a token is silent in a panic.
-/
theorem Action.keeps_panic {deed : Deed} {p q : Parser} (h : Action deed p q)
    (hcalm : deed ≠ .recover) (hp : p.mode = .panicking) :
    q.mode = .panicking ∧ q.diagnostics = p.diagnostics := by
  cases h with
  | recover => exact absurd rfl hcalm
  | advance =>
    -- The error tokens in front of the next one, each of which is noted in the panic.
    have hfold : ∀ (errors : List Token) (q : Parser), q.mode = .panicking →
        (errors.foldl (fun q t => q.errorAt t (.unreadable t.lexeme)) q).mode = .panicking
          ∧ (errors.foldl (fun q t => q.errorAt t (.unreadable t.lexeme)) q).diagnostics
            = q.diagnostics := by
      intro errors
      induction errors with
      | nil => exact fun q hq => ⟨hq, rfl⟩
      | cons t rest ih =>
        intro q hq
        rw [List.foldl_cons, ← errorAt_of_panicking hq t (.unreadable t.lexeme)]
        exact ih _ (q.errorAt_mode t _)
    exact hfold _ _ hp
  | blame | report => exact ⟨errorAt_mode .., errorAt_of_panicking hp _ _⟩
  | _ => exact ⟨hp, rfl⟩

/-- A panic that nothing ends lasts, and nothing is reported in it. -/
theorem Does.keeps_panic {deeds : Footprint} {p q : Parser} (h : Does deeds p q)
    (hp : p.mode = .panicking) (hcalm : deeds.lacks .recover) :
    q.mode = .panicking ∧ q.diagnostics = p.diagnostics :=
  h.keeps (motive := fun r => r.mode = .panicking ∧ r.diagnostics = p.diagnostics)
    (fun hdeed haction hr => by
      obtain ⟨hmode, hdiagnostics⟩ :=
        haction.keeps_panic (Footprint.ne_of_lacks hcalm hdeed) hr.1
      exact ⟨hmode, hdiagnostics.trans hr.2⟩)
    ⟨hp, rfl⟩

/-! ### The first report -/

/-- Whether no error has occurred yet. -/
structure Calm (p : Parser) : Prop where
  mode : p.mode = .normal
  hadError : p.hadError = false

theorem Calm.no_error {p : Parser} (h : p.Calm) : ¬ p.hadError = true := by
  rw [h.hadError]
  decide

/-- Whether a panic has begun with the report of a problem at a token. -/
structure Blames (p q : Parser) (t : Token) (problem : Problem) : Prop where
  mode : q.mode = .panicking
  diagnostics : q.diagnostics = p.diagnostics ++ [.ofProblem problem t]

/-- Outside a panic an error is reported where it is placed. -/
theorem errorAt_blames {p : Parser} (h : p.mode = .normal) (t : Token) (problem : Problem) :
    Blames p (p.errorAt t problem) t problem :=
  ⟨p.errorAt_mode t problem, by simp [errorAt_diagnostics, isPanicking, h]⟩

/-- Whatever is done afterwards, the first report remains the only one until the panic ends. -/
theorem Blames.does {deeds : Footprint} {p q r : Parser} {t : Token} {problem : Problem}
    (h : Blames p q t problem) (hdoes : Does deeds q r) (hcalm : deeds.lacks .recover) :
    Blames p r t problem := by
  obtain ⟨hmode, hdiagnostics⟩ := hdoes.keeps_panic h.mode hcalm
  exact ⟨hmode, hdiagnostics.trans h.diagnostics⟩

/-- Whether the report between two states is that of a limit, or of the first of the
tokens `ts` that cannot come next if `d` is due before them. -/
def Fails (d : Due) (ts : List Token) (p q : Parser) : Prop :=
  ∃ t problem, Blames p q t problem ∧ (problem.IsLimit ∨ d.Misfit ts p.stream.ending t problem)

section Fails

variable {d d' : Due} {ts us : List Token} {p q r : Parser}

/-- An operand that has failed makes what it is an operand of fail, for the same reason. -/
theorem Fails.does {deeds : Footprint} (h : Fails d ts p q) (hdoes : Does deeds q r)
    (hcalm : deeds.lacks .recover) : Fails d ts p r := by
  obtain ⟨t, problem, hblames, hcause⟩ := h
  exact ⟨t, problem, hblames.does hdoes hcalm, hcause⟩

/-- A failure behind tokens that have been gone over without a report. -/
theorem Fails.behind {s : Parser} (h : Fails d' us s q) (hafter : d.after? ts = some d')
    (hdiagnostics : s.diagnostics = p.diagnostics) (hending : s.stream.ending = p.stream.ending) :
    Fails d (ts ++ us) p q := by
  obtain ⟨t, problem, hblames, hcause⟩ := h
  refine ⟨t, problem, ⟨hblames.mode, hdiagnostics ▸ hblames.diagnostics⟩, ?_⟩
  exact hcause.imp_right fun hmisfit => (hending ▸ hmisfit).append hafter

theorem Fails.behind_cons {s : Parser} {t : Token} (h : Fails d' us s q)
    (hnext : d.next? t.kind = some d') (hdiagnostics : s.diagnostics = p.diagnostics)
    (hending : s.stream.ending = p.stream.ending) : Fails d (t :: us) p q := by
  have hafter : d.after? [t] = some d' := by rw [Due.after?_singleton, hnext]
  exact h.behind hafter hdiagnostics hending

/-- A report of the token in front of the parser, perhaps after it has been taken. -/
theorem fails_ahead (hat : p.At ts) (hmode : q.mode = .normal)
    (hdiagnostics : q.diagnostics = p.diagnostics) (hnot : ¬ d.Allows (kindAhead ts))
    {problem : Problem} (hproblem : d.problem (kindAhead ts) = problem) :
    Fails d ts p (q.errorAt p.current problem) := by
  have hblames := errorAt_blames hmode p.current problem
  refine ⟨p.current, problem, ⟨hblames.mode, hdiagnostics ▸ hblames.diagnostics⟩, .inr ?_⟩
  rw [hat.1, ← hproblem]
  exact Due.misfit_ahead _ rfl hnot

/-- A report of a limit. -/
theorem Blames.fails {t : Token} {problem : Problem} (h : Blames p q t problem)
    (hlimit : problem.IsLimit) : Fails d ts p q :=
  ⟨t, problem, h, .inl hlimit⟩

end Fails

/-- What is to be consumed is missing if that is an error, and the report is of what
stands in its place. -/
theorem At.consume_eq_errorAt {p : Parser} {ts : List Token} {kind : TokenKind}
    {problem : Problem} (hat : p.At ts) (hreadable : Readable ts) (hp : p.hadError = false)
    (herror : (p.consume kind problem).hadError = true) :
    kindAhead ts ≠ kind ∧ p.consume kind problem = p.errorAt p.current problem := by
  unfold Parser.consume at herror ⊢
  by_cases hcheck : p.check kind = true
  · rw [if_pos hcheck, hat.advance_eq hreadable] at herror
    exact absurd (hp.symm.trans herror) (by decide)
  · rw [if_neg hcheck]
    exact ⟨fun hkind => hcheck ((hat.check_iff kind).2 hkind), rfl⟩

/-! ### The limit of the pool -/

/-- The only error that storing a constant can be is that of a full pool. -/
theorem makeConstant_blames {p : Parser} {value : Value} (h : p.Calm)
    (herror : (p.makeConstant value).2.hadError = true) :
    Blames p (p.makeConstant value).2 p.previous .constantsExhausted := by
  unfold makeConstant at herror ⊢
  dsimp only at herror ⊢
  split at herror
  · exact absurd herror h.no_error
  · have hblames := errorAt_blames (p := { p with chunk := (p.chunk.addConstant value).2 })
      h.mode p.previous .constantsExhausted
    exact ⟨hblames.mode, hblames.diagnostics⟩

theorem makeText_blames {p : Parser} {text : String} (h : p.Calm)
    (herror : (p.makeText text).2.hadError = true) :
    Blames p (p.makeText text).2 p.previous .constantsExhausted := by
  have hstored : ({ p with strings := (p.strings.intern text).2 } : Parser).Calm :=
    ⟨h.mode, h.hadError⟩
  have hblames := makeConstant_blames hstored herror
  exact ⟨hblames.mode, hblames.diagnostics⟩

theorem place_blames {p : Parser} {name : Token} (h : p.Calm)
    (herror : (p.place name).2.hadError = true) :
    Blames p (p.place name).2 p.previous .constantsExhausted := by
  unfold place at herror ⊢
  split at herror
  · exact absurd herror h.no_error
  · exact makeText_blames h herror

/-! ### Expressions -/

/-- If `operand` ends in error in a state with `nesting` open expressions, then it has
failed. -/
def OperandFails (operand : Precedence → Parser → Parser) (nesting : Nat) : Prop :=
  ∀ (min : Precedence) (n : Nat) {p : Parser} {ts : List Token}, p.Calm → p.At ts → Legible ts →
    p.nesting = nesting → p.poolSize ≤ OpCode.operandCount → (operand min p).hadError = true →
    Fails (.operand min.allowsAssignment n) ts p (operand min p)

section Operand

variable {operand : Precedence → Parser → Parser} {nesting levels : Nat}

/-- A name fails because the pool is full, or because the value that is assigned to it fails. -/
theorem variableUse_fails (hworks : OperandWorks operand)
    (h : OperandFails operand nesting) {p : Parser} {t : Token}
    {ts : List Token} {canAssign : Bool} (n : Nat) (hcalm : p.Calm) (hp : p.nesting = nesting)
    (hlegible : Legible ts) (hpool : p.poolSize ≤ OpCode.operandCount)
    (hkind : t.kind = .identifier)
    (herror : (variableUse operand canAssign (p.moveTo t ts)).hadError = true) :
    Fails (.operand canAssign n) (t :: ts) p (variableUse operand canAssign (p.moveTo t ts)) := by
  have hcalm' : (p.moveTo t ts).Calm := ⟨hcalm.mode, hcalm.hadError⟩
  cases hplace : ((p.moveTo t ts).place t).2.hadError with
  | true =>
    have hblames := place_blames hcalm' hplace
    have huse := place_walks_variableUse anything_admits hworks canAssign (p.moveTo t ts)
    have hall := hblames.does huse.does rfl
    exact Blames.fails ⟨hall.mode, hall.diagnostics⟩ (.inr rfl)
  | false =>
    have hroom := room_of_place (p := p.moveTo t ts) hkind hpool hplace
    obtain ⟨place, hplace, -, -⟩ := p.exists_place_compiled hkind hroom ts
    have hat : ((p.moveTo t ts).write [] (t.constant? p.slots).toList).At ts :=
      at_write_moveTo ..
    have hprevious : (p.moveTo t ts).previous = t := rfl
    unfold variableUse at herror ⊢
    rw [hprevious, hplace] at herror ⊢
    dsimp only at herror ⊢
    by_cases hassign : (canAssign && ((p.moveTo t ts).write []
        (t.constant? p.slots).toList).check .equal) = true
    · rw [if_pos hassign] at herror ⊢
      obtain ⟨rfl, hequal⟩ := (Bool.and_eq_true _ _).mp hassign
      obtain ⟨equal, ts, rfl, hahead⟩ := hat.of_check (by decide) hequal
      rw [hat.advance hlegible.tail.readable.kindAhead_ne] at herror ⊢
      generalize hq : (((p.moveTo t (equal :: ts)).write []
        (t.constant? p.slots).toList).moveTo equal ts) = q at herror ⊢
      have hsize : q.poolSize = p.poolSize + (t.constant? p.slots).toList.length := by
        rw [← hq]
        exact poolSize_write ..
      have hvalue : (operand .assignment q).hadError = true := by
        cases place <;> exact herror
      have hfails := h .assignment n (p := q)
        (by rw [← hq]; exact ⟨hcalm.mode, hcalm.hadError⟩) (by rw [← hq]; exact at_moveTo _ _ _)
        hlegible.tail (by rw [← hq]; exact hp) (hsize ▸ hroom) hvalue
      have hname : (Due.operand true n).next? t.kind = some (.operator true n) := by
        rw [hkind]
        rfl
      have hequal' : (Due.operator true n).next? equal.kind = some (.operand true n) := by
        rw [hahead]
        rfl
      refine Fails.does ?_ (emitSet_does place _) rfl
      exact (hfails.behind_cons (p := q) hequal' rfl rfl).behind_cons hname
        (by rw [← hq]; rfl) (by rw [← hq]; rfl)
    · rw [if_neg hassign] at herror
      have hno : ((p.moveTo t ts).write [] (t.constant? p.slots).toList).hadError = true := by
        cases place <;> exact herror
      exact absurd hno hcalm.no_error

/-- An opening fails because its operand does, because a closing parenthesis is missing behind it,
or because the pool is full. -/
theorem opening_fails (hworks : OperandWorks operand) (hsound : OperandSound operand nesting levels)
    (h : OperandFails operand nesting) {p : Parser} {t : Token} {ts : List Token}
    {canAssign : Bool} {first : Opening} (n : Nat) (hcalm : p.Calm) (hp : p.nesting = nesting)
    (hlegible : Legible (t :: ts)) (hpool : p.poolSize ≤ OpCode.operandCount)
    (hfirst : t.kind.opening? = some first)
    (herror : (opening operand canAssign (p.moveTo t ts) first).hadError = true) :
    Fails (.operand canAssign n) (t :: ts) p
      (opening operand canAssign (p.moveTo t ts) first) := by
  have hcalm' : (p.moveTo t ts).Calm := ⟨hcalm.mode, hcalm.hadError⟩
  cases first with
  | group =>
    have hopen : (Due.operand canAssign n).next? t.kind = some (.operand true (n + 1)) := by
      rw [kind_of_group hfirst]
      rfl
    refine Fails.behind_cons (s := p.moveTo t ts) ?_ hopen rfl rfl
    cases hinner : (operand .assignment (p.moveTo t ts)).hadError with
    | true =>
      exact (h .assignment (n + 1) hcalm' (at_moveTo _ _ _) hlegible.tail hp hpool hinner).does
        (consume_does _ _ _) rfl
    | false =>
      obtain ⟨inner, mid, hreads, -, heq⟩ := hsound hinner (at_moveTo _ _ _) hp hpool
      obtain ⟨assignable, hafter, -⟩ := hreads.after? (n + 1)
      have htokens : ts = inner.tokens ++ mid := hreads.tokens_eq
      have hat := (p.moveTo t ts).at_compiled inner mid
      have hreadable : Readable mid := (htokens ▸ hlegible.tail).of_append.readable
      simp only [opening, heq] at herror ⊢
      obtain ⟨hmissing, hconsume⟩ := hat.consume_eq_errorAt hreadable hcalm'.hadError herror
      have hstop := hreads.stops.binary?_eq_none
      have hequal := hreads.stops.2 rfl
      have hnot : ¬ (Due.operator assignable (n + 1)).Allows (kindAhead mid) :=
        Due.not_allows_operator hstop (fun _ => hequal) (fun hclose => absurd hclose hmissing)
          (fun _ => Nat.succ_ne_zero n)
      have hproblem : (Due.operator assignable (n + 1)).problem (kindAhead mid)
          = .closingParenMissing := by
        rw [Due.problem, if_neg hequal, if_pos (Nat.succ_pos n)]
      have hfails := fails_ahead (q := (p.moveTo t ts).compiled inner mid) hat hcalm'.mode rfl
        hnot hproblem
      rw [hconsume]
      exact htokens ▸ hfails.behind hafter rfl rfl
  | unary op =>
    have hop := Due.next?_operand_of_unary (kind_of_unary hfirst) canAssign n
    refine Fails.behind_cons (s := p.moveTo t ts) ?_ hop rfl rfl
    exact (h .unary n hcalm' (at_moveTo _ _ _) hlegible.tail hp hpool herror).does
      (emit_does _ _) rfl
  | word literal => exact absurd herror hcalm.no_error
  | number =>
    obtain ⟨x, hx⟩ := Option.isSome_iff_exists.1
      ((hlegible t List.mem_cons_self).2 (kind_of_number hfirst))
    have hvalue : (p.moveTo t ts).previous.number? = some x := hx
    simp only [opening, number, hvalue] at herror ⊢
    have hblames := makeConstant_blames hcalm' herror
    exact Fails.does (Blames.fails ⟨hblames.mode, hblames.diagnostics⟩ (.inr rfl))
      (emitWith_does _ _ _) rfl
  | string =>
    have hblames := makeText_blames hcalm' herror
    exact Fails.does (Blames.fails ⟨hblames.mode, hblames.diagnostics⟩ (.inr rfl))
      (emitWith_does _ _ _) rfl
  | «variable» =>
    exact variableUse_fails hworks h n hcalm hp hlegible.tail hpool (kind_of_variable hfirst) herror

/-- The operators fail at one of their right operands. What stands in front of it has been
compiled, so the state of `Due` behind it is known. -/
theorem operators_fails (hworks : OperandWorks operand)
    (hsound : OperandSound operand nesting levels) (h : OperandFails operand nesting)
    {p : Parser} (hcalm : p.Calm) (hp : p.nesting = nesting) (min : Precedence) (n fuel : Nat) :
    ∀ (left : Expr) (ts : List Token) (assignable : Bool), p.Fits (levels + 1) left →
      Legible ts → (operators operand min fuel (p.compiled left ts)).hadError = true →
      Fails (.operator assignable n) ts p (operators operand min fuel (p.compiled left ts)) := by
  -- The left operand grows with each turn, so it varies, and with it the tokens that are left.
  induction fuel with
  | zero =>
    intro left ts assignable hleft hlegible herror
    exact absurd herror hcalm.no_error
  | succ fuel ih =>
    intro left ts assignable hleft hlegible herror
    have hat := p.at_compiled left ts
    have hstill : ¬ (p.compiled left ts).hadError = true := hcalm.no_error
    unfold operators at herror ⊢
    cases hop : (p.compiled left ts).current.kind.binary? with
    | none => exact absurd (by simpa only [hop] using herror) hstill
    | some o =>
      simp only [hop] at herror ⊢
      by_cases hlt : o.precedence < min
      · rw [if_pos hlt] at herror
        exact absurd herror hstill
      rw [if_neg hlt] at herror ⊢
      rw [hat.current_kind] at hop
      cases ts with
      | nil => cases hop
      | cons op ts =>
        rw [kindAhead_cons] at hop
        rw [hat.advance hlegible.tail.readable.kindAhead_ne] at herror ⊢
        have hnext := Due.next?_operator_of_binary hop assignable n
        have hpool : ((p.compiled left (op :: ts)).moveTo op ts).poolSize
            ≤ OpCode.operandCount := by
          rw [poolSize_moveTo, poolSize_compiled]
          exact hleft.pool
        cases hright : (operand o.precedence.next
            ((p.compiled left (op :: ts)).moveTo op ts)).hadError with
        | true =>
          have hfails := h o.precedence.next n (p := (p.compiled left (op :: ts)).moveTo op ts)
            ⟨hcalm.mode, hcalm.hadError⟩ (at_moveTo _ _ _) hlegible.tail hp hpool hright
          rw [next_not_allowsAssignment] at hfails
          have hoperand : Fails (.operator assignable n) (op :: ts) p _ :=
            hfails.behind_cons hnext rfl rfl
          exact (hoperand.does (emitAll_does _ o.code) rfl).does
            (operators_does hworks min fuel _) rfl
        | false =>
          obtain ⟨right, mid, hreads, hfits, heq⟩ := hsound hright (at_moveTo _ _ _) hp hpool
          obtain ⟨assignable', hafter, -⟩ := hreads.after? n
          rw [next_not_allowsAssignment] at hafter
          have htokens : ts = right.tokens ++ mid := hreads.tokens_eq
          rw [heq, p.compiled_binary hop left right ts mid] at herror ⊢
          rw [Fits, poolSize_moveTo, poolSize_compiled] at hfits
          have hboth := (Expr.fits_binary_iff hop).2 ⟨hleft, hfits⟩
          have hrest := ih _ mid assignable' hboth (htokens ▸ hlegible.tail).of_append herror
          rw [htokens]
          exact (hrest.behind (p := p) hafter rfl rfl).behind_cons hnext rfl rfl

/-- An `=` that is left behind an expression has nothing to assign to. -/
theorem rejectTarget_fails {p : Parser} {e : Expr} {rest : List Token} {assignable : Bool}
    {canAssign : Bool} {n : Nat} (hcalm : p.Calm) (hreadable : Readable rest)
    (hstay : assignable = true → kindAhead rest ≠ .equal)
    (herror : (rejectTarget canAssign (p.compiled e rest)).hadError = true) :
    Fails (.operator assignable n) rest (p.compiled e rest)
      (rejectTarget canAssign (p.compiled e rest)) := by
  have hat := p.at_compiled e rest
  unfold rejectTarget at herror ⊢
  by_cases hreject : (canAssign && (p.compiled e rest).check .equal) = true
  · rw [if_pos hreject, error, advance_previous, hat.advance_eq hreadable]
    have hequal := (hat.check_iff .equal).1 ((Bool.and_eq_true _ _).mp hreject).2
    have hnot : ¬ (Due.operator assignable n).Allows (kindAhead rest) := by
      rw [hequal] at hstay ⊢
      exact Due.not_allows_operator rfl (fun htrue => hstay htrue)
        (fun hclose => absurd hclose (by decide)) (fun hend => absurd hend (by decide))
    refine fails_ahead (q := (p.compiled e rest).moveTo (p.compiled e rest).current rest.tail)
      hat hcalm.mode rfl hnot ?_
    rw [Due.problem, if_pos hequal]
  · rw [if_neg hreject] at herror
    exact absurd herror hcalm.no_error

/-- A climb fails at the first token, at the opening, at the operators or at an `=` that is left.
In each case the parts in front of it have been compiled without an error, so they are derived. -/
theorem climb_fails (hworks : OperandWorks operand) (hsound : OperandSound operand nesting levels)
    (h : OperandFails operand nesting) {p : Parser} {min : Precedence} {ts : List Token} (n : Nat)
    (hcalm : p.Calm) (hp : p.nesting = nesting) (hat : p.At ts) (hlegible : Legible ts)
    (hpool : p.poolSize ≤ OpCode.operandCount) (herror : (climb operand min p).hadError = true) :
    Fails (.operand min.allowsAssignment n) ts p (climb operand min p) := by
  have hadvance := hat.advance_eq hlegible.readable
  unfold climb at herror ⊢
  dsimp only at herror ⊢
  cases hfirst : p.advance.previous.kind.opening? with
  | none =>
    rw [advance_previous, hat.current_kind] at hfirst
    simp only [error, advance_previous]
    rw [hadvance]
    exact fails_ahead (q := p.moveTo p.current ts.tail) hat hcalm.mode rfl
      (Due.not_allows_operand hfirst _ n) rfl
  | some first =>
    simp only [hfirst] at herror ⊢
    rw [advance_previous, hat.current_kind] at hfirst
    cases ts with
    | nil => cases hfirst
    | cons t ts =>
      rw [kindAhead_cons] at hfirst
      rw [hat.advance hlegible.tail.readable.kindAhead_ne] at herror ⊢
      -- From here on the question is always whether the part in front has failed already.
      cases hleft : (opening operand min.allowsAssignment (p.moveTo t ts) first).hadError with
      | true =>
        have hopening := opening_fails hworks hsound h n hcalm hp hlegible hpool hfirst hleft
        exact (hopening.does (operators_does hworks min _ _) rfl).does
          (rejectTarget_does _ _) rfl
      | false =>
        obtain ⟨left, mid, hreads, hfits, heq⟩ :=
          opening_sound hworks hsound hp hpool hfirst hleft
        obtain ⟨assignable, hafter, hend⟩ := hreads.after? n
        have htokens : t :: ts = left.tokens ++ mid := hreads.tokens_eq
        rw [heq] at herror ⊢
        rw [htokens]
        refine Fails.behind ?_ hafter rfl rfl
        cases hchain : (operators operand min (p.compiled left mid).tokensLeft
            (p.compiled left mid)).hadError with
        | true =>
          exact (operators_fails hworks hsound h hcalm hp min n _ left mid assignable hfits
            (htokens ▸ hlegible).of_append hchain).does (rejectTarget_does _ _)
            rfl
        | false =>
          obtain ⟨e, rest, hoperators, -, hresult⟩ :=
            operators_sound hworks hsound hp min _ left mid hfits (Nat.le_refl _) hchain
          obtain ⟨more, assignable', hmore, hgone, hlast⟩ := hoperators.after? n assignable hend
          have hwhole : left.tokens ++ mid = e.tokens ++ rest := hoperators.tokens_eq
          rw [hmore, List.append_assoc, List.append_cancel_left_eq] at hwhole
          have hreadable := (hwhole ▸ (htokens ▸ hlegible).of_append).of_append.readable
          rw [hresult] at herror ⊢
          rw [hwhole]
          have hfails := rejectTarget_fails (n := n) hcalm hreadable hlast herror
          exact hfails.behind hgone rfl rfl

end Operand

/-- Failing to compile an expression is due to a limit or to its first token that cannot
come next. -/
theorem parseLevel_fails (more nesting : Nat) : OperandFails (parseLevel more) nesting := by
  -- The statement is about the levels that are left, so the number of open expressions varies.
  induction more generalizing nesting with
  | zero =>
    intro min n p ts hcalm hat hlegible hp hpool herror
    exact (errorAt_blames hcalm.mode _ _).fails (.inl rfl)
  | succ more ih =>
    intro min n p ts hcalm hat hlegible hp hpool herror
    unfold parseLevel at herror ⊢
    by_cases hdeep : maxNesting ≤ p.nesting
    · rw [if_pos hdeep]
      exact (errorAt_blames hcalm.mode _ _).fails (.inl rfl)
    · rw [if_neg hdeep] at herror ⊢
      have hinner : ({ p with nesting := p.nesting + 1 } : Parser).nesting = nesting + 1 :=
        congrArg (· + 1) hp
      have hcalm' : ({ p with nesting := p.nesting + 1 } : Parser).Calm :=
        ⟨hcalm.mode, hcalm.hadError⟩
      have hfails := climb_fails (parseLevel_works more) (parseLevel_sound more (nesting + 1))
        (ih (nesting + 1)) n hcalm' hinner hat hlegible hpool herror
      have hnone : (Due.operand min.allowsAssignment n).after? [] = some _ := rfl
      exact Fails.does (hfails.behind (p := p) hnone rfl rfl) (Action.nest _ _).does rfl

/-- What is reported of an input that is not an expression: that a limit is reached, or
its first token that cannot come next. -/
theorem singleExpression_fails {p : Parser} {ts : List Token} (hcalm : p.Calm) (hat : p.At ts)
    (hlegible : Legible ts) (hpool : p.poolSize ≤ OpCode.operandCount)
    (herror : p.singleExpression.hadError = true) :
    Fails (.operand true 0) ts p p.singleExpression := by
  unfold singleExpression at herror ⊢
  refine Fails.does (q := p.expression.consume .eof .inputEndMissing) ?_ (emit_does _ _)
    rfl
  cases hinner : p.expression.hadError with
  | true =>
    exact (parseLevel_fails maxNesting _ _ 0 hcalm hat hlegible rfl hpool hinner).does
      (consume_does _ _ _) rfl
  | false =>
    obtain ⟨e, rest, hreads, -, heq⟩ := parseLevel_sound maxNesting _ hinner hat rfl hpool
    have hcompiled : p.expression = p.compiled e rest := heq
    obtain ⟨assignable, hafter, -⟩ := hreads.after? 0
    have htokens : ts = e.tokens ++ rest := hreads.tokens_eq
    have hstands := p.at_compiled e rest
    rw [hcompiled] at herror ⊢
    obtain ⟨hmore, hconsume⟩ :=
      hstands.consume_eq_errorAt (htokens ▸ hlegible).of_append.readable hcalm.hadError herror
    have hequal := hreads.stops.2 rfl
    have hnot : ¬ (Due.operator assignable 0).Allows (kindAhead rest) :=
      Due.not_allows_operator hreads.stops.binary?_eq_none (fun _ => hequal) (fun _ => rfl)
        (fun hend => absurd hend hmore)
    have hproblem : (Due.operator assignable 0).problem (kindAhead rest) = .inputEndMissing := by
      rw [Due.problem, if_neg hequal, if_neg (Nat.lt_irrefl 0)]
    rw [hconsume, htokens]
    exact (fails_ahead (q := p.compiled e rest) hstands hcalm.mode rfl hnot hproblem).behind hafter
      rfl rfl

end Parser

end OnePass
