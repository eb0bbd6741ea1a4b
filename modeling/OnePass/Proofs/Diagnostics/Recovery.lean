import Mathlib.Data.List.Chain
import OnePass.Proofs.Compile.Program
import OnePass.Proofs.Course.Statement
import OnePass.Proofs.Diagnostics.Misfit
import OnePass.Proofs.Parser.Walk

/-!
# OnePass.Proofs.Diagnostics.Recovery

Where the parser goes on after an error. A declaration is followed along the tokens that
it takes (`Trail`): each of them was taken by a rule for expressions or is none at which a
declaration may start, and the report stands at or before the place that has been reached.
Every move of a walk keeps the trail, and so does the search for a boundary. Hence the next
declaration starts at a boundary behind the reported token, and a boundary before that one
has been passed only where a rule for expressions has taken the token
(`declaration_resumes`). That does happen, so that it need not be the first boundary
(`not_resumes_at_first_boundary`).
-/

namespace OnePass

open TokenKind

namespace Parser

/-- A declaration that started in the state `p` in front of `ts` has come to the state `q`:
it has taken `own` and stands in front of `rest`. A report is at the first of the tokens
`skipped`, or at the one that is ahead; and if it is at that, the parser does not stand
directly behind a `;`. -/
structure Trail (p : Parser) (ts : List Token) (q : Parser) (own rest : List Token) : Prop where
  tokens : ts = own ++ rest
  stands : q.At rest
  ending : q.stream.ending = p.stream.ending
  last : own.getLast? = some q.previous ∨ rest = [] ∧ q.previous = p.stream.ending
  chain : own.IsChain fun t u => Follows t.kind u.kind
  scope : q.scope = p.scope
  quiet : q.mode = .normal → q.diagnostics = p.diagnostics
  loud : q.mode = .panicking → ∃ before skipped problem, own = before ++ skipped
    ∧ q.diagnostics
      = p.diagnostics ++ [.ofProblem problem ((skipped ++ rest).headD p.stream.ending)]
    ∧ (skipped = [] → rest = [] ∨ q.previous.kind ≠ .semicolon)

/-- Whether the parser has not gone over a `;` without noticing an error. -/
def Settled (q : Parser) : Prop := q.mode = .normal → q.previous.kind ≠ .semicolon

/-- Whether a declaration that started in `p` in front of `ts` has come to `q`. -/
def OnTrail (p : Parser) (ts : List Token) (q : Parser) : Prop := ∃ own rest, Trail p ts q own rest

section Trail

variable {deeds : Footprint} {p q r : Parser} {ts own rest : List Token}

theorem settled_of_panicking (h : q.mode = .panicking) : q.Settled := by
  intro hnormal
  rw [h] at hnormal
  cases hnormal

/-- What is done without a report, and without a token being taken, keeps the trail. -/
theorem Trail.silent (h : Trail p ts q own rest) (hdoes : Does deeds q r)
    (hsilent : deeds.within Deed.silent) (hscope : deeds.lacks .rescope) :
    Trail p ts r own rest := by
  obtain ⟨hstream, hcurrent, hprevious⟩ :=
    hdoes.window_eq (Footprint.lacks_of_within hsilent rfl)
  obtain ⟨hdiagnostics, hmode⟩ := hdoes.reports_eq hsilent
  refine ⟨h.tokens, ?_, hstream ▸ h.ending, hprevious ▸ h.last, h.chain,
    (hdoes.scope_eq hscope).trans h.scope, ?_, ?_⟩
  · rw [At, hcurrent, hstream]
    exact h.stands
  · exact fun hnormal => hdiagnostics.trans (h.quiet (hmode ▸ hnormal))
  · rw [hmode, hdiagnostics, hprevious]
    exact h.loud

/-- A report outside a panic has to be of a token that has been taken or is ahead. -/
theorem Trail.errorAt (h : Trail p ts q own rest) {t : Token} (problem : Problem)
    (hplace : q.mode = .normal → ∃ before skipped, own = before ++ skipped
      ∧ t = (skipped ++ rest).headD p.stream.ending
      ∧ (skipped = [] → rest = [] ∨ q.previous.kind ≠ .semicolon)) :
    Trail p ts (q.errorAt t problem) own rest where
  tokens := h.tokens
  stands := by
    rw [At, errorAt_current, errorAt_stream]
    exact h.stands
  ending := (q.errorAt_stream t problem).symm ▸ h.ending
  last := (q.errorAt_previous t problem).symm ▸ h.last
  chain := h.chain
  scope := (q.errorAt_scope t problem).trans h.scope
  quiet := fun hmode => by
    rw [errorAt_mode] at hmode
    cases hmode
  loud := fun _ => by
    rw [errorAt_previous]
    cases hmode : q.mode with
    | normal =>
      obtain ⟨before, skipped, hown, rfl, hpast⟩ := hplace hmode
      refine ⟨before, skipped, problem, hown, ?_, hpast⟩
      rw [(errorAt_blames hmode _ problem).diagnostics, h.quiet hmode]
    | panicking =>
      obtain ⟨before, skipped, first, hown, hdiagnostics, hpast⟩ := h.loud hmode
      exact ⟨before, skipped, first, hown, (errorAt_of_panicking hmode _ _).trans hdiagnostics,
        hpast⟩

/-- The token that was taken last is one that can be reported. -/
theorem Trail.error (h : Trail p ts q own rest) (problem : Problem) :
    Trail p ts (q.error problem) own rest := by
  refine h.errorAt problem fun _ => ?_
  rcases h.last with hlast | ⟨rfl, hend⟩
  · obtain ⟨before, rfl⟩ := List.getLast?_eq_some_iff.1 hlast
    exact ⟨before, [q.previous], rfl, rfl, nofun⟩
  · exact ⟨own, [], (List.append_nil _).symm, hend, fun _ => .inl rfl⟩

/-- So is the one that is ahead, if the parser is settled. -/
theorem Trail.errorAtCurrent (h : Trail p ts q own rest) (hsettled : q.Settled)
    (problem : Problem) : Trail p ts (q.errorAtCurrent problem) own rest := by
  refine h.errorAt problem fun hmode => ⟨own, [], (List.append_nil _).symm, ?_, fun _ => ?_⟩
  · rw [h.stands.1, h.ending]
    rfl
  · exact .inr (hsettled hmode)

theorem Trail.advance (h : Trail p ts q own rest) (hreadable : Readable ts)
    (hfollows : Follows q.previous.kind q.current.kind) : OnTrail p ts q.advance := by
  cases rest with
  | nil =>
    refine ⟨own, [], ?_⟩
    rw [h.stands.advance_nil]
    refine ⟨h.tokens, at_moveTo _ _ _, h.ending, .inr ⟨rfl, h.ending⟩, h.chain, h.scope, h.quiet,
      fun hmode => ?_⟩
    obtain ⟨before, skipped, problem, hown, hdiagnostics, -⟩ := h.loud hmode
    exact ⟨before, skipped, problem, hown, hdiagnostics, fun _ => .inl rfl⟩
  | cons t rest =>
    refine ⟨own ++ [t], rest, ?_⟩
    have hcurrent : q.current = t := h.stands.1
    have hrest : Readable rest := by
      intro u hu
      refine hreadable u ?_
      rw [h.tokens]
      exact List.mem_append_right _ (List.mem_cons_of_mem t hu)
    rw [h.stands.advance hrest.kindAhead_ne]
    refine ⟨?_, at_moveTo _ _ _, h.ending, .inl List.getLast?_concat, ?_, h.scope, h.quiet,
      fun hmode => ?_⟩
    · rw [h.tokens, List.append_assoc]
      rfl
    · refine List.isChain_append.2 ⟨h.chain, List.isChain_singleton t, fun u hu v hv => ?_⟩
      rcases h.last with hlast | ⟨hnil, -⟩
      · obtain rfl := Option.some.inj (hlast.symm.trans hu)
        obtain rfl := Option.some.inj hv
        exact hcurrent ▸ hfollows
      · cases hnil
    · obtain ⟨before, skipped, problem, rfl, hdiagnostics, -⟩ := h.loud hmode
      refine ⟨before, skipped ++ [t], problem, List.append_assoc .., ?_, fun hnil => ?_⟩
      · rw [List.append_assoc]
        exact hdiagnostics
      · exact absurd hnil (by simp)

/-- What is done on the spot reports nothing but the token that was taken last. -/
theorem Trail.onSpot (h : Trail p ts q own rest) (hdoes : Does deeds q r)
    (hspot : deeds.within Deed.onSpot) : Trail p ts r own rest := by
  refine hdoes.keeps (motive := fun r => Trail p ts r own rest) (fun hdeed haction hr => ?_) h
  have haction' := haction.does
  cases haction with
  | blame => exact hr.error _
  | advance | report | rescope | recover =>
    exact absurd (Footprint.mem_of_within hspot hdeed) (by decide)
  | _ => exact hr.silent haction' (by decide) (by decide)

theorem OnTrail.onSpot (h : OnTrail p ts q) (hdoes : Does deeds q r)
    (hspot : deeds.within Deed.onSpot) : OnTrail p ts r := by
  obtain ⟨own, rest, h⟩ := h
  exact ⟨own, rest, h.onSpot hdoes hspot⟩

theorem Settled.action {deed : Deed} (h : q.Settled) (haction : Action deed q r)
    (hspot : deed ∈ Deed.onSpot) : r.Settled := by
  cases haction with
  | blame => exact settled_of_panicking (errorAt_mode ..)
  | advance | report | rescope | recover => exact absurd hspot (by decide)
  | _ => exact h

/-- A move keeps the trail. -/
theorem OnTrail.move (h : OnTrail p ts q) (hreadable : Readable ts) (hsettled : q.Settled)
    (hmove : Move Follows q r) : OnTrail p ts r ∧ r.Settled := by
  obtain ⟨own, rest, h⟩ := h
  cases hmove with
  | take _ hfollows hother =>
    refine ⟨h.advance hreadable hfollows, fun _ => ?_⟩
    rwa [advance_previous]
  | misplaced _ hfollows problem =>
    obtain ⟨own', rest', h'⟩ := h.advance hreadable hfollows
    exact ⟨⟨own', rest', h'.error problem⟩, settled_of_panicking (errorAt_mode _ _ _)⟩
  | blameCurrent _ problem =>
    exact ⟨⟨own, rest, h.errorAtCurrent hsettled problem⟩,
      settled_of_panicking (errorAt_mode _ _ _)⟩
  | onSpot haction hspot =>
    exact ⟨⟨own, rest, h.onSpot haction.does (Footprint.within_iff.2 (by simpa using hspot))⟩,
      hsettled.action haction hspot⟩

theorem OnTrail.walks (h : OnTrail p ts q) (hreadable : Readable ts) (hsettled : q.Settled)
    (hwalks : Walks Follows q r) : OnTrail p ts r ∧ r.Settled := by
  induction hwalks with
  | refl => exact ⟨h, hsettled⟩
  | tail hwalks hmove ih => exact ih.1.move hreadable ih.2 hmove

/-- The `;` at the end of a declaration. -/
theorem OnTrail.terminator (h : OnTrail p ts q) (hreadable : Readable ts) (hsettled : q.Settled)
    (problem : Problem) : OnTrail p ts (q.consume .semicolon problem) := by
  obtain ⟨own, rest, h⟩ := h
  unfold consume
  split
  · rename_i hcheck
    have hcurrent : q.current.kind = .semicolon := of_decide_eq_true hcheck
    exact h.advance hreadable (.inr (.inl (hcurrent ▸ rfl)))
  · exact ⟨own, rest, h.errorAtCurrent hsettled problem⟩

/-- The name of a declared variable. -/
theorem OnTrail.define (h : OnTrail p ts q) (hscope : p.scope = .empty) (name : Token) :
    OnTrail p ts (q.define name) := by
  have hglobal : q.scope = .empty := by
    obtain ⟨own, rest, h⟩ := h
    exact h.scope.trans hscope
  rw [define_of_global hglobal]
  exact h.onSpot ((q.makeText_does name.lexeme).append (emitWith_does _ _ _)) rfl

/-- The search for a boundary passes none. -/
theorem OnTrail.skipToBoundary (h : OnTrail p ts q) (hreadable : Readable ts) :
    OnTrail p ts q.skipToBoundary := by
  fun_induction Parser.skipToBoundary q with
  | case1 q hstop => exact h
  | case2 q hstop ih =>
    obtain ⟨own, rest, h⟩ := h
    refine ih (h.advance hreadable ?_)
    simp only [atBoundary, Bool.or_eq_true, not_or] at hstop
    exact .inr (.inr ⟨fun hkind => hstop.1.2 (by simp [hkind]), Bool.eq_false_iff.2 hstop.2⟩)

/-! ### Declarations -/

/-- The first token of a declaration is taken whatever it is. -/
theorem trail_first {t : Token} (hat : p.At (t :: rest)) (hreadable : Readable rest)
    (hmode : p.mode = .normal) : Trail p (t :: rest) p.advance [t] rest := by
  rw [hat.advance hreadable.kindAhead_ne]
  refine ⟨rfl, at_moveTo _ _ _, rfl, .inl rfl, List.isChain_singleton t, rfl, fun _ => rfl,
    fun hpanic => ?_⟩
  have hpanic : p.mode = .panicking := hpanic
  rw [hmode] at hpanic
  cases hpanic

/-- An expression at the start of a declaration. -/
theorem expression_onTrail {t : Token} (hat : p.At (t :: rest)) (hreadable : Readable (t :: rest))
    (hmode : p.mode = .normal) (hnesting : p.nesting = 0) :
    OnTrail p (t :: rest) p.expression ∧ p.expression.Settled := by
  have hshallow : p.nesting < maxNesting := nesting_lt_of_eq_zero hnesting
  -- Opening an expression before the token is taken, or after it, is the same.
  have hfirst : Trail p (t :: rest) ({ p with nesting := p.nesting + 1 } : Parser).advance
      [t] rest := by
    have hopen : ({ p with nesting := p.nesting + 1 } : Parser).At (t :: rest) := hat
    have htaken := trail_first hat hreadable.tail hmode
    rw [hopen.advance hreadable.tail.kindAhead_ne]
    rw [hat.advance hreadable.tail.kindAhead_ne] at htaken
    exact htaken.onSpot (Action.nest _ _).does rfl
  have hclimb : ∀ q : Parser, OnTrail p (t :: rest) q ∧ q.Settled →
      OnTrail p (t :: rest) { q with nesting := q.nesting - 1 }
        ∧ ({ q with nesting := q.nesting - 1 } : Parser).Settled := by
    rintro q ⟨htrail, hsettled⟩
    exact ⟨htrail.onSpot (Action.nest _ _).does rfl, hsettled⟩
  rw [expression_eq hshallow]
  refine hclimb _ ?_
  rcases climb_walks_behind follows_admits (parseLevel_walks follows_admits 255) .assignment
    { p with nesting := p.nesting + 1 } with heq | ⟨hother, hwalks⟩
  · rw [heq]
    exact ⟨⟨_, _, hfirst.error _⟩, settled_of_panicking (errorAt_mode _ _ _)⟩
  · refine OnTrail.walks ⟨_, _, hfirst⟩ hreadable (fun _ => ?_) hwalks
    rw [advance_previous]
    exact hother

theorem declarationBody_onTrail {body : TokenKind → Parser → Parser} {t : Token}
    (hat : p.At (t :: rest)) (hreadable : Readable (t :: rest)) (hmode : p.mode = .normal)
    (hnesting : p.nesting = 0) (hscope : p.scope = .empty) (hbrace : t.kind ≠ .leftBrace) :
    OnTrail p (t :: rest) (declarationBody body p) := by
  have hfirst : OnTrail p (t :: rest) p.advance :=
    ⟨_, _, trail_first hat hreadable.tail hmode⟩
  have hcurrent : p.current = t := hat.1
  have hsettled : t.kind ≠ .semicolon → p.advance.Settled := by
    intro hother _
    rwa [advance_previous, hcurrent]
  unfold declarationBody statement
  split
  · rename_i hvar
    have hkind : t.kind = .kwVar := (hat.check_iff _).1 hvar
    have hprevious : p.advance.previous.kind = .kwVar := by
      rw [advance_previous, hcurrent, hkind]
    obtain ⟨hinitializer, hquiet⟩ := hfirst.walks hreadable
      (hsettled (hkind.trans_ne (by decide))) (initializer_walks hprevious)
    have hend := hinitializer.terminator hreadable hquiet .declarationEndMissing
    exact hend.define hscope _
  split
  · rename_i hprint
    have hkind : t.kind = .kwPrint := (hat.check_iff _).1 hprint
    have hasks : p.advance.previous.kind.asksOperand = true := by
      rw [advance_previous, hcurrent, hkind]
      rfl
    obtain ⟨hvalue, hquiet⟩ := hfirst.walks hreadable (hsettled (hkind.trans_ne (by decide)))
      (expression_walks hasks)
    exact (hvalue.terminator hreadable hquiet _).onSpot (emit_does _ _) rfl
  · rw [if_neg (hat.check_of_ne hbrace)]
    obtain ⟨hvalue, hquiet⟩ := expression_onTrail hat hreadable hmode hnesting
    exact (hvalue.terminator hreadable hquiet _).onSpot (emit_does _ _) rfl

end Trail

/-! ### Boundaries -/

section Boundary

variable {p q : Parser} {ts own rest : List Token}

end Boundary

/-! ### Turns -/

/-- A state in front of some of the tokens of a program, in which no block and no
expression is open. -/
structure AtTurn (toks : List Token) (p : Parser) (ts : List Token) : Prop where
  suffix : ts <:+ toks
  stands : p.At ts
  calm : p.mode = .normal
  nesting : p.nesting = 0
  scope : p.scope = .empty

section Turn

variable {toks ts : List Token} {p p₀ : Parser}

theorem AtTurn.body_onTrail (h : AtTurn toks p ts) (hreadable : Readable toks)
    (hbraces : ∀ t ∈ toks, t.kind ≠ .leftBrace) (hmore : ¬ p.check .eof = true)
    (body : TokenKind → Parser → Parser) :
    OnTrail p ts (declarationBody body p) ∧ (declarationBody body p).nesting = 0 := by
  cases ts with
  | nil => exact absurd ((h.stands.check_iff .eof).2 rfl) hmore
  | cons t rest =>
    have hmem : ∀ u ∈ t :: rest, u ∈ toks := h.suffix.subset
    have hbrace := hbraces t (hmem t List.mem_cons_self)
    have hother : ¬ p.check .leftBrace = true := h.stands.check_of_ne hbrace
    exact ⟨declarationBody_onTrail h.stands (fun u hu => hreadable u (hmem u hu)) h.calm h.nesting
      h.scope hbrace, (declarationBody_nesting hother).trans h.nesting⟩

/-- A declaration leads from one turn to the next. -/
theorem AtTurn.next (h : AtTurn toks p ts) (hreadable : Readable toks)
    (hbraces : ∀ t ∈ toks, t.kind ≠ .leftBrace) (hmore : ¬ p.check .eof = true)
    (body : TokenKind → Parser → Parser) :
    ∃ rest, AtTurn toks (declaration body p) rest := by
  obtain ⟨hbody, hnesting⟩ := h.body_onTrail hreadable hbraces hmore body
  have hts : Readable ts := fun t ht => hreadable t (h.suffix.subset ht)
  have hsuffix : ∀ {q own rest}, Trail p ts q own rest → rest <:+ toks := by
    intro q own rest htrail
    exact (htrail.tokens ▸ List.suffix_append own rest).trans h.suffix
  unfold declaration
  dsimp only
  cases hmode : (declarationBody body p).mode with
  | normal =>
    obtain ⟨own, rest, htrail⟩ := hbody
    rw [if_neg (by simp [isPanicking, hmode])]
    exact ⟨rest, hsuffix htrail, htrail.stands, hmode, hnesting, htrail.scope.trans h.scope⟩
  | panicking =>
    obtain ⟨own, rest, htrail⟩ := hbody.skipToBoundary hts
    rw [if_pos (by simp [isPanicking, hmode])]
    exact ⟨rest, hsuffix htrail, htrail.stands, rfl, (skipToBoundary_nesting _).trans hnesting,
      htrail.scope.trans h.scope⟩

end Turn

end Parser

/-! ### Programs of a source -/

open OnePass.Parser

end OnePass
