import OnePass.Proofs.Parser.Compiled

/-!
# OnePass.Proofs.Parser.Expression

What the parser does with expressions. If compiling one leads to no error, then the
tokens taken are those of a tree, there was room for it, and exactly its reference
translation has been written (`parseLevel_sound`). Conversely a tree for which there
is room is compiled without an error (`parseLevel_complete`). Both are by induction on
the levels of nesting that are left, with `Reads` between the parser and the grammar.

The parser is not compared with the grammar itself, whose left-recursive chains it does not
follow. Each function of the parser is compared with the rule of `Reads` that does the same turn,
and that `Reads` and the grammar agree is a matter of token lists alone. The left operand of a
chain is compiled before it is known how the chain goes on, so that the room for it has to be told
from the room for the whole (`Reads.fits_left`).
-/

namespace OnePass.Parser

/-! ### No error, then a tree -/

/-- If `operand` compiles without an error in a state with `nesting` open expressions,
then it has compiled a phrase, of `levels` of nesting at most. -/
def OperandSound (operand : Precedence → Parser → Parser) (nesting levels : Nat) : Prop :=
  ∀ {min : Precedence} {p : Parser} {ts : List Token}, (operand min p).hadError = false →
    p.At ts → p.nesting = nesting → p.poolSize ≤ OpCode.operandCount →
    ∃ e rest, Reads (.phrase min) ts e rest ∧ p.Fits levels e ∧ operand min p = p.compiled e rest

section Sound

variable {operand : Precedence → Parser → Parser} {nesting levels : Nat}

/-- A name that is read, or that is assigned to where that is allowed. -/
theorem variableUse_sound (hworks : OperandWorks operand)
    (h : OperandSound operand nesting levels) {p : Parser} {t : Token} {ts : List Token}
    {canAssign : Bool} (hp : p.nesting = nesting) (hpool : p.poolSize ≤ OpCode.operandCount)
    (hkind : t.kind = .identifier)
    (herror : (variableUse operand canAssign (p.moveTo t ts)).hadError = false) :
    ∃ e rest, Reads (.opening canAssign) (t :: ts) e rest ∧ p.Fits (levels + 1) e
      ∧ variableUse operand canAssign (p.moveTo t ts) = p.compiled e rest := by
  -- A look-up that found no room would have been an error.
  have hroom : p.poolSize + (t.constant? p.slots).toList.length ≤ OpCode.operandCount := by
    have huse := place_walks_variableUse anything_admits hworks canAssign (p.moveTo t ts)
    exact room_of_place (p := p.moveTo t ts) hkind hpool (huse.does.no_error herror)
  obtain ⟨place, hplace, hget, hset⟩ := p.exists_place_compiled hkind hroom ts
  have hprevious : (p.moveTo t ts).previous = t := rfl
  have hat : ((p.moveTo t ts).write [] (t.constant? p.slots).toList).At ts :=
    at_write_moveTo ..
  unfold variableUse at herror ⊢
  rw [hprevious, hplace] at herror ⊢
  dsimp only at herror ⊢
  by_cases hassign : (canAssign && ((p.moveTo t ts).write []
      (t.constant? p.slots).toList).check .equal) = true
  · rw [if_pos hassign] at herror ⊢
    obtain ⟨rfl, hequal⟩ := (Bool.and_eq_true _ _).mp hassign
    obtain ⟨equal, ts, rfl, hahead⟩ := hat.of_check (by decide) hequal
    have hoperand := (emitSet_does place _).no_error herror
    have hadvance := hat.advance_of_no_error ((hworks.does _ _).no_error hoperand)
    rw [hadvance] at hoperand ⊢
    have hpool' : (((p.moveTo t (equal :: ts)).write [] (t.constant? p.slots).toList).moveTo
        equal ts).poolSize = p.poolSize + (t.constant? p.slots).toList.length := poolSize_write ..
    obtain ⟨value, rest, hreads, hfits, heq⟩ :=
      h hoperand (at_moveTo _ _ _) hp (hpool' ▸ hroom)
    refine ⟨.assign t equal value, rest, .assign hkind hahead hreads, ?_, ?_⟩
    · rw [Fits, hpool'] at hfits
      exact (Expr.fits_assign_iff hkind hahead).2 hfits
    · rw [heq, hset]
  · rw [if_neg hassign]
    refine ⟨.atom t, ts, .name hkind fun hcan hequal => hassign ?_, ?_, hget⟩
    · rw [hcan, Bool.true_and]
      exact (hat.check_iff .equal).2 hequal
    · refine Expr.fits_atom_iff.2 ⟨hroom, fun hnumber => ?_⟩
      rw [hkind] at hnumber
      cases hnumber

/-- What opens an expression, one case for each kind of opening. -/
theorem opening_sound (hworks : OperandWorks operand)
    (h : OperandSound operand nesting levels) {p : Parser} {t : Token} {ts : List Token}
    {canAssign : Bool} {first : Opening} (hp : p.nesting = nesting)
    (hpool : p.poolSize ≤ OpCode.operandCount) (hfirst : t.kind.opening? = some first)
    (herror : (opening operand canAssign (p.moveTo t ts) first).hadError = false) :
    ∃ e rest, Reads (.opening canAssign) (t :: ts) e rest ∧ p.Fits (levels + 1) e
      ∧ opening operand canAssign (p.moveTo t ts) first = p.compiled e rest := by
  cases first with
  | group =>
    have hkind := kind_of_group hfirst
    have hoperand := (consume_does _ _ _).no_error herror
    obtain ⟨inner, mid, hreads, hfits, heq⟩ := h hoperand (at_moveTo _ _ _) hp hpool
    simp only [opening, heq] at herror ⊢
    obtain ⟨closing, rest, rfl, hclosing, hconsume⟩ :=
      (at_compiled _ inner mid).of_consume (by decide) herror
    refine ⟨.group t inner closing, rest, .group hkind hreads hclosing, ?_, hconsume⟩
    exact (Expr.fits_group_iff hkind hclosing).2 hfits
  | unary op =>
    have hkind := kind_of_unary hfirst
    have hoperand := (emit_does _ _).no_error herror
    obtain ⟨e, rest, hreads, hfits, heq⟩ := h hoperand (at_moveTo _ _ _) hp hpool
    refine ⟨.unary t e, rest, .unary hkind hreads, (Expr.fits_unary_iff hkind).2 hfits, ?_⟩
    simp only [opening, heq]
    exact p.compiled_unary hfirst e ts rest
  -- A word loads no constant, so that the room is the one that was there.
  | word literal =>
    obtain ⟨hkind, hconstant, -, hnumber⟩ := load_of_word hfirst p.slots p.poolSize
    refine ⟨.atom t, ts, .literal hkind, Expr.fits_atom_iff.2 ⟨?_, ?_⟩, p.compiled_word hfirst ts⟩
    · rw [hconstant]
      exact hpool
    · exact fun hkind => absurd hkind hnumber
  -- A number that cannot be read and a pool that is full would both have been errors.
  | number =>
    have hkind := kind_of_number hfirst
    cases hx : t.number? with
    | none =>
      have hvalue : (p.moveTo t ts).previous.number? = none := hx
      simp only [opening, number, hvalue, error, errorAt_hadError] at herror
      cases herror
    | some x =>
      have hvalue : (p.moveTo t ts).previous.number? = some x := hx
      simp only [opening, number, hvalue] at herror
      have hroom := poolSize_lt_of_makeConstant ((emitWith_does _ _ _).no_error herror)
      refine ⟨.atom t, ts, .literal (by simp [hkind]), Expr.fits_atom_iff.2 ⟨?_, ?_⟩,
        p.compiled_number hkind hx hroom ts⟩
      · simpa [Token.constant?, hkind, hx] using Nat.succ_le_of_lt hroom
      · simp [hx]
  | string =>
    have hkind := kind_of_string hfirst
    have hroom := poolSize_lt_of_makeText ((emitWith_does _ _ _).no_error herror)
    refine ⟨.atom t, ts, .literal (by simp [hkind]), Expr.fits_atom_iff.2 ⟨?_, ?_⟩,
      p.compiled_string hkind hroom ts⟩
    · simpa [Token.constant?, hkind] using Nat.succ_le_of_lt hroom
    · simp [hkind]
  | «variable» => exact variableUse_sound hworks h hp hpool (kind_of_variable hfirst) herror

/-- A chain that stops where the parser stands. -/
theorem stop_of_current {p : Parser} {ts : List Token} {min : Precedence} (hat : p.At ts)
    (h : ∀ o, p.current.kind.binary? = some o → o.precedence < min) (e : Expr) :
    Reads (.chain min e) ts e ts :=
  .stop (hat.current_kind ▸ h)

/-- An operator is taken with its operand, so that less is left for what is behind it. -/
theorem tokensLeft_binary_le {p : Parser} {left right : Expr} {op : Token} {o : BinaryOp}
    {min : Precedence} {ts rest : List Token} {fuel : Nat} (hop : op.kind.binary? = some o)
    (hreads : Reads (.phrase min) ts right rest)
    (hfuel : (p.compiled left (op :: ts)).tokensLeft ≤ fuel + 1) :
    (p.compiled (.binary left op right) rest).tokensLeft ≤ fuel := by
  have hcount := congrArg List.length hreads.tokens_eq
  have hrest := (p.at_compiled (.binary left op right) rest).tokensLeft_le
  have hkind : op.kind ≠ .eof := by
    intro hkind
    rw [hkind] at hop
    cases hop
  rw [(p.at_compiled left (op :: ts)).tokensLeft_cons hkind] at hfuel
  simp only [Task.before, List.nil_append, List.length_append] at hcount
  omega

/-- The operators behind a compiled expression `left`. -/
theorem operators_sound (hworks : OperandWorks operand)
    (h : OperandSound operand nesting levels) {p : Parser} (hp : p.nesting = nesting)
    (min : Precedence) (fuel : Nat) :
    ∀ (left : Expr) (ts : List Token), p.Fits (levels + 1) left →
      (p.compiled left ts).tokensLeft ≤ fuel →
      (operators operand min fuel (p.compiled left ts)).hadError = false →
      ∃ e rest, Reads (.chain min left) ts e rest ∧ p.Fits (levels + 1) e
        ∧ operators operand min fuel (p.compiled left ts) = p.compiled e rest := by
  -- By induction on the fuel, for every `left`: each turn makes the left operand longer.
  induction fuel with
  | zero =>
    intro left ts hleft hfuel herror
    have hat := p.at_compiled left ts
    refine ⟨left, ts, stop_of_current hat (fun o ho => ?_) left, hleft, rfl⟩
    rw [current_kind_of_tokensLeft (Nat.le_zero.1 hfuel)] at ho
    cases ho
  | succ fuel ih =>
    intro left ts hleft hfuel herror
    have hat := p.at_compiled left ts
    unfold operators at herror ⊢
    cases hop : (p.compiled left ts).current.kind.binary? with
    | none => exact ⟨left, ts, stop_of_current hat (by simp [hop]) left, hleft, rfl⟩
    | some o =>
      simp only [hop] at herror ⊢
      by_cases hlt : o.precedence < min
      · rw [if_pos hlt]
        refine ⟨left, ts, stop_of_current hat (fun o' ho' => ?_) left, hleft, rfl⟩
        obtain rfl := Option.some.inj (hop.symm.trans ho')
        exact hlt
      rw [if_neg hlt] at herror ⊢
      rw [hat.current_kind] at hop
      cases ts with
      | nil => cases hop
      | cons op ts =>
        rw [kindAhead_cons] at hop
        -- An error would have lasted until the end, so that there is none at any turn before.
        have hemit := (operators_walks anything_admits hworks min fuel _).does.no_error herror
        have hoperand := (emitAll_does _ _).no_error hemit
        have hadvance := hat.advance_of_no_error ((hworks.does _ _).no_error hoperand)
        rw [hadvance] at herror hoperand ⊢
        have hpool : ((p.compiled left (op :: ts)).moveTo op ts).poolSize
            ≤ OpCode.operandCount := by
          rw [poolSize_moveTo, poolSize_compiled]
          exact hleft.pool
        obtain ⟨right, mid, hreads, hright, heq⟩ := h hoperand (at_moveTo _ _ _) hp hpool
        rw [heq, p.compiled_binary hop left right ts mid] at herror ⊢
        rw [Fits, poolSize_moveTo, poolSize_compiled] at hright
        have hfits := (Expr.fits_binary_iff hop).2 ⟨hleft, hright⟩
        have htokens := tokensLeft_binary_le hop hreads hfuel
        obtain ⟨e, rest, hchain, hwhole, hresult⟩ := ih _ mid hfits htokens herror
        exact ⟨e, rest, .extend hop (Nat.le_of_not_lt hlt) hreads hchain, hwhole, hresult⟩

theorem climb_sound (hworks : OperandWorks operand)
    (h : OperandSound operand nesting levels) {p : Parser} {min : Precedence} {ts : List Token}
    (hp : p.nesting = nesting) (hat : p.At ts) (hpool : p.poolSize ≤ OpCode.operandCount)
    (herror : (climb operand min p).hadError = false) :
    ∃ e rest, Reads (.phrase min) ts e rest ∧ p.Fits (levels + 1) e
      ∧ climb operand min p = p.compiled e rest := by
  unfold climb at herror ⊢
  dsimp only at herror ⊢
  cases hfirst : p.advance.previous.kind.opening? with
  | none =>
    simp only [hfirst, error, errorAt_hadError] at herror
    cases herror
  | some first =>
    simp only [hfirst] at herror ⊢
    have hopens := opening_walks anything_admits hworks min.allowsAssignment hfirst
    rw [advance_previous, hat.current_kind] at hfirst
    cases ts with
    | nil => cases hfirst
    | cons t ts =>
      rw [kindAhead_cons] at hfirst
      -- No error at the end, so none behind the opening and none when it was taken.
      have hchain := (rejectTarget_does _ _).no_error herror
      have hopening := (operators_walks anything_admits hworks _ _ _).does.no_error hchain
      have hadvance := hat.advance_of_no_error (hopens.does.no_error hopening)
      rw [hadvance] at herror hchain hopening ⊢
      obtain ⟨left, mid, hreads, hleft, heq⟩ := opening_sound hworks h hp hpool hfirst hopening
      rw [heq] at herror hchain ⊢
      obtain ⟨e, rest, hoperators, hfits, hresult⟩ :=
        operators_sound hworks h hp min _ left mid hleft (Nat.le_refl _) hchain
      rw [hresult] at herror ⊢
      unfold rejectTarget at herror ⊢
      by_cases hreject : (min.allowsAssignment && (p.compiled e rest).check .equal) = true
      · rw [if_pos hreject, error, errorAt_hadError] at herror
        cases herror
      · rw [if_neg hreject]
        refine ⟨e, rest, .phrase hreads hoperators fun hassign hequal => hreject ?_, hfits, rfl⟩
        rw [hassign, Bool.true_and]
        exact ((p.at_compiled e rest).check_iff .equal).2 hequal

end Sound

/-- How many levels of nesting an expression can have in a state with `nesting` open
expressions, if `more` are still allowed. -/
def room (more nesting : Nat) : Nat := min more (maxNesting - nesting)

/-- An expression that is compiled without an error is a phrase for which there was room,
and its reference translation has been written. -/
theorem parseLevel_sound (more nesting : Nat) :
    OperandSound (parseLevel more) nesting (room more nesting) := by
  induction more generalizing nesting with
  | zero =>
    intro min p ts herror hat hp hpool
    rw [parseLevel, error, errorAt_hadError] at herror
    cases herror
  | succ more ih =>
    intro min p ts herror hat hp hpool
    unfold parseLevel at herror ⊢
    by_cases hdeep : maxNesting ≤ p.nesting
    · rw [if_pos hdeep, error, errorAt_hadError] at herror
      cases herror
    · rw [if_neg hdeep] at herror ⊢
      have hinner : ({ p with nesting := p.nesting + 1 } : Parser).nesting = nesting + 1 :=
        congrArg (· + 1) hp
      obtain ⟨e, rest, hreads, hfits, heq⟩ :=
        climb_sound (parseLevel_works more) (ih (nesting + 1)) hinner hat hpool herror
      -- The climb gives a level away and opens one expression, so that the room stays.
      have hroom : room more (nesting + 1) + 1 = room (more + 1) nesting := by
        unfold room
        omega
      refine ⟨e, rest, hreads, hroom ▸ hfits, ?_⟩
      rw [heq]
      rfl

/-! ### A tree, then no error -/

/-- Whether no token is an error. -/
def Readable (ts : List Token) : Prop := ∀ t ∈ ts, t.kind ≠ .error

theorem Readable.tail {t : Token} {ts : List Token} (h : Readable (t :: ts)) : Readable ts := by
  intro u hu
  exact h u (List.mem_cons_of_mem t hu)

theorem Readable.kindAhead_ne {ts : List Token} (h : Readable ts) : kindAhead ts ≠ .error := by
  cases ts with
  | nil => simp
  | cons t ts => exact h t List.mem_cons_self

/-- What reading leaves of readable tokens is readable. -/
theorem Readable.of_reads {min : Precedence} {ts rest : List Token} {e : Expr}
    (h : Readable ts) (hreads : Reads (.phrase min) ts e rest) : Readable rest := by
  have htokens : ts = e.tokens ++ rest := hreads.tokens_eq
  intro t ht
  refine h t ?_
  rw [htokens]
  exact List.mem_append_right _ ht

/-- Whatever is current is taken if no error token is ahead; at the end it stays. -/
theorem At.advance_eq {p : Parser} {ts : List Token} (h : p.At ts) (hreadable : Readable ts) :
    p.advance = p.moveTo p.current ts.tail := by
  cases ts with
  | nil =>
    have hcurrent : p.current = p.stream.ending := h.1
    rw [h.advance_nil, hcurrent]
    rfl
  | cons t rest =>
    have hcurrent : p.current = t := h.1
    rw [h.advance hreadable.tail.kindAhead_ne, hcurrent]
    rfl

/-- In a state with `nesting` open expressions, `operand` compiles every phrase of
`levels` of nesting at most. -/
def OperandComplete (operand : Precedence → Parser → Parser) (nesting levels : Nat) : Prop :=
  ∀ {min : Precedence} {p : Parser} {ts rest : List Token} {e : Expr},
    Reads (.phrase min) ts e rest → p.Fits levels e → p.At ts → Readable ts →
    p.nesting = nesting → operand min p = p.compiled e rest

section Complete

variable {operand : Precedence → Parser → Parser} {nesting levels : Nat}

theorem variableUse_complete (h : OperandComplete operand nesting levels) {p : Parser}
    {t : Token} {ts rest : List Token} {canAssign : Bool} {e : Expr} (hp : p.nesting = nesting)
    (hkind : t.kind = .identifier) (hreads : Reads (.opening canAssign) (t :: ts) e rest)
    (hreadable : Readable ts) (hfits : p.Fits (levels + 1) e) :
    variableUse operand canAssign (p.moveTo t ts) = p.compiled e rest := by
  have hprevious : (p.moveTo t ts).previous = t := rfl
  have hat : ((p.moveTo t ts).write [] (t.constant? p.slots).toList).At ts :=
    at_write_moveTo ..
  unfold variableUse
  rw [hprevious]
  cases hreads with
  | literal h => simp [hkind] at h
  | name _ hstay =>
    obtain ⟨place, hplace, hget, -⟩ :=
      p.exists_place_compiled hkind (Expr.fits_atom_iff.1 hfits).1 ts
    rw [hplace]
    dsimp only
    rw [if_neg, hget]
    intro hassign
    obtain ⟨hcan, hequal⟩ := (Bool.and_eq_true _ _).mp hassign
    exact hstay hcan ((hat.check_iff .equal).1 hequal)
  | @assign _ equal ts value _ _ hequal hvalue =>
    have hinner := (Expr.fits_assign_iff hkind hequal).1 hfits
    have hroom : p.poolSize + (t.constant? p.slots).toList.length ≤ OpCode.operandCount :=
      Nat.le_trans (Nat.le_add_right _ _) hinner.pool
    obtain ⟨place, hplace, -, hset⟩ := p.exists_place_compiled hkind hroom (equal :: ts)
    rw [hplace]
    dsimp only
    rw [Bool.true_and, if_pos ((hat.check_iff .equal).2 hequal),
      hat.advance hreadable.tail.kindAhead_ne]
    have hpool : (((p.moveTo t (equal :: ts)).write [] (t.constant? p.slots).toList).moveTo
        equal ts).poolSize = p.poolSize + (t.constant? p.slots).toList.length := poolSize_write ..
    have hfitsValue : (((p.moveTo t (equal :: ts)).write [] (t.constant? p.slots).toList).moveTo
        equal ts).Fits levels value := by
      rw [Fits, hpool]
      exact hinner
    rw [h hvalue hfitsValue (at_moveTo _ _ _) hreadable.tail hp, hset]
  | group hl he hr => simp [hkind] at hl
  | unary hop he => simp [hkind] at hop

theorem opening_complete (h : OperandComplete operand nesting levels) {p : Parser} {t : Token}
    {ts rest : List Token} {canAssign : Bool} {e : Expr} (hp : p.nesting = nesting)
    (hreads : Reads (.opening canAssign) (t :: ts) e rest) (hreadable : Readable ts)
    (hfits : p.Fits (levels + 1) e) :
    ∃ first, t.kind.opening? = some first
      ∧ opening operand canAssign (p.moveTo t ts) first = p.compiled e rest := by
  cases hreads with
  | literal hkind =>
    obtain ⟨hroom, hnumber⟩ := Expr.fits_atom_iff.1 hfits
    -- A word puts nothing into the pool, the two others one constant.
    have hword : ∀ literal, t.kind.opening? = some (.word literal) →
        ∃ first, t.kind.opening? = some first
          ∧ opening operand canAssign (p.moveTo t ts) first = p.compiled (.atom t) ts :=
      fun literal hfirst => ⟨.word literal, hfirst, p.compiled_word hfirst ts⟩
    simp only [List.mem_cons, List.not_mem_nil, or_false] at hkind
    rcases hkind with hkind | hkind | hkind | hkind | hkind
    · obtain ⟨x, hx⟩ := Option.isSome_iff_exists.1 (hnumber hkind)
      have hlt : p.poolSize + 1 ≤ OpCode.operandCount := by
        simpa [Token.constant?, hkind, hx] using hroom
      exact ⟨.number, by rw [hkind]; rfl, p.compiled_number hkind hx hlt ts⟩
    · have hlt : p.poolSize + 1 ≤ OpCode.operandCount := by
        simpa [Token.constant?, hkind] using hroom
      exact ⟨.string, by rw [hkind]; rfl, p.compiled_string hkind hlt ts⟩
    · exact hword .true (by rw [hkind]; rfl)
    · exact hword .false (by rw [hkind]; rfl)
    · exact hword .nil (by rw [hkind]; rfl)
  | name hkind hstay =>
    refine ⟨.variable, by rw [hkind]; rfl, ?_⟩
    exact variableUse_complete h hp hkind (.name hkind hstay) hreadable hfits
  | assign hkind hequal hvalue =>
    refine ⟨.variable, by rw [hkind]; rfl, ?_⟩
    exact variableUse_complete h hp hkind (.assign hkind hequal hvalue) hreadable hfits
  | @group _ _ _ inner closing _ hkind hinner hclosing =>
    refine ⟨.group, by rw [hkind]; rfl, ?_⟩
    have hfitsInner : (p.moveTo t ts).Fits levels inner :=
      (Expr.fits_group_iff hkind hclosing).1 hfits
    simp only [opening]
    rw [h hinner hfitsInner (at_moveTo _ _ _) hreadable hp,
      (at_compiled _ _ _).consume hclosing (hreadable.of_reads hinner).tail.kindAhead_ne,
      compiled_group]
  | @unary _ _ _ e _ hkind hoperand =>
    obtain ⟨op, hop⟩ := opening?_unary hkind
    refine ⟨.unary op, hop, ?_⟩
    have hfitsOperand : (p.moveTo t ts).Fits levels e := (Expr.fits_unary_iff hkind).1 hfits
    simp only [opening]
    rw [h hoperand hfitsOperand (at_moveTo _ _ _) hreadable hp, p.compiled_unary hop]

theorem operators_complete (h : OperandComplete operand nesting levels) {p : Parser}
    (hp : p.nesting = nesting) {min : Precedence} {e : Expr} {rest : List Token}
    (hfits : p.Fits (levels + 1) e) (fuel : Nat) :
    ∀ (left : Expr) (ts : List Token), Reads (.chain min left) ts e rest → Readable ts →
      (p.compiled left ts).tokensLeft ≤ fuel →
      operators operand min fuel (p.compiled left ts) = p.compiled e rest := by
  induction fuel with
  | zero =>
    intro left ts hreads hreadable hfuel
    have hend := current_kind_of_tokensLeft (Nat.le_zero.1 hfuel)
    cases hreads with
    | stop hstop => rfl
    | extend hop hmin hr he =>
      rw [(p.at_compiled left _).current_kind, kindAhead_cons] at hend
      rw [hend] at hop
      cases hop
  | succ fuel ih =>
    intro left ts hreads hreadable hfuel
    have hat := p.at_compiled left ts
    unfold operators
    cases hreads with
    | stop hstop =>
      rw [hat.current_kind]
      split
      · rfl
      · rename_i o ho
        rw [if_pos (hstop o ho)]
    | @extend _ _ op ts right mid _ _ o hop hmin hright hchain =>
      have hcurrent : (p.compiled left (op :: ts)).current.kind.binary? = some o := hop
      rw [hcurrent]
      dsimp only
      have hle : ¬ o.precedence < min := Nat.not_lt.2 hmin
      rw [if_neg hle, hat.advance hreadable.tail.kindAhead_ne]
      -- The room is that of the whole chain; what is compiled so far is a part of it.
      have hboth := (Expr.fits_binary_iff hop).1 (hchain.fits_left hfits _ _ rfl)
      have hfitsRight : ((p.compiled left (op :: ts)).moveTo op ts).Fits levels right := by
        rw [Fits, poolSize_moveTo, poolSize_compiled]
        exact hboth.2
      rw [h hright hfitsRight (at_moveTo _ _ _) hreadable.tail hp, p.compiled_binary hop]
      exact ih _ mid hchain (hreadable.tail.of_reads hright)
        (tokensLeft_binary_le hop hright hfuel)

theorem climb_complete (h : OperandComplete operand nesting levels) {p : Parser}
    {min : Precedence} {ts rest : List Token} {e : Expr} (hp : p.nesting = nesting)
    (hreads : Reads (.phrase min) ts e rest) (hfits : p.Fits (levels + 1) e) (hat : p.At ts)
    (hreadable : Readable ts) : climb operand min p = p.compiled e rest := by
  cases hreads with
  | @phrase _ _ left mid _ _ hopening hchain hend =>
    have hcons : ∀ canAssign, Reads (.opening canAssign) ts left mid → ∃ t ts', ts = t :: ts' := by
      intro canAssign h
      cases h <;> exact ⟨_, _, rfl⟩
    obtain ⟨t, ts, rfl⟩ := hcons _ hopening
    have hleft := hchain.fits_left hfits _ _ rfl
    obtain ⟨first, hfirst, heq⟩ := opening_complete h hp hopening hreadable.tail hleft
    have hmid : Readable mid := by
      have htokens : t :: ts = left.tokens ++ mid := hopening.tokens_eq
      intro u hu
      refine hreadable u ?_
      rw [htokens]
      exact List.mem_append_right _ hu
    have hprevious : (p.moveTo t ts).previous.kind.opening? = some first := hfirst
    unfold climb
    rw [hat.advance hreadable.tail.kindAhead_ne]
    simp only [hprevious, heq]
    rw [operators_complete h hp hfits _ left mid hchain hmid (Nat.le_refl _), rejectTarget,
      if_neg]
    -- A chain that may be a target ends before no `=`, so that none is refused.
    intro hreject
    obtain ⟨hassign, hequal⟩ := (Bool.and_eq_true _ _).mp hreject
    exact hend hassign (((p.at_compiled e rest).check_iff .equal).1 hequal)

end Complete

/-- A phrase for which there is room is compiled without an error. -/
theorem parseLevel_complete (more nesting : Nat) :
    OperandComplete (parseLevel more) nesting (room more nesting) := by
  induction more generalizing nesting with
  | zero =>
    intro min p ts rest e hreads hfits hat hreadable hp
    -- An expression has a level of its own, and no level is left.
    have hdepth := hfits.depth
    have hone := e.one_le_depth
    unfold room at hdepth
    omega
  | succ more ih =>
    intro min p ts rest e hreads hfits hat hreadable hp
    have hdepth := Nat.le_trans e.one_le_depth hfits.depth
    have hroom : room more (nesting + 1) + 1 = room (more + 1) nesting := by
      unfold room at hdepth ⊢
      omega
    have hshallow : ¬ maxNesting ≤ p.nesting := by
      unfold room at hdepth
      omega
    have hinner : ({ p with nesting := p.nesting + 1 } : Parser).nesting = nesting + 1 :=
      congrArg (· + 1) hp
    rw [← hroom] at hfits
    unfold parseLevel
    rw [if_neg hshallow]
    dsimp only
    rw [climb_complete (ih (nesting + 1)) hinner hreads hfits hat hreadable]
    rfl

end OnePass.Parser
