import OnePass.Proofs.Grammar.Climbing

/-!
# OnePass.Proofs.Grammar.Viable

The starts of sentences. Tokens are *viable* if a sentence, with its end token, starts
with them. Whether they are can be told from left to right with a small state, `Due`:
whether an operand or an operator is due, whether an assignment can be made there, and
how many groups are open. Precedence plays no part in it.

`Due.after?` goes over all that climbing reads (`Reads.after?`), hence over every start
of a sentence, and over nothing else, because what it has gone over can be completed
(`viable_of_after?`). So a token keeps the tokens before it viable exactly if the state
allows it (`viable_append_singleton_iff`).
-/

namespace OnePass

/-- Whether a sentence of the grammar, with the end token behind it, starts with some
tokens. -/
def Viable (ts : List Token) : Prop :=
  ∃ (e : Expr) (eof : Token), Phrase .assignment e ∧ eof.kind = .eof ∧ ts <+: e.tokens ++ [eof]

/-! ### What is due -/

/-- What can come next in a sentence. -/
inductive Due where
  /-- An operand, behind what has been read; it can be an assignment if `canAssign`. -/
  | operand (canAssign : Bool) (opened : Nat)
  /-- Something behind an operand, which can be assigned to if `assignable`. -/
  | operator (assignable : Bool) (opened : Nat)
  deriving DecidableEq, Repr

namespace Due

/-- How many groups are open. -/
def opened : Due → Nat
  | operand _ n | operator _ n => n

/-- What is due behind a token that is due. -/
def next? : Due → TokenKind → Option Due
  | operand canAssign n, kind =>
    kind.opening?.map fun
      | .group => operand true (n + 1)
      | .unary _ => operand false n
      | .variable => operator canAssign n
      | _ => operator false n
  | operator assignable n, kind =>
    if kind.binary?.isSome then some (operand false n)
    else
      match kind, assignable, n with
      | .equal, true, n => some (operand true n)
      | .rightParen, _, n + 1 => some (operator false n)
      | _, _, _ => none

/-- What is due behind tokens. -/
def after? (d : Due) : List Token → Option Due
  | [] => some d
  | t :: ts => (d.next? t.kind).bind (after? · ts)

/-- Whether a sentence can go on with a token of a kind, or end there. -/
def Allows (d : Due) (kind : TokenKind) : Prop :=
  (d.next? kind).isSome ∨ kind = .eof ∧ ∃ assignable, d = operator assignable 0

/-- Going over tokens can be interrupted at any place, as the state is all that is remembered. -/
theorem after?_append (d : Due) (ts us : List Token) :
    d.after? (ts ++ us) = (d.after? ts).bind (after? · us) := by
  induction ts generalizing d with
  | nil => rfl
  | cons t ts ih =>
    simp only [List.cons_append, after?]
    cases d.next? t.kind with
    | none => rfl
    | some d => exact ih d

theorem after?_append_of_eq {d d' : Due} {ts : List Token} (h : d.after? ts = some d')
    (us : List Token) : d.after? (ts ++ us) = d'.after? us := by
  rw [after?_append, h, Option.bind_some]

theorem after?_cons_of_eq {d d' : Due} {t : Token} (h : d.next? t.kind = some d')
    (ts : List Token) : d.after? (t :: ts) = d'.after? ts := by
  rw [after?, h, Option.bind_some]

@[simp] theorem after?_singleton (d : Due) (t : Token) : d.after? [t] = d.next? t.kind := by
  simp [after?]

/-- Tokens that can be gone over up to their end can be gone over up to any place. -/
theorem isSome_after?_of_prefix {d : Due} {ts us : List Token} (h : (d.after? us).isSome)
    (hts : ts <+: us) : (d.after? ts).isSome := by
  obtain ⟨rest, rfl⟩ := hts
  rw [after?_append] at h
  cases hd : d.after? ts with
  | none => rw [hd] at h; cases h
  | some d' => rfl

/-! ### Single tokens -/

theorem next?_operator_of_binary {kind : TokenKind} {o : BinaryOp} (h : kind.binary? = some o)
    (assignable : Bool) (n : Nat) :
    (operator assignable n).next? kind = some (operand false n) := by
  simp [next?, h]

theorem next?_operator_rightParen (assignable : Bool) (n : Nat) :
    (operator assignable (n + 1)).next? .rightParen = some (operator false n) := by
  cases assignable <;> rfl

/-- Behind an operand nothing else can stand. -/
theorem next?_operator_eq_none {kind : TokenKind} {assignable : Bool} {n : Nat}
    (hop : kind.binary? = none) (heq : assignable = true → kind ≠ .equal)
    (hclose : kind = .rightParen → n = 0) : (operator assignable n).next? kind = none := by
  simp only [next?, hop, Option.isSome_none, Bool.false_eq_true, if_false]
  split
  · exact absurd rfl (heq rfl)
  · exact absurd (hclose rfl) (Nat.succ_ne_zero _)
  · rfl

theorem next?_operand_of_literal {kind : TokenKind}
    (h : kind ∈ [.number, .string, .kwTrue, .kwFalse, .kwNil]) (canAssign : Bool) (n : Nat) :
    (operand canAssign n).next? kind = some (operator false n) := by
  revert h; cases kind <;> simp [next?, TokenKind.opening?]

theorem next?_operand_of_unary {kind : TokenKind} (h : kind = .bang ∨ kind = .minus)
    (canAssign : Bool) (n : Nat) :
    (operand canAssign n).next? kind = some (operand false n) := by
  rcases h with rfl | rfl <;> rfl

/-! ### Groups -/

/-- Every token keeps count of the groups that are open. -/
theorem opened_next? {d d' : Due} {kind : TokenKind} (h : d.next? kind = some d') :
    d'.opened + (if kind = .rightParen then 1 else 0)
      = d.opened + (if kind = .leftParen then 1 else 0) := by
  cases d with
  | operand canAssign n =>
    revert h
    cases kind <;> simp only [next?, TokenKind.opening?, Option.map_some, Option.map_none] <;>
      rintro ⟨⟩ <;> rfl
  | operator assignable n =>
    simp only [next?] at h
    split at h
    · rename_i hop
      obtain rfl := Option.some.inj h
      revert hop
      cases kind <;> simp [TokenKind.binary?, opened]
    split at h
    · obtain rfl := Option.some.inj h; rfl
    · obtain rfl := Option.some.inj h; rfl
    · cases h

/-- The state knows how many groups are open, without a stack. -/
theorem opened_after? {d d' : Due} {ts : List Token} (h : d.after? ts = some d') :
    d'.opened + ts.countP (·.kind = .rightParen)
      = d.opened + ts.countP (·.kind = .leftParen) := by
  induction ts generalizing d with
  | nil => obtain rfl := Option.some.inj h; rfl
  | cons t ts ih =>
    obtain ⟨mid, hnext, hafter⟩ := Option.bind_eq_some_iff.1 h
    have hhead := opened_next? hnext
    have htail := ih hafter
    simp only [List.countP_cons, decide_eq_true_eq]
    omega

end Due

/-! ### What climbing reads -/

/-- What can be gone over in the reading of a task. The end of an expression that could
be assigned to is not followed by `=`, which would have been taken. -/
def Task.GoesOver : Task → List Token → Expr → List Token → Prop
  | .phrase min, _, e, rest => ∀ n, ∃ assignable,
    (Due.operand min.allowsAssignment n).after? e.tokens = some (.operator assignable n)
      ∧ (assignable = true → kindAhead rest ≠ .equal)
  | .opening canAssign, _, e, rest => ∀ n, ∃ assignable,
    (Due.operand canAssign n).after? e.tokens = some (.operator assignable n)
      ∧ (assignable = true → kindAhead rest ≠ .equal)
  | .chain _ left, ts, e, rest => ∀ n assignable, (assignable = true → kindAhead ts ≠ .equal) →
    ∃ more assignable', e.tokens = left.tokens ++ more
      ∧ (Due.operator assignable n).after? more = some (.operator assignable' n)
      ∧ (assignable' = true → kindAhead rest ≠ .equal)

/-- What climbing reads can be gone over, from any number of open groups, and leaves as many open.
-/
theorem Reads.after? {task : Task} {ts rest : List Token} {e : Expr} (h : Reads task ts e rest) :
    task.GoesOver ts e rest := by
  -- Groups are counted from any number on, since the inner expression of a group has one more
  -- open.
  induction h with
  | literal h =>
    intro n
    refine ⟨false, ?_, fun hfalse => nomatch hfalse⟩
    rw [Expr.tokens, Due.after?_singleton, Due.next?_operand_of_literal h]
  | @name c t rest h hstay =>
    intro n
    refine ⟨c, ?_, hstay⟩
    rw [Expr.tokens, Due.after?_singleton, h]
    rfl
  | @assign t eq ts e rest h heq hv ih =>
    intro n
    obtain ⟨assignable, hafter, hend⟩ := ih n
    refine ⟨assignable, ?_, hend⟩
    have hname : (Due.operand true n).next? t.kind = some (.operator true n) := by rw [h]; rfl
    have hequal : (Due.operator true n).next? eq.kind = some (.operand true n) := by rw [heq]; rfl
    rw [Expr.tokens, Due.after?_cons_of_eq hname, Due.after?_cons_of_eq hequal]
    exact hafter
  | @group c l ts e r rest hl he hr ih =>
    intro n
    obtain ⟨assignable, hafter, -⟩ := ih (n + 1)
    change (Due.operand true (n + 1)).after? e.tokens = _ at hafter
    refine ⟨false, ?_, fun hfalse => nomatch hfalse⟩
    have hopening : (Due.operand c n).next? l.kind = some (.operand true (n + 1)) := by
      rw [hl]
      rfl
    rw [Expr.tokens, Due.after?_cons_of_eq hopening, Due.after?_append_of_eq hafter,
      Due.after?_singleton, hr, Due.next?_operator_rightParen]
  | @unary c op ts e rest hop he ih =>
    intro n
    obtain ⟨assignable, hafter, hend⟩ := ih n
    refine ⟨assignable, ?_, hend⟩
    rw [Expr.tokens, Due.after?_cons_of_eq (Due.next?_operand_of_unary hop c n)]
    exact hafter
  | @phrase min ts first mid e rest ho hc hend iho ihc =>
    intro n
    obtain ⟨assignable, hfirst, hmid⟩ := iho n
    obtain ⟨more, assignable', htokens, hmore, hrest⟩ := ihc n assignable hmid
    refine ⟨assignable', ?_, hrest⟩
    rw [htokens, Due.after?_append_of_eq hfirst, hmore]
  | stop h =>
    intro n assignable hahead
    exact ⟨[], assignable, (List.append_nil _).symm, rfl, hahead⟩
  | @extend min l op ts r mid e rest o hop hmin hr he ihr ihe =>
    intro n assignable hahead
    obtain ⟨right, hright, hmid⟩ := ihr n
    obtain ⟨more, assignable', htokens, hmore, hrest⟩ := ihe n right hmid
    refine ⟨op :: (r.tokens ++ more), assignable', ?_, ?_, hrest⟩
    · rw [htokens, Expr.tokens]
      simp
    · rw [Due.after?_cons_of_eq (Due.next?_operator_of_binary hop assignable n)]
      rw [next_not_allowsAssignment] at hright
      rw [Due.after?_append_of_eq hright, hmore]

/-- A sentence can be gone over. -/
theorem Phrase.after? {e : Expr} (h : Phrase .assignment e) :
    ∃ assignable, (Due.operand true 0).after? e.tokens = some (.operator assignable 0) := by
  have hreads : Reads (.phrase .assignment) (e.tokens ++ []) e [] :=
    Phrase.reads .assignment h (stops_of_not_operator rfl (by decide))
  obtain ⟨assignable, hafter, -⟩ := hreads.after? 0
  exact ⟨assignable, hafter⟩

/-! ### Completing what has been read -/

/-- An operator with its right operand can be put behind any phrase that is not tighter
than the operator. -/
theorem Phrase.exists_append_binary {level own : Level} {e u : Expr} {op : Token}
    (hop : op.kind ∈ own.operators) (hu : Phrase .unary u) (h : Phrase level e)
    (hle : level.rank ≤ own.rank) :
    ∃ v, Phrase level v ∧ v.tokens = e.tokens ++ op :: u.tokens := by
  have htight : own.rank < Level.unary.rank := by
    revert hop; cases own <;> simp [Level.operators, Level.rank]
  have hright : Phrase own.next u :=
    hu.loosen (by revert htight; cases own <;> decide)
  -- At its own nonterminal the operator goes on with the chain, else into the last part.
  have hsplit : ∀ level : Level, level.rank ≤ own.rank →
      level = own ∨ level.next.rank ≤ own.rank := by
    intro level
    cases level <;> cases own <;> decide
  -- The new operand goes down the right edge of the tree to where its operator belongs.
  induction h with
  | @tighter level e h ih =>
    rcases hsplit level hle with rfl | hnext
    · exact ⟨.binary e op u, .chain hop (.tighter h) hright, rfl⟩
    · obtain ⟨v, hv, htokens⟩ := ih hnext
      exact ⟨v, .tighter hv, htokens⟩
  | @assign target equal value ht heq h ih =>
    obtain ⟨v, hv, htokens⟩ := ih hle
    refine ⟨.assign target equal v, .assign ht heq hv, ?_⟩
    rw [Expr.tokens, htokens]
    rfl
  | @chain level left op' right hop' hl hr ihl ihr =>
    rcases hsplit level hle with rfl | hnext
    · exact ⟨.binary (.binary left op' right) op u, .chain hop (.chain hop' hl hr) hright, rfl⟩
    · obtain ⟨v, hv, htokens⟩ := ihr hnext
      refine ⟨.binary left op' v, .chain hop' hl hv, ?_⟩
      rw [Expr.tokens, htokens, Expr.tokens]
      simp
  | unary hop' h ih => exact absurd hle (Nat.not_le.2 htight)
  | atom ht => exact absurd (Nat.le_trans (by decide) hle) (Nat.not_le.2 htight)
  | group ho h hc ih => exact absurd (Nat.le_trans (by decide) hle) (Nat.not_le.2 htight)

/-- Whether an operand completes an expression of which some tokens have been read. -/
def Awaits (canAssign : Bool) (ts : List Token) : Prop :=
  ∀ u, Phrase .unary u ∨ canAssign = true ∧ Phrase .assignment u →
    ∃ v, Phrase .assignment v ∧ v.tokens = ts ++ u.tokens

/-- Tokens that end with the bracket of the last of `n` open groups; the expression in
it has not begun. -/
inductive Opened : Nat → List Token → Prop where
  | start : Opened 0 []
  | group {n ts us canAssign bracket} (h : Opened n ts) (hus : Awaits canAssign us)
      (hb : bracket.kind = .leftParen) : Opened (n + 1) (ts ++ (us ++ [bracket]))

/-- What has been read when something is due: the brackets of the open groups, and a
part of the expression in the last of them. -/
def Due.Holds : Due → List Token → Prop
  | operand canAssign n, ts => ∃ outer us, Opened n outer ∧ Awaits canAssign us ∧ ts = outer ++ us
  | operator assignable n, ts => ∃ outer v, Opened n outer ∧ Phrase .assignment v
    ∧ ts = outer ++ v.tokens
    ∧ (assignable = true → ∃ us t, Awaits true us ∧ t.kind = .identifier ∧ v.tokens = us ++ [t])

theorem Awaits.of_true {canAssign : Bool} {ts : List Token} (h : Awaits canAssign ts) {u : Expr}
    (hu : Phrase .unary u) : ∃ v, Phrase .assignment v ∧ v.tokens = ts ++ u.tokens :=
  h u (.inl hu)

/-- At the start a whole expression is awaited, so that an assignment may be one. -/
theorem awaits_start : Awaits true [] := by
  intro u hu
  refine ⟨u, ?_, rfl⟩
  rcases hu with hu | ⟨-, hu⟩
  · exact hu.loosen (by decide)
  · exact hu

/-- Behind a prefix operator an operand is awaited to which nothing can be assigned. -/
theorem Awaits.unary {canAssign : Bool} {ts : List Token} {op : Token} (h : Awaits canAssign ts)
    (hop : op.kind = .bang ∨ op.kind = .minus) : Awaits false (ts ++ [op]) := by
  intro u hu
  have hu : Phrase .unary u := hu.resolve_right fun hboth => nomatch hboth.1
  obtain ⟨v, hv, htokens⟩ := h.of_true (.unary hop hu)
  exact ⟨v, hv, by rw [htokens, Expr.tokens]; simp⟩

/-- Behind a binary operator as well, whatever the precedence of the operator is. -/
theorem Phrase.awaits_binary {v : Expr} {op : Token} {o : BinaryOp} (hv : Phrase .assignment v)
    (hop : op.kind.binary? = some o) : Awaits false (v.tokens ++ [op]) := by
  intro u hu
  have hu : Phrase .unary u := hu.resolve_right fun hboth => nomatch hboth.1
  obtain ⟨own, hown⟩ := exists_level o
  obtain ⟨w, hw, htokens⟩ := Phrase.exists_append_binary (mem_operators_iff.2 ⟨o, hop, hown⟩) hu hv
    (Nat.zero_le _)
  exact ⟨w, hw, by rw [htokens]; simp⟩

/-- Behind the `=` of an assignment the value is awaited, which may be an assignment in its turn.
-/
theorem Awaits.assign {ts : List Token} {target equal : Token} (h : Awaits true ts)
    (ht : target.kind = .identifier) (heq : equal.kind = .equal) :
    Awaits true (ts ++ [target, equal]) := by
  intro u hu
  have hu : Phrase .assignment u := by
    rcases hu with hu | ⟨-, hu⟩
    · exact hu.loosen (by decide)
    · exact hu
  obtain ⟨v, hv, htokens⟩ := h (.assign target equal u) (.inr ⟨rfl, .assign ht heq hu⟩)
  exact ⟨v, hv, by rw [htokens, Expr.tokens]; simp⟩

/-- One token further: a token that starts an operand either is one or leaves one awaited, and a
token behind an operand joins it to something. -/
theorem Due.Holds.next {d d' : Due} {ts : List Token} {t : Token} (h : d.Holds ts)
    (hnext : d.next? t.kind = some d') : d'.Holds (ts ++ [t]) := by
  cases d with
  | operand canAssign n =>
    obtain ⟨outer, us, houter, hus, rfl⟩ := h
    obtain ⟨first, hfirst, rfl⟩ := Option.map_eq_some_iff.1 hnext
    -- A token that is an operand of its own ends the expression.
    have hatom : ∀ assignable, t.kind ∈ [.number, .string, .kwTrue, .kwFalse, .kwNil, .identifier] →
        (assignable = true → Awaits true us ∧ t.kind = .identifier) →
        (Due.operator assignable n).Holds (outer ++ us ++ [t]) := by
      intro assignable hkind hassign
      obtain ⟨v, hv, htokens⟩ := hus.of_true (.tighter (.atom hkind))
      refine ⟨outer, v, houter, hv, by rw [htokens, List.append_assoc]; rfl, fun htrue => ?_⟩
      exact ⟨us, t, (hassign htrue).1, (hassign htrue).2, htokens⟩
    have hkind : ∀ kind first, TokenKind.opening? kind = some first →
        match first with
        | .group => kind = .leftParen
        | .unary _ => kind = .bang ∨ kind = .minus
        | .variable => kind = .identifier
        | _ => kind ∈ [.number, .string, .kwTrue, .kwFalse, .kwNil, .identifier] := by
      intro kind first
      cases kind <;> simp only [TokenKind.opening?] <;> rintro ⟨⟩ <;> simp
    have hkind := hkind t.kind first hfirst
    cases first with
    | group => exact ⟨_, [], .group houter hus hkind, awaits_start, by simp⟩
    | unary op => exact ⟨outer, us ++ [t], houter, hus.unary hkind, by simp⟩
    | «variable» =>
      exact hatom canAssign (by simp [hkind]) fun htrue => ⟨htrue ▸ hus, hkind⟩
    | word | number | string => exact hatom false hkind fun hfalse => nomatch hfalse
  | operator assignable n =>
    obtain ⟨outer, v, houter, hv, rfl, hassign⟩ := h
    simp only [Due.next?] at hnext
    split at hnext
    · rename_i hop
      obtain ⟨o, hop⟩ := Option.isSome_iff_exists.1 hop
      obtain rfl := Option.some.inj hnext
      exact ⟨outer, v.tokens ++ [t], houter, hv.awaits_binary hop, by simp⟩
    split at hnext
    · rename_i hkind
      obtain rfl := Option.some.inj hnext
      obtain ⟨us, target, hus, htarget, htokens⟩ := hassign rfl
      exact ⟨outer, us ++ [target, t], houter, hus.assign htarget hkind, by simp [htokens]⟩
    · rename_i n hkind
      obtain rfl := Option.some.inj hnext
      -- A parenthesis closes the last group, whose expression is then an operand of what was
      -- awaited in front of it.
      cases houter with
      | @group _ outer us canAssign bracket houter hus hb =>
        obtain ⟨w, hw, htokens⟩ := hus.of_true (.tighter (.group hb hv hkind))
        refine ⟨outer, w, houter, hw, ?_, fun hfalse => nomatch hfalse⟩
        rw [htokens, Expr.tokens]
        simp
    · cases hnext

/-- Hence the state is right behind any tokens that it has gone over. -/
theorem Due.Holds.after {d d' : Due} {ts us : List Token} (h : d.Holds ts)
    (hafter : d.after? us = some d') : d'.Holds (ts ++ us) := by
  induction us generalizing d ts with
  | nil =>
    obtain rfl := Option.some.inj hafter
    rwa [List.append_nil]
  | cons t us ih =>
    obtain ⟨mid, hnext, hrest⟩ := Option.bind_eq_some_iff.1 hafter
    have hmid := ih (h.next hnext) hrest
    rwa [List.append_assoc] at hmid

/-- The open groups can be closed behind any expression. -/
theorem Opened.exists_sentence {n : Nat} {ts : List Token} (h : Opened n ts) {v : Expr}
    (hv : Phrase .assignment v) :
    ∃ e, Phrase .assignment e ∧ ts ++ v.tokens <+: e.tokens := by
  -- From the inside: each group that is closed is the operand that is awaited outside of it.
  induction h generalizing v with
  | start => exact ⟨v, hv, List.prefix_refl _⟩
  | @group n ts us canAssign bracket h hus hb ih =>
    have hgroup : Phrase .unary (.group bracket v ⟨.rightParen, ")", 0, 1⟩) :=
      .tighter (.group hb hv rfl)
    obtain ⟨w, hw, htokens⟩ := hus.of_true hgroup
    obtain ⟨e, he, hprefix⟩ := ih hw
    refine ⟨e, he, List.IsPrefix.trans ?_ hprefix⟩
    rw [htokens, Expr.tokens]
    exact ⟨[⟨.rightParen, ")", 0, 1⟩], by simp⟩

/-- Tokens that can be gone over start a sentence. -/
theorem exists_sentence_of_after? {ts : List Token} {d : Due}
    (h : (Due.operand true 0).after? ts = some d) :
    ∃ e, Phrase .assignment e ∧ ts <+: e.tokens := by
  have hstart : (Due.operand true 0).Holds [] := ⟨[], [], .start, awaits_start, rfl⟩
  have hholds := hstart.after h
  rw [List.nil_append] at hholds
  cases d with
  | operand canAssign n =>
    obtain ⟨outer, us, houter, hus, rfl⟩ := hholds
    have hnumber : Phrase .unary (.atom ⟨.number, "0", 0, 1⟩) := .tighter (.atom (by simp))
    obtain ⟨v, hv, htokens⟩ := hus.of_true hnumber
    obtain ⟨e, he, hprefix⟩ := houter.exists_sentence hv
    refine ⟨e, he, List.IsPrefix.trans ?_ hprefix⟩
    rw [htokens, ← List.append_assoc]
    exact List.prefix_append _ _
  | operator assignable n =>
    obtain ⟨outer, v, houter, hv, rfl, -⟩ := hholds
    exact houter.exists_sentence hv

/-! ### Viable tokens -/

/-- Precedence plays no part: any tokens that the state goes over can be completed. -/
theorem viable_of_after? {ts : List Token} {d : Due}
    (h : (Due.operand true 0).after? ts = some d) : Viable ts := by
  obtain ⟨e, he, hprefix⟩ := exists_sentence_of_after? h
  exact ⟨e, ⟨.eof, "", 0, 1⟩, he, rfl, hprefix.trans (List.prefix_append _ _)⟩

/-- A token keeps tokens viable if it is one that can come next. -/
theorem viable_append_singleton_iff {ts : List Token} {t : Token} :
    Viable (ts ++ [t]) ↔ ∃ d, (Due.operand true 0).after? ts = some d ∧ d.Allows t.kind := by
  constructor
  · rintro ⟨e, eof, he, heof, hprefix⟩
    obtain ⟨assignable, hafter⟩ := he.after?
    have hsome : ((Due.operand true 0).after? e.tokens).isSome := by rw [hafter]; rfl
    rcases List.prefix_concat_iff.1 hprefix with heq | hinside
    · obtain ⟨rfl, hlast⟩ := List.append_inj' heq rfl
      obtain rfl := (List.cons.inj hlast).1
      exact ⟨_, hafter, .inr ⟨heof, assignable, rfl⟩⟩
    · have hboth := Due.isSome_after?_of_prefix hsome hinside
      rw [Due.after?_append] at hboth
      cases hd : (Due.operand true 0).after? ts with
      | none => rw [hd] at hboth; cases hboth
      | some d =>
        rw [hd, Option.bind_some, Due.after?_singleton] at hboth
        exact ⟨d, rfl, .inl hboth⟩
  · rintro ⟨d, hafter, hnext | ⟨heof, assignable, rfl⟩⟩
    · obtain ⟨d', hnext⟩ := Option.isSome_iff_exists.1 hnext
      refine viable_of_after? (d := d') ?_
      rw [Due.after?_append_of_eq hafter, Due.after?_singleton, hnext]
    · have hstart : (Due.operand true 0).Holds [] := ⟨[], [], .start, awaits_start, rfl⟩
      obtain ⟨outer, v, houter, hv, htokens, -⟩ := hstart.after hafter
      cases houter with
      | start => exact ⟨v, t, hv, heof, ⟨[], by simpa using htokens⟩⟩

/-! ### What is due, by the grammar -/

/-- Whether an operand is due behind some tokens: a sentence can go on with a number. -/
def OperandDue (ts : List Token) : Prop := ∃ t : Token, t.kind = .number ∧ Viable (ts ++ [t])

/-- Whether an operator is due behind some tokens: a sentence can go on with a `*`. -/
def OperatorDue (ts : List Token) : Prop := ∃ t : Token, t.kind = .star ∧ Viable (ts ++ [t])

/-- Whether more groups have been opened than closed. -/
def GroupOpen (ts : List Token) : Prop :=
  ts.countP (·.kind = .rightParen) < ts.countP (·.kind = .leftParen)

/-- A number is the test for operands: it can stand wherever an operand can. -/
theorem operandDue_iff {ts : List Token} :
    OperandDue ts ↔
      ∃ canAssign n, (Due.operand true 0).after? ts = some (.operand canAssign n) := by
  constructor
  · rintro ⟨t, ht, hviable⟩
    obtain ⟨d, hafter, hallows⟩ := viable_append_singleton_iff.1 hviable
    rw [ht] at hallows
    cases d with
    | operand canAssign n => exact ⟨canAssign, n, hafter⟩
    | operator assignable n => simp [Due.Allows, Due.next?, TokenKind.binary?] at hallows
  · rintro ⟨canAssign, n, hafter⟩
    exact ⟨⟨.number, "0", 0, 1⟩, rfl, viable_append_singleton_iff.2 ⟨_, hafter, .inl rfl⟩⟩

/-- A `*` is the test for operators: no operand begins with it. -/
theorem operatorDue_iff {ts : List Token} :
    OperatorDue ts ↔
      ∃ assignable n, (Due.operand true 0).after? ts = some (.operator assignable n) := by
  constructor
  · rintro ⟨t, ht, hviable⟩
    obtain ⟨d, hafter, hallows⟩ := viable_append_singleton_iff.1 hviable
    rw [ht] at hallows
    cases d with
    | operand canAssign n => simp [Due.Allows, Due.next?, TokenKind.opening?] at hallows
    | operator assignable n => exact ⟨assignable, n, hafter⟩
  · rintro ⟨assignable, n, hafter⟩
    exact ⟨⟨.star, "*", 0, 1⟩, rfl, viable_append_singleton_iff.2 ⟨_, hafter, .inl rfl⟩⟩

theorem groupOpen_iff {ts : List Token} {d : Due}
    (h : (Due.operand true 0).after? ts = some d) : GroupOpen ts ↔ 0 < d.opened := by
  have hcount : d.opened + _ = 0 + _ := Due.opened_after? h
  unfold GroupOpen
  omega

end OnePass
