import OnePass.Grammar.Operator
import OnePass.Proofs.Grammar.Expr

/-!
# OnePass.Proofs.Grammar.Climbing

How precedence climbing reads an expression from a row of tokens. `Reads` has one
rule for every turn that climbing can take; it says nothing of code, limits or
errors. Climbing with a least precedence reads exactly the phrases of the
nonterminal that belongs to it (`Reads.phrase_level`, `Phrase.reads`), and it reads
one tree at most (`Reads.unique`), whence the grammar is unambiguous
(`Phrase.unique`).

A chain of operators is where both sides differ. The grammar builds it from the right end, with
all but the last operator in the left operand; climbing builds it from the left end, one operator
at a time. In one direction the invariant is what the left operand may be (`Reads.Derives`), in
the other that reading goes on in the same way behind a tree as behind its tokens
(`ReadsThrough`).
-/

namespace OnePass

/-! ### Precedences and nonterminals -/

/-- The nonterminal whose phrases are read with a least precedence. -/
def Level.ofPrecedence : Precedence → Level
  | .none | .assignment => .assignment
  | .or | .and | .equality => .equality
  | .comparison => .comparison
  | .term => .term
  | .factor => .factor
  | .unary | .call | .primary => .unary

/-- The loosest precedence with which the phrases of a nonterminal are read. -/
def Level.precedence : Level → Precedence
  | .assignment => .assignment
  | .equality => .equality
  | .comparison => .comparison
  | .term => .term
  | .factor => .factor
  | .unary => .unary
  | .primary => .primary

/-- The grammar names the operators of a nonterminal, the parser gives every operator a
precedence; both say the same. -/
theorem mem_operators_iff {kind : TokenKind} {level : Level} :
    kind ∈ level.operators ↔
      ∃ op, kind.binary? = some op ∧ op.precedence = level.precedence := by
  cases kind <;> cases level <;>
    simp [Level.operators, Level.precedence, TokenKind.binary?, BinaryOp.precedence]

/-- Every operator belongs to a nonterminal. Precedences without operators, such as those of `or`
and of calls, have none. -/
theorem exists_level (op : BinaryOp) : ∃ level : Level, op.precedence = level.precedence := by
  cases op
  case equal | notEqual => exact ⟨.equality, rfl⟩
  case greater | greaterEqual | less | lessEqual => exact ⟨.comparison, rfl⟩
  case add | subtract => exact ⟨.term, rfl⟩
  case multiply | divide => exact ⟨.factor, rfl⟩

/-- The right operands of an operator are of the next nonterminal. -/
theorem ofPrecedence_next {op : BinaryOp} {level : Level} (h : op.precedence = level.precedence) :
    Level.ofPrecedence op.precedence.next = level.next := by
  revert h; cases op <;> cases level <;> decide

theorem precedence_lt_unary (op : BinaryOp) : op.precedence < .unary := by
  cases op <;> decide

theorem assignment_lt_precedence (op : BinaryOp) : .assignment < op.precedence := by
  cases op <;> decide

theorem precedence_lt_next (op : BinaryOp) : op.precedence < op.precedence.next := by
  cases op <;> decide

theorem next_not_allowsAssignment (op : BinaryOp) :
    op.precedence.next.allowsAssignment = false := by
  cases op <;> decide

theorem Level.precedence_le_next (level : Level) : level.precedence ≤ level.next.precedence := by
  cases level <;> decide

theorem Level.rank_le_next (level : Level) : level.rank ≤ level.next.rank := by
  cases level <;> decide

theorem Level.rank_le_of_precedence_le {loose tight : Level}
    (h : loose.precedence ≤ tight.precedence) : loose.rank ≤ tight.rank := by
  revert h; cases loose <;> cases tight <;> decide

/-- An assignment can be read where the whole of an expression is read, and only there. -/
theorem ofPrecedence_of_allowsAssignment {min : Precedence} (h : min.allowsAssignment = true) :
    Level.ofPrecedence min = .assignment := by
  revert h; cases min <;> decide

theorem allowsAssignment_of_rank_le {min : Precedence}
    (h : (Level.ofPrecedence min).rank ≤ Level.assignment.rank) : min.allowsAssignment = true := by
  revert h; cases min <;> decide

theorem ofPrecedence_rank_le {min : Precedence} {level : Level} (h : min ≤ level.precedence) :
    (Level.ofPrecedence min).rank ≤ level.rank := by
  revert h; cases min <;> cases level <;> decide

theorem ofPrecedence_rank_le_unary (min : Precedence) :
    (Level.ofPrecedence min).rank ≤ Level.unary.rank := by
  cases min <;> decide

/-- An operator of a nonterminal that is read with a least precedence has it. -/
theorem le_precedence_of_rank_le {min : Precedence} {op : BinaryOp} {level : Level}
    (hop : op.precedence = level.precedence) (h : (Level.ofPrecedence min).rank ≤ level.rank) :
    min ≤ op.precedence := by
  revert hop h; cases op <;> cases level <;> cases min <;> decide

/-- An operator that is too loose for a least precedence is too loose for its nonterminal. -/
theorem le_precedence_ofPrecedence {min : Precedence} {op : BinaryOp} (h : op.precedence < min) :
    op.precedence ≤ (Level.ofPrecedence min).precedence := by
  revert h; cases op <;> cases min <;> decide

/-! ### Reading -/

/-- The kind of the next token. -/
def kindAhead : List Token → TokenKind
  | [] => .eof
  | t :: _ => t.kind

@[simp] theorem kindAhead_nil : kindAhead [] = .eof := rfl

@[simp] theorem kindAhead_cons (t : Token) (ts : List Token) : kindAhead (t :: ts) = t.kind := rfl

/-- What is to be read. -/
inductive Task where
  /-- A whole expression of a least precedence. -/
  | phrase (min : Precedence)
  /-- What stands before the first operator, or an assignment if there can be one. -/
  | opening (canAssign : Bool)
  /-- The operators behind an expression that has been read. -/
  | chain (min : Precedence) (left : Expr)

/-- `Reads task ts e rest`: from `ts`, climbing reads the expression `e` and leaves
`rest`. -/
inductive Reads : Task → List Token → Expr → List Token → Prop where
  | literal {c t rest} (h : t.kind ∈ [.number, .string, .kwTrue, .kwFalse, .kwNil]) :
      Reads (.opening c) (t :: rest) (.atom t) rest
  | name {c t rest} (h : t.kind = .identifier) (hstay : c = true → kindAhead rest ≠ .equal) :
      Reads (.opening c) (t :: rest) (.atom t) rest
  | assign {t eq ts e rest} (h : t.kind = .identifier) (heq : eq.kind = .equal)
      (hv : Reads (.phrase .assignment) ts e rest) :
      Reads (.opening true) (t :: eq :: ts) (.assign t eq e) rest
  | group {c l ts e r rest} (hl : l.kind = .leftParen)
      (he : Reads (.phrase .assignment) ts e (r :: rest)) (hr : r.kind = .rightParen) :
      Reads (.opening c) (l :: ts) (.group l e r) rest
  | unary {c op ts e rest} (hop : op.kind = .bang ∨ op.kind = .minus)
      (he : Reads (.phrase .unary) ts e rest) : Reads (.opening c) (op :: ts) (.unary op e) rest
  | phrase {min ts first mid e rest} (ho : Reads (.opening min.allowsAssignment) ts first mid)
      (hc : Reads (.chain min first) mid e rest)
      (hend : min.allowsAssignment = true → kindAhead rest ≠ .equal) :
      Reads (.phrase min) ts e rest
  | stop {min e rest} (h : ∀ o, (kindAhead rest).binary? = some o → o.precedence < min) :
      Reads (.chain min e) rest e rest
  | extend {min l op ts r mid e rest o} (hop : op.kind.binary? = some o)
      (hmin : min ≤ o.precedence) (hr : Reads (.phrase o.precedence.next) ts r mid)
      (he : Reads (.chain min (.binary l op r)) mid e rest) :
      Reads (.chain min l) (op :: ts) e rest

/-- Whether an expression of a least precedence ends in front of some tokens: they do
not start with an operator that it would take, or with an assignment that it would
refuse. -/
def Stops (min : Precedence) (rest : List Token) : Prop :=
  (∀ o, (kindAhead rest).binary? = some o → o.precedence < min)
    ∧ (min.allowsAssignment = true → kindAhead rest ≠ .equal)

/-- The tokens that have been read before a task begins. -/
def Task.before : Task → List Token
  | .phrase _ | .opening _ => []
  | .chain _ left => left.tokens

namespace Reads

/-- Reading takes the tokens of the tree, and leaves the others. -/
theorem tokens_eq {task : Task} {ts rest : List Token} {e : Expr} (h : Reads task ts e rest) :
    task.before ++ ts = e.tokens ++ rest := by
  induction h with
  | literal h => rfl
  | name h hstay => rfl
  | assign h heq hv ih => simpa [Task.before, Expr.tokens] using ih
  | group hl he hr ih => simpa [Task.before, Expr.tokens] using ih
  | unary hop he ih => simpa [Task.before, Expr.tokens] using ih
  | phrase ho hc hend iho ihc =>
    simp only [Task.before, List.nil_append] at iho ihc ⊢
    rw [iho, ihc]
  | stop h => rfl
  | extend hop hmin hr he ihr ihe =>
    simp only [Task.before, List.nil_append, Expr.tokens] at ihr ihe ⊢
    rw [ihr, ← ihe]
    simp

/-- A chain is followed by no operator that it could have taken. -/
theorem chain_stops {task : Task} {ts rest : List Token} {e : Expr} (h : Reads task ts e rest) :
    ∀ min left, task = .chain min left →
      ∀ o, (kindAhead rest).binary? = some o → o.precedence < min := by
  induction h with
  | stop h =>
    intro min left heq
    obtain ⟨rfl, rfl⟩ := Task.chain.inj heq
    exact h
  | @extend min l op ts r mid e rest o hop hmin hr he ihr ihe =>
    intro min' left heq
    obtain ⟨rfl, rfl⟩ := Task.chain.inj heq
    exact ihe _ _ rfl
  | _ => intro min left heq; simp at heq

/-- What is left behind an expression does not go on with it. -/
theorem stops {min : Precedence} {ts rest : List Token} {e : Expr}
    (h : Reads (.phrase min) ts e rest) : Stops min rest := by
  cases h with
  | phrase ho hc hend => exact ⟨hc.chain_stops _ _ rfl, hend⟩

/-! ### What is read is a phrase -/

/-- What a task reads, in terms of the grammar. An opening ends before the first
operator, and an assignment before any. The left operand of a chain may be of any
nonterminal that the operator behind it joins operands of. -/
def Derives : Task → List Token → Expr → List Token → Prop
  | .phrase min, _, e, _ => Phrase (.ofPrecedence min) e
  | .opening c, _, e, rest =>
    Phrase .unary e ∨ (c = true ∧ Phrase .assignment e ∧ (kindAhead rest).binary? = none)
  | .chain min left, ts, e, _ =>
    ∀ level : Level, Phrase level left → (Level.ofPrecedence min).rank ≤ level.rank →
      (∀ o, (kindAhead ts).binary? = some o → o.precedence ≤ level.precedence) →
      Phrase (.ofPrecedence min) e

/-- By induction on the reading. The chain is the case that needs its own invariant, since its
left operand need not be of the nonterminal that is read: it is of a tighter one, or of that of
the operator that comes next. -/
theorem derives {task : Task} {ts rest : List Token} {e : Expr} (h : Reads task ts e rest) :
    Derives task ts e rest := by
  induction h with
  | @literal c t rest h =>
    have hatom := List.mem_append_left [TokenKind.identifier] h
    exact .inl (.tighter (.atom hatom))
  | name h hstay => exact .inl (.tighter (.atom (by simp [h])))
  | assign h heq hv ih =>
    refine .inr ⟨rfl, .assign h heq ih, ?_⟩
    -- No operator is looser than an assignment, so that none is left behind its value.
    cases hop : (kindAhead _).binary? with
    | none => rfl
    | some o => exact absurd (assignment_lt_precedence o) (Nat.lt_asymm (hv.stops.1 o hop))
  | group hl he hr ih => exact .inl (.tighter (.group hl ih hr))
  | unary hop he ih => exact .inl (.unary hop ih)
  | @phrase min ts first mid e rest ho hc hend iho ihc =>
    rcases iho with hfirst | ⟨hassign, hfirst, hnone⟩
    · refine ihc .unary hfirst (ofPrecedence_rank_le_unary min) fun o _ => ?_
      exact Nat.le_of_lt (precedence_lt_unary o)
    · have hlevel := ofPrecedence_of_allowsAssignment hassign
      refine ihc .assignment hfirst (Nat.le_of_eq (congrArg Level.rank hlevel)) fun o ho => ?_
      rw [hnone] at ho
      cases ho
  | @stop min e rest h =>
    intro level hlevel hle _
    exact hlevel.loosen hle
  | @extend min l op ts r mid e rest o hop hmin hr he ihr ihe =>
    intro level hlevel hle hahead
    obtain ⟨own, hown⟩ := exists_level o
    have hleft : Phrase own l :=
      hlevel.loosen (Level.rank_le_of_precedence_le (hown ▸ hahead o hop))
    have hright : Phrase own.next r := ofPrecedence_next hown ▸ ihr
    -- The tree so far is a phrase of the nonterminal of its last operator.
    refine ihe own (.chain (mem_operators_iff.2 ⟨o, hop, hown⟩) hleft hright) ?_ ?_
    · exact ofPrecedence_rank_le (hown ▸ hmin)
    · intro o' ho'
      have hlt := hr.stops.1 o' ho'
      rw [Precedence.lt_def, Precedence.rank_next] at hlt
      rw [Precedence.le_def, ← hown]
      omega

end Reads

/-- Climbing with a least precedence reads phrases of the nonterminal that belongs to
it. -/
theorem Reads.phrase_level {min : Precedence} {ts rest : List Token} {e : Expr}
    (h : Reads (.phrase min) ts e rest) : Phrase (.ofPrecedence min) e :=
  h.derives

/-! ### Every phrase is read -/

/-- Once the tree `e` stands to the left of the operators behind it, reading goes on
in the same way whether `e` is given or is still to be read. -/
def ReadsThrough (min : Precedence) (e : Expr) (rest : List Token) : Prop :=
  ∀ final left, Reads (.chain min e) rest final left →
    ∃ first mid, Reads (.opening min.allowsAssignment) (e.tokens ++ rest) first mid
      ∧ Reads (.chain min first) mid final left

theorem ReadsThrough.reads {min : Precedence} {e : Expr} {rest : List Token}
    (h : ReadsThrough min e rest) (hstops : Stops min rest) :
    Reads (.phrase min) (e.tokens ++ rest) e rest := by
  obtain ⟨first, mid, hopening, hchain⟩ := h e rest (.stop hstops.1)
  exact .phrase hopening hchain hstops.2

/-- What a single opening reads, climbing reads through. -/
theorem ReadsThrough.of_opening {min : Precedence} {e : Expr} {rest : List Token}
    (h : Reads (.opening min.allowsAssignment) (e.tokens ++ rest) e rest) :
    ReadsThrough min e rest :=
  fun _ _ hchain => ⟨e, rest, h, hchain⟩

theorem stops_of_not_operator {min : Precedence} {rest : List Token}
    (hop : (kindAhead rest).binary? = none) (heq : kindAhead rest ≠ .equal) : Stops min rest :=
  ⟨fun o ho => (by rw [hop] at ho; cases ho), fun _ => heq⟩

/-- A phrase is read through if no tighter operator follows it, and no `=` where an
assignment could stand. -/
theorem Phrase.readsThrough {level : Level} {e : Expr} (h : Phrase level e) :
    ∀ {min : Precedence} {rest : List Token}, (Level.ofPrecedence min).rank ≤ level.rank →
      (∀ o, (kindAhead rest).binary? = some o → o.precedence ≤ level.precedence) →
      (min.allowsAssignment = true → kindAhead rest ≠ .equal) → ReadsThrough min e rest := by
  -- The least precedence and the rest vary: inside of a chain the left operand is read with the
  -- same least precedence, and the right one with that of the operator.
  induction h with
  | @tighter level e h ih =>
    intro min rest hle hahead hend
    exact ih (Nat.le_trans hle level.rank_le_next)
      (fun o ho => Nat.le_trans (hahead o ho) level.precedence_le_next) hend
  | @assign target equal value ht heq h ih =>
    intro min rest hle hahead hend
    have hassign := allowsAssignment_of_rank_le hle
    have hvalue : Reads (.phrase .assignment) (value.tokens ++ rest) value rest := by
      refine (ih (Nat.le_refl _) hahead fun _ => hend hassign).reads ⟨fun o ho => ?_, fun _ =>
        hend hassign⟩
      exact absurd (assignment_lt_precedence o) (Nat.not_lt.2 (hahead o ho))
    refine .of_opening ?_
    rw [hassign]
    exact .assign ht heq hvalue
  | @chain level left op right hop hl hr ihl ihr =>
    intro min rest hle hahead hend final last hchain
    obtain ⟨o, ho, hprec⟩ := mem_operators_iff.1 hop
    have hmin : min ≤ o.precedence := le_precedence_of_rank_le hprec hle
    have hright : Reads (.phrase o.precedence.next) (right.tokens ++ rest) right rest := by
      have hlevel := congrArg Level.rank (ofPrecedence_next hprec)
      refine (ihr (Nat.le_of_eq hlevel) (fun o' ho' => ?_) ?_).reads ⟨fun o' ho' => ?_, ?_⟩
      · exact Nat.le_trans (hahead o' ho') level.precedence_le_next
      · simp [next_not_allowsAssignment]
      · exact Nat.lt_of_le_of_lt (hprec ▸ hahead o' ho') (precedence_lt_next o)
      · simp [next_not_allowsAssignment]
    -- The operator stands behind the left operand, so it is what the left operand is followed by.
    have hleft : ReadsThrough min left (op :: (right.tokens ++ rest)) := by
      refine ihl hle (fun o' ho' => ?_) fun _ heq => ?_
      · rw [kindAhead_cons, ho] at ho'
        obtain rfl := Option.some.inj ho'
        exact hprec ▸ Nat.le_refl _
      · rw [kindAhead_cons] at heq
        rw [heq] at ho
        cases ho
    obtain ⟨first, mid, hopening, hfirst⟩ := hleft final last (.extend ho hmin hright hchain)
    refine ⟨first, mid, ?_, hfirst⟩
    simpa [Expr.tokens] using hopening
  | @unary op operand hop h ih =>
    intro min rest hle hahead hend
    have hunary : Precedence.unary.allowsAssignment = true → kindAhead rest ≠ .equal :=
      fun h => absurd h (by decide)
    have hoperand : Reads (.phrase .unary) (operand.tokens ++ rest) operand rest :=
      (ih (Nat.le_refl _) (fun o _ => Nat.le_of_lt (precedence_lt_unary o)) hunary).reads
        ⟨fun o _ => precedence_lt_unary o, hunary⟩
    exact .of_opening (.unary hop hoperand)
  | @atom t ht =>
    intro min rest hle hahead hend
    by_cases hname : t.kind = .identifier
    · exact .of_opening (.name hname hend)
    · have hsplit : t.kind ∈ [.number, .string, .kwTrue, .kwFalse, .kwNil] ++ [.identifier] := ht
      exact .of_opening (.literal ((List.mem_append.1 hsplit).resolve_right (by simpa using hname)))
  | @group opening inner closing ho h hc ih =>
    intro min rest hle hahead hend
    have hkind : kindAhead (closing :: rest) = .rightParen := hc
    have hinner : Reads (.phrase .assignment) (inner.tokens ++ closing :: rest) inner
        (closing :: rest) :=
      (ih (Nat.le_refl _) (by simp [hkind, TokenKind.binary?]) (by simp [hkind])).reads
        (stops_of_not_operator (by rw [hkind]; rfl) (by simp [hkind]))
    refine .of_opening ?_
    simpa [Expr.tokens] using Reads.group ho hinner hc

/-- A phrase of a nonterminal is read if it ends in front of what follows it. -/
theorem Phrase.reads (min : Precedence) {e : Expr} {rest : List Token}
    (h : Phrase (.ofPrecedence min) e) (hstops : Stops min rest) :
    Reads (.phrase min) (e.tokens ++ rest) e rest :=
  (h.readsThrough (Nat.le_refl _) (fun o ho => le_precedence_ofPrecedence (hstops.1 o ho))
    hstops.2).reads hstops

/-! ### One tree at most -/

/-- The first token decides on the rule, and for a name the one behind it; a chain goes on exactly
if its operator binds tightly enough. -/
theorem Reads.unique {task : Task} {ts rest rest' : List Token} {e e' : Expr}
    (h : Reads task ts e rest) (h' : Reads task ts e' rest') : e = e' ∧ rest = rest' := by
  -- Rules for openings exclude each other by the kind of the first token.
  induction h generalizing e' rest' with
  | literal h =>
    cases h' with
    | literal h' => exact ⟨rfl, rfl⟩
    | name h' hstay => simp [h'] at h
    | assign h' heq hv => simp [h'] at h
    | group hl he hr => simp [hl] at h
    | unary hop he => rcases hop with hop | hop <;> simp [hop] at h
  | name h hstay =>
    cases h' with
    | literal h' => simp [h] at h'
    | name h' hstay' => exact ⟨rfl, rfl⟩
    | assign h' heq hv => exact absurd heq (hstay rfl)
    | group hl he hr => simp [hl] at h
    | unary hop he => rcases hop with hop | hop <;> simp [hop] at h
  | assign h heq hv ih =>
    cases h' with
    | literal h' => simp [h] at h'
    | name h' hstay => exact absurd heq (hstay rfl)
    | assign h' heq' hv' =>
      obtain ⟨rfl, rfl⟩ := ih hv'
      exact ⟨rfl, rfl⟩
    | group hl he hr => simp [hl] at h
    | unary hop he => rcases hop with hop | hop <;> simp [hop] at h
  | group hl he hr ih =>
    cases h' with
    | literal h' => simp [hl] at h'
    | name h' hstay => simp [h'] at hl
    | assign h' heq hv => simp [h'] at hl
    | group hl' he' hr' =>
      obtain ⟨rfl, heq⟩ := ih he'
      obtain ⟨rfl, rfl⟩ := List.cons.inj heq
      exact ⟨rfl, rfl⟩
    | unary hop he => rcases hop with hop | hop <;> simp [hop] at hl
  | unary hop he ih =>
    cases h' with
    | literal h' => rcases hop with hop | hop <;> simp [hop] at h'
    | name h' hstay => rcases hop with hop | hop <;> simp [hop] at h'
    | assign h' heq hv => rcases hop with hop | hop <;> simp [hop] at h'
    | group hl he hr => rcases hop with hop | hop <;> simp [hop] at hl
    | unary hop' he' =>
      obtain ⟨rfl, rfl⟩ := ih he'
      exact ⟨rfl, rfl⟩
  | phrase ho hc hend iho ihc =>
    cases h' with
    | phrase ho' hc' hend' =>
      obtain ⟨rfl, rfl⟩ := iho ho'
      exact ihc hc'
  | stop h =>
    cases h' with
    | stop h' => exact ⟨rfl, rfl⟩
    | extend hop hmin hr he => exact absurd hmin (Nat.not_le.2 (h _ hop))
  | extend hop hmin hr he ihr ihe =>
    cases h' with
    | stop h' => exact absurd hmin (Nat.not_le.2 (h' _ hop))
    | extend hop' hmin' hr' he' =>
      obtain rfl := Option.some.inj (hop.symm.trans hop')
      obtain ⟨rfl, rfl⟩ := ihr hr'
      exact ihe he'

/-- A sentence that is followed by no operator and no `=` has one tree. -/
theorem Phrase.unique {e e' : Expr} {rest rest' : List Token} (h : Phrase .assignment e)
    (h' : Phrase .assignment e') (hstops : Stops .assignment rest)
    (hstops' : Stops .assignment rest') (heq : e.tokens ++ rest = e'.tokens ++ rest') :
    e = e' ∧ rest = rest' :=
  (Phrase.reads .assignment h hstops).unique
    (heq ▸ Phrase.reads .assignment h' hstops')

end OnePass
