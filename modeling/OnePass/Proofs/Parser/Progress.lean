import OnePass.Proofs.Parser.Window

/-!
# OnePass.Proofs.Parser.Progress

How many tokens the parser pulls from its stream. The stream hands them out one after the
other and is never wound back, and the one that was handed out last is current (`Pulled`).
Whatever the parser does is such a progress (`Does.pulled`), and without an error none
of the tokens that it has pulled is an error (`Does.pulled_faultless`). A declaration
takes a token before it does anything else (`declaration_behind`), so that the number of tokens
that are left goes down with it, and so does a unit (`run_behind`).
-/

namespace OnePass

/-! ### Streams from which tokens have been pulled -/

namespace TokenStream

/-- The stream after it has handed out a number of tokens. -/
def drop (s : TokenStream) (n : Nat) : TokenStream := { s with pending := s.pending.drop n }

@[simp] theorem drop_zero (s : TokenStream) : s.drop 0 = s := rfl

/-- The next token is handed out behind those that have been. -/
theorem next_drop (s : TokenStream) (n : Nat) : (s.drop n).next.2 = s.drop (n + 1) := by
  rw [next_eq, drop, drop, List.tail_drop]

theorem drop_drop (s : TokenStream) (n k : Nat) : (s.drop n).drop k = s.drop (n + k) := by
  simp only [drop, List.drop_drop]

theorem length_drop_le (s : TokenStream) (n : Nat) :
    (s.drop n).pending.length ≤ s.pending.length := by
  simp only [drop, List.length_drop]
  omega

theorem afterErrors_eq_drop (s : TokenStream) :
    s.afterErrors = s.drop s.leadingErrors.length := by
  have hpending : s.pending.drop s.leadingErrors.length = s.afterErrors.pending := by
    rw [← s.leadingErrors_append, List.drop_left]
  rw [drop, hpending]
  rfl

end TokenStream

namespace Parser

/-- The current token when a number of tokens have been pulled. -/
def currentAfter (p : Parser) : Nat → Token
  | 0 => p.current
  | n + 1 => (p.stream.drop n).next.1

/-- Between two states a number of tokens have been pulled, of which the last is current. -/
structure Pulled (n : Nat) (p q : Parser) : Prop where
  stream : q.stream = p.stream.drop n
  current : q.current = p.currentAfter n

variable {p q r : Parser} {n k : Nat} {deed : Deed} {deeds : Footprint}

theorem Pulled.refl (p : Parser) : Pulled 0 p p := ⟨rfl, rfl⟩

theorem Pulled.trans (h : Pulled n p q) (h' : Pulled k q r) : Pulled (n + k) p r := by
  refine ⟨?_, ?_⟩
  · rw [h'.stream, h.stream, TokenStream.drop_drop]
  · cases k with
    | zero => exact h'.current.trans h.current
    | succ k =>
      rw [h'.current, currentAfter, h.stream, TokenStream.drop_drop]
      rfl

/-- Taking a token pulls the errors behind it and one token more. -/
theorem advance_pulled (p : Parser) : Pulled (p.stream.leadingErrors.length + 1) p p.advance := by
  refine ⟨?_, ?_⟩
  · rw [← TokenStream.next_drop, ← TokenStream.afterErrors_eq_drop]
    rfl
  · rw [currentAfter, ← TokenStream.afterErrors_eq_drop]
    rfl

/-- Only the taking of a token pulls any. -/
theorem Action.pulled (h : Action deed p q) : ∃ n, Pulled n p q := by
  cases h with
  | advance => exact ⟨_, p.advance_pulled⟩
  | blame | report => exact ⟨0, errorAt_stream .., errorAt_current ..⟩
  | _ => exact ⟨0, rfl, rfl⟩

theorem Does.pulled (h : Does deeds p q) : ∃ n, Pulled n p q := by
  refine h.keeps (motive := fun r => ∃ n, Pulled n p r) (fun _ haction hr => ?_) ⟨0, .refl p⟩
  obtain ⟨n, hn⟩ := hr
  obtain ⟨k, hk⟩ := haction.pulled
  exact ⟨n + k, hn.trans hk⟩

/-! ### Tokens that are left -/

theorem Pulled.tokensLeft_le_pending (h : Pulled (n + 1) p q) :
    q.tokensLeft ≤ p.stream.pending.length := by
  have hnext := (p.stream.drop n).length_next_le
  rw [TokenStream.next_drop] at hnext
  have hle := p.stream.length_drop_le n
  rw [tokensLeft, h.stream, h.current, currentAfter]
  omega

theorem Pulled.tokensLeft_le (h : Pulled n p q) : q.tokensLeft ≤ p.tokensLeft := by
  cases n with
  | zero => rw [tokensLeft, h.stream, h.current, TokenStream.drop_zero]; exact Nat.le_refl _
  | succ n => exact Nat.le_trans h.tokensLeft_le_pending (Nat.le_add_right ..)

/-- Pulling a token leaves less, if the current one is not the end. -/
theorem Pulled.tokensLeft_lt (h : Pulled (n + 1) p q) (hp : p.current.kind ≠ .eof) :
    q.tokensLeft < p.tokensLeft := by
  have hle := h.tokensLeft_le_pending
  have hleft : p.tokensLeft = p.stream.pending.length + 1 := by rw [tokensLeft, if_neg hp]
  omega

theorem Does.tokensLeft_le (h : Does deeds p q) : q.tokensLeft ≤ p.tokensLeft := by
  obtain ⟨n, hn⟩ := h.pulled
  exact hn.tokensLeft_le

/-! ### Errors that are pulled -/

/-- None of the next tokens of a number is an error. -/
def Faultless (n : Nat) (p : Parser) : Prop := ∀ t ∈ p.stream.pending.take n, t.kind ≠ .error

theorem Pulled.faultless_add (h : Pulled n p q) (hp : p.Faultless n) (hq : q.Faultless k) :
    p.Faultless (n + k) := by
  intro t ht
  rw [List.take_add] at ht
  rcases List.mem_append.1 ht with ht | ht
  · exact hp t ht
  · refine hq t ?_
    rw [h.stream]
    exact ht

/-- Without an error no error token is behind the current one. -/
theorem advance_faultless (h : p.advance.hadError = false) :
    p.Faultless (p.stream.leadingErrors.length + 1) := by
  have hnone : p.stream.leadingErrors = [] := by
    rw [advance_hadError] at h
    simpa using ((Bool.or_eq_false_iff).1 h).2
  rw [Faultless, hnone]
  intro t ht
  rw [TokenStream.leadingErrors] at hnone
  cases hpending : p.stream.pending with
  | nil => simp [hpending] at ht
  | cons u rest =>
    have heq : t = u := by simpa [hpending] using ht
    intro hkind
    rw [hpending, List.takeWhile_cons_of_pos (by simpa [← heq] using hkind)] at hnone
    cases hnone

/-- Without an error no error token has been pulled. -/
theorem Does.pulled_faultless (h : Does deeds p q) (hq : q.hadError = false) :
    ∃ n, Pulled n p q ∧ p.Faultless n := by
  induction h with
  | refl => exact ⟨0, .refl p, nofun⟩
  | @tail r q _ hstep ih =>
    obtain ⟨deed, -, haction⟩ := hstep
    obtain ⟨n, hn, hfaultless⟩ := ih (haction.does.no_error hq)
    cases haction with
    | advance =>
      exact ⟨_, hn.trans r.advance_pulled, hn.faultless_add hfaultless (advance_faultless hq)⟩
    | blame | report =>
      -- The state behind an error is in error.
      cases (errorAt_hadError ..).symm.trans hq
    | _ => exact ⟨n, ⟨hn.stream, hn.current⟩, hfaultless⟩

/-! ### States behind a token -/

/-- Between two states the current token is taken before anything else is done, except that
an expression may have been opened. -/
def Behind (p q : Parser) : Prop := ∃ nesting, Reaches { p with nesting }.advance q

theorem Reaches.behind (h : Reaches p.advance q) : Behind p q := ⟨p.nesting, h⟩

theorem Behind.trans (h : Behind p q) (h' : Reaches q r) : Behind p r := by
  obtain ⟨nesting, h⟩ := h
  exact ⟨nesting, h.trans h'⟩

/-- What follows the taking of a token has pulled at least one. -/
theorem Behind.pulled (h : Behind p q) : ∃ n, Pulled (n + 1) p q := by
  obtain ⟨nesting, h⟩ := h
  obtain ⟨k, hk⟩ := h.pulled
  obtain ⟨hstream, hcurrent⟩ := ({ p with nesting } : Parser).advance_pulled.trans hk
  refine ⟨p.stream.leadingErrors.length + k, ?_⟩
  rw [Nat.add_right_comm]
  exact ⟨hstream, hcurrent⟩

/-- Unless too many expressions are open, an expression takes a token first. -/
theorem parsePrecedence_behind (min : Precedence) (h : p.nesting < maxNesting) :
    Behind p (p.parsePrecedence min) := by
  rw [parsePrecedence_eq min h]
  have hclimb := climb_does_behind (parseLevel_works 255) min { p with nesting := p.nesting + 1 }
  exact ⟨_, hclimb.reaches.trans (Action.nest _ _).does.reaches⟩

theorem expression_behind (h : p.nesting < maxNesting) : Behind p p.expression :=
  parsePrecedence_behind .assignment h

section Body

variable {body : TokenKind → Parser → Parser}

theorem declarationBody_behind (hbody : ∀ closing p, Reaches p (body closing p))
    (h : p.nesting < maxNesting) : Behind p (declarationBody body p) := by
  unfold declarationBody statement
  split
  · exact (varDeclaration_works _).reaches.behind
  split
  · exact (printStatement_does _).reaches.behind
  split
  · exact (block_reaches hbody _).behind
  · have hrest : Does _ p.expression p.expressionStatement :=
      (consume_does _ _ _).append (emit_does _ _)
    exact (expression_behind h).trans hrest.reaches

/-- Every declaration takes a token first, if an expression can be opened in it. -/
theorem declaration_behind (hbody : ∀ closing p, Reaches p (body closing p))
    (h : p.nesting < maxNesting) : Behind p (declaration body p) := by
  refine (declarationBody_behind hbody h).trans ?_
  unfold declaration
  dsimp only
  split
  · exact (synchronize_does _).reaches
  · exact .refl

theorem declaration_pulled (hbody : ∀ closing p, Reaches p (body closing p))
    (h : p.nesting < maxNesting) : ∃ n, Pulled (n + 1) p (declaration body p) :=
  (declaration_behind hbody h).pulled

end Body

/-- A unit takes a token first, even if its source is empty. -/
theorem run_behind (unit : UnitKind) (h : p.nesting < maxNesting) : Behind p (p.run unit) := by
  cases unit with
  | program =>
    have hrest : ∀ q : Parser, Does _ q (q.advance.emit .ret) := fun q =>
      q.advance_does.append (emit_does _ _)
    show Behind p ((declarations (p.tokensLeft + 1) .eof p).advance.emit .ret)
    rw [declarations]
    split
    · exact (emit_does _ _).reaches.behind
    · have hfirst := declaration_behind (declarations_reaches p.tokensLeft) h
      exact hfirst.trans ((declarations_reaches _ _ _).trans (hrest _).reaches)
  | expression =>
    have hrest : Does _ p.expression p.singleExpression :=
      (consume_does _ _ _).append (emit_does _ _)
    exact (expression_behind h).trans hrest.reaches

end Parser

end OnePass
