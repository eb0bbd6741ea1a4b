import Mathlib.Data.List.TakeWhile
import OnePass.Proofs.Parser.Congruence

/-!
# OnePass.Proofs.Parser.Screened

Error tokens and panics are not seen by the rules for expressions. A run on tokens with
errors among them and a run on the same tokens without them stand in front of the same
tokens, have written the same and have the same names in scope, though one of them may be
in a panic and the other not (`Screened`). Reports and their suppression are all that
comes of an error token (`singleExpression_screened`).
-/

namespace OnePass

namespace TokenStream

/-- The stream without its error tokens. -/
def withoutErrors (s : TokenStream) : TokenStream :=
  { s with pending := s.pending.filter (·.kind ≠ .error) }

/-- Whether a view of streams shows the tokens that are not errors, in order, and no errors
where there are none. -/
structure Screens (f : TokenStream → TokenStream) : Prop where
  next (s) : (f s).afterErrors.next = (s.afterErrors.next.1, f s.afterErrors.next.2)
  errors (s) : (f s).leadingErrors ≠ [] → s.leadingErrors ≠ []

/-- The view that shows everything is good for two runs on the same tokens, of which one is in a
panic. -/
theorem screens_id : Screens id := ⟨fun _ => rfl, fun _ => id⟩

theorem leadingErrors_withoutErrors (s : TokenStream) : s.withoutErrors.leadingErrors = [] := by
  rw [leadingErrors, withoutErrors]
  cases hfilter : s.pending.filter (·.kind ≠ .error) with
  | nil => rfl
  | cons t rest =>
    have ht : t ∈ s.pending.filter (·.kind ≠ .error) := hfilter ▸ List.mem_cons_self
    exact List.takeWhile_cons_of_neg (by simpa using (List.mem_filter.1 ht).2)

/-- Without the errors the next token is the same, as errors are passed over anyway. -/
theorem screens_withoutErrors : Screens withoutErrors := by
  refine ⟨fun ⟨pending, endOffset, endLine⟩ => ?_,
    fun s herrors => absurd s.leadingErrors_withoutErrors herrors⟩
  induction pending with
  | nil => rfl
  | cons t rest ih =>
    by_cases ht : t.kind = .error
    · simpa [withoutErrors, afterErrors, ht] using ih
    · simp [withoutErrors, afterErrors, ht]

/-- Handing out the next token that is not an error takes away those in front of it, and it
itself unless the end has been reached. -/
theorem exists_taken (s : TokenStream) :
    ∃ taken, s.pending = s.leadingErrors ++ taken ++ s.afterErrors.next.2.pending
      ∧ ∀ t ∈ taken, t.kind ≠ .error := by
  have hkind := s.afterErrors_next_kind
  have happ := s.leadingErrors_append
  cases hrest : s.afterErrors.pending with
  | nil =>
    refine ⟨[], ?_, nofun⟩
    rw [TokenStream.next, hrest, List.append_nil, hrest, ← happ, hrest]
  | cons t rest =>
    refine ⟨[t], ?_, fun u hu => ?_⟩
    · rw [TokenStream.next, hrest, ← happ, hrest, List.append_assoc]
      rfl
    · rw [List.mem_singleton.1 hu]
      rwa [TokenStream.next, hrest] at hkind

end TokenStream

open TokenStream

namespace Parser

/-! ### Runs side by side -/

/-- Two states that differ in what errors leave behind. The second one reads the first
one's tokens through the view `f`, and an error is known to the first exactly if it is
known to the second, or an error token is among the `tokens` that have been pulled. -/
structure Screened (f : TokenStream → TokenStream) (tokens : List Token) (p q : Parser) :
    Prop where
  stream : q.stream = f p.stream
  current : q.current = p.current
  previous : q.previous = p.previous
  chunk : q.chunk = p.chunk
  strings : q.strings = p.strings
  scope : q.scope = p.scope
  nesting : q.nesting = p.nesting
  pulled : ∃ pulled, tokens = pulled ++ p.stream.pending
    ∧ (p.hadError = true ↔ q.hadError = true ∨ ∃ t ∈ pulled, t.kind = .error)

namespace Screened

variable {f : TokenStream → TokenStream} {tokens : List Token} {p q : Parser}

/-- An error is one in both runs, reported or not, wherever it is placed. -/
theorem errorAt (h : Screened f tokens p q) (t u : Token) (problem : Problem) :
    Screened f tokens (p.errorAt t problem) (q.errorAt u problem) where
  stream := by rw [errorAt_stream, errorAt_stream, h.stream]
  current := by rw [errorAt_current, errorAt_current, h.current]
  previous := by rw [errorAt_previous, errorAt_previous, h.previous]
  chunk := by rw [errorAt_chunk, errorAt_chunk, h.chunk]
  strings := by rw [errorAt_strings, errorAt_strings, h.strings]
  scope := by rw [errorAt_scope, errorAt_scope, h.scope]
  nesting := by rw [errorAt_nesting, errorAt_nesting, h.nesting]
  pulled := by
    obtain ⟨pulled, htokens, -⟩ := h.pulled
    refine ⟨pulled, by rw [errorAt_stream, htokens], ?_⟩
    rw [errorAt_hadError, errorAt_hadError]
    exact iff_of_true rfl (.inl rfl)

/-- Both runs come to the same token. The first one may meet errors on the way, and has noted them
by then. -/
theorem advance (hf : Screens f) (h : Screened f tokens p q) :
    Screened f tokens p.advance q.advance where
  stream := by
    show q.stream.afterErrors.next.2 = f p.stream.afterErrors.next.2
    rw [h.stream, hf.next]
  current := by
    show q.stream.afterErrors.next.1 = p.stream.afterErrors.next.1
    rw [h.stream, hf.next]
  previous := by rw [advance_previous, advance_previous, h.current]
  chunk := by rw [advance_chunk, advance_chunk, h.chunk]
  strings := by rw [advance_strings, advance_strings, h.strings]
  scope := by rw [advance_scope, advance_scope, h.scope]
  nesting := by rw [advance_nesting, advance_nesting, h.nesting]
  pulled := by
    obtain ⟨pulled, htokens, herror⟩ := h.pulled
    obtain ⟨taken, hpending, htaken⟩ := p.stream.exists_taken
    refine ⟨pulled ++ p.stream.leadingErrors ++ taken, ?_, ?_⟩
    · rw [htokens, hpending]
      simp only [List.append_assoc]
      rfl
    · -- Only the errors in front of the next token are new among what has been pulled.
      have hleading : ∀ t ∈ p.stream.leadingErrors, t.kind = .error := by
        intro t ht
        simpa using List.mem_takeWhile_imp ht
      have hnew : (∃ t ∈ pulled ++ p.stream.leadingErrors ++ taken, t.kind = .error)
          ↔ (∃ t ∈ pulled, t.kind = .error) ∨ p.stream.leadingErrors ≠ [] := by
        constructor
        · rintro ⟨t, ht, hkind⟩
          rcases List.mem_append.1 ht with ht | ht
          · rcases List.mem_append.1 ht with ht | ht
            · exact .inl ⟨t, ht, hkind⟩
            · exact .inr (List.ne_nil_of_mem ht)
          · exact absurd hkind (htaken t ht)
        · rintro (⟨t, ht, hkind⟩ | hne)
          · exact ⟨t, by simp [ht], hkind⟩
          · obtain ⟨t, ht⟩ := List.exists_mem_of_ne_nil _ hne
            exact ⟨t, by simp [ht], hleading t ht⟩
      have hview := hf.errors p.stream
      rw [hnew, advance_hadError, advance_hadError, h.stream]
      simp only [Bool.or_eq_true, Bool.not_eq_true', List.isEmpty_eq_false_iff, herror]
      constructor
      · rintro ((hq | ht) | hleading)
        · exact .inl (.inl hq)
        · exact .inr (.inl ht)
        · exact .inr (.inr hleading)
      · rintro ((hq | hleading) | ht | hleading)
        · exact .inl (.inl hq)
        · exact .inr (hview hleading)
        · exact .inl (.inr ht)
        · exact .inr hleading

theorem emit (h : Screened f tokens p q) (op : OpCode) :
    Screened f tokens (p.emit op) (q.emit op) :=
  { h with chunk := by rw [Parser.emit, Parser.emit, h.chunk, h.previous] }

theorem emitWith (h : Screened f tokens p q) (op : OpCode) (operand : UInt8) :
    Screened f tokens (p.emitWith op operand) (q.emitWith op operand) :=
  { h with chunk := by rw [Parser.emitWith, Parser.emitWith, h.chunk, h.previous] }

/-! ### Constants and names -/

/-- An index that does not fit is an error in both runs, as both pools are the same. -/
theorem makeConstant (h : Screened f tokens p q) (value : Value) :
    (p.makeConstant value).1 = (q.makeConstant value).1
      ∧ Screened f tokens (p.makeConstant value).2 (q.makeConstant value).2 := by
  have hadded : Screened f tokens { p with chunk := (p.chunk.addConstant value).2 }
      { q with chunk := (q.chunk.addConstant value).2 } :=
    { h with chunk := congrArg (fun c => (Chunk.addConstant c value).2) h.chunk }
  unfold Parser.makeConstant
  dsimp only
  rw [h.chunk] at hadded ⊢
  split
  · exact ⟨rfl, hadded⟩
  · exact ⟨rfl, hadded.errorAt _ _ _⟩

theorem makeText (h : Screened f tokens p q) (text : String) :
    (p.makeText text).1 = (q.makeText text).1
      ∧ Screened f tokens (p.makeText text).2 (q.makeText text).2 := by
  have hstored : Screened f tokens { p with strings := (p.strings.intern text).2 }
      { q with strings := (q.strings.intern text).2 } :=
    { h with strings := congrArg (fun s => (Interner.intern s text).2) h.strings }
  have hmade := hstored.makeConstant (.text (p.strings.intern text).1)
  unfold Parser.makeText
  dsimp only
  rw [h.strings] at hmade ⊢
  exact hmade

theorem number (h : Screened f tokens p q) : Screened f tokens p.number q.number := by
  unfold Parser.number
  rw [h.previous]
  split
  · rename_i x _
    obtain ⟨hindex, hmade⟩ := h.makeConstant (.number x)
    unfold emitConstant
    dsimp only
    rw [hindex]
    exact hmade.emitWith _ _
  · exact h.errorAt _ _ _

theorem string (h : Screened f tokens p q) : Screened f tokens p.string q.string := by
  obtain ⟨hindex, hmade⟩ := h.makeText p.previous.contents
  unfold Parser.string
  dsimp only
  rw [h.previous, hindex]
  exact hmade.emitWith _ _

/-- Names are looked up in the scope and stored by their text, neither of which an error token can
change. -/
theorem place (h : Screened f tokens p q) :
    (p.place p.previous).1 = (q.place q.previous).1
      ∧ Screened f tokens (p.place p.previous).2 (q.place q.previous).2 := by
  have hslot : q.resolveLocal p.previous = p.resolveLocal p.previous := by
    rw [resolveLocal, resolveLocal, h.scope]
  unfold Parser.place
  rw [h.previous, hslot]
  split
  · exact ⟨rfl, h⟩
  · obtain ⟨hindex, hmade⟩ := h.makeText p.previous.lexeme
    exact ⟨congrArg Place.global hindex, hmade⟩

end Screened

/-! ### Whole expressions -/

variable {f : TokenStream → TokenStream} {tokens : List Token}

theorem exprCongruence_screened (hf : Screens f) : ExprCongruence (Screened f tokens) where
  current_kind h := congrArg Token.kind h.current.symm
  previous_kind h := congrArg Token.kind h.previous.symm
  nesting h := h.nesting.symm
  advance h := h.advance hf
  error problem h := h.errorAt _ _ problem
  errorAtCurrent problem h := h.errorAt _ _ problem
  emit op h := h.emit op
  emitWith op operand h := h.emitWith op operand
  nest _ h := { h with nesting := rfl }
  number h := h.number
  string h := h.string
  place h := h.place

/-- In front of the first token nothing has been pulled, and both runs are the same. -/
theorem start_screened (stream : TokenStream) (strings : Interner) :
    Screened withoutErrors stream.pending (start stream strings)
      (start stream.withoutErrors strings) := by
  refine Screened.advance screens_withoutErrors ⟨rfl, rfl, rfl, rfl, rfl, rfl, rfl, [], rfl, ?_⟩
  simp

/-- A panic changes nothing but reports: whatever mode an expression is compiled in, and
whatever has been reported before, it takes the same tokens, and comes to the same state but
for mode and reports. -/
theorem parsePrecedence_mode (p : Parser) (min : Precedence) (mode : Mode)
    (diagnostics : List Diagnostic) :
    ∃ mode' diagnostics', ({ p with mode, diagnostics } : Parser).parsePrecedence min
      = { p.parsePrecedence min with mode := mode', diagnostics := diagnostics' } := by
  -- The relation is used in both directions, because each of them only bounds one of the flags by
  -- the other.
  have hthere : Screened id p.stream.pending p { p with mode, diagnostics } :=
    ⟨rfl, rfl, rfl, rfl, rfl, rfl, rfl, [], rfl, by simp⟩
  have hback : Screened id p.stream.pending { p with mode, diagnostics } p :=
    ⟨rfl, rfl, rfl, rfl, rfl, rfl, rfl, [], rfl, by simp⟩
  have c : ExprCongruence (Screened id p.stream.pending) := exprCongruence_screened screens_id
  have hthere := c.parseLevel maxNesting min hthere
  have hback := c.parseLevel maxNesting min hback
  unfold parsePrecedence
  generalize parseLevel maxNesting min p = a at hthere hback ⊢
  generalize parseLevel maxNesting min { p with mode, diagnostics } = b at hthere hback ⊢
  have herror : b.hadError = a.hadError := by
    obtain ⟨_, -, hab⟩ := hthere.pulled
    obtain ⟨_, -, hba⟩ := hback.pulled
    rw [Bool.eq_iff_iff]
    exact ⟨fun hb => hab.2 (.inl hb), fun ha => hba.2 (.inl ha)⟩
  refine ⟨b.mode, b.diagnostics, ?_⟩
  obtain ⟨hstream, hcurrent, hprevious, hchunk, hstrings, hscope, hnesting, -⟩ := hthere
  -- All other fields agree, so the states differ in mode and reports alone.
  cases a
  cases b
  subst_vars
  rfl

/-- Error tokens never reach the grammar. From any tokens a single expression comes to the
same code, constants and stored texts as from those of them that are not errors, and stops
in front of the same tokens; there has been an error in it exactly if there has been one
without the error tokens, or one of them has been pulled. A panic that they cause does not
change what an expression takes and writes. -/
theorem singleExpression_screened :
    (∀ (stream : TokenStream) (strings : Interner),
      let p := (start stream strings).singleExpression
      let q := (start stream.withoutErrors strings).singleExpression
      (q.chunk = p.chunk ∧ q.strings = p.strings)
        ∧ (q.stream = p.stream.withoutErrors ∧ q.current = p.current
          ∧ q.previous = p.previous)
        ∧ ∃ pulled, stream.pending = pulled ++ p.stream.pending
          ∧ (p.hadError = true ↔ q.hadError = true ∨ ∃ t ∈ pulled, t.kind = .error))
    ∧ ∀ (p : Parser) min mode diagnostics, ∃ mode' diagnostics',
      ({ p with mode, diagnostics } : Parser).parsePrecedence min
        = { p.parsePrecedence min with mode := mode', diagnostics := diagnostics' } := by
  refine ⟨fun stream strings => ?_, parsePrecedence_mode⟩
  have c : ExprCongruence (Screened withoutErrors stream.pending) :=
    exprCongruence_screened screens_withoutErrors
  have h : Screened withoutErrors stream.pending (start stream strings).singleExpression
      (start stream.withoutErrors strings).singleExpression :=
    c.emit .ret (c.consume .eof .inputEndMissing (c.expression (start_screened stream strings)))
  exact ⟨⟨h.chunk, h.strings⟩, ⟨h.stream, h.current, h.previous⟩, h.pulled⟩

end Parser

end OnePass
