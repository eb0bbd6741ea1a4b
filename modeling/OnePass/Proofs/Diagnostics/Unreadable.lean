import OnePass.Cli
import OnePass.Proofs.Course.Statement
import OnePass.Proofs.Diagnostics.Tally
import OnePass.Proofs.Lexical.Literal

/-!
# OnePass.Proofs.Diagnostics.Unreadable

A source with an error token is never compiled. A compilation that succeeds has come to the
end of its tokens (`run_ends`), and none of those that it has pulled on the way is an
error (`Does.reads_all`), wherever that token stands: in front of the first declaration,
inside of one, among tokens that are skipped, or behind the last.
-/

namespace OnePass

namespace Parser

/-! ### The end of the tokens -/

/-- The last token that a unit without an error takes is an end token. -/
theorem run_ends {unit : UnitKind} {p : Parser} (hnesting : p.nesting < maxNesting)
    (h : (p.run unit).hadError = false) :
    ∃ q, Reaches p q ∧ q.current.kind = .eof ∧ p.run unit = q.advance.emit .ret := by
  cases unit with
  | program =>
    obtain ⟨log, hcourse⟩ := declarations_course .eof (Nat.lt_succ_self p.tokensLeft) hnesting
    have hend := hcourse.declarations_end
    rw [Bool.or_self] at hend
    exact ⟨_, declarations_reaches _ _ _, of_decide_eq_true hend, rfl⟩
  | expression =>
    have hrun : p.run .expression = (p.expression.consume .eof .inputEndMissing).emit .ret := rfl
    have hconsumed : (p.expression.consume .eof .inputEndMissing).hadError = false := h
    rw [hrun]
    unfold consume at hconsumed ⊢
    split at hconsumed
    · rename_i hend
      rw [if_pos hend]
      exact ⟨_, p.expression_does.reaches, of_decide_eq_true hend, rfl⟩
    · rw [errorAtCurrent, errorAt_hadError] at hconsumed
      cases hconsumed

/-- Behind the last token there is nothing but end tokens. -/
theorem Pulled.at_end {n : Nat} {p q : Parser} (h : Pulled n p q)
    (hpending : p.stream.pending = []) (hend : p.current.kind = .eof) :
    q.stream.pending = [] ∧ q.current.kind = .eof := by
  have hdrop : ∀ k, (p.stream.drop k).pending = [] := by
    intro k
    rw [TokenStream.drop, hpending, List.drop_nil]
  refine ⟨h.stream ▸ hdrop n, ?_⟩
  rw [h.current]
  cases n with
  | zero => exact hend
  | succ k =>
    rw [currentAfter, TokenStream.next_eq, hdrop k]
    rfl

/-- At the first end token all tokens have been pulled, and without an error none of them
is an error token. -/
theorem Does.reads_all {stream : TokenStream} {strings : Interner} {q : Parser}
    (h : Reaches (start stream strings) q) (hends : ∀ t ∈ stream.pending, t.kind ≠ .eof)
    (hend : q.current.kind = .eof) (hq : q.hadError = false) :
    q.stream.pending = [] ∧ ∀ t ∈ stream.pending, t.kind ≠ .error := by
  obtain ⟨n, hn, hfaultless⟩ := h.pulled_faultless hq
  have hfirst : Pulled _ (origin stream strings) (start stream strings) := advance_pulled _
  have hpulled := hfirst.trans hn
  have hall := hfirst.faultless_add (advance_faultless (h.no_error hq)) hfaultless
  rw [Nat.add_right_comm] at hpulled hall
  -- The last token that was pulled is the end, so that none was left in front of it.
  obtain ⟨k, hpulled, hall⟩ : ∃ k, Pulled (k + 1) (origin stream strings) q
      ∧ ∀ t ∈ stream.pending.take (k + 1), t.kind ≠ .error := ⟨_, hpulled, hall⟩
  have hcurrent : q.current = (stream.drop k).next.1 := hpulled.current
  cases hleft : stream.pending.drop k with
  | nil =>
    have hlength := List.drop_eq_nil_iff.1 hleft
    rw [List.take_of_length_le (Nat.le_succ_of_le hlength)] at hall
    refine ⟨?_, hall⟩
    have hstream : q.stream = stream.drop (k + 1) := hpulled.stream
    rw [hstream]
    exact List.drop_eq_nil_iff.2 (Nat.le_succ_of_le hlength)
  | cons t rest =>
    have ht : q.current = t := by rw [hcurrent, TokenStream.drop, hleft, TokenStream.next_cons]
    have hmem : t ∈ stream.pending := List.mem_of_mem_drop (hleft ▸ List.mem_cons_self)
    exact absurd (ht ▸ hend) (hends t hmem)

/-- A unit without an error has pulled all tokens, of which none is an error. -/
theorem run_reads_all {unit : UnitKind} {stream : TokenStream} {strings : Interner}
    (hends : ∀ t ∈ stream.pending, t.kind ≠ .eof)
    (h : ((start stream strings).run unit).hadError = false) :
    ((start stream strings).run unit).stream.pending = []
      ∧ ((start stream strings).run unit).current.kind = .eof
      ∧ ∀ t ∈ stream.pending, t.kind ≠ .error := by
  obtain ⟨q, hq, hend, hlast⟩ := run_ends (start_nesting_lt stream strings) h
  have hrun : Reaches q ((start stream strings).run unit) := by
    rw [hlast]
    exact (q.advance_does.append (emit_does _ _)).reaches
  obtain ⟨hpending, hnone⟩ := hq.reads_all hends hend (hrun.no_error h)
  obtain ⟨n, hn⟩ := hrun.pulled
  obtain ⟨hpending, hend⟩ := hn.at_end hpending hend
  exact ⟨hpending, hend, hnone⟩

end Parser

/-! ### Sources -/

open OnePass.Parser

theorem ofSource_reads_all {unit : UnitKind} {source : String} {strings : Interner}
    (h : (Parser.ofSource unit source strings).hadError = false) :
    (Parser.ofSource unit source strings).stream.pending = []
      ∧ (Parser.ofSource unit source strings).current.kind = .eof
      ∧ ∀ t ∈ tokenize source, t.kind ≠ .error := by
  obtain ⟨hpending, hend, hnone⟩ := run_reads_all (fun _ => kind_ne_eof_of_mem) h
  refine ⟨hpending, hend, fun t ht => ?_⟩
  rcases List.mem_append.1 ht with ht | ht
  · exact hnone t ht
  · rw [List.mem_singleton.1 ht]
    exact TokenKind.noConfusion

theorem hadError_of_ok {unit : UnitKind} {source : String} {strings : Interner} {chunk : Chunk}
    (h : (compileUnit unit source strings).1 = .ok chunk) :
    (Parser.ofSource unit source strings).hadError = false := by
  rw [compileUnit, Parser.result] at h
  split at h
  · cases h
  · rename_i hnone
    exact Bool.eq_false_iff.2 hnone

/-- A source that is compiled from the command line has no error token. -/
theorem runCompile_reads_all {unit : UnitKind} {name source : String} {json : Bool}
    (h : (Cli.runCompile unit name json source).exit = Cli.exitSuccess) :
    ∀ t ∈ tokenize source, t.kind ≠ .error := by
  unfold Cli.runCompile at h
  cases hresult : (compileUnit unit source .empty).1 with
  | ok chunk => exact (ofSource_reads_all (hadError_of_ok hresult)).2.2
  | error e =>
    have hexit : Cli.exitFaulty ≠ Cli.exitSuccess := by decide
    simp only [hresult] at h
    split at h <;> exact absurd h hexit

theorem runTokenize_exit {json : Bool} {source : String} :
    (Cli.runTokenize json source).exit = Cli.exitSuccess
      ↔ ∀ t ∈ tokenize source, t.kind ≠ .error := by
  have hexit : Cli.exitFaulty ≠ Cli.exitSuccess := by decide
  have hnone : ((tokenize source).filter (·.kind = .error)).isEmpty = true
      ↔ ∀ t ∈ tokenize source, t.kind ≠ .error := by simp
  rw [← hnone, Cli.runTokenize]
  split <;> simp [*]

/-- A source with an error token, wherever it stands, is not compiled and gets a report. A
compilation that succeeds has pulled every token of the source, and none was an error; on
the command line, the tokens of a file that is compiled are listed without an error. -/
theorem error_token_fails :
    (∀ unit source strings, (∃ t ∈ tokenize source, t.kind = .error) →
      ∃ e, (compileUnit unit source strings).1 = .error e ∧ e.diagnostics ≠ [])
    ∧ (∀ unit source strings chunk, (compileUnit unit source strings).1 = .ok chunk →
      (Parser.ofSource unit source strings).stream.pending = []
        ∧ (Parser.ofSource unit source strings).current.kind = .eof
        ∧ ∀ t ∈ tokenize source, t.kind ≠ .error)
    ∧ ∀ (options listing : Cli.Options) file, listing.command = .tokenize →
      (Cli.run options file).exit = Cli.exitSuccess →
      (Cli.run listing file).exit = Cli.exitSuccess := by
  refine ⟨fun unit source strings => ?_, fun unit source strings chunk h => ?_,
    fun options listing file hlisting h => ?_⟩
  · rintro ⟨t, ht, hkind⟩
    cases herror : (Parser.ofSource unit source strings).hadError with
    | true =>
      obtain ⟨ended, htally⟩ := ofSource_tally unit source strings
      exact ⟨_, compileUnit_eq_error_iff.2 ⟨herror, rfl⟩, htally.noted.1 herror⟩
    | false => exact absurd hkind ((ofSource_reads_all herror).2.2 t ht)
  · exact ofSource_reads_all (hadError_of_ok h)
  · unfold Cli.run at h ⊢
    cases hread : Cli.readSource file with
    | error e =>
      have hexit : Cli.exitUnreadable ≠ Cli.exitSuccess := by decide
      simp only [hread] at h
      exact absurd h hexit
    | ok source =>
      have hnone : ∀ t ∈ tokenize source, t.kind ≠ .error := by
        simp only [hread] at h
        split at h
        · exact runTokenize_exit.1 h
        · exact runCompile_reads_all h
        · exact runCompile_reads_all h
      rw [hlisting]
      exact runTokenize_exit.2 hnone

end OnePass
