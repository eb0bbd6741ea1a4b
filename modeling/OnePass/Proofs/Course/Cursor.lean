import Mathlib.Logic.Function.Iterate
import OnePass.Proofs.Course.Nesting
import OnePass.Proofs.Diagnostics.Located
import OnePass.Proofs.Parser.Screened

/-!
# OnePass.Proofs.Course.Cursor

Where the parser stands among its tokens. Of what the stream has handed out, the tokens that are
not errors have come through the window one by one and in order; the last of them is current,
nothing has been pulled behind it, and an error token that has been pulled is known as an error
(`Stands`). Taking a token keeps this up, for the next place, and nothing else that the parser
does moves the window (`Runs.window`), so that it holds all the way.

The statement is about a state and a number of tokens, and it determines the window: the current
token, the one before it, what the stream has left, and whether an error has been met on the way.
-/

namespace OnePass

/-! ### Tokens that are handed out -/

namespace TokenStream

/-- The tokens that a stream hands out first. -/
def firsts : Nat → TokenStream → List Token
  | 0, _ => []
  | n + 1, s => s.next.1 :: firsts n s.next.2

theorem firsts_add (n k : Nat) (s : TokenStream) :
    firsts (n + k) s = firsts n s ++ firsts k (s.drop n) := by
  induction n generalizing s with
  | zero => rw [Nat.zero_add]; rfl
  | succ n ih =>
    have hnext : s.next.2 = s.drop 1 := s.next_drop 0
    rw [Nat.add_right_comm, firsts, firsts, ih, List.cons_append, hnext, drop_drop, Nat.add_comm 1]

theorem firsts_succ (n : Nat) (s : TokenStream) :
    firsts (n + 1) s = firsts n s ++ [s.tokenAt n] :=
  firsts_add n 1 s

/-- Those that are pending come first. -/
theorem firsts_length {front : List Token} {s : TokenStream} (h : front <+: s.pending) :
    firsts front.length s = front := by
  induction front generalizing s with
  | nil => rfl
  | cons t rest ih =>
    obtain ⟨behind, hpending⟩ := h
    have hnext : s.next = (t, { s with pending := rest ++ behind }) := by
      rw [next, ← hpending, List.cons_append]
    rw [List.length_cons, firsts, hnext, ih (List.prefix_append _ _)]

theorem firsts_leadingErrors (s : TokenStream) :
    firsts s.leadingErrors.length s = s.leadingErrors :=
  firsts_length ⟨_, s.leadingErrors_append⟩

/-- The next token that is not an error comes behind the errors in front of it. -/
theorem tokenAt_leadingErrors (m : Nat) (s : TokenStream) :
    s.tokenAt (m + (s.drop m).leadingErrors.length) = (s.drop m).afterErrors.next.1 := by
  rw [← tokenAt_drop, tokenAt, ← afterErrors_eq_drop]

theorem firsts_leadingErrors_succ (m : Nat) (s : TokenStream) :
    firsts (m + (s.drop m).leadingErrors.length + 1) s
      = firsts m s ++ (s.drop m).leadingErrors ++ [(s.drop m).afterErrors.next.1] := by
  rw [firsts_succ, firsts_add, firsts_leadingErrors, tokenAt_leadingErrors]

/-- Of these tokens it is the only one that is not an error. -/
theorem filter_firsts_leadingErrors_succ (m : Nat) (s : TokenStream) :
    (firsts (m + (s.drop m).leadingErrors.length + 1) s).filter (·.kind ≠ .error)
      = (firsts m s).filter (·.kind ≠ .error) ++ [(s.drop m).afterErrors.next.1] := by
  have hnone : (s.drop m).leadingErrors.filter (·.kind ≠ .error) = [] := by
    refine List.filter_eq_nil_iff.2 fun t ht => ?_
    simpa using List.mem_takeWhile_imp ht
  have hkept : [(s.drop m).afterErrors.next.1].filter (·.kind ≠ .error)
      = [(s.drop m).afterErrors.next.1] :=
    List.filter_eq_self.2 (by simpa using (s.drop m).afterErrors_next_kind)
  rw [firsts_leadingErrors_succ, List.filter_append, List.filter_append, hnone, hkept,
    List.append_nil]

/-! ### Without error tokens -/

theorem afterErrors_withoutErrors (s : TokenStream) :
    s.withoutErrors.afterErrors = s.withoutErrors := by
  rw [afterErrors_eq_drop, leadingErrors_withoutErrors]
  rfl

/-- Without error tokens, the next token is the next that is not an error. -/
theorem next_withoutErrors (s : TokenStream) :
    s.withoutErrors.next = (s.afterErrors.next.1, s.afterErrors.next.2.withoutErrors) := by
  rw [← screens_withoutErrors.next, afterErrors_withoutErrors]

theorem kind_tokenAt_withoutErrors (s : TokenStream) (n : Nat) :
    (s.withoutErrors.tokenAt n).kind ≠ .error := by
  have hmem := List.mem_of_getElem? (s.withoutErrors.getElem?_toList n)
  rcases List.mem_append.1 hmem with hmem | hmem
  · simpa using (List.mem_filter.1 hmem).2
  · rw [List.mem_singleton.1 hmem, ending_kind]
    decide

end TokenStream

open TokenStream

namespace Parser

open Config

/-! ### The window -/

/-- The window and the tokens behind it. -/
structure Window where
  stream : TokenStream
  current : Token
  previous : Token

def window (p : Parser) : Window := ⟨p.stream, p.current, p.previous⟩

/-- The window is moved on by one token that is not an error. -/
def Window.advance (w : Window) : Window :=
  ⟨w.stream.afterErrors.next.2, w.stream.afterErrors.next.1, w.current⟩

section Window

variable {p q : Parser} {n : Nat} {c d : Config} {deeds : Footprint}

theorem advance_window (p : Parser) : p.advance.window = p.window.advance := by
  rw [window, advance_previous]
  rfl

theorem Does.window (h : Does deeds p q) (hstill : deeds.lacks .advance) : q.window = p.window := by
  obtain ⟨hstream, hcurrent, hprevious⟩ := h.window_eq hstill
  rw [Parser.window, hstream, hcurrent, hprevious]
  rfl

/-- The window only moves on, by as many tokens as are taken. -/
theorem Runs.window (h : Runs n c d) : d.state.window = Window.advance^[n] c.state.window := by
  have hkeeps := h.keeps (motive := fun k q => q.window = Window.advance^[k] c.state.window)
    (fun hdoes hstill hq => (hdoes.window hstill).trans hq)
    (fun {k q} hq => by rw [advance_window, hq, Function.iterate_succ_apply'])
    (k := 0) rfl
  rwa [Nat.zero_add] at hkeeps

end Window

/-! ### Standing at a place -/

/-- After a number of tokens have been taken from a stream the parser stands at the next one
that is not an error. The tokens that have been pulled are those up to the current one, and all
that are no errors have come into the window. -/
structure Stands (s : TokenStream) (n : Nat) (p : Parser) : Prop where
  current : p.current = s.withoutErrors.tokenAt n
  previous : p.previous = if n = 0 then ⟨.eof, "", 0, 1⟩ else s.withoutErrors.tokenAt (n - 1)
  readable : p.current.kind ≠ .error ∧ p.previous.kind ≠ .error
  rest : p.stream.withoutErrors = s.withoutErrors.drop (n + 1)
  pulled : ∃ m, p.stream = s.drop (m + 1) ∧ s.tokenAt m = p.current
    ∧ (firsts (m + 1) s).filter (·.kind ≠ .error) = firsts (n + 1) s.withoutErrors
    ∧ ((∃ t ∈ firsts (m + 1) s, t.kind = .error) → p.hadError = true)

section Stands

variable {s : TokenStream} {p q : Parser} {n m k : Nat} {c d : Config} {deeds : Footprint}

/-- From in front of a token that is not an error it is taken into the window, together with
the errors in front of it. -/
theorem stands_advance (hstream : p.stream = s.drop m)
    (hcurrent : p.current = if n = 0 then ⟨.eof, "", 0, 1⟩ else s.withoutErrors.tokenAt (n - 1))
    (hrest : p.stream.withoutErrors = s.withoutErrors.drop n)
    (hfirsts : (firsts m s).filter (·.kind ≠ .error) = firsts n s.withoutErrors)
    (herrors : (∃ t ∈ firsts m s, t.kind = .error) → p.hadError = true) :
    Stands s n p.advance := by
  have hnext : p.stream.withoutErrors.next = (p.advance.current, p.advance.stream.withoutErrors) :=
    p.stream.next_withoutErrors
  rw [hrest] at hnext
  have htaken : p.advance.current = s.withoutErrors.tokenAt n := (congrArg Prod.fst hnext).symm
  have hfirst : (s.drop m).afterErrors.next.1 = p.advance.current := by
    rw [← hstream]
    rfl
  have hpulled : p.advance.stream = s.drop (m + (s.drop m).leadingErrors.length + 1) := by
    rw [p.advance_pulled.stream, hstream, drop_drop, Nat.add_assoc]
  refine ⟨htaken, ?_, ⟨p.advance_current_kind, ?_⟩, ?_, _, hpulled, ?_, ?_, ?_⟩
  · rw [advance_previous, hcurrent]
  · rw [advance_previous, hcurrent]
    split
    · decide
    · exact s.kind_tokenAt_withoutErrors _
  · rw [← next_drop]
    exact (congrArg Prod.snd hnext).symm
  · rw [tokenAt_leadingErrors, hfirst]
  · rw [filter_firsts_leadingErrors_succ, hfirsts, hfirst, firsts_succ, htaken]
  · -- An error among these tokens has been pulled before, or stands in front of the new one.
    rintro ⟨t, ht, hkind⟩
    rw [advance_hadError, Bool.or_eq_true, hstream]
    rw [firsts_leadingErrors_succ, hfirst, List.mem_append, List.mem_append,
      List.mem_singleton] at ht
    rcases ht with (ht | ht) | rfl
    · exact .inl (herrors ⟨t, ht, hkind⟩)
    · exact .inr (by simpa using List.ne_nil_of_mem ht)
    · exact absurd hkind p.advance_current_kind

/-- The parser begins at the first token. -/
theorem start_stands (stream : TokenStream) (strings : Interner) :
    Stands stream 0 (start stream strings) :=
  stands_advance (m := 0) rfl rfl rfl rfl fun ⟨_, ht, _⟩ => absurd ht List.not_mem_nil

theorem Stands.advance (h : Stands s n p) : Stands s (n + 1) p.advance := by
  obtain ⟨m, hstream, -, hfirsts, herrors⟩ := h.pulled
  exact stands_advance hstream h.current h.rest hfirsts herrors

/-- What is done without taking a token leaves the parser where it stands. -/
theorem Stands.does (h : Stands s n p) (hdoes : Does deeds p q)
    (hstill : deeds.lacks .advance) : Stands s n q := by
  obtain ⟨hstream, hcurrent, hprevious⟩ := hdoes.window_eq hstill
  obtain ⟨m, hpulled, hlast, hfirsts, herrors⟩ := h.pulled
  refine ⟨hcurrent.trans h.current, hprevious.trans h.previous, ?_, ?_, m, ?_, ?_, hfirsts,
    fun herror => hdoes.hadError (herrors herror)⟩
  · rw [hcurrent, hprevious]
    exact h.readable
  · rw [hstream, h.rest]
  · rw [hstream, hpulled]
  · rw [hcurrent, hlast]

theorem Runs.stands (h : Runs n c d) (hc : Stands s k c.state) : Stands s (k + n) d.state :=
  h.keeps (motive := Stands s) (fun hdoes hstill hp => hp.does hdoes hstill)
    (fun hp => hp.advance) hc

end Stands

end Parser

open OnePass.Parser OnePass.Parser.Config

/-- No token is lost and none comes twice. Whatever the parser is asked to do, at any time
during the operations and during a unit that is compiled behind them, it stands where the
tokens that have been taken up to then have brought it, and goes on from there to the end.
Operations, statements and units of whatever state move the window by the taking of tokens
only, and never back. -/
theorem cursor_exact (stream : TokenStream) (strings : Interner) (calls : List Call) :
    let p := start stream strings
    let q := p.performAll calls
    (∃ k, Runs k (begins (.session calls) p []) (ended q [])
      ∧ (∀ n c, Runs n (begins (.session calls) p []) c →
          Stands stream n c.state ∧ ∃ m, Runs m c (ended q []) ∧ k = n + m)
      ∧ ∀ unit, ∃ j, Runs j (begins (.unit (.unit unit)) q []) (ended (q.run unit) [])
        ∧ ∀ n c, Runs n (begins (.unit (.unit unit)) q []) c →
            Stands stream (k + n) c.state ∧ ∃ m, Runs m c (ended (q.run unit) []) ∧ j = n + m)
    ∧ (∀ (call : Call) (p : Parser), ∃ n,
        Runs n (begins (.operation call) p []) (ended (p.perform call).2 [])
        ∧ (p.perform call).2.window = Window.advance^[n] p.window)
    ∧ ∀ (task : UnitTask) (p : Parser) (log : List Mark) (q : Parser), Course task p log q →
        ∃ n, Runs n (begins (.unit task) p []) (ended q [])
          ∧ q.window = Window.advance^[n] p.window := by
  intro p q
  refine ⟨?_, fun call p => ?_, fun task p log q hcourse => ?_⟩
  · have hstart : Stands stream 0 p := start_stands stream strings
    obtain ⟨k, hsession⟩ := p.session_completes calls []
    have hbehind : Stands stream k q := k.zero_add ▸ hsession.stands hstart
    have hnone : q.nesting = 0 := performAll_nesting calls (start_nesting stream strings)
    refine ⟨k, hsession, fun n c hn => ⟨?_, hsession.rest rfl hn⟩, fun unit => ?_⟩
    · exact n.zero_add ▸ hn.stands hstart
    · obtain ⟨j, hunit⟩ := run_completes unit (nesting_lt_of_eq_zero hnone) []
      exact ⟨j, hunit, fun n c hn => ⟨hn.stands hbehind, hunit.rest rfl hn⟩⟩
  · obtain ⟨n, hruns⟩ := p.operation_completes call []
    exact ⟨n, hruns, hruns.window⟩
  · obtain ⟨n, hruns⟩ := hcourse.completes []
    exact ⟨n, hruns, hruns.window⟩

/-- Errors in front of a token, between tokens and in front of the end. The tokens are taken by
operations, or skipped in a recovery. -/
theorem cursor_behind_errors :
    let fault : Token := ⟨.error, "Unexpected character", 0, 1⟩
    let one : Token := ⟨.number, "1", 1, 1⟩
    let stream : TokenStream := ⟨[fault, one, fault, fault, one, fault], 5, 1⟩
    let p := start stream .empty
    let q := p.performAll [.advance, .accept .number]
    (∃ k, Runs k (begins (.session [.advance, .accept .number]) p []) (ended q [])
        ∧ Stands stream k q)
      ∧ q.current = stream.ending ∧ q.previous = one ∧ q.hadError = true
      ∧ p.atBoundary = false
      ∧ Course .boundary p [] q
      ∧ ∃ n, Runs n (begins (.unit .boundary) p []) (ended q [])
          ∧ q.window = Window.advance^[n] p.window := by
  intro fault one stream p q
  obtain ⟨hsession, -, hrules⟩ := cursor_exact stream .empty [.advance, .accept .number]
  obtain ⟨k, hruns, hstands, -⟩ := hsession
  have hskip : Course .boundary p [] q :=
    .skip (by decide +kernel) (.skip (by decide +kernel) (.found (by decide +kernel)))
  exact ⟨⟨k, hruns, (hstands k _ hruns).1⟩, by decide +kernel, by decide +kernel,
    by decide +kernel, by decide +kernel, hskip, hrules _ _ _ _ hskip⟩

end OnePass
