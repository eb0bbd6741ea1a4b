import Mathlib.Data.List.Forall2
import Mathlib.Data.List.TakeWhile
import Mathlib.Order.MinMax
import OnePass.Proofs.Course.Statement
import OnePass.Proofs.Diagnostics.Misfit
import OnePass.Proofs.Diagnostics.Tally
import OnePass.Proofs.Lexical.Tiling

/-!
# OnePass.Proofs.Diagnostics.Located

Where reports stand. Each belongs to a token, and their tokens come in the order of the
source, although an error can be reported at the current token, at the one before it, at an
error token behind it, or at a name further back. What keeps the order is that the tokens in
the back of the parser can be reported only as long as nothing has been reported behind them
(`PlacedAt.back`): a report begins a panic, in which nothing is reported, and when the panic
ends, the current token is the only one left that can be reported before another one is
taken (`Placed.recover`). So it is with every expression and every statement
(`ExprCourse.placed`, `Course.placed`), and with whole sources (`reports_located`).
-/

namespace OnePass

/-! ### Reports and tokens -/

namespace Location

variable {t : Token}

theorem ofToken_eq_unknown_iff : ofToken t = .unknown ↔ t.kind = .error := by
  cases h : t.kind <;> simp [ofToken, h]

theorem ofToken_eq_atEnd_iff : ofToken t = .atEnd ↔ t.kind = .eof := by
  cases h : t.kind <;> simp [ofToken, h]

theorem ofToken_eq_atLexeme_iff {lexeme : String} :
    ofToken t = .atLexeme lexeme ↔ t.lexeme = lexeme ∧ t.kind ≠ .error ∧ t.kind ≠ .eof := by
  cases h : t.kind <;> simp [ofToken, h]

end Location

namespace Diagnostic

/-- Whether a report belongs to a token: it has the token's line and points to its text,
unless it is that of an error token, of which it has the message. -/
structure Marks (d : Diagnostic) (t : Token) : Prop where
  line : d.line = t.line
  atLexeme : ∀ lexeme, d.location = .atLexeme lexeme →
    t.lexeme = lexeme ∧ t.kind ≠ .error ∧ t.kind ≠ .eof
  atEnd : d.location = .atEnd → t.kind = .eof
  unknown : d.location = .unknown → t.kind = .error ∧ d.message = t.lexeme
  lexical : d.location = .unknown ↔ d.kind = .lexical

theorem marks_ofProblem {problem : Problem} {t : Token}
    (hlexical : t.kind = .error ↔ problem.kind = .lexical)
    (hmessage : t.kind = .error → problem.message = t.lexeme) : (ofProblem problem t).Marks t where
  line := rfl
  atLexeme _ := Location.ofToken_eq_atLexeme_iff.1
  atEnd := Location.ofToken_eq_atEnd_iff.1
  unknown h := ⟨Location.ofToken_eq_unknown_iff.1 h, hmessage (Location.ofToken_eq_unknown_iff.1 h)⟩
  lexical := Location.ofToken_eq_unknown_iff.trans hlexical

theorem marks_of_readable {problem : Problem} {t : Token} (ht : t.kind ≠ .error)
    (hproblem : problem.kind ≠ .lexical) : (ofProblem problem t).Marks t :=
  marks_ofProblem (iff_of_false ht hproblem) fun h => absurd h ht

theorem marks_of_error {t : Token} (ht : t.kind = .error) :
    (ofProblem (.unreadable t.lexeme) t).Marks t :=
  marks_ofProblem (iff_of_true ht rfl) fun _ => rfl

end Diagnostic

/-- A name that is refused is no fault of the source text. -/
theorem Scope.declare_problem {scope : Scope} {name : Token} {problem : Problem}
    (h : scope.declare name = .error problem) : problem.kind ≠ .lexical := by
  unfold declare at h
  split at h
  · cases h
    decide
  · split at h
    · cases h
      decide
    · cases h

namespace TokenStream

/-- The token at a place of the stream. Behind the last one there are end tokens. -/
def tokenAt (s : TokenStream) (n : Nat) : Token := (s.drop n).next.1

theorem tokenAt_drop (s : TokenStream) (n k : Nat) : (s.drop n).tokenAt k = s.tokenAt (n + k) := by
  rw [tokenAt, drop_drop, tokenAt]

theorem getElem?_toList (s : TokenStream) (n : Nat) :
    s.toList[min n s.pending.length]? = some (s.tokenAt n) := by
  rw [tokenAt, next_eq, toList]
  rcases Nat.lt_or_ge n s.pending.length with hn | hn
  · rw [Nat.min_eq_left (Nat.le_of_lt hn), List.getElem?_append_left hn]
    simp [drop, List.head?_drop, List.headD_eq_head?_getD, hn]
  · rw [Nat.min_eq_right hn, List.getElem?_concat_length]
    simp [drop, List.drop_eq_nil_of_le hn, ending]

/-- The first of the errors at the head of a stream is the next token. -/
theorem next_of_leadingErrors {s : TokenStream} {t : Token} {rest : List Token}
    (h : s.leadingErrors = t :: rest) : s.next.1 = t ∧ t.kind = .error := by
  have hmem : t ∈ s.leadingErrors := h ▸ List.mem_cons_self
  refine ⟨?_, by simpa using List.mem_takeWhile_imp hmem⟩
  rw [next_eq, ← s.leadingErrors_append, h]
  rfl

end TokenStream

/-- Whether reports belong to tokens of a stream, in the order of these, and to none behind
the place `n`. -/
def InOrder (s : TokenStream) (n : Nat) (ds : List Diagnostic) : Prop :=
  ∃ places : List Nat, List.Forall₂ (fun d i => d.Marks (s.tokenAt i)) ds places
    ∧ places.Pairwise (· ≤ ·) ∧ ∀ i ∈ places, i ≤ n

section InOrder

variable {s : TokenStream} {n k : Nat} {ds : List Diagnostic}

theorem InOrder.nil (s : TokenStream) (n : Nat) : InOrder s n [] := ⟨[], .nil, .nil, nofun⟩

theorem InOrder.mono (h : InOrder s n ds) (hle : n ≤ k) : InOrder s k ds := by
  obtain ⟨places, hmarks, hsorted, hbound⟩ := h
  exact ⟨places, hmarks, hsorted, fun i hi => Nat.le_trans (hbound i hi) hle⟩

theorem InOrder.concat (h : InOrder s n ds) {d : Diagnostic} (hd : d.Marks (s.tokenAt n)) :
    InOrder s n (ds ++ [d]) := by
  obtain ⟨places, hmarks, hsorted, hbound⟩ := h
  refine ⟨places ++ [n], List.rel_append hmarks (.cons hd .nil), ?_, ?_⟩
  · rw [List.pairwise_append]
    refine ⟨hsorted, List.pairwise_singleton .., fun i hi j hj => ?_⟩
    rw [List.mem_singleton.1 hj]
    exact hbound i hi
  · intro i hi
    rcases List.mem_append.1 hi with hi | hi
    · exact hbound i hi
    · exact Nat.le_of_eq (List.mem_singleton.1 hi)

end InOrder

namespace Parser

variable {s : TokenStream} {n : Nat} {ts us : List Token} {t : Token} {p q : Parser}
  {problem : Problem}

/-- A report at a token keeps the order, if none belongs to a later token. -/
theorem errorAt_inOrder (h : InOrder s n p.diagnostics)
    (ht : (Diagnostic.ofProblem problem t).Marks (s.tokenAt n)) :
    InOrder s n (p.errorAt t problem).diagnostics := by
  rw [errorAt_diagnostics]
  split
  · rwa [List.append_nil]
  · exact h.concat ht

/-! ### Where the parser stands -/

/-- Whether a token can be reported: it stands at a place of the stream up to `n`, and none
of the reports so far belongs to a later token. -/
def Reportable (s : TokenStream) (n : Nat) (ds : List Diagnostic) (t : Token) : Prop :=
  ∃ i ≤ n, t = s.tokenAt i ∧ t.kind ≠ .error ∧ InOrder s i ds

/-- The parser has the token of the place `n` in front of it and has reported none behind
it. Outside of a panic the tokens `ts` can be reported, too, as nothing has been reported
behind them. -/
structure PlacedAt (s : TokenStream) (ts : List Token) (n : Nat) (p : Parser) : Prop where
  stream : p.stream = s.drop (n + 1)
  current : p.current = s.tokenAt n
  readable : p.current.kind ≠ .error
  reports : InOrder s n p.diagnostics
  back : p.mode = .normal → ∀ t ∈ ts, Reportable s n p.diagnostics t

/-- The parser stands somewhere in a stream, and may report the tokens `ts`. -/
def Placed (s : TokenStream) (ts : List Token) (p : Parser) : Prop := ∃ n, PlacedAt s ts n p

theorem Placed.mono (h : Placed s ts p) (hus : us ⊆ ts) : Placed s us p := by
  obtain ⟨n, h⟩ := h
  exact ⟨n, { h with back := fun hmode t ht => h.back hmode t (hus ht) }⟩

theorem Placed.of_cons (h : Placed s (t :: ts) p) : Placed s ts p :=
  h.mono (List.subset_cons_self t ts)

theorem Placed.nil (h : Placed s ts p) : Placed s [] p := h.mono (List.nil_subset ts)

/-- The current token can be reported. -/
theorem Placed.current (h : Placed s ts p) : Placed s (p.current :: ts) p := by
  obtain ⟨n, h⟩ := h
  refine ⟨n, { h with back := fun hmode t ht => ?_ }⟩
  rcases List.mem_cons.1 ht with rfl | ht
  · exact ⟨n, Nat.le_refl n, h.current, h.readable, h.reports⟩
  · exact h.back hmode t ht

/-- What is done without a report does not change which tokens can be reported. -/
theorem Placed.silent {deeds : Footprint} (h : Placed s ts p) (hdoes : Does deeds p q)
    (hsilent : deeds.within Deed.silent) : Placed s ts q := by
  obtain ⟨n, h⟩ := h
  obtain ⟨hstream, hcurrent, -⟩ :=
    hdoes.window_eq (Footprint.lacks_of_within hsilent rfl)
  obtain ⟨hdiagnostics, hmode⟩ := hdoes.reports_eq hsilent
  refine ⟨n, hstream.trans h.stream, hcurrent.trans h.current, ?_, ?_, ?_⟩
  · rw [hcurrent]
    exact h.readable
  · rw [hdiagnostics]
    exact h.reports
  · rw [hmode, hdiagnostics]
    exact h.back

/-! ### Reports -/

/-- A token that can be reported may be reported. In the panic that this begins nothing
more is reported, whatever stands in the back. -/
theorem Placed.errorAt (h : Placed s ts p) (ht : t ∈ ts) (hproblem : problem.kind ≠ .lexical)
    (us : List Token) : Placed s us (p.errorAt t problem) := by
  obtain ⟨n, h⟩ := h
  refine ⟨n, ?_, ?_, ?_, ?_, ?_⟩
  · rw [errorAt_stream, h.stream]
  · rw [errorAt_current, h.current]
  · rw [errorAt_current]
    exact h.readable
  · cases hmode : p.mode with
    | panicking =>
      rw [errorAt_of_panicking hmode]
      exact h.reports
    | normal =>
      obtain ⟨i, hi, heq, hkind, horder⟩ := h.back hmode t ht
      have hmarks := Diagnostic.marks_of_readable hkind hproblem
      exact (errorAt_inOrder horder (heq ▸ hmarks)).mono hi
  · intro hmode
    rw [errorAt_mode] at hmode
    cases hmode

theorem Placed.error (h : Placed s (p.previous :: ts) p) (hproblem : problem.kind ≠ .lexical)
    (us : List Token) : Placed s us (p.error problem) :=
  h.errorAt List.mem_cons_self hproblem us

theorem Placed.errorAtCurrent (h : Placed s ts p) (hproblem : problem.kind ≠ .lexical)
    (us : List Token) : Placed s us (p.errorAtCurrent problem) :=
  h.current.errorAt List.mem_cons_self hproblem us

/-- When a panic ends, no token in the back can be reported any more. -/
theorem Placed.recover (h : Placed s ts p) : Placed s [] p.recover.2 := by
  obtain ⟨n, h⟩ := h
  exact ⟨n, h.stream, h.current, h.readable, h.reports, nofun⟩

/-! ### Taking a token -/

/-- Of the errors at the head of the stream the first one is reported, and begins a panic. -/
theorem reportErrors_cons {rest : List Token} (h : p.stream.leadingErrors = t :: rest) :
    p.reportErrors.mode = .panicking
      ∧ p.reportErrors.diagnostics = (p.errorAt t (.unreadable t.lexeme)).diagnostics := by
  have hreports : ∀ (errors : List Token) (q : Parser),
      Does [.report] q (errors.foldl (fun q t => q.errorAt t (.unreadable t.lexeme)) q) := by
    intro errors
    induction errors with
    | nil => exact fun q => .refl
    | cons u errors ih => exact fun q => (q.errorAt_does u _).trans (ih _)
  rw [reportErrors, h]
  exact (hreports rest _).keeps_panic (errorAt_mode ..) rfl

theorem reportErrors_nil (h : p.stream.leadingErrors = []) : p.reportErrors = p := by
  rw [reportErrors, h]
  rfl

theorem advance_mode (p : Parser) :
    p.advance.mode = { p with previous := p.current }.reportErrors.mode := rfl

theorem advance_diagnostics (p : Parser) :
    p.advance.diagnostics = { p with previous := p.current }.reportErrors.diagnostics := rfl

/-- From in front of the place `n` a token is taken, and the next one that is not an error
comes into the window. -/
theorem placed_advance (hstream : p.stream = s.drop n) (hreports : InOrder s n p.diagnostics)
    (hback : p.mode = .normal → ∀ t ∈ ts, Reportable s n p.diagnostics t) :
    Placed s ts p.advance := by
  have hpulled := p.advance_pulled
  have hnext : p.advance.stream = s.drop (n + p.stream.leadingErrors.length + 1) := by
    rw [hpulled.stream, hstream, TokenStream.drop_drop, Nat.add_assoc]
  have hcurrent : p.advance.current = s.tokenAt (n + p.stream.leadingErrors.length) := by
    rw [hpulled.current, ← s.tokenAt_drop, ← hstream]
    rfl
  set q : Parser := { p with previous := p.current }
  cases herrors : p.stream.leadingErrors with
  | nil =>
    have hquiet : q.reportErrors = q := reportErrors_nil herrors
    rw [herrors] at hnext hcurrent
    refine ⟨n, hnext, hcurrent, p.advance_current_kind, ?_, ?_⟩
    · rwa [advance_diagnostics, hquiet]
    · rwa [advance_diagnostics, advance_mode, hquiet]
  | cons t rest =>
    obtain ⟨hmode, hdiagnostics⟩ := reportErrors_cons (p := q) herrors
    obtain ⟨hfirst, hkind⟩ := TokenStream.next_of_leadingErrors herrors
    have hmarks : (Diagnostic.ofProblem (.unreadable t.lexeme) t).Marks (s.tokenAt n) := by
      rw [TokenStream.tokenAt, ← hstream, hfirst]
      exact Diagnostic.marks_of_error hkind
    refine ⟨_, hnext, hcurrent, p.advance_current_kind, ?_, fun hnormal => ?_⟩
    · rw [advance_diagnostics, hdiagnostics]
      exact (errorAt_inOrder (p := q) hreports hmarks).mono (Nat.le_add_right ..)
    · cases hmode.symm.trans hnormal

/-- A token that is taken can be reported afterwards. -/
theorem Placed.advance (h : Placed s ts p) : Placed s (p.advance.previous :: ts) p.advance := by
  rw [advance_previous]
  obtain ⟨n, h⟩ := h.current
  refine placed_advance h.stream (h.reports.mono (Nat.le_succ n)) fun hmode t ht => ?_
  obtain ⟨i, hi, heq, hkind, horder⟩ := h.back hmode t ht
  exact ⟨i, Nat.le_succ_of_le hi, heq, hkind, horder⟩

theorem Placed.consume (h : Placed s ts p) (kind : TokenKind) (hproblem : problem.kind ≠ .lexical) :
    Placed s ((p.consume kind problem).previous :: ts) (p.consume kind problem) := by
  unfold Parser.consume
  split
  · exact h.advance
  · exact h.errorAtCurrent hproblem _

/-- In front of the first token nothing has been reported. -/
theorem start_placed (stream : TokenStream) (strings : Interner) :
    Placed stream [] (start stream strings) :=
  placed_advance (TokenStream.drop_zero stream).symm (.nil stream 0) nofun

/-! ### Writing -/

/-- Of all that is written only a constant for which there is no room makes a report, of the
token that was taken last. -/
theorem Placed.makeConstant (h : Placed s (p.previous :: ts) p) (value : Value) :
    Placed s ((p.makeConstant value).2.previous :: ts) (p.makeConstant value).2 := by
  have hadd : Placed s (p.previous :: ts) { p with chunk := (p.chunk.addConstant value).2 } :=
    h.silent (Action.pool p value).does rfl
  unfold Parser.makeConstant
  dsimp only
  split
  · exact hadd
  · exact Placed.error hadd (by decide) _

theorem Placed.makeText (h : Placed s (p.previous :: ts) p) (text : String) :
    Placed s ((p.makeText text).2.previous :: ts) (p.makeText text).2 := by
  have hstored : Placed s (p.previous :: ts) { p with strings := (p.strings.intern text).2 } :=
    h.silent (Action.intern p text).does rfl
  exact Placed.makeConstant hstored _

theorem Placed.place (h : Placed s (p.previous :: ts) p) (name : Token) :
    Placed s ((p.place name).2.previous :: ts) (p.place name).2 := by
  unfold Parser.place
  split
  · exact h
  · exact h.makeText name.lexeme

/-! ### Expressions -/

theorem Placed.rejectTarget (h : Placed s (p.previous :: ts) p) (canAssign : Bool) :
    Placed s ((rejectTarget canAssign p).previous :: ts) (rejectTarget canAssign p) := by
  unfold Parser.rejectTarget
  split
  · exact h.of_cons.advance.error (by decide) _
  · exact h

/-- What can be reported when a task is begun, besides the current token: the token that was
taken last, unless the task first takes another one. -/
def ExprTask.back : ExprTask → Parser → List Token
  | .climb _, _ => []
  | _, p => [p.previous]

/-- After an expression the last token of it can be reported, and what could be before. -/
theorem ExprCourse.placed {task : ExprTask} {log : List Emission} (h : ExprCourse task p log q)
    (hp : Placed s (task.back p ++ ts) p) : Placed s (q.previous :: ts) q := by
  induction h with
  | refused => exact Placed.error hp (by decide) _
  | @nested _ p _ _ h inside ih =>
    have hopen := (Placed.of_cons hp).silent (Action.nest p (p.nesting + 1)).does rfl
    exact (ih hopen).silent (Action.nest _ _).does rfl
  | missing => exact (Placed.advance hp).error (by decide) _
  | climb h left rest ihleft ihrest =>
    exact (ihrest (ihleft (Placed.advance hp))).rejectTarget _
  | group inside ih => exact (ih hp).of_cons.consume _ (by decide)
  | unary inside ih => exact (ih hp).silent (emit_does _ _) rfl
  | word => exact Placed.silent hp (emit_does _ _) rfl
  | number h => exact (Placed.makeConstant hp _).silent (emitWith_does _ _ _) rfl
  | invalid => exact Placed.error hp (by decide) _
  | string => exact (Placed.makeText hp _).silent (emitWith_does _ _ _) rfl
  | read =>
    rw [Place.emitGet_eq]
    exact (Placed.place hp _).silent (emitWith_does _ _ _) rfl
  | assign h value ih =>
    rw [Place.emitSet_eq]
    exact (ih (Placed.place hp _).of_cons.advance).silent (emitWith_does _ _ _) rfl
  | stop => exact hp
  | @operator _ _ op _ q _ _ h hmin right rest ihright ihrest =>
    have hcode := q.emitAll_does op.code
    have hright := (ihright (Placed.of_cons hp).advance).silent hcode (by decide)
    rw [← (hcode.window_eq rfl).2.2] at hright
    exact ihrest hright

/-- Where an expression can be opened, what was taken last is not reported for it. -/
theorem ExprCourse.placed_level {min : Precedence} {log : List Emission}
    (h : ExprCourse (.level min) p log q) (hnesting : p.nesting < maxNesting)
    (hp : Placed s ts p) : Placed s (q.previous :: ts) q := by
  cases h with
  | refused h => exact absurd h (Nat.not_le_of_lt hnesting)
  | nested h inside =>
    have hopen := hp.silent (Action.nest p (p.nesting + 1)).does rfl
    exact (inside.placed hopen).silent (Action.nest _ _).does rfl

/-! ### Statements -/

/-- The end of a statement, and the instruction for what has been compiled. -/
theorem Placed.finish (h : Placed s ts p) {kind : TokenKind} (hproblem : problem.kind ≠ .lexical)
    (op : OpCode) : Placed s [] ((p.consume kind problem).emit op) :=
  (h.consume kind hproblem).nil.silent (emit_does _ op) rfl

theorem Course.placed_initializer {log : List Mark} (h : Course .initializer p log q)
    (hp : Placed s (p.previous :: ts) p) : Placed s (q.previous :: ts) q := by
  cases h with
  | value h value => exact value.placed hp.of_cons.advance
  | noValue => exact hp.silent (emit_does _ _) rfl

/-- The name of a declaration can be reported at its end. -/
theorem Placed.define {name : Token} (h : Placed s (p.previous :: [name]) p) :
    Placed s [] (p.define name) := by
  unfold Parser.define
  split
  · unfold declareLocal
    split
    · exact h.nil.silent (Action.rescope _ _).does rfl
    · rename_i problem hdeclare
      exact h.of_cons.errorAt List.mem_cons_self (Scope.declare_problem hdeclare) []
  · exact (h.makeText name.lexeme).nil.silent (emitWith_does _ _ _) rfl

/-- After each declaration and each statement the order of the reports is that of their
tokens, and none has been reported behind the current token. -/
theorem Course.placed {task : UnitTask} {log : List Mark} (h : Course task p log q)
    (hnesting : p.nesting < maxNesting) (hp : Placed s [] p) : Placed s [] q := by
  induction h with
  | found => exact hp
  | @skip p _ _ h rest ih => exact ih (p.advance_nesting ▸ hnesting) hp.advance.nil
  | value h value => exact (value.placed hp.advance).nil
  | noValue => exact hp.silent (emit_does _ _) rfl
  | @var p log q h value ih =>
    -- The name stays in the back while the value is compiled; a report on the way empties it.
    have hname : Placed s
        ((p.advance.consume .identifier .variableNameMissing).previous
          :: [(p.advance.consume .identifier .variableNameMissing).previous])
        (p.advance.consume .identifier .variableNameMissing) :=
      (hp.advance.nil.consume _ (by decide)).mono (by simp)
    exact ((value.placed_initializer hname).of_cons.consume _ (by decide)).define
  | print h value => exact (value.placed hp.advance).finish (by decide) _
  | @block p log q h inside ih =>
    have hopen := hp.advance.nil.silent (beginScope_does _) rfl
    have hinside := ih (p.advance_nesting ▸ hnesting) hopen
    exact (hinside.consume .rightBrace (by decide)).nil.silent (endScope_does _) rfl
  | expression h value => exact (value.placed_level hnesting hp).finish (by decide) _
  | calm body h ih => exact ih hnesting hp
  | panic body h skip ihbody ihskip =>
    exact (ihskip (body.nesting ▸ hnesting) (ihbody hnesting hp)).recover
  | done => exact hp
  | more h first rest ihfirst ihrest =>
    exact ihrest (first.nesting ▸ hnesting) (ihfirst hnesting hp)
  | program all ih => exact (ih hnesting hp).advance.nil.silent (emit_does _ _) rfl
  | single value => exact (value.placed_level hnesting hp).finish (by decide) _

/-- Of any stream the reports belong to tokens, in the order of these. -/
theorem run_inOrder (unit : UnitKind) (stream : TokenStream) (strings : Interner) :
    ∃ n, InOrder stream n ((start stream strings).run unit).diagnostics := by
  have hnesting := start_nesting_lt stream strings
  obtain ⟨log, hcourse⟩ := unit_course unit hnesting
  obtain ⟨n, hplaced⟩ := hcourse.placed hnesting (start_placed stream strings)
  exact ⟨n, hplaced.reports⟩

end Parser

/-! ### Sources -/

/-- The lines of tokens do not go back either when the end is handed out again and again. -/
theorem TokenStream.line_tokenAt_le {s : TokenStream} (h : s.toList.Pairwise (·.line ≤ ·.line))
    {i j : Nat} (hle : i ≤ j) : (s.tokenAt i).line ≤ (s.tokenAt j).line := by
  obtain ⟨hi, hfirst⟩ := List.getElem?_eq_some_iff.1 (s.getElem?_toList i)
  obtain ⟨hj, hsecond⟩ := List.getElem?_eq_some_iff.1 (s.getElem?_toList j)
  rw [← hfirst, ← hsecond]
  rcases Nat.eq_or_lt_of_le (min_le_min_right s.pending.length hle) with heq | hlt
  · simp only [heq, Nat.le_refl]
  · exact List.pairwise_iff_getElem.1 h _ _ hi hj hlt

open OnePass.Parser

/-- Every report of a compilation belongs to a token of the source: it has the token's line,
and the token's text if that is neither an error nor the end; it is at the end of the source
only if the token is the end; and it is nowhere exactly if it is lexical, in which case the
token is an error and has its message. Reports come in the order of their tokens, so that
their lines never go back. -/
theorem reports_located {unit : UnitKind} {source : String} {strings : Interner}
    {e : CompileError} (h : (compileUnit unit source strings).1 = .error e) :
    (∃ places : List Nat, places.Pairwise (· ≤ ·)
        ∧ List.Forall₂ (fun d i => ∃ t, (tokenize source)[i]? = some t ∧ d.Marks t)
          e.diagnostics places)
      ∧ (e.diagnostics.map Diagnostic.line).Pairwise (· ≤ ·) := by
  set s := TokenStream.ofSource source
  obtain ⟨-, rfl⟩ := compileUnit_eq_error_iff.1 h
  obtain ⟨n, places, hmarks, hsorted, -⟩ := run_inOrder unit s strings
  refine ⟨⟨places.map (min · s.pending.length), ?_, ?_⟩, ?_⟩
  · exact hsorted.map _ fun i j hle => min_le_min_right _ hle
  · rw [List.forall₂_map_right_iff]
    exact hmarks.imp fun d i hd => ⟨_, s.getElem?_toList i, hd⟩
  · have hlines : List.Forall₂ (fun d i => d.line = (s.tokenAt i).line)
        (Parser.ofSource unit source strings).diagnostics places :=
      hmarks.imp fun d i hd => hd.line
    rw [← List.forall₂_map_right_iff, ← List.forall₂_map_left_iff, List.forall₂_eq_eq_eq] at hlines
    rw [hlines]
    exact hsorted.map _ fun i j hle => TokenStream.line_tokenAt_le (tokenize_lines source) hle

/-- A report of a character that is no token, one at a name that is not the last token, and
one at the end. -/
theorem reports_error_name_end :
    let source := "@ ;\n\x7b var a; var a; \x7d\n1 +"
    let e : CompileError := ⟨[⟨.lexical, 1, .unknown, "Unexpected character"⟩,
      ⟨.semantic, 2, .atLexeme "a", Problem.nameTaken.message⟩,
      ⟨.syntactic, 3, .atEnd, "Expected expression"⟩]⟩
    (compileUnit .program source .empty).1 = .error e
      ∧ (∃ places : List Nat, places.Pairwise (· ≤ ·)
        ∧ List.Forall₂ (fun d i => ∃ t, (tokenize source)[i]? = some t ∧ d.Marks t)
          e.diagnostics places)
      ∧ (e.diagnostics.map Diagnostic.line).Pairwise (· ≤ ·) := by
  intro source e
  have hfails : (compileUnit .program source .empty).1 = .error e :=
    compileUnit_eq_error_iff.2 ⟨by decide +kernel, by decide +kernel⟩
  exact ⟨hfails, reports_located hfails⟩

end OnePass
