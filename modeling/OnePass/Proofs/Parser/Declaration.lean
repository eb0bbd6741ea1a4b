import OnePass.Proofs.Parser.Ready

/-!
# OnePass.Proofs.Parser.Declaration

What the parser does with an expression up to its semicolon, and with the declaration of
a variable. A name comes into scope behind its own initializer, as a local of the
innermost block, or is defined as a global (`define_eq`).
-/

namespace OnePass

namespace Parser

open Stmt

/-! ### Expressions up to a semicolon -/

section Terminated

variable {p : Parser} {f : Frames}

/-- An expression and its semicolon that are taken without an error are derived, and the state
behind them is known. -/
theorem terminated_sound {ts : List Token} {problem : Problem} (h : p.Ready f ts)
    (herror : (p.expression.consume .semicolon problem).hadError = false) :
    ∃ e semicolon rest, Phrase .assignment e ∧ semicolon.kind = .semicolon
      ∧ ts = e.tokens ++ semicolon :: rest ∧ e.depth ≤ 256
      ∧ p.poolSize + (e.constants f.slots).length ≤ OpCode.operandCount
      ∧ p.expression.consume .semicolon problem
        = (p.moveTo semicolon rest).write (e.code f.slots p.poolSize) (e.constants f.slots) := by
  have hexpression := (consume_does _ _ _).no_error herror
  obtain ⟨e, mid, hreads, hfits, heq⟩ :=
    parseLevel_sound maxNesting _ hexpression h.stands h.nesting h.pool
  have hcompiled : p.expression = p.compiled e mid := heq
  rw [hcompiled] at herror ⊢
  obtain ⟨semicolon, rest, rfl, hkind, hconsume⟩ :=
    (p.at_compiled e mid).of_consume (by decide) herror
  rw [Fits, h.slots_eq] at hfits
  refine ⟨e, semicolon, rest, hreads.phrase_level, hkind, hreads.tokens_eq, hfits.depth,
    hfits.pool, ?_⟩
  rw [hconsume, h.compiled_eq, write_moveTo, moveTo_moveTo]

/-- The other way round: a derived expression in front of a semicolon is taken, if there is room
for it. -/
theorem terminated_complete {e : Expr} {semicolon : Token} {rest : List Token}
    (h : p.Ready f (e.tokens ++ semicolon :: rest)) (he : Phrase .assignment e)
    (hs : semicolon.kind = .semicolon) (hreadable : Readable (e.tokens ++ semicolon :: rest))
    (hfits : e.Fits f.slots p.poolSize 256) (problem : Problem) :
    p.expression.consume .semicolon problem
      = (p.moveTo semicolon rest).write (e.code f.slots p.poolSize) (e.constants f.slots) := by
  have hreads : Reads (.phrase .assignment) (e.tokens ++ semicolon :: rest) e
      (semicolon :: rest) :=
    Phrase.reads .assignment he (stops_semicolon hs rest)
  have hroom : p.Fits (room maxNesting 0) e := by
    rw [Fits, h.slots_eq]
    exact hfits
  have hcompiled : p.expression = p.compiled e (semicolon :: rest) :=
    parseLevel_complete maxNesting _ hreads hroom h.stands hreadable h.nesting
  have htail := (hreadable.of_reads hreads).tail
  rw [hcompiled, (p.at_compiled e _).consume hs htail.kindAhead_ne, h.compiled_eq, write_moveTo,
    moveTo_moveTo]

end Terminated

/-! ### Declarations of variables -/

theorem initializer_sound {p : Parser} {f : Frames} {ts : List Token} {problem : Problem}
    (h : p.Ready f ts) (herror : (p.initializer.consume .semicolon problem).hadError = false) :
    ∃ init semicolon rest, Initializer.Derived init ∧ semicolon.kind = .semicolon
      ∧ ts = init.tokens ++ semicolon :: rest ∧ (∀ e ∈ init.values, e.depth ≤ 256)
      ∧ p.poolSize + (init.constants f.slots).length ≤ OpCode.operandCount
      ∧ p.initializer.consume .semicolon problem
        = (p.moveTo semicolon rest).write (init.code f.slots p.poolSize p.previous)
            (init.constants f.slots) := by
  unfold initializer at herror ⊢
  by_cases hequal : p.check .equal = true
  · rw [if_pos hequal] at herror ⊢
    obtain ⟨equal, ts, rfl, hahead⟩ := h.stands.of_check (by decide) hequal
    have hexpression := (consume_does _ _ _).no_error herror
    have hadvance := h.stands.advance_of_no_error ((expression_does _).no_error hexpression)
    rw [hadvance] at herror ⊢
    obtain ⟨e, semicolon, rest, hphrase, hkind, rfl, hdepth, hpool, heq⟩ :=
      terminated_sound (h.moveTo equal ts) herror
    refine ⟨some (equal, e), semicolon, rest, ⟨hahead, hphrase⟩, hkind, rfl, ?_, hpool, heq⟩
    intro e' he'
    rw [List.mem_singleton.1 he']
    exact hdepth
  · rw [if_neg hequal, emit_eq] at herror ⊢
    obtain ⟨semicolon, rest, rfl, hkind, hconsume⟩ :=
      (h.stands.write _ _).of_consume (by decide) herror
    exact ⟨none, semicolon, rest, trivial, hkind, rfl, by simp [Initializer.values], h.pool,
      hconsume⟩

/-- Whether there is an initializer is seen in the token behind the name: it is a `=` or not. -/
theorem initializer_complete {p : Parser} {f : Frames} {init : Initializer} {semicolon : Token}
    {rest : List Token} (h : p.Ready f (init.tokens ++ semicolon :: rest))
    (hi : init.Derived) (hs : semicolon.kind = .semicolon)
    (hreadable : Readable (init.tokens ++ semicolon :: rest))
    (hfits : ∀ e ∈ init.values, e.Fits f.slots p.poolSize 256) (problem : Problem) :
    p.initializer.consume .semicolon problem
      = (p.moveTo semicolon rest).write (init.code f.slots p.poolSize p.previous)
          (init.constants f.slots) := by
  unfold initializer
  cases init with
  | none =>
    have hequal : ¬ p.check .equal = true := by
      refine h.stands.check_of_ne ?_
      show semicolon.kind ≠ .equal
      rw [hs]
      decide
    rw [if_neg hequal, emit_eq]
    exact (h.stands.write _ _).consume hs hreadable.tail.kindAhead_ne problem
  | some value =>
    obtain ⟨equal, e⟩ := value
    obtain ⟨hequal, hphrase⟩ := hi
    have hreadable' : Readable (e.tokens ++ semicolon :: rest) := hreadable.tail
    have hstands : p.At (equal :: (e.tokens ++ semicolon :: rest)) := h.stands
    rw [if_pos ((hstands.check_iff .equal).2 hequal), hstands.advance hreadable'.kindAhead_ne]
    exact terminated_complete (h.moveTo equal _) hphrase hs hreadable'
      (hfits e List.mem_cons_self) problem

/-- A variable that comes into being without an error keeps the rule for its kind: that of locals
for names in a block, that of the pool for globals. -/
theorem define_sound {p : Parser} {f : Frames} {ts : List Token} {name : Token}
    (h : p.Ready f ts) (herror : (p.define name).hadError = false) :
    (f.isGlobal = false → f.CanDeclare name)
      ∧ (f.isGlobal = true → p.poolSize < OpCode.operandCount) := by
  have hdepth := h.depth_pos_iff
  unfold define at herror
  refine ⟨fun hblock => ?_, fun hglobal => ?_⟩
  · rw [if_pos (hdepth.2 hblock)] at herror
    unfold declareLocal at herror
    split at herror
    · rename_i scope hscope
      rw [h.scope_eq] at hscope
      exact Frames.canDeclare_of_declare_scope hscope
    · rw [errorAt_hadError] at herror
      cases herror
  · rw [if_neg (by rw [hdepth, hglobal]; decide)] at herror
    exact poolSize_lt_of_makeText ((emitWith_does _ _ _).no_error herror)

/-- A declared name that keeps the static rules comes into scope, as a local without any
code, or is defined as a global. -/
theorem define_eq {p : Parser} {f : Frames} {ts : List Token} {name : Token} (h : p.Ready f ts)
    (hblock : f.isGlobal = false → f.CanDeclare name)
    (hglobal : f.isGlobal = true → p.poolSize < OpCode.operandCount) :
    p.define name
      = (p.write (defineCode f p.poolSize p.previous.line)
          (if f.isGlobal then [.text name.lexeme] else [])).rescope
            (if f.isGlobal then f else f.declare [name]).scope := by
  have hdepth := h.depth_pos_iff
  unfold define defineCode
  cases hf : f.isGlobal with
  | true =>
    rw [if_neg (by rw [hdepth, hf]; decide)]
    have hmade := makeText_of_lt (hglobal hf) name.lexeme
    simp only [nameConstant, hmade, emitWith_eq, write_write, if_true]
    rw [← h.scope_eq]
    rfl
  | false =>
    rw [if_pos (hdepth.2 hf), declareLocal, h.scope_eq,
      Frames.declare_scope_of_canDeclare (hblock hf)]
    simp only [Bool.false_eq_true, if_false, write_nil]
    rfl

/-- A declaration is read backwards from the absence of an error: each part is in order because
the state behind it is. -/
theorem varDeclaration_sound {p : Parser} {f : Frames} {var : Token} {ts : List Token}
    (h : (p.moveTo var ts).Ready f ts) (hv : var.kind = .kwVar)
    (herror : (p.moveTo var ts).varDeclaration.hadError = false) :
    p.HasRun f (var :: ts) (p.moveTo var ts).varDeclaration := by
  rw [varDeclaration_eq] at herror ⊢
  -- An error would last until the end, so there is none behind the semicolon, nor behind the
  -- name.
  have hend := (define_does _ _).no_error herror
  have hname := (initializer_does _).no_error ((consume_does _ _ _).no_error hend)
  obtain ⟨name, ts, rfl, hn, hconsume⟩ := h.stands.of_consume (by decide) hname
  rw [hconsume, moveTo_moveTo] at herror hend ⊢
  have hready := h.moveTo name ts
  rw [moveTo_moveTo] at hready
  obtain ⟨init, semicolon, rest, hi, hs, rfl, hdepth, hpool, heq⟩ :=
    initializer_sound hready hend
  have hprevious : (p.moveTo name (init.tokens ++ semicolon :: rest)).previous = name := rfl
  rw [hprevious] at heq herror ⊢
  rw [heq] at herror ⊢
  have hbehind := (hready.moveTo semicolon rest).write
    (init.code f.slots (p.moveTo name (init.tokens ++ semicolon :: rest)).poolSize name) hpool
  obtain ⟨hblock, hglobal⟩ := define_sound hbehind herror
  refine ⟨.declare var name init semicolon, rest, .declare hv hn hi hs,
    (declare_tokens_append ..).symm, ⟨hdepth, hblock⟩, ?_, ?_⟩
  · rw [constants, List.length_append, ← Nat.add_assoc]
    split
    · rename_i hf
      have hlt := hglobal hf
      rw [poolSize_write] at hlt
      exact hlt
    · exact hpool
  · rw [define_eq hbehind hblock hglobal]
    simp only [moveTo_moveTo, write_write, poolSize_write, poolSize_moveTo]
    rfl

/-- The room for the name of a global is what is left behind its initializer. -/
theorem varDeclaration_complete {p : Parser} {f : Frames} {var name semicolon : Token}
    {init : Initializer} {rest : List Token}
    (h : p.Ready f (name :: (init.tokens ++ semicolon :: rest))) (hn : name.kind = .identifier)
    (hi : init.Derived) (hs : semicolon.kind = .semicolon)
    (hreadable : Readable (init.tokens ++ semicolon :: rest))
    (hblock : f.isGlobal = false → f.CanDeclare name)
    (hfits : ∀ e ∈ init.values, e.Fits f.slots p.poolSize 256)
    (hpool : p.poolSize + ((Stmt.declare var name init semicolon).constants f).length
      ≤ OpCode.operandCount) :
    p.varDeclaration = p.ran f (.declare var name init semicolon) rest := by
  have hready := h.moveTo name (init.tokens ++ semicolon :: rest)
  have hprevious : (p.moveTo name (init.tokens ++ semicolon :: rest)).previous = name := rfl
  rw [constants, List.length_append, ← Nat.add_assoc] at hpool
  have hbehind := (hready.moveTo semicolon rest).write
    (init.code f.slots (p.moveTo name (init.tokens ++ semicolon :: rest)).poolSize name)
    (Nat.le_trans (Nat.le_add_right _ _) hpool)
  have hglobal : f.isGlobal = true →
      p.poolSize + (init.constants f.slots).length < OpCode.operandCount := by
    intro hf
    rw [hf] at hpool
    exact hpool
  rw [varDeclaration_eq, h.stands.consume hn hreadable.kindAhead_ne, hprevious,
    initializer_complete hready hi hs hreadable hfits, hprevious,
    define_eq hbehind hblock fun hf => poolSize_write .. ▸ hglobal hf]
  simp only [moveTo_moveTo, write_write, poolSize_write, poolSize_moveTo]
  rfl

end Parser

end OnePass
