import OnePass.Proofs.Parser.Declaration

/-!
# OnePass.Proofs.Parser.Statement

What the parser does with statements. If compiling declarations leads to no error, then
the tokens taken are those of statements that keep the static rules, and exactly their
reference translation has been written (`declarations_sound`); conversely such
statements are compiled without an error (`declarations_complete`).
-/

namespace OnePass

namespace Parser

open Stmt

/-! ### Blocks -/

theorem endScope_eq {p : Parser} {count : Nat} {scope : Scope}
    (h : p.scope.leave = (count, scope)) :
    p.endScope.2
      = (p.write (List.replicate count ⟨.pop, none, p.previous.line⟩) []).rescope scope := by
  unfold endScope
  rw [h]
  dsimp only
  rw [emitAll_eq, List.map_replicate]
  rfl

/-- Behind the statements of a block, its closing brace takes their locals away. -/
theorem endScope_ranAll (p : Parser) (f : Frames) (opening closing : Token) (body : List Stmt)
    (ts rest : List Token) :
    ((((p.moveTo opening ts).rescope f.enter.scope).ranAll f.enter body
        (closing :: rest)).moveTo closing rest).endScope.2
      = p.ran f (.block opening body closing) rest := by
  have hleave : (afterAll f.enter body).scope.leave = ((declared body).length, f.scope) := by
    rw [afterAll_eq_declare rfl]
    exact Frames.scope_leave _ _ _
  rw [endScope_eq hleave, ranAll, ran]
  simp only [moveTo_rescope, write_rescope, rescope_rescope, write_moveTo, moveTo_moveTo,
    write_write, poolSize_rescope, poolSize_moveTo, List.append_nil]
  rfl

/-- If `body` compiles declarations without an error, and fewer than `fuel` tokens are
left, then it has compiled statements that keep the static rules. -/
def BodySound (body : TokenKind → Parser → Parser) (fuel : Nat) : Prop :=
  ∀ {closing : TokenKind} {p : Parser} {f : Frames} {ts : List Token},
    (body closing p).hadError = false → p.Ready f ts → p.tokensLeft < fuel →
    ∃ ss rest, (∀ s ∈ ss, s.Derived) ∧ ts = tokensOf ss ++ rest
      ∧ (kindAhead rest = closing ∨ kindAhead rest = .eof) ∧ ValidAll f ss
      ∧ p.poolSize + (constantsOf f ss).length ≤ OpCode.operandCount
      ∧ body closing p = p.ranAll f ss rest

section Sound

variable {body : TokenKind → Parser → Parser} {fuel : Nat}

theorem block_sound (hbody : BodySound body fuel) {p : Parser} {f : Frames} {opening : Token}
    {ts : List Token} (h : (p.moveTo opening ts).Ready f ts) (ho : opening.kind = .leftBrace)
    (hfuel : (p.moveTo opening ts).tokensLeft < fuel)
    (herror : (block body (p.moveTo opening ts)).hadError = false) :
    p.HasRun f (opening :: ts) (block body (p.moveTo opening ts)) := by
  unfold block at herror ⊢
  rw [h.beginScope_eq] at herror ⊢
  have hconsume := (endScope_does _).no_error herror
  obtain ⟨ss, mid, hderived, rfl, -, hvalid, hpool, heq⟩ :=
    hbody ((consume_does _ _ _).no_error hconsume) h.enter hfuel
  rw [heq] at hconsume ⊢
  obtain ⟨closing, rest, rfl, hc, hmove⟩ := (at_ranAll _ _ _ _).of_consume (by decide) hconsume
  refine ⟨.block opening ss closing, rest, .block ho hderived hc,
    (block_tokens_append ..).symm, hvalid, hpool, ?_⟩
  rw [hmove, endScope_ranAll]

/-- A declaration that is compiled without an error. Its first token decides which kind it is. -/
theorem declarationBody_sound (hreach : ∀ closing p, Reaches p (body closing p))
    (hbody : BodySound body fuel) {p : Parser} {f : Frames} {ts : List Token}
    (h : p.Ready f ts) (hfuel : p.tokensLeft ≤ fuel)
    (herror : (declarationBody body p).hadError = false) :
    p.HasRun f ts (declarationBody body p) := by
  unfold declarationBody statement at herror ⊢
  -- The parser asks for `var`, `print` and the brace in this order; an expression is the rest.
  by_cases hvar : p.check .kwVar = true
  · rw [if_pos hvar] at herror ⊢
    obtain ⟨var, ts, rfl, hahead⟩ := h.stands.of_check (by decide) hvar
    have hadvance := h.stands.advance_of_no_error ((varDeclaration_works _).no_error herror)
    rw [hadvance] at herror ⊢
    exact varDeclaration_sound (h.moveTo var ts) hahead herror
  rw [if_neg hvar] at herror ⊢
  by_cases hprint : p.check .kwPrint = true
  · rw [if_pos hprint] at herror ⊢
    obtain ⟨word, ts, rfl, hahead⟩ := h.stands.of_check (by decide) hprint
    have hadvance := h.stands.advance_of_no_error ((printStatement_does _).no_error herror)
    rw [hadvance, printStatement] at herror ⊢
    obtain ⟨e, semicolon, rest, he, hs, rfl, hdepth, hpool, heq⟩ :=
      terminated_sound (h.moveTo word ts) ((emit_does _ _).no_error herror)
    refine ⟨.print word e semicolon, rest, .print hahead he hs,
      (print_tokens_append ..).symm, hdepth, hpool, ?_⟩
    rw [heq, emit_eq, write_write, List.append_nil, moveTo_moveTo, ← h.eq_ran rfl]
    rfl
  rw [if_neg hprint] at herror ⊢
  by_cases hbrace : p.check .leftBrace = true
  · rw [if_pos hbrace] at herror ⊢
    obtain ⟨opening, ts, rfl, hahead⟩ := h.stands.of_check (by decide) hbrace
    have hadvance := h.stands.advance_of_no_error ((block_reaches hreach _).no_error herror)
    have hless := h.stands.tokensLeft_moveTo_lt (hahead.trans_ne (by decide))
    rw [hadvance] at herror ⊢
    exact block_sound hbody (h.moveTo opening ts) hahead (Nat.lt_of_lt_of_le hless hfuel) herror
  · rw [if_neg hbrace, expressionStatement] at herror ⊢
    obtain ⟨e, semicolon, rest, he, hs, rfl, hdepth, hpool, heq⟩ :=
      terminated_sound h ((emit_does _ _).no_error herror)
    refine ⟨.expression e semicolon, rest, .expression he hs,
      (expression_tokens_append ..).symm, hdepth, hpool, ?_⟩
    rw [heq, emit_eq, write_write, List.append_nil, ← h.eq_ran rfl]
    rfl

end Sound

/-- Without a panic there is nothing to recover from. -/
theorem declaration_of_ran {body : TokenKind → Parser → Parser} {p : Parser} {f : Frames}
    {ts rest : List Token} {s : Stmt} (h : p.Ready f ts)
    (heq : declarationBody body p = p.ran f s rest) : declaration body p = p.ran f s rest := by
  have hcalm : (p.ran f s rest).isPanicking = false := by
    have hmode : (p.ran f s rest).mode = .normal := h.calm
    rw [isPanicking, hmode]
    rfl
  unfold declaration
  rw [heq]
  dsimp only
  rw [hcalm, if_neg Bool.false_ne_true]

/-- Declarations that are compiled without an error are statements that keep the static
rules, and their reference translation has been written. -/
theorem declarations_sound (fuel : Nat) : BodySound (declarations fuel) fuel := by
  induction fuel with
  | zero => exact fun _ _ hfuel => absurd hfuel (Nat.not_lt_zero _)
  | succ fuel ih =>
    intro closing p f ts herror h hfuel
    unfold declarations at herror ⊢
    by_cases hend : (p.check closing || p.check .eof) = true
    · rw [if_pos hend]
      refine ⟨[], ts, by simp, rfl, ?_, trivial, h.pool, (ranAll_nil h).symm⟩
      rcases (Bool.or_eq_true _ _).mp hend with hend | hend
      · exact .inl ((h.stands.check_iff _).1 hend)
      · exact .inr ((h.stands.check_iff _).1 hend)
    · rw [if_neg hend] at herror ⊢
      have hfirst := (declarations_reaches _ _ _).no_error herror
      have hbody : (declarationBody (declarations fuel) p).hadError = false := by
        -- Recovery takes no error back, so that there was none before it either.
        have hrecovery : Reaches (declarationBody (declarations fuel) p)
            (declaration (declarations fuel) p) := by
          unfold declaration
          dsimp only
          split
          · exact (synchronize_does _).reaches
          · exact .refl
        exact hrecovery.no_error hfirst
      obtain ⟨s, mid, hs, htokens, hvalid, hpool, heq⟩ :=
        declarationBody_sound (declarations_reaches fuel) ih h (Nat.le_of_lt_succ hfuel) hbody
      have hready := h.ran hvalid hpool mid
      rw [declaration_of_ran h heq] at herror ⊢
      have hless := Nat.lt_of_lt_of_le ((htokens ▸ h).tokensLeft_ran_lt hs)
        (Nat.le_of_lt_succ hfuel)
      obtain ⟨ss, rest, hss, rfl, hend, hvalids, hpools, heqs⟩ := ih herror hready hless
      refine ⟨s :: ss, rest, ?_, ?_, hend, ⟨hvalid, hvalids⟩, ?_, ?_⟩
      · exact List.forall_mem_cons.2 ⟨hs, hss⟩
      · rw [htokens, tokensOf, List.append_assoc]
      · have hsize : (p.ran f s (tokensOf ss ++ rest)).poolSize
            = p.poolSize + (s.constants f).length := poolSize_write ..
        rw [hsize, Nat.add_assoc] at hpools
        rw [constantsOf, List.length_append]
        exact hpools
      · rw [heqs, ranAll_cons]

/-! ### Statements, then no error -/

/-- Whether no token is an error, and every number can be read. -/
def Legible (ts : List Token) : Prop :=
  ∀ t ∈ ts, t.kind ≠ .error ∧ (t.kind = .number → t.number?.isSome)

theorem Legible.readable {ts : List Token} (h : Legible ts) : Readable ts := by
  intro t ht
  exact (h t ht).1

theorem Legible.of_append {ts rest : List Token} (h : Legible (ts ++ rest)) : Legible rest := by
  intro t ht
  exact h t (List.mem_append_right _ ht)

theorem Legible.tail {t : Token} {ts : List Token} (h : Legible (t :: ts)) : Legible ts := by
  intro u hu
  exact h u (List.mem_cons_of_mem t hu)

/-- An expression in legible tokens fits if it is not too deep and the pool has room. -/
theorem Legible.fits {e : Expr} {rest : List Token} {slots : Slots} {index : Nat}
    (h : Legible (e.tokens ++ rest)) (hdepth : e.depth ≤ 256)
    (hpool : index + (e.constants slots).length ≤ OpCode.operandCount) :
    e.Fits slots index 256 :=
  ⟨hdepth, hpool, fun t ht => (h t (List.mem_append_left _ ht)).2⟩

/-- `body` compiles all statements that keep the static rules, if they are followed by
the token that closes them and fewer than `fuel` tokens are left. -/
def BodyComplete (body : TokenKind → Parser → Parser) (fuel : Nat) : Prop :=
  ∀ {closing : TokenKind} {p : Parser} {f : Frames} {ss : List Stmt} {rest : List Token},
    closing = .rightBrace ∨ closing = .eof → kindAhead rest = closing →
    p.Ready f (tokensOf ss ++ rest) → Legible (tokensOf ss ++ rest) → p.tokensLeft < fuel →
    (∀ s ∈ ss, s.Derived) → ValidAll f ss →
    p.poolSize + (constantsOf f ss).length ≤ OpCode.operandCount →
    body closing p = p.ranAll f ss rest

section Complete

variable {body : TokenKind → Parser → Parser} {fuel : Nat}

theorem block_complete (hbody : BodyComplete body fuel) {p : Parser} {f : Frames}
    {opening closing : Token} {ss : List Stmt} {rest : List Token}
    (h : (p.moveTo opening (tokensOf ss ++ closing :: rest)).Ready f
      (tokensOf ss ++ closing :: rest))
    (hc : closing.kind = .rightBrace) (hlegible : Legible (tokensOf ss ++ closing :: rest))
    (hfuel : (p.moveTo opening (tokensOf ss ++ closing :: rest)).tokensLeft < fuel)
    (hderived : ∀ s ∈ ss, s.Derived) (hvalid : ValidAll f.enter ss)
    (hpool : p.poolSize + (constantsOf f.enter ss).length ≤ OpCode.operandCount) :
    block body (p.moveTo opening (tokensOf ss ++ closing :: rest))
      = p.ran f (.block opening ss closing) rest := by
  have hrest := hlegible.of_append.tail.readable
  have hend : kindAhead (closing :: rest) = .rightBrace := hc
  unfold block
  rw [h.beginScope_eq, hbody (.inl rfl) hend h.enter hlegible hfuel hderived hvalid hpool,
    (at_ranAll _ _ _ _).consume hc hrest.kindAhead_ne, endScope_ranAll]

/-- A declaration is compiled if it keeps the static rules, is readable and fits. -/
theorem declarationBody_complete (hbody : BodyComplete body fuel) {p : Parser} {f : Frames}
    {s : Stmt} {rest : List Token} (h : p.Ready f (s.tokens ++ rest))
    (hlegible : Legible (s.tokens ++ rest)) (hfuel : p.tokensLeft ≤ fuel) (hs : s.Derived)
    (hvalid : s.Valid f)
    (hpool : p.poolSize + (s.constants f).length ≤ OpCode.operandCount) :
    declarationBody body p = p.ran f s rest := by
  have hcheck := h.stands.check_iff
  have hopens := hs.opens rest
  unfold declarationBody statement
  cases hs with
  | @declare var name init semicolon hv hn hi hsemicolon =>
    rw [if_pos ((hcheck _).2 hopens)]
    rw [declare_tokens_append] at h hlegible
    have hreadable := hlegible.tail.tail.readable
    have hfits : ∀ e ∈ init.values, e.Fits f.slots p.poolSize 256 := by
      intro e he
      cases init with
      | none => exact absurd he List.not_mem_nil
      | some value =>
        obtain rfl := List.mem_singleton.1 he
        refine hlegible.tail.tail.tail.fits (hvalid.1 _ he) (Nat.le_trans ?_ hpool)
        rw [constants, List.length_append]
        exact Nat.add_le_add_left (Nat.le_add_right _ _) _
    rw [h.stands.advance hlegible.tail.readable.kindAhead_ne,
      varDeclaration_complete (h.moveTo var _) hn hi hsemicolon hreadable hvalid.2 hfits hpool]
    rfl
  | @print word value semicolon hw he hsemicolon =>
    have hvar := h.stands.check_of_ne (hopens.trans_ne (by decide : _ ≠ TokenKind.kwVar))
    rw [if_neg hvar, if_pos ((hcheck _).2 hopens)]
    rw [print_tokens_append] at h hlegible
    rw [h.stands.advance hlegible.tail.readable.kindAhead_ne, printStatement,
      terminated_complete (h.moveTo word _) he hsemicolon hlegible.tail.readable
        (hlegible.tail.fits hvalid hpool), emit_eq, write_write, List.append_nil, moveTo_moveTo,
      ← h.eq_ran rfl]
    rfl
  | @block opening ss closing ho hss hc =>
    have hvar := h.stands.check_of_ne (hopens.trans_ne (by decide : _ ≠ TokenKind.kwVar))
    have hprint := h.stands.check_of_ne (hopens.trans_ne (by decide : _ ≠ TokenKind.kwPrint))
    rw [if_neg hvar, if_neg hprint, if_pos ((hcheck _).2 hopens)]
    rw [block_tokens_append] at h hlegible
    have hless := h.stands.tokensLeft_moveTo_lt (ho.trans_ne (by decide))
    rw [h.stands.advance hlegible.tail.readable.kindAhead_ne]
    exact block_complete hbody (h.moveTo opening _) hc hlegible.tail
      (Nat.lt_of_lt_of_le hless hfuel) hss hvalid hpool
  | @expression value semicolon he hsemicolon =>
    have hkind : ∀ kind, TokenKind.opening? kind = none → ¬ p.check kind = true := by
      intro kind hnone hkind
      have hopening : (kindAhead _).opening?.isSome = true := hopens
      rw [(hcheck kind).1 hkind, hnone] at hopening
      cases hopening
    rw [if_neg (hkind .kwVar rfl), if_neg (hkind .kwPrint rfl), if_neg (hkind .leftBrace rfl)]
    rw [expression_tokens_append] at h hlegible
    rw [expressionStatement,
      terminated_complete h he hsemicolon hlegible.readable (hlegible.fits hvalid hpool),
      emit_eq, write_write, List.append_nil, ← h.eq_ran rfl]
    rfl

end Complete

/-- Statements that keep the static rules are compiled without an error. -/
theorem declarations_complete (fuel : Nat) : BodyComplete (declarations fuel) fuel := by
  induction fuel with
  | zero => exact fun _ _ _ _ hfuel => absurd hfuel (Nat.not_lt_zero _)
  | succ fuel ih =>
    intro closing p f ss rest hclosing hrest h hlegible hfuel hderived hvalid hpool
    unfold declarations
    cases ss with
    | nil =>
      have hend : p.check closing = true := (h.stands.check_iff _).2 hrest
      rw [hend, Bool.true_or, if_pos rfl]
      exact (ranAll_nil h).symm
    | cons s ss =>
      rw [tokensOf, List.append_assoc] at h hlegible
      obtain ⟨hs, hss⟩ := List.forall_mem_cons.1 hderived
      obtain ⟨hvalid, hvalids⟩ := hvalid
      rw [constantsOf, List.length_append, ← Nat.add_assoc] at hpool
      have hnot := hs.not_ends (tokensOf ss ++ rest)
      have hmore : ¬ (p.check closing || p.check .eof) = true := by
        intro hend
        rcases (Bool.or_eq_true _ _).mp hend with hend | hend
        · have hahead := (h.stands.check_iff _).1 hend
          rcases hclosing with rfl | rfl
          · exact hnot (.inl hahead)
          · exact hnot (.inr hahead)
        · exact hnot (.inr ((h.stands.check_iff _).1 hend))
      have hroom := Nat.le_trans (Nat.le_add_right _ _) hpool
      have hready := h.ran hvalid hroom (tokensOf ss ++ rest)
      have hfirst := declarationBody_complete ih h hlegible (Nat.le_of_lt_succ hfuel) hs hvalid
        hroom
      have hless := Nat.lt_of_lt_of_le (h.tokensLeft_ran_lt hs) (Nat.le_of_lt_succ hfuel)
      have hpools : (p.ran f s (tokensOf ss ++ rest)).poolSize
          + (constantsOf (s.after f) ss).length ≤ OpCode.operandCount := by
        have hsize : (p.ran f s (tokensOf ss ++ rest)).poolSize
            = p.poolSize + (s.constants f).length := poolSize_write ..
        rw [hsize]
        exact hpool
      rw [if_neg hmore, declaration_of_ran h hfirst, ih hclosing hrest hready hlegible.of_append
        hless hss hvalids hpools, ranAll_cons]

end Parser

end OnePass
