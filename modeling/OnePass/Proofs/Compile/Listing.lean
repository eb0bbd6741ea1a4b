import OnePass.Proofs.Code.Listing
import OnePass.Proofs.Code.Pooled
import OnePass.Proofs.Compile.Expression
import OnePass.Proofs.Compile.Program

/-!
# OnePass.Proofs.Compile.Listing

Listings of compiled sources. A listing shows constants as they are, and of those only a
string literal that goes over several lines of its source has line breaks. As each constant
is shown by an instruction, such literals are exactly what makes a listing longer than one
line for every instruction (`compileUnit_listing`).
-/

namespace OnePass

open Listing (shown? header rows readRows?)

/-! ### Constants with line breaks -/

/-- Whether a token is a string literal that goes over several lines. -/
def Token.SpansLines (t : Token) : Prop := t.kind = .string ∧ '\n' ∈ t.lexeme.toList

instance (t : Token) : Decidable t.SpansLines := inferInstanceAs (Decidable (_ ∧ _))

/-- Whether a constant is a text with a line break. -/
def Constant.HasBreak : Constant → Prop
  | .number _ => False
  | .text content => '\n' ∈ content.toList

section Source

variable {source : String}

/-- The name in a source has no line break. -/
theorem not_mem_break_of_identifier {t : Token} (h : t ∈ (TokenStream.ofSource source).pending)
    (hkind : t.kind = .identifier) : '\n' ∉ t.lexeme.toList := by
  rcases mem_pending_ofSource h with herror | hlexeme
  · cases hkind.symm.trans herror
  · exact (hkind ▸ hlexeme : Lexeme .identifier _).not_mem_break

/-- The constant of a token has a line break exactly if the token goes over several lines. -/
theorem Token.constant?_hasBreak {t : Token} (h : t ∈ (TokenStream.ofSource source).pending)
    (slots : Slots) : (∃ c ∈ t.constant? slots, c.HasBreak) ↔ t.SpansLines := by
  unfold Token.constant? Token.SpansLines
  cases hkind : t.kind with
  | string =>
    have hlexeme := (mem_pending_ofSource h).resolve_left (by rw [hkind]; decide)
    rw [hkind] at hlexeme
    obtain ⟨body, hbody⟩ := hlexeme.exists_contents
    rw [hbody, Token.contents, hbody, Token.unquote_quoted]
    simp [Constant.HasBreak]
  | identifier =>
    have hnone := not_mem_break_of_identifier h hkind
    by_cases hslot : (slots t.lexeme).isSome <;> simp [hslot, Constant.HasBreak, hnone]
  | _ => simp [Constant.HasBreak]

theorem Phrase.constants_hasBreak {e : Expr} {level : Level} (h : Phrase level e) (slots : Slots)
    (hmem : ∀ t ∈ e.tokens, t ∈ (TokenStream.ofSource source).pending) :
    (∃ c ∈ e.constants slots, c.HasBreak) ↔ ∃ t ∈ e.tokens, t.SpansLines := by
  rw [h.constants_eq]
  constructor
  · rintro ⟨c, hc, hbreak⟩
    obtain ⟨t, ht, hconstant⟩ := List.mem_filterMap.1 hc
    exact ⟨t, ht, (Token.constant?_hasBreak (hmem t ht) slots).1 ⟨c, hconstant, hbreak⟩⟩
  · rintro ⟨t, ht, hspans⟩
    obtain ⟨c, hconstant, hbreak⟩ := (Token.constant?_hasBreak (hmem t ht) slots).2 hspans
    exact ⟨c, List.mem_filterMap.2 ⟨t, ht, hconstant⟩, hbreak⟩

theorem Initializer.constants_hasBreak {init : Initializer} (h : init.Derived) (slots : Slots)
    (hmem : ∀ t ∈ init.tokens, t ∈ (TokenStream.ofSource source).pending) :
    (∃ c ∈ init.constants slots, c.HasBreak) ↔ ∃ t ∈ init.tokens, t.SpansLines := by
  cases init with
  | none => simp [Initializer.constants, Initializer.tokens]
  | some value =>
    obtain ⟨equal, e⟩ := value
    have hequal : ¬ equal.SpansLines := fun hspans => by cases h.1.symm.trans hspans.1
    have hvalue := h.2.constants_hasBreak slots fun t ht => hmem t (List.mem_cons_of_mem _ ht)
    simp only [Initializer.constants, Initializer.tokens, List.mem_cons, exists_eq_or_imp, hequal,
      false_or]
    exact hvalue

/-- A token of another kind behind or in front of tokens makes no difference. -/
theorem exists_spansLines_concat {t : Token} (h : t.kind ≠ .string) (ts : List Token) :
    (∃ u ∈ ts ++ [t], u.SpansLines) ↔ ∃ u ∈ ts, u.SpansLines := by
  have hnone : ¬ t.SpansLines := fun hspans => h hspans.1
  simp only [List.mem_append, List.mem_singleton, or_and_right, exists_or, exists_eq_left, hnone,
    or_false]

theorem exists_spansLines_cons {t : Token} (h : t.kind ≠ .string) (ts : List Token) :
    (∃ u ∈ t :: ts, u.SpansLines) ↔ ∃ u ∈ ts, u.SpansLines := by
  have hnone : ¬ t.SpansLines := fun hspans => h hspans.1
  simp only [List.mem_cons, exists_eq_or_imp, hnone, false_or]

namespace Stmt

mutual

/-- Statements have a constant with a line break exactly if they have a string literal that
goes over several lines. -/
theorem constants_hasBreak (f : Frames) (s : Stmt) (h : s.Derived)
    (hmem : ∀ t ∈ s.tokens, t ∈ (TokenStream.ofSource source).pending) :
    (∃ c ∈ s.constants f, c.HasBreak) ↔ ∃ t ∈ s.tokens, t.SpansLines := by
  cases h with
  | @declare var name init semicolon hv hn hi hs =>
    have hname : ¬ (Constant.text name.lexeme).HasBreak :=
      not_mem_break_of_identifier (hmem name (by simp [tokens])) hn
    have hglobal :
        ¬ ∃ c ∈ (if f.isGlobal then [Constant.text name.lexeme] else []), c.HasBreak := by
      rintro ⟨c, hc, hbreak⟩
      split at hc
      · exact hname (List.mem_singleton.1 hc ▸ hbreak)
      · cases hc
    rw [constants, tokens, exists_spansLines_cons (by rw [hv]; decide),
      exists_spansLines_cons (by rw [hn]; decide), exists_spansLines_concat (by rw [hs]; decide),
      ← Initializer.constants_hasBreak hi f.slots fun t ht => hmem t (by simp [tokens, ht])]
    simp only [List.mem_append, or_and_right, exists_or, hglobal, or_false]
  | @print word value semicolon hw he hs =>
    rw [constants, tokens, exists_spansLines_cons (by rw [hw]; decide),
      exists_spansLines_concat (by rw [hs]; decide)]
    exact he.constants_hasBreak f.slots fun t ht => hmem t (by simp [tokens, ht])
  | @block opening body closing ho hb hc =>
    rw [constants, tokens, exists_spansLines_cons (by rw [ho]; decide),
      exists_spansLines_concat (by rw [hc]; decide)]
    exact constantsOf_hasBreak f.enter body hb fun t ht => hmem t (by simp [tokens, ht])
  | @expression value semicolon he hs =>
    rw [constants, tokens, exists_spansLines_concat (by rw [hs]; decide)]
    exact he.constants_hasBreak f.slots fun t ht => hmem t (by simp [tokens, ht])

theorem constantsOf_hasBreak (f : Frames) (ss : List Stmt) (h : ∀ s ∈ ss, s.Derived)
    (hmem : ∀ t ∈ tokensOf ss, t ∈ (TokenStream.ofSource source).pending) :
    (∃ c ∈ constantsOf f ss, c.HasBreak) ↔ ∃ t ∈ tokensOf ss, t.SpansLines := by
  cases ss with
  | nil => simp [constantsOf, tokensOf]
  | cons s rest =>
    have hfirst := constants_hasBreak f s (h s List.mem_cons_self) fun t ht =>
      hmem t (List.mem_append_left _ ht)
    have hrest := constantsOf_hasBreak (s.after f) rest
      (fun other hother => h other (List.mem_cons_of_mem _ hother)) fun t ht =>
      hmem t (List.mem_append_right _ ht)
    simp only [constantsOf, tokensOf, List.mem_append, or_and_right, exists_or, hfirst, hrest]

end

end Stmt

/-- The constants of a unit that is compiled without an error. -/
theorem exists_constants_of_ok {unit : UnitKind} {strings stored : Interner} {chunk : Chunk}
    (h : compileUnit unit source strings = (.ok chunk, stored)) :
    ∃ constants, (chunk.constants, stored) = TextStore.storeAll strings constants
      ∧ constants.length ≤ OpCode.operandCount
      ∧ ((∃ c ∈ constants, c.HasBreak) ↔ ∃ t ∈ tokenize source, t.SpansLines) := by
  cases unit with
  | expression =>
    obtain ⟨e, eof, hspans, hfits, -, hconstants⟩ := compileExpression_eq_ok_iff.1 h
    obtain ⟨-, hpending, -⟩ := Expr.spans_iff.1 hspans
    obtain ⟨hphrase, heof, htokens⟩ := hspans
    refine ⟨_, hconstants, Nat.zero_add (e.constants noLocals).length ▸ hfits.pool, ?_⟩
    rw [htokens, exists_spansLines_concat (by rw [heof]; decide)]
    exact hphrase.constants_hasBreak noLocals fun t ht => hpending ▸ ht
  | program =>
    obtain ⟨ss, eof, hspan, -, hpool, -, hconstants⟩ := compile_eq_ok_iff.1 h
    obtain ⟨-, hpending, -⟩ := Stmt.span_iff.1 hspan
    obtain ⟨hderived, heof, htokens⟩ := hspan
    refine ⟨_, hconstants, hpool, ?_⟩
    rw [htokens, exists_spansLines_concat (by rw [heof]; decide)]
    exact Stmt.constantsOf_hasBreak .global ss hderived fun t ht => hpending ▸ ht

end Source

/-! ### Numbers -/

theorem breaksIn_signText (x : Binary64) : breaksIn x.signText = 0 := by
  unfold Binary64.signText
  split <;> rfl

theorem not_mem_break_digitChars (n : Nat) : '\n' ∉ Decimal.digitChars n := by
  intro hmem
  cases Listing.isDigit_of_mem_toDigits hmem

theorem breaksIn_positional (d : Decimal) : breaksIn d.positional = 0 := by
  have hdigits := not_mem_break_digitChars d.digits
  have hzeros : ∀ n, '\n' ∉ List.replicate n '0' := fun n hmem => by
    cases (List.mem_replicate.1 hmem).2
  rw [breaksIn_eq_zero, Decimal.positional]
  dsimp only
  split
  · simp [hdigits, hzeros]
  · rename_i n _
    rw [String.toList_ofList]
    intro hmem
    rcases List.mem_append.1 hmem with hmem | hmem
    · rcases List.mem_append.1 (List.mem_of_mem_take hmem) with hmem | hmem
      · exact hzeros _ hmem
      · exact hdigits hmem
    · rcases List.mem_cons.1 hmem with hmem | hmem
      · cases hmem
      · rcases List.mem_append.1 (List.mem_of_mem_drop hmem) with hmem | hmem
        · exact hzeros _ hmem
        · exact hdigits hmem

/-- A number is shown on one line. -/
theorem breaksIn_numberText (x : Binary64) : breaksIn (Value.numberText x) = 0 := by
  have hdigits : breaksIn (String.ofList (Decimal.digitChars x.wholePart)) = 0 := by
    rw [breaksIn_eq_zero, String.toList_ofList]
    exact not_mem_break_digitChars _
  unfold Value.numberText
  split
  · rw [Binary64.integerText, breaksIn_append, breaksIn_signText, hdigits]
  · unfold Binary64.text
    split
    · rfl
    split
    · rw [breaksIn_append, breaksIn_signText]
      rfl
    split
    · rw [breaksIn_append, breaksIn_signText]
      rfl
    · rw [breaksIn_append, breaksIn_signText, breaksIn_positional]

/-- A constant is shown with line breaks exactly if it is a text that has some. -/
theorem Value.breaksIn_display (strings : Interner) (v : Value) :
    breaksIn (v.display strings) ≠ 0 ↔ (v.content strings).HasBreak := by
  cases v with
  | number x => exact iff_of_false (fun h => h (breaksIn_numberText x)) id
  | text handle =>
    show breaksIn (strings.resolve handle) ≠ 0 ↔ '\n' ∈ (strings.resolve handle).toList
    rw [Ne, breaksIn_eq_zero, not_not]

/-! ### Listings -/

namespace Chunk

theorem mem_used {c : Chunk} {index : Nat} :
    index ∈ c.used ↔ ∃ i ∈ c.instructions, ∃ operand, i.operand = some operand
      ∧ i.op.refersToConstant = true ∧ operand.toNat = index := by
  rw [Chunk.used, List.mem_filterMap]
  refine exists_congr fun i => and_congr_right fun _ => ?_
  rw [OpCode.poolIndex?]
  split
  · rename_i hop
    simp [hop, Option.map_eq_some_iff]
  · rename_i hop
    simp [hop]

/-- If the instructions use all constants and no others, a listing shows a line break exactly
if a constant has one. -/
theorem shows_break_iff (c : Chunk) (strings : Interner)
    (hused : c.used.Perm (List.range c.constants.length)) :
    (∃ i ∈ c.instructions, ∃ text ∈ shown? c strings i, breaksIn text ≠ 0)
      ↔ ∃ content ∈ c.constants.map (·.content strings), content.HasBreak := by
  -- What is shown of a constant that is in the pool.
  have hshown : ∀ {i : Instruction} {operand : UInt8} {v : Value}, i.operand = some operand →
      i.op.refersToConstant = true → c.constants[operand.toNat]? = some v →
      shown? c strings i = some (v.display strings) := by
    intro i operand v hoperand hop hv
    rw [shown?, hoperand, Option.bind_some, if_pos hop, Chunk.constant?, hv]
    rfl
  constructor
  · rintro ⟨i, hi, text, htext, hbreak⟩
    cases hoperand : i.operand with
    | none =>
      rw [shown?, hoperand] at htext
      cases htext
    | some operand =>
      by_cases hop : i.op.refersToConstant = true
      · have hmem := hused.mem_iff.1 (mem_used.2 ⟨i, hi, operand, hoperand, hop, rfl⟩)
        have hv := List.getElem?_eq_getElem (List.mem_range.1 hmem)
        rw [hshown hoperand hop hv] at htext
        obtain rfl := Option.some.inj htext
        exact ⟨_, List.mem_map_of_mem (List.getElem_mem _), (Value.breaksIn_display ..).1 hbreak⟩
      · rw [shown?, hoperand, Option.bind_some, if_neg hop] at htext
        cases htext
  · rintro ⟨content, hcontent, hbreak⟩
    obtain ⟨v, hv, rfl⟩ := List.mem_map.1 hcontent
    obtain ⟨index, hlt, rfl⟩ := List.getElem_of_mem hv
    obtain ⟨i, hi, operand, hoperand, hop, rfl⟩ :=
      mem_used.1 (hused.mem_iff.2 (List.mem_range.2 hlt))
    exact ⟨i, hi, _, hshown hoperand hop (List.getElem?_eq_getElem hlt),
      (Value.breaksIn_display ..).2 hbreak⟩

end Chunk

/-- The listing of a compiled source is faithful. Read row by row, each with the source line of
the one before, it gives the offset, line, opcode and operand of every instruction, in order,
whatever its constants look like. Its lines are the header and these rows exactly if no string
literal goes over several lines of the source; every line break in one that does makes the
listing longer by a line. -/
theorem compileUnit_listing {unit : UnitKind} {source : String} {strings stored : Interner}
    {chunk : Chunk} (h : compileUnit unit source strings = (.ok chunk, stored)) {name : String}
    (hname : '\n' ∉ name.toList) :
    let listing := chunk.listing stored name
    let found := rows chunk stored none chunk.instructions
    listing = String.join ((header name :: found).map (· ++ "\n"))
      ∧ found.length = chunk.instructions.length
      ∧ readRows? none found = some chunk.instructions
      ∧ (linesOf listing = header name :: found ↔ ∀ t ∈ tokenize source, ¬ t.SpansLines)
      ∧ (linesOf listing).length = 1 + chunk.instructions.length
          + (chunk.instructions.map fun i => (shown? chunk stored i).elim 0 breaksIn).sum := by
  intro listing found
  have hbreaks : breaksIn name = 0 := breaksIn_eq_zero.2 hname
  have hrows : found.length = chunk.instructions.length := Listing.length_rows ..
  have hcount := chunk.length_linesOf_listing stored name
  rw [hbreaks, Nat.zero_add] at hcount
  refine ⟨rfl, hrows, Listing.readRows?_rows .., ?_, hcount⟩
  obtain ⟨constants, hconstants, hroom, hbroken⟩ := exists_constants_of_ok h
  obtain ⟨hpool, hstored⟩ := Prod.mk.inj hconstants
  have hcontents : chunk.constants.map (·.content stored) = constants := by
    rw [hpool, hstored, TextStore.content_storeAll]
  have hused : chunk.used.Perm (List.range chunk.constants.length) := by
    obtain ⟨-, rfl, -⟩ := compileUnit_eq_ok_iff.1 h
    refine Parser.run_used unit _ strings ?_
    have hlength := congrArg List.length hcontents
    rw [List.length_map] at hlength
    exact hlength ▸ hroom
  have hshown := chunk.shows_break_iff stored hused
  rw [hcontents, hbroken] at hshown
  constructor
  · intro hlines t ht hspans
    have hlength := congrArg List.length hlines
    obtain ⟨i, hi, text, htext, hbreak⟩ := hshown.2 ⟨t, ht, hspans⟩
    rw [List.length_cons, hrows, Nat.add_comm] at hlength
    exact hbreak ((Chunk.length_linesOf_listing_eq_iff hbreaks).1 hlength i hi text htext)
  · intro hnone
    refine Chunk.linesOf_listing hbreaks fun i hi text htext => ?_
    by_contra hbreak
    obtain ⟨t, ht, hspans⟩ := hshown.1 ⟨i, hi, text, htext, hbreak⟩
    exact hnone t ht hspans

/-- A text that looks like columns is read over. -/
theorem exists_listing_read_back :
    ∃ stored, compileUnit .program "print \"1 | '2\";" .empty
        = (.ok ⟨[⟨0, 1⟩, ⟨0, 1⟩, ⟨19, 1⟩, ⟨20, 1⟩], [.text ⟨0⟩]⟩, stored)
      ∧ readRows? none (linesOf (Chunk.listing ⟨[⟨0, 1⟩, ⟨0, 1⟩, ⟨19, 1⟩, ⟨20, 1⟩], [.text ⟨0⟩]⟩
          stored "unit")).tail
        = some [⟨0, 1, .constant, some 0⟩, ⟨2, 1, .print, none⟩, ⟨3, 1, .ret, none⟩] := by
  have hok : compileUnit .program "print \"1 | '2\";" .empty
      = (.ok ⟨[⟨0, 1⟩, ⟨0, 1⟩, ⟨19, 1⟩, ⟨20, 1⟩], [.text ⟨0⟩]⟩, ⟨["1 | '2"], by decide⟩) :=
    compileUnit_eq_ok_iff.2 (by decide +kernel)
  have hname : '\n' ∉ "unit".toList := by decide
  obtain ⟨-, -, hread, hlines, -⟩ := compileUnit_listing hok hname
  have hnone : ∀ t ∈ tokenize "print \"1 | '2\";", ¬ t.SpansLines := by decide +kernel
  refine ⟨_, hok, ?_⟩
  rw [hlines.2 hnone]
  exact hread

/-- A literal on two lines makes five lines of three instructions and a header. -/
theorem exists_listing_with_longer_row :
    ∃ stored, compileUnit .program "print \"a\nb\";" .empty
        = (.ok ⟨[⟨0, 2⟩, ⟨0, 2⟩, ⟨19, 2⟩, ⟨20, 2⟩], [.text ⟨0⟩]⟩, stored)
      ∧ Chunk.instructions ⟨[⟨0, 2⟩, ⟨0, 2⟩, ⟨19, 2⟩, ⟨20, 2⟩], [.text ⟨0⟩]⟩
        = [⟨0, 2, .constant, some 0⟩, ⟨2, 2, .print, none⟩, ⟨3, 2, .ret, none⟩]
      ∧ linesOf (Chunk.listing ⟨[⟨0, 2⟩, ⟨0, 2⟩, ⟨19, 2⟩, ⟨20, 2⟩], [.text ⟨0⟩]⟩ stored "unit")
        = ["== unit ==", "0000    2 OP_CONSTANT         0 'a", "b'", "0002    | OP_PRINT",
            "0003    | OP_RETURN"] := by
  refine ⟨⟨["a\nb"], by decide⟩, compileUnit_eq_ok_iff.2 (by decide +kernel), ?_⟩
  decide +kernel

end OnePass
