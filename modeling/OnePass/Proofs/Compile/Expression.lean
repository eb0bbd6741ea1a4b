import Mathlib.Data.List.Forall2
import OnePass.Proofs.Compile.Unit

/-!
# OnePass.Proofs.Compile.Expression

Compiling a source that is a single expression, from end to end. It succeeds for the
sentences of the grammar for which there is room, and for nothing else, and leads to
the reference translation of the sentence's only tree (`compileExpression_reference`).
-/

namespace OnePass

namespace Parser

/-! ### The parser on a whole input -/

/-- The parser behind an expression that was the whole input. -/
def finished (p : Parser) (e : Expr) : Parser :=
  ((p.compiled e []).moveTo p.stream.ending []).write [⟨.ret, none, p.stream.ending.line⟩] []

theorem stops_nil : Stops .assignment [] :=
  stops_of_not_operator rfl (by decide)

/-- If an input compiles without an error, then it is a sentence for which there was
room. -/
theorem singleExpression_sound {p : Parser} {ts : List Token} (hat : p.At ts)
    (hend : ∀ t ∈ ts, t.kind ≠ .eof) (hpool : p.poolSize ≤ OpCode.operandCount)
    (herror : p.singleExpression.hadError = false) :
    ∃ e, Phrase .assignment e ∧ ts = e.tokens ∧ p.Fits (room maxNesting p.nesting) e
      ∧ p.singleExpression = p.finished e := by
  have hconsume := (emit_does _ _).no_error herror
  have hexpression := (consume_does _ _ _).no_error hconsume
  obtain ⟨e, rest, hreads, hfits, heq⟩ :=
    parseLevel_sound maxNesting _ hexpression hat rfl hpool
  have hcompiled : p.expression = p.compiled e rest := heq
  have hrest := p.at_compiled e rest
  rw [hcompiled] at hconsume
  have hcheck : (p.compiled e rest).check .eof = true := by
    by_contra hcheck
    rw [consume, if_neg hcheck, errorAtCurrent, errorAt_hadError] at hconsume
    cases hconsume
  have htokens : ts = e.tokens ++ rest := hreads.tokens_eq
  -- The end has been reached, for no end token is among the tokens.
  obtain rfl : rest = [] := by
    cases rest with
    | nil => rfl
    | cons t rest =>
      have hkind := (hrest.check_iff .eof).1 hcheck
      exact absurd hkind (hend t (htokens ▸ List.mem_append_right _ List.mem_cons_self))
  refine ⟨e, hreads.phrase_level, by simpa using htokens, hfits, ?_⟩
  unfold singleExpression
  rw [hcompiled, hrest.consume_nil, emit_eq]
  rfl

/-- A sentence for which there is room compiles without an error. -/
theorem singleExpression_complete {p : Parser} {e : Expr} (h : Phrase .assignment e)
    (hat : p.At e.tokens) (hfits : p.Fits (room maxNesting p.nesting) e) :
    p.singleExpression = p.finished e := by
  have hreads : Reads (.phrase .assignment) (e.tokens ++ []) e [] :=
    Phrase.reads .assignment h stops_nil
  rw [List.append_nil] at hreads
  have hreadable : Readable e.tokens := fun t ht => (h.kind_ne t ht).1
  have hcompiled : p.expression = p.compiled e [] :=
    parseLevel_complete maxNesting _ hreads hfits hat hreadable rfl
  unfold singleExpression
  rw [hcompiled, (p.at_compiled e []).consume_nil, emit_eq]
  rfl

end Parser

/-! ### Sentences of a source -/

/-- Whether a tree is one of a sentence that is, up to its end, the whole source. -/
def Expr.Spans (e : Expr) (source : String) (eof : Token) : Prop :=
  Phrase .assignment e ∧ eof.kind = .eof ∧ tokenize source = e.tokens ++ [eof]

theorem Expr.spans_iff {e : Expr} {source : String} {eof : Token} :
    e.Spans source eof ↔ Phrase .assignment e ∧ (TokenStream.ofSource source).pending = e.tokens
      ∧ (TokenStream.ofSource source).ending = eof := by
  constructor
  · rintro ⟨hphrase, -, htokens⟩
    obtain ⟨hpending, hending⟩ := List.append_inj' htokens rfl
    exact ⟨hphrase, hpending, List.singleton_injective hending⟩
  · rintro ⟨hphrase, hpending, rfl⟩
    exact ⟨hphrase, rfl, congrArg (· ++ _) hpending⟩

/-- A source is spanned by one tree at most. -/
theorem Expr.Spans.unique {e e' : Expr} {source : String} {eof eof' : Token}
    (h : e.Spans source eof) (h' : e'.Spans source eof') : e = e' := by
  obtain ⟨hphrase, htokens, -⟩ := Expr.spans_iff.1 h
  obtain ⟨hphrase', htokens', -⟩ := Expr.spans_iff.1 h'
  have heq : e.tokens ++ [] = e'.tokens ++ [] := congrArg (· ++ []) (htokens.symm.trans htokens')
  exact (hphrase.unique hphrase' Parser.stops_nil Parser.stops_nil heq).1

/-! ### Pool entries -/

/-- What a token denotes that has a pool entry of its own: a number its value, a string
what stands between its quotes, a name itself. -/
inductive Token.Denotes : Token → Constant → Prop where
  | number {t x} (hk : t.kind = .number) (hx : t.number? = some x) : Denotes t (.number x)
  | string {t body} (hk : t.kind = .string) (hl : t.lexeme.toList = '"' :: (body ++ ['"'])) :
      Denotes t (.text (String.ofList body))
  | name {t} (hk : t.kind = .identifier) : Denotes t (.text t.lexeme)

/-- Whether a token is of a kind that can have a pool entry. -/
def Token.isPooled (t : Token) : Bool :=
  t.kind = .number || t.kind = .string || t.kind = .identifier

/-- The constants of tokens of a source are what the tokens denote, one by one. -/
theorem forall₂_denotes {source : String} (ts : List Token)
    (h : ∀ t ∈ ts, t ∈ (TokenStream.ofSource source).pending) :
    List.Forall₂ Token.Denotes (ts.filter Token.isPooled)
      (ts.filterMap (·.constant? noLocals)) := by
  induction ts with
  | nil => exact .nil
  | cons t ts ih =>
    have hrest := ih fun u hu => h u (List.mem_cons_of_mem t hu)
    have hmem := h t List.mem_cons_self
    by_cases hpooled : t.isPooled = true
    · have hdenotes : ∃ c, t.constant? noLocals = some c ∧ t.Denotes c := by
        simp only [Token.isPooled, Bool.or_eq_true, decide_eq_true_iff] at hpooled
        unfold Token.constant?
        rcases hpooled with (hkind | hkind) | hkind <;> rw [hkind]
        · obtain ⟨x, hx⟩ := Option.isSome_iff_exists.1 (number?_isSome_of_mem hmem hkind)
          exact ⟨.number x, by simp [hx], .number hkind hx⟩
        · rcases mem_pending_ofSource hmem with herror | hlexeme
          · rw [hkind] at herror
            cases herror
          · rw [hkind] at hlexeme
            obtain ⟨body, hbody⟩ := hlexeme.exists_contents
            have hcontents : t.contents = String.ofList body := by
              rw [Token.contents, hbody, Token.unquote_quoted]
            exact ⟨.text (String.ofList body), by rw [hcontents], .string hkind hbody⟩
        · exact ⟨.text t.lexeme, rfl, .name hkind⟩
      obtain ⟨c, hc, hdenotes⟩ := hdenotes
      rw [List.filter_cons_of_pos hpooled, List.filterMap_cons_some hc]
      exact .cons hdenotes hrest
    · have hnone : t.constant? noLocals = none := by
        refine Token.constant?_eq_none ?_
        simpa [Token.isPooled, not_or, and_assoc] using hpooled
      rw [List.filter_cons_of_neg hpooled, List.filterMap_cons_none hnone]
      exact hrest

/-! ### Compiling -/

/-- The reference translation of an expression that is a whole unit. -/
def Expr.unitCode (e : Expr) (eof : Token) : List Written :=
  e.code noLocals 0 ++ [⟨.ret, none, eof.line⟩]

/-- All that a whole input writes. -/
theorem Parser.finished_entry (stream : TokenStream) (strings : Interner) (e : Expr) :
    (entry stream strings).finished e
      = ((entry stream strings).moveTo stream.ending []).write (e.unitCode stream.ending)
          (e.constants noLocals) := by
  rw [finished, compiled, write_moveTo, moveTo_moveTo, write_write, List.append_nil]
  rfl

/-- What compiling a source as a single expression comes to if there is no error. -/
theorem compileExpression_eq_ok_iff {source : String} {strings : Interner} {chunk : Chunk}
    {stored : Interner} :
    compileExpression source strings = (.ok chunk, stored) ↔
      ∃ (e : Expr) (eof : Token), e.Spans source eof ∧ e.Fits noLocals 0 Parser.maxNesting
        ∧ chunk.code = (e.unitCode eof).flatMap Written.bytes
        ∧ (chunk.constants, stored) = TextStore.storeAll strings (e.constants noLocals) := by
  rw [compileExpression, compileUnit_eq_ok_iff]
  constructor
  · rintro ⟨herror, rfl, rfl⟩
    have hentry := Parser.ofSource_of_no_error herror
    rw [hentry] at herror ⊢
    obtain ⟨e, hphrase, htokens, hfits, heq⟩ :=
      Parser.singleExpression_sound (Parser.at_entry _ _) (fun _ => kind_ne_eof_of_mem)
        (Nat.zero_le _) herror
    refine ⟨e, _, Expr.spans_iff.2 ⟨hphrase, htokens, rfl⟩, hfits, ?_, ?_⟩
    all_goals rw [Parser.run, heq, Parser.finished_entry, Parser.chunk_write_entry]
    rfl
  · rintro ⟨e, eof, hspans, hfits, hcode, hconstants⟩
    obtain ⟨hphrase, htokens, rfl⟩ := Expr.spans_iff.1 hspans
    have hreadable : Parser.Readable (TokenStream.ofSource source).pending :=
      htokens ▸ fun t ht => (hphrase.kind_ne t ht).1
    have hat : (Parser.entry (.ofSource source) strings).At e.tokens :=
      htokens ▸ Parser.at_entry _ _
    obtain ⟨hpool, hstored⟩ := Prod.mk.inj hconstants
    rw [Parser.ofSource_of_readable hreadable, Parser.run,
      Parser.singleExpression_complete hphrase hat hfits, Parser.finished_entry,
      Parser.chunk_write_entry, ← hcode, ← hpool, hstored]
    exact ⟨rfl, rfl, rfl⟩

/-- Compiling a source as a single expression succeeds if and only if it has no lexical
error and is a sentence for which there is room. The code is then the reference
translation of the sentence's only tree, and the pool holds what its numbers, strings
and names denote, in the order of the source. -/
theorem compileExpression_reference (source : String) :
    ((∃ chunk, (compileExpression source .empty).1 = .ok chunk) ↔
      (∀ t ∈ tokenize source, t.kind ≠ .error)
        ∧ ∃ (e : Expr) (eof : Token), e.Spans source eof ∧ e.depth ≤ 256
          ∧ (e.tokens.filter Token.isPooled).length ≤ 256)
    ∧ ∀ chunk strings, compileExpression source .empty = (.ok chunk, strings) →
        ∃ (e : Expr) (eof : Token), e.Spans source eof
          ∧ (∀ e' eof', e'.Spans source eof' → e' = e)
          ∧ chunk.code = (e.unitCode eof).flatMap Written.bytes
          ∧ List.Forall₂ Token.Denotes (e.tokens.filter Token.isPooled)
              (chunk.constants.map (·.content strings)) := by
  have hdenotes : ∀ (e : Expr) (eof : Token), e.Spans source eof →
      List.Forall₂ Token.Denotes (e.tokens.filter Token.isPooled) (e.constants noLocals) := by
    intro e eof hspans
    obtain ⟨hphrase, hpending, -⟩ := Expr.spans_iff.1 hspans
    rw [hphrase.constants_eq]
    exact forall₂_denotes _ fun t ht => hpending ▸ ht
  refine ⟨⟨?_, ?_⟩, ?_⟩
  · rintro ⟨chunk, hchunk⟩
    obtain ⟨e, eof, hspans, hfits, -⟩ := compileExpression_eq_ok_iff.1 (Prod.ext hchunk rfl)
    refine ⟨fun t ht => ?_, e, eof, hspans, hfits.depth, ?_⟩
    · obtain ⟨hphrase, heof, htokens⟩ := hspans
      rw [htokens] at ht
      rcases List.mem_append.1 ht with ht | ht
      · exact (hphrase.kind_ne t ht).1
      · rw [List.mem_singleton.1 ht, heof]
        decide
    · rw [(hdenotes e eof hspans).length_eq]
      exact Nat.zero_add (e.constants noLocals).length ▸ hfits.pool
  · rintro ⟨-, e, eof, hspans, hdepth, hpool⟩
    obtain ⟨hphrase, hpending, -⟩ := Expr.spans_iff.1 hspans
    have hfits : e.Fits noLocals 0 Parser.maxNesting := by
      refine ⟨hdepth, ?_, fun t ht hkind => number?_isSome_of_mem (hpending ▸ ht) hkind⟩
      rw [Nat.zero_add, ← (hdenotes e eof hspans).length_eq]
      exact hpool
    have hok : compileExpression source .empty
        = (.ok ⟨(e.unitCode eof).flatMap Written.bytes, _⟩, _) :=
      compileExpression_eq_ok_iff.2 ⟨e, eof, hspans, hfits, rfl, rfl⟩
    exact ⟨_, congrArg Prod.fst hok⟩
  · intro chunk strings h
    obtain ⟨e, eof, hspans, hfits, hcode, hconstants⟩ := compileExpression_eq_ok_iff.1 h
    refine ⟨e, eof, hspans, fun e' eof' h' => h'.unique hspans, hcode, ?_⟩
    obtain ⟨hpool, rfl⟩ := Prod.mk.inj hconstants
    rw [hpool, TextStore.content_storeAll]
    exact hdenotes e eof hspans

end OnePass
