import OnePass.Proofs.Compile.Program
import OnePass.Proofs.Course.Statement
import OnePass.Proofs.Diagnostics.Alike
import OnePass.Proofs.Diagnostics.Tally

/-!
# OnePass.Proofs.Diagnostics.Row

The reports of statements in a row. A statement that begins with `var` or `print` and has
no `;` but its last token makes at most one report, and in a row of such statements each
makes the reports that it makes alone (`reports_intercalate`).

The pool is the one thing that a statement leaves behind for those that follow it. A bound on the
constants that the statements of the row can ask for keeps it from overflowing in the row where it
does not when they stand alone.
-/

namespace OnePass

/-- What is reported when a source is compiled as a program. -/
def reports (source : String) (strings : Interner) : List Diagnostic :=
  match (compile source strings).1 with
  | .ok _ => []
  | .error e => e.diagnostics

/-- Whether a source has no error token, begins with `var` or `print`, ends with its only
`;`, and has no other word that starts a statement. -/
def IsPiece (source : String) : Prop :=
  ∃ first body semicolon eof, tokenize source = first :: (body ++ [semicolon, eof])
    ∧ (first.kind = .kwVar ∨ first.kind = .kwPrint) ∧ semicolon.kind = .semicolon
    ∧ ∀ t ∈ body, t.kind ≠ .error ∧ t.kind ≠ .semicolon ∧ t.kind.startsStatement = false

/-- How many tokens of a source can put a constant into the pool: numbers, strings, names
and `var`. -/
def constantTokens (source : String) : Nat := (tokenize source).countP Token.mayStore

/-- How many tokens of sources in a row can put a constant into the pool. -/
def constantTokensInRow : List String → Nat
  | [] => 0
  | a :: rest => constantTokens a + constantTokensInRow rest

/-- The reports that sources make one by one, on the lines where they are in a row that
starts behind some lines. -/
def reportsInRow (strings : Interner) : Nat → List String → List Diagnostic
  | _, [] => []
  | lines, a :: rest =>
    (reports a strings).map (Diagnostic.shift lines)
      ++ reportsInRow strings (lines + linesOver a) rest

/-! ### Pieces -/

theorem remainder_of_body {body : List Token} {semicolon : Token}
    (hsemicolon : semicolon.kind = .semicolon)
    (h : ∀ t ∈ body, t.kind ≠ .eof ∧ t.kind ≠ .error ∧ t.kind ≠ .semicolon
      ∧ t.kind.startsStatement = false) : Remainder (body ++ [semicolon]) := by
  induction body with
  | nil => simp [Remainder, hsemicolon, TokenKind.startsStatement]
  | cons t body ih =>
    obtain ⟨⟨heof, herror, hother, hword⟩, hbody⟩ := List.forall_mem_cons.1 h
    exact ⟨herror, heof, hword, by simp [hother], ih hbody⟩

theorem IsPiece.isStatement {source : String} (h : IsPiece source) :
    Parser.IsStatement (TokenStream.ofSource source).pending := by
  obtain ⟨first, body, semicolon, eof, htokens, hfirst, hsemicolon, hbody⟩ := h
  have hsplit : (TokenStream.ofSource source).pending ++ [(TokenStream.ofSource source).ending]
      = (first :: (body ++ [semicolon])) ++ [eof] := by
    have htokens : (TokenStream.ofSource source).pending
        ++ [(TokenStream.ofSource source).ending] = first :: (body ++ [semicolon, eof]) := htokens
    rw [htokens]
    simp
  obtain ⟨hpending, -⟩ := List.append_inj' hsplit rfl
  refine ⟨first, body ++ [semicolon], hpending, hfirst, by simp, ?_⟩
  refine remainder_of_body hsemicolon fun t ht => ?_
  have hmem : t ∈ (TokenStream.ofSource source).pending := by
    rw [hpending]
    exact List.mem_cons_of_mem _ (List.mem_append_left _ ht)
  exact ⟨kind_ne_eof_of_mem hmem, hbody t ht⟩

theorem IsPiece.readable {source : String} (h : IsPiece source) :
    Parser.Readable (TokenStream.ofSource source).pending := by
  obtain ⟨t, rest, hpending, hkind, -, hrest⟩ := h.isStatement
  rw [hpending]
  refine List.forall_mem_cons.2 ⟨?_, hrest.readable⟩
  rcases hkind with hkind | hkind <;> rw [hkind] <;> decide

/-- Alone and in a row a piece begins with `var` or `print`. -/
theorem IsPiece.opens {source : String} (h : IsPiece source) :
    (kindAhead (TokenStream.ofSource source).pending = .kwVar
        ∨ kindAhead (TokenStream.ofSource source).pending = .kwPrint)
      ∧ ∀ bytes lines wall,
        kindAhead ((TokenStream.ofSource source).pending.map (Token.shift bytes lines) ++ wall)
          = kindAhead (TokenStream.ofSource source).pending := by
  obtain ⟨t, rest, hpending, hkind, -⟩ := h.isStatement
  rw [hpending]
  exact ⟨hkind, fun _ _ _ => rfl⟩

theorem countP_pending (source : String) :
    (TokenStream.ofSource source).pending.countP Token.mayStore = constantTokens source := by
  have hend : Token.mayStore (TokenStream.ofSource source).ending = false := rfl
  rw [constantTokens, tokenize, TokenStream.toList, List.countP_append, List.countP_singleton, hend]
  rfl

/-- What stands behind a piece in a row is another piece or the end. -/
theorem kindAhead_tokensInRow {pieces : List String} (h : ∀ a ∈ pieces, IsPiece a)
    (bytes lines : Nat) :
    kindAhead ((tokensInRow pieces).map (Token.shift bytes lines)) = .eof
      ∨ kindAhead ((tokensInRow pieces).map (Token.shift bytes lines)) = .kwVar
      ∨ kindAhead ((tokensInRow pieces).map (Token.shift bytes lines)) = .kwPrint := by
  cases pieces with
  | nil => exact .inl rfl
  | cons a rest =>
    obtain ⟨hopens, hrow⟩ := (h a List.mem_cons_self).opens
    rw [tokensInRow, List.map_append, hrow]
    exact .inr hopens

theorem readable_tokensInRow {pieces : List String} (h : ∀ a ∈ pieces, IsPiece a) :
    Parser.Readable (tokensInRow pieces) := by
  induction pieces with
  | nil => exact fun t ht => absurd ht List.not_mem_nil
  | cons a rest ih =>
    obtain ⟨ha, hrest⟩ := List.forall_mem_cons.1 h
    intro t ht
    rcases List.mem_append.1 ht with ht | ht
    · exact ha.readable t ht
    · obtain ⟨u, hu, rfl⟩ := List.mem_map.1 ht
      exact ih hrest u hu

theorem pending_of_pieces {pieces : List String} (h : ∀ a ∈ pieces, IsPiece a) :
    (TokenStream.ofSource ("\n".intercalate pieces)).pending = tokensInRow pieces :=
  pending_intercalate fun a ha => (h a ha).readable

theorem length_le_tokensInRow {pieces : List String} (h : ∀ a ∈ pieces, IsPiece a) :
    pieces.length ≤ (tokensInRow pieces).length := by
  induction pieces with
  | nil => exact Nat.le_refl 0
  | cons a rest ih =>
    obtain ⟨ha, hrest⟩ := List.forall_mem_cons.1 h
    obtain ⟨t, us, hpending, -⟩ := ha.isStatement
    have hless := ih hrest
    rw [tokensInRow, hpending, List.length_append, List.length_map, List.length_cons,
      List.length_cons]
    omega

open OnePass.Parser

/-- The parser has a token left for each piece. -/
theorem length_le_tokensLeft {pieces : List String} (h : ∀ a ∈ pieces, IsPiece a)
    (strings : Interner) :
    pieces.length ≤ (entry (.ofSource ("\n".intercalate pieces)) strings).tokensLeft := by
  have hat := at_entry (.ofSource ("\n".intercalate pieces)) strings
  have hlength := length_le_tokensInRow h
  rw [← pending_of_pieces h] at hlength
  cases hts : (TokenStream.ofSource ("\n".intercalate pieces)).pending with
  | nil =>
    rw [hts] at hlength
    exact Nat.le_trans hlength (Nat.zero_le _)
  | cons t us =>
    have heof : t.kind ≠ .eof := kind_ne_eof_of_mem (hts ▸ List.mem_cons_self)
    rw [hts] at hat hlength
    rwa [hat.tokensLeft_cons heof, ← List.length_cons]

/-! ### A piece alone -/

theorem reports_eq (source : String) (strings : Interner) :
    reports source strings = (Parser.ofSource .program source strings).diagnostics := by
  obtain ⟨ended, htally⟩ := ofSource_tally .program source strings
  have hnoted := htally.noted
  rw [reports, compile, compileUnit, Parser.result]
  cases herror : (Parser.ofSource .program source strings).hadError with
  | true => rfl
  | false =>
    rw [herror] at hnoted
    simpa using hnoted

/-- At the end no declaration is left. -/
theorem Parser.declarations_at_end {p : Parser} (h : p.At []) (fuel : Nat) :
    declarations fuel .eof p = p := by
  have hend : p.check .eof = true := (h.check_iff .eof).2 rfl
  cases fuel with
  | zero => rfl
  | succ fuel => rw [declarations, hend, Bool.or_self, if_pos rfl]

theorem Parser.declarations_of_more {p : Parser} (h : ¬ p.check .eof = true) (fuel : Nat) :
    declarations (fuel + 1) .eof p
      = declarations fuel .eof (declaration (declarations fuel) p) := by
  rw [declarations, Bool.or_self, if_neg h]

theorem Parser.check_of_opens {p : Parser} {ts : List Token} (hat : p.At ts)
    (hopens : kindAhead ts = .kwVar ∨ kindAhead ts = .kwPrint) {kind : TokenKind}
    (hkind : kind ≠ .kwVar ∧ kind ≠ .kwPrint) : ¬ p.check kind = true := by
  rw [hat.check_iff]
  intro hahead
  rw [hahead] at hopens
  exact hopens.elim hkind.1 hkind.2

/-- The reports of a piece are those of its only declaration, if that ends at its end. -/
theorem IsPiece.reports_eq_declaration {source : String} (h : IsPiece source) (strings : Interner)
    {q : Parser} (hq : declaration (declarations (entry (.ofSource source) strings).tokensLeft)
      (entry (.ofSource source) strings) = q) (hend : q.At []) :
    reports source strings = q.diagnostics := by
  have hmore : ¬ (entry (.ofSource source) strings).check .eof = true :=
    check_of_opens (at_entry _ _) h.opens.1 (by decide)
  rw [reports_eq, ofSource_of_readable h.readable, run, program, declarations_of_more hmore, hq,
    declarations_at_end hend, hend.advance_nil]
  rfl

/-- A piece makes one report at most. -/
theorem IsPiece.length_declaration_le {source : String} (h : IsPiece source) (strings : Interner)
    (body : TokenKind → Parser → Parser) :
    (declaration body (entry (.ofSource source) strings)).diagnostics.length ≤ 1 := by
  have hat := at_entry (.ofSource source) strings
  have hbody : Works (entry (.ofSource source) strings)
      (declarationBody body (entry (.ofSource source) strings)) := by
    unfold declarationBody statement
    split
    · exact ((advance_does _).works rfl).trans (varDeclaration_works _)
    · rename_i hvar
      have hprint : (entry (.ofSource source) strings).check .kwPrint = true :=
        (hat.check_iff _).2 (h.opens.1.resolve_left fun hkind => hvar ((hat.check_iff _).2 hkind))
      rw [if_pos hprint]
      exact ((advance_does _).append (printStatement_does _)).works rfl
  have hone : ∀ q : Parser, Tally 0 q → q.diagnostics.length ≤ 1 := by
    intro q htally
    rw [htally.count, Nat.zero_add, openPanics]
    split <;> decide
  have hentry : Tally 0 (entry (.ofSource source) strings) := ⟨rfl, by simp [entry, origin, moveTo]⟩
  have htally := hbody.tally hentry rfl
  unfold declaration
  dsimp only
  split
  · have hskipped := hone _ ((skipToBoundary_does _).tally htally rfl)
    exact hskipped
  · exact hone _ htally

/-! ### Pieces in a row -/

/-- A piece in a row is compiled to its end, with the reports that it makes alone. -/
theorem IsPiece.declaration_inRow {source : String} (h : IsPiece source) (strings : Interner)
    {p : Parser} {bytes lines : Nat} {wall : List Token}
    (hready : p.Ready .global
      ((TokenStream.ofSource source).pending.map (Token.shift bytes lines) ++ wall))
    (hwall : kindAhead wall = .eof ∨ kindAhead wall = .kwVar ∨ kindAhead wall = .kwPrint)
    (hroom : p.poolSize + constantTokens source ≤ OpCode.operandCount)
    (body : TokenKind → Parser → Parser) :
    (declaration body p).Ready .global wall
      ∧ (declaration body p).poolSize ≤ p.poolSize + constantTokens source
      ∧ (declaration body p).diagnostics
        = p.diagnostics ++ (reports source strings).map (Diagnostic.shift lines)
      ∧ (reports source strings).length ≤ 1 := by
  obtain ⟨hopens, hrow⟩ := h.opens
  have hbrace : ¬ p.check .leftBrace = true :=
    check_of_opens hready.stands (hrow bytes lines wall ▸ hopens) (by decide)
  have habreast : Abreast ⟨bytes, lines, wall, p.diagnostics, p.poolSize + constantTokens source,
      hwall, hroom⟩ 0 (TokenStream.ofSource source).pending p (entry (.ofSource source) strings) :=
    ⟨hready.stands, at_entry _ _, hready.calm, hready.nesting, hready.scope_eq, rfl,
      (List.append_nil _).symm, Nat.zero_le _, by rw [countP_pending]; rfl⟩
  obtain ⟨hend, hcalm⟩ := habreast.declaration h.isStatement body
    (declarations (entry (.ofSource source) strings).tokensLeft)
  have hreports := h.reports_eq_declaration strings rfl hend.alone
  have hsize : (declaration body p).poolSize ≤ p.poolSize + constantTokens source := hend.room
  refine ⟨⟨hend.inRow, hend.scope, Nat.zero_le _, ?_, Nat.le_trans hsize hroom, ?_⟩, hsize, ?_, ?_⟩
  · exact (declaration_nesting hbrace).trans hready.nesting
  · exact hend.mode.trans hcalm
  · rw [hreports]
    exact hend.reports
  · rw [hreports]
    exact h.length_declaration_le strings _

/-- From a state in front of pieces, each of them makes the reports that it makes alone,
and one at most. -/
theorem Parser.declarations_inRow (strings : Interner) (pieces : List String) :
    ∀ {p : Parser} {fuel bytes lines : Nat}, (∀ a ∈ pieces, IsPiece a) → pieces.length < fuel →
      p.Ready .global ((tokensInRow pieces).map (Token.shift bytes lines)) →
      p.poolSize + constantTokensInRow pieces ≤ OpCode.operandCount →
      (declarations fuel .eof p).At []
        ∧ (declarations fuel .eof p).diagnostics
          = p.diagnostics ++ reportsInRow strings lines pieces
        ∧ ∀ a ∈ pieces, (reports a strings).length ≤ 1 := by
  induction pieces with
  | nil =>
    intro p fuel bytes lines _ _ hready _
    rw [declarations_at_end hready.stands, reportsInRow, List.append_nil]
    exact ⟨hready.stands, rfl, fun a ha => absurd ha List.not_mem_nil⟩
  | cons a rest ih =>
    intro p fuel bytes lines hpieces hfuel hready hroom
    obtain ⟨ha, hrest⟩ := List.forall_mem_cons.1 hpieces
    obtain ⟨fuel, rfl⟩ := Nat.exists_eq_succ_of_ne_zero (Nat.ne_zero_of_lt hfuel)
    have hwall : (tokensInRow (a :: rest)).map (Token.shift bytes lines)
        = (TokenStream.ofSource a).pending.map (Token.shift bytes lines)
          ++ (tokensInRow rest).map (Token.shift (bytes + bytesOver a) (lines + linesOver a)) := by
      rw [tokensInRow, List.map_append, List.map_map]
      simp only [Function.comp_def, Token.shift_shift]
    rw [hwall] at hready
    rw [constantTokensInRow] at hroom
    have hmore : ¬ p.check .eof = true :=
      check_of_opens hready.stands (ha.opens.2 .. ▸ ha.opens.1) (by decide)
    obtain ⟨hnext, hsize, hreports, hone⟩ := ha.declaration_inRow strings hready
      (kindAhead_tokensInRow hrest _ _) (by omega) (declarations fuel)
    obtain ⟨hend, htotal, hones⟩ := ih hrest (Nat.lt_of_succ_lt_succ hfuel) hnext (by omega)
    rw [declarations_of_more hmore]
    refine ⟨hend, ?_, List.forall_mem_cons.2 ⟨hone, hones⟩⟩
    rw [htotal, hreports, List.append_assoc]
    rfl

/-- In a row of pieces, with no more tokens that can put a constant into the pool than fit
there, each piece makes the reports that it makes alone, in order, on the lines where it
stands in the row; and it makes one at most. -/
theorem reports_intercalate {pieces : List String} (hpieces : ∀ a ∈ pieces, IsPiece a)
    (hcount : constantTokensInRow pieces ≤ 256) (strings strings' : Interner) :
    reports ("\n".intercalate pieces) strings = reportsInRow strings' 0 pieces
      ∧ ∀ a ∈ pieces, (reports a strings').length ≤ 1 := by
  have hpending := pending_of_pieces hpieces
  have hreadable : Readable (TokenStream.ofSource ("\n".intercalate pieces)).pending :=
    hpending ▸ readable_tokensInRow hpieces
  have hready := entry_ready (.ofSource ("\n".intercalate pieces)) strings
  have hunmoved : (tokensInRow pieces).map (Token.shift 0 0) = tokensInRow pieces :=
    List.map_id'' Token.shift_zero _
  have hfuel := length_le_tokensLeft hpieces strings
  rw [hpending, ← hunmoved] at hready
  have hsize : (entry (.ofSource ("\n".intercalate pieces)) strings).poolSize = 0 := rfl
  have hroom : (entry (.ofSource ("\n".intercalate pieces)) strings).poolSize
      + constantTokensInRow pieces ≤ OpCode.operandCount := by
    rw [hsize, Nat.zero_add]
    exact hcount
  obtain ⟨hend, hreports, hones⟩ := declarations_inRow strings' pieces hpieces
    (Nat.lt_succ_of_le hfuel) hready hroom
  refine ⟨?_, hones⟩
  rw [reports_eq, ofSource_of_readable hreadable, run, program, hend.advance_nil]
  exact hreports

/-- Two faulty statements in a row are both reported. -/
theorem reports_two_faulty_statements :
    (∀ a ∈ ["print 1 +;", "var = 3;"], IsPiece a)
      ∧ constantTokensInRow ["print 1 +;", "var = 3;"] ≤ 256
      ∧ (reports ("\n".intercalate ["print 1 +;", "var = 3;"]) .empty
          = reportsInRow .empty 0 ["print 1 +;", "var = 3;"]
        ∧ ∀ a ∈ ["print 1 +;", "var = 3;"], (reports a .empty).length ≤ 1)
      ∧ reportsInRow .empty 0 ["print 1 +;", "var = 3;"]
        = [⟨.syntactic, 1, .atLexeme ";", "Expected expression"⟩,
          ⟨.syntactic, 2, .atLexeme "=", "Expected variable name"⟩] := by
  have hprint : IsPiece "print 1 +;" :=
    ⟨⟨.kwPrint, "print", 0, 1⟩, [⟨.number, "1", 6, 1⟩, ⟨.plus, "+", 8, 1⟩],
      ⟨.semicolon, ";", 9, 1⟩, ⟨.eof, "", 10, 1⟩, by decide +kernel⟩
  have hvar : IsPiece "var = 3;" :=
    ⟨⟨.kwVar, "var", 0, 1⟩, [⟨.equal, "=", 4, 1⟩, ⟨.number, "3", 6, 1⟩],
      ⟨.semicolon, ";", 7, 1⟩, ⟨.eof, "", 8, 1⟩, by decide +kernel⟩
  have hpieces : ∀ a ∈ ["print 1 +;", "var = 3;"], IsPiece a := by
    simpa using ⟨hprint, hvar⟩
  have hcount : constantTokensInRow ["print 1 +;", "var = 3;"] ≤ 256 := by decide +kernel
  exact ⟨hpieces, hcount, reports_intercalate hpieces hcount .empty .empty, by decide +kernel⟩

end OnePass
