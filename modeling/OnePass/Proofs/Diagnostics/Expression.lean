import OnePass.Proofs.Compile.Program
import OnePass.Proofs.Diagnostics.Misfit
import OnePass.Proofs.Diagnostics.Tally

/-!
# OnePass.Proofs.Diagnostics.Expression

What is reported of a source that is not a single expression. Unless a limit is
reached, it is the first token with which the tokens start no sentence of the grammar,
and the wording follows from what the grammar has due there
(`compileExpression_first_misfit`).
-/

namespace OnePass

/-- Kind and wording of the report of a token `t` that makes the viable tokens before it
not viable. -/
inductive Complaint (before : List Token) (t : Token) : ErrorKind → String → Prop where
  | operand (hdue : OperandDue before) (hnot : ¬ OperatorDue before) :
      Complaint before t .syntactic "Expected expression"
  | target (hdue : OperatorDue before) (hnot : ¬ OperandDue before) (hkind : t.kind = .equal) :
      Complaint before t .semantic "Invalid assignment target"
  | closing (hdue : OperatorDue before) (hnot : ¬ OperandDue before) (hkind : t.kind ≠ .equal)
      (hopen : GroupOpen before) : Complaint before t .syntactic "Expected ')' after expression"
  | ending (hdue : OperatorDue before) (hnot : ¬ OperandDue before) (hkind : t.kind ≠ .equal)
      (hclosed : ¬ GroupOpen before) : Complaint before t .syntactic "Expected end of expression"

/-- The problem that is reported is the one that the grammar tells. -/
theorem complaint_problem {before : List Token} {d : Due}
    (h : (Due.operand true 0).after? before = some d) (t : Token) :
    Complaint before t (d.problem t.kind).kind (d.problem t.kind).message := by
  cases d with
  | operand canAssign n =>
    refine .operand (operandDue_iff.2 ⟨canAssign, n, h⟩) fun hdue => ?_
    obtain ⟨assignable, m, hafter⟩ := operatorDue_iff.1 hdue
    rw [h] at hafter
    cases hafter
  | operator assignable n =>
    have hdue : OperatorDue before := operatorDue_iff.2 ⟨assignable, n, h⟩
    have hnot : ¬ OperandDue before := by
      intro hdue
      obtain ⟨canAssign, m, hafter⟩ := operandDue_iff.1 hdue
      rw [h] at hafter
      cases hafter
    have hgroup : GroupOpen before ↔ 0 < n := groupOpen_iff h
    rw [Due.problem]
    by_cases hkind : t.kind = .equal
    · rw [if_pos hkind]
      exact .target hdue hnot hkind
    rw [if_neg hkind]
    by_cases hopen : 0 < n
    · rw [if_pos hopen]
      exact .closing hdue hnot hkind (hgroup.2 hopen)
    · rw [if_neg hopen]
      exact .ending hdue hnot hkind fun hgroups => hopen (hgroup.1 hgroups)

/-- A token that cannot come next is the first one with which the tokens of a stream, its
end token among them, are not viable. -/
theorem Due.Misfit.splits {stream : TokenStream} {t : Token} {problem : Problem}
    (h : (Due.operand true 0).Misfit stream.pending stream.ending t problem) :
    ∃ before behind, stream.toList = before ++ t :: behind ∧ Viable before
      ∧ ¬ Viable (before ++ [t]) ∧ Complaint before t problem.kind problem.message := by
  obtain ⟨before, rest, d, htokens, hafter, rfl, hnot, rfl⟩ := h
  have hsplit : ∃ behind,
      stream.toList = before ++ rest.headD stream.ending :: behind := by
    rw [TokenStream.toList, htokens, List.append_assoc]
    cases rest with
    | nil => exact ⟨[], rfl⟩
    | cons u rest => exact ⟨rest ++ [stream.ending], rfl⟩
  obtain ⟨behind, hsplit⟩ := hsplit
  refine ⟨before, behind, hsplit, viable_of_after? hafter, fun hviable => ?_,
    complaint_problem hafter _⟩
  obtain ⟨d', hafter', hallows⟩ := viable_append_singleton_iff.1 hviable
  obtain rfl := Option.some.inj (hafter.symm.trans hafter')
  exact hnot hallows

/-- Where a report of a token that is not an error token points to. -/
theorem Location.ofToken_of_ne_error {t : Token} (h : t.kind ≠ .error) :
    Location.ofToken t = if t.kind = .eof then .atEnd else .atLexeme t.lexeme := by
  unfold Location.ofToken
  split
  · rw [if_pos ‹_›]
  · exact absurd ‹_› h
  · rw [if_neg ‹_›]

open OnePass.Parser

/-- If a source without a lexical error is not compiled as an expression, and not for a
limit, then there is one report. It is of the first token with which the tokens do not
start a sentence of the grammar; what is missing there is told by what is due. -/
theorem compileExpression_first_misfit {source : String} {strings stored : Interner}
    {e : CompileError} (hscan : ∀ t ∈ tokenize source, t.kind ≠ .error)
    (hfail : compileExpression source strings = (.error e, stored))
    (hcause : ∃ d ∈ e.diagnostics, d.message ≠ "Expression nested too deeply"
      ∧ d.message ≠ "Too many constants in one chunk") :
    ∃ before t behind, tokenize source = before ++ t :: behind ∧ Viable before
      ∧ ¬ Viable (before ++ [t])
      ∧ ∃ kind message, Complaint before t kind message
        ∧ e.diagnostics
          = [⟨kind, t.line, if t.kind = .eof then .atEnd else .atLexeme t.lexeme, message⟩] := by
  have hpending : ∀ t ∈ (TokenStream.ofSource source).pending, t.kind ≠ .error :=
    fun t ht => hscan t (List.mem_append_left _ ht)
  have hlegible := legible_ofSource hpending
  obtain ⟨herror, rfl⟩ := compileUnit_eq_error_iff.1 (congrArg Prod.fst hfail)
  rw [ofSource_of_readable hlegible.readable] at herror hcause ⊢
  obtain ⟨t, problem, hblames, hmisfit⟩ :=
    singleExpression_fails (p := entry (.ofSource source) strings) ⟨rfl, rfl⟩ (at_entry _ _)
      hlegible (Nat.zero_le _) herror
  have hone : (run .expression (entry (.ofSource source) strings)).diagnostics
      = [.ofProblem problem t] := hblames.diagnostics
  rw [hone] at hcause ⊢
  obtain ⟨d, hd, hdeep, hmany⟩ := hcause
  obtain rfl := List.mem_singleton.1 hd
  rcases hmisfit with hlimit | hmisfit
  · rcases hlimit with rfl | rfl
    · exact absurd rfl hdeep
    · exact absurd rfl hmany
  · obtain ⟨before, behind, htokens, hviable, hnot, hcomplaint⟩ := hmisfit.splits
    have hkind : t.kind ≠ .error := by
      refine hscan t ?_
      rw [tokenize, htokens]
      exact List.mem_append_right _ List.mem_cons_self
    refine ⟨before, t, behind, htokens, hviable, hnot, problem.kind, problem.message,
      hcomplaint, ?_⟩
    rw [Diagnostic.ofProblem, Location.ofToken_of_ne_error hkind]

/-- A stray `=` in an unclosed group: the group is not what is reported. -/
theorem compileExpression_stray_equal :
    ∃ e stored, compileExpression "(1 = 2" .empty = (.error e, stored)
      ∧ e.diagnostics = [⟨.semantic, 1, .atLexeme "=", "Invalid assignment target"⟩]
      ∧ ∃ before t behind, tokenize "(1 = 2" = before ++ t :: behind ∧ Viable before
        ∧ ¬ Viable (before ++ [t])
        ∧ ∃ kind message, Complaint before t kind message
          ∧ e.diagnostics
            = [⟨kind, t.line, if t.kind = .eof then .atEnd else .atLexeme t.lexeme, message⟩] := by
  have hfail : ∃ stored, compileExpression "(1 = 2" .empty
      = (.error ⟨[⟨.semantic, 1, .atLexeme "=", "Invalid assignment target"⟩]⟩, stored) :=
    ⟨(compileExpression "(1 = 2" .empty).2, by decide +kernel⟩
  obtain ⟨stored, hfail⟩ := hfail
  have hscan : ∀ t ∈ tokenize "(1 = 2", t.kind ≠ .error := by decide +kernel
  exact ⟨_, stored, hfail, rfl,
    compileExpression_first_misfit hscan hfail ⟨_, List.mem_singleton.2 rfl, by decide, by decide⟩⟩

end OnePass
