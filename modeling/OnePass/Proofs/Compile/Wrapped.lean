import OnePass.Proofs.Code.Relocate
import OnePass.Proofs.Compile.Expression
import OnePass.Proofs.Compile.Program

/-!
# OnePass.Proofs.Compile.Wrapped

An expression as a unit of its own, and the same text as the value of a statement. The
code and the constants are the same, whether the end of the input or a semicolon stands
behind the text (`compileExpression_wrapped`).
-/

namespace OnePass

open Stmt

/-! ### A text with a `print` in front -/

/-- The word ends in front of the blank, whatever stands behind. -/
theorem munch_print (tail : List Char) :
    munch 'p' ('r' :: 'i' :: 'n' :: 't' :: ' ' :: tail) = (.token .kwPrint, 4) := by
  have hlength : wordLength ('r' :: 'i' :: 'n' :: 't' :: ' ' :: tail) = 4 := rfl
  have hword : TokenKind.ofWord (String.ofList ['p', 'r', 'i', 'n', 't']) = .kwPrint := by
    decide
  rw [munch_of_isWordStart (by decide), hlength]
  exact congrArg (fun kind => (Shape.token kind, 4)) hword

theorem pieces_print (tail : List Char) :
    pieces ("print ".toList ++ tail)
      = ⟨.token .kwPrint, "print".toList⟩ :: ⟨.blank, [' ']⟩ :: pieces tail := by
  have htext : "print ".toList ++ tail = 'p' :: 'r' :: 'i' :: 'n' :: 't' :: ' ' :: tail := rfl
  rw [htext, pieces, munch_print]
  show _ :: pieces (' ' :: tail) = _
  rw [pieces]
  rfl

/-- A `print` in front of a text is a token of its own, and moves the others. -/
theorem pending_print (source : String) :
    (TokenStream.ofSource ("print " ++ source)).pending
      = ⟨.kwPrint, "print", 0, 1⟩
        :: (TokenStream.ofSource source).pending.map (Token.shift 6 0) := by
  simp only [TokenStream.ofSource, String.toList_append, pieces_print]
  have hshift := locate_shift 6 0 .start (pieces source.toList)
  rw [← hshift]
  rfl

theorem linesOver_print (source : String) :
    linesOver ("print " ++ source) = linesOver source := by
  rw [linesOver, linesOver, String.toList_append, List.count_append]
  show 0 + _ + 1 = _
  rw [Nat.zero_add]

/-! ### A text with a semicolon behind -/

theorem pending_semicolon : (TokenStream.ofSource ";").pending = [⟨.semicolon, ";", 0, 1⟩] := by
  decide +kernel

theorem ending_semicolon : (TokenStream.ofSource ";").ending = ⟨.eof, "", 1, 1⟩ := by
  decide +kernel

/-- A text is all of a program but for the last semicolon, which follows on a line of its
own. -/
theorem span_semicolon {s : Token → Stmt} {text : String} {ts : List Token}
    (hpending : (TokenStream.ofSource text).pending = ts)
    (htokens : ∀ semicolon, (s semicolon).tokens = ts ++ [semicolon])
    (hderived : ∀ semicolon, semicolon.kind = .semicolon → (s semicolon).Derived) :
    ∃ semicolon eof : Token, Span [s semicolon] (text ++ "\n" ++ ";") eof
      ∧ semicolon.line = linesOver text + 1 ∧ eof.line = linesOver text + 1 := by
  -- Any semicolon will do to see that the tokens in front of it are no errors.
  have hreadable : ∀ t ∈ (TokenStream.ofSource text).pending, t.kind ≠ .error := by
    intro t ht
    refine (hderived ⟨.semicolon, ";", 0, 1⟩ rfl).kind_ne_error t ?_
    rw [htokens]
    exact List.mem_append_left _ (hpending ▸ ht)
  refine ⟨Token.shift (bytesOver text) (linesOver text) ⟨.semicolon, ";", 0, 1⟩,
    Token.shift (bytesOver text) (linesOver text) ⟨.eof, "", 1, 1⟩,
    span_iff.2 ⟨fun s' hs' => ?_, ?_, ?_⟩, rfl, rfl⟩
  · rw [List.mem_singleton.1 hs']
    exact hderived _ rfl
  · rw [pending_append hreadable, hpending, pending_semicolon, tokensOf, tokensOf, htokens,
      List.append_nil]
    rfl
  · rw [ending_append, ending_semicolon]

/-- What a program is compiled to that is one statement without an operand in its last
instruction, if its semicolon stands on a line of its own. -/
theorem compile_semicolon {s : Token → Stmt} {text : String} {ts : List Token}
    {code : List Written} {op : OpCode} {constants : List Constant}
    (hpending : (TokenStream.ofSource text).pending = ts)
    (htokens : ∀ semicolon, (s semicolon).tokens = ts ++ [semicolon])
    (hderived : ∀ semicolon, semicolon.kind = .semicolon → (s semicolon).Derived)
    (hvalid : ∀ semicolon, (s semicolon).Valid .global)
    (hconstants : ∀ semicolon, (s semicolon).constants .global = constants)
    (hroom : constants.length ≤ OpCode.operandCount)
    (hcode : ∀ semicolon, (s semicolon).code .global 0 = code ++ [⟨op, none, semicolon.line⟩])
    (strings : Interner) :
    ∃ chunk stored, compile (text ++ "\n" ++ ";") strings = (.ok chunk, stored)
      ∧ chunk.code = code.flatMap Written.bytes
          ++ [⟨op.toByte, linesOver text + 1⟩, ⟨OpCode.ret.toByte, linesOver text + 1⟩]
      ∧ chunk.constants.map (·.content stored) = constants := by
  obtain ⟨semicolon, eof, hspan, hsemicolon, heof⟩ :=
    span_semicolon hpending htokens hderived
  have hall : constantsOf .global [s semicolon] = constants := by
    rw [constantsOf, constantsOf, List.append_nil, hconstants]
  have hok : compile (text ++ "\n" ++ ";") strings
      = (.ok ⟨(unitCode [s semicolon] eof).flatMap Written.bytes, _⟩, _) :=
    compile_eq_ok_iff.2 ⟨_, eof, hspan, ⟨hvalid semicolon, trivial⟩, hall ▸ hroom, rfl, rfl⟩
  refine ⟨_, _, hok, ?_, ?_⟩
  · rw [unitCode, codeOf, codeOf, List.append_nil, hcode, hsemicolon, heof,
      List.append_assoc, List.flatMap_append]
    rfl
  · rw [TextStore.content_storeAll, hall]

/-! ### Both entry points -/

/-- A text that compiles as an expression compiles as the value of a statement as well,
whether it is printed or dropped. The semicolon is on a line of its own, so that it counts
also if the text ends in a comment. The code is that of the expression up to its return,
then the instruction of the statement; the constants are those of the expression. -/
theorem compileExpression_wrapped {source : String} {strings stored : Interner} {chunk : Chunk}
    (h : compileExpression source strings = (.ok chunk, stored)) (strings' : Interner) :
    ∃ body line, chunk.code = body ++ [⟨OpCode.ret.toByte, line⟩]
      ∧ (∃ printing stored',
          compile ("print " ++ source ++ "\n" ++ ";") strings' = (.ok printing, stored')
            ∧ printing.code
                = body ++ [⟨OpCode.print.toByte, line + 1⟩, ⟨OpCode.ret.toByte, line + 1⟩]
            ∧ printing.constants.map (·.content stored')
                = chunk.constants.map (·.content stored))
      ∧ ∃ dropping stored',
          compile (source ++ "\n" ++ ";") strings' = (.ok dropping, stored')
            ∧ dropping.code
                = body ++ [⟨OpCode.pop.toByte, line + 1⟩, ⟨OpCode.ret.toByte, line + 1⟩]
            ∧ dropping.constants.map (·.content stored')
                = chunk.constants.map (·.content stored) := by
  obtain ⟨e, eof, hspans, hfits, hcode, hpool⟩ := compileExpression_eq_ok_iff.1 h
  obtain ⟨hconstants, rfl⟩ := Prod.mk.inj hpool
  obtain ⟨hphrase, hpending, rfl⟩ := Expr.spans_iff.1 hspans
  have hroom : (e.constants noLocals).length ≤ OpCode.operandCount :=
    Nat.zero_add (e.constants noLocals).length ▸ hfits.pool
  have hline : (TokenStream.ofSource source).ending.line = linesOver source :=
    Nat.add_comm 1 _
  refine ⟨(e.code noLocals 0).flatMap Written.bytes, linesOver source, ?_, ?_, ?_⟩
  · rw [hcode, Expr.unitCode, List.flatMap_append, hline]
    rfl
  all_goals rw [hconstants, TextStore.content_storeAll]
  · -- The expression has moved by six bytes, but its lines are the same.
    have hmoved : (e.shift 6 0).code noLocals 0 = e.code noLocals 0 := by
      have hzero : Written.relocate 0 0 = id := funext Written.relocate_zero
      rw [← Nat.zero_add 0, Expr.code_shift, hzero, List.map_id]
    have hprint : (TokenStream.ofSource ("print " ++ source)).pending
        = ⟨.kwPrint, "print", 0, 1⟩ :: (e.shift 6 0).tokens := by
      rw [pending_print, hpending, Expr.tokens_shift]
    rw [← linesOver_print]
    exact compile_semicolon (s := .print ⟨.kwPrint, "print", 0, 1⟩ (e.shift 6 0)) hprint
      (fun _ => rfl) (fun _ hs => .print rfl (hphrase.shift 6 0) hs)
      (fun _ => (e.depth_shift 6 0).trans_le hfits.depth)
      (fun _ => e.constants_shift 6 0 noLocals) hroom (fun _ => hmoved ▸ rfl) strings'
  · exact compile_semicolon (s := .expression e) hpending (fun _ => rfl)
      (fun _ hs => .expression hphrase hs) (fun _ => hfits.depth) (fun _ => rfl) hroom
      (fun _ => rfl) strings'

/-- An expression that ends in a comment. -/
theorem exists_compiled_comment :
    ∃ printing stored,
      compile ("print " ++ "a // b" ++ "\n" ++ ";") .empty = (.ok printing, stored)
        ∧ printing.code = [⟨7, 1⟩, ⟨0, 1⟩, ⟨19, 2⟩, ⟨20, 2⟩]
        ∧ printing.constants.map (·.content stored) = [.text "a"] := by
  have h : compileExpression "a // b" .empty
      = (.ok ⟨[⟨7, 1⟩, ⟨0, 1⟩, ⟨20, 1⟩], [.text ⟨0⟩]⟩, ⟨["a"], by decide⟩) := by
    decide +kernel
  obtain ⟨body, line, hbody, ⟨printing, stored, hok, hcode, hcontents⟩, -⟩ :=
    compileExpression_wrapped h .empty
  have hsplit : ([⟨7, 1⟩, ⟨0, 1⟩] : List CodeByte) ++ [⟨20, 1⟩] = body ++ [⟨20, line⟩] := hbody
  obtain ⟨rfl, hline⟩ := List.append_inj' hsplit rfl
  obtain rfl : 1 = line := (CodeByte.mk.inj (List.singleton_injective hline)).2
  exact ⟨printing, stored, hok, hcode, hcontents⟩

end OnePass
