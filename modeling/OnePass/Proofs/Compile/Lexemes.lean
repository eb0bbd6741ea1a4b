import OnePass.Proofs.Parser.Twins

/-!
# OnePass.Proofs.Compile.Lexemes

Only kinds and texts of tokens count. Sources with the same lexemes, however these are laid
out, are compiled to the same code and the same constants, or fail with the same reports;
only lines can differ (`compileUnit_lexemes`).
-/

namespace OnePass

/-- The tokens of a source without their places. -/
def lexemes (source : String) : List (TokenKind × String) :=
  (tokenize source).map fun t => (t.kind, t.lexeme)

/-- Outcomes of compilations that differ in lines at most. -/
def SameButLines :
    Except CompileError Chunk × Interner → Except CompileError Chunk × Interner → Prop
  | (.ok c, strings), (.ok d, strings') =>
    c.code.map CodeByte.byte = d.code.map CodeByte.byte
      ∧ c.constants.map (·.content strings) = d.constants.map (·.content strings')
  | (.error e, _), (.error e', _) =>
    e.diagnostics.map (fun d => (d.kind, d.location, d.message))
      = e'.diagnostics.map fun d => (d.kind, d.location, d.message)
  | _, _ => False

/-- If no line is seen, then nothing but the lexemes is. -/
theorem mapLine_ofSource_eq_of_lexemes {a b : String} (h : lexemes a = lexemes b) :
    (TokenStream.ofSource a).mapLine (fun _ => 0)
      = (TokenStream.ofSource b).mapLine fun _ => 0 := by
  have hseen : ∀ ts : List Token, ts.map (Token.mapLine fun _ => 0)
      = (ts.map fun t => (t.kind, t.lexeme)).map fun l => ⟨l.1, l.2, 0, 0⟩ := by
    intro ts
    rw [List.map_map]
    rfl
  simp only [lexemes, tokenize, TokenStream.toList, List.map_append, List.map_singleton] at h
  have hpending := (List.append_inj' h rfl).1
  rw [TokenStream.mapLine, TokenStream.mapLine, hseen, hpending, ← hseen]

/-- Sources with the same lexemes come to the same, whether they compile or not and
whatever texts are stored already. -/
theorem compileUnit_lexemes {a b : String} (h : lexemes a = lexemes b) (unit : UnitKind)
    (s t : Interner) : SameButLines (compileUnit unit a s) (compileUnit unit b t) := by
  have htwins := Parser.twins_ofSource (mapLine_ofSource_eq_of_lexemes h) unit s t
  rw [compileUnit, compileUnit, Parser.result, Parser.result, htwins.hadError]
  cases (Parser.ofSource unit b t).hadError with
  | true =>
    have hreports := congrArg (List.map fun d => (d.kind, d.location, d.message))
      htwins.diagnostics
    rw [List.map_map, List.map_map] at hreports
    exact hreports
  | false =>
    have hcode := congrArg (List.map CodeByte.byte) htwins.code
    rw [List.map_map, List.map_map] at hcode
    exact ⟨hcode, htwins.contents_eq⟩

/-- An error that is found two lines further down. -/
theorem sameButLines_comment :
    lexemes "a +\n// b\n;" = lexemes "a+;"
      ∧ (compile "a +\n// b\n;" .empty).1
          = .error ⟨[⟨.syntactic, 3, .atLexeme ";", "Expected expression"⟩]⟩
      ∧ SameButLines (compile "a +\n// b\n;" .empty) (compile "a+;" .empty) := by
  have hlexemes : lexemes "a +\n// b\n;" = lexemes "a+;" := by decide +kernel
  have herror : (Parser.ofSource .program "a +\n// b\n;" .empty).hadError = true := by
    decide +kernel
  have hreports : (Parser.ofSource .program "a +\n// b\n;" .empty).diagnostics
      = [⟨.syntactic, 3, .atLexeme ";", "Expected expression"⟩] := by
    decide +kernel
  refine ⟨hlexemes, ?_, compileUnit_lexemes hlexemes .program .empty .empty⟩
  rw [compile, compileUnit, Parser.result, if_pos herror, hreports]

end OnePass
