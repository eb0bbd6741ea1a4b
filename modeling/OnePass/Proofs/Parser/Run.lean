import OnePass.Parser.Call
import OnePass.Proofs.Parser.Walk

/-!
# OnePass.Proofs.Parser.Run

What declarations, statements and units do, and single operations. A declaration is taken apart
into the value of its variable (`initializer`) and the coming into being of the variable
(`define`). Only blocks and declarations end panics; the statements without a block do what is
done in expressions. Whatever a unit is, its compilation is a sequence of actions
(`run_reaches`), so that all that actions keep up holds from the first token to the last.
-/

namespace OnePass.Parser

/-- The value of a declared variable, behind its name. -/
def initializer (p : Parser) : Parser :=
  if p.check .equal then p.advance.expression else p.emit .pushNil

/-- The variable of a declaration comes into being, its value having been compiled. -/
def define (p : Parser) (name : Token) : Parser :=
  if 0 < p.scope.depth then (p.declareLocal name).2
  else (p.nameConstant name).2.emitWith .defineGlobal (p.nameConstant name).1

/-- The parts of a variable declaration. -/
theorem varDeclaration_eq (p : Parser) :
    p.varDeclaration
      = ((p.consume .identifier .variableNameMissing).initializer.consume .semicolon
          .declarationEndMissing).define (p.consume .identifier .variableNameMissing).previous :=
  rfl

/-! ### Statements without a block -/

/-- A variable without initializer is `nil`, which takes no token. -/
theorem initializer_does (p : Parser) : Does Deed.inExpr p p.initializer := by
  unfold initializer
  split
  · exact (p.advance_does.mono rfl).trans p.advance.expression_does
  · exact (p.emit_does _).mono rfl

/-- A global is defined by its name in the pool, a local by nothing but its place in the scope. -/
theorem define_does (p : Parser) (name : Token) :
    Does [.rescope, .report, .intern, .pool, .blame, .write] p (p.define name) := by
  unfold define
  split
  · exact (p.declareLocal_does name).mono rfl
  · exact ((p.makeText_does name.lexeme).append (emitWith_does _ _ _)).mono rfl

/-- Behind the `var` of a declaration. -/
theorem initializer_walks {p : Parser} (hprevious : p.previous.kind = .kwVar) :
    Walks TokenKind.Follows p (p.consume .identifier .variableNameMissing).initializer := by
  have hname : TokenKind.Follows p.previous.kind .identifier := by
    rw [hprevious]
    exact .inr (.inr ⟨by decide, rfl⟩)
  refine (consume_walks hname (by decide) .variableNameMissing).trans ?_
  unfold initializer
  split
  · rename_i hequal
    have hcurrent : (p.consume .identifier .variableNameMissing).current.kind = .equal :=
      of_decide_eq_true hequal
    refine (advance_walks follows_admits hequal rfl (by decide)).trans (expression_walks ?_)
    rw [advance_previous, hcurrent]
    rfl
  · exact (emit_does _ _).walks rfl

/-- A declaration changes the scope, so it is more than an expression does; it still ends no
panic. -/
theorem varDeclaration_works (p : Parser) : Works p p.varDeclaration := by
  rw [varDeclaration_eq]
  have hname := (p.consume_does .identifier .variableNameMissing).append (initializer_does _)
  have hend := hname.append (consume_does _ .semicolon .declarationEndMissing)
  exact (hend.append (define_does _ _)).works rfl

/-- An expression, the token behind it, and what is written there. -/
theorem terminated_does (p : Parser) (kind : TokenKind) (problem : Problem) (op : OpCode) :
    Does Deed.inExpr p ((p.expression.consume kind problem).emit op) :=
  ((p.expression_does.append (consume_does _ _ _)).append (emit_does _ _)).mono rfl

theorem printStatement_does (p : Parser) : Does Deed.inExpr p p.printStatement :=
  p.terminated_does ..

theorem expressionStatement_does (p : Parser) : Does Deed.inExpr p p.expressionStatement :=
  p.terminated_does ..

theorem singleExpression_does (p : Parser) : Does Deed.inExpr p p.singleExpression :=
  p.terminated_does ..

/-! ### Blocks and declarations -/

section Body

variable {body : TokenKind → Parser → Parser}

/-- The declarations of the body may end panics, so nothing better can be said of a block. -/
theorem block_reaches (h : ∀ closing p, Reaches p (body closing p)) (p : Parser) :
    Reaches p (block body p) := by
  refine p.beginScope_does.reaches.trans ((h .rightBrace _).trans ?_)
  exact (consume_does _ _ _).reaches.trans (endScope_does _).reaches

theorem declarationBody_reaches (h : ∀ closing p, Reaches p (body closing p)) (p : Parser) :
    Reaches p (declarationBody body p) := by
  unfold declarationBody statement
  split
  · exact p.advance_does.reaches.trans (varDeclaration_works _).reaches
  split
  · exact p.advance_does.reaches.trans (printStatement_does _).reaches
  split
  · exact p.advance_does.reaches.trans (block_reaches h _)
  · exact p.expressionStatement_does.reaches

/-- This is where panics end, if the body has left one. -/
theorem declaration_reaches (h : ∀ closing p, Reaches p (body closing p)) (p : Parser) :
    Reaches p (declaration body p) := by
  have hbody := declarationBody_reaches h p
  unfold declaration
  dsimp only
  split
  · exact hbody.trans (synchronize_does _).reaches
  · exact hbody

end Body

/-- With any fuel: running out of it is no action. -/
theorem declarations_reaches (fuel : Nat) (closing : TokenKind) (p : Parser) :
    Reaches p (declarations fuel closing p) := by
  -- The fuel goes down by one for each declaration, and bodies of blocks have what is left of it.
  induction fuel generalizing closing p with
  | zero => exact .refl
  | succ fuel ih =>
    unfold declarations
    split
    · exact .refl
    · exact (declaration_reaches ih p).trans (ih closing _)

/-- A whole compilation is a sequence of actions. -/
theorem run_reaches (unit : UnitKind) (p : Parser) : Reaches p (run unit p) := by
  cases unit with
  | program =>
    exact ((declarations_reaches _ _ p).trans (advance_does _).reaches).trans
      (emit_does _ _).reaches
  | expression => exact p.singleExpression_does.reaches

/-! ### Single operations -/

/-- What an operation does. -/
def Call.deeds : Call → Footprint
  | .check _ | .resolveLocal _ => []
  | .advance | .accept _ => [.advance]
  | .consume _ _ => [.advance, .report]
  | .expression | .parsePrecedence _ => Deed.inExpr
  | .beginScope => [.rescope]
  | .endScope => [.rescope, .write]
  | .declareLocal _ => [.rescope, .report]
  | .nameConstant _ => [.intern, .pool, .blame]
  | .emit _ | .emitTwo _ _ | .emitWith _ _ => [.write]
  | .emitConstant _ => [.pool, .blame, .write]
  | .makeConstant _ => [.pool, .blame]
  | .error _ _ => [.blame]
  | .errorAtCurrent _ _ => [.report]
  | .recover => [.recover]

theorem perform_does (p : Parser) (call : Call) : Does call.deeds p (p.perform call).2 := by
  cases call with
  | check | resolveLocal => exact .refl
  | advance => exact p.advance_does
  | consume => exact p.consume_does _ _
  | accept kind => exact p.accept_does kind
  | expression => exact p.expression_does
  | parsePrecedence min => exact p.parsePrecedence_does min
  | beginScope => exact p.beginScope_does
  | endScope => exact p.endScope_does
  | declareLocal name => exact p.declareLocal_does name
  | nameConstant name => exact p.makeText_does name.lexeme
  | emit => exact p.emit_does _
  | emitTwo => exact p.emitAll_does _
  | emitWith => exact p.emitWith_does _ _
  | emitConstant => exact p.emitConstant_does _
  | makeConstant => exact p.makeConstant_does _
  | error => exact p.error_does _
  | errorAtCurrent => exact p.errorAt_does _ _
  | recover => exact (Action.recover p).does

/-- Any operations in any order, so that what actions keep up holds of every client of the parser,
not only of the two units. -/
theorem performAll_reaches (p : Parser) (calls : List Call) : Reaches p (p.performAll calls) := by
  induction calls generalizing p with
  | nil => exact .refl
  | cons call rest ih => exact (p.perform_does call).reaches.trans (ih _)

end OnePass.Parser
