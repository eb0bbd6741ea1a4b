import OnePass.Proofs.Code.Statement
import OnePass.Proofs.Stack.Machine

/-!
# OnePass.Proofs.Stack.Trace

The events of a program: its code, in which every instruction that comes from a name
carries the declaration that the name refers to, and in which it is marked where a
declaration takes the value of its initializer as its local. Without these marks a trace
is the code itself (`Stmt.filterMap_traceOf`).
-/

namespace OnePass

/-- Instructions that come from no name. They refer to no declaration, so nothing is asked of the
cells they find. -/
def plainly (code : List Written) : List Event := code.map (.run · none)

/-- The marks are all that a trace adds, and instructions from no name carry none. -/
theorem filterMap_plainly (code : List Written) :
    (plainly code).filterMap Event.written? = code := by
  rw [plainly, List.filterMap_map]
  exact List.filterMap_some

/-- The declaration that a token refers to, if it is a name. -/
def Token.target? (f : Frames) (t : Token) : Option Token :=
  if t.kind = .identifier then f.declaration? t.lexeme else none

/-! ### Expressions -/

namespace Expr

/-- The events of an expression. -/
def trace (f : Frames) (index : Nat) : Expr → List Event
  | atom t => (t.load f.slots index).map (.run · (t.target? f))
  | group _ inner _ => inner.trace f index
  | unary op operand =>
    operand.trace f index ++ plainly (op.kind.unaryCode.map (⟨·, none, operand.last.line⟩))
  | binary left op right =>
    left.trace f index ++ right.trace f (index + (left.constants f.slots).length)
      ++ plainly (op.kind.binaryCode.map (⟨·, none, right.last.line⟩))
  | assign target _ value =>
    value.trace f (index + (target.constant? f.slots).toList.length)
      ++ [.run (target.assignCode f.slots index value.last.line) (target.target? f)]

/-- Without its marks the trace of an expression is its reference code. The index varies in the
induction, because the right operand of an operator counts on from the constants of the left one.
-/
theorem filterMap_trace (f : Frames) (e : Expr) :
    ∀ index, (e.trace f index).filterMap Event.written? = e.code f.slots index := by
  induction e with
  | atom t =>
    intro index
    rw [trace, List.filterMap_map]
    exact List.filterMap_some
  | group opening inner closing ih => exact ih
  | unary op operand ih =>
    intro index
    rw [trace, List.filterMap_append, ih, filterMap_plainly]
    rfl
  | binary left op right ihl ihr =>
    intro index
    rw [trace, List.filterMap_append, List.filterMap_append, ihl, ihr, filterMap_plainly]
    rfl
  | assign target equal value ih =>
    intro index
    rw [trace, List.filterMap_append, ih]
    rfl

end Expr

/-! ### Statements -/

/-- The events of an initializer behind `name`. -/
def Initializer.trace (f : Frames) (index : Nat) (name : Token) : Initializer → List Event
  | none => plainly [⟨.pushNil, none, name.line⟩]
  | some (_, value) => value.trace f index

/-- A declaration without initializer still leaves a cell: its code is the push of `nil`. -/
theorem Initializer.filterMap_trace (f : Frames) (index : Nat) (name : Token)
    (init : Initializer) :
    (init.trace f index name).filterMap Event.written? = init.code f.slots index name := by
  cases init with
  | none => rfl
  | some value => exact value.2.filterMap_trace f index

namespace Stmt

/-- What happens behind an initializer: a global is defined, a local takes the cell. -/
def defineTrace (f : Frames) (index : Nat) (name : Token) (line : Nat) : List Event :=
  if f.isGlobal then plainly (defineCode f index line) else [.bind name]

mutual

/-- The events of a statement. -/
def trace (f : Frames) (index : Nat) : Stmt → List Event
  | declare _ name init semicolon =>
    init.trace f index name
      ++ defineTrace f (index + (init.constants f.slots).length) name semicolon.line
  | print _ value semicolon =>
    value.trace f index ++ plainly [⟨.print, none, semicolon.line⟩]
  | block _ body closing =>
    traceOf f.enter index body
      ++ plainly (List.replicate (declared body).length ⟨.pop, none, closing.line⟩)
  | expression value semicolon =>
    value.trace f index ++ plainly [⟨.pop, none, semicolon.line⟩]

def traceOf (f : Frames) (index : Nat) : List Stmt → List Event
  | [] => []
  | s :: rest => s.trace f index ++ traceOf (s.after f) (index + (s.constants f).length) rest

end

/-- Here the two differ: the end of a local declaration is an event and writes no code. -/
theorem filterMap_defineTrace (f : Frames) (index : Nat) (name : Token) (line : Nat) :
    (defineTrace f index name line).filterMap Event.written? = defineCode f index line := by
  unfold defineTrace
  by_cases hglobal : f.isGlobal = true
  · rw [if_pos hglobal]
    exact filterMap_plainly _
  · rw [if_neg hglobal, defineCode, if_neg hglobal]
    rfl

mutual

/-- Without its marks the trace of a statement is its reference code, so what is shown of traces
holds of the code that the compiler writes. -/
theorem filterMap_trace (f : Frames) (index : Nat) (s : Stmt) :
    (s.trace f index).filterMap Event.written? = s.code f index := by
  cases s with
  | declare var name init semicolon =>
    rw [trace, List.filterMap_append, init.filterMap_trace, filterMap_defineTrace]
    rfl
  | print word value semicolon =>
    rw [trace, List.filterMap_append, value.filterMap_trace, filterMap_plainly]
    rfl
  | block opening body closing =>
    rw [trace, List.filterMap_append, filterMap_traceOf f.enter index body, filterMap_plainly]
    rfl
  | expression value semicolon =>
    rw [trace, List.filterMap_append, value.filterMap_trace, filterMap_plainly]
    rfl

/-- The same of statements in a row. Both sides hand the frames and the number of constants to the
next statement in the same way. -/
theorem filterMap_traceOf (f : Frames) (index : Nat) (ss : List Stmt) :
    (traceOf f index ss).filterMap Event.written? = codeOf f index ss := by
  cases ss with
  | nil => rfl
  | cons s rest =>
    rw [traceOf, List.filterMap_append, filterMap_trace f index s,
      filterMap_traceOf (s.after f) _ rest]
    rfl

end

end Stmt

end OnePass
