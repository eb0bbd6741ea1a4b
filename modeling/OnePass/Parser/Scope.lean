import OnePass.Chunk.OpCode
import OnePass.Diagnostic

/-!
# OnePass.Parser.Scope

The local variables in scope. Blocks are nested; a block's locals come and go
together. The *slot* of a local is the number of locals that were declared before
it and are still there, which is also its place on the stack of a running program.
-/

namespace OnePass

/-- A local variable: the token that named it, and the depth of its block. -/
structure Local where
  name : Token
  depth : Nat
  deriving DecidableEq, Repr, Inhabited

/-- The locals in scope, the latest first, and the depth of the innermost block. At
depth 0 no block is open. -/
structure Scope where
  locals : List Local
  depth : Nat
  deriving DecidableEq, Repr, Inhabited

namespace Scope

def empty : Scope := ⟨[], 0⟩

/-- The locals in the order of their slots. -/
def inOrder (s : Scope) : List Local := s.locals.reverse

/-! ### Blocks -/

/-- Open a block. -/
def enter (s : Scope) : Scope := { s with depth := s.depth + 1 }

/-- Close the innermost block. Also gives the number of locals it had. -/
def leave (s : Scope) : Nat × Scope :=
  match s.depth with
  | 0 => (0, s)
  | outer + 1 =>
    ((s.locals.takeWhile (outer < ·.depth)).length,
     ⟨s.locals.dropWhile (outer < ·.depth), outer⟩)

/-! ### Names -/

/-- The slot of the latest of some locals that has a name. -/
def slotIn? (name : String) : List Local → Option Nat
  | [] => none
  | l :: earlier => if l.name.lexeme = name then some earlier.length else slotIn? name earlier

/-- The slot that a name refers to, if it is that of a local. -/
def slot? (s : Scope) (name : String) : Option Nat := slotIn? name s.locals

/-- Whether the innermost block has a local of a name. -/
def declaresHere (s : Scope) (name : String) : Bool :=
  (s.locals.takeWhile (s.depth ≤ ·.depth)).any (·.name.lexeme = name)

/-- Add a local to the innermost block. A name can be declared there once, and there
are as many slots as an operand byte can tell apart. -/
def declare (s : Scope) (name : Token) : Except Problem Scope :=
  if s.declaresHere name.lexeme then .error .nameTaken
  else if OpCode.operandCount ≤ s.locals.length then .error .localsExhausted
  else .ok { s with locals := ⟨name, s.depth⟩ :: s.locals }

/-! ### Slots -/

theorem slotIn?_lt {name : String} {locals : List Local} {slot : Nat}
    (h : slotIn? name locals = some slot) : slot < locals.length := by
  induction locals with
  | nil => simp [slotIn?] at h
  | cons l earlier ih =>
    simp only [slotIn?] at h
    split at h
    · simp only [Option.some.injEq] at h; simp [← h]
    · exact Nat.lt_succ_of_lt (ih h)

end Scope

end OnePass
