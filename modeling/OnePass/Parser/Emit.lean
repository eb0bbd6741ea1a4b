import OnePass.Parser.State

/-!
# OnePass.Parser.Emit

What the parser writes: instructions, constants, and the stack slots of locals.
Everything is written on the line of the token that was taken last.
-/

namespace OnePass.Parser

/-! ### Instructions -/

/-- Write an instruction, on the line of the previous token. -/
def emit (p : Parser) (op : OpCode) : Parser :=
  { p with chunk := (p.chunk.write op p.previous.line).2 }

/-- Write instructions, on the line of the previous token. -/
def emitAll (p : Parser) (ops : List OpCode) : Parser := ops.foldl emit p

/-- Write an instruction with its operand, on the line of the previous token. -/
def emitWith (p : Parser) (op : OpCode) (operand : UInt8) : Parser :=
  { p with chunk := (p.chunk.writeWithOperand op operand p.previous.line).2 }

@[simp] theorem emit_code (p : Parser) (op : OpCode) :
    (p.emit op).chunk.code = p.chunk.code ++ [⟨op.toByte, p.previous.line⟩] := rfl

@[simp] theorem emitWith_code (p : Parser) (op : OpCode) (operand : UInt8) :
    (p.emitWith op operand).chunk.code
      = p.chunk.code ++ [⟨op.toByte, p.previous.line⟩, ⟨operand, p.previous.line⟩] := rfl

theorem emitAll_code (p : Parser) (ops : List OpCode) :
    (p.emitAll ops).chunk.code
      = p.chunk.code ++ ops.map fun op => ⟨op.toByte, p.previous.line⟩ := by
  induction ops generalizing p with
  | nil => simp [emitAll]
  | cons op rest ih =>
    have hstep : p.emitAll (op :: rest) = (p.emit op).emitAll rest := rfl
    rw [hstep, ih]
    simp [emit]

/-! ### Constants -/

/-- Add a constant to the pool. Also gives its index; one that does not fit an
operand is reported, and 0 stands in for it. -/
def makeConstant (p : Parser) (value : Value) : UInt8 × Parser :=
  let added := p.chunk.addConstant value
  let q := { p with chunk := added.2 }
  match OpCode.operand? added.1 with
  | some operand => (operand, q)
  | none => (0, q.error .constantsExhausted)

/-- Store a text and add it to the pool. -/
def makeText (p : Parser) (text : String) : UInt8 × Parser :=
  let stored := p.strings.intern text
  { p with strings := stored.2 }.makeConstant (.text stored.1)

/-- Write code that puts a constant on the stack. -/
def emitConstant (p : Parser) (value : Value) : Parser :=
  let made := p.makeConstant value
  made.2.emitWith .constant made.1

/-- Add the text of a name to the pool. -/
def nameConstant (p : Parser) (name : Token) : UInt8 × Parser := p.makeText name.lexeme

/-- A constant is added to the pool whether or not its index fits. -/
theorem makeConstant_constants (p : Parser) (value : Value) :
    (p.makeConstant value).2.chunk.constants = p.chunk.constants ++ [value] := by
  simp only [makeConstant]
  split <;> simp [error]

/-! ### Blocks and locals -/

/-- Open a block. -/
def beginScope (p : Parser) : Parser := { p with scope := p.scope.enter }

/-- Close the innermost block, and write code that takes its locals off the stack.
Also gives their number. -/
def endScope (p : Parser) : Nat × Parser :=
  let left := p.scope.leave
  (left.1, { p with scope := left.2 }.emitAll (List.replicate left.1 .pop))

/-- Add a local to the innermost block. Also tells whether it was added; if not,
the reason is reported at its name. -/
def declareLocal (p : Parser) (name : Token) : Bool × Parser :=
  match p.scope.declare name with
  | .ok scope => (true, { p with scope })
  | .error problem => (false, p.errorAt name problem)

/-- The slot of the local that a name refers to. -/
def resolveLocal (p : Parser) (name : Token) : Option UInt8 :=
  (p.scope.slot? name.lexeme).bind OpCode.operand?

end OnePass.Parser
