import OnePass.Chunk.OpCode
import OnePass.Value

/-!
# OnePass.Chunk.Basic

Compiled code: a row of bytes, each with the source line it comes from, and a pool
of constants. Code and pool only grow at their ends.

The bytes of code and the table of their lines are kept as one list of pairs
(`CodeByte`), as neither is ever written without the other. That the table has a line for
every byte (`length_lines`, with `length_bytes`) is therefore how a chunk is built, and not
a fact about what is written to it; what has to be proved of the lines is which ones they
are.

Writing does not compare an opcode with the operand it is given: `write` adds one
byte and `writeWithOperand` two, whatever the opcode. Code that was written against
the opcodes' widths is cut off where it no longer decodes (`Chunk.instructions`).
-/

namespace OnePass

/-- A byte of code, and the line of the source it was compiled from. -/
structure CodeByte where
  byte : UInt8
  line : Nat
  deriving DecidableEq, Repr

/-- Compiled code and its constants. -/
structure Chunk where
  code : List CodeByte
  constants : List Value
  deriving DecidableEq, Repr, Inhabited

namespace Chunk

def empty : Chunk := ⟨[], []⟩

/-- The number of bytes of code. -/
def size (c : Chunk) : Nat := c.code.length

/-- The bytes of code without their lines. -/
def bytes (c : Chunk) : List UInt8 := c.code.map (·.byte)

/-- The table of lines: that of every byte of code. -/
def lines (c : Chunk) : List Nat := c.code.map (·.line)

def isEmpty (c : Chunk) : Bool := c.code.isEmpty

/-! ### Writing -/

/-- Add an instruction without operand. Also gives its offset. -/
def write (c : Chunk) (op : OpCode) (line : Nat) : Nat × Chunk :=
  (c.size, { c with code := c.code ++ [⟨op.toByte, line⟩] })

/-- Add an instruction with its operand. Also gives its offset. -/
def writeWithOperand (c : Chunk) (op : OpCode) (operand : UInt8) (line : Nat) : Nat × Chunk :=
  (c.size, { c with code := c.code ++ [⟨op.toByte, line⟩, ⟨operand, line⟩] })

/-- Add a constant to the pool. Also gives its index, however large. -/
def addConstant (c : Chunk) (value : Value) : Nat × Chunk :=
  (c.constants.length, { c with constants := c.constants ++ [value] })

@[simp] theorem code_write (c : Chunk) (op : OpCode) (line : Nat) :
    (c.write op line).2.code = c.code ++ [⟨op.toByte, line⟩] := rfl

@[simp] theorem code_writeWithOperand (c : Chunk) (op : OpCode) (operand : UInt8) (line : Nat) :
    (c.writeWithOperand op operand line).2.code
      = c.code ++ [⟨op.toByte, line⟩, ⟨operand, line⟩] := rfl

@[simp] theorem code_addConstant (c : Chunk) (value : Value) :
    (c.addConstant value).2.code = c.code := rfl

@[simp] theorem constants_addConstant (c : Chunk) (value : Value) :
    (c.addConstant value).2.constants = c.constants ++ [value] := rfl

/-! ### Reading -/

/-- The constant that an operand refers to. -/
def constant? (c : Chunk) (index : UInt8) : Option Value := c.constants[index.toNat]?

/-- The source line of the byte at an offset. -/
def lineAt? (c : Chunk) (offset : Nat) : Option Nat := c.code[offset]?.map (·.line)

@[simp] theorem length_bytes (c : Chunk) : c.bytes.length = c.size := List.length_map _

@[simp] theorem length_lines (c : Chunk) : c.lines.length = c.size := List.length_map _

/-- The index of the first constant that equals a value. This is all that equality of constants
shows of a pool: handles themselves are not for reading. -/
def indexOf? (c : Chunk) (value : Value) : Option Nat :=
  c.constants.findIdx? (·.same value)

end Chunk

end OnePass
