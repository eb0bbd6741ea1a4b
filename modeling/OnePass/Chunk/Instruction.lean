import OnePass.Chunk.Basic

/-!
# OnePass.Chunk.Instruction

Decoding of code into instructions. Decoding goes from the first byte on and stops
where it finds no opcode, or an opcode without the operand it takes. It gives all
instructions at once (`Chunk.instructions`) or one after the other
(`InstructionIterator.next?`).
-/

namespace OnePass

/-- A decoded instruction. -/
structure Instruction where
  /-- Where its opcode stands. -/
  offset : Nat
  line : Nat
  op : OpCode
  operand : Option UInt8
  deriving DecidableEq, Repr, Inhabited

namespace Instruction

/-- How many bytes an instruction takes. -/
def size (i : Instruction) : Nat := 1 + i.op.width

/-- The bytes of an instruction. -/
def encode (i : Instruction) : List UInt8 := i.op.toByte :: i.operand.toList

/-- The instructions of code that starts at an offset. -/
def decode (offset : Nat) : List CodeByte → List Instruction
  | [] => []
  | first :: rest =>
    match OpCode.ofByte? first.byte with
    | none => []
    | some op =>
      if op.takesOperand then
        match rest with
        | [] => []
        | second :: rest =>
          ⟨offset, first.line, op, some second.byte⟩ :: decode (offset + 2) rest
      else ⟨offset, first.line, op, none⟩ :: decode (offset + 1) rest

end Instruction

namespace Chunk

/-- The instructions of a chunk. -/
def instructions (c : Chunk) : List Instruction := Instruction.decode 0 c.code

/-- The opcodes of a chunk's instructions. -/
def opcodes (c : Chunk) : List OpCode := c.instructions.map (·.op)

end Chunk

/-- A place in the code of a chunk, from which its instructions are decoded one by one. -/
structure InstructionIterator where
  chunk : Chunk
  offset : Nat
  deriving DecidableEq, Repr, Inhabited

namespace InstructionIterator

def ofChunk (c : Chunk) : InstructionIterator := ⟨c, 0⟩

/-- The next instruction. Where none can be decoded, the iteration goes to the end of the
code, so that it has finished. -/
def next? (i : InstructionIterator) : Option Instruction × InstructionIterator :=
  match i.chunk.code[i.offset]? with
  | none => (none, i)
  | some first =>
    match OpCode.ofByte? first.byte with
    | none => (none, { i with offset := i.chunk.size })
    | some op =>
      if op.takesOperand then
        match i.chunk.code[i.offset + 1]? with
        | none => (none, { i with offset := i.chunk.size })
        | some second =>
          (some ⟨i.offset, first.line, op, some second.byte⟩, { i with offset := i.offset + 2 })
      else (some ⟨i.offset, first.line, op, none⟩, { i with offset := i.offset + 1 })

end InstructionIterator

end OnePass
