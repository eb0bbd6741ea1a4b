import OnePass.Chunk.Instruction

/-!
# OnePass.Proofs.Code.Output

The code that compilation puts into a chunk, apart from where it puts it: instructions
that know no offset (`Written`). Code that was written instruction by instruction is
decoded into the same instructions (`Chunk.instructions_flatMap`).
-/

namespace OnePass

/-- An instruction as it is written. -/
structure Written where
  op : OpCode
  operand : Option UInt8
  line : Nat
  deriving DecidableEq, Repr

namespace Written

/-- The bytes of an instruction, all on its line. -/
def bytes (w : Written) : List CodeByte :=
  ⟨w.op.toByte, w.line⟩ :: (w.operand.map fun operand => ⟨operand, w.line⟩).toList

/-- Whether an instruction has an operand if and only if its opcode takes one. -/
def Fits (w : Written) : Prop := w.operand.isSome = w.op.takesOperand

/-- An instruction that was decoded, without its offset. -/
def ofInstruction (i : Instruction) : Written := ⟨i.op, i.operand, i.line⟩

/-- Decoding takes back what was written, from any offset on. -/
theorem decode_flatMap (written : List Written) (h : ∀ w ∈ written, w.Fits) (offset : Nat) :
    (Instruction.decode offset (written.flatMap bytes)).map ofInstruction = written := by
  induction written generalizing offset with
  | nil => rfl
  | cons w rest ih =>
    obtain ⟨op, operand, line⟩ := w
    have hfits : operand.isSome = op.takesOperand := h _ List.mem_cons_self
    have hrest : ∀ w ∈ rest, w.Fits := fun w hw => h w (List.mem_cons_of_mem _ hw)
    cases operand with
    | none =>
      have hop : op.takesOperand = false := hfits.symm
      simp [bytes, Instruction.decode, hop, ofInstruction, ih hrest]
    | some operand =>
      have hop : op.takesOperand = true := hfits.symm
      simp [bytes, Instruction.decode, hop, ofInstruction, ih hrest]

end Written

/-- The instructions of a chunk are those that its code was written from. -/
theorem Chunk.instructions_flatMap {c : Chunk} {written : List Written}
    (hcode : c.code = written.flatMap Written.bytes) (h : ∀ w ∈ written, w.Fits) :
    c.instructions.map Written.ofInstruction = written := by
  rw [Chunk.instructions, hcode]
  exact Written.decode_flatMap written h 0

end OnePass
