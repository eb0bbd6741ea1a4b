import OnePass.Proofs.Code.Output

/-!
# OnePass.Proofs.Code.Decoding

Writing and decoding fit each other, in both directions. Code that is written with the
widths of its opcodes is decoded into the instructions that were written, at the offsets
that the writes have given (`decode_writeAll`). Code that is not is decoded as far as it
goes: the bytes of the instructions are in front of the code, and what is behind them
starts no instruction (`Instruction.exists_undecodable`). Decoding one by one gives the
same instructions, and nothing after the last (`InstructionIterator.next?_after`).
-/

namespace OnePass

/-! ### Sequences of writes -/

namespace Written

/-- A written instruction at its offset. -/
def located (w : Written) (offset : Nat) : Instruction := ⟨offset, w.line, w.op, w.operand⟩

end Written

namespace Chunk

/-- Write an instruction, with an operand if there is one. Also gives its offset. -/
def writeOne (c : Chunk) (w : Written) : Nat × Chunk :=
  match w.operand with
  | none => c.write w.op w.line
  | some operand => c.writeWithOperand w.op operand w.line

/-- Write instructions one after the other. Also gives their offsets. -/
def writeAll (c : Chunk) : List Written → List Nat × Chunk
  | [] => ([], c)
  | w :: rest =>
    let written := c.writeOne w
    let others := written.2.writeAll rest
    (written.1 :: others.1, others.2)

@[simp] theorem writeOne_offset (c : Chunk) (w : Written) : (c.writeOne w).1 = c.size := by
  unfold writeOne
  split <;> rfl

@[simp] theorem writeOne_code (c : Chunk) (w : Written) :
    (c.writeOne w).2.code = c.code ++ w.bytes := by
  obtain ⟨op, operand, line⟩ := w
  cases operand <;> rfl

theorem writeAll_code (c : Chunk) (ws : List Written) :
    (c.writeAll ws).2.code = c.code ++ ws.flatMap Written.bytes := by
  induction ws generalizing c with
  | nil => exact (List.append_nil _).symm
  | cons w rest ih =>
    show ((c.writeOne w).2.writeAll rest).2.code = _
    rw [ih, writeOne_code, List.flatMap_cons, List.append_assoc]

@[simp] theorem length_writeAll (c : Chunk) (ws : List Written) :
    (c.writeAll ws).1.length = ws.length := by
  induction ws generalizing c with
  | nil => rfl
  | cons w rest ih => exact congrArg (· + 1) (ih _)

/-- What is written with the widths of its opcodes is decoded, each instruction at the
offset that its write has given. -/
theorem decode_writeAll (c : Chunk) {ws : List Written} (h : ∀ w ∈ ws, w.Fits) :
    Instruction.decode c.size (ws.flatMap Written.bytes)
      = List.zipWith Written.located ws (c.writeAll ws).1 := by
  induction ws generalizing c with
  | nil => rfl
  | cons w rest ih =>
    have hrest : ∀ w ∈ rest, w.Fits := fun w hw => h w (List.mem_cons_of_mem _ hw)
    have hfits : w.operand.isSome = w.op.takesOperand := h w List.mem_cons_self
    -- Behind an instruction decoding goes on where the next one is written.
    have hnext : (c.writeOne w).2.size = c.size + w.bytes.length := by
      rw [size, writeOne_code, List.length_append]
      rfl
    have hbehind := ih (c.writeOne w).2 hrest
    rw [hnext] at hbehind
    obtain ⟨op, operand, line⟩ := w
    cases operand with
    | none =>
      have hop : op.takesOperand = false := hfits.symm
      simp only [Written.bytes, Option.map_none, Option.toList_none,
        List.length_singleton] at hbehind
      simp [Written.bytes, Instruction.decode, hop, hbehind, writeAll, Written.located]
    | some operand =>
      have hop : op.takesOperand = true := hfits.symm
      simp only [Written.bytes, Option.map_some, Option.toList_some, List.length_cons,
        List.length_nil] at hbehind
      simp [Written.bytes, Instruction.decode, hop, hbehind, writeAll, Written.located]

end Chunk

/-! ### What decoding leaves -/

theorem OpCode.toByte_of_ofByte? {byte : UInt8} {op : OpCode} (h : ofByte? byte = some op) :
    op.toByte = byte := by
  have htable : ∀ n < 21, ∀ op, all[n]? = some op → op.toByte.toNat = n := by decide
  have hlt : byte.toNat < 21 := (List.getElem?_eq_some_iff.1 h).1
  exact UInt8.toNat_inj.1 (htable _ hlt op h)

/-- Bytes that start no instruction: none, or no opcode, or an opcode without the operand
that it takes. -/
def Undecodable (bytes : List UInt8) : Prop :=
  bytes = [] ∨ (∃ first rest, bytes = first :: rest ∧ 21 ≤ first.toNat)
    ∨ ∃ op : OpCode, op.takesOperand = true ∧ bytes = [op.toByte]

namespace Instruction

/-- Where an instruction starts and where the one behind it does, from an offset on. -/
def Contiguous : Nat → List Instruction → Prop
  | _, [] => True
  | offset, i :: rest => i.offset = offset ∧ Contiguous (offset + i.encode.length) rest

theorem contiguous_decode (offset : Nat) (code : List CodeByte) :
    Contiguous offset (decode offset code) := by
  fun_induction decode offset code with
  | case1 | case2 | case3 => trivial
  | case4 offset first op _ _ second rest ih => exact ⟨rfl, ih⟩
  | case5 offset first rest op _ _ ih => exact ⟨rfl, ih⟩

/-- The bytes of the decoded instructions are in front of the code, and behind them none
can be decoded. -/
theorem exists_undecodable (offset : Nat) (code : List CodeByte) :
    ∃ rest, code.map (·.byte) = (decode offset code).flatMap encode ++ rest
      ∧ Undecodable rest := by
  fun_induction decode offset code with
  | case1 => exact ⟨[], rfl, .inl rfl⟩
  | case2 offset first rest hnone =>
    exact ⟨_, rfl, .inr (.inl ⟨_, _, rfl, (OpCode.ofByte?_eq_none_iff _).1 hnone⟩)⟩
  | case3 offset first op hop htakes =>
    refine ⟨_, rfl, .inr (.inr ⟨op, htakes, ?_⟩)⟩
    rw [OpCode.toByte_of_ofByte? hop]
    rfl
  | case4 offset first op hop _ second rest ih =>
    obtain ⟨left, hbytes, hleft⟩ := ih
    refine ⟨left, ?_, hleft⟩
    simp [encode, hbytes, OpCode.toByte_of_ofByte? hop]
  | case5 offset first rest op hop _ ih =>
    obtain ⟨left, hbytes, hleft⟩ := ih
    refine ⟨left, ?_, hleft⟩
    simp [encode, hbytes, OpCode.toByte_of_ofByte? hop]

/-- The line of an instruction is that of the byte at its offset. -/
theorem getElem?_of_mem_decode {offset : Nat} {code : List CodeByte} {i : Instruction}
    (h : i ∈ decode offset code) :
    ∃ n, i.offset = offset + n ∧ code[n]?.map (·.line) = some i.line := by
  fun_induction decode offset code with
  | case1 | case2 | case3 => cases h
  | case4 offset first op _ _ second rest ih =>
    rcases List.mem_cons.1 h with rfl | h
    · exact ⟨0, rfl, rfl⟩
    · obtain ⟨n, hoffset, hline⟩ := ih h
      exact ⟨n + 2, by omega, hline⟩
  | case5 offset first rest op _ _ ih =>
    rcases List.mem_cons.1 h with rfl | h
    · exact ⟨0, rfl, rfl⟩
    · obtain ⟨n, hoffset, hline⟩ := ih h
      exact ⟨n + 1, by omega, hline⟩

end Instruction

/-! ### Decoding one by one -/

namespace InstructionIterator

/-- The iterator after a number of instructions have been asked for. -/
def after (i : InstructionIterator) : Nat → InstructionIterator
  | 0 => i
  | n + 1 => i.next?.2.after n

/-- The instructions that are still to come. -/
def remaining (i : InstructionIterator) : List Instruction :=
  Instruction.decode i.offset (i.chunk.code.drop i.offset)

theorem remaining_finished (c : Chunk) : remaining ⟨c, c.size⟩ = [] := by
  have hdrop : c.code.drop c.size = [] := List.drop_length
  rw [remaining, hdrop]
  rfl

/-- The next instruction is the first of those that are to come, and takes it away. -/
theorem next?_remaining (i : InstructionIterator) :
    i.next?.1 = i.remaining.head? ∧ i.next?.2.remaining = i.remaining.tail := by
  unfold next?
  split
  · rename_i hend
    have hdrop := List.drop_eq_nil_iff.2 (List.getElem?_eq_none_iff.1 hend)
    simp [remaining, hdrop, Instruction.decode]
  rename_i first hfirst
  obtain ⟨hlt, hfirst⟩ := List.getElem?_eq_some_iff.1 hfirst
  have hcode : i.chunk.code.drop i.offset = first :: i.chunk.code.drop (i.offset + 1) := by
    rw [List.drop_eq_getElem_cons hlt, hfirst]
  split
  · rename_i hnone
    have hnothing : i.remaining = [] := by simp [remaining, hcode, Instruction.decode, hnone]
    rw [hnothing]
    exact ⟨rfl, remaining_finished i.chunk⟩
  rename_i op hop
  split
  · rename_i htakes
    split
    · rename_i hend
      have hdrop := List.drop_eq_nil_iff.2 (List.getElem?_eq_none_iff.1 hend)
      have hnothing : i.remaining = [] := by
        simp [remaining, hcode, hdrop, Instruction.decode, hop, htakes]
      rw [hnothing]
      exact ⟨rfl, remaining_finished i.chunk⟩
    · rename_i second hsecond
      obtain ⟨hlt', hsecond⟩ := List.getElem?_eq_some_iff.1 hsecond
      rw [List.drop_eq_getElem_cons hlt', hsecond] at hcode
      simp [remaining, hcode, Instruction.decode, hop, htakes]
  · rename_i hplain
    simp [remaining, hcode, Instruction.decode, hop, hplain]

theorem next?_after (i : InstructionIterator) (n : Nat) :
    (i.after n).next?.1 = i.remaining[n]? := by
  induction n generalizing i with
  | zero => rw [after, i.next?_remaining.1, List.head?_eq_getElem?]
  | succ n ih => rw [after, ih, i.next?_remaining.2, List.getElem?_tail]

end InstructionIterator

/-- Writing and decoding fit each other. Whatever is written with the widths of its
opcodes is decoded in order, each instruction with its opcode, operand and line at the
offset that its write has given. Of any code, however it was written, the decoded
instructions are the beginning: they stand one behind the other from the first byte on,
encoded they are the bytes there, and the bytes behind them start no instruction. Asked
for one by one they are the same, and behind the last there is none for ever. There are as
many lines as bytes, so that each byte has a line, and each instruction that of its
opcode. -/
theorem instructions_roundTrip :
    (∀ ws : List Written, (∀ w ∈ ws, w.Fits) →
      let written := Chunk.empty.writeAll ws
      written.1.length = ws.length
        ∧ written.2.instructions = List.zipWith Written.located ws written.1)
    ∧ ∀ c : Chunk,
      (∃ rest, c.bytes = c.instructions.flatMap Instruction.encode ++ rest ∧ Undecodable rest)
      ∧ Instruction.Contiguous 0 c.instructions
      ∧ (∀ n, ((InstructionIterator.ofChunk c).after n).next?.1 = c.instructions[n]?)
      ∧ c.lines.length = c.bytes.length
      ∧ (∀ offset, (c.lineAt? offset).isSome = true ↔ offset < c.size)
      ∧ ∀ i ∈ c.instructions, c.lineAt? i.offset = some i.line := by
  refine ⟨fun ws hfits => ⟨Chunk.length_writeAll _ ws, ?_⟩, fun c => ⟨?_, ?_, fun n => ?_, ?_,
    fun offset => ?_, fun i hi => ?_⟩⟩
  · rw [Chunk.instructions, Chunk.writeAll_code]
    exact Chunk.decode_writeAll .empty hfits
  · exact Instruction.exists_undecodable 0 c.code
  · exact Instruction.contiguous_decode 0 c.code
  · exact InstructionIterator.next?_after _ n
  · rw [Chunk.length_lines, Chunk.length_bytes]
  · simp [Chunk.lineAt?, Chunk.size]
  · obtain ⟨n, hoffset, hline⟩ := Instruction.getElem?_of_mem_decode hi
    rw [hoffset, Nat.zero_add]
    exact hline

/-- Written without the operand that it takes, an instruction is decoded with the opcode
behind it in place of that, and the last one is not decoded at all. -/
example :
    let written := Chunk.empty.writeAll
      [⟨.getLocal, none, 1⟩, ⟨.add, none, 2⟩, ⟨.constant, none, 2⟩]
    written.2.instructions = [⟨0, 1, .getLocal, some OpCode.add.toByte⟩] := by
  decide

end OnePass
