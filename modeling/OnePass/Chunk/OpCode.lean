/-!
# OnePass.Chunk.OpCode

The instruction set. An instruction is the byte of its opcode, followed by one
operand byte if the opcode takes one: the index of a constant or the slot of a
local.
-/

namespace OnePass

/-- What an instruction does. -/
inductive OpCode where
  | constant | pushNil | pushTrue | pushFalse | pop
  | getLocal | setLocal | getGlobal | defineGlobal | setGlobal
  | equal | greater | less | add | subtract | multiply | divide | not | negate
  | print | ret
  deriving DecidableEq, Repr, Inhabited

namespace OpCode

/-- Every opcode, at the index that is its byte. -/
def all : List OpCode :=
  [.constant, .pushNil, .pushTrue, .pushFalse, .pop, .getLocal, .setLocal, .getGlobal,
   .defineGlobal, .setGlobal, .equal, .greater, .less, .add, .subtract, .multiply,
   .divide, .not, .negate, .print, .ret]

/-- The byte of an opcode. -/
def toByte : OpCode → UInt8
  | .constant => 0
  | .pushNil => 1
  | .pushTrue => 2
  | .pushFalse => 3
  | .pop => 4
  | .getLocal => 5
  | .setLocal => 6
  | .getGlobal => 7
  | .defineGlobal => 8
  | .setGlobal => 9
  | .equal => 10
  | .greater => 11
  | .less => 12
  | .add => 13
  | .subtract => 14
  | .multiply => 15
  | .divide => 16
  | .not => 17
  | .negate => 18
  | .print => 19
  | .ret => 20

/-- The opcode of a byte. -/
def ofByte? (byte : UInt8) : Option OpCode := all[byte.toNat]?

/-- Whether an operand byte follows. -/
def takesOperand : OpCode → Bool
  | .constant | .getLocal | .setLocal | .getGlobal | .defineGlobal | .setGlobal => true
  | _ => false

/-- How many operand bytes follow. -/
def width (op : OpCode) : Nat := if op.takesOperand then 1 else 0

/-- Whether the operand is the index of a constant. -/
def refersToConstant : OpCode → Bool
  | .constant | .getGlobal | .defineGlobal | .setGlobal => true
  | _ => false

/-- The bare name of an opcode. -/
def name : OpCode → String
  | .constant => "CONSTANT"
  | .pushNil => "NIL"
  | .pushTrue => "TRUE"
  | .pushFalse => "FALSE"
  | .pop => "POP"
  | .getLocal => "GET_LOCAL"
  | .setLocal => "SET_LOCAL"
  | .getGlobal => "GET_GLOBAL"
  | .defineGlobal => "DEFINE_GLOBAL"
  | .setGlobal => "SET_GLOBAL"
  | .equal => "EQUAL"
  | .greater => "GREATER"
  | .less => "LESS"
  | .add => "ADD"
  | .subtract => "SUBTRACT"
  | .multiply => "MULTIPLY"
  | .divide => "DIVIDE"
  | .not => "NOT"
  | .negate => "NEGATE"
  | .print => "PRINT"
  | .ret => "RETURN"

/-- The name of an opcode in a listing. -/
def mnemonic (op : OpCode) : String := "OP_" ++ op.name

/-- The opcode with a given mnemonic. -/
def ofMnemonic? (text : String) : Option OpCode :=
  all.find? (·.mnemonic = text)

/-! ### Operands -/

/-- How many constants, and how many slots, one operand byte can tell apart. -/
def operandCount : Nat := 256

/-- The operand byte for a number, if it fits. -/
def operand? (n : Nat) : Option UInt8 :=
  if n < operandCount then some (UInt8.ofNat n) else none

theorem operand?_of_lt {n : Nat} (h : n < operandCount) : operand? n = some (UInt8.ofNat n) :=
  if_pos h

theorem operand?_eq_none_iff {n : Nat} : operand? n = none ↔ operandCount ≤ n := by
  simp [operand?]

theorem toNat_of_operand?_eq_some {n : Nat} {operand : UInt8} (h : operand? n = some operand) :
    operand.toNat = n := by
  unfold operand? at h
  split at h
  · rename_i hn
    rw [← Option.some.inj h]
    exact UInt8.toNat_ofNat_of_lt hn
  · simp at h

/-! ### Bytes and opcodes -/

@[simp] theorem ofByte?_toByte (op : OpCode) : ofByte? op.toByte = some op := by
  cases op <;> rfl

theorem ofByte?_eq_none_iff (byte : UInt8) : ofByte? byte = none ↔ 21 ≤ byte.toNat := by
  simp [ofByte?, all]

theorem ofMnemonic?_mnemonic (op : OpCode) : ofMnemonic? op.mnemonic = some op := by
  cases op <;> decide

end OpCode

end OnePass
