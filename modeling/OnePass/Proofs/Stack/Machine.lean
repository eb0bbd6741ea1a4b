import Mathlib.Data.List.Basic
import OnePass.Proofs.Code.Output
import OnePass.Token.Basic

/-!
# OnePass.Proofs.Stack.Machine

The stack of a running program, without the values on it. A cell only knows the
declaration whose initializer has left it, if there is one. What runs is a row of
events: instructions, and moments at which a declaration takes the cell on top of the
stack as its local. `Runs` says that nothing goes wrong on the way; the heights it goes
through are sums of the effects of the instructions (`Runs.height`).
-/

namespace OnePass

/-! ### Instructions and the stack -/

namespace OpCode

/-- By how much an instruction changes the height of the stack. -/
def effect : OpCode → Int
  | .constant | .pushNil | .pushTrue | .pushFalse | .getLocal | .getGlobal => 1
  | .pop | .print | .defineGlobal => -1
  | .equal | .greater | .less | .add | .subtract | .multiply | .divide => -1
  | .not | .negate | .setLocal | .setGlobal | .ret => 0

/-- How many cells on top of the stack an instruction uses. -/
def operands : OpCode → Nat
  | .equal | .greater | .less | .add | .subtract | .multiply | .divide => 2
  | .pop | .print | .defineGlobal | .not | .negate | .setLocal | .setGlobal => 1
  | .constant | .pushNil | .pushTrue | .pushFalse | .getLocal | .getGlobal | .ret => 0

/-- How many of them it takes away. An assignment leaves its value where it is. -/
def pops : OpCode → Nat
  | .setLocal | .setGlobal => 0
  | op => op.operands

/-- How many cells an instruction puts on the stack. -/
def pushes : OpCode → Nat
  | .pop | .print | .defineGlobal | .setLocal | .setGlobal | .ret => 0
  | _ => 1

/-- Whether all that an instruction needs are its operands. -/
def isPlain : OpCode → Bool
  | .ret | .defineGlobal | .getLocal | .setLocal => false
  | _ => true

/-- The table of effects agrees with what an instruction takes and leaves. Both are needed:
heights are sums of effects, while a cell is followed through takes and pushes. -/
theorem effect_eq (op : OpCode) : op.effect = (op.pushes : Int) - op.pops := by
  cases op <;> rfl

theorem pops_le_operands (op : OpCode) : op.pops ≤ op.operands := by
  cases op <;> decide

end OpCode

/-- The height of the stack behind instructions that start on an empty one. -/
def heightOf : List OpCode → Int
  | [] => 0
  | op :: rest => op.effect + heightOf rest

/-! ### Events -/

/-- A cell of the stack: the declaration whose initializer has left it, if there is one. -/
abbrev Cell := Option Token

/-- What happens while code runs. -/
inductive Event where
  /-- An instruction, and the declaration that the name refers to which it was compiled
  from, if that is one of a local. -/
  | run (w : Written) (target : Option Token)
  /-- An initializer has run, and what it has left is the local of its declaration. -/
  | bind (declaration : Token)

namespace Event

/-- The instruction of an event. -/
def written? : Event → Option Written
  | run w _ => some w
  | bind _ => none

/-- The cells behind an event, from the bottom up. -/
def act (cells : List Cell) : Event → List Cell
  | run w _ => cells.take (cells.length - w.op.pops) ++ List.replicate w.op.pushes none
  | bind declaration => cells.dropLast ++ [some declaration]

end Event

/-- The cells behind events. -/
def cellsAfter (cells : List Cell) (events : List Event) : List Cell :=
  events.foldl Event.act cells

/-- Whether an operand is the slot of the local that the name refers to: the cell there
is the one that the initializer of the declaration has left. -/
def Finds (cells : List Cell) (operand : Option UInt8) (target : Option Token) : Prop :=
  ∃ slot declaration, operand = some slot ∧ target = some declaration
    ∧ cells[slot.toNat]? = some (some declaration)

/-- Whether an instruction can run on some cells, if the stack is to be `final` cells
high at the end. -/
structure Admissible (final : Nat) (cells : List Cell) (w : Written) (target : Option Token) :
    Prop where
  operands : w.op.operands ≤ cells.length
  ret : w.op = .ret → cells.length = final
  define : w.op = .defineGlobal → cells.length = 1
  getLocal : w.op = .getLocal → Finds cells w.operand target
  setLocal : w.op = .setLocal → Finds cells.dropLast w.operand target

/-- The conditions beyond the operands are those of the four instructions that are not plain. -/
theorem Admissible.of_isPlain {final : Nat} {cells : List Cell} {w : Written}
    {target : Option Token} (hplain : w.op.isPlain = true)
    (h : w.op.operands ≤ cells.length) : Admissible final cells w target := by
  refine ⟨h, ?_, ?_, ?_, ?_⟩ <;> intro hop <;> rw [hop] at hplain <;> cases hplain

/-- Events run from some cells to others, and every instruction can run where it stands. -/
inductive Runs (final : Nat) : List Cell → List Event → List Cell → Prop where
  | nil {cells} : Runs final cells [] cells
  | run {cells w target events cells'} (hw : Admissible final cells w target)
      (h : Runs final (Event.act cells (.run w target)) events cells') :
      Runs final cells (.run w target :: events) cells'
  | bind {cells declaration events cells'} (hne : cells ≠ [])
      (h : Runs final (Event.act cells (.bind declaration)) events cells') :
      Runs final cells (.bind declaration :: events) cells'

namespace Runs

variable {final : Nat} {cells cells' cells'' : List Cell} {events events' : List Event}

/-- Runs compose: the cells that one leaves are those that the next one starts on. -/
theorem append (h : Runs final cells events cells') (h' : Runs final cells' events' cells'') :
    Runs final cells (events ++ events') cells'' := by
  induction h with
  | nil => exact h'
  | run hw h ih => exact .run hw (ih h')
  | bind hne h ih => exact .bind hne (ih h')

theorem single {w : Written} {target : Option Token} (hw : Admissible final cells w target) :
    Runs final cells [.run w target] (Event.act cells (.run w target)) :=
  .run hw .nil

/-- In the middle of a run, the instruction that comes next can run. -/
theorem admissible {before after : List Event} {w : Written} {target : Option Token}
    (h : Runs final cells (before ++ .run w target :: after) cells') :
    Admissible final (cellsAfter cells before) w target := by
  induction before generalizing cells with
  | nil =>
    cases h with
    | run hw h => exact hw
  | cons event before ih =>
    cases h with
    | run hw h => exact ih h
    | bind hne h => exact ih h

/-- The height changes by the effects of the instructions that have run. -/
theorem height {before after : List Event} (h : Runs final cells (before ++ after) cells') :
    ((cellsAfter cells before).length : Int)
      = cells.length + heightOf ((before.filterMap Event.written?).map Written.op) := by
  induction before generalizing cells with
  | nil => simp [cellsAfter, heightOf]
  | cons event before ih =>
    cases h with
    | @run _ w target _ _ hw h =>
      -- An admissible instruction finds what it takes, so nothing is cut off below zero.
      have hlength : ((Event.act cells (.run w target)).length : Int)
          = cells.length + w.op.effect := by
        have hpops := Nat.le_trans w.op.pops_le_operands hw.operands
        rw [Event.act, List.length_append, List.length_take, List.length_replicate,
          OpCode.effect_eq]
        omega
      have hrest := ih h
      rw [hlength] at hrest
      rw [List.filterMap_cons_some (rfl : Event.written? (.run w target) = some w),
        List.map_cons, heightOf, ← Int.add_assoc]
      exact hrest
    | @bind _ declaration _ _ hne h =>
      -- A declaration renames the cell on top and leaves the height alone.
      have hlength : (Event.act cells (.bind declaration)).length = cells.length := by
        have hpos := List.length_pos_iff.2 hne
        rw [Event.act, List.length_append, List.length_dropLast, List.length_singleton]
        omega
      have hrest := ih h
      rw [hlength] at hrest
      rw [List.filterMap_cons_none (rfl : Event.written? (.bind declaration) = none)]
      exact hrest

end Runs

end OnePass
