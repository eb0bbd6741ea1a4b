import OnePass.Proofs.Compile.Expression
import OnePass.Proofs.Compile.Program
import OnePass.Proofs.Stack.Discipline

/-!
# OnePass.Proofs.Compile.Discipline

The stack discipline of compiled chunks. It is stated about the instructions that a chunk
is decoded into: each finds its operands, a global is defined and the program returns at
the one height that is right, and no local is looked for above the stack
(`Chunk.Disciplined`). That the cell at the slot of a local is also the right one is
stated along the trace of the program (`Chunk.FindsLocals`).
-/

namespace OnePass

open Stmt

/-! ### Decoded instructions -/

/-- Whether an instruction can run at some height, if the stack is to be `final` cells
high at the end. -/
structure Instruction.Disciplined (final : Nat) (height : Int) (i : Instruction) : Prop where
  operands : (i.op.operands : Int) ≤ height
  ret : i.op = .ret → height = final
  define : i.op = .defineGlobal → height = 1
  getLocal : i.op = .getLocal → ∃ slot, i.operand = some slot ∧ (slot.toNat : Int) < height
  setLocal : i.op = .setLocal → ∃ slot, i.operand = some slot ∧ (slot.toNat : Int) + 1 < height

namespace Chunk

/-- Whether the whole code of a chunk is instructions that can run one after the other
from an empty stack on, up to a return at the end. -/
structure Disciplined (final : Nat) (c : Chunk) : Prop where
  decoded : c.code = (c.instructions.map Written.ofInstruction).flatMap Written.bytes
  returns : c.opcodes.getLast? = some .ret
  runs : ∀ before i after, c.instructions = before ++ i :: after →
    i.Disciplined final (heightOf (before.map Instruction.op))

/-- Whether the events of a program are those of the instructions in a chunk, with as many
cells as the instructions leave, and every access to a local finds the cell of the
declaration that its name refers to. -/
structure FindsLocals (c : Chunk) (events : List Event) : Prop where
  instructions : events.filterMap Event.written? = c.instructions.map Written.ofInstruction
  heights : ∀ before after, events = before ++ after →
    ((cellsAfter [] before).length : Int)
      = heightOf ((before.filterMap Event.written?).map Written.op)
  finds : ∀ before w target after, events = before ++ .run w target :: after →
    w.IsLocal → Finds (cellsAfter [] before) w.operand target

end Chunk

/-! ### From runs to instructions -/

theorem Finds.exists_lt {cells : List Cell} {operand : Option UInt8} {target : Option Token}
    (h : Finds cells operand target) :
    ∃ slot, operand = some slot ∧ slot.toNat < cells.length := by
  obtain ⟨slot, declaration, hoperand, -, hcell⟩ := h
  exact ⟨slot, hoperand, (List.getElem?_eq_some_iff.1 hcell).1⟩

/-- What is found below the top of the stack is found on the stack. -/
theorem Finds.of_dropLast {cells : List Cell} {operand : Option UInt8} {target : Option Token}
    (h : Finds cells.dropLast operand target) : Finds cells operand target := by
  obtain ⟨slot, declaration, hoperand, htarget, hcell⟩ := h
  refine ⟨slot, declaration, hoperand, htarget, ?_⟩
  rw [List.getElem?_dropLast] at hcell
  split at hcell
  · exact hcell
  · cases hcell

theorem Admissible.disciplined {final : Nat} {cells : List Cell} {target : Option Token}
    {i : Instruction} {height : Int}
    (h : Admissible final cells (Written.ofInstruction i) target)
    (hheight : (cells.length : Int) = height) : i.Disciplined final height := by
  subst hheight
  refine ⟨Int.ofNat_le.2 h.operands, fun hop => ?_, fun hop => ?_, fun hop => ?_,
    fun hop => ?_⟩
  · rw [h.ret hop]
  · rw [h.define hop]
    rfl
  · obtain ⟨slot, hoperand, hlt⟩ := (h.getLocal hop).exists_lt
    exact ⟨slot, hoperand, Int.ofNat_lt.2 hlt⟩
  · obtain ⟨slot, hoperand, hlt⟩ := (h.setLocal hop).exists_lt
    rw [List.length_dropLast] at hlt
    refine ⟨slot, hoperand, ?_⟩
    omega

namespace Chunk

variable {final : Nat} {c : Chunk} {events : List Event} {cells : List Cell}

/-- A chunk whose instructions are those of a run is disciplined. -/
theorem disciplined_of_runs {code : List Written} {line : Nat}
    (hruns : Runs final [] events cells)
    (hevents : events.filterMap Event.written? = code ++ [⟨.ret, none, line⟩])
    (hcode : c.code = (code ++ [(⟨.ret, none, line⟩ : Written)]).flatMap Written.bytes)
    (hinstructions : c.instructions.map Written.ofInstruction = code ++ [⟨.ret, none, line⟩]) :
    c.Disciplined final := by
  refine ⟨hinstructions ▸ hcode, ?_, ?_⟩
  · have hops : c.opcodes = (c.instructions.map Written.ofInstruction).map Written.op := by
      rw [List.map_map]
      rfl
    rw [hops, hinstructions, List.map_append, List.map_singleton, List.getLast?_concat]
  · intro before i after hsplit
    rw [← hinstructions, hsplit, List.map_append, List.map_cons] at hevents
    obtain ⟨first, rest, rfl, hfirst, hrest⟩ := List.filterMap_eq_append_iff.1 hevents
    obtain ⟨marks, event, others, rfl, hmarks, hevent, -⟩ := List.filterMap_eq_cons_iff.1 hrest
    cases event with
    | bind declaration => cases hevent
    | run w target =>
      obtain rfl := Option.some.inj hevent
      rw [← List.append_assoc] at hruns
      have hbefore : (first ++ marks).filterMap Event.written?
          = before.map Written.ofInstruction := by
        rw [List.filterMap_append, hfirst, List.filterMap_eq_nil_iff.2 hmarks, List.append_nil]
      refine hruns.admissible.disciplined ?_
      rw [hruns.height, hbefore, List.map_map, List.length_nil]
      exact Int.zero_add _

theorem findsLocals_of_runs (hruns : Runs final [] events cells)
    (hevents : events.filterMap Event.written? = c.instructions.map Written.ofInstruction) :
    c.FindsLocals events := by
  refine ⟨hevents, fun before after hsplit => ?_, fun before w target after hsplit hop => ?_⟩
  · rw [hsplit] at hruns
    rw [hruns.height, List.length_nil]
    exact Int.zero_add _
  · rw [hsplit] at hruns
    rcases hop with hop | hop
    · exact hruns.admissible.getLocal hop
    · exact (hruns.admissible.setLocal hop).of_dropLast

end Chunk

/-! ### Units -/

/-- The events of an expression that is a whole unit. -/
def Expr.unitTrace (e : Expr) (eof : Token) : List Event :=
  e.trace .global 0 ++ plainly [⟨.ret, none, eof.line⟩]

/-- The events of a program. -/
def Stmt.unitTrace (ss : List Stmt) (eof : Token) : List Event :=
  traceOf .global 0 ss ++ plainly [⟨.ret, none, eof.line⟩]

/-- A unit can return if the stack is as high as it is to be at the end. -/
theorem Runs.returns {final : Nat} {events : List Event} {cells : List Cell}
    (h : Runs final [] events cells) (hfinal : cells.length = final) (line : Nat) :
    Runs final [] (events ++ plainly [⟨.ret, none, line⟩]) cells := by
  have hw : Admissible final cells ⟨.ret, none, line⟩ none :=
    ⟨Nat.zero_le _, fun _ => hfinal, nofun, nofun, nofun⟩
  exact h.append (.kept hw rfl rfl)

theorem Expr.filterMap_unitTrace (e : Expr) (eof : Token) :
    (e.unitTrace eof).filterMap Event.written? = e.unitCode eof := by
  rw [unitTrace, List.filterMap_append, filterMap_trace, filterMap_plainly]
  rfl

theorem Stmt.filterMap_unitTrace (ss : List Stmt) (eof : Token) :
    (unitTrace ss eof).filterMap Event.written? = unitCode ss eof := by
  rw [unitTrace, List.filterMap_append, filterMap_traceOf, filterMap_plainly]
  rfl

theorem Expr.runs_unitTrace {e : Expr} {source : String} {eof : Token}
    (h : e.Spans source eof) : Runs 1 [] (e.unitTrace eof) [none] :=
  (e.runs Frames.housed_global.locals h.1 0).returns rfl eof.line

theorem Stmt.runs_unitTrace {ss : List Stmt} {source : String} {eof : Token}
    (h : Span ss source eof) (hvalid : ValidAll .global ss) : Runs 0 [] (unitTrace ss eof) [] := by
  have hruns : Runs 0 [] (traceOf .global 0 ss) (afterAll .global ss).cells :=
    runsAll Frames.housed_global h.1 hvalid 0
  rw [afterAll_global] at hruns
  exact hruns.returns rfl eof.line

/-- The instructions of a chunk are those that it was compiled to. -/
theorem Chunk.instructions_unit {c : Chunk} {code : List Written} {line : Nat}
    (hcode : c.code = (code ++ [(⟨.ret, none, line⟩ : Written)]).flatMap Written.bytes)
    (hfits : ∀ w ∈ code, w.Fits) :
    c.instructions.map Written.ofInstruction = code ++ [⟨.ret, none, line⟩] := by
  refine Chunk.instructions_flatMap hcode fun w hw => ?_
  rcases List.mem_append.1 hw with hw | hw
  · exact hfits w hw
  · rw [List.mem_singleton.1 hw]
    rfl

/-- A compiled program keeps the stack discipline and returns with an empty stack, and
every access to a local finds the cell that the initializer of the right declaration has
left. A compiled expression keeps it as well, returns with its value, and has no
local. -/
theorem compiled_stack_discipline (source : String) (strings stored : Interner)
    (chunk : Chunk) :
    (compile source strings = (.ok chunk, stored) →
      chunk.Disciplined 0
        ∧ ∃ (ss : List Stmt) (eof : Token), Span ss source eof
            ∧ chunk.FindsLocals (unitTrace ss eof))
    ∧ (compileExpression source strings = (.ok chunk, stored) →
      chunk.Disciplined 1 ∧ ∀ i ∈ chunk.instructions, ¬ (Written.ofInstruction i).IsLocal) := by
  constructor
  · intro hok
    obtain ⟨ss, eof, hspan, hvalid, -, hcode, -⟩ := compile_eq_ok_iff.1 hok
    have hinstructions := Chunk.instructions_unit hcode (codeOf_fits .global 0 ss)
    have hruns := runs_unitTrace hspan hvalid
    have hevents := filterMap_unitTrace ss eof
    refine ⟨Chunk.disciplined_of_runs hruns hevents hcode hinstructions, ss, eof, hspan, ?_⟩
    exact Chunk.findsLocals_of_runs hruns (hevents.trans hinstructions.symm)
  · intro hok
    obtain ⟨e, eof, hspans, -, hcode, -⟩ := compileExpression_eq_ok_iff.1 hok
    have hinstructions := Chunk.instructions_unit hcode (e.code_fits noLocals 0)
    have hruns := Expr.runs_unitTrace hspans
    have hevents := e.filterMap_unitTrace eof
    refine ⟨Chunk.disciplined_of_runs hruns hevents hcode hinstructions, fun i hi => ?_⟩
    have hmem := List.mem_map_of_mem (f := Written.ofInstruction) hi
    rw [hinstructions] at hmem
    rcases List.mem_append.1 hmem with hmem | hmem
    · exact e.not_isLocal 0 _ hmem
    · rw [List.mem_singleton.1 hmem]
      simp [Written.IsLocal]

/-- A block that reads its local. -/
theorem exists_compiled_local :
    ∃ chunk stored, compile "\x7bvar a;a;\x7d" .empty = (.ok chunk, stored)
      ∧ chunk.opcodes = [.pushNil, .getLocal, .pop, .pop, .ret] ∧ chunk.Disciplined 0
      ∧ ∃ (ss : List Stmt) (eof : Token), Span ss "\x7bvar a;a;\x7d" eof
          ∧ chunk.FindsLocals (unitTrace ss eof) := by
  have hok : compile "\x7bvar a;a;\x7d" .empty
      = (.ok ⟨[⟨1, 1⟩, ⟨5, 1⟩, ⟨0, 1⟩, ⟨4, 1⟩, ⟨4, 1⟩, ⟨20, 1⟩], []⟩, .empty) := by
    decide +kernel
  exact ⟨_, _, hok, by decide, (compiled_stack_discipline _ _ _ _).1 hok⟩

end OnePass
