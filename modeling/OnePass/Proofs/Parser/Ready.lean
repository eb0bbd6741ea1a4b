import OnePass.Proofs.Code.Statement
import OnePass.Proofs.Parser.Expression

/-!
# OnePass.Proofs.Parser.Ready

The states that the parser is in between statements. They fit the frames of names that
are in scope (`Ready`), and the parser goes from one to the next when it compiles a
statement (`ran`) or several (`ranAll`).

A statement is compiled to a state that is given by an equation (`ran`), of which the scope is a
part. So statements in a row compose as code and constants do, and a block is its body between two
changes of the scope.
-/

namespace OnePass

namespace Parser

open Stmt

/-! ### States between statements -/

/-- The parser with other names in scope. -/
def rescope (p : Parser) (scope : Scope) : Parser := { p with scope }

@[simp] theorem moveTo_rescope (p : Parser) (scope : Scope) (last : Token) (rest : List Token) :
    (p.rescope scope).moveTo last rest = (p.moveTo last rest).rescope scope := rfl

@[simp] theorem write_rescope (p : Parser) (scope : Scope) (code : List Written)
    (constants : List Constant) :
    (p.rescope scope).write code constants = (p.write code constants).rescope scope := rfl

@[simp] theorem rescope_rescope (p : Parser) (scope scope' : Scope) :
    (p.rescope scope).rescope scope' = p.rescope scope' := rfl

@[simp] theorem poolSize_rescope (p : Parser) (scope : Scope) :
    (p.rescope scope).poolSize = p.poolSize := rfl

/-- The parser in front of a statement: no expression is open, there is no panic, and the
names of the frames `f` are in scope. -/
structure Ready (p : Parser) (f : Frames) (ts : List Token) : Prop where
  stands : p.At ts
  scope_eq : p.scope = f.scope
  locals : f.inScope.length ≤ OpCode.operandCount
  nesting : p.nesting = 0
  pool : p.poolSize ≤ OpCode.operandCount
  calm : p.mode = .normal

namespace Ready

variable {p : Parser} {f : Frames} {ts : List Token}

theorem moveTo (h : p.Ready f ts) (last : Token) (rest : List Token) :
    (p.moveTo last rest).Ready f rest :=
  ⟨at_moveTo _ _ _, h.scope_eq, h.locals, h.nesting, h.pool, h.calm⟩

theorem write (h : p.Ready f ts) (code : List Written) {constants : List Constant}
    (hpool : p.poolSize + constants.length ≤ OpCode.operandCount) :
    (p.write code constants).Ready f ts :=
  ⟨h.stands.write _ _, h.scope_eq, h.locals, h.nesting, poolSize_write .. ▸ hpool, h.calm⟩

theorem rescope (h : p.Ready f ts) {g : Frames}
    (hlocals : g.inScope.length ≤ OpCode.operandCount) : (p.rescope g.scope).Ready g ts :=
  ⟨h.stands, rfl, hlocals, h.nesting, h.pool, h.calm⟩

/-- Every local in scope has a slot, so that names are looked up as the frames say. -/
theorem slots_eq (h : p.Ready f ts) : p.slots = f.slots := by
  funext name
  rw [slots, h.scope_eq, Frames.slot?_scope, Frames.slots]
  cases hslot : f.slot? name with
  | none => rfl
  | some slot =>
    exact OpCode.operand?_of_lt (Nat.lt_of_lt_of_le (Frames.latest?_lt hslot) h.locals)

/-- The depth of the scope counts the open blocks, and the frames have one entry for each. -/
theorem depth_pos_iff (h : p.Ready f ts) : 0 < p.scope.depth ↔ f.isGlobal = false := by
  rw [h.scope_eq, Frames.isGlobal, List.isEmpty_eq_false_iff]
  exact List.length_pos_iff

/-- Opening a block is entering a frame. -/
theorem beginScope_eq (h : p.Ready f ts) : p.beginScope = p.rescope f.enter.scope := by
  rw [beginScope, h.scope_eq, ← Frames.scope_enter]
  rfl

/-- Opening a block leaves the locals as they are. -/
theorem enter (h : p.Ready f ts) : (p.rescope f.enter.scope).Ready f.enter ts :=
  h.rescope (f.inScope_enter ▸ h.locals)

/-- Compiling an expression between statements. -/
theorem compiled_eq (h : p.Ready f ts) (e : Expr) (rest : List Token) :
    p.compiled e rest
      = (p.moveTo e.last rest).write (e.code f.slots p.poolSize) (e.constants f.slots) := by
  rw [compiled, h.slots_eq]

end Ready

/-- The parser behind a statement that it has compiled. -/
def ran (p : Parser) (f : Frames) (s : Stmt) (rest : List Token) : Parser :=
  ((p.moveTo s.last rest).write (s.code f p.poolSize) (s.constants f)).rescope (s.after f).scope

/-- A statement that declares nothing leaves the names in scope as they are. -/
theorem Ready.eq_ran {p : Parser} {f : Frames} {ts : List Token} (h : p.Ready f ts) {s : Stmt}
    (hafter : s.after f = f) (rest : List Token) :
    (p.moveTo s.last rest).write (s.code f p.poolSize) (s.constants f) = p.ran f s rest := by
  rw [ran, hafter, ← h.scope_eq]
  rfl

/-- Whether the parser has compiled a statement that keeps the static rules, from a state
`p` in front of `ts` on, and is now in the state `q`. -/
abbrev HasRun (p : Parser) (f : Frames) (ts : List Token) (q : Parser) : Prop :=
  ∃ s rest, s.Derived ∧ ts = s.tokens ++ rest ∧ s.Valid f
    ∧ p.poolSize + (s.constants f).length ≤ OpCode.operandCount ∧ q = p.ran f s rest

/-- A statement takes a token, so that less is left behind it. -/
theorem Ready.tokensLeft_ran_lt {p : Parser} {f : Frames} {s : Stmt} {rest : List Token}
    (h : p.Ready f (s.tokens ++ rest)) (hs : s.Derived) :
    (p.ran f s rest).tokensLeft < p.tokensLeft := by
  have hbehind : (p.ran f s rest).At rest := ⟨rfl, rfl⟩
  -- The first token of a statement is no end, so it is one of those that are left.
  have hnot := hs.not_ends rest
  have hstands := h.stands
  cases htokens : s.tokens with
  | nil => exact absurd htokens s.tokens_ne_nil
  | cons t ts =>
    rw [htokens, List.cons_append] at hstands hnot
    have hkind : t.kind ≠ .eof := fun hkind => hnot (.inr hkind)
    have hle := hbehind.tokensLeft_le
    rw [hstands.tokensLeft_cons hkind, List.length_append]
    omega

/-- The last token of statements that stand behind a token. -/
def lastOf (before : Token) : List Stmt → Token
  | [] => before
  | s :: rest => lastOf s.last rest

/-- The parser behind statements that it has compiled. -/
def ranAll (p : Parser) (f : Frames) (ss : List Stmt) (rest : List Token) : Parser :=
  ((p.moveTo (lastOf p.previous ss) rest).write (codeOf f p.poolSize ss)
    (constantsOf f ss)).rescope (afterAll f ss).scope

theorem at_ranAll (p : Parser) (f : Frames) (ss : List Stmt) (rest : List Token) :
    (p.ranAll f ss rest).At rest :=
  ⟨rfl, rfl⟩

/-- Behind no statement the parser is where it was, also as an equation of states. -/
theorem ranAll_nil {p : Parser} {f : Frames} {ts : List Token} (h : p.Ready f ts) :
    p.ranAll f [] ts = p := by
  obtain ⟨hcurrent, hpending⟩ := h.stands
  have hscope : (afterAll f []).scope = p.scope := h.scope_eq.symm
  rw [ranAll, codeOf, constantsOf, write_nil, hscope]
  unfold Parser.moveTo Parser.rescope lastOf
  rw [← hcurrent, ← hpending]

/-- Behind a statement and those that follow it, in one step. The pool and the scope of the first
are those that the others start with. -/
theorem ranAll_cons (p : Parser) (f : Frames) (s : Stmt) (ss : List Stmt)
    (mid rest : List Token) :
    (p.ran f s mid).ranAll (s.after f) ss rest = p.ranAll f (s :: ss) rest := by
  have hprevious : (p.ran f s mid).previous = s.last := rfl
  have hpool : (p.ran f s mid).poolSize = p.poolSize + (s.constants f).length :=
    poolSize_write ..
  rw [ranAll, hprevious, hpool, ran, ranAll]
  simp only [moveTo_rescope, write_rescope, rescope_rescope, write_moveTo, moveTo_moveTo,
    write_write, codeOf, constantsOf, afterAll, lastOf]

/-- Behind a statement that keeps the rules the parser is ready for the next one. -/
theorem Ready.ran {p : Parser} {f : Frames} {ts : List Token} {s : Stmt} (h : p.Ready f ts)
    (hvalid : s.Valid f)
    (hpool : p.poolSize + (s.constants f).length ≤ OpCode.operandCount) (rest : List Token) :
    (p.ran f s rest).Ready (s.after f) rest :=
  ((h.moveTo s.last rest).write _ hpool).rescope (length_inScope_after h.locals hvalid)

end Parser

end OnePass
