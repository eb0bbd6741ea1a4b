import OnePass.Parser.Call
import OnePass.Proofs.Course.Expression
import OnePass.Proofs.Scope.Frames

/-!
# OnePass.Proofs.Scope.Refinement

The locals of the parser under any sequence of its operations, at any depth and in any
order. The parser never stores frames: it takes them from the end of one flat row, by the
depths of the locals. Each of its operations is nevertheless that of a stack of frames
(`perform_scope`), so that the row is the concatenation of the frames that opening, closing
and declaring have made (`performAll_scope`). What the operations reply is read off the
frames.
-/

namespace OnePass

open OnePass.Parser (Call)

namespace Frames

/-! ### Operations on frames -/

instance (f : Frames) (name : Token) : Decidable (f.CanDeclare name) :=
  inferInstanceAs (Decidable (_ ∧ _))

/-- Close the innermost block, if one is open. -/
def leave (f : Frames) : Frames :=
  match f.outer with
  | [] => f
  | frame :: outer => ⟨frame, outer⟩

/-- What an operation of the parser does to the names in scope. -/
def perform (f : Frames) : Call → Frames
  | .beginScope => f.enter
  | .endScope => f.leave
  | .declareLocal name => if f.CanDeclare name then f.declare [name] else f
  | _ => f

/-- Carry out operations one after the other. -/
def performAll (f : Frames) (calls : List Call) : Frames := calls.foldl perform f

/-! ### Frames that operations make -/

/-- No frame has a name twice, and there is a slot for every name. -/
structure Valid (f : Frames) : Prop where
  distinct : ∀ frame ∈ f.inner :: f.outer, (frame.map Token.lexeme).Nodup
  fits : f.inScope.length ≤ OpCode.operandCount

variable {f : Frames}

theorem valid_global : global.Valid := by
  refine ⟨fun frame hframe => ?_, Nat.zero_le _⟩
  rw [List.mem_singleton.1 hframe]
  exact List.nodup_nil

theorem Valid.enter (h : f.Valid) : f.enter.Valid := by
  refine ⟨fun frame hframe => ?_, ?_⟩
  · rcases List.mem_cons.1 hframe with rfl | hframe
    · exact List.nodup_nil
    · exact h.distinct frame hframe
  · rw [inScope_enter]
    exact h.fits

theorem Valid.leave (h : f.Valid) : f.leave.Valid := by
  obtain ⟨inner, outer⟩ := f
  cases outer with
  | nil => exact h
  | cons frame outer =>
    refine ⟨fun other hother => h.distinct other (List.mem_cons_of_mem _ hother), ?_⟩
    refine Nat.le_trans ?_ h.fits
    simp [Frames.leave, inScope]

theorem Valid.declare {name : Token} (h : f.Valid) (hname : f.CanDeclare name) :
    (f.declare [name]).Valid := by
  refine ⟨fun frame hframe => ?_, ?_⟩
  · rcases List.mem_cons.1 hframe with rfl | hframe
    · have hnew : ∀ t ∈ f.inner, t.lexeme ≠ name.lexeme := hname.1
      rw [Frames.declare, List.map_append, List.map_singleton, List.nodup_append]
      exact ⟨h.distinct _ List.mem_cons_self, by simp, by simpa using hnew⟩
    · exact h.distinct frame (List.mem_cons_of_mem _ hframe)
  · rw [inScope_declare, List.length_append]
    exact hname.2

theorem Valid.perform (h : f.Valid) (call : Call) : (f.perform call).Valid := by
  cases call with
  | beginScope => exact h.enter
  | endScope => exact h.leave
  | declareLocal name =>
    rw [Frames.perform]
    split
    · rename_i hname
      exact h.declare hname
    · exact h
  | _ => exact h

theorem Valid.performAll (h : f.Valid) (calls : List Call) : (f.performAll calls).Valid := by
  induction calls generalizing f with
  | nil => exact h
  | cons call rest ih => exact ih (h.perform call)

/-! ### Frames in one row -/

/-- The locals of the frames one after the other, from the outermost frame on. Each is as
deep as there are frames around its own. -/
def row (f : Frames) : List Local :=
  (f.inner :: f.outer).reverse.zipIdx.flatMap fun (frame, depth) => frame.map (⟨·, depth⟩)

theorem inOrder_scope (f : Frames) : f.scope.inOrder = f.row := by
  have hrow : ∀ frames : List (List Token), (locals frames).reverse
      = frames.reverse.zipIdx.flatMap fun (frame, depth) => frame.map (⟨·, depth⟩) := by
    intro frames
    induction frames with
    | nil => rfl
    | cons frame outer ih =>
      rw [locals, List.reverse_append, List.reverse_reverse, ih, List.reverse_cons,
        List.zipIdx_append, List.flatMap_append]
      simp
  exact hrow _

end Frames

namespace Parser

/-- The parser's row of locals is made of frames. -/
structure Holds (p : Parser) (f : Frames) : Prop where
  row : p.scope.inOrder = f.row
  depth : p.scope.depth = f.outer.length

variable {p : Parser} {f : Frames}

theorem holds_iff : p.Holds f ↔ p.scope = f.scope := by
  constructor
  · rintro ⟨hrow, hdepth⟩
    have hlocals : p.scope.locals = f.scope.locals :=
      List.reverse_inj.1 (hrow.trans f.inOrder_scope.symm)
    exact congrArg₂ Scope.mk hlocals hdepth
  · intro h
    exact ⟨h ▸ f.inOrder_scope, h ▸ rfl⟩

/-! ### Single operations -/

/-- A local is declared exactly if it can be in the innermost frame, and then on top. -/
theorem declareLocal_frames (h : p.scope = f.scope) (name : Token) :
    ((p.declareLocal name).1 = true ↔ f.CanDeclare name)
      ∧ (p.declareLocal name).2.scope = (f.perform (.declareLocal name)).scope := by
  rw [declareLocal, h, Frames.perform]
  split
  · rename_i scope hdeclare
    have hname := Frames.canDeclare_of_declare_scope hdeclare
    rw [Frames.declare_scope_of_canDeclare hname] at hdeclare
    rw [if_pos hname]
    exact ⟨iff_of_true rfl hname, (Except.ok.inj hdeclare).symm⟩
  · rename_i problem hdeclare
    have hname : ¬ f.CanDeclare name := fun hname => by
      cases hdeclare.symm.trans (Frames.declare_scope_of_canDeclare hname)
    rw [if_neg hname]
    exact ⟨iff_of_false Bool.false_ne_true hname, (p.errorAt_scope _ _).trans h⟩

/-- There is nothing to close outside of blocks. -/
theorem endScope_global (h : p.scope.depth = 0) : p.endScope = (0, p) := by
  have hleave : p.scope.leave = (0, p.scope) := by rw [Scope.leave, h]
  rw [endScope, hleave]
  rfl

/-- Closing a block takes off its frame, in the code as well. -/
theorem endScope_frames {inner frame : List Token} {outer : List (List Token)}
    (h : p.scope = Frames.scope ⟨inner, frame :: outer⟩) :
    p.endScope.1 = inner.length ∧ p.endScope.2.scope = Frames.scope ⟨frame, outer⟩
      ∧ p.endScope.2.chunk.code = p.chunk.code
        ++ List.replicate inner.length ⟨OpCode.pop.toByte, p.previous.line⟩ := by
  rw [endScope, h, Frames.scope_leave]
  refine ⟨rfl, (emitAll_does _ _).scope_eq rfl, ?_⟩
  rw [emitAll_code, List.map_replicate]

theorem endScope_scope (h : p.scope = f.scope) : p.endScope.2.scope = f.leave.scope := by
  obtain ⟨inner, outer⟩ := f
  cases outer with
  | nil =>
    rw [endScope_global (h ▸ rfl)]
    exact h
  | cons frame outer => exact (endScope_frames h).2.1

/-- A name has the slot of its latest declaration, as there is an operand for every slot. -/
theorem resolveLocal_frames (h : p.scope = f.scope) (hvalid : f.Valid) (name : Token) :
    (p.resolveLocal name).map UInt8.toNat = f.slot? name.lexeme := by
  rw [resolveLocal, h, Frames.slot?_scope]
  cases hslot : f.slot? name.lexeme with
  | none => rfl
  | some slot =>
    have hlt : slot < OpCode.operandCount :=
      Nat.lt_of_lt_of_le (Frames.latest?_lt hslot) hvalid.fits
    rw [Option.bind_some, OpCode.operand?_of_lt hlt, Option.map_some]
    exact congrArg some (UInt8.toNat_ofNat_of_lt hlt)

/-! ### Sequences of operations -/

/-- Every operation does to the row of locals what it does to the frames. -/
theorem perform_scope (h : p.scope = f.scope) (call : Call) :
    (p.perform call).2.scope = (f.perform call).scope := by
  cases call with
  | beginScope => exact congrArg Scope.enter h
  | endScope => exact endScope_scope h
  | declareLocal name => exact (declareLocal_frames h name).2
  -- No other operation changes the scope, and none that does not changes the frames.
  | _ =>
    refine ((p.perform_does _).scope_eq ?_).trans h
    simp only [Call.deeds]
    decide

theorem performAll_scope (h : p.scope = f.scope) (calls : List Call) :
    (p.performAll calls).scope = (f.performAll calls).scope := by
  induction calls generalizing p f with
  | nil => exact h
  | cons call rest ih => exact ih (perform_scope h call)

theorem start_scope (stream : TokenStream) (strings : Interner) :
    (start stream strings).scope = Frames.global.scope :=
  advance_scope _

/-! ### Names in the row -/

/-- A slot is the place of a local in the row. -/
theorem getElem?_inScope (h : p.scope = f.scope) (slot : Nat) :
    f.inScope[slot]? = (p.scope.inOrder[slot]?).map Local.name := by
  have hnames : f.scope.inOrder.map Local.name = f.inScope := Frames.map_name_locals _
  rw [← hnames, h, List.getElem?_map]

theorem resolveLocal_eq_some_iff (h : p.scope = f.scope) (hvalid : f.Valid) {name : Token}
    {slot : UInt8} :
    p.resolveLocal name = some slot ↔
      (∃ l, p.scope.inOrder[slot.toNat]? = some l ∧ l.name.lexeme = name.lexeme)
        ∧ ∀ j l, slot.toNat < j → p.scope.inOrder[j]? = some l →
          l.name.lexeme ≠ name.lexeme := by
  have hoperand : p.resolveLocal name = some slot ↔ f.slot? name.lexeme = some slot.toNat := by
    rw [← resolveLocal_frames h hvalid, Option.map_eq_some_iff]
    simp [UInt8.toNat_inj]
  rw [hoperand, Frames.slot?, Frames.latest?_eq_some_iff]
  simp only [getElem?_inScope h, Option.map_eq_some_iff]
  constructor
  · rintro ⟨⟨t, ⟨l, hl, rfl⟩, hname⟩, hlater⟩
    exact ⟨⟨l, hl, hname⟩, fun j l hj hl => hlater j l.name hj ⟨l, hl, rfl⟩⟩
  · rintro ⟨⟨l, hl, hname⟩, hlater⟩
    refine ⟨⟨l.name, ⟨l, hl, rfl⟩, hname⟩, fun j t hj ht => ?_⟩
    obtain ⟨l, hl, rfl⟩ := ht
    exact hlater j l hj hl

theorem resolveLocal_eq_none_iff (h : p.scope = f.scope) (hvalid : f.Valid) {name : Token} :
    p.resolveLocal name = none ↔ ∀ l ∈ p.scope.inOrder, l.name.lexeme ≠ name.lexeme := by
  rw [← Option.map_eq_none_iff, resolveLocal_frames h hvalid, Frames.slot?]
  have hnames : p.scope.inOrder.map Local.name = f.inScope := h ▸ Frames.map_name_locals _
  rw [Frames.latest?_eq_none_iff, ← hnames, List.forall_mem_map]

/-- The row of locals refines a stack of frames. After any sequence of operations it is the
concatenation of as many frames as blocks are open and one more, the frame of each depth
with the locals of that depth in the order of their declarations, no name twice in a frame,
and no more locals than slots. A local is declared exactly if the innermost frame does not
have its name and there is a slot left, and then added to that frame. Closing a block takes
off its frame, gives its length and writes as many pops; outside of blocks it changes
nothing. A name refers to the last local in the row that has it, to none exactly if none
has it. -/
theorem locals_refine_frames (stream : TokenStream) (strings : Interner) (calls : List Call) :
    let p := (start stream strings).performAll calls
    let f := Frames.global.performAll calls
    (p.Holds f ∧ f.Valid ∧ p.scope.inOrder.length ≤ OpCode.operandCount)
    ∧ (∀ name, ((p.declareLocal name).1 = true ↔
          (∀ t ∈ f.inner, t.lexeme ≠ name.lexeme)
            ∧ p.scope.inOrder.length < OpCode.operandCount)
        ∧ ((p.declareLocal name).1 = true → (p.declareLocal name).2.Holds (f.declare [name]))
        ∧ ((p.declareLocal name).1 = false → (p.declareLocal name).2.scope = p.scope))
    ∧ (f.outer = [] → p.endScope = (0, p))
    ∧ (∀ frame outer, f.outer = frame :: outer →
        p.endScope.1 = f.inner.length ∧ p.endScope.2.Holds ⟨frame, outer⟩
          ∧ p.endScope.2.chunk.code = p.chunk.code
            ++ List.replicate f.inner.length ⟨OpCode.pop.toByte, p.previous.line⟩)
    ∧ (∀ name slot, p.resolveLocal name = some slot ↔
        (∃ l, p.scope.inOrder[slot.toNat]? = some l ∧ l.name.lexeme = name.lexeme)
          ∧ ∀ j l, slot.toNat < j → p.scope.inOrder[j]? = some l → l.name.lexeme ≠ name.lexeme)
    ∧ ∀ name, p.resolveLocal name = none ↔
        ∀ l ∈ p.scope.inOrder, l.name.lexeme ≠ name.lexeme := by
  intro p f
  have hscope : p.scope = f.scope := performAll_scope (start_scope stream strings) calls
  have hvalid : f.Valid := Frames.valid_global.performAll calls
  have hlength : p.scope.inOrder.length = f.inScope.length := by
    rw [Scope.inOrder, List.length_reverse, hscope, Frames.length_locals]
  refine ⟨⟨holds_iff.2 hscope, hvalid, hlength ▸ hvalid.fits⟩, fun name => ?_, fun houter => ?_,
    fun frame outer houter => ?_, fun name slot => ?_, fun name => ?_⟩
  · obtain ⟨hreply, hafter⟩ := declareLocal_frames hscope name
    refine ⟨?_, fun hdeclared => ?_, fun hrefused => ?_⟩
    · rw [hlength]
      exact hreply
    · rw [Frames.perform, if_pos (hreply.1 hdeclared)] at hafter
      exact holds_iff.2 hafter
    · have hname : ¬ f.CanDeclare name := fun hname => by
        cases hrefused.symm.trans (hreply.2 hname)
      rw [Frames.perform, if_neg hname] at hafter
      exact hafter.trans hscope.symm
  · refine endScope_global ?_
    rw [hscope]
    exact congrArg List.length houter
  · have hframes : p.scope = Frames.scope ⟨f.inner, frame :: outer⟩ := houter ▸ hscope
    obtain ⟨hcount, hafter, hcode⟩ := endScope_frames hframes
    exact ⟨hcount, holds_iff.2 hafter, hcode⟩
  · exact resolveLocal_eq_some_iff hscope hvalid
  · exact resolveLocal_eq_none_iff hscope hvalid

end Parser

end OnePass
