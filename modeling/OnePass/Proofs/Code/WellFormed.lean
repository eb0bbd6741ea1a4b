import Mathlib.Algebra.GroupWithZero.Nat
import OnePass.Proofs.Course.Statement

/-!
# OnePass.Proofs.Code.WellFormed

The code of a unit is well formed whatever its tokens are, also where it is dropped because
of an error: it is decoded to its end, returns there and nowhere else, and refers to
constants that are in the pool. Every emission is sound in the state in which it is made
(`Emission.Sound`), and what follows only adds to the pool (`Does.constants_prefix`);
the code of a course is that of its emissions (`ExprCourse.writes`, `Course.writes`).

An error does not stop the parser from writing, so that nothing here may assume that there was
none. What an emission refers to is in the pool or in the scope when it is made, whether or not it
is what the source asked for; only that the constant of a global is a text needs an error-free
run.
-/

namespace OnePass

/-! ### What operands are for -/

namespace OpCode

/-- Whether the operand is the index of the name of a global. -/
def refersToName : OpCode → Bool
  | .getGlobal | .setGlobal | .defineGlobal => true
  | _ => false

/-- Whether the operand is the slot of a local. -/
def refersToSlot : OpCode → Bool
  | .getLocal | .setLocal => true
  | _ => false

/-- There are two kinds of operands, indices of constants and slots. -/
theorem takesOperand_eq (op : OpCode) :
    op.takesOperand = (op.refersToConstant || op.refersToSlot) := by
  cases op <;> rfl

theorem refersToConstant_of_refersToName {op : OpCode} (h : op.refersToName = true) :
    op.refersToConstant = true := by
  revert h; cases op <;> decide

end OpCode

namespace Parser

variable {p q r : Parser} {deed : Deed} {deeds : Footprint}

/-! ### The pool grows -/

/-- Constants are only appended, and by one action. -/
theorem Action.constants_prefix (h : Action deed p q) :
    p.chunk.constants <+: q.chunk.constants := by
  cases h with
  | pool value => exact List.prefix_append _ _
  | advance => simp
  | blame | report => simp [error]
  | _ => exact List.prefix_refl _

/-- So a constant that an instruction refers to is still there when the unit has ended. -/
theorem Does.constants_prefix (h : Does deeds p q) : p.chunk.constants <+: q.chunk.constants :=
  h.keeps (motive := fun r => p.chunk.constants <+: r.chunk.constants)
    (fun _ haction hr => hr.trans haction.constants_prefix) (List.prefix_refl _)

/-- A constant stays where it is in the pool. -/
theorem Does.constant? (h : Does deeds p q) {index : UInt8} {value : Value}
    (hvalue : p.chunk.constant? index = some value) :
    q.chunk.constant? index = some value := by
  obtain ⟨added, hadded⟩ := h.constants_prefix
  have hlt := (List.getElem?_eq_some_iff.1 hvalue).1
  rw [Chunk.constant?, ← hadded, List.getElem?_append_left hlt]
  exact hvalue

/-! ### Constants and names -/

/-- Whether an index is one of the pool, and of a text unless there has been an error. -/
def Names (p : Parser) (index : UInt8) : Prop :=
  index.toNat < p.chunk.constants.length
    ∧ (p.hadError = false → ∃ handle, p.chunk.constant? index = some (.text handle))

/-- Whether a place is in the scope or the pool of a state. -/
def Place.Known (place : Place) (p : Parser) : Prop :=
  match place with
  | .slot i => i.toNat < p.scope.locals.length
  | .global i => p.Names i

/-- A new constant is in the pool, and its index is its place there unless there is none
that fits an operand. -/
theorem makeConstant_index (p : Parser) (value : Value) :
    (p.makeConstant value).1.toNat < (p.makeConstant value).2.chunk.constants.length
      ∧ ((p.makeConstant value).2.hadError = false →
        (p.makeConstant value).2.chunk.constant? (p.makeConstant value).1 = some value) := by
  have hconstants := p.makeConstant_constants value
  rw [Chunk.constant?, hconstants, List.length_append, List.length_singleton]
  unfold makeConstant
  dsimp only
  split
  · rename_i index hindex
    have hplace : index.toNat = p.chunk.constants.length := OpCode.toNat_of_operand?_eq_some hindex
    rw [hplace]
    exact ⟨Nat.lt_succ_self _, fun _ => List.getElem?_concat_length⟩
  · refine ⟨Nat.succ_pos _, fun hnone => ?_⟩
    rw [error, errorAt_hadError] at hnone
    cases hnone

/-- A text that does not fit the pool gets an index as well, which is one of the pool but not that
of the text. -/
theorem makeText_names (p : Parser) (text : String) :
    (p.makeText text).2.Names (p.makeText text).1 := by
  obtain ⟨hlt, htext⟩ := makeConstant_index { p with strings := (p.strings.intern text).2 }
    (.text (p.strings.intern text).1)
  exact ⟨hlt, fun hnone => ⟨_, htext hnone⟩⟩

/-- What a name refers to is there. -/
theorem place_known (p : Parser) (name : Token) : (p.place name).1.Known (p.place name).2 := by
  unfold place
  split
  · rename_i slot hslot
    obtain ⟨n, hn, hoperand⟩ := Option.bind_eq_some_iff.1 hslot
    have hlt := Scope.slotIn?_lt hn
    rwa [← OpCode.toNat_of_operand?_eq_some hoperand] at hlt
  · exact p.makeText_names name.lexeme

/-- An index stays one of the pool. Without an error at the end there was none before, so the text
is still there. -/
theorem Names.later {index : UInt8} (h : p.Names index) (hreach : Does deeds p q) :
    q.Names index := by
  refine ⟨Nat.lt_of_lt_of_le h.1 hreach.constants_prefix.length_le, fun hnone => ?_⟩
  obtain ⟨handle, hhandle⟩ := h.2 (hreach.no_error hnone)
  exact ⟨handle, hreach.constant? hhandle⟩

/-- A place stays where it is as long as the scope does. -/
theorem Place.Known.later {place : Place} (h : place.Known p) (hreach : Does deeds p q)
    (hscope : q.scope = p.scope) : place.Known q := by
  cases place with
  | slot i =>
    show i.toNat < q.scope.locals.length
    rw [hscope]
    exact h
  | global i => exact Names.later h hreach

end Parser

/-! ### Sound emissions -/

/-- An emission that fits its opcode, does not return, and refers to what there is in the
state in which it is made. After an error the constant of a global need not be its name. -/
structure Emission.Sound (e : Emission) : Prop where
  fits : e.written.Fits
  goesOn : e.op ≠ .ret
  pooled : e.op.refersToConstant = true →
    ∃ index, e.operand = some index ∧ index.toNat < e.state.chunk.constants.length
  named : e.op.refersToName = true → ∃ index, e.operand = some index ∧ e.state.Names index
  slot : e.op.refersToSlot = true →
    ∃ slot, e.operand = some slot ∧ slot.toNat < e.state.scope.locals.length

namespace Parser

variable {p q r : Parser}

/-- Instructions without operands are sound wherever they are written. -/
theorem sound_plain {op : OpCode} (hop : op.takesOperand = false) (hret : op ≠ .ret) :
    Emission.Sound ⟨p, op, none⟩ := by
  have hnone := hop
  rw [OpCode.takesOperand_eq, Bool.or_eq_false_iff] at hnone
  refine ⟨hop.symm, hret, fun h => ?_, fun h => ?_, fun h => ?_⟩
  · cases hnone.1.symm.trans h
  · cases hnone.1.symm.trans (OpCode.refersToConstant_of_refersToName h)
  · cases hnone.2.symm.trans h

theorem sound_constant {index : UInt8} (h : index.toNat < p.chunk.constants.length) :
    Emission.Sound ⟨p, .constant, some index⟩ :=
  ⟨rfl, nofun, fun _ => ⟨index, rfl, h⟩, nofun, nofun⟩

theorem sound_name {op : OpCode} {index : UInt8} (hop : op.refersToName = true)
    (h : p.Names index) : Emission.Sound ⟨p, op, some index⟩ := by
  refine ⟨?_, ?_, fun _ => ⟨index, rfl, h.1⟩, fun _ => ⟨index, rfl, h⟩, ?_⟩ <;>
    revert hop <;> cases op <;> simp [OpCode.refersToName, OpCode.refersToSlot, Emission.written,
      Written.Fits, OpCode.takesOperand]

/-- A slot is sound if a local has it at the time. -/
theorem sound_slot {op : OpCode} {slot : UInt8} (hop : op.refersToSlot = true)
    (h : slot.toNat < p.scope.locals.length) : Emission.Sound ⟨p, op, some slot⟩ := by
  refine ⟨?_, ?_, ?_, ?_, fun _ => ⟨slot, rfl, h⟩⟩ <;>
    revert hop <;> cases op <;> simp [OpCode.refersToName, OpCode.refersToSlot, Emission.written,
      Written.Fits, OpCode.takesOperand, OpCode.refersToConstant]

theorem sound_get {place : Place} (h : place.Known p) :
    Emission.Sound ⟨p, place.getCode, some place.operand⟩ := by
  cases place with
  | slot i => exact sound_slot rfl h
  | global i => exact sound_name rfl h

theorem sound_set {place : Place} (h : place.Known p) :
    Emission.Sound ⟨p, place.setCode, some place.operand⟩ := by
  cases place with
  | slot i => exact sound_slot rfl h
  | global i => exact sound_name rfl h

/-! ### Written code -/

/-- Between two states the code of some sound emissions is written, and no other. -/
structure Writes (p : Parser) (log : List Emission) (q : Parser) : Prop where
  reaches : Reaches p q
  code : q.chunk.code = p.chunk.code ++ log.flatMap fun e => e.written.bytes
  sound : ∀ e ∈ log, e.Sound ∧ Reaches e.state q

section Writes

variable {log log' : List Emission}

/-- What does not write leaves the code as it is. -/
theorem Does.writes (h : Does deeds p q) (hquiet : deeds.lacks .write) : Writes p [] q where
  reaches := h.reaches
  code := by rw [h.code_eq hquiet, List.flatMap_nil, List.append_nil]
  sound := fun _ he => absurd he List.not_mem_nil

theorem Writes.refl (p : Parser) : Writes p [] p := by
  have hnothing : Does [] p p := .refl
  exact hnothing.writes rfl

/-- Codes are appended, and what was sound remains so. -/
theorem Writes.trans (h : Writes p log q) (h' : Writes q log' r) : Writes p (log ++ log') r := by
  refine ⟨h.reaches.trans h'.reaches, ?_, fun e he => ?_⟩
  · rw [h'.code, h.code, List.flatMap_append, List.append_assoc]
  · rcases List.mem_append.1 he with he | he
    · exact (h.sound e he).imp_right (·.trans h'.reaches)
    · exact h'.sound e he

/-- What writes nothing can go before or after. -/
theorem Writes.behind (h : Writes q log r) (hdoes : Does deeds p q) (hquiet : deeds.lacks .write) :
    Writes p log r :=
  (hdoes.writes hquiet).trans h

theorem Writes.before (h : Writes p log q) (hdoes : Does deeds q r) (hquiet : deeds.lacks .write) :
    Writes p log r :=
  log.append_nil ▸ h.trans (hdoes.writes hquiet)

/-- Where one emission is written, it is behind all that there was. -/
theorem Action.writes {e : Emission} (h : Action .write e.state q) (hsound : e.Sound)
    (hcode : q.chunk.code = e.state.chunk.code ++ e.written.bytes) : Writes e.state [e] q := by
  refine ⟨h.does.reaches, by rw [hcode, List.flatMap_singleton], fun e' he' => ?_⟩
  obtain rfl := List.mem_singleton.1 he'
  exact ⟨hsound, h.does.reaches⟩

theorem emit_writes {op : OpCode} (h : Emission.Sound ⟨p, op, none⟩) :
    Writes p [⟨p, op, none⟩] (p.emit op) :=
  (Action.emit p op).writes h rfl

theorem emitWith_writes {op : OpCode} {operand : UInt8}
    (h : Emission.Sound ⟨p, op, some operand⟩) :
    Writes p [⟨p, op, some operand⟩] (p.emitWith op operand) :=
  (Action.emitWith p op operand).writes h rfl

/-- Instructions without operands that do not return. -/
theorem emitAll_writes {ops : List OpCode}
    (h : ∀ op ∈ ops, op.takesOperand = false ∧ op ≠ .ret) :
    Writes p (p.emissions ops) (p.emitAll ops) := by
  induction ops generalizing p with
  | nil => exact .refl p
  | cons op rest ih =>
    obtain ⟨hop, hret⟩ := h op List.mem_cons_self
    have hfirst : Writes p [⟨p, op, none⟩] (p.emit op) := emit_writes (sound_plain hop hret)
    exact hfirst.trans (ih fun op' hop' => h op' (List.mem_cons_of_mem _ hop'))

theorem binary_code_plain (op : BinaryOp) :
    ∀ code ∈ op.code, code.takesOperand = false ∧ code ≠ .ret := by
  cases op <;> decide

end Writes

/-! ### Expressions -/

/-- One case for each rule: all that is not an emission is read off the footprints, and each
emission is sound in its state. -/
theorem ExprCourse.writes {task : ExprTask} {log : List Emission}
    (h : ExprCourse task p log q) : Writes p log q := by
  induction h with
  | refused | invalid => exact (error_does _ _).writes rfl
  | @nested min p log q h inside ih =>
    have hopened := ih.behind (Action.nest p _).does rfl
    exact hopened.before (Action.nest q _).does rfl
  | missing => exact ((advance_does _).append (error_does _ _)).writes rfl
  | climb h left rest ihleft ihrest =>
    have hboth := (ihleft.behind (advance_does _) rfl).trans ihrest
    exact hboth.before (rejectTarget_does _ _) rfl
  | group inside ih => exact ih.before (consume_does _ _ _) rfl
  | @unary _ op _ _ _ inside ih =>
    exact ih.trans (emit_writes (sound_plain (by cases op <;> rfl) (by cases op <;> nofun)))
  | @word _ literal _ =>
    exact emit_writes (sound_plain (by cases literal <;> rfl) (by cases literal <;> nofun))
  | @number _ p x h =>
    have hsound := sound_constant (p.makeConstant_index (.number x)).1
    exact (emitWith_writes hsound).behind (makeConstant_does _ _) rfl
  | @string _ p =>
    have hsound := sound_constant (p.makeText_names p.previous.contents).1
    exact (emitWith_writes hsound).behind (makeText_does _ _) rfl
  | @read _ p h =>
    rw [Place.emitGet_eq]
    have hget := emitWith_writes (sound_get (p.place_known p.previous))
    exact hget.behind (place_does _ _) rfl
  | @assign _ p log q h value ih =>
    rw [Place.emitSet_eq]
    have hvalue := ih.behind (advance_does _) rfl
    -- The place is looked up in front of the value and written behind it.
    have hplace : (p.place p.previous).1.Known q :=
      (p.place_known p.previous).later hvalue.reaches
        (((advance_does _).kept rfl).trans value.kept).scope
    have hset := emitWith_writes (sound_set hplace)
    exact (hvalue.behind (place_does _ _) rfl).trans hset
  | stop => exact .refl _
  | @operator _ _ op log q _ _ h hmin right rest ihright ihrest =>
    have hcode : Writes q (q.emissions op.code) (q.emitAll op.code) :=
      emitAll_writes (binary_code_plain op)
    exact ((ihright.behind (advance_does _) rfl).trans hcode).trans ihrest

/-! ### Statements -/

/-- A local writes nothing when it comes into being. -/
theorem define_writes (p : Parser) (name : Token) :
    Writes p (p.definition name) (p.define name) := by
  unfold definition define
  split
  · exact (p.declareLocal_does name).writes rfl
  · have hsound : Emission.Sound ⟨_, .defineGlobal, some _⟩ :=
      sound_name rfl (p.makeText_names name.lexeme)
    exact (emitWith_writes hsound).behind (p.makeText_does name.lexeme) rfl

/-- At the end of a block there are as many pops as locals. -/
theorem endScope_writes (p : Parser) : Writes p p.closing p.endScope.2 := by
  refine (emitAll_writes fun op hop => ?_).behind (Action.rescope p _).does rfl
  rw [(List.mem_replicate.1 hop).2]
  exact ⟨rfl, nofun⟩

/-- All but the return at the end of a unit. -/
theorem Course.writes {task : UnitTask} {log : List Mark} (h : Course task p log q)
    (htask : ∀ unit, task ≠ .unit unit) : Writes p (emissionsOf log) q := by
  -- Each rule is put together from its parts in the order of the rule; marks of declarations are
  -- no emissions.
  induction h with
  | found | done => exact .refl _
  | skip h rest ih => exact (ih nofun).behind (advance_does _) rfl
  | value h value =>
    rw [emissionsOf_map]
    exact value.writes.behind (advance_does _) rfl
  | noValue => exact emit_writes (sound_plain rfl nofun)
  | @var p _ _ h value ih =>
    rw [emissionsOf_append, emissionsOf_map]
    have hname := p.advance_does.append (consume_does _ .identifier .variableNameMissing)
    have hvalue := ((ih nofun).behind hname (by decide)).before
      (consume_does _ .semicolon .declarationEndMissing) rfl
    exact hvalue.trans (define_writes _ _)
  | print h value =>
    rw [emissionsOf_append, emissionsOf_map]
    have hvalue := (value.writes.behind (advance_does _) rfl).before
      (consume_does _ .semicolon .valueEndMissing) rfl
    exact hvalue.trans (emit_writes (sound_plain rfl nofun))
  | @block p _ _ h inside ih =>
    rw [emissionsOf_append, emissionsOf_map]
    have hopen := p.advance_does.append (beginScope_does _)
    have hinside := ((ih nofun).behind hopen (by decide)).before
      (consume_does _ .rightBrace .blockEndMissing) rfl
    exact hinside.trans (endScope_writes _)
  | expression h value =>
    rw [emissionsOf_append, emissionsOf_map]
    have hvalue := value.writes.before (consume_does _ .semicolon .expressionEndMissing) rfl
    exact hvalue.trans (emit_writes (sound_plain rfl nofun))
  | calm body h ih => exact ih nofun
  | panic body h skip ihbody ihskip =>
    rw [emissionsOf_cons_declaration, emissionsOf_append]
    exact ((ihbody nofun).trans (ihskip nofun)).before (Action.recover _).does rfl
  | more h first rest ihfirst ihrest =>
    rw [emissionsOf_append]
    exact (ihfirst nofun).trans (ihrest nofun)
  | program | single => exact absurd rfl (htask _)

/-- A unit returns at its end. -/
theorem Course.unit_writes {unit : UnitKind} {log : List Mark}
    (h : Course (.unit unit) p log r) :
    ∃ log' q, emissionsOf log = log' ++ [⟨q, .ret, none⟩] ∧ Writes p log' q
      ∧ r = q.emit .ret := by
  cases h with
  | program all =>
    exact ⟨_, _, by simp, (all.writes nofun).before (advance_does _) rfl, rfl⟩
  | single value =>
    exact ⟨_, _, by simp, value.writes.before (consume_does _ _ _) rfl, rfl⟩

end Parser

/-! ### Chunks -/

/-- An instruction that has its operand is as long as its opcode says. -/
theorem Written.length_bytes {w : Written} (h : w.Fits) : w.bytes.length = 1 + w.op.width := by
  obtain ⟨op, operand, line⟩ := w
  have hfits : operand.isSome = op.takesOperand := h
  rw [OpCode.width, ← hfits]
  cases operand <;> rfl

/-- The widths of the instructions that code was written from add up to its length. -/
theorem Chunk.sum_size_instructions {c : Chunk} {written : List Written}
    (hcode : c.code = written.flatMap Written.bytes) (hfits : ∀ w ∈ written, w.Fits) :
    (c.instructions.map Instruction.size).sum = c.size := by
  have hsize : Instruction.size = (fun w : Written => 1 + w.op.width) ∘ Written.ofInstruction := rfl
  rw [hsize, ← List.map_map, Chunk.instructions_flatMap hcode hfits, Chunk.size, hcode,
    List.length_flatMap]
  exact congrArg List.sum (List.map_congr_left fun w hw => (Written.length_bytes (hfits w hw)).symm)

/-- Code that is decoded to its very end, that returns there and nowhere else, and whose
constants are all in the pool. -/
structure Chunk.WellFormed (c : Chunk) : Prop where
  decoded : (c.instructions.map Instruction.size).sum = c.size
  returns : ∃ before last, c.instructions = before ++ [last] ∧ last.op = .ret
    ∧ ∀ i ∈ before, i.op ≠ .ret
  pooled : ∀ i ∈ c.instructions, i.op.refersToConstant = true →
    ∃ index, i.operand = some index ∧ index.toNat < c.constants.length

namespace Parser

section Returned

variable {p q : Parser} {log : List Emission} {i : Instruction}

/-- What stands in the code when what has been written returns. -/
theorem Writes.returned_code (h : Writes p log q) (hempty : p.chunk.code = []) :
    (q.emit .ret).chunk.code
      = (log.map Emission.written ++ [(⟨.ret, none, q.previous.line⟩ : Written)]).flatMap
          Written.bytes := by
  rw [emit_code, h.code, hempty, List.flatMap_append, List.flatMap_map]
  rfl

/-- Every emission has its operand, and the return has none. -/
theorem Writes.returned_fits (h : Writes p log q) :
    ∀ w ∈ log.map Emission.written ++ [(⟨.ret, none, q.previous.line⟩ : Written)], w.Fits := by
  intro w hw
  rcases List.mem_append.1 hw with hw | hw
  · obtain ⟨e, he, rfl⟩ := List.mem_map.1 hw
    exact (h.sound e he).1.fits
  · rw [List.mem_singleton.1 hw]
    rfl

theorem Writes.returned_instructions (h : Writes p log q) (hempty : p.chunk.code = []) :
    (q.emit .ret).chunk.instructions.map Written.ofInstruction
      = log.map Emission.written ++ [(⟨.ret, none, q.previous.line⟩ : Written)] :=
  Chunk.instructions_flatMap (h.returned_code hempty) h.returned_fits

/-- Every instruction but the return is a sound emission, the state of which is behind. -/
theorem Writes.exists_emission (h : Writes p log q) (hempty : p.chunk.code = [])
    (hi : i ∈ (q.emit .ret).chunk.instructions) (hop : i.op ≠ .ret) :
    ∃ e : Emission, e.op = i.op ∧ e.operand = i.operand ∧ e.Sound
      ∧ Reaches e.state (q.emit .ret) := by
  have hmem := List.mem_map_of_mem (f := Written.ofInstruction) hi
  rw [h.returned_instructions hempty] at hmem
  rcases List.mem_append.1 hmem with hmem | hmem
  · obtain ⟨e, he, hwritten⟩ := List.mem_map.1 hmem
    obtain ⟨hsound, hlater⟩ := h.sound e he
    exact ⟨e, (Written.mk.inj hwritten).1, (Written.mk.inj hwritten).2.1, hsound,
      hlater.trans (q.emit_does .ret).reaches⟩
  · exact absurd (Written.mk.inj (List.mem_singleton.1 hmem)).1 hop

/-- The return is written last, and no emission is one. -/
theorem Writes.returns (h : Writes p log q) (hempty : p.chunk.code = []) :
    ∃ before last, (q.emit .ret).chunk.instructions = before ++ [last] ∧ last.op = .ret
      ∧ last.line = q.previous.line ∧ ∀ i ∈ before, i.op ≠ .ret := by
  obtain ⟨before, back, hsplit, hbefore, hback⟩ :=
    List.map_eq_append_iff.1 (h.returned_instructions hempty)
  obtain ⟨last, rfl, hlast⟩ := List.map_eq_singleton_iff.1 hback
  refine ⟨before, last, hsplit, (Written.mk.inj hlast).1, (Written.mk.inj hlast).2.2,
    fun i hi => ?_⟩
  have hmem := List.mem_map_of_mem (f := Written.ofInstruction) hi
  rw [hbefore] at hmem
  obtain ⟨e, he, hwritten⟩ := List.mem_map.1 hmem
  rw [← (Written.mk.inj hwritten).1]
  exact (h.sound e he).1.goesOn

/-- Whatever has been written, a return behind it makes well-formed code. -/
theorem Writes.wellFormed (h : Writes p log q) (hempty : p.chunk.code = []) :
    (q.emit .ret).chunk.WellFormed := by
  obtain ⟨before, last, hsplit, hlast, -, hbefore⟩ := h.returns hempty
  refine ⟨Chunk.sum_size_instructions (h.returned_code hempty) h.returned_fits,
    ⟨before, last, hsplit, hlast, hbefore⟩, fun i hi hop => ?_⟩
  obtain ⟨e, heop, heoperand, hsound, hlater⟩ :=
    h.exists_emission hempty hi (by intro hret; rw [hret] at hop; cases hop)
  -- The pool of the emission is a prefix of that at the end.
  obtain ⟨index, hoperand, hlt⟩ := hsound.pooled (heop ▸ hop)
  have hle := hlater.constants_prefix
  exact ⟨index, heoperand ▸ hoperand, Nat.lt_of_lt_of_le hlt hle.length_le⟩

/-- Without an error the constant of a global is its name. -/
theorem Writes.named (h : Writes p log q) (hempty : p.chunk.code = [])
    (hnone : (q.emit .ret).hadError = false) (hi : i ∈ (q.emit .ret).chunk.instructions)
    (hop : i.op.refersToName = true) :
    ∃ index handle, i.operand = some index
      ∧ (q.emit .ret).chunk.constant? index = some (.text handle) := by
  obtain ⟨e, heop, heoperand, hsound, hlater⟩ :=
    h.exists_emission hempty hi (by intro hret; rw [hret] at hop; cases hop)
  obtain ⟨index, hoperand, hnames⟩ := hsound.named (heop ▸ hop)
  obtain ⟨handle, hhandle⟩ := (hnames.later hlater).2 hnone
  exact ⟨index, handle, heoperand ▸ hoperand, hhandle⟩

end Returned

end Parser

open OnePass.Parser

/-- Whatever the tokens are, and however many errors there have been, the code of a unit is
well formed. Without an error the constant of every global is a name. The instructions are
those that are written in the course of the unit, and each slot is that of a local which is
in scope when the instruction is written. -/
theorem unit_wellFormed (unit : UnitKind) (stream : TokenStream) (strings : Interner) :
    let p := (start stream strings).run unit
    p.chunk.WellFormed
      ∧ (p.hadError = false → ∀ i ∈ p.chunk.instructions, i.op.refersToName = true →
        ∃ index handle, i.operand = some index ∧ p.chunk.constant? index = some (.text handle))
      ∧ ∃ log, Course (.unit unit) (start stream strings) log p
        ∧ p.chunk.instructions.map Written.ofInstruction
          = (emissionsOf log).map Emission.written
        ∧ ∀ e ∈ emissionsOf log, e.op.refersToSlot = true →
          ∃ slot, e.operand = some slot ∧ slot.toNat < e.state.scope.locals.length := by
  dsimp only
  have hempty : (start stream strings).chunk.code = [] := by
    rw [start, advance_chunk]
    rfl
  obtain ⟨log, hcourse⟩ := unit_course unit (start_nesting_lt stream strings)
  obtain ⟨before, q, hlog, hwrites, hp⟩ := hcourse.unit_writes
  rw [hp] at hcourse ⊢
  refine ⟨hwrites.wellFormed hempty, fun hnone i hi hop => hwrites.named hempty hnone hi hop,
    log, hcourse, ?_, fun e he hop => ?_⟩
  · rw [hwrites.returned_instructions hempty, hlog, List.map_append]
    rfl
  · rw [hlog] at he
    rcases List.mem_append.1 he with he | he
    · exact (hwrites.sound e he).1.slot hop
    · rw [List.mem_singleton.1 he] at hop
      cases hop

end OnePass
