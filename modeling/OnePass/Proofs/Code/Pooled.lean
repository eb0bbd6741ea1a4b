import OnePass.Lexical.Source
import OnePass.Proofs.Code.WellFormed

/-!
# OnePass.Proofs.Code.Pooled

Every constant of a pool is used by one instruction. Between two states of a course the
constants that are added to the pool are the ones that its emissions use, each of them once
(`Fills`). Most are used right away; the target of an assignment is added in front of the
value and used behind it, whatever becomes of the value. Errors make no difference, only a
pool that overflows does, where an index stands in for one that does not fit an operand.

Constants are told apart by their places in the pool, not by their values: equal ones are added
again. So it is places that are compared, as lists up to order, and in an assignment it is the
order that differs.
-/

namespace OnePass

/-! ### Uses of constants -/

/-- The place in the pool that an instruction refers to, if it refers to a constant. -/
def OpCode.poolIndex? (op : OpCode) (operand : Option UInt8) : Option Nat :=
  if op.refersToConstant then operand.map UInt8.toNat else none

/-- The constants that the instructions of a chunk use, in the order of the instructions. -/
def Chunk.used (c : Chunk) : List Nat := c.instructions.filterMap fun i => i.op.poolIndex? i.operand

/-- The constants that emissions use, in order. -/
def usedBy (log : List Emission) : List Nat := log.filterMap fun e => e.op.poolIndex? e.operand

@[simp] theorem usedBy_append (log log' : List Emission) :
    usedBy (log ++ log') = usedBy log ++ usedBy log' :=
  List.filterMap_append

theorem usedBy_of_pooled {op : OpCode} (h : op.refersToConstant = true) (p : Parser)
    (index : UInt8) : usedBy [⟨p, op, some index⟩] = [index.toNat] := by
  simp [usedBy, OpCode.poolIndex?, h]

theorem usedBy_of_plain {op : OpCode} (h : op.refersToConstant = false) (p : Parser)
    (operand : Option UInt8) : usedBy [⟨p, op, operand⟩] = [] := by
  simp [usedBy, OpCode.poolIndex?, h]

namespace Parser

variable {p q r : Parser} {log log' : List Emission}

theorem usedBy_emissions {ops : List OpCode} (h : ∀ op ∈ ops, op.refersToConstant = false)
    (p : Parser) : usedBy (p.emissions ops) = [] := by
  induction ops generalizing p with
  | nil => rfl
  | cons op rest ih =>
    have hsplit : p.emissions (op :: rest) = [⟨p, op, none⟩] ++ (p.emit op).emissions rest := rfl
    rw [hsplit, usedBy_append, usedBy_of_plain (h op List.mem_cons_self),
      ih fun op' hop' => h op' (List.mem_cons_of_mem _ hop')]
    rfl

/-! ### What changes the pool -/

/-- Where no constant is added the pool has the size that it had. -/
theorem Does.poolSize_eq {deeds : Footprint} (h : Does deeds p q) (hstill : deeds.lacks .pool) :
    q.poolSize = p.poolSize :=
  congrArg List.length (h.constants_eq hstill)

theorem poolSize_makeConstant (p : Parser) (value : Value) :
    (p.makeConstant value).2.poolSize = p.poolSize + 1 := by
  rw [poolSize, makeConstant_constants, List.length_append]
  rfl

/-- As long as the pool does not overflow, a new constant has the index behind the others. -/
theorem toNat_makeConstant (value : Value)
    (h : (p.makeConstant value).2.poolSize ≤ OpCode.operandCount) :
    (p.makeConstant value).1.toNat = p.poolSize := by
  rw [poolSize_makeConstant] at h
  rw [makeConstant_of_lt h]
  exact UInt8.toNat_ofNat_of_lt h

theorem poolSize_makeText (p : Parser) (text : String) :
    (p.makeText text).2.poolSize = p.poolSize + 1 :=
  poolSize_makeConstant { p with strings := (p.strings.intern text).2 } _

theorem toNat_makeText (text : String)
    (h : (p.makeText text).2.poolSize ≤ OpCode.operandCount) :
    (p.makeText text).1.toNat = p.poolSize :=
  toNat_makeConstant (p := { p with strings := (p.strings.intern text).2 }) _ h

/-! ### Stretches of a course -/

/-- Between two states as many constants have been added to the pool as have been used, and
unless the pool has overflowed they are the same ones, each used once. -/
def Fills (p : Parser) (log : List Emission) (q : Parser) : Prop :=
  ∃ n, q.poolSize = p.poolSize + n
    ∧ (q.poolSize ≤ OpCode.operandCount → (usedBy log).Perm (List.range' p.poolSize n))

/-- Nothing is added and nothing used. -/
theorem Fills.quiet (hpool : q.poolSize = p.poolSize) (hused : usedBy log = []) :
    Fills p log q :=
  ⟨0, hpool, fun _ => by rw [hused]; exact .nil⟩

theorem Fills.trans (h : Fills p log q) (h' : Fills q log' r) : Fills p (log ++ log') r := by
  obtain ⟨n, hn, hused⟩ := h
  obtain ⟨k, hk, hused'⟩ := h'
  refine ⟨n + k, by omega, fun hroom => ?_⟩
  rw [usedBy_append, ← List.range'_append_1, ← hn]
  exact (hused (by omega)).append (hused' hroom)

section Around

variable {deeds : Footprint}

/-- What adds no constant can go before or after. -/
theorem Fills.behind (h : Fills q log r) (hdoes : Does deeds p q) (hstill : deeds.lacks .pool) :
    Fills p log r := by
  have hquiet : Fills p [] q := .quiet (hdoes.poolSize_eq hstill) rfl
  exact hquiet.trans h

theorem Fills.before (h : Fills p log q) (hdoes : Does deeds q r) (hstill : deeds.lacks .pool) :
    Fills p log r :=
  log.append_nil ▸ h.trans (.quiet (hdoes.poolSize_eq hstill) rfl)

end Around

/-- A constant that is added and used right away. -/
theorem fills_constant {op : OpCode} (hop : op.refersToConstant = true) (value : Value) :
    Fills p [⟨(p.makeConstant value).2, op, some (p.makeConstant value).1⟩]
      ((p.makeConstant value).2.emitWith op (p.makeConstant value).1) := by
  refine ⟨1, p.poolSize_makeConstant value, fun hroom => ?_⟩
  rw [usedBy_of_pooled hop, toNat_makeConstant value hroom]
  exact .refl _

theorem fills_text {op : OpCode} (hop : op.refersToConstant = true) (text : String) :
    Fills p [⟨(p.makeText text).2, op, some (p.makeText text).1⟩]
      ((p.makeText text).2.emitWith op (p.makeText text).1) :=
  fills_constant (p := { p with strings := (p.strings.intern text).2 }) hop _

/-! ### Expressions -/

/-- A name is used once, at once or behind the emissions of a value. If it is that of a global,
then it has been added in front of their constants. -/
theorem fills_place {name : Token} (hvalue : Fills (p.place name).2 log q) {op : OpCode}
    (hop : op = (p.place name).1.getCode ∨ op = (p.place name).1.setCode) :
    Fills p (log ++ [⟨q, op, some (p.place name).1.operand⟩])
      (q.emitWith op (p.place name).1.operand) := by
  cases hslot : p.slots name.lexeme with
  | some slot =>
    rw [place_of_local hslot] at hop hvalue ⊢
    have hplain : op.refersToConstant = false := by rcases hop with rfl | rfl <;> rfl
    exact hvalue.trans (.quiet rfl (usedBy_of_plain hplain _ _))
  | none =>
    rw [place_of_global hslot] at hop hvalue ⊢
    have hpooled : op.refersToConstant = true := by rcases hop with rfl | rfl <;> rfl
    obtain ⟨n, hn, hused⟩ := hvalue
    have hmade := p.poolSize_makeText name.lexeme
    dsimp only at hn hused
    refine ⟨n + 1, ?_, fun hroom => ?_⟩
    · show q.poolSize = p.poolSize + (n + 1)
      omega
    · -- Writing an instruction does not change the pool.
      have hroom' : q.poolSize ≤ OpCode.operandCount := hroom
      have hindex : (p.makeText name.lexeme).1.toNat = p.poolSize :=
        toNat_makeText name.lexeme (by omega)
      rw [usedBy_append, usedBy_of_pooled hpooled, List.range'_succ, ← hmade]
      show (usedBy log ++ [(p.makeText name.lexeme).1.toNat]).Perm _
      rw [hindex]
      exact (List.perm_append_singleton _ _).trans ((hused hroom').cons _)

/-- Whatever is read, written or worked out, and wherever an error stops it. -/
theorem ExprCourse.fills {task : ExprTask} (h : ExprCourse task p log q) : Fills p log q := by
  induction h with
  | refused => exact .quiet ((error_does _ _).poolSize_eq rfl) rfl
  | nested h inside ih => exact ih
  | missing =>
    exact .quiet (((advance_does _).append (error_does _ _)).poolSize_eq rfl) rfl
  | climb h left rest ihleft ihrest =>
    exact ((ihleft.behind (advance_does _) rfl).trans ihrest).before
      (rejectTarget_does _ _) rfl
  | group inside ih => exact ih.before (consume_does _ _ _) rfl
  | @unary _ op _ _ _ inside ih =>
    exact ih.trans (.quiet rfl (usedBy_of_plain (by cases op <;> rfl) _ _))
  | @word _ literal _ => exact .quiet rfl (usedBy_of_plain (by cases literal <;> rfl) _ _)
  | number => exact fills_constant rfl _
  | invalid => exact .quiet ((error_does _ _).poolSize_eq rfl) rfl
  | string => exact fills_text rfl _
  | @read _ p h =>
    rw [Place.emitGet_eq]
    -- The place put its constant into the pool; the instruction that uses it comes right behind.
    have hquiet : Fills (p.place p.previous).2 [] (p.place p.previous).2 := .quiet rfl rfl
    exact fills_place hquiet (.inl rfl)
  | assign h value ih =>
    -- Here the constants of the value stand between that of the place and its use.
    rw [Place.emitSet_eq]
    exact fills_place (ih.behind (advance_does _) rfl) (.inr rfl)
  | stop => exact .quiet rfl rfl
  | @operator _ _ op _ q _ _ h hmin right rest ihright ihrest =>
    have hplain : usedBy (q.emissions op.code) = [] :=
      usedBy_emissions (by cases op <;> decide) q
    exact ((ihright.behind (advance_does _) rfl).trans
      (.quiet ((emitAll_does _ _).poolSize_eq rfl) hplain)).trans ihrest

/-- An assignment to a global uses its own constant last, and before it only constants that
have been added later. -/
theorem ExprCourse.used_assign (h : ExprCourse (.opening true .variable) p log q)
    (hequal : (p.place p.previous).2.check .equal = true)
    (hglobal : p.slots p.previous.lexeme = none) (hroom : q.poolSize ≤ OpCode.operandCount) :
    ∃ values, usedBy log = values ++ [p.poolSize] ∧ ∀ index ∈ values, p.poolSize < index := by
  cases h with
  | read h => rw [Bool.true_and, hequal] at h; cases h
  | @assign _ _ log q h value =>
    rw [Place.emitSet_eq] at hroom
    have hroom' : q.poolSize ≤ OpCode.operandCount := hroom
    obtain ⟨n, hn, hused⟩ := value.fills
    rw [place_of_global hglobal, (advance_does _).poolSize_eq rfl] at hn hused
    have hmade := p.poolSize_makeText p.previous.lexeme
    dsimp only at hn hused
    refine ⟨usedBy log, ?_, fun index hindex => ?_⟩
    · have hplace : (p.makeText p.previous.lexeme).1.toNat = p.poolSize :=
        toNat_makeText _ (by omega)
      rw [usedBy_append, place_of_global hglobal, ← hplace]
      rfl
    · have hmem := (hused hroom').mem_iff.1 hindex
      rw [hmade, List.mem_range'_1] at hmem
      exact hmem.1

/-! ### Statements -/

theorem define_fills (p : Parser) (name : Token) : Fills p (p.definition name) (p.define name) := by
  unfold definition define
  split
  · refine .quiet ?_ rfl
    unfold declareLocal
    split
    · rfl
    · exact (errorAt_does _ _ _).poolSize_eq rfl
  · exact fills_text rfl name.lexeme

theorem endScope_fills (p : Parser) : Fills p p.closing p.endScope.2 :=
  .quiet ((emitAll_does _ _).poolSize_eq rfl)
    (usedBy_emissions (fun op hop => by rw [(List.mem_replicate.1 hop).2]; rfl) _)

/-- What a task of a unit emits uses the constants that it adds, each once. -/
theorem Course.fills {task : UnitTask} {log : List Mark} (h : Course task p log q) :
    Fills p (emissionsOf log) q := by
  induction h with
  | found | done => exact .quiet rfl rfl
  | skip h rest ih => exact ih.behind (advance_does _) rfl
  | value h value =>
    rw [emissionsOf_map]
    exact value.fills.behind (advance_does _) rfl
  | noValue => exact .quiet rfl rfl
  | var h value ih =>
    rw [emissionsOf_append, emissionsOf_map]
    have hvalue := (ih.behind (consume_does _ _ _) rfl).behind (advance_does _) rfl
    exact (hvalue.before (consume_does _ _ _) rfl).trans (define_fills _ _)
  | print h value =>
    rw [emissionsOf_append, emissionsOf_map]
    exact (value.fills.behind (advance_does _) rfl).trans
      (.quiet ((consume_does _ _ _).poolSize_eq rfl) rfl)
  | @block p _ _ h inside ih =>
    rw [emissionsOf_append, emissionsOf_map]
    have hopen := p.advance_does.append (beginScope_does _)
    exact ((ih.behind hopen (by decide)).before (consume_does _ _ _) rfl).trans
      (endScope_fills _)
  | expression h value =>
    rw [emissionsOf_append, emissionsOf_map]
    exact value.fills.trans (.quiet ((consume_does _ _ _).poolSize_eq rfl) rfl)
  | calm body h ih => exact ih
  | panic body h skip ihbody ihskip =>
    rw [emissionsOf_cons_declaration, emissionsOf_append]
    exact ihbody.trans ihskip
  | more h first rest ihfirst ihrest =>
    rw [emissionsOf_append]
    exact ihfirst.trans ihrest
  | program all ih =>
    rw [emissionsOf_append]
    exact ih.trans (.quiet ((advance_does _).poolSize_eq rfl) rfl)
  | single value =>
    rw [emissionsOf_append, emissionsOf_map]
    exact value.fills.trans (.quiet ((consume_does _ _ _).poolSize_eq rfl) rfl)

/-! ### Units -/

/-- If the pool has not overflowed at the end of a unit, the instructions use each of its
constants once. -/
theorem run_used (unit : UnitKind) (stream : TokenStream) (strings : Interner)
    (hroom : ((start stream strings).run unit).chunk.constants.length ≤ OpCode.operandCount) :
    ((start stream strings).run unit).chunk.used.Perm
      (List.range ((start stream strings).run unit).chunk.constants.length) := by
  have hempty : (start stream strings).chunk = .empty := by
    rw [start, advance_chunk]
  obtain ⟨log, hcourse⟩ := unit_course unit (start_nesting_lt stream strings)
  obtain ⟨n, hn, hused⟩ := hcourse.fills
  have hnone : (start stream strings).poolSize = 0 := by rw [poolSize, hempty]; rfl
  rw [hnone] at hn hused
  -- The instructions are the emissions, the return at the end included.
  obtain ⟨before, q, hlog, hwrites, hp⟩ := hcourse.unit_writes
  have hsame : ((start stream strings).run unit).chunk.used = usedBy (emissionsOf log) := by
    have hwritten := hwrites.returned_instructions (by rw [hempty]; rfl)
    rw [← hp] at hwritten
    have hindices := congrArg (List.filterMap fun w : Written => w.op.poolIndex? w.operand) hwritten
    rw [List.filterMap_map, List.filterMap_append, List.filterMap_map] at hindices
    rw [hlog, usedBy_append]
    exact hindices
  have hlength : ((start stream strings).run unit).chunk.constants.length = n :=
    hn.trans (Nat.zero_add n)
  rw [hsame, hlength, List.range_eq_range']
  exact hused hroom

end Parser

open OnePass.Parser

/-- Every constant is used by exactly one instruction. Whatever the tokens are, and however many
errors there have been, if the pool has not overflowed, then the instructions that refer to
constants refer to each of them once and to nothing else. The target of an assignment is used
behind all constants of the value, though its own has been added in front of them, so that the
targets of a chain are used in reverse order. -/
theorem pool_used_once (unit : UnitKind) (stream : TokenStream) (strings : Interner) :
    let p := (start stream strings).run unit
    (p.chunk.constants.length ≤ 256 →
      p.chunk.used.Perm (List.range p.chunk.constants.length))
    ∧ ∀ (p q : Parser) (log : List Emission), ExprCourse (.opening true .variable) p log q →
        (p.place p.previous).2.check .equal = true → p.slots p.previous.lexeme = none →
        q.chunk.constants.length ≤ 256 →
        ∃ values, usedBy log = values ++ [p.chunk.constants.length]
          ∧ ∀ index ∈ values, p.chunk.constants.length < index :=
  ⟨fun hroom => run_used unit stream strings hroom,
    fun _ _ _ h hequal hglobal hroom => h.used_assign hequal hglobal hroom⟩

/-- A chain, and an assignment without a value. -/
theorem pool_used_in_chain :
    (let p := (start (.ofSource "a = b = \"x\"; c = ); var d;") .empty).run .program
    p.hadError = true ∧ p.chunk.used = [2, 1, 0, 3, 4]
      ∧ p.chunk.used.Perm (List.range p.chunk.constants.length))
    ∧ let p := (start (.ofSource "a = b = nil") .empty).advance
      ∃ q log, ExprCourse (.opening true .variable) p log q
        ∧ ∃ values, usedBy log = values ++ [0] ∧ ∀ index ∈ values, 0 < index := by
  refine ⟨?_, ?_⟩
  · refine ⟨by decide +kernel, by decide +kernel, ?_⟩
    exact (pool_used_once .program _ .empty).1 (by decide +kernel)
  · intro p
    have hdeep : OperandCourse (parseLevel 256) p.nesting :=
      fun min q hq => parseLevel_course 256 min (Nat.le_add_left ..)
    obtain ⟨log, hcourse⟩ := opening_course hdeep true rfl .variable
    have hused := (pool_used_once .expression (.ofSource "a = b = nil") .empty).2 p _ log hcourse
      (by decide +kernel) (by decide +kernel) (by decide +kernel)
    have hnone : p.chunk.constants.length = 0 := by decide +kernel
    rw [hnone] at hused
    exact ⟨_, log, hcourse, hused⟩

end OnePass
