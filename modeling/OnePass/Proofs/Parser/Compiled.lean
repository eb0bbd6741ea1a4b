import OnePass.Proofs.Parser.Window

/-!
# OnePass.Proofs.Parser.Compiled

The state that compiling an expression is to lead to: the parser stands behind its
tokens and has written its reference translation (`Parser.compiled`), for which there
has to be room (`Expr.Fits`). Each turn of climbing leads from such states to such a
state.
-/

namespace OnePass

/-! ### Room -/

/-- Whether there is room for an expression: `levels` of nesting for its depth, and
places from `index` on in the pool for its constants. Its numbers can be read. -/
structure Expr.Fits (slots : Slots) (index levels : Nat) (e : Expr) : Prop where
  depth : e.depth ≤ levels
  pool : index + (e.constants slots).length ≤ OpCode.operandCount
  numbers : ∀ t ∈ e.tokens, t.kind = .number → t.number?.isSome

namespace Expr

variable {slots : Slots} {index levels : Nat}

/-- The following lemmas take the room for an expression apart into the room for its parts. They
are equivalences, since soundness puts the room together and completeness divides it. -/
theorem fits_atom_iff {t : Token} :
    (atom t).Fits slots index (levels + 1) ↔
      index + (t.constant? slots).toList.length ≤ OpCode.operandCount
        ∧ (t.kind = .number → t.number?.isSome) := by
  constructor
  · intro h
    exact ⟨h.pool, h.numbers t (List.mem_singleton.2 rfl)⟩
  · rintro ⟨hpool, hnumber⟩
    refine ⟨Nat.le_add_left 1 levels, hpool, fun u hu => ?_⟩
    obtain rfl := List.mem_singleton.1 hu
    exact hnumber

theorem fits_group_iff {opening closing : Token} {inner : Expr}
    (ho : opening.kind = .leftParen) (hc : closing.kind = .rightParen) :
    (group opening inner closing).Fits slots index (levels + 1)
      ↔ inner.Fits slots index levels := by
  constructor
  · rintro ⟨hdepth, hpool, hnumbers⟩
    refine ⟨by rw [depth] at hdepth; omega, hpool, fun t ht => hnumbers t ?_⟩
    exact List.mem_cons_of_mem _ (List.mem_append_left _ ht)
  · rintro ⟨hdepth, hpool, hnumbers⟩
    refine ⟨by rw [depth]; omega, hpool, fun t ht hkind => ?_⟩
    rcases List.mem_cons.1 ht with rfl | ht
    · rw [ho] at hkind
      cases hkind
    rcases List.mem_append.1 ht with ht | ht
    · exact hnumbers t ht hkind
    · obtain rfl := List.mem_singleton.1 ht
      rw [hc] at hkind
      cases hkind

theorem fits_unary_iff {op : Token} {operand : Expr} (hop : op.kind = .bang ∨ op.kind = .minus) :
    (unary op operand).Fits slots index (levels + 1) ↔ operand.Fits slots index levels := by
  constructor
  · rintro ⟨hdepth, hpool, hnumbers⟩
    refine ⟨by rw [depth] at hdepth; omega, hpool, fun t ht => hnumbers t ?_⟩
    exact List.mem_cons_of_mem _ ht
  · rintro ⟨hdepth, hpool, hnumbers⟩
    refine ⟨by rw [depth]; omega, hpool, fun t ht hkind => ?_⟩
    rcases List.mem_cons.1 ht with rfl | ht
    · rcases hop with hop | hop <;> rw [hop] at hkind <;> cases hkind
    · exact hnumbers t ht hkind

/-- The operands of an operator are not treated alike. The left one is on the level of the whole,
and the right one is a level deeper and behind the constants of the left one. -/
theorem fits_binary_iff {op : Token} {left right : Expr} {binary : BinaryOp}
    (hop : op.kind.binary? = some binary) :
    (Expr.binary left op right).Fits slots index (levels + 1) ↔
      left.Fits slots index (levels + 1)
        ∧ right.Fits slots (index + (left.constants slots).length) levels := by
  constructor
  · rintro ⟨hdepth, hpool, hnumbers⟩
    rw [depth] at hdepth
    rw [constants, List.length_append, ← Nat.add_assoc] at hpool
    refine ⟨⟨by omega, by omega, fun t ht => hnumbers t ?_⟩,
      ⟨by omega, hpool, fun t ht => hnumbers t ?_⟩⟩
    · exact List.mem_append_left _ ht
    · exact List.mem_append_right _ (List.mem_cons_of_mem _ ht)
  · rintro ⟨hl, hr⟩
    refine ⟨?_, ?_, fun t ht hkind => ?_⟩
    · have := hl.depth
      have := hr.depth
      rw [depth]
      omega
    · rw [constants, List.length_append, ← Nat.add_assoc]
      exact hr.pool
    · rcases List.mem_append.1 ht with ht | ht
      · exact hl.numbers t ht hkind
      rcases List.mem_cons.1 ht with rfl | ht
      · rw [hkind] at hop
        cases hop
      · exact hr.numbers t ht hkind

/-- The target is stored before the value is compiled, so the value starts behind it. -/
theorem fits_assign_iff {target equal : Token} {value : Expr}
    (ht : target.kind = .identifier) (heq : equal.kind = .equal) :
    (assign target equal value).Fits slots index (levels + 1)
      ↔ value.Fits slots (index + (target.constant? slots).toList.length) levels := by
  constructor
  · rintro ⟨hdepth, hpool, hnumbers⟩
    rw [constants, List.length_append, ← Nat.add_assoc] at hpool
    refine ⟨by rw [depth] at hdepth; omega, hpool, fun t ht => hnumbers t ?_⟩
    exact List.mem_cons_of_mem _ (List.mem_cons_of_mem _ ht)
  · rintro ⟨hdepth, hpool, hnumbers⟩
    refine ⟨by rw [depth]; omega, ?_, fun t hmem hkind => ?_⟩
    · rw [constants, List.length_append, ← Nat.add_assoc]
      exact hpool
    rcases List.mem_cons.1 hmem with rfl | hmem
    · rw [ht] at hkind
      cases hkind
    rcases List.mem_cons.1 hmem with rfl | hmem
    · rw [heq] at hkind
      cases hkind
    · exact hnumbers t hmem hkind

end Expr

/-- What a chain starts from fits where what it ends with does. -/
theorem Reads.fits_left {slots : Slots} {index levels : Nat} {task : Task}
    {ts rest : List Token} {e : Expr} (h : Reads task ts e rest)
    (hfits : e.Fits slots index (levels + 1)) :
    ∀ min left, task = .chain min left → left.Fits slots index (levels + 1) := by
  -- The induction is on the chain, whose later turns have what is read so far as their left
  -- operand.
  induction h with
  | stop h =>
    intro min left heq
    obtain ⟨rfl, rfl⟩ := Task.chain.inj heq
    exact hfits
  | extend hop hmin hr he ihr ihe =>
    intro min left heq
    obtain ⟨rfl, rfl⟩ := Task.chain.inj heq
    exact ((Expr.fits_binary_iff hop).1 (ihe hfits _ _ rfl)).1
  | _ => intro min left heq; simp at heq

namespace Parser

/-- Whether there is room for an expression in a state of the parser. -/
abbrev Fits (p : Parser) (levels : Nat) (e : Expr) : Prop := e.Fits p.slots p.poolSize levels

/-! ### The state behind an expression -/

/-- The parser behind an expression that it has compiled. -/
def compiled (p : Parser) (e : Expr) (rest : List Token) : Parser :=
  (p.moveTo e.last rest).write (e.code p.slots p.poolSize) (e.constants p.slots)

theorem at_compiled (p : Parser) (e : Expr) (rest : List Token) : (p.compiled e rest).At rest :=
  at_write_moveTo ..

@[simp] theorem poolSize_compiled (p : Parser) (e : Expr) (rest : List Token) :
    (p.compiled e rest).poolSize = p.poolSize + (e.constants p.slots).length :=
  poolSize_write ..

/-- Parentheses write nothing, so that moving behind the closing one is all that is left. -/
theorem compiled_group (p : Parser) (opening closing : Token) (inner : Expr)
    (ts rest : List Token) :
    ((p.moveTo opening ts).compiled inner (closing :: rest)).moveTo closing rest
      = p.compiled (.group opening inner closing) rest := rfl

/-- A prefix operator writes its code behind that of its operand. -/
theorem compiled_unary (p : Parser) {op : Token} {unary : UnaryOp}
    (h : op.kind.opening? = some (.unary unary)) (operand : Expr) (ts rest : List Token) :
    ((p.moveTo op ts).compiled operand rest).emit unary.code
      = p.compiled (.unary op operand) rest := by
  simp only [emit_eq, compiled, write_write, moveTo_moveTo, Expr.code, Expr.constants,
    TokenKind.unaryCode_of_opening? h, List.append_nil]
  rfl

/-- What two operands and an operator have written, one after the other, is the code of the whole.
-/
theorem compiled_binary (p : Parser) {op : Token} {binary : BinaryOp}
    (h : op.kind.binary? = some binary) (left right : Expr) (ts rest : List Token) :
    (((p.compiled left (op :: ts)).moveTo op ts).compiled right rest).emitAll binary.code
      = p.compiled (.binary left op right) rest := by
  simp only [emitAll_eq, compiled, write_moveTo, write_write, moveTo_moveTo, slots_write,
    slots_moveTo, poolSize_write, poolSize_moveTo, Expr.code, Expr.constants,
    TokenKind.binaryCode_of_binary? h, List.append_nil]
  rfl

/-! ### What an opening is -/

/-- The kinds of openings, read backwards. The table has one kind for each of them but the prefix
operators. -/
theorem kind_of_group {kind : TokenKind} (h : kind.opening? = some .group) :
    kind = .leftParen := by
  revert h; cases kind <;> decide

theorem kind_of_unary {kind : TokenKind} {op : UnaryOp} (h : kind.opening? = some (.unary op)) :
    kind = .bang ∨ kind = .minus := by
  revert h; cases kind <;> cases op <;> decide

theorem kind_of_number {kind : TokenKind} (h : kind.opening? = some .number) :
    kind = .number := by
  revert h; cases kind <;> decide

theorem kind_of_string {kind : TokenKind} (h : kind.opening? = some .string) :
    kind = .string := by
  revert h; cases kind <;> decide

theorem kind_of_variable {kind : TokenKind} (h : kind.opening? = some .variable) :
    kind = .identifier := by
  revert h; cases kind <;> decide

theorem opening?_unary {kind : TokenKind} (h : kind = .bang ∨ kind = .minus) :
    ∃ op, kind.opening? = some (.unary op) := by
  rcases h with rfl | rfl
  · exact ⟨.not, rfl⟩
  · exact ⟨.negate, rfl⟩

/-- A word that is a literal puts no constant into the pool. -/
theorem load_of_word {t : Token} {literal : WordLiteral}
    (h : t.kind.opening? = some (.word literal)) (slots : Slots) (index : Nat) :
    t.kind ∈ [.number, .string, .kwTrue, .kwFalse, .kwNil] ∧ t.constant? slots = none
      ∧ t.load slots index = [⟨literal.code, none, t.line⟩] ∧ t.kind ≠ .number := by
  unfold Token.constant? Token.load
  revert h
  generalize t.kind = kind
  cases kind <;> cases literal <;> simp [TokenKind.opening?, WordLiteral.code]

/-! ### Single tokens -/

theorem compiled_word (p : Parser) {t : Token} {literal : WordLiteral}
    (h : t.kind.opening? = some (.word literal)) (rest : List Token) :
    (p.moveTo t rest).emit literal.code = p.compiled (.atom t) rest := by
  obtain ⟨-, hconstant, hload, -⟩ := load_of_word h p.slots p.poolSize
  rw [emit_eq]
  simp only [compiled, Expr.code, Expr.constants, hload, hconstant]
  rfl

/-- A number that can be read, and for which the pool has room. -/
theorem compiled_number (p : Parser) {t : Token} {x : Binary64} (hkind : t.kind = .number)
    (hx : t.number? = some x) (hroom : p.poolSize < OpCode.operandCount) (rest : List Token) :
    (p.moveTo t rest).number = p.compiled (.atom t) rest := by
  have hvalue : (p.moveTo t rest).previous.number? = some x := hx
  have hmade := makeConstant_number (p := p.moveTo t rest) hroom x
  simp only [number, hvalue, emitConstant, hmade, emitWith_eq, write_write]
  simp only [compiled, Expr.code, Expr.constants, Token.load, Token.constant?, hkind, hx]
  rfl

/-- A string, whose text is stored without its quotes. -/
theorem compiled_string (p : Parser) {t : Token} (hkind : t.kind = .string)
    (hroom : p.poolSize < OpCode.operandCount) (rest : List Token) :
    (p.moveTo t rest).string = p.compiled (.atom t) rest := by
  have hmade := makeText_of_lt (p := p.moveTo t rest) hroom t.contents
  have hprevious : (p.moveTo t rest).previous = t := rfl
  simp only [string, hprevious, hmade, emitWith_eq, write_write]
  simp only [compiled, Expr.code, Expr.constants, Token.load, Token.constant?, hkind]
  rfl

/-- What a name refers to is found, and reading it or assigning to it compiles the
expression that consists of the name or starts with it. -/
theorem exists_place_compiled (p : Parser) {t : Token} (hkind : t.kind = .identifier)
    (hroom : p.poolSize + (t.constant? p.slots).toList.length ≤ OpCode.operandCount)
    (ts : List Token) :
    ∃ place,
      (p.moveTo t ts).place t = (place, (p.moveTo t ts).write [] (t.constant? p.slots).toList)
      ∧ place.emitGet ((p.moveTo t ts).write [] (t.constant? p.slots).toList)
          = p.compiled (.atom t) ts
      ∧ ∀ equal ts' value rest,
          place.emitSet
              ((((p.moveTo t ts).write [] (t.constant? p.slots).toList).moveTo equal ts').compiled
                value rest)
            = p.compiled (.assign t equal value) rest := by
  obtain ⟨place, hplace, hget, hset⟩ := exists_place (p := p.moveTo t ts) hkind hroom
  refine ⟨place, hplace, ?_, fun equal ts' value rest => ?_⟩
  · rw [hget _ rfl, write_write, List.nil_append, List.append_nil]
    rfl
  · rw [hset]
    simp only [compiled, write_moveTo, write_write, moveTo_moveTo, slots_write, slots_moveTo,
      poolSize_write, poolSize_moveTo, Expr.code, Expr.constants, List.nil_append,
      List.append_nil]
    rfl

end Parser

end OnePass
