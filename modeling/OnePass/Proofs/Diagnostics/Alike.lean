import OnePass.Proofs.Lexical.Join
import OnePass.Proofs.Parser.Expression
import OnePass.Proofs.Parser.Walk

/-!
# OnePass.Proofs.Diagnostics.Alike

A statement in a row of statements and the same statement on its own. While it is
compiled, the two states of the parser are alike (`Alike`): the tokens are the same, but
stand further behind in the row, and so do those that are reported. They are followed by
the next statement in the row, and by the end if the statement is alone; the parser does
not see the difference, because an expression is only started in front of a token of the
statement, and behind its `;` nothing is taken (`Abreast.declaration`).
-/

namespace OnePass

/-! ### Statements -/

/-- Whether some tokens are the remaining ones of a statement whose only `;` is its last
token. No word of it starts another statement. -/
def Remainder : List Token → Prop
  | [] => True
  | t :: ts =>
    t.kind ≠ .error ∧ t.kind ≠ .eof ∧ t.kind.startsStatement = false
      ∧ (t.kind = .semicolon ↔ ts = []) ∧ Remainder ts

theorem Remainder.tail {t : Token} {ts : List Token} (h : Remainder (t :: ts)) : Remainder ts :=
  h.2.2.2.2

theorem Remainder.kind_ne_eof {t : Token} {ts : List Token} (h : Remainder (t :: ts)) :
    t.kind ≠ .eof := h.2.1

theorem Remainder.semicolon_iff {t : Token} {ts : List Token} (h : Remainder (t :: ts)) :
    t.kind = .semicolon ↔ ts = [] := h.2.2.2.1

/-- No token of a statement is an error. -/
theorem Remainder.readable {us : List Token} (h : Remainder us) : Parser.Readable us := by
  induction us with
  | nil => exact fun t ht => absurd ht List.not_mem_nil
  | cons t us ih => exact List.forall_mem_cons.2 ⟨h.1, ih h.tail⟩

theorem Remainder.ne_nil {t : Token} {ts : List Token} (h : Remainder (t :: ts))
    (hkind : t.kind ≠ .semicolon) : ts ≠ [] :=
  fun hnil => hkind (h.semicolon_iff.2 hnil)

/-- Whether a token can put a constant into the pool. -/
def Token.mayStore (t : Token) : Bool :=
  t.kind = .number || t.kind = .string || t.kind = .identifier || t.kind = .kwVar

/-- A report that stands further behind. -/
def Diagnostic.shift (lines : Nat) (d : Diagnostic) : Diagnostic :=
  { d with line := lines + d.line }

theorem Diagnostic.ofProblem_shift (problem : Problem) (t : Token) (bytes lines : Nat) :
    Diagnostic.ofProblem problem (t.shift bytes lines) = (ofProblem problem t).shift lines := rfl

/-- What stays as it is while a statement is compiled in a row: how much further behind it
stands, the tokens that follow it, the reports that were made before it, and how many
constants there may be in the pool behind it. -/
structure Row where
  bytes : Nat
  lines : Nat
  wall : List Token
  reported : List Diagnostic
  cap : Nat
  wall_kind : kindAhead wall = .eof ∨ kindAhead wall = .kwVar ∨ kindAhead wall = .kwPrint
  cap_le : cap ≤ OpCode.operandCount

namespace Parser

/-- The state `p` in a row and the state `q` of a statement alone are in front of the same
tokens `us` of the statement. Besides the constants of `us`, `owed` more are still to
come. -/
structure Abreast (r : Row) (owed : Nat) (us : List Token) (p q : Parser) : Prop where
  inRow : p.At (us.map (Token.shift r.bytes r.lines) ++ r.wall)
  alone : q.At us
  mode : p.mode = q.mode
  nesting : p.nesting = q.nesting
  scope : p.scope = .empty
  scopeAlone : q.scope = .empty
  reports : p.diagnostics = r.reported ++ q.diagnostics.map (Diagnostic.shift r.lines)
  pool : q.poolSize ≤ p.poolSize
  room : p.poolSize + us.countP Token.mayStore + owed ≤ r.cap

/-- Moreover the statement has begun, and the last token of it that was taken is the same. -/
structure Alike (r : Row) (owed : Nat) (us : List Token) (p q : Parser) : Prop
    extends Abreast r owed us p q where
  remainder : Remainder us
  previous : p.previous = q.previous.shift r.bytes r.lines
  ended : q.previous.kind = .semicolon ↔ us = []

/-- States in which the statement is not at its end, or in a panic. -/
def Continues (r : Row) (owed : Nat) (us : List Token) (p q : Parser) : Prop :=
  ∃ us', us'.length ≤ us.length ∧ Alike r owed us' p q ∧ (us' = [] → q.mode = .panicking)

section Alike

variable {r : Row} {owed : Nat} {t : Token} {us : List Token} {p q : Parser}

/-- Room that is not needed is given up. -/
theorem Alike.weaken {more : Nat} (h : Alike r (owed + more) us p q) : Alike r owed us p q :=
  { h with room := by have := h.room; omega }

theorem Alike.continues (h : Alike r owed us p q) (hus : us ≠ []) : Continues r owed us p q :=
  ⟨us, Nat.le_refl _, h, fun hnil => absurd hnil hus⟩

theorem Continues.mono {us' : List Token} (h : Continues r owed us' p q)
    (hle : us'.length ≤ us.length) : Continues r owed us p q := by
  obtain ⟨us'', hless, halike, hend⟩ := h
  exact ⟨us'', Nat.le_trans hless hle, halike, hend⟩

/-! ### What is ahead -/

/-- Both states have the same kind of token ahead, or the one starts a statement and the
other is the end. -/
theorem Alike.current_kind (h : Alike r owed us p q) :
    p.current.kind = q.current.kind
      ∨ us = [] ∧ q.current.kind = .eof
        ∧ (p.current.kind = .eof ∨ p.current.kind = .kwVar ∨ p.current.kind = .kwPrint) := by
  have hrow := h.inRow.current_kind
  have halone := h.alone.current_kind
  cases us with
  | nil => exact .inr ⟨rfl, halone, hrow ▸ r.wall_kind⟩
  | cons t us => exact .inl (hrow.trans halone.symm)

/-- Where the statement has ended, the row goes on with `var`, `print` or the end, and the
statement alone with the end. A check for anything else fails in both. -/
theorem Alike.check_eq (h : Alike r owed us p q) (kind : TokenKind)
    (hkind : kind ≠ .eof ∧ kind ≠ .kwVar ∧ kind ≠ .kwPrint) : p.check kind = q.check kind := by
  obtain ⟨heof, hvar, hprint⟩ := hkind
  unfold check
  rcases h.current_kind with heq | ⟨-, hq, hp | hp | hp⟩
  · rw [heq]
  · rw [hq, hp]
  · rw [hq, hp, decide_eq_false (Ne.symm hvar), decide_eq_false (Ne.symm heof)]
  · rw [hq, hp, decide_eq_false (Ne.symm hprint), decide_eq_false (Ne.symm heof)]

/-- None of the tokens that may follow a statement is an operator. -/
theorem Alike.binary?_eq (h : Alike r owed us p q) :
    p.current.kind.binary? = q.current.kind.binary? := by
  rcases h.current_kind with heq | ⟨-, hq, hp | hp | hp⟩
  · rw [heq]
  all_goals simp [hq, hp, TokenKind.binary?]

/-- A kind that is checked with success is that of a token of the statement. -/
theorem Alike.of_check (h : Alike r owed us p q) {kind : TokenKind} (hkind : kind ≠ .eof)
    (hcheck : q.check kind = true) : ∃ t us', us = t :: us' ∧ t.kind = kind :=
  h.alone.of_check hkind hcheck

/-! ### Taking tokens -/

/-- A token of the statement is taken in both states. What it may have to store is owed from now
on. -/
theorem Abreast.advance (h : Abreast r owed (t :: us) p q) (hrest : Remainder us)
    (hlast : t.kind = .semicolon ↔ us = []) :
    Alike r (owed + if t.mayStore then 1 else 0) us p.advance q.advance
      ∧ q.advance.previous = t := by
  have halone : kindAhead us ≠ .error := hrest.readable.kindAhead_ne
  have hrow : kindAhead (us.map (Token.shift r.bytes r.lines) ++ r.wall) ≠ .error := by
    cases us with
    | nil => rcases r.wall_kind with hwall | hwall | hwall <;> simp [hwall]
    | cons u us => exact halone
  have hroom := h.room
  rw [List.countP_cons] at hroom
  have hp : p.At (t.shift r.bytes r.lines
      :: (us.map (Token.shift r.bytes r.lines) ++ r.wall)) := h.inRow
  rw [hp.advance hrow, h.alone.advance halone]
  exact ⟨⟨⟨at_moveTo _ _ _, at_moveTo _ _ _, h.mode, h.nesting, h.scope, h.scopeAlone, h.reports,
    h.pool, by rw [poolSize_moveTo]; omega⟩, hrest, rfl, hlast⟩, rfl⟩

theorem Alike.advance (h : Alike r owed (t :: us) p q) :
    Alike r (owed + if t.mayStore then 1 else 0) us p.advance q.advance
      ∧ q.advance.previous = t :=
  h.toAbreast.advance h.remainder.tail h.remainder.semicolon_iff

/-- A token that does not end the statement is taken. -/
theorem Alike.advance_check (h : Alike r owed us p q) {kind : TokenKind} (heof : kind ≠ .eof)
    (hsemicolon : kind ≠ .semicolon) (hcheck : q.check kind = true) :
    ∃ us', us' ≠ [] ∧ us'.length ≤ us.length ∧ Alike r owed us' p.advance q.advance := by
  obtain ⟨t, us', rfl, hkind⟩ := h.of_check heof hcheck
  have hmore := h.remainder.ne_nil (hkind.trans_ne hsemicolon)
  exact ⟨us', hmore, Nat.le_succ _, h.advance.1.weaken⟩

/-! ### Reports -/

/-- An error at a token of the statement, which is reported further behind in the row. -/
theorem Alike.errorAt (h : Alike r owed us p q) (t : Token) (problem : Problem) :
    Alike r owed us (p.errorAt (t.shift r.bytes r.lines) problem) (q.errorAt t problem) where
  inRow := by rw [At, errorAt_current, errorAt_stream]; exact h.inRow
  alone := by rw [At, errorAt_current, errorAt_stream]; exact h.alone
  remainder := h.remainder
  previous := by rw [errorAt_previous, errorAt_previous, h.previous]
  ended := by rw [errorAt_previous]; exact h.ended
  mode := by rw [errorAt_mode, errorAt_mode]
  nesting := by rw [errorAt_nesting, errorAt_nesting, h.nesting]
  scope := by rw [errorAt_scope, h.scope]
  scopeAlone := by rw [errorAt_scope, h.scopeAlone]
  reports := by
    have hpanic : p.isPanicking = q.isPanicking := by rw [isPanicking, h.mode, isPanicking]
    rw [errorAt_diagnostics, errorAt_diagnostics, hpanic, h.reports, List.map_append,
      List.append_assoc]
    split
    · rfl
    · rw [List.map_singleton, Diagnostic.ofProblem_shift]
  pool := by rw [poolSize, poolSize, errorAt_chunk, errorAt_chunk]; exact h.pool
  room := by rw [poolSize, errorAt_chunk]; exact h.room

/-- An error at the token taken last, which is the same in both. -/
theorem Alike.error (h : Alike r owed us p q) (problem : Problem) :
    Continues r owed us (p.error problem) (q.error problem) := by
  have halike := h.errorAt q.previous problem
  rw [← h.previous] at halike
  exact ⟨us, Nat.le_refl _, halike, fun _ => errorAt_mode _ _ _⟩

/-- In a panic it does not matter which token an error is noted at. -/
theorem errorAt_eq_of_panicking (h : p.mode = .panicking) (t u : Token) (problem : Problem) :
    p.errorAt t problem = p.errorAt u problem := by
  unfold Parser.errorAt
  rw [h]

/-- An error at the token that is next. It differs where the statement has ended, but there is a
panic there already, in which nothing is reported. -/
theorem Continues.errorAtCurrent (h : Continues r owed us p q) (problem : Problem) :
    Continues r owed us (p.errorAtCurrent problem) (q.errorAtCurrent problem) := by
  obtain ⟨us', hle, halike, hend⟩ := h
  have hnoted := halike.errorAt q.current problem
  refine ⟨us', hle, ?_, fun _ => errorAt_mode _ _ _⟩
  -- Behind the statement the tokens ahead differ; within it they are the same.
  cases us' with
  | nil =>
    have hmode : p.mode = .panicking := halike.mode.trans (hend rfl)
    rwa [errorAt_eq_of_panicking hmode _ p.current] at hnoted
  | cons t us' =>
    have hp : p.current = t.shift r.bytes r.lines := halike.inRow.1
    have hq : q.current = t := halike.alone.1
    rw [Parser.errorAtCurrent, Parser.errorAtCurrent, hp, hq]
    exact halike.errorAt t problem

/-! ### Code and constants -/

theorem Alike.emit (h : Alike r owed us p q) (op : OpCode) :
    Alike r owed us (p.emit op) (q.emit op) := { h with }

theorem Alike.emitWith (h : Alike r owed us p q) (op op' : OpCode) (operand operand' : UInt8) :
    Alike r owed us (p.emitWith op operand) (q.emitWith op' operand') := { h with }

/-- There is room for a constant that is owed, in both states. -/
theorem Alike.makeConstant (h : Alike r (owed + 1) us p q) (value value' : Value) :
    Alike r owed us (p.makeConstant value).2 (q.makeConstant value').2
      ∧ (q.makeConstant value').2.mode = q.mode := by
  have hroom := h.room
  have hp : p.poolSize < OpCode.operandCount := by
    have := r.cap_le
    omega
  have hq : q.poolSize < OpCode.operandCount := Nat.lt_of_le_of_lt h.pool hp
  have hsize : ∀ (s : Parser) (v : Value),
      ({ s with chunk := (s.chunk.addConstant v).2 } : Parser).poolSize = s.poolSize + 1 := by
    intro s v
    simp [poolSize, Chunk.addConstant]
  rw [makeConstant_of_lt hp, makeConstant_of_lt hq]
  refine ⟨{ h with pool := ?_, room := ?_ }, rfl⟩
  · rw [hsize, hsize]
    exact Nat.succ_le_succ h.pool
  · rw [hsize]
    omega

theorem Alike.makeText (h : Alike r (owed + 1) us p q) (text text' : String) :
    Alike r owed us (p.makeText text).2 (q.makeText text').2
      ∧ (q.makeText text').2.mode = q.mode := by
  have hstored : Alike r (owed + 1) us { p with strings := (p.strings.intern text).2 }
      { q with strings := (q.strings.intern text').2 } := { h with }
  exact hstored.makeConstant _ _

/-- At the outermost level all names are global, so a name is stored in both. -/
theorem Alike.place (h : Alike r (owed + 1) us p q) (name name' : Token) :
    Alike r owed us (p.place name).2 (q.place name').2 := by
  have hglobal : ∀ (s : Parser) (n : Token), s.scope = .empty →
      s.place n = (.global (s.makeText n.lexeme).1, (s.makeText n.lexeme).2) := by
    intro s n hs
    refine place_of_global ?_
    rw [slots, hs]
    rfl
  rw [hglobal p name h.scope, hglobal q name' h.scopeAlone]
  exact (h.makeText _ _).1

theorem Alike.emitGet (h : Alike r owed us p q) (place place' : Place) :
    Alike r owed us (place.emitGet p) (place'.emitGet q) := by
  cases place <;> cases place' <;> exact h.emitWith _ _ _ _

theorem Alike.emitSet (h : Alike r owed us p q) (place place' : Place) :
    Alike r owed us (place.emitSet p) (place'.emitSet q) := by
  cases place <;> cases place' <;> exact h.emitWith _ _ _ _

theorem Continues.emitSet (h : Continues r owed us p q) (place place' : Place) :
    Continues r owed us (place.emitSet p) (place'.emitSet q) := by
  obtain ⟨us', hle, halike, hend⟩ := h
  exact ⟨us', hle, halike.emitSet place place', by cases place' <;> exact hend⟩

theorem Continues.emit (h : Continues r owed us p q) (op : OpCode) :
    Continues r owed us (p.emit op) (q.emit op) := by
  obtain ⟨us', hle, halike, hend⟩ := h
  exact ⟨us', hle, halike.emit op, hend⟩

theorem Continues.emitAll (h : Continues r owed us p q) (ops : List OpCode) :
    Continues r owed us (p.emitAll ops) (q.emitAll ops) := by
  induction ops generalizing p q with
  | nil => exact h
  | cons op rest ih => exact ih (h.emit op)

/-! ### Expressions -/

/-- Started in front of a token of the statement, `operand` does the same in both states. -/
def OperandAlike (operand : Precedence → Parser → Parser) : Prop :=
  ∀ ⦃r : Row⦄ ⦃min : Precedence⦄ ⦃owed : Nat⦄ ⦃us : List Token⦄ ⦃p q : Parser⦄,
    Alike r owed us p q → us ≠ [] → Continues r owed us (operand min p) (operand min q)

/-- A missing parenthesis is reported in both states, or noted in a panic in both. -/
theorem Continues.closing (h : Continues r owed us p q) (problem : Problem) :
    Continues r owed us (p.consume .rightParen problem) (q.consume .rightParen problem) := by
  obtain ⟨us', hle, halike, hend⟩ := h
  have hcheck := halike.check_eq .rightParen (by decide)
  unfold consume
  rw [hcheck]
  split
  · rename_i hclosing
    obtain ⟨us'', hmore, hless, hnext⟩ :=
      halike.advance_check (by decide) (by decide) hclosing
    exact (hnext.continues hmore).mono (Nat.le_trans hless hle)
  · exact Continues.errorAtCurrent ⟨us', hle, halike, hend⟩ problem

/-- A number that cannot be read is an error in both; what was owed for it is not stored then. -/
theorem Alike.number (h : Alike r (owed + 1) us p q) (hus : us ≠ []) :
    Continues r owed us p.number q.number := by
  have hvalue : p.previous.number? = q.previous.number? := by rw [h.previous]; rfl
  unfold Parser.number
  rw [hvalue]
  split
  · exact ((h.makeConstant _ _).1.emitWith _ _ _ _).continues hus
  · exact h.weaken.error _

theorem Alike.string (h : Alike r (owed + 1) us p q) (hus : us ≠ []) :
    Continues r owed us p.string q.string :=
  ((h.makeText _ _).1.emitWith _ _ _ _).continues hus

section Operand

variable {operand : Precedence → Parser → Parser}

/-- Behind a name an `=` is a token of the statement, so an assignment is one in both. -/
theorem Alike.variableUse (hoperand : OperandAlike operand) (h : Alike r (owed + 1) us p q)
    (hus : us ≠ []) (canAssign : Bool) :
    Continues r owed us (variableUse operand canAssign p) (variableUse operand canAssign q) := by
  have hplace := h.place p.previous q.previous
  have hcheck := hplace.check_eq .equal (by decide)
  unfold Parser.variableUse
  dsimp only
  rw [hcheck]
  split
  · rename_i hassign
    obtain ⟨us', hmore, hless, hnext⟩ :=
      hplace.advance_check (by decide) (by decide) ((Bool.and_eq_true _ _).mp hassign).2
    exact ((hoperand hnext hmore).mono hless).emitSet _ _
  · exact (hplace.emitGet _ _).continues hus

/-- A token that may store a constant is owed one, which its opening redeems. -/
theorem Alike.opening (hoperand : OperandAlike operand)
    (h : Alike r (owed + if q.previous.mayStore then 1 else 0) us p q) (hus : us ≠ [])
    (canAssign : Bool) {first : Opening} (hfirst : q.previous.kind.opening? = some first) :
    Continues r owed us (opening operand canAssign p first)
      (opening operand canAssign q first) := by
  have howed : q.previous.mayStore = true → Alike r (owed + 1) us p q := by
    intro hstore
    rwa [hstore, if_pos rfl] at h
  cases first with
  | group => exact (hoperand h.weaken hus).closing _
  | unary op => exact (hoperand h.weaken hus).emit _
  | word literal => exact (h.weaken.emit _).continues hus
  | number => exact (howed (by simp [Token.mayStore, kind_of_number hfirst])).number hus
  | string => exact (howed (by simp [Token.mayStore, kind_of_string hfirst])).string hus
  | «variable» =>
    exact (howed (by simp [Token.mayStore, kind_of_variable hfirst])).variableUse hoperand hus _

/-- Operators are taken alike however much fuel there is, if it is enough for the tokens of
the statement. -/
theorem Continues.operators (hoperand : OperandAlike operand) (min : Precedence) (fuel : Nat) :
    ∀ {fuel' : Nat} {us : List Token} {p q : Parser}, us.length ≤ fuel → us.length ≤ fuel' →
      Continues r owed us p q →
      Continues r owed us (operators operand min fuel p) (operators operand min fuel' q) := by
  -- An operator is one of the tokens of the statement.
  have hfirst : ∀ {us : List Token} {p q : Parser} {o : BinaryOp}, Alike r owed us p q →
      q.current.kind.binary? = some o →
      ∃ t us', us = t :: us' ∧ us' ≠ [] ∧ Alike r owed us' p.advance q.advance := by
    intro us p q o halike hop
    cases us with
    | nil =>
      rw [halike.alone.current_kind] at hop
      cases hop
    | cons t us' =>
      have hcurrent : q.current = t := halike.alone.1
      have hkind : t.kind ≠ .semicolon := by
        intro hkind
        rw [hcurrent, hkind] at hop
        cases hop
      exact ⟨t, us', rfl, halike.remainder.ne_nil hkind, halike.advance.1.weaken⟩
  -- The two fuels differ, as more tokens are left in the row; so the induction is on the one, and
  -- the other is only taken apart.
  induction fuel with
  | zero =>
    intro fuel' us p q hfuel hfuel' h
    obtain ⟨us', hle, halike, hend⟩ := h
    cases hop : q.current.kind.binary? with
    | none =>
      rw [operators_of_not_binary (halike.binary?_eq.trans hop), operators_of_not_binary hop]
      exact ⟨us', hle, halike, hend⟩
    | some o =>
      obtain ⟨t, us'', rfl, -⟩ := hfirst halike hop
      exact absurd (Nat.le_trans hle hfuel) (Nat.not_succ_le_zero _)
  | succ fuel ih =>
    intro fuel' us p q hfuel hfuel' h
    obtain ⟨us', hle, halike, hend⟩ := h
    cases hop : q.current.kind.binary? with
    | none =>
      rw [operators_of_not_binary (halike.binary?_eq.trans hop), operators_of_not_binary hop]
      exact ⟨us', hle, halike, hend⟩
    | some o =>
      obtain ⟨t, us'', rfl, hmore, hnext⟩ := hfirst halike hop
      rw [List.length_cons] at hle
      cases fuel' with
      | zero => exact absurd (Nat.le_trans hle hfuel') (Nat.not_succ_le_zero _)
      | succ fuel' =>
        unfold Parser.operators
        rw [halike.binary?_eq, hop]
        dsimp only
        split
        · exact ⟨t :: us'', hle, halike, hend⟩
        · have hright : Continues r owed us'' (operand o.precedence.next p.advance)
              (operand o.precedence.next q.advance) := hoperand hnext hmore
          exact (ih (by omega) (by omega) (hright.emitAll o.code)).mono (by omega)

theorem Continues.rejectTarget (h : Continues r owed us p q) (canAssign : Bool) :
    Continues r owed us (rejectTarget canAssign p) (rejectTarget canAssign q) := by
  obtain ⟨us', hle, halike, hend⟩ := h
  have hcheck := halike.check_eq .equal (by decide)
  unfold Parser.rejectTarget
  rw [hcheck]
  split
  · rename_i hreject
    obtain ⟨us'', -, hless, hnext⟩ :=
      halike.advance_check (by decide) (by decide) ((Bool.and_eq_true _ _).mp hreject).2
    exact (hnext.error _).mono (Nat.le_trans hless hle)
  · exact ⟨us', hle, halike, hend⟩

/-- All tokens of the statement that are left count as fuel. -/
theorem Alike.length_le (h : Alike r owed us p q) :
    us.length ≤ p.tokensLeft ∧ us.length ≤ q.tokensLeft := by
  cases us with
  | nil => exact ⟨Nat.zero_le _, Nat.zero_le _⟩
  | cons t us =>
    have hkind : t.kind ≠ .eof := h.remainder.kind_ne_eof
    have hrow : p.At (t.shift r.bytes r.lines
        :: (us.map (Token.shift r.bytes r.lines) ++ r.wall)) := h.inRow
    rw [hrow.tokensLeft_cons hkind, h.alone.tokensLeft_cons hkind, List.length_append,
      List.length_map, List.length_cons]
    omega

/-- An expression that is started in front of a token of the statement. If an opening follows, the
token was not the `;`, so that more of the statement is left for the operand. -/
theorem Alike.climb (hoperand : OperandAlike operand) (h : Alike r owed us p q) (hus : us ≠ [])
    (min : Precedence) : Continues r owed us (climb operand min p) (climb operand min q) := by
  obtain ⟨t, us, rfl⟩ := List.exists_cons_of_ne_nil hus
  obtain ⟨hnext, hprevious⟩ := h.advance
  have hkind : p.advance.previous.kind = q.advance.previous.kind := by rw [hnext.previous]; rfl
  unfold Parser.climb
  dsimp only
  rw [hkind]
  cases hfirst : q.advance.previous.kind.opening? with
  | none => exact (hnext.weaken.error _).mono (Nat.le_succ _)
  | some first =>
    have hmore : us ≠ [] := by
      refine h.remainder.ne_nil fun hsemicolon => ?_
      rw [hprevious, hsemicolon] at hfirst
      cases hfirst
    rw [← hprevious] at hnext
    obtain ⟨us', hle, halike, hend⟩ :=
      hnext.opening hoperand hmore min.allowsAssignment hfirst
    have hfuel := halike.length_le
    have hchain := Continues.operators hoperand min _ hfuel.1 hfuel.2
      ⟨us', Nat.le_refl _, halike, hend⟩
    exact (hchain.rejectTarget _).mono (Nat.le_succ_of_le hle)

end Operand

/-- Operands compiled in front of a token of the statement keep the states alike, by induction on
the levels of nesting. -/
theorem parseLevel_alike (more : Nat) : OperandAlike (parseLevel more) := by
  induction more with
  | zero => exact fun r min owed us p q h hus => h.error _
  | succ more ih =>
    intro r min owed us p q h hus
    unfold parseLevel
    rw [h.nesting]
    split
    · exact h.error _
    · have hdown : Alike r owed us { p with nesting := q.nesting + 1 }
          { q with nesting := q.nesting + 1 } := { h with nesting := rfl }
      obtain ⟨us', hle, halike, hend⟩ := hdown.climb ih hus min
      exact ⟨us', hle, { halike with nesting := congrArg (· - 1) halike.nesting }, hend⟩

theorem Alike.expression (h : Alike r owed us p q) (hus : us ≠ []) :
    Continues r owed us p.expression q.expression :=
  parseLevel_alike maxNesting h hus

/-! ### Statements -/

/-- States behind the last `;` that was looked for: it has been found, or there is a
panic. -/
def Closes (r : Row) (owed : Nat) (p q : Parser) : Prop :=
  ∃ us, Alike r owed us p q ∧ (us = [] ∨ q.mode = .panicking)

/-- The `;` is the last token of the statement, so that behind it nothing is left of it; if it is
missing there is a panic. -/
theorem Continues.terminator (h : Continues r owed us p q) (problem : Problem) :
    Closes r owed (p.consume .semicolon problem) (q.consume .semicolon problem) := by
  have hmissing := h.errorAtCurrent problem
  obtain ⟨us', -, halike, -⟩ := h
  have hcheck := halike.check_eq .semicolon (by decide)
  unfold consume
  rw [hcheck]
  split
  · rename_i hsemicolon
    obtain ⟨t, us'', rfl, hkind⟩ := halike.of_check (by decide) hsemicolon
    have hnil : us'' = [] := halike.remainder.semicolon_iff.1 hkind
    exact ⟨us'', halike.advance.1.weaken, .inl hnil⟩
  · obtain ⟨us'', -, hnoted, -⟩ := hmissing
    exact ⟨us'', hnoted, .inr (errorAt_mode _ _ _)⟩

theorem Closes.emit (h : Closes r owed p q) (op : OpCode) :
    Closes r owed (p.emit op) (q.emit op) := by
  obtain ⟨us, halike, hend⟩ := h
  exact ⟨us, halike.emit op, hend⟩

theorem Closes.define (h : Closes r (owed + 1) p q) (name name' : Token) :
    Closes r owed (p.define name) (q.define name') := by
  obtain ⟨us, halike, hend⟩ := h
  obtain ⟨hstored, hmode⟩ := halike.makeText name.lexeme name'.lexeme
  rw [define_of_global halike.scope, define_of_global halike.scopeAlone]
  exact ⟨us, hstored.emitWith _ _ _ _, hend.imp_right hmode.trans⟩

theorem Alike.initializer (h : Alike r owed us p q) (hus : us ≠ []) :
    Continues r owed us p.initializer q.initializer := by
  have hcheck := h.check_eq .equal (by decide)
  unfold Parser.initializer
  rw [hcheck]
  split
  · rename_i hequal
    obtain ⟨us', hmore, hless, hnext⟩ := h.advance_check (by decide) (by decide) hequal
    exact (hnext.expression hmore).mono hless
  · exact (h.emit _).continues hus

/-- The constant that is owed is the name of the variable, or the text of `var` if there
is none. -/
theorem Alike.varDeclaration (h : Alike r (owed + 1) us p q) (hus : us ≠ []) :
    Closes r owed p.varDeclaration q.varDeclaration := by
  have hname : ∃ us', us' ≠ [] ∧ Alike r (owed + 1) us'
      (p.consume .identifier .variableNameMissing)
      (q.consume .identifier .variableNameMissing) := by
    have hcheck := h.check_eq .identifier (by decide)
    unfold consume
    rw [hcheck]
    split
    · rename_i hidentifier
      obtain ⟨us', hmore, -, hnext⟩ := h.advance_check (by decide) (by decide) hidentifier
      exact ⟨us', hmore, hnext⟩
    · obtain ⟨t, us', rfl⟩ := List.exists_cons_of_ne_nil hus
      have hp : p.current = t.shift r.bytes r.lines := h.inRow.1
      have hq : q.current = t := h.alone.1
      rw [errorAtCurrent, errorAtCurrent, hp, hq]
      exact ⟨t :: us', hus, h.errorAt t _⟩
  obtain ⟨us', hmore, hname⟩ := hname
  rw [varDeclaration_eq, varDeclaration_eq]
  exact ((hname.initializer hmore).terminator _).define _ _

theorem Alike.printStatement (h : Alike r owed us p q) (hus : us ≠ []) :
    Closes r owed p.printStatement q.printStatement :=
  ((h.expression hus).terminator _).emit _

/-- Whether some tokens are those of a statement that begins with `var` or `print`. -/
def IsStatement (us : List Token) : Prop :=
  ∃ t rest, us = t :: rest ∧ (t.kind = .kwVar ∨ t.kind = .kwPrint) ∧ rest ≠ [] ∧ Remainder rest

/-- The first token is `var` or `print`, which decides the rule in both states. No block is
entered, so the bodies need not be related. -/
theorem Abreast.declarationBody (h : Abreast r 0 us p q) (hus : IsStatement us)
    (body body' : TokenKind → Parser → Parser) :
    Closes r 0 (declarationBody body p) (declarationBody body' q) := by
  obtain ⟨t, rest, rfl, hkind, hmore, hrest⟩ := hus
  have hlast : t.kind = .semicolon ↔ rest = [] := by
    refine ⟨fun hsemicolon => ?_, fun hnil => absurd hnil hmore⟩
    rcases hkind with hkind | hkind <;> rw [hkind] at hsemicolon <;> cases hsemicolon
  have hnext := (h.advance hrest hlast).1
  have hp : p.current.kind = t.kind := h.inRow.current_kind
  have hq : q.current.kind = t.kind := h.alone.current_kind
  unfold Parser.declarationBody statement check
  rw [hp, hq]
  rcases hkind with hkind | hkind
  · have hstore : t.mayStore = true := by simp [Token.mayStore, hkind]
    rw [hstore, if_pos rfl] at hnext
    rw [hkind]
    exact hnext.varDeclaration hmore
  · rw [hkind]
    exact hnext.weaken.printStatement hmore

/-- The search for a boundary ends behind the statement. -/
theorem Alike.skipToBoundary (h : Alike r owed us p q) :
    Alike r owed [] p.skipToBoundary q.skipToBoundary := by
  have hstop : ∀ s : Parser, s.atBoundary = true → s.skipToBoundary = s := by
    intro s hs
    rw [Parser.skipToBoundary, if_pos hs]
  have hskip : ∀ s : Parser, s.atBoundary = false →
      s.skipToBoundary = s.advance.skipToBoundary := by
    intro s hs
    rw [Parser.skipToBoundary, if_neg (Bool.eq_false_iff.1 hs)]
  -- The search stops behind the `;` that ends the statement, so the induction is on what is left
  -- of it.
  induction us generalizing p q with
  | nil =>
    have hq : q.previous.kind = .semicolon := h.ended.2 rfl
    have hp : p.previous.kind = .semicolon := (congrArg Token.kind h.previous).trans hq
    rw [hstop p (by simp [atBoundary, hp]), hstop q (by simp [atBoundary, hq])]
    exact h
  | cons t us ih =>
    obtain ⟨-, heof, hword, -⟩ := h.remainder
    have hq : q.previous.kind ≠ .semicolon := fun hkind => absurd (h.ended.1 hkind) (by simp)
    have hp : p.previous.kind ≠ .semicolon := fun hkind =>
      hq ((congrArg Token.kind h.previous).symm.trans hkind)
    have hpcurrent : p.current.kind = t.kind := h.inRow.current_kind
    have hqcurrent : q.current.kind = t.kind := h.alone.current_kind
    rw [hskip p (by simp [atBoundary, check, hp, hpcurrent, heof, hword]),
      hskip q (by simp [atBoundary, check, hq, hqcurrent, heof, hword])]
    exact ih h.advance.1.weaken

/-- A declaration ends behind its statement, outside a panic, and has made the same reports
in both states. -/
theorem Abreast.declaration (h : Abreast r 0 us p q) (hus : IsStatement us)
    (body body' : TokenKind → Parser → Parser) :
    Abreast r 0 [] (declaration body p) (declaration body' q)
      ∧ (declaration body' q).mode = .normal := by
  obtain ⟨us', halike, hend⟩ := h.declarationBody hus body body'
  have hmode : (Parser.declarationBody body p).isPanicking
      = (Parser.declarationBody body' q).isPanicking := by
    rw [isPanicking, halike.mode, isPanicking]
  unfold Parser.declaration
  dsimp only
  rw [hmode]
  cases hq : (Parser.declarationBody body' q).mode with
  | normal =>
    rw [isPanicking, hq, if_neg (by decide), if_neg (by decide)]
    obtain rfl := hend.resolve_right (by rw [hq]; decide)
    exact ⟨halike.toAbreast, hq⟩
  | panicking =>
    rw [isPanicking, hq, if_pos (by decide), if_pos (by decide)]
    have hskipped := halike.skipToBoundary
    exact ⟨{ hskipped with mode := rfl }, rfl⟩

end Alike

end Parser

end OnePass
