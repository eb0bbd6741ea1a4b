import OnePass.Proofs.Code.Expression
import OnePass.Proofs.Grammar.Climbing
import OnePass.Proofs.Parser.Run

/-!
# OnePass.Proofs.Parser.Window

The states that a parser without errors goes through. Relative to a first state they
differ in where the parser stands in its tokens (`moveTo`) and in what it has written
(`write`). Each operation is such a change of state, or leads to an error.

These are equations of whole states and not statements about some of their fields. So two
operations in a row are composed by rewriting (`write_write`, `moveTo_moveTo`), and what a
compilation comes to is one state that can be written down in advance. Behind an error none of
this holds any longer; what is known of such states is read off the footprints of the operations,
or off their courses.
-/

namespace OnePass

theorem TokenStream.next_eq (s : TokenStream) :
    s.next = (s.pending.headD s.ending, { s with pending := s.pending.tail }) := by
  obtain ⟨pending, offset, line⟩ := s
  cases pending <;> rfl

namespace Parser

/-! ### Where the parser stands -/

/-- The tokens in front of the parser. Behind the last one there are end tokens. -/
def At (p : Parser) (rest : List Token) : Prop :=
  p.current = rest.headD p.stream.ending ∧ p.stream.pending = rest.tail

/-- The parser in front of other tokens, after it has taken a token. -/
def moveTo (p : Parser) (last : Token) (rest : List Token) : Parser :=
  { p with
    stream := { p.stream with pending := rest.tail }
    current := rest.headD p.stream.ending
    previous := last }

@[simp] theorem moveTo_moveTo (p : Parser) (last last' : Token) (rest rest' : List Token) :
    (p.moveTo last rest).moveTo last' rest' = p.moveTo last' rest' := rfl

theorem at_moveTo (p : Parser) (last : Token) (rest : List Token) :
    (p.moveTo last rest).At rest :=
  ⟨rfl, rfl⟩

theorem At.current_kind {p : Parser} {rest : List Token} (h : p.At rest) :
    p.current.kind = kindAhead rest := by
  rw [h.1]
  cases rest <;> rfl

/-- A check looks at the first of the tokens in front of the parser. -/
theorem At.check_iff {p : Parser} {rest : List Token} (h : p.At rest) (kind : TokenKind) :
    p.check kind = true ↔ kindAhead rest = kind := by
  rw [check, h.current_kind, decide_eq_true_iff]

theorem At.check_of_ne {p : Parser} {rest : List Token} {kind : TokenKind} (h : p.At rest)
    (hne : kindAhead rest ≠ kind) : ¬ p.check kind = true := by
  rw [h.check_iff]
  exact hne

/-- A kind that is checked with success is that of a token, if it is not that of the end. -/
theorem At.of_check {p : Parser} {ts : List Token} {kind : TokenKind} (h : p.At ts)
    (hkind : kind ≠ .eof) (hcheck : p.check kind = true) :
    ∃ t rest, ts = t :: rest ∧ t.kind = kind := by
  have hahead := (h.check_iff kind).1 hcheck
  cases ts with
  | nil => exact absurd hahead.symm hkind
  | cons t rest => exact ⟨t, rest, rfl, hahead⟩

/-- No more tokens are left than there are in front of the parser. -/
theorem At.tokensLeft_le {p : Parser} {rest : List Token} (h : p.At rest) :
    p.tokensLeft ≤ rest.length := by
  unfold tokensLeft
  rw [h.current_kind, h.2]
  cases rest with
  | nil => simp
  | cons t rest =>
    simp only [List.tail_cons, List.length_cons]
    split <;> omega

/-- Without a token that is left, the end has been reached. -/
theorem current_kind_of_tokensLeft {p : Parser} (h : p.tokensLeft = 0) :
    p.current.kind = .eof := by
  unfold tokensLeft at h
  split at h
  · assumption
  · omega

theorem At.tokensLeft_cons {p : Parser} {t : Token} {rest : List Token} (h : p.At (t :: rest))
    (ht : t.kind ≠ .eof) : p.tokensLeft = rest.length + 1 := by
  unfold tokensLeft
  rw [h.current_kind, h.2, kindAhead_cons, if_neg ht, List.tail_cons]

/-- Less is left behind a token than in front of it. -/
theorem At.tokensLeft_moveTo_lt {p : Parser} {t : Token} {rest : List Token}
    (h : p.At (t :: rest)) (ht : t.kind ≠ .eof) :
    (p.moveTo t rest).tokensLeft < p.tokensLeft := by
  rw [h.tokensLeft_cons ht]
  exact Nat.lt_succ_of_le (p.at_moveTo t rest).tokensLeft_le

/-- A token is taken without an error if none stands behind it. -/
theorem At.advance {p : Parser} {t : Token} {rest : List Token} (h : p.At (t :: rest))
    (hrest : kindAhead rest ≠ .error) : p.advance = p.moveTo t rest := by
  have hcurrent : p.current = t := h.1
  have hpending : p.stream.pending = rest := h.2
  have hnone : p.stream.leadingErrors = [] := by
    rw [TokenStream.leadingErrors, hpending]
    cases rest with
    | nil => rfl
    | cons u rest =>
      rw [kindAhead_cons] at hrest
      rw [List.takeWhile_cons_of_neg (by simpa using hrest)]
  -- No error is skipped, so the stream behind the errors is the stream itself.
  have hall : p.stream.afterErrors = p.stream := by
    have happ := p.stream.leadingErrors_append
    rw [hnone, List.nil_append] at happ
    rw [TokenStream.afterErrors] at happ ⊢
    simp only at happ
    rw [happ]
  unfold Parser.advance reportErrors moveTo
  simp only [hall, hnone, List.foldl_nil, TokenStream.next_eq, hpending, hcurrent]

/-- If taking a token is no error, then no error stands behind the token. -/
theorem At.kindAhead_ne_error {p : Parser} {t : Token} {rest : List Token}
    (h : p.At (t :: rest)) (herror : p.advance.hadError = false) : kindAhead rest ≠ .error := by
  intro hkind
  have hpending : p.stream.pending = rest := h.2
  rw [advance_hadError, TokenStream.leadingErrors, hpending] at herror
  cases rest with
  | nil => cases hkind
  | cons u rest =>
    rw [List.takeWhile_cons_of_pos (by simpa using hkind)] at herror
    simp at herror

theorem At.advance_of_no_error {p : Parser} {t : Token} {rest : List Token}
    (h : p.At (t :: rest)) (herror : p.advance.hadError = false) :
    p.advance = p.moveTo t rest :=
  h.advance (h.kindAhead_ne_error herror)

/-- A token of the right kind is taken. -/
theorem At.consume {p : Parser} {t : Token} {rest : List Token} {kind : TokenKind}
    (h : p.At (t :: rest)) (hkind : t.kind = kind) (hrest : kindAhead rest ≠ .error)
    (problem : Problem) : p.consume kind problem = p.moveTo t rest := by
  unfold Parser.consume
  rw [if_pos ((h.check_iff kind).2 hkind), h.advance hrest]

/-- Behind the last token, an end token is taken. -/
theorem At.advance_nil {p : Parser} (h : p.At []) : p.advance = p.moveTo p.stream.ending [] := by
  have hending : p.At [p.stream.ending] := h
  exact hending.advance (by decide)

theorem At.consume_nil {p : Parser} (h : p.At []) (problem : Problem) :
    p.consume .eof problem = p.moveTo p.stream.ending [] := by
  unfold Parser.consume
  rw [if_pos ((h.check_iff .eof).2 rfl), h.advance_nil]

/-- Only a token of the right kind is taken without an error. -/
theorem At.of_consume {p : Parser} {ts : List Token} {kind : TokenKind} {problem : Problem}
    (h : p.At ts) (hkind : kind ≠ .eof)
    (herror : (p.consume kind problem).hadError = false) :
    ∃ t rest, ts = t :: rest ∧ t.kind = kind ∧ p.consume kind problem = p.moveTo t rest := by
  unfold Parser.consume at herror ⊢
  split at herror
  · rename_i hcheck
    obtain ⟨t, rest, rfl, ht⟩ := h.of_check hkind hcheck
    refine ⟨t, rest, rfl, ht, ?_⟩
    rw [if_pos hcheck, h.advance_of_no_error herror]
  · rw [errorAtCurrent, errorAt_hadError] at herror
    cases herror

/-! ### Where the parser starts -/

/-- The state before the first token is current. -/
def origin (stream : TokenStream) (strings : Interner) : Parser :=
  { stream, current := ⟨.eof, "", 0, 1⟩, previous := ⟨.eof, "", 0, 1⟩, chunk := .empty, strings
    diagnostics := [], scope := .empty, nesting := 0, hadError := false, mode := .normal }

/-- The first state without an error, in front of all tokens. -/
def entry (stream : TokenStream) (strings : Interner) : Parser :=
  (origin stream strings).moveTo ⟨.eof, "", 0, 1⟩ stream.pending

/-- The first token is pulled as every other one, so it is an error if error tokens stand in front
of it. -/
theorem start_eq_entry {stream : TokenStream} (strings : Interner)
    (h : kindAhead stream.pending ≠ .error) : start stream strings = entry stream strings :=
  At.advance (p := origin stream strings) ⟨rfl, rfl⟩ h

theorem start_of_no_error {stream : TokenStream} {strings : Interner}
    (h : (start stream strings).hadError = false) :
    start stream strings = entry stream strings :=
  At.advance_of_no_error (p := origin stream strings) ⟨rfl, rfl⟩ h

theorem at_entry (stream : TokenStream) (strings : Interner) :
    (entry stream strings).At stream.pending :=
  at_moveTo ..

/-! ### What the parser writes -/

/-- The parser after it has written instructions and stored constants. -/
def write (p : Parser) (code : List Written) (constants : List Constant) : Parser :=
  { p with
    chunk :=
      ⟨p.chunk.code ++ code.flatMap Written.bytes,
       p.chunk.constants ++ (TextStore.storeAll p.strings constants).1⟩
    strings := (TextStore.storeAll p.strings constants).2 }

/-- How many constants the pool holds. -/
def poolSize (p : Parser) : Nat := p.chunk.constants.length

/-- The slots of the locals that are in scope. -/
def slots (p : Parser) : Slots := fun name => (p.scope.slot? name).bind OpCode.operand?

@[simp] theorem write_nil (p : Parser) : p.write [] [] = p := by
  simp [write]

@[simp] theorem write_write (p : Parser) (code code' : List Written)
    (constants constants' : List Constant) :
    (p.write code constants).write code' constants'
      = p.write (code ++ code') (constants ++ constants') := by
  simp [write, TextStore.storeAll_append]

@[simp] theorem write_moveTo (p : Parser) (code : List Written) (constants : List Constant)
    (last : Token) (rest : List Token) :
    (p.write code constants).moveTo last rest = (p.moveTo last rest).write code constants := rfl

@[simp] theorem poolSize_write (p : Parser) (code : List Written) (constants : List Constant) :
    (p.write code constants).poolSize = p.poolSize + constants.length := by
  simp [write, poolSize]

@[simp] theorem poolSize_moveTo (p : Parser) (last : Token) (rest : List Token) :
    (p.moveTo last rest).poolSize = p.poolSize := rfl

@[simp] theorem slots_write (p : Parser) (code : List Written) (constants : List Constant) :
    (p.write code constants).slots = p.slots := rfl

@[simp] theorem slots_moveTo (p : Parser) (last : Token) (rest : List Token) :
    (p.moveTo last rest).slots = p.slots := rfl

theorem At.write {p : Parser} {rest : List Token} (h : p.At rest) (code : List Written)
    (constants : List Constant) : (p.write code constants).At rest := h

/-- A parser that has moved and written stands where it has moved to. -/
theorem at_write_moveTo (p : Parser) (last : Token) (rest : List Token) (code : List Written)
    (constants : List Constant) : ((p.moveTo last rest).write code constants).At rest :=
  (p.at_moveTo last rest).write code constants

theorem emit_eq (p : Parser) (op : OpCode) :
    p.emit op = p.write [⟨op, none, p.previous.line⟩] [] := by
  simp [emit, write, Chunk.write, Written.bytes]

theorem emitWith_eq (p : Parser) (op : OpCode) (operand : UInt8) :
    p.emitWith op operand = p.write [⟨op, some operand, p.previous.line⟩] [] := by
  simp [emitWith, write, Chunk.writeWithOperand, Written.bytes]

/-- Instructions without operands, all on the line of the token that was taken last. -/
theorem emitAll_eq (p : Parser) (ops : List OpCode) :
    p.emitAll ops = p.write (ops.map (⟨·, none, p.previous.line⟩)) [] := by
  induction ops generalizing p with
  | nil => exact p.write_nil.symm
  | cons op rest ih =>
    -- Writing takes no token, so the line stays the same for all of them.
    have hstep : p.emitAll (op :: rest) = (p.emit op).emitAll rest := rfl
    rw [hstep, ih, emit_eq, write_write]
    rfl

/-! ### Constants -/

/-- A constant for which there is room gets the next index. -/
theorem makeConstant_of_lt {p : Parser} (h : p.poolSize < OpCode.operandCount) (value : Value) :
    p.makeConstant value
      = (UInt8.ofNat p.poolSize, { p with chunk := (p.chunk.addConstant value).2 }) := by
  unfold makeConstant
  have hfits : OpCode.operand? (p.chunk.addConstant value).1 = some (UInt8.ofNat p.poolSize) :=
    OpCode.operand?_of_lt h
  simp only [hfits]

/-- A constant whose index does not fit an operand is an error. -/
theorem poolSize_lt_of_makeConstant {p : Parser} {value : Value}
    (h : (p.makeConstant value).2.hadError = false) : p.poolSize < OpCode.operandCount := by
  refine Nat.lt_of_not_le fun hle => ?_
  have hnone : OpCode.operand? (p.chunk.addConstant value).1 = none :=
    OpCode.operand?_eq_none_iff.2 hle
  unfold makeConstant at h
  simp only [hnone] at h
  rw [error, errorAt_hadError] at h
  cases h

theorem makeConstant_number {p : Parser} (h : p.poolSize < OpCode.operandCount) (x : Binary64) :
    p.makeConstant (.number x) = (UInt8.ofNat p.poolSize, p.write [] [.number x]) := by
  rw [makeConstant_of_lt h]
  simp [write, Chunk.addConstant, TextStore.storeAll_singleton, TextStore.store]

theorem makeText_of_lt {p : Parser} (h : p.poolSize < OpCode.operandCount) (text : String) :
    p.makeText text = (UInt8.ofNat p.poolSize, p.write [] [.text text]) := by
  have hroom : ({ p with strings := (p.strings.intern text).2 } : Parser).poolSize
      < OpCode.operandCount := h
  rw [makeText, makeConstant_of_lt hroom]
  simp [write, poolSize, Chunk.addConstant, TextStore.storeAll_singleton, TextStore.store]

theorem poolSize_lt_of_makeText {p : Parser} {text : String}
    (h : (p.makeText text).2.hadError = false) : p.poolSize < OpCode.operandCount :=
  poolSize_lt_of_makeConstant (p := { p with strings := (p.strings.intern text).2 }) h

/-! ### Names -/

/-- A local is found without storing its name. -/
theorem place_of_local {p : Parser} {name : Token} {slot : UInt8}
    (h : p.slots name.lexeme = some slot) : p.place name = (.slot slot, p) := by
  have hresolve : p.resolveLocal name = some slot := h
  rw [place, hresolve]

/-- Every other name is stored, whether it has been declared or not. -/
theorem place_of_global {p : Parser} {name : Token} (h : p.slots name.lexeme = none) :
    p.place name = (.global (p.makeText name.lexeme).1, (p.makeText name.lexeme).2) := by
  have hresolve : p.resolveLocal name = none := h
  rw [place, hresolve]
  rfl

/-- In the outermost scope a name is defined by its constant. -/
theorem define_of_global {p : Parser} (h : p.scope = .empty) (name : Token) :
    p.define name
      = (p.makeText name.lexeme).2.emitWith .defineGlobal (p.makeText name.lexeme).1 := by
  have hdepth : ¬ 0 < p.scope.depth := by rw [h]; decide
  unfold define
  rw [if_neg hdepth]
  rfl

/-- Looking up a name that is not that of a local stores it. What it refers to is then
read and written by the instructions of the reference translation. -/
theorem exists_place {p : Parser} {name : Token} (hname : name.kind = .identifier)
    (hroom : p.poolSize + (name.constant? p.slots).toList.length ≤ OpCode.operandCount) :
    ∃ place, p.place name = (place, p.write [] (name.constant? p.slots).toList)
      ∧ (∀ q : Parser, q.previous = name →
          place.emitGet q = q.write (name.load p.slots p.poolSize) [])
      ∧ ∀ q : Parser,
          place.emitSet q = q.write [name.assignCode p.slots p.poolSize q.previous.line] [] := by
  cases hslot : p.slots name.lexeme with
  | some slot =>
    have hnone : name.constant? p.slots = none := by
      simp [Token.constant?, hname, hslot]
    refine ⟨.slot slot, ?_, fun q hq => ?_, fun q => ?_⟩
    · rw [place_of_local hslot, hnone, Option.toList_none, write_nil]
    · simp [Place.emitGet, emitWith_eq, Token.load, hname, hslot, hq]
    · simp [Place.emitSet, emitWith_eq, Token.assignCode, hslot]
  | none =>
    have hsome : name.constant? p.slots = some (.text name.lexeme) := by
      simp [Token.constant?, hname, hslot]
    rw [hsome] at hroom ⊢
    refine ⟨.global (UInt8.ofNat p.poolSize), ?_, fun q hq => ?_, fun q => ?_⟩
    · rw [place_of_global hslot, makeText_of_lt hroom, Option.toList_some]
    · simp [Place.emitGet, emitWith_eq, Token.load, hname, hslot, hq]
    · simp [Place.emitSet, emitWith_eq, Token.assignCode, hslot]

/-- Looking up a name is an error if the pool has no room for it. -/
theorem room_of_place {p : Parser} {name : Token} (hname : name.kind = .identifier)
    (hpool : p.poolSize ≤ OpCode.operandCount) (h : (p.place name).2.hadError = false) :
    p.poolSize + (name.constant? p.slots).toList.length ≤ OpCode.operandCount := by
  cases hslot : p.slots name.lexeme with
  | some slot => simpa [Token.constant?, hname, hslot] using hpool
  | none =>
    rw [place_of_global hslot] at h
    have hlt := poolSize_lt_of_makeText h
    simpa [Token.constant?, hname, hslot] using Nat.succ_le_of_lt hlt

end Parser

end OnePass
