import OnePass.Proofs.Code.WellFormed
import OnePass.Proofs.Compile.Session
import OnePass.Proofs.Diagnostics.Located
import OnePass.Proofs.Scope.Balanced

/-!
# OnePass.Proofs.Scope.Named

What names variables, also where there are errors. The name of a declaration is read back
from the window after a check that may have failed, in front of which the window stays, so
that a `var` without a name names a variable itself: the only token that does besides
identifiers, and never without an error (`MayName`). Locals, names of globals and stored
texts come from such tokens and from string literals in every state of a compilation
(`Named`, `variables_named`).
-/

namespace OnePass

/-- A name that is declared becomes that of the latest local. -/
theorem Scope.locals_of_declare {scope scope' : Scope} {name : Token}
    (h : scope.declare name = .ok scope') :
    scope'.locals = ⟨name, scope.depth⟩ :: scope.locals := by
  unfold declare at h
  split at h
  · cases h
  split at h
  · cases h
  · rw [← Except.ok.inj h]

namespace TokenStream

variable {s : TokenStream}

theorem mem_pending_of_kind {n : Nat} (h : (s.tokenAt n).kind ≠ .eof) :
    s.tokenAt n ∈ s.pending := by
  have hmem := List.mem_of_getElem? (s.getElem?_toList n)
  rw [toList, List.mem_append, List.mem_singleton] at hmem
  refine hmem.resolve_right fun hend => h ?_
  rw [hend, ending_kind]

/-- A `var` of a stream that has no name behind it. -/
def Nameless (s : TokenStream) (t : Token) : Prop :=
  t.kind = .kwVar
    ∧ ∃ n, s.tokenAt n = t ∧ (s.drop (n + 1)).afterErrors.next.1.kind ≠ .identifier

/-- Whether a token may name a variable: an identifier, and after an error also a `var`
without a name. -/
def MayName (s : TokenStream) (failed : Bool) (t : Token) : Prop :=
  (t ∈ s.pending ∧ t.kind = .identifier) ∨ (s.Nameless t ∧ failed = true)

/-- Whether a text is that of a name or of a string literal. -/
def Spelled (s : TokenStream) (failed : Bool) (text : String) : Prop :=
  ∃ t, (s.MayName failed t ∧ t.lexeme = text)
    ∨ (t ∈ s.pending ∧ t.kind = .string ∧ t.contents = text)

theorem MayName.mono {failed failed' : Bool} {t : Token} (h : s.MayName failed t)
    (hmono : failed = true → failed' = true) : s.MayName failed' t :=
  h.imp_right (And.imp_right hmono)

theorem Spelled.mono {failed failed' : Bool} {text : String} (h : s.Spelled failed text)
    (hmono : failed = true → failed' = true) : s.Spelled failed' text := by
  obtain ⟨t, ht⟩ := h
  exact ⟨t, ht.imp_left (And.imp_left (·.mono hmono))⟩

end TokenStream

namespace Parser

variable {s : TokenStream} {held : Interner} {p q r : Parser} {deed : Deed} {deeds : Footprint}

/-! ### Names in the pool -/

/-- Whether a text is the constant of an index, whether or not that fits an operand. -/
def Pools (p : Parser) (index : Nat) (text : String) : Prop :=
  ∃ handle, p.chunk.constants[index]? = some (.text handle)
    ∧ p.strings.texts[handle.index]? = some text

theorem Action.extends (h : Action deed p q) : q.strings.Extends p.strings := by
  cases h with
  | intern text => exact Interner.extends_intern _ _
  | advance => exact (advance_strings _).symm ▸ List.prefix_refl _
  | blame | report => exact (errorAt_strings ..).symm ▸ List.prefix_refl _
  | _ => exact List.prefix_refl _

theorem Does.extends (h : Does deeds p q) : q.strings.Extends p.strings :=
  h.keeps (motive := fun r => r.strings.Extends p.strings)
    (fun _ haction hr => haction.extends.trans hr) (List.prefix_refl _)

/-- A text stays where it is in the pool. -/
theorem Pools.later {index : Nat} {text : String} (h : p.Pools index text)
    (hreach : Does deeds p q) : q.Pools index text := by
  have hstays : ∀ {α : Type} {xs ys : List α} {i : Nat} {x : α}, xs <+: ys → xs[i]? = some x →
      ys[i]? = some x := by
    rintro α xs _ i x ⟨added, rfl⟩ hx
    rw [List.getElem?_append_left (List.getElem?_eq_some_iff.1 hx).1, hx]
  obtain ⟨handle, hconstant, htext⟩ := h
  exact ⟨handle, hstays hreach.constants_prefix hconstant, hstays hreach.extends htext⟩

theorem makeText_strings (p : Parser) (text : String) :
    (p.makeText text).2.strings = (p.strings.intern text).2 :=
  (makeConstant_does _ _).strings_eq rfl

/-- A text that is added has the index behind the others, also if that does not fit. -/
theorem makeText_pools (p : Parser) (text : String) :
    (p.makeText text).2.Pools p.poolSize text
      ∧ (p.poolSize < OpCode.operandCount →
        (p.makeText text).1 = UInt8.ofNat p.poolSize) := by
  refine ⟨⟨(p.strings.intern text).1, ?_, ?_⟩, fun hroom => by rw [makeText_of_lt hroom]⟩
  · rw [makeText, makeConstant_constants]
    exact List.getElem?_concat_length
  · rw [makeText_strings, ← Interner.get?_eq_some_iff]
    exact TextStore.get?_intern_self p.strings text

/-- A token that starts the use of a variable is an identifier. -/
theorem mayName_of_opening {t : Token}
    (h : t ∈ s.pending ∧ t.kind.opening? = some .variable) (failed : Bool) :
    s.MayName failed t := by
  refine .inl ⟨h.1, ?_⟩
  have hopens := h.2
  revert hopens
  cases t.kind <;> decide

/-- Whether an operand stands for the constant of a name, unless its index does not fit. -/
def GlobalName (s : TokenStream) (p : Parser) (operand : UInt8) : Prop :=
  ∃ name index, s.MayName p.hadError name ∧ p.Pools index name.lexeme
    ∧ (index < OpCode.operandCount → operand = UInt8.ofNat index)

/-- Whether a place, if it is that of a global, stands for a name. -/
def Place.Named (place : Place) (s : TokenStream) (p : Parser) : Prop :=
  match place with
  | .slot _ => True
  | .global operand => p.GlobalName s operand

theorem GlobalName.later {operand : UInt8} (h : p.GlobalName s operand) (hreach : Does deeds p q) :
    q.GlobalName s operand := by
  obtain ⟨name, index, hname, hpools, hoperand⟩ := h
  exact ⟨name, index, hname.mono hreach.hadError, hpools.later hreach, hoperand⟩

theorem Place.Named.later {place : Place} (h : place.Named s p) (hreach : Does deeds p q) :
    place.Named s q := by
  cases place with
  | slot slot => trivial
  | global operand => exact GlobalName.later h hreach

theorem makeText_globalName {name : Token} (h : s.MayName p.hadError name) :
    (p.makeText name.lexeme).2.GlobalName s (p.makeText name.lexeme).1 :=
  ⟨name, p.poolSize, h.mono (p.makeText_does _).hadError,
    (p.makeText_pools _).1, (p.makeText_pools _).2⟩

theorem place_named {name : Token} (h : s.MayName p.hadError name) :
    (p.place name).1.Named s (p.place name).2 := by
  unfold place
  split
  · trivial
  · exact makeText_globalName h

/-! ### Where names come from -/

/-- In a state that stands somewhere in a stream, every local has a name that a token of the
stream may give, and every text that has been stored is that of such a token or of a string
literal. -/
structure Named (s : TokenStream) (held : Interner) (p : Parser) : Prop where
  window : ∃ n, p.current = s.tokenAt n ∧ p.stream = s.drop (n + 1)
  locals : ∀ l ∈ p.scope.locals, s.MayName p.hadError l.name
  texts : ∀ text ∈ p.strings.texts, text ∈ held.texts ∨ s.Spelled p.hadError text

/-- The current token is one of the stream, unless it ends it. -/
theorem Named.current_mem (h : Named s held p) (hkind : p.current.kind ≠ .eof) :
    p.current ∈ s.pending := by
  obtain ⟨n, hcurrent, -⟩ := h.window
  rw [hcurrent] at hkind ⊢
  exact TokenStream.mem_pending_of_kind hkind

/-- Names that are there stay good, whatever is done that adds none. -/
theorem Named.does (h : Named s held p) (hdoes : Does deeds p q)
    (hdeeds : deeds.lacks .rescope && deeds.lacks .intern) : Named s held q := by
  obtain ⟨hscope, hstrings⟩ := (Bool.and_eq_true _ _).mp hdeeds
  refine ⟨?_, fun l hl => ?_, fun text htext => ?_⟩
  · obtain ⟨n, hcurrent, hstream⟩ := h.window
    obtain ⟨k, hpulled⟩ := hdoes.pulled
    refine ⟨n + k, ?_, ?_⟩
    · cases k with
      | zero => exact hpulled.current.trans hcurrent
      | succ k =>
        rw [hpulled.current, currentAfter, hstream, TokenStream.drop_drop,
          TokenStream.tokenAt]
        congr 3
        omega
    · rw [hpulled.stream, hstream, TokenStream.drop_drop]
      congr 1
      omega
  · rw [hdoes.scope_eq hscope] at hl
    exact (h.locals l hl).mono hdoes.hadError
  · rw [hdoes.strings_eq hstrings] at htext
    exact (h.texts text htext).imp_right (·.mono hdoes.hadError)

theorem Named.advance (h : Named s held p) : Named s held p.advance :=
  h.does p.advance_does rfl

theorem Named.makeText (h : Named s held p) {text : String} (htext : s.Spelled p.hadError text) :
    Named s held (p.makeText text).2 := by
  have hstored : Named s held { p with strings := (p.strings.intern text).2 } := by
    refine ⟨h.window, h.locals, fun other hother => ?_⟩
    rw [Interner.texts_intern] at hother
    split at hother
    · exact h.texts other hother
    · rcases List.mem_append.1 hother with hother | hother
      · exact h.texts other hother
      · rw [List.mem_singleton.1 hother]
        exact .inr htext
  exact hstored.does (makeConstant_does _ _) rfl

theorem Named.place (h : Named s held p) {name : Token} (hname : s.MayName p.hadError name) :
    Named s held (p.place name).2 := by
  unfold Parser.place
  split
  · exact h
  · exact h.makeText ⟨name, .inl ⟨hname, rfl⟩⟩

theorem Named.define (h : Named s held p) {name : Token} (hname : s.MayName p.hadError name) :
    Named s held (p.define name) := by
  unfold Parser.define
  split
  · unfold declareLocal
    split
    · rename_i scope hdeclare
      refine ⟨h.window, fun l hl => ?_, h.texts⟩
      rw [Scope.locals_of_declare hdeclare] at hl
      rcases List.mem_cons.1 hl with rfl | hl
      · exact hname
      · exact h.locals l hl
    · exact h.does (errorAt_does _ _ _) rfl
  · have hmade := h.makeText ⟨name, .inl ⟨hname, rfl⟩⟩
    exact hmade.does (emitWith_does _ _ _) rfl

theorem Named.beginScope (h : Named s held p) : Named s held p.beginScope :=
  ⟨h.window, h.locals, h.texts⟩

/-- The locals of a block are dropped, and no others come in. -/
theorem Named.leave (h : Named s held p) : Named s held { p with scope := p.scope.leave.2 } := by
  refine ⟨h.window, fun l hl => h.locals l ?_, h.texts⟩
  revert hl
  show l ∈ p.scope.leave.2.locals → l ∈ p.scope.locals
  unfold Scope.leave
  split
  · exact id
  · exact fun hl => (List.dropWhile_sublist _).subset hl

theorem Named.endScope (h : Named s held p) : Named s held p.endScope.2 :=
  h.leave.does (emitAll_does _ _) rfl

end Parser

/-- An emission in a state where all names are good, for a name if it is on a global. -/
structure Emission.Named (s : TokenStream) (held : Interner) (e : Emission) : Prop where
  state : Parser.Named s held e.state
  global : e.op.refersToName = true →
    ∃ operand, e.operand = some operand ∧ e.state.GlobalName s operand

/-- Whether names are good where a mark is noted. -/
def Mark.Named (s : TokenStream) (held : Interner) : Mark → Prop
  | .emission e => e.Named s held
  | .declaration before after => Parser.Named s held before ∧ Parser.Named s held after

namespace Parser

variable {s : TokenStream} {held : Interner} {p q r : Parser}

/-! ### The course of a compilation -/

theorem Named.emission (h : Named s held p) {op : OpCode} (hop : op.refersToName = false)
    (operand : Option UInt8) : Emission.Named s held ⟨p, op, operand⟩ :=
  ⟨h, fun hname => by cases hop.symm.trans hname⟩

theorem Named.emissions (h : Named s held p) {ops : List OpCode}
    (hops : ∀ op ∈ ops, op.refersToName = false) :
    ∀ e ∈ p.emissions ops, e.Named s held := by
  induction ops generalizing p with
  | nil => exact List.forall_mem_nil _
  | cons op rest ih =>
    exact List.forall_mem_cons.2 ⟨h.emission (hops op List.mem_cons_self) none,
      ih (h.does (emit_does _ _) rfl) fun op' hop' => hops op' (List.mem_cons_of_mem _ hop')⟩

/-- An instruction on the place of a name. -/
theorem Named.use (h : Named s held q) {place : Place} (hplace : place.Named s q) {op : OpCode}
    (hop : op = place.getCode ∨ op = place.setCode) :
    Emission.Named s held ⟨q, op, some place.operand⟩ := by
  refine ⟨h, fun hname => ?_⟩
  cases place with
  | slot slot => rcases hop with rfl | rfl <;> cases hname
  | global operand => exact ⟨operand, rfl, hplace⟩

/-- What starts an expression is the current token of the state before. -/
theorem ExprCourse.named {task : ExprTask} {log : List Emission} (h : ExprCourse task p log q)
    (hp : Named s held p)
    (hfirst : ∀ canAssign first, task = .opening canAssign first →
      p.previous ∈ s.pending ∧ p.previous.kind.opening? = some first) :
    Named s held q ∧ ∀ e ∈ log, e.Named s held := by
  induction h with
  | refused | invalid => exact ⟨hp.does (error_does _ _) rfl, List.forall_mem_nil _⟩
  | nested h inside ih =>
    obtain ⟨hq, hlog⟩ := ih (hp.does (Action.nest _ _).does rfl) nofun
    exact ⟨hq.does (Action.nest _ _).does rfl, hlog⟩
  | missing =>
    exact ⟨hp.advance.does (error_does _ _) rfl, List.forall_mem_nil _⟩
  | @climb min p first log q log' r h left rest ihleft ihrest =>
    obtain ⟨hq, hlog⟩ := ihleft hp.advance fun canAssign other heq => by
      obtain ⟨-, rfl⟩ := ExprTask.opening.inj heq
      rw [advance_previous]
      refine ⟨hp.current_mem fun heof => ?_, h⟩
      rw [heof] at h
      cases h
    obtain ⟨hr, hlog'⟩ := ihrest hq nofun
    exact ⟨hr.does (rejectTarget_does _ _) rfl, List.forall_mem_append.2 ⟨hlog, hlog'⟩⟩
  | group inside ih =>
    obtain ⟨hq, hlog⟩ := ih hp nofun
    exact ⟨hq.does (consume_does _ _ _) rfl, hlog⟩
  | @unary _ op _ _ _ inside ih =>
    obtain ⟨hq, hlog⟩ := ih hp nofun
    have hop : op.code.refersToName = false := by cases op <;> rfl
    exact ⟨hq.does (emit_does _ _) rfl, List.forall_mem_append.2
      ⟨hlog, List.forall_mem_singleton.2 (hq.emission hop none)⟩⟩
  | @word _ literal _ =>
    have hop : literal.code.refersToName = false := by cases literal <;> rfl
    exact ⟨hp.does (emit_does _ _) rfl,
      List.forall_mem_singleton.2 (hp.emission hop none)⟩
  | @number _ p x h =>
    have hmade := hp.does (p.makeConstant_does (.number x)) rfl
    exact ⟨hmade.does (emitWith_does _ _ _) rfl,
      List.forall_mem_singleton.2 (hmade.emission rfl _)⟩
  | @string _ p =>
    obtain ⟨hmem, hopens⟩ := hfirst _ _ rfl
    have hkind : p.previous.kind = .string := by
      revert hopens
      cases p.previous.kind <;> decide
    have hmade := hp.makeText ⟨p.previous, .inr ⟨hmem, hkind, rfl⟩⟩
    exact ⟨hmade.does (emitWith_does _ _ _) rfl,
      List.forall_mem_singleton.2 (hmade.emission rfl _)⟩
  | @read _ p h =>
    have hname := mayName_of_opening (hfirst _ _ rfl) p.hadError
    have hfound := hp.place hname
    rw [Place.emitGet_eq]
    exact ⟨hfound.does (emitWith_does _ _ _) rfl,
      List.forall_mem_singleton.2 (hfound.use (place_named hname) (.inl rfl))⟩
  | @assign _ p log q h value ih =>
    have hname := mayName_of_opening (hfirst _ _ rfl) p.hadError
    obtain ⟨hq, hlog⟩ := ih (hp.place hname).advance nofun
    -- The place has been found in front of the value and is written behind it.
    have hplace := ((place_named hname).later (advance_does _)).later value.writes.reaches
    rw [Place.emitSet_eq]
    exact ⟨hq.does (emitWith_does _ _ _) rfl, List.forall_mem_append.2
      ⟨hlog, List.forall_mem_singleton.2 (hq.use hplace (.inr rfl))⟩⟩
  | stop => exact ⟨hp, List.forall_mem_nil _⟩
  | @operator _ _ op _ q _ _ h hmin right rest ihright ihrest =>
    obtain ⟨hq, hlog⟩ := ihright hp.advance nofun
    obtain ⟨hr, hlog'⟩ := ihrest (hq.does (emitAll_does _ _) rfl) nofun
    have hops : ∀ code ∈ op.code, code.refersToName = false := by cases op <;> decide
    exact ⟨hr, List.forall_mem_append.2
      ⟨List.forall_mem_append.2 ⟨hlog, hq.emissions hops⟩, hlog'⟩⟩

/-- What is written when a variable comes into being. -/
theorem Named.definition (h : Named s held p) {name : Token} (hname : s.MayName p.hadError name) :
    ∀ e ∈ p.definition name, e.Named s held := by
  unfold Parser.definition
  split
  · exact List.forall_mem_nil _
  · exact List.forall_mem_singleton.2 ⟨h.makeText ⟨name, .inl ⟨hname, rfl⟩⟩,
      fun _ => ⟨_, rfl, makeText_globalName hname⟩⟩

theorem Named.closing (h : Named s held p) : ∀ e ∈ p.closing, e.Named s held := by
  refine h.leave.emissions fun op hop => ?_
  rw [(List.mem_replicate.1 hop).2]
  rfl

/-- The name of a declaration is read back from the window: an identifier, or the `var`
itself if that has no name. -/
theorem Named.declared (h : Named s held p) (hvar : p.check .kwVar = true) :
    s.MayName (p.advance.consume .identifier .variableNameMissing).hadError
      (p.advance.consume .identifier .variableNameMissing).previous := by
  have hkind : p.current.kind = .kwVar := of_decide_eq_true hvar
  unfold Parser.consume
  cases hname : p.advance.check .identifier with
  | true =>
    have hnext : p.advance.current.kind = .identifier := of_decide_eq_true hname
    rw [if_pos rfl]
    refine .inl ⟨?_, by rw [advance_previous, hnext]⟩
    rw [advance_previous]
    exact h.advance.current_mem (by rw [hnext]; decide)
  | false =>
    obtain ⟨n, hcurrent, hstream⟩ := h.window
    rw [if_neg Bool.false_ne_true, errorAtCurrent, errorAt_previous, advance_previous]
    refine .inr ⟨⟨hkind, n, hcurrent.symm, ?_⟩, errorAt_hadError ..⟩
    rw [← hstream]
    exact of_decide_eq_false hname

theorem Course.named {task : UnitTask} {log : List Mark} (h : Course task p log q)
    (hp : Named s held p) : Named s held q ∧ ∀ m ∈ log, m.Named s held := by
  have hvalues : ∀ {log : List Emission}, (∀ e ∈ log, e.Named s held) →
      ∀ m ∈ log.map Mark.emission, m.Named s held :=
    fun hlog => List.forall_mem_map.2 hlog
  induction h with
  | found | done => exact ⟨hp, List.forall_mem_nil _⟩
  | skip h rest ih => exact ih hp.advance
  | value h value =>
    obtain ⟨hq, hlog⟩ := value.named hp.advance nofun
    exact ⟨hq, hvalues hlog⟩
  | noValue =>
    exact ⟨hp.does (emit_does _ _) rfl,
      List.forall_mem_singleton.2 (hp.emission rfl none)⟩
  | @var p log q h value ih =>
    obtain ⟨hq, hlog⟩ := ih (hp.advance.does (consume_does _ _ _) rfl)
    have hend := q.consume_does .semicolon .declarationEndMissing
    have hvalued := hq.does hend (by decide)
    -- The name was interned before the value, and the value took nothing away.
    have hlater : Reaches _ _ := (value.writes nofun).reaches.trans hend.reaches
    have hname := (hp.declared h).mono hlater.hadError
    exact ⟨hvalued.define hname,
      List.forall_mem_append.2 ⟨hlog, hvalues (hvalued.definition hname)⟩⟩
  | print h value =>
    obtain ⟨hq, hlog⟩ := value.named hp.advance nofun
    have hvalued := hq.does (consume_does _ .semicolon .valueEndMissing) rfl
    exact ⟨hvalued.does (emit_does _ _) rfl, List.forall_mem_append.2
      ⟨hvalues hlog, List.forall_mem_singleton.2 (hvalued.emission rfl none)⟩⟩
  | block h inside ih =>
    obtain ⟨hq, hlog⟩ := ih hp.advance.beginScope
    have hclosed := hq.does (consume_does _ .rightBrace .blockEndMissing) rfl
    exact ⟨hclosed.endScope, List.forall_mem_append.2 ⟨hlog, hvalues hclosed.closing⟩⟩
  | expression h value =>
    obtain ⟨hq, hlog⟩ := value.named hp nofun
    have hvalued := hq.does (consume_does _ .semicolon .expressionEndMissing) rfl
    exact ⟨hvalued.does (emit_does _ _) rfl, List.forall_mem_append.2
      ⟨hvalues hlog, List.forall_mem_singleton.2 (hvalued.emission rfl none)⟩⟩
  | calm body h ih =>
    obtain ⟨hq, hlog⟩ := ih hp
    exact ⟨hq, List.forall_mem_cons.2 ⟨⟨hp, hq⟩, hlog⟩⟩
  | panic body h skip ihbody ihskip =>
    obtain ⟨hq, hlog⟩ := ihbody hp
    obtain ⟨hr, hlog'⟩ := ihskip hq
    have hcalm := hr.does (Action.recover _).does rfl
    exact ⟨hcalm, List.forall_mem_cons.2
      ⟨⟨hp, hcalm⟩, List.forall_mem_append.2 ⟨hlog, hlog'⟩⟩⟩
  | more h first rest ihfirst ihrest =>
    obtain ⟨hq, hlog⟩ := ihfirst hp
    obtain ⟨hr, hlog'⟩ := ihrest hq
    exact ⟨hr, List.forall_mem_append.2 ⟨hlog, hlog'⟩⟩
  | program all ih =>
    obtain ⟨hq, hlog⟩ := ih hp
    exact ⟨hq.advance.does (emit_does _ _) rfl, List.forall_mem_append.2
      ⟨hlog, List.forall_mem_singleton.2 (hq.advance.emission rfl none)⟩⟩
  | single value =>
    obtain ⟨hq, hlog⟩ := value.named hp nofun
    have hvalued := hq.does (consume_does _ .eof .inputEndMissing) rfl
    exact ⟨hvalued.does (emit_does _ _) rfl, List.forall_mem_append.2
      ⟨hvalues hlog, List.forall_mem_singleton.2 (hvalued.emission rfl none)⟩⟩

/-! ### Declarations without a name -/

/-- Skipping tokens leaves the scope as it is. -/
theorem Course.boundary_scope {log : List Mark} (h : Course .boundary p log q) :
    q.scope = p.scope := by
  generalize htask : UnitTask.boundary = task at h
  induction h with
  | found => rfl
  | skip h rest ih => exact (ih htask).trans (advance_scope _)
  | _ => cases htask

/-- A variable that comes into being is the latest local of a block, if it is not refused;
outside of blocks its name becomes a constant. -/
theorem define_scope_or_pools (p : Parser) (name : Token) :
    (0 < p.scope.depth → (p.define name).scope = (p.scope.declare name).toOption.getD p.scope)
      ∧ (p.scope.depth = 0 → (p.define name).scope = p.scope
        ∧ ∃ index, (p.define name).Pools index name.lexeme) := by
  unfold define
  refine ⟨fun hblock => ?_, fun hglobal => ?_⟩
  · rw [if_pos hblock]
    unfold declareLocal
    cases hdeclare : p.scope.declare name with
    | error problem => exact errorAt_scope ..
    | ok scope => rfl
  · rw [if_neg (by omega)]
    have hmade := p.makeText_does name.lexeme
    have hwritten := emitWith_does (p.makeText name.lexeme).2 .defineGlobal
      (p.makeText name.lexeme).1
    exact ⟨(hmade.append hwritten).scope_eq rfl, _,
      (p.makeText_pools name.lexeme).1.later hwritten⟩

/-- A `var` without a name declares a variable that is named `var`. -/
theorem Course.nameless_body {log : List Mark} (h : Course .body p log q)
    (hvar : p.check .kwVar = true) (hname : p.advance.check .identifier = false) :
    q.hadError = true
      ∧ (0 < p.scope.depth → q.scope = (p.scope.declare p.current).toOption.getD p.scope)
      ∧ (p.scope.depth = 0 → q.scope = p.scope ∧ ∃ index, q.Pools index p.current.lexeme) := by
  cases h with
  | print h => cases (check_eq_false_of_ne hvar (by decide)).symm.trans h
  | block h => cases (check_eq_false_of_ne hvar (by decide)).symm.trans h
  | expression h => cases hvar.symm.trans (h _ (by simp))
  | @var _ _ q _ value =>
    have hnamed : p.advance.consume .identifier .variableNameMissing
        = p.advance.errorAtCurrent .variableNameMissing := by
      rw [Parser.consume, hname, if_neg Bool.false_ne_true]
    have hread : (p.advance.consume .identifier .variableNameMissing).previous = p.current := by
      rw [hnamed, errorAtCurrent, errorAt_previous, advance_previous]
    have hvalued : (q.consume .semicolon .declarationEndMissing).scope = p.scope := by
      obtain ⟨log', hinitializer⟩ :=
        (p.advance.consume .identifier .variableNameMissing).initializer_course
      obtain ⟨-, rfl⟩ := hinitializer.unique value
      exact p.advance.valued_scope.trans (advance_scope p)
    have hwrites := value.writes fun unit htask => by cases htask
    have hend := hwrites.reaches.append (q.consume_does .semicolon .declarationEndMissing)
    have hreach := hend.append (define_does _ p.current)
    have herror := hreach.hadError (by rw [hnamed]; exact errorAt_hadError ..)
    have hdefined := define_scope_or_pools (q.consume .semicolon .declarationEndMissing) p.current
    rw [hvalued] at hdefined
    rw [hread]
    exact ⟨herror, hdefined⟩

theorem Course.nameless {log : List Mark} (h : Course .declaration p log r)
    (hvar : p.check .kwVar = true) (hname : p.advance.check .identifier = false) :
    r.hadError = true
      ∧ (0 < p.scope.depth → r.scope = (p.scope.declare p.current).toOption.getD p.scope)
      ∧ (p.scope.depth = 0 → r.scope = p.scope ∧ ∃ index, r.Pools index p.current.lexeme) := by
  cases h with
  | calm body h => exact body.nameless_body hvar hname
  | panic body h skip =>
    obtain ⟨herror, hblock, hglobal⟩ := body.nameless_body hvar hname
    have hskip := (skip.writes nofun).reaches.append (Action.recover _).does
    refine ⟨hskip.hadError herror, fun hdepth => ?_, fun hdepth => ?_⟩
    · exact skip.boundary_scope.trans (hblock hdepth)
    · obtain ⟨hscope, index, hpools⟩ := hglobal hdepth
      exact ⟨skip.boundary_scope.trans hscope, index, hpools.later hskip⟩

/-- In front of the first token nothing is named. -/
theorem start_named (stream : TokenStream) (strings : Interner) :
    Named stream strings (start stream strings) := by
  have hpulled := (origin stream strings).advance_pulled
  refine ⟨⟨_, hpulled.current, hpulled.stream⟩, fun l hl => ?_, fun text htext => ?_⟩
  · rw [start_scope] at hl
    cases hl
  · rw [start, advance_strings] at htext
    exact .inl htext

/-! ### What names variables -/

/-- Only identifiers name variables, but for a `var` without a name, which names a variable
itself once the missing name is an error. Whatever the tokens are, in the course of a unit
all locals have such names in front of every instruction and of every declaration, and
behind it, and every text that is stored is one or the contents of a string literal; the
operand of every instruction on a global is the index of the constant of such a name, unless
that does not fit. A declaration without a name adds `var` to the locals of its block unless
the block refuses it, and outside of blocks to the constants. -/
theorem variables_named (unit : UnitKind) (stream : TokenStream) (strings : Interner) :
    ∃ log, Course (.unit unit) (start stream strings) log ((start stream strings).run unit)
      ∧ Named stream strings ((start stream strings).run unit)
      ∧ (∀ m ∈ log, m.Named stream strings)
      ∧ ∀ before after, .declaration before after ∈ log → before.check .kwVar = true →
        before.advance.check .identifier = false →
          stream.Nameless before.current ∧ after.hadError = true
          ∧ (0 < before.scope.depth →
            after.scope = (before.scope.declare before.current).toOption.getD before.scope)
          ∧ (before.scope.depth = 0 → after.scope = before.scope
            ∧ ∃ index, after.Pools index before.current.lexeme) := by
  obtain ⟨log, hcourse⟩ := unit_course unit (start_nesting_lt stream strings)
  obtain ⟨hend, hlog⟩ := hcourse.named (start_named stream strings)
  refine ⟨log, hcourse, hend, hlog, fun before after hmem hvar hname => ?_⟩
  obtain ⟨-, log', hdeclaration⟩ := hcourse.mem_declaration hmem
  refine ⟨?_, hdeclaration.nameless hvar hname⟩
  obtain ⟨n, hcurrent, hstream⟩ := (hlog _ hmem).1.window
  refine ⟨of_decide_eq_true hvar, n, hcurrent.symm, ?_⟩
  rw [← hstream]
  exact of_decide_eq_false hname

/-- Without an identifier in the source `var` is a global and a local. -/
theorem exists_variable_without_name :
    (∀ t ∈ tokenize "var ; \x7b var ;", t.kind ≠ .identifier)
      ∧ (ofSource .program "var ; \x7b var ;" .empty).strings.texts = ["var"]
      ∧ (ofSource .program "var ; \x7b var ;" .empty).chunk.constants = [.text ⟨0⟩]
      ∧ (ofSource .program "var ; \x7b var ;" .empty).chunk.instructions.map (·.op)
          = [.pushNil, .defineGlobal, .pushNil, .pop, .ret]
      ∧ let block := (start (.ofSource "\x7b var ;") .empty).advance.beginScope
        (declaration (declarations block.tokensLeft) block).scope.locals.map (·.name.kind)
          = [.kwVar] := by
  decide +kernel

end Parser

end OnePass
