import OnePass.Proofs.Lexical.Literal
import OnePass.Proofs.Parser.Expression

/-!
# OnePass.Proofs.Parser.Phrase

Reading with a least precedence in the middle of a compilation. Wherever the parser stands in
front of a phrase that ends there, and there is room for it, it takes the tokens of the phrase
and no others and writes its reference translation (`HasCompiled`), whatever locals are in
scope, however many expressions are open and whatever is in the pool. No other phrase starts
there that is as long (`Phrase.maximal`).
-/

namespace OnePass

/-- No phrase is longer than one that ends in front of what follows it, and none other is as
long. -/
theorem Phrase.maximal {min : Precedence} {e e' : Expr} {rest : List Token}
    (h : Phrase (.ofPrecedence min) e) (hstops : Stops min rest)
    (h' : Phrase (.ofPrecedence min) e') (hwithin : e'.tokens <+: e.tokens ++ rest) :
    e' = e ∨ e'.tokens.length < e.tokens.length := by
  refine or_iff_not_imp_right.2 fun hlong => ?_
  have hextends : e.tokens <+: e'.tokens :=
    List.prefix_of_prefix_length_le (List.prefix_append _ _) hwithin (Nat.le_of_not_lt hlong)
  obtain ⟨more, hmore⟩ := hextends
  -- Both are read from the tokens of the longer one, behind which nothing stands.
  have hends : Stops min [] := stops_of_not_operator rfl (by decide)
  have hmid : Stops min more := by
    cases more with
    | nil => exact hends
    | cons t more =>
      rw [← hmore, List.prefix_append_right_inj] at hwithin
      obtain ⟨behind, rfl⟩ := hwithin
      exact hstops
  have hreads := h.reads min hmid
  have hreads' := h'.reads min hends
  rw [List.append_nil, ← hmore] at hreads'
  exact (hreads'.unique hreads).1

namespace Parser

/-- Whether a token of an expression takes a place in the pool: a number, a string, or a name
that is not that of a local. -/
def takesPlace (p : Parser) (t : Token) : Bool :=
  t.kind = .number || t.kind = .string || (t.kind = .identifier && (p.resolveLocal t).isNone)

theorem isSome_constant? (p : Parser) (t : Token) :
    (t.constant? p.slots).isSome = p.takesPlace t := by
  have hslots : p.slots t.lexeme = p.resolveLocal t := rfl
  unfold Token.constant? takesPlace
  rw [hslots]
  cases t.kind <;> cases p.resolveLocal t <;> rfl

/-- An expression has as many constants as tokens that take a place in the pool. -/
theorem length_constants (p : Parser) {level : Level} {e : Expr} (h : Phrase level e) :
    (e.constants p.slots).length = e.tokens.countP p.takesPlace := by
  rw [h.constants_eq, List.length_filterMap_eq_countP]
  exact List.countP_congr fun t _ => by rw [p.isSome_constant?]

/-- What the parser has done between two states: it has taken the tokens of an expression, so
that it stands in front of `rest`, and written the reference translation of the expression.
Everything else is as before. -/
structure HasCompiled (p : Parser) (e : Expr) (rest : List Token) (q : Parser) : Prop where
  current : q.current = rest.headD p.stream.ending
  pending : q.stream = { p.stream with pending := rest.tail }
  previous : q.previous = e.last
  code : q.chunk.code
    = p.chunk.code ++ (e.code p.slots p.chunk.constants.length).flatMap Written.bytes
  constants : ∃ added, q.chunk.constants = p.chunk.constants ++ added
    ∧ added.map (·.content q.strings) = e.constants p.slots
  strings : q.strings.Extends p.strings
  nesting : q.nesting = p.nesting
  scope : q.scope = p.scope
  mode : q.mode = p.mode
  hadError : q.hadError = p.hadError
  diagnostics : q.diagnostics = p.diagnostics

theorem hasCompiled_compiled (p : Parser) (e : Expr) (rest : List Token) :
    HasCompiled p e rest (p.compiled e rest) where
  current := rfl
  pending := rfl
  previous := rfl
  code := rfl
  constants := ⟨_, rfl, TextStore.content_storeAll p.strings _⟩
  strings := p.strings.extends_storeAll _
  nesting := rfl
  scope := rfl
  mode := rfl
  hadError := rfl
  diagnostics := rfl

/-- A phrase has room if its depth and its constants do, and its numbers are digits. -/
theorem fits_of_phrase {p : Parser} {level : Level} {e : Expr} (h : Phrase level e)
    (hnumbers : ∀ t ∈ e.tokens, t.kind = .number → Lexeme .number t.lexeme.toList)
    (hdepth : p.nesting + e.depth ≤ maxNesting)
    (hpool : p.poolSize + e.tokens.countP p.takesPlace ≤ OpCode.operandCount) :
    p.Fits (room maxNesting p.nesting) e := by
  refine ⟨?_, ?_, fun t ht hkind => ?_⟩
  · unfold room
    omega
  · rw [p.length_constants h]
    exact hpool
  · have hvalue := (hnumbers t ht hkind).ofText?_isSome
    rwa [String.ofList_toList] at hvalue

/-- An expression of a level takes exactly one maximal phrase. In front of the tokens of a phrase
of the level that belongs to `min`, behind which stands neither an operator that it could take
nor an `=` that it would refuse, and of which there is room for the depth and the constants, it
takes these tokens and writes the reference translation of the phrase. -/
theorem parsePrecedence_phrase {min : Precedence} {p : Parser} {e : Expr} {rest : List Token}
    (hphrase : Phrase (.ofPrecedence min) e)
    (hahead : p.current :: p.stream.pending = e.tokens ++ rest)
    (hreadable : ∀ t ∈ e.tokens ++ rest, t.kind ≠ .error)
    (hnumbers : ∀ t ∈ e.tokens, t.kind = .number → Lexeme .number t.lexeme.toList)
    (hstops : Stops min rest)
    (hdepth : p.nesting + e.depth ≤ 256)
    (hpool : p.chunk.constants.length + e.tokens.countP p.takesPlace ≤ 256) :
    HasCompiled p e rest (p.parsePrecedence min)
      ∧ ∀ e', Phrase (.ofPrecedence min) e' → e'.tokens <+: e.tokens ++ rest →
          e' = e ∨ e'.tokens.length < e.tokens.length := by
  have hat : p.At (e.tokens ++ rest) := by
    rw [← hahead]
    exact ⟨rfl, rfl⟩
  have hfits := fits_of_phrase hphrase hnumbers hdepth hpool
  have hcompiled : p.parsePrecedence min = p.compiled e rest :=
    parseLevel_complete maxNesting p.nesting (hphrase.reads min hstops) hfits hat hreadable rfl
  refine ⟨?_, fun e' h' hwithin => hphrase.maximal hstops h' hwithin⟩
  rw [hcompiled]
  exact p.hasCompiled_compiled e rest

/-- A term in front of a looser operator, inside of as many expressions as there can be, with a
local in its place and a constant behind that of another expression. -/
theorem parsePrecedence_term_in_block :
    let x : Token := ⟨.identifier, "x", 0, 1⟩
    let p : Parser := { start (.ofSource "x * 2.5 == y") .empty with
      nesting := 254, scope := ⟨[⟨x, 1⟩], 1⟩, chunk := ⟨[], [.number .zero]⟩ }
    let e : Expr := .binary (.atom x) ⟨.star, "*", 2, 1⟩ (.atom ⟨.number, "2.5", 4, 1⟩)
    let rest : List Token := [⟨.equalEqual, "==", 8, 1⟩, ⟨.identifier, "y", 11, 1⟩]
    e.code p.slots 1 = [⟨.getLocal, some 0, 1⟩, ⟨.constant, some 1, 1⟩, ⟨.multiply, none, 1⟩]
      ∧ HasCompiled p e rest (p.parsePrecedence .term)
      ∧ ∀ e', Phrase .term e' → e'.tokens <+: e.tokens ++ rest →
          e' = e ∨ e'.tokens.length < e.tokens.length := by
  intro x p e rest
  have hx : Phrase .factor (.atom x) := (Phrase.atom (t := x) (by decide)).loosen (by decide)
  have htwo : Phrase .unary (.atom ⟨.number, "2.5", 4, 1⟩) := .tighter (.atom (by decide))
  have hfactor : Phrase .factor e := .chain (by decide) hx htwo
  have hdigits : Lexeme .number (['2'] ++ '.' :: ['5']) :=
    .fraction (List.cons_ne_nil _ _) (List.forall_mem_singleton.2 rfl)
      (List.cons_ne_nil _ _) (List.forall_mem_singleton.2 rfl)
  refine ⟨by decide +kernel, ?_⟩
  refine parsePrecedence_phrase (.tighter hfactor) (by decide +kernel)
    (by decide) (fun t ht hkind => ?_) ⟨by decide, by decide⟩ (by decide) (by decide +kernel)
  simp only [e, Expr.tokens, List.mem_append, List.mem_cons, List.not_mem_nil, or_false] at ht
  rcases ht with rfl | rfl | rfl
  · cases hkind
  · cases hkind
  · exact hdigits

end Parser

end OnePass
