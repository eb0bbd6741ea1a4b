import OnePass.Proofs.Grammar.Climbing

/-!
# OnePass.Proofs.Grammar.Stmt

Statements as trees, and the grammar they are derived by:

    program     → declaration* EOF
    declaration → varDecl | statement
    varDecl     → "var" IDENT ( "=" expression )? ";"
    statement   → printStmt | block | exprStmt
    printStmt   → "print" expression ";"
    block       → "{" declaration* "}"
    exprStmt    → expression ";"

A token tells what the statement is that it starts, so that a program has one tree at
most (`Stmt.unique`).
-/

namespace OnePass

/-- The value of a declaration, behind its `=`. -/
abbrev Initializer := Option (Token × Expr)

namespace Initializer

/-- The tokens between the name and the semicolon. -/
def tokens : Initializer → List Token
  | none => []
  | some (equal, value) => equal :: value.tokens

/-- The expression in an initializer. -/
def values : Initializer → List Expr
  | none => []
  | some (_, value) => [value]

/-- What the grammar derives behind a declared name. -/
def Derived : Initializer → Prop
  | none => True
  | some (equal, value) => equal.kind = .equal ∧ Phrase .assignment value

end Initializer

/-- The tree of a declaration or a statement. -/
inductive Stmt where
  | declare (var name : Token) (init : Initializer) (semicolon : Token)
  | print (word : Token) (value : Expr) (semicolon : Token)
  | block (opening : Token) (body : List Stmt) (closing : Token)
  | expression (value : Expr) (semicolon : Token)

namespace Stmt

mutual

/-- The tokens of a statement. -/
def tokens : Stmt → List Token
  | declare var name init semicolon => var :: name :: (init.tokens ++ [semicolon])
  | print word value semicolon => word :: (value.tokens ++ [semicolon])
  | block opening body closing => opening :: (tokensOf body ++ [closing])
  | expression value semicolon => value.tokens ++ [semicolon]

/-- The tokens of statements. -/
def tokensOf : List Stmt → List Token
  | [] => []
  | s :: rest => s.tokens ++ tokensOf rest

end

/-- The last token of a statement. -/
def last : Stmt → Token
  | declare _ _ _ semicolon => semicolon
  | print _ _ semicolon => semicolon
  | block _ _ closing => closing
  | expression _ semicolon => semicolon

section Tokens

variable (rest : List Token)

theorem declare_tokens_append (var name : Token) (init : Initializer) (semicolon : Token) :
    (declare var name init semicolon).tokens ++ rest
      = var :: name :: (init.tokens ++ semicolon :: rest) := by
  simp only [tokens, List.cons_append, List.append_assoc, List.nil_append]

theorem print_tokens_append (word : Token) (value : Expr) (semicolon : Token) :
    (print word value semicolon).tokens ++ rest
      = word :: (value.tokens ++ semicolon :: rest) := by
  simp only [tokens, List.cons_append, List.append_assoc, List.nil_append]

theorem block_tokens_append (opening : Token) (body : List Stmt) (closing : Token) :
    (block opening body closing).tokens ++ rest
      = opening :: (tokensOf body ++ closing :: rest) := by
  simp only [tokens, List.cons_append, List.append_assoc, List.nil_append]

theorem expression_tokens_append (value : Expr) (semicolon : Token) :
    (expression value semicolon).tokens ++ rest = value.tokens ++ semicolon :: rest := by
  simp only [tokens, List.append_assoc, List.cons_append, List.nil_append]

end Tokens

/-- What the grammar derives as a declaration or a statement. -/
inductive Derived : Stmt → Prop where
  | declare {var name init semicolon} (hv : var.kind = .kwVar) (hn : name.kind = .identifier)
      (hi : init.Derived) (hs : semicolon.kind = .semicolon) :
      Derived (.declare var name init semicolon)
  | print {word value semicolon} (hw : word.kind = .kwPrint) (he : Phrase .assignment value)
      (hs : semicolon.kind = .semicolon) : Derived (.print word value semicolon)
  | block {opening body closing} (ho : opening.kind = .leftBrace)
      (hb : ∀ s ∈ body, Derived s) (hc : closing.kind = .rightBrace) :
      Derived (.block opening body closing)
  | expression {value semicolon} (he : Phrase .assignment value)
      (hs : semicolon.kind = .semicolon) : Derived (.expression value semicolon)

end Stmt

/-! ### First tokens -/

/-- An expression starts with a token that can start one. -/
theorem Phrase.exists_opening {level : Level} {e : Expr} (h : Phrase level e) :
    ∃ t ts, e.tokens = t :: ts ∧ t.kind.opening?.isSome := by
  induction h with
  | tighter h ih => exact ih
  | assign ht heq h ih => exact ⟨_, _, rfl, by rw [ht]; rfl⟩
  | chain hop hl hr ihl ihr =>
    obtain ⟨t, ts, htokens, hkind⟩ := ihl
    exact ⟨t, _, by rw [Expr.tokens, htokens, List.cons_append], hkind⟩
  | unary hop h ih =>
    refine ⟨_, _, rfl, ?_⟩
    rcases hop with hop | hop <;> rw [hop] <;> rfl
  | @atom t ht =>
    refine ⟨t, [], rfl, ?_⟩
    revert ht
    generalize t.kind = kind
    cases kind <;> decide
  | group ho h hc ih => exact ⟨_, _, rfl, by rw [ho]; rfl⟩

theorem Phrase.kindAhead_opening {level : Level} {e : Expr} (h : Phrase level e)
    (rest : List Token) : (kindAhead (e.tokens ++ rest)).opening?.isSome := by
  obtain ⟨t, ts, htokens, hkind⟩ := h.exists_opening
  rwa [htokens]

namespace Stmt

/-- Whether a statement of some shape can start with a token of a kind. -/
def Opens (kind : TokenKind) : Stmt → Prop
  | declare .. => kind = .kwVar
  | print .. => kind = .kwPrint
  | block .. => kind = .leftBrace
  | expression .. => kind.opening?.isSome

theorem Derived.opens {s : Stmt} (h : s.Derived) (rest : List Token) :
    s.Opens (kindAhead (s.tokens ++ rest)) := by
  cases h with
  | declare hv hn hi hs => exact hv
  | print hw he hs => exact hw
  | block ho hb hc => exact ho
  | @expression value semicolon he hs =>
    rw [tokens, List.append_assoc]
    exact he.kindAhead_opening _

/-- Where declarations end: at a closing brace or at the end of the input. -/
def Ends (rest : List Token) : Prop := kindAhead rest = .rightBrace ∨ kindAhead rest = .eof

/-- No statement starts where declarations end. -/
theorem Derived.not_ends {s : Stmt} (h : s.Derived) (rest : List Token) :
    ¬ Ends (s.tokens ++ rest) := by
  have hopens := h.opens rest
  unfold Ends
  revert hopens
  generalize kindAhead (s.tokens ++ rest) = kind
  rintro hopens (rfl | rfl) <;> cases h <;> cases hopens

theorem tokens_ne_nil (s : Stmt) : s.tokens ≠ [] := by
  cases s <;> simp [tokens]

/-! ### No errors -/

theorem mem_tokensOf {t : Token} {ss : List Stmt} (h : t ∈ tokensOf ss) :
    ∃ s ∈ ss, t ∈ s.tokens := by
  induction ss with
  | nil => exact absurd h List.not_mem_nil
  | cons s rest ih =>
    rcases List.mem_append.1 h with h | h
    · exact ⟨s, List.mem_cons_self, h⟩
    · obtain ⟨s', hs', ht⟩ := ih h
      exact ⟨s', List.mem_cons_of_mem _ hs', ht⟩

/-- No token of a statement is an error. -/
theorem Derived.kind_ne_error {s : Stmt} (h : s.Derived) : ∀ t ∈ s.tokens, t.kind ≠ .error := by
  -- The tokens of an expression and the semicolon behind it.
  have hvalue : ∀ {e : Expr} {semicolon : Token}, Phrase .assignment e →
      semicolon.kind = .semicolon → ∀ t ∈ e.tokens ++ [semicolon], t.kind ≠ .error := by
    intro e semicolon he hs t ht
    rcases List.mem_append.1 ht with ht | ht
    · exact (he.kind_ne t ht).1
    · rw [List.mem_singleton.1 ht, hs]
      decide
  induction h with
  | @declare var name init semicolon hv hn hi hs =>
    refine List.forall_mem_cons.2 ⟨by rw [hv]; decide, ?_⟩
    refine List.forall_mem_cons.2 ⟨by rw [hn]; decide, ?_⟩
    cases init with
    | none => exact List.forall_mem_cons.2 ⟨by rw [hs]; decide, fun _ ht => nomatch ht⟩
    | some value =>
      have hequal : value.1.kind = .equal := hi.1
      exact List.forall_mem_cons.2 ⟨by rw [hequal]; decide, hvalue hi.2 hs⟩
  | print hw he hs => exact List.forall_mem_cons.2 ⟨by rw [hw]; decide, hvalue he hs⟩
  | block ho hb hc ih =>
    refine List.forall_mem_cons.2 ⟨by rw [ho]; decide, fun t ht => ?_⟩
    rcases List.mem_append.1 ht with ht | ht
    · obtain ⟨s, hs, ht⟩ := mem_tokensOf ht
      exact ih s hs t ht
    · rw [List.mem_singleton.1 ht, hc]
      decide
  | expression he hs => exact hvalue he hs

theorem kind_ne_error_of_mem {ss : List Stmt} (h : ∀ s ∈ ss, s.Derived) {t : Token}
    (ht : t ∈ tokensOf ss) : t.kind ≠ .error := by
  obtain ⟨s, hs, ht⟩ := mem_tokensOf ht
  exact (h s hs).kind_ne_error t ht

/-! ### One tree at most -/

/-- No expression goes on over a semicolon. -/
theorem stops_semicolon {semicolon : Token} (h : semicolon.kind = .semicolon)
    (rest : List Token) : Stops .assignment (semicolon :: rest) :=
  stops_of_not_operator (by rw [kindAhead_cons, h]; rfl) (by rw [kindAhead_cons, h]; decide)

/-- An expression up to a semicolon has one tree. -/
theorem unique_value {e e' : Expr} {semicolon semicolon' : Token} {rest rest' : List Token}
    (h : Phrase .assignment e) (h' : Phrase .assignment e')
    (hs : semicolon.kind = .semicolon) (hs' : semicolon'.kind = .semicolon)
    (heq : e.tokens ++ semicolon :: rest = e'.tokens ++ semicolon' :: rest') :
    e = e' ∧ semicolon = semicolon' ∧ rest = rest' := by
  obtain ⟨hvalue, hrest⟩ :=
    h.unique h' (stops_semicolon hs rest) (stops_semicolon hs' rest') heq
  exact ⟨hvalue, List.cons.inj hrest⟩

theorem unique_init {init init' : Initializer} {semicolon semicolon' : Token}
    {rest rest' : List Token} (h : init.Derived) (h' : init'.Derived)
    (hs : semicolon.kind = .semicolon) (hs' : semicolon'.kind = .semicolon)
    (heq : init.tokens ++ semicolon :: rest = init'.tokens ++ semicolon' :: rest') :
    init = init' ∧ semicolon = semicolon' ∧ rest = rest' := by
  cases init with
  | none =>
    cases init' with
    | none => exact ⟨rfl, List.cons.inj heq⟩
    | some value' =>
      obtain ⟨rfl, -⟩ := List.cons.inj heq
      have hequal : value'.1.kind = .equal := h'.1
      rw [hs] at hequal
      cases hequal
  | some value =>
    cases init' with
    | none =>
      obtain ⟨rfl, -⟩ := List.cons.inj heq
      have hequal : value.1.kind = .equal := h.1
      rw [hs'] at hequal
      cases hequal
    | some value' =>
      obtain ⟨equal, e⟩ := value
      obtain ⟨equal', e'⟩ := value'
      obtain ⟨rfl, htail⟩ := List.cons.inj heq
      obtain ⟨rfl, hrest⟩ := unique_value h.2 h'.2 hs hs' htail
      exact ⟨rfl, hrest⟩

/-- Statements that start with a token of the same kind have the same shape. -/
theorem ctorIdx_eq_of_opens {kind : TokenKind} {s s' : Stmt} (h : s.Opens kind)
    (h' : s'.Opens kind) : s.ctorIdx = s'.ctorIdx := by
  cases s <;> cases s' <;>
    first
      | rfl
      | simp only [Opens] at h h'; subst h; cases h'
      | simp only [Opens] at h h'; subst h'; cases h

mutual

/-- Tokens that a statement starts have one tree. -/
theorem unique (s s' : Stmt) (h : s.Derived) (h' : s'.Derived) {rest rest' : List Token}
    (heq : s.tokens ++ rest = s'.tokens ++ rest') : s = s' ∧ rest = rest' := by
  -- The first token decides on the shape of the statement.
  have hshape : s.ctorIdx = s'.ctorIdx :=
    ctorIdx_eq_of_opens (h.opens rest) (heq ▸ h'.opens rest')
  cases s with
  | declare var name init semicolon =>
    cases s' with
    | declare var' name' init' semicolon' =>
      cases h with | declare hv hn hi hs =>
      cases h' with | declare hv' hn' hi' hs' =>
      simp only [tokens, List.cons_append, List.append_assoc, List.nil_append,
        List.cons.injEq] at heq
      obtain ⟨rfl, rfl, htail⟩ := heq
      obtain ⟨rfl, rfl, rfl⟩ := unique_init hi hi' hs hs' htail
      exact ⟨rfl, rfl⟩
    | _ => cases hshape
  | print word value semicolon =>
    cases s' with
    | print word' value' semicolon' =>
      cases h with | print hw he hs =>
      cases h' with | print hw' he' hs' =>
      simp only [tokens, List.cons_append, List.append_assoc, List.nil_append,
        List.cons.injEq] at heq
      obtain ⟨rfl, htail⟩ := heq
      obtain ⟨rfl, rfl, rfl⟩ := unique_value he he' hs hs' htail
      exact ⟨rfl, rfl⟩
    | _ => cases hshape
  | block opening body closing =>
    cases s' with
    | block opening' body' closing' =>
      cases h with | block ho hb hc =>
      cases h' with | block ho' hb' hc' =>
      simp only [tokens, List.cons_append, List.append_assoc, List.nil_append,
        List.cons.injEq] at heq
      obtain ⟨rfl, htail⟩ := heq
      have hend : Ends (closing :: rest) := .inl hc
      have hend' : Ends (closing' :: rest') := .inl hc'
      obtain ⟨rfl, hrest⟩ := uniqueAll body body' hb hb' hend hend' htail
      obtain ⟨rfl, rfl⟩ := List.cons.inj hrest
      exact ⟨rfl, rfl⟩
    | _ => cases hshape
  | expression value semicolon =>
    cases s' with
    | expression value' semicolon' =>
      cases h with | expression he hs =>
      cases h' with | expression he' hs' =>
      simp only [tokens, List.append_assoc, List.cons_append, List.nil_append] at heq
      obtain ⟨rfl, rfl, rfl⟩ := unique_value he he' hs hs' heq
      exact ⟨rfl, rfl⟩
    | _ => cases hshape

/-- Tokens that statements start, up to where declarations end, have one row of trees. -/
theorem uniqueAll (ss ss' : List Stmt) (h : ∀ s ∈ ss, s.Derived) (h' : ∀ s ∈ ss', s.Derived)
    {rest rest' : List Token} (hend : Ends rest) (hend' : Ends rest')
    (heq : tokensOf ss ++ rest = tokensOf ss' ++ rest') : ss = ss' ∧ rest = rest' := by
  -- No statement starts where declarations end, so both rows are equally long.
  cases ss with
  | nil =>
    cases ss' with
    | nil => exact ⟨rfl, heq⟩
    | cons s' ss' =>
      rw [tokensOf, tokensOf, List.nil_append, List.append_assoc] at heq
      exact absurd (heq ▸ hend) ((h' s' List.mem_cons_self).not_ends _)
  | cons s ss =>
    cases ss' with
    | nil =>
      rw [tokensOf, tokensOf, List.nil_append, List.append_assoc] at heq
      exact absurd (heq ▸ hend') ((h s List.mem_cons_self).not_ends _)
    | cons s' ss' =>
      rw [tokensOf, tokensOf, List.append_assoc, List.append_assoc] at heq
      obtain ⟨rfl, hrest⟩ := unique s s' (h s List.mem_cons_self) (h' s' List.mem_cons_self) heq
      obtain ⟨rfl, rfl⟩ := uniqueAll ss ss' (fun s hs => h s (List.mem_cons_of_mem _ hs))
        (fun s hs => h' s (List.mem_cons_of_mem _ hs)) hend hend' hrest
      exact ⟨rfl, rfl⟩

end

end Stmt

end OnePass
