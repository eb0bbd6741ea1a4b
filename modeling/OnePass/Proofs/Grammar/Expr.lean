import OnePass.Token.Basic

/-!
# OnePass.Proofs.Grammar.Expr

The expressions of the language as trees, and the grammar they are derived by:

    assignment → IDENT "=" assignment | equality
    equality   → comparison (( "!=" | "==" ) comparison)*
    comparison → term (( ">" | ">=" | "<" | "<=" ) term)*
    term       → factor (( "-" | "+" ) factor)*
    factor     → unary (( "/" | "*" ) unary)*
    unary      → ( "!" | "-" ) unary | primary
    primary    → NUMBER | STRING | "true" | "false" | "nil" | IDENT
               | "(" assignment ")"

A tree keeps every token it was derived from, so that its tokens are the sentence
itself, and code can be put on their lines. Repetitions are trees that lean to the
left.
-/

namespace OnePass

/-- The tree of an expression. -/
inductive Expr where
  | atom (t : Token)
  | group (opening : Token) (inner : Expr) (closing : Token)
  | unary (op : Token) (operand : Expr)
  | binary (left : Expr) (op : Token) (right : Expr)
  | assign (target equal : Token) (value : Expr)
  deriving DecidableEq, Repr

namespace Expr

/-- The sentence that a tree derives. -/
def tokens : Expr → List Token
  | atom t => [t]
  | group opening inner closing => opening :: (inner.tokens ++ [closing])
  | unary op operand => op :: operand.tokens
  | binary left op right => left.tokens ++ op :: right.tokens
  | assign target equal value => target :: equal :: value.tokens

/-- The last token of the sentence. -/
def last : Expr → Token
  | atom t => t
  | group _ _ closing => closing
  | unary _ operand => operand.last
  | binary _ _ right => right.last
  | assign _ _ value => value.last

/-- How many expressions are open inside each other while a tree is read from left
to right. The left operand of an operator is read before the operator is known, and
thus not inside anything. -/
def depth : Expr → Nat
  | atom _ => 1
  | group _ inner _ => 1 + inner.depth
  | unary _ operand => 1 + operand.depth
  | binary left _ right => max left.depth (1 + right.depth)
  | assign _ _ value => 1 + value.depth

theorem one_le_depth (e : Expr) : 1 ≤ e.depth := by
  induction e with
  | atom t => exact Nat.le_refl 1
  | group opening inner closing ih => exact Nat.le_add_right 1 _
  | unary op operand ih => exact Nat.le_add_right 1 _
  | binary left op right ihl ihr => exact Nat.le_trans ihl (Nat.le_max_left _ _)
  | assign target equal value ih => exact Nat.le_add_right 1 _

end Expr

/-! ### The grammar -/

/-- The nonterminals of the grammar, loosest first. -/
inductive Level where
  | assignment | equality | comparison | term | factor | unary | primary
  deriving DecidableEq, Repr

namespace Level

/-- The nonterminal that the right-hand sides of a nonterminal are built from. -/
def next : Level → Level
  | .assignment => .equality
  | .equality => .comparison
  | .comparison => .term
  | .term => .factor
  | .factor => .unary
  | .unary => .primary
  | .primary => .primary

/-- The operators that join operands of a nonterminal. -/
def operators : Level → List TokenKind
  | .equality => [.bangEqual, .equalEqual]
  | .comparison => [.greater, .greaterEqual, .less, .lessEqual]
  | .term => [.minus, .plus]
  | .factor => [.slash, .star]
  | _ => []

/-- The place of a nonterminal in the order. -/
def rank : Level → Nat
  | .assignment => 0
  | .equality => 1
  | .comparison => 2
  | .term => 3
  | .factor => 4
  | .unary => 5
  | .primary => 6

end Level

/-- What the grammar derives from a nonterminal. -/
inductive Phrase : Level → Expr → Prop where
  | tighter {level e} (h : Phrase level.next e) : Phrase level e
  | assign {target equal value} (ht : target.kind = .identifier) (heq : equal.kind = .equal)
      (h : Phrase .assignment value) : Phrase .assignment (.assign target equal value)
  | chain {level left op right} (hop : op.kind ∈ level.operators) (hl : Phrase level left)
      (hr : Phrase level.next right) : Phrase level (.binary left op right)
  | unary {op operand} (hop : op.kind = .bang ∨ op.kind = .minus) (h : Phrase .unary operand) :
      Phrase .unary (.unary op operand)
  | atom {t} (ht : t.kind ∈ [.number, .string, .kwTrue, .kwFalse, .kwNil, .identifier]) :
      Phrase .primary (.atom t)
  | group {opening inner closing} (ho : opening.kind = .leftParen)
      (h : Phrase .assignment inner) (hc : closing.kind = .rightParen) :
      Phrase .primary (.group opening inner closing)

namespace Phrase

/-- What a nonterminal derives, every looser one derives. -/
theorem loosen {loose tight : Level} {e : Expr} (h : Phrase tight e)
    (hle : loose.rank ≤ tight.rank) : Phrase loose e := by
  -- One step loosens by one level.
  have hstep : ∀ n, ∀ level : Level, level.rank + n = tight.rank → Phrase level e := by
    intro n
    induction n with
    | zero =>
      intro level heq
      have : level = tight := by revert heq; cases level <;> cases tight <;> decide
      exact this ▸ h
    | succ n ih =>
      intro level heq
      refine .tighter (ih level.next ?_)
      have hbound : tight.rank ≤ 6 := by cases tight <;> decide
      have hnext : level.rank < 6 → level.next.rank = level.rank + 1 := by
        cases level <;> decide
      rw [hnext (by omega)]
      omega
  exact hstep (tight.rank - loose.rank) loose (by omega)

/-- No token of an expression is an error or an end token. -/
theorem kind_ne {level : Level} {e : Expr} (h : Phrase level e) :
    ∀ t ∈ e.tokens, t.kind ≠ .error ∧ t.kind ≠ .eof := by
  induction h with
  | tighter h ih => exact ih
  | assign ht heq h ih =>
    intro t hmem
    rcases List.mem_cons.1 hmem with rfl | hmem
    · simp [ht]
    rcases List.mem_cons.1 hmem with rfl | hmem
    · simp [heq]
    · exact ih t hmem
  | @chain level left op right hop hl hr ihl ihr =>
    intro t hmem
    rcases List.mem_append.1 hmem with hmem | hmem
    · exact ihl t hmem
    rcases List.mem_cons.1 hmem with rfl | hmem
    · revert hop
      cases level <;> simp only [Level.operators] <;> generalize t.kind = kind <;>
        cases kind <;> decide
    · exact ihr t hmem
  | unary hop h ih =>
    intro t hmem
    rcases List.mem_cons.1 hmem with rfl | hmem
    · rcases hop with hop | hop <;> simp [hop]
    · exact ih t hmem
  | @atom t ht =>
    intro t' hmem
    obtain rfl := List.mem_singleton.1 hmem
    revert ht
    generalize t'.kind = kind
    cases kind <;> decide
  | group ho h hc ih =>
    intro t hmem
    rcases List.mem_cons.1 hmem with rfl | hmem
    · simp [ho]
    rcases List.mem_append.1 hmem with hmem | hmem
    · exact ih t hmem
    · obtain rfl := List.mem_singleton.1 hmem
      simp [hc]

end Phrase

end OnePass
