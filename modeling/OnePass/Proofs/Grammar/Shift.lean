import OnePass.Proofs.Grammar.Stmt
import OnePass.Proofs.Lexical.Join

/-!
# OnePass.Proofs.Grammar.Shift

Trees whose text stands further behind. Moving a tree moves its tokens, and changes
neither what it is derived by (`Phrase.shift`, `Derived.shift`) nor how deep it is. The
tokens of statements in a row are those of the statements, one after the other
(`tokensOf_append`).
-/

namespace OnePass

variable (bytes lines : Nat)

/-! ### Expressions -/

namespace Expr

/-- The tree of an expression whose text stands further behind. -/
def shift : Expr → Expr
  | atom t => atom (t.shift bytes lines)
  | group opening inner closing =>
    group (opening.shift bytes lines) inner.shift (closing.shift bytes lines)
  | unary op operand => unary (op.shift bytes lines) operand.shift
  | binary left op right => binary left.shift (op.shift bytes lines) right.shift
  | assign target equal value =>
    assign (target.shift bytes lines) (equal.shift bytes lines) value.shift

@[simp] theorem tokens_shift (e : Expr) :
    (e.shift bytes lines).tokens = e.tokens.map (Token.shift bytes lines) := by
  induction e with
  | atom t => rfl
  | group opening inner closing ih =>
    rw [shift, tokens, tokens, ih, List.map_cons, List.map_append, List.map_singleton]
  | unary op operand ih => rw [shift, tokens, tokens, ih, List.map_cons]
  | binary left op right ihl ihr =>
    rw [shift, tokens, tokens, ihl, ihr, List.map_append, List.map_cons]
  | assign target equal value ih =>
    rw [shift, tokens, tokens, ih, List.map_cons, List.map_cons]

/-- The last token of a tree, whose line the instructions of an operator carry, moves with the
tree. -/
@[simp] theorem last_shift (e : Expr) :
    (e.shift bytes lines).last = e.last.shift bytes lines := by
  induction e with
  | atom t => rfl
  | group opening inner closing ih => rfl
  | unary op operand ih => exact ih
  | binary left op right ihl ihr => exact ihr
  | assign target equal value ih => exact ih

@[simp] theorem depth_shift (e : Expr) : (e.shift bytes lines).depth = e.depth := by
  induction e with
  | atom t => rfl
  | group opening inner closing ih => rw [shift, depth, depth, ih]
  | unary op operand ih => rw [shift, depth, depth, ih]
  | binary left op right ihl ihr => rw [shift, depth, depth, ihl, ihr]
  | assign target equal value ih => rw [shift, depth, depth, ih]

end Expr

/-- The grammar does not see where a text stands. -/
theorem Phrase.shift {level : Level} {e : Expr} (h : Phrase level e) :
    Phrase level (e.shift bytes lines) := by
  induction h with
  | tighter h ih => exact .tighter ih
  | assign ht heq h ih => exact .assign ht heq ih
  | chain hop hl hr ihl ihr => exact .chain hop ihl ihr
  | unary hop h ih => exact .unary hop ih
  | atom ht => exact .atom ht
  | group ho h hc ih => exact .group ho ih hc

/-! ### Statements -/

namespace Initializer

/-- An initializer whose text stands further behind. -/
def shift : Initializer → Initializer
  | none => none
  | some (equal, value) => some (equal.shift bytes lines, value.shift bytes lines)

/-- The text of an initializer moves with it; without initializer there is none. -/
@[simp] theorem tokens_shift (init : Initializer) :
    (init.shift bytes lines).tokens = init.tokens.map (Token.shift bytes lines) := by
  cases init with
  | none => rfl
  | some value => exact congrArg (_ :: ·) (value.2.tokens_shift bytes lines)

theorem Derived.shift {init : Initializer} (h : init.Derived) :
    (init.shift bytes lines).Derived := by
  cases init with
  | none => trivial
  | some value => exact ⟨h.1, h.2.shift bytes lines⟩

end Initializer

namespace Stmt

mutual

/-- The tree of a statement whose text stands further behind. -/
def shift : Stmt → Stmt
  | declare var name init semicolon =>
    declare (var.shift bytes lines) (name.shift bytes lines) (init.shift bytes lines)
      (semicolon.shift bytes lines)
  | print word value semicolon =>
    print (word.shift bytes lines) (value.shift bytes lines) (semicolon.shift bytes lines)
  | block opening body closing =>
    block (opening.shift bytes lines) (shiftAll body) (closing.shift bytes lines)
  | expression value semicolon =>
    expression (value.shift bytes lines) (semicolon.shift bytes lines)

/-- The trees of statements whose text stands further behind. -/
def shiftAll : List Stmt → List Stmt
  | [] => []
  | s :: rest => s.shift :: shiftAll rest

end

/-- A statement of the moved row is one of the row, moved. -/
theorem mem_shiftAll {ss : List Stmt} {s : Stmt} (h : s ∈ shiftAll bytes lines ss) :
    ∃ s' ∈ ss, s = s'.shift bytes lines := by
  induction ss with
  | nil => exact absurd h List.not_mem_nil
  | cons s' rest ih =>
    rcases List.mem_cons.1 h with rfl | h
    · exact ⟨s', List.mem_cons_self, rfl⟩
    · obtain ⟨s'', hs'', heq⟩ := ih h
      exact ⟨s'', List.mem_cons_of_mem _ hs'', heq⟩

mutual

theorem tokens_shift (s : Stmt) :
    (s.shift bytes lines).tokens = s.tokens.map (Token.shift bytes lines) := by
  cases s with
  | block opening body closing =>
    rw [shift, tokens, tokens, tokensOf_shiftAll body, List.map_cons, List.map_append,
      List.map_singleton]
  | _ => simp [shift, tokens]

theorem tokensOf_shiftAll (ss : List Stmt) :
    tokensOf (shiftAll bytes lines ss) = (tokensOf ss).map (Token.shift bytes lines) := by
  cases ss with
  | nil => rfl
  | cons s rest =>
    rw [shiftAll, tokensOf, tokensOf, tokens_shift s, tokensOf_shiftAll rest, List.map_append]

end

/-- What is derived as a statement is derived further behind as well. -/
theorem Derived.shift {s : Stmt} (h : s.Derived) : (s.shift bytes lines).Derived := by
  induction h with
  | declare hv hn hi hs => exact .declare hv hn (hi.shift bytes lines) hs
  | print hw he hs => exact .print hw (he.shift bytes lines) hs
  | block ho hb hc ih =>
    -- The body is known by membership alone, so each of its statements is traced back to the one
    -- that it was.
    refine .block ho (fun s hs => ?_) hc
    obtain ⟨s', hs', rfl⟩ := mem_shiftAll bytes lines hs
    exact ih s' hs'
  | expression he hs => exact .expression (he.shift bytes lines) hs

/-! ### Statements in a row -/

/-- Two programs one after the other have the tokens of both: no token joins them. -/
theorem tokensOf_append (ss ss' : List Stmt) :
    tokensOf (ss ++ ss') = tokensOf ss ++ tokensOf ss' := by
  induction ss with
  | nil => rfl
  | cons s rest ih => rw [List.cons_append, tokensOf, tokensOf, ih, List.append_assoc]

end Stmt

end OnePass
