/-!
# OnePass.Grammar.Precedence

How tightly the operators of the language bind, loosest first.
-/

namespace OnePass

/-- A level of binding strength. -/
inductive Precedence where
  | none | assignment | or | and | equality | comparison | term | factor | unary
  | call | primary
  deriving DecidableEq, Repr, Inhabited

namespace Precedence

/-- Every level, loosest first. -/
def all : List Precedence :=
  [.none, .assignment, .or, .and, .equality, .comparison, .term, .factor, .unary,
   .call, .primary]

/-- The place of a level in the order. -/
def rank : Precedence → Nat
  | .none => 0
  | .assignment => 1
  | .or => 2
  | .and => 3
  | .equality => 4
  | .comparison => 5
  | .term => 6
  | .factor => 7
  | .unary => 8
  | .call => 9
  | .primary => 10

instance : LE Precedence := ⟨fun a b => a.rank ≤ b.rank⟩

instance : LT Precedence := ⟨fun a b => a.rank < b.rank⟩

instance (a b : Precedence) : Decidable (a ≤ b) := inferInstanceAs (Decidable (a.rank ≤ b.rank))

instance (a b : Precedence) : Decidable (a < b) := inferInstanceAs (Decidable (a.rank < b.rank))

instance : Ord Precedence := ⟨fun a b => compare a.rank b.rank⟩

/-- One level tighter, up to the tightest. -/
def next : Precedence → Precedence
  | .none => .assignment
  | .assignment => .or
  | .or => .and
  | .and => .equality
  | .equality => .comparison
  | .comparison => .term
  | .term => .factor
  | .factor => .unary
  | .unary => .call
  | .call | .primary => .primary

/-- Whether an assignment can stand where an expression of this level is due. -/
def allowsAssignment (min : Precedence) : Bool := min ≤ .assignment

/-- The name under which a level is printed. -/
def name : Precedence → String
  | .none => "None"
  | .assignment => "Assignment"
  | .or => "Or"
  | .and => "And"
  | .equality => "Equality"
  | .comparison => "Comparison"
  | .term => "Term"
  | .factor => "Factor"
  | .unary => "Unary"
  | .call => "Call"
  | .primary => "Primary"

/-- The level printed under a given name. -/
def ofName? (text : String) : Option Precedence :=
  all.find? (·.name = text)

/-! ### The order -/

theorem le_def (a b : Precedence) : a ≤ b ↔ a.rank ≤ b.rank := Iff.rfl

theorem lt_def (a b : Precedence) : a < b ↔ a.rank < b.rank := Iff.rfl

theorem rank_next (a : Precedence) : a.next.rank = min (a.rank + 1) 10 := by
  cases a <;> rfl

end Precedence

end OnePass
