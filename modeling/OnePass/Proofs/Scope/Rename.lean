import OnePass.Proofs.Lexical.Respell
import OnePass.Proofs.Stack.Trace

/-!
# OnePass.Proofs.Scope.Rename

Another name for one local. Its declaration is spelled otherwise, and so is every name that
refers to it, as lexical scoping has it (`Token.rename`): nothing in the initializer of the
declaration itself, nothing that a later declaration of the old name has taken over, nothing
outside the block. If the new name is not in use, then every name keeps its slot
(`Frames.slots_rename`), and so constants, code and static rules stay what they are
(`Stmt.constantsOf_rename`, `Stmt.codeOf_rename`, `Stmt.ValidAll.rename`).

The renaming is one of trees, with the frames that are in scope at each name; a renaming of tokens
one by one could not tell which of them refer to the declaration. That the text of the program is
the same but for some names is read off the trees (`Stmt.respelled_tokensOf`).
-/

namespace OnePass

/-- A declaration, and the name that it is to have. -/
structure Renaming where
  declaration : Token
  name : String
  /-- A name, and no reserved word. -/
  isName : Lexeme .identifier name.toList

/-! ### Tokens -/

namespace Token

variable (r : Renaming)

/-- A declaration behind the renaming. -/
def redeclare (t : Token) : Token := if t = r.declaration then t.spell r.name else t

/-- A token behind the renaming: it has the new name if it refers to the declaration. -/
def rename (f : Frames) (t : Token) : Token :=
  if t.target? f = some r.declaration then t.spell r.name else t

/-- Whether a token is not the new name. -/
def Avoids (t : Token) : Prop := t.kind = .identifier → t.lexeme ≠ r.name

variable {r}

theorem redeclare_of_ne {t : Token} (h : t ≠ r.declaration) : t.redeclare r = t := if_neg h

theorem redeclare_self : r.declaration.redeclare r = r.declaration.spell r.name := if_pos rfl

/-- A spelling that a token did not have before, and that is not the new one, it does not have
now. -/
theorem lexeme_redeclare_ne {t : Token} {text : String} (ht : t.lexeme ≠ text)
    (hname : text ≠ r.name) : (t.redeclare r).lexeme ≠ text := by
  unfold redeclare
  split
  · exact hname.symm
  · exact ht

theorem respelled_redeclare {t : Token} (h : t.kind = .identifier) :
    t.Respelled r.name (t.redeclare r) := by
  unfold redeclare
  split
  · exact .renamed h
  · exact .same

/-- Wherever a token stands, the renaming leaves it as it is or spells a name otherwise. -/
theorem respelled_rename (f : Frames) (t : Token) : t.Respelled r.name (t.rename r f) := by
  unfold rename target?
  by_cases h : t.kind = .identifier
  · rw [if_pos h]
    split
    · exact .renamed h
    · exact .same
  · rw [if_neg h, if_neg (by simp)]
    exact .same

/-- Only names are renamed. -/
theorem rename_of_kind_ne {f : Frames} {t : Token} (h : t.kind ≠ .identifier) :
    t.rename r f = t := by
  rw [rename, target?, if_neg h, if_neg (by simp)]

end Token

/-! ### Frames -/

namespace Frames

variable (r : Renaming)

/-- Whether the new name is not in scope. -/
def Avoids (f : Frames) : Prop := ∀ t ∈ f.inScope, t.lexeme ≠ r.name

/-- The frames behind the renaming. -/
def rename (f : Frames) : Frames :=
  ⟨f.inner.map (Token.redeclare r), f.outer.map (List.map (Token.redeclare r))⟩

variable {r} {f : Frames}

theorem rename_enter (f : Frames) : f.enter.rename r = (f.rename r).enter := rfl

theorem rename_declare (f : Frames) (t : Token) :
    (f.declare [t]).rename r = (f.rename r).declare [t.redeclare r] := by
  rw [rename, declare, List.map_append]
  rfl

@[simp] theorem isGlobal_rename (f : Frames) : (f.rename r).isGlobal = f.isGlobal :=
  List.isEmpty_map

theorem inScope_rename (f : Frames) : (f.rename r).inScope = f.inScope.map (Token.redeclare r) := by
  rw [inScope, inScope, List.map_flatten, List.map_reverse]
  rfl

theorem Avoids.enter (h : f.Avoids r) : f.enter.Avoids r := by
  rw [Avoids, inScope_enter]
  exact h

/-- A declaration of another name does not bring the new one into scope. -/
theorem Avoids.declare (h : f.Avoids r) {t : Token} (ht : t.lexeme ≠ r.name) :
    (f.declare [t]).Avoids r := by
  intro u hu
  rw [inScope_declare] at hu
  rcases List.mem_append.1 hu with hu | hu
  · exact h u hu
  · rw [List.mem_singleton.1 hu]
    exact ht

/-- A name without a slot has no declaration in any frame. -/
theorem declaration?_eq_none {name : String} (h : f.slot? name = none) :
    f.declaration? name = none := by
  refine List.findSome?_eq_none_iff.2 fun frame hframe => ?_
  refine List.find?_eq_none.2 fun t ht => ?_
  have hmem : t ∈ f.inScope :=
    List.mem_flatten.2 ⟨frame, List.mem_reverse.2 hframe, List.mem_reverse.1 ht⟩
  simpa using latest?_eq_none_iff.1 h t hmem

/-- The new name has the slot that the names of the declaration had. -/
theorem slot?_rename_name (havoid : f.Avoids r) {name : String}
    (h : f.declaration? name = some r.declaration) : (f.rename r).slot? r.name = f.slot? name := by
  cases hslot : f.slot? name with
  | none =>
    rw [declaration?_eq_none hslot] at h
    cases h
  | some slot =>
    have hd : f.inScope[slot]? = some r.declaration := (getElem?_of_slot? hslot).trans h
    obtain ⟨⟨t, ht, hname⟩, hlater⟩ := latest?_eq_some_iff.1 hslot
    obtain rfl : t = r.declaration := Option.some.inj (ht.symm.trans hd)
    rw [slot?, inScope_rename]
    refine latest?_eq_some_iff.2 ⟨⟨r.declaration.spell r.name, ?_, rfl⟩, fun j u hj hu => ?_⟩
    · rw [List.getElem?_map, hd, Option.map_some, Token.redeclare_self]
    · rw [List.getElem?_map] at hu
      obtain ⟨v, hv, rfl⟩ := Option.map_eq_some_iff.1 hu
      -- What is declared later has another name, so it is another declaration.
      have hne : v ≠ r.declaration := fun heq => hlater j v hj hv (heq ▸ hname)
      rw [Token.redeclare_of_ne hne]
      exact havoid v (List.mem_of_getElem? hv)

/-- Any other name has the slot that it had. -/
theorem slot?_rename_of_ne {name : String} (h : f.declaration? name ≠ some r.declaration)
    (hname : name ≠ r.name) : (f.rename r).slot? name = f.slot? name := by
  rw [slot?, inScope_rename]
  cases hslot : f.slot? name with
  | none =>
    refine latest?_eq_none_iff.2 fun u hu => ?_
    obtain ⟨t, ht, rfl⟩ := List.mem_map.1 hu
    exact Token.lexeme_redeclare_ne (latest?_eq_none_iff.1 hslot t ht) hname
  | some slot =>
    obtain ⟨⟨t, ht, htname⟩, hlater⟩ := latest?_eq_some_iff.1 hslot
    have hne : t ≠ r.declaration := by
      rintro rfl
      exact h ((getElem?_of_slot? hslot).symm.trans ht)
    refine latest?_eq_some_iff.2 ⟨⟨t, ?_, htname⟩, fun j u hj hu => ?_⟩
    · rw [List.getElem?_map, ht, Option.map_some, Token.redeclare_of_ne hne]
    · rw [List.getElem?_map] at hu
      obtain ⟨v, hv, rfl⟩ := Option.map_eq_some_iff.1 hu
      exact Token.lexeme_redeclare_ne (hlater j v hj hv) hname

/-- Every name keeps its slot. -/
theorem slots_rename (havoid : f.Avoids r) {t : Token} (hkind : t.kind = .identifier)
    (ht : t.Avoids r) : (f.rename r).slots (t.rename r f).lexeme = f.slots t.lexeme := by
  have htarget : t.target? f = f.declaration? t.lexeme := if_pos hkind
  unfold slots
  -- A name that refers to the declaration is looked up under the new spelling, any other one
  -- under its own.
  by_cases h : f.declaration? t.lexeme = some r.declaration
  · rw [Token.rename, if_pos (htarget.trans h), Token.spell, slot?_rename_name havoid h]
  · rw [Token.rename, if_neg (fun heq => h (htarget.symm.trans heq)),
      slot?_rename_of_ne h (ht hkind)]

/-- The name of a global stays. -/
theorem rename_of_slots_eq_none {t : Token} (h : f.slots t.lexeme = none) :
    t.rename r f = t := by
  have hnone : f.declaration? t.lexeme = none :=
    declaration?_eq_none (Option.map_eq_none_iff.1 h)
  rw [Token.rename, Token.target?, hnone, ite_self, if_neg (by simp)]

/-- What may be declared may be declared under its new name: no local of the block has that. -/
theorem CanDeclare.rename {t : Token} (h : f.CanDeclare t) (havoid : f.Avoids r)
    (ht : t.lexeme ≠ r.name) : (f.rename r).CanDeclare (t.redeclare r) := by
  refine ⟨fun u hu => ?_, ?_⟩
  · obtain ⟨v, hv, rfl⟩ := List.mem_map.1 hu
    have hne : v.lexeme ≠ t.lexeme := h.1 v hv
    by_cases hd : t = r.declaration
    · -- The name is new, so the others are other declarations and avoid it.
      subst hd
      have hother : v ≠ r.declaration := fun heq => hne (congrArg Token.lexeme heq)
      rw [Token.redeclare_of_ne hother, Token.redeclare_self]
      exact havoid v (List.mem_flatten.2 ⟨f.inner, by simp, hv⟩)
    · rw [Token.redeclare_of_ne hd]
      exact Token.lexeme_redeclare_ne hne ht
  · rw [inScope_rename, List.length_map]
    exact h.2

end Frames

/-! ### Expressions -/

namespace Expr

variable (r : Renaming) (f : Frames)

/-- An expression behind the renaming. -/
def rename : Expr → Expr
  | atom t => atom (t.rename r f)
  | group opening inner closing => group opening inner.rename closing
  | unary op operand => unary op operand.rename
  | binary left op right => binary left.rename op right.rename
  | assign target equal value => assign (target.rename r f) equal value.rename

variable {r f}

/-- The sentence is the same but for the names. -/
theorem respelled_tokens (e : Expr) :
    List.Forall₂ (Token.Respelled r.name) e.tokens (e.rename r f).tokens := by
  have hsame : ∀ {ts us : List Token} (t : Token), List.Forall₂ (Token.Respelled r.name) ts us →
      List.Forall₂ (Token.Respelled r.name) (t :: ts) (t :: us) := fun t h => .cons .same h
  induction e with
  | atom t => exact .cons (t.respelled_rename f) .nil
  | group opening inner closing ih =>
    exact hsame opening (List.rel_append ih (hsame closing .nil))
  | unary op operand ih => exact hsame op ih
  | binary left op right ihl ihr => exact List.rel_append ihl (hsame op ihr)
  | assign target equal value ih => exact .cons (target.respelled_rename f) (hsame equal ih)

@[simp] theorem last_rename_line (e : Expr) : (e.rename r f).last.line = e.last.line := by
  induction e with
  | atom t => exact (t.respelled_rename f).line_eq
  | group opening inner closing ih => rfl
  | unary op operand ih => exact ih
  | binary left op right ihl ihr => exact ihr
  | assign target equal value ih => exact ih

@[simp] theorem depth_rename (e : Expr) : (e.rename r f).depth = e.depth := by
  induction e with
  | atom t => rfl
  | group opening inner closing ih => rw [rename, depth, depth, ih]
  | unary op operand ih => rw [rename, depth, depth, ih]
  | binary left op right ihl ihr => rw [rename, depth, depth, ihl, ihr]
  | assign target equal value ih => rw [rename, depth, depth, ih]

end Expr

/-- The grammar does not see how a name is spelled. -/
theorem Phrase.rename {r : Renaming} {f : Frames} {level : Level} {e : Expr}
    (h : Phrase level e) : Phrase level (e.rename r f) := by
  induction h with
  | tighter h ih => exact .tighter ih
  | @assign target equal value ht heq h ih =>
    exact .assign ((target.respelled_rename f).kind_eq.trans ht) heq ih
  | chain hop hl hr ihl ihr => exact .chain hop ihl ihr
  | unary hop h ih => exact .unary hop ih
  | @atom t ht => exact .atom ((t.respelled_rename f).kind_eq ▸ ht)
  | group ho h hc ih => exact .group ho ih hc

section Code

variable {r : Renaming} {f : Frames} (havoid : f.Avoids r)

include havoid

/-- A name that is renamed is that of a local, and locals are no constants. -/
theorem Token.constant?_rename {t : Token} (ht : t.Avoids r) :
    (t.rename r f).constant? (f.rename r).slots = t.constant? f.slots := by
  by_cases hkind : t.kind = .identifier
  · have hslots := Frames.slots_rename havoid hkind ht
    have hkind' : (t.rename r f).kind = .identifier :=
      (t.respelled_rename f).kind_eq.trans hkind
    simp only [constant?, hkind, hkind', hslots]
    cases hslot : f.slots t.lexeme with
    | some slot => rfl
    | none => rw [Frames.rename_of_slots_eq_none hslot]
  · rw [rename_of_kind_ne hkind]
    unfold constant?
    split <;> first | rfl | contradiction

/-- A renamed name has the slot of the old one; all other tokens are untouched. -/
theorem Token.load_rename {t : Token} (ht : t.Avoids r) (index : Nat) :
    (t.rename r f).load (f.rename r).slots index = t.load f.slots index := by
  by_cases hkind : t.kind = .identifier
  · have hslots := Frames.slots_rename havoid hkind ht
    have hrespelled : t.Respelled r.name (t.rename r f) := t.respelled_rename f
    simp only [load, hkind, hrespelled.kind_eq, hrespelled.line_eq, hslots]
  · rw [rename_of_kind_ne hkind]
    unfold load
    split <;> first | rfl | contradiction

theorem Token.assignCode_rename {target : Token} (hkind : target.kind = .identifier)
    (ht : target.Avoids r) (index line : Nat) :
    (target.rename r f).assignCode (f.rename r).slots index line
      = target.assignCode f.slots index line := by
  rw [assignCode, assignCode, Frames.slots_rename havoid hkind ht]

/-- The texts in the pool are those of globals and strings, of which none is renamed. -/
theorem Expr.constants_rename (e : Expr) (he : ∀ t ∈ e.tokens, t.Avoids r) :
    (e.rename r f).constants (f.rename r).slots = e.constants f.slots := by
  induction e with
  | atom t =>
    rw [rename, constants, constants, t.constant?_rename havoid (he t List.mem_cons_self)]
  | group opening inner closing ih =>
    exact ih fun t ht => he t (List.mem_cons_of_mem _ (List.mem_append_left _ ht))
  | unary op operand ih => exact ih fun t ht => he t (List.mem_cons_of_mem _ ht)
  | binary left op right ihl ihr =>
    rw [rename, constants, constants, ihl fun t ht => he t (List.mem_append_left _ ht),
      ihr fun t ht => he t (List.mem_append_right _ (List.mem_cons_of_mem _ ht))]
  | assign target equal value ih =>
    rw [rename, constants, constants, target.constant?_rename havoid (he target List.mem_cons_self),
      ih fun t ht => he t (List.mem_cons_of_mem _ (List.mem_cons_of_mem _ ht))]

/-- No instruction of an expression shows how a local is called. -/
theorem Phrase.code_rename {level : Level} {e : Expr} (h : Phrase level e)
    (he : ∀ t ∈ e.tokens, t.Avoids r) (index : Nat) :
    (e.rename r f).code (f.rename r).slots index = e.code f.slots index := by
  induction h generalizing index with
  | tighter h ih => exact ih he index
  | @assign target equal value ht heq h ih =>
    have htarget := he target List.mem_cons_self
    rw [Expr.rename, Expr.code, Expr.code, target.constant?_rename havoid htarget,
      Expr.last_rename_line, target.assignCode_rename havoid ht htarget,
      ih fun t ht => he t (List.mem_cons_of_mem _ (List.mem_cons_of_mem _ ht))]
  | @chain level left op right hop hl hr ihl ihr =>
    have hleft : ∀ t ∈ left.tokens, t.Avoids r := fun t ht => he t (List.mem_append_left _ ht)
    rw [Expr.rename, Expr.code, Expr.code, ihl hleft, left.constants_rename havoid hleft,
      Expr.last_rename_line,
      ihr fun t ht => he t (List.mem_append_right _ (List.mem_cons_of_mem _ ht))]
  | unary hop h ih =>
    rw [Expr.rename, Expr.code, Expr.code, Expr.last_rename_line,
      ih fun t ht => he t (List.mem_cons_of_mem _ ht)]
  | @atom t ht => exact t.load_rename havoid (he t List.mem_cons_self) index
  | group ho h hc ih =>
    exact ih (fun t ht => he t (List.mem_cons_of_mem _ (List.mem_append_left _ ht))) index

end Code

/-! ### Initializers -/

namespace Initializer

variable {r : Renaming} {f : Frames}

/-- An initializer behind the renaming. -/
def rename (r : Renaming) (f : Frames) : Initializer → Initializer
  | none => none
  | some (equal, value) => some (equal, value.rename r f)

theorem respelled_tokens (init : Initializer) :
    List.Forall₂ (Token.Respelled r.name) init.tokens (init.rename r f).tokens := by
  cases init with
  | none => exact .nil
  | some value => exact .cons .same value.2.respelled_tokens

theorem Derived.rename {init : Initializer} (h : init.Derived) : (init.rename r f).Derived := by
  cases init with
  | none => trivial
  | some value => exact ⟨h.1, h.2.rename⟩

theorem depth_le_of_mem_values_rename {init : Initializer} {n : Nat}
    (h : ∀ e ∈ init.values, e.depth ≤ n) : ∀ e ∈ (init.rename r f).values, e.depth ≤ n := by
  cases init with
  | none => exact h
  | some value =>
    intro e he
    rw [List.mem_singleton.1 he, Expr.depth_rename]
    exact h value.2 List.mem_cons_self

theorem constants_rename (havoid : f.Avoids r) (init : Initializer)
    (hinit : ∀ t ∈ init.tokens, t.Avoids r) :
    (init.rename r f).constants (f.rename r).slots = init.constants f.slots := by
  cases init with
  | none => rfl
  | some value =>
    exact value.2.constants_rename havoid fun t ht => hinit t (List.mem_cons_of_mem _ ht)

theorem Derived.code_rename {init : Initializer} (h : init.Derived) (havoid : f.Avoids r)
    (hinit : ∀ t ∈ init.tokens, t.Avoids r) {name name' : Token} (hline : name'.line = name.line)
    (index : Nat) :
    (init.rename r f).code (f.rename r).slots index name' = init.code f.slots index name := by
  cases init with
  | none =>
    rw [Initializer.rename, code, code, hline]
  | some value =>
    exact h.2.code_rename havoid (fun t ht => hinit t (List.mem_cons_of_mem _ ht)) index

end Initializer

/-! ### Statements -/

namespace Stmt

section Trees

variable (r : Renaming)

/-- The name in a declaration behind the renaming. A global keeps its name. -/
def renameDeclared (f : Frames) (name : Token) : Token :=
  if f.isGlobal then name else name.redeclare r

mutual

/-- A statement behind the renaming. -/
def rename (f : Frames) : Stmt → Stmt
  | declare var name init semicolon =>
    declare var (renameDeclared r f name) (init.rename r f) semicolon
  | print word value semicolon => print word (value.rename r f) semicolon
  | block opening body closing => block opening (renameAll f.enter body) closing
  | expression value semicolon => expression (value.rename r f) semicolon

/-- Statements behind the renaming. -/
def renameAll (f : Frames) : List Stmt → List Stmt
  | [] => []
  | s :: rest => s.rename f :: renameAll (s.after f) rest

end

end Trees

variable {r : Renaming}

/-- The name in a declaration is spelled otherwise if it is the one. -/
theorem respelled_renameDeclared (f : Frames) {name : Token} (h : name.kind = .identifier) :
    name.Respelled r.name (renameDeclared r f name) := by
  unfold renameDeclared
  split
  · exact .same
  · exact Token.respelled_redeclare h

/-- Renaming a statement and then going on is going on and then renaming the frames. Thus a tree
is renamed with the frames of the original, and compiled with those that the renamed tree brings
about. -/
theorem after_rename (f : Frames) (s : Stmt) :
    (s.rename r f).after (f.rename r) = (s.after f).rename r := by
  cases s with
  | declare var name init semicolon =>
    rw [rename, after, after, Frames.isGlobal_rename]
    -- Globals are not in the frames; a local joins the innermost one.
    by_cases hglobal : f.isGlobal = true
    · rw [if_pos hglobal, if_pos hglobal]
    · rw [if_neg hglobal, if_neg hglobal, Frames.rename_declare, renameDeclared, if_neg hglobal]
  | _ => rfl

theorem length_declared_renameAll (f : Frames) (ss : List Stmt) :
    (declared (renameAll r f ss)).length = (declared ss).length := by
  induction ss generalizing f with
  | nil => rfl
  | cons s rest ih =>
    cases s with
    | declare => exact congrArg (· + 1) (ih _)
    | _ => exact ih _

mutual

/-- The grammar asks for kinds of tokens only. -/
theorem derived_rename (f : Frames) (s : Stmt) (h : s.Derived) : (s.rename r f).Derived := by
  cases h with
  | declare hv hn hi hs =>
    exact .declare hv ((respelled_renameDeclared f hn).kind_eq.trans hn) hi.rename hs
  | print hw he hs => exact .print hw he.rename hs
  | @block opening body closing ho hb hc => exact .block ho (derived_renameAll f.enter body hb) hc
  | expression he hs => exact .expression he.rename hs

theorem derived_renameAll (f : Frames) (ss : List Stmt) (h : ∀ s ∈ ss, s.Derived) :
    ∀ s ∈ renameAll r f ss, s.Derived := by
  cases ss with
  | nil => exact h
  | cons s rest =>
    obtain ⟨hs, hrest⟩ := List.forall_mem_cons.1 h
    exact List.forall_mem_cons.2
      ⟨derived_rename f s hs, derived_renameAll (s.after f) rest hrest⟩

end

mutual

/-- The sentence is the same but for the names. -/
theorem respelled_tokens (f : Frames) (s : Stmt) (h : s.Derived) :
    List.Forall₂ (Token.Respelled r.name) s.tokens (s.rename r f).tokens := by
  have hlast : ∀ {ts us : List Token} (t : Token), List.Forall₂ (Token.Respelled r.name) ts us →
      List.Forall₂ (Token.Respelled r.name) (ts ++ [t]) (us ++ [t]) :=
    fun t h => List.rel_append h (.cons .same .nil)
  cases h with
  | @declare var name init semicolon hv hn hi hs =>
    exact .cons .same (.cons (respelled_renameDeclared f hn)
      (hlast semicolon init.respelled_tokens))
  | @print word value semicolon hw he hs =>
    exact .cons .same (hlast semicolon value.respelled_tokens)
  | @block opening body closing ho hb hc =>
    exact .cons .same (hlast closing (respelled_tokensOf f.enter body hb))
  | @expression value semicolon he hs => exact hlast semicolon value.respelled_tokens

theorem respelled_tokensOf (f : Frames) (ss : List Stmt) (h : ∀ s ∈ ss, s.Derived) :
    List.Forall₂ (Token.Respelled r.name) (tokensOf ss) (tokensOf (renameAll r f ss)) := by
  cases ss with
  | nil => exact .nil
  | cons s rest =>
    obtain ⟨hs, hrest⟩ := List.forall_mem_cons.1 h
    exact List.rel_append (respelled_tokens f s hs)
      (respelled_tokensOf (s.after f) rest hrest)

end

/-! ### Scopes, constants and code -/

/-- Statements bring nothing new into scope but what they declare. -/
theorem Derived.avoids_after {f : Frames} {s : Stmt} (h : s.Derived)
    (hs : ∀ t ∈ s.tokens, t.Avoids r) (havoid : f.Avoids r) : (s.after f).Avoids r := by
  cases h with
  | @declare var name init semicolon hv hn hi hsemicolon =>
    rw [after]
    split
    · exact havoid
    · exact havoid.declare (hs name (by simp [tokens]) hn)
  | _ => exact havoid

theorem declare_avoids {var name semicolon : Token} {init : Initializer}
    (hs : ∀ t ∈ (declare var name init semicolon).tokens, t.Avoids r) :
    ∀ t ∈ init.tokens, t.Avoids r :=
  fun t ht => hs t (List.mem_cons_of_mem _ (List.mem_cons_of_mem _ (List.mem_append_left _ ht)))

theorem print_avoids {word semicolon : Token} {value : Expr}
    (hs : ∀ t ∈ (print word value semicolon).tokens, t.Avoids r) :
    ∀ t ∈ value.tokens, t.Avoids r :=
  fun t ht => hs t (List.mem_cons_of_mem _ (List.mem_append_left _ ht))

theorem block_avoids {opening closing : Token} {body : List Stmt}
    (hs : ∀ t ∈ (block opening body closing).tokens, t.Avoids r) :
    ∀ t ∈ tokensOf body, t.Avoids r :=
  fun t ht => hs t (List.mem_cons_of_mem _ (List.mem_append_left _ ht))

theorem expression_avoids {semicolon : Token} {value : Expr}
    (hs : ∀ t ∈ (expression value semicolon).tokens, t.Avoids r) :
    ∀ t ∈ value.tokens, t.Avoids r :=
  fun t ht => hs t (List.mem_append_left _ ht)

mutual

/-- Constants of a statement. Its frames are renamed along with it. -/
theorem constants_rename {f : Frames} (havoid : f.Avoids r) (s : Stmt) (h : s.Derived)
    (hs : ∀ t ∈ s.tokens, t.Avoids r) :
    (s.rename r f).constants (f.rename r) = s.constants f := by
  cases h with
  | @declare var name init semicolon hv hn hi hsemicolon =>
    rw [rename, constants, constants, init.constants_rename havoid (declare_avoids hs),
      Frames.isGlobal_rename]
    by_cases hglobal : f.isGlobal = true
    · rw [if_pos hglobal, if_pos hglobal, renameDeclared, if_pos hglobal]
    · rw [if_neg hglobal, if_neg hglobal]
  | @print word value semicolon hw he hsemicolon =>
    exact value.constants_rename havoid (print_avoids hs)
  | @block opening body closing ho hb hc =>
    exact constantsOf_rename havoid.enter body hb (block_avoids hs)
  | @expression value semicolon he hsemicolon =>
    exact value.constants_rename havoid (expression_avoids hs)

theorem constantsOf_rename {f : Frames} (havoid : f.Avoids r) (ss : List Stmt)
    (h : ∀ s ∈ ss, s.Derived) (hss : ∀ t ∈ tokensOf ss, t.Avoids r) :
    constantsOf (f.rename r) (renameAll r f ss) = constantsOf f ss := by
  cases ss with
  | nil => rfl
  | cons s rest =>
    obtain ⟨hderived, hrest⟩ := List.forall_mem_cons.1 h
    obtain ⟨hs, hss⟩ := List.forall_mem_append.1 hss
    rw [renameAll, constantsOf, constantsOf, constants_rename havoid s hderived hs,
      after_rename, constantsOf_rename (hderived.avoids_after hs havoid) rest hrest hss]

end

mutual

theorem code_rename {f : Frames} (havoid : f.Avoids r) (s : Stmt) (h : s.Derived)
    (hs : ∀ t ∈ s.tokens, t.Avoids r) (index : Nat) :
    (s.rename r f).code (f.rename r) index = s.code f index := by
  cases h with
  | @declare var name init semicolon hv hn hi hsemicolon =>
    have hinit := declare_avoids hs
    rw [rename, code, code, init.constants_rename havoid hinit,
      hi.code_rename havoid hinit (respelled_renameDeclared f hn).line_eq, defineCode,
      Frames.isGlobal_rename, defineCode]
  | @print word value semicolon hw he hsemicolon =>
    rw [rename, code, code, he.code_rename havoid (print_avoids hs)]
  | @block opening body closing ho hb hc =>
    rw [rename, code, code, length_declared_renameAll,
      ← codeOf_rename havoid.enter body hb (block_avoids hs) index, Frames.rename_enter]
  | @expression value semicolon he hsemicolon =>
    rw [rename, code, code, he.code_rename havoid (expression_avoids hs)]

/-- No instruction shows how a local is called. -/
theorem codeOf_rename {f : Frames} (havoid : f.Avoids r) (ss : List Stmt)
    (h : ∀ s ∈ ss, s.Derived) (hss : ∀ t ∈ tokensOf ss, t.Avoids r) (index : Nat) :
    codeOf (f.rename r) index (renameAll r f ss) = codeOf f index ss := by
  cases ss with
  | nil => rfl
  | cons s rest =>
    obtain ⟨hderived, hrest⟩ := List.forall_mem_cons.1 h
    obtain ⟨hs, hss⟩ := List.forall_mem_append.1 hss
    -- The rest is compiled in the scope behind the first statement, which has been renamed as
    -- well.
    rw [renameAll, codeOf, codeOf, code_rename havoid s hderived hs,
      constants_rename havoid s hderived hs, after_rename,
      codeOf_rename (hderived.avoids_after hs havoid) rest hrest hss]

end

mutual

/-- The static rules: depths stay, and what was declared once in its block still is. -/
theorem Valid.rename {f : Frames} (havoid : f.Avoids r) (s : Stmt) (h : s.Derived)
    (hs : ∀ t ∈ s.tokens, t.Avoids r) (hvalid : s.Valid f) :
    (s.rename r f).Valid (f.rename r) := by
  cases h with
  | @declare var name init semicolon hv hn hi hsemicolon =>
    refine ⟨init.depth_le_of_mem_values_rename hvalid.1, fun hblock => ?_⟩
    rw [Frames.isGlobal_rename] at hblock
    rw [renameDeclared, if_neg (by simp [hblock])]
    exact (hvalid.2 hblock).rename havoid (hs name (by simp [tokens]) hn)
  | @print word value semicolon hw he hsemicolon =>
    exact Nat.le_trans (Nat.le_of_eq value.depth_rename) hvalid
  | @block opening body closing ho hb hc =>
    exact ValidAll.rename havoid.enter body hb (block_avoids hs) hvalid
  | @expression value semicolon he hsemicolon =>
    exact Nat.le_trans (Nat.le_of_eq value.depth_rename) hvalid

theorem ValidAll.rename {f : Frames} (havoid : f.Avoids r) (ss : List Stmt)
    (h : ∀ s ∈ ss, s.Derived) (hss : ∀ t ∈ tokensOf ss, t.Avoids r) (hvalid : ValidAll f ss) :
    ValidAll (f.rename r) (renameAll r f ss) := by
  cases ss with
  | nil => trivial
  | cons s rest =>
    obtain ⟨hderived, hrest⟩ := List.forall_mem_cons.1 h
    obtain ⟨hs, hss⟩ := List.forall_mem_append.1 hss
    refine ⟨Valid.rename havoid s hderived hs hvalid.1, ?_⟩
    rw [after_rename]
    exact ValidAll.rename (hderived.avoids_after hs havoid) rest hrest hss hvalid.2

end

end Stmt

end OnePass
