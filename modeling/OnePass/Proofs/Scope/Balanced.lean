import OnePass.Proofs.Course.Statement
import OnePass.Proofs.Scope.Refinement

/-!
# OnePass.Proofs.Scope.Balanced

Blocks are balanced, whatever stands in them. In the course of a compilation the row of
locals is that of a stack of frames, also where a declaration is refused, a block has no
end or tokens are skipped: what is done inside of a block adds to its own frame only
(`Course.adds`), and the end of the block, which no error passes over, takes that frame
off. So a block leaves the scope that it has found (`statement_balanced`), and a program
ends outside of all blocks (`blocks_balanced`).
-/

namespace OnePass

open OnePass.Frames

theorem Frames.declare_nil (f : Frames) : f.declare [] = f := by
  rw [declare, List.append_nil]

theorem Frames.declare_declare (f : Frames) (names more : List Token) :
    (f.declare names).declare more = f.declare (names ++ more) := by
  rw [declare, declare, declare, List.append_assoc]

namespace Parser

/-! ### Locals that are declared -/

/-- The name that the declaration at hand adds to the innermost block: that of a variable, if
a block is open and does not refuse it. -/
def declaredLocal? (p : Parser) : Option Token :=
  let named := p.advance.consume .identifier .variableNameMissing
  let valued := named.initializer.consume .semicolon .declarationEndMissing
  if p.check .kwVar ∧ 0 < valued.scope.depth ∧ (valued.declareLocal named.previous).1 then
    some named.previous
  else none

/-- Between two states declarations are carried out up to a closing token or the end, and add
some names to the innermost block. Those that are declared in the blocks among them are not
counted. -/
inductive Declares (closing : TokenKind) : Parser → List Token → Parser → Prop where
  | done {p} (h : (p.check closing || p.check .eof) = true) : Declares closing p [] p
  | more {p log q names r} (h : (p.check closing || p.check .eof) = false)
      (first : Course .declaration p log q) (rest : Declares closing q names r) :
      Declares closing p (p.declaredLocal?.toList ++ names) r

/-- The names that a task adds to the innermost block. -/
def UnitTask.Adds : UnitTask → Parser → List Token → Parser → Prop
  | .body, p, names, _ | .declaration, p, names, _ => names = p.declaredLocal?.toList
  | .declarations closing, p, names, q => Declares closing p names q
  | _, _, names, _ => names = []

variable {p q r : Parser} {f : Frames} {log : List Mark}

theorem declaredLocal?_of_check {kind : TokenKind} (h : p.check kind = true)
    (hne : kind ≠ .kwVar) : p.declaredLocal? = none := by
  have hvar : p.check .kwVar = false := check_eq_false_of_ne h hne
  simp [declaredLocal?, hvar]

/-- Up to its `;` a declaration of a variable leaves the scope as it is. -/
theorem valued_scope (p : Parser) :
    ((p.consume .identifier .variableNameMissing).initializer.consume .semicolon
      .declarationEndMissing).scope = p.scope :=
  (((p.consume_does _ _).append (initializer_does _)).append (consume_does _ _ _)).scope_eq
    rfl

/-- Outside of blocks no variable is a local. -/
theorem declaredLocal?_of_global (h : p.scope.depth = 0) : p.declaredLocal? = none := by
  simp [declaredLocal?, valued_scope, h]

/-- A variable that comes into being is added to the innermost block, if one is open and does
not refuse it. -/
theorem define_frames (h : p.scope = f.scope) (name : Token) :
    (p.define name).scope
      = (f.declare (if 0 < p.scope.depth ∧ (p.declareLocal name).1 = true then [name]
          else [])).scope := by
  unfold define
  by_cases hdepth : 0 < p.scope.depth
  · obtain ⟨hreply, hafter⟩ := declareLocal_frames h name
    rw [if_pos hdepth, hafter, Frames.perform]
    by_cases hname : f.CanDeclare name
    · rw [if_pos hname, if_pos ⟨hdepth, hreply.2 hname⟩]
    · rw [if_neg hname, if_neg fun hboth => hname (hreply.1 hboth.2), Frames.declare_nil]
  · rw [if_neg hdepth, if_neg fun hboth => hdepth hboth.1, Frames.declare_nil, ← h]
    exact ((p.makeText_does name.lexeme).append (emitWith_does _ _ _)).scope_eq rfl

/-! ### The frames in the course of a compilation -/

/-- The end of a block takes its frame off, whether or not its brace is there. -/
theorem endBlock_frames {names : List Token}
    (h : q.scope = (f.enter.declare names).scope) :
    let closed := q.consume .rightBrace .blockEndMissing
    closed.endScope.1 = names.length ∧ closed.endScope.2.scope = f.scope
      ∧ closed.endScope.2.chunk.code = closed.chunk.code
        ++ List.replicate names.length ⟨OpCode.pop.toByte, closed.previous.line⟩ :=
  endScope_frames (((q.consume_does _ _).scope_eq rfl).trans h)

/-- Whatever is done adds names to the frame of the innermost block, and changes nothing else
in the scope. -/
theorem Course.adds {task : UnitTask} (h : Course task p log q)
    (htask : ∀ unit, task ≠ .unit unit) (hp : p.scope = f.scope) :
    ∃ names, task.Adds p names q ∧ q.scope = (f.declare names).scope := by
  -- By induction on the course; the frames change where a block opens or a name is declared.
  induction h generalizing f with
  | found => exact ⟨[], rfl, by rwa [Frames.declare_nil]⟩
  | skip h rest ih =>
    obtain ⟨names, hnames, hq⟩ := ih nofun ((advance_scope _).trans hp)
    exact ⟨names, hnames, hq⟩
  | value h value =>
    refine ⟨[], rfl, ?_⟩
    rw [Frames.declare_nil, value.kept.scope, advance_scope, hp]
  | noValue => exact ⟨[], rfl, by rwa [Frames.declare_nil]⟩
  | @var p log q h value ih =>
    obtain ⟨log', hvalue⟩ :=
      (p.advance.consume .identifier .variableNameMissing).initializer_course
    obtain ⟨-, rfl⟩ := value.unique hvalue
    refine ⟨_, rfl, ?_⟩
    have hvalued := p.advance.valued_scope.trans ((advance_scope p).trans hp)
    rw [define_frames hvalued, declaredLocal?, h]
    simp only [true_and]
    split <;> rfl
  | print h value =>
    refine ⟨[], ?_, ?_⟩
    · rw [UnitTask.Adds, declaredLocal?_of_check h (by decide)]
      rfl
    · rw [Frames.declare_nil, (emit_does _ _).scope_eq rfl,
        (consume_does _ _ _).scope_eq rfl, value.kept.scope, advance_scope, hp]
  | @block p log q h inside ih =>
    have henter : p.advance.beginScope.scope = f.enter.scope :=
      congrArg Scope.enter ((advance_scope p).trans hp)
    -- What the body declared is in the innermost frame, which the end of the block drops.
    obtain ⟨names, -, hq⟩ := ih nofun henter
    refine ⟨[], ?_, ?_⟩
    · rw [UnitTask.Adds, declaredLocal?_of_check h (by decide)]
      rfl
    · rw [Frames.declare_nil]
      exact (endBlock_frames hq).2.1
  | @expression p _ _ h value =>
    refine ⟨[], ?_, ?_⟩
    · have hvar : p.check .kwVar = false := h _ (by simp)
      simp [UnitTask.Adds, declaredLocal?, hvar]
    · rw [Frames.declare_nil, (emit_does _ _).scope_eq rfl,
        (consume_does _ _ _).scope_eq rfl, value.kept.scope, hp]
  | calm body h ih => exact ih nofun hp
  | panic body h skip ihbody ihskip =>
    obtain ⟨names, hnames, hq⟩ := ihbody nofun hp
    obtain ⟨none, rfl, hr⟩ := ihskip nofun hq
    rw [Frames.declare_nil] at hr
    exact ⟨names, hnames, hr⟩
  | done h => exact ⟨[], .done h, by rwa [Frames.declare_nil]⟩
  | more h first rest ihfirst ihrest =>
    obtain ⟨names, rfl, hq⟩ := ihfirst nofun hp
    obtain ⟨more, hmore, hr⟩ := ihrest nofun hq
    exact ⟨_, .more h first hmore, by rwa [← Frames.declare_declare]⟩
  | program | single => exact absurd rfl (htask _)

/-- Outside of blocks declarations add nothing to the scope. -/
theorem Declares.global {closing : TokenKind} {names : List Token}
    (h : Declares closing p names q) (hp : p.scope = Frames.global.scope) : names = [] := by
  induction h with
  | done => rfl
  | more h first rest ih =>
    obtain ⟨first', rfl, hq⟩ := first.adds nofun hp
    rw [declaredLocal?_of_global (hp ▸ rfl)] at hq ⊢
    exact ih (hq.trans (congrArg Frames.scope (Frames.declare_nil _)))

/-- Whether the row of locals is that of a stack of frames. -/
def Framed (p : Parser) : Prop := ∃ f : Frames, p.scope = f.scope

theorem Course.framed {task : UnitTask} (h : Course task p log q)
    (htask : ∀ unit, task ≠ .unit unit) (hp : p.Framed) : q.Framed := by
  obtain ⟨f, hf⟩ := hp
  obtain ⟨names, -, hq⟩ := h.adds htask hf
  exact ⟨_, hq⟩

/-- Every declaration that is noted begins with the row of a stack of frames. -/
theorem Course.framed_of_mem {task : UnitTask} (h : Course task p log q) (hp : p.Framed)
    {before after : Parser} (hmem : .declaration before after ∈ log) : before.Framed := by
  induction h with
  | found | noValue | done => simp at hmem
  | value | print | expression | single => simp at hmem
  | skip h rest ih => exact ih (by rwa [Framed, advance_scope]) hmem
  | var h value ih =>
    refine ih ?_ (by simpa using hmem)
    rwa [Framed, (consume_does _ _ _).scope_eq rfl, advance_scope]
  | @block p _ _ h inside ih =>
    obtain ⟨f, hf⟩ := hp
    refine ih ⟨f.enter, ?_⟩ (by simpa using hmem)
    exact congrArg Scope.enter ((advance_scope p).trans hf)
  | calm body h ih =>
    rcases List.mem_cons.1 hmem with heq | hmem
    · rwa [(Mark.declaration.inj heq).1]
    · exact ih hp hmem
  | panic body h skip ihbody ihskip =>
    rcases List.mem_cons.1 hmem with heq | hmem
    · rwa [(Mark.declaration.inj heq).1]
    · rcases List.mem_append.1 hmem with hmem | hmem
      · exact ihbody hp hmem
      · exact ihskip (body.framed nofun hp) hmem
  | more h first rest ihfirst ihrest =>
    rcases List.mem_append.1 hmem with hmem | hmem
    · exact ihfirst hp hmem
    · exact ihrest (first.framed nofun hp) hmem
  | program all ih => exact ih hp (by simpa using hmem)

/-! ### Blocks -/

/-- A block that has been entered in the state `p` and left in the state `r` is balanced: it
leaves the scope that it has found, and takes as many locals off the stack at its end as
have been declared in it, not counting those of blocks inside of it. -/
def Balanced (p r : Parser) : Prop :=
  r.scope = p.scope
    ∧ ∃ names inside, Declares .rightBrace p.advance.beginScope names inside
      ∧ inside.scope.inOrder.map Local.name = p.scope.inOrder.map Local.name ++ names
      ∧ let closed := inside.consume .rightBrace .blockEndMissing
        r = closed.endScope.2 ∧ closed.endScope.1 = names.length
          ∧ r.chunk.code = closed.chunk.code
            ++ List.replicate names.length ⟨OpCode.pop.toByte, closed.previous.line⟩

theorem map_name_inOrder (h : p.scope = f.scope) :
    p.scope.inOrder.map Local.name = f.inScope :=
  h ▸ Frames.map_name_locals _

theorem Course.balanced (h : Course .body p log r) (hbrace : p.check .leftBrace = true)
    (hp : p.Framed) : Balanced p r := by
  obtain ⟨f, hf⟩ := hp
  cases h with
  | var h => cases (check_eq_false_of_ne hbrace (by decide)).symm.trans h
  | print h => cases (check_eq_false_of_ne hbrace (by decide)).symm.trans h
  | expression h => cases hbrace.symm.trans (h _ (by simp))
  | @block _ _ q _ inside =>
    have henter : p.advance.beginScope.scope = f.enter.scope :=
      congrArg Scope.enter ((advance_scope p).trans hf)
    obtain ⟨names, hnames, hq⟩ := inside.adds nofun henter
    obtain ⟨hcount, hscope, hcode⟩ := endBlock_frames hq
    refine ⟨hscope.trans hf.symm, names, q, hnames, ?_, rfl, hcount, hcode⟩
    rw [map_name_inOrder hq, map_name_inOrder hf, Frames.inScope_declare, Frames.inScope_enter]

theorem declarationBody_of_brace (hbrace : p.check .leftBrace = true)
    (body : TokenKind → Parser → Parser) : declarationBody body p = statement body p := by
  have hvar : p.check .kwVar = false := check_eq_false_of_ne hbrace (by decide)
  rw [declarationBody, hvar, if_neg Bool.false_ne_true]

/-- A statement that is a block is balanced, whatever is in it. -/
theorem statement_balanced (hbrace : p.check .leftBrace = true) (hp : p.Framed)
    (hnesting : p.nesting < maxNesting) :
    Balanced p (statement (declarations p.tokensLeft) p) := by
  obtain ⟨log, hcourse⟩ := declarationBody_course (declarations_blockCourse hnesting)
  rw [declarationBody_of_brace hbrace] at hcourse
  exact hcourse.balanced hbrace hp

/-- A declaration that is a block ends where the statement does, or at a boundary behind. -/
theorem Course.declaration_block (h : Course .declaration p log r)
    (hbrace : p.check .leftBrace = true) (hnesting : p.nesting < maxNesting) :
    let q := statement (declarations p.tokensLeft) p
    r = if q.isPanicking then q.synchronize else q := by
  obtain ⟨log', hcourse⟩ := declaration_course (declarations_blockCourse hnesting)
  obtain ⟨-, rfl⟩ := h.unique hcourse
  rw [declaration, declarationBody_of_brace hbrace]

/-- Blocks are balanced on any tokens. Of all declarations that are carried out in the course
of a program, those that start with a brace are calls of `statement` that enter a block. When
such a call returns, depth and locals are those of its beginning, and the pops that it has
written last are as many as the locals that have been declared directly in its block, whatever
errors there have been and however the block has ended. Hence a program ends at depth 0
without locals. -/
theorem blocks_balanced (stream : TokenStream) (strings : Interner) :
    ∃ log, Course (.unit .program) (start stream strings) log (start stream strings).program
      ∧ (∀ before after, .declaration before after ∈ log → before.check .leftBrace = true →
        let returned := statement (declarations before.tokensLeft) before
        Balanced before returned
          ∧ after = if returned.isPanicking then returned.synchronize else returned)
      ∧ (start stream strings).program.scope = .empty := by
  have hstart := start_nesting_lt stream strings
  have hscope : (start stream strings).scope = Frames.global.scope := start_scope stream strings
  obtain ⟨log, hcourse⟩ := unit_course .program hstart
  refine ⟨log, hcourse, fun before after hmem hbrace => ?_, ?_⟩
  · obtain ⟨hnesting, log', hdeclaration⟩ := hcourse.mem_declaration hmem
    rw [← hnesting] at hstart
    exact ⟨statement_balanced hbrace (hcourse.framed_of_mem ⟨_, hscope⟩ hmem) hstart,
      hdeclaration.declaration_block hbrace hstart⟩
  · obtain ⟨log', hall⟩ := declarations_course .eof (Nat.lt_succ_self _) hstart
    obtain ⟨names, hnames, hq⟩ := hall.adds nofun hscope
    rw [Declares.global hnames hscope, Frames.declare_nil] at hq
    exact (advance_scope _).trans hq

end Parser

end OnePass
