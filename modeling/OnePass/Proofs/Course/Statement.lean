import OnePass.Proofs.Course.Expression

/-!
# OnePass.Proofs.Course.Statement

The course that the compilation of a unit takes, told by rules like that of an expression.
It notes besides the emissions every declaration that is carried out, with the states
before and after it. From every state in which an expression can be opened a unit takes
exactly one course, to where `run` leads (`unit_course`, `Course.unique`).
-/

namespace OnePass

/-- What is noted in the course of a compilation. -/
inductive Mark where
  | emission (e : Emission)
  /-- A declaration that has been carried out between two states. -/
  | declaration (before after : Parser)

/-- The emission of a mark. -/
def Mark.emission? : Mark → Option Emission
  | emission e => some e
  | declaration _ _ => none

/-- The emissions that are noted. -/
def emissionsOf (log : List Mark) : List Emission := log.filterMap Mark.emission?

@[simp] theorem emissionsOf_append (log log' : List Mark) :
    emissionsOf (log ++ log') = emissionsOf log ++ emissionsOf log' :=
  List.filterMap_append

@[simp] theorem emissionsOf_map (log : List Emission) :
    emissionsOf (log.map .emission) = log := by
  rw [emissionsOf, List.filterMap_map]
  exact List.filterMap_some

@[simp] theorem emissionsOf_singleton (e : Emission) : emissionsOf [.emission e] = [e] := rfl

@[simp] theorem emissionsOf_cons_declaration (before after : Parser) (log : List Mark) :
    emissionsOf (.declaration before after :: log) = emissionsOf log := rfl

namespace Parser

/-- What is written when a declared variable comes into being. -/
def definition (p : Parser) (name : Token) : List Emission :=
  if 0 < p.scope.depth then []
  else [⟨(p.nameConstant name).2, .defineGlobal, some (p.nameConstant name).1⟩]

/-- What is written at the end of a block. -/
def closing (p : Parser) : List Emission :=
  emissions { p with scope := p.scope.leave.2 } (List.replicate p.scope.leave.1 .pop)

/-! ### The rules -/

/-- What is done in the course of a compilation. -/
inductive UnitTask where
  /-- Tokens are skipped up to where a statement may start. -/
  | boundary
  /-- The value of a declared variable. -/
  | initializer
  /-- A declaration or statement up to its end or to an error. -/
  | body
  /-- A declaration or statement, and the recovery from an error in it. -/
  | declaration
  /-- Declarations up to a closing token or the end. -/
  | declarations (closing : TokenKind)
  | unit (unit : UnitKind)
  deriving DecidableEq, Repr

/-- A task that is begun in one state ends in another, with some marks on the way. -/
inductive Course : UnitTask → Parser → List Mark → Parser → Prop where
  | found {p} (h : p.atBoundary = true) : Course .boundary p [] p
  | skip {p log q} (h : p.atBoundary = false) (rest : Course .boundary p.advance log q) :
      Course .boundary p log q
  | value {p log q} (h : p.check .equal = true)
      (value : ExprCourse (.level .assignment) p.advance log q) :
      Course .initializer p (log.map .emission) q
  | noValue {p} (h : p.check .equal = false) :
      Course .initializer p [.emission ⟨p, .pushNil, none⟩] (p.emit .pushNil)
  | var {p log q} (h : p.check .kwVar = true)
      (value : Course .initializer (p.advance.consume .identifier .variableNameMissing) log q) :
      Course .body p
        (log ++ ((q.consume .semicolon .declarationEndMissing).definition
          (p.advance.consume .identifier .variableNameMissing).previous).map .emission)
        ((q.consume .semicolon .declarationEndMissing).define
          (p.advance.consume .identifier .variableNameMissing).previous)
  | print {p log q} (h : p.check .kwPrint = true)
      (value : ExprCourse (.level .assignment) p.advance log q) :
      Course .body p
        (log.map .emission ++ [.emission ⟨q.consume .semicolon .valueEndMissing, .print, none⟩])
        ((q.consume .semicolon .valueEndMissing).emit .print)
  | block {p log q} (h : p.check .leftBrace = true)
      (inside : Course (.declarations .rightBrace) p.advance.beginScope log q) :
      Course .body p (log ++ ((q.consume .rightBrace .blockEndMissing).closing).map .emission)
        (q.consume .rightBrace .blockEndMissing).endScope.2
  | expression {p log q}
      (h : ∀ kind ∈ [TokenKind.kwVar, .kwPrint, .leftBrace], p.check kind = false)
      (value : ExprCourse (.level .assignment) p log q) :
      Course .body p
        (log.map .emission ++ [.emission ⟨q.consume .semicolon .expressionEndMissing, .pop, none⟩])
        ((q.consume .semicolon .expressionEndMissing).emit .pop)
  | calm {p log q} (body : Course .body p log q) (h : q.isPanicking = false) :
      Course .declaration p (.declaration p q :: log) q
  | panic {p log q log' r} (body : Course .body p log q) (h : q.isPanicking = true)
      (skip : Course .boundary q log' r) :
      Course .declaration p (.declaration p r.recover.2 :: (log ++ log')) r.recover.2
  | done {closing p} (h : (p.check closing || p.check .eof) = true) :
      Course (.declarations closing) p [] p
  | more {closing p log q log' r} (h : (p.check closing || p.check .eof) = false)
      (first : Course .declaration p log q) (rest : Course (.declarations closing) q log' r) :
      Course (.declarations closing) p (log ++ log') r
  | program {p log q} (all : Course (.declarations .eof) p log q) :
      Course (.unit .program) p (log ++ [.emission ⟨q.advance, .ret, none⟩]) (q.advance.emit .ret)
  | single {p log q} (value : ExprCourse (.level .assignment) p log q) :
      Course (.unit .expression) p
        (log.map .emission ++ [.emission ⟨q.consume .eof .inputEndMissing, .ret, none⟩])
        ((q.consume .eof .inputEndMissing).emit .ret)

section Course

variable {p q q' : Parser} {task : UnitTask} {log log' : List Mark}

/-- Only one kind of token is current. -/
theorem check_eq_false_of_ne {kind other : TokenKind} (h : p.check kind = true)
    (hne : kind ≠ other) : p.check other = false := by
  have hcurrent : p.current.kind = kind := of_decide_eq_true h
  exact decide_eq_false fun hother => hne (hcurrent.symm.trans hother)

/-- A task takes at most one course. -/
theorem Course.unique (h : Course task p log q) (h' : Course task p log' q') :
    log' = log ∧ q' = q := by
  -- As for expressions: the conditions of the rules exclude each other.
  induction h generalizing log' q' with
  | found h =>
    cases h' with
    | found => exact ⟨rfl, rfl⟩
    | skip h' => cases h.symm.trans h'
  | skip h rest ih =>
    cases h' with
    | found h' => cases h.symm.trans h'
    | skip _ rest' => exact ih rest'
  | value h value =>
    cases h' with
    | value _ value' =>
      obtain ⟨rfl, rfl⟩ := value.unique value'
      exact ⟨rfl, rfl⟩
    | noValue h' => cases h.symm.trans h'
  | noValue h =>
    cases h' with
    | value h' => cases h.symm.trans h'
    | noValue => exact ⟨rfl, rfl⟩
  | var h value ih =>
    cases h' with
    | var _ value' =>
      obtain ⟨rfl, rfl⟩ := ih value'
      exact ⟨rfl, rfl⟩
    | print h' => cases (check_eq_false_of_ne h (by decide)).symm.trans h'
    | block h' => cases (check_eq_false_of_ne h (by decide)).symm.trans h'
    | expression h' => cases h.symm.trans (h' _ (by simp))
  | print h value =>
    cases h' with
    | var h' => cases (check_eq_false_of_ne h (by decide)).symm.trans h'
    | print _ value' =>
      obtain ⟨rfl, rfl⟩ := value.unique value'
      exact ⟨rfl, rfl⟩
    | block h' => cases (check_eq_false_of_ne h (by decide)).symm.trans h'
    | expression h' => cases h.symm.trans (h' _ (by simp))
  | block h inside ih =>
    cases h' with
    | var h' => cases (check_eq_false_of_ne h (by decide)).symm.trans h'
    | print h' => cases (check_eq_false_of_ne h (by decide)).symm.trans h'
    | block _ inside' =>
      obtain ⟨rfl, rfl⟩ := ih inside'
      exact ⟨rfl, rfl⟩
    | expression h' => cases h.symm.trans (h' _ (by simp))
  | expression h value =>
    cases h' with
    | var h' => cases h'.symm.trans (h _ (by simp))
    | print h' => cases h'.symm.trans (h _ (by simp))
    | block h' => cases h'.symm.trans (h _ (by simp))
    | expression _ value' =>
      obtain ⟨rfl, rfl⟩ := value.unique value'
      exact ⟨rfl, rfl⟩
  | calm body h ih =>
    cases h' with
    | calm body' =>
      obtain ⟨rfl, rfl⟩ := ih body'
      exact ⟨rfl, rfl⟩
    | panic body' h' =>
      obtain ⟨-, rfl⟩ := ih body'
      cases h.symm.trans h'
  | panic body h skip ihbody ihskip =>
    cases h' with
    | calm body' h' =>
      obtain ⟨-, rfl⟩ := ihbody body'
      cases h.symm.trans h'
    | panic body' _ skip' =>
      obtain ⟨rfl, rfl⟩ := ihbody body'
      obtain ⟨rfl, rfl⟩ := ihskip skip'
      exact ⟨rfl, rfl⟩
  | done h =>
    cases h' with
    | done => exact ⟨rfl, rfl⟩
    | more h' => cases h.symm.trans h'
  | more h first rest ihfirst ihrest =>
    cases h' with
    | done h' => cases h.symm.trans h'
    | more _ first' rest' =>
      obtain ⟨rfl, rfl⟩ := ihfirst first'
      obtain ⟨rfl, rfl⟩ := ihrest rest'
      exact ⟨rfl, rfl⟩
  | program all ih =>
    cases h' with
    | program all' =>
      obtain ⟨rfl, rfl⟩ := ih all'
      exact ⟨rfl, rfl⟩
  | single value =>
    cases h' with
    | single value' =>
      obtain ⟨rfl, rfl⟩ := value.unique value'
      exact ⟨rfl, rfl⟩

/-! ### Open expressions -/

/-- Between declarations as many expressions are open as before. -/
theorem Course.nesting (h : Course task p log q) : q.nesting = p.nesting := by
  have hconsume : ∀ (p : Parser) kind problem, (p.consume kind problem).nesting = p.nesting :=
    fun p _ _ => (p.consume_does _ _).nesting_eq rfl
  induction h with
  | found => rfl
  | skip h rest ih => rw [ih, advance_nesting]
  | value h value => rw [value.kept.nesting, advance_nesting]
  | noValue => rfl
  | var h value ih =>
    rw [(define_does _ _).nesting_eq rfl, hconsume, ih, hconsume, advance_nesting]
  | print h value =>
    rw [(emit_does _ _).nesting_eq rfl, hconsume, value.kept.nesting, advance_nesting]
  | block h inside ih =>
    rw [(endScope_does _).nesting_eq rfl, hconsume, ih]
    exact advance_nesting _
  | expression h value =>
    rw [(emit_does _ _).nesting_eq rfl, hconsume, value.kept.nesting]
  | calm body h ih => exact ih
  | panic body h skip ihbody ihskip => exact ihskip.trans ihbody
  | done => rfl
  | more h first rest ihfirst ihrest => exact ihrest.trans ihfirst
  | program all ih => exact (advance_nesting _).trans ih
  | single value => exact (hconsume _ _ _).trans value.kept.nesting

/-! ### Declarations that are carried out -/

/-- Every declaration that is noted is carried out with as many expressions open as at the
beginning. -/
theorem Course.mem_declaration (h : Course task p log q) {before after : Parser}
    (hmem : .declaration before after ∈ log) :
    before.nesting = p.nesting ∧ ∃ log, Course .declaration before log after := by
  -- Marks of a part are marks of the whole; what has to be followed is how many expressions are
  -- open where the part begins.
  induction h with
  | found | noValue | done => simp at hmem
  | value | print | expression | single => simp at hmem
  | skip h rest ih => exact (ih hmem).imp_left (·.trans (advance_nesting _))
  | var h value ih =>
    refine (ih (by simpa using hmem)).imp_left (·.trans ?_)
    rw [(consume_does _ _ _).nesting_eq rfl, advance_nesting]
  | block h inside ih =>
    exact (ih (by simpa using hmem)).imp_left (·.trans (advance_nesting _))
  | calm body h ih =>
    rcases List.mem_cons.1 hmem with heq | hmem
    · obtain ⟨rfl, rfl⟩ := Mark.declaration.inj heq
      exact ⟨rfl, _, .calm body h⟩
    · exact ih hmem
  | panic body h skip ihbody ihskip =>
    rcases List.mem_cons.1 hmem with heq | hmem
    · obtain ⟨rfl, rfl⟩ := Mark.declaration.inj heq
      exact ⟨rfl, _, .panic body h skip⟩
    · rcases List.mem_append.1 hmem with hmem | hmem
      · exact ihbody hmem
      · exact (ihskip hmem).imp_left (·.trans body.nesting)
  | more h first rest ihfirst ihrest =>
    rcases List.mem_append.1 hmem with hmem | hmem
    · exact ihfirst hmem
    · exact (ihrest hmem).imp_left (·.trans first.nesting)
  | program all ih =>
    exact ih (by simpa using hmem)

/-- Declarations end in front of their closing token or at the end. -/
theorem Course.declarations_end {closing : TokenKind}
    (h : Course (.declarations closing) p log q) :
    (q.check closing || q.check .eof) = true := by
  generalize htask : UnitTask.declarations closing = task at h
  induction h with
  | done h =>
    obtain rfl := UnitTask.declarations.inj htask
    exact h
  | more h first rest ihfirst ihrest => exact ihrest htask
  | _ => cases htask

end Course

/-! ### Every unit takes its course -/

/-- The search for a boundary ends by itself, as it goes over tokens that are left. -/
theorem skipToBoundary_course (p : Parser) : ∃ log, Course .boundary p log p.skipToBoundary := by
  fun_induction skipToBoundary p with
  | case1 p h => exact ⟨_, .found h⟩
  | case2 p h ih =>
    obtain ⟨log, hrest⟩ := ih
    exact ⟨log, .skip (Bool.eq_false_iff.2 h) hrest⟩

/-- A variable takes the course of its value, or writes `nil`. -/
theorem initializer_course (p : Parser) : ∃ log, Course .initializer p log p.initializer := by
  unfold initializer
  split
  · rename_i hequal
    obtain ⟨log, hvalue⟩ := p.advance.expression_course
    exact ⟨_, .value hequal hvalue⟩
  · rename_i hother
    exact ⟨_, .noValue (Bool.eq_false_iff.2 hother)⟩

section Body

variable {body : TokenKind → Parser → Parser} {p : Parser}

/-- The declarations in a block take their courses. They are behind its brace, where fewer
tokens are left. -/
def BlockCourse (body : TokenKind → Parser → Parser) (p : Parser) : Prop :=
  p.check .leftBrace = true → ∀ closing q, q.tokensLeft < p.tokensLeft → q.nesting = p.nesting →
    ∃ log, Course (.declarations closing) q log (body closing q)

/-- What the first token decides. Only the block needs anything from `body`, and only behind its
brace. -/
theorem declarationBody_course (hbody : BlockCourse body p) :
    ∃ log, Course .body p log (declarationBody body p) := by
  unfold declarationBody statement
  split
  · rename_i hvar
    obtain ⟨log, hvalue⟩ :=
      (p.advance.consume .identifier .variableNameMissing).initializer_course
    rw [varDeclaration_eq]
    exact ⟨_, .var hvar hvalue⟩
  rename_i hvar
  split
  · rename_i hprint
    obtain ⟨log, hvalue⟩ := p.advance.expression_course
    exact ⟨_, .print hprint hvalue⟩
  rename_i hprint
  split
  · rename_i hbrace
    have hkind : p.current.kind = .leftBrace := of_decide_eq_true hbrace
    obtain ⟨log, hinside⟩ := hbody hbrace .rightBrace p.advance.beginScope
      (p.tokensLeft_advance_lt (by rw [hkind]; decide)) p.advance_nesting
    exact ⟨_, .block hbrace hinside⟩
  · rename_i hbrace
    obtain ⟨log, hvalue⟩ := p.expression_course
    refine ⟨_, .expression (fun kind hkind => ?_) hvalue⟩
    simp only [List.mem_cons, List.not_mem_nil, or_false] at hkind
    rcases hkind with rfl | rfl | rfl
    · exact Bool.eq_false_iff.2 hvar
    · exact Bool.eq_false_iff.2 hprint
    · exact Bool.eq_false_iff.2 hbrace

/-- Whether there is a panic behind the body decides between the two rules. -/
theorem declaration_course (hbody : BlockCourse body p) :
    ∃ log, Course .declaration p log (declaration body p) := by
  obtain ⟨log, hcourse⟩ := declarationBody_course hbody
  unfold declaration
  dsimp only
  cases hpanic : (declarationBody body p).isPanicking with
  | false => exact ⟨_, .calm hcourse hpanic⟩
  | true =>
    obtain ⟨log', hskip⟩ := (declarationBody body p).skipToBoundary_course
    exact ⟨_, .panic hcourse hpanic hskip⟩

/-- A declaration that is not a block leaves no expression open, whatever blocks do. -/
theorem declarationBody_nesting (hbrace : ¬ p.check .leftBrace = true) :
    (declarationBody body p).nesting = p.nesting := by
  have hblock : BlockCourse body p := fun hblock => absurd hblock hbrace
  obtain ⟨log, h⟩ := declarationBody_course hblock
  exact h.nesting

theorem declaration_nesting (hbrace : ¬ p.check .leftBrace = true) :
    (declaration body p).nesting = p.nesting := by
  have hblock : BlockCourse body p := fun hblock => absurd hblock hbrace
  obtain ⟨log, h⟩ := declaration_course hblock
  exact h.nesting

end Body

theorem skipToBoundary_nesting (p : Parser) : p.skipToBoundary.nesting = p.nesting := by
  obtain ⟨log, h⟩ := p.skipToBoundary_course
  exact h.nesting

/-- The fuel outlasts the tokens: each declaration pulls one, so that it is enough for a course to
exist. -/
theorem declarations_course {fuel : Nat} (closing : TokenKind) {p : Parser}
    (hfuel : p.tokensLeft < fuel) (hnesting : p.nesting < maxNesting) :
    ∃ log, Course (.declarations closing) p log (declarations fuel closing p) := by
  induction fuel generalizing closing p with
  | zero => exact absurd hfuel (Nat.not_lt_zero _)
  | succ fuel ih =>
    unfold declarations
    cases hend : p.check closing || p.check .eof with
    | true => exact ⟨_, .done hend⟩
    | false =>
      have heof : p.current.kind ≠ .eof := by
        simpa [check] using ((Bool.or_eq_false_iff).1 hend).2
      obtain ⟨n, hpulled⟩ := declaration_pulled (declarations_reaches fuel) hnesting
      have hless := hpulled.tokensLeft_lt heof
      -- The body of a block has the fuel that is left, and is behind a token.
      have hblock : BlockCourse (declarations fuel) p :=
        fun _ closing q hq hsame => ih closing (by omega) (hsame ▸ hnesting)
      obtain ⟨log, hfirst⟩ := declaration_course hblock
      obtain ⟨log', hrest⟩ := ih closing (by omega) (hfirst.nesting ▸ hnesting)
      exact ⟨_, .more hend hfirst hrest⟩

theorem declarations_blockCourse {p : Parser} (hnesting : p.nesting < maxNesting) :
    BlockCourse (declarations p.tokensLeft) p :=
  fun _ closing _ hfewer hsame => declarations_course closing hfewer (hsame ▸ hnesting)

/-- A unit takes a course, if an expression can be opened at its start. -/
theorem unit_course (unit : UnitKind) {p : Parser} (hnesting : p.nesting < maxNesting) :
    ∃ log, Course (.unit unit) p log (p.run unit) := by
  cases unit with
  | program =>
    obtain ⟨log, hall⟩ := declarations_course .eof (Nat.lt_succ_self _) hnesting
    exact ⟨_, .program hall⟩
  | expression =>
    obtain ⟨log, hvalue⟩ := p.expression_course
    exact ⟨_, .single hvalue⟩

/-- Where no expression is open, one can be opened. -/
theorem nesting_lt_of_eq_zero {p : Parser} (h : p.nesting = 0) : p.nesting < maxNesting := by
  rw [h]
  decide

/-- At the start no expression is open. -/
theorem start_nesting (stream : TokenStream) (strings : Interner) :
    (start stream strings).nesting = 0 :=
  advance_nesting _

theorem start_nesting_lt (stream : TokenStream) (strings : Interner) :
    (start stream strings).nesting < maxNesting :=
  nesting_lt_of_eq_zero (start_nesting stream strings)

/-- A declaration that is carried out pulls a token. -/
theorem Course.declaration_pulled {before after : Parser} {log : List Mark}
    (h : Course .declaration before log after) (hnesting : before.nesting < maxNesting) :
    ∃ n, Pulled (n + 1) before after := by
  obtain ⟨log', hcourse⟩ := declaration_course (declarations_blockCourse hnesting)
  -- There is one course only, so it is the one that is followed by the program.
  obtain ⟨-, rfl⟩ := hcourse.unique h
  exact Parser.declaration_pulled (declarations_reaches _) hnesting

/-- The compilation of any tokens comes to an end. By the rules, which put no bound on
loops and nested calls, a unit takes one course and no other, and ends where `run` does.
Every declaration on the way that begins before the end pulls a token, so that fewer are
left behind it. -/
theorem unit_halts (unit : UnitKind) (stream : TokenStream) (strings : Interner) :
    ∃ log, (∀ log' q, Course (.unit unit) (start stream strings) log' q ↔
        log' = log ∧ q = (start stream strings).run unit)
      ∧ ∀ before after, .declaration before after ∈ log → before.current.kind ≠ .eof →
        (∃ n, Pulled (n + 1) before after) ∧ after.tokensLeft < before.tokensLeft := by
  have hstart := start_nesting_lt stream strings
  obtain ⟨log, hcourse⟩ := unit_course unit hstart
  refine ⟨log, fun log' q => ⟨fun h => hcourse.unique h, ?_⟩, fun before after hmem heof => ?_⟩
  · rintro ⟨rfl, rfl⟩
    exact hcourse
  · obtain ⟨hnesting, log', hdeclaration⟩ := hcourse.mem_declaration hmem
    obtain ⟨n, hpulled⟩ := hdeclaration.declaration_pulled (hnesting ▸ hstart)
    exact ⟨⟨n, hpulled⟩, hpulled.tokensLeft_lt heof⟩

end Parser

end OnePass
