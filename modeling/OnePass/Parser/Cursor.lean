import OnePass.Parser.State

/-!
# OnePass.Parser.Cursor

How the parser goes over its tokens. Its window only moves forward, by one token
that is not an error at a time; errors in between are reported and never come into
the window.
-/

namespace OnePass.Parser

/-- Report the errors at the head of the stream. -/
def reportErrors (p : Parser) : Parser :=
  p.stream.leadingErrors.foldl (fun q t => q.errorAt t (.unreadable t.lexeme)) p

/-- Take the current token: it becomes the previous one, and the next token that is
not an error becomes current. Error tokens on the way are reported. -/
def advance (p : Parser) : Parser :=
  let next := p.stream.afterErrors.next
  { { p with previous := p.current }.reportErrors with current := next.1, stream := next.2 }

/-- Whether the current token is of a kind. -/
def check (p : Parser) (kind : TokenKind) : Bool := p.current.kind = kind

/-- Take the current token if it is of a kind. Also tells whether it is. -/
def accept (p : Parser) (kind : TokenKind) : Bool × Parser :=
  if p.check kind then (true, p.advance) else (false, p)

/-- Take the current token if it is of a kind, else report a problem there. -/
def consume (p : Parser) (kind : TokenKind) (problem : Problem) : Parser :=
  if p.check kind then p.advance else p.errorAtCurrent problem

/-- How many tokens are left, an end token in the window not counted. No operation
adds to it, and taking a token other than an end takes one away, so that it bounds
every loop over tokens. -/
def tokensLeft (p : Parser) : Nat :=
  p.stream.pending.length + if p.current.kind = .eof then 0 else 1

/-- The state before the first operation: nothing is written, and the first token is
current. -/
def start (stream : TokenStream) (strings : Interner) : Parser :=
  let origin : Token := ⟨.eof, "", 0, 1⟩
  { stream, current := origin, previous := origin, chunk := .empty, strings, diagnostics := []
    scope := .empty, nesting := 0, hadError := false, mode := .normal : Parser }.advance

/-! ### What taking a token changes -/

/-- A part of the state that no error changes is not changed by reporting many. -/
theorem foldl_errorAt_eq {α : Type} (errors : List Token) (part : Parser → α)
    (h : ∀ q t problem, part (errorAt q t problem) = part q) (p : Parser) :
    part (errors.foldl (fun q t => q.errorAt t (.unreadable t.lexeme)) p) = part p := by
  induction errors generalizing p with
  | nil => rfl
  | cons t rest ih => rw [List.foldl_cons, ih, h]

@[simp] theorem reportErrors_previous (p : Parser) : p.reportErrors.previous = p.previous :=
  foldl_errorAt_eq _ previous (fun _ _ _ => errorAt_previous ..) p

@[simp] theorem reportErrors_chunk (p : Parser) : p.reportErrors.chunk = p.chunk :=
  foldl_errorAt_eq _ chunk (fun _ _ _ => errorAt_chunk ..) p

@[simp] theorem reportErrors_strings (p : Parser) : p.reportErrors.strings = p.strings :=
  foldl_errorAt_eq _ strings (fun _ _ _ => errorAt_strings ..) p

@[simp] theorem reportErrors_scope (p : Parser) : p.reportErrors.scope = p.scope :=
  foldl_errorAt_eq _ scope (fun _ _ _ => errorAt_scope ..) p

@[simp] theorem reportErrors_nesting (p : Parser) : p.reportErrors.nesting = p.nesting :=
  foldl_errorAt_eq _ nesting (fun _ _ _ => errorAt_nesting ..) p

@[simp] theorem advance_previous (p : Parser) : p.advance.previous = p.current := by
  simp [advance]

@[simp] theorem advance_chunk (p : Parser) : p.advance.chunk = p.chunk := by
  simp [advance]

@[simp] theorem advance_strings (p : Parser) : p.advance.strings = p.strings := by
  simp [advance]

@[simp] theorem advance_scope (p : Parser) : p.advance.scope = p.scope := by
  simp [advance]

@[simp] theorem advance_nesting (p : Parser) : p.advance.nesting = p.nesting := by
  simp [advance]

/-- An error token never becomes current. -/
theorem advance_current_kind (p : Parser) : p.advance.current.kind ≠ .error :=
  p.stream.afterErrors_next_kind

/-! ### Progress -/

/-- Whatever was current, no more tokens are left than were pending. -/
theorem tokensLeft_advance_le_pending (p : Parser) :
    p.advance.tokensLeft ≤ p.stream.pending.length :=
  Nat.le_trans p.stream.afterErrors.length_next_le p.stream.length_afterErrors_le

theorem tokensLeft_advance_lt (p : Parser) (h : p.current.kind ≠ .eof) :
    p.advance.tokensLeft < p.tokensLeft := by
  have := p.tokensLeft_advance_le_pending
  simp only [tokensLeft, h, if_false]
  exact Nat.lt_succ_of_le this

end OnePass.Parser
