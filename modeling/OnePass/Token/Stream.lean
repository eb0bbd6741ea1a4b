import OnePass.Token.Basic

/-!
# OnePass.Token.Stream

Where the parser gets its tokens from: finitely many tokens, and after them the
same end token for ever. `TokenIterator` goes over a stream up to its first end
token.
-/

namespace OnePass

/-- Tokens that are still to come, and the place of the end. -/
structure TokenStream where
  pending : List Token
  endOffset : Nat
  endLine : Nat
  deriving DecidableEq, Repr, Inhabited

namespace TokenStream

/-- The token that ends the stream. -/
def ending (s : TokenStream) : Token := ⟨.eof, "", s.endOffset, s.endLine⟩

/-- A stream of given tokens. Its end stands where an empty source ends. -/
def ofList (tokens : List Token) : TokenStream := ⟨tokens, 0, 1⟩

/-- The next token, and the stream after it. -/
def next (s : TokenStream) : Token × TokenStream :=
  match s.pending with
  | [] => (s.ending, s)
  | token :: rest => (token, { s with pending := rest })

/-- The error tokens that come before the next token of another kind. -/
def leadingErrors (s : TokenStream) : List Token :=
  s.pending.takeWhile (·.kind = .error)

/-- The stream from the next token on that is not an error. -/
def afterErrors (s : TokenStream) : TokenStream :=
  { s with pending := s.pending.dropWhile (·.kind = .error) }

/-- All tokens to come, with the end token. -/
def toList (s : TokenStream) : List Token := s.pending ++ [s.ending]

/-! ### Looking at the next token -/

@[simp] theorem ending_kind (s : TokenStream) : s.ending.kind = .eof := rfl

@[simp] theorem next_nil (offset line : Nat) :
    next ⟨[], offset, line⟩ = (⟨.eof, "", offset, line⟩, ⟨[], offset, line⟩) := rfl

@[simp] theorem next_cons (token : Token) (rest : List Token) (offset line : Nat) :
    next ⟨token :: rest, offset, line⟩ = (token, ⟨rest, offset, line⟩) := rfl

/-- Handing out a token takes it away, an end token perhaps excepted. -/
theorem length_next_le (s : TokenStream) :
    s.next.2.pending.length + (if s.next.1.kind = .eof then 0 else 1) ≤ s.pending.length := by
  obtain ⟨pending, offset, line⟩ := s
  cases pending with
  | nil => simp
  | cons token rest => by_cases h : token.kind = .eof <;> simp [h]

theorem length_afterErrors_le (s : TokenStream) :
    s.afterErrors.pending.length ≤ s.pending.length :=
  (List.dropWhile_sublist _).length_le

theorem leadingErrors_append (s : TokenStream) :
    s.leadingErrors ++ s.afterErrors.pending = s.pending :=
  List.takeWhile_append_dropWhile

theorem afterErrors_next_kind (s : TokenStream) : s.afterErrors.next.1.kind ≠ .error := by
  unfold next
  split
  · simp
  · rename_i token rest h
    have hkind := List.head?_dropWhile_not (fun t : Token => decide (t.kind = .error)) s.pending
    simp only [afterErrors] at h
    rw [h] at hkind
    simpa using hkind

end TokenStream

/-- A stream together with whether its end token has been handed out. -/
structure TokenIterator where
  stream : TokenStream
  finished : Bool
  deriving DecidableEq, Repr, Inhabited

namespace TokenIterator

def ofStream (s : TokenStream) : TokenIterator := ⟨s, false⟩

/-- The next token, nothing once an end token has been handed out. -/
def next? (i : TokenIterator) : Option Token × TokenIterator :=
  if i.finished then (none, i)
  else
    let next := i.stream.next
    (some next.1, ⟨next.2, next.1.kind = .eof⟩)

/-- The next token of the stream, whether or not the iteration has finished. -/
def pull (i : TokenIterator) : Token × TokenIterator :=
  let next := i.stream.next
  (next.1, { i with stream := next.2 })

end TokenIterator

end OnePass
