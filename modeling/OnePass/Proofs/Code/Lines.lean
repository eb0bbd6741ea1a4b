import OnePass.Proofs.Code.WellFormed
import OnePass.Proofs.Diagnostics.Located
import OnePass.Proofs.Diagnostics.Unreadable

/-!
# OnePass.Proofs.Code.Lines

The line table of a chunk. Code is written on the line of the token that was taken last, which
may be far behind the operator or the name it is written for. But tokens are only ever taken in
the order of the source, so that the places of those on whose lines code is written never go
back (`LinedAt`). Each action of the parser keeps this, once a first token has been taken
(`Does.lined`); and a unit takes one before it writes anything. So the lines go down the
source, through nested expressions, left blocks and recovery alike (`lines_follow_source`).
-/

namespace OnePass

/-! ### The lines of an instruction -/

namespace Written

theorem line_of_mem_bytes {w : Written} {b : CodeByte} (h : b ∈ w.bytes) : b.line = w.line := by
  obtain ⟨op, operand, line⟩ := w
  cases operand with
  | none =>
    rw [List.mem_singleton.1 h]
  | some operand =>
    rcases List.mem_cons.1 h with rfl | h
    · rfl
    · rw [List.mem_singleton.1 h]

theorem decode_bytes_append {w : Written} (h : w.Fits) (offset : Nat) (code : List CodeByte) :
    Instruction.decode offset (w.bytes ++ code)
      = ⟨offset, w.line, w.op, w.operand⟩
        :: Instruction.decode (offset + w.bytes.length) code := by
  obtain ⟨op, operand, line⟩ := w
  have hfits : operand.isSome = op.takesOperand := h
  cases operand with
  | none => simp [bytes, Instruction.decode, ← hfits]
  | some operand => simp [bytes, Instruction.decode, ← hfits]

/-- All bytes of an instruction are on its line. -/
theorem lines_decode {written : List Written} (h : ∀ w ∈ written, w.Fits)
    (front : List CodeByte) :
    ∀ i ∈ Instruction.decode front.length (written.flatMap bytes), ∀ k < i.size,
      (front ++ written.flatMap bytes)[i.offset + k]?.map CodeByte.line = some i.line := by
  induction written generalizing front with
  | nil => exact fun i hi => absurd hi List.not_mem_nil
  | cons w written ih =>
    obtain ⟨hw, hwritten⟩ := List.forall_mem_cons.1 h
    rw [List.flatMap_cons, decode_bytes_append hw]
    refine List.forall_mem_cons.2 ⟨fun k hk => ?_, fun i hi k hk => ?_⟩
    · have hlt : k < w.bytes.length := by rwa [length_bytes hw]
      rw [List.getElem?_append_right (Nat.le_add_right ..), Nat.add_sub_cancel_left,
        List.getElem?_append_left hlt, List.getElem?_eq_getElem hlt, Option.map_some,
        line_of_mem_bytes (List.getElem_mem hlt)]
    · rw [← List.append_assoc]
      rw [← List.length_append] at hi
      exact ih hwritten (front ++ w.bytes) i hi k hk

end Written

namespace Parser

/-! ### Places of lines -/

/-- The parser has taken the token of the place `i` last and has that of the place `n` in front
of it. Each byte of code is on the line of a token: their places never go back, and none is
behind `i`. -/
structure LinedAt (s : TokenStream) (places : List Nat) (i n : Nat) (p : Parser) : Prop where
  stream : p.stream = s.drop (n + 1)
  current : p.current = s.tokenAt n
  previous : p.previous = s.tokenAt i
  order : i ≤ n
  lines : p.chunk.lines = places.map fun j => (s.tokenAt j).line
  sorted : places.Pairwise (· ≤ ·)
  bound : ∀ j ∈ places, j ≤ i

def Lined (s : TokenStream) (p : Parser) : Prop := ∃ places i n, LinedAt s places i n p

section Lined

variable {s : TokenStream} {p q : Parser} {places : List Nat} {i n : Nat}

/-- The token that is taken is the next one on whose line code is written. -/
theorem advance_linedAt (hstream : p.stream = s.drop (n + 1)) (hcurrent : p.current = s.tokenAt n)
    (hlines : p.chunk.lines = places.map fun j => (s.tokenAt j).line)
    (hsorted : places.Pairwise (· ≤ ·)) (hbound : ∀ j ∈ places, j ≤ n) :
    Lined s p.advance := by
  obtain ⟨hpulled, htaken⟩ := p.advance_pulled
  rw [hstream, TokenStream.drop_drop] at hpulled
  refine ⟨places, n, n + 1 + p.stream.leadingErrors.length, ?_, ?_, ?_, ?_, ?_, hsorted, hbound⟩
  · rw [hpulled, hstream]
    rfl
  · rw [htaken, currentAfter, TokenStream.tokenAt, hstream, TokenStream.drop_drop]
  · rw [advance_previous, hcurrent]
  · omega
  · rw [advance_chunk, hlines]

/-- Code on the line of the previous token is at the place of that token. -/
theorem LinedAt.append (h : LinedAt s places i n p) {added : List CodeByte}
    (hadded : ∀ b ∈ added, b.line = p.previous.line)
    (hcode : q.chunk.code = p.chunk.code ++ added) (hstream : q.stream = p.stream)
    (hcurrent : q.current = p.current) (hprevious : q.previous = p.previous) : Lined s q := by
  refine ⟨places ++ List.replicate added.length i, i, n, hstream.trans h.stream,
    hcurrent.trans h.current, hprevious.trans h.previous, h.order, ?_, ?_, ?_⟩
  · have hlines : added.map CodeByte.line = List.replicate added.length (s.tokenAt i).line := by
      refine List.eq_replicate_iff.2 ⟨List.length_map _, fun line hline => ?_⟩
      obtain ⟨b, hb, rfl⟩ := List.mem_map.1 hline
      rw [hadded b hb, h.previous]
    rw [Chunk.lines, hcode, List.map_append, hlines, List.map_append, List.map_replicate,
      ← h.lines]
    rfl
  · refine List.pairwise_append.2 ⟨h.sorted, List.pairwise_replicate.2 (.inr (Nat.le_refl i)), ?_⟩
    intro j hj k hk
    rw [List.eq_of_mem_replicate hk]
    exact h.bound j hj
  · intro j hj
    rcases List.mem_append.1 hj with hj | hj
    · exact h.bound j hj
    · exact Nat.le_of_eq (List.eq_of_mem_replicate hj)

/-- What writes no code and takes no token keeps all places. -/
theorem LinedAt.keep (h : LinedAt s places i n p) (hcode : q.chunk.code = p.chunk.code)
    (hstream : q.stream = p.stream) (hcurrent : q.current = p.current)
    (hprevious : q.previous = p.previous) : LinedAt s places i n q where
  stream := hstream.trans h.stream
  current := hcurrent.trans h.current
  previous := hprevious.trans h.previous
  order := h.order
  lines := by rw [Chunk.lines, hcode]; exact h.lines
  sorted := h.sorted
  bound := h.bound

theorem Action.lined {deed : Deed} (h : Action deed p q) (hp : Lined s p) : Lined s q := by
  obtain ⟨places, i, n, hp⟩ := hp
  -- Only the deeds that take a token or write code move a place.
  by_cases hquiet : Footprint.lacks [deed] .advance ∧ Footprint.lacks [deed] .write
  · obtain ⟨hstream, hcurrent, hprevious⟩ := h.does.window_eq hquiet.1
    exact ⟨places, i, n, hp.keep (h.does.code_eq hquiet.2) hstream hcurrent hprevious⟩
  cases h with
  | advance =>
    exact advance_linedAt hp.stream hp.current hp.lines hp.sorted fun j hj =>
      Nat.le_trans (hp.bound j hj) hp.order
  | emit _ op => exact hp.append (by simp) (emit_code p op) rfl rfl rfl
  | emitWith _ op operand => exact hp.append (by simp) (emitWith_code p op operand) rfl rfl rfl
  | _ => exact absurd (by decide) hquiet

theorem Does.lined {deeds : Footprint} (h : Does deeds p q) (hp : Lined s p) : Lined s q :=
  h.keeps (fun _ haction => haction.lined) hp

/-- Whatever a unit has done to the end, its lines are in order. -/
theorem Behind.lined {strings : Interner} (h : Behind (start s strings) q) : Lined s q := by
  obtain ⟨nesting, h⟩ := h
  obtain ⟨hstream, hcurrent⟩ := (origin s strings).advance_pulled
  have hempty : (start s strings).chunk.lines
      = ([] : List Nat).map fun j => (s.tokenAt j).line := by
    rw [start, advance_chunk]
    rfl
  exact h.lined (advance_linedAt hstream hcurrent hempty .nil fun j hj =>
    absurd hj List.not_mem_nil)

theorem run_lined (unit : UnitKind) (s : TokenStream) (strings : Interner) :
    Lined s ((start s strings).run unit) :=
  (run_behind unit (start_nesting_lt s strings)).lined

end Lined

end Parser

/-! ### Sources -/

theorem TokenStream.tokenAt_mem (s : TokenStream) (n : Nat) : s.tokenAt n ∈ s.toList :=
  List.mem_of_getElem? (s.getElem?_toList n)

/-- If only the last token is an end token, then every end token is that one. -/
theorem TokenStream.tokenAt_eq_ending {s : TokenStream} (h : ∀ t ∈ s.pending, t.kind ≠ .eof)
    {n : Nat} (hn : (s.tokenAt n).kind = .eof) : s.tokenAt n = s.ending := by
  rcases List.mem_append.1 (s.tokenAt_mem n) with hmem | hmem
  · exact absurd hn (h _ hmem)
  · exact List.mem_singleton.1 hmem

open OnePass.Parser

/-- Without an error the token that was taken last is the end of the source. -/
theorem Parser.run_previous {unit : UnitKind} {s : TokenStream} {strings : Interner}
    (h : ∀ t ∈ s.pending, t.kind ≠ .eof)
    (hnone : ((Parser.start s strings).run unit).hadError = false) :
    ((Parser.start s strings).run unit).previous = s.ending := by
  obtain ⟨places, i, n, hlined⟩ := run_lined unit s strings
  obtain ⟨r, -, hend, hlast⟩ := run_ends (start_nesting_lt s strings) hnone
  have htaken : ((Parser.start s strings).run unit).previous = r.current := by
    rw [hlast]
    exact r.advance_previous
  rw [hlined.previous] at htaken ⊢
  exact TokenStream.tokenAt_eq_ending h (htaken ▸ hend)

/-- There is one line for each byte of code. Whatever errors there have been, all bytes of an
instruction have its line, and the lines are those of tokens in the order of the source. Without
an error the last instruction, which returns, has the line of the end. -/
theorem lines_follow_source (unit : UnitKind) (source : String) (strings : Interner) :
    let p := Parser.ofSource unit source strings
    p.chunk.lines.length = p.chunk.bytes.length
      ∧ (p.chunk.instructions.map Instruction.size).sum = p.chunk.size
      ∧ (∀ i ∈ p.chunk.instructions, ∀ k < i.size, p.chunk.lineAt? (i.offset + k) = some i.line)
      ∧ p.chunk.lines.Pairwise (· ≤ ·)
      ∧ (∃ places : List Nat, places.Pairwise (· ≤ ·)
        ∧ List.Forall₂ (fun line j => ∃ t, (tokenize source)[j]? = some t ∧ line = t.line)
          p.chunk.lines places)
      ∧ (p.hadError = false → ∃ before last, p.chunk.instructions = before ++ [last]
        ∧ last.op = .ret ∧ last.line = 1 + source.toList.count '\n'
        ∧ ∃ t ∈ tokenize source, t.kind = .eof ∧ last.line = t.line) := by
  dsimp only
  set s := TokenStream.ofSource source
  have hempty : (start s strings).chunk.code = [] := by
    rw [start, advance_chunk]
    rfl
  obtain ⟨log, hcourse⟩ := unit_course unit (start_nesting_lt s strings)
  obtain ⟨log', q, -, hwrites, hq⟩ := hcourse.unit_writes
  obtain ⟨places, i, n, hlined⟩ : Lined s (Parser.ofSource unit source strings) :=
    run_lined unit s strings
  have hrun : Parser.ofSource unit source strings = q.emit .ret := hq
  refine ⟨?_, ?_, ?_, ?_, ?_, fun hnone => ?_⟩
  · rw [Chunk.length_lines, Chunk.length_bytes]
  · rw [hrun]
    exact (hwrites.wellFormed hempty).decoded
  · have hcode := hwrites.returned_code hempty
    have hlines := Written.lines_decode hwrites.returned_fits []
    rw [List.nil_append, ← hcode] at hlines
    rw [hrun]
    exact hlines
  · rw [hlined.lines]
    exact hlined.sorted.map _ fun j k hle => TokenStream.line_tokenAt_le (tokenize_lines source) hle
  · refine ⟨places.map (min · s.pending.length), ?_, ?_⟩
    · exact hlined.sorted.map _ fun j k hle => min_le_min_right _ hle
    · rw [hlined.lines, List.forall₂_map_left_iff, List.forall₂_map_right_iff,
        List.forall₂_same]
      exact fun j _ => ⟨_, s.getElem?_toList j, rfl⟩
  · have hprevious : q.previous = s.ending :=
      (congrArg Parser.previous hrun).symm.trans (run_previous (fun _ => kind_ne_eof_of_mem) hnone)
    obtain ⟨before, last, hsplit, hop, hline, -⟩ := hwrites.returns hempty
    rw [hprevious] at hline
    rw [hrun]
    exact ⟨before, last, hsplit, hop, hline, s.ending, List.mem_append_right _ List.mem_cons_self,
      rfl, hline⟩

end OnePass
