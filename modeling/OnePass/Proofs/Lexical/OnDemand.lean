import OnePass.Proofs.Lexical.Bytewise
import OnePass.Proofs.Lexical.Literal

/-!
# OnePass.Proofs.Lexical.OnDemand

Scanners over sources, request after request. Each request takes a scanner from one place
between two characters to another one, over trivia and the region of the token that it hands
out (`Follows`), and its answer is that of an iterator over the tokens of the source. So no
access is out of range, whatever is asked for and however often
(`ByteScanner.run?_ofSource`), and the line of a token is that of the place where the scanner
has stopped (`ByteScanner.lines_exact`).
-/

namespace OnePass

/-! ### The first token of a text -/

theorem Position.after_append (place : Position) (a b : List Char) :
    place.after (a ++ b) = (place.after a).after b := by
  simp only [Position.after, byteCount_append, List.count_append, Nat.add_assoc]

/-- The tokens of a text that stands at a place. -/
def TokenStream.ofText (place : Position) (text : List Char) : TokenStream :=
  ⟨locate place (pieces text), (place.after text).offset, (place.after text).line⟩

/-- A text that stands at a place starts with trivia and the region of a token. The region of
the end token is empty, and nothing is behind it. -/
structure FirstToken (place : Position) (text : List Char) (t : Token)
    (gap region after : List Char) : Prop where
  split : text = gap ++ (region ++ after)
  trivia : Trivia gap (region ++ after)
  consumes : Consumes t region after ∨ t.kind = .eof ∧ region = [] ∧ after = []
  offset : t.offset = (place.after gap).offset
  line : t.line = (place.after (gap ++ region)).line

/-- A blank joins the trivia in front of the token. -/
theorem FirstToken.cons_blank {place : Position} {text rest gap region after : List Char}
    {t : Token} (hfound : Found text rest .blank)
    (h : FirstToken (place.after text) rest t gap region after) :
    FirstToken place (text ++ rest) t (text ++ gap) region after where
  split := by rw [h.split, List.append_assoc]
  trivia := hfound gap _ h.split h.trivia
  consumes := h.consumes
  offset := by rw [h.offset, Position.after_append]
  line := by rw [h.line, List.append_assoc, Position.after_append _ text]

/-- What is no blank is a token that consumes it. -/
theorem Piece.exists_token? (piece : Piece) {rest : List Char} (place : Position)
    (hfound : Found piece.text rest piece.shape) (hshape : piece.shape ≠ .blank) :
    ∃ t, piece.token? place = some t ∧ Consumes t piece.text rest ∧ t.offset = place.offset := by
  unfold Piece.token?
  split
  · rename_i heq
    exact absurd heq hshape
  · rename_i kind heq
    rw [heq] at hfound
    obtain ⟨hlexeme, hlongest, hopens⟩ := hfound
    exact ⟨_, rfl, .lexeme hlexeme hlongest hopens rfl, rfl⟩
  · rename_i fault heq
    rw [heq] at hfound
    exact ⟨_, rfl, .error rfl hfound, rfl⟩

namespace ByteScanner

/-- A scanner that has skipped a text. -/
def past (s : ByteScanner) (text : List Char) : ByteScanner :=
  { s with curr := s.curr + byteCount text, line := s.line + text.count '\n' }

/-- The bytewise scanner and the stream over the same text hand out the same token. -/
theorem At.pull?_firstToken {s : ByteScanner} {before rest : List Char} (h : s.At before rest) :
    ∃ t gap region after, FirstToken s.place rest t gap region after
      ∧ s.pull? = some (t, (s.past gap).behind region)
      ∧ (TokenStream.ofText s.place rest).next
          = (t, .ofText (s.place.after (gap ++ region)) after) := by
  -- Along the pieces, as the stream does: a blank is gone over, anything else is the token.
  induction rest using pieces.induct generalizing s before
  case case1 =>
    refine ⟨_, [], [], [], ⟨rfl, .nil, .inr ⟨rfl, rfl, rfl⟩, rfl, rfl⟩, pull?_nil h, ?_⟩
    simp [TokenStream.ofText, pieces, locate, TokenStream.next, TokenStream.ending,
      Position.after, place]
  case case2 c rest found ih =>
    set text := c :: rest.take found.2 with htext
    have hspec : Found text (rest.drop found.2) found.1 := munch_spec c rest
    have hsplit : c :: rest = text ++ rest.drop found.2 := by
      rw [htext, List.cons_append, List.take_append_drop]
    have hpieces : pieces (c :: rest) = ⟨found.1, text⟩ :: pieces (rest.drop found.2) := by
      rw [pieces]
    obtain ⟨hskip, hread⟩ := pull?_cons h
    change found.1 = .blank → ∃ start, s.pull? = pull? { s.behind text with start := start }
      at hskip
    change found.1 ≠ .blank → s.pull? = s.read ⟨found.1, text⟩ at hread
    have hbehind : ∀ start, At { s.behind text with start := start } (before ++ text)
        (rest.drop found.2) := fun start => (hsplit ▸ h).move rfl rfl
    have hend : ∀ after, s.place.after (text ++ after) = (s.place.after text).after after :=
      Position.after_append s.place text
    by_cases hshape : found.1 = .blank
    · obtain ⟨start, hpull⟩ := hskip hshape
      obtain ⟨t, gap, region, after, hfirst, hnext, hstream⟩ := ih (hbehind start)
      have hplace : place { s.behind text with start := start } = s.place.after text := rfl
      rw [hplace] at hfirst hstream
      refine ⟨t, text ++ gap, region, after, hsplit ▸ hfirst.cons_blank (hshape ▸ hspec), ?_, ?_⟩
      · rw [hpull, hnext]
        simp only [past, behind, byteCount_append, List.count_append, Nat.add_assoc]
      · have hlocate : locate s.place (pieces (c :: rest))
            = locate (s.place.after text) (pieces (rest.drop found.2)) := by
          rw [hpieces, locate, Piece.token?, hshape]
        rw [TokenStream.ofText, hlocate, hsplit, hend, List.append_assoc, hend]
        exact hstream
    · obtain ⟨t, ht, hconsumes, hoffset⟩ :=
        Piece.exists_token? ⟨found.1, text⟩ s.place hspec hshape
      refine ⟨t, [], text, rest.drop found.2,
        ⟨hsplit, .nil, .inl hconsumes, hoffset, Piece.token?_line ht⟩, ?_, ?_⟩
      · rw [hread hshape, read, ht]
        rfl
      · have hlocate : locate s.place (pieces (c :: rest))
            = t :: locate (s.place.after text) (pieces (rest.drop found.2)) := by
          rw [hpieces, locate, ht]
        rw [TokenStream.ofText, hlocate, hsplit, hend]
        rfl

/-! ### Requests -/

/-- A scanner and an iterator over the tokens of a source are at the same place, between two
parts of the text. -/
structure InStep (source : String) (before rest : List Char) (s : ByteScanner)
    (i : TokenIterator) : Prop where
  text : source.toList = before ++ rest
  stands : s.At before rest
  line : s.line = 1 + before.count '\n'
  start : ∃ gap region, before = gap ++ region ∧ s.start = byteCount gap
  stream : i.stream = .ofText (Position.start.after before) rest
  finished : i.finished = s.finished

/-- A scanner over a source hands out a token: it goes over trivia and the region of the
token. -/
structure HandsOut (source : String) (s : ByteScanner) (t : Token) (u : ByteScanner)
    (before gap region after : List Char) : Prop where
  text : source.toList = before ++ (gap ++ (region ++ after))
  curr : s.curr = byteCount before
  first : FirstToken (Position.start.after before) (gap ++ (region ++ after)) t gap region after
  start : u.start = byteCount (before ++ gap)
  stop : u.curr = byteCount (before ++ (gap ++ region))

section Requests

variable {source : String} {before rest : List Char} {s u : ByteScanner} {i : TokenIterator}

theorem inStep_ofSource (source : String) :
    InStep source [] source.toList (ofSource source) (.ofStream (.ofSource source)) where
  text := rfl
  stands := ⟨bytes_ofSource source, rfl⟩
  line := rfl
  start := ⟨[], [], rfl, rfl⟩
  stream := rfl
  finished := rfl

theorem InStep.pull (h : InStep source before rest s i) :
    ∃ u before' rest', s.pull? = some (i.pull.1, u) ∧ InStep source before' rest' u i.pull.2
      ∧ ∃ gap region after, HandsOut source s i.pull.1 u before gap region after := by
  obtain ⟨t, gap, region, after, hfirst, hpull, hnext⟩ := h.stands.pull?_firstToken
  have hplace : s.place = Position.start.after before := by
    rw [place, h.line, h.stands.curr, Position.after, Position.start, Nat.zero_add]
  rw [hplace] at hfirst hnext
  have hpulled : i.pull = (t, { i with
      stream := .ofText ((Position.start.after before).after (gap ++ region)) after }) := by
    rw [TokenIterator.pull, h.stream, hnext]
  have hsplit := hfirst.split
  have hcurr : (s.past gap).curr + byteCount region = byteCount (before ++ (gap ++ region)) := by
    simp only [past, h.stands.curr, byteCount_append, Nat.add_assoc]
  rw [hpulled]
  refine ⟨(s.past gap).behind region, before ++ (gap ++ region), after, hpull, ⟨?_, ?_, ?_, ?_, ?_,
    h.finished⟩, gap, region, after, ?_, h.stands.curr, hsplit ▸ hfirst, ?_, hcurr⟩
  · rw [h.text, hsplit, List.append_assoc, List.append_assoc]
  · refine ⟨?_, hcurr⟩
    show s.bytes = _
    rw [h.stands.bytes, hsplit, List.append_assoc, List.append_assoc]
  · simp only [past, behind, h.line, List.count_append, Nat.add_assoc]
  · refine ⟨before ++ gap, region, (List.append_assoc ..).symm, ?_⟩
    simp only [past, behind, h.stands.curr, byteCount_append]
  · rw [Position.after_append .start]
  · rw [h.text, hsplit]
  · simp only [past, behind, h.stands.curr, byteCount_append]

/-- Whatever is asked for, the answer is that of the iterator. -/
theorem InStep.answer (h : InStep source before rest s i) (request : TokenRequest) :
    ∃ u before' rest', s.answer? request = some ((i.answer request).1, u)
      ∧ InStep source before' rest' u (i.answer request).2
      ∧ ((i.answer request).1 = none → u = s)
      ∧ ∀ t ∈ (i.answer request).1, ∃ gap region after,
          HandsOut source s t u before gap region after := by
  obtain ⟨u, before', rest', hpull, hstep, gap, region, after, hout⟩ := h.pull
  cases request with
  | pull =>
    refine ⟨u, before', rest', ?_, hstep, nofun, ?_⟩
    · rw [answer?, hpull]
      rfl
    · rintro t ht
      obtain rfl := Option.some.inj ht
      exact ⟨gap, region, after, hout⟩
  | next =>
    -- After the end of the source an iterator answers nothing, whatever the scanner could read.
    by_cases hfinished : i.finished = true
    · have hnext : i.next? = (none, i) := by rw [TokenIterator.next?, if_pos hfinished]
      refine ⟨s, before, rest, ?_, ?_, fun _ => rfl, ?_⟩
      · rw [answer?, next?, if_pos (h.finished ▸ hfinished), TokenIterator.answer, hnext]
      · rw [TokenIterator.answer, hnext]
        exact h
      · rw [TokenIterator.answer, hnext]
        exact fun t ht => nomatch ht
    · have hnext : i.next? = (some i.pull.1, ⟨i.pull.2.stream, i.pull.1.kind = .eof⟩) := by
        rw [TokenIterator.next?, if_neg hfinished]
        rfl
      rw [TokenIterator.answer, hnext]
      refine ⟨{ u with finished := i.pull.1.kind = .eof }, before', rest', ?_,
        ⟨hstep.text, ⟨hstep.stands.bytes, hstep.stands.curr⟩, hstep.line, hstep.start,
          hstep.stream, rfl⟩, nofun, ?_⟩
      · rw [answer?, next?, if_neg (h.finished ▸ hfinished), hpull]
        rfl
      · rintro t ht
        obtain rfl := Option.some.inj ht
        exact ⟨gap, region, after, hout.text, hout.curr, hout.first, hout.start, hout.stop⟩

theorem InStep.run (h : InStep source before rest s i) (requests : List TokenRequest)
    (reply : Option Token) :
    ∃ trace, s.run? requests = some trace
      ∧ trace.map Prod.fst = (i.run requests).map Prod.fst
      ∧ (∀ answer ∈ trace, ∃ before rest j, InStep source before rest answer.2 j)
      ∧ ((reply, s) :: trace).IsChain fun a b => (b.1 = none → b.2 = a.2)
        ∧ ∀ t ∈ b.1, ∃ before gap region after,
          HandsOut source a.2 t b.2 before gap region after := by
  induction requests generalizing s i before rest reply with
  | nil => exact ⟨[], rfl, rfl, by simp, List.IsChain.singleton _⟩
  | cons request requests ih =>
    obtain ⟨u, before', rest', hanswer, hstep, hnone, hout⟩ := h.answer request
    obtain ⟨trace, hrun, hreplies, hinStep, hchain⟩ := ih hstep (i.answer request).1
    refine ⟨((i.answer request).1, u) :: trace, ?_, ?_, ?_, ?_⟩
    · rw [run?, hanswer, Option.bind_some, hrun]
      rfl
    · rw [List.map_cons, hreplies, TokenIterator.run, List.map_cons]
    · exact List.forall_mem_cons.2 ⟨⟨before', rest', _, hstep⟩, hinStep⟩
    · exact List.isChain_cons_cons.2 ⟨⟨hnone, fun t ht => ⟨before, hout t ht⟩⟩, hchain⟩

end Requests

/-! ### Bounds -/

/-- Where the token starts that was read last, and where it ends, lie in order within the
source and between its characters. -/
structure InBounds (source : String) (s : ByteScanner) : Prop where
  bytes : s.bytes = source.toUTF8.data.toList
  start_le : s.start ≤ s.curr
  curr_le : s.curr ≤ s.bytes.length
  start_boundary : Bytes.isBoundary s.bytes s.start = true
  curr_boundary : Bytes.isBoundary s.bytes s.curr = true

theorem InStep.inBounds {source : String} {before rest : List Char} {s : ByteScanner}
    {i : TokenIterator} (h : InStep source before rest s i) : s.InBounds source := by
  obtain ⟨gap, region, hsplit, hstart⟩ := h.start
  have hat : At { s with curr := s.start } gap (region ++ rest) := by
    refine ⟨?_, hstart⟩
    rw [h.stands.bytes, hsplit, List.append_assoc]
  refine ⟨?_, ?_, h.stands.le_length, hat.isBoundary, h.stands.isBoundary⟩
  · rw [h.stands.bytes, bytes_ofSource, h.text]
  · rw [hstart, h.stands.curr, hsplit, byteCount_append]
    exact Nat.le_add_right ..

end ByteScanner

/-- No lexeme is that of an error. -/
theorem Lexeme.kind_ne_error {kind : TokenKind} {text : List Char} (h : Lexeme kind text) :
    kind ≠ .error := by
  rintro rfl
  cases h with
  | mark h => cases h
  | reserved hw h => cases h

/-- What a token consumes is not empty. -/
theorem Consumes.ne_nil {t : Token} {text rest : List Char} (h : Consumes t text rest) :
    text ≠ [] := by
  cases h with
  | lexeme hl =>
    obtain ⟨c, tail, rfl, -⟩ := hl.family
    nofun
  | error hk h =>
    generalize t.lexeme = message at h
    cases h <;> nofun

theorem byteCount_pos {text : List Char} (h : text ≠ []) : 0 < byteCount text := by
  obtain ⟨c, tail, rfl⟩ := List.exists_cons_of_ne_nil h
  rw [byteCount_cons]
  exact Nat.add_pos_left c.utf8Size_pos _

theorem ByteScanner.HandsOut.lt {source : String} {s u : ByteScanner} {t : Token}
    {before gap region after : List Char} (h : HandsOut source s t u before gap region after)
    (hkind : t.kind ≠ .eof) : s.curr < u.curr := by
  rcases h.first.consumes with hconsumes | ⟨heof, -⟩
  · have hpos := byteCount_pos hconsumes.ne_nil
    rw [h.curr, h.stop, byteCount_append, byteCount_append]
    omega
  · exact absurd heof hkind

/-! ### Tokens in a row -/

/-- A text has no more tokens than bytes, the end token excepted. -/
theorem Tiles.length_le {offset : Nat} {text : List Char} {tokens : List Token}
    (h : Tiles offset text tokens) : tokens.length ≤ byteCount text + 1 := by
  induction h with
  | finish => simp
  | token hgap ht ho h ih =>
    have hpos := byteCount_pos ht.ne_nil
    rw [List.length_cons, byteCount_append, byteCount_append]
    omega

namespace TokenIterator

variable {s : TokenStream} {i : TokenIterator}

theorem run_finished (h : i.finished = true) (n : Nat) :
    (i.run (List.replicate n .next)).map Prod.fst = List.replicate n none := by
  have hnext : i.answer .next = (none, i) := by rw [answer, next?, if_pos h]
  induction n with
  | zero => rfl
  | succ n ih => rw [List.replicate_succ, run, hnext, List.map_cons, ih, List.replicate_succ]

/-- An iteration gives all tokens in order, and then no more. -/
theorem run_next (h : ∀ t ∈ s.pending, t.kind ≠ .eof) (n : Nat) :
    ((ofStream s).run (List.replicate n .next)).map Prod.fst
      = (List.range n).map fun k => s.toList[k]? := by
  obtain ⟨pending, offset, line⟩ := s
  induction n generalizing pending with
  | zero => rfl
  | succ n ih =>
    rw [List.replicate_succ, run, List.map_cons, List.range_succ_eq_map, List.map_cons,
      List.map_map]
    cases pending with
    | nil =>
      have hrest : ((ofStream ⟨[], offset, line⟩).answer .next).2.finished = true := rfl
      rw [run_finished hrest]
      simp [answer, next?, ofStream, TokenStream.toList, Function.comp_def, TokenStream.ending]
    | cons t pending =>
      obtain ⟨ht, hpending⟩ := List.forall_mem_cons.1 h
      have hrest : (ofStream ⟨t :: pending, offset, line⟩).answer .next
          = (some t, ofStream ⟨pending, offset, line⟩) := by
        simp [answer, next?, ofStream, ht]
      rw [hrest, ih pending hpending]
      rfl

/-- All tokens can be pulled in order, and then the end token again and again. -/
theorem run_pull (s : TokenStream) (n : Nat) :
    ((ofStream s).run (List.replicate n .pull)).map Prod.fst
      = (List.range n).map fun k => some (s.toList.getD k s.ending) := by
  obtain ⟨pending, offset, line⟩ := s
  induction n generalizing pending with
  | zero => rfl
  | succ n ih =>
    rw [List.replicate_succ, run, List.map_cons, List.range_succ_eq_map, List.map_cons,
      List.map_map]
    cases pending with
    | nil =>
      have hrest : (ofStream ⟨[], offset, line⟩).answer .pull
          = (some ⟨.eof, "", offset, line⟩, ofStream ⟨[], offset, line⟩) := rfl
      have hending : ∀ k, [TokenStream.ending ⟨[], offset, line⟩].getD k
          (TokenStream.ending ⟨[], offset, line⟩) = ⟨.eof, "", offset, line⟩ := fun k => by
        cases k <;> rfl
      rw [hrest, ih]
      simp only [TokenStream.toList, List.nil_append, Function.comp_def, hending]
    | cons t pending =>
      have hrest : (ofStream ⟨t :: pending, offset, line⟩).answer .pull
          = (some t, ofStream ⟨pending, offset, line⟩) := rfl
      rw [hrest, ih pending]
      rfl

/-- A request takes the next token of the stream, or nothing at all. -/
theorem answer_cases (i : TokenIterator) (request : TokenRequest) :
    i.answer request = (none, i)
      ∨ (i.answer request).1 = some i.stream.next.1
        ∧ (i.answer request).2.stream = i.stream.next.2 := by
  cases request with
  | pull => exact .inr ⟨rfl, rfl⟩
  | next =>
    cases hfinished : i.finished with
    | false => exact .inr (by simp [answer, next?, hfinished])
    | true => exact .inl (by simp [answer, next?, hfinished])

/-- Once the end token is next, nothing else is. -/
theorem run_ended (h : i.stream.pending = []) (requests : List TokenRequest) :
    ∀ reply ∈ (i.run requests).map Prod.fst, reply = none ∨ reply = some i.stream.ending := by
  induction requests generalizing i with
  | nil => exact fun _ hmem => absurd hmem List.not_mem_nil
  | cons request requests ih =>
    have hnext : i.stream.next = (i.stream.ending, i.stream) := by rw [TokenStream.next, h]
    rw [run, List.map_cons, List.forall_mem_cons]
    rcases i.answer_cases request with hnone | ⟨hreply, hstream⟩
    · rw [hnone]
      exact ⟨.inl rfl, ih h⟩
    · rw [hnext] at hreply hstream
      have hrest := ih (i := (i.answer request).2) (by rw [hstream, h])
      rw [hstream] at hrest
      exact ⟨.inr hreply, hrest⟩

/-- What follows the end token is the same token. -/
theorem run_pairwise (h : ∀ t ∈ i.stream.pending, t.kind ≠ .eof) (requests : List TokenRequest) :
    ((i.run requests).map Prod.fst).Pairwise fun a b =>
      ∀ t ∈ a, t.kind = .eof → b = none ∨ b = some t := by
  induction requests generalizing i with
  | nil => exact List.Pairwise.nil
  | cons request requests ih =>
    rw [run, List.map_cons, List.pairwise_cons]
    rcases i.answer_cases request with hnone | ⟨hreply, hstream⟩
    · rw [hnone]
      exact ⟨fun _ _ _ ht => (nomatch ht : False).elim, ih h⟩
    · cases hpending : i.stream.pending with
      | nil =>
        have hnext : i.stream.next = (i.stream.ending, i.stream) := by
          rw [TokenStream.next, hpending]
        rw [hnext] at hreply hstream
        have hended := run_ended (i := (i.answer request).2) (by rw [hstream, hpending]) requests
        rw [hstream] at hended
        refine ⟨fun b hb t ht _ => ?_, ih (by rw [hstream]; exact h)⟩
        obtain rfl := Option.some.inj (hreply.symm.trans ht)
        exact hended b hb
      | cons u pending =>
        have hnext : i.stream.next = (u, { i.stream with pending := pending }) := by
          rw [TokenStream.next, hpending]
        rw [hnext] at hreply hstream
        rw [hpending] at h
        obtain ⟨hu, hrest⟩ := List.forall_mem_cons.1 h
        refine ⟨fun b hb t ht heof => ?_, ih (by rw [hstream]; exact hrest)⟩
        obtain rfl := Option.some.inj (hreply.symm.trans ht)
        exact absurd heof hu

end TokenIterator

/-! ### Safety -/

namespace ByteScanner

/-- Whatever is asked of a scanner over a source, it answers: no byte is taken beyond the end,
no stretch of bytes lies outside of the source, and no text is cut out within a character.
The answers are those of an iterator over the tokens of the source. Every token but the end
token takes the scanner at least one byte further, and the end token stays the same. -/
theorem run?_ofSource (source : String) :
    (∀ requests, ∃ trace, (ofSource source).run? requests = some trace
      ∧ trace.map Prod.fst
        = ((TokenIterator.ofStream (.ofSource source)).run requests).map Prod.fst
      ∧ (∀ answer ∈ trace, answer.2.InBounds source)
      ∧ ((none, ofSource source) :: trace).IsChain
        (fun a b => ∀ t ∈ b.1, t.kind ≠ .eof → a.2.curr < b.2.curr)
      ∧ trace.Pairwise fun a b => ∀ t ∈ a.1, t.kind = .eof → b.1 = none ∨ b.1 = some t)
    ∧ (∀ n, ∃ trace, (ofSource source).run? (List.replicate n .next) = some trace
      ∧ trace.map Prod.fst = (List.range n).map fun k => (tokenize source)[k]?)
    ∧ (∀ n, ∃ trace, (ofSource source).run? (List.replicate n .pull) = some trace
      ∧ trace.map Prod.fst = (List.range n).map fun k =>
        some ((tokenize source).getD k (TokenStream.ofSource source).ending))
    ∧ (tokenize source).length ≤ source.toUTF8.size + 1
    ∧ ∃ ts t, tokenize source = ts ++ [t] ∧ (∀ u ∈ ts, u.kind ≠ .eof) ∧ t.kind = .eof
      ∧ t.offset = source.toUTF8.size := by
  have hsize : source.toUTF8.size = byteCount source.toList := by
    rw [← length_utf8, ← bytes_ofSource]
    rfl
  have hpending : ∀ t ∈ (TokenStream.ofSource source).pending, t.kind ≠ .eof :=
    fun _ => kind_ne_eof_of_mem
  refine ⟨fun requests => ?_, fun n => ?_, fun n => ?_, ?_, ?_⟩
  · obtain ⟨trace, hrun, hreplies, hinStep, hchain⟩ :=
      (inStep_ofSource source).run requests none
    refine ⟨trace, hrun, hreplies, fun answer hmem => ?_, hchain.imp ?_, ?_⟩
    · obtain ⟨before, rest, i, h⟩ := hinStep answer hmem
      exact h.inBounds
    · rintro a b ⟨-, hout⟩ t ht hkind
      -- Only the token at the end has an empty region.
      obtain ⟨before, gap, region, after, h⟩ := hout t ht
      exact h.lt hkind
    · have hpairwise := TokenIterator.run_pairwise (i := .ofStream (.ofSource source)) hpending
        requests
      rw [← hreplies, List.pairwise_map] at hpairwise
      exact hpairwise
  · obtain ⟨trace, hrun, hreplies, -⟩ :=
      (inStep_ofSource source).run (List.replicate n .next) none
    exact ⟨trace, hrun, hreplies.trans (TokenIterator.run_next hpending n)⟩
  · obtain ⟨trace, hrun, hreplies, -⟩ :=
      (inStep_ofSource source).run (List.replicate n .pull) none
    exact ⟨trace, hrun, hreplies.trans (TokenIterator.run_pull _ n)⟩
  · rw [hsize]
    exact (tokenize_tiles source).length_le
  · refine ⟨_, _, rfl, hpending, rfl, ?_⟩
    rw [hsize]
    exact Nat.zero_add _

/-! ### Lines -/

section Lines

variable {source : String} {s u : ByteScanner} {t : Token} {before gap region after : List Char}

theorem HandsOut.take_eq (h : HandsOut source s t u before gap region after) :
    source.toUTF8.data.toList.take u.curr = utf8 (before ++ (gap ++ region)) := by
  have htext : source.toList = (before ++ (gap ++ region)) ++ after := by
    rw [h.text, List.append_assoc, List.append_assoc]
  rw [bytes_ofSource, htext, h.stop, take_utf8]

/-- The line of a token is that of the place where the scanner stops for it. -/
theorem HandsOut.line_eq (h : HandsOut source s t u before gap region after) :
    t.line = 1 + Bytes.breaks (source.toUTF8.data.toList.take u.curr) := by
  rw [h.take_eq, breaks_utf8, h.first.line, List.count_append, ← Nat.add_assoc]
  rfl

theorem HandsOut.curr_le (h : HandsOut source s t u before gap region after) :
    s.curr ≤ u.curr := by
  rw [h.curr, h.stop, byteCount_append]
  exact Nat.le_add_right ..

/-- The line of a string is that of its closing quote. -/
theorem HandsOut.closing_quote (h : HandsOut source s t u before gap region after)
    (hkind : t.kind = .string) :
    source.toUTF8.data.toList[u.curr - 1]? = some '"'.toUInt8
      ∧ t.line = 1 + Bytes.breaks (source.toUTF8.data.toList.take (u.curr - 1)) := by
  have hlexeme : Lexeme .string region := by
    rcases h.first.consumes with hconsumes | ⟨heof, -⟩
    · cases hconsumes with
      | lexeme hlexeme => exact hkind ▸ hlexeme
      | error herror => cases hkind.symm.trans herror
    · cases hkind.symm.trans heof
  obtain ⟨body, rfl⟩ := hlexeme.exists_contents
  set front := before ++ (gap ++ '"' :: body) with hfront
  have hstop : u.curr = byteCount front + 1 := by
    have hquote : before ++ (gap ++ '"' :: (body ++ ['"'])) = front ++ ['"'] := by simp [hfront]
    rw [h.stop, hquote, byteCount_append]
    rfl
  have htext : source.toList = front ++ ('"' :: after) := by rw [h.text, hfront]; simp
  have htake : source.toUTF8.data.toList.take (u.curr - 1) = utf8 front := by
    rw [bytes_ofSource, htext, hstop, Nat.add_sub_cancel, take_utf8]
  refine ⟨?_, ?_⟩
  · rw [bytes_ofSource, htext, hstop, Nat.add_sub_cancel, ← List.head?_drop, drop_utf8, utf8_cons,
      utf8EncodeChar_of_ascii (by decide)]
    rfl
  · rw [htake, breaks_utf8, h.line_eq, h.take_eq, breaks_utf8, hfront]
    simp [List.count_append]

/-- A string or a comment without an end goes to the end of the source. -/
theorem HandsOut.unterminated (h : HandsOut source s t u before gap region after)
    (hkind : t.kind = .error)
    (hlexeme : t.lexeme = LexicalFault.unterminatedString.message
      ∨ t.lexeme = LexicalFault.unterminatedComment.message) :
    u.curr = source.toUTF8.size
      ∧ t.line = 1 + Bytes.breaks source.toUTF8.data.toList := by
  have hafter : after = [] := by
    rcases h.first.consumes with hconsumes | ⟨-, -, hafter⟩
    · cases hconsumes with
      | lexeme hl => exact absurd hkind hl.kind_ne_error
      | error _ hunreadable =>
        generalize t.lexeme = message at hunreadable hlexeme
        cases hunreadable with
        | string | comment => rfl
        | ampersand | bar | stray => exact absurd hlexeme (by decide)
    · exact hafter
  subst hafter
  have htext : source.toList = before ++ (gap ++ region) := by rw [h.text, List.append_nil]
  have hsize : u.curr = source.toUTF8.data.toList.length := by
    rw [bytes_ofSource, length_utf8, htext, h.stop]
  refine ⟨hsize, ?_⟩
  rw [h.line_eq, hsize, List.take_length]

end Lines

theorem exists_rel_of_isChain {α : Type} {R : α → α → Prop} {a : α} {l : List α}
    (h : (a :: l).IsChain R) : ∀ b ∈ l, ∃ c, R c b := by
  induction l generalizing a with
  | nil => exact fun _ hmem => absurd hmem List.not_mem_nil
  | cons d l ih =>
    obtain ⟨hd, hl⟩ := List.isChain_cons_cons.1 h
    exact List.forall_mem_cons.2 ⟨⟨a, hd⟩, ih hl⟩

/-- The line of every token is one more than the line breaks in front of the place where the
scanner stops for it, which is the end of its region. -/
theorem lines_exact (source : String) (requests : List TokenRequest) :
    ∃ trace, (ofSource source).run? requests = some trace
      ∧ trace.map Prod.fst
        = ((TokenIterator.ofStream (.ofSource source)).run requests).map Prod.fst
      ∧ (∀ answer ∈ trace, ∀ t ∈ answer.1,
        t.line = 1 + Bytes.breaks (source.toUTF8.data.toList.take answer.2.curr)
        ∧ (∃ before region after, source.toList = before ++ (region ++ after)
          ∧ t.offset = byteCount before ∧ answer.2.curr = byteCount (before ++ region)
          ∧ (Consumes t region after ∨ t.kind = .eof ∧ region = [] ∧ after = []))
        ∧ (t.kind = .string → source.toUTF8.data.toList[answer.2.curr - 1]? = some '"'.toUInt8
          ∧ t.line = 1 + Bytes.breaks (source.toUTF8.data.toList.take (answer.2.curr - 1)))
        ∧ (t.kind = .error → (t.lexeme = LexicalFault.unterminatedString.message
            ∨ t.lexeme = LexicalFault.unterminatedComment.message) →
          t.line = 1 + Bytes.breaks source.toUTF8.data.toList))
      ∧ trace.Pairwise fun a b => ∀ t ∈ a.1, ∀ u ∈ b.1, t.line ≤ u.line := by
  obtain ⟨trace, hrun, hreplies, -, hchain⟩ := (inStep_ofSource source).run requests none
  have hout : ∀ answer ∈ trace, ∀ t ∈ answer.1, ∃ s before gap region after,
      HandsOut source s t answer.2 before gap region after := by
    intro answer hmem t ht
    obtain ⟨⟨reply, s⟩, -, hsome⟩ := exists_rel_of_isChain hchain answer hmem
    exact ⟨s, hsome t ht⟩
  -- Lines are counted up to the cursor, and the cursor never goes back.
  have hcurr : trace.Pairwise fun a b => a.2.curr ≤ b.2.curr := by
    have hle := hchain.imp (S := fun a b => a.2.curr ≤ b.2.curr) fun a b ⟨hnone, hsome⟩ => by
      cases hreply : b.1 with
      | none => rw [hnone hreply]
      | some t =>
        obtain ⟨before, gap, region, after, h⟩ := hsome t hreply
        exact h.curr_le
    have htrans : IsTrans (Option Token × ByteScanner) fun a b => a.2.curr ≤ b.2.curr :=
      ⟨fun _ _ _ => Nat.le_trans⟩
    exact (List.pairwise_cons.1 (List.isChain_iff_pairwise.1 hle)).2
  refine ⟨trace, hrun, hreplies, fun answer hmem t ht => ?_, ?_⟩
  · obtain ⟨s, before, gap, region, after, h⟩ := hout answer hmem t ht
    refine ⟨h.line_eq, ⟨before ++ gap, region, after, ?_, ?_, ?_, h.first.consumes⟩,
      h.closing_quote, fun hkind hlexeme => (h.unterminated hkind hlexeme).2⟩
    · rw [h.text, List.append_assoc]
    · rw [h.first.offset, Position.after, Position.after, byteCount_append]
      simp [Position.start]
    · rw [h.stop, List.append_assoc]
  · refine hcurr.imp_of_mem fun {a b} ha hb hle t ht u hu => ?_
    obtain ⟨_, _, _, _, _, hfirst⟩ := hout a ha t ht
    obtain ⟨_, _, _, _, _, hsecond⟩ := hout b hb u hu
    rw [hfirst.line_eq, hsecond.line_eq]
    refine Nat.add_le_add_left (List.Sublist.count_le _ ?_) 1
    exact List.take_sublist_take_left hle

end ByteScanner

end OnePass
