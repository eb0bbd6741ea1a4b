import OnePass.Proofs.Lexical.Utf8

/-!
# OnePass.Proofs.Lexical.Bytewise

Scanning bytes comes to the pieces of the text. `At s before rest` says that a scanner stands
between two parts of the text whose bytes it holds. From there every access is in range, and the
scanner reads or skips the piece that `munch` finds (`pull?_cons`): a jump over a string or a
comment ends where the piece ends, since no byte of another character is mistaken for the one
that is searched for.

Every access of the scanner to its bytes is checked and may fail (`none`), so that a scanner that
never fails is one that never leaves its text nor cuts a character in two. The loops are compared
with the searches that `munch` makes in the text, one by one, and then put together family by
family in the order in which the scanner tries them.
-/

namespace OnePass

/-! ### Marks by their first character -/

/-- Only marks with the same first character need be compared. -/
theorem leadingMark?_cons (c : Char) (rest : List Char) :
    leadingMark? (c :: rest)
      = (TokenKind.marks.filter (·.1.toList.head? = some c)).find?
          (·.1.toList.isPrefixOf (c :: rest)) := by
  rw [List.find?_filter, leadingMark?]
  have hne : ∀ entry ∈ TokenKind.marks, entry.1.toList ≠ [] := by decide
  refine List.find?_congr fun entry hentry => ?_
  obtain ⟨d, tail, hspelling⟩ := List.exists_cons_of_ne_nil (hne entry hentry)
  rw [hspelling, List.head?_cons, List.isPrefixOf_cons_cons]
  by_cases hd : d = c
  · simp only [hd, decide_true, true_and, Bool.decide_eq_true]
  · simp only [beq_eq_false_iff_ne.2 hd, Bool.false_and, Bool.false_eq_true, and_false,
      decide_false]

theorem isPrefixOf_pair (c d : Char) (rest : List Char) :
    [c, d].isPrefixOf (c :: rest) = decide (rest.head? = some d) := by
  rw [Bool.eq_iff_iff, List.isPrefixOf_iff_prefix, decide_eq_true_iff, List.cons_prefix_cons,
    List.head?_eq_some_iff]
  exact ⟨fun ⟨_, tail, h⟩ => ⟨tail, h.symm⟩, fun ⟨tail, h⟩ => ⟨rfl, tail, h.symm⟩⟩

/-- What a mark is that starts with the first character of a row, and how many characters
behind that one belong to it. -/
def MarkRow.munch (row : MarkRow) (rest : List Char) : Shape × Nat :=
  match row.pairs.find? (fun pair => rest.head? = some pair.1) with
  | some pair => (.token pair.2, 1)
  | none =>
    match row.single with
    | .ok kind => (.token kind, 0)
    | .error fault => (.fault fault, 0)

/-- In a row of the marks the longest mark is the pair, if there is one. -/
theorem munchMark_of_mem {row : MarkRow} (h : row ∈ markRows) (rest : List Char) :
    munchMark row.first rest = row.munch rest := by
  -- The rows are the table of the marks, sorted by what a mark begins with.
  have table : ∀ row ∈ markRows, TokenKind.marks.filter (·.1.toList.head? = some row.first)
      = row.pairs.map (fun pair => (String.ofList [row.first, pair.1], pair.2))
        ++ row.single.toOption.toList.map fun kind => (String.ofList [row.first], kind) := by
    decide
  have faults : ∀ row ∈ markRows, (match row.single with
      | .ok _ => true
      | .error fault => (row.first, fault) ∈ [('&', .loneAmpersand), ('|', .loneBar)]) = true := by
    decide
  have hpair : ((·.1.toList.isPrefixOf (row.first :: rest)) ∘ fun pair : Char × TokenKind =>
      (String.ofList [row.first, pair.1], pair.2))
        = fun pair => decide (rest.head? = some pair.1) := by
    funext pair
    simp only [Function.comp, String.toList_ofList, isPrefixOf_pair]
  rw [munchMark, leadingMark?_cons, table row h, List.find?_append, List.find?_map, hpair,
    MarkRow.munch]
  have hfault := faults row h
  cases row.pairs.find? (fun pair => decide (rest.head? = some pair.1)) with
  | some pair => simp
  | none =>
    cases hsingle : row.single with
    | ok kind => simp [Except.toOption]
    | error fault =>
      rw [hsingle] at hfault
      simp only [List.mem_cons, Prod.mk.injEq, List.not_mem_nil, or_false,
        decide_eq_true_eq] at hfault
      rcases hfault with ⟨hfirst, rfl⟩ | ⟨hfirst, rfl⟩ <;> simp [Except.toOption, hfirst]

/-- All marks but those of points are in a row. -/
theorem munchMark_of_not_mem {c : Char} (hpoint : c ≠ '.') (h : ∀ row ∈ markRows, row.first ≠ c)
    (rest : List Char) : munchMark c rest = (.fault .strayCharacter, 0) := by
  have table : ∀ entry ∈ TokenKind.marks, entry.1.toList.head? = some '.'
      ∨ ∃ row ∈ markRows, entry.1.toList.head? = some row.first := by decide
  have hrow : ∀ a, (∃ row ∈ markRows, row.first = a) → c ≠ a := by
    rintro a ⟨row, hmem, rfl⟩ rfl
    exact h row hmem rfl
  have hnone : TokenKind.marks.filter (·.1.toList.head? = some c) = [] := by
    refine List.filter_eq_nil_iff.2 fun entry hentry hhead => ?_
    have hc := of_decide_eq_true hhead
    rcases table entry hentry with hentry | ⟨row, hmem, hentry⟩
    · exact hpoint (Option.some.inj (hc.symm.trans hentry))
    · exact h row hmem (Option.some.inj (hentry.symm.trans hc))
  rw [munchMark, leadingMark?_cons, hnone, List.find?_nil]
  simp only
  rw [if_neg (hrow '&' (by decide)), if_neg (hrow '|' (by decide))]

theorem munchMark_point (rest : List Char) :
    munchMark '.' rest
      = if ['.', '.'] <+: rest then (.token .dotDotDot, 2) else (.token .dot, 0) := by
  have table : TokenKind.marks.filter (·.1.toList.head? = some '.')
      = [("...", .dotDotDot), (".", .dot)] := by decide
  rw [munchMark, leadingMark?_cons, table]
  by_cases h : ['.', '.'] <+: rest
  · obtain ⟨tail, rfl⟩ := h
    rw [if_pos (List.prefix_append ..)]
    rfl
  · have hthree : ("...".toList.isPrefixOf ('.' :: rest)) = false := by
      refine Bool.eq_false_iff.2 fun hprefix => h ?_
      exact (List.cons_prefix_cons.1 (List.isPrefixOf_iff_prefix.1 hprefix)).2
    rw [if_neg h, List.find?_cons_of_neg (by simp only [hthree]; decide)]
    rfl

theorem munchMark_ne_blank (c : Char) (rest : List Char) : (munchMark c rest).1 ≠ .blank := by
  unfold munchMark
  split
  · exact fun heq => Shape.noConfusion heq
  split
  · exact fun heq => Shape.noConfusion heq
  split <;> exact fun heq => Shape.noConfusion heq

/-- Nothing but white space and comments is a blank. -/
theorem munch_ne_blank {c : Char} {rest : List Char} (hblank : ¬ isBlank c = true)
    (hline : ¬ (c = '/' ∧ rest.head? = some '/'))
    (hcomment : ¬ (c = '/' ∧ rest.head? = some '*')) : (munch c rest).1 ≠ .blank := by
  rw [munch, if_neg hblank, if_neg hline, if_neg hcomment]
  split
  · split <;> exact fun heq => Shape.noConfusion heq
  split
  · exact fun heq => Shape.noConfusion heq
  split
  · exact fun heq => Shape.noConfusion heq
  · exact munchMark_ne_blank c rest

namespace ByteScanner

/-- A scanner stands between two parts of the text whose bytes it holds. -/
structure At (s : ByteScanner) (before rest : List Char) : Prop where
  bytes : s.bytes = utf8 (before ++ rest)
  curr : s.curr = byteCount before

/-! ### Looking and moving -/

section Moves

variable {s t : ByteScanner} {before rest region : List Char} {a c : Char}
  {p : UInt8 → Bool} {q : Char → Bool}

theorem advance?_of_drop {byte : UInt8} {ahead : List UInt8}
    (h : s.bytes.drop s.curr = byte :: ahead) :
    s.advance? = some (byte, { s with curr := s.curr + 1 }) := by
  rw [advance?, ← List.head?_drop, h]
  rfl

/-- A class is left at the first byte that is not in it. -/
theorem advanceWhile?_of_drop (h0 : p 0 = false) {ahead : List UInt8}
    (h : s.bytes.drop s.curr = ahead) :
    s.advanceWhile? p = some { s with curr := s.curr + (ahead.takeWhile p).length } := by
  have hpeek : s.peek = ahead.head?.getD 0 := by rw [peek, ← List.head?_drop, h]
  induction ahead generalizing s with
  | nil =>
    rw [advanceWhile?, if_neg (by simp [hpeek, h0])]
    rfl
  | cons byte ahead ih =>
    rw [List.head?_cons, Option.getD_some] at hpeek
    cases hbyte : p byte with
    | false =>
      rw [advanceWhile?, if_neg (by simp [hpeek, hbyte]),
        List.takeWhile_cons_of_neg (by simp [hbyte])]
      rfl
    | true =>
      have hdrop : s.bytes.drop (s.curr + 1) = ahead := by
        rw [← List.drop_drop, h]
        rfl
      rw [advanceWhile?, if_pos (by rw [hpeek, hbyte])]
      split
      · rename_i hnone
        cases (advance?_of_drop h).symm.trans hnone
      · rename_i taken u hsome
        obtain ⟨rfl, rfl⟩ := Prod.mk.inj (Option.some.inj ((advance?_of_drop h).symm.trans hsome))
        rw [ih hdrop (by rw [peek, ← List.head?_drop, hdrop]),
          List.takeWhile_cons_of_pos hbyte, List.length_cons]
        simp only [Nat.add_assoc, Nat.add_comm 1]

namespace At

theorem length_eq (h : s.At before rest) : s.bytes.length = s.curr + byteCount rest := by
  rw [h.bytes, length_utf8, byteCount_append, h.curr]

theorem drop_eq (h : s.At before rest) : s.bytes.drop s.curr = utf8 rest := by
  rw [h.bytes, h.curr, drop_utf8]

theorem le_length (h : s.At before rest) : s.curr ≤ s.bytes.length :=
  Nat.le.intro h.length_eq.symm

theorem move (h : s.At before (region ++ rest)) (hbytes : t.bytes = s.bytes)
    (hcurr : t.curr = s.curr + byteCount region) : t.At (before ++ region) rest where
  bytes := by rw [hbytes, h.bytes, List.append_assoc]
  curr := by rw [hcurr, h.curr, byteCount_append]

theorem peek_eq (h : s.At before rest) : s.peek = (utf8 rest).head?.getD 0 := by
  rw [peek, ← List.head?_drop, h.drop_eq]

theorem peek_class (h : s.At before rest) (hpq : Bytes.Spells p q) (h0 : p 0 = false) :
    p s.peek = rest.head?.any q := by
  rw [← hpq.head, h.peek_eq]
  cases (utf8 rest).head? with
  | none => exact h0
  | some byte => rfl

theorem peek_iff (h : s.At before rest) (ha : a.toNat < 128) (h0 : (0 : UInt8) ≠ a.toUInt8) :
    s.peek = a.toUInt8 ↔ rest.head? = some a := by
  have hclass := h.peek_class (spells_eq ha) (decide_eq_false h0)
  rw [← decide_eq_true_iff (p := s.peek = a.toUInt8), hclass]
  cases rest with
  | nil => simp
  | cons c rest => simp

/-- An ASCII character is taken by its byte. -/
theorem taken (h : s.At before (c :: rest)) (hc : c.toNat < 128) :
    s.advance? = some (c.toUInt8, { s with curr := s.curr + 1 })
      ∧ At { s with curr := s.curr + 1 } (before ++ [c]) rest := by
  have hdrop := h.drop_eq
  rw [utf8_cons, utf8EncodeChar_of_ascii hc] at hdrop
  have hsize : c.utf8Size = 1 := by
    rw [← String.length_utf8EncodeChar, utf8EncodeChar_of_ascii hc]
    rfl
  have hfront : s.At before ([c] ++ rest) := h
  refine ⟨advance?_of_drop hdrop, hfront.move rfl ?_⟩
  rw [byteCount_cons, hsize, byteCount_nil]

theorem peekNext_iff (h : s.At before (c :: rest)) (hc : c.toNat < 128) (ha : a.toNat < 128)
    (h0 : (0 : UInt8) ≠ a.toUInt8) : s.peekNext = a.toUInt8 ↔ rest.head? = some a :=
  (h.taken hc).2.peek_iff ha h0

theorem peekNext_class (h : s.At before (c :: rest)) (hc : c.toNat < 128)
    (hpq : Bytes.Spells p q) (h0 : p 0 = false) : p s.peekNext = rest.head?.any q :=
  (h.taken hc).2.peek_class hpq h0

theorem advanceWhile? (h : s.At before rest) (hpq : Bytes.Spells p q) (h0 : p 0 = false) :
    s.advanceWhile? p = some { s with curr := s.curr + byteCount (rest.takeWhile q) } := by
  rw [advanceWhile?_of_drop h0 h.drop_eq, hpq.takeWhile_utf8, length_utf8]

theorem atEnd_iff (h : s.At before rest) : s.atEnd = true ↔ rest = [] := by
  rw [atEnd, decide_eq_true_iff, h.length_eq]
  cases rest with
  | nil => simp
  | cons c rest =>
    have hpos := c.utf8Size_pos
    rw [byteCount_cons]
    simp only [reduceCtorEq, iff_false]
    omega

theorem isBoundary (h : s.At before rest) : Bytes.isBoundary s.bytes s.curr = true := by
  rw [Bytes.isBoundary, ← List.head?_drop, h.drop_eq]
  cases rest with
  | nil => simp [h.length_eq]
  | cons c rest =>
    obtain ⟨lead, tail, hbytes, hlead, -⟩ := exists_utf8EncodeChar c
    simp [utf8_cons, hbytes, hlead]

theorem from? (h : s.At before rest) : Bytes.from? s.bytes s.curr = some (utf8 rest) := by
  rw [Bytes.from?, if_pos h.le_length, h.drop_eq]

theorem between? (h : s.At before (region ++ rest)) {stop : Nat}
    (hstop : stop = s.curr + byteCount region) :
    Bytes.between? s.bytes s.curr stop = some (utf8 region) := by
  rw [hstop, h.bytes, h.curr, between?_utf8]

/-- The text of a token is cut out whole. -/
theorem token? (h : At { s with curr := s.start } before (region ++ rest))
    (hcurr : s.curr = s.start + byteCount region) (kind : TokenKind) :
    s.token? kind = some (⟨kind, String.ofList region, s.start, s.line⟩, s) := by
  have hstart := h.isBoundary
  have hstop := (h.move (t := s) rfl hcurr).isBoundary
  have hpart := h.between? hcurr
  simp only at hstart hpart
  rw [ByteScanner.token?, Bytes.cut?, if_pos ⟨hstart, hstop⟩, hpart, Option.bind_some,
    fromUTF8?_utf8]
  rfl

end At

end Moves

/-! ### Reading a piece -/

/-- The place that a scanner has reached. -/
def place (s : ByteScanner) : Position := ⟨s.curr, s.line⟩

/-- A scanner behind the first byte of a token. -/
def opened (s : ByteScanner) : ByteScanner := { s with start := s.curr, curr := s.curr + 1 }

/-- A scanner behind the text of a token. -/
def behind (s : ByteScanner) (text : List Char) : ByteScanner :=
  { s with
    start := s.curr, curr := s.curr + byteCount text, line := s.line + text.count '\n' }

/-- What there is to read if a piece stands next. -/
def read (s : ByteScanner) (piece : Piece) : Option (Token × ByteScanner) :=
  (piece.token? s.place).map fun t => (t, s.behind piece.text)

section Pieces

variable {s u : ByteScanner} {before rest text : List Char} {c : Char}

theorem token?_behind (h : s.At before (text ++ rest)) (kind : TokenKind) :
    (s.behind text).token? kind = s.read ⟨.token kind, text⟩ := by
  have hstart : At { s.behind text with curr := (s.behind text).start } before (text ++ rest) :=
    ⟨h.bytes, h.curr⟩
  rw [hstart.token? rfl]
  rfl

theorem faultToken_behind (fault : LexicalFault) :
    some ((s.behind text).faultToken fault, s.behind text) = s.read ⟨.fault fault, text⟩ := rfl

/-- A text without line breaks needs no counting. -/
theorem eq_behind (hbreak : '\n' ∉ text)
    (hu : u = { s with start := s.curr, curr := s.curr + byteCount text }) : u = s.behind text := by
  rw [hu, behind, List.count_eq_zero.2 hbreak, Nat.add_zero]

theorem token?_of_not_mem_break (h : s.At before (text ++ rest)) (hbreak : '\n' ∉ text)
    (hu : u = { s with start := s.curr, curr := s.curr + byteCount text }) (kind : TokenKind) :
    u.token? kind = s.read ⟨.token kind, text⟩ := by
  rw [eq_behind hbreak hu, token?_behind h]

theorem At.opened (h : s.At before (c :: rest)) (hc : c.toNat < 128) :
    s.opened.At (before ++ [c]) rest :=
  ⟨(h.taken hc).2.bytes, (h.taken hc).2.curr⟩

theorem byteCount_ascii (hc : c.toNat < 128) (text : List Char) :
    byteCount (c :: text) = 1 + byteCount text := by
  rw [byteCount_cons, ← String.length_utf8EncodeChar, utf8EncodeChar_of_ascii hc]
  rfl

/-- The contents of a string go up to the first quote, which closes it. -/
theorem exists_body_of_stringLength? {n : Nat} (h : stringLength? rest = some n) :
    ∃ body, rest = body ++ '"' :: rest.drop n ∧ rest.take n = body ++ ['"']
      ∧ rest.takeWhile (· ≠ '"') = body := by
  obtain ⟨body, htake, hbody⟩ := take_of_stringLength? h
  have hrest : rest = body ++ '"' :: rest.drop n := by
    conv_lhs => rw [← List.take_append_drop n rest, htake]
    simp
  refine ⟨body, hrest, htake, ?_⟩
  rw [hrest, List.takeWhile_append_of_pos, List.takeWhile_cons_of_neg (by simp), List.append_nil]
  exact fun d hd => by simpa using fun heq : d = '"' => hbody (heq ▸ hd)

/-- The closing quote is found, or there is none in the rest of the text either. -/
theorem string?_eq (h : s.At before ('"' :: rest)) :
    s.opened.string? = s.read ⟨(munch '"' rest).1, '"' :: rest.take (munch '"' rest).2⟩ := by
  have hopened := h.opened (by decide)
  rw [string?, hopened.from?, Option.bind_some, idxOf?_utf8 (by decide)]
  -- The closing quote is found as a byte: no other character contains that byte.
  cases hlength : stringLength? rest with
  | some n =>
    have hmunch : munch '"' rest = (.token .string, n) := by simp [munch, isBlank, hlength]
    obtain ⟨body, hrest, htake, hwhile⟩ := exists_body_of_stringLength? hlength
    have hmem : '"' ∈ rest := by rw [hrest]; simp
    have hpart := (hrest ▸ hopened).between? rfl
    have hend : ({ s.opened with
          line := s.opened.line + Bytes.breaks (utf8 body),
          curr := s.opened.curr + byteCount body + 1 } : ByteScanner)
        = s.behind ('"' :: (body ++ ['"'])) := by
      rw [breaks_utf8]
      simp only [behind, ByteScanner.opened, byteCount_ascii (show '"'.toNat < 128 by decide),
        byteCount_append, byteCount_nil, ByteScanner.mk.injEq, List.count_cons, List.count_append]
      simp
      omega
    have hfront : s.At before (('"' :: (body ++ ['"'])) ++ rest.drop n) := by
      rw [hrest] at h
      simpa using h
    rw [if_pos hmem, hwhile]
    simp only
    rw [hpart, Option.bind_some, hend, hmunch, htake, token?_behind hfront]
  | none =>
    have hmunch : munch '"' rest = (.fault .unterminatedString, rest.length) := by
      simp [munch, isBlank, hlength]
    rw [if_neg (not_mem_of_stringLength?_eq_none hlength)]
    have hend : ({ s.opened with
          line := s.opened.line + Bytes.breaks (utf8 rest),
          curr := s.opened.bytes.length } : ByteScanner)
        = s.behind ('"' :: rest) := by
      rw [breaks_utf8, behind, hopened.length_eq]
      simp only [ByteScanner.opened, byteCount_ascii (show '"'.toNat < 128 by decide),
        ByteScanner.mk.injEq, List.count_cons]
      simp
      omega
    simp only
    rw [hend, hmunch, List.take_length]
    rfl

/-! #### Numbers and words -/

theorem not_mem_break_of_class {q : Char → Bool} {text : List Char} (hq : q '\n' = false)
    (h : ∀ d ∈ text, q d = true) : '\n' ∉ text := fun hmem => by
  rw [h _ hmem] at hq
  cases hq

/-- Only strings go over line breaks. -/
theorem kind_eq_string_of_mem_break {kind : TokenKind} (h : Lexeme kind text)
    (hbreak : '\n' ∈ text) : kind = .string := by
  have hmarks : ∀ entry ∈ TokenKind.marks, '\n' ∉ entry.1.toList := by decide
  have hdigit : '\n'.isDigit = false := rfl
  have hpart : isWordPart '\n' = false := rfl
  cases h with
  | mark h => exact absurd hbreak (hmarks _ (TokenKind.mem_marks_of_mark? h))
  | whole hne hd => exact absurd hbreak (not_mem_break_of_class hdigit hd)
  | fraction hne hd pne hp =>
    rcases List.mem_append.1 hbreak with hbreak | hbreak
    · exact absurd hbreak (not_mem_break_of_class hdigit hd)
    · have hplaces := List.mem_of_ne_of_mem (by decide) hbreak
      exact absurd hplaces (not_mem_break_of_class hdigit hp)
  | string h => rfl
  | reserved hw h | name hw h =>
    obtain ⟨c, tail, rfl, -⟩ := id hw
    obtain ⟨hc, htail⟩ := isWordStart_of_isWord hw
    refine absurd hbreak (not_mem_break_of_class hpart fun d hd => ?_)
    rcases List.mem_cons.1 hd with rfl | hd
    · exact isWordPart_of_isWordStart hc
    · exact htail d hd

/-- Whether a fraction follows can be seen from two bytes. -/
theorem point_iff (h : s.At before rest) :
    s.peek = '.'.toUInt8 ∧ Bytes.isDigit s.peekNext = true
      ↔ ∃ d places, rest = '.' :: d :: places ∧ d.isDigit = true := by
  rw [h.peek_iff (by decide) (by decide), List.head?_eq_some_iff]
  constructor
  · rintro ⟨⟨tail, rfl⟩, hdigit⟩
    rw [h.peekNext_class (by decide) spells_isDigit rfl] at hdigit
    cases tail with
    | nil => cases hdigit
    | cons d places => exact ⟨d, places, rfl, hdigit⟩
  · rintro ⟨d, places, rfl, hd⟩
    refine ⟨⟨_, rfl⟩, ?_⟩
    rw [h.peekNext_class (by decide) spells_isDigit rfl]
    exact hd

theorem take_fractionLength {d : Char} {places : List Char} (hd : d.isDigit = true) :
    ('.' :: d :: places).take (fractionLength ('.' :: d :: places))
      = '.' :: (d :: places).takeWhile Char.isDigit := by
  rw [fractionLength, if_pos hd, Nat.add_comm, List.take_succ_cons, List.take_succ_cons,
    take_length_takeWhile, List.takeWhile_cons_of_pos hd]

theorem fractionLength_eq_zero (h : ¬ ∃ d places, rest = '.' :: d :: places ∧ d.isDigit = true) :
    fractionLength rest = 0 := by
  fun_cases fractionLength rest with
  | case1 d places hd => exact absurd ⟨d, places, rfl, hd⟩ h
  | case2 d places hd => rfl
  | case3 => rfl

theorem number?_eq (h : s.At before (c :: rest)) (hc : c.isDigit = true) :
    s.opened.number? = s.read ⟨.token .number, c :: rest.take (numberLength rest)⟩ := by
  have hascii := spells_isDigit.ascii_of_mem hc
  have hopened := h.opened hascii
  have hbreak : '\n' ∉ c :: rest.take (numberLength rest) := fun hmem => by
    cases kind_eq_string_of_mem_break (lexeme_number hc rest) hmem
  have hsplit : s.At before ((c :: rest.take (numberLength rest)) ++ rest.drop (numberLength rest))
      := by
    rw [List.cons_append, List.take_append_drop]
    exact h
  obtain ⟨digits, hdigits⟩ : ∃ digits, rest.takeWhile Char.isDigit = digits := ⟨_, rfl⟩
  obtain ⟨after, hafter⟩ : ∃ after, rest.dropWhile Char.isDigit = after := ⟨_, rfl⟩
  have hrest : rest = digits ++ after := by
    rw [← hdigits, ← hafter, List.takeWhile_append_dropWhile]
  have htake : rest.take (numberLength rest) = digits ++ after.take (fractionLength after) := by
    rw [numberLength, hdigits, hafter, hrest, List.take_length_add_append]
  have hbehind := (hrest ▸ hopened).move
    (t := { s.opened with curr := s.opened.curr + byteCount digits }) rfl rfl
  rw [number?, hopened.advanceWhile? spells_isDigit rfl, Option.bind_some, hdigits]
  -- A point counts only if a digit stands behind it.
  by_cases hpoint : ∃ d places, after = '.' :: d :: places ∧ d.isDigit = true
  · rw [if_pos ((point_iff hbehind).2 hpoint)]
    obtain ⟨d, places, rfl, hd⟩ := hpoint
    obtain ⟨hadvance, hplaces⟩ := hbehind.taken (by decide)
    rw [hadvance, Option.bind_some, hplaces.advanceWhile? spells_isDigit rfl, Option.bind_some]
    refine token?_of_not_mem_break hsplit hbreak ?_ .number
    rw [htake, take_fractionLength hd, byteCount_ascii hascii, byteCount_append,
      byteCount_ascii (show '.'.toNat < 128 by decide)]
    simp only [ByteScanner.opened, ByteScanner.mk.injEq, true_and, and_true]
    omega
  · rw [if_neg (mt (point_iff hbehind).1 hpoint)]
    refine token?_of_not_mem_break hsplit hbreak ?_ .number
    rw [htake, fractionLength_eq_zero hpoint, List.take_zero, List.append_nil,
      byteCount_ascii hascii]
    simp only [ByteScanner.opened, Nat.add_assoc]

theorem wordKind_utf8 (text : List Char) :
    wordKind (utf8 text) = TokenKind.ofWord (String.ofList text) := by
  have hlookup : ∀ entries : List (String × TokenKind),
      (entries.find? (·.1.toUTF8.data.toList = utf8 text)).map (·.2)
        = entries.lookup (String.ofList text) := by
    intro entries
    induction entries with
    | nil => rfl
    | cons entry entries ih =>
      have heq : entry.1.toUTF8.data.toList = utf8 text ↔ String.ofList text = entry.1 := by
        rw [bytes_ofSource, utf8_inj]
        refine ⟨fun htext => ?_, fun htext => ?_⟩
        · rw [← htext, String.ofList_toList]
        · rw [← htext, String.toList_ofList]
      by_cases htext : String.ofList text = entry.1
      · rw [List.find?_cons_of_pos (by simpa using heq.2 htext), List.lookup_cons, htext]
        simp
      · have hne : (String.ofList text == entry.1) = false := by simpa using htext
        rw [List.find?_cons_of_neg (by simpa using mt heq.1 htext), List.lookup_cons, hne, ih]
  rw [wordKind, hlookup]
  rfl

theorem word?_eq (h : s.At before (c :: rest)) (hc : isWordStart c = true) :
    s.opened.word? = s.read ⟨.token (TokenKind.ofWord
      (String.ofList (c :: rest.take (wordLength rest)))), c :: rest.take (wordLength rest)⟩ := by
  have hascii := spells_isWordStart.ascii_of_mem hc
  set word := rest.takeWhile isWordPart with hword
  have htake : rest.take (wordLength rest) = word := take_length_takeWhile isWordPart rest
  have hbreak : '\n' ∉ c :: word := by
    refine not_mem_break_of_class (q := isWordPart) (by decide) fun d hd => ?_
    rcases List.mem_cons.1 hd with rfl | hd
    · exact isWordPart_of_isWordStart hc
    · exact List.mem_takeWhile_imp hd
  have hsplit : s.At before ((c :: word) ++ rest.dropWhile isWordPart) := by
    rw [List.cons_append, hword, List.takeWhile_append_dropWhile]
    exact h
  have hcurr : s.curr + 1 + byteCount word = s.curr + byteCount (c :: word) := by
    rw [byteCount_ascii hascii, Nat.add_assoc]
  rw [htake, word?, (h.opened hascii).advanceWhile? spells_isWordPart (by decide),
    Option.bind_some]
  simp only [ByteScanner.opened]
  rw [hsplit.between? hcurr, Option.bind_some, wordKind_utf8,
    token?_of_not_mem_break hsplit hbreak]
  rw [hcurr]

/-! #### Marks -/

theorem match?_eq {a : Char} (h : s.At before rest) (ha : a.toNat < 128)
    (h0 : (0 : UInt8) ≠ a.toUInt8) :
    s.match? a.toUInt8 = some (if rest.head? = some a then (true, { s with curr := s.curr + 1 })
      else (false, s)) := by
  have hpeek := h.peek_iff ha h0
  by_cases hhead : rest.head? = some a
  · obtain ⟨tail, rfl⟩ := List.head?_eq_some_iff.1 hhead
    have hend : ¬ s.atEnd = true := mt h.atEnd_iff.1 (by simp)
    rw [match?, if_pos ⟨by simpa using hend, hpeek.2 hhead⟩, (h.taken ha).1, if_pos hhead]
    rfl
  · rw [match?, if_neg (fun hboth => hhead (hpeek.1 hboth.2)), if_neg hhead]

/-- A scanner tries the second characters of a row in order. -/
theorem mark?_eq (h : s.At before (c :: rest)) (hc : c.toNat < 128) (hbreak : c ≠ '\n')
    (single : Except LexicalFault TokenKind) {pairs : List (Char × TokenKind)}
    (hpairs : ∀ pair ∈ pairs,
      pair.1.toNat < 128 ∧ (0 : UInt8) ≠ pair.1.toUInt8 ∧ pair.1 ≠ '\n') :
    s.opened.mark? single pairs
      = s.read ⟨(MarkRow.munch ⟨c, pairs, single⟩ rest).1,
          c :: rest.take (MarkRow.munch ⟨c, pairs, single⟩ rest).2⟩ := by
  have hone : s.At before ([c] ++ rest) := h
  have hsize : byteCount [c] = 1 := byteCount_ascii hc []
  -- By induction on the pairs, which are tried in order; the mark alone is the last resort.
  induction pairs with
  | nil =>
    cases single with
    | ok kind =>
      refine token?_of_not_mem_break hone (by simpa using Ne.symm hbreak) ?_ kind
      rw [hsize]
      rfl
    | error fault =>
      have hbehind : s.opened = s.behind [c] :=
        eq_behind (by simpa using Ne.symm hbreak) (by rw [hsize]; rfl)
      rw [mark?, hbehind, faultToken_behind]
      rfl
  | cons pair pairs ih =>
    obtain ⟨⟨hascii, h0, hpair⟩, hpairs⟩ := List.forall_mem_cons.1 hpairs
    rw [mark?, match?_eq (h.opened hc) hascii h0, Option.bind_some]
    by_cases hhead : rest.head? = some pair.1
    · obtain ⟨tail, rfl⟩ := List.head?_eq_some_iff.1 hhead
      have hfound : MarkRow.munch ⟨c, pair :: pairs, single⟩ (pair.1 :: tail)
          = (.token pair.2, 1) := by simp [MarkRow.munch]
      have htwo : s.At before ([c, pair.1] ++ tail) := h
      rw [hfound, if_pos hhead, if_pos rfl]
      refine token?_of_not_mem_break htwo (by simp [Ne.symm hbreak, Ne.symm hpair]) ?_ pair.2
      rw [byteCount_ascii hc, byteCount_ascii hascii]
      rfl
    · have hskip : MarkRow.munch ⟨c, pair :: pairs, single⟩ rest
          = MarkRow.munch ⟨c, pairs, single⟩ rest := by simp [MarkRow.munch, hhead]
      rw [hskip, if_neg hhead, if_neg (by simp)]
      exact ih hpairs

theorem points?_eq (h : s.At before ('.' :: rest)) :
    s.opened.points?
      = s.read ⟨(munchMark '.' rest).1, '.' :: rest.take (munchMark '.' rest).2⟩ := by
  have hopened := h.opened (by decide)
  have hiff : s.opened.peek = '.'.toUInt8 ∧ s.opened.peekNext = '.'.toUInt8
      ↔ ['.', '.'] <+: rest := by
    rw [hopened.peek_iff (by decide) (by decide), List.head?_eq_some_iff]
    constructor
    · rintro ⟨⟨tail, rfl⟩, hnext⟩
      obtain ⟨tail, rfl⟩ := List.head?_eq_some_iff.1
        ((hopened.peekNext_iff (by decide) (by decide) (by decide)).1 hnext)
      exact ⟨tail, rfl⟩
    · rintro ⟨tail, rfl⟩
      exact ⟨⟨_, rfl⟩, (hopened.peekNext_iff (by decide) (by decide) (by decide)).2 rfl⟩
  rw [munchMark_point, points?]
  by_cases hpoints : ['.', '.'] <+: rest
  · rw [if_pos (hiff.2 hpoints), if_pos hpoints]
    obtain ⟨tail, rfl⟩ := hpoints
    have hthree : s.At before (['.', '.', '.'] ++ tail) := h
    exact token?_of_not_mem_break hthree (by decide) rfl .dotDotDot
  · rw [if_neg (mt hiff.1 hpoints), if_neg hpoints]
    have hone : s.At before (['.'] ++ rest) := h
    exact token?_of_not_mem_break hone (by decide) rfl .dot

/-- A character that starts no token is read whole. -/
theorem stray?_eq (h : s.At before (c :: rest)) (hbreak : c ≠ '\n') :
    s.opened.stray? = s.read ⟨.fault .strayCharacter, [c]⟩ := by
  obtain ⟨lead, tail, hbytes, -, htail⟩ := exists_utf8EncodeChar c
  have hdrop : s.opened.bytes.drop s.opened.curr = tail ++ utf8 rest := by
    show s.bytes.drop (s.curr + 1) = tail ++ utf8 rest
    rw [← List.drop_drop, h.drop_eq, utf8_cons, hbytes]
    rfl
  -- The continuation bytes that stand next are those of the character itself.
  have hwhile : (tail ++ utf8 rest).takeWhile Bytes.isContinuation = tail := by
    rw [List.takeWhile_append_of_pos htail]
    cases rest with
    | nil => simp
    | cons d rest =>
      obtain ⟨lead, tail, hbytes, hlead, -⟩ := exists_utf8EncodeChar d
      rw [utf8_cons, hbytes, List.cons_append, List.takeWhile_cons_of_neg (by simp [hlead]),
        List.append_nil]
  have hsize : c.utf8Size = tail.length + 1 := by
    rw [← String.length_utf8EncodeChar, hbytes, List.length_cons]
  have hbehind : ({ s.opened with curr := s.opened.curr + tail.length } : ByteScanner)
      = s.behind [c] := by
    refine eq_behind (by simpa using Ne.symm hbreak) ?_
    rw [byteCount_cons, hsize, byteCount_nil, Nat.add_zero, Nat.add_comm tail.length,
      ← Nat.add_assoc]
    rfl
  rw [stray?, advanceWhile?_of_drop (by decide) hdrop, hwhile, Option.map_some, hbehind,
    faultToken_behind]

/-- What stands next is read as the piece that it is, if it is no trivia. -/
theorem lexeme?_eq (h : s.At before (c :: rest)) (hblank : isBlank c = false)
    (hline : ¬ (c = '/' ∧ rest.head? = some '/'))
    (hcomment : ¬ (c = '/' ∧ rest.head? = some '*')) :
    s.lexeme? = s.read ⟨(munch c rest).1, c :: rest.take (munch c rest).2⟩ := by
  obtain ⟨lead, tail, hbytes, -⟩ := exists_utf8EncodeChar c
  have hdrop : s.bytes.drop s.curr = lead :: (tail ++ utf8 rest) := by
    rw [h.drop_eq, utf8_cons, hbytes, List.cons_append]
  have hadvance : advance? { s with start := s.curr } = some (lead, s.opened) :=
    advance?_of_drop (s := { s with start := s.curr }) hdrop
  have hend : ¬ atEnd { s with start := s.curr } = true := mt h.atEnd_iff.1 (by simp)
  -- A leading byte below 128 is the character, so that the scanner may decide by bytes.
  have hlead : ∀ {a : Char}, a.toNat < 128 → (lead = a.toUInt8 ↔ c = a) := fun ha =>
    decide_eq_decide.1 ((spells_eq ha).lead hbytes)
  have hbreak : c ≠ '\n' := by rintro rfl; cases hblank
  have hrows : markRows.find? (·.first.toUInt8 = lead) = markRows.find? (·.first = c) := by
    have hascii : ∀ row ∈ markRows, row.first.toNat < 128 := by decide
    refine List.find?_congr fun row hrow => decide_eq_decide.2 ?_
    rw [eq_comm, hlead (hascii row hrow), eq_comm]
  rw [lexeme?, if_neg hend, hadvance, Option.bind_some]
  simp only [munch, hblank, Bool.false_eq_true, if_false, if_neg hline, if_neg hcomment,
    spells_isDigit.lead hbytes, spells_isWordStart.lead hbytes, hrows]
  -- The scanner asks for a point first, `munch` only with the marks; the classes do not overlap.
  by_cases hpoint : c = '.'
  · subst hpoint
    rw [if_pos ((hlead (by decide)).2 rfl), points?_eq h, if_neg (by decide),
      if_neg (by decide), if_neg (by decide)]
  rw [if_neg (mt (hlead (by decide)).1 hpoint)]
  by_cases hquote : c = '"'
  · subst hquote
    rw [if_pos ((hlead (by decide)).2 rfl), if_pos rfl, string?_eq h]
    simp [munch, isBlank]
  rw [if_neg (mt (hlead (by decide)).1 hquote), if_neg hquote]
  by_cases hdigit : c.isDigit = true
  · rw [if_pos hdigit, if_pos hdigit, number?_eq h hdigit]
  rw [if_neg hdigit, if_neg hdigit]
  by_cases hword : isWordStart c = true
  · rw [if_pos hword, if_pos hword, word?_eq h hword]
  rw [if_neg hword, if_neg hword]
  cases hfind : markRows.find? (·.first = c) with
  | some row =>
    have hmem := List.mem_of_find?_eq_some hfind
    obtain rfl : row.first = c := by simpa using List.find?_some hfind
    have hascii : ∀ row ∈ markRows, row.first.toNat < 128 ∧ ∀ pair ∈ row.pairs,
        pair.1.toNat < 128 ∧ (0 : UInt8) ≠ pair.1.toUInt8 ∧ pair.1 ≠ '\n' := by decide
    rw [munchMark_of_mem hmem]
    exact mark?_eq h (hascii row hmem).1 hbreak row.single (hascii row hmem).2
  | none =>
    have hnone : ∀ row ∈ markRows, row.first ≠ c := fun row hrow => by
      simpa using List.find?_eq_none.1 hfind row hrow
    rw [munchMark_of_not_mem hpoint hnone]
    exact stray?_eq h hbreak

/-! #### Trivia -/

theorem skipTrivium?_nil (h : s.At before []) : s.skipTrivium? = some .absent := by
  have hpeek : s.peek = 0 := h.peek_eq
  rw [skipTrivium?, hpeek, if_neg (by decide), if_neg (by decide),
    if_neg (fun hboth => absurd hboth.1 (by decide)),
    if_neg (fun hboth => absurd hboth.1 (by decide))]

/-- Two bytes tell whether a comment starts. -/
theorem slash_iff {a : Char} (h : s.At before (c :: rest)) (ha : a.toNat < 128)
    (h0 : (0 : UInt8) ≠ a.toUInt8) :
    s.peek = '/'.toUInt8 ∧ s.peekNext = a.toUInt8 ↔ c = '/' ∧ rest.head? = some a := by
  rw [h.peek_iff (by decide) (by decide), List.head?_cons, Option.some.injEq]
  refine and_congr_right ?_
  rintro rfl
  exact h.peekNext_iff (by decide) ha h0

theorem skipTrivium?_blank (h : s.At before (c :: rest)) (hc : isBlank c = true) :
    s.skipTrivium? = some (.skipped { s.behind [c] with start := s.start }) := by
  have hspace := h.peek_class spells_isSpace rfl
  have hnewline := h.peek_iff (a := '\n') (by decide) (by decide)
  rw [List.head?_cons, Option.any_some] at hspace
  rw [List.head?_cons, Option.some.injEq] at hnewline
  by_cases hbreak : c = '\n'
  · subst hbreak
    have hline : At { s with line := s.line + 1 } before ('\n' :: rest) := ⟨h.bytes, h.curr⟩
    rw [skipTrivium?, if_neg (by rw [hspace]; decide), if_pos (hnewline.2 rfl),
      (hline.taken (by decide)).1]
    rfl
  · have hclass : (c = ' ' || c = '\r' || c = '\t') = true := by
      simpa [isBlank, hbreak, or_assoc, or_comm (a := c = '\t')] using hc
    have hascii := spells_isSpace.ascii_of_mem hclass
    rw [skipTrivium?, if_pos (hspace.trans hclass), (h.taken hascii).1, Option.map_some, behind,
      byteCount_ascii hascii, List.count_eq_zero.2 (by simpa using Ne.symm hbreak)]
    rfl

theorem not_blank_of_slash (h : s.At before ('/' :: rest)) :
    ¬ Bytes.isSpace s.peek = true ∧ s.peek ≠ '\n'.toUInt8 := by
  rw [(h.peek_iff (by decide) (by decide)).2 rfl]
  decide

/-- A line comment is left in front of its line break. -/
theorem skipTrivium?_line (h : s.At before ('/' :: '/' :: rest)) :
    s.skipTrivium? = some (.skipped
      { s.behind ('/' :: ('/' :: rest).take (lineLength ('/' :: rest))) with
        start := s.start }) := by
  obtain ⟨hspace, hnewline⟩ := not_blank_of_slash h
  have htext : '/' :: ('/' :: rest).take (lineLength ('/' :: rest))
      = ('/' :: '/' :: rest).takeWhile (· ≠ '\n') := by
    rw [lineLength, take_length_takeWhile]
    rfl
  have hbreak : '\n' ∉ ('/' :: '/' :: rest).takeWhile (· ≠ '\n') := fun hmem => by
    simpa using List.mem_takeWhile_imp hmem
  rw [skipTrivium?, if_neg hspace, if_neg hnewline,
    if_pos ((slash_iff h (by decide) (by decide)).2 ⟨rfl, rfl⟩), h.from?, Option.map_some,
    idxOf?_utf8 (by decide), htext, behind, List.count_eq_zero.2 hbreak, Nat.add_zero]
  by_cases hmem : '\n' ∈ '/' :: '/' :: rest
  · rw [if_pos hmem]
  · have hwhole : ('/' :: '/' :: rest).takeWhile (· ≠ '\n') = '/' :: '/' :: rest := by
      refine List.takeWhile_eq_self_iff.2 fun d hd => ?_
      simpa using fun heq : d = '\n' => hmem (heq ▸ hd)
    rw [if_neg hmem, hwhole, ← h.length_eq]

/-- A block comment is gone over to its first `*/`; without one it is a fault over the rest. -/
theorem skipTrivium?_comment (h : s.At before ('/' :: '*' :: rest)) :
    s.skipTrivium? = match commentLength? rest with
      | some n => some (.skipped (s.behind ('/' :: '*' :: rest.take n)))
      | none => (s.read ⟨.fault .unterminatedComment, '/' :: '*' :: rest⟩).map
          fun found => .fault found.1 found.2 := by
  obtain ⟨hspace, hnewline⟩ := not_blank_of_slash h
  have hfront : s.At before (['/', '*'] ++ rest) := h
  have hbody : At { s with curr := s.curr + 2 } (before ++ ['/', '*']) rest :=
    hfront.move rfl rfl
  have hopens : ∀ text, byteCount ('/' :: '*' :: text) = 2 + byteCount text := by
    intro text
    rw [byteCount_ascii (by decide), byteCount_ascii (by decide), ← Nat.add_assoc]
  have hcount : ∀ text, List.count '\n' ('/' :: '*' :: text) = List.count '\n' text :=
    fun text => by simp
  rw [skipTrivium?, if_neg hspace, if_neg hnewline,
    if_neg (fun hline => by simpa using ((slash_iff h (by decide) (by decide)).1 hline).2),
    if_pos ((slash_iff h (by decide) (by decide)).2 ⟨rfl, rfl⟩)]
  simp only [hbody.from?, Option.bind_some]
  have hend := commentEnd?_utf8 rest
  cases hlength : commentLength? rest with
  | some n =>
    obtain ⟨inside, htake, -⟩ := take_of_commentLength? hlength
    rw [hlength, Option.map_some, Option.map_eq_some_iff] at hend
    obtain ⟨place, hplace, hsum⟩ := hend
    -- The bytes count up to `*/`, the characters including it.
    have hinside : place = byteCount inside := by
      rw [htake, byteCount_append, show byteCount ['*', '/'] = 2 from rfl] at hsum
      exact Nat.add_right_cancel hsum
    have hpart := between?_utf8 [] inside (['*', '/'] ++ rest.drop n)
    rw [List.nil_append, ← List.append_assoc, ← htake, List.take_append_drop, byteCount_nil,
      Nat.zero_add, ← hinside] at hpart
    rw [hplace]
    simp only
    rw [hpart, Option.map_some, breaks_utf8, behind, hopens, hcount, ← hsum, htake,
      List.count_append]
    simp [Nat.add_assoc, Nat.add_comm 2]
  | none =>
    rw [hlength, Option.map_none, Option.map_eq_none_iff] at hend
    have hbehind : ({ s with
          start := s.curr, curr := s.bytes.length, line := s.line + Bytes.breaks (utf8 rest) }
        : ByteScanner) = s.behind ('/' :: '*' :: rest) := by
      rw [breaks_utf8, behind, h.length_eq, hcount]
    rw [hend]
    simp only [hbehind, ← faultToken_behind, Option.map_some]

/-! #### Whatever stands next -/

theorem skipTrivia?_of_skipped (h : s.skipTrivium? = some (.skipped u)) :
    s.skipTrivia? = u.skipTrivia? := by
  rw [skipTrivia?]
  split <;> rename_i heq <;> cases h.symm.trans heq
  rfl

theorem pull?_of_skipped (h : s.skipTrivium? = some (.skipped u)) : s.pull? = u.pull? := by
  rw [pull?, skipTrivia?_of_skipped h]
  rfl

theorem pull?_of_absent (h : s.skipTrivium? = some .absent) : s.pull? = s.lexeme? := by
  have htrivia : s.skipTrivia? = some (none, s) := by
    rw [skipTrivia?]
    split <;> rename_i heq <;> cases h.symm.trans heq
    rfl
  rw [pull?, htrivia]
  rfl

theorem pull?_of_fault {t : Token} (h : s.skipTrivium? = some (.fault t u)) :
    s.pull? = some (t, u) := by
  have htrivia : s.skipTrivia? = some (some t, u) := by
    rw [skipTrivia?]
    split <;> rename_i heq <;> cases h.symm.trans heq
    rfl
  rw [pull?, htrivia]
  rfl

theorem pull?_nil (h : s.At before []) :
    s.pull? = some (⟨.eof, "", s.curr, s.line⟩, { s with start := s.curr }) := by
  have hend : atEnd { s with start := s.curr } = true := h.atEnd_iff.2 rfl
  rw [pull?_of_absent (skipTrivium?_nil h), lexeme?, if_pos hend]

theorem skipTrivium?_absent (h : s.At before (c :: rest)) (hblank : ¬ isBlank c = true)
    (hline : ¬ (c = '/' ∧ rest.head? = some '/'))
    (hcomment : ¬ (c = '/' ∧ rest.head? = some '*')) : s.skipTrivium? = some .absent := by
  have hspace := h.peek_class spells_isSpace rfl
  have hnewline := h.peek_iff (a := '\n') (by decide) (by decide)
  rw [List.head?_cons, Option.any_some] at hspace
  rw [List.head?_cons, Option.some.injEq] at hnewline
  have hclass : ¬ (c = ' ' || c = '\r' || c = '\t') = true := by
    refine fun hclass => hblank ?_
    simp only [isBlank, Bool.or_eq_true] at hclass ⊢
    rcases hclass with (hc | hc) | hc <;> simp [hc]
  have hbreak : c ≠ '\n' := by rintro rfl; exact hblank rfl
  rw [skipTrivium?, if_neg (by rwa [hspace]), if_neg (mt hnewline.1 hbreak),
    if_neg (mt (slash_iff h (by decide) (by decide)).1 hline),
    if_neg (mt (slash_iff h (by decide) (by decide)).1 hcomment)]

/-- The piece that stands next is skipped if it is a blank, and else it is read. -/
theorem pull?_cons (h : s.At before (c :: rest)) :
    ((munch c rest).1 = .blank →
        ∃ start, s.pull? = pull? { s.behind (c :: rest.take (munch c rest).2) with
          start := start })
      ∧ ((munch c rest).1 ≠ .blank →
        s.pull? = s.read ⟨(munch c rest).1, c :: rest.take (munch c rest).2⟩) := by
  by_cases hblank : isBlank c = true
  · have hmunch : munch c rest = (.blank, 0) := by rw [munch, if_pos hblank]
    rw [hmunch]
    exact ⟨fun _ => ⟨_, pull?_of_skipped (skipTrivium?_blank h hblank)⟩, fun hne => absurd rfl hne⟩
  by_cases hline : c = '/' ∧ rest.head? = some '/'
  · have hmunch : munch c rest = (.blank, lineLength rest) := by
      rw [munch, if_neg hblank, if_pos hline]
    obtain ⟨rfl, hhead⟩ := hline
    obtain ⟨tail, rfl⟩ := List.head?_eq_some_iff.1 hhead
    rw [hmunch]
    exact ⟨fun _ => ⟨_, pull?_of_skipped (skipTrivium?_line h)⟩, fun hne => absurd rfl hne⟩
  by_cases hcomment : c = '/' ∧ rest.head? = some '*'
  · have hmunch : munch c rest = match commentLength? rest.tail with
        | some n => (.blank, n + 1)
        | none => (.fault .unterminatedComment, rest.length) := by
      rw [munch, if_neg hblank, if_neg hline]
      refine (if_pos hcomment).trans ?_
      cases commentLength? rest.tail <;> rfl
    obtain ⟨rfl, hhead⟩ := hcomment
    obtain ⟨tail, rfl⟩ := List.head?_eq_some_iff.1 hhead
    have hskip := skipTrivium?_comment h
    rw [List.tail_cons] at hmunch
    cases hlength : commentLength? tail with
    | some n =>
      rw [hlength] at hmunch hskip
      rw [hmunch]
      exact ⟨fun _ => ⟨_, pull?_of_skipped hskip⟩, fun hne => absurd rfl hne⟩
    | none =>
      rw [hlength] at hmunch hskip
      rw [hmunch, List.take_length]
      exact ⟨fun heq => Shape.noConfusion heq, fun _ => pull?_of_fault hskip⟩
  · have hshape : (munch c rest).1 ≠ .blank := munch_ne_blank hblank hline hcomment
    refine ⟨fun heq => absurd heq hshape, fun _ => ?_⟩
    rw [pull?_of_absent (skipTrivium?_absent h hblank hline hcomment)]
    exact lexeme?_eq h (Bool.eq_false_iff.2 hblank) hline hcomment

end Pieces

end ByteScanner

end OnePass
