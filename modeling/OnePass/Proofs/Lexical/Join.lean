import Mathlib.Data.List.Find
import OnePass.Proofs.Lexical.Tiling

/-!
# OnePass.Proofs.Lexical.Join

The tokens of texts that are put one behind the other, with a line break between them. No
piece of a text without a fault reaches over a line break behind the text
(`munch_append_blank`), so that the tokens are those of the texts, each moved to the place
where its text starts (`pending_intercalate`).
-/

namespace OnePass

/-! ### How far a piece reaches in front of white space -/

/-- A run of characters of one kind ends in front of a character that is not of the kind, so that
what stands behind that one does not matter. -/
theorem takeWhile_append_stop {p : Char → Bool} {c : Char} (hc : p c = false)
    (rest tail : List Char) : (rest ++ c :: tail).takeWhile p = rest.takeWhile p := by
  induction rest with
  | nil => rw [List.nil_append, List.takeWhile_cons_of_neg (by simp [hc]), List.takeWhile_nil]
  | cons d rest ih =>
    cases hd : p d with
    | true =>
      rw [List.cons_append, List.takeWhile_cons_of_pos hd, List.takeWhile_cons_of_pos hd, ih]
    | false =>
      rw [List.cons_append, List.takeWhile_cons_of_neg (by simp [hd]),
        List.takeWhile_cons_of_neg (by simp [hd])]

theorem dropWhile_append_stop {p : Char → Bool} {c : Char} (hc : p c = false)
    (rest tail : List Char) :
    (rest ++ c :: tail).dropWhile p = rest.dropWhile p ++ c :: tail := by
  induction rest with
  | nil => rw [List.nil_append, List.dropWhile_cons_of_neg (by simp [hc]), List.dropWhile_nil,
      List.nil_append]
  | cons d rest ih =>
    cases hd : p d with
    | true =>
      rw [List.cons_append, List.dropWhile_cons_of_pos hd, List.dropWhile_cons_of_pos hd, ih]
    | false =>
      rw [List.cons_append, List.dropWhile_cons_of_neg (by simp [hd]),
        List.dropWhile_cons_of_neg (by simp [hd]), List.cons_append]

/-- The end of a comment that has been found is found again if text is added. -/
theorem commentLength?_append {rest : List Char} {n : Nat} (h : commentLength? rest = some n)
    (tail : List Char) : commentLength? (rest ++ tail) = some n := by
  fun_induction commentLength? rest generalizing n with
  | case1 rest => exact h
  | case2 c rest hnot ih =>
    obtain ⟨m, hm, rfl⟩ := Option.map_eq_some_iff.1 h
    have hrest := ih hm
    rw [List.cons_append]
    cases rest with
    | nil => simp [commentLength?] at hm
    | cons d rest =>
      rw [List.cons_append] at hrest ⊢
      rw [commentLength?, hrest]
      · rfl
      · intro body hc hd
        obtain ⟨rfl, -⟩ := List.cons.inj hd
        exact hnot rest hc rfl
  | case3 => cases h

theorem stringLength?_append {rest : List Char} {n : Nat} (h : stringLength? rest = some n)
    (tail : List Char) : stringLength? (rest ++ tail) = some n := by
  fun_induction stringLength? rest generalizing n with
  | case1 => cases h
  | case2 rest => simpa [stringLength?] using h
  | case3 c rest hc ih =>
    obtain ⟨m, hm, rfl⟩ := Option.map_eq_some_iff.1 h
    rw [List.cons_append, stringLength?, if_neg hc, ih hm]
    rfl

section Blank

variable {stop : Char} (hstop : isBlank stop = true)
include hstop

theorem eq_of_isBlank : stop = ' ' ∨ stop = '\t' ∨ stop = '\r' ∨ stop = '\n' := by
  simpa [isBlank, or_assoc] using hstop

theorem isDigit_of_isBlank : stop.isDigit = false := by
  rcases eq_of_isBlank hstop with rfl | rfl | rfl | rfl <;> rfl

theorem isWordPart_of_isBlank : isWordPart stop = false := by
  rcases eq_of_isBlank hstop with rfl | rfl | rfl | rfl <;> rfl

/-- A point at the end of the text is not the start of a fraction, as a blank is no digit. -/
theorem fractionLength_append (rest tail : List Char) :
    fractionLength (rest ++ stop :: tail) = fractionLength rest := by
  have hpoint : stop ≠ '.' := by rintro rfl; cases hstop
  cases rest with
  | nil => simp [fractionLength, hpoint]
  | cons c rest =>
    cases rest with
    | nil =>
      by_cases hc : c = '.'
      · subst hc
        simp [fractionLength, isDigit_of_isBlank hstop]
      · simp [fractionLength, hc]
    | cons d rest =>
      by_cases hc : c = '.'
      · subst hc
        simp only [List.cons_append, fractionLength]
        rw [takeWhile_append_stop (isDigit_of_isBlank hstop)]
      · simp [fractionLength, hc]

theorem numberLength_append (rest tail : List Char) :
    numberLength (rest ++ stop :: tail) = numberLength rest := by
  rw [numberLength, takeWhile_append_stop (isDigit_of_isBlank hstop),
    dropWhile_append_stop (isDigit_of_isBlank hstop), fractionLength_append hstop, numberLength]

theorem wordLength_append (rest tail : List Char) :
    wordLength (rest ++ stop :: tail) = wordLength rest := by
  rw [wordLength, takeWhile_append_stop (isWordPart_of_isBlank hstop), wordLength]

omit hstop in
/-- What starts a text with a character behind it that it has not starts the text itself. -/
theorem prefix_append_stop_iff {mark text : List Char} (h : stop ∉ mark) (tail : List Char) :
    mark <+: text ++ stop :: tail ↔ mark <+: text := by
  induction text generalizing mark with
  | nil =>
    cases mark with
    | nil => simp
    | cons c mark =>
      have hc : c ≠ stop := fun hc => h (hc ▸ List.mem_cons_self)
      simp [List.cons_prefix_cons, hc]
  | cons d text ih =>
    cases mark with
    | nil => simp
    | cons c mark =>
      have hmark : stop ∉ mark := fun hmem => h (List.mem_cons_of_mem c hmem)
      rw [List.cons_append, List.cons_prefix_cons, List.cons_prefix_cons, ih hmark]

/-- No mark contains white space, so none reaches over it. -/
theorem leadingMark?_append (text tail : List Char) :
    leadingMark? (text ++ stop :: tail) = leadingMark? text := by
  have hmarks : ∀ entry ∈ TokenKind.marks, entry.1.toList.all (! isBlank ·) = true := by decide
  refine List.find?_congr fun entry hentry => ?_
  rw [Bool.eq_iff_iff, List.isPrefixOf_iff_prefix, List.isPrefixOf_iff_prefix]
  refine prefix_append_stop_iff (fun hmem => ?_) tail
  have hmark := List.all_eq_true.1 (hmarks entry hentry) stop hmem
  rw [hstop] at hmark
  cases hmark

theorem munchMark_append (c : Char) (rest tail : List Char) :
    munchMark c (rest ++ stop :: tail) = munchMark c rest := by
  rw [munchMark, ← List.cons_append, leadingMark?_append hstop, munchMark]

theorem head?_append_blank {c : Char} (hc : isBlank c = false) (rest tail : List Char) :
    (rest ++ stop :: tail).head? = some c ↔ rest.head? = some c := by
  have hne : stop ≠ c := by
    rintro rfl
    cases hstop.symm.trans hc
  cases rest with
  | nil => simp [hne]
  | cons d rest => rfl

/-- A piece that is no fault does not reach over white space behind the text, unless it is a
line comment and the white space breaks no line. -/
theorem munch_append_blank {c : Char} {rest : List Char}
    (h : ∀ fault, (munch c rest).1 ≠ .fault fault)
    (hblank : (munch c rest).1 = .blank → stop = '\n') (tail : List Char) :
    munch c (rest ++ stop :: tail) = munch c rest := by
  unfold munch at h hblank ⊢
  simp only [head?_append_blank hstop (show isBlank '/' = false from rfl),
    head?_append_blank hstop (show isBlank '*' = false from rfl)]
  by_cases hwhite : isBlank c = true
  · rw [if_pos hwhite, if_pos hwhite]
  rw [if_neg hwhite] at h hblank ⊢
  rw [if_neg hwhite]
  -- A line comment is the one piece that reaches up to a line break and over other white space.
  by_cases hline : c = '/' ∧ rest.head? = some '/'
  · rw [if_pos hline] at hblank
    obtain rfl := hblank rfl
    rw [if_pos hline, if_pos hline, lineLength, takeWhile_append_stop (by decide), lineLength]
  rw [if_neg hline] at h ⊢
  rw [if_neg hline]
  by_cases hcomment : c = '/' ∧ rest.head? = some '*'
  · rw [if_pos hcomment] at h ⊢
    rw [if_pos hcomment]
    cases rest with
    | nil => cases hcomment.2
    | cons star body =>
      rw [List.tail_cons] at h
      rw [List.cons_append, List.tail_cons, List.tail_cons]
      cases hlength : commentLength? body with
      | none => exact absurd rfl (hlength ▸ h .unterminatedComment)
      | some n => rw [commentLength?_append hlength]
  rw [if_neg hcomment] at h ⊢
  rw [if_neg hcomment]
  by_cases hquote : c = '"'
  · rw [if_pos hquote] at h ⊢
    rw [if_pos hquote]
    cases hlength : stringLength? rest with
    | none => exact absurd rfl (hlength ▸ h .unterminatedString)
    | some n => rw [stringLength?_append hlength]
  rw [if_neg hquote, if_neg hquote, numberLength_append hstop, wordLength_append hstop,
    List.take_append_of_le_length (wordLength_le rest), munchMark_append hstop]

end Blank

/-! ### Pieces and tokens -/

/-- Whether none of some pieces is a fault. -/
def Faultless (ps : List Piece) : Prop := ∀ piece ∈ ps, ∀ fault, piece.shape ≠ .fault fault

/-- A text without a fault and a line break behind it are cut up like the text alone; then the
rest is cut up on its own. -/
theorem pieces_append_break {source : List Char} (h : Faultless (pieces source))
    (tail : List Char) :
    pieces (source ++ '\n' :: tail) = pieces source ++ ⟨.blank, ['\n']⟩ :: pieces tail := by
  -- Along the pieces of the first text, none of which reaches its end without stopping there.
  fun_induction pieces source with
  | case1 => rw [List.nil_append, pieces]; rfl
  | case2 c rest found ih =>
    have hfirst : ∀ fault, (munch c rest).1 ≠ .fault fault := h _ List.mem_cons_self
    have hrest : Faultless (pieces (rest.drop found.2)) :=
      fun piece hpiece => h piece (List.mem_cons_of_mem _ hpiece)
    have hle : found.2 ≤ rest.length := munch_le c rest
    rw [List.cons_append, pieces, munch_append_blank rfl hfirst fun _ => rfl,
      List.take_append_of_le_length hle, List.drop_append_of_le_length hle, ih hrest]
    rfl

/-- A token whose text stands further behind. -/
def Token.shift (bytes lines : Nat) (t : Token) : Token :=
  { t with offset := bytes + t.offset, line := lines + t.line }

theorem Token.shift_zero (t : Token) : t.shift 0 0 = t := by
  simp [Token.shift]

theorem Token.shift_shift (bytes lines bytes' lines' : Nat) (t : Token) :
    (t.shift bytes' lines').shift bytes lines = t.shift (bytes + bytes') (lines + lines') := by
  simp [Token.shift, Nat.add_assoc]

/-- Where the pieces behind some others stand is a matter of how long those are. -/
theorem locate_append (place : Position) (ps qs : List Piece) :
    locate place (ps ++ qs)
      = locate place ps ++ locate (place.after (ps.flatMap Piece.text)) qs := by
  induction ps generalizing place with
  | nil => simp [locate, Position.after, byteCount]
  | cons piece ps ih =>
    have hplace : (place.after piece.text).after (ps.flatMap Piece.text)
        = place.after (piece.text ++ ps.flatMap Piece.text) := by
      simp [Position.after, byteCount_append, Nat.add_assoc]
    rw [List.cons_append, locate, locate, ih, hplace, List.flatMap_cons]
    cases piece.token? place with
    | none => rfl
    | some t => rfl

/-- Places are only added up, so all of them move by the same amount. -/
theorem locate_shift (bytes lines : Nat) (place : Position) (ps : List Piece) :
    locate ⟨bytes + place.offset, lines + place.line⟩ ps
      = (locate place ps).map (Token.shift bytes lines) := by
  induction ps generalizing place with
  | nil => rfl
  | cons piece ps ih =>
    have hplace : (Position.mk (bytes + place.offset) (lines + place.line)).after piece.text
        = ⟨bytes + (place.after piece.text).offset, lines + (place.after piece.text).line⟩ := by
      simp [Position.after, Nat.add_assoc]
    have htoken : piece.token? ⟨bytes + place.offset, lines + place.line⟩
        = (piece.token? place).map (Token.shift bytes lines) := by
      unfold Piece.token?
      rw [hplace]
      cases piece.shape <;> rfl
    rw [locate, locate, hplace, ih, htoken]
    cases piece.token? place with
    | none => rfl
    | some t => rfl

/-- A fault is an error token. -/
theorem faultless_of_locate {place : Position} {ps : List Piece}
    (h : ∀ t ∈ locate place ps, t.kind ≠ .error) : Faultless ps := by
  induction ps generalizing place with
  | nil => exact fun _ hpiece => absurd hpiece List.not_mem_nil
  | cons piece ps ih =>
    rw [locate] at h
    have hhead : ∀ t, piece.token? place = some t → t.kind ≠ .error := by
      intro t ht
      rw [ht] at h
      exact h t List.mem_cons_self
    have htail : ∀ t ∈ locate (place.after piece.text) ps, t.kind ≠ .error := by
      intro t ht
      refine h t ?_
      cases piece.token? place with
      | none => exact ht
      | some u => exact List.mem_cons_of_mem u ht
    intro p hp fault hfault
    rcases List.mem_cons.1 hp with rfl | hp
    · refine hhead ⟨.error, fault.message, place.offset, (place.after p.text).line⟩ ?_ rfl
      rw [Piece.token?, hfault]
    · exact ih htail p hp fault hfault

/-! ### Texts in a row -/

/-- How many bytes and how many lines further behind a text starts that stands behind a
text and a line break. -/
def bytesOver (source : String) : Nat := byteCount source.toList + 1

@[inherit_doc bytesOver]
def linesOver (source : String) : Nat := source.toList.count '\n' + 1

/-- The tokens of a text, and then those of the text behind it. -/
theorem pending_append {a : String}
    (h : ∀ t ∈ (TokenStream.ofSource a).pending, t.kind ≠ .error) (b : String) :
    (TokenStream.ofSource (a ++ "\n" ++ b)).pending
      = (TokenStream.ofSource a).pending
        ++ (TokenStream.ofSource b).pending.map (Token.shift (bytesOver a) (linesOver a)) := by
  have htext : (a ++ "\n" ++ b).toList = a.toList ++ '\n' :: b.toList := by
    rw [String.toList_append, String.toList_append, List.append_assoc]
    rfl
  have hstart : (Position.start.after a.toList).after ['\n']
      = ⟨bytesOver a + Position.start.offset, linesOver a + Position.start.line⟩ := by
    simp [Position.after, Position.start, bytesOver, linesOver, byteCount, Nat.add_comm,
      show '\n'.utf8Size = 1 from rfl]
  simp only [TokenStream.ofSource]
  rw [htext, pieces_append_break (faultless_of_locate h), locate_append, flatten_pieces, locate,
    hstart, locate_shift]
  rfl

/-- The end of a text moves with it, whatever stands in front. -/
theorem ending_append (a b : String) :
    (TokenStream.ofSource (a ++ "\n" ++ b)).ending
      = (TokenStream.ofSource b).ending.shift (bytesOver a) (linesOver a) := by
  have hplace : Position.start.after (a ++ "\n" ++ b).toList
      = ⟨bytesOver a + (Position.start.after b.toList).offset,
         linesOver a + (Position.start.after b.toList).line⟩ := by
    simp only [Position.after, Position.start, bytesOver, linesOver, String.toList_append,
      byteCount_append, List.count_append, Position.mk.injEq]
    constructor
    · show 0 + (byteCount a.toList + 1 + byteCount b.toList) = _
      omega
    · show 1 + (List.count '\n' a.toList + 1 + List.count '\n' b.toList) = _
      omega
  simp only [TokenStream.ofSource, TokenStream.ending, Token.shift, hplace]

/-- The tokens of texts in a row. -/
def tokensInRow : List String → List Token
  | [] => []
  | a :: rest =>
    (TokenStream.ofSource a).pending
      ++ (tokensInRow rest).map (Token.shift (bytesOver a) (linesOver a))

/-- The tokens of texts in a row. Texts in front must have no errors, as an unterminated string or
comment would swallow those behind. -/
theorem pending_intercalate {sources : List String}
    (h : ∀ a ∈ sources, ∀ t ∈ (TokenStream.ofSource a).pending, t.kind ≠ .error) :
    (TokenStream.ofSource ("\n".intercalate sources)).pending = tokensInRow sources := by
  induction sources with
  | nil => simp [String.intercalate_nil, TokenStream.ofSource, pieces, locate, tokensInRow]
  | cons a rest ih =>
    obtain ⟨ha, hrest⟩ := List.forall_mem_cons.1 h
    cases rest with
    | nil => simp [String.intercalate_singleton, tokensInRow]
    | cons b rest =>
      rw [String.intercalate_cons_of_ne_nil (by simp), pending_append ha, ih hrest]
      rfl

end OnePass
