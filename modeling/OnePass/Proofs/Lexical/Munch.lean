import Mathlib.Data.List.TakeWhile
import OnePass.Proofs.Lexical.Lexeme

/-!
# OnePass.Proofs.Lexical.Munch

What `munch` finds, family by family: a blank is trivia, a token is a lexeme and no
longer prefix of the input is one, and a fault is a stretch with which no token
starts (`munch_spec`).

The family of a lexeme shows in its first character (`Lexeme.family`), so that the
maximality of a token need only be compared with lexemes of its own family.
-/

namespace OnePass

/-! ### Searches -/

/-- A comment that is found ends at its first end mark. The star of the mark may be preceded by
others, so that the body is looked at together with the star. -/
theorem take_of_commentLength? {rest : List Char} {n : Nat} (h : commentLength? rest = some n) :
    ∃ body, rest.take n = body ++ ['*', '/'] ∧ ¬ ['*', '/'] <:+: body ++ ['*'] := by
  fun_induction commentLength? rest generalizing n with
  | case1 rest =>
    obtain rfl : 2 = n := by simpa using h
    exact ⟨[], by simp, by simp [List.infix_cons_iff, List.prefix_cons_iff]⟩
  | case2 c rest hopen ih =>
    obtain ⟨m, hm, rfl⟩ := Option.map_eq_some_iff.1 h
    obtain ⟨body, htake, hbody⟩ := ih hm
    refine ⟨c :: body, by simp [htake], ?_⟩
    rw [List.cons_append, List.infix_cons_iff, not_or]
    refine ⟨fun hstart => ?_, hbody⟩
    -- An end mark at the very start would have been taken by the first case.
    rw [List.cons_prefix_cons] at hstart
    obtain ⟨hc, hstart⟩ := hstart
    have hslash : ['/'] <+: body ++ ['*', '/'] := by
      cases body with
      | nil => simp at hstart
      | cons d body => simpa using hstart
    have : ['/'] <+: rest := hslash.trans (htake ▸ List.take_prefix m rest)
    obtain ⟨after, rfl⟩ := this
    exact hopen after hc.symm rfl
  | case3 => simp at h

/-- Where no end is found, there is none. -/
theorem not_infix_of_commentLength?_eq_none {rest : List Char} (h : commentLength? rest = none) :
    ¬ ['*', '/'] <:+: rest := by
  fun_induction commentLength? rest with
  | case1 rest => simp at h
  | case2 c rest hopen ih =>
    rw [List.infix_cons_iff, not_or]
    refine ⟨fun hstart => ?_, ih (by simpa using h)⟩
    obtain ⟨after, hafter⟩ := hstart
    simp only [List.cons_append, List.nil_append, List.cons.injEq] at hafter
    exact hopen after hafter.1.symm hafter.2.symm
  | case3 => simp

/-- A string that is found ends at its first quote. -/
theorem take_of_stringLength? {rest : List Char} {n : Nat} (h : stringLength? rest = some n) :
    ∃ body, rest.take n = body ++ ['"'] ∧ '"' ∉ body := by
  fun_induction stringLength? rest generalizing n with
  | case1 => simp at h
  | case2 rest =>
    obtain rfl : 1 = n := by simpa using h
    exact ⟨[], by simp, by simp⟩
  | case3 c rest hc ih =>
    obtain ⟨m, hm, rfl⟩ := Option.map_eq_some_iff.1 h
    obtain ⟨body, htake, hbody⟩ := ih hm
    exact ⟨c :: body, by simp [htake], by simp [hbody, Ne.symm hc]⟩

theorem not_mem_of_stringLength?_eq_none {rest : List Char} (h : stringLength? rest = none) :
    '"' ∉ rest := by
  fun_induction stringLength? rest with
  | case1 => simp
  | case2 rest => simp at h
  | case3 c rest hc ih =>
    have hrest := ih (by simpa using h)
    simp [hrest, Ne.symm hc]

theorem take_length_takeWhile (p : Char → Bool) (rest : List Char) :
    rest.take (rest.takeWhile p).length = rest.takeWhile p :=
  (List.prefix_iff_eq_take.1 (List.takeWhile_prefix p)).symm

theorem drop_length_takeWhile (p : Char → Bool) (rest : List Char) :
    rest.drop (rest.takeWhile p).length = rest.dropWhile p := by
  calc rest.drop (rest.takeWhile p).length
      = (rest.takeWhile p ++ rest.dropWhile p).drop (rest.takeWhile p).length := by
        rw [List.takeWhile_append_dropWhile]
    _ = rest.dropWhile p := List.drop_left

/-- A prefix of characters of one class is no longer than the longest one. -/
theorem length_le_takeWhile {p : Char → Bool} {text input : List Char} (h : text <+: input)
    (hp : ∀ c ∈ text, p c) : text.length ≤ (input.takeWhile p).length := by
  obtain ⟨rest, rfl⟩ := h
  rw [List.takeWhile_append_of_pos hp, List.length_append]
  exact Nat.le_add_right _ _

/-! ### Numbers -/

/-- The text of a number: its leading digits, and the fraction if there is one. -/
theorem take_numberLength {c : Char} (hc : c.isDigit) (rest : List Char) :
    c :: rest.take (numberLength rest)
      = (c :: rest).takeWhile Char.isDigit
        ++ ((c :: rest).dropWhile Char.isDigit).take
            (fractionLength ((c :: rest).dropWhile Char.isDigit)) := by
  have hsplit := List.takeWhile_append_dropWhile (p := Char.isDigit) (l := rest)
  rw [List.takeWhile_cons_of_pos hc, List.dropWhile_cons_of_pos hc, List.cons_append]
  congr 1
  calc rest.take (numberLength rest)
      = (rest.takeWhile Char.isDigit ++ rest.dropWhile Char.isDigit).take
          ((rest.takeWhile Char.isDigit).length
            + fractionLength (rest.dropWhile Char.isDigit)) := by rw [hsplit, numberLength]
    _ = _ := List.take_length_add_append _

/-- A number is its leading digits, with a fraction behind them if a digit follows the point. -/
theorem lexeme_number {c : Char} (hc : c.isDigit) (rest : List Char) :
    Lexeme .number (c :: rest.take (numberLength rest)) := by
  rw [take_numberLength hc]
  have hne : (c :: rest).takeWhile Char.isDigit ≠ [] := by simp [hc]
  have hd : ∀ d ∈ (c :: rest).takeWhile Char.isDigit, d.isDigit :=
    fun d hd => List.mem_takeWhile_imp hd
  generalize (c :: rest).dropWhile Char.isDigit = tail
  fun_cases fractionLength tail with
  | case1 d rest h =>
    have htake : ('.' :: d :: rest).take (2 + (rest.takeWhile Char.isDigit).length)
        = '.' :: d :: rest.takeWhile Char.isDigit := by
      rw [Nat.add_comm, List.take_succ_cons, List.take_succ_cons, take_length_takeWhile]
    rw [htake]
    refine .fraction hne hd (by simp) fun e he => ?_
    rcases List.mem_cons.1 he with rfl | he
    · exact h
    · exact List.mem_takeWhile_imp he
  | case2 d rest h => simpa using Lexeme.whole hne hd
  | case3 => simpa using Lexeme.whole hne hd

/-- A whole number in front of the input ends within its leading digits. -/
theorem length_whole_le {c : Char} {rest digits : List Char} (h : digits <+: c :: rest)
    (hc : c.isDigit) (hd : ∀ d ∈ digits, d.isDigit) :
    digits.length ≤ (c :: rest.take (numberLength rest)).length := by
  rw [take_numberLength hc, List.length_append]
  exact (length_le_takeWhile h hd).trans (Nat.le_add_right _ _)

/-- A number with a fraction in front of the input has the leading digits before its
point, and its places after it. -/
theorem length_fraction_le {c : Char} {rest digits places : List Char}
    (h : digits ++ '.' :: places <+: c :: rest) (hc : c.isDigit)
    (hd : ∀ d ∈ digits, d.isDigit) (pne : places ≠ []) (hp : ∀ d ∈ places, d.isDigit) :
    (digits ++ '.' :: places).length ≤ (c :: rest.take (numberLength rest)).length := by
  obtain ⟨after, hafter⟩ := h
  obtain ⟨d, places, rfl⟩ := List.exists_cons_of_ne_nil pne
  have hpoint : ¬ ('.' : Char).isDigit := by decide
  have hd' : d.isDigit := hp d (by simp)
  have hplaces : ∀ e ∈ places, e.isDigit := fun e he => hp e (by simp [he])
  rw [List.append_assoc, List.cons_append] at hafter
  have hdrop : (c :: rest).dropWhile Char.isDigit = '.' :: (d :: places ++ after) := by
    rw [← hafter, List.dropWhile_append_of_pos hd, List.dropWhile_cons_of_neg hpoint]
  have htake : (c :: rest).takeWhile Char.isDigit = digits := by
    rw [← hafter, List.takeWhile_append_of_pos hd, List.takeWhile_cons_of_neg hpoint,
      List.append_nil]
  have hlen : places.length ≤ ((places ++ after).takeWhile Char.isDigit).length :=
    length_le_takeWhile (List.prefix_append _ _) hplaces
  have hle := fractionLength_le ((c :: rest).dropWhile Char.isDigit)
  rw [take_numberLength hc, htake, List.length_append, List.length_append, List.length_take,
    Nat.min_eq_left hle, hdrop]
  simp only [List.cons_append, fractionLength, hd', if_true, List.length_cons]
  omega

/-! ### Families -/

/-- Characters with which a mark can start. -/
def startsMark (c : Char) : Bool := !c.isDigit && !isWordStart c && c ≠ '"' && !isBlank c

theorem isWordStart_of_isWord {c : Char} {tail : List Char} (h : IsWord (c :: tail)) :
    isWordStart c ∧ ∀ d ∈ tail, isWordPart d := by
  obtain ⟨first, rest, heq, hfirst, hrest⟩ := h
  obtain ⟨rfl, rfl⟩ := List.cons.inj heq
  exact ⟨by simpa [isWordStart] using hfirst, fun d hd => by simpa [isWordPart] using hrest d hd⟩

/-- No mark starts like a number, a word or a string. -/
theorem startsMark_of_mark? {kind : TokenKind} {spelling : String} {c : Char} {tail : List Char}
    (h : kind.mark? = some spelling) (hs : spelling.toList = c :: tail) : startsMark c := by
  have table : ∀ entry ∈ TokenKind.marks, entry.1.toList.head?.all startsMark := by decide
  have := table _ (TokenKind.mem_marks_of_mark? h)
  simpa [hs] using this

theorem mark_ne_nil {kind : TokenKind} {spelling : String} (h : kind.mark? = some spelling) :
    spelling.toList ≠ [] := by
  have table : ∀ entry ∈ TokenKind.marks, entry.1.toList ≠ [] := by decide
  exact table _ (TokenKind.mem_marks_of_mark? h)

/-- The first character of a lexeme tells what the lexeme is: a number, a word, a
string or a mark. -/
theorem Lexeme.family {kind : TokenKind} {text : List Char} (h : Lexeme kind text) :
    ∃ c tail, text = c :: tail ∧
      ((c.isDigit ∧ kind = .number) ∨ (isWordStart c ∧ ∀ d ∈ tail, isWordPart d) ∨
        (c = '"' ∧ ∃ body, tail = body ++ ['"'] ∧ '"' ∉ body) ∨
        (startsMark c ∧ kind.mark? = some (String.ofList text))) := by
  cases h with
  | @mark _ spelling h =>
    obtain ⟨c, tail, hs⟩ := List.exists_cons_of_ne_nil (mark_ne_nil h)
    exact ⟨c, tail, hs, .inr (.inr (.inr ⟨startsMark_of_mark? h hs, by simpa using h⟩))⟩
  | whole hne hd =>
    obtain ⟨c, tail, rfl⟩ := List.exists_cons_of_ne_nil hne
    exact ⟨c, tail, rfl, .inl ⟨hd c (by simp), rfl⟩⟩
  | fraction hne hd pne hp =>
    obtain ⟨c, tail, rfl⟩ := List.exists_cons_of_ne_nil hne
    exact ⟨c, _, rfl, .inl ⟨hd c (by simp), rfl⟩⟩
  | @string body h => exact ⟨'"', _, rfl, .inr (.inr (.inl ⟨rfl, body, rfl, h⟩))⟩
  | reserved hw h =>
    obtain ⟨c, tail, rfl, -⟩ := id hw
    exact ⟨c, tail, rfl, .inr (.inl (isWordStart_of_isWord hw))⟩
  | name hw h =>
    obtain ⟨c, tail, rfl, -⟩ := id hw
    exact ⟨c, tail, rfl, .inr (.inl (isWordStart_of_isWord hw))⟩

theorem not_isWordStart_of_isDigit {c : Char} (h : c.isDigit) : isWordStart c = false := by
  have hd : 48 ≤ c.val.toNat ∧ c.val.toNat ≤ 57 := by
    simpa [Char.isDigit, UInt32.le_iff_toNat_le] using h
  have hc : c ≠ '_' := by rintro rfl; exact absurd hd (by decide)
  have ha : c.isAlpha = false := by
    show (decide ('A'.val ≤ c.val ∧ c.val ≤ 'Z'.val)
      || (decide ('a'.val ≤ c.val) && decide (c.val ≤ 'z'.val))) = false
    simp only [Bool.or_eq_false_iff, Bool.and_eq_false_iff, decide_eq_false_iff_not,
      UInt32.le_iff_toNat_le]
    have : 'A'.val.toNat = 65 := rfl
    have : 'a'.val.toNat = 97 := rfl
    omega
  simp [isWordStart, ha, hc]

theorem isWordPart_of_isWordStart {c : Char} (h : isWordStart c) : isWordPart c := by
  simp only [isWordStart, isWordPart, Char.isAlphanum, Bool.or_eq_true] at h ⊢
  exact h.imp_left .inl

theorem isDigit_eq_false_of_isWordStart {c : Char} (h : isWordStart c) : c.isDigit = false := by
  cases hd : c.isDigit with
  | true => exact absurd h (by simp [not_isWordStart_of_isDigit hd])
  | false => rfl

theorem startsMark_iff {c : Char} :
    startsMark c ↔ ¬ c.isDigit ∧ ¬ isWordStart c ∧ c ≠ '"' ∧ ¬ isBlank c := by
  simp [startsMark, and_assoc]

/-! ### Maximality -/

/-- The table of marks has longer ones first, so that the first one that fits is the longest. -/
theorem length_mark_le {text : List Char} {spelling : String} {kind : TokenKind}
    (h : leadingMark? text = some (spelling, kind)) {other : String} {kind' : TokenKind}
    (hm : (other, kind') ∈ TokenKind.marks) (hp : other.toList <+: text) :
    other.length ≤ spelling.length := by
  obtain ⟨-, before, after, hsplit, hbefore⟩ := List.find?_eq_some_iff_append.1 h
  have hsorted := TokenKind.marks_longest_first
  rw [hsplit] at hsorted hm
  -- An entry in front of the first that fits does not fit, and one behind it is no longer.
  rcases List.mem_append.1 hm with hm | hm
  · have := hbefore _ hm
    simp [List.isPrefixOf_iff_prefix.2 hp] at this
  · rcases List.mem_cons.1 hm with heq | hm
    · exact Nat.le_of_eq (congrArg (fun entry => entry.1.length) heq)
    · have := (List.pairwise_append.1 hsorted).2.1
      exact (List.pairwise_cons.1 this).1 _ hm

/-- The longest number: its digits and its places are as many as there are in a row. -/
theorem longest_number {c : Char} (hc : c.isDigit) (rest : List Char) :
    Longest (c :: rest.take (numberLength rest)) (rest.drop (numberLength rest)) := by
  intro kind other hl hp
  rw [List.cons_append, List.take_append_drop] at hp
  obtain ⟨d, tail, rfl, hfamily⟩ := hl.family
  obtain ⟨rfl, -⟩ := List.cons_prefix_cons.1 hp
  -- A lexeme that starts with a digit is a number.
  obtain ⟨-, rfl⟩ : d.isDigit ∧ kind = .number := by
    rcases hfamily with h | h | h | h
    · exact h
    · simp [not_isWordStart_of_isDigit hc] at h
    · rw [h.1] at hc; exact absurd hc (by decide)
    · exact absurd hc (startsMark_iff.1 h.1).1
  generalize hother : d :: tail = other at hl hp
  cases hl with
  | mark h => exact absurd h (by simp [TokenKind.mark?])
  | whole hne hd => exact length_whole_le hp hc hd
  | fraction hne hd pne hp' => exact length_fraction_le hp hc hd pne hp'
  | reserved hw h => exact absurd h (by simp [TokenKind.word?])

/-- A word ends where its characters do. -/
theorem longest_word {c : Char} (hc : isWordStart c) (rest : List Char) :
    Longest (c :: rest.take (wordLength rest)) (rest.drop (wordLength rest)) := by
  intro kind other hl hp
  rw [List.cons_append, List.take_append_drop] at hp
  obtain ⟨d, tail, rfl, hfamily⟩ := hl.family
  obtain ⟨rfl, hprefix⟩ := List.cons_prefix_cons.1 hp
  have htail : ∀ e ∈ tail, isWordPart e := by
    rcases hfamily with h | h | h | h
    · simp [not_isWordStart_of_isDigit h.1] at hc
    · exact h.2
    · rw [h.1] at hc; exact absurd hc (by decide)
    · exact absurd hc (startsMark_iff.1 h.1).2.1
  rw [wordLength, take_length_takeWhile]
  exact Nat.succ_le_succ (length_le_takeWhile hprefix htail)

/-- A string ends at its first quote, so no other one starts at the same place. -/
theorem longest_string {body : List Char} (h : '"' ∉ body) (rest : List Char) :
    Longest ('"' :: (body ++ ['"'])) rest := by
  intro kind other hl hp
  rw [List.cons_append] at hp
  obtain ⟨d, tail, rfl, hfamily⟩ := hl.family
  obtain ⟨rfl, hprefix⟩ := List.cons_prefix_cons.1 hp
  obtain ⟨inner, rfl, hinner⟩ : ∃ inner, tail = inner ++ ['"'] ∧ '"' ∉ inner := by
    rcases hfamily with h | h | h | h
    · exact absurd h.1 (by decide)
    · exact absurd h.1 (by decide)
    · exact h.2
    · exact absurd h.1 (by decide)
  -- Both bodies are what stands before the first quote.
  obtain ⟨after, hafter⟩ := hprefix
  have hquote : ∀ {l : List Char}, '"' ∉ l → ∀ c ∈ l, decide (c ≠ '"') = true :=
    fun hl c hc => by simpa using fun heq : c = '"' => hl (heq ▸ hc)
  have hbody := congrArg (List.takeWhile (· ≠ '"')) hafter
  simp only [List.append_assoc, List.cons_append, List.nil_append] at hbody
  rw [List.takeWhile_append_of_pos (hquote hinner), List.takeWhile_append_of_pos (hquote h),
    List.takeWhile_cons_of_neg (by simp), List.takeWhile_cons_of_neg (by simp)] at hbody
  simp at hbody
  simp [hbody]

/-- Of a character that starts a mark all lexemes are marks, and the table has given the longest.
-/
theorem longest_mark {c : Char} {rest : List Char} {spelling : String} {kind : TokenKind}
    (hc : startsMark c) (h : leadingMark? (c :: rest) = some (spelling, kind))
    {after : List Char} (hafter : spelling.toList ++ after = c :: rest) :
    Longest spelling.toList after := by
  intro kind' other hl hp
  rw [hafter] at hp
  obtain ⟨d, tail, rfl, hfamily⟩ := hl.family
  obtain ⟨rfl, -⟩ := List.cons_prefix_cons.1 hp
  obtain ⟨hdigit, hword, hquote, -⟩ := startsMark_iff.1 hc
  have hmark : kind'.mark? = some (String.ofList (d :: tail)) := by
    rcases hfamily with h | h | h | h
    · exact absurd h.1 hdigit
    · exact absurd h.1 hword
    · exact absurd h.1 hquote
    · exact h.2
  have := length_mark_le h (TokenKind.mem_marks_of_mark? hmark) (by simpa using hp)
  rwa [String.length_ofList, ← String.length_toList] at this

/-! ### What `munch` finds -/

/-- What a piece is, in front of the rest of the input. -/
def Found (text rest : List Char) : Shape → Prop
  | .blank => ∀ more after, rest = more ++ after → Trivia more after → Trivia (text ++ more) after
  | .token kind => Lexeme kind text ∧ Longest text rest ∧ ¬ OpensComment (text ++ rest)
  | .fault fault => Unreadable fault.message text rest

/-- A word is reserved if the table has it, and else a name. -/
theorem lexeme_word {c : Char} (hc : isWordStart c) (rest : List Char) :
    Lexeme (TokenKind.ofWord (String.ofList (c :: rest.take (wordLength rest))))
      (c :: rest.take (wordLength rest)) := by
  have hword : IsWord (c :: rest.take (wordLength rest)) := by
    refine ⟨c, _, rfl, by simpa [isWordStart] using hc, fun d hd => ?_⟩
    rw [wordLength, take_length_takeWhile] at hd
    simpa [isWordPart] using List.mem_takeWhile_imp hd
  generalize c :: rest.take (wordLength rest) = text at hword
  unfold TokenKind.ofWord
  cases hlookup : TokenKind.keywords.lookup (String.ofList text) with
  | some kind =>
    obtain ⟨before, after, hsplit, -⟩ := List.lookup_eq_some_iff.1 hlookup
    exact .reserved hword (TokenKind.word?_of_mem (by rw [hsplit]; simp))
  | none =>
    refine .name hword fun kind hkind => ?_
    have := List.lookup_eq_none_iff.1 hlookup _ (TokenKind.mem_keywords_of_word? hkind)
    simp at this

/-- What a word starts with decides on the piece. -/
theorem munch_of_isWordStart {c : Char} (hc : isWordStart c) (rest : List Char) :
    munch c rest = (.token (TokenKind.ofWord (String.ofList (c :: rest.take (wordLength rest)))),
      wordLength rest) := by
  have hne : ∀ d, isWordStart d = false → c ≠ d := by
    rintro d hd rfl
    cases hc.symm.trans hd
  have hblank : ¬ isBlank c = true := by
    simp [isBlank, hne ' ' (by decide), hne '\t' (by decide), hne '\r' (by decide),
      hne '\n' (by decide)]
  have hslash : c ≠ '/' := hne '/' (by decide)
  have hdigit : ¬ c.isDigit = true := by simp [isDigit_eq_false_of_isWordStart hc]
  rw [munch, if_neg hblank, if_neg fun h => hslash h.1, if_neg fun h => hslash h.1,
    if_neg (hne '"' (by decide)), if_neg hdigit, if_pos hc]

/-- A character that starts no mark here, and is neither `&` nor `|`, starts none at
all: every other mark starts with a character that is a mark itself. -/
theorem not_mark?_of_leadingMark?_eq_none {c : Char} {rest : List Char}
    (h : leadingMark? (c :: rest) = none) (hamp : c ≠ '&') (hbar : c ≠ '|')
    {kind : TokenKind} {text : List Char} : kind.mark? ≠ some (String.ofList (c :: text)) := by
  intro hmark
  have table : ∀ entry ∈ TokenKind.marks, entry.1.toList.head?.all fun c =>
      c = '&' ∨ c = '|' ∨ TokenKind.marks.any fun e => e.1.toList = [c] := by decide
  have hsingle := table _ (TokenKind.mem_marks_of_mark? hmark)
  simp only [String.toList_ofList, List.head?_cons, Option.all_some, decide_eq_true_eq, hamp,
    hbar, false_or, List.any_eq_true] at hsingle
  obtain ⟨entry, hentry, hspelling⟩ := hsingle
  have := List.find?_eq_none.1 h entry hentry
  simp [hspelling] at this

/-- The last family: a mark from the table, half of a mark that is spelled with two characters, or
a character with which nothing starts. -/
theorem found_munchMark {c : Char} {rest : List Char} (hc : startsMark c)
    (hcomment : ¬ OpensComment (c :: rest)) :
    Found (c :: rest.take (munchMark c rest).2) (rest.drop (munchMark c rest).2)
      (munchMark c rest).1 := by
  unfold munchMark
  -- Either the table has the longest mark, or what is left is `&`, `|` or no token at all.
  split
  · rename_i spelling kind h
    have hmark := TokenKind.mark?_of_mem (List.mem_of_find?_eq_some h)
    have hprefix : spelling.toList <+: c :: rest := by
      rw [leadingMark?] at h
      have hfound := List.find?_some h
      exact List.isPrefixOf_iff_prefix.1 hfound
    obtain ⟨after, hafter⟩ := hprefix
    obtain ⟨d, tail, hs⟩ := List.exists_cons_of_ne_nil (mark_ne_nil hmark)
    have hlen : spelling.length - 1 = tail.length := by
      rw [← String.length_toList, hs]; rfl
    have hsplit : c :: rest.take (spelling.length - 1) = spelling.toList
        ∧ rest.drop (spelling.length - 1) = after := by
      rw [hs, List.cons_append, List.cons.injEq] at hafter
      rw [hlen, hs, ← hafter.1, ← hafter.2]
      simp
    refine ⟨?_, ?_, ?_⟩
    · rw [hsplit.1]; exact .mark hmark
    · rw [hsplit.1, hsplit.2]; exact longest_mark hc h hafter
    · rwa [List.cons_append, List.take_append_drop]
  · rename_i h
    have hnot : ∀ entry ∈ TokenKind.marks, ¬ entry.1.toList <+: c :: rest := fun entry hentry hp =>
      List.find?_eq_none.1 h entry hentry (List.isPrefixOf_iff_prefix.2 hp)
    split
    · rename_i hamp
      obtain rfl := hamp
      refine .ampersand fun hhead => hnot ("&&", .andAnd) (by decide) ?_
      obtain ⟨tail, rfl⟩ := List.head?_eq_some_iff.1 hhead
      exact ⟨tail, rfl⟩
    split
    · rename_i hbar
      obtain rfl := hbar
      refine .bar (fun hhead => hnot ("||", .orOr) (by decide) ?_)
        fun hhead => hnot ("|>", .orGreater) (by decide) ?_
      · obtain ⟨tail, rfl⟩ := List.head?_eq_some_iff.1 hhead
        exact ⟨tail, rfl⟩
      · obtain ⟨tail, rfl⟩ := List.head?_eq_some_iff.1 hhead
        exact ⟨tail, rfl⟩
    · rename_i hamp hbar
      obtain ⟨hdigit, hword, hquote, hblank⟩ := startsMark_iff.1 hc
      refine .stray (by simpa [isBlank, and_assoc] using hblank) fun kind text hl => ?_
      obtain ⟨d, tail, heq, hfamily⟩ := hl.family
      obtain ⟨rfl, rfl⟩ := List.cons.inj heq
      rcases hfamily with h' | h' | h' | h'
      · exact hdigit h'.1
      · exact hword h'.1
      · exact hquote h'.1
      · exact not_mark?_of_leadingMark?_eq_none h hamp hbar h'.2

/-- A line comment is trivia, whatever trivia follows its line break. -/
theorem found_line (rest : List Char) :
    Found ('/' :: ('/' :: rest).take (lineLength ('/' :: rest)))
      (('/' :: rest).drop (lineLength ('/' :: rest))) .blank := by
  intro more after hafter htrivia
  have hlen : lineLength ('/' :: rest) = (rest.takeWhile (· ≠ '\n')).length + 1 := by
    simp [lineLength]
  rw [hlen, List.drop_succ_cons] at hafter
  rw [hlen, List.take_succ_cons, take_length_takeWhile]
  refine .line (fun hmem => ?_) (fun c hc => ?_) htrivia
  · simpa using List.mem_takeWhile_imp hmem
  · have hdrop : rest.dropWhile (· ≠ '\n') = more ++ after := by
      rw [← hafter, drop_length_takeWhile]
    have := List.head?_dropWhile_not (fun c : Char => decide (c ≠ '\n')) rest
    rw [hdrop] at this
    simp only [Option.mem_def] at hc
    simpa [hc] using this

theorem found_blank {c : Char} (hc : isBlank c) (rest : List Char) : Found [c] rest .blank := by
  intro more after _ htrivia
  exact .blank (by simpa [isBlank, or_assoc] using hc) htrivia

theorem found_comment {rest : List Char} {n : Nat} (h : commentLength? rest = some n) :
    Found ('/' :: ('*' :: rest).take (n + 1)) (('*' :: rest).drop (n + 1)) .blank := by
  intro more after _ htrivia
  obtain ⟨body, htake, hbody⟩ := take_of_commentLength? h
  rw [List.take_succ_cons, htake]
  simpa using Trivia.block hbody htrivia

/-- The piece at the start of an input is trivia, a longest lexeme, or unreadable. -/
theorem munch_spec (c : Char) (rest : List Char) :
    Found (c :: rest.take (munch c rest).2) (rest.drop (munch c rest).2) (munch c rest).1 := by
  have opens_iff : OpensComment (c :: rest) ↔
      (c = '/' ∧ rest.head? = some '/') ∨ (c = '/' ∧ rest.head? = some '*') := by
    cases rest with
    | nil => simp [OpensComment, List.cons_prefix_cons]
    | cons d tail =>
      simp only [OpensComment, List.cons_prefix_cons, List.nil_prefix, and_true, List.head?_cons,
        Option.some.injEq, eq_comm]
  -- The tests of the scanner in its order. Each one that fails is kept, as later families exclude
  -- earlier ones.
  unfold munch
  split
  · rename_i hblank
    simpa using found_blank hblank rest
  rename_i hblank
  split
  · rename_i hline
    obtain ⟨rfl, hslash⟩ := hline
    obtain ⟨tail, rfl⟩ := List.head?_eq_some_iff.1 hslash
    exact found_line tail
  rename_i hline
  split
  · rename_i hcomment
    obtain ⟨rfl, hstar⟩ := hcomment
    obtain ⟨tail, rfl⟩ := List.head?_eq_some_iff.1 hstar
    split
    · rename_i n h; exact found_comment h
    · rename_i h
      simp only [List.tail_cons] at h
      simpa [Found, LexicalFault.message]
        using Unreadable.comment (not_infix_of_commentLength?_eq_none h)
  rename_i hcomment
  have hopens : ¬ OpensComment (c :: rest) := by
    rw [opens_iff]; exact not_or.2 ⟨hline, hcomment⟩
  split
  · rename_i hquote
    obtain rfl := hquote
    split
    · rename_i n h
      obtain ⟨body, htake, hbody⟩ := take_of_stringLength? h
      refine ⟨?_, ?_, ?_⟩
      · rw [htake]; exact .string hbody
      · rw [htake]; exact longest_string hbody _
      · rwa [List.cons_append, List.take_append_drop]
    · rename_i h
      simpa [Found, LexicalFault.message]
        using Unreadable.string (not_mem_of_stringLength?_eq_none h)
  rename_i hquote
  split
  · rename_i hdigit
    refine ⟨lexeme_number hdigit rest, longest_number hdigit rest, ?_⟩
    rwa [List.cons_append, List.take_append_drop]
  rename_i hdigit
  split
  · rename_i hword
    refine ⟨lexeme_word hword rest, longest_word hword rest, ?_⟩
    rwa [List.cons_append, List.take_append_drop]
  · rename_i hword
    exact found_munchMark (startsMark_iff.2 ⟨hdigit, hword, hquote, hblank⟩) hopens

end OnePass
