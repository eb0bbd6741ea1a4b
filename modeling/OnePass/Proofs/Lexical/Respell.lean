import Mathlib.Data.List.Forall2
import OnePass.Proofs.Lexical.Join
import OnePass.Proofs.Lexical.Literal

/-!
# OnePass.Proofs.Lexical.Respell

A source in which names are spelled otherwise. Layout and all other tokens stay as they are.
Behind its end a piece is looked at for a few characters at most, and where one of them
starts a word any other word would do (`SameToWord.munch_append`). So every piece ends where
it did, and the tokens are those of the source under their new texts (`ofSource_respelled`).
-/

namespace OnePass

/-! ### Words -/

/-- A name in front of what is no part of it is a piece. -/
theorem munch_name {c : Char} {tail b : List Char} (hc : isWordStart c)
    (htail : ∀ d ∈ tail, isWordPart d)
    (hword : TokenKind.ofWord (String.ofList (c :: tail)) = .identifier)
    (hb : b.takeWhile isWordPart = []) :
    munch c (tail ++ b) = (.token .identifier, tail.length) := by
  have hreach : wordLength (tail ++ b) = tail.length := by
    rw [wordLength, List.takeWhile_append_of_pos htail, hb, List.append_nil]
  rw [munch_of_isWordStart hc, hreach, List.take_left, hword]

/-! ### Texts that are the same up to a word -/

/-- Texts that are the same up to a place where a word starts in both. -/
inductive SameToWord : List Char → List Char → Prop where
  | nil : SameToWord [] []
  | cons (c : Char) {a b} (h : SameToWord a b) : SameToWord (c :: a) (c :: b)
  | word {c d a b} (hc : isWordStart c) (hd : isWordStart d) : SameToWord (c :: a) (d :: b)

namespace SameToWord

variable {a b : List Char}

theorem append (text : List Char) (h : SameToWord a b) : SameToWord (text ++ a) (text ++ b) := by
  induction text with
  | nil => exact h
  | cons c text ih => exact .cons c ih

theorem head?_eq_iff (h : SameToWord a b) {c : Char} (hc : isWordStart c = false) :
    a.head? = some c ↔ b.head? = some c := by
  cases h with
  | nil => rfl
  | cons => rfl
  | word ha hb =>
    constructor
    · rintro ⟨⟩
      rw [hc] at ha
      cases ha
    · rintro ⟨⟩
      rw [hc] at hb
      cases hb

/-- Characters with which no word starts are the same in both. -/
theorem takeWhile_eq {p : Char → Bool} (hp : ∀ c, isWordStart c → p c = false)
    (h : SameToWord a b) :
    a.takeWhile p = b.takeWhile p ∧ SameToWord (a.dropWhile p) (b.dropWhile p) := by
  induction h with
  | nil => exact ⟨rfl, .nil⟩
  | @cons c a b h ih =>
    cases hc : p c with
    | true => simpa [List.takeWhile_cons, List.dropWhile_cons, hc] using ih
    | false => simpa [List.takeWhile_cons, List.dropWhile_cons, hc] using h.cons c
  | word hc hd =>
    simpa [List.takeWhile_cons, List.dropWhile_cons, hp _ hc, hp _ hd] using .word hc hd

/-- What starts one of the texts and has no word in it starts the other one. -/
theorem prefix_iff (h : SameToWord a b) {mark : List Char}
    (hmark : ∀ c ∈ mark, isWordStart c = false) : mark <+: a ↔ mark <+: b := by
  induction h generalizing mark with
  | nil => rfl
  | cons c h ih =>
    cases mark with
    | nil => simp
    | cons m mark =>
      rw [List.cons_prefix_cons, List.cons_prefix_cons,
        ih fun c hc => hmark c (List.mem_cons_of_mem m hc)]
  | word hc hd =>
    cases mark with
    | nil => simp
    | cons m mark =>
      have hm := hmark m List.mem_cons_self
      constructor
      · intro hprefix
        obtain ⟨rfl, -⟩ := List.cons_prefix_cons.1 hprefix
        rw [hm] at hc
        cases hc
      · intro hprefix
        obtain ⟨rfl, -⟩ := List.cons_prefix_cons.1 hprefix
        rw [hm] at hd
        cases hd

/-- If a stretch of a class that words belong to ends in front of one of the texts, then it
does so in front of the other one. -/
theorem takeWhile_append {p : Char → Bool} (hp : ∀ c, isWordStart c → p c)
    (h : SameToWord a b) (text : List Char)
    (hlength : ((text ++ a).takeWhile p).length = text.length) :
    (text ++ b).takeWhile p = text := by
  induction text with
  | nil =>
    have hnil : a.takeWhile p = [] := List.eq_nil_of_length_eq_zero hlength
    cases h with
    | nil => rfl
    | cons c h =>
      cases hc : p c with
      | true => simp [hc] at hnil
      | false => simp [hc]
    | word hc hd => simp [hp _ hc] at hnil
  | cons c text ih =>
    cases hc : p c with
    | true =>
      rw [List.cons_append, List.takeWhile_cons_of_pos hc] at hlength ⊢
      rw [ih (Nat.succ.inj hlength)]
    | false => simp [hc] at hlength

end SameToWord

/-! ### How far a piece reaches -/

theorem commentLength?_take {rest : List Char} {n : Nat} (h : commentLength? rest = some n) :
    commentLength? (rest.take n) = some n := by
  fun_induction commentLength? rest generalizing n with
  | case1 rest =>
    obtain rfl := Option.some.inj h
    rfl
  | case2 c rest hnot ih =>
    obtain ⟨m, hm, rfl⟩ := Option.map_eq_some_iff.1 h
    rw [List.take_succ_cons, commentLength?, ih hm]
    · rfl
    · intro body hc hbody
      obtain ⟨tail, htail⟩ : ['/'] <+: rest :=
        List.IsPrefix.trans ⟨body, hbody.symm⟩ (List.take_prefix m rest)
      exact hnot tail hc htail.symm
  | case3 => cases h

theorem stringLength?_take {rest : List Char} {n : Nat} (h : stringLength? rest = some n) :
    stringLength? (rest.take n) = some n := by
  fun_induction stringLength? rest generalizing n with
  | case1 => cases h
  | case2 rest =>
    obtain rfl := Option.some.inj h
    rfl
  | case3 c rest hc ih =>
    obtain ⟨m, hm, rfl⟩ := Option.map_eq_some_iff.1 h
    rw [List.take_succ_cons, stringLength?, if_neg hc, ih hm]
    rfl

/-- What stands behind the end of a comment or of a string does not count. -/
theorem commentLength?_swap {text a : List Char}
    (h : commentLength? (text ++ a) = some text.length) (b : List Char) :
    commentLength? (text ++ b) = some text.length := by
  have htext := commentLength?_take h
  rw [List.take_left] at htext
  exact commentLength?_append htext b

@[inherit_doc commentLength?_swap]
theorem stringLength?_swap {text a : List Char}
    (h : stringLength? (text ++ a) = some text.length) (b : List Char) :
    stringLength? (text ++ b) = some text.length := by
  have htext := stringLength?_take h
  rw [List.take_left] at htext
  exact stringLength?_append htext b

namespace SameToWord

variable {a b : List Char}

theorem fractionLength_eq (h : SameToWord a b) : fractionLength a = fractionLength b := by
  have hpoint : ∀ c, isWordStart c → c ≠ '.' := by
    rintro c hc rfl
    cases hc
  cases h with
  | nil => rfl
  | @cons c a b h =>
    by_cases hc : c = '.'
    · subst hc
      cases h with
      | nil => rfl
      | cons d h =>
        simp only [fractionLength, (h.takeWhile_eq fun _ => isDigit_eq_false_of_isWordStart).1]
      | word hc hd => simp [fractionLength, isDigit_eq_false_of_isWordStart hc,
        isDigit_eq_false_of_isWordStart hd]
    · simp [fractionLength, hc]
  | word hc hd => simp [fractionLength, hpoint _ hc, hpoint _ hd]

theorem numberLength_eq (h : SameToWord a b) : numberLength a = numberLength b := by
  obtain ⟨htake, hdrop⟩ := h.takeWhile_eq fun _ => isDigit_eq_false_of_isWordStart
  rw [numberLength, numberLength, htake, hdrop.fractionLength_eq]

theorem munchMark_eq (c : Char) (h : SameToWord a b) : munchMark c a = munchMark c b := by
  have hmarks : ∀ entry ∈ TokenKind.marks, entry.1.toList.all (fun c => !isWordStart c) := by
    decide
  have hmark : leadingMark? (c :: a) = leadingMark? (c :: b) := by
    refine List.find?_congr fun entry hentry => ?_
    rw [Bool.eq_iff_iff, List.isPrefixOf_iff_prefix, List.isPrefixOf_iff_prefix]
    refine (h.cons c).prefix_iff fun d hd => ?_
    simpa using List.all_eq_true.1 (hmarks entry hentry) d hd
  rw [munchMark, munchMark, hmark]

theorem lineLength_append (h : SameToWord a b) {text : List Char}
    (hlength : lineLength (text ++ a) = text.length) : lineLength (text ++ b) = text.length := by
  have hbreak : ∀ c, isWordStart c → decide (c ≠ '\n') = true := by
    intro c hc
    refine decide_eq_true ?_
    rintro rfl
    cases hc
  rw [lineLength, h.takeWhile_append hbreak text hlength]

theorem wordLength_append (h : SameToWord a b) {text : List Char}
    (hlength : wordLength (text ++ a) = text.length) : wordLength (text ++ b) = text.length := by
  rw [wordLength, h.takeWhile_append (fun _ => isWordPart_of_isWordStart) text hlength]

/-- What follows a piece may change from where a word starts on. -/
theorem munch_append (h : SameToWord a b) {c : Char} {text : List Char}
    (hlength : (munch c (text ++ a)).2 = text.length) :
    munch c (text ++ b) = munch c (text ++ a) := by
  by_cases ha : a = []
  · subst ha
    cases h
    rfl
  -- A piece that reaches to the end of the source would have nothing behind it.
  have hmore : (text ++ a).length ≠ text.length := by simpa using ha
  have hall := h.append text
  unfold munch at hlength ⊢
  simp only [← hall.head?_eq_iff (show isWordStart '/' = false by decide),
    ← hall.head?_eq_iff (show isWordStart '*' = false by decide)]
  by_cases hblank : isBlank c = true
  · rw [if_pos hblank, if_pos hblank]
  rw [if_neg hblank] at hlength ⊢
  rw [if_neg hblank]
  by_cases hline : c = '/' ∧ (text ++ a).head? = some '/'
  · rw [if_pos hline] at hlength ⊢
    rw [if_pos hline]
    have hlength : lineLength (text ++ a) = text.length := hlength
    rw [h.lineLength_append hlength, hlength]
  rw [if_neg hline] at hlength ⊢
  rw [if_neg hline]
  by_cases hcomment : c = '/' ∧ (text ++ a).head? = some '*'
  · rw [if_pos hcomment] at hlength ⊢
    rw [if_pos hcomment]
    cases text with
    | nil =>
      -- The star belongs to the comment.
      cases hnone : commentLength? ([] ++ a).tail with
      | none => rw [hnone] at hlength; exact absurd hlength hmore
      | some n => rw [hnone] at hlength; cases hlength
    | cons star text =>
      rw [List.cons_append, List.tail_cons] at hlength ⊢
      rw [List.cons_append, List.tail_cons]
      cases hn : commentLength? (text ++ a) with
      | none => rw [hn] at hlength; exact absurd hlength hmore
      | some n =>
        rw [hn] at hlength
        obtain rfl : n = text.length := Nat.succ.inj hlength
        rw [commentLength?_swap hn]
  rw [if_neg hcomment] at hlength ⊢
  rw [if_neg hcomment]
  by_cases hquote : c = '"'
  · rw [if_pos hquote] at hlength ⊢
    rw [if_pos hquote]
    cases hn : stringLength? (text ++ a) with
    | none => rw [hn] at hlength; exact absurd hlength hmore
    | some n =>
      rw [hn] at hlength
      obtain rfl : n = text.length := hlength
      rw [stringLength?_swap hn]
  rw [if_neg hquote] at hlength ⊢
  rw [if_neg hquote]
  by_cases hdigit : c.isDigit = true
  · rw [if_pos hdigit, if_pos hdigit, hall.numberLength_eq]
  rw [if_neg hdigit] at hlength ⊢
  rw [if_neg hdigit]
  by_cases hword : isWordStart c = true
  · rw [if_pos hword] at hlength ⊢
    rw [if_pos hword]
    have hlength : wordLength (text ++ a) = text.length := hlength
    simp only [h.wordLength_append hlength, hlength, List.take_left]
  · rw [if_neg hword, if_neg hword, hall.munchMark_eq]

end SameToWord

/-! ### Pieces -/

/-- What a piece may be when names are spelled otherwise: itself, or `name` if it is a
name. -/
inductive Piece.Respelled (name : List Char) (p : Piece) : Piece → Prop where
  | same : Respelled name p p
  | renamed (hshape : p.shape = .token .identifier) (htext : Lexeme .identifier p.text) :
      Respelled name p ⟨.token .identifier, name⟩

section Pieces

variable {name : List Char} (hname : Lexeme .identifier name)

include hname

theorem sameToWord_of_respelled {ps qs : List Piece}
    (h : List.Forall₂ (Piece.Respelled name) ps qs) :
    SameToWord (ps.flatMap Piece.text) (qs.flatMap Piece.text) := by
  induction h with
  | nil => exact .nil
  | @cons p q ps qs hp hrest ih =>
    rw [List.flatMap_cons, List.flatMap_cons]
    cases hp with
    | same => exact ih.append p.text
    | renamed hshape htext =>
      obtain ⟨c, tail, hc, hstart, -⟩ := htext.isName
      obtain ⟨c', tail', rfl, hstart', -⟩ := hname.isName
      rw [hc]
      exact .word hstart hstart'

/-- The pieces of the text of pieces with names that are spelled otherwise are these. -/
theorem pieces_of_respelled (source : List Char) :
    ∀ qs, List.Forall₂ (Piece.Respelled name) (pieces source) qs →
      pieces (qs.flatMap Piece.text) = qs := by
  fun_induction pieces source with
  | case1 =>
    intro qs h
    cases h
    rw [List.flatMap_nil, pieces]
  | case2 c rest found ih =>
    intro qs h
    cases h with | @cons _ q _ qs hq hrest =>
    have hsame := sameToWord_of_respelled hname hrest
    rw [flatten_pieces] at hsame
    have hsplit : rest.take found.2 ++ rest.drop found.2 = rest := List.take_append_drop ..
    have hlength : (rest.take found.2).length = found.2 := List.length_take_of_le (munch_le c rest)
    rw [List.flatMap_cons]
    cases hq with
    | same =>
      have hmunch : munch c (rest.take found.2 ++ qs.flatMap Piece.text) = found := by
        rw [hsame.munch_append (by rw [hsplit]; exact hlength.symm), hsplit]
      rw [List.cons_append, pieces, hmunch, List.take_left' hlength, List.drop_left' hlength,
        ih qs hrest]
    | renamed hshape htext =>
      -- The old name is as long as it can be, so that nothing behind it goes on with a word.
      obtain ⟨c₀, tail₀, hc₀, hstart, -⟩ := htext.isName
      obtain ⟨rfl, -⟩ := List.cons.inj hc₀
      have hreach : found.2 = wordLength rest :=
        congrArg Prod.snd (munch_of_isWordStart hstart rest)
      have hstop : (rest.drop found.2).takeWhile isWordPart = [] := by
        rw [hreach, wordLength, drop_length_takeWhile, List.takeWhile_eq_nil_iff]
        exact fun h => List.dropWhile_get_zero_not _ _ h
      have hb : (qs.flatMap Piece.text).takeWhile isWordPart = [] :=
        hsame.takeWhile_append (fun _ => isWordPart_of_isWordStart) []
          (congrArg List.length hstop)
      obtain ⟨c', tail, rfl, hstart', htail, hword⟩ := hname.isName
      rw [List.cons_append, pieces, munch_name hstart' htail hword hb, List.take_left,
        List.drop_left, ih qs hrest]

end Pieces

/-! ### Tokens -/

namespace Token

/-- The token with another text. -/
def spell (t : Token) (text : String) : Token := { t with lexeme := text }

/-- What a token may be when names are spelled otherwise: itself, or `name` if it is a
name. -/
inductive Respelled (name : String) (t : Token) : Token → Prop where
  | same : Respelled name t t
  | renamed (h : t.kind = .identifier) : Respelled name t (t.spell name)

theorem Respelled.kind_eq {name : String} {t u : Token} (h : t.Respelled name u) :
    u.kind = t.kind := by
  cases h <;> rfl

theorem Respelled.line_eq {name : String} {t u : Token} (h : t.Respelled name u) :
    u.line = t.line := by
  cases h <;> rfl

/-- A token without its place in the text; the line remains. -/
def unplaced (t : Token) : Token := { t with offset := 0 }

end Token

/-- A token with another text. -/
def Piece.spell (piece : Piece) (text : String) : Piece :=
  match piece.shape with
  | .token kind => ⟨.token kind, text.toList⟩
  | _ => piece

/-- Pieces in which the tokens, one after the other, have other texts. -/
def respell : List Piece → List String → List Piece
  | piece :: rest, text :: texts =>
    if piece.shape = .blank then piece :: respell rest (text :: texts)
    else piece.spell text :: respell rest texts
  | ps, _ => ps

theorem respell_blank {piece : Piece} (h : piece.shape = .blank) (rest : List Piece)
    (texts : List String) : respell (piece :: rest) texts = piece :: respell rest texts := by
  cases texts with
  | nil => cases rest <;> rfl
  | cons text texts => rw [respell, if_pos h]

/-- A source in which the tokens, one after the other, have other texts. Layout stays. -/
def respelled (source : String) (texts : List String) : String :=
  String.ofList ((respell (pieces source.toList) texts).flatMap Piece.text)

/-- A piece that is a token is a lexeme of its kind. -/
theorem lexeme_of_mem_pieces {source : List Char} {piece : Piece} {kind : TokenKind}
    (h : piece ∈ pieces source) (hshape : piece.shape = .token kind) : Lexeme kind piece.text := by
  fun_induction pieces source with
  | case1 => exact absurd h List.not_mem_nil
  | case2 c rest found ih =>
    rcases List.mem_cons.1 h with rfl | h
    · have hfound := munch_spec c rest
      rw [show (munch c rest).1 = .token kind from hshape] at hfound
      exact hfound.1
    · exact ih h

theorem Piece.token?_eq_none_iff {piece : Piece} (place : Position) :
    piece.token? place = none ↔ piece.shape = .blank := by
  obtain ⟨shape, text⟩ := piece
  cases shape <;> simp [Piece.token?]

theorem Position.line_after (place : Position) (text : List Char) :
    (place.after text).line = place.line + text.count '\n' := rfl

section Tokens

variable {name : String} (hname : Lexeme .identifier name.toList)

include hname

theorem Piece.Respelled.count_break {p q : Piece} (h : p.Respelled name.toList q) :
    q.text.count '\n' = p.text.count '\n' := by
  cases h with
  | same => rfl
  | renamed hshape htext =>
    rw [List.count_eq_zero.2 htext.not_mem_break, List.count_eq_zero.2 hname.not_mem_break]

theorem count_break_of_respelled {ps qs : List Piece}
    (h : List.Forall₂ (Piece.Respelled name.toList) ps qs) :
    (qs.flatMap Piece.text).count '\n' = (ps.flatMap Piece.text).count '\n' := by
  induction h with
  | nil => rfl
  | cons hp hrest ih =>
    rw [List.flatMap_cons, List.flatMap_cons, List.count_append, List.count_append,
      hp.count_break hname, ih]

/-- A piece with the text of a token that is spelled otherwise gives that token. -/
theorem Piece.token?_spell {p : Piece} {place place' : Position} {t u : Token}
    (hp : p.shape = .token .identifier → Lexeme .identifier p.text)
    (hline : place'.line = place.line) (htoken : p.token? place = some t)
    (h : t.Respelled name u) :
    p.Respelled name.toList (p.spell u.lexeme)
      ∧ ((p.spell u.lexeme).token? place').map Token.unplaced = some u.unplaced := by
  obtain ⟨shape, text⟩ := p
  cases shape with
  | blank => cases htoken
  | fault fault =>
    obtain rfl := Option.some.inj htoken
    cases h with
    | same =>
      refine ⟨.same, ?_⟩
      simp [Piece.spell, Piece.token?, Token.unplaced, Position.line_after, hline]
    | renamed h => cases h
  | token kind =>
    obtain rfl := Option.some.inj htoken
    cases h with
    | same =>
      refine ⟨?_, ?_⟩
      · simp only [Piece.spell, String.toList_ofList]
        exact .same
      · simp [Piece.spell, Piece.token?, Token.unplaced, Position.line_after, hline]
    | renamed h =>
      obtain rfl : kind = .identifier := h
      refine ⟨.renamed rfl (hp rfl), ?_⟩
      have hbreak : text.count '\n' = 0 := List.count_eq_zero.2 (hp rfl).not_mem_break
      have hbreak' : name.toList.count '\n' = 0 := List.count_eq_zero.2 hname.not_mem_break
      simp [Piece.spell, Piece.token?, Token.unplaced, Token.spell, Position.line_after, hline,
        hbreak, hbreak']

/-- Respelled pieces have the tokens asked for, up to their offsets. Both texts are located along
the same pieces, from places that need to agree in their line only. -/
theorem respell_spec {ps : List Piece}
    (hps : ∀ p ∈ ps, p.shape = .token .identifier → Lexeme .identifier p.text)
    (place place' : Position) (hline : place'.line = place.line) {us : List Token}
    (h : List.Forall₂ (Token.Respelled name) (locate place ps) us) :
    List.Forall₂ (Piece.Respelled name.toList) ps (respell ps (us.map Token.lexeme))
      ∧ (locate place' (respell ps (us.map Token.lexeme))).map Token.unplaced
          = us.map Token.unplaced := by
  induction ps generalizing place place' us with
  | nil =>
    cases h
    exact ⟨.nil, rfl⟩
  | cons p ps ih =>
    obtain ⟨hp, hps⟩ := List.forall_mem_cons.1 hps
    rw [locate] at h
    cases htoken : p.token? place with
    | none =>
      have hblank := (Piece.token?_eq_none_iff place).1 htoken
      have htoken' : p.token? place' = none := (Piece.token?_eq_none_iff place').2 hblank
      rw [htoken] at h
      have hafter : (place'.after p.text).line = (place.after p.text).line := by
        rw [Position.line_after, Position.line_after, hline]
      obtain ⟨hrest, htokens⟩ := ih hps _ _ hafter h
      rw [respell_blank hblank, locate, htoken']
      exact ⟨.cons .same hrest, htokens⟩
    | some t =>
      have hnot : ¬ p.shape = .blank := by
        rw [← Piece.token?_eq_none_iff place, htoken]
        exact Option.some_ne_none t
      rw [htoken] at h
      cases h with | @cons _ u _ us hu h =>
      obtain ⟨hspelled, hfirst⟩ := Piece.token?_spell hname hp hline htoken hu
      have hafter : (place'.after (p.spell u.lexeme).text).line = (place.after p.text).line := by
        rw [Position.line_after, Position.line_after, hline, hspelled.count_break hname]
      obtain ⟨hrest, htokens⟩ := ih hps _ _ hafter h
      obtain ⟨u', hu', hunplaced⟩ := Option.map_eq_some_iff.1 hfirst
      rw [List.map_cons, respell, if_neg hnot, locate, hu']
      refine ⟨.cons hspelled hrest, ?_⟩
      rw [List.map_cons, List.map_cons, hunplaced, htokens]

/-- The tokens of a source in which names are spelled otherwise are those of the source under
their new texts, on the lines where they were. -/
theorem ofSource_respelled {source : String} {us : List Token}
    (h : List.Forall₂ (Token.Respelled name) (TokenStream.ofSource source).pending us) :
    (TokenStream.ofSource (respelled source (us.map Token.lexeme))).pending.map Token.unplaced
        = us.map Token.unplaced
      ∧ (TokenStream.ofSource (respelled source (us.map Token.lexeme))).endLine
        = (TokenStream.ofSource source).endLine := by
  obtain ⟨hpieces, htokens⟩ := respell_spec hname
    (fun p hp hshape => lexeme_of_mem_pieces hp hshape) .start .start rfl h
  have hcut := pieces_of_respelled hname source.toList _ hpieces
  simp only [TokenStream.ofSource, respelled, String.toList_ofList, hcut]
  refine ⟨htokens, ?_⟩
  rw [Position.line_after, Position.line_after, count_break_of_respelled hname hpieces,
    flatten_pieces]

end Tokens

end OnePass
