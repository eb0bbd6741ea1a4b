import OnePass.Proofs.Compile.Lexemes
import OnePass.Proofs.Lexical.Respell

/-!
# OnePass.Proofs.Compile.Rendered

Sources that are written down from their tokens. A lexeme is read as a token of its kind, and of
that kind only, if nothing or white space is behind it (`Lexeme.munch_eq`,
`munch_append_blank`), whatever has been behind it in the source that it comes from. So the
lexemes of a source, one space apart, are a source with the same lexemes (`lexemes_rendered`).
-/

namespace OnePass

/-! ### Lexemes that stand alone -/

theorem munch_of_isDigit {c : Char} (hc : c.isDigit = true) (rest : List Char) :
    munch c rest = (.token .number, numberLength rest) := by
  have hne : ∀ d : Char, d.isDigit = false → c ≠ d := by
    rintro d hd rfl
    cases hc.symm.trans hd
  have hblank : ¬ isBlank c = true := by
    simp [isBlank, hne ' ' rfl, hne '\t' rfl, hne '\r' rfl, hne '\n' rfl]
  rw [munch, if_neg hblank, if_neg fun h => hne '/' rfl h.1, if_neg fun h => hne '/' rfl h.1,
    if_neg (hne '"' rfl), if_pos hc]

theorem stringLength?_quoted {body : List Char} (h : '"' ∉ body) :
    stringLength? (body ++ ['"']) = some (body.length + 1) := by
  induction body with
  | nil => rfl
  | cons c body ih =>
    obtain ⟨hc, hbody⟩ := List.ne_and_not_mem_of_not_mem_cons h
    rw [List.cons_append, stringLength?, if_neg (Ne.symm hc), ih hbody]
    rfl

/-- A lexeme is one piece, of the kind of the lexeme. -/
theorem Lexeme.munch_eq {kind : TokenKind} {c : Char} {tail : List Char}
    (h : Lexeme kind (c :: tail)) : munch c tail = (.token kind, tail.length) := by
  have hend : ∀ d ∈ ([] : List Char).head?, d.isDigit = false := by simp
  generalize htext : c :: tail = text at h
  cases h with
  | mark h =>
    have table : ∀ entry ∈ TokenKind.marks,
        entry.1.toList.head?.map (fun c => munch c entry.1.toList.tail)
          = some (.token entry.2, entry.1.toList.tail.length) := by decide
    -- Nothing follows, so that the table of the marks can be gone through.
    have hmark := table _ (TokenKind.mem_marks_of_mark? h)
    rw [← htext] at hmark
    exact Option.some.inj hmark
  | whole hne hd =>
    subst htext
    obtain ⟨hc, htail⟩ := List.forall_mem_cons.1 hd
    have hdigits := takeWhile_isDigit htail hend
    rw [List.append_nil] at hdigits
    rw [munch_of_isDigit hc, numberLength, hdigits.1, hdigits.2]
    rfl
  | @fraction digits places hne hd pne hp =>
    obtain ⟨d, digits, rfl⟩ := List.exists_cons_of_ne_nil hne
    obtain ⟨p, places, rfl⟩ := List.exists_cons_of_ne_nil pne
    rw [List.cons_append] at htext
    obtain ⟨rfl, rfl⟩ := List.cons.inj htext
    obtain ⟨hc, hdigits⟩ := List.forall_mem_cons.1 hd
    obtain ⟨hpoint, hplaces⟩ := List.forall_mem_cons.1 hp
    have hstop : ∀ c ∈ ('.' :: p :: places).head?, c.isDigit = false := by
      simp only [List.head?_cons, Option.mem_some_iff, forall_eq']
      rfl
    have hsplit := takeWhile_isDigit hdigits hstop
    have hrest := takeWhile_isDigit hplaces hend
    rw [List.append_nil] at hrest
    rw [munch_of_isDigit hc, numberLength, hsplit.1, hsplit.2, fractionLength, if_pos hpoint,
      hrest.1, List.length_append, List.length_cons, List.length_cons, Nat.add_comm 2]
  | string h =>
    obtain ⟨rfl, rfl⟩ := List.cons.inj htext
    simp [munch, isBlank, stringLength?_quoted h]
  | reserved hw h =>
    subst htext
    obtain ⟨hc, htail⟩ := isWordStart_of_isWord hw
    have hreach : wordLength tail = tail.length := by
      rw [wordLength, List.takeWhile_eq_self_iff.2 htail]
    rw [munch_of_isWordStart hc, hreach, List.take_length,
      TokenKind.ofWord_of_mem (TokenKind.mem_keywords_of_word? h)]
  | name hw h =>
    subst htext
    obtain ⟨d, rest, heq, hd, hrest, hword⟩ := (Lexeme.name hw h).isName
    obtain ⟨rfl, rfl⟩ := List.cons.inj heq
    have hmunch := munch_name hd hrest hword List.takeWhile_nil
    rwa [List.append_nil] at hmunch

/-! ### Pieces without their places -/

/-- The kind and the text of the token that a piece yields. -/
def Piece.label? (piece : Piece) : Option (TokenKind × String) :=
  match piece.shape with
  | .blank => none
  | .token kind => some (kind, String.ofList piece.text)
  | .fault fault => some (.error, fault.message)

/-- The kinds and the texts of the tokens of a text. -/
def labels (text : List Char) : List (TokenKind × String) := (pieces text).filterMap Piece.label?

theorem map_locate (place : Position) (ps : List Piece) :
    (locate place ps).map (fun t => (t.kind, t.lexeme)) = ps.filterMap Piece.label? := by
  induction ps generalizing place with
  | nil => rfl
  | cons piece ps ih =>
    have hlabel : piece.label? = (piece.token? place).map fun t => (t.kind, t.lexeme) := by
      unfold Piece.label? Piece.token?
      cases piece.shape <;> rfl
    rw [locate, List.filterMap_cons, hlabel, ← ih (place.after piece.text)]
    cases piece.token? place <;> rfl

theorem lexemes_eq_labels (source : String) :
    lexemes source = labels source.toList ++ [(.eof, "")] := by
  rw [lexemes, tokenize, TokenStream.toList, List.map_append]
  exact congrArg (· ++ [(TokenKind.eof, "")]) (map_locate .start (pieces source.toList))

section Alone

variable {kind : TokenKind} {text : List Char}

theorem labels_lexeme (h : Lexeme kind text) : labels text = [(kind, String.ofList text)] := by
  obtain ⟨c, tail, rfl, -⟩ := h.family
  rw [labels, pieces, h.munch_eq, List.take_length, List.drop_length, pieces]
  rfl

/-- A space behind a lexeme is no part of it. -/
theorem labels_lexeme_append (h : Lexeme kind text) (rest : List Char) :
    labels (text ++ ' ' :: rest) = (kind, String.ofList text) :: labels rest := by
  obtain ⟨c, tail, rfl, -⟩ := h.family
  have hmunch : munch c (tail ++ ' ' :: rest) = (.token kind, tail.length) := by
    have hspace : isBlank ' ' = true := rfl
    rw [munch_append_blank hspace (by rw [h.munch_eq]; nofun) (by rw [h.munch_eq]; nofun),
      h.munch_eq]
  have hblank : munch ' ' rest = (.blank, 0) := rfl
  rw [labels, List.cons_append, pieces, hmunch]
  simp only [List.take_left, List.drop_left]
  rw [pieces, hblank]
  rfl

end Alone

/-! ### Lexemes in a row -/

/-- Texts with single spaces between them. -/
def spaced (texts : List String) : String := " ".intercalate texts

theorem toList_spaced_cons (text : String) {texts : List String} (h : texts ≠ []) :
    (spaced (text :: texts)).toList = text.toList ++ ' ' :: (spaced texts).toList := by
  rw [spaced, String.intercalate_cons_of_ne_nil h, String.toList_append, String.toList_append,
    List.append_assoc]
  rfl

/-- Lexemes in a row are read as what they are, also if an empty text is behind them. -/
theorem labels_spaced {entries : List (TokenKind × String)}
    (h : ∀ e ∈ entries, Lexeme e.1 e.2.toList) :
    labels (spaced (entries.map Prod.snd)).toList = entries
      ∧ labels (spaced (entries.map Prod.snd ++ [""])).toList = entries := by
  induction entries with
  | nil =>
    have hempty : labels [] = [] := by rw [labels, pieces, List.filterMap_nil]
    exact ⟨hempty, hempty⟩
  | cons entry entries ih =>
    obtain ⟨hentry, hentries⟩ := List.forall_mem_cons.1 h
    obtain ⟨hplain, hended⟩ := ih hentries
    refine ⟨?_, ?_⟩
    · cases entries with
      | nil =>
        rw [List.map_cons, List.map_nil, spaced, String.intercalate_singleton,
          labels_lexeme hentry, String.ofList_toList]
      | cons next entries =>
        rw [List.map_cons, toList_spaced_cons _ (by simp), labels_lexeme_append hentry, hplain,
          String.ofList_toList]
    · rw [List.map_cons, List.cons_append, toList_spaced_cons _ (by simp),
        labels_lexeme_append hentry, hended, String.ofList_toList]

/-- A source that is written down from the tokens of a source. -/
def rendered (source : String) : String :=
  spaced ((TokenStream.ofSource source).pending.map Token.lexeme)

/-- The tokens of a source without their places and without the end token. -/
def entries (source : String) : List (TokenKind × String) :=
  (TokenStream.ofSource source).pending.map fun t => (t.kind, t.lexeme)

theorem lexemes_eq_entries (source : String) : lexemes source = entries source ++ [(.eof, "")] := by
  rw [lexemes, tokenize, TokenStream.toList, List.map_append]
  rfl

theorem map_lexeme_eq_entries (source : String) :
    (TokenStream.ofSource source).pending.map Token.lexeme = (entries source).map Prod.snd := by
  rw [entries, List.map_map]
  rfl

section Errorless

variable {source : String} (h : ∀ t ∈ tokenize source, t.kind ≠ .error)
include h

theorem lexeme_of_mem_pending {t : Token} (ht : t ∈ (TokenStream.ofSource source).pending) :
    Lexeme t.kind t.lexeme.toList :=
  (mem_pending_ofSource ht).resolve_left (h t (List.mem_append_left _ ht))

theorem lexeme_of_mem_entries : ∀ e ∈ entries source, Lexeme e.1 e.2.toList := by
  intro e he
  obtain ⟨t, ht, rfl⟩ := List.mem_map.1 he
  exact lexeme_of_mem_pending h ht

theorem lexemes_rendered_eq : lexemes (rendered source) = lexemes source := by
  rw [rendered, map_lexeme_eq_entries, lexemes_eq_labels,
    (labels_spaced (lexeme_of_mem_entries h)).1, lexemes_eq_entries]

end Errorless

/-- A source without errors and what is written down from its tokens have the same lexemes, with
or without the empty lexeme of the end token. So what is written down from two sources is the
same exactly if their lexemes are. Every lexeme but that of the end token is read alone as it is
read in the source. -/
theorem lexemes_rendered {source : String} (h : ∀ t ∈ tokenize source, t.kind ≠ .error) :
    lexemes (rendered source) = lexemes source
    ∧ lexemes (spaced ((tokenize source).map Token.lexeme)) = lexemes source
    ∧ (∀ other, (∀ t ∈ tokenize other, t.kind ≠ .error) →
      (rendered source = rendered other ↔ lexemes source = lexemes other))
    ∧ ∀ t ∈ tokenize source, t.kind ≠ .eof →
      lexemes t.lexeme = [(t.kind, t.lexeme), (.eof, "")] := by
  refine ⟨lexemes_rendered_eq h, ?_, fun other hother => ⟨fun heq => ?_, fun heq => ?_⟩, ?_⟩
  · have htexts : (tokenize source).map Token.lexeme = (entries source).map Prod.snd ++ [""] := by
      rw [tokenize, TokenStream.toList, List.map_append, map_lexeme_eq_entries]
      rfl
    rw [htexts, lexemes_eq_labels, (labels_spaced (lexeme_of_mem_entries h)).2,
      lexemes_eq_entries]
  · rw [← lexemes_rendered_eq h, heq, lexemes_rendered_eq hother]
  · rw [lexemes_eq_entries, lexemes_eq_entries] at heq
    rw [rendered, rendered, map_lexeme_eq_entries, map_lexeme_eq_entries,
      List.append_cancel_right heq]
  · intro t ht hkind
    rcases List.mem_append.1 ht with ht | ht
    · rw [lexemes_eq_labels, labels_lexeme (lexeme_of_mem_pending h ht), String.ofList_toList]
      rfl
    · obtain rfl := List.mem_singleton.1 ht
      exact absurd rfl hkind

/-- A source with a comment, and with a string that looks as if it had one. -/
theorem lexemes_rendered_string :
    rendered "a<=.5 // b\n\"/* \"..." = "a <= . 5 \"/* \" ..."
      ∧ lexemes "a <= . 5 \"/* \" ..." = lexemes "a<=.5 // b\n\"/* \"..."
      ∧ lexemes "\"/* \"" = [(.string, "\"/* \""), (.eof, "")] := by
  have hrendered : rendered "a<=.5 // b\n\"/* \"..." = "a <= . 5 \"/* \" ..." := by
    decide +kernel
  have hkinds : ∀ t ∈ tokenize "a<=.5 // b\n\"/* \"...", t.kind ≠ .error := by
    decide +kernel
  have hmem : (⟨.string, "\"/* \"", 11, 2⟩ : Token) ∈ tokenize "a<=.5 // b\n\"/* \"..." := by
    decide +kernel
  obtain ⟨hlexemes, -, -, halone⟩ := lexemes_rendered hkinds
  have hstring := halone _ hmem (by decide)
  rw [hrendered] at hlexemes
  exact ⟨hrendered, hlexemes, hstring⟩

end OnePass
