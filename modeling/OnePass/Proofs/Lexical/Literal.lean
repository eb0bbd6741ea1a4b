import OnePass.Proofs.Lexical.Tiling

/-!
# OnePass.Proofs.Lexical.Literal

What the parser relies on in the tokens of a source. Each is an error or carries a
lexeme of its kind (`mem_pending_ofSource`); no lexeme is that of an end token. The
lexeme of a number can be read as one, the lexeme of a string has its quotes, and the lexeme
of a name is a word.
-/

namespace OnePass

/-- All tokens but the last of a tiled text are errors or carry a lexeme of their kind. -/
theorem Tiles.lexeme_of_mem {offset : Nat} {text : List Char} {tokens : List Token}
    (h : Tiles offset text tokens) :
    ∀ ts last, tokens = ts ++ [last] →
      ∀ t ∈ ts, t.kind = .error ∨ Lexeme t.kind t.lexeme.toList := by
  induction h with
  | finish hgap hk hl ho =>
    intro ts last heq t ht
    cases ts with
    | nil => exact absurd ht List.not_mem_nil
    | cons u ts =>
      have hlength := congrArg List.length heq
      simp at hlength
  | @token _ _ _ _ t _ hgap ht ho h ih =>
    intro ts last heq u hu
    cases ts with
    | nil => exact absurd hu List.not_mem_nil
    | cons v ts =>
      obtain ⟨rfl, rfl⟩ := List.cons.inj heq
      rcases List.mem_cons.1 hu with rfl | hu
      · cases ht with
        | lexeme hl hlong hopen hlexeme =>
          rw [hlexeme, String.toList_ofList]
          exact .inr hl
        | error hk h => exact .inl hk
      · exact ih ts last rfl u hu

/-- A token of a source is an error or carries a lexeme of its kind. -/
theorem mem_pending_ofSource {source : String} {t : Token}
    (h : t ∈ (TokenStream.ofSource source).pending) :
    t.kind = .error ∨ Lexeme t.kind t.lexeme.toList := by
  have htiles := tiles_pieces source.toList .start (TokenStream.ofSource source).ending rfl rfl rfl
  exact htiles.lexeme_of_mem _ _ rfl t h

/-- No lexeme is that of an end token. -/
theorem Lexeme.kind_ne_eof {kind : TokenKind} {text : List Char} (h : Lexeme kind text) :
    kind ≠ .eof := by
  rintro rfl
  cases h with
  | mark h => cases h
  | reserved hw h => cases h

theorem kind_ne_eof_of_mem {source : String} {t : Token}
    (h : t ∈ (TokenStream.ofSource source).pending) : t.kind ≠ .eof := by
  rcases mem_pending_ofSource h with hkind | hlexeme
  · rw [hkind]
    decide
  · exact hlexeme.kind_ne_eof

/-! ### Strings -/

/-- The lexeme of a string is its contents in quotes. -/
theorem Lexeme.exists_contents {text : List Char} (h : Lexeme .string text) :
    ∃ body, text = '"' :: (body ++ ['"']) := by
  generalize hkind : TokenKind.string = kind at h
  cases h with
  | mark h => subst hkind; cases h
  | string h => exact ⟨_, rfl⟩
  | reserved hw h => subst hkind; cases h
  | _ => cases hkind

/-! ### Names -/

/-- The lexeme of a name is a word that is not reserved. -/
theorem Lexeme.isName {text : List Char} (h : Lexeme .identifier text) :
    ∃ c tail, text = c :: tail ∧ isWordStart c ∧ (∀ d ∈ tail, isWordPart d)
      ∧ TokenKind.ofWord (String.ofList text) = .identifier := by
  generalize hkind : TokenKind.identifier = kind at h
  cases h with
  | mark h => subst hkind; cases h
  | reserved hw h => subst hkind; cases h
  | name hw h =>
    obtain ⟨c, tail, rfl, -⟩ := id hw
    obtain ⟨hc, htail⟩ := isWordStart_of_isWord hw
    refine ⟨c, tail, rfl, hc, htail, ?_⟩
    unfold TokenKind.ofWord
    cases hlookup : TokenKind.keywords.lookup (String.ofList (c :: tail)) with
    | none => rfl
    | some kind =>
      obtain ⟨before, after, hsplit, -⟩ := List.lookup_eq_some_iff.1 hlookup
      exact absurd (TokenKind.word?_of_mem (by rw [hsplit]; simp)) (h kind)
  | _ => cases hkind

/-- No name goes over a line break. -/
theorem Lexeme.not_mem_break {text : List Char} (h : Lexeme .identifier text) : '\n' ∉ text := by
  obtain ⟨c, tail, rfl, hc, htail, -⟩ := h.isName
  intro hmem
  rcases List.mem_cons.1 hmem with rfl | hmem
  · cases hc
  · cases htail _ hmem

/-! ### Numbers -/

theorem takeWhile_isDigit {digits rest : List Char} (hd : ∀ d ∈ digits, d.isDigit)
    (hrest : ∀ c ∈ rest.head?, c.isDigit = false) :
    (digits ++ rest).takeWhile Char.isDigit = digits
      ∧ (digits ++ rest).dropWhile Char.isDigit = rest := by
  rw [List.takeWhile_append_of_pos hd, List.dropWhile_append_of_pos hd]
  cases rest with
  | nil => simp
  | cons c rest =>
    have hc : ¬ c.isDigit = true := by simp [hrest c rfl]
    rw [List.takeWhile_cons_of_neg hc, List.dropWhile_cons_of_neg hc, List.append_nil]
    exact ⟨rfl, rfl⟩

/-- Digits with nothing or a fraction behind them are a decimal. -/
theorem readDecimal?_isSome {digits places : List Char} {point : List Char}
    (hne : digits ≠ []) (hd : ∀ d ∈ digits, d.isDigit)
    (htail : point = [] ∧ places = [] ∨ point = ['.'] ∧ ∀ d ∈ places, d.isDigit) :
    (Numeral.readDecimal? (digits ++ (point ++ places))).isSome := by
  have hhead : ∀ c ∈ (point ++ places).head?, c.isDigit = false := by
    rcases htail with ⟨rfl, rfl⟩ | ⟨rfl, -⟩
    · simp
    · intro c hc
      obtain rfl := Option.some.inj hc
      rfl
  obtain ⟨htake, hdrop⟩ := takeWhile_isDigit hd hhead
  unfold Numeral.readDecimal?
  rw [htake, hdrop]
  rcases htail with ⟨rfl, rfl⟩ | ⟨rfl, hp⟩
  · simp [Numeral.splitFraction, Numeral.readExponent?, hne]
  · have hnil : ∀ c ∈ ([] : List Char).head?, c.isDigit = false := by simp
    have hplaces := takeWhile_isDigit hp hnil
    rw [List.append_nil] at hplaces
    simp [Numeral.splitFraction, Numeral.readExponent?, hne, hplaces.1, hplaces.2]

/-- A text that starts with a digit is no sign and no word. -/
theorem read?_eq {d : Char} {rest : List Char} (hd : d.isDigit) :
    Numeral.read? (d :: rest) = (Numeral.readDecimal? (d :: rest)).map (.decimal false) := by
  have hsign : Numeral.splitSign (d :: rest) = (false, d :: rest) := by
    unfold Numeral.splitSign
    split
    · rename_i h; obtain ⟨rfl, -⟩ := List.cons.inj h; cases hd
    · rename_i h; obtain ⟨rfl, -⟩ := List.cons.inj h; cases hd
    · rfl
  have hlower : d.toLower = d := by
    unfold Char.toLower
    rw [dif_neg]
    simp [Char.isDigit, UInt32.le_iff_toNat_le] at hd ⊢
    omega
  -- The words that are numerals start with a letter.
  have hword : ∀ first tail, first.isDigit = false →
      String.ofList ((d :: rest).map Char.toLower) ≠ String.ofList (first :: tail) := by
    intro first tail hfirst heq
    obtain ⟨hhead, -⟩ := List.cons.inj (String.ofList_injective heq)
    rw [← hhead, hlower, hd] at hfirst
    cases hfirst
  unfold Numeral.read?
  simp only [hsign]
  split
  · rename_i h; exact absurd h (hword 'i' ['n', 'f'] rfl)
  · rename_i h; exact absurd h (hword 'i' ['n', 'f', 'i', 'n', 'i', 't', 'y'] rfl)
  · rename_i h; exact absurd h (hword 'n' ['a', 'n'] rfl)
  · rfl

/-- The lexeme of a number can be read as one. -/
theorem Lexeme.ofText?_isSome {text : List Char} (h : Lexeme .number text) :
    (Binary64.ofText? (String.ofList text)).isSome := by
  have hread : ∀ digits point places, digits ≠ [] → (∀ d ∈ digits, d.isDigit) →
      (point = [] ∧ places = [] ∨ point = ['.'] ∧ ∀ d ∈ places, d.isDigit) →
      (Binary64.ofText? (String.ofList (digits ++ (point ++ places)))).isSome := by
    intro digits point places hne hd htail
    have hdecimal := readDecimal?_isSome hne hd htail
    cases digits with
    | nil => exact absurd rfl hne
    | cons d digits =>
      rw [Binary64.ofText?, String.toList_ofList, List.cons_append, Option.isSome_map,
        read?_eq (hd d List.mem_cons_self), Option.isSome_map]
      exact hdecimal
  generalize hkind : TokenKind.number = kind at h
  cases h with
  | mark h => subst hkind; cases h
  | whole hne hd => simpa using hread text [] [] hne hd (.inl ⟨rfl, rfl⟩)
  | fraction hne hd pne hp => exact hread _ ['.'] _ hne hd (.inr ⟨rfl, hp⟩)
  | reserved hw h => subst hkind; cases h
  | _ => cases hkind

/-- The number tokens of a source have a value. -/
theorem number?_isSome_of_mem {source : String} {t : Token}
    (h : t ∈ (TokenStream.ofSource source).pending) (hkind : t.kind = .number) :
    t.number?.isSome := by
  rcases mem_pending_ofSource h with herror | hlexeme
  · rw [hkind] at herror
    cases herror
  · rw [hkind] at hlexeme
    have hvalue := hlexeme.ofText?_isSome
    rwa [String.ofList_toList] at hvalue

end OnePass
