import OnePass.Lexical.Source
import OnePass.Proofs.Lexical.Munch

/-!
# OnePass.Proofs.Lexical.Tiling

The tokens of a source tile it: between them stands trivia, each consumes its own
stretch of text from its offset on, and the end token stands behind everything
(`tokenize_tiles`). A readable token consumes the longest lexeme there is, an error
token a stretch with which no token starts. The lines of the tokens never go back
(`tokenize_lines`).
-/

namespace OnePass

/-- A token consumes a stretch of text in front of the rest of the source: its own
lexeme, or, if it is an error, text that cannot be read. -/
inductive Consumes (t : Token) (text rest : List Char) : Prop where
  | lexeme (hl : Lexeme t.kind text) (hlong : Longest text rest)
      (hopen : ¬ OpensComment (text ++ rest)) (ht : t.lexeme = String.ofList text)
  | error (hk : t.kind = .error) (h : Unreadable t.lexeme text rest)

/-- A text that stands at an offset is trivia, what a first token consumes, trivia,
what a second token consumes, and so on, with trivia before the end token. -/
inductive Tiles : Nat → List Char → List Token → Prop where
  | finish {offset gap t} (hgap : Trivia gap []) (hk : t.kind = .eof) (hl : t.lexeme = "")
      (ho : t.offset = offset + byteCount gap) : Tiles offset gap [t]
  | token {offset gap text rest t ts} (hgap : Trivia gap (text ++ rest))
      (ht : Consumes t text rest) (ho : t.offset = offset + byteCount gap)
      (h : Tiles (offset + byteCount gap + byteCount text) rest ts) :
      Tiles offset (gap ++ (text ++ rest)) (t :: ts)

theorem byteCount_append (a b : List Char) : byteCount (a ++ b) = byteCount a + byteCount b := by
  induction a with
  | nil => exact (Nat.zero_add _).symm
  | cons c rest ih =>
    show c.utf8Size + byteCount (rest ++ b) = c.utf8Size + byteCount rest + byteCount b
    rw [ih, Nat.add_assoc]

theorem offset_after (place : Position) (text : List Char) :
    (place.after text).offset = place.offset + byteCount text := rfl

/-- A blank joins the trivia in front of what comes next. -/
theorem Tiles.cons_blank {offset : Nat} {text rest : List Char} {ts : List Token}
    (hfound : Found text rest .blank) (h : Tiles (offset + byteCount text) rest ts) :
    Tiles offset (text ++ rest) ts := by
  cases h with
  | finish hgap hk hl ho =>
    refine .finish (hfound rest [] (by simp) hgap) hk hl ?_
    rw [ho, byteCount_append, Nat.add_assoc]
  | @token _ gap region rest t ts hgap ht ho h =>
    rw [← List.append_assoc]
    refine .token (hfound gap _ rfl hgap) ht ?_ ?_
    · rw [ho, byteCount_append, Nat.add_assoc]
    · rwa [byteCount_append, ← Nat.add_assoc]

/-- A token that stands right at the start of a text. -/
theorem Tiles.cons_token {offset : Nat} {text rest : List Char} {t : Token} {ts : List Token}
    (ht : Consumes t text rest) (ho : t.offset = offset)
    (h : Tiles (offset + byteCount text) rest ts) : Tiles offset (text ++ rest) (t :: ts) :=
  Tiles.token Trivia.nil ht ho h

/-- The tokens of the pieces of a text tile it, from any place. -/
theorem tiles_pieces (source : List Char) (place : Position) (eof : Token)
    (hk : eof.kind = .eof) (hl : eof.lexeme = "")
    (ho : eof.offset = (place.after source).offset) :
    Tiles place.offset source (locate place (pieces source) ++ [eof]) := by
  fun_induction pieces source generalizing place with
  | case1 => exact .finish .nil hk hl ho
  | case2 c rest found ih =>
    have hspec := munch_spec c rest
    set text := c :: rest.take found.2 with htext
    have hsource : c :: rest = text ++ rest.drop found.2 := by
      rw [htext, List.cons_append, List.take_append_drop]
    have hrest := ih (place.after text) (by
      rw [ho, hsource, offset_after, offset_after, offset_after, byteCount_append, Nat.add_assoc])
    rw [offset_after] at hrest
    rw [hsource, locate]
    -- What a piece is decides whether it yields a token.
    change Found text (rest.drop found.2) found.1 at hspec
    cases hshape : found.1 with
    | blank =>
      rw [hshape] at hspec
      exact hrest.cons_blank hspec
    | token kind =>
      rw [hshape] at hspec
      obtain ⟨hlex, hlong, hopen⟩ := hspec
      exact .cons_token (.lexeme hlex hlong hopen rfl) rfl hrest
    | fault fault =>
      rw [hshape] at hspec
      exact .cons_token (.error rfl hspec) rfl hrest

/-- The tokens of a source tile it from its first byte to its end. -/
theorem tokenize_tiles (source : String) : Tiles 0 source.toList (tokenize source) :=
  tiles_pieces source.toList .start _ rfl rfl rfl

/-! ### Lines -/

theorem Piece.token?_line {piece : Piece} {place : Position} {t : Token}
    (h : piece.token? place = some t) : t.line = (place.after piece.text).line := by
  unfold Piece.token? at h
  split at h <;> cases h <;> rfl

/-- Tokens stand on the line where their pieces start, or behind, and go down the source. -/
theorem locate_lines {place : Position} {ps : List Piece} {ending : Token}
    (h : (place.after (ps.flatMap Piece.text)).line ≤ ending.line) :
    (∀ t ∈ locate place ps ++ [ending], place.line ≤ t.line)
      ∧ (locate place ps ++ [ending]).Pairwise (·.line ≤ ·.line) := by
  induction ps generalizing place with
  | nil =>
    have hend : place.line ≤ ending.line := by simpa [Position.after] using h
    exact ⟨by simpa [locate] using hend, List.pairwise_singleton ..⟩
  | cons piece ps ih =>
    have hle : place.line ≤ (place.after piece.text).line := Nat.le_add_right ..
    have hrest : ((place.after piece.text).after (ps.flatMap Piece.text)).line ≤ ending.line := by
      simpa [Position.after, Nat.add_assoc] using h
    obtain ⟨hbound, hsorted⟩ := ih hrest
    rw [locate]
    cases htoken : piece.token? place with
    | none => exact ⟨fun t ht => Nat.le_trans hle (hbound t ht), hsorted⟩
    | some first =>
      have hline := Piece.token?_line htoken
      refine ⟨fun t ht => ?_, List.pairwise_cons.2 ⟨fun t ht => ?_, hsorted⟩⟩
      · rcases List.mem_cons.1 ht with rfl | ht
        · rw [hline]
          exact hle
        · exact Nat.le_trans hle (hbound t ht)
      · rw [hline]
        exact hbound t ht

theorem tokenize_lines (source : String) : (tokenize source).Pairwise (·.line ≤ ·.line) :=
  (locate_lines (Nat.le_of_eq (by rw [flatten_pieces]; rfl))).2

end OnePass
