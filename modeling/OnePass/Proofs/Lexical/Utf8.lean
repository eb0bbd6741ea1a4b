import OnePass.Lexical.Bytewise
import OnePass.Proofs.Lexical.Join

/-!
# OnePass.Proofs.Lexical.Utf8

Texts and their bytes. An ASCII character is one byte, and that byte stands for nothing else;
any other character is a byte of 192 or more with continuation bytes behind it. So a search for
ASCII characters finds in the bytes what it finds in the text: a class of characters goes as far
(`Bytes.Spells.takeWhile_utf8`), a line, a string and a comment end where they end
(`idxOf?_utf8`, `commentEnd?_utf8`), and there are as many line breaks (`breaks_utf8`).
-/

namespace OnePass

/-- The bytes of a text. -/
def utf8 (text : List Char) : List UInt8 := text.flatMap String.utf8EncodeChar

@[simp] theorem utf8_nil : utf8 [] = [] := rfl

theorem utf8_cons (c : Char) (text : List Char) :
    utf8 (c :: text) = String.utf8EncodeChar c ++ utf8 text := rfl

theorem utf8_append (a b : List Char) : utf8 (a ++ b) = utf8 a ++ utf8 b := List.flatMap_append

@[simp] theorem byteCount_nil : byteCount [] = 0 := rfl

theorem byteCount_cons (c : Char) (text : List Char) :
    byteCount (c :: text) = c.utf8Size + byteCount text := rfl

@[simp] theorem length_utf8 (text : List Char) : (utf8 text).length = byteCount text := by
  induction text with
  | nil => rfl
  | cons c text ih =>
    rw [utf8_cons, List.length_append, String.length_utf8EncodeChar, ih, byteCount_cons]

/-- A scanner over a source holds the bytes of its text. -/
theorem bytes_ofSource (source : String) :
    source.toUTF8.data.toList = utf8 source.toList := by
  have hencode : source.toList.utf8Encode = source.toUTF8 := String.utf8Encode_toList
  rw [← hencode]
  exact List.toList_data_toByteArray

theorem take_utf8 (a b : List Char) : (utf8 (a ++ b)).take (byteCount a) = utf8 a := by
  rw [utf8_append, ← length_utf8, List.take_left]

theorem drop_utf8 (a b : List Char) : (utf8 (a ++ b)).drop (byteCount a) = utf8 b := by
  rw [utf8_append, ← length_utf8, List.drop_left]

/-- The bytes of a part of a text. -/
theorem between?_utf8 (before part after : List Char) :
    Bytes.between? (utf8 (before ++ (part ++ after))) (byteCount before)
      (byteCount before + byteCount part) = some (utf8 part) := by
  rw [Bytes.between?, if_pos, ← byteCount_append, ← List.append_assoc, take_utf8, drop_utf8]
  rw [length_utf8, byteCount_append, byteCount_append]
  omega

/-- The bytes of a text are decoded to it. -/
theorem fromUTF8?_utf8 (text : List Char) :
    String.fromUTF8? (utf8 text).toByteArray = some (String.ofList text) :=
  dif_pos (.intro text rfl)

theorem utf8_inj {a b : List Char} : utf8 a = utf8 b ↔ a = b := by
  refine ⟨fun h => ?_, congrArg utf8⟩
  have htext := fromUTF8?_utf8 a
  rw [h, fromUTF8?_utf8] at htext
  exact (String.ofList_injective (Option.some.inj htext)).symm

/-! ### Single characters -/

/-- Continuation bytes are those from 128 to 191. -/
theorem isContinuation_iff {b : UInt8} :
    Bytes.isContinuation b = true ↔ 128 ≤ b.toNat ∧ b.toNat < 192 := by
  have h : ∀ y : BitVec 8, (y &&& 0xC0 = 0x80) ↔ 128 ≤ y.toNat ∧ y.toNat < 192 := by decide
  rw [Bytes.isContinuation, decide_eq_true_iff, ← UInt8.toBitVec_inj]
  exact h b.toBitVec

section Encoding

variable {c a : Char}

theorem utf8EncodeChar_of_ascii (h : c.toNat < 128) :
    String.utf8EncodeChar c = [c.toUInt8] := by
  refine String.utf8EncodeChar_eq_singleton (Char.utf8Size_eq_one_iff.2 ?_)
  exact UInt32.le_iff_toNat_le.2 (Nat.le_of_lt_succ h)

theorem toNat_toUInt8 (h : c.toNat < 128) : c.toUInt8.toNat = c.toNat := by
  rw [Char.toUInt8, UInt32.toNat_toUInt8, Char.toNat_val]
  exact Nat.mod_eq_of_lt (Nat.lt_trans h (by decide))

theorem toUInt8_inj (hc : c.toNat < 128) (ha : a.toNat < 128) :
    c.toUInt8 = a.toUInt8 ↔ c = a := by
  refine ⟨fun h => ?_, congrArg Char.toUInt8⟩
  have hnat := congrArg UInt8.toNat h
  rw [toNat_toUInt8 hc, toNat_toUInt8 ha] at hnat
  exact Char.toNat_inj.1 hnat

/-- A character that is not ASCII is a byte that starts one and continuation bytes. -/
theorem utf8EncodeChar_of_not_ascii (h : 128 ≤ c.toNat) :
    ∃ lead tail, String.utf8EncodeChar c = lead :: tail ∧ 192 ≤ lead.toNat
      ∧ ∀ b ∈ tail, Bytes.isContinuation b = true := by
  have hlead : ∀ {x mark : UInt8}, 192 ≤ mark.toNat → 192 ≤ (x ||| mark).toNat := by
    intro x mark hmark
    exact Nat.le_trans hmark (UInt8.le_iff_toNat_le.1 UInt8.right_le_or)
  have htail : ∀ x : UInt8, Bytes.isContinuation (x &&& 0x3f ||| 0x80) = true := by
    intro x
    have hbits : ∀ y : BitVec 8, (y &&& 0x3f ||| 0x80) &&& 0xC0 = 0x80 := by decide
    exact decide_eq_true (UInt8.eq_of_toBitVec_eq (hbits x.toBitVec))
  rcases c.utf8Size_eq with hsize | hsize | hsize | hsize
  · have hle := UInt32.le_iff_toNat_le.1 (Char.utf8Size_eq_one_iff.1 hsize)
    exact absurd h (Nat.not_le_of_lt (Nat.lt_succ_of_le hle))
  · refine ⟨_, _, String.utf8EncodeChar_eq_cons_cons hsize, hlead (by decide), ?_⟩
    simp [htail]
  · refine ⟨_, _, String.utf8EncodeChar_eq_cons_cons_cons hsize, hlead (by decide), ?_⟩
    simp [htail]
  · refine ⟨_, _, String.utf8EncodeChar_eq_cons_cons_cons_cons hsize, hlead (by decide), ?_⟩
    simp [htail]

/-- No byte of a character that is not ASCII is ASCII. -/
theorem high_of_mem_utf8EncodeChar (h : 128 ≤ c.toNat) {b : UInt8}
    (hb : b ∈ String.utf8EncodeChar c) : 128 ≤ b.toNat := by
  obtain ⟨lead, tail, hbytes, hlead, htail⟩ := utf8EncodeChar_of_not_ascii h
  rw [hbytes] at hb
  rcases List.mem_cons.1 hb with rfl | hb
  · omega
  · exact (isContinuation_iff.1 (htail b hb)).1

/-- The byte of an ASCII character is in no other character. -/
theorem mem_utf8EncodeChar_iff (ha : a.toNat < 128) :
    a.toUInt8 ∈ String.utf8EncodeChar c ↔ c = a := by
  rcases Nat.lt_or_ge c.toNat 128 with hc | hc
  · rw [utf8EncodeChar_of_ascii hc, List.mem_singleton, toUInt8_inj ha hc, eq_comm]
  · refine iff_of_false (fun hmem => ?_) (by rintro rfl; omega)
    have hhigh := high_of_mem_utf8EncodeChar hc hmem
    rw [toNat_toUInt8 ha] at hhigh
    omega

/-- A character is a byte that goes on with no other one, and continuation bytes. -/
theorem exists_utf8EncodeChar (c : Char) :
    ∃ lead tail, String.utf8EncodeChar c = lead :: tail ∧ Bytes.isContinuation lead = false
      ∧ ∀ b ∈ tail, Bytes.isContinuation b = true := by
  rcases Nat.lt_or_ge c.toNat 128 with hc | hc
  · refine ⟨_, [], utf8EncodeChar_of_ascii hc, Bool.eq_false_iff.2 fun h => ?_, by simp⟩
    have := toNat_toUInt8 hc
    have := isContinuation_iff.1 h
    omega
  · obtain ⟨lead, tail, hbytes, hlead, htail⟩ := utf8EncodeChar_of_not_ascii hc
    refine ⟨lead, tail, hbytes, Bool.eq_false_iff.2 fun h => ?_, htail⟩
    have := isContinuation_iff.1 h
    omega

end Encoding

/-! ### Classes -/

/-- A class of bytes that stands for a class of ASCII characters. -/
structure Bytes.Spells (p : UInt8 → Bool) (q : Char → Bool) : Prop where
  ascii : ∀ n < 128, p (Char.ofNat n).toUInt8 = q (Char.ofNat n)
  high : ∀ b : UInt8, 128 ≤ b.toNat → p b = false
  beyond : ∀ c : Char, 128 ≤ c.toNat → q c = false

namespace Bytes.Spells

variable {p : UInt8 → Bool} {q : Char → Bool} {c : Char}

theorem eq_of_ascii (h : Spells p q) (hc : c.toNat < 128) : p c.toUInt8 = q c := by
  have hascii := h.ascii c.toNat hc
  rwa [Char.ofNat_toNat] at hascii

theorem ascii_of_mem (h : Spells p q) (hq : q c = true) : c.toNat < 128 :=
  Nat.lt_of_not_le fun hc => by
    rw [h.beyond c hc] at hq
    cases hq

/-- Whether a character is of the class can be seen from its first byte. -/
theorem lead (h : Spells p q) {lead : UInt8} {tail : List UInt8}
    (hbytes : String.utf8EncodeChar c = lead :: tail) : p lead = q c := by
  rcases Nat.lt_or_ge c.toNat 128 with hc | hc
  · rw [utf8EncodeChar_of_ascii hc] at hbytes
    rw [← (List.cons.inj hbytes).1, h.eq_of_ascii hc]
  · have hmem : lead ∈ String.utf8EncodeChar c := hbytes ▸ List.mem_cons_self
    rw [h.beyond c hc, h.high lead (high_of_mem_utf8EncodeChar hc hmem)]

theorem head (h : Spells p q) (text : List Char) :
    (utf8 text).head?.any p = text.head?.any q := by
  cases text with
  | nil => rfl
  | cons c text =>
    obtain ⟨lead, tail, hbytes, -⟩ := exists_utf8EncodeChar c
    rw [utf8_cons, hbytes]
    exact h.lead hbytes

/-- A class goes as far in the bytes as it goes in the text. -/
theorem takeWhile_utf8 (h : Spells p q) (text : List Char) :
    (utf8 text).takeWhile p = utf8 (text.takeWhile q) := by
  induction text with
  | nil => rfl
  | cons c text ih =>
    cases hq : q c with
    | true =>
      have hc := h.ascii_of_mem hq
      rw [List.takeWhile_cons_of_pos hq, utf8_cons, utf8_cons, utf8EncodeChar_of_ascii hc,
        List.singleton_append, List.singleton_append,
        List.takeWhile_cons_of_pos ((h.eq_of_ascii hc).trans hq), ih]
    | false =>
      obtain ⟨lead, tail, hbytes, -⟩ := exists_utf8EncodeChar c
      have hlead : ¬ p lead = true := by simp [h.lead hbytes, hq]
      rw [utf8_cons, hbytes, List.cons_append, List.takeWhile_cons_of_neg hlead,
        List.takeWhile_cons_of_neg (by simp [hq]), utf8_nil]

end Bytes.Spells

theorem spells_eq {a : Char} (ha : a.toNat < 128) :
    Bytes.Spells (fun b => b = a.toUInt8) (fun c => c = a) where
  ascii n hn := by
    have hascii : ∀ n < 128, (Char.ofNat n).toNat < 128 := by decide
    exact decide_eq_decide.2 (toUInt8_inj (hascii n hn) ha)
  high b hb := by
    refine decide_eq_false ?_
    rintro rfl
    rw [toNat_toUInt8 ha] at hb
    omega
  beyond c hc := by
    refine decide_eq_false ?_
    rintro rfl
    omega

theorem spells_isDigit : Bytes.Spells Bytes.isDigit Char.isDigit where
  ascii := by decide
  high b hb := by
    have h9 : '9'.toUInt8.toNat = 57 := rfl
    simp only [Bytes.isDigit, Bool.and_eq_false_iff, decide_eq_false_iff_not,
      UInt8.le_iff_toNat_le]
    omega
  beyond c hc := by
    have h9 : '9'.val.toNat = 57 := rfl
    have hval := Char.toNat_val (c := c)
    simp only [Char.isDigit, Bool.and_eq_false_iff, decide_eq_false_iff_not,
      UInt32.le_iff_toNat_le]
    omega

theorem spells_isWordStart : Bytes.Spells Bytes.isWordStart isWordStart where
  ascii := by decide
  high b hb := by
    have hz : 'z'.toUInt8.toNat = 122 := rfl
    have hZ : 'Z'.toUInt8.toNat = 90 := rfl
    have hbar : b ≠ '_'.toUInt8 := by rintro rfl; exact absurd hb (by decide)
    simp only [Bytes.isWordStart, hbar, decide_false, Bool.or_false, Bool.or_eq_false_iff,
      Bool.and_eq_false_iff, decide_eq_false_iff_not, UInt8.le_iff_toNat_le]
    omega
  beyond c hc := by
    have hz : 'z'.val.toNat = 122 := rfl
    have hZ : 'Z'.val.toNat = 90 := rfl
    have hval := Char.toNat_val (c := c)
    have hbar : c ≠ '_' := by rintro rfl; exact absurd hc (by decide)
    have halpha : c.isAlpha = (decide ('A'.val ≤ c.val ∧ c.val ≤ 'Z'.val)
        || ('a'.val ≤ c.val && c.val ≤ 'z'.val)) := rfl
    simp only [isWordStart, halpha, hbar, decide_false, Bool.or_false, Bool.or_eq_false_iff,
      Bool.and_eq_false_iff, decide_eq_false_iff_not, UInt32.le_iff_toNat_le, not_and]
    omega

theorem spells_isWordPart : Bytes.Spells Bytes.isWordPart isWordPart where
  ascii := by decide
  high b hb := by
    rw [Bytes.isWordPart, spells_isWordStart.high b hb, spells_isDigit.high b hb, Bool.or_false]
  beyond c hc := by
    have hstart := spells_isWordStart.beyond c hc
    rw [isWordStart, Bool.or_eq_false_iff] at hstart
    rw [isWordPart, Char.isAlphanum, hstart.1, hstart.2, spells_isDigit.beyond c hc]
    rfl

theorem spells_isSpace :
    Bytes.Spells Bytes.isSpace fun c => c = ' ' || c = '\r' || c = '\t' where
  ascii := by decide
  high b hb := by
    rw [Bytes.isSpace, (spells_eq (show ' '.toNat < 128 by decide)).high b hb,
      (spells_eq (show '\r'.toNat < 128 by decide)).high b hb,
      (spells_eq (show '\t'.toNat < 128 by decide)).high b hb]
    rfl
  beyond c hc := by
    rw [(spells_eq (show ' '.toNat < 128 by decide)).beyond c hc,
      (spells_eq (show '\r'.toNat < 128 by decide)).beyond c hc,
      (spells_eq (show '\t'.toNat < 128 by decide)).beyond c hc]
    rfl

/-! ### Searches -/

/-- An ASCII character is found in the bytes where it is found in the text. -/
theorem idxOf?_utf8 {a : Char} (ha : a.toNat < 128) (text : List Char) :
    (utf8 text).idxOf? a.toUInt8
      = if a ∈ text then some (byteCount (text.takeWhile (· ≠ a))) else none := by
  induction text with
  | nil => rfl
  | cons c text ih =>
    by_cases hc : c = a
    · subst hc
      rw [utf8_cons, utf8EncodeChar_of_ascii ha, if_pos List.mem_cons_self,
        List.takeWhile_cons_of_neg (by simp)]
      simp [List.idxOf?, List.findIdx?_cons]
    · have hnot : (String.utf8EncodeChar c).findIdx? (· == a.toUInt8) = none := by
        rw [List.findIdx?_eq_none_iff]
        intro b hb
        rw [beq_eq_false_iff_ne]
        rintro rfl
        exact hc ((mem_utf8EncodeChar_iff ha).1 hb)
      rw [List.idxOf?] at ih ⊢
      rw [utf8_cons, List.findIdx?_append, hnot, Option.none_or, ih,
        List.takeWhile_cons_of_pos (by simp [hc]), byteCount_cons,
        String.length_utf8EncodeChar]
      by_cases hmem : a ∈ text
      · simp [hmem, Nat.add_comm]
      · simp [hmem, Ne.symm hc]

/-- There are as many line breaks in the bytes as in the text. -/
theorem breaks_utf8 (text : List Char) : Bytes.breaks (utf8 text) = text.count '\n' := by
  induction text with
  | nil => rfl
  | cons c text ih =>
    have hfirst : (String.utf8EncodeChar c).count '\n'.toUInt8 = if c = '\n' then 1 else 0 := by
      by_cases hc : c = '\n'
      · subst hc
        rfl
      · rw [if_neg hc, List.count_eq_zero]
        exact fun hmem => hc ((mem_utf8EncodeChar_iff (by decide)).1 hmem)
    rw [Bytes.breaks] at ih ⊢
    rw [utf8_cons, List.count_append, hfirst, ih, List.count_cons, Nat.add_comm]
    simp

/-- No comment ends within bytes without an asterisk. -/
theorem commentEnd?_append_of_not_mem {lead bytes : List UInt8} (h : '*'.toUInt8 ∉ lead) :
    Bytes.commentEnd? (lead ++ bytes) = (Bytes.commentEnd? bytes).map (lead.length + ·) := by
  induction lead with
  | nil => simp
  | cons b lead ih =>
    obtain ⟨hb, hlead⟩ := List.ne_and_not_mem_of_not_mem_cons h
    rw [List.cons_append, Bytes.commentEnd?, if_neg (fun hboth => hb hboth.1.symm), ih hlead,
      Option.map_map]
    congr 1
    funext n
    simp only [Function.comp, List.length_cons]
    omega

/-- The end of a comment is found in the bytes where it is found in the text. -/
theorem commentEnd?_utf8 (text : List Char) :
    (Bytes.commentEnd? (utf8 text)).map (· + 2)
      = (commentLength? text).map fun n => byteCount (text.take n) := by
  fun_induction commentLength? text with
  | case1 rest =>
    rw [utf8_cons, utf8_cons, utf8EncodeChar_of_ascii (by decide),
      utf8EncodeChar_of_ascii (by decide)]
    rfl
  | case2 c rest hopen ih =>
    -- A byte that is `/` begins the character `/`, so that no character is cut.
    have hslash : (utf8 rest).head? = some '/'.toUInt8 → rest.head? = some '/' := by
      intro hhead
      cases rest with
      | nil => cases hhead
      | cons d rest =>
        obtain ⟨lead, tail, hbytes, -⟩ := exists_utf8EncodeChar d
        rw [utf8_cons, hbytes] at hhead
        obtain rfl : lead = '/'.toUInt8 := Option.some.inj hhead
        have hmem : '/'.toUInt8 ∈ String.utf8EncodeChar d := hbytes ▸ List.mem_cons_self
        rw [(mem_utf8EncodeChar_iff (by decide)).1 hmem]
        rfl
    have hskip : Bytes.commentEnd? (utf8 (c :: rest))
        = (Bytes.commentEnd? (utf8 rest)).map (c.utf8Size + ·) := by
      by_cases hc : c = '*'
      · subst hc
        rw [utf8_cons, utf8EncodeChar_of_ascii (by decide), List.singleton_append,
          Bytes.commentEnd?, if_neg]
        · simp [Nat.add_comm, show '*'.utf8Size = 1 from rfl]
        · rintro ⟨-, hhead⟩
          obtain ⟨tail, rfl⟩ := List.head?_eq_some_iff.1 (hslash hhead)
          exact hopen tail rfl rfl
      · rw [utf8_cons, commentEnd?_append_of_not_mem, String.length_utf8EncodeChar]
        exact fun hmem => hc ((mem_utf8EncodeChar_iff (by decide)).1 hmem)
    have hplus : ∀ o : Option Nat, (o.map (c.utf8Size + ·)).map (· + 2)
        = (o.map (· + 2)).map (c.utf8Size + ·) := by
      intro o
      cases o <;> simp [Nat.add_assoc]
    rw [hskip, hplus, ih]
    simp only [Option.map_map]
    congr 1
  | case3 => rfl

end OnePass
