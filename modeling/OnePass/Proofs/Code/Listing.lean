import Mathlib.Algebra.GroupWithZero.Nat
import OnePass.Chunk.Listing
import OnePass.Proofs.Lexical.Literal

/-!
# OnePass.Proofs.Code.Listing

Listings read back. The columns of a row are numbers and words with blanks between them, so
that the instruction of a row can be read from it if the source line of the one before is
known, whatever the constant behind the operand looks like (`readRow?_row`). The rows are
the lines of the listing as long as no constant that they show has a line break; where one
has, a row takes more than one line, and a listing has as many lines as rows and line
breaks in what it shows (`length_linesOf_listing`, `linesOf_listing`).
-/

namespace OnePass

/-! ### Lines of a text -/

/-- The lines of a text in which every line ends in a line break. -/
def linesOf (text : String) : List String := (text.toList.splitOn '\n').dropLast.map String.ofList

/-- How many line breaks a text has. -/
def breaksIn (text : String) : Nat := text.toList.count '\n'

theorem breaksIn_append (a b : String) : breaksIn (a ++ b) = breaksIn a + breaksIn b := by
  rw [breaksIn, String.toList_append, List.count_append]
  rfl

theorem breaksIn_eq_zero {text : String} : breaksIn text = 0 ↔ '\n' ∉ text.toList :=
  List.count_eq_zero

/-- Rows that are each ended by a line break have these line breaks and their own. -/
theorem breaksIn_join (rows : List String) :
    breaksIn (String.join (rows.map (· ++ "\n"))) = rows.length + (rows.map breaksIn).sum := by
  induction rows with
  | nil => rfl
  | cons row rest ih =>
    have hrow : breaksIn (row ++ "\n") = breaksIn row + 1 := breaksIn_append row "\n"
    have hjoin : breaksIn (String.join ((row :: rest).map (· ++ "\n")))
        = breaksIn (row ++ "\n") + breaksIn (String.join (rest.map (· ++ "\n"))) := by
      simp [breaksIn, String.toList_join]
      omega
    rw [hjoin, hrow, ih, List.length_cons, List.map_cons, List.sum_cons]
    omega

theorem length_splitOn (text : List Char) :
    (text.splitOn '\n').length = text.count '\n' + 1 := by
  induction text with
  | nil => rfl
  | cons c text ih =>
    rw [List.splitOn_cons_eq_if_modifyHead, List.count_cons]
    by_cases hc : c == '\n'
    · rw [if_pos hc, if_pos hc, List.length_cons, ih]
    · rw [if_neg hc, if_neg hc, List.length_modifyHead, ih]

theorem length_linesOf (text : String) : (linesOf text).length = breaksIn text := by
  rw [linesOf, List.length_map, List.length_dropLast, length_splitOn]
  rfl

/-- Rows without a line break are the lines of the text that they make. -/
theorem linesOf_join {rows : List String} (h : ∀ row ∈ rows, breaksIn row = 0) :
    linesOf (String.join (rows.map (· ++ "\n"))) = rows := by
  have hsplit : (String.join (rows.map (· ++ "\n"))).toList.splitOn '\n'
      = rows.map String.toList ++ [[]] := by
    induction rows with
    | nil => rfl
    | cons row rest ih =>
      have hrow : '\n' ∉ row.toList := breaksIn_eq_zero.1 (h row List.mem_cons_self)
      rw [List.map_cons, String.toList_join, List.flatMap_cons, String.toList_append,
        ← String.toList_join, List.append_assoc]
      rw [show "\n".toList = ['\n'] from rfl, List.singleton_append,
        List.splitOn_append_cons_self_of_not_mem hrow,
        ih fun other hother => h other (List.mem_cons_of_mem _ hother)]
      rfl
  rw [linesOf, hsplit, List.dropLast_concat, List.map_map]
  exact (List.map_congr_left fun row _ => String.ofList_toList).trans (List.map_id rows)

namespace Listing

/-! ### Reading a row -/

/-- What follows the blanks in front of a text. -/
def skipBlanks (text : List Char) : List Char := text.dropWhile (· = ' ')

/-- A number behind blanks, and what follows it. -/
def readNumber (text : List Char) : Nat × List Char :=
  (Nat.ofDigitChars 10 ((skipBlanks text).takeWhile Char.isDigit) 0,
   (skipBlanks text).dropWhile Char.isDigit)

/-- A source line behind blanks, and what follows it. A bar stands for the line before. -/
def readLine (last : Option Nat) (text : List Char) : Option Nat × List Char :=
  if (skipBlanks text).head? = some '|' then (last, (skipBlanks text).tail)
  else (some (readNumber text).1, (readNumber text).2)

/-- A word behind blanks, and what follows it. -/
def readWord (text : List Char) : String × List Char :=
  (String.ofList ((skipBlanks text).takeWhile (· ≠ ' ')), (skipBlanks text).dropWhile (· ≠ ' '))

/-- An operand, if there is anything but blanks. -/
def readOperand? (text : List Char) : Option UInt8 :=
  if skipBlanks text = [] then none else some (UInt8.ofNat (readNumber text).1)

/-- The instruction of a row, given the source line of the one before. -/
def readRow? (last : Option Nat) (row : String) : Option Instruction :=
  let offset := readNumber row.toList
  let line := readLine last offset.2
  let word := readWord line.2
  match line.1, OpCode.ofMnemonic? word.1 with
  | some line, some op => some ⟨offset.1, line, op, readOperand? word.2⟩
  | _, _ => none

/-- The instructions of rows, given the source line of the one before. -/
def readRows? (last : Option Nat) : List String → Option (List Instruction)
  | [] => some []
  | row :: rest =>
    (readRow? last row).bind fun i => (readRows? (some i.line) rest).map (i :: ·)

/-! ### Columns -/

theorem toList_padNumber (fill : Char) (width n : Nat) :
    (padNumber fill width n).toList
      = List.replicate (width - (Nat.toDigits 10 n).length) fill ++ Nat.toDigits 10 n := by
  have hdigits : (toString n).toList = Nat.toDigits 10 n := String.toList_ofList
  rw [padNumber, String.toList_append, String.toList_ofList, hdigits, ← String.length_toList,
    hdigits]

/-- Blanks in front of another character are skipped. -/
theorem skipBlanks_replicate (n : Nat) {c : Char} (hc : c ≠ ' ') (rest : List Char) :
    skipBlanks (List.replicate n ' ' ++ c :: rest) = c :: rest := by
  have hblanks : ∀ b ∈ List.replicate n ' ', decide (b = ' ') = true :=
    fun b hb => decide_eq_true (List.mem_replicate.1 hb).2
  rw [skipBlanks, List.dropWhile_append_of_pos hblanks,
    List.dropWhile_cons_of_neg (by simpa using hc)]

theorem isDigit_of_mem_toDigits {n : Nat} {c : Char} (h : c ∈ Nat.toDigits 10 n) :
    c.isDigit = true :=
  Nat.isDigit_of_mem_toDigits (by decide) (by decide) h

/-- Digits behind blanks are read as a number. -/
theorem readNumber_digits (blanks : Nat) {digits rest : List Char} (hne : digits ≠ [])
    (hd : ∀ d ∈ digits, d.isDigit) (hrest : ∀ c ∈ rest.head?, c.isDigit = false) :
    readNumber (List.replicate blanks ' ' ++ (digits ++ rest))
      = (Nat.ofDigitChars 10 digits 0, rest) := by
  obtain ⟨first, others, rfl⟩ := List.exists_cons_of_ne_nil hne
  have hfirst : first ≠ ' ' := by
    rintro rfl
    cases hd ' ' List.mem_cons_self
  obtain ⟨htake, hdrop⟩ := takeWhile_isDigit hd hrest
  rw [List.cons_append, readNumber, skipBlanks_replicate blanks hfirst, ← List.cons_append, htake,
    hdrop]

/-- A number with blanks or zeros in front of it is read back. -/
theorem readNumber_padNumber {fill : Char} (hfill : fill = ' ' ∨ fill = '0') (blanks width n : Nat)
    {rest : List Char} (hrest : ∀ c ∈ rest.head?, c.isDigit = false) :
    readNumber (List.replicate blanks ' ' ++ ((padNumber fill width n).toList ++ rest))
      = (n, rest) := by
  have hdigits : ∀ d ∈ Nat.toDigits 10 n, d.isDigit := fun d hd => isDigit_of_mem_toDigits hd
  rw [toList_padNumber, List.append_assoc]
  rcases hfill with rfl | rfl
  · rw [← List.append_assoc, List.replicate_append_replicate,
      readNumber_digits _ Nat.toDigits_ne_nil hdigits hrest, Nat.ofDigitChars_ten_toDigits]
  · rw [← List.append_assoc (List.replicate _ '0'),
      readNumber_digits _ (by simp [Nat.toDigits_ne_nil]) _ hrest, Nat.ofDigitChars_append,
      Nat.ofDigitChars_replicate_zero, Nat.mul_zero, Nat.ofDigitChars_ten_toDigits]
    intro d hd
    rcases List.mem_append.1 hd with hd | hd
    · rw [(List.mem_replicate.1 hd).2]
      rfl
    · exact hdigits d hd

/-- Behind the blanks in front of a number stands a digit. -/
theorem head?_skipBlanks_padNumber (blanks width n : Nat) (rest : List Char) :
    ∃ d : Char, d.isDigit = true
      ∧ (skipBlanks (List.replicate blanks ' ' ++ ((padNumber ' ' width n).toList ++ rest))).head?
        = some d := by
  obtain ⟨d, others, hdigits⟩ := List.exists_cons_of_ne_nil (Nat.toDigits_ne_nil (b := 10) (n := n))
  have hd : d.isDigit = true := isDigit_of_mem_toDigits (hdigits ▸ List.mem_cons_self)
  have hblank : d ≠ ' ' := by
    rintro rfl
    cases hd
  refine ⟨d, hd, ?_⟩
  rw [toList_padNumber, hdigits, List.append_assoc, ← List.append_assoc,
    List.replicate_append_replicate, List.cons_append, skipBlanks_replicate _ hblank]
  rfl

/-- A source line is read back from its column. -/
theorem readLine_lineColumn (last : Option Nat) (line : Nat) (rest : List Char) :
    readLine last (' ' :: ((lineColumn last line).toList ++ ' ' :: rest))
      = (some line, ' ' :: rest) := by
  unfold lineColumn
  split
  · rename_i hsame
    rw [hsame]
    rfl
  · obtain ⟨d, hd, hhead⟩ := head?_skipBlanks_padNumber 1 4 line (' ' :: rest)
    have hread : readNumber (List.replicate 1 ' ' ++ ((padNumber ' ' 4 line).toList ++ ' ' :: rest))
        = (line, ' ' :: rest) := readNumber_padNumber (.inl rfl) 1 4 line (by simp)
    rw [List.replicate_one, List.singleton_append] at hhead hread
    have hbar : some d ≠ some '|' := by
      rintro heq
      obtain rfl := Option.some.inj heq
      cases hd
    rw [readLine, hhead, if_neg hbar, hread]

/-- A mnemonic is read back if nothing or a blank follows. -/
theorem readWord_mnemonic (op : OpCode) {rest : List Char} (hrest : ∀ c ∈ rest.head?, c = ' ') :
    readWord (' ' :: (op.mnemonic.toList ++ rest)) = (op.mnemonic, rest) := by
  have hfirst : op.mnemonic.toList = 'O' :: op.mnemonic.toList.tail := by cases op <;> decide
  have hskip : skipBlanks (' ' :: (op.mnemonic.toList ++ rest)) = op.mnemonic.toList ++ rest := by
    rw [hfirst]
    exact skipBlanks_replicate 1 (by decide) _
  have hword : ∀ c ∈ op.mnemonic.toList, decide (c ≠ ' ') = true := by
    refine List.all_eq_true.1 ?_
    cases op <;> decide
  have htail : rest.takeWhile (fun c => decide (c ≠ ' ')) = []
      ∧ rest.dropWhile (fun c => decide (c ≠ ' ')) = rest := by
    cases rest with
    | nil => exact ⟨rfl, rfl⟩
    | cons c rest =>
      obtain rfl := hrest c rfl
      exact ⟨rfl, rfl⟩
  rw [readWord, hskip, List.takeWhile_append_of_pos hword, List.dropWhile_append_of_pos hword,
    htail.1, htail.2, List.append_nil, String.ofList_toList]

/-- An operand is read back from its column, if no digit follows. -/
theorem readOperand?_padNumber (blanks : Nat) (operand : UInt8) {rest : List Char}
    (hrest : ∀ c ∈ rest.head?, c.isDigit = false) :
    readOperand? (List.replicate blanks ' ' ++ ((padNumber ' ' 4 operand.toNat).toList ++ rest))
      = some operand := by
  obtain ⟨d, -, hhead⟩ := head?_skipBlanks_padNumber blanks 4 operand.toNat rest
  have hsome : skipBlanks (List.replicate blanks ' '
      ++ ((padNumber ' ' 4 operand.toNat).toList ++ rest)) ≠ [] := by
    intro hnil
    rw [hnil] at hhead
    cases hhead
  rw [readOperand?, if_neg hsome, readNumber_padNumber (.inl rfl) _ _ _ hrest]
  exact congrArg some (UInt8.ofNat_toNat)

/-! ### Rows -/

/-- What a row shows of the constant that its instruction refers to. -/
def shown? (c : Chunk) (strings : Interner) (i : Instruction) : Option String :=
  i.operand.bind fun operand =>
    if i.op.refersToConstant then
      some (((c.constant? operand).map (·.display strings)).getD missingConstant)
    else none

/-- What stands behind the operand. -/
def quoted (shown : Option String) : List Char :=
  shown.elim [] fun text => ' ' :: '\'' :: (text.toList ++ ['\''])

theorem quoted_head (shown : Option String) : ∀ c ∈ (quoted shown).head?, c.isDigit = false := by
  cases shown with
  | none => exact nofun
  | some text =>
    intro c hc
    obtain rfl := Option.some.inj hc
    rfl

/-- Without an operand the mnemonic is all. -/
theorem toList_body_of_none (c : Chunk) (strings : Interner) {i : Instruction}
    (h : i.operand = none) : (body c strings i).toList = i.op.mnemonic.toList ++ [] := by
  rw [body, h, List.append_nil]

theorem toList_body_of_some (c : Chunk) (strings : Interner) {i : Instruction} {operand : UInt8}
    (h : i.operand = some operand) :
    (body c strings i).toList
      = i.op.mnemonic.toList ++ (List.replicate (16 - i.op.mnemonic.length + 1) ' '
        ++ ((padNumber ' ' 4 operand.toNat).toList ++ quoted (shown? c strings i))) := by
  rw [body, shown?, h]
  dsimp only [Option.bind_some]
  split
  · simp [padName, quoted, List.replicate_succ', toString]
  · simp [padName, quoted, List.replicate_succ']

/-- An instruction is read back from its row, whatever its constant looks like. -/
theorem readRow?_row (c : Chunk) (strings : Interner) (last : Option Nat) (i : Instruction) :
    readRow? last (row c strings last i) = some i := by
  set back := ' ' :: ((lineColumn last i.line).toList ++ ' ' :: (body c strings i).toList)
    with hback
  have hrow : (row c strings last i).toList = (padNumber '0' 4 i.offset).toList ++ back := by
    simp [row, hback]
  have hoffset : readNumber (row c strings last i).toList = (i.offset, back) := by
    have hread : readNumber (List.replicate 0 ' ' ++ ((padNumber '0' 4 i.offset).toList ++ back))
        = (i.offset, back) := readNumber_padNumber (.inr rfl) 0 4 i.offset (by simp [hback])
    rwa [List.replicate_zero, List.nil_append, ← hrow] at hread
  have hbody : ∃ rest, readWord (' ' :: (body c strings i).toList) = (i.op.mnemonic, rest)
      ∧ readOperand? rest = i.operand := by
    cases hoperand : i.operand with
    | none =>
      rw [toList_body_of_none c strings hoperand]
      exact ⟨[], readWord_mnemonic i.op nofun, rfl⟩
    | some operand =>
      rw [toList_body_of_some c strings hoperand]
      refine ⟨_, readWord_mnemonic i.op ?_, readOperand?_padNumber _ operand (quoted_head _)⟩
      intro d hd
      rw [List.replicate_succ] at hd
      exact (Option.some.inj hd).symm
  obtain ⟨rest, hword, hoperand⟩ := hbody
  rw [readRow?, hoffset]
  dsimp only
  rw [hback, readLine_lineColumn]
  dsimp only
  rw [hword]
  dsimp only
  rw [OpCode.ofMnemonic?_mnemonic, hoperand]

theorem readRows?_rows (c : Chunk) (strings : Interner) (last : Option Nat)
    (instructions : List Instruction) :
    readRows? last (rows c strings last instructions) = some instructions := by
  induction instructions generalizing last with
  | nil => rfl
  | cons i rest ih =>
    rw [rows, readRows?, readRow?_row, Option.bind_some, ih]
    rfl

theorem length_rows (c : Chunk) (strings : Interner) (last : Option Nat)
    (instructions : List Instruction) :
    (rows c strings last instructions).length = instructions.length := by
  induction instructions generalizing last with
  | nil => rfl
  | cons i rest ih => rw [rows, List.length_cons, List.length_cons, ih]

/-! ### Line breaks -/

theorem breaksIn_padNumber {fill : Char} (hfill : fill ≠ '\n') (width n : Nat) :
    breaksIn (padNumber fill width n) = 0 := by
  rw [breaksIn_eq_zero, toList_padNumber]
  intro hmem
  rcases List.mem_append.1 hmem with hmem | hmem
  · exact hfill (List.mem_replicate.1 hmem).2.symm
  · cases isDigit_of_mem_toDigits hmem

theorem breaksIn_lineColumn (last : Option Nat) (line : Nat) :
    breaksIn (lineColumn last line) = 0 := by
  unfold lineColumn
  split
  · rfl
  · exact breaksIn_padNumber (by decide) 4 line

theorem breaksIn_mnemonic (op : OpCode) : breaksIn op.mnemonic = 0 := by
  cases op <;> rfl

/-- The line breaks of a row are those of the constant that it shows. -/
theorem breaksIn_row (c : Chunk) (strings : Interner) (last : Option Nat) (i : Instruction) :
    breaksIn (row c strings last i) = (shown? c strings i).elim 0 breaksIn := by
  have hbody : breaksIn (body c strings i) = (shown? c strings i).elim 0 breaksIn := by
    cases hoperand : i.operand with
    | none =>
      rw [body, shown?, hoperand]
      exact breaksIn_mnemonic i.op
    | some operand =>
      have hnumber : (padNumber ' ' 4 operand.toNat).toList.count '\n' = 0 :=
        breaksIn_padNumber (by decide) 4 operand.toNat
      have hmnemonic : i.op.mnemonic.toList.count '\n' = 0 := breaksIn_mnemonic i.op
      rw [breaksIn, toList_body_of_some c strings hoperand, List.count_append, List.count_append,
        List.count_append, hmnemonic, hnumber, List.count_replicate]
      cases shown? c strings i with
      | none => rfl
      | some text => simp [quoted, breaksIn]
  rw [row, breaksIn_append, breaksIn_append, breaksIn_append, breaksIn_append,
    breaksIn_padNumber (by decide), breaksIn_lineColumn, hbody]
  simp [breaksIn]

/-- How many line breaks rows have inside. -/
theorem sum_breaksIn_rows (c : Chunk) (strings : Interner) (last : Option Nat)
    (instructions : List Instruction) :
    ((rows c strings last instructions).map breaksIn).sum
      = (instructions.map fun i => (shown? c strings i).elim 0 breaksIn).sum := by
  induction instructions generalizing last with
  | nil => rfl
  | cons i rest ih => rw [rows, List.map_cons, List.sum_cons, ih, breaksIn_row]; rfl

theorem breaksIn_header (name : String) : breaksIn (header name) = breaksIn name := by
  simp [header, breaksIn, toString]

end Listing

open Listing

variable {c : Chunk} {strings : Interner} {name : String}

/-- A listing has a line for its header and for every instruction, and one more for every
line break in its name and in the constants that it shows. -/
theorem Chunk.length_linesOf_listing (c : Chunk) (strings : Interner) (name : String) :
    (linesOf (c.listing strings name)).length
      = 1 + c.instructions.length + (breaksIn name
        + (c.instructions.map fun i => (shown? c strings i).elim 0 breaksIn).sum) := by
  rw [length_linesOf, Chunk.listing, breaksIn_join, List.length_cons, List.map_cons, List.sum_cons,
    length_rows, sum_breaksIn_rows, breaksIn_header]
  omega

/-- A listing has one line for every instruction exactly if no constant that it shows has a
line break. -/
theorem Chunk.length_linesOf_listing_eq_iff (hname : breaksIn name = 0) :
    (linesOf (c.listing strings name)).length = 1 + c.instructions.length
      ↔ ∀ i ∈ c.instructions, ∀ text ∈ shown? c strings i, breaksIn text = 0 := by
  rw [Chunk.length_linesOf_listing, hname, Nat.zero_add, Nat.add_eq_left,
    List.sum_eq_zero_iff_forall_eq_nat, List.forall_mem_map]
  refine forall₂_congr fun i _ => ?_
  cases shown? c strings i <;> simp

/-- Then its lines are those of the header and the instructions. -/
theorem Chunk.linesOf_listing (hname : breaksIn name = 0)
    (h : ∀ i ∈ c.instructions, ∀ text ∈ shown? c strings i, breaksIn text = 0) :
    linesOf (c.listing strings name)
      = header name :: rows c strings none c.instructions := by
  refine linesOf_join (List.forall_mem_cons.2 ⟨(breaksIn_header name).trans hname, ?_⟩)
  have hsum := sum_breaksIn_rows c strings none c.instructions
  have hzero : (c.instructions.map fun i => (shown? c strings i).elim 0 breaksIn).sum = 0 := by
    rw [List.sum_eq_zero_iff_forall_eq_nat, List.forall_mem_map]
    intro i hi
    have hshown := h i hi
    revert hshown
    cases shown? c strings i <;> simp
  rw [hzero, List.sum_eq_zero_iff_forall_eq_nat, List.forall_mem_map] at hsum
  exact hsum

end OnePass
