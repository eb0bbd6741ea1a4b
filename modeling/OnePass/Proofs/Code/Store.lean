import Mathlib.Data.Finset.Dedup
import Mathlib.Data.List.Dedup
import Mathlib.Data.List.Induction
import OnePass.Value

/-!
# OnePass.Proofs.Code.Store

The constants of compiled code by their content (`Constant`), and what is asked of the store of
their texts.

A store is an interface here: five operations and the laws that tie them together
(`TextStore`). The laws say what can be observed of a store and not how it keeps its texts, so
that everything below holds of a hash table as it holds of a list:

* a text that is held stays under its handle, whatever is stored later (`keeps_storeAll`), which
  is why one store can serve many compilations;
* constants that have been stored one after the other are found in the last store with their
  contents (`content_storeAll`), and handles are as different as their texts
  (`Holds.handle_eq_iff`), which is why constants can be compared by handle;
* a store holds the texts that have been stored and no others, each once
  (`isSome_get?_storeAll`, `size_storeAll`).

The interner that the parser runs with is one such store (at the end).
-/

namespace OnePass

/-- A store of texts. A text that is not held gets a handle of its own, and one that is held
keeps its handle and leaves the store as it is. -/
class TextStore (σ : Type) where
  empty : σ
  intern : σ → String → Handle × σ
  get? : σ → String → Option Handle
  resolve : σ → Handle → String
  size : σ → Nat
  get?_empty : ∀ text, get? empty text = none
  size_empty : size empty = 0
  /-- What is held is not stored again. -/
  intern_of_get? : ∀ {s text handle}, get? s text = some handle → intern s text = (handle, s)
  /-- Storing a text makes it found, and no other one. -/
  get?_intern : ∀ s text other,
    get? (intern s text).2 other = if other = text then some (intern s text).1 else get? s other
  size_intern : ∀ {s text}, get? s text = none → size (intern s text).2 = size s + 1
  /-- A handle leads back to its text. -/
  resolve_of_get? : ∀ {s text handle}, get? s text = some handle → resolve s handle = text

/-- A constant by its content. -/
inductive Constant where
  | number (value : Binary64)
  | text (text : String)
  deriving DecidableEq, Repr

namespace Constant

/-- Equality of constants by content: of numbers by value, of texts as they are. -/
def same : Constant → Constant → Bool
  | .number x, .number y => x.same y
  | .text a, .text b => a == b
  | _, _ => false

/-- The text of a constant, unless it is a number. -/
def text? : Constant → Option String
  | .number _ => none
  | .text content => some content

end Constant

/-- What a constant of a pool says, given the store of its texts. -/
def Value.content {σ : Type} [TextStore σ] (strings : σ) : Value → Constant
  | .number x => .number x
  | .text handle => .text (TextStore.resolve strings handle)

namespace TextStore

variable {σ : Type} [TextStore σ] {s later last : σ} {text : String} {handle : Handle}
  {c : Constant} {v w : Value}

/-! ### Storing -/

/-- The pool entry for a constant, and the store with its text. -/
def store (s : σ) : Constant → Value × σ
  | .number x => (.number x, s)
  | .text text => (.text (intern s text).1, (intern s text).2)

/-- The pool entries for constants that are stored one after the other. -/
def storeAll (s : σ) : List Constant → List Value × σ
  | [] => ([], s)
  | c :: rest =>
    let stored := store s c
    let others := storeAll stored.2 rest
    (stored.1 :: others.1, others.2)

@[simp] theorem storeAll_nil (s : σ) : storeAll s [] = ([], s) := rfl

theorem storeAll_singleton (s : σ) (c : Constant) :
    storeAll s [c] = ([(store s c).1], (store s c).2) := rfl

/-- Constants in two rows are stored like those in one: the second row finds the texts of the
first. -/
theorem storeAll_append (s : σ) (first second : List Constant) :
    storeAll s (first ++ second)
      = ((storeAll s first).1 ++ (storeAll (storeAll s first).2 second).1,
         (storeAll (storeAll s first).2 second).2) := by
  induction first generalizing s with
  | nil => rfl
  | cons c rest ih => simp only [List.cons_append, storeAll, ih]

@[simp] theorem length_storeAll (s : σ) (constants : List Constant) :
    (storeAll s constants).1.length = constants.length := by
  induction constants generalizing s with
  | nil => rfl
  | cons c rest ih => simp only [storeAll, List.length_cons, ih]

/-! ### What was held stays held -/

/-- Whether a later store finds what an earlier one finds, under the same handles. -/
def Keeps (earlier later : σ) : Prop :=
  ∀ text handle, get? earlier text = some handle → get? later text = some handle

theorem Keeps.refl (s : σ) : Keeps s s := fun _ _ => id

theorem Keeps.trans (h : Keeps s later) (h' : Keeps later last) : Keeps s last :=
  fun text handle hget => h' text handle (h text handle hget)

/-- The law of `intern` about other texts, and the one about texts that are held already. -/
theorem keeps_intern (s : σ) (text : String) : Keeps s (intern s text).2 := by
  intro other handle hget
  rw [get?_intern]
  split
  · -- The text itself is held already, so that nothing is stored.
    rename_i heq
    rw [intern_of_get? (heq ▸ hget)]
  · exact hget

theorem keeps_store (s : σ) (c : Constant) : Keeps s (store s c).2 := by
  cases c with
  | number x => exact .refl s
  | text text => exact keeps_intern s text

/-- Whatever is stored, nothing that was held is lost or gets another handle. -/
theorem keeps_storeAll (s : σ) (constants : List Constant) :
    Keeps s (storeAll s constants).2 := by
  induction constants generalizing s with
  | nil => exact .refl s
  | cons c rest ih => exact (keeps_store s c).trans (ih _)

/-! ### Constants that are held -/

/-- Whether a store holds the text of a constant, under its handle. -/
def Holds (s : σ) : Value → Prop
  | .number _ => True
  | .text handle => get? s (resolve s handle) = some handle

/-- What is found is held: its handle leads back to the text. -/
theorem holds_of_get? (h : get? s text = some handle) : Holds s (.text handle) := by
  show get? s (resolve s handle) = some handle
  rwa [resolve_of_get? h]

/-- What an earlier store holds a later one holds. -/
theorem Keeps.holds (h : Keeps s later) (hv : Holds s v) : Holds later v := by
  cases v with
  | number x => trivial
  | text handle => exact holds_of_get? (h _ _ hv)

/-- A constant that is held has the same content in every later store. -/
theorem Keeps.content_eq (h : Keeps s later) (hv : Holds s v) : v.content later = v.content s := by
  cases v with
  | number x => rfl
  | text handle => exact congrArg Constant.text (resolve_of_get? (h _ _ hv))

theorem get?_intern_self (s : σ) (text : String) :
    get? (intern s text).2 text = some (intern s text).1 := by
  rw [get?_intern, if_pos rfl]

theorem holds_store (s : σ) (c : Constant) : Holds (store s c).2 (store s c).1 := by
  cases c with
  | number x => trivial
  | text text => exact holds_of_get? (get?_intern_self s text)

/-- A constant is found with its content right after it has been stored. -/
theorem content_store (s : σ) (c : Constant) : (store s c).1.content (store s c).2 = c := by
  cases c with
  | number x => rfl
  | text text => exact congrArg Constant.text (resolve_of_get? (get?_intern_self s text))

/-- Constants that have been stored one by one are all held by the last store. -/
theorem holds_storeAll (s : σ) (constants : List Constant) :
    ∀ v ∈ (storeAll s constants).1, Holds (storeAll s constants).2 v := by
  induction constants generalizing s with
  | nil => exact fun v hv => absurd hv List.not_mem_nil
  | cons c rest ih =>
    have hlater : Keeps (store s c).2 (storeAll s (c :: rest)).2 := keeps_storeAll _ rest
    exact List.forall_mem_cons.2 ⟨hlater.holds (holds_store s c), ih (store s c).2⟩

/-- They are found there with their contents. -/
theorem content_storeAll (s : σ) (constants : List Constant) :
    (storeAll s constants).1.map (·.content (storeAll s constants).2) = constants := by
  induction constants generalizing s with
  | nil => rfl
  | cons c rest ih =>
    have hlater := keeps_storeAll (store s c).2 rest
    simp only [storeAll, List.map_cons]
    rw [hlater.content_eq (holds_store s c), content_store, ih]

/-! ### Equality of constants -/

/-- Handles that a store holds are as different as their texts. -/
theorem Holds.handle_eq_iff {a b : Handle} (ha : Holds s (.text a)) (hb : Holds s (.text b)) :
    a = b ↔ resolve s a = resolve s b := by
  refine ⟨congrArg (resolve s), fun heq => Option.some.inj ?_⟩
  have hfound : get? s (resolve s a) = some a := ha
  rw [← hfound, heq]
  exact hb

/-- Constants that a store holds are equal exactly if their contents are. -/
theorem same_eq_content (hv : Holds s v) (hw : Holds s w) :
    v.same w = (v.content s).same (w.content s) := by
  cases v with
  | number x => cases w <;> rfl
  | text a =>
    cases w with
    | number y => rfl
    | text b =>
      show (a == b) = (resolve s a == resolve s b)
      rw [Bool.eq_iff_iff, beq_iff_eq, beq_iff_eq]
      exact hv.handle_eq_iff hw

/-- Which entries of a pool are equal to each other depends on their contents only. -/
theorem map_same_eq_content {values : List Value} (h : ∀ v ∈ values, Holds s v) :
    (values.map fun v => values.map v.same)
      = (values.map (·.content s)).map fun c => (values.map (·.content s)).map c.same := by
  rw [List.map_map]
  refine List.map_congr_left fun v hv => ?_
  rw [Function.comp_apply, List.map_map]
  exact List.map_congr_left fun w hw => same_eq_content (h v hv) (h w hw)

/-- Hence they are the same whichever stores the constants have been given to, of whichever
kinds. -/
theorem map_same_storeAll {τ : Type} [TextStore τ] (s : σ) (t : τ) (constants : List Constant) :
    ((storeAll s constants).1.map fun v => (storeAll s constants).1.map v.same)
      = (storeAll t constants).1.map fun v => (storeAll t constants).1.map v.same := by
  rw [map_same_eq_content (holds_storeAll s constants), content_storeAll,
    map_same_eq_content (holds_storeAll t constants), content_storeAll]

/-! ### The texts of a store -/

/-- A number is no text; a text is found from then on. -/
theorem isSome_get?_store (s : σ) (c : Constant) (text : String) :
    (get? (store s c).2 text).isSome ↔ (get? s text).isSome ∨ c.text? = some text := by
  cases c with
  | number x => exact (or_iff_left nofun).symm
  | text first =>
    show (get? (intern s first).2 text).isSome ↔ _ ∨ some first = some text
    rw [get?_intern, Option.some_inj]
    split
    · rename_i heq
      exact iff_of_true rfl (.inr heq.symm)
    · rename_i hne
      exact (or_iff_left fun heq => hne heq.symm).symm

/-- What is stored is what was there, and the texts of the constants that have been added. -/
theorem isSome_get?_storeAll (s : σ) (constants : List Constant) (text : String) :
    (get? (storeAll s constants).2 text).isSome
      ↔ (get? s text).isSome ∨ text ∈ constants.filterMap Constant.text? := by
  induction constants generalizing s with
  | nil => exact (or_iff_left List.not_mem_nil).symm
  | cons c rest ih =>
    refine (ih _).trans ?_
    rw [isSome_get?_store, or_assoc, List.filterMap_cons]
    refine or_congr_right ?_
    cases c.text? with
    | none => exact or_iff_right nofun
    | some first => rw [Option.some_inj, List.mem_cons, eq_comm]

variable (σ) in
/-- No text is stored twice: a store that was empty has as many texts as there are different
ones among the constants. -/
theorem size_storeAll (constants : List Constant) :
    size (storeAll (empty : σ) constants).2
      = (constants.filterMap Constant.text?).dedup.length := by
  -- The last constant is the one that is stored last, hence from the end.
  induction constants using List.reverseRecOn with
  | nil => exact size_empty
  | append_singleton constants c ih =>
    have hheld : ∀ text, (get? (storeAll (empty : σ) constants).2 text).isSome
        ↔ text ∈ constants.filterMap Constant.text? := fun text => by
      rw [isSome_get?_storeAll, get?_empty]
      exact or_iff_right nofun
    rw [storeAll_append, storeAll_singleton, List.filterMap_append]
    cases c with
    | number x =>
      have hnone : [Constant.number x].filterMap Constant.text? = [] := rfl
      rw [hnone, List.append_nil]
      exact ih
    | text text =>
      show size (intern _ text).2 = (_ ++ [text]).dedup.length
      rw [(List.perm_append_singleton text _).dedup.length_eq]
      cases hget : get? (storeAll (empty : σ) constants).2 text with
      | none =>
        have hnew := mt (hheld text).2 (by rw [hget]; decide)
        rw [size_intern hget, ih, List.dedup_cons_of_notMem hnew, List.length_cons]
      | some handle =>
        have hmem := (hheld text).1 (by rw [hget]; rfl)
        rw [intern_of_get? hget, ih, List.dedup_cons_of_mem hmem]

end TextStore

/-! ### The interner -/

namespace Interner

variable {s later : Interner} {text : String} {handle : Handle}

/-- A text is found under the handle of its place. -/
theorem get?_eq_some_iff : s.get? text = some handle ↔ s.texts[handle.index]? = some text := by
  unfold get?
  constructor
  · intro h
    split at h
    · rename_i hmem
      obtain rfl := Option.some.inj h
      rw [List.getElem?_eq_getElem (List.idxOf_lt_length_of_mem hmem), List.getElem_idxOf]
    · cases h
  · intro h
    obtain ⟨hlt, rfl⟩ := List.getElem?_eq_some_iff.1 h
    rw [if_pos (List.getElem_mem hlt), s.nodup.idxOf_getElem]

theorem isSome_get?_iff : (s.get? text).isSome ↔ text ∈ s.texts := by
  unfold get?
  split <;> simp_all

instance : TextStore Interner where
  empty := empty
  intern := intern
  get? := get?
  resolve := resolve
  size := size
  get?_empty _ := rfl
  size_empty := rfl
  intern_of_get? {s text handle} h := by
    have hmem : text ∈ s.texts := isSome_get?_iff.1 (Option.isSome_of_eq_some h)
    rw [get?, if_pos hmem] at h
    rw [intern, dif_pos hmem, Option.some.inj h]
  -- A new text is put at the end, so no other one changes its place.
  get?_intern s text other := by
    by_cases hmem : text ∈ s.texts
    · rw [intern, dif_pos hmem]
      split
      · rename_i heq
        rw [heq, get?, if_pos hmem]
      · rfl
    · rw [intern, dif_neg hmem]
      by_cases heq : other = text
      · simp [get?, size, List.idxOf_append, hmem, heq]
      · by_cases hother : other ∈ s.texts <;> simp [get?, List.idxOf_append, heq, hother]
  size_intern {s text} h := by
    have hnew : text ∉ s.texts := fun hmem => by simp [get?, hmem] at h
    rw [intern, dif_neg hnew]
    simp [size]
  resolve_of_get? h := by rw [resolve, get?_eq_some_iff.1 h, Option.getD_some]

/-- What the parser calls is the interface at this store. -/
@[simp] theorem textStore_intern (s : Interner) (text : String) :
    TextStore.intern s text = s.intern text := rfl

/-- Whether a store has the texts of another one at the same places, and perhaps more. -/
def Extends (later earlier : Interner) : Prop := earlier.texts <+: later.texts

theorem Extends.trans {a b c : Interner} (h : c.Extends b) (h' : b.Extends a) : c.Extends a :=
  List.IsPrefix.trans h' h

/-- The list of texts is only appended to. That is more than the laws ask for. -/
theorem extends_intern (s : Interner) (text : String) : (s.intern text).2.Extends s := by
  unfold Extends
  rw [texts_intern]
  split
  · exact List.prefix_refl _
  · exact List.prefix_append _ _

theorem extends_storeAll (s : Interner) (constants : List Constant) :
    (TextStore.storeAll s constants).2.Extends s := by
  induction constants generalizing s with
  | nil => exact List.prefix_refl _
  | cons c rest ih =>
    refine (ih _).trans ?_
    cases c with
    | number x => exact List.prefix_refl _
    | text text => exact s.extends_intern text

end Interner

end OnePass
