/-!
# OnePass.Interner

A store of texts in which every text occurs once. A text is known by its *handle*,
so two stored texts are equal exactly when their handles are. Texts are only ever
added, hence a handle keeps its meaning.
-/

namespace OnePass

/-- The name of a stored text. -/
structure Handle where
  index : Nat
  deriving DecidableEq, Repr, Inhabited

/-- Texts in the order in which they were first stored. -/
structure Interner where
  texts : List String
  nodup : texts.Nodup
  deriving DecidableEq, Repr

namespace Interner

def empty : Interner := ⟨[], .nil⟩

instance : Inhabited Interner := ⟨empty⟩

/-- How many texts are stored. -/
def size (s : Interner) : Nat := s.texts.length

def isEmpty (s : Interner) : Bool := s.texts.isEmpty

/-- The handle of a text that is stored. -/
def get? (s : Interner) (text : String) : Option Handle :=
  if text ∈ s.texts then some ⟨s.texts.idxOf text⟩ else none

/-- The text of a handle; empty for a handle of another store. -/
def resolve (s : Interner) (handle : Handle) : String :=
  s.texts[handle.index]?.getD ""

/-- Adding a text that is not there leaves every text once. -/
theorem nodup_append_singleton {texts : List String} {text : String} (h : texts.Nodup)
    (hnew : text ∉ texts) : (texts ++ [text]).Nodup := by
  refine List.nodup_append.2 ⟨h, List.pairwise_singleton .., ?_⟩
  intro a ha b hb hab
  rw [List.mem_singleton.1 hb] at hab
  exact hnew (hab ▸ ha)

/-- The handle of a text, which is stored unless it is there already. -/
def intern (s : Interner) (text : String) : Handle × Interner :=
  if h : text ∈ s.texts then (⟨s.texts.idxOf text⟩, s)
  else
    (⟨s.size⟩, ⟨s.texts ++ [text], nodup_append_singleton s.nodup h⟩)

theorem texts_intern (s : Interner) (text : String) :
    (s.intern text).2.texts = if text ∈ s.texts then s.texts else s.texts ++ [text] := by
  unfold intern; split <;> simp_all

end Interner

end OnePass
