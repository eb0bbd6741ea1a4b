import OnePass.Proofs.Compile.Unit
import OnePass.Proofs.Parser.Twins

/-!
# OnePass.Proofs.Compile.Session

One store for many compilations. What a store held before has no influence on a
compilation but for the handles of the texts, and whatever is compiled or stored later,
every text stays where it is (`compileUnit_shared`).

What has happened to a store before is known by the laws of stores alone (`TextStore`): the texts
that it held are held on, and those of the new pool are found in it. How the interner keeps its
texts is used nowhere here.
-/

namespace OnePass

/-! ### Sessions -/

/-- What is asked of a store: to keep a text, or to serve a compilation. -/
inductive Request where
  | intern (text : String)
  | compile (unit : UnitKind) (source : String)

namespace Interner

/-- The store behind a request. -/
def serve (s : Interner) : Request → Interner
  | .intern text => (s.intern text).2
  | .compile unit source => (compileUnit unit source s).2

/-- The store behind requests that come one after the other. -/
def serveAll (s : Interner) (requests : List Request) : Interner := requests.foldl serve s

/-- A compilation does with a store what storing the constants of its pool does, whether it
succeeds or not. -/
theorem keeps_compileUnit (unit : UnitKind) (source : String) (s : Interner) :
    TextStore.Keeps s (compileUnit unit source s).2 := by
  obtain ⟨constants, hstored⟩ := Parser.exists_stored unit (.ofSource source) s
  rw [compileUnit, Parser.ofSource, (Prod.mk.inj hstored).2]
  exact TextStore.keeps_storeAll s constants

theorem keeps_serve (s : Interner) (request : Request) : TextStore.Keeps s (s.serve request) := by
  cases request with
  | intern text => exact TextStore.keeps_intern s text
  | compile unit source => exact keeps_compileUnit unit source s

theorem keeps_serveAll (s : Interner) (requests : List Request) :
    TextStore.Keeps s (s.serveAll requests) := by
  induction requests generalizing s with
  | nil => exact .refl s
  | cons request rest ih => exact (s.keeps_serve request).trans (ih _)

end Interner

/-- Outcomes of compilations that differ in handles at most. -/
def SameButHandles :
    Except CompileError Chunk × Interner → Except CompileError Chunk × Interner → Prop
  | (.ok c, strings), (.ok d, strings') =>
    c.code = d.code
      ∧ c.constants.map (·.content strings) = d.constants.map (·.content strings')
      ∧ (c.constants.map fun v => c.constants.map v.same)
          = d.constants.map fun v => d.constants.map v.same
  | (.error e, _), (.error e', _) => e = e'
  | _, _ => False

theorem Chunk.indexOf?_eq (c : Chunk) (v : Value) :
    c.indexOf? v = (c.constants.map v.same).findIdx? id := by
  rw [List.findIdx?_map, Chunk.indexOf?]
  exact congrArg (c.constants.findIdx? ·) (funext fun w => w.same_comm v)

/-- Pools that differ in handles at most have their first equal entries at the same places. -/
theorem SameButHandles.indexOf?_eq {c d : Chunk} {strings strings' : Interner}
    (h : SameButHandles (.ok c, strings) (.ok d, strings')) :
    c.constants.map c.indexOf? = d.constants.map d.indexOf? := by
  have hrows : ∀ c : Chunk, c.constants.map c.indexOf?
      = (c.constants.map fun v => c.constants.map v.same).map (·.findIdx? id) := by
    intro c
    rw [List.map_map]
    exact List.map_congr_left fun v _ => c.indexOf?_eq v
  rw [hrows, hrows, h.2.2]

/-- The handles in a pool are those under which the texts are found. -/
theorem holds_ofSource (unit : UnitKind) (source : String) (s : Interner) :
    ∀ v ∈ (Parser.ofSource unit source s).chunk.constants,
      TextStore.Holds (Parser.ofSource unit source s).strings v := by
  obtain ⟨constants, hstored⟩ := Parser.exists_stored unit (.ofSource source) s
  obtain ⟨hpool, hstrings⟩ := Prod.mk.inj hstored
  rw [Parser.ofSource, hpool, hstrings]
  exact TextStore.holds_storeAll s constants

/-- The stores with which a source is compiled make no difference but for handles. -/
theorem sameButHandles_compileUnit (unit : UnitKind) (source : String) (s t : Interner) :
    SameButHandles (compileUnit unit source s) (compileUnit unit source t) := by
  have htwins := Parser.twins_ofSource (f := id) (a := source) rfl unit s t
  rw [compileUnit, compileUnit, Parser.result, Parser.result, htwins.hadError]
  cases (Parser.ofSource unit source t).hadError with
  | true =>
    have hreports := htwins.diagnostics
    rw [Diagnostic.mapLine_id, List.map_id, List.map_id] at hreports
    exact congrArg CompileError.mk hreports
  | false =>
    have hcode := htwins.code
    rw [CodeByte.mapLine_id, List.map_id, List.map_id] at hcode
    obtain ⟨constants, hs, ht⟩ := htwins.pool
    refine ⟨hcode, htwins.contents_eq, ?_⟩
    rw [(Prod.mk.inj hs).1, (Prod.mk.inj ht).1]
    exact TextStore.map_same_storeAll s t constants

/-- Whatever two stores hold, a source is compiled to the same with both, or fails in the
same way. Whatever a store is then asked for, compilations that fail included, a text that
it held is found under the same handle, and the handle has the same text. Such handles are
those that storing a text gives, and those in the pools of compiled chunks. -/
theorem compileUnit_shared (unit : UnitKind) (source : String) (s t : Interner) :
    SameButHandles (compileUnit unit source s) (compileUnit unit source t)
      ∧ (∀ (requests : List Request) text handle, s.get? text = some handle →
          (s.serveAll requests).get? text = some handle
            ∧ (s.serveAll requests).resolve handle = text)
      ∧ (∀ text, (s.intern text).2.get? text = some (s.intern text).1)
      ∧ ∀ chunk stored, compileUnit unit source s = (.ok chunk, stored) →
          ∀ handle, .text handle ∈ chunk.constants →
            stored.get? (stored.resolve handle) = some handle := by
  refine ⟨sameButHandles_compileUnit unit source s t, fun requests text handle h => ?_,
    TextStore.get?_intern_self s, fun chunk stored h handle hmem => ?_⟩
  · have hget := s.keeps_serveAll requests text handle h
    exact ⟨hget, TextStore.resolve_of_get? hget⟩
  · obtain ⟨-, rfl, rfl⟩ := compileUnit_eq_ok_iff.1 h
    exact holds_ofSource unit source s _ hmem

/-- A text that was stored first, then a compilation that stores another one, then one that
fails. -/
theorem exists_shared_store :
    ((Interner.empty.intern "a").2.serveAll
        [.compile .program "print \"b\";", .compile .program "print"]).get? "a" = some ⟨0⟩
      ∧ ((Interner.empty.intern "a").2.serveAll
          [.compile .program "print \"b\";", .compile .program "print"]).resolve ⟨0⟩ = "a"
      ∧ ∃ stored, compileUnit .program "print \"b\";" (Interner.empty.intern "a").2
            = (.ok ⟨[⟨0, 1⟩, ⟨0, 1⟩, ⟨19, 1⟩, ⟨20, 1⟩], [.text ⟨1⟩]⟩, stored)
          ∧ stored.get? (stored.resolve ⟨1⟩) = some ⟨1⟩ := by
  obtain ⟨-, hkept, -, hpool⟩ :=
    compileUnit_shared .program "print \"b\";" (Interner.empty.intern "a").2 .empty
  obtain ⟨hfound, hmeant⟩ := hkept
    [.compile .program "print \"b\";", .compile .program "print"] "a" ⟨0⟩ (by decide +kernel)
  have hok : compileUnit .program "print \"b\";" (Interner.empty.intern "a").2
      = (.ok ⟨[⟨0, 1⟩, ⟨0, 1⟩, ⟨19, 1⟩, ⟨20, 1⟩], [.text ⟨1⟩]⟩, ⟨["a", "b"], by decide⟩) :=
    compileUnit_eq_ok_iff.2 (by decide +kernel)
  exact ⟨hfound, hmeant, _, hok, hpool _ _ hok ⟨1⟩ (by decide)⟩

end OnePass
