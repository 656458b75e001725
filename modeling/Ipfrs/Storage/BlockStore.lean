/-
Ipfrs.Storage.BlockStore — the trait of block stores (`traits.rs`).

`ColdStore` has the part of the trait that the knowledge layer calls; here are the
other operations a wrapper calls on the store below it. A faithful store acts on a map
from identifiers to data, and a failed call, also one on many blocks, leaves the map
alone.

`FaultyStore` is a memory store some of whose calls fail: a list says which.
-/
import Ipfrs.Knowledge.Tiered

namespace Ipfrs.Storage

open Ipfrs.Core Ipfrs.Lib
open Ipfrs.Knowledge (ColdStore MemoryBlockStore)

class BlockStore (C : Type) extends ColdStore C where
  putMany : List Block → EStateM Error C Unit
  getMany : List Cid → EStateM Error C (List (Option Block))
  has : Cid → EStateM Error C Bool
  hasMany : List Cid → EStateM Error C (List Bool)
  deleteMany : List Cid → EStateM Error C Unit

/-- What a store holds under its identifiers. -/
abbrev Content := Cid → Option (List UInt8)

namespace Content

def get (m : Content) (cid : Cid) : Option Block := (m cid).map (fun data => { cid, data })

def has (m : Content) (cid : Cid) : Bool := (m cid).isSome

def putAll (m : Content) (blocks : List Block) : Content :=
  blocks.foldl (fun m b => Function.update m b.cid (some b.data)) m

def deleteAll (m : Content) (cids : List Cid) : Content :=
  cids.foldl (fun m cid => Function.update m cid none) m

theorem get_eq_none {m : Content} {cid : Cid} (h : m.has cid = false) : m.get cid = none := by
  rw [has, Option.isSome_eq_false_iff, Option.isNone_iff_eq_none] at h
  rw [get, h, Option.map_none]

theorem get_eq_some {m : Content} {cid : Cid} {b : Block} (h : m.get cid = some b) :
    b.cid = cid ∧ m b.cid = some b.data := by
  obtain ⟨data, hdata, rfl⟩ := Option.map_eq_some_iff.mp h
  exact ⟨rfl, hdata⟩

theorem has_update_apply (m : Content) (c : Cid) (v : Option (List UInt8)) (cid : Cid) :
    has (Function.update m c v) cid = if cid = c then v.isSome else m.has cid := by
  by_cases hc : cid = c
  · subst hc
    simp [has]
  · simp [has, hc]

theorem has_update {m : Content} {cid : Cid} {b : Block}
    (h : has (Function.update m b.cid (some b.data)) cid = true) :
    cid = b.cid ∨ m.has cid = true := by
  rw [has_update_apply] at h
  split at h
  · next hc => exact .inl hc
  · exact .inr h

theorem has_update_none {m : Content} {cid cid' : Cid}
    (h : has (Function.update m cid' none) cid = true) : m.has cid = true := by
  rw [has_update_apply] at h
  split at h
  · cases h
  · exact h

theorem has_putAll_iff {cid : Cid} : ∀ (blocks : List Block) {m : Content},
    has (putAll m blocks) cid = true ↔ cid ∈ blocks.map Block.cid ∨ m.has cid = true
  | [], m => by simp [putAll]
  | b :: blocks, m => by
    rw [show putAll m (b :: blocks) = putAll (Function.update m b.cid (some b.data)) blocks
      from rfl, has_putAll_iff blocks, has_update_apply, List.map_cons, List.mem_cons]
    by_cases hc : cid = b.cid <;> simp [hc]

theorem deleteAll_of_notMem {cid : Cid} : ∀ (cids : List Cid) {m : Content}, cid ∉ cids →
    deleteAll m cids cid = m cid
  | [], _, _ => rfl
  | c :: cids, m, h => by
    rw [List.mem_cons, not_or] at h
    show deleteAll (Function.update m c none) cids cid = m cid
    rw [deleteAll_of_notMem cids h.2, Function.update_of_ne h.1]

theorem has_deleteAll {cid : Cid} : ∀ (cids : List Cid) {m : Content},
    has (deleteAll m cids) cid = true → m.has cid = true
  | [], _, h => h
  | _ :: cids, _, h => has_update_none (has_deleteAll cids h)

/-! ### One content under each identifier -/

section Named

variable {dataOf : Cid → List UInt8} {m : Content}

/-- Under each identifier there is the data that it names, or nothing. -/
def Named (dataOf : Cid → List UInt8) (m : Content) : Prop :=
  ∀ cid data, m cid = some data → data = dataOf cid

/-- What one map holds the other holds too. -/
def Sub (m m' : Content) : Prop := ∀ cid data, m cid = some data → m' cid = some data

theorem Named.update (hm : Named dataOf m) {b : Block} (hb : b.data = dataOf b.cid) :
    Named dataOf (Function.update m b.cid (some b.data)) := by
  intro cid data h
  by_cases hc : cid = b.cid
  · subst hc
    rw [Function.update_self] at h
    cases h
    exact hb
  · rw [Function.update_of_ne hc] at h
    exact hm cid data h

theorem Named.sub_update (hm : Named dataOf m) {b : Block} (hb : b.data = dataOf b.cid) :
    Sub m (Function.update m b.cid (some b.data)) := by
  intro cid data h
  by_cases hc : cid = b.cid
  · subst hc
    rw [Function.update_self, hm b.cid data h, hb]
  · rwa [Function.update_of_ne hc]

theorem Named.putAll : ∀ (blocks : List Block) {m : Content}, Named dataOf m →
    (∀ b ∈ blocks, b.data = dataOf b.cid) → Named dataOf (putAll m blocks)
  | [], _, hm, _ => hm
  | b :: blocks, _, hm, hb => by
    rw [List.forall_mem_cons] at hb
    exact Named.putAll blocks (hm.update hb.1) hb.2

theorem Named.sub_putAll : ∀ (blocks : List Block) {m : Content}, Named dataOf m →
    (∀ b ∈ blocks, b.data = dataOf b.cid) → Sub m (Content.putAll m blocks)
  | [], _, _, _ => fun _ _ h => h
  | b :: blocks, _, hm, hb => by
    rw [List.forall_mem_cons] at hb
    intro cid data h
    exact Named.sub_putAll blocks (hm.update hb.1) hb.2 cid data
      (hm.sub_update hb.1 cid data h)

theorem Named.putAll_of_mem : ∀ (blocks : List Block) {m : Content}, Named dataOf m →
    (∀ b ∈ blocks, b.data = dataOf b.cid) →
      ∀ b ∈ blocks, Content.putAll m blocks b.cid = some b.data
  | [], _, _, _, _, h => by cases h
  | b :: blocks, m, hm, hb, b', h => by
    rw [List.forall_mem_cons] at hb
    rcases List.mem_cons.mp h with rfl | h
    · exact Named.sub_putAll blocks (hm.update hb.1) hb.2 b'.cid b'.data
        (Function.update_self _ _ _)
    · exact Named.putAll_of_mem blocks (hm.update hb.1) hb.2 b' h

theorem Named.delete (hm : Named dataOf m) (cid : Cid) :
    Named dataOf (Function.update m cid none) := by
  intro c data h
  by_cases hc : c = cid
  · subst hc
    simp at h
  · rw [Function.update_of_ne hc] at h
    exact hm c data h

theorem Named.deleteAll : ∀ (cids : List Cid) {m : Content}, Named dataOf m →
    Named dataOf (deleteAll m cids)
  | [], _, hm => hm
  | cid :: cids, _, hm => Named.deleteAll cids (hm.delete cid)

end Named

end Content

/-- A store whose other operations act on the map too. -/
class BlockStore.Faithful (C : Type) [BlockStore C] extends ColdStore.Faithful C where
  get_cid : ∀ {c c' : C} {cid : Cid} {b : Block},
    ColdStore.get cid c = .ok (some b) c' → b.cid = cid
  putMany_ok : ∀ {c c' : C} {blocks : List Block}, BlockStore.putMany blocks c = .ok () c' →
    lookup c' = Content.putAll (lookup c) blocks
  putMany_error : ∀ {c c' : C} {blocks : List Block} {e : Error},
    BlockStore.putMany blocks c = .error e c' → lookup c' = lookup c
  getMany_ok : ∀ {c c' : C} {cids : List Cid} {r : List (Option Block)},
    BlockStore.getMany cids c = .ok r c' →
    r = cids.map (Content.get (lookup c)) ∧ lookup c' = lookup c
  getMany_error : ∀ {c c' : C} {cids : List Cid} {e : Error},
    BlockStore.getMany cids c = .error e c' → lookup c' = lookup c
  has_ok : ∀ {c c' : C} {cid : Cid} {r : Bool}, BlockStore.has cid c = .ok r c' →
    r = (lookup c cid).isSome ∧ lookup c' = lookup c
  has_error : ∀ {c c' : C} {cid : Cid} {e : Error}, BlockStore.has cid c = .error e c' →
    lookup c' = lookup c
  hasMany_ok : ∀ {c c' : C} {cids : List Cid} {r : List Bool},
    BlockStore.hasMany cids c = .ok r c' →
    r = cids.map (fun cid => (lookup c cid).isSome) ∧ lookup c' = lookup c
  hasMany_error : ∀ {c c' : C} {cids : List Cid} {e : Error},
    BlockStore.hasMany cids c = .error e c' → lookup c' = lookup c
  deleteMany_ok : ∀ {c c' : C} {cids : List Cid}, BlockStore.deleteMany cids c = .ok () c' →
    lookup c' = Content.deleteAll (lookup c) cids
  deleteMany_error : ∀ {c c' : C} {cids : List Cid} {e : Error},
    BlockStore.deleteMany cids c = .error e c' → lookup c' = lookup c

/-! ## What a call ends in -/

section Calls

variable {C : Type} [BlockStore C] [BlockStore.Faithful C]

open Ipfrs.Knowledge.ColdStore.Faithful (lookup)

theorem put_ends (b : Block) (c : C) : Ends (ColdStore.put b) c
      (fun _ c' => lookup c' = Function.update (lookup c) b.cid (some b.data))
      (fun c' => lookup c' = lookup c) :=
  .of_outcomes ColdStore.Faithful.put_ok ColdStore.Faithful.put_error

theorem get_ends (cid : Cid) (c : C) : Ends (ColdStore.get cid) c
      (fun r c' => r = Content.get (lookup c) cid ∧ lookup c' = lookup c)
      (fun c' => lookup c' = lookup c) := by
  refine .of_outcomes (fun {r c'} h => ?_) ColdStore.Faithful.get_error
  obtain ⟨hr, hsame⟩ := ColdStore.Faithful.get_ok h
  refine ⟨?_, hsame⟩
  rw [Content.get, ← hr]
  cases r with
  | none => rfl
  | some b => rw [Option.map_some, Option.map_some, ← BlockStore.Faithful.get_cid h]

theorem delete_ends (cid : Cid) (c : C) : Ends (ColdStore.delete cid) c
      (fun _ c' => lookup c' = Function.update (lookup c) cid none)
      (fun c' => lookup c' = lookup c) :=
  .of_outcomes ColdStore.Faithful.delete_ok ColdStore.Faithful.delete_error

theorem listCids_ends (c : C) : Ends ColdStore.listCids c
      (fun l c' => (∀ cid, cid ∈ l ↔ (lookup c cid).isSome) ∧ lookup c' = lookup c)
      (fun c' => lookup c' = lookup c) :=
  .of_outcomes ColdStore.Faithful.listCids_ok ColdStore.Faithful.listCids_error

theorem putMany_ends (blocks : List Block) (c : C) : Ends (BlockStore.putMany blocks) c
      (fun _ c' => lookup c' = Content.putAll (lookup c) blocks)
      (fun c' => lookup c' = lookup c) :=
  .of_outcomes BlockStore.Faithful.putMany_ok BlockStore.Faithful.putMany_error

theorem getMany_ends (cids : List Cid) (c : C) : Ends (BlockStore.getMany cids) c
      (fun r c' => r = cids.map (Content.get (lookup c)) ∧ lookup c' = lookup c)
      (fun c' => lookup c' = lookup c) :=
  .of_outcomes BlockStore.Faithful.getMany_ok BlockStore.Faithful.getMany_error

theorem has_ends (cid : Cid) (c : C) : Ends (BlockStore.has cid) c
      (fun r c' => r = Content.has (lookup c) cid ∧ lookup c' = lookup c)
      (fun c' => lookup c' = lookup c) :=
  .of_outcomes BlockStore.Faithful.has_ok BlockStore.Faithful.has_error

theorem hasMany_ends (cids : List Cid) (c : C) : Ends (BlockStore.hasMany cids) c
      (fun r c' => r = cids.map (Content.has (lookup c)) ∧ lookup c' = lookup c)
      (fun c' => lookup c' = lookup c) :=
  .of_outcomes BlockStore.Faithful.hasMany_ok BlockStore.Faithful.hasMany_error

theorem deleteMany_ends (cids : List Cid) (c : C) : Ends (BlockStore.deleteMany cids) c
      (fun _ c' => lookup c' = Content.deleteAll (lookup c) cids)
      (fun c' => lookup c' = lookup c) :=
  .of_outcomes BlockStore.Faithful.deleteMany_ok BlockStore.Faithful.deleteMany_error

end Calls

/-! ## A store with faults -/

/-- The blocks held, the latest first, and which of the next calls fail. -/
structure FaultyStore where
  blocks : List Block
  faults : List Bool
  deriving DecidableEq

namespace FaultyStore

/-- What blocks say under each identifier, the latest first. -/
def contentOf (blocks : List Block) : Content :=
  fun cid => (MemoryBlockStore.find { blocks } cid).map Block.data

def content (s : FaultyStore) : Content := contentOf s.blocks

/-- A call that fails if the next fault says so, and else acts on the blocks. -/
def attempt {α : Type} (f : FaultyStore → α × List Block) : EStateM Error FaultyStore α := fun s =>
  match s.faults with
  | true :: faults => .error (.storage "fault") { s with faults }
  | _ => .ok (f s).1 { blocks := (f s).2, faults := s.faults.tail }

instance : BlockStore FaultyStore where
  put b := attempt (fun s => ((), b :: s.blocks))
  get cid := attempt (fun s => (Content.get s.content cid, s.blocks))
  delete cid := attempt (fun s => ((), s.blocks.filter (fun b => b.cid != cid)))
  listCids := attempt (fun s => ((s.blocks.map Block.cid).dedup, s.blocks))
  putMany blocks := attempt (fun s => ((), blocks.reverse ++ s.blocks))
  getMany cids := attempt (fun s => (cids.map (Content.get s.content), s.blocks))
  has cid := attempt (fun s => ((s.content cid).isSome, s.blocks))
  hasMany cids := attempt (fun s => (cids.map (fun cid => (s.content cid).isSome), s.blocks))
  deleteMany cids := attempt (fun s =>
    ((), cids.foldl (fun blocks cid => blocks.filter (fun b => b.cid != cid)) s.blocks))

theorem attempt_ok {α : Type} {f : FaultyStore → α × List Block} {s s' : FaultyStore} {a : α}
    (h : attempt f s = .ok a s') : a = (f s).1 ∧ s'.blocks = (f s).2 := by
  rw [attempt] at h
  split at h
  · cases h
  · cases h
    exact ⟨rfl, rfl⟩

theorem attempt_error {α : Type} {f : FaultyStore → α × List Block} {s s' : FaultyStore}
    {e : Error} (h : attempt f s = .error e s') : s'.content = s.content := by
  rw [attempt] at h
  split at h
  · cases h
    rfl
  · cases h

theorem content_eq {s s' : FaultyStore} (h : s'.blocks = s.blocks) : s'.content = s.content := by
  show contentOf s'.blocks = contentOf s.blocks
  rw [h]

theorem contentOf_putAll : ∀ (new blocks : List Block),
    contentOf (new.reverse ++ blocks) = Content.putAll (contentOf blocks) new
  | [], _ => rfl
  | b :: new, blocks => by
    rw [List.reverse_cons, List.append_assoc, List.singleton_append,
      contentOf_putAll new (b :: blocks), Content.putAll, Content.putAll, List.foldl_cons]
    congr 1
    exact MemoryBlockStore.find_put { blocks } b

theorem contentOf_deleteAll : ∀ (cids : List Cid) (blocks : List Block),
    contentOf (cids.foldl (fun blocks cid => blocks.filter (fun b => b.cid != cid)) blocks)
      = Content.deleteAll (contentOf blocks) cids
  | [], _ => rfl
  | cid :: cids, blocks => by
    rw [List.foldl_cons, contentOf_deleteAll cids, Content.deleteAll, Content.deleteAll,
      List.foldl_cons]
    congr 1
    exact MemoryBlockStore.find_delete { blocks } cid

instance : BlockStore.Faithful FaultyStore where
  lookup s := s.content
  support s := s.blocks.map Block.cid
  mem_support := by
    intro s cid data h
    have hheld : (contentOf s.blocks cid).isSome = true := by
      rw [show contentOf s.blocks cid = some data from h, Option.isSome_some]
    exact (MemoryBlockStore.mem_cids_iff { blocks := s.blocks } cid).mpr hheld
  put_ok := by
    intro s s' b h
    have hblocks := (attempt_ok h).2
    show contentOf s'.blocks = _
    rw [hblocks]
    exact MemoryBlockStore.find_put { blocks := s.blocks } b
  put_error := attempt_error
  get_ok := by
    intro s s' cid r h
    obtain ⟨hr, hblocks⟩ := attempt_ok h
    refine ⟨?_, content_eq hblocks⟩
    rw [hr, Content.get]
    cases s.content cid <;> rfl
  get_error := attempt_error
  delete_ok := by
    intro s s' cid h
    have hblocks := (attempt_ok h).2
    show contentOf s'.blocks = _
    rw [hblocks]
    exact MemoryBlockStore.find_delete { blocks := s.blocks } cid
  delete_error := attempt_error
  listCids_ok := by
    intro s s' l h
    obtain ⟨hl, hblocks⟩ := attempt_ok h
    refine ⟨fun cid => ?_, content_eq hblocks⟩
    rw [hl, List.mem_dedup]
    exact MemoryBlockStore.mem_cids_iff { blocks := s.blocks } cid
  listCids_error := attempt_error
  get_cid := by
    intro s s' cid b h
    have hb := (attempt_ok h).1
    rw [Content.get] at hb
    obtain ⟨data, -, rfl⟩ := Option.map_eq_some_iff.mp hb.symm
    rfl
  putMany_ok := by
    intro s s' blocks h
    have hblocks := (attempt_ok h).2
    show contentOf s'.blocks = _
    rw [hblocks]
    exact contentOf_putAll blocks s.blocks
  putMany_error := attempt_error
  getMany_ok := by
    intro s s' cids r h
    exact ⟨(attempt_ok h).1, content_eq (attempt_ok h).2⟩
  getMany_error := attempt_error
  has_ok := by
    intro s s' cid r h
    exact ⟨(attempt_ok h).1, content_eq (attempt_ok h).2⟩
  has_error := attempt_error
  hasMany_ok := by
    intro s s' cids r h
    exact ⟨(attempt_ok h).1, content_eq (attempt_ok h).2⟩
  hasMany_error := attempt_error
  deleteMany_ok := by
    intro s s' cids h
    have hblocks := (attempt_ok h).2
    show contentOf s'.blocks = _
    rw [hblocks]
    exact contentOf_deleteAll cids s.blocks
  deleteMany_error := attempt_error

end FaultyStore

/-! ## Stores in front of another store, as their clients see them

A request is a call of a wrapper; its answer is right if the map of the store below
gives it (`Right`). `Reads` is what a reading operation of a wrapper has to do: answer
from the map and leave the map and the wrapper's invariant alone, also when it fails. -/

open Ipfrs.Knowledge.ColdStore.Faithful (lookup)

inductive Request
  | put (b : Block)
  | putMany (blocks : List Block)
  | get (cid : Cid)
  | getMany (cids : List Cid)
  | has (cid : Cid)
  | hasMany (cids : List Cid)
  | delete (cid : Cid)
  | deleteMany (cids : List Cid)
  | rebuildFilter
  | clearCache

inductive Answer
  | done
  | block (r : Option Block)
  | blocks (rs : List (Option Block))
  | present (r : Bool)
  | presents (rs : List Bool)
  deriving DecidableEq

namespace Content

/-- The answer that a map gives; a request that reads nothing has none. -/
def answer (m : Content) : Request → Option Answer
  | .get cid => some (.block (m.get cid))
  | .getMany cids => some (.blocks (cids.map m.get))
  | .has cid => some (.present (m.has cid))
  | .hasMany cids => some (.presents (cids.map m.has))
  | _ => none

/-- An answer that the map gives too. -/
def Right (m : Content) (r : Request) (a : Answer) : Prop := ∀ b, m.answer r = some b → a = b

end Content

section Wrapper

variable {C W : Type} [BlockStore C] [BlockStore.Faithful C] (store : W → C) (Inv : W → Prop)

/-- The map is the same and the invariant holds. -/
def Same (s s' : W) : Prop := lookup (store s') = lookup (store s) ∧ Inv s'

/-- An operation that answers from the map and changes nothing there. -/
def Reads {α : Type} (op : EStateM Error W α) (g : Content → α) : Prop :=
  ∀ s, Inv s → Ends op s (fun a s' => a = g (lookup (store s)) ∧ Same store Inv s s')
    (Same store Inv s)

variable {store Inv}

/-- Reading the store below reads, if the invariant sees no more of it than its map. -/
theorem Reads.zoom {α : Type} {m : EStateM Error C α} {g : Content → α} {put : C → W → W}
    (hstore : ∀ c s, store (put c s) = c)
    (hinv : ∀ s c, Inv s → lookup c = lookup (store s) → Inv (put c s))
    (hm : ∀ c, Ends m c (fun a c' => a = g (lookup c) ∧ lookup c' = lookup c)
      (fun c' => lookup c' = lookup c)) : Reads store Inv (zoom store put m) g := by
  intro s hs
  have hsame : ∀ c, lookup c = lookup (store s) → Same store Inv s (put c s) := by
    intro c hc
    refine ⟨?_, hinv s c hs hc⟩
    rw [hstore, hc]
  exact Ends.zoom ((hm (store s)).conseq (fun _ c hc => ⟨hc.1, hsame c hc.2⟩) hsame)

/-- Reading one after the other reads the list. -/
theorem Reads.eachInOrder {α β : Type} {op : α → EStateM Error W β} {g : Content → α → β}
    (hop : ∀ a, Reads store Inv (op a) (fun m => g m a)) (as : List α) :
    Reads store Inv (eachInOrder op as) (fun m => as.map (g m)) := by
  intro s hs
  have hone : ∀ a t, Same store Inv s t →
      Ends (op a) t (fun b s' => b = g (lookup (store s)) a ∧ Same store Inv s s')
        (Same store Inv s) := by
    intro a t ht
    have h := hop a t ht.2
    unfold Same at h
    rw [ht.1] at h
    exact h
  exact Ends.eachInOrder hone as s ⟨rfl, hs⟩

/-- The answer of a reading operation is right. -/
theorem Reads.answers {α : Type} {op : EStateM Error W α} {g : Content → α} {s : W}
    {r : Request} {wrap : α → Answer} (hop : Reads store Inv op g) (hs : Inv s)
    (hr : Content.answer (lookup (store s)) r = some (wrap (g (lookup (store s))))) :
    Ends (op >>= fun a => pure (wrap a)) s
      (fun a s' => Content.Right (lookup (store s)) r a ∧ Inv s') Inv := by
  refine Ends.bind ((hop s hs).conseq (fun _ _ h => h) (fun _ h => h.2)) ?_
  rintro a s' ⟨rfl, hsame⟩
  refine Ends.pure ⟨fun b hb => ?_, hsame.2⟩
  exact Option.some.inj (hr.symm.trans hb)

/-- An operation without an answer need only keep the invariant. -/
theorem Ends.answers_done {op : EStateM Error W Unit} {s : W} {r : Request}
    (hop : Ends op s (fun _ s' => Inv s') Inv) (hr : ∀ m : Content, m.answer r = none) :
    Ends (op >>= fun _ => pure Answer.done) s
      (fun a s' => Content.Right (lookup (store s)) r a ∧ Inv s') Inv := by
  refine Ends.bind hop ?_
  intro _ s' hs'
  refine Ends.pure ⟨fun b hb => ?_, hs'⟩
  rw [hr] at hb
  cases hb

end Wrapper

end Ipfrs.Storage
