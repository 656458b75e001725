/-
Ipfrs.Knowledge.Tiered — the hot tier over a persistent backend (`tiered.rs`).

The backend is the trait `ipfrs_storage::BlockStore`, here `ColdStore`: each of
its operations may fail, and may change the backend's own state. A backend is
faithful when its operations act on a finite map from identifiers to data, and a
failed operation leaves that map alone. `MemoryBlockStore` (`memory.rs`) is one.

`hydrate` is a stack loop; it is given a number of rounds. `flush` is given the
order in which the dirty set is iterated, which a `HashSet` does not promise.
-/
import Ipfrs.Knowledge.Store
import Ipfrs.Lib.Loop

namespace Ipfrs.Knowledge

open Ipfrs.Core Ipfrs.Lib

/-! ## The backend -/

/-- `trait ipfrs_storage::BlockStore`: the operations the knowledge layer calls. -/
class ColdStore (C : Type) where
  put : Block → EStateM Error C Unit
  get : Cid → EStateM Error C (Option Block)
  delete : Cid → EStateM Error C Unit
  listCids : EStateM Error C (List Cid)

/-- A backend that acts on a finite map, even when it fails. -/
class ColdStore.Faithful (C : Type) [ColdStore C] where
  lookup : C → Cid → Option (List UInt8)
  /-- Finitely many identifiers, among them all that are held. -/
  support : C → List Cid
  mem_support : ∀ {c : C} {cid : Cid} {data : List UInt8},
    lookup c cid = some data → cid ∈ support c
  put_ok : ∀ {c c' : C} {b : Block}, ColdStore.put b c = .ok () c' →
    lookup c' = Function.update (lookup c) b.cid (some b.data)
  put_error : ∀ {c c' : C} {b : Block} {e : Error}, ColdStore.put b c = .error e c' →
    lookup c' = lookup c
  get_ok : ∀ {c c' : C} {cid : Cid} {r : Option Block}, ColdStore.get cid c = .ok r c' →
    r.map Block.data = lookup c cid ∧ lookup c' = lookup c
  get_error : ∀ {c c' : C} {cid : Cid} {e : Error}, ColdStore.get cid c = .error e c' →
    lookup c' = lookup c
  delete_ok : ∀ {c c' : C} {cid : Cid}, ColdStore.delete cid c = .ok () c' →
    lookup c' = Function.update (lookup c) cid none
  delete_error : ∀ {c c' : C} {cid : Cid} {e : Error}, ColdStore.delete cid c = .error e c' →
    lookup c' = lookup c
  listCids_ok : ∀ {c c' : C} {l : List Cid}, ColdStore.listCids c = .ok l c' →
    (∀ cid, cid ∈ l ↔ (lookup c cid).isSome) ∧ lookup c' = lookup c
  listCids_error : ∀ {c c' : C} {e : Error}, ColdStore.listCids c = .error e c' →
    lookup c' = lookup c

/-- The size of what is held under an identifier. -/
def sizeIn (held : Cid → Option (List UInt8)) (cid : Cid) : Nat :=
  ((held cid).map List.length).getD 0

/-- `MemoryBlockStore`: the `DashMap` as the list of its insertions, the latest
first. -/
structure MemoryBlockStore where
  blocks : List Block := []
  deriving DecidableEq

namespace MemoryBlockStore

def find (s : MemoryBlockStore) (cid : Cid) : Option Block :=
  s.blocks.find? (fun b => b.cid == cid)

instance : ColdStore MemoryBlockStore where
  put b := modify (fun s => { blocks := b :: s.blocks })
  get cid := do
    let s ← MonadState.get
    pure (s.find cid)
  delete cid := modify (fun s => { blocks := s.blocks.filter (fun b => b.cid != cid) })
  listCids := do
    let s ← MonadState.get
    pure (s.blocks.map Block.cid).dedup

theorem find_put (s : MemoryBlockStore) (b : Block) :
    (fun cid => (MemoryBlockStore.find { blocks := b :: s.blocks } cid).map Block.data)
      = Function.update (fun cid => (s.find cid).map Block.data) b.cid (some b.data) := by
  funext cid
  by_cases hcid : cid = b.cid
  · subst hcid
    simp [find]
  · simp [find, hcid, Ne.symm hcid]

theorem find_delete (s : MemoryBlockStore) (cid : Cid) :
    (fun cid' => (MemoryBlockStore.find
        { blocks := s.blocks.filter (fun b => b.cid != cid) } cid').map Block.data)
      = Function.update (fun cid' => (s.find cid').map Block.data) cid none := by
  funext cid'
  simp only [find, List.find?_filter]
  by_cases hcid : cid' = cid
  · subst hcid
    rw [Function.update_self, Option.map_eq_none_iff, List.find?_eq_none]
    intro b _
    simp
  · rw [Function.update_of_ne hcid]
    congr 2
    funext b
    by_cases hb : b.cid = cid'
    · simp [hb, hcid]
    · simp [hb]

theorem mem_cids_iff (s : MemoryBlockStore) (cid : Cid) :
    cid ∈ s.blocks.map Block.cid ↔ ((s.find cid).map Block.data).isSome := by
  rw [Option.isSome_map, find, List.find?_isSome, List.mem_map]
  simp

instance : ColdStore.Faithful MemoryBlockStore where
  lookup s cid := (s.find cid).map Block.data
  support s := s.blocks.map Block.cid
  mem_support := by
    intro s cid data h
    rw [mem_cids_iff, h]
    rfl
  put_ok := by
    intro s s' b h
    cases h
    exact find_put s b
  put_error := by
    intro s s' b e h
    cases h
  get_ok := by
    intro s s' cid r h
    cases h
    exact ⟨rfl, rfl⟩
  get_error := by
    intro s s' cid e h
    cases h
  delete_ok := by
    intro s s' cid h
    cases h
    exact find_delete s cid
  delete_error := by
    intro s s' cid e h
    cases h
  listCids_ok := by
    intro s s' l h
    cases h
    refine ⟨fun cid => ?_, rfl⟩
    rw [List.mem_dedup, mem_cids_iff]
  listCids_error := by
    intro s s' e h
    cases h

end MemoryBlockStore

/-! ## Links -/

mutual

/-- `collect_links_filtered`: the links in the order they are pushed. -/
def collectLinksFiltered (skipPrev : Bool) : Ipld → List Cid
  | .link c => [c]
  | .map entries => collectLinksMap skipPrev entries
  | .list items => collectLinksList skipPrev items
  | _ => []

def collectLinksMap (skipPrev : Bool) : List (String × Ipld) → List Cid
  | [] => []
  | (k, v) :: rest =>
    (if skipPrev && k == "prev" then [] else collectLinksFiltered skipPrev v)
      ++ collectLinksMap skipPrev rest

def collectLinksList (skipPrev : Bool) : List Ipld → List Cid
  | [] => []
  | v :: rest => collectLinksFiltered skipPrev v ++ collectLinksList skipPrev rest

end

/-- `collect_links`. -/
def collectLinks (ipld : Ipld) : List Cid := collectLinksFiltered false ipld

/-- The links followed from a block: none if it is not DAG-CBOR. -/
def blockLinks [CidCrate] (collect : Ipld → List Cid) (data : List UInt8) : List Cid :=
  match Ipld.fromDagCbor data with
  | .ok ipld => collect ipld
  | .error _ => []

/-! ## The store -/

/-- `TieredStore`. -/
structure TieredStore (C : Type) where
  hot : MemStore := {}
  dirty : List Cid := []
  cold : C

section

variable {C : Type}

/-- `TieredStore::new`. -/
def TieredStore.new (cold : C) : TieredStore C := { cold }

instance : BlockStore (TieredStore C) where
  put s cid bytes :=
    { s with dirty := s.dirty.insert cid, hot := BlockStore.put s.hot cid bytes }
  get s cid := BlockStore.get s.hot cid

instance : BlockStore.Faithful (TieredStore C) where
  history s := s.hot.blocks
  history_put _ _ _ := rfl
  get_eq _ _ := rfl

variable [ColdStore C]

/-- One dirty block of `flush`. -/
def flushOne (cid : Cid) : EStateM KError (TieredStore C) Unit := fun s =>
  match BlockStore.get s.hot cid with
  | none => .ok () s
  | some bytes =>
    match ColdStore.put { cid, data := bytes } s.cold with
    | .ok () cold => .ok () { s with cold, dirty := s.dirty.erase cid }
    | .error e cold => .error (.core e) { s with cold }

/-- `flush`, over the dirty set in the order it is iterated. -/
def flush : List Cid → EStateM KError (TieredStore C) Unit
  | [] => pure ()
  | cid :: cids => do
      flushOne cid
      flush cids

/-- The loop of `hydrate`: the top of the frontier first. -/
structure HydrateState (C : Type) where
  seen : List Cid := []
  frontier : List Cid
  fetched : Nat := 0
  store : TieredStore C

variable [CidCrate]

/-- One round of `hydrate`. -/
def hydrateBody (st : HydrateState C) :
    HydrateState C ⊕ EStateM.Result KError (TieredStore C) Nat :=
  match st.frontier with
  | [] => .inr (.ok st.fetched st.store)
  | cid :: frontier =>
    if cid ∈ st.seen then .inl { st with frontier }
    else if BlockStore.has st.store.hot cid then
      .inl { st with frontier, seen := cid :: st.seen }
    else
      match ColdStore.get cid st.store.cold with
      | .error e cold => .inr (.error (.core e) { st.store with cold })
      | .ok none cold =>
        .inl { st with frontier, seen := cid :: st.seen, store := { st.store with cold } }
      | .ok (some block) cold =>
        .inl
          { seen := cid :: st.seen
            frontier := (blockLinks collectLinks block.data).reverse ++ frontier
            fetched := st.fetched + 1
            store := { st.store with hot := BlockStore.put st.store.hot cid block.data, cold } }

/-- `hydrate`, with `rounds` rounds for the loop. -/
def hydrate (rounds : Nat) (root : Cid) (s : TieredStore C) :
    Option (EStateM.Result KError (TieredStore C) Nat) :=
  Loop.run hydrateBody rounds { frontier := [root], store := s }

end

end Ipfrs.Knowledge
