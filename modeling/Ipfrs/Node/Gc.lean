/-
Ipfrs.Node.Gc — pins and garbage collection of a node (`pin.rs`, `gc.rs`).

Marking starts from every pin, whatever its type, and marks a block when it is pushed.
The order in which the pins are listed is that of the list; a `HashMap` promises none.
Of a pin manager only the pins are read here, and of the configuration not the minimum
age. Marking is given a number of rounds; a failed operation of the store ends the call
with the store as it is then.
-/
import Ipfrs.Knowledge.Tiered
import Ipfrs.Lib.Worklist

namespace Ipfrs.Node

open Ipfrs.Core Ipfrs.Lib
open Ipfrs.Knowledge (ColdStore MemoryBlockStore blockLinks)

/-! ## Pins -/

inductive PinType where
  /-- Only the specified block is pinned. -/
  | direct
  /-- The block and all referenced blocks are pinned. -/
  | recursive
  deriving DecidableEq, Repr

structure PinInfo where
  cid : Cid
  pinType : PinType
  name : Option String
  deriving DecidableEq

/-- The pins, at most one for each identifier. -/
structure PinManager where
  pins : List PinInfo
  distinct : (pins.map PinInfo.cid).Nodup

namespace PinManager

def new : PinManager := { pins := [], distinct := List.nodup_nil }

theorem distinct_filter (m : PinManager) (p : PinInfo → Bool) :
    ((m.pins.filter p).map PinInfo.cid).Nodup :=
  m.distinct.sublist (List.Sublist.map _ List.filter_sublist)

/-- A later pin of an identifier replaces the earlier one. -/
def pin (m : PinManager) (cid : Cid) (pinType : PinType) (name : Option String) : PinManager where
  pins := { cid, pinType, name } :: m.pins.filter (fun p => p.cid ≠ cid)
  distinct := by
    rw [List.map_cons, List.nodup_cons]
    exact ⟨by simp, m.distinct_filter _⟩

def unpin [CidStream] (m : PinManager) (cid : Cid) : Except Error PinManager :=
  if m.pins.any (fun p => p.cid = cid) then
    .ok { pins := m.pins.filter (fun p => p.cid ≠ cid), distinct := m.distinct_filter _ }
  else .error (.notFound ("Block not pinned: " ++ CidStream.display cid))

/-- `HashMap::remove`. -/
def remove (m : PinManager) (cid : Cid) : PinManager where
  pins := m.pins.filter (fun p => p.cid ≠ cid)
  distinct := m.distinct_filter _

def list (m : PinManager) : List PinInfo := m.pins

/-- The identifiers pinned with one type. -/
def cidsOf (m : PinManager) (t : PinType) : List Cid :=
  (m.list.filter (fun p => p.pinType = t)).map PinInfo.cid

theorem mem_cids (m : PinManager) (cid : Cid) :
    cid ∈ m.list.map PinInfo.cid ↔ cid ∈ m.cidsOf .direct ∨ cid ∈ m.cidsOf .recursive := by
  simp only [cidsOf, List.mem_map, List.mem_filter, decide_eq_true_eq]
  constructor
  · rintro ⟨p, hp, rfl⟩
    cases ht : p.pinType with
    | direct => exact .inl ⟨p, ⟨hp, ht⟩, rfl⟩
    | recursive => exact .inr ⟨p, ⟨hp, ht⟩, rfl⟩
  · rintro (⟨p, ⟨hp, -⟩, rfl⟩ | ⟨p, ⟨hp, -⟩, rfl⟩)
    · exact ⟨p, hp, rfl⟩
    · exact ⟨p, hp, rfl⟩

end PinManager

/-! ## Collecting -/

structure GcStats where
  blocksCollected : Nat
  bytesFreed : Nat
  blocksMarked : Nat
  blocksScanned : Nat
  cancelled : Bool
  deriving DecidableEq, Repr

structure GcConfig where
  minAgeSeconds : Nat := 3600
  /-- 0 for unlimited. -/
  maxBlocksPerRun : Nat := 0
  dryRun : Bool := false
  deriving DecidableEq, Repr

section

variable {C : Type} [ColdStore C]

/-- The state of `mark_reachable`: the top of the stack first. -/
structure MarkState (C : Type) where
  reachable : List Cid
  toVisit : List Cid
  store : C

def markBody [CidCrate] (st : MarkState C) :
    MarkState C ⊕ EStateM.Result Error C (List Cid) :=
  match st.toVisit with
  | [] => .inr (.ok st.reachable st.store)
  | cid :: toVisit =>
    match ColdStore.get cid st.store with
    | .error e store => .inr (.error e store)
    | .ok none store => .inl { st with toVisit, store }
    | .ok (some block) store =>
      let marked := Worklist.markNew (blockLinks Ipld.links block.data) (st.reachable, toVisit)
      .inl { reachable := marked.1, toVisit := marked.2, store }

def markReachable [CidCrate] (rounds : Nat) (pins : PinManager) (store : C) :
    Option (EStateM.Result Error C (List Cid)) :=
  let cids := (pins.list.map PinInfo.cid).reverse
  Loop.run markBody rounds { reachable := cids, toVisit := cids, store }

def dropBlock (config : GcConfig) (cid : Cid) : EStateM Error C Unit :=
  if config.dryRun then pure () else ColdStore.delete cid

/-- The loop over the listed identifiers, from the counts so far. -/
def sweep (config : GcConfig) (reachable : List Cid) :
    List Cid → Nat → Nat → EStateM Error C (Nat × Nat)
  | [], collected, freed => pure (collected, freed)
  | cid :: rest, collected, freed =>
    if config.maxBlocksPerRun > 0 ∧ collected ≥ config.maxBlocksPerRun then
      pure (collected, freed)
    else if cid ∈ reachable then sweep config reachable rest collected freed
    else do
      match ← ColdStore.get cid with
      | none => sweep config reachable rest collected freed
      | some block => do
          dropBlock config cid
          sweep config reachable rest (collected + 1) (freed + block.data.length)

/-- The part of `collect` after marking. -/
def sweepAll (config : GcConfig) (reachable : List Cid) : EStateM Error C GcStats := do
  let allCids ← ColdStore.listCids
  let (collected, freed) ← sweep config reachable allCids 0 0
  pure { blocksCollected := collected, bytesFreed := freed, blocksMarked := reachable.length,
         blocksScanned := allCids.length, cancelled := false }

def collect [CidCrate] (rounds : Nat) (pins : PinManager) (config : GcConfig) (store : C) :
    Option (EStateM.Result Error C GcStats) :=
  match markReachable rounds pins store with
  | none => none
  | some (.error e store) => some (.error e store)
  | some (.ok reachable store) => some (sweepAll config reachable store)

end

end Ipfrs.Node
