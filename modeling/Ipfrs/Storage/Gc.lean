/-
Ipfrs.Storage.Gc — mark-and-sweep collection of a store (`gc.rs` of `ipfrs-storage`).

All pinned blocks are marked at the start, and the search begins at the direct and the
recursive pins. A block is followed once, when it is marked anew, so a block that was
marked for its indirect pin is not followed. An error of the link resolver is noted and
the search goes on.

`Watch` is what a run sees of the outside: what each look at the cancel flag and at the
clock gives. The duration of the run and the collector's own statistics are left out.
-/
import Ipfrs.Knowledge.Tiered
import Ipfrs.Storage.Pinning

namespace Ipfrs.Storage

open Ipfrs.Core Ipfrs.Lib
open Ipfrs.Knowledge (ColdStore)

structure GcConfig where
  /-- 0 for unlimited. -/
  maxBlocksPerRun : Nat := 0
  timeLimit : Option Nat := none
  incremental : Bool := false
  batchSize : Nat := 1000
  dryRun : Bool := false
  deriving DecidableEq

structure GcResult where
  blocksCollected : Nat := 0
  bytesFreed : Nat := 0
  blocksMarked : Nat := 0
  blocksScanned : Nat := 0
  interrupted : Bool := false
  errors : List String := []
  deriving DecidableEq

/-- The looks of a run at the cancel flag and at the clock, by their number. Others may set
the flag and, as every call of `collect` does first, reset it at any time. -/
structure Watch where
  cancelled : Nat → Bool
  expired : Nat → Bool

/-- Once the run has seen the flag set, it is not reset before the run is over. -/
def Watch.Keeps (watch : Watch) : Prop :=
  ∀ look, watch.cancelled look = true → watch.cancelled (look + 1) = true

namespace GcConfig

/-- `should_stop`. -/
def shouldStop (config : GcConfig) (watch : Watch) (look : Nat) : Bool :=
  watch.cancelled look || (config.timeLimit.isSome && watch.expired look)

end GcConfig

/-! ## Marking -/

section

variable [CidCrate] [CidStream]

/-- The state of `mark_phase`: the top of the stack first. -/
structure Marking where
  marked : List (List UInt8)
  toProcess : List Cid
  errors : List String
  look : Nat

/-- One link of the block that is processed. -/
def markLink (state : Marking) (link : Cid) : Marking :=
  if CidCrate.toBytes link ∈ state.marked then state
  else
    { state with
      marked := CidCrate.toBytes link :: state.marked
      toProcess := link :: state.toProcess }

def markBody (linkResolver : LinkResolver) (watch : Watch) (state : Marking) :
    Marking ⊕ Marking :=
  match state.toProcess with
  | [] => .inr state
  | cid :: toProcess =>
    if watch.cancelled state.look then .inr { state with look := state.look + 1 }
    else
      match linkResolver cid with
      | .ok links =>
        .inl (links.foldl markLink { state with toProcess, look := state.look + 1 })
      | .error e =>
        .inl { state with
               toProcess
               errors := state.errors ++
                 ["Error resolving links for " ++ CidStream.display cid ++ ": " ++ e.display]
               look := state.look + 1 }

/-- The pins that the search begins at. -/
def isRoot (info : PinInfo) : Bool :=
  info.pinType = .direct || info.pinType = .recursive

/-- The loop over the listed pins. -/
def markStart (pins : List (Cid × PinInfo)) : Marking where
  marked := (pins.map (fun p => CidCrate.toBytes p.1)).reverse.dedup
  toProcess := ((pins.filter (fun p => isRoot p.2)).map Prod.fst).reverse
  errors := []
  look := 0

/-- `mark_phase`, with the entries of the pin map in some order. -/
def markPhase (rounds : Nat) (linkResolver : LinkResolver) (watch : Watch)
    (entries : List (Sigma fun _ : List UInt8 => PinInfo)) :
    Option (Except Error Marking) :=
  match PinManager.listPins entries with
  | .error e => some (.error e)
  | .ok pins => (Loop.run (markBody linkResolver watch) rounds (markStart pins)).map .ok

end

/-! ## Sweeping -/

section

variable [CidCrate] [CidStream] {C : Type} [ColdStore C]

/-- The size of a block that is held, and nothing where the store fails. -/
def heldSize (cid : Cid) : EStateM Error C (Option Nat) := fun store =>
  match ColdStore.get cid store with
  | .ok block store => .ok (block.map (fun b => b.data.length)) store
  | .error _ store => .ok none store

def addFreed (result : GcResult) (size : Option Nat) : GcResult :=
  { result with bytesFreed := result.bytesFreed + size.getD 0 }

/-- Deleting one block; a failure is noted. -/
def deleteOne (result : GcResult) (cid : Cid) : EStateM Error C GcResult := fun store =>
  match ColdStore.delete cid store with
  | .ok _ store => .ok { result with blocksCollected := result.blocksCollected + 1 } store
  | .error e store =>
    .ok { result with
          errors := result.errors ++
            ["Error deleting block " ++ CidStream.display cid ++ ": " ++ e.display] } store

/-- `delete_batch`. -/
def deleteBatch : List Cid → GcResult → EStateM Error C GcResult
  | [], result => pure result
  | cid :: rest, result => do
      let size ← heldSize cid
      let result ← deleteOne (addFreed result size) cid
      deleteBatch rest result

/-- The state of the loop over the listed blocks. -/
structure Sweeping where
  result : GcResult
  toDelete : List Cid
  batchCount : Nat
  look : Nat

/-- An unmarked block is counted in a dry run, and gathered else. -/
def gatherBlock (config : GcConfig) (state : Sweeping) (cid : Cid) : EStateM Error C Sweeping :=
  if config.dryRun then do
    let size ← heldSize cid
    let result := addFreed state.result size
    pure { state with
           result := { result with blocksCollected := result.blocksCollected + 1 }
           batchCount := state.batchCount + 1 }
  else
    pure { state with toDelete := state.toDelete ++ [cid], batchCount := state.batchCount + 1 }

/-- A full batch is deleted, in an incremental run. -/
def finishBatch (config : GcConfig) (state : Sweeping) : EStateM Error C Sweeping :=
  if config.incremental ∧ state.batchCount ≥ config.batchSize then
    if config.dryRun = false ∧ state.toDelete.isEmpty = false then do
      let result ← deleteBatch state.toDelete state.result
      pure { state with result, toDelete := [], batchCount := 0 }
    else pure { state with batchCount := 0 }
  else pure state

/-- The loop of `sweep_phase`. -/
def sweepLoop (config : GcConfig) (watch : Watch) (marked : List (List UInt8)) :
    List Cid → Sweeping → EStateM Error C Sweeping
  | [], state => pure state
  | cid :: rest, state =>
    let look := state.look
    let state := { state with look := look + 2 }
    if watch.cancelled look || config.shouldStop watch (look + 1) then
      pure { state with result := { state.result with interrupted := true } }
    else if config.maxBlocksPerRun > 0 ∧
        state.result.blocksCollected ≥ config.maxBlocksPerRun then
      pure { state with result := { state.result with interrupted := true } }
    else if CidCrate.toBytes cid ∈ marked then sweepLoop config watch marked rest state
    else do
      let state ← gatherBlock config state cid
      let state ← finishBatch config state
      sweepLoop config watch marked rest state

/-- `sweep_phase`. -/
def sweepPhase (config : GcConfig) (watch : Watch) (marking : Marking) (result : GcResult) :
    EStateM Error C GcResult := do
  let allCids ← ColdStore.listCids
  let state ← sweepLoop config watch marking.marked allCids
    { result := { result with blocksScanned := allCids.length }
      toDelete := []
      batchCount := 0
      look := marking.look }
  if config.dryRun = false ∧ state.toDelete.isEmpty = false then
    deleteBatch state.toDelete state.result
  else pure state.result

/-- `collect`, with the entries of the pin map in some order. -/
def collect (rounds : Nat) (linkResolver : LinkResolver) (config : GcConfig) (watch : Watch)
    (entries : List (Sigma fun _ : List UInt8 => PinInfo)) (store : C) :
    Option (EStateM.Result Error C GcResult) :=
  match markPhase rounds linkResolver watch entries with
  | none => none
  | some (.error e) => some (.error e store)
  | some (.ok marking) =>
    let result : GcResult :=
      { blocksMarked := marking.marked.length, errors := marking.errors }
    if config.shouldStop watch marking.look then
      some (.ok { result with interrupted := true } store)
    else
      some (sweepPhase config watch { marking with look := marking.look + 1 } result store)

end

end Ipfrs.Storage
