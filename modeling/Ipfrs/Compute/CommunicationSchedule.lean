/-
Ipfrs.Compute.CommunicationSchedule — which activation moves when (`schedule.rs`).

An edge between two partitions is a transfer of the output of its source node, one for each
partition that needs it. The partitions are layered by the longest path to them: a queue takes
the partitions without open producers, and raises those it releases above itself. The transfers
of a layer are one stage.

The hash maps and sets are iterated in an order of their own (`ScheduleOrders`); where the order
cannot matter (a map filled from the keys of another, a maximum) it is left out. `none` is a
panic: an index of a map at a key that is not there, a count lowered below 0.
-/
import Mathlib.Data.List.Sort
import Mathlib.Data.Prod.Lex
import Mathlib.Algebra.Order.Ring.Nat
import Ipfrs.Lib.EntryMap
import Ipfrs.Lib.Loop

namespace Ipfrs.Compute

open Ipfrs.Lib

/-- The nodes assigned to one device. -/
structure Partition where
  partitionId : Nat
  nodeIds : List Nat
  deriving DecidableEq, Repr

/-- `GraphEdge`, from a producing node to a consuming one. -/
structure GraphEdge where
  fromNode : Nat
  toNode : Nat
  dataBytes : Nat
  deriving DecidableEq, Repr

/-- One activation that must move from a producing partition to a consuming one. -/
structure DataTransfer where
  fromPartition : Nat
  toPartition : Nat
  nodeId : Nat
  dataBytes : Nat
  deriving DecidableEq, Repr

/-- Transfers that may all proceed once earlier stages have completed. -/
structure CommunicationStage where
  stageId : Nat
  transfers : List DataTransfer
  deriving DecidableEq, Repr

structure CommunicationSchedule where
  stages : List CommunicationStage
  totalBytes : Nat
  deriving DecidableEq, Repr

/-- The iteration orders of the set of partition edges, of the map of in-degrees and of the map
of transfers. -/
structure ScheduleOrders where
  edges : List (Nat × Nat) → List (Nat × Nat)
  edges_perm : ∀ l, (edges l).Perm l
  partitions : List (Nat × Nat) → List (Nat × Nat)
  partitions_perm : ∀ l, (partitions l).Perm l
  transfers : List ((Nat × Nat × Nat) × Nat) → List ((Nat × Nat × Nat) × Nat)
  transfers_perm : ∀ l, (transfers l).Perm l

/-- `u64::MAX`. -/
def u64Max : Nat := 2 ^ 64 - 1

/-! ## Transfers -/

/-- `node_to_partition`: a node is with the last partition that lists it. -/
def nodeToPartition (partitions : List Partition) : Nat → Option Nat :=
  partitions.foldl (fun m p =>
    p.nodeIds.foldl (fun m nid => Function.update m nid (some p.partitionId)) m) (fun _ => none)

/-- The transfers, by source partition, destination partition and source node, and the edges of
the partition graph. -/
structure Collected where
  transferBytes : EntryMap (Nat × Nat × Nat) Nat
  partEdges : EntryMap (Nat × Nat) Unit

/-- One round of the loop over the edges. -/
def collectEdge (owner : Nat → Option Nat) (c : Collected) (e : GraphEdge) : Collected :=
  match owner e.fromNode, owner e.toNode with
  | some f, some t =>
    if f ≠ t then
      { transferBytes := c.transferBytes.alter (f, t, e.fromNode)
          (fun old => max (old.getD 0) e.dataBytes)
        partEdges := c.partEdges.alter (f, t) (fun _ => ()) }
    -- no transfer within a partition
    else c
  | _, _ => c

def collect (owner : Nat → Option Nat) (edges : List GraphEdge) : Collected :=
  edges.foldl (collectEdge owner) { transferBytes := .empty, partEdges := .empty }

/-! ## Layers -/

/-- `indeg` and `adj`. -/
structure PartitionMaps where
  indeg : EntryMap Nat Nat
  adj : EntryMap Nat (List Nat)

namespace PartitionMaps

def addPartition (m : PartitionMaps) (p : Partition) : PartitionMaps where
  indeg := m.indeg.alter p.partitionId (fun d => d.getD 0)
  adj := m.adj.alter p.partitionId (fun l => l.getD [])

def addEdge (m : PartitionMaps) (e : Nat × Nat) : PartitionMaps where
  indeg := (m.indeg.alter e.2 (fun d => d.getD 0 + 1)).alter e.1 (fun d => d.getD 0)
  adj := (m.adj.alter e.1 (fun l => l.getD [] ++ [e.2])).alter e.2 (fun l => l.getD [])

def build (partitions : List Partition) (partEdges : List (Nat × Nat)) : PartitionMaps :=
  partEdges.foldl addEdge
    (partitions.foldl addPartition { indeg := .empty, adj := .empty })

end PartitionMaps

/-- The state of the queue loop. -/
structure LevelState where
  level : EntryMap Nat Nat
  workingIndeg : EntryMap Nat Nat
  queue : List Nat
  processed : Nat

/-- A neighbour of a partition at level `lu`: raised above it, and released once no producer is
open. -/
def relax (lu : Nat) (s : LevelState) (v : Nat) : Option LevelState :=
  let level := s.level.alter v (fun lv => max (lv.getD 0) (lu + 1))
  match s.workingIndeg.get? v with
  | none => some { s with level }
  | some 0 => none
  | some (d + 1) =>
    some { s with
      level
      workingIndeg := s.workingIndeg.alter v (fun _ => d)
      queue := if d = 0 then s.queue ++ [v] else s.queue }

/-- One round of the queue loop. -/
def levelBody (adj : EntryMap Nat (List Nat)) (s : LevelState) :
    LevelState ⊕ Option LevelState :=
  match s.queue with
  | [] => .inr (some s)
  | u :: queue =>
    match s.level.get? u with
    | none => .inr none
    | some lu =>
      match ((adj.get? u).getD []).foldlM (relax lu)
          { s with queue, processed := s.processed + 1 } with
      | none => .inr none
      | some s => .inl s

/-- What the queue did not reach goes to a level of its own, the last. -/
def cycleFallback (s : LevelState) (total : Nat) : EntryMap Nat Nat :=
  if s.processed < total then
    let maxLevel := s.level.values.foldl max 0
    s.workingIndeg.entries.foldl (fun level e =>
      if e.2 > 0 then level.alter e.1 (fun _ => maxLevel + 1) else level) s.level
  else s.level

/-- The layering; the queue takes each partition once, so it needs a round more than there are
partitions. -/
def levels (orders : ScheduleOrders) (m : PartitionMaps) : Option (EntryMap Nat Nat) :=
  let start : LevelState :=
    { level := m.indeg.keys.foldl (fun level p => level.alter p (fun _ => 0)) .empty
      workingIndeg := m.indeg
      queue := ((orders.partitions m.indeg.entries).filter (fun e => e.2 = 0)).map Prod.fst
      processed := 0 }
  match Loop.run (levelBody m.adj) (m.indeg.size + 1) start with
  | some (some s) => some (cycleFallback s m.indeg.size)
  | _ => none

/-! ## Stages -/

/-- The sort key within a stage. -/
def DataTransfer.key (t : DataTransfer) : Nat × Nat × Nat :=
  (t.fromPartition, t.toPartition, t.nodeId)

/-- `sort_unstable_by_key`: the keys of a stage are distinct. -/
def sortTransfers (transfers : List DataTransfer) : List DataTransfer :=
  transfers.insertionSort (fun a b =>
    toLex (a.fromPartition, toLex (a.toPartition, a.nodeId))
      ≤ toLex (b.fromPartition, toLex (b.toPartition, b.nodeId)))

/-- One round of the loop over the transfers: the total, and the transfers by level. -/
def addTransfer (level : EntryMap Nat Nat) (s : Nat × EntryMap Nat (List DataTransfer))
    (e : (Nat × Nat × Nat) × Nat) : Nat × EntryMap Nat (List DataTransfer) :=
  let stage := (level.get? e.1.1).getD 0
  let transfer : DataTransfer :=
    { fromPartition := e.1.1, toPartition := e.1.2.1, nodeId := e.1.2.2, dataBytes := e.2 }
  (min (s.1 + e.2) u64Max, s.2.alter stage (fun old => old.getD [] ++ [transfer]))

def buildCommunicationSchedule (orders : ScheduleOrders) (partitions : List Partition)
    (edges : List GraphEdge) : Option CommunicationSchedule := do
  let owner := nodeToPartition partitions
  let collected := collect owner edges
  let partEdges := orders.edges collected.partEdges.keys
  let level ← levels orders (PartitionMaps.build partitions partEdges)
  let (totalBytes, byStage) :=
    (orders.transfers collected.transferBytes.entries).foldl (addTransfer level) (0, .empty)
  let stageIds := byStage.keys.insertionSort (· ≤ ·)
  let stages := stageIds.mapIdx (fun newId oldId =>
    { stageId := newId, transfers := sortTransfers ((byStage.get? oldId).getD []) })
  some { stages, totalBytes }

end Ipfrs.Compute
