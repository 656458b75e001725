/-
Ipfrs.Storage.Pinning — the reference-counted pins of a store (`pinning.rs`).

A pin manager maps the bytes of a CID to what is known of its pin. A recursive pin pins
the root and, as indirect, every block that its link resolver reaches; an error of the
resolver ends the call with the pins made so far. The operations that follow links are
given a number of rounds. The time of a pin is read by nothing here.
-/
import Ipfrs.Core.Cid
import Ipfrs.Lib.Loop
import Mathlib.Data.List.AList

namespace Ipfrs.Storage

open Ipfrs.Core Ipfrs.Lib

inductive PinType where
  /-- Only this block. -/
  | direct
  /-- This block and all referenced blocks. -/
  | recursive
  /-- Pinned through a recursive pin. -/
  | indirect
  deriving DecidableEq

structure PinInfo where
  pinType : PinType
  refCount : UInt32
  name : Option String
  /-- The bytes of the parent that caused an indirect pin. -/
  pinnedBy : Option (List UInt8)
  deriving DecidableEq

namespace PinInfo

def new (pinType : PinType) : PinInfo :=
  { pinType, refCount := 1, name := none, pinnedBy := none }

def withName (info : PinInfo) (name : String) : PinInfo := { info with name := some name }

def withParent [CidCrate] (info : PinInfo) (parent : Cid) : PinInfo :=
  { info with pinnedBy := some (CidCrate.toBytes parent) }

end PinInfo

/-- `DashMap<Vec<u8>, PinInfo>`. -/
abbrev PinMap := AList (fun _ : List UInt8 => PinInfo)

/-- Counters of 64 bits that wrap around. -/
structure PinStats where
  totalPins : UInt64 := 0
  directPins : UInt64 := 0
  recursivePins : UInt64 := 0
  indirectPins : UInt64 := 0
  deriving DecidableEq

namespace PinStats

def increment (stats : PinStats) (pinType : PinType) : PinStats :=
  let stats := { stats with totalPins := stats.totalPins + 1 }
  match pinType with
  | .direct => { stats with directPins := stats.directPins + 1 }
  | .recursive => { stats with recursivePins := stats.recursivePins + 1 }
  | .indirect => { stats with indirectPins := stats.indirectPins + 1 }

def decrement (stats : PinStats) (pinType : PinType) : PinStats :=
  let stats := { stats with totalPins := stats.totalPins - 1 }
  match pinType with
  | .direct => { stats with directPins := stats.directPins - 1 }
  | .recursive => { stats with recursivePins := stats.recursivePins - 1 }
  | .indirect => { stats with indirectPins := stats.indirectPins - 1 }

end PinStats

/-- `LinkResolver`. -/
abbrev LinkResolver := Cid → Except Error (List Cid)

/-- `PinManager`: every key is the binary form of a CID. -/
structure PinManager [CidCrate] where
  pins : PinMap
  stats : PinStats
  ofCid : ∀ key ∈ pins, ∃ cid, key = CidCrate.toBytes cid

namespace PinManager

variable [CidCrate]

def new : PinManager where
  pins := ∅
  stats := {}
  ofCid := fun _ h => absurd h (AList.notMem_empty _)

/-- Writing under the key of a CID. -/
def set (m : PinManager) (cid : Cid) (info : PinInfo) : PinManager where
  pins := m.pins.insert (CidCrate.toBytes cid) info
  stats := m.stats
  ofCid := by
    intro key h
    rcases (AList.mem_insert m.pins).mp h with rfl | h
    · exact ⟨cid, rfl⟩
    · exact m.ofCid key h

def erase (m : PinManager) (cid : Cid) : PinManager where
  pins := m.pins.erase (CidCrate.toBytes cid)
  stats := m.stats
  ofCid := fun key h => m.ofCid key (AList.mem_erase.mp h).2

def count (m : PinManager) (f : PinStats → PinStats) : PinManager := { m with stats := f m.stats }

/-- `get_pin_info`. -/
def getPinInfo (m : PinManager) (cid : Cid) : Option PinInfo :=
  m.pins.lookup (CidCrate.toBytes cid)

/-- `is_pinned`. -/
def isPinned (m : PinManager) (cid : Cid) : Bool := (m.getPinInfo cid).isSome

/-- `pin_with_type`. A pin is only upgraded from direct to recursive. -/
def pinWithType (m : PinManager) (cid : Cid) (pinType : PinType) (name : Option String) :
    PinManager :=
  match m.getPinInfo cid with
  | some info =>
    if pinType = .recursive ∧ info.pinType = .direct then
      (m.set cid { info with refCount := info.refCount + 1, pinType := .recursive }).count
        (fun stats => (stats.decrement .direct).increment .recursive)
    else m.set cid { info with refCount := info.refCount + 1 }
  | none =>
    (m.set cid
      (match name with
      | some name => (PinInfo.new pinType).withName name
      | none => PinInfo.new pinType)).count (fun stats => stats.increment pinType)

def pin (m : PinManager) (cid : Cid) : PinManager := m.pinWithType cid .direct none

def pinNamed (m : PinManager) (cid : Cid) (name : String) : PinManager :=
  m.pinWithType cid .direct (some name)

/-- `pin_indirect`. -/
def pinIndirect (m : PinManager) (cid parent : Cid) : PinManager :=
  match m.getPinInfo cid with
  | some info => m.set cid { info with refCount := info.refCount + 1 }
  | none =>
    (m.set cid ((PinInfo.new .indirect).withParent parent)).count
      (fun stats => stats.increment .indirect)

/-- The state of `pin_recursive`: the top of the stack first. -/
structure PinWalk where
  toProcess : List Cid
  seen : List Cid
  pinnedCount : Nat
  manager : PinManager

/-- One link of the block that is processed. -/
def pinLink (root : Cid) (walk : PinWalk) (link : Cid) : PinWalk :=
  if link ∈ walk.seen then walk
  else
    { toProcess := link :: walk.toProcess
      seen := link :: walk.seen
      pinnedCount := walk.pinnedCount + 1
      manager := walk.manager.pinIndirect link root }

def pinBody (linkResolver : LinkResolver) (root : Cid) (walk : PinWalk) :
    PinWalk ⊕ (Except Error Nat × PinManager) :=
  match walk.toProcess with
  | [] => .inr (.ok walk.pinnedCount, walk.manager)
  | current :: toProcess =>
    match linkResolver current with
    | .error e => .inr (.error e, walk.manager)
    | .ok links => .inl (links.foldl (pinLink root) { walk with toProcess })

/-- `pin_recursive`. -/
def pinRecursive (rounds : Nat) (linkResolver : LinkResolver) (m : PinManager) (cid : Cid) :
    Option (Except Error Nat × PinManager) :=
  Loop.run (pinBody linkResolver cid) rounds
    { toProcess := [cid]
      seen := [cid]
      pinnedCount := 1
      manager := m.pinWithType cid .recursive none }

def unpin (m : PinManager) (cid : Cid) : Bool × PinManager :=
  match m.getPinInfo cid with
  | some info =>
    if info.refCount ≤ 1 then
      (true, (m.erase cid).count (fun stats => stats.decrement info.pinType))
    else (false, m.set cid { info with refCount := info.refCount - 1 })
  | none => (false, m)

/-- The state of `unpin_recursive`: the top of the stack first. -/
structure UnpinWalk where
  toProcess : List Cid
  seen : List Cid
  unpinnedCount : Nat
  manager : PinManager

def unpinBody (linkResolver : LinkResolver) (walk : UnpinWalk) :
    UnpinWalk ⊕ (Nat × PinManager) :=
  match walk.toProcess with
  | [] => .inr (walk.unpinnedCount, walk.manager)
  | current :: toProcess =>
    if current ∈ walk.seen then .inl { walk with toProcess }
    else
      let (removed, manager) := walk.manager.unpin current
      .inl
        { toProcess :=
            match linkResolver current with
            | .ok links => links.reverse ++ toProcess
            | .error _ => toProcess
          seen := current :: walk.seen
          unpinnedCount := if removed then walk.unpinnedCount + 1 else walk.unpinnedCount
          manager }

/-- `unpin_recursive`. -/
def unpinRecursive (rounds : Nat) (linkResolver : LinkResolver) (m : PinManager) (cid : Cid) :
    Option (Nat × PinManager) :=
  Loop.run (unpinBody linkResolver) rounds
    { toProcess := [cid], seen := [], unpinnedCount := 0, manager := m }

/-- `list_pins`, with the map's entries in some order. -/
def listPins (entries : List (Sigma fun _ : List UInt8 => PinInfo)) :
    Except Error (List (Cid × PinInfo)) :=
  entries.mapM (fun e =>
    match CidCrate.tryFrom e.1 with
    | .ok cid => .ok (cid, e.2)
    | .error msg => .error (.cid ("Invalid CID: " ++ msg)))

/-! ## Histories of pins -/

/-- A call that changes the pins. -/
inductive Call where
  | pin (cid : Cid)
  | pinNamed (cid : Cid) (name : String)
  | pinRecursive (rounds : Nat) (linkResolver : LinkResolver) (cid : Cid)
  | unpin (cid : Cid)
  | unpinRecursive (rounds : Nat) (linkResolver : LinkResolver) (cid : Cid)
  | clear

/-- The pins after a call, if it returns within its rounds. -/
def perform (m : PinManager) : Call → Option PinManager
  | .pin cid => some (m.pin cid)
  | .pinNamed cid name => some (m.pinNamed cid name)
  | .pinRecursive rounds linkResolver cid =>
    (pinRecursive rounds linkResolver m cid).map Prod.snd
  | .unpin cid => some (m.unpin cid).2
  | .unpinRecursive rounds linkResolver cid =>
    (unpinRecursive rounds linkResolver m cid).map Prod.snd
  | .clear => some new

/-- The pins after the calls of a history. -/
def run (calls : List Call) : Option PinManager := calls.foldlM perform new

end PinManager

end Ipfrs.Storage
