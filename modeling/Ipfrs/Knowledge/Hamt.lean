/-
Ipfrs.Knowledge.Hamt — the block-backed trie from entity ids to CIDs (`hamt.rs`).

A node is a block of sixteen slots, keyed by the nibbles of the 32-byte id. The
operations that write run over the store as `EStateM`, since `&mut S` keeps what
was put when a call fails. The recursion of `insert_slots` and the loop of `get`
count the levels left down from `MAX_DEPTH`; the stack loop of `entries` is given
a number of rounds.
-/
import Ipfrs.Knowledge.Node
import Ipfrs.Lib.Loop
import Mathlib.Data.List.FinRange

namespace Ipfrs.Knowledge.Hamt

open Ipfrs.Core Ipfrs.Lib

/-- `WIDTH`. -/
abbrev width : Nat := 16

/-- `MAX_DEPTH`: a 32-byte key has 64 nibbles. -/
def maxDepth : Nat := 64

/-- `enum Slot`. -/
inductive Slot where
  | empty
  | leaf (k : EntityId) (v : Cid)
  | branch (c : Cid)
  deriving DecidableEq

/-- `[Slot; WIDTH]`. -/
abbrev Slots := Fin width → Slot

/-- `[Slot::Empty; WIDTH]`. -/
def emptySlots : Slots := fun _ => .empty

/-- `nibble`: the high half of a byte at even depths, the low half at odd ones. -/
def nibble (key : EntityId) (depth : Nat) : Fin width :=
  let byte := key.bytes.getD (depth / 2) 0
  Fin.ofNat width (if depth % 2 = 0 then byte >>> 4 else byte &&& 0x0f).toNat

/-- `slot_to_ipld`. -/
def slotToIpld : Slot → Ipld
  | .empty => .null
  | .leaf k v => .map (SortedAssoc.ofEntries [("k", .bytes k.bytes), ("v", .link v)])
  | .branch c => .link c

/-- `slot_from_ipld`. -/
def slotFromIpld : Ipld → Except KError Slot
  | .null => .ok .empty
  | .link c => .ok (.branch c)
  | .map m => do
      let k ← match Ipld.field m "k" with
        | some (.bytes b) => toEntityId b "hamt leaf key size"
        | _ => .error (.decode "hamt leaf missing key")
      match (Ipld.field m "v").bind Ipld.asLink with
      | some v => .ok (.leaf k v)
      | none => .error (.decode "hamt leaf missing value")
  | _ => .error (.decode "bad hamt slot")

/-- The value of a node's block. -/
def nodeIpld (slots : Slots) : Ipld :=
  .map (SortedAssoc.ofEntries
    [("@type", .string "hamt"), ("slots", .list (List.ofFn (fun i => slotToIpld (slots i))))])

section

variable [CidCrate] {S : Type} [BlockStore S]

/-- `node_to_cid`. -/
def nodeToCid (slots : Slots) : EStateM KError S Cid := putEncoded (encodeBlock (nodeIpld slots))

/-- `load`. -/
def load (store : S) (cid : Cid) : Except KError Slots := do
  let bytes ← match BlockStore.get store cid with
    | some bytes => .ok bytes
    | none => .error (.notFound "hamt node" (some cid))
  let ipld ← mapCore (Ipld.fromDagCbor bytes)
  match ipld with
  | .map m =>
    match Ipld.field m "slots" with
    | some (.list l) =>
      if l.length = width then do
        let slots ← collectOk slotFromIpld l
        .ok (fun i => slots.getD i .empty)
      else .error (.decode "hamt node bad slots")
    | _ => .error (.decode "hamt node bad slots")
  | _ => .error (.decode "hamt node not a map")

/-- `load` in a program that also writes. -/
def loadM (cid : Cid) : EStateM KError S Slots := readM (fun store => load store cid)

/-- `empty`. -/
def empty : EStateM KError S Cid := nodeToCid emptySlots

/-- The new content of the key's slot, given `insert_slots` one level down. -/
def newSlot (insertBelow : Slots → EntityId → Cid → EStateM KError S Cid) (key : EntityId)
    (val : Cid) : Slot → EStateM KError S Slot
  | .empty => pure (.leaf key val)
  | .leaf k v =>
    if k = key then pure (.leaf key val)
    else do
      -- both entries go one level down, the old one first
      let c₁ ← insertBelow emptySlots k v
      let child ← loadM c₁
      let c₂ ← insertBelow child key val
      pure (.branch c₂)
  | .branch c => do
      let child ← loadM c
      let c' ← insertBelow child key val
      pure (.branch c')

/-- `insert_slots`, with `levels` levels left. -/
def insertSlots : Nat → Slots → EntityId → Cid → EStateM KError S Cid
  | 0, _, _, _ => throw (.graph "hamt depth exceeded")
  | levels + 1, slots, key, val => do
      let nib := nibble key (maxDepth - (levels + 1))
      let new ← newSlot (insertSlots levels) key val (slots nib)
      nodeToCid (Function.update slots nib new)

/-- `insert`. -/
def insert (root : Cid) (key : EntityId) (val : Cid) : EStateM KError S Cid := do
  let slots ← loadM root
  insertSlots maxDepth slots key val

/-- The loop of `get`, with `levels` levels left. -/
def getFrom (store : S) (key : EntityId) : Nat → Cid → Except KError (Option Cid)
  | 0, _ => .ok none
  | levels + 1, cur => do
      let slots ← load store cur
      match slots (nibble key (maxDepth - (levels + 1))) with
      | .empty => .ok none
      | .leaf k v => .ok (if k = key then some v else none)
      | .branch c => getFrom store key levels c

/-- `get`. -/
def get (store : S) (root : Cid) (key : EntityId) : Except KError (Option Cid) :=
  getFrom store key maxDepth root

/-- The stack of nodes still to be visited, its top first, and the entries so far. -/
structure EntriesState where
  stack : List Cid
  out : List (EntityId × Cid) := []

/-- One slot of a visited node. -/
def visitSlot (s : EntriesState) : Slot → EntriesState
  | .empty => s
  | .leaf k v => { s with out := s.out ++ [(k, v)] }
  | .branch c => { s with stack := c :: s.stack }

/-- One round of the stack loop. -/
def entriesBody (store : S) (s : EntriesState) :
    EntriesState ⊕ Except KError (List (EntityId × Cid)) :=
  match s.stack with
  | [] => .inr (.ok s.out)
  | cid :: stack =>
    match load store cid with
    | .error e => .inr (.error e)
    | .ok slots =>
      .inl ((List.finRange width).foldl (fun s i => visitSlot s (slots i)) { s with stack })

/-- `entries`, with `rounds` rounds for the stack loop. -/
def entries (rounds : Nat) (store : S) (root : Cid) :
    Option (Except KError (List (EntityId × Cid))) :=
  Loop.run (entriesBody store) rounds { stack := [root] }

end

end Ipfrs.Knowledge.Hamt
