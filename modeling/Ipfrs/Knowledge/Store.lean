/-
Ipfrs.Knowledge.Store — the block store of `ipfrs-knowledge` (`store.rs`,
`error.rs`).

`BlockStore` is the trait the graph code is generic over. A store is faithful
when it answers every lookup with the latest block put under the identifier:
`history` is a ghost, the blocks put so far with the latest first. `MemStore` is
faithful with its own content as history. Nothing forces a store's blocks to
match their identifiers; what the graph code relies on is that no two different
blocks of a run share one (`CollisionFree (history s)`).
-/
import Ipfrs.Core.Block
import Ipfrs.Core.DagCbor

namespace Ipfrs.Knowledge

open Ipfrs.Core Ipfrs.Lib

/-- `KError`. `NotFound` names what was looked up and, where the source prints it,
the identifier. -/
inductive KError where
  | core (e : Error)
  | decode (msg : String)
  | notFound (what : String) (cid : Option Cid)
  | graph (msg : String)
  deriving DecidableEq

/-- `map_err(KError::Core)`. -/
def mapCore {α : Type} : Except Error α → Except KError α
  | .ok a => .ok a
  | .error e => .error (.core e)

@[simp] theorem mapCore_ok {α : Type} (a : α) : mapCore (.ok a) = .ok a := rfl

/-- `trait BlockStore`. -/
class BlockStore (S : Type) where
  put : S → Cid → List UInt8 → S
  get : S → Cid → Option (List UInt8)

/-- `BlockStore::has`. -/
def BlockStore.has {S : Type} [BlockStore S] (s : S) (cid : Cid) : Bool :=
  (BlockStore.get s cid).isSome

/-- A store whose lookups return the latest block put. -/
class BlockStore.Faithful (S : Type) [BlockStore S] where
  /-- The blocks put so far, the latest first. -/
  history : S → List Block
  history_put : ∀ (s : S) (cid : Cid) (bytes : List UInt8),
    history (BlockStore.put s cid bytes) = { cid, data := bytes } :: history s
  get_eq : ∀ (s : S) (cid : Cid),
    BlockStore.get s cid = ((history s).find? (fun b => b.cid == cid)).map Block.data

/-- `MemStore`: the `HashMap` as the list of its insertions, the latest first. -/
structure MemStore where
  blocks : List Block := []
  deriving DecidableEq

instance : BlockStore MemStore where
  put s cid bytes := { blocks := { cid, data := bytes } :: s.blocks }
  get s cid := (s.blocks.find? (fun b => b.cid == cid)).map Block.data

instance : BlockStore.Faithful MemStore where
  history s := s.blocks
  history_put _ _ _ := rfl
  get_eq _ _ := rfl

section

variable {S : Type} [BlockStore S] [BlockStore.Faithful S]

open BlockStore.Faithful (history)

/-- Under no collision, a store returns exactly the blocks put. -/
theorem get_eq_some_iff {s : S} (hfree : CollisionFree (history s)) {cid : Cid}
    {bytes : List UInt8} :
    BlockStore.get s cid = some bytes ↔ { cid, data := bytes } ∈ history s := by
  rw [BlockStore.Faithful.get_eq]
  constructor
  · intro h
    obtain ⟨b, hfind, hdata⟩ := Option.map_eq_some_iff.mp h
    have hcid : b.cid = cid := by simpa using List.find?_some hfind
    have hmem := List.mem_of_find?_eq_some hfind
    rw [← hcid, ← hdata]
    exact hmem
  · intro h
    rw [hfree.find? h]
    rfl

/-- `store.put(cid, bytes)` as a program. -/
def putBlock (cid : Cid) (bytes : List UInt8) : EStateM KError S Unit :=
  modify (fun s => BlockStore.put s cid bytes)

/-- Put an encoded block and return its CID. -/
def putEncoded (encoded : Except KError (Cid × List UInt8)) : EStateM KError S Cid := do
  let (cid, bytes) ← liftExcept encoded
  putBlock cid bytes
  pure cid

/-! A program that only puts keeps whatever every put keeps. -/

/-- A property of stores that no `put` breaks. -/
def PutClosed (I : S → Prop) : Prop := ∀ s cid bytes, I s → I (BlockStore.put s cid bytes)

theorem putClosed_mem (b : Block) : PutClosed (fun s : S => b ∈ history s) := by
  intro s cid bytes hb
  rw [BlockStore.Faithful.history_put]
  exact List.mem_cons_of_mem _ hb

omit [BlockStore.Faithful S] in
theorem putEncoded_keeps {I : S → Prop} (hI : PutClosed I)
    (encoded : Except KError (Cid × List UInt8)) :
    Keeps I (putEncoded encoded : EStateM KError S Cid) := by
  refine Keeps.bind (Keeps.lift _) (fun block => ?_)
  exact Keeps.bind (Keeps.modify (fun s => hI s _ _)) (fun _ => Keeps.pure _)

end

end Ipfrs.Knowledge
