/-
Ipfrs.Storage.VersionControl — commits, branches, tags and merges (`vcs.rs`).

HEAD, the current branch and one table of refs are all the state there is. What kind a
ref has is guessed from its name when it is read, and `checkout` moves HEAD without
leaving the current branch.

The encoding of commits and refs is a crate's, here `Oxicode`; a commit is without its
`cid` field, which is not encoded. The loops of `is_ancestor` and `find_common_ancestor`
are given a number of rounds. Of a store only `put` and `get` are called, and it is
faithful if it answers with the latest block put (`Journaled`).
-/
import Ipfrs.Knowledge.Tiered

namespace Ipfrs.Storage.Vcs

open Ipfrs.Core Ipfrs.Lib
open Ipfrs.Knowledge (ColdStore MemoryBlockStore)

/-! ## Commits and refs -/

structure Author where
  name : String
  email : String
  deriving DecidableEq, Repr

structure Commit where
  parents : List Cid
  root : Cid
  message : String
  author : Author
  timestamp : UInt64
  metadata : List (String × String)
  deriving DecidableEq

inductive RefType where
  /-- Mutable branch pointer. -/
  | branch
  /-- Immutable tag pointer. -/
  | tag
  deriving DecidableEq, Repr

structure Ref where
  name : String
  commit : Cid
  refType : RefType
  deriving DecidableEq

/-- What the `oxicode` crate provides. -/
class Oxicode where
  encodeCommit : Commit → Except String (List UInt8)
  decodeCommit : List UInt8 → Except String Commit
  encodeRef : Ref → Except String (List UInt8)

/-- Reading what was written gives the commit back, its metadata in some order. -/
class Oxicode.Lawful [Oxicode] : Prop where
  decode_encode : ∀ (c : Commit) (bytes : List UInt8), Oxicode.encodeCommit c = .ok bytes →
    ∃ metadata, metadata.Perm c.metadata
      ∧ Oxicode.decodeCommit bytes = .ok { c with metadata }

inductive MergeStrategy where
  | fastForward
  | threeWay
  | ours
  | theirs
  deriving DecidableEq, Repr

inductive MergeResult where
  | fastForward (target : Cid)
  | mergeCommit (commit : Cid)
  | conflicts (conflicts : List String)
  deriving DecidableEq

section

variable [CidCrate] [Oxicode]

def Commit.toBlock (c : Commit) : Except Error Block := do
  let bytes ← (Oxicode.encodeCommit c).mapError
    (fun e => .serialization ("Failed to serialize commit: " ++ e))
  Block.new bytes

def Commit.finalize (c : Commit) : Except Error Cid := do
  let block ← c.toBlock
  .ok block.cid

omit [CidCrate] in
def Commit.fromBlock (block : Block) : Except Error Commit :=
  (Oxicode.decodeCommit block.data).mapError
    (fun e => .serialization ("Failed to deserialize commit: " ++ e))

def Ref.toBlock (r : Ref) : Except Error Block := do
  let bytes ← (Oxicode.encodeRef r).mapError
    (fun e => .serialization ("Failed to serialize ref: " ++ e))
  Block.new bytes

end

/-! ## The store below -/

/-- A store that answers with the latest block put, and is not changed by a failed call. -/
class Journaled (C : Type) [ColdStore C] where
  history : C → List Block
  put_ok : ∀ {c c' : C} {b : Block}, ColdStore.put b c = .ok () c' → history c' = b :: history c
  put_error : ∀ {c c' : C} {b : Block} {e : Error}, ColdStore.put b c = .error e c' →
    history c' = history c
  get_ok : ∀ {c c' : C} {cid : Cid} {r : Option Block}, ColdStore.get cid c = .ok r c' →
    r = (history c).find? (fun b => b.cid == cid) ∧ history c' = history c
  get_error : ∀ {c c' : C} {cid : Cid} {e : Error}, ColdStore.get cid c = .error e c' →
    history c' = history c

instance : Journaled MemoryBlockStore where
  history s := s.blocks
  put_ok h := by cases h; rfl
  put_error h := by cases h
  get_ok h := by cases h; exact ⟨rfl, rfl⟩
  get_error h := by cases h

structure VersionControl (C : Type) where
  store : C
  currentBranch : String
  head : Option Cid
  refsCache : String → Option Cid

section

variable {C : Type} [ColdStore C] [CidCrate] [CidStream] [Oxicode]

/-- A call of the store. -/
def onStore {α : Type} (m : EStateM Error C α) : EStateM Error (VersionControl C) α := fun s =>
  match m s.store with
  | .ok a store => .ok a { s with store }
  | .error e store => .error e { s with store }

omit [CidCrate] in
/-- The commit under an identifier; `what` begins the text of the error. -/
def loadCommit (what : String) (cid : Cid) : EStateM Error C Commit := do
  match ← ColdStore.get cid with
  | none => throw (.notFound (what ++ CidStream.display cid))
  | some block => liftExcept (Commit.fromBlock block)

namespace VersionControl

omit [ColdStore C] [CidCrate] [CidStream] [Oxicode] in
def new (store : C) : VersionControl C :=
  { store, currentBranch := "main", head := none, refsCache := fun _ => none }

omit [CidStream] in
/-- The table is written first, then the ref is put as a block. -/
def updateRef (name : String) (commit : Cid) (refType : RefType) :
    EStateM Error (VersionControl C) Unit := do
  modify (fun s => { s with refsCache := Function.update s.refsCache name (some commit) })
  let block ← liftExcept (Ref.toBlock { name, commit, refType })
  onStore (ColdStore.put block)

omit [ColdStore C] [CidCrate] [CidStream] [Oxicode] in
/-- A name that looks like that of a tag. -/
def looksLikeTag (name : String) : Bool :=
  "refs/tags/".toList.isPrefixOf name.toList
    || name.toList.tails.any (fun rest => "/tags/".toList.isPrefixOf rest)

omit [ColdStore C] [CidCrate] [Oxicode] in
def getRef (name : String) : EStateM Error (VersionControl C) Ref := do
  let s ← get
  match s.refsCache name with
  | some commit =>
    pure { name, commit, refType := if looksLikeTag name then .tag else .branch }
  | none => throw (.notFound ("Ref not found: " ++ name))

omit [CidStream] in
/-- What `commit` and `merge` begin with: the new commit is finalized and stored. -/
def storeCommit (c : Commit) : EStateM Error (VersionControl C) Cid := do
  let cid ← liftExcept c.finalize
  let block ← liftExcept c.toBlock
  onStore (ColdStore.put block)
  pure cid

omit [CidStream] in
def commit (root : Cid) (message : String) (author : Author)
    (metadata : List (String × String)) (timestamp : UInt64) :
    EStateM Error (VersionControl C) Cid := do
  let s ← get
  let cid ← storeCommit
    { parents := s.head.toList, root, message, author, timestamp, metadata }
  modify (fun s => { s with head := some cid })
  updateRef s.currentBranch cid .branch
  pure cid

omit [CidCrate] in
def checkout (cid : Cid) : EStateM Error (VersionControl C) Cid := do
  let c ← onStore (loadCommit "Commit not found: " cid)
  modify (fun s => { s with head := some cid })
  pure c.root

omit [CidCrate] in
def checkoutRef (name : String) : EStateM Error (VersionControl C) Cid := do
  let ref ← getRef name
  if ref.refType = .branch then modify (fun s => { s with currentBranch := name })
  checkout ref.commit

omit [CidStream] in
/-- `create_branch` and `create_tag`, which differ in the type of the ref only. -/
def createRef (refType : RefType) (name : String) : EStateM Error (VersionControl C) Unit := do
  let s ← get
  match s.head with
  | none => throw (.storage "No HEAD commit")
  | some head => updateRef name head refType

omit [CidStream] in
def createBranch (name : String) : EStateM Error (VersionControl C) Unit :=
  createRef .branch name

omit [CidStream] in
def createTag (name : String) : EStateM Error (VersionControl C) Unit :=
  createRef .tag name

/-! ## Merging -/

/-- The state of the loop of `is_ancestor`, the next of the queue first. -/
structure Walk (C : Type) where
  visited : List Cid
  queue : List Cid
  store : C

omit [CidCrate] in
def ancestorBody (ancestor : Cid) (w : Walk C) : Walk C ⊕ EStateM.Result Error C Bool :=
  match w.queue with
  | [] => .inr (.ok false w.store)
  | cid :: queue =>
    if cid ∈ w.visited then .inl { w with queue }
    else if cid = ancestor then .inr (.ok true w.store)
    else
      match loadCommit "Commit not found: " cid w.store with
      | .error e store => .inr (.error e store)
      | .ok c store =>
        .inl { visited := cid :: w.visited, queue := c.parents.reverse ++ queue, store }

omit [CidCrate] in
def isAncestor (rounds : Nat) (ancestor descendant : Cid) (store : C) :
    Option (EStateM.Result Error C Bool) :=
  if ancestor = descendant then some (.ok true store)
  else Loop.run (ancestorBody ancestor) rounds { visited := [], queue := [descendant], store }

omit [CidCrate] in
/-- A walk over all ancestors, left with a result where `stop` has one for a commit, and
with `finish` of the commits visited at the end. -/
def walkBody {ρ : Type} (stop : Cid → Option ρ) (finish : List Cid → ρ) (w : Walk C) :
    Walk C ⊕ EStateM.Result Error C ρ :=
  match w.queue with
  | [] => .inr (.ok (finish w.visited) w.store)
  | cid :: queue =>
    if cid ∈ w.visited then .inl { w with queue }
    else
      match stop cid with
      | some result => .inr (.ok result w.store)
      | none =>
        match loadCommit "Commit not found: " cid w.store with
        | .error e store => .inr (.error e store)
        | .ok c store =>
          .inl { visited := cid :: w.visited, queue := c.parents.reverse ++ queue, store }

omit [CidCrate] in
/-- All ancestors of the first commit are collected, and those of the second walked until
one of them is met. -/
def findCommonAncestor (rounds : Nat) (commit1 commit2 : Cid) (store : C) :
    Option (EStateM.Result Error C (Option Cid)) :=
  match Loop.run (walkBody (fun _ => none) id) rounds
      { visited := [], queue := [commit1], store } with
  | none => none
  | some (.error e store) => some (.error e store)
  | some (.ok ancestors1 store) =>
    Loop.run (walkBody (fun cid => if cid ∈ ancestors1 then some (some cid) else none)
        (fun _ => none)) rounds { visited := [], queue := [commit2], store }

/-- The part of `merge` after a fast-forward was found impossible. -/
def mergeCommit (head branchCid : Cid) (message : String) (author : Author)
    (strategy : MergeStrategy) (timestamp : UInt64) :
    EStateM Error (VersionControl C) MergeResult := do
  if strategy = .fastForward then
    throw (.storage "Fast-forward not possible, branches have diverged")
  let headCommit ← onStore (loadCommit "HEAD commit not found: " head)
  let branchCommit ← onStore (loadCommit "Branch commit not found: " branchCid)
  let root := if strategy = .ours then headCommit.root else branchCommit.root
  let cid ← storeCommit
    { parents := [head, branchCid], root, message, author, timestamp, metadata := [] }
  modify (fun s => { s with
    head := some cid, refsCache := Function.update s.refsCache s.currentBranch (some cid) })
  pure (.mergeCommit cid)

def merge (rounds : Nat) (branchCid : Cid) (message : String) (author : Author)
    (strategy : MergeStrategy) (timestamp : UInt64) (s : VersionControl C) :
    Option (EStateM.Result Error (VersionControl C) MergeResult) :=
  match s.head with
  | none => some (.error (.storage "No HEAD commit") s)
  | some head =>
    if head = branchCid then some (.ok (.fastForward head) s)
    else
      match isAncestor rounds head branchCid s.store with
      | none => none
      | some (.error e store) => some (.error e { s with store })
      | some (.ok true store) =>
        some (.ok (.fastForward branchCid) { s with
          store, head := some branchCid
          refsCache := Function.update s.refsCache s.currentBranch (some branchCid) })
      | some (.ok false store) =>
        some (mergeCommit head branchCid message author strategy timestamp { s with store })

def mergeBranch (rounds : Nat) (name message : String) (author : Author)
    (strategy : MergeStrategy) (timestamp : UInt64) (s : VersionControl C) :
    Option (EStateM.Result Error (VersionControl C) MergeResult) :=
  match getRef name s with
  | .error e s => some (.error e s)
  | .ok ref s => merge rounds ref.commit message author strategy timestamp s

end VersionControl

end

end Ipfrs.Storage.Vcs
