/-
Ipfrs.Node.Fsck — the integrity check of a node (`fsck.rs`).

A block passes when `Block::new` gives its data the identifier it is stored under: the raw
codec and SHA2-256. The links of the blocks that pass and are DAG-CBOR are walked, with one set
of checked references for the whole run; `max_depth` bounds the size of that set. What is walked
into is not checked itself. The reads leave the store as it is. The order of `links` is that of
the decoded value, the order of `list_cids` that of the store; the depth of the recursion is
bounded by `rounds`.

How the proofs go: the walk is one of `Lib.Worklist.Walked`, block by block and link by link
(`checkReferences_explores`, induction on the rounds), and a whole check is one walk
(`check_walked`). It reports an absent block only where a link leads to it, and each once, so
with all links present only the identifiers matter (`check_healthy_iff`). It misses none that it
could walk into unless the limit cuts it short. The side condition for that is `WithinLimit`: a
link that leads to an absent block is left out only when the limit is reached by the links of
blocks that do not have it (`WithinLimit.owed`).
-/
import Ipfrs.Node.GcTheorems
import Mathlib.Data.Finset.Card

namespace Ipfrs.Node

open Ipfrs.Core Ipfrs.Lib Ipfrs.Lib.Worklist
open Ipfrs.Knowledge (MemoryBlockStore blockLinks heldLinks heldLinks_of_held
  held_of_mem_heldLinks)

/-- The reads of a `BlockStoreTrait`. -/
class BlockReads (S : Type) where
  get : Cid → S → Except Error (Option Block)
  has : Cid → S → Except Error Bool
  listCids : S → Except Error (List Cid)

structure FsckResult where
  blocksChecked : Nat
  blocksValid : Nat
  /-- CID doesn't match content. -/
  blocksCorrupt : List Cid
  /-- Referenced but not found. -/
  blocksMissing : List Cid
  ipldInvalid : List Cid
  deriving DecidableEq

namespace FsckResult

def isHealthy (r : FsckResult) : Bool := r.blocksCorrupt.isEmpty && r.blocksMissing.isEmpty

theorem isHealthy_iff (r : FsckResult) :
    r.isHealthy = true ↔ r.blocksCorrupt = [] ∧ r.blocksMissing = [] := by
  simp [isHealthy]

/-- What a check of so many blocks starts from. -/
def start (blocksChecked : Nat) : FsckResult where
  blocksChecked
  blocksValid := 0
  blocksCorrupt := []
  blocksMissing := []
  ipldInvalid := []

end FsckResult

structure FsckConfig where
  checkIpld : Bool := true
  verifyReferences : Bool := true
  maxDepth : Option Nat := some 100
  deriving DecidableEq, Repr

/-- The missing references found, and the references checked. -/
structure RefState where
  missing : List Cid
  checked : Finset Cid

/-- The result so far, and the references checked. -/
structure CheckState where
  result : FsckResult
  checked : Finset Cid

section

variable {S : Type} [BlockReads S] [CidCrate] [CidStream]

def checkBlock (s : S) (cid : Cid) : Except Error Bool := do
  match ← BlockReads.get cid s with
  | some block =>
    let recomputedBlock ← Block.new block.data
    .ok (recomputedBlock.cid == block.cid)
  | none => .error (.notFound ("Block not found: " ++ CidStream.display cid))

/-- The major types of a map and of a list. -/
def looksLikeIpld : List UInt8 → Bool
  | [] => false
  | firstByte :: _ => firstByte >>> 5 == 4 || firstByte >>> 5 == 5

omit [CidStream] in
/-- One round of the loop of `check_references`. A child that cannot be read is skipped. -/
def checkLink (s : S) (descend : Ipld → Finset Cid → Option RefState) (st : RefState)
    (linkCid : Cid) : Option RefState :=
  if linkCid ∈ st.checked then some st
  else
    let checked := insert linkCid st.checked
    match BlockReads.has linkCid s with
    | .ok true =>
      match BlockReads.get linkCid s with
      | .ok (some block) =>
        match Ipld.fromDagCbor block.data with
        | .ok childIpld => (descend childIpld checked).map (fun child =>
          { missing := st.missing ++ child.missing, checked := child.checked })
        | .error _ => some { st with checked }
      | _ => some { st with checked }
    | _ => some { missing := st.missing ++ [linkCid], checked }

/-- `check_references`, which returns no error. The limit is on the references checked. -/
def checkReferences (s : S) (maxDepth : Option Nat) : Nat → Ipld → Finset Cid → Option RefState
  | 0, _, _ => none
  | rounds + 1, ipld, checked =>
    if maxDepth.any (fun max => max ≤ checked.card) then some { missing := [], checked }
    else ipld.links.foldlM (checkLink s (checkReferences s maxDepth rounds))
      { missing := [], checked }

/-- What `check` does with a block that passes. -/
def checkContent (config : FsckConfig) (rounds : Nat) (s : S) (cid : Cid) (st : CheckState) :
    Option (Except Error CheckState) :=
  if config.checkIpld || config.verifyReferences then
    match BlockReads.get cid s with
    | .error e => some (.error e)
    | .ok none => some (.ok st)
    | .ok (some block) =>
      match Ipld.fromDagCbor block.data with
      | .ok ipld =>
        if config.verifyReferences then
          (checkReferences s config.maxDepth rounds ipld st.checked).map (fun refs =>
            .ok { result := { st.result with
                    blocksMissing := st.result.blocksMissing ++ refs.missing }
                  checked := refs.checked })
        else some (.ok st)
      | .error _ =>
        if config.checkIpld && looksLikeIpld block.data then
          some (.ok { st with result :=
            { st.result with ipldInvalid := st.result.ipldInvalid ++ [cid] } })
        else some (.ok st)
  else some (.ok st)

/-- One round of the loop of `check`. -/
def checkCid (config : FsckConfig) (rounds : Nat) (s : S) (st : CheckState) (cid : Cid) :
    Option (Except Error CheckState) :=
  match checkBlock s cid with
  | .ok true => checkContent config rounds s cid
      { st with result := { st.result with blocksValid := st.result.blocksValid + 1 } }
  | _ => some (.ok { st with result :=
      { st.result with blocksCorrupt := st.result.blocksCorrupt ++ [cid] } })

def checkAll (config : FsckConfig) (rounds : Nat) (s : S) :
    List Cid → CheckState → Option (Except Error CheckState)
  | [], st => some (.ok st)
  | cid :: allCids, st =>
    match checkCid config rounds s st cid with
    | some (.ok st) => checkAll config rounds s allCids st
    | failed => failed

def check (config : FsckConfig) (rounds : Nat) (s : S) : Option (Except Error FsckResult) :=
  match BlockReads.listCids s with
  | .error e => some (.error e)
  | .ok allCids =>
    (checkAll config rounds s allCids
      { result := .start allCids.length, checked := ∅ }).map (Except.map CheckState.result)

/-- One round of the loop of `quick_check`. -/
def quickCid (s : S) (result : FsckResult) (cid : Cid) : FsckResult :=
  match checkBlock s cid with
  | .ok true => { result with blocksValid := result.blocksValid + 1 }
  | _ => { result with blocksCorrupt := result.blocksCorrupt ++ [cid] }

def quickCheck (s : S) : Except Error FsckResult := do
  let allCids ← BlockReads.listCids s
  .ok (allCids.foldl (quickCid s) (.start allCids.length))

end

/-! ## Stores that can be read -/

/-- A store whose reads succeed, and give what it holds. -/
class ReadableStore (S : Type) [BlockReads S] where
  held : S → Cid → Option (List UInt8)
  get_eq : ∀ (s : S) (cid : Cid), BlockReads.get cid s = .ok ((held s cid).map (Block.mk cid))
  has_eq : ∀ (s : S) (cid : Cid), BlockReads.has cid s = .ok (held s cid).isSome
  listCids_eq : ∀ s : S, ∃ l, BlockReads.listCids s = .ok l ∧ ∀ cid, cid ∈ l ↔ (held s cid).isSome

instance : BlockReads MemoryBlockStore where
  get cid s := .ok (s.find cid)
  has cid s := .ok (s.find cid).isSome
  listCids s := .ok (s.blocks.map Block.cid).dedup

instance : ReadableStore MemoryBlockStore where
  held s cid := (s.find cid).map Block.data
  get_eq s cid := by
    cases hfind : s.find cid with
    | none =>
      rw [Option.map_none, Option.map_none, ← hfind]
      rfl
    | some b =>
      obtain rfl : b.cid = cid := by simpa using List.find?_some hfind
      rw [Option.map_some, Option.map_some, ← hfind]
      rfl
  has_eq s cid := by simp [BlockReads.has]
  listCids_eq s := by
    refine ⟨_, rfl, fun cid => ?_⟩
    simp [MemoryBlockStore.find, List.find?_isSome]

open ReadableStore (held)

section

variable {S : Type} [BlockReads S] [ReadableStore S] [CidCrate] [CidStream]
  {s : S}

/-- The check recomputes the identifier with the default settings. -/
theorem checkBlock_eq_true_iff {cid : Cid} {data : List UInt8} (hdata : held s cid = some data) :
    checkBlock s cid = .ok true ↔ Block.new data = .ok { cid, data } := by
  have hcheck : checkBlock s cid
      = Block.new data >>= fun b => .ok (b.cid == cid) := by
    rw [checkBlock, ReadableStore.get_eq, hdata]
    rfl
  rw [hcheck]
  constructor
  · intro h
    obtain ⟨b, hb, h⟩ := bind_eq_ok.mp h
    obtain ⟨-, rfl⟩ := Block.new_eq_ok.mp hb
    have hcid : cidOf codecRaw data = cid := by simpa using h
    rw [hb, hcid]
  · intro h
    rw [h, ok_bind, beq_self_eq_true]

end

/-! ## Walking the references -/

section

variable {S : Type} [BlockReads S] [ReadableStore S] [CidCrate]
  {s : S} {maxDepth : Option Nat} {all : Finset Cid} {rounds : Nat}

/-- Reached from a stored block that passes. -/
def WalkedInto (s : S) (cid : Cid) : Prop :=
  ∃ root data, held s root = some data ∧ Block.new data = .ok { cid := root, data } ∧
    Relation.ReflTransGen (fun a b => b ∈ nodeLinks (held s) a) root cid

/-- Links lead from the block to one that is absent, or it is absent itself. -/
def LeadsToAbsent (s : S) (cid : Cid) : Prop :=
  ∃ absent, held s absent = none ∧
    Relation.ReflTransGen (fun a b => b ∈ nodeLinks (held s) a) cid absent

/-- For each link that leads to an absent block: the blocks walked into that do not have it
have fewer than `max` links together. -/
def WithinLimit (s : S) (max : Nat) : Prop :=
  ∀ cid, WalkedInto s cid → ∀ link ∈ nodeLinks (held s) cid, LeadsToAbsent s link →
    ∃ others : Finset Cid, others.card < max ∧ ∀ cid', WalkedInto s cid' →
      link ∉ nodeLinks (held s) cid' → ∀ link' ∈ nodeLinks (held s) cid', link' ∈ others

/-- The links that the limit leaves out of no walk. -/
def Sure (s : S) (maxDepth : Option Nat) (link : Cid) : Prop :=
  (∀ max ∈ maxDepth, WithinLimit s max) ∧ LeadsToAbsent s link

theorem LeadsToAbsent.of_link {cid link : Cid} (h : LeadsToAbsent s link)
    (hlink : link ∈ nodeLinks (held s) cid) : LeadsToAbsent s cid := by
  obtain ⟨absent, hnone, hpath⟩ := h
  exact ⟨absent, hnone, .head hlink hpath⟩

/-- A walk of the references. -/
abbrev WalkedIn (s : S) (maxDepth : Option Nat) :=
  Walked (nodeLinks (held s)) (Sure s maxDepth) (WalkedInto s) (fun cid => held s cid = none)

abbrev TracedIn (s : S) (maxDepth : Option Nat) :=
  Traced (nodeLinks (held s)) (Sure s maxDepth) (WalkedInto s)

/-- A block that is cut off at the limit has no sure link left. -/
theorem WithinLimit.owed {max : Nat} {opened : List Cid} {checked : Finset Cid}
    (hmax : maxDepth = some max) (hle : max ≤ checked.card)
    (htraced : TracedIn s maxDepth opened checked) {cid : Cid} (hcid : WalkedInto s cid) :
    ∀ link ∈ nodeLinks (held s) cid, Sure s maxDepth link →
      Owed (nodeLinks (held s)) opened checked link := by
  intro link hlink hsure
  by_contra hnot
  obtain ⟨others, hcard, hothers⟩ := hsure.1 max hmax cid hcid link hlink hsure.2
  have hsub : checked ⊆ others := by
    intro x hx
    obtain ⟨w, hw, hxw, hlinkw⟩ := htraced.of_not_owed hsure hnot hx
    exact hothers w hw hlinkw x hxw
  exact absurd (Finset.card_le_card hsub) (by omega)

/-- What it means to walk the references of a block, with so many rounds and within `all`. -/
def Explores (s : S) (maxDepth : Option Nat) (all : Finset Cid) (rounds : Nat)
    (descend : Ipld → Finset Cid → Option RefState) : Prop :=
  ∀ cid ipld checked opened, nodeLinks (held s) cid = ipld.links → WalkedInto s cid →
    checked ⊆ all → (all \ checked).card < rounds → TracedIn s maxDepth opened checked →
    ∃ r, descend ipld checked = some r ∧
      WalkedIn s maxDepth opened (nodeLinks (held s) cid) checked r.checked r.missing

theorem WalkedInto.link {cid link : Cid} (h : WalkedInto s cid)
    (hlink : link ∈ nodeLinks (held s) cid) : WalkedInto s link := by
  obtain ⟨root, data, hdata, hnew, hpath⟩ := h
  exact ⟨root, data, hdata, hnew, hpath.tail hlink⟩

theorem checkLink_walked {descend : Ipld → Finset Cid → Option RefState}
    (hall : ∀ a, ∀ b ∈ nodeLinks (held s) a, b ∈ all)
    (hdescend : Explores s maxDepth all rounds descend) {st : RefState} {cid link : Cid}
    {opened : List Cid} (hcid : WalkedInto s cid) (hopen : cid ∈ opened)
    (hlink : link ∈ nodeLinks (held s) cid)
    (hst : st.checked ⊆ all) (hrounds : (all \ st.checked).card ≤ rounds)
    (htraced : TracedIn s maxDepth opened st.checked) :
    ∃ r missing, checkLink s descend st link = some r ∧ r.missing = st.missing ++ missing ∧
      link ∈ r.checked ∧ WalkedIn s maxDepth opened [link] st.checked r.checked missing := by
  unfold checkLink
  by_cases hmem : link ∈ st.checked
  · refine ⟨st, [], if_pos hmem, by simp, hmem, .stop (fun x hx _ => .inl ?_)⟩
    rwa [List.mem_singleton.mp hx]
  rw [if_neg hmem, ReadableStore.has_eq, ReadableStore.get_eq]
  cases hdata : held s link with
  | none =>
    have hnone : nodeLinks (held s) link = [] := by
      rw [nodeLinks, heldLinks, hdata]
    refine ⟨_, [link], rfl, rfl, Finset.mem_insert_self _ _,
      .meet hmem hcid hopen hlink hnone (fun y => ?_) (List.nodup_singleton _)⟩
    rw [List.mem_singleton, and_iff_left hdata]
  | some data =>
    have hfound : ¬ held s link = none := by simp [hdata]
    have hlinks : nodeLinks (held s) link = blockLinks Ipld.links data := heldLinks_of_held hdata
    simp only [Option.isSome_some, Option.map_some]
    cases hipld : Ipld.fromDagCbor data with
    | error e =>
      refine ⟨_, [], rfl, by simp, Finset.mem_insert_self _ _,
        .enter hcid hopen hlink hfound (.stop ?_)⟩
      rw [hlinks, blockLinks, hipld]
      simp
    | ok childIpld =>
      have hchild : nodeLinks (held s) link = childIpld.links := by
        rw [hlinks, blockLinks, hipld]
      have hinsert : insert link st.checked ⊆ all :=
        Finset.insert_subset (hall cid link hlink) hst
      have hcard : (all \ insert link st.checked).card < (all \ st.checked).card := by
        refine Finset.card_lt_card (Finset.ssubset_iff_of_subset ?_ |>.mpr ⟨link, ?_, ?_⟩)
        · exact Finset.sdiff_subset_sdiff (Finset.Subset.refl _) (Finset.subset_insert _ _)
        · exact Finset.mem_sdiff.mpr ⟨hall cid link hlink, hmem⟩
        · simp
      obtain ⟨child, hwalk, hwalked⟩ := hdescend link childIpld (insert link st.checked) opened
        hchild (hcid.link hlink) hinsert (by omega) (htraced.insert hcid hopen hlink)
      exact ⟨{ missing := st.missing ++ child.missing, checked := child.checked },
        child.missing, by simp only [hwalk, Option.map_some], rfl,
        hwalked.grows (Finset.mem_insert_self _ _), .enter hcid hopen hlink hfound hwalked⟩

theorem checkLinks_walked {descend : Ipld → Finset Cid → Option RefState}
    (hall : ∀ a, ∀ b ∈ nodeLinks (held s) a, b ∈ all)
    (hdescend : Explores s maxDepth all rounds descend) {cid : Cid} {opened : List Cid}
    (hcid : WalkedInto s cid) (hopen : cid ∈ opened) :
    ∀ (links : List Cid) (st : RefState), (∀ link ∈ links, link ∈ nodeLinks (held s) cid) →
      st.checked ⊆ all → (all \ st.checked).card ≤ rounds →
      TracedIn s maxDepth opened st.checked →
      ∃ r missing, links.foldlM (checkLink s descend) st = some r ∧
        r.missing = st.missing ++ missing ∧ (∀ link ∈ links, link ∈ r.checked) ∧
        WalkedIn s maxDepth opened links st.checked r.checked missing
  | [], st, _, _, _, _ =>
    ⟨st, [], rfl, by simp, by simp, .stop (fun x hx => by cases hx)⟩
  | link :: links, st, hlinks, hst, hrounds, htraced => by
    have hlink : link ∈ nodeLinks (held s) cid := hlinks link List.mem_cons_self
    obtain ⟨mid, missing, hmid, hmissing, hmem, hwalked⟩ :=
      checkLink_walked hall hdescend hcid hopen hlink hst hrounds htraced
    have hsub : mid.checked ⊆ all := hwalked.subset hall
      (fun x hx => by rw [List.mem_singleton.mp hx]; exact hall cid link hlink) hst
    have hcard : (all \ mid.checked).card ≤ (all \ st.checked).card :=
      Finset.card_le_card (Finset.sdiff_subset_sdiff (Finset.Subset.refl _) hwalked.grows)
    obtain ⟨r, missing', hr, hmissing', hmem', hwalked'⟩ := checkLinks_walked hall hdescend hcid
      hopen links mid (fun x hx => hlinks x (List.mem_cons_of_mem _ hx)) hsub (by omega)
      (hwalked.traced htraced)
    refine ⟨r, missing ++ missing', ?_, ?_, ?_, hwalked.append hwalked'⟩
    · rw [List.foldlM_cons, hmid]
      exact hr
    · rw [hmissing', hmissing, List.append_assoc]
    · exact List.forall_mem_cons.mpr ⟨hwalked'.grows hmem, hmem'⟩

/-- **The references of a block are walked**, its sure ones in full. -/
theorem checkReferences_explores (maxDepth : Option Nat)
    (hall : ∀ a, ∀ b ∈ nodeLinks (held s) a, b ∈ all) : ∀ rounds,
    Explores s maxDepth all rounds (checkReferences s maxDepth rounds)
  | 0 => fun _ _ _ _ _ _ _ h => absurd h (Nat.not_lt_zero _)
  | rounds + 1 => by
    intro cid ipld checked opened hlinks hcid hchecked hcard htraced
    rw [checkReferences]
    by_cases hlimit : maxDepth.any (fun max => max ≤ checked.card) = true
    · rw [if_pos hlimit]
      obtain ⟨max, hmax, hle⟩ : ∃ max, maxDepth = some max ∧ max ≤ checked.card := by
        simpa [Option.any_eq_true] using hlimit
      exact ⟨_, rfl, .stop (WithinLimit.owed hmax hle htraced hcid)⟩
    · rw [if_neg hlimit]
      obtain ⟨r, missing, hr, hmissing, hmem, hwalked⟩ := checkLinks_walked hall
        (checkReferences_explores maxDepth hall rounds) hcid
        (List.mem_cons_self : cid ∈ cid :: opened) ipld.links { missing := [], checked }
        (fun link hlink => hlinks ▸ hlink) hchecked (Nat.lt_succ_iff.mp hcard)
        (htraced.open cid)
      rw [List.nil_append] at hmissing
      rw [← hlinks] at hwalked hmem
      exact ⟨r, hr, hmissing ▸ hwalked.leave hmem⟩

end

/-! ## A whole check -/

section

variable {S : Type} [BlockReads S] [ReadableStore S] [CidCrate] [CidStream]
  {s : S} {config : FsckConfig} {all : Finset Cid} {rounds : Nat}

/-- The links walked from a block: none if it does not pass. -/
def startLinks (config : FsckConfig) (s : S) (cid : Cid) : List Cid :=
  match checkBlock s cid with
  | .ok true => if config.verifyReferences then nodeLinks (held s) cid else []
  | _ => []

theorem mem_startLinks {cid link : Cid} : link ∈ startLinks config s cid ↔
      config.verifyReferences = true ∧ checkBlock s cid = .ok true ∧
        link ∈ nodeLinks (held s) cid := by
  unfold startLinks
  split
  · next hcheck =>
    rw [hcheck]
    split
    · next hrefs => simp [hrefs]
    · next hrefs => simp [hrefs]
  · next hcheck =>
    constructor
    · intro hlink
      cases hlink
    · rintro ⟨-, hok, -⟩
      exact absurd hok hcheck

omit [ReadableStore S] in
/-- The identifier of a block that does not pass. -/
def corruptOf (s : S) (cid : Cid) : List Cid :=
  match checkBlock s cid with
  | .ok true => []
  | _ => [cid]

omit [CidStream] in
theorem checkContent_walked (config : FsckConfig) (hall : ∀ a, ∀ b ∈ nodeLinks (held s) a, b ∈ all)
    (hrounds : all.card < rounds) {cid : Cid} {data : List UInt8} (hdata : held s cid = some data)
    (hnew : Block.new data = .ok { cid, data }) (st : CheckState) (hst : st.checked ⊆ all)
    (htraced : TracedIn s config.maxDepth [] st.checked) :
    ∃ st' missing, checkContent config rounds s cid st = some (.ok st') ∧
      st'.result.blocksMissing = st.result.blocksMissing ++ missing ∧
      st'.result.blocksCorrupt = st.result.blocksCorrupt ∧ WalkedIn s config.maxDepth []
        (if config.verifyReferences then nodeLinks (held s) cid else [])
        st.checked st'.checked missing := by
  have hlinks : nodeLinks (held s) cid = blockLinks Ipld.links data := heldLinks_of_held hdata
  -- what is left as it was walks nothing
  have hsame : ∀ {links : List Cid}, links = [] →
      WalkedIn s config.maxDepth [] links st.checked st.checked [] := by
    rintro links rfl
    exact .stop (fun x hx => by cases hx)
  unfold checkContent
  by_cases hconfig : (config.checkIpld || config.verifyReferences) = true
  · rw [if_pos hconfig, ReadableStore.get_eq, hdata]
    simp only [Option.map_some]
    cases hipld : Ipld.fromDagCbor data with
    | ok ipld =>
      have hipldLinks : nodeLinks (held s) cid = ipld.links := by
        rw [hlinks, blockLinks, hipld]
      by_cases hrefs : config.verifyReferences = true
      · obtain ⟨refs, hwalk, hwalked⟩ := checkReferences_explores config.maxDepth hall rounds
          cid ipld st.checked [] hipldLinks ⟨cid, data, hdata, hnew, .refl⟩ hst
          (Nat.lt_of_le_of_lt (Finset.card_le_card Finset.sdiff_subset) hrounds) htraced
        simp only [if_pos hrefs, hwalk, Option.map_some]
        exact ⟨_, refs.missing, rfl, rfl, rfl, hwalked⟩
      · simp only [if_neg hrefs]
        exact ⟨_, [], rfl, by simp, rfl, hsame rfl⟩
    | error e =>
      have hnone : nodeLinks (held s) cid = [] := by
        rw [hlinks, blockLinks, hipld]
      simp only [hnone, ite_self]
      split
      · exact ⟨_, [], rfl, by simp, rfl, hsame rfl⟩
      · exact ⟨_, [], rfl, by simp, rfl, hsame rfl⟩
  · rw [if_neg hconfig]
    have hrefs : ¬ config.verifyReferences = true := fun h => hconfig (by simp [h])
    exact ⟨st, [], rfl, by simp, rfl, hsame (if_neg hrefs)⟩

theorem checkCid_walked (config : FsckConfig) (hall : ∀ a, ∀ b ∈ nodeLinks (held s) a, b ∈ all)
    (hrounds : all.card < rounds) {st : CheckState} (hst : st.checked ⊆ all)
    (htraced : TracedIn s config.maxDepth [] st.checked) (cid : Cid) :
    ∃ st' missing, checkCid config rounds s st cid = some (.ok st') ∧
      st'.result.blocksMissing = st.result.blocksMissing ++ missing ∧
      st'.result.blocksCorrupt = st.result.blocksCorrupt ++ corruptOf s cid ∧
      WalkedIn s config.maxDepth [] (startLinks config s cid) st.checked st'.checked missing := by
  unfold checkCid startLinks corruptOf
  split
  · next hcheck =>
    cases hdata : held s cid with
    | none =>
      rw [checkBlock, ReadableStore.get_eq, hdata] at hcheck
      cases hcheck
    | some data =>
      have hnew := (checkBlock_eq_true_iff hdata).mp hcheck
      simp only [List.append_nil]
      exact checkContent_walked config hall hrounds hdata hnew _ hst htraced
  · exact ⟨_, [], rfl, by simp, rfl, .stop (fun x hx => by cases hx)⟩

theorem checkAll_walked (config : FsckConfig)
    (hall : ∀ a, ∀ b ∈ nodeLinks (held s) a, b ∈ all)
    (hrounds : all.card < rounds) : ∀ (allCids : List Cid) (st : CheckState), st.checked ⊆ all →
    TracedIn s config.maxDepth [] st.checked →
    ∃ st' missing, checkAll config rounds s allCids st = some (.ok st') ∧
      st'.result.blocksMissing = st.result.blocksMissing ++ missing ∧
      st'.result.blocksCorrupt = st.result.blocksCorrupt ++ allCids.flatMap (corruptOf s) ∧
      WalkedIn s config.maxDepth [] (allCids.flatMap (startLinks config s)) st.checked
        st'.checked missing
  | [], st, _, _ => ⟨st, [], rfl, by simp, by simp, .stop (fun x hx => by cases hx)⟩
  | cid :: allCids, st, hst, htraced => by
    obtain ⟨mid, missing, hmid, hmissing, hcorrupt, hwalked⟩ :=
      checkCid_walked config hall hrounds hst htraced cid
    have hstart : ∀ link ∈ startLinks config s cid, link ∈ all :=
      fun link hlink => hall cid link (mem_startLinks.mp hlink).2.2
    obtain ⟨st', missing', hst', hmissing', hcorrupt', hwalked'⟩ :=
      checkAll_walked config hall hrounds allCids mid (hwalked.subset hall hstart hst)
        (hwalked.traced htraced)
    refine ⟨st', missing ++ missing', ?_, ?_, ?_, hwalked.append hwalked'⟩
    · rw [checkAll, hmid]
      exact hst'
    · rw [hmissing', hmissing, List.append_assoc]
    · rw [hcorrupt', hcorrupt, List.append_assoc, List.flatMap_cons]

/-- **What a check reports**: the blocks that do not pass, and what its walk misses. -/
theorem check_walked (config : FsckConfig)
    (hall : ∀ a, ∀ b ∈ nodeLinks (held s) a, b ∈ all) (hrounds : all.card < rounds)
    {allCids : List Cid} (hlist : BlockReads.listCids s = .ok allCids) :
    ∃ result new, check config rounds s = some (.ok result) ∧
      result.blocksCorrupt = allCids.flatMap (corruptOf s) ∧
      WalkedIn s config.maxDepth [] (allCids.flatMap (startLinks config s)) ∅ new
        result.blocksMissing := by
  obtain ⟨st, missing, hst, hmissing, hcorrupt, hwalked⟩ := checkAll_walked config hall hrounds
    allCids { result := .start allCids.length, checked := ∅ } (Finset.empty_subset _)
    (fun x hx => absurd hx (Finset.notMem_empty x))
  refine ⟨st.result, st.checked, ?_, hcorrupt, ?_⟩
  · rw [check, hlist]
    simp only [hst, Option.map_some]
    rfl
  · have hmissing' : st.result.blocksMissing = missing := hmissing
    rw [hmissing']
    exact hwalked

omit [ReadableStore S] in
theorem quickCheck_eq {allCids : List Cid} (hlist : BlockReads.listCids s = .ok allCids) :
    ∃ result, quickCheck s = .ok result ∧
      result.blocksCorrupt = allCids.flatMap (corruptOf s) ∧ result.blocksMissing = [] := by
  have hloop : ∀ (cids : List Cid) (result : FsckResult),
      (cids.foldl (quickCid s) result).blocksCorrupt
        = result.blocksCorrupt ++ cids.flatMap (corruptOf s) ∧
      (cids.foldl (quickCid s) result).blocksMissing = result.blocksMissing := by
    intro cids
    induction cids with
    | nil => intro result; simp
    | cons cid cids ih =>
      intro result
      obtain ⟨hcorrupt, hmissing⟩ := ih (quickCid s result cid)
      rw [List.foldl_cons, List.flatMap_cons, hcorrupt, hmissing, quickCid, corruptOf]
      split
      · exact ⟨rfl, rfl⟩
      · exact ⟨List.append_assoc _ _ _, rfl⟩
  refine ⟨allCids.foldl (quickCid s) (.start allCids.length), ?_, hloop allCids _⟩
  rw [quickCheck, hlist]
  rfl

omit [CidStream] in
/-- Finitely many references are linked from a store. -/
theorem exists_all (s : S) : ∃ all : Finset Cid, ∀ a, ∀ b ∈ nodeLinks (held s) a, b ∈ all := by
  obtain ⟨allCids, -, hlisted⟩ := ReadableStore.listCids_eq s
  refine ⟨(allCids.flatMap (nodeLinks (held s))).toFinset, fun a b hb => ?_⟩
  rw [List.mem_toFinset, List.mem_flatMap]
  exact ⟨a, (hlisted a).mpr (held_of_mem_heldLinks hb), hb⟩

theorem corruptOf_eq_nil_iff {cid : Cid} {data : List UInt8} (hdata : held s cid = some data) :
    corruptOf s cid = [] ↔ Block.new data = .ok { cid, data } := by
  rw [← checkBlock_eq_true_iff hdata, corruptOf]
  split
  · next h => simp [h]
  · next h =>
    constructor
    · intro hnil
      cases hnil
    · intro hcheck
      exact absurd hcheck (fun hcheck => h hcheck)

end

/-! ## False alarms -/

section

variable {S : Type} [BlockReads S] [ReadableStore S] [CidCrate] [CidStream]

/-- **The check raises no false alarm** on blocks the builders gave, with all links present,
exactly if each was built with the default settings. -/
theorem check_healthy_iff [CidCrate.Sha256Coded] (s : S) (builtWith : Cid → CidBuilder)
    (hbuilt : ∀ cid data, held s cid = some data →
      Block.build (builtWith cid) data = .ok { cid, data })
    (hlinks : ∀ cid, ∀ link ∈ nodeLinks (held s) cid, (held s link).isSome) (config : FsckConfig) :
    ∃ n, ∀ rounds ≥ n, ∃ result quick, check config rounds s = some (.ok result) ∧
      quickCheck s = .ok quick ∧ (result.isHealthy = true ∧ quick.isHealthy = true ↔
        ∀ cid, (held s cid).isSome → builtWith cid = {}) := by
  obtain ⟨all, hall⟩ := exists_all s
  obtain ⟨allCids, hlist, hlisted⟩ := ReadableStore.listCids_eq s
  obtain ⟨quick, hquick, hquickCorrupt, hquickMissing⟩ := quickCheck_eq hlist
  refine ⟨all.card + 1, fun rounds hrounds => ?_⟩
  obtain ⟨result, new, hresult, hcorrupt, hwalked⟩ := check_walked config hall
    (Nat.lt_of_succ_le hrounds) hlist
  refine ⟨result, quick, hresult, hquick, ?_⟩
  have hmissing : result.blocksMissing = [] := by
    refine List.eq_nil_iff_forall_not_mem.mpr (fun link hlink => ?_)
    obtain ⟨hnew, hold, hnone⟩ := (hwalked.reports link).mp hlink
    have hheld : (held s link).isSome := by
      refine Reach.rule (P := fun x => (held s x).isSome) (fun x hx => ?_)
        (fun a b _ _ hb => hlinks a b hb) (hwalked.sound link hnew hold)
      obtain ⟨cid, -, hx⟩ := List.mem_flatMap.mp hx
      exact hlinks cid x (mem_startLinks.mp hx).2.2
    rw [hnone] at hheld
    cases hheld
  rw [FsckResult.isHealthy_iff, FsckResult.isHealthy_iff, hmissing, hquickMissing, hcorrupt,
    hquickCorrupt, List.flatMap_eq_nil_iff]
  have hpass : ∀ cid, (held s cid).isSome → (corruptOf s cid = [] ↔ builtWith cid = {}) := by
    intro cid hcid
    obtain ⟨data, hdata⟩ := Option.isSome_iff_exists.mp hcid
    rw [corruptOf_eq_nil_iff hdata]
    exact Block.new_eq_of_build_iff (b := { cid, data }) (hbuilt cid data hdata)
  constructor
  · rintro ⟨⟨hnil, -⟩, -⟩ cid hcid
    exact (hpass cid hcid).mp (hnil cid ((hlisted cid).mpr hcid))
  · intro hdefault
    have hnil : ∀ cid ∈ allCids, corruptOf s cid = [] := fun cid hmem =>
      (hpass cid ((hlisted cid).mp hmem)).mpr (hdefault cid ((hlisted cid).mp hmem))
    exact ⟨⟨hnil, rfl⟩, hnil, rfl⟩

end

section

open scoped CidFormat

/-- A block of another codec does not pass. -/
theorem not_passes_dagCbor (data : List UInt8) :
    ¬ Block.new data = .ok { cid := cidOf codecDagCbor data, data } := by
  intro h
  obtain ⟨-, h⟩ := Block.new_eq_ok.mp h
  have hcodec : codecDagCbor = codecRaw := congrArg (fun b => b.cid.codec) h
  exact absurd hcodec (by decide)

/-- A store of some blocks. -/
private def fsckStore (blocks : List Block) : MemoryBlockStore := { blocks }

private theorem held_fsckStore : ∀ {blocks : List Block}, (blocks.map Block.cid).Nodup →
    ∀ {b : Block}, held (fsckStore blocks) b.cid = some b.data ↔ b ∈ blocks
  | [], _, b => by simp [held, fsckStore, MemoryBlockStore.find]
  | a :: blocks, h, b => by
    rw [List.map_cons, List.nodup_cons] at h
    have hrest := held_fsckStore h.2 (b := b)
    simp only [held, fsckStore, MemoryBlockStore.find, List.find?_cons, List.mem_cons] at hrest ⊢
    by_cases hcid : a.cid = b.cid
    · have hnot : b ∉ blocks := fun hb => h.1 (hcid ▸ List.mem_map_of_mem hb)
      obtain ⟨cid, data⟩ := a
      obtain ⟨cid', data'⟩ := b
      obtain rfl : cid = cid' := hcid
      simp [hnot, eq_comm]
    · have hne : b ≠ a := fun heq => hcid (heq ▸ rfl)
      rw [beq_eq_false_iff_ne.mpr hcid]
      simpa [hne] using hrest

private theorem nodeLinks_fsckStore {blocks : List Block} (h : (blocks.map Block.cid).Nodup)
    {cid link : Cid} : link ∈ nodeLinks (held (fsckStore blocks)) cid ↔
      ∃ b ∈ blocks, b.cid = cid ∧ link ∈ blockLinks Ipld.links b.data := by
  constructor
  · intro hlink
    obtain ⟨data, hdata⟩ := Option.isSome_iff_exists.mp (held_of_mem_heldLinks hlink)
    rw [nodeLinks, heldLinks_of_held hdata] at hlink
    exact ⟨⟨cid, data⟩, (held_fsckStore h).mp hdata, rfl, hlink⟩
  · rintro ⟨b, hb, rfl, hlink⟩
    rwa [nodeLinks, heldLinks_of_held ((held_fsckStore h).mpr hb)]

private theorem listCids_fsckStore (b : Block) :
    BlockReads.listCids (fsckStore [b]) = .ok [b.cid] := rfl

/-- The empty list, under an identifier of a codec. -/
private def fsckEmptyList (codec : UInt64) : Block := { cid := cidOf codec [0x80], data := [0x80] }

private theorem links_fsckEmptyList : blockLinks Ipld.links [0x80] = [] := by decide

/-- A list with one link, under an identifier of a codec. -/
private def fsckParent (codec : UInt64) (link : Cid) : Block :=
  let data := cborBytes (.list [.link link])
  { cid := cidOf codec data, data }

/-- A list with a link to the empty list, both built by `Block::new`. -/
private def fsckLinked : List Block :=
  [fsckParent codecRaw (fsckEmptyList codecRaw).cid, fsckEmptyList codecRaw]

/-- No block of them is reported. -/
theorem check_healthy_iff_linked : ∃ n, ∀ rounds ≥ n, ∃ result quick,
      check {} rounds (fsckStore fsckLinked) = some (.ok result) ∧
        quickCheck (fsckStore fsckLinked) = .ok quick ∧
        result.isHealthy = true ∧ quick.isHealthy = true := by
  have hnodup : (fsckLinked.map Block.cid).Nodup := by decide +kernel
  have hbuilt : ∀ cid data, held (fsckStore fsckLinked) cid = some data →
      Block.build {} data = .ok { cid, data } := by
    intro cid data hdata
    have hmem : Block.mk cid data ∈ fsckLinked := (held_fsckStore hnodup).mp hdata
    have hall : ∀ b ∈ fsckLinked, Block.build {} b.data = .ok b := by decide +kernel
    exact hall _ hmem
  have hlinks : ∀ cid, ∀ link ∈ nodeLinks (held (fsckStore fsckLinked)) cid,
      (held (fsckStore fsckLinked) link).isSome := by
    intro cid link hlink
    obtain ⟨b, hb, -, hlink⟩ := (nodeLinks_fsckStore hnodup).mp hlink
    have hall : ∀ b ∈ fsckLinked, ∀ link ∈ blockLinks Ipld.links b.data,
        link = (fsckEmptyList codecRaw).cid := by decide +kernel
    rw [hall b hb link hlink]
    exact Option.isSome_of_eq_some ((held_fsckStore hnodup).mpr
      (List.mem_cons_of_mem _ List.mem_cons_self))
  obtain ⟨n, hn⟩ := check_healthy_iff (fsckStore fsckLinked) (fun _ => {}) hbuilt hlinks {}
  refine ⟨n, fun rounds hrounds => ?_⟩
  obtain ⟨result, quick, hresult, hquick, hiff⟩ := hn rounds hrounds
  obtain ⟨hhealthy, hhealthy'⟩ := hiff.mpr (fun _ _ => rfl)
  exact ⟨result, quick, hresult, hquick, hhealthy, hhealthy'⟩

/-- An empty list that the builder made with the DAG-CBOR codec is reported. -/
theorem not_check_healthy : ¬ ∀ (s : MemoryBlockStore) (builtWith : Cid → CidBuilder),
        (∀ cid data, held s cid = some data →
          Block.build (builtWith cid) data = .ok { cid, data }) →
        (∀ cid, ∀ link ∈ nodeLinks (held s) cid, (held s link).isSome) →
        ∀ config : FsckConfig, ∃ n, ∀ rounds ≥ n, ∃ result quick,
          check config rounds s = some (.ok result) ∧ quickCheck s = .ok quick ∧
            result.isHealthy = true ∧ quick.isHealthy = true := by
  intro h
  have hnodup : ([fsckEmptyList codecDagCbor].map Block.cid).Nodup := List.nodup_singleton _
  have hheld : ∀ {cid : Cid} {data : List UInt8},
      held (fsckStore [fsckEmptyList codecDagCbor]) cid = some data →
        Block.mk cid data = fsckEmptyList codecDagCbor :=
    fun hdata => List.mem_singleton.mp ((held_fsckStore hnodup).mp hdata)
  obtain ⟨n, hn⟩ := h (fsckStore [fsckEmptyList codecDagCbor])
    (fun _ => { codec := codecDagCbor })
    (fun cid data hdata => by
      cases hheld hdata
      exact Block.build_eq_ok.mpr ⟨(by decide : minBlockSize ≤ 1 ∧ 1 ≤ maxBlockSize), rfl⟩)
    (fun cid link hlink => by
      obtain ⟨b, hb, -, hlink⟩ := (nodeLinks_fsckStore hnodup).mp hlink
      rw [List.mem_singleton.mp hb, fsckEmptyList, links_fsckEmptyList] at hlink
      cases hlink) {}
  obtain ⟨result, quick, -, hquick, -, hhealthy⟩ := hn n (Nat.le_refl n)
  obtain ⟨quick', hquick', hcorrupt, -⟩ := quickCheck_eq (listCids_fsckStore
    (fsckEmptyList codecDagCbor))
  rw [hquick] at hquick'
  cases hquick'
  rw [FsckResult.isHealthy_iff, hcorrupt, List.flatMap_singleton,
    corruptOf_eq_nil_iff ((held_fsckStore hnodup).mpr (List.mem_singleton_self _))] at hhealthy
  exact not_passes_dagCbor [0x80] hhealthy.1

end

/-! ## Missing blocks -/

section

variable {S : Type} [BlockReads S] [ReadableStore S] [CidCrate] [CidStream]

theorem reach_startLinks_iff {s : S} {config : FsckConfig} (hrefs : config.verifyReferences = true)
    {allCids : List Cid} (hlisted : ∀ cid, cid ∈ allCids ↔ (held s cid).isSome) {link : Cid} :
    Reach (nodeLinks (held s)) (allCids.flatMap (startLinks config s)) link ↔
      ∃ cid, WalkedInto s cid ∧ link ∈ nodeLinks (held s) cid := by
  constructor
  · refine Reach.rule (P := fun link => ∃ cid, WalkedInto s cid ∧ link ∈ nodeLinks (held s) cid)
      (fun link hlink => ?_) ?_
    · obtain ⟨root, hroot, hlink⟩ := List.mem_flatMap.mp hlink
      obtain ⟨-, hcheck, hlink⟩ := mem_startLinks.mp hlink
      obtain ⟨data, hdata⟩ := Option.isSome_iff_exists.mp ((hlisted root).mp hroot)
      exact ⟨root, ⟨root, data, hdata, (checkBlock_eq_true_iff hdata).mp hcheck, .refl⟩, hlink⟩
    · rintro a b - ⟨cid, ⟨root, data, hdata, hnew, hpath⟩, ha⟩ hb
      exact ⟨a, ⟨root, data, hdata, hnew, hpath.tail ha⟩, hb⟩
  · rintro ⟨cid, ⟨root, data, hdata, hnew, hpath⟩, hlink⟩
    induction hpath generalizing link with
    | refl =>
      refine .root (List.mem_flatMap.mpr ⟨root, (hlisted root).mpr (by simp [hdata]), ?_⟩)
      exact mem_startLinks.mpr ⟨hrefs, (checkBlock_eq_true_iff hdata).mpr hnew, hlink⟩
    | tail _ hlast ih => exact (ih hlast).step hlink

/-- **The check finds the missing blocks**, unless the limit may cut its walk short, exactly if
each is linked from a block that passes or is reached from one. -/
theorem check_missing_iff (s : S) (config : FsckConfig) (hrefs : config.verifyReferences = true)
    (hmax : ∀ max ∈ config.maxDepth, WithinLimit s max) :
    ∃ n, ∀ rounds ≥ n, ∃ result, check config rounds s = some (.ok result) ∧
      ((result.blocksMissing.Nodup ∧ ∀ link, link ∈ result.blocksMissing ↔
          held s link = none ∧ ∃ cid, link ∈ nodeLinks (held s) cid) ↔
        ∀ link, held s link = none → (∃ cid, link ∈ nodeLinks (held s) cid) →
          ∃ cid, WalkedInto s cid ∧ link ∈ nodeLinks (held s) cid) := by
  obtain ⟨all, hall⟩ := exists_all s
  obtain ⟨allCids, hlist, hlisted⟩ := ReadableStore.listCids_eq s
  refine ⟨all.card + 1, fun rounds hrounds => ?_⟩
  obtain ⟨result, new, hresult, -, hwalked⟩ := check_walked config hall
    (Nat.lt_of_succ_le hrounds) hlist
  refine ⟨result, hresult, ?_⟩
  have hmissing : ∀ link, link ∈ result.blocksMissing ↔
      held s link = none ∧ ∃ cid, WalkedInto s cid ∧ link ∈ nodeLinks (held s) cid := by
    intro link
    rw [hwalked.exact (fun a b hb hsure => ⟨hsure.1, hsure.2.of_link hb⟩)
      (fun hnone => ⟨hmax, link, hnone, .refl⟩), and_comm, reach_startLinks_iff hrefs hlisted]
  constructor
  · rintro ⟨-, hexact⟩ link hnone hlinked
    exact ((hmissing link).mp ((hexact link).mpr ⟨hnone, hlinked⟩)).2
  · intro hcond
    refine ⟨hwalked.nodup, fun link => ?_⟩
    rw [hmissing]
    constructor
    · rintro ⟨hnone, cid, -, hlink⟩
      exact ⟨hnone, cid, hlink⟩
    · rintro ⟨hnone, hlinked⟩
      exact ⟨hnone, hcond link hnone hlinked⟩

end

section

open scoped CidFormat

private def fsckAbsent (n : UInt8) : Cid :=
  Cid.newV1 codecRaw { code := 0x12, digest := List.replicate 32 n, size_le := by simp }

/-- A list with a link to an absent block, under the DAG-CBOR codec. -/
private def fsckChild : Block := fsckParent codecDagCbor (fsckAbsent 0)

private theorem links_fsckParent (codec : UInt64) :
    blockLinks Ipld.links (fsckParent codec (fsckAbsent 0)).data = [fsckAbsent 0] := by
  show blockLinks Ipld.links (cborBytes (.list [.link (fsckAbsent 0)])) = _
  decide

/-- That block and one of the raw codec that links to it. -/
private def fsckNested : List Block := [fsckParent codecRaw fsckChild.cid, fsckChild]

private theorem nodup_fsckNested : (fsckNested.map Block.cid).Nodup := by decide

private theorem links_fsckNested {cid link : Cid} :
    link ∈ nodeLinks (held (fsckStore fsckNested)) cid ↔
      (cid = (fsckParent codecRaw fsckChild.cid).cid ∧ link = fsckChild.cid) ∨
        (cid = fsckChild.cid ∧ link = fsckAbsent 0) := by
  have hroot : blockLinks Ipld.links (fsckParent codecRaw fsckChild.cid).data
      = [fsckChild.cid] := by
    show blockLinks Ipld.links (cborBytes (.list [.link fsckChild.cid])) = _
    decide +kernel
  rw [nodeLinks_fsckStore nodup_fsckNested, fsckNested]
  simp only [List.mem_cons, List.not_mem_nil, or_false, exists_eq_or_imp, exists_eq_left, hroot]
  rw [fsckChild, links_fsckParent]
  simp [eq_comm]

/-- The absent block is found on the way through the other, which does not pass itself. -/
theorem check_missing_iff_nested : ∃ n, ∀ rounds ≥ n, ∃ result,
      check {} rounds (fsckStore fsckNested) = some (.ok result) ∧
        result.blocksMissing.Nodup ∧ ∀ link, link ∈ result.blocksMissing ↔
          held (fsckStore fsckNested) link = none ∧
            ∃ cid, link ∈ nodeLinks (held (fsckStore fsckNested)) cid := by
  have hlimit : ∀ max ∈ ({} : FsckConfig).maxDepth, WithinLimit (fsckStore fsckNested) max := by
    rintro max ⟨⟩ cid - link - -
    refine ⟨{fsckChild.cid, fsckAbsent 0}, ?_, fun cid' _ _ link' hlink' => ?_⟩
    · exact Nat.lt_of_le_of_lt (Finset.card_le_two) (by decide)
    · rcases links_fsckNested.mp hlink' with ⟨-, rfl⟩ | ⟨-, rfl⟩ <;> simp
  obtain ⟨n, hn⟩ := check_missing_iff (fsckStore fsckNested) {} rfl hlimit
  refine ⟨n, fun rounds hrounds => ?_⟩
  obtain ⟨result, hresult, hiff⟩ := hn rounds hrounds
  refine ⟨result, hresult, hiff.mpr ?_⟩
  have hroot : WalkedInto (fsckStore fsckNested) (fsckParent codecRaw fsckChild.cid).cid :=
    ⟨_, _, (held_fsckStore nodup_fsckNested).mpr List.mem_cons_self,
      Block.new_eq_ok.mpr ⟨by decide, rfl⟩, .refl⟩
  rintro link - ⟨cid, hlink⟩
  refine ⟨cid, ?_, hlink⟩
  rcases links_fsckNested.mp hlink with ⟨rfl, -⟩ | ⟨rfl, -⟩
  · exact hroot
  · exact hroot.link (links_fsckNested.mpr (.inl ⟨rfl, rfl⟩))

/-- One linked from a DAG-CBOR block is not: the block itself does not pass. -/
theorem not_check_missing :
    ¬ ∀ (s : MemoryBlockStore) (config : FsckConfig), config.verifyReferences = true →
        ∃ n, ∀ rounds ≥ n, ∃ result, check config rounds s = some (.ok result) ∧
          result.blocksMissing.Nodup ∧ ∀ link, link ∈ result.blocksMissing ↔
            held s link = none ∧ ∃ cid, link ∈ nodeLinks (held s) cid := by
  intro h
  have hnodup : ([fsckChild].map Block.cid).Nodup := List.nodup_singleton _
  obtain ⟨n, hn⟩ := h (fsckStore [fsckChild]) {} rfl
  obtain ⟨all, hall⟩ := exists_all (fsckStore [fsckChild])
  obtain ⟨result, hresult, -, hexact⟩ := hn (max n (all.card + 1)) (Nat.le_max_left _ _)
  obtain ⟨result', new, hresult', -, hwalked⟩ := check_walked {} hall
    (Nat.lt_of_succ_le (Nat.le_max_right n _)) (listCids_fsckStore fsckChild)
  rw [hresult] at hresult'
  cases hresult'
  have hdata : held (fsckStore [fsckChild]) fsckChild.cid = some fsckChild.data :=
    (held_fsckStore hnodup).mpr (List.mem_singleton_self _)
  have hlink : fsckAbsent 0 ∈ result.blocksMissing := by
    refine (hexact _).mpr ⟨?_, fsckChild.cid, (nodeLinks_fsckStore hnodup).mpr
      ⟨_, List.mem_singleton_self _, rfl, ?_⟩⟩
    · refine Option.eq_none_iff_forall_ne_some.mpr (fun data hheld => ?_)
      have hmem : Block.mk (fsckAbsent 0) data ∈ [fsckChild] := (held_fsckStore hnodup).mp hheld
      have hcodec : codecRaw = codecDagCbor :=
        congrArg (fun b => b.cid.codec) (List.mem_singleton.mp hmem)
      exact absurd hcodec (by decide)
    · rw [fsckChild, links_fsckParent]
      exact List.mem_singleton_self _
  obtain ⟨hnew, hold, -⟩ := (hwalked.reports _).mp hlink
  obtain ⟨start, hstart, -⟩ := hwalked.sound _ hnew hold
  obtain ⟨cid, hcid, hstart⟩ := List.mem_flatMap.mp hstart
  obtain rfl := List.mem_singleton.mp hcid
  exact not_passes_dagCbor _ ((checkBlock_eq_true_iff hdata).mp (mem_startLinks.mp hstart).2.1)

-- The limit is on the references checked: the second of two of depth one is left out.
example : (match check { maxDepth := some 1 } 2
    (fsckStore [fsckParent codecRaw (fsckAbsent 0), fsckParent codecRaw (fsckAbsent 1)]) with
    | some (.ok result) => result.blocksMissing
    | _ => []) = [fsckAbsent 0] := by decide +kernel

end

end Ipfrs.Node
