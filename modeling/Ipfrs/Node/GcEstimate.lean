/-
Ipfrs.Node.GcEstimate — the estimate of what a collection would free (`gc.rs`).

The estimate asks the pin manager, with the indirect pins recorded in it; the collector marks
what the pins reach now. What is freed is not what was estimated where the two differ: blocks
reached that were never recorded are estimated and stay, blocks recorded that are not reached
any more are freed and were not estimated.
-/
import Ipfrs.Node.GcTheorems
import Ipfrs.Node.Pin

namespace Ipfrs.Node

open Ipfrs.Core Ipfrs.Lib Ipfrs.Lib.Worklist
open Ipfrs.Knowledge (ColdStore MemoryBlockStore sizeIn)
open Ipfrs.Knowledge.ColdStore.Faithful (lookup)

section

variable {C : Type} [ColdStore C]

/-- The loop of `estimate_freeable_space`, from the total so far. -/
def estimateLoop (t : PinTables) : List Cid → Nat → EStateM Error C Nat
  | [], total => pure total
  | cid :: rest, total =>
    if t.isPinned cid = true then estimateLoop t rest total
    else do
      match ← ColdStore.get cid with
      | none => estimateLoop t rest total
      | some block => estimateLoop t rest (total + block.data.length)

def estimateFreeableSpace (t : PinTables) : EStateM Error C Nat := do
  let allCids ← ColdStore.listCids
  estimateLoop t allCids 0

end

/-! ## Sizes -/

/-- What the listed blocks with a property take. -/
def bytesOf (held : Cid → Option (List UInt8)) (all : List Cid) (p : Cid → Bool) : Nat :=
  ((all.filter p).map (sizeIn held)).sum

section

variable {held : Cid → Option (List UInt8)}

theorem bytesOf_cons (cid : Cid) (all : List Cid) (p : Cid → Bool) : bytesOf held (cid :: all) p
      = (if p cid = true then sizeIn held cid else 0) + bytesOf held all p := by
  by_cases hp : p cid = true
  · simp [bytesOf, hp]
  · simp [bytesOf, hp]

theorem bytesOf_congr {all : List Cid} {p q : Cid → Bool} (h : ∀ cid ∈ all, p cid = q cid) :
    bytesOf held all p = bytesOf held all q := by
  rw [bytesOf, bytesOf, List.filter_congr h]

/-- The blocks with a property are those that have another one too and those that do not. -/
theorem bytesOf_split (all : List Cid) (p q : Cid → Bool) : bytesOf held all p
      = bytesOf held all (fun cid => p cid && q cid)
        + bytesOf held all (fun cid => p cid && !q cid) := by
  induction all with
  | nil => rfl
  | cons cid all ih =>
    rw [bytesOf_cons, bytesOf_cons, bytesOf_cons, ih]
    cases p cid <;> cases q cid <;> simp <;> omega

theorem bytesOf_perm {all all' : List Cid} (h : all.Perm all') (p : Cid → Bool) :
    bytesOf held all p = bytesOf held all' p :=
  ((h.filter p).map (sizeIn held)).sum_nat

/-- Two properties hold of the same size exactly if what has only the one takes as much as what
has only the other. -/
theorem bytesOf_eq_iff (all : List Cid) (p q : Cid → Bool) :
    bytesOf held all p = bytesOf held all q ↔ bytesOf held all (fun cid => p cid && !q cid)
        = bytesOf held all (fun cid => q cid && !p cid) := by
  have hp : bytesOf held all p = _ := bytesOf_split all p q
  have hq : bytesOf held all q = _ := bytesOf_split all q p
  have hboth : bytesOf held all (fun cid => p cid && q cid)
      = bytesOf held all (fun cid => q cid && p cid) :=
    bytesOf_congr (fun cid _ => Bool.and_comm _ _)
  omega

/-- What a sweep without a limit frees. -/
theorem swept_freed (live all : List Cid) : ∀ (collected freed : Nat),
    (swept 0 live held all collected freed).2
      = freed + bytesOf held all (fun cid => decide (cid ∉ live)) := by
  induction all with
  | nil => intro collected freed; rfl
  | cons cid all ih =>
    intro collected freed
    rw [swept, if_neg (by simp), bytesOf_cons]
    by_cases hlive : cid ∈ live
    · rw [if_pos hlive, ih]
      simp [hlive]
    · rw [if_neg hlive]
      cases hheld : held cid with
      | none =>
        simp only [ih]
        simp [sizeIn, hheld]
      | some data =>
        simp only [ih]
        simp [hlive, sizeIn, hheld, Nat.add_assoc]

end

section

variable {C : Type} [ColdStore C] [ColdStore.Faithful C]

/-- The loop adds what is held and not pinned. -/
theorem estimateLoop_ok (t : PinTables) : ∀ (all : List Cid) (total : Nat) {c c' : C} {n : Nat},
    estimateLoop t all total c = .ok n c' →
    n = total + bytesOf (lookup c) all (fun cid => !t.isPinned cid)
  | [], total, c, c', n, h => by
    cases h
    rfl
  | cid :: rest, total, c, c', n, h => by
    rw [estimateLoop] at h
    rw [bytesOf_cons]
    by_cases hpinned : t.isPinned cid = true
    · rw [if_pos hpinned] at h
      rw [estimateLoop_ok t rest total h]
      simp [hpinned]
    · rw [if_neg hpinned] at h
      obtain ⟨r, c₁, hget, h⟩ := run_bind_eq_ok h
      obtain ⟨hdata, hsame⟩ := ColdStore.Faithful.get_ok hget
      rw [← hsame]
      rw [← hsame] at hdata
      cases r with
      | none =>
        rw [estimateLoop_ok t rest total h]
        simp [sizeIn, ← hdata]
      | some block =>
        rw [estimateLoop_ok t rest _ h]
        simp [hpinned, sizeIn, ← hdata, Nat.add_assoc]

variable [CidCrate] [ListsOnce C]

/-- What an estimate says and what a collection without a limit frees. -/
theorem estimate_and_freed {t : PinTables} {store c' c'' : C} {rounds total : Nat}
    {config : GcConfig} {stats : GcStats} (hmax : config.maxBlocksPerRun = 0)
    (hestimate : estimateFreeableSpace t store = .ok total c')
    (hcollect : collect rounds t.toPinManager config store = some (.ok stats c'')) :
    ∃ (live all : List Cid) (c₁ : C), ColdStore.listCids store = .ok all c₁ ∧ (∀ cid, cid ∈ live ↔
        Reach (nodeLinks (lookup store)) (t.pins.map PinInfo.cid) cid) ∧
      total = bytesOf (lookup store) all (fun cid => !t.isPinned cid) ∧
      stats.bytesFreed = bytesOf (lookup store) all (fun cid => decide (cid ∉ live)) := by
  obtain ⟨all, c₁, hlist, hloop⟩ := run_bind_eq_ok hestimate
  obtain ⟨hall, hsame₁⟩ := ColdStore.Faithful.listCids_ok hlist
  have htotal := estimateLoop_ok t all 0 hloop
  rw [hsame₁, Nat.zero_add] at htotal
  rw [collect] at hcollect
  split at hcollect
  · cases hcollect
  · cases hcollect
  · next live c₂ hmark =>
    obtain ⟨hsame₂, hlive⟩ := markReachable_ok hmark
    obtain ⟨all', c₃, hlist', hstats⟩ := sweepAll_ok (Option.some.inj hcollect)
    obtain ⟨hall', hsame₃⟩ := ColdStore.Faithful.listCids_ok hlist'
    -- both lists hold each stored identifier once
    have hperm : all'.Perm all := by
      refine (List.perm_ext_iff_of_nodup (ListsOnce.listCids_nodup hlist')
        (ListsOnce.listCids_nodup hlist)).mpr (fun cid => ?_)
      rw [hall', hall, hsame₂]
    refine ⟨live, all, c₁, hlist, hlive, htotal, ?_⟩
    rw [hstats, hmax, swept_freed, Nat.zero_add, hsame₃, hsame₂, bytesOf_perm hperm]

open Classical in
/-- **The estimate is right** exactly if the stored blocks that are reached from the pins but
not recorded as pinned take as much as those that are recorded but not reached. -/
theorem estimate_eq_freed_iff (t : PinTables) (store : C) :
    ∃ n, ∀ rounds ≥ n, ∀ config : GcConfig, config.maxBlocksPerRun = 0 →
      ∃ r, collect rounds t.toPinManager config store = some r ∧
        ∀ total c' stats c'' all c₁, estimateFreeableSpace t store = .ok total c' →
          r = .ok stats c'' → ColdStore.listCids store = .ok all c₁ → (total = stats.bytesFreed ↔
            bytesOf (lookup store) all (fun cid => decide (¬ t.isPinned cid = true ∧
              Reach (nodeLinks (lookup store)) (t.pins.map PinInfo.cid) cid))
            = bytesOf (lookup store) all (fun cid => decide (t.isPinned cid = true ∧
              ¬ Reach (nodeLinks (lookup store)) (t.pins.map PinInfo.cid) cid))) := by
  obtain ⟨n, hn⟩ := markReachable_returns t.toPinManager store
  refine ⟨n, fun rounds hrounds config hmax => ?_⟩
  obtain ⟨mark, hmark⟩ := hn rounds hrounds
  obtain ⟨r, hr⟩ : ∃ r, collect rounds t.toPinManager config store = some r := by
    rw [collect, hmark]
    cases mark with
    | error e c => exact ⟨_, rfl⟩
    | ok live c => exact ⟨_, rfl⟩
  refine ⟨r, hr, ?_⟩
  rintro total c' stats c'' all c₁ hestimate rfl hlist
  obtain ⟨live, all', c₂, hlist', hlive, htotal, hfreed⟩ := estimate_and_freed hmax hestimate hr
  rw [hlist] at hlist'
  cases hlist'
  rw [htotal, hfreed, bytesOf_eq_iff]
  have hreached : bytesOf (lookup store) all
      (fun cid => !t.isPinned cid && !decide (cid ∉ live))
      = bytesOf (lookup store) all (fun cid => decide (¬ t.isPinned cid = true ∧
        Reach (nodeLinks (lookup store)) (t.pins.map PinInfo.cid) cid)) :=
    bytesOf_congr (fun cid _ => by rw [Bool.eq_iff_iff]; simp [hlive])
  have hrecorded : bytesOf (lookup store) all
      (fun cid => decide (cid ∉ live) && !(!t.isPinned cid))
      = bytesOf (lookup store) all (fun cid => decide (t.isPinned cid = true ∧
        ¬ Reach (nodeLinks (lookup store)) (t.pins.map PinInfo.cid) cid)) :=
    bytesOf_congr (fun cid _ => by rw [Bool.eq_iff_iff]; simp [hlive, and_comm])
  rw [hreached, hrecorded]

end

/-! ## A linked block and one that nothing links to -/

open scoped CidFormat

private def estLeaf : Block := { cid := cidOf codecRaw [1], data := [1] }

private def estParent : Block :=
  let data := cborBytes (.list [.link estLeaf.cid])
  { cid := cidOf codecDagCbor data, data }

private def estOrphan : Block := { cid := cidOf codecRaw [2, 2], data := [2, 2] }

private def estStore : MemoryBlockStore := { blocks := [estParent, estLeaf, estOrphan] }

private def estPinned : PinTables :=
  (PinTables.new.pin estParent.cid .recursive none).addIndirect estParent.cid estLeaf.cid

private theorem est_reach_iff (cid : Cid) :
    Reach (nodeLinks (lookup estStore)) (estPinned.pins.map PinInfo.cid) cid ↔
      cid = estParent.cid ∨ cid = estLeaf.cid := by
  have hparent : nodeLinks (lookup estStore) estParent.cid = [estLeaf.cid] := by decide +kernel
  have hleaf : nodeLinks (lookup estStore) estLeaf.cid = [] := by decide +kernel
  constructor
  · refine Reach.rule (P := fun c => c = estParent.cid ∨ c = estLeaf.cid)
      (fun root hroot => .inl (List.mem_singleton.mp hroot)) ?_
    rintro a b - (rfl | rfl) hlink
    · rw [hparent] at hlink
      exact .inr (List.mem_singleton.mp hlink)
    · rw [hleaf] at hlink
      cases hlink
  · have hroot : Reach (nodeLinks (lookup estStore)) (estPinned.pins.map PinInfo.cid)
        estParent.cid := .root List.mem_cons_self
    rintro (rfl | rfl)
    · exact hroot
    · exact hroot.step (by rw [hparent]; exact List.mem_singleton_self _)

/-- With the linked block recorded for its root, the estimate is right. -/
theorem estimate_eq_freed_iff_recorded :
    ∃ n, ∀ rounds ≥ n, ∃ r, collect rounds estPinned.toPinManager {} estStore = some r ∧
      ∀ total c' stats c'' all c₁, estimateFreeableSpace estPinned estStore = .ok total c' →
        r = .ok stats c'' → ColdStore.listCids estStore = .ok all c₁ →
        total = stats.bytesFreed := by
  obtain ⟨n, hn⟩ := estimate_eq_freed_iff estPinned estStore
  refine ⟨n, fun rounds hrounds => ?_⟩
  obtain ⟨r, hr, hiff⟩ := hn rounds hrounds {} rfl
  refine ⟨r, hr, fun total c' stats c'' all c₁ hestimate hcollect hlist => ?_⟩
  refine (hiff total c' stats c'' all c₁ hestimate hcollect hlist).mpr ?_
  have hpinned : ∀ cid, estPinned.isPinned cid = true ↔
      cid = estParent.cid ∨ cid = estLeaf.cid := by
    intro cid
    have hpins : estPinned.pins = [⟨estParent.cid, .recursive, none⟩] := rfl
    have hindirect : estPinned.indirectPins = insert estLeaf.cid ∅ := rfl
    rw [PinTables.isPinned, hpins, hindirect, Bool.or_eq_true, decide_eq_true_iff,
      Finset.mem_insert, List.any_cons, List.any_nil, Bool.or_false, decide_eq_true_iff]
    refine or_congr eq_comm (or_iff_left (Finset.notMem_empty cid))
  refine bytesOf_congr (fun cid _ => ?_)
  simp only [hpinned, est_reach_iff, and_not_self, not_and_self]

/-- With the parent pinned directly the estimate counts the linked block, which stays. -/
theorem estimate_counts_linked : ∃ total c' stats c'',
      estimateFreeableSpace (PinTables.new.pin estParent.cid .direct none) estStore = .ok total c' ∧
      collect 3 (PinTables.new.pin estParent.cid .direct none).toPinManager {} estStore
        = some (.ok stats c'') ∧ total = 3 ∧ stats.bytesFreed = 2 := by
  have hestimate : (match estimateFreeableSpace
      (PinTables.new.pin estParent.cid .direct none) estStore with
      | .ok total _ => some total
      | .error _ _ => none) = some 3 := by decide +kernel
  have hcollect : (match collect 3
      (PinTables.new.pin estParent.cid .direct none).toPinManager {} estStore with
      | some (.ok stats _) => some stats.bytesFreed
      | some (.error _ _) => none
      | none => none) = some 2 := by decide +kernel
  split at hestimate
  · next total c' htotal =>
    split at hcollect
    · next stats c'' hstats =>
      exact ⟨total, c', stats, c'', htotal, hstats, Option.some.inj hestimate,
        Option.some.inj hcollect⟩
    · cases hcollect
    · cases hcollect
  · cases hestimate

end Ipfrs.Node
