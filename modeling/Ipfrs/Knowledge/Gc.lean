/-
Ipfrs.Knowledge.Gc — mark and sweep over the backend (`gc.rs`).

Marking is a stack loop and is given a number of rounds. A failed operation of the
backend ends the call with the backend as it is then, so a sweep may have deleted
some blocks before it fails.
-/
import Ipfrs.Knowledge.TieredTheorems

namespace Ipfrs.Knowledge

open Ipfrs.Core Ipfrs.Lib

/-- `GcReport`. -/
structure GcReport where
  kept : Nat
  deleted : List Cid
  deriving DecidableEq

/-- `map_err(KError::Core)` on an operation of the backend. -/
def coreM {C α : Type} (m : EStateM Error C α) : EStateM KError C α := fun c =>
  match m c with
  | .ok a c' => .ok a c'
  | .error e c' => .error (.core e) c'

section

variable {C : Type} [ColdStore C]

/-- The loop of `reachable`: the top of the frontier first. -/
structure MarkState (C : Type) where
  seen : List Cid := []
  frontier : List Cid
  cold : C

/-- One round of `reachable`. -/
def markBody [CidCrate] (keepHistory : Bool) (st : MarkState C) :
    MarkState C ⊕ EStateM.Result KError C (List Cid) :=
  match st.frontier with
  | [] => .inr (.ok st.seen st.cold)
  | cid :: frontier =>
    if cid ∈ st.seen then .inl { st with frontier }
    else
      match ColdStore.get cid st.cold with
      | .error e cold => .inr (.error (.core e) cold)
      | .ok none cold => .inl { seen := cid :: st.seen, frontier, cold }
      | .ok (some block) cold =>
        let links := blockLinks (collectLinksFiltered !keepHistory) block.data
        .inl { seen := cid :: st.seen, frontier := links.reverse ++ frontier, cold }

/-- `reachable`, with `rounds` rounds for the loop. -/
def reachable [CidCrate] (rounds : Nat) (pins : List Cid) (keepHistory : Bool) (cold : C) :
    Option (EStateM.Result KError C (List Cid)) :=
  Loop.run (markBody keepHistory) rounds { frontier := pins.reverse, cold }

/-- The loop of `collect` over the listed identifiers: deletes those that are not
live. -/
def sweep (live : List Cid) : List Cid → EStateM KError C (List Cid)
  | [] => pure []
  | cid :: rest =>
    if cid ∈ live then sweep live rest
    else do
      coreM (ColdStore.delete cid)
      let deleted ← sweep live rest
      pure (cid :: deleted)

/-- The part of `collect` after marking. -/
def sweepAll (live : List Cid) : EStateM KError C GcReport := do
  let all ← coreM ColdStore.listCids
  let deleted ← sweep live all
  pure { kept := live.length, deleted }

/-- `collect`. -/
def collect [CidCrate] (rounds : Nat) (pins : List Cid) (keepHistory : Bool) (cold : C) :
    Option (EStateM.Result KError C GcReport) :=
  match reachable rounds pins keepHistory cold with
  | none => none
  | some (.error e cold) => some (.error e cold)
  | some (.ok live cold) => some (sweepAll live cold)

end

/-! ## What `collect` keeps and what it deletes

Marking is exact for the links it follows (`reachable_ok`), and the sweep deletes
exactly the held blocks that are not marked (`sweep_ok`). The links it follows
without history are fewer than the module documents: `collect_links_filtered`
drops every `prev` field of every map of every block, the documentation only that
of a `KnowledgeRoot`. `collect_contract_iff` says when this makes no difference. -/

open Ipfrs.Core Ipfrs.Lib Ipfrs.Lib.Worklist
open ColdStore.Faithful (lookup support)

/-- The filter only takes links away. -/
theorem collectLinksFiltered_subset (v : Ipld) :
    ∀ c ∈ collectLinksFiltered true v, c ∈ collectLinksFiltered false v := by
  induction v using Ipld.induct with
  | list l ih =>
    intro c hc
    obtain ⟨v, hv, hc⟩ := mem_collectLinksList.mp hc
    exact mem_collectLinksList.mpr ⟨v, hv, ih v hv c hc⟩
  | map m ih =>
    intro c hc
    obtain ⟨e, he, _, hc⟩ := mem_collectLinksMap.mp hc
    exact mem_collectLinksMap.mpr ⟨e, he, by simp, ih e he c hc⟩
  | link c => exact fun _ hc => hc
  | null => exact fun _ hc => hc
  | bool b => exact fun _ hc => hc
  | integer i => exact fun _ hc => hc
  | float f => exact fun _ hc => hc
  | string s => exact fun _ hc => hc
  | bytes b => exact fun _ hc => hc

/-- A block whose `@type` is `KnowledgeRoot`. -/
def isKnowledgeRoot (m : List (String × Ipld)) : Bool :=
  match Ipld.field m "@type" with
  | some (.string ty) => ty == "KnowledgeRoot"
  | _ => false

/-- The links the module documents as live without history: all of a block but
those in the `prev` field of a `KnowledgeRoot`. -/
def documentedLinks : Ipld → List Cid
  | .map m =>
    if isKnowledgeRoot m then collectLinksMap false (m.filter (fun e => e.1 != "prev"))
    else collectLinksMap false m
  | v => collectLinksFiltered false v

theorem filtered_subset_documented (v : Ipld) :
    ∀ c ∈ collectLinksFiltered true v, c ∈ documentedLinks v := by
  intro c hc
  cases v with
  | map m =>
    obtain ⟨e, he, hprev, hc⟩ := mem_collectLinksMap.mp hc
    have hc' := collectLinksFiltered_subset e.2 c hc
    rw [documentedLinks]
    split
    · refine mem_collectLinksMap.mpr ⟨e, List.mem_filter.mpr ⟨he, ?_⟩, by simp, hc'⟩
      simpa using hprev
    · exact mem_collectLinksMap.mpr ⟨e, he, by simp, hc'⟩
  | list l => exact collectLinksFiltered_subset _ c hc
  | link _ => exact hc
  | null => exact hc
  | bool _ => exact hc
  | integer _ => exact hc
  | float _ => exact hc
  | string _ => exact hc
  | bytes _ => exact hc

theorem heldLinks_mono [CidCrate] {f g : Ipld → List Cid} (hfg : ∀ v, ∀ c ∈ f v, c ∈ g v)
    {held : Cid → Option (List UInt8)} {a b : Cid} (h : b ∈ heldLinks f held a) :
    b ∈ heldLinks g held a := by
  unfold heldLinks at h ⊢
  split at h
  · unfold blockLinks at h ⊢
    split at h
    · exact hfg _ b h
    · cases h
  · cases h

/-! ## Marking -/

section

variable {C : Type} [ColdStore C] [CidCrate]

/-- What a round of marking that goes on does. -/
theorem markBody_again {keepHistory : Bool} {st st' : MarkState C}
    (h : markBody keepHistory st = .inl st') :
    ∃ cid frontier, st.frontier = cid :: frontier ∧
      ((cid ∈ st.seen ∧ st' = { st with frontier }) ∨
        cid ∉ st.seen ∧ ∃ r cold, ColdStore.get cid st.cold = .ok r cold ∧
          ((r = none ∧ st' = { seen := cid :: st.seen, frontier, cold }) ∨
            ∃ block, r = some block ∧ st' =
              { seen := cid :: st.seen
                frontier := (blockLinks (collectLinksFiltered !keepHistory) block.data).reverse
                  ++ frontier
                cold })) := by
  unfold markBody at h
  split at h
  · cases h
  · next cid frontier hfrontier =>
    refine ⟨cid, frontier, hfrontier, ?_⟩
    split at h
    · next hseen =>
      cases h
      exact .inl ⟨hseen, rfl⟩
    · next hseen =>
      refine .inr ⟨hseen, ?_⟩
      split at h
      · cases h
      · next cold hget =>
        cases h
        exact ⟨none, cold, hget, .inl ⟨rfl, rfl⟩⟩
      · next block cold hget =>
        cases h
        exact ⟨some block, cold, hget, .inr ⟨block, rfl, rfl⟩⟩

theorem markBody_leave {keepHistory : Bool} {st : MarkState C}
    {r : EStateM.Result KError C (List Cid)} (h : markBody keepHistory st = .inr r) :
    (st.frontier = [] ∧ r = .ok st.seen st.cold) ∨
      ∃ cid e cold, ColdStore.get cid st.cold = .error e cold ∧ r = .error (.core e) cold := by
  unfold markBody at h
  split at h
  · next hfrontier =>
    cases h
    exact .inl ⟨hfrontier, rfl⟩
  · next cid frontier _ =>
    split at h
    · cases h
    · split at h
      · next e cold hget =>
        cases h
        exact .inr ⟨cid, e, cold, hget, rfl⟩
      · cases h
      · cases h

variable [ColdStore.Faithful C]

/-- The links marking follows. -/
abbrev markLinks (keepHistory : Bool) (held : Cid → Option (List UInt8)) : Cid → List Cid :=
  heldLinks (collectLinksFiltered !keepHistory) held

structure MarkInv (keepHistory : Bool) (c : C) (pins : List Cid) (st : MarkState C) : Prop where
  search : Inv (markLinks keepHistory (lookup c)) pins st.seen st.frontier
  cold : lookup st.cold = lookup c

theorem markInv_init (keepHistory : Bool) (c : C) (pins : List Cid) :
    MarkInv keepHistory c pins { frontier := pins.reverse, cold := c } where
  search := .init (fun _ => List.mem_reverse)
  cold := rfl

/-- Each round keeps the invariant and lowers the measure. -/
theorem MarkInv.step {keepHistory : Bool} {c : C} {pins : List Cid} {st st' : MarkState C}
    (h : MarkInv keepHistory c pins st) (hb : markBody keepHistory st = .inl st') :
    MarkInv keepHistory c pins st' ∧
      pending (markLinks keepHistory (lookup c)) (support c) st'.seen st'.frontier
        < pending (markLinks keepHistory (lookup c)) (support c) st.seen st.frontier := by
  obtain ⟨cid, rest, hfrontier, hcases⟩ := markBody_again hb
  have hsearch := h.search
  rw [hfrontier] at hsearch ⊢
  rcases hcases with ⟨hseen, rfl⟩ | ⟨hseen, r, cold, hget, hcases⟩
  · exact ⟨⟨hsearch.skip hseen, h.cold⟩, pending_skip _⟩
  · obtain ⟨hdata, hcold⟩ := ColdStore.Faithful.get_ok hget
    rw [h.cold] at hdata hcold
    rcases hcases with ⟨rfl, rfl⟩ | ⟨block, rfl, rfl⟩
    · have hnone : markLinks keepHistory (lookup c) cid = [] := by
        rw [markLinks, heldLinks, ← hdata]
        rfl
      exact ⟨⟨hsearch.visit (by simp [hnone]), hcold⟩,
        pending_visit hseen (fun _ => hnone) (by simp [hnone])⟩
    · have hlinks : markLinks keepHistory (lookup c) cid
          = blockLinks (collectLinksFiltered !keepHistory) block.data := by
        rw [markLinks, heldLinks, ← hdata]
        rfl
      refine ⟨⟨hsearch.visit ?_, hcold⟩, pending_visit hseen ?_ ?_⟩
      · intro y
        rw [hlinks, List.mem_append, List.mem_reverse]
      · intro hsupport
        have hheld : lookup c cid = some block.data := hdata.symm
        exact absurd (ColdStore.Faithful.mem_support hheld) hsupport
      · rw [hlinks]
        simp

theorem reachable_returns (keepHistory : Bool) (c : C) (pins : List Cid) :
    ∃ n, ∀ rounds ≥ n, ∃ r, reachable rounds pins keepHistory c = some r := by
  obtain ⟨r, hr⟩ := Loop.run_of_measure (MarkInv keepHistory c pins)
    (fun st => pending (markLinks keepHistory (lookup c)) (support c) st.seen st.frontier)
    (fun _ _ h hb => h.step hb) _ (markInv_init keepHistory c pins) (Nat.le_refl _)
  exact ⟨_, fun rounds hrounds => ⟨r, Loop.run_mono hr hrounds⟩⟩

/-- **Marking** is exact for the links it follows. -/
theorem reachable_ok {keepHistory : Bool} {rounds : Nat} {c c' : C} {pins live : List Cid}
    (h : reachable rounds pins keepHistory c = some (.ok live c')) : lookup c' = lookup c ∧
      ∀ cid, cid ∈ live ↔ Reach (markLinks keepHistory (lookup c)) pins cid := by
  obtain ⟨st, hinv, hleave⟩ := Loop.run_inv (fun _ _ hinv hb => (MarkInv.step hinv hb).1)
    (markInv_init keepHistory c pins) h
  rcases markBody_leave hleave with ⟨hfrontier, hr⟩ | ⟨cid, e, cold, _, hr⟩
  · cases hr
    have hsearch := hinv.search
    rw [hfrontier] at hsearch
    exact ⟨hinv.cold, fun cid => hsearch.done⟩
  · cases hr

theorem reachable_error {keepHistory : Bool} {rounds : Nat} {c c' : C} {pins : List Cid}
    {e : KError} (h : reachable rounds pins keepHistory c = some (.error e c')) :
    lookup c' = lookup c := by
  obtain ⟨st, hinv, hleave⟩ := Loop.run_inv (fun _ _ hinv hb => (MarkInv.step hinv hb).1)
    (markInv_init keepHistory c pins) h
  rcases markBody_leave hleave with ⟨_, hr⟩ | ⟨cid, err, cold, hget, hr⟩
  · cases hr
  · cases hr
    rw [ColdStore.Faithful.get_error hget, hinv.cold]

end

/-! ## Sweeping -/

section

variable {C : Type} [ColdStore C] [ColdStore.Faithful C]

/-- A deletion, failed or not, touches no other identifier. -/
theorem lookup_delete_of_ne {cid cid' : Cid} (h : cid' ≠ cid) (c : C) :
    lookup (finalState (coreM (ColdStore.delete cid) c)) cid' = lookup c cid' := by
  unfold coreM
  cases hdel : ColdStore.delete cid c with
  | ok u c' =>
    show lookup c' cid' = lookup c cid'
    rw [ColdStore.Faithful.delete_ok hdel, Function.update_of_ne h]
  | error e c' =>
    show lookup c' cid' = lookup c cid'
    rw [ColdStore.Faithful.delete_error hdel]

theorem delete_none {cid : Cid} {c c' : C} {u : Unit}
    (h : coreM (ColdStore.delete cid) c = .ok u c') : lookup c' cid = none := by
  unfold coreM at h
  split at h
  · next u' c'' hdel =>
    cases h
    rw [ColdStore.Faithful.delete_ok hdel, Function.update_self]
  · cases h

/-- The sweep touches no live block, whether it fails or not. -/
theorem sweep_keeps {live : List Cid} {cid : Cid} (hlive : cid ∈ live) (all : List Cid) :
    ∀ c : C, lookup (finalState (sweep live all c)) cid = lookup c cid := by
  induction all with
  | nil => exact fun c => rfl
  | cons x rest ih =>
    intro c
    rw [sweep]
    split
    · exact ih c
    · next hx =>
      have hne : cid ≠ x := by
        rintro rfl
        exact hx hlive
      have hdel := lookup_delete_of_ne hne c
      cases hrun : coreM (ColdStore.delete x) c with
      | ok u c' =>
        rw [hrun, finalState_ok] at hdel
        rw [run_bind_ok hrun, ← hdel, ← ih c', finalState_bind_pure]
      | error e c' =>
        rw [hrun, finalState_error] at hdel
        rw [run_bind_error hrun, finalState_error, hdel]

/-- What is gone stays gone. -/
theorem sweep_none {live : List Cid} {cid : Cid} (all : List Cid) :
    ∀ {c c' : C} {deleted : List Cid}, lookup c cid = none →
      sweep live all c = .ok deleted c' → lookup c' cid = none := by
  induction all with
  | nil =>
    intro c c' deleted hnone h
    cases h
    exact hnone
  | cons x rest ih =>
    intro c c' deleted hnone h
    rw [sweep] at h
    split at h
    · exact ih hnone h
    · obtain ⟨_, c₁, hrun, h⟩ := run_bind_eq_ok h
      obtain ⟨_, c₂, hrest, h⟩ := run_bind_eq_ok h
      cases h
      refine ih ?_ hrest
      by_cases hx : cid = x
      · subst hx
        exact delete_none hrun
      · have hdel := lookup_delete_of_ne hx c
        rw [hrun, finalState_ok, hnone] at hdel
        exact hdel

/-- **A finished sweep** has deleted every listed block that is not live. -/
theorem sweep_ok {live : List Cid} {cid : Cid} (hdead : cid ∉ live) (all : List Cid) :
    ∀ {c c' : C} {deleted : List Cid}, cid ∈ all → sweep live all c = .ok deleted c' →
      lookup c' cid = none := by
  induction all with
  | nil =>
    intro c c' deleted hmem
    cases hmem
  | cons x rest ih =>
    intro c c' deleted hmem h
    rw [sweep] at h
    split at h
    · next hx =>
      refine ih ((List.mem_cons.mp hmem).resolve_left ?_) h
      rintro rfl
      exact hdead hx
    · obtain ⟨_, c₁, hrun, h⟩ := run_bind_eq_ok h
      obtain ⟨_, c₂, hrest, h⟩ := run_bind_eq_ok h
      cases h
      rcases List.mem_cons.mp hmem with rfl | hmem
      · exact sweep_none rest (delete_none hrun) hrest
      · exact ih hmem hrest

/-- The backend after a sweep: live blocks are as they were, and if the sweep
finished, no other block is held. -/
theorem sweepAll_spec (live : List Cid) (c : C) :
    (∀ cid ∈ live, lookup (finalState (sweepAll live c)) cid = lookup c cid) ∧
      ∀ report c', sweepAll live c = .ok report c' → ∀ cid, cid ∉ live → lookup c' cid = none := by
  cases hlist : ColdStore.listCids c with
  | error e c₁ =>
    have hrun : coreM ColdStore.listCids c = .error (.core e) c₁ := by
      unfold coreM
      rw [hlist]
    rw [sweepAll, run_bind_error hrun]
    refine ⟨fun cid _ => congrFun (ColdStore.Faithful.listCids_error hlist) cid, ?_⟩
    intro report c' h
    cases h
  | ok all c₁ =>
    obtain ⟨hall, hsame⟩ := ColdStore.Faithful.listCids_ok hlist
    have hrun : coreM ColdStore.listCids c = .ok all c₁ := by
      unfold coreM
      rw [hlist]
    rw [sweepAll, run_bind_ok hrun]
    refine ⟨?_, ?_⟩
    · intro cid hlive
      rw [← hsame, ← sweep_keeps hlive all c₁, finalState_bind_pure]
    · intro report c' h cid hdead
      obtain ⟨deleted, c₂, hsweep, h⟩ := run_bind_eq_ok h
      cases h
      by_cases hmem : cid ∈ all
      · exact sweep_ok hdead all hmem hsweep
      · refine sweep_none all ?_ hsweep
        rw [hall cid, Bool.not_eq_true, Option.isSome_eq_false_iff,
          Option.isNone_iff_eq_none] at hmem
        rw [hsame, hmem]

end

/-! ## The contract -/

section

variable [CidCrate]

/-- What is documented of `collect` without history: a held block that is reachable
from the pins through documented links stays, any other is deleted. -/
structure GcContract (held held' : Cid → Option (List UInt8)) (pins : List Cid) : Prop where
  keeps : ∀ cid, (held cid).isSome → Reach (heldLinks documentedLinks held) pins cid →
    held' cid = held cid
  deletes : ∀ cid, (held cid).isSome → ¬ Reach (heldLinks documentedLinks held) pins cid →
    held' cid = none

/-- A held block linked from a marked one only in a `prev` field that is not a
`KnowledgeRoot`'s is also reached by the links that are followed. -/
def NoLiveLinkDropped (held : Cid → Option (List UInt8)) (pins : List Cid) : Prop :=
  ∀ a b, Reach (markLinks false held) pins a → b ∈ heldLinks documentedLinks held a →
    b ∉ markLinks false held a → (held b).isSome → Reach (markLinks false held) pins b

theorem documented_of_marked {held : Cid → Option (List UInt8)} {pins : List Cid} {cid : Cid}
    (h : Reach (markLinks false held) pins cid) : Reach (heldLinks documentedLinks held) pins cid :=
  h.mono (fun _ _ hb => heldLinks_mono filtered_subset_documented hb)

theorem NoLiveLinkDropped.marked {held : Cid → Option (List UInt8)} {pins : List Cid}
    (hd : NoLiveLinkDropped held pins) {cid : Cid}
    (hreach : Reach (heldLinks documentedLinks held) pins cid) :
    (held cid).isSome → Reach (markLinks false held) pins cid := by
  refine Reach.rule (P := fun cid => (held cid).isSome → Reach (markLinks false held) pins cid)
    ?_ ?_ hreach
  · intro r hr _
    exact .root hr
  · intro a b _ ih hb hheld
    have ha := ih (held_of_mem_heldLinks hb)
    by_cases hmark : b ∈ markLinks false held a
    · exact ha.step hmark
    · exact hd a b ha hb hmark hheld

variable {C : Type} [ColdStore C] [ColdStore.Faithful C]

/-- **Garbage collection without history.** `collect` returns. When it finishes, it
meets the documented contract exactly if no live link was dropped; and in that case
no reachable block is lost even when it fails half-way. -/
theorem collect_contract_iff (c : C) (pins : List Cid) :
    ∃ n, ∀ rounds ≥ n, ∃ r, collect rounds pins false c = some r ∧
      (NoLiveLinkDropped (lookup c) pins → ∀ cid, (lookup c cid).isSome →
        Reach (heldLinks documentedLinks (lookup c)) pins cid →
        lookup (finalState r) cid = lookup c cid) ∧ ∀ report c', r = .ok report c' →
        (GcContract (lookup c) (lookup c') pins ↔ NoLiveLinkDropped (lookup c) pins) := by
  obtain ⟨n, hn⟩ := reachable_returns false c pins
  refine ⟨n, ?_⟩
  intro rounds hrounds
  obtain ⟨mark, hmark⟩ := hn rounds hrounds
  rw [collect, hmark]
  cases mark with
  | error e c₁ =>
    refine ⟨_, rfl, ?_, ?_⟩
    · intro _ cid _ _
      exact congrFun (reachable_error hmark) cid
    · intro report c' h
      cases h
  | ok live c₁ =>
    obtain ⟨hsame, hlive⟩ := reachable_ok hmark
    obtain ⟨hkeeps, hdeletes⟩ := sweepAll_spec live c₁
    rw [hsame] at hkeeps
    refine ⟨_, rfl, ?_, ?_⟩
    · intro hd cid hheld hreach
      exact hkeeps cid ((hlive cid).mpr (hd.marked hreach hheld))
    · intro report c' h
      have hgone := hdeletes report c' h
      have hkept : ∀ cid ∈ live, lookup c' cid = lookup c cid := by
        intro cid hcid
        have hk := hkeeps cid hcid
        rwa [h] at hk
      constructor
      · intro hcontract a b ha hb _ hheld
        have hstays := hcontract.keeps b hheld ((documented_of_marked ha).step hb)
        by_contra hnot
        have hnone := hgone b (fun hb' => hnot ((hlive b).mp hb'))
        rw [← hstays, hnone] at hheld
        cases hheld
      · intro hd
        refine ⟨?_, ?_⟩
        · intro cid hheld hreach
          exact hkept cid ((hlive cid).mpr (hd.marked hreach hheld))
        · intro cid _ hunreach
          refine hgone cid ?_
          intro hcid
          exact hunreach (documented_of_marked ((hlive cid).mp hcid))

end

open scoped CidFormat

/-- A block that is no `KnowledgeRoot` and links to another in a field `prev`. -/
def samplePrevBlock : Block :=
  let data := cborBytes (.map [("prev", .link sampleChild.cid)])
  { cid := cidOf codecDagCbor data, data }

def sampleCold : MemoryBlockStore := { blocks := [samplePrevBlock, sampleChild] }

theorem sampleChild_documented :
    Reach (heldLinks documentedLinks (lookup sampleCold)) [samplePrevBlock.cid]
      sampleChild.cid := by
  have hlink : sampleChild.cid
      ∈ heldLinks documentedLinks (lookup sampleCold) samplePrevBlock.cid := by
    decide +kernel
  exact (Reach.root (List.mem_singleton_self _)).step hlink

/-- The linked block is deleted though its parent is pinned. -/
theorem collect_drops_prev_child :
    ∃ report c', collect 3 [samplePrevBlock.cid] false sampleCold = some (.ok report c') ∧
      ¬ GcContract (lookup sampleCold) (lookup c') [samplePrevBlock.cid] := by
  have hrun : (match collect 3 [samplePrevBlock.cid] false sampleCold with
      | some (.ok _ c') => (lookup sampleCold sampleChild.cid).isSome
          && (lookup c' sampleChild.cid).isNone
      | some (.error _ _) => false
      | none => false) = true := by decide +kernel
  split at hrun
  · next report c' hc' =>
    refine ⟨report, c', hc', ?_⟩
    intro hcontract
    obtain ⟨hheld, hnone⟩ := Bool.and_eq_true_iff.mp hrun
    rw [hcontract.keeps _ hheld sampleChild_documented, Option.isNone_iff_eq_none] at hnone
    rw [hnone] at hheld
    cases hheld
  · cases hrun
  · cases hrun

end Ipfrs.Knowledge
