/-
Ipfrs.Node.GcTheorems — what `collect` keeps, deletes and reports.

A block is protected when it is pinned, or reached through links from a recursive pin.
Marking follows the links of direct pins too, so a run without a limit deletes exactly
the unprotected blocks when nothing unprotected is linked, directly or not, from a
direct pin (`collect_deletes_others_iff`). No run deletes a protected block, and a dry run
reports what a real one would.
-/
import Ipfrs.Node.Gc
import Ipfrs.Knowledge.TieredTheorems

namespace Ipfrs.Node

open Ipfrs.Core Ipfrs.Lib Ipfrs.Lib.Worklist
open Ipfrs.Knowledge (ColdStore MemoryBlockStore blockLinks heldLinks heldLinks_of_held
  held_of_mem_heldLinks)
open Ipfrs.Knowledge.ColdStore.Faithful (lookup support)

/-- A store that lists each identifier once. -/
class ListsOnce (C : Type) [ColdStore C] : Prop where
  listCids_nodup : ∀ {c c' : C} {l : List Cid}, ColdStore.listCids c = .ok l c' → l.Nodup

instance : ListsOnce MemoryBlockStore where
  listCids_nodup := by
    intro c c' l h
    cases h
    exact List.nodup_dedup _

/-! ## Marking -/

section

variable {C : Type} [ColdStore C] [CidCrate]

/-- The links of the block held under an identifier. -/
abbrev nodeLinks (held : Cid → Option (List UInt8)) : Cid → List Cid :=
  heldLinks Ipld.links held

theorem markBody_again {st st' : MarkState C} (h : markBody st = .inl st') :
    ∃ cid toVisit, st.toVisit = cid :: toVisit ∧ ∃ r store,
      ColdStore.get cid st.store = .ok r store ∧ ((r = none ∧ st' = { st with toVisit, store }) ∨
          ∃ block, r = some block ∧
            st' = { reachable :=
                      (markNew (blockLinks Ipld.links block.data) (st.reachable, toVisit)).1
                    toVisit :=
                      (markNew (blockLinks Ipld.links block.data) (st.reachable, toVisit)).2
                    store }) := by
  unfold markBody at h
  split at h
  · cases h
  · next cid toVisit hvisit =>
    refine ⟨cid, toVisit, hvisit, ?_⟩
    split at h
    · cases h
    · next store hget =>
      cases h
      exact ⟨none, store, hget, .inl ⟨rfl, rfl⟩⟩
    · next block store hget =>
      cases h
      exact ⟨some block, store, hget, .inr ⟨block, rfl, rfl⟩⟩

theorem markBody_leave {st : MarkState C} {r : EStateM.Result Error C (List Cid)}
    (h : markBody st = .inr r) : (st.toVisit = [] ∧ r = .ok st.reachable st.store) ∨
      ∃ cid e store, ColdStore.get cid st.store = .error e store ∧ r = .error e store := by
  unfold markBody at h
  split at h
  · next hvisit =>
    cases h
    exact .inl ⟨hvisit, rfl⟩
  · next cid toVisit _ =>
    split at h
    · next e store hget =>
      cases h
      exact .inr ⟨cid, e, store, hget, rfl⟩
    · cases h
    · cases h

variable [ColdStore.Faithful C]

structure MarkInv (c : C) (roots : List Cid) (st : MarkState C) : Prop where
  marks : Marks (nodeLinks (lookup c)) roots st.reachable st.toVisit
  store : lookup st.store = lookup c

/-- Everything a held block links to. -/
def linked (c : C) : List Cid := (support c).flatMap (nodeLinks (lookup c))

theorem mem_linked {c : C} {a b : Cid} (h : b ∈ nodeLinks (lookup c) a) : b ∈ linked c := by
  obtain ⟨data, hdata⟩ := Option.isSome_iff_exists.mp (held_of_mem_heldLinks h)
  exact List.mem_flatMap.mpr ⟨a, ColdStore.Faithful.mem_support hdata, h⟩

/-- Each round keeps the invariant and lowers the measure: what is on the stack, and
what can still come to it. -/
theorem MarkInv.step {c : C} {roots : List Cid} {st st' : MarkState C}
    (h : MarkInv c roots st) (hb : markBody st = .inl st') : MarkInv c roots st' ∧
      st'.toVisit.length + unmarked (linked c) st'.reachable
        < st.toVisit.length + unmarked (linked c) st.reachable := by
  obtain ⟨cid, toVisit, hvisit, r, store, hget, hcases⟩ := markBody_again hb
  obtain ⟨hdata, hstore⟩ := ColdStore.Faithful.get_ok hget
  rw [h.store] at hdata hstore
  have hmarks := h.marks
  rw [hvisit] at hmarks ⊢
  have hvisited := hmarks.visit
  rcases hcases with ⟨rfl, rfl⟩ | ⟨block, rfl, rfl⟩
  · have hnone : nodeLinks (lookup c) cid = [] := by
      rw [nodeLinks, heldLinks, ← hdata]
      rfl
    rw [hnone] at hvisited
    exact ⟨⟨hvisited, hstore⟩, by simp⟩
  · have hlinks : nodeLinks (lookup c) cid = blockLinks Ipld.links block.data :=
      heldLinks_of_held hdata.symm
    have hsub : ∀ y ∈ blockLinks Ipld.links block.data, y ∈ linked c :=
      fun y hy => mem_linked (hlinks ▸ hy)
    have hle := markNew_length_le hsub (st.reachable, toVisit)
    rw [hlinks] at hvisited
    exact ⟨⟨hvisited, hstore⟩, by simpa [Nat.succ_add] using Nat.lt_succ_of_le hle⟩

theorem markInv_init (c : C) (cids : List Cid) :
    MarkInv c cids { reachable := cids.reverse, toVisit := cids.reverse, store := c } where
  marks := .init (fun _ => List.mem_reverse) (fun _ => List.mem_reverse)
  store := rfl

theorem markReachable_returns (pins : PinManager) (c : C) :
    ∃ n, ∀ rounds ≥ n, ∃ r, markReachable rounds pins c = some r := by
  obtain ⟨r, hr⟩ := Loop.run_of_measure (MarkInv c (pins.list.map PinInfo.cid))
    (fun st => st.toVisit.length + unmarked (linked c) st.reachable)
    (fun _ _ h hb => h.step hb) _ (markInv_init c _) (Nat.le_refl _)
  exact ⟨_, fun rounds hrounds => ⟨r, Loop.run_mono hr hrounds⟩⟩

/-- **Marking** finds what the pins reach, whatever their type. -/
theorem markReachable_ok {rounds : Nat} {pins : PinManager} {c c' : C} {live : List Cid}
    (h : markReachable rounds pins c = some (.ok live c')) : lookup c' = lookup c ∧
      ∀ cid, cid ∈ live ↔ Reach (nodeLinks (lookup c)) (pins.list.map PinInfo.cid) cid := by
  obtain ⟨st, hinv, hleave⟩ := Loop.run_inv (fun _ _ hinv hb => (MarkInv.step hinv hb).1)
    (markInv_init c _) h
  rcases markBody_leave hleave with ⟨hvisit, hr⟩ | ⟨cid, e, store, _, hr⟩
  · cases hr
    have hmarks := hinv.marks
    rw [hvisit] at hmarks
    exact ⟨hinv.store, fun cid => hmarks.done⟩
  · cases hr

theorem markReachable_error {rounds : Nat} {pins : PinManager} {c c' : C} {e : Error}
    (h : markReachable rounds pins c = some (.error e c')) : lookup c' = lookup c := by
  obtain ⟨st, hinv, hleave⟩ := Loop.run_inv (fun _ _ hinv hb => (MarkInv.step hinv hb).1)
    (markInv_init c _) h
  rcases markBody_leave hleave with ⟨_, hr⟩ | ⟨cid, err, store, hget, hr⟩
  · cases hr
  · cases hr
    rw [ColdStore.Faithful.get_error hget, hinv.store]

end

/-! ## Sweeping -/

section

variable {C : Type} [ColdStore C] [ColdStore.Faithful C] {config : GcConfig} {live : List Cid}

variable {cid x : Cid} {c c' : C} {collected freed : Nat}

theorem dropBlock_ok {u : Unit} (h : dropBlock config cid c = .ok u c') :
    lookup c' = if config.dryRun then lookup c else Function.update (lookup c) cid none := by
  unfold dropBlock at h
  cases hdry : config.dryRun with
  | true =>
    rw [hdry] at h
    cases h
    rfl
  | false =>
    rw [hdry] at h
    exact ColdStore.Faithful.delete_ok h

theorem dropBlock_error {e : Error} (h : dropBlock config cid c = .error e c') :
    lookup c' = lookup c := by
  unfold dropBlock at h
  split at h
  · cases h
  · exact ColdStore.Faithful.delete_error h

/-- What one round of the sweep can do, by what the store holds. -/
inductive SweepRound (config : GcConfig) (live : List Cid) (cid : Cid) (rest : List Cid)
    (collected freed : Nat) (c : C) : EStateM.Result Error C (Nat × Nat) → Prop where
  | stop (hmax : config.maxBlocksPerRun > 0 ∧ collected ≥ config.maxBlocksPerRun) :
      SweepRound config live cid rest collected freed c (.ok (collected, freed) c)
  | keep (hmax : ¬ (config.maxBlocksPerRun > 0 ∧ collected ≥ config.maxBlocksPerRun))
      (hlive : cid ∈ live) : SweepRound config live cid rest collected freed c
        (sweep config live rest collected freed c)
  | fail (e : Error) (c' : C) (hsame : lookup c' = lookup c) :
      SweepRound config live cid rest collected freed c (.error e c')
  | absent (hmax : ¬ (config.maxBlocksPerRun > 0 ∧ collected ≥ config.maxBlocksPerRun))
      (hdead : cid ∉ live) (hnone : lookup c cid = none) (c' : C)
      (hsame : lookup c' = lookup c) : SweepRound config live cid rest collected freed c
        (sweep config live rest collected freed c')
  | drop (hmax : ¬ (config.maxBlocksPerRun > 0 ∧ collected ≥ config.maxBlocksPerRun))
      (hdead : cid ∉ live) {data : List UInt8} (hheld : lookup c cid = some data) (c' : C)
      (hafter : lookup c'
        = if config.dryRun then lookup c else Function.update (lookup c) cid none) :
      SweepRound config live cid rest collected freed c
        (sweep config live rest (collected + 1) (freed + data.length) c')

theorem sweep_round (config : GcConfig) (live : List Cid) (cid : Cid) (rest : List Cid)
    (collected freed : Nat) (c : C) : SweepRound config live cid rest collected freed c
      (sweep config live (cid :: rest) collected freed c) := by
  rw [sweep]
  by_cases hmax : config.maxBlocksPerRun > 0 ∧ collected ≥ config.maxBlocksPerRun
  · rw [if_pos hmax]
    exact .stop hmax
  rw [if_neg hmax]
  by_cases hlive : cid ∈ live
  · rw [if_pos hlive]
    exact .keep hmax hlive
  rw [if_neg hlive]
  cases hget : ColdStore.get cid c with
  | error e c' =>
    rw [run_bind_error hget]
    exact .fail e c' (ColdStore.Faithful.get_error hget)
  | ok r c' =>
    obtain ⟨hdata, hsame⟩ := ColdStore.Faithful.get_ok hget
    rw [run_bind_ok hget]
    cases r with
    | none => exact .absent hmax hlive hdata.symm c' hsame
    | some block =>
      cases hdrop : dropBlock config cid c' with
      | error e c'' =>
        have hfail : lookup c'' = lookup c := (dropBlock_error hdrop).trans hsame
        simp only [run_bind_error hdrop]
        exact .fail e c'' hfail
      | ok u c'' =>
        have hafter := dropBlock_ok hdrop
        rw [hsame] at hafter
        simp only [run_bind_ok hdrop]
        exact .drop hmax hlive hdata.symm c'' hafter

/-- What dropping one block leaves of the others. -/
theorem lookup_drop_of_ne {held : Cid → Option (List UInt8)} (h : x ≠ cid) :
    (if config.dryRun then held else Function.update held cid none) x = held x := by
  split
  · rfl
  · exact Function.update_of_ne h _ _

/-- What holds of the blocks and goes on holding when an unmarked one is dropped holds after the
sweep, whether it fails or not. -/
theorem sweep_invariant {P : (Cid → Option (List UInt8)) → Prop}
    (hdrop : ∀ held cid, cid ∉ live → P held →
      P (if config.dryRun then held else Function.update held cid none)) (all : List Cid)
    (hc : P (lookup c)) : P (lookup (finalState (sweep config live all collected freed c))) := by
  induction all generalizing collected freed c with
  | nil => exact hc
  | cons cid rest ih =>
    have hround := sweep_round config live cid rest collected freed c
    generalize sweep config live (cid :: rest) collected freed c = r at hround ⊢
    cases hround with
    | stop _ => exact hc
    | keep _ _ => exact ih hc
    | fail e c' hsame => exact hsame.symm ▸ hc
    | absent _ _ _ c' hsame => exact ih (hsame.symm ▸ hc)
    | drop _ hdead _ c' hafter => exact ih (hafter.symm ▸ hdrop _ cid hdead hc)

/-- The sweep touches no marked block. -/
theorem sweep_keeps (hx : x ∈ live) (all : List Cid) (collected freed : Nat) (c : C) :
    lookup (finalState (sweep config live all collected freed c)) x = lookup c x :=
  sweep_invariant (P := fun held => held x = lookup c x)
    (fun _ _ hdead h => (lookup_drop_of_ne (fun hxc => hdead (hxc ▸ hx))).trans h) all rfl

/-- A dry sweep touches nothing. -/
theorem sweep_dry (hdry : config.dryRun = true) (all : List Cid) (collected freed : Nat) (c : C) :
    lookup (finalState (sweep config live all collected freed c)) = lookup c :=
  sweep_invariant (P := fun held => held = lookup c) (fun _ _ _ h => (if_pos hdry).trans h) all rfl

/-- What is not held stays so. -/
theorem sweep_none (all : List Cid) (hx : lookup c x = none) :
    lookup (finalState (sweep config live all collected freed c)) x = none := by
  refine sweep_invariant (P := fun held => held x = none) (fun held cid _ h => ?_) all hx
  by_cases hxc : x = cid
  · subst hxc
    split
    · exact h
    · exact Function.update_self ..
  · rw [lookup_drop_of_ne hxc, h]

/-- **A finished sweep without a limit** has deleted every listed block that is not
marked. -/
theorem sweep_deletes (hmax : config.maxBlocksPerRun = 0) (hdry : config.dryRun = false)
    (hx : x ∉ live) {all : List Cid} (hmem : x ∈ all) {p : Nat × Nat}
    (h : sweep config live all collected freed c = .ok p c') : lookup c' x = none := by
  have hfinal : lookup (finalState (sweep config live all collected freed c)) x = none := by
    induction all generalizing collected freed c with
    | nil => cases hmem
    | cons cid rest ih =>
      have hround := sweep_round config live cid rest collected freed c
      generalize hr : sweep config live (cid :: rest) collected freed c = r at hround h ⊢
      have hlater : x ≠ cid → x ∈ rest := (List.mem_cons.mp hmem).resolve_left
      cases hround with
      | stop hstop => omega
      | keep _ hlive => exact ih (hlater (fun heq => hx (heq ▸ hlive))) h
      | fail e c₁ _ => cases h
      | absent _ _ hnone c₁ hsame =>
        by_cases hxc : x = cid
        · exact sweep_none rest (by rw [hsame, hxc, hnone])
        · exact ih (hlater hxc) h
      | drop _ _ _ c₁ hafter =>
        by_cases hxc : x = cid
        · exact sweep_none rest (by simp [hafter, hdry, hxc])
        · exact ih (hlater hxc) h
  rwa [h] at hfinal

/-- What a sweep counts, from what is held at its start. -/
def swept (max : Nat) (live : List Cid) (held : Cid → Option (List UInt8)) :
    List Cid → Nat → Nat → Nat × Nat
  | [], collected, freed => (collected, freed)
  | cid :: rest, collected, freed =>
    if max > 0 ∧ collected ≥ max then (collected, freed)
    else if cid ∈ live then swept max live held rest collected freed
    else
      match held cid with
      | none => swept max live held rest collected freed
      | some data => swept max live held rest (collected + 1) (freed + data.length)

theorem swept_congr {max : Nat} {held held' : Cid → Option (List UInt8)} (all : List Cid)
    (collected freed : Nat) (h : ∀ x ∈ all, held x = held' x) :
    swept max live held all collected freed = swept max live held' all collected freed := by
  induction all generalizing collected freed with
  | nil => rfl
  | cons cid rest ih =>
    have hrest : ∀ x ∈ rest, held x = held' x := fun x hx => h x (List.mem_cons_of_mem _ hx)
    rw [swept, swept, h cid List.mem_cons_self, ih _ _ hrest]
    cases held' cid with
    | none => rfl
    | some data => simp only [ih _ _ hrest]

/-- **What a sweep reports** does not depend on whether it is dry. -/
theorem sweep_counts {all : List Cid} (hall : all.Nodup) {p : Nat × Nat}
    (h : sweep config live all collected freed c = .ok p c') :
    p = swept config.maxBlocksPerRun live (lookup c) all collected freed := by
  induction all generalizing collected freed c with
  | nil =>
    cases h
    rfl
  | cons cid rest ih =>
    obtain ⟨hfresh, hrest⟩ := List.nodup_cons.mp hall
    have hround := sweep_round config live cid rest collected freed c
    generalize sweep config live (cid :: rest) collected freed c = r at hround h
    rw [swept]
    cases hround with
    | stop hstop =>
      cases h
      rw [if_pos hstop]
    | keep hmax hlive => rw [if_neg hmax, if_pos hlive, ih hrest h]
    | fail e c₁ _ => cases h
    | absent hmax hdead hnone c₁ hsame =>
      rw [if_neg hmax, if_neg hdead, hnone, ih hrest h, hsame]
    | drop hmax hdead hheld c₁ hafter =>
      have hsame : ∀ x ∈ rest, lookup c₁ x = lookup c x := by
        intro x hx
        have hne : x ≠ cid := fun heq => hfresh (heq ▸ hx)
        rw [hafter, lookup_drop_of_ne hne]
      rw [if_neg hmax, if_neg hdead, hheld, ih hrest h, swept_congr rest _ _ hsame]

/-- The part of `collect` after marking. -/
theorem sweepAll_spec (config : GcConfig) (live : List Cid) (c : C) :
    (∀ x ∈ live, lookup (finalState (sweepAll config live c)) x = lookup c x) ∧
      (config.dryRun = true → lookup (finalState (sweepAll config live c)) = lookup c) ∧
      ∀ stats c', sweepAll config live c = .ok stats c' → config.maxBlocksPerRun = 0 →
        config.dryRun = false → ∀ x, x ∉ live → lookup c' x = none := by
  cases hlist : ColdStore.listCids c with
  | error e c₁ =>
    have hsame := ColdStore.Faithful.listCids_error hlist
    rw [sweepAll, run_bind_error hlist]
    refine ⟨fun x _ => congrFun hsame x, fun _ => hsame, ?_⟩
    intro stats c' h
    cases h
  | ok all c₁ =>
    obtain ⟨hall, hsame⟩ := ColdStore.Faithful.listCids_ok hlist
    rw [sweepAll, run_bind_ok hlist]
    refine ⟨?_, ?_, ?_⟩
    · intro x hx
      rw [finalState_bind_pure, sweep_keeps hx, hsame]
    · intro hdry
      rw [finalState_bind_pure, sweep_dry hdry, hsame]
    · intro stats c' h hmax hdry x hx
      obtain ⟨p, c₂, hsweep, h⟩ := run_bind_eq_ok h
      cases h
      by_cases hmem : x ∈ all
      · exact sweep_deletes hmax hdry hx hmem hsweep
      · rw [hall x, Bool.not_eq_true, Option.isSome_eq_false_iff,
          Option.isNone_iff_eq_none] at hmem
        have hnone : lookup (finalState (sweep config live all 0 0 c₁)) x = none :=
          sweep_none all (hsame ▸ hmem)
        rwa [hsweep] at hnone

/-- What `collect` reports after marking, from what is held. -/
theorem sweepAll_ok [ListsOnce C] {stats : GcStats} (h : sweepAll config live c = .ok stats c') :
    ∃ all c₁, ColdStore.listCids c = .ok all c₁ ∧
      let counts := swept config.maxBlocksPerRun live (lookup c₁) all 0 0
      stats = { blocksCollected := counts.1, bytesFreed := counts.2, blocksMarked := live.length,
                blocksScanned := all.length, cancelled := false } := by
  obtain ⟨all, c₁, hlist, h⟩ := run_bind_eq_ok h
  obtain ⟨p, c₂, hsweep, h⟩ := run_bind_eq_ok h
  have hcounts := sweep_counts (ListsOnce.listCids_nodup hlist) hsweep
  cases h
  exact ⟨all, c₁, hlist, by rw [← hcounts]⟩

end

/-! ## The contract -/

section

variable [CidCrate]

/-- Pinned, or reached through links from a recursive pin. -/
def Protected (pins : PinManager) (held : Cid → Option (List UInt8)) (cid : Cid) : Prop :=
  cid ∈ pins.list.map PinInfo.cid ∨ Reach (nodeLinks held) (pins.cidsOf .recursive) cid

/-- Whatever is held and reached through links from a direct pin is protected anyhow. -/
def DirectPinsReachNoOther (pins : PinManager) (held : Cid → Option (List UInt8)) : Prop :=
  ∀ cid, (held cid).isSome → Reach (nodeLinks held) (pins.cidsOf .direct) cid →
    Protected pins held cid

theorem reach_pins_iff {pins : PinManager} {held : Cid → Option (List UInt8)} {cid : Cid} :
    Reach (nodeLinks held) (pins.list.map PinInfo.cid) cid
      ↔ Reach (nodeLinks held) (pins.cidsOf .direct) cid
        ∨ Reach (nodeLinks held) (pins.cidsOf .recursive) cid := by
  constructor
  · rintro ⟨r, hr, hpath⟩
    rcases (pins.mem_cids r).mp hr with hdirect | hrecursive
    · exact .inl ⟨r, hdirect, hpath⟩
    · exact .inr ⟨r, hrecursive, hpath⟩
  · rintro (⟨r, hr, hpath⟩ | ⟨r, hr, hpath⟩)
    · exact ⟨r, (pins.mem_cids r).mpr (.inl hr), hpath⟩
    · exact ⟨r, (pins.mem_cids r).mpr (.inr hr), hpath⟩

/-- A protected block is marked. -/
theorem Protected.reach {pins : PinManager} {held : Cid → Option (List UInt8)} {cid : Cid}
    (h : Protected pins held cid) : Reach (nodeLinks held) (pins.list.map PinInfo.cid) cid := by
  rcases h with hpin | hreach
  · exact .root hpin
  · exact reach_pins_iff.mpr (.inr hreach)

variable {C : Type} [ColdStore C] [ColdStore.Faithful C] [ListsOnce C]

/-- **Garbage collection.** `collect` returns. It keeps every protected block, even when
it fails half-way; a dry run leaves the store as it is; dry or not, it reports the same.
A finished run that is not dry and has no limit deletes every other block exactly if
direct pins reach no block that is not protected. -/
theorem collect_deletes_others_iff (pins : PinManager) (store : C) :
    ∃ n, ∀ rounds ≥ n, ∀ config : GcConfig, ∃ r, collect rounds pins config store = some r ∧
      (∀ cid, Protected pins (lookup store) cid →
        lookup (finalState r) cid = lookup store cid) ∧
      (config.dryRun = true → lookup (finalState r) = lookup store) ∧
      (∀ stats c' stats' c'', r = .ok stats c' →
        collect rounds pins { config with dryRun := !config.dryRun } store
            = some (.ok stats' c'') →
        stats' = stats) ∧
      ∀ stats c', r = .ok stats c' → config.maxBlocksPerRun = 0 → config.dryRun = false →
        ((∀ cid, ¬ Protected pins (lookup store) cid → lookup c' cid = none)
          ↔ DirectPinsReachNoOther pins (lookup store)) := by
  obtain ⟨n, hn⟩ := markReachable_returns pins store
  refine ⟨n, fun rounds hrounds config => ?_⟩
  obtain ⟨mark, hmark⟩ := hn rounds hrounds
  simp only [collect, hmark]
  cases mark with
  | error e c₁ =>
    have hsame := markReachable_error hmark
    refine ⟨_, rfl, fun cid _ => congrFun hsame cid, fun _ => hsame, ?_, ?_⟩
    · intro stats c' stats' c'' h
      cases h
    · intro stats c' h
      cases h
  | ok live c₁ =>
    obtain ⟨hsame, hlive⟩ := markReachable_ok hmark
    obtain ⟨hkeeps, hdry, hdeletes⟩ := sweepAll_spec config live c₁
    rw [hsame] at hkeeps hdry
    refine ⟨_, rfl, ?_, hdry, ?_, ?_⟩
    · intro cid hcid
      exact hkeeps cid ((hlive cid).mpr hcid.reach)
    · intro stats c' stats' c'' h h'
      obtain ⟨all, c₂, hlist, hstats⟩ := sweepAll_ok h
      obtain ⟨all', c₂', hlist', hstats'⟩ := sweepAll_ok (Option.some.inj h')
      rw [hlist] at hlist'
      cases hlist'
      rw [hstats, hstats']
    · intro stats c' h hmax hreal
      have hgone := hdeletes stats c' h hmax hreal
      rw [h] at hkeeps
      constructor
      · intro hexact cid hheld hdirect
        by_contra hother
        have hmarked := (hlive cid).mpr (reach_pins_iff.mpr (.inl hdirect))
        have hnone := hexact cid hother
        have hkept : lookup c' cid = lookup store cid := hkeeps cid hmarked
        rw [← hkept, hnone] at hheld
        cases hheld
      · intro hdirect cid hother
        by_cases hmarked : cid ∈ live
        · have hkept : lookup c' cid = lookup store cid := hkeeps cid hmarked
          rw [hkept, ← Option.not_isSome_iff_eq_none]
          intro hheld
          rcases reach_pins_iff.mp ((hlive cid).mp hmarked) with hreach | hreach
          · exact hother (hdirect cid hheld hreach)
          · exact hother (.inr hreach)
        · exact hgone cid hmarked

end

/-! ## A direct pin on a block with a link -/

open scoped CidFormat

private def gcLeaf : Block := { cid := cidOf codecRaw [1], data := [1] }

private def gcParent : Block :=
  let data := cborBytes (.list [.link gcLeaf.cid])
  { cid := cidOf codecDagCbor data, data }

private def gcOrphan : Block := { cid := cidOf codecRaw [2, 2], data := [2, 2] }

/-- Two linked blocks and one that nothing links to. -/
private def gcStore : MemoryBlockStore := { blocks := [gcParent, gcLeaf, gcOrphan] }

private def gcPins (t : PinType) : PinManager := PinManager.new.pin gcParent.cid t none

private theorem gcLeaf_linked : gcLeaf.cid ∈ nodeLinks (lookup gcStore) gcParent.cid := by
  decide +kernel

/-- With the parent pinned recursively the leaf stays, in every run. -/
theorem collect_deletes_others_iff_recursive :
    ∃ n, ∀ rounds ≥ n, ∀ config, ∃ r, collect rounds (gcPins .recursive) config gcStore = some r ∧
      lookup (finalState r) gcLeaf.cid = some [1] := by
  obtain ⟨n, hn⟩ := collect_deletes_others_iff (gcPins .recursive) gcStore
  refine ⟨n, fun rounds hrounds config => ?_⟩
  obtain ⟨r, hrun, hkeeps, -⟩ := hn rounds hrounds config
  have hroot : Reach (nodeLinks (lookup gcStore)) ((gcPins .recursive).cidsOf .recursive)
      gcParent.cid := .root List.mem_cons_self
  have hheld : lookup gcStore gcLeaf.cid = some [1] := by decide +kernel
  exact ⟨r, hrun, (hkeeps _ (.inr (hroot.step gcLeaf_linked))).trans hheld⟩

/-- With the parent pinned directly the leaf is neither pinned nor reached from a
recursive pin, and it stays as well. -/
theorem collect_keeps_linked_from_direct :
    ∃ stats c', collect 3 (gcPins .direct) {} gcStore = some (.ok stats c') ∧
      ¬ Protected (gcPins .direct) (lookup gcStore) gcLeaf.cid ∧
      lookup c' gcLeaf.cid = some [1] := by
  have hother : ¬ Protected (gcPins .direct) (lookup gcStore) gcLeaf.cid := by
    rintro (hpin | ⟨r, hr, -⟩)
    · revert hpin
      decide
    · cases hr
  have hrun : (match collect 3 (gcPins .direct) {} gcStore with
      | some (.ok _ c') => lookup c' gcLeaf.cid
      | some (.error _ _) => none
      | none => none) = some [1] := by decide +kernel
  split at hrun
  · next stats c' hc' => exact ⟨stats, c', hc', hother, hrun⟩
  · cases hrun
  · cases hrun

end Ipfrs.Node
