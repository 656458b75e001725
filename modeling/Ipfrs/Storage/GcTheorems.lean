/-
Ipfrs.Storage.GcTheorems — which protected blocks a collection keeps.

A block is protected when it is pinned, or reached in the link graph from a recursive pin.
What is marked is what the pins reach over the links that marking follows (`Followed`):
none out of an indirect pin, and none that does not resolve. So a stored block is deleted
although it is protected when all paths to it pass through an indirect pin or through a
block whose links do not resolve (`not_collect_safe`).

How the proof goes: marking is the stack search of `Lib.Worklist` (`MarkInv`), sweeping
keeps what is marked whatever fails (`sweepPhase_keeps`), and a run that nothing stops
deletes the rest (`collect_deletes`). A run that is cancelled while it marks stops before it
sweeps, if it still sees the flag then. That is the side condition `Watch.Keeps`: where the
flag may be reset in between, a run sweeps with the pins alone marked
(`collect_deletes_reset`).
-/
import Ipfrs.Knowledge.TieredTheorems
import Ipfrs.Storage.Gc
import Ipfrs.Storage.PinningTheorems

namespace Ipfrs.Storage

open Ipfrs.Core Ipfrs.Lib Ipfrs.Lib.Worklist
open Ipfrs.Knowledge (ColdStore MemoryBlockStore)
open Ipfrs.Knowledge.ColdStore.Faithful (lookup)

/-! ## What marking follows -/

section

variable [CidCrate]

namespace PinManager

/-- The links that marking follows from a block: none out of an indirect pin, and none
that do not resolve. -/
def followed (m : PinManager) (linkResolver : LinkResolver) (cid : Cid) : List Cid :=
  if (m.getPinInfo cid).map PinInfo.pinType = some .indirect then []
  else match linkResolver cid with
    | .ok links => links
    | .error _ => []

/-- What the pins reach over the links that marking follows. -/
def Followed (m : PinManager) (linkResolver : LinkResolver) (cid : Cid) : Prop :=
  ∃ root, m.isPinned root = true ∧
    Relation.ReflTransGen (fun a b => b ∈ m.followed linkResolver a) root cid

/-- A block that a recursive pin reaches in the link graph. -/
def ReachedRecursively (m : PinManager) (links : Cid → List Cid) (cid : Cid) : Prop :=
  ∃ root, (m.getPinInfo root).map PinInfo.pinType = some .recursive ∧
    Relation.ReflTransGen (fun a b => b ∈ links a) root cid

def Protected (m : PinManager) (links : Cid → List Cid) (cid : Cid) : Prop :=
  m.isPinned cid = true ∨ m.ReachedRecursively links cid

end PinManager

variable {m : PinManager} {linkResolver : LinkResolver} {roots : List Cid}

/-- What a block of the stack is followed to. -/
theorem followed_eq {cid : Cid}
    (h : (m.getPinInfo cid).map PinInfo.pinType ≠ some .indirect) :
    m.followed linkResolver cid = match linkResolver cid with
      | .ok links => links
      | .error _ => [] := by
  rw [PinManager.followed, if_neg h]

theorem reach_iff_followed (hroots : ∀ cid, cid ∈ roots ↔ m.isPinned cid = true) (cid : Cid) :
    Reach (m.followed linkResolver) roots cid ↔ m.Followed linkResolver cid := by
  simp only [Reach, PinManager.Followed, hroots]

/-- Marking is left at an empty stack or when it is cancelled. -/
theorem markBody_leave [CidStream] {watch : Watch} {state state' : Marking}
    (h : markBody linkResolver watch state = .inr state') :
    (state.toProcess = [] ∧ state' = state) ∨
      (watch.cancelled state.look = true ∧ state' = { state with look := state.look + 1 }) := by
  unfold markBody at h
  split at h
  · next hstack =>
    cases h
    exact .inl ⟨hstack, rfl⟩
  · split at h
    · next hcancel =>
      cases h
      exact .inr ⟨hcancel, rfl⟩
    · split at h
      · cases h
      · cases h

end

/-! ## The pins -/

section

variable [CidCrate] [CidCrate.Lawful]

namespace PinManager

theorem listPins_of_keys : ∀ {entries : List (Sigma fun _ : List UInt8 => PinInfo)},
    (∀ e ∈ entries, ∃ cid, e.1 = CidCrate.toBytes cid) →
    ∃ pins, listPins entries = .ok pins ∧
      ∀ cid info, (cid, info) ∈ pins ↔ ⟨CidCrate.toBytes cid, info⟩ ∈ entries
  | [], _ => ⟨[], rfl, by simp⟩
  | ⟨key, info⟩ :: entries, h => by
    obtain ⟨⟨c, hkey⟩, hrest⟩ := List.forall_mem_cons.mp h
    obtain rfl : key = CidCrate.toBytes c := hkey
    obtain ⟨pins, hpins, hmem⟩ := listPins_of_keys hrest
    refine ⟨(c, info) :: pins, ?_, fun cid info' => ?_⟩
    · rw [listPins] at hpins
      simp only [listPins, List.mapM_cons, CidCrate.Lawful.tryFrom_toBytes, hpins]
      rfl
    · simp only [List.mem_cons, hmem, Prod.mk.injEq, Sigma.mk.injEq, heq_eq_eq,
        toBytes_injective.eq_iff]

/-- Listing the pins succeeds, and lists them. -/
theorem listPins_ok (m : PinManager) {entries : List (Sigma fun _ : List UInt8 => PinInfo)}
    (hperm : entries.Perm m.pins.entries) : ∃ pins, listPins entries = .ok pins ∧
      ∀ cid info, (cid, info) ∈ pins ↔ m.getPinInfo cid = some info := by
  have hkeys : ∀ e ∈ entries, ∃ cid, e.1 = CidCrate.toBytes cid := by
    intro e he
    have hkey : e.1 ∈ m.pins := AList.mem_keys.mpr
      (List.mem_map_of_mem (f := Sigma.fst) (hperm.mem_iff.mp he))
    exact m.ofCid e.1 hkey
  obtain ⟨pins, hpins, hmem⟩ := listPins_of_keys hkeys
  refine ⟨pins, hpins, fun cid info => ?_⟩
  rw [hmem, hperm.mem_iff, getPinInfo, ← AList.mem_lookup_iff, Option.mem_def]

end PinManager

/-! ## Marking -/

section

variable {m : PinManager} {linkResolver : LinkResolver} {roots : List Cid}

/-- The links of one block are marked and pushed as by `markNew`. -/
theorem foldl_markLink (links : List Cid) : ∀ (cids : List Cid) (state : Marking),
    state.marked = cids.map CidCrate.toBytes →
      links.foldl markLink state
        = { state with
            marked := (markNew links (cids, state.toProcess)).1.map CidCrate.toBytes
            toProcess := (markNew links (cids, state.toProcess)).2 } := by
  induction links with
  | nil =>
    intro cids state h
    rw [List.foldl_nil, markNew, ← h]
  | cons link links ih =>
    intro cids state h
    have hmem : CidCrate.toBytes link ∈ state.marked ↔ link ∈ cids := by
      rw [h, List.mem_map_of_injective toBytes_injective]
    by_cases hlink : link ∈ cids
    · rw [List.foldl_cons, markLink, if_pos (hmem.mpr hlink), ih cids state h, markNew,
        if_pos hlink]
    · rw [List.foldl_cons, markLink, if_neg (fun hm => hlink (hmem.mp hm)),
        ih (link :: cids) _ (by rw [List.map_cons, h]), markNew, if_neg hlink]

/-- What marking keeps, with the marked blocks as CIDs. -/
structure MarkInv (m : PinManager) (linkResolver : LinkResolver) (roots cids : List Cid)
    (state : Marking) : Prop where
  marked : state.marked = cids.map CidCrate.toBytes
  marks : Marks (m.followed linkResolver) roots cids state.toProcess
  /-- No indirect pin is on the stack. -/
  followable : ∀ cid ∈ state.toProcess,
    (m.getPinInfo cid).map PinInfo.pinType ≠ some .indirect

theorem MarkInv.init {pins : List (Cid × PinInfo)}
    (hpins : ∀ cid info, (cid, info) ∈ pins ↔ m.getPinInfo cid = some info) :
    MarkInv m linkResolver (pins.map Prod.fst) (pins.map Prod.fst).reverse.dedup
      (markStart pins) where
  marked := by
    have hmap : pins.map (fun p => CidCrate.toBytes p.1)
        = (pins.map Prod.fst).map CidCrate.toBytes := by simp
    simp only [markStart, hmap]
    rw [← List.map_reverse, List.dedup_map_of_injective toBytes_injective]
  marks := by
    constructor
    · intro x hx
      exact .root (List.mem_reverse.mp (List.mem_dedup.mp hx))
    · intro x hx
      obtain ⟨⟨cid, info⟩, hp, rfl⟩ := List.mem_map.mp (List.mem_reverse.mp (List.mem_dedup.mp hx))
      have hinfo := (hpins cid info).mp hp
      cases htype : info.pinType with
      | indirect =>
        refine .inr ?_
        simp [PinManager.followed, hinfo, htype]
      | direct | recursive =>
        refine .inl (List.mem_reverse.mpr (List.mem_map_of_mem (List.mem_filter.mpr ⟨hp, ?_⟩)))
        simp [isRoot, htype]
    · intro x hx
      obtain ⟨p, hp, rfl⟩ := List.mem_map.mp (List.mem_reverse.mp hx)
      exact List.mem_dedup.mpr (List.mem_reverse.mpr
        (List.mem_map_of_mem (List.mem_filter.mp hp).1))
    · intro x hx
      exact List.mem_dedup.mpr (List.mem_reverse.mpr hx)
  followable := by
    intro x hx
    obtain ⟨⟨cid, info⟩, hp, rfl⟩ := List.mem_map.mp (List.mem_reverse.mp hx)
    obtain ⟨hp, hroot⟩ := List.mem_filter.mp hp
    rw [(hpins cid info).mp hp]
    intro htype
    have hindirect : info.pinType = .indirect := Option.some.inj htype
    simp [isRoot, hindirect] at hroot

variable [CidStream]

/-- One round takes a block from the stack and marks and pushes what it is followed to. -/
theorem MarkInv.step {watch : Watch} {cids : List Cid} {state state' : Marking}
    (hroots : ∀ cid, cid ∈ roots ↔ m.isPinned cid = true)
    (h : MarkInv m linkResolver roots cids state)
    (hb : markBody linkResolver watch state = .inl state') :
    ∃ cid toProcess, state.toProcess = cid :: toProcess ∧ MarkInv m linkResolver roots
        (markNew (m.followed linkResolver cid) (cids, toProcess)).1 state' ∧
      state'.toProcess = (markNew (m.followed linkResolver cid) (cids, toProcess)).2 := by
  unfold markBody at hb
  split at hb
  · cases hb
  · next cid toProcess hstack =>
    refine ⟨cid, toProcess, hstack, ?_⟩
    have hfollow := h.followable cid (hstack ▸ List.mem_cons_self)
    have hmarks := h.marks
    rw [hstack] at hmarks
    have hvisit := hmarks.visit
    -- what is pushed anew is not pinned
    have hnew : ∀ x ∈ (markNew (m.followed linkResolver cid) (cids, toProcess)).2,
        (m.getPinInfo x).map PinInfo.pinType ≠ some .indirect := by
      intro x hx
      rcases (mem_markNew_stack _ _).mp hx with hx | ⟨-, hx⟩
      · exact h.followable x (hstack ▸ List.mem_cons_of_mem _ hx)
      · intro htype
        have hpinned : m.isPinned x = true := by
          rw [PinManager.isPinned]
          cases hinfo : m.getPinInfo x with
          | none => simp [hinfo] at htype
          | some info => rfl
        exact hx (hmarks.rooted x ((hroots x).mpr hpinned))
    split at hb
    · cases hb
    · split at hb
      · next links hlinks =>
        have heq : m.followed linkResolver cid = links := by
          rw [followed_eq hfollow, hlinks]
        rw [heq] at hvisit hnew ⊢
        rw [foldl_markLink links cids { state with toProcess, look := state.look + 1 }
          h.marked] at hb
        cases hb
        exact ⟨⟨rfl, hvisit, hnew⟩, rfl⟩
      · next e herror =>
        have heq : m.followed linkResolver cid = [] := by
          rw [followed_eq hfollow, herror]
        rw [heq] at hvisit hnew ⊢
        cases hb
        exact ⟨⟨h.marked, hvisit, hnew⟩, rfl⟩

omit [CidCrate.Lawful] [CidStream] in
theorem mem_listed {pins : List (Cid × PinInfo)}
    (hpins : ∀ cid info, (cid, info) ∈ pins ↔ m.getPinInfo cid = some info) (cid : Cid) :
    cid ∈ pins.map Prod.fst ↔ m.isPinned cid = true := by
  rw [PinManager.isPinned, Option.isSome_iff_exists, List.mem_map]
  constructor
  · intro h
    obtain ⟨⟨c, info⟩, hp, rfl⟩ := h
    exact ⟨info, (hpins c info).mp hp⟩
  · intro h
    obtain ⟨info, hinfo⟩ := h
    exact ⟨(cid, info), (hpins cid info).mpr hinfo, rfl⟩

/-- **Marking** marks the pins, and what they reach over followed links unless it is
cancelled. -/
theorem markPhase_ok {rounds : Nat} {watch : Watch}
    {entries : List (Sigma fun _ : List UInt8 => PinInfo)} (hperm : entries.Perm m.pins.entries)
    {marking : Marking} (h : markPhase rounds linkResolver watch entries = some (.ok marking)) :
    (∀ cid, m.isPinned cid = true → CidCrate.toBytes cid ∈ marking.marked) ∧
      ((∀ cid, CidCrate.toBytes cid ∈ marking.marked ↔ m.Followed linkResolver cid) ∨
        ∃ look, watch.cancelled look = true ∧ marking.look = look + 1) := by
  obtain ⟨pins, hlist, hpins⟩ := m.listPins_ok hperm
  have hroots := mem_listed hpins
  simp only [markPhase, hlist, Option.map_eq_some_iff, Except.ok.injEq, exists_eq_right] at h
  let Inv : Marking → Prop :=
    fun state => ∃ cids, MarkInv m linkResolver (pins.map Prod.fst) cids state
  have hstep : ∀ state state', Inv state →
      markBody linkResolver watch state = .inl state' → Inv state' := by
    rintro state state' ⟨cids, hinv⟩ hb
    obtain ⟨cid, toProcess, -, hinv', -⟩ := hinv.step hroots hb
    exact ⟨_, hinv'⟩
  have hstart : Inv (markStart pins) := ⟨_, MarkInv.init hpins⟩
  obtain ⟨state, ⟨cids, hinv⟩, hleave⟩ := Loop.run_inv hstep hstart h
  have hpinned : ∀ cid, m.isPinned cid = true → CidCrate.toBytes cid ∈ state.marked := by
    intro cid hcid
    rw [hinv.marked, List.mem_map_of_injective toBytes_injective]
    exact hinv.marks.rooted cid ((hroots cid).mpr hcid)
  rcases markBody_leave hleave with ⟨hstack, rfl⟩ | ⟨hcancel, rfl⟩
  · have hmarks := hinv.marks
    rw [hstack] at hmarks
    refine ⟨hpinned, .inl (fun cid => ?_)⟩
    rw [hinv.marked, List.mem_map_of_injective toBytes_injective, hmarks.done,
      reach_iff_followed hroots]
  · exact ⟨hpinned, .inr ⟨state.look, hcancel, rfl⟩⟩

/-- Cancelled at its first look, marking leaves nothing but the pins marked. -/
theorem markPhase_cancelled (linkResolver : LinkResolver) (watch : Watch)
    (hcancel : watch.cancelled 0 = true) {entries : List (Sigma fun _ : List UInt8 => PinInfo)} (hperm : entries.Perm m.pins.entries)
    {root : Cid} (hroot : (m.getPinInfo root).map PinInfo.pinType = some .recursive) :
    ∃ marking, markPhase 1 linkResolver watch entries = some (.ok marking) ∧ marking.look = 1 ∧
      ∀ cid, CidCrate.toBytes cid ∈ marking.marked ↔ m.isPinned cid = true := by
  obtain ⟨pins, hlist, hpins⟩ := m.listPins_ok hperm
  obtain ⟨info, hinfo, htype⟩ := Option.map_eq_some_iff.mp hroot
  have hstack : (markStart pins).toProcess ≠ [] := by
    refine List.ne_nil_of_mem (List.mem_reverse.mpr (List.mem_map_of_mem
      (List.mem_filter.mpr ⟨(hpins root info).mpr hinfo, ?_⟩)))
    simp [isRoot, htype]
  obtain ⟨cid, toProcess, hstack⟩ := List.exists_cons_of_ne_nil hstack
  refine ⟨{ markStart pins with look := 1 }, ?_, rfl, fun cid => ?_⟩
  · have hbody : markBody linkResolver watch (markStart pins)
        = .inr { markStart pins with look := 1 } := by
      have hlook : watch.cancelled (markStart pins).look = true := hcancel
      unfold markBody
      rw [hstack]
      dsimp only
      rw [if_pos hlook, ← hstack]
      rfl
    rw [markPhase, hlist]
    simp [Loop.run, hbody]
  · rw [← mem_listed hpins]
    simp only [markStart, List.mem_dedup, List.mem_reverse, List.mem_map]
    simp only [toBytes_injective.eq_iff]

/-- Marking returns, if the pins reach finitely many blocks. -/
theorem markPhase_returns (watch : Watch) {entries : List (Sigma fun _ : List UInt8 => PinInfo)}
    (hperm : entries.Perm m.pins.entries) (hfinite : {cid | m.Followed linkResolver cid}.Finite) :
    ∃ rounds marking, markPhase rounds linkResolver watch entries = some (.ok marking) := by
  obtain ⟨pins, hlist, hpins⟩ := m.listPins_ok hperm
  have hroots := mem_listed hpins
  let support := hfinite.toFinset.toList
  have hsupport : ∀ cid, cid ∈ support ↔ m.Followed linkResolver cid := by simp [support]
  let measure : Marking → Nat := fun state =>
    state.toProcess.length + unmarked (support.map CidCrate.toBytes) state.marked
  have hreturns : ∃ marking,
      Loop.run (markBody linkResolver watch) (measure (markStart pins) + 1) (markStart pins)
        = some marking := by
    refine Loop.run_of_measure
      (fun state => ∃ cids, MarkInv m linkResolver (pins.map Prod.fst) cids state) measure
      (fun state state' hs hb => ?_) _ ⟨_, MarkInv.init hpins⟩ (Nat.le_refl _)
    obtain ⟨cids, hinv⟩ := hs
    obtain ⟨cid, toProcess, hstack, hinv', htop⟩ := hinv.step hroots hb
    refine ⟨⟨_, hinv'⟩, ?_⟩
    have hreach := hinv.marks.sound cid (hinv.marks.pushed cid (hstack ▸ List.mem_cons_self))
    have hle := markNew_length_le
      (fun y hy => (hsupport y).mpr ((reach_iff_followed hroots y).mp (hreach.step hy)))
      (cids, toProcess)
    dsimp only at hle
    simp only [measure, hinv'.marked, hinv.marked, unmarked_map toBytes_injective, htop, hstack,
      List.length_cons]
    omega
  obtain ⟨marking, hmarking⟩ := hreturns
  exact ⟨_, marking, by rw [markPhase, hlist]; exact congrArg (Option.map Except.ok) hmarking⟩

end

end

/-! ## Sweeping -/

section

variable {C : Type} [ColdStore C] [ColdStore.Faithful C] {cid : Cid}
  {held : Option (List UInt8)} {marked : List (List UInt8)}

/-- What deleting other blocks keeps of one block, or any blocks if it is not held. -/
theorem heldSize_ends (c : Cid) {store : C} (h : lookup store cid = held) :
    Ends (heldSize c) store (fun _ store' => lookup store' cid = held)
      (fun store' => lookup store' cid = held) := by
  unfold Ends heldSize
  cases hget : ColdStore.get c store with
  | ok block store' => exact (congrFun (ColdStore.Faithful.get_ok hget).2 cid).trans h
  | error e store' => exact (congrFun (ColdStore.Faithful.get_error hget) cid).trans h

variable [CidStream]

theorem deleteOne_ends (result : GcResult) {c : Cid} {store : C}
    (hother : cid ≠ c ∨ held = none) (h : lookup store cid = held) :
    Ends (deleteOne result c) store (fun _ store' => lookup store' cid = held)
      (fun store' => lookup store' cid = held) := by
  unfold Ends deleteOne
  cases hdelete : ColdStore.delete c store with
  | error e store' => exact (congrFun (ColdStore.Faithful.delete_error hdelete) cid).trans h
  | ok u store' =>
    show lookup store' cid = held
    rw [ColdStore.Faithful.delete_ok hdelete]
    by_cases hc : cid = c
    · rw [hc, Function.update_self, hother.resolve_left (not_not.mpr hc)]
    · rw [Function.update_of_ne hc, h]

theorem deleteBatch_ends (cids : List Cid) (hother : cid ∉ cids ∨ held = none) :
    ∀ (result : GcResult) {store : C}, lookup store cid = held →
      Ends (deleteBatch cids result) store (fun _ store' => lookup store' cid = held)
        (fun store' => lookup store' cid = held) := by
  induction cids with
  | nil => exact fun result store h => h
  | cons c cids ih =>
    intro result store h
    rw [List.mem_cons, not_or] at hother
    refine (heldSize_ends c h).bind (fun size store' h' => ?_)
    refine (deleteOne_ends _ (hother.imp_left And.left) h').bind (fun result' store'' h'' => ?_)
    exact ih (hother.imp_left And.right) result' h''

variable [CidCrate]

/-- The blocks that wait for their deletion are not marked. -/
def Unmarked (marked : List (List UInt8)) (state : Sweeping) : Prop :=
  ∀ c ∈ state.toDelete, CidCrate.toBytes c ∉ marked

omit [CidStream] in
theorem Unmarked.other {state : Sweeping} (hstate : Unmarked marked state)
    (hother : CidCrate.toBytes cid ∈ marked ∨ held = none) : cid ∉ state.toDelete ∨ held = none :=
  hother.imp_left (fun hmem hdelete => hstate cid hdelete hmem)

omit [CidStream] in
theorem gatherBlock_ends (config : GcConfig) {state : Sweeping} {c : Cid} {store : C}
    (hc : CidCrate.toBytes c ∉ marked) (hstate : Unmarked marked state)
    (h : lookup store cid = held) : Ends (gatherBlock config state c) store
      (fun state' store' => lookup store' cid = held ∧ Unmarked marked state')
      (fun store' => lookup store' cid = held) := by
  unfold gatherBlock
  split
  · exact (heldSize_ends c h).bind (fun size store' h' => ⟨h', hstate⟩)
  · refine ⟨h, fun d hd => ?_⟩
    rcases List.mem_append.mp hd with hd | hd
    · exact hstate d hd
    · rwa [List.mem_singleton.mp hd]

theorem finishBatch_ends (config : GcConfig) {state : Sweeping} {store : C}
    (hother : CidCrate.toBytes cid ∈ marked ∨ held = none)
    (hstate : Unmarked marked state) (h : lookup store cid = held) :
    Ends (finishBatch config state) store
      (fun state' store' => lookup store' cid = held ∧ Unmarked marked state')
      (fun store' => lookup store' cid = held) := by
  unfold finishBatch
  split
  · split
    · refine (deleteBatch_ends _ (hstate.other hother) _ h).bind (fun result store' h' => ?_)
      exact ⟨h', by simp [Unmarked]⟩
    · exact ⟨h, hstate⟩
  · exact ⟨h, hstate⟩

theorem sweepLoop_ends (config : GcConfig) (watch : Watch)
    (hother : CidCrate.toBytes cid ∈ marked ∨ held = none) (all : List Cid) :
    ∀ {state : Sweeping} {store : C}, Unmarked marked state → lookup store cid = held →
      Ends (sweepLoop config watch marked all state) store
        (fun state' store' => lookup store' cid = held ∧ Unmarked marked state')
        (fun store' => lookup store' cid = held) := by
  induction all with
  | nil => exact fun hstate h => ⟨h, hstate⟩
  | cons c all ih =>
    intro state store hstate h
    unfold sweepLoop
    dsimp only
    split
    · exact ⟨h, hstate⟩
    · split
      · exact ⟨h, hstate⟩
      · split
        · exact ih hstate h
        · next hc =>
          have hstate' : Unmarked marked { state with look := state.look + 2 } := hstate
          refine (gatherBlock_ends config hc hstate' h).bind (fun gathered _ hpost => ?_)
          refine (finishBatch_ends config hother hpost.2 hpost.1).bind
            (fun finished _ hpost' => ?_)
          exact ih hpost'.2 hpost'.1

/-- **A sweep** keeps what is marked. -/
theorem sweepPhase_keeps (config : GcConfig) (watch : Watch) {marking : Marking}
    (hother : CidCrate.toBytes cid ∈ marking.marked ∨ held = none) (result : GcResult)
    {store : C} (h : lookup store cid = held) :
    lookup (finalState (sweepPhase config watch marking result store)) cid = held := by
  refine Ends.finalState (E := fun store' => lookup store' cid = held) ?_
  unfold sweepPhase
  refine Ends.bind (P := fun _ store' => lookup store' cid = held) ?_ (fun all store' h' => ?_)
  · exact .of_outcomes (fun h' => (congrFun (ColdStore.Faithful.listCids_ok h').2 cid).trans h)
      (fun h' => (congrFun (ColdStore.Faithful.listCids_error h') cid).trans h)
  · refine (sweepLoop_ends config watch hother all (by simp [Unmarked]) h').bind
      (fun state store'' hpost => ?_)
    split
    · exact deleteBatch_ends _ (hpost.2.other hother) _ hpost.1
    · exact hpost.1

/-! ### A run that nothing stops -/

/-- Nothing is cancelled and no time passes. -/
def Watch.idle : Watch where
  cancelled _ := false
  expired _ := false

/-- Cancelled at the first look, and reset before the next. -/
def Watch.reset : Watch where
  cancelled look := look = 0
  expired _ := false

omit [ColdStore.Faithful C] [CidStream] [CidCrate] in
theorem heldSize_succeeds (c : Cid) (store : C) (E : C → Prop) :
    Ends (heldSize c) store (fun _ _ => True) E := by
  unfold Ends heldSize
  cases ColdStore.get c store with
  | ok block store' => trivial
  | error e store' => trivial

omit [ColdStore.Faithful C] [CidCrate] in
theorem deleteOne_succeeds (result : GcResult) (c : Cid) (store : C) (E : C → Prop) :
    Ends (deleteOne result c) store (fun _ _ => True) E := by
  unfold Ends deleteOne
  cases ColdStore.delete c store with
  | ok u store' => trivial
  | error e store' => trivial

/-- A store whose deletions succeed. -/
def Deletes (C : Type) [ColdStore C] : Prop :=
  ∀ (c : Cid) (store : C), ∃ store', ColdStore.delete c store = .ok () store'

omit [CidCrate] in
theorem deleteOne_deletes (hdeletes : Deletes C) (result : GcResult) (store : C) (E : C → Prop) :
    Ends (deleteOne result cid) store (fun _ store' => lookup store' cid = none) E := by
  unfold Ends deleteOne
  obtain ⟨store', hdelete⟩ := hdeletes cid store
  rw [hdelete]
  simp [ColdStore.Faithful.delete_ok hdelete]

omit [CidCrate] in
theorem deleteBatch_deletes (hdeletes : Deletes C) {cids : List Cid} (hmem : cid ∈ cids) :
    ∀ (result : GcResult) (store : C),
      Ends (deleteBatch cids result) store (fun _ store' => lookup store' cid = none)
        (fun store' => lookup store' cid = none) := by
  induction cids with
  | nil => cases hmem
  | cons c cids ih =>
    intro result store
    refine (heldSize_succeeds c store _).bind (fun size store' _ => ?_)
    by_cases hc : cid = c
    · subst hc
      refine (deleteOne_deletes hdeletes _ store' _).bind (fun result' store'' h => ?_)
      exact deleteBatch_ends cids (.inr rfl) result' h
    · refine (deleteOne_succeeds _ c store' _).bind (fun result' store'' _ => ?_)
      exact ih ((List.mem_cons.mp hmem).resolve_left hc) result' store''

omit [ColdStore.Faithful C] in
/-- The loop gathers all that is not marked. -/
theorem sweepLoop_quiet {watch : Watch} (marked : List (List UInt8)) (all : List Cid)
    (store : C) : ∀ state : Sweeping, (∀ look ≥ state.look, watch.cancelled look = false) →
    ∃ state', sweepLoop {} watch marked all state store = .ok state' store ∧
      ∀ c, c ∈ state'.toDelete ↔ c ∈ state.toDelete ∨ (c ∈ all ∧ CidCrate.toBytes c ∉ marked) := by
  induction all with
  | nil => exact fun state _ => ⟨state, rfl, by simp⟩
  | cons c all ih =>
    intro state hquiet
    have hlook := hquiet state.look (Nat.le_refl _)
    have hnext := hquiet (state.look + 1) (Nat.le_succ _)
    have hrest : ∀ look ≥ state.look + 2, watch.cancelled look = false :=
      fun look hle => hquiet look (by omega)
    by_cases hc : CidCrate.toBytes c ∈ marked
    · obtain ⟨state', hrun, hmem⟩ := ih { state with look := state.look + 2 } hrest
      refine ⟨state', ?_, fun d => ?_⟩
      · rw [← hrun, sweepLoop]
        simp [hlook, hnext, GcConfig.shouldStop, hc]
      · rw [hmem, List.mem_cons]
        by_cases hd : d = c
        · simp [hd, hc]
        · simp [hd]
    · obtain ⟨state', hrun, hmem⟩ := ih
        { state with
          look := state.look + 2
          toDelete := state.toDelete ++ [c]
          batchCount := state.batchCount + 1 } hrest
      refine ⟨state', ?_, fun d => ?_⟩
      · rw [← hrun, sweepLoop]
        simp [hlook, hnext, GcConfig.shouldStop, hc, gatherBlock, finishBatch]
      · rw [hmem, List.mem_cons]
        by_cases hd : d = c
        · simp [hd, hc]
        · simp [hd]

/-- So an unmarked block does not outlive it. -/
theorem sweepPhase_quiet (hdeletes : Deletes C) (watch : Watch) (marking : Marking)
    (hquiet : ∀ look ≥ marking.look, watch.cancelled look = false)
    (hunmarked : CidCrate.toBytes cid ∉ marking.marked) (result : GcResult) {store store' : C}
    {all : List Cid} (hlist : ColdStore.listCids store = .ok all store') :
    lookup (finalState (sweepPhase {} watch marking result store)) cid = none := by
  obtain ⟨state, hrun, hmem⟩ := sweepLoop_quiet marking.marked all store'
    { result := { result with blocksScanned := all.length }
      toDelete := [], batchCount := 0, look := marking.look } hquiet
  refine Ends.finalState (E := fun store' => lookup store' cid = none) ?_
  unfold Ends sweepPhase
  rw [run_bind_ok hlist, run_bind_ok hrun]
  change Ends _ store' _ _
  obtain ⟨hlisted, hsame⟩ := ColdStore.Faithful.listCids_ok hlist
  by_cases hheld : cid ∈ all
  · have hdelete : cid ∈ state.toDelete := (hmem cid).mpr (.inr ⟨hheld, hunmarked⟩)
    have hsome : state.toDelete.isEmpty = false := by
      cases htoDelete : state.toDelete with
      | nil => rw [htoDelete] at hdelete; cases hdelete
      | cons c rest => rfl
    rw [if_pos ⟨rfl, hsome⟩]
    exact deleteBatch_deletes hdeletes hdelete _ _
  · have hnone : lookup store' cid = none := by
      rw [hsame, ← Option.not_isSome_iff_eq_none, ← hlisted]
      exact hheld
    split
    · exact deleteBatch_ends _ (.inr rfl) _ hnone
    · exact hnone

end

theorem deletes_memory : Deletes MemoryBlockStore := fun _ _ => ⟨_, rfl⟩

/-! ## Collecting -/

section

variable [CidCrate] [CidCrate.Lawful] [CidStream] {C : Type} [ColdStore C] [ColdStore.Faithful C]
  {m : PinManager} {linkResolver : LinkResolver}
  {entries : List (Sigma fun _ : List UInt8 => PinInfo)}

/-- **A collection** keeps what is pinned, however the store fails and whenever the run is
stopped, and what the pins reach over followed links if no cancellation is taken back. -/
theorem collect_keeps (hperm : entries.Perm m.pins.entries) {rounds : Nat} {config : GcConfig}
    {watch : Watch} {store : C} {r : EStateM.Result Error C GcResult}
    (h : collect rounds linkResolver config watch entries store = some r) {cid : Cid}
    (hcid : m.isPinned cid = true ∨ lookup store cid = none ∨
      watch.Keeps ∧ ({x | m.Followed linkResolver x}.Finite → m.Followed linkResolver cid)) :
    lookup (finalState r) cid = lookup store cid := by
  unfold collect at h
  split at h
  · cases h
  · cases h
    rfl
  · next marking hmark =>
    dsimp only at h
    split at h
    · cases h
      rfl
    · next hgoes =>
      cases h
      obtain ⟨hpinned, hmarked⟩ := markPhase_ok hperm hmark
      refine sweepPhase_keeps config watch ?_ _ rfl
      rcases hcid with hcid | hnone | ⟨hkeeps, hfollowed⟩
      · exact .inl (hpinned cid hcid)
      · exact .inr hnone
      rcases hmarked with hexact | ⟨look, hcancel, hlook⟩
      · have hfinite : {x | m.Followed linkResolver x}.Finite := by
          refine ((List.finite_toSet marking.marked).preimage
            toBytes_injective.injOn).subset (fun x hx => ?_)
          exact (hexact x).mpr hx
        exact .inl ((hexact cid).mpr (hfollowed hfinite))
      · have hstill := hkeeps look hcancel
        exact absurd (by simp [GcConfig.shouldStop, hlook, hstill]) hgoes

/-- A run that nothing stops deletes the rest. -/
theorem collect_deletes (hdeletes : Deletes C) (hperm : entries.Perm m.pins.entries)
    (hfinite : {cid | m.Followed linkResolver cid}.Finite) {cid : Cid}
    (hcid : ¬ m.Followed linkResolver cid) {store store' : C} {all : List Cid}
    (hlist : ColdStore.listCids store = .ok all store') :
    ∃ rounds r, collect rounds linkResolver {} Watch.idle entries store = some r ∧
      lookup (finalState r) cid = none := by
  obtain ⟨rounds, marking, hmark⟩ := markPhase_returns Watch.idle hperm hfinite
  have hexact := (markPhase_ok hperm hmark).2.resolve_right
    (fun ⟨_, hcancel, _⟩ => Bool.false_ne_true hcancel)
  have hrun : collect rounds linkResolver {} Watch.idle entries store
      = some (sweepPhase {} Watch.idle { marking with look := marking.look + 1 }
          { blocksMarked := marking.marked.length, errors := marking.errors } store) := by
    rw [collect, hmark]
    rfl
  have hunmarked : CidCrate.toBytes cid ∉ marking.marked :=
    fun hmem => hcid ((hexact cid).mp hmem)
  have hgone := sweepPhase_quiet hdeletes Watch.idle
    { marking with look := marking.look + 1 } (fun _ _ => rfl) hunmarked
    { blocksMarked := marking.marked.length, errors := marking.errors } hlist
  exact ⟨rounds, _, hrun, hgone⟩

/-- A run that is cancelled at once and does not see it afterwards deletes what is not
pinned. -/
theorem collect_deletes_reset (linkResolver : LinkResolver) (hdeletes : Deletes C)
    (hperm : entries.Perm m.pins.entries) {root : Cid} (hroot : (m.getPinInfo root).map PinInfo.pinType = some .recursive) {cid : Cid}
    (hcid : m.isPinned cid = false) {store store' : C} {all : List Cid}
    (hlist : ColdStore.listCids store = .ok all store') :
    ∃ rounds r, collect rounds linkResolver {} Watch.reset entries store = some r ∧
      lookup (finalState r) cid = none := by
  obtain ⟨marking, hmark, hlook, hmarked⟩ :=
    markPhase_cancelled linkResolver Watch.reset rfl hperm hroot
  have hquiet : ∀ look ≥ 1, Watch.reset.cancelled look = false :=
    fun look hle => decide_eq_false (by omega)
  have hgoes : GcConfig.shouldStop {} Watch.reset marking.look = false := by
    simp [GcConfig.shouldStop, hlook, hquiet]
  have hunmarked : CidCrate.toBytes cid ∉ marking.marked := by simp [hmarked, hcid]
  have hafter : ∀ look ≥ marking.look + 1, Watch.reset.cancelled look = false :=
    fun look hle => hquiet look (by omega)
  have hgone := sweepPhase_quiet hdeletes Watch.reset { marking with look := marking.look + 1 }
    hafter hunmarked { blocksMarked := marking.marked.length, errors := marking.errors } hlist
  refine ⟨1, _, ?_, hgone⟩
  rw [collect, hmark]
  simp [hgoes]

end

section

variable [CidCrate] [CidCrate.Lawful] [CidStream]

/-- No collection of any store that holds these blocks deletes a protected one, whatever
its configuration and, as far as allowed, whatever it sees of the outside. -/
def Safe (allowed : Watch → Prop) (m : PinManager) (links : Cid → List Cid)
    (linkResolver : LinkResolver) (blocks : MemoryBlockStore) : Prop :=
  ∀ (C : Type) [ColdStore C] [ColdStore.Faithful C] (store : C), lookup store = lookup blocks →
    ∀ entries, entries.Perm m.pins.entries → ∀ rounds config watch r, allowed watch →
      collect rounds linkResolver config watch entries store = some r →
      ∀ cid, m.Protected links cid → lookup (finalState r) cid = lookup blocks cid

variable {m : PinManager} {links : Cid → List Cid} {linkResolver : LinkResolver}
  {blocks : MemoryBlockStore}

theorem safe_keeps_iff : Safe Watch.Keeps m links linkResolver blocks ↔
    (∀ cid, (lookup blocks cid).isSome = true → m.ReachedRecursively links cid →
      m.Followed linkResolver cid) ∨ ¬ {cid | m.Followed linkResolver cid}.Finite := by
  constructor
  · intro hsafe
    by_contra hnot
    obtain ⟨hfollowed, hfinite⟩ := not_or.mp hnot
    push Not at hfollowed hfinite
    obtain ⟨cid, hheld, hreached, hcid⟩ := hfollowed
    obtain ⟨rounds, r, hrun, hgone⟩ := collect_deletes deletes_memory
      (List.Perm.refl m.pins.entries) hfinite hcid
      (show ColdStore.listCids blocks = .ok _ blocks from rfl)
    have hkept := hsafe MemoryBlockStore blocks rfl _ (List.Perm.refl _) rounds {} Watch.idle r
      (fun _ h => h) hrun cid (.inr hreached)
    rw [← hkept, hgone] at hheld
    cases hheld
  · intro hcond C _ _ store hsame entries hperm rounds config watch r hkeeps hrun cid hprotected
    rw [← hsame]
    refine collect_keeps hperm hrun ?_
    rcases hprotected with hpinned | hreached
    · exact .inl hpinned
    · by_cases hheld : (lookup blocks cid).isSome = true
      · refine .inr (.inr ⟨hkeeps, fun hfinite => ?_⟩)
        exact hcond.resolve_right (not_not.mpr hfinite) cid hheld hreached
      · refine .inr (.inl ?_)
        rw [hsame, ← Option.not_isSome_iff_eq_none]
        exact hheld

theorem safe_iff : Safe (fun _ => True) m links linkResolver blocks ↔
    ∀ cid, (lookup blocks cid).isSome = true → m.ReachedRecursively links cid →
      m.isPinned cid = true := by
  constructor
  · intro hsafe cid hheld hreached
    by_contra hcid
    obtain ⟨root, hroot, -⟩ := id hreached
    obtain ⟨rounds, r, hrun, hgone⟩ := collect_deletes_reset linkResolver
      deletes_memory (List.Perm.refl m.pins.entries) hroot (Bool.eq_false_iff.mpr hcid)
      (show ColdStore.listCids blocks = .ok _ blocks from rfl)
    have hkept := hsafe MemoryBlockStore blocks rfl _ (List.Perm.refl _) rounds {} Watch.reset r
      trivial hrun cid (.inr hreached)
    rw [← hkept, hgone] at hheld
    cases hheld
  · intro hcond C _ _ store hsame entries hperm rounds config watch r _ hrun cid hprotected
    rw [← hsame]
    refine collect_keeps hperm hrun ?_
    by_cases hheld : (lookup blocks cid).isSome = true
    · exact .inl (hprotected.elim id (hcond cid hheld))
    · refine .inr (.inl ?_)
      rw [hsame, ← Option.not_isSome_iff_eq_none]
      exact hheld

/-- **Safety of the collection**: in runs that no cancellation stops and then is taken back,
no protected block is ever deleted exactly if every stored block that a recursive pin
reaches is reached from a pin over followed links (or marking never ends). In all runs none
is exactly if every stored block that a recursive pin reaches is pinned itself. -/
theorem collect_safe_iff (m : PinManager) (links : Cid → List Cid) (linkResolver : LinkResolver)
    (blocks : MemoryBlockStore) : (Safe Watch.Keeps m links linkResolver blocks ↔
      (∀ cid, (lookup blocks cid).isSome = true → m.ReachedRecursively links cid →
        m.Followed linkResolver cid) ∨ ¬ {cid | m.Followed linkResolver cid}.Finite) ∧
    (Safe (fun _ => True) m links linkResolver blocks ↔
      ∀ cid, (lookup blocks cid).isSome = true → m.ReachedRecursively links cid →
        m.isPinned cid = true) :=
  ⟨safe_keeps_iff, safe_iff⟩

end

/-! ## A chain of three blocks -/

open scoped CidFormat

/-- The block with one byte of data. -/
private def chainBlock (b : UInt8) : Block := { cid := cidOf codecRaw [b], data := [b] }

private def chainBlocks : MemoryBlockStore := { blocks := [1, 2, 3].map chainBlock }

/-- The first block links to the second, and that to the third. -/
private def chainLinks (cid : Cid) : List Cid :=
  if cid = (chainBlock 1).cid then [(chainBlock 2).cid]
  else if cid = (chainBlock 2).cid then [(chainBlock 3).cid]
  else []

private def chainResolver : LinkResolver := fun cid => .ok (chainLinks cid)

/-- The first block is pinned recursively. -/
private def chainCalls : List PinManager.Call :=
  [.pinRecursive 9 chainResolver (chainBlock 1).cid]

private theorem chain_reached {m : PinManager} {cid : Cid}
    (hroot : ∀ root, (m.getPinInfo root).map PinInfo.pinType = some .recursive →
      root = (chainBlock 1).cid) (h : m.ReachedRecursively chainLinks cid) :
    cid = (chainBlock 1).cid ∨ cid = (chainBlock 2).cid ∨ cid = (chainBlock 3).cid := by
  obtain ⟨root, hrecursive, hpath⟩ := h
  rw [hroot root hrecursive] at hpath
  induction hpath with
  | refl => exact .inl rfl
  | tail _ hstep _ =>
    unfold chainLinks at hstep
    split at hstep
    · exact .inr (.inl (List.mem_singleton.mp hstep))
    · split at hstep
      · exact .inr (.inr (List.mem_singleton.mp hstep))
      · cases hstep

/-- The pins of a manager by their keys. -/
private def pinTypes (m : PinManager) : List (List UInt8 × PinType) :=
  m.pins.entries.map (fun e => (e.1, e.2.pinType))

private theorem chain_root {m : PinManager} (h : (pinTypes m).filter (fun p => p.2 = .recursive)
      = [(CidCrate.toBytes (chainBlock 1).cid, .recursive)]) (root : Cid)
    (hroot : (m.getPinInfo root).map PinInfo.pinType = some .recursive) :
    root = (chainBlock 1).cid := by
  obtain ⟨info, hinfo, htype⟩ := Option.map_eq_some_iff.mp hroot
  have hmem : (CidCrate.toBytes root, PinType.recursive)
      ∈ (pinTypes m).filter (fun p => p.2 = .recursive) := by
    refine List.mem_filter.mpr ⟨List.mem_map.mpr ?_, by simp⟩
    exact ⟨⟨CidCrate.toBytes root, info⟩, AList.mem_lookup_iff.mp hinfo, by rw [htype]⟩
  rw [h, List.mem_singleton] at hmem
  exact toBytes_injective (Prod.mk.inj hmem).1

/-- With the pins that the recursive pin made, all three are safe in every run; with the
second and the third unpinned, in runs that see no cancellation taken back: the first
block's links are followed to them. -/
theorem collect_safe_iff_chain : (∃ m, PinManager.run chainCalls = some m ∧
      Safe (fun _ => True) m chainLinks chainResolver chainBlocks) ∧
    ∃ m, PinManager.run (chainCalls ++ [.unpin (chainBlock 2).cid, .unpin (chainBlock 3).cid])
        = some m ∧ Safe Watch.Keeps m chainLinks chainResolver chainBlocks := by
  constructor
  · have hrun : (PinManager.run chainCalls).map (fun m =>
        ((pinTypes m).filter (fun p => p.2 = .recursive),
          [1, 2, 3].all (fun b => m.isPinned (chainBlock b).cid)))
        = some ([(CidCrate.toBytes (chainBlock 1).cid, .recursive)], true) := by
      decide +kernel
    obtain ⟨m, hm, hpins⟩ := Option.map_eq_some_iff.mp hrun
    obtain ⟨htypes, hpinned⟩ := Prod.mk.inj hpins
    refine ⟨m, hm, (collect_safe_iff m _ _ _).2.mpr (fun cid _ hreached => ?_)⟩
    simp only [List.all_cons, List.all_nil, Bool.and_true, Bool.and_eq_true] at hpinned
    rcases chain_reached (chain_root htypes) hreached with rfl | rfl | rfl
    · exact hpinned.1
    · exact hpinned.2.1
    · exact hpinned.2.2
  · have hrun : (PinManager.run
        (chainCalls ++ [.unpin (chainBlock 2).cid, .unpin (chainBlock 3).cid])).map pinTypes
        = some [(CidCrate.toBytes (chainBlock 1).cid, .recursive)] := by
      decide +kernel
    obtain ⟨m, hm, htypes⟩ := Option.map_eq_some_iff.mp hrun
    refine ⟨m, hm, (collect_safe_iff m _ _ _).1.mpr (.inl (fun cid _ hreached => ?_))⟩
    obtain ⟨root, hroot, hpath⟩ := hreached
    have hpinned : m.isPinned root = true := by
      obtain ⟨info, hinfo, -⟩ := Option.map_eq_some_iff.mp hroot
      simp [PinManager.isPinned, hinfo]
    refine ⟨root, hpinned, Relation.ReflTransGen.mono (fun a b hb => ?_) _ _ hpath⟩
    -- no pin is left that is indirect
    have hnone : (m.getPinInfo a).map PinInfo.pinType ≠ some .indirect := by
      intro hindirect
      obtain ⟨info, hinfo, htype⟩ := Option.map_eq_some_iff.mp hindirect
      have hmem : (CidCrate.toBytes a, PinType.indirect) ∈ pinTypes m :=
        List.mem_map.mpr ⟨⟨CidCrate.toBytes a, info⟩, AList.mem_lookup_iff.mp hinfo, by rw [htype]⟩
      rw [htypes, List.mem_singleton] at hmem
      cases (Prod.mk.inj hmem).2
    rw [followed_eq hnone]
    exact hb

/-- With the third unpinned it is deleted. -/
theorem not_collect_safe :
    ¬ ∀ (calls : List PinManager.Call) (m : PinManager) (links : Cid → List Cid)
        (linkResolver : LinkResolver) (blocks : MemoryBlockStore), PinManager.run calls = some m →
      (∀ cid l, linkResolver cid = .ok l → l = links cid) →
      Safe Watch.Keeps m links linkResolver blocks := by
  intro h
  have hrun : (PinManager.run (chainCalls ++ [.unpin (chainBlock 3).cid])).map (fun m =>
      ((m.getPinInfo (chainBlock 1).cid).map PinInfo.pinType,
        (collect 9 chainResolver {} Watch.idle m.pins.entries chainBlocks).map
          (fun r => lookup (finalState r) (chainBlock 3).cid)))
      = some (some .recursive, some none) := by decide +kernel
  obtain ⟨m, hm, hpins⟩ := Option.map_eq_some_iff.mp hrun
  obtain ⟨hroot, hgone⟩ := Prod.mk.inj hpins
  obtain ⟨r, hr, hnone⟩ := Option.map_eq_some_iff.mp hgone
  have hreached : m.ReachedRecursively chainLinks (chainBlock 3).cid := by
    have hfirst : (chainBlock 2).cid ∈ chainLinks (chainBlock 1).cid := by decide +kernel
    have hsecond : (chainBlock 3).cid ∈ chainLinks (chainBlock 2).cid := by decide +kernel
    refine ⟨(chainBlock 1).cid, hroot, ?_⟩
    generalize (chainBlock 2).cid = second at hfirst hsecond
    exact .tail (.single hfirst) hsecond
  have hresolves : ∀ cid l, chainResolver cid = .ok l → l = chainLinks cid :=
    fun cid l hl => (Except.ok.inj hl).symm
  have hsafe : Safe Watch.Keeps m chainLinks chainResolver chainBlocks :=
    h _ m chainLinks chainResolver chainBlocks hm hresolves
  have hkept := hsafe MemoryBlockStore chainBlocks rfl m.pins.entries (List.Perm.refl _) 9 {}
    Watch.idle r (fun _ h => h) hr (chainBlock 3).cid (.inr hreached)
  rw [hnone] at hkept
  exact absurd hkept (by decide +kernel)

end Ipfrs.Storage
