/-
Ipfrs.Knowledge.TieredTheorems — what `hydrate` brings into the hot tier.

The loop is a search (`Ipfrs.Lib.Worklist`) over the links of the blocks the
backend holds, except that it takes no links from a block that was hot before:
`warmLinks` is the graph it really searches. `hydrate_ok` says what is hot
afterwards. A block that was hot already hides what is linked only from there, and
`hydrate_closure_iff` says when nothing is hidden.
-/
import Ipfrs.Knowledge.Tiered
import Ipfrs.Lib.Worklist
import Ipfrs.Core.DagCborTheorems

namespace Ipfrs.Knowledge

open Ipfrs.Core Ipfrs.Lib Ipfrs.Lib.Worklist
open ColdStore.Faithful (lookup support)

/-! ## Links -/

theorem mem_collectLinksList {skipPrev : Bool} {items : List Ipld} {c : Cid} :
    c ∈ collectLinksList skipPrev items ↔ ∃ v ∈ items, c ∈ collectLinksFiltered skipPrev v := by
  induction items with
  | nil => simp [collectLinksList]
  | cons v rest ih => simp [collectLinksList, ih]

theorem mem_collectLinksMap {skipPrev : Bool} {entries : List (String × Ipld)} {c : Cid} :
    c ∈ collectLinksMap skipPrev entries ↔
      ∃ e ∈ entries, ¬ (skipPrev = true ∧ e.1 = "prev") ∧
        c ∈ collectLinksFiltered skipPrev e.2 := by
  induction entries with
  | nil => simp [collectLinksMap]
  | cons e rest ih =>
    obtain ⟨k, v⟩ := e
    rw [collectLinksMap, List.mem_append, ih]
    by_cases hk : skipPrev = true ∧ k = "prev"
    · simp [hk.1, hk.2]
    · have hcond : ¬ (skipPrev && k == "prev") = true := by simpa using hk
      rw [if_neg hcond]
      simp only [List.mem_cons, exists_eq_or_imp, hk, not_false_eq_true, true_and]

section

variable [CidCrate]

/-- The links of the block held under an identifier. -/
def heldLinks (collect : Ipld → List Cid) (held : Cid → Option (List UInt8)) (cid : Cid) :
    List Cid :=
  match held cid with
  | some data => blockLinks collect data
  | none => []

theorem heldLinks_of_held {collect : Ipld → List Cid} {held : Cid → Option (List UInt8)}
    {cid : Cid} {data : List UInt8} (h : held cid = some data) :
    heldLinks collect held cid = blockLinks collect data := by
  rw [heldLinks, h]

theorem held_of_mem_heldLinks {collect : Ipld → List Cid} {held : Cid → Option (List UInt8)}
    {a b : Cid} (h : b ∈ heldLinks collect held a) : (held a).isSome := by
  unfold heldLinks at h
  split at h
  · next data hdata => rw [hdata]; rfl
  · cases h

/-- The links `hydrate` follows: none from a block that is hot. -/
def warmLinks (hot : MemStore) (held : Cid → Option (List UInt8)) (cid : Cid) : List Cid :=
  if BlockStore.has hot cid then [] else heldLinks collectLinks held cid

theorem warmLinks_of_cold {hot : MemStore} {held : Cid → Option (List UInt8)} {cid : Cid}
    (h : ¬ BlockStore.has hot cid) : warmLinks hot held cid = heldLinks collectLinks held cid :=
  if_neg h

end

theorem has_put (hot : MemStore) (cid cid' : Cid) (data : List UInt8) :
    BlockStore.has (BlockStore.put hot cid data) cid' ↔ cid' = cid ∨ BlockStore.has hot cid' := by
  by_cases h : cid' = cid
  · subst h
    simp [BlockStore.has, BlockStore.put, BlockStore.get]
  · simp [BlockStore.has, BlockStore.put, BlockStore.get, h, Ne.symm h]

/-! ## One round -/

section

variable {C : Type} [ColdStore C] [CidCrate]

/-- What a round that goes on does. -/
theorem hydrateBody_again {st st' : HydrateState C} (h : hydrateBody st = .inl st') :
    ∃ cid frontier, st.frontier = cid :: frontier ∧
      ((cid ∈ st.seen ∧ st' = { st with frontier }) ∨
        cid ∉ st.seen ∧
          ((BlockStore.has st.store.hot cid ∧
              st' = { st with frontier, seen := cid :: st.seen }) ∨
            ¬ BlockStore.has st.store.hot cid ∧ ∃ r cold,
              ColdStore.get cid st.store.cold = .ok r cold ∧
              ((r = none ∧ st' = { st with frontier, seen := cid :: st.seen,
                                            store := { st.store with cold } }) ∨
                ∃ block, r = some block ∧ st' =
                  { seen := cid :: st.seen
                    frontier := (blockLinks collectLinks block.data).reverse ++ frontier
                    fetched := st.fetched + 1
                    store := { st.store with
                      hot := BlockStore.put st.store.hot cid block.data, cold } }))) := by
  unfold hydrateBody at h
  split at h
  · cases h
  · next cid frontier hfrontier =>
    refine ⟨cid, frontier, hfrontier, ?_⟩
    split at h
    · next hseen =>
      cases h
      exact .inl ⟨hseen, rfl⟩
    · next hseen =>
      refine .inr ⟨hseen, ?_⟩
      split at h
      · next hhot =>
        cases h
        exact .inl ⟨hhot, rfl⟩
      · next hhot =>
        refine .inr ⟨hhot, ?_⟩
        split at h
        · cases h
        · next cold hget =>
          cases h
          exact ⟨none, cold, hget, .inl ⟨rfl, rfl⟩⟩
        · next block cold hget =>
          cases h
          exact ⟨some block, cold, hget, .inr ⟨block, rfl, rfl⟩⟩

/-- What a round that leaves the loop returns. -/
theorem hydrateBody_leave {st : HydrateState C} {r : EStateM.Result KError (TieredStore C) Nat}
    (h : hydrateBody st = .inr r) : (st.frontier = [] ∧ r = .ok st.fetched st.store) ∨
      ∃ cid e cold, ColdStore.get cid st.store.cold = .error e cold ∧
        r = .error (.core e) { st.store with cold } := by
  unfold hydrateBody at h
  split at h
  · next hfrontier =>
    cases h
    exact .inl ⟨hfrontier, rfl⟩
  · next cid frontier _ =>
    split at h
    · cases h
    · split at h
      · cases h
      · split at h
        · next e cold hget =>
          cases h
          exact .inr ⟨cid, e, cold, hget, rfl⟩
        · cases h
        · cases h

end

/-! ## The loop -/

section

variable {C : Type} [ColdStore C] [ColdStore.Faithful C] [CidCrate]

/-- What the loop keeps, from a store `s` and a root. -/
structure HydrateInv (s : TieredStore C) (root : Cid) (st : HydrateState C) : Prop where
  search : Inv (warmLinks s.hot (lookup s.cold)) [root] st.seen st.frontier
  cold : lookup st.store.cold = lookup s.cold
  dirty : st.store.dirty = s.dirty
  blocks : ∀ b ∈ st.store.hot.blocks, b ∈ s.hot.blocks ∨ lookup s.cold b.cid = some b.data
  hot : ∀ cid, BlockStore.has st.store.hot cid ↔
    BlockStore.has s.hot cid ∨ (cid ∈ st.seen ∧ (lookup s.cold cid).isSome)

theorem hydrateInv_init (s : TieredStore C) (root : Cid) :
    HydrateInv s root { frontier := [root], store := s } where
  search := .init (fun _ => Iff.rfl)
  cold := rfl
  dirty := rfl
  blocks b hb := .inl hb
  hot cid := by simp

/-- A block hot in the loop and not seen was hot before. -/
theorem HydrateInv.was_hot {s : TieredStore C} {root cid : Cid} {st : HydrateState C}
    (h : HydrateInv s root st) (hseen : cid ∉ st.seen) :
    BlockStore.has st.store.hot cid ↔ BlockStore.has s.hot cid := by
  rw [h.hot cid]
  simp [hseen]

/-- Each round keeps the invariant and lowers the measure. -/
theorem HydrateInv.step {s : TieredStore C} {root : Cid} {st st' : HydrateState C}
    (h : HydrateInv s root st) (hb : hydrateBody st = .inl st') : HydrateInv s root st' ∧
      pending (warmLinks s.hot (lookup s.cold)) (support s.cold) st'.seen st'.frontier
        < pending (warmLinks s.hot (lookup s.cold)) (support s.cold) st.seen st.frontier := by
  obtain ⟨cid, rest, hfrontier, hcases⟩ := hydrateBody_again hb
  have hsearch := h.search
  rw [hfrontier] at hsearch ⊢
  rcases hcases with ⟨hseen, rfl⟩ | ⟨hseen, ⟨hhot, rfl⟩ | ⟨hhot, r, cold, hget, hcases⟩⟩
  · exact ⟨⟨hsearch.skip hseen, h.cold, h.dirty, h.blocks, h.hot⟩, pending_skip _⟩
  · -- a hot block is seen, and its links are not followed
    have hwas := (h.was_hot hseen).mp hhot
    have hnone : warmLinks s.hot (lookup s.cold) cid = [] := if_pos hwas
    refine ⟨⟨hsearch.visit (by simp [hnone]), h.cold, h.dirty, h.blocks, ?_⟩,
      pending_visit hseen (fun _ => hnone) (by simp [hnone])⟩
    intro cid'
    rw [h.hot cid']
    by_cases hc : cid' = cid
    · subst hc
      simp [hwas]
    · simp [hc]
  · have hwas : ¬ BlockStore.has s.hot cid := fun hc => hhot ((h.was_hot hseen).mpr hc)
    obtain ⟨hdata, hcold⟩ := ColdStore.Faithful.get_ok hget
    rw [h.cold] at hdata hcold
    rcases hcases with ⟨rfl, rfl⟩ | ⟨block, rfl, rfl⟩
    · have hnone : warmLinks s.hot (lookup s.cold) cid = [] := by
        rw [warmLinks_of_cold hwas, heldLinks, ← hdata]
        rfl
      refine ⟨⟨hsearch.visit (by simp [hnone]), hcold, h.dirty, h.blocks, ?_⟩,
        pending_visit hseen (fun _ => hnone) (by simp [hnone])⟩
      intro cid'
      rw [h.hot cid']
      by_cases hc : cid' = cid
      · subst hc
        simp [← hdata]
      · simp [hc]
    · have hlinks : warmLinks s.hot (lookup s.cold) cid
          = blockLinks collectLinks block.data := by
        rw [warmLinks_of_cold hwas, heldLinks, ← hdata]
        rfl
      refine ⟨⟨hsearch.visit ?_, hcold, h.dirty, ?_, ?_⟩, pending_visit hseen ?_ ?_⟩
      · intro y
        rw [hlinks, List.mem_append, List.mem_reverse]
      · intro b hmem
        rcases List.mem_cons.mp hmem with rfl | hmem
        · exact .inr hdata.symm
        · exact h.blocks b hmem
      · intro cid'
        rw [has_put, h.hot cid']
        by_cases hc : cid' = cid
        · subst hc
          simp [← hdata]
        · simp [hc]
      · intro hsupport
        have hheld : lookup s.cold cid = some block.data := hdata.symm
        exact absurd (ColdStore.Faithful.mem_support hheld) hsupport
      · rw [hlinks]
        simp

/-- The loop is left. -/
theorem hydrate_returns (s : TieredStore C) (root : Cid) :
    ∃ n, ∀ rounds ≥ n, ∃ r, hydrate rounds root s = some r := by
  obtain ⟨r, hr⟩ := Loop.run_of_measure (HydrateInv s root)
    (fun st => pending (warmLinks s.hot (lookup s.cold)) (support s.cold) st.seen st.frontier)
    (fun _ _ h hb => h.step hb) _ (hydrateInv_init s root) (Nat.le_refl _)
  exact ⟨_, fun rounds hrounds => ⟨r, Loop.run_mono hr hrounds⟩⟩

/-- What a successful `hydrate` leaves. -/
structure Hydrated (s : TieredStore C) (root : Cid) (s' : TieredStore C) : Prop where
  cold : lookup s'.cold = lookup s.cold
  dirty : s'.dirty = s.dirty
  blocks : ∀ b ∈ s'.hot.blocks, b ∈ s.hot.blocks ∨ lookup s.cold b.cid = some b.data
  hot : ∀ cid, BlockStore.has s'.hot cid ↔ BlockStore.has s.hot cid ∨
    (Reach (warmLinks s.hot (lookup s.cold)) [root] cid ∧ (lookup s.cold cid).isSome)

theorem hydrate_ok {rounds n : Nat} {s s' : TieredStore C} {root : Cid}
    (h : hydrate rounds root s = some (.ok n s')) : Hydrated s root s' := by
  obtain ⟨st, hinv, hleave⟩ := Loop.run_inv (fun _ _ hinv hb => (HydrateInv.step hinv hb).1)
    (hydrateInv_init s root) h
  rcases hydrateBody_leave hleave with ⟨hfrontier, hr⟩ | ⟨cid, e, cold, _, hr⟩
  · cases hr
    have hsearch := hinv.search
    rw [hfrontier] at hsearch
    refine ⟨hinv.cold, hinv.dirty, hinv.blocks, ?_⟩
    intro cid
    rw [hinv.hot cid, hsearch.done]
  · cases hr

/-- `hydrate` fails only where the backend does. -/
theorem hydrate_error {rounds : Nat} {s s' : TieredStore C} {root : Cid} {e : KError}
    (h : hydrate rounds root s = some (.error e s')) :
    ∃ err cid, ∃ c c' : C, e = .core err ∧ ColdStore.get cid c = .error err c' := by
  obtain ⟨st, _, hleave⟩ := Loop.run_inv (fun _ _ hinv hb => (HydrateInv.step hinv hb).1)
    (hydrateInv_init s root) h
  rcases hydrateBody_leave hleave with ⟨_, hr⟩ | ⟨cid, err, cold, hget, hr⟩
  · cases hr
  · cases hr
    exact ⟨err, cid, st.store.cold, cold, rfl, hget⟩

/-! ## The closure of a root -/

/-- Every block reachable from the root through the blocks the backend holds is in
the hot tier `hot`. -/
def ClosureHot (s : TieredStore C) (root : Cid) (hot : MemStore) : Prop :=
  ∀ cid, Reach (heldLinks collectLinks (lookup s.cold)) [root] cid →
    (lookup s.cold cid).isSome → BlockStore.has hot cid

/-- A block linked from a reachable hot block, held and not hot itself, is also
reached along blocks that are not hot. -/
def NothingHidden (s : TieredStore C) (root : Cid) : Prop :=
  ∀ a b, Reach (heldLinks collectLinks (lookup s.cold)) [root] a → BlockStore.has s.hot a →
    b ∈ heldLinks collectLinks (lookup s.cold) a → (lookup s.cold b).isSome →
    ¬ BlockStore.has s.hot b → Reach (warmLinks s.hot (lookup s.cold)) [root] b

/-- Where nothing is hidden, the search stopped at no block it needed. -/
theorem NothingHidden.reach {s : TieredStore C} {root : Cid} (hh : NothingHidden s root)
    {cid : Cid} (hreach : Reach (heldLinks collectLinks (lookup s.cold)) [root] cid) :
    (lookup s.cold cid).isSome → ¬ BlockStore.has s.hot cid →
      Reach (warmLinks s.hot (lookup s.cold)) [root] cid := by
  refine Reach.rule (P := fun cid => (lookup s.cold cid).isSome → ¬ BlockStore.has s.hot cid →
    Reach (warmLinks s.hot (lookup s.cold)) [root] cid) ?_ ?_ hreach
  · intro r hr _ _
    exact .root hr
  · intro a b hreach ih hb hheld hcold
    by_cases hhot : BlockStore.has s.hot a
    · exact hh a b hreach hhot hb hheld hcold
    · refine (ih (held_of_mem_heldLinks hb) hhot).step ?_
      rw [warmLinks_of_cold hhot]
      exact hb

/-- A fresh hot tier hides nothing. -/
theorem nothingHidden_new (cold : C) (root : Cid) : NothingHidden (TieredStore.new cold) root := by
  intro a b _ hhot
  cases hhot

/-- **Hydration.** `hydrate` returns. When it succeeds, the closure of the root is
hot exactly if no block that was hot before hid a part of it. -/
theorem hydrate_closure_iff (s : TieredStore C) (root : Cid) :
    (∃ n, ∀ rounds ≥ n, ∃ r, hydrate rounds root s = some r) ∧
      ∀ rounds n s', hydrate rounds root s = some (.ok n s') →
        (ClosureHot s root s'.hot ↔ NothingHidden s root) := by
  refine ⟨hydrate_returns s root, ?_⟩
  intro rounds n s' hrun
  have hdone := hydrate_ok hrun
  constructor
  · intro hclosed a b hreach _ hb hheld hcold
    have hhot := hclosed b (hreach.step hb) hheld
    exact (((hdone.hot b).mp hhot).resolve_left hcold).1
  · intro hhidden cid hreach hheld
    rw [hdone.hot cid]
    by_cases hhot : BlockStore.has s.hot cid
    · exact .inl hhot
    · exact .inr ⟨hhidden.reach hreach hheld hhot, hheld⟩

end

open scoped CidFormat

/-- A block and a block that links to it. -/
def sampleChild : Block := { cid := cidOf codecRaw [1], data := [1] }

def sampleParent : Block :=
  let data := cborBytes (.list [.link sampleChild.cid])
  { cid := cidOf codecDagCbor data, data }

/-- The backend holds both; the parent was also put locally. -/
def sampleTiered : TieredStore MemoryBlockStore :=
  BlockStore.put (TieredStore.new { blocks := [sampleParent, sampleChild] }) sampleParent.cid
    sampleParent.data

theorem sampleChild_held : (lookup sampleTiered.cold sampleChild.cid).isSome := by
  decide +kernel

theorem sampleChild_reach :
    Reach (heldLinks collectLinks (lookup sampleTiered.cold)) [sampleParent.cid]
      sampleChild.cid := by
  have hlink : sampleChild.cid
      ∈ heldLinks collectLinks (lookup sampleTiered.cold) sampleParent.cid := by
    decide +kernel
  exact (Reach.root (List.mem_singleton_self _)).step hlink

/-- From a fresh hot tier the parent brings the child along. -/
theorem hydrate_closure_iff_sample :
    ∃ n s', hydrate 3 sampleParent.cid (TieredStore.new sampleTiered.cold) = some (.ok n s') ∧
      ClosureHot (TieredStore.new sampleTiered.cold) sampleParent.cid s'.hot := by
  have hrun : (match hydrate 3 sampleParent.cid (TieredStore.new sampleTiered.cold) with
      | some (.ok _ _) => true
      | some (.error _ _) => false
      | none => false) = true := by decide +kernel
  split at hrun
  · next n s' hs' =>
    exact ⟨n, s', hs', ((hydrate_closure_iff _ _).2 3 n s' hs').mpr (nothingHidden_new _ _)⟩
  · cases hrun
  · cases hrun

/-- The child stays cold: its parent is hot, so the parent's links are not
followed. -/
theorem hydrate_hides_child : ∃ n s', hydrate 2 sampleParent.cid sampleTiered = some (.ok n s') ∧
      ¬ ClosureHot sampleTiered sampleParent.cid s'.hot := by
  have hrun : (match hydrate 2 sampleParent.cid sampleTiered with
      | some (.ok _ s') => !BlockStore.has s'.hot sampleChild.cid
      | some (.error _ _) => false
      | none => false) = true := by decide +kernel
  split at hrun
  · next n s' hs' =>
    refine ⟨n, s', hs', ?_⟩
    intro hclosed
    rw [hclosed _ sampleChild_reach sampleChild_held] at hrun
    cases hrun
  · cases hrun
  · cases hrun

end Ipfrs.Knowledge
