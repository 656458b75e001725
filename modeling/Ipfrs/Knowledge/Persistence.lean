/-
Ipfrs.Knowledge.Persistence — a committed graph survives its process.

`Backed` is kept by every put: a hot block is dirty, or the backend holds it as it
is. So after a successful `flush` the backend holds every block of the graph
(`held_of_flush`). Hydrating a head brings back the blocks linked from it
(`Hydrated.follows`), which is the whole graph (`Ipfrs.Knowledge.Closure`), and the
graph that is opened there answers as the one that was committed
(`open_after_flush`).
-/
import Ipfrs.Knowledge.Closure
import Ipfrs.Knowledge.Session

namespace Ipfrs.Knowledge

open Ipfrs.Core Ipfrs.Lib Ipfrs.Lib.Worklist
open BlockStore.Faithful (history)
open ColdStore.Faithful (lookup)
open KnowledgeGraph

/-! ## Flushing -/

section

variable {C : Type} [ColdStore C] [ColdStore.Faithful C]

/-- Every hot block is dirty or held by the backend. -/
def Backed (s : TieredStore C) : Prop :=
  ∀ b ∈ s.hot.blocks, b.cid ∈ s.dirty ∨ lookup s.cold b.cid = some b.data

theorem backed_new (cold : C) : Backed (TieredStore.new cold) := by
  intro b hb
  cases hb

theorem putClosed_backed : PutClosed (Backed : TieredStore C → Prop) := by
  intro s cid bytes h b hb
  rcases List.mem_cons.mp hb with rfl | hb
  · exact .inl List.mem_insert_self
  · exact (h b hb).imp_left List.mem_insert_of_mem

/-- One dirty block is written to the backend. -/
theorem flushOne_ok {cid : Cid} {s s' : TieredStore C} (h : flushOne cid s = .ok () s') :
    s'.hot = s.hot ∧ ∀ c, lookup s'.cold c =
      (if c = cid then BlockStore.get s.hot c else none).or (lookup s.cold c) := by
  unfold flushOne at h
  cases hget : BlockStore.get s.hot cid with
  | none =>
    simp only [hget] at h
    cases h
    refine ⟨rfl, ?_⟩
    intro c
    split
    · next hc => rw [hc, hget, Option.none_or]
    · rw [Option.none_or]
  | some bytes =>
    simp only [hget] at h
    cases hput : ColdStore.put { cid, data := bytes } s.cold with
    | ok u cold =>
      simp only [hput] at h
      cases h
      refine ⟨rfl, ?_⟩
      intro c
      show lookup cold c = _
      rw [ColdStore.Faithful.put_ok hput]
      by_cases hc : c = cid
      · subst hc
        simp [hget]
      · simp [hc]
    | error e cold =>
      simp only [hput] at h
      cases h

/-- A successful `flush` writes the hot blocks under its CIDs and nothing else. -/
theorem flush_ok (cids : List Cid) : ∀ {s s' : TieredStore C}, flush cids s = .ok () s' →
    s'.hot = s.hot ∧ ∀ c, lookup s'.cold c =
      (if c ∈ cids then BlockStore.get s.hot c else none).or (lookup s.cold c) := by
  induction cids with
  | nil =>
    intro s s' h
    cases h
    exact ⟨rfl, by simp⟩
  | cons cid cids ih =>
    intro s s' h
    obtain ⟨_, s₁, hone, hrest⟩ := run_bind_eq_ok h
    obtain ⟨hhot₁, hcold₁⟩ := flushOne_ok hone
    obtain ⟨hhot, hcold⟩ := ih hrest
    refine ⟨hhot.trans hhot₁, ?_⟩
    intro c
    rw [hcold c, hcold₁ c, hhot₁]
    by_cases hc : c = cid
    · subst hc
      -- a CID met again is written again with the same bytes
      have hidem : ∀ x y : Option (List UInt8), x.or (x.or y) = x.or y := by
        rintro (_ | x) y <;> rfl
      by_cases hmem : c ∈ cids
      · simp [hmem, hidem]
      · simp [hmem]
    · simp [hc]

/-- After `flush` the backend holds every hot block. -/
theorem held_of_flush {cids : List Cid} {s s' : TieredStore C} (hfree : CollisionFree s.hot.blocks)
    (hbacked : Backed s) (hall : ∀ cid ∈ s.dirty, cid ∈ cids) (h : flush cids s = .ok () s')
    {b : Block} (hb : b ∈ s.hot.blocks) : lookup s'.cold b.cid = some b.data := by
  rw [(flush_ok cids h).2]
  have hget : BlockStore.get s.hot b.cid = some b.data := (get_eq_some_iff hfree).mpr hb
  by_cases hmem : b.cid ∈ cids
  · rw [if_pos hmem, hget]
    rfl
  · rw [if_neg hmem, Option.none_or]
    exact (hbacked b hb).resolve_left (fun hdirty => hmem (hall _ hdirty))

/-- The blocks a backend holds fit in memory. -/
def Fits (cold : C) : Prop := ∀ cid data, lookup cold cid = some data → data.length < 2 ^ 64

theorem putClosed_fits : PutClosed (fun s : TieredStore C => Fits s.cold) := by
  intro s cid bytes h
  exact h

theorem fits_of_flush {cids : List Cid} {s s' : TieredStore C} (hs : Sound s.hot.blocks)
    (hfits : Fits s.cold) (h : flush cids s = .ok () s') : Fits s'.cold := by
  intro cid data hdata
  rw [(flush_ok cids h).2, Option.or_eq_some_iff] at hdata
  rcases hdata with hhot | ⟨_, hcold⟩
  · split at hhot
    · exact hs.sized _ ((get_eq_some_iff hs.free).mp hhot)
    · cases hhot
  · exact hfits cid data hcold

/-! ## Hydrating -/

variable [CidCrate] {cold : C} {root : Cid} {s : TieredStore C}

/-- Into a fresh hot tier come blocks of the backend only. -/
theorem Hydrated.held (h : Hydrated (TieredStore.new cold) root s) {b : Block}
    (hb : b ∈ s.hot.blocks) : lookup cold b.cid = some b.data :=
  (h.blocks b hb).resolve_left (fun hnil => by cases hnil)

theorem Hydrated.free (h : Hydrated (TieredStore.new cold) root s) :
    CollisionFree s.hot.blocks := by
  intro b hb b' hb' hcid
  have hdata := h.held hb
  rw [hcid, h.held hb'] at hdata
  exact (Option.some.inj hdata).symm

theorem Hydrated.sound (h : Hydrated (TieredStore.new cold) root s) (hfits : Fits cold) :
    Sound s.hot.blocks :=
  ⟨h.free, fun _ hb => hfits _ _ (h.held hb)⟩

/-- A block that the backend holds and the search reaches is hot. -/
theorem Hydrated.mem (h : Hydrated (TieredStore.new cold) root s) {b : Block}
    (hheld : lookup cold b.cid = some b.data)
    (hreach : Reach (warmLinks (TieredStore.new cold).hot (lookup cold)) [root] b.cid) :
    b ∈ s.hot.blocks := by
  have hhas : BlockStore.has s.hot b.cid := by
    refine (h.hot b.cid).mpr (.inr ⟨hreach, ?_⟩)
    show (lookup cold b.cid).isSome = true
    rw [hheld]
    rfl
  obtain ⟨data, hdata⟩ := Option.isSome_iff_exists.mp hhas
  have hmem : { cid := b.cid, data } ∈ s.hot.blocks :=
    (get_eq_some_iff (S := MemStore) h.free).mp hdata
  have hsame := h.held hmem
  rw [hheld] at hsame
  cases hsame
  exact hmem

/-- A hot block was reached. -/
theorem Hydrated.reach (h : Hydrated (TieredStore.new cold) root s) {b : Block}
    (hb : b ∈ s.hot.blocks) :
    Reach (warmLinks (TieredStore.new cold).hot (lookup cold)) [root] b.cid := by
  have hhas : BlockStore.has s.hot b.cid := by
    rw [BlockStore.has, (get_eq_some_iff (S := MemStore) h.free).mpr hb]
    rfl
  rcases (h.hot b.cid).mp hhas with hnil | hreach
  · cases hnil
  · exact hreach.1

/-- The blocks of a flushed graph are followed from the root. -/
theorem Hydrated.follows (h : Hydrated (TieredStore.new cold) root s) {blocks : List Block}
    (hheld : ∀ b ∈ blocks, lookup cold b.cid = some b.data) : Follows blocks s.hot.blocks := by
  intro b hb b' hb' hlink
  refine h.mem (hheld b' hb') ((h.reach hb).step ?_)
  have hcold : ¬ BlockStore.has (TieredStore.new cold).hot b.cid := by
    intro hnil
    cases hnil
  rw [warmLinks_of_cold hcold, heldLinks_of_held (h.held hb)]
  exact hlink

end

/-! ## The graph -/

section

variable {S : Type} [CidCrate] [BlockStore S]

/-- Two graphs answer every read alike. -/
structure SameAnswers (kg kg' : KnowledgeGraph S) : Prop where
  entityIds : ∃ ids n, ∀ rounds ≥ n,
    kg.entityIds rounds = some (.ok ids) ∧ kg'.entityIds rounds = some (.ok ids)
  getEntity : ∀ id, kg'.getEntity id = kg.getEntity id
  relationsOf : ∀ id, kg'.relationsOf id = kg.relationsOf id
  vindex : kg'.vindex = kg.vindex

variable [BlockStore.Faithful S] [CidCrate.Lawful] [RustText]

/-- Graphs over the same model and index answer alike. -/
theorem sameAnswers_of_refines {kg kg' : KnowledgeGraph S} {a : GraphModel} (hs : Sound kg.log)
    (hs' : Sound kg'.log) (hr : Refines kg.log kg.index kg.edges a)
    (hr' : Refines kg'.log kg'.index kg'.edges a) (hvindex : kg'.vindex = kg.vindex) :
    SameAnswers kg kg' where
  entityIds := by
    obtain ⟨l, _, hleaves⟩ := Hamt.entries_of_represents (S := S) hr.index
    obtain ⟨n, hn⟩ := hleaves kg.store kg.index hs.free hr.index
    obtain ⟨n', hn'⟩ := hleaves kg'.store kg'.index hs'.free hr'.index
    refine ⟨l.map Prod.fst, max n n', ?_⟩
    intro rounds hrounds
    have hentries : Hamt.entries rounds kg.store kg.index = some (.ok l) :=
      Loop.run_mono hn (le_trans (le_max_left n n') hrounds)
    have hentries' : Hamt.entries rounds kg'.store kg'.index = some (.ok l) :=
      Loop.run_mono hn' (le_trans (le_max_right n n') hrounds)
    rw [KnowledgeGraph.entityIds, KnowledgeGraph.entityIds, hentries, hentries']
    exact ⟨rfl, rfl⟩
  getEntity id := by rw [getEntity_eq hs hr, getEntity_eq hs' hr']
  relationsOf id := by rw [relationsOf_eq hs hr, relationsOf_eq hs' hr']
  vindex := hvindex

/-- A graph that was just committed, after any calls. -/
theorem committed_after_calls {s₀ : S} {kg₀ kg : KnowledgeGraph S} (hnew : new s₀ = .ok kg₀)
    {ops : List Op} {head : Cid} (hcommit : commit (applyAll ops kg₀) = .ok head kg)
    (hs : Sound kg.log) : ∃ a, kg.vindex.DimOk ∧ Committed kg.log head kg.index kg.edges kg.vindex ∧
      Refines kg.log kg.index kg.edges a := by
  obtain ⟨head', s, hcommit', hc, hsub⟩ := commit_spec (applyAll ops kg₀)
  obtain ⟨rfl, rfl⟩ := EStateM.Result.ok.inj (hcommit.symm.trans hcommit')
  obtain ⟨kg₀', hnew', hvindex, hr₀⟩ := new_spec s₀
  obtain rfl : kg₀ = kg₀' := Except.ok.inj (hnew.symm.trans hnew')
  obtain ⟨a, hr, hdim⟩ := applyAll_refines ops (hs.mono hsub) hr₀
  refine ⟨a, ?_, hc, hr.mono hsub⟩
  show (applyAll ops kg₀).vindex.DimOk
  rw [VectorIndex.DimOk, hdim, hvindex]
  decide

omit [BlockStore.Faithful S] [CidCrate.Lawful] [RustText] in
theorem new_keeps {I : S → Prop} (hI : PutClosed I) {s₀ : S} {kg : KnowledgeGraph S}
    (h : new s₀ = .ok kg) (h₀ : I s₀) : I kg.store := by
  have hkeeps : Keeps I (do
      let index ← Hamt.empty
      let edges ← Hamt.empty
      pure (index, edges) : EStateM KError S (Cid × Cid)) :=
    Keeps.bind (putEncoded_keeps hI _) (fun _ =>
      Keeps.bind (putEncoded_keeps hI _) (fun _ => Keeps.pure _))
  have hfinal := hkeeps s₀ h₀
  unfold new at h
  split at h
  · next index edges store hrun =>
    cases h
    rw [hrun] at hfinal
    exact hfinal
  · cases h

end

section

variable [CidCrate] [CidCrate.Lawful] [RustText] {C : Type} [ColdStore C] [ColdStore.Faithful C]

/-- A head of a flushed graph, hydrated elsewhere, opens as the graph that was
committed. -/
theorem openHead_of_hydrated {cold : C} (hfits : Fits cold) {blocks : List Block}
    (hs : Sound blocks) (hheld : ∀ b ∈ blocks, lookup cold b.cid = some b.data)
    {head index edges : Cid} {ix : VectorIndex} {a : GraphModel} (hdim : ix.DimOk)
    (hc : Committed blocks head index edges ix) (hr : Refines blocks index edges a)
    {s : TieredStore C} (hhyd : Hydrated (TieredStore.new cold) head s) :
    Sound (history s) ∧ Refines (history s) index edges a ∧
      openHead s head = .ok { store := s, index, edges, prev := some head, vindex := ix } := by
  have hfollows := hhyd.follows hheld
  have hhead : Takes blocks s.hot.blocks [head] := by
    intro b hb hcid
    exact hhyd.mem (hheld b hb) (.root hcid)
  obtain ⟨hc', hindex, hedges⟩ := hc.follow hfollows hs hhead
  have hs' : Sound (history s) := hhyd.sound hfits
  exact ⟨hs', hr.follow hfollows hs hindex hedges, openHead_of_committed hs' hdim hc'⟩

/-- **Persistence.** After any calls, a commit, any further calls and a `flush` that
succeeds, hydrating the head into a fresh store over the same backend returns, and
fails only where the backend does. When it succeeds the head opens, as a graph that
answers like the one that was committed. -/
theorem open_after_flush {cold : C} (hfits : Fits cold) {kg₀ kg : KnowledgeGraph (TieredStore C)}
    (hnew : new (TieredStore.new cold) = .ok kg₀) (before after : List Op) {head : Cid}
    (hcommit : commit (applyAll before kg₀) = .ok head kg) {order : List Cid}
    (horder : order.Perm (applyAll after kg).store.dirty) {ts : TieredStore C}
    (hflush : flush order (applyAll after kg).store = .ok () ts)
    (hs : Sound (applyAll after kg).log) :
    ∃ n, ∀ rounds ≥ n, ∃ r, hydrate rounds head (TieredStore.new ts.cold) = some r ∧
      match r with
      | .ok _ s => ∃ kg', openHead s head = .ok kg' ∧ SameAnswers kg kg'
      | .error e _ =>
        ∃ err cid, ∃ c c' : C, e = .core err ∧ ColdStore.get cid c = .error err c' := by
  -- whatever puts keep has been kept up to the flush
  have hkept : ∀ {I : TieredStore C → Prop}, PutClosed I → I (TieredStore.new cold) →
      I (applyAll after kg).store := by
    intro I hI h
    have hcommitted := commit_keeps hI _ (applyAll_keeps hI before (new_keeps hI hnew h))
    rw [hcommit] at hcommitted
    exact applyAll_keeps hI after hcommitted
  -- the graph at the commit
  have hlater := log_subset_applyAll after kg
  obtain ⟨a, hdim, hc, hr⟩ := committed_after_calls hnew hcommit (hs.mono hlater)
  -- the backend after the flush
  have hheld := fun b hb => held_of_flush hs.free (hkept putClosed_backed (backed_new cold))
    (fun _ hcid => horder.mem_iff.mpr hcid) hflush (b := b) hb
  have hfits' := fits_of_flush hs (hkept putClosed_fits hfits) hflush
  obtain ⟨n, hn⟩ := hydrate_returns (TieredStore.new ts.cold) head
  refine ⟨n, ?_⟩
  intro rounds hrounds
  obtain ⟨r, hrun⟩ := hn rounds hrounds
  refine ⟨r, hrun, ?_⟩
  cases r with
  | ok fetched s' =>
    obtain ⟨hs', hr', hopen⟩ := openHead_of_hydrated hfits' hs hheld hdim (hc.mono hlater)
      (hr.mono hlater) (hydrate_ok hrun)
    exact ⟨_, hopen, sameAnswers_of_refines (hs.mono hlater) hs' hr hr' rfl⟩
  | error e s' => exact hydrate_error hrun

end

open scoped CidFormat AsciiText

/-- One entity, related to itself. -/
def samplePersisted : List Op :=
  [.addEntity { kind := "p", name := "Ada" },
    .addRelation (.of "p" "Ada") "is" (.of "p" "Ada") F32.one []]

theorem open_after_flush_sample :
    ∃ kg₀ head kg ts, new (TieredStore.new ({} : MemoryBlockStore)) = .ok kg₀ ∧
      commit (applyAll samplePersisted kg₀) = .ok head kg ∧
      flush kg.store.dirty kg.store = .ok () ts ∧ Sound kg.log ∧
      ∃ rounds fetched s kg', hydrate rounds head (TieredStore.new ts.cold) = some (.ok fetched s) ∧
        openHead s head = .ok kg' ∧ SameAnswers kg kg' := by
  have hrun : (match new (TieredStore.new ({} : MemoryBlockStore)) with
      | .error _ => false
      | .ok kg₀ =>
        match commit (applyAll samplePersisted kg₀) with
        | .error _ _ => false
        | .ok _ kg =>
          match flush kg.store.dirty kg.store with
          | .error _ _ => false
          | .ok () _ => decide (Sound kg.log)) = true := by decide +kernel
  split at hrun
  · cases hrun
  next kg₀ hnew =>
  split at hrun
  · cases hrun
  next head kg hcommit =>
  split at hrun
  · cases hrun
  next ts hflush =>
  have hs := of_decide_eq_true hrun
  have hfits : Fits ({} : MemoryBlockStore) := by
    intro cid data hdata
    cases hdata
  obtain ⟨n, hn⟩ := open_after_flush hfits hnew samplePersisted [] hcommit (List.Perm.refl _)
    hflush hs
  obtain ⟨r, hhydrate, hr⟩ := hn n le_rfl
  cases r with
  | ok fetched s =>
    obtain ⟨kg', hopen, hsame⟩ := hr
    exact ⟨kg₀, head, kg, ts, hnew, hcommit, hflush, hs, n, fetched, s, kg', hhydrate, hopen,
      hsame⟩
  | error e s =>
    -- this backend never fails
    obtain ⟨err, cid, c, c', _, hget⟩ := hr
    cases hget

end Ipfrs.Knowledge
