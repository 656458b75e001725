/-
Ipfrs.Transport.WantListTheorems — the want list is a priority queue with keys.

A heap entry counts as long as the map has its version. `Valid` says that each want has such
an entry with its priority and its age, and each call keeps this: a new priority brings a
new entry with a new version, a removed want leaves one without a want. So the first entry
that counts is the want that is due (`pop_cases`).

A batch is its steps one after the other (`countEach_eq`, `removeBatch_eq`), and the history
of a run is that of its steps.
-/
import Ipfrs.Transport.WantList

namespace Ipfrs.Transport

open Ipfrs.Core

/-- The first goes before the second: its priority is higher, or equal and it is not younger. -/
def WantEntry.Precedes (a b : WantEntry) : Prop :=
  b.priority < a.priority ∨ b.priority = a.priority ∧ a.createdAt ≤ b.createdAt

/-- What of a heap entry decides. -/
def HeapEntry.item (e : HeapEntry) : Lib.Item Cid (Int × Nat) where
  key := e.cid
  rank := (e.priority, e.createdAt)
  version := e.version

namespace WantList

/-- The priority and the age of a want, with its version. -/
def live (w : WantList) (cid : Cid) : Option ((Int × Nat) × Nat) :=
  (w.entries.lookup cid).map fun e => ((e.1.priority, e.1.createdAt), e.2)

structure Valid (w : WantList) : Prop where
  tracks : Lib.Tracks w.live (w.heap.map HeapEntry.item) w.versionCounter
  keyed : ∀ cid entry, w.get cid = some entry → entry.cid = cid
  bounded : w.len ≤ w.config.maxWants

theorem valid_new (config : WantListConfig) : (new config).Valid where
  tracks := Lib.Tracks.empty 0
  keyed _ _ h := by cases h
  bounded := Nat.zero_le _

theorem valid_clear (w : WantList) : w.clear.Valid where
  tracks := Lib.Tracks.empty w.versionCounter
  keyed _ _ h := by cases h
  bounded := Nat.zero_le _

theorem contains_eq {w : WantList} {cid : Cid} : w.contains cid = (w.get cid).isSome := by
  rw [contains, get, Option.isSome_map, Bool.eq_iff_iff, decide_eq_true_iff, AList.lookup_isSome]

theorem isEmpty_iff {w : WantList} : w.isEmpty = true ↔ ∀ cid, w.get cid = none := by
  rw [isEmpty, List.isEmpty_iff, List.eq_nil_iff_forall_not_mem]
  refine forall_congr' fun cid => ?_
  rw [get, Option.map_eq_none_iff, AList.lookup_eq_none, AList.mem_keys]

/-! ## Removal -/

theorem get_remove (w : WantList) (cid : Cid) :
    (w.remove cid).2.get = Function.update w.get cid none := by
  funext c
  unfold remove get
  by_cases hc : c = cid
  · rw [hc, Function.update_self, AList.lookup_erase]
    rfl
  · rw [Function.update_of_ne hc, AList.lookup_erase_ne hc]

theorem live_remove (w : WantList) (cid : Cid) :
    (w.remove cid).2.live = Function.update w.live cid none := by
  funext c
  unfold remove live
  by_cases hc : c = cid
  · rw [hc, Function.update_self, AList.lookup_erase]
    rfl
  · rw [Function.update_of_ne hc, AList.lookup_erase_ne hc]

theorem len_remove_le (w : WantList) (cid : Cid) : (w.remove cid).2.len ≤ w.len := by
  unfold remove len
  rw [AList.keys_erase]
  exact List.length_erase_le

/-- Without a want, and with a heap that does for the others. -/
theorem Valid.remove {w : WantList} (h : w.Valid) (cid : Cid) {heap : List HeapEntry}
    (htracks : Lib.Tracks (Function.update w.live cid none) (heap.map HeapEntry.item)
      w.versionCounter) : ({ w with heap } : WantList).remove cid |>.2.Valid where
  tracks := by
    rw [live_remove]
    exact htracks
  keyed c entry hget := by
    rw [get_remove, Function.update_apply] at hget
    split at hget
    · cases hget
    · exact h.keyed c entry hget
  bounded := Nat.le_trans (len_remove_le _ cid) h.bounded

/-! ## Insertion -/

section

variable (H : Lib.Heap HeapEntry.le)

theorem get_insert (w : WantList) (entry : WantEntry) (cid : Cid) (priority : Int) :
    (w.insert H entry cid priority).get = Function.update w.get cid (some entry) := by
  funext c
  unfold insert get
  by_cases hc : c = cid
  · rw [hc, Function.update_self, AList.lookup_insert]
    rfl
  · rw [Function.update_of_ne hc, AList.lookup_insert_ne hc]

theorem live_insert (w : WantList) (entry : WantEntry) (cid : Cid) :
    (w.insert H entry cid entry.priority).live = Function.update w.live cid
          (some ((entry.priority, entry.createdAt), w.versionCounter + 1)) := by
  funext c
  unfold insert live
  by_cases hc : c = cid
  · rw [hc, Function.update_self, AList.lookup_insert]
    rfl
  · rw [Function.update_of_ne hc, AList.lookup_insert_ne hc]

theorem len_insert (w : WantList) (entry : WantEntry) (cid : Cid) (priority : Int) :
    (w.insert H entry cid priority).len = if w.contains cid then w.len else w.len + 1 := by
  rw [len, insert, AList.keys_insert, List.length_cons, contains]
  by_cases hmem : cid ∈ w.entries
  · have hpos := List.length_pos_of_mem (AList.mem_keys.mp hmem)
    rw [if_pos (decide_eq_true hmem), List.length_erase_of_mem (AList.mem_keys.mp hmem), len]
    omega
  · rw [if_neg (by simpa using hmem), List.erase_of_not_mem (mt AList.mem_keys.mpr hmem), len]

theorem Valid.insert {w : WantList} (h : w.Valid) (entry : WantEntry) {cid : Cid}
    (hkey : entry.cid = cid) (hroom : w.contains cid = true ∨ w.len < w.config.maxWants) :
    (w.insert H entry cid entry.priority).Valid where
  tracks := by
    rw [live_insert]
    exact (h.tracks.put cid (entry.priority, entry.createdAt)).perm
      ((H.push_perm _ w.heap).map HeapEntry.item)
  keyed c e hget := by
    rw [get_insert, Function.update_apply] at hget
    split at hget
    · next hc =>
      cases hget
      exact hkey.trans hc.symm
    · exact h.keyed c e hget
  bounded := by
    have hbounded := h.bounded
    rw [len_insert]
    change _ ≤ w.config.maxWants
    split
    · exact hbounded
    · next hnew => exact hroom.resolve_left hnew

/-! ## The want that is due -/

/-- What `pop` does to the versions and the limits: nothing. -/
theorem pop_frame (w : WantList) :
    (w.pop H).2.config = w.config ∧ (w.pop H).2.versionCounter = w.versionCounter := by
  fun_induction pop H w with
  | case1 w hpop => exact ⟨rfl, rfl⟩
  | case2 w heapEntry rest hpop left entry hlookup => exact ⟨rfl, rfl⟩
  | case3 w heapEntry rest hpop left entry version hlookup hversion ih => exact ih
  | case4 w heapEntry rest hpop left hlookup ih => exact ih

/-- The want whose turn it is, and the wants without it. -/
structure Due (wants : Cid → Option WantEntry) (entry : WantEntry)
    (rest : Cid → Option WantEntry) : Prop where
  wanted : wants entry.cid = some entry
  first : ∀ cid other, wants cid = some other → entry.Precedes other
  without : rest = Function.update wants entry.cid none

/-- An entry that no want has any more may go from the heap. -/
theorem Valid.drop {w : WantList} (h : w.Valid) {heapEntry : HeapEntry} {rest : List HeapEntry}
    (hpop : H.pop w.heap = some (heapEntry, rest))
    (hstale : ∀ r, w.live heapEntry.cid ≠ some (r, heapEntry.version)) :
    ({ w with heap := rest } : WantList).Valid where
  tracks := h.tracks.drop ((H.pop_eq_some hpop).1.map HeapEntry.item) hstale
  keyed := h.keyed
  bounded := h.bounded

/-- **`pop`** finds nothing only in an empty list, and takes what is due otherwise. -/
theorem pop_cases {w : WantList} (h : w.Valid) : (w.pop H).2.Valid ∧
    (((w.pop H).1 = none ∧ (w.pop H).2.get = w.get ∧ ∀ cid, w.get cid = none) ∨
      ∃ entry, (w.pop H).1 = some entry ∧ Due w.get entry (w.pop H).2.get) := by
  fun_induction pop H w with
  | case1 w hpop =>
    refine ⟨h, .inl ⟨rfl, rfl, fun cid => ?_⟩⟩
    have htracks := h.tracks
    rw [H.pop_eq_none hpop] at htracks
    have hnone := htracks.eq_none cid
    rw [live, Option.map_eq_none_iff] at hnone
    rw [get, hnone]
    rfl
  | case2 w heapEntry rest hpop left entry hlookup =>
    obtain ⟨hperm, hgreatest⟩ := H.pop_eq_some hpop
    replace hlookup : w.entries.lookup heapEntry.cid = some (entry, heapEntry.version) := hlookup
    have hget : w.get heapEntry.cid = some entry := by rw [get, hlookup]; rfl
    have hkey := h.keyed _ _ hget
    -- the version is that of the want, so the priority and the age are
    have hrank : (heapEntry.priority, heapEntry.createdAt) = (entry.priority, entry.createdAt) :=
      h.tracks.rank_eq (List.mem_map_of_mem (hperm.mem_iff.mpr List.mem_cons_self))
        (by rw [live, HeapEntry.item, hlookup]; rfl)
    refine ⟨h.remove heapEntry.cid (h.tracks.take (hperm.map HeapEntry.item)), .inr
      ⟨entry, hget, ⟨hkey ▸ hget, fun cid other hother => ?_, hkey ▸ get_remove left _⟩⟩⟩
    obtain ⟨⟨_, v⟩, hlookup', rfl⟩ := Option.map_eq_some_iff.mp hother
    have hbelow : ∀ j ∈ w.heap.map HeapEntry.item, j.rank.1 < heapEntry.item.rank.1
        ∨ j.rank.1 = heapEntry.item.rank.1 ∧ heapEntry.item.rank.2 ≤ j.rank.2 := by
      intro j hj
      obtain ⟨e, he, rfl⟩ := List.mem_map.mp hj
      exact HeapEntry.le_iff.mp (hgreatest e he)
    have hle := h.tracks.greatest (fun a b => a.1 < b.1 ∨ a.1 = b.1 ∧ b.2 ≤ a.2) hbelow
      (by rw [live, hlookup']; rfl)
    obtain ⟨hpriority, hcreated⟩ := Prod.mk.inj hrank
    simp only [HeapEntry.item, hpriority, hcreated] at hle
    exact hle
  | case3 w heapEntry rest hpop left entry version hlookup hversion ih =>
    refine ih (h.drop H hpop fun r hlive => hversion ?_)
    replace hlookup : w.entries.lookup heapEntry.cid = some (entry, version) := hlookup
    rw [live, hlookup] at hlive
    cases hlive
    rfl
  | case4 w heapEntry rest hpop left hlookup ih =>
    refine ih (h.drop H hpop fun r hlive => ?_)
    replace hlookup : w.entries.lookup heapEntry.cid = none := hlookup
    rw [live, hlookup] at hlive
    cases hlive

/-! ## Steps -/

/-- A step that adds no want with a deadline. -/
def Step.Undated : Step → Prop
  | .add _ entry => entry.deadline = none
  | _ => True

instance : (s : Step) → Decidable s.Undated
  | .add _ entry => inferInstanceAs (Decidable (entry.deadline = none))
  | .addSimple _ _ _ | .remove _ | .updatePriority _ _ | .pop | .clear => .isTrue trivial

/-- A want is added if its CID is not wanted yet and there is room. -/
def Adds (full : Prop) (wants : Cid → Option WantEntry) (entry : WantEntry) (answer : Answer)
    (left : Cid → Option WantEntry) : Prop :=
  (answer = .done true ∧ wants entry.cid = none ∧ ¬ full
      ∧ left = Function.update wants entry.cid (some entry))
    ∨ (answer = .done false ∧ (wants entry.cid ≠ none ∨ full) ∧ left = wants)

/-- What a step is to do with the wants, each under its CID. -/
def Step.Means (config : WantListConfig) (full : Prop) (wants : Cid → Option WantEntry) :
    Step → Answer → (Cid → Option WantEntry) → Prop
  | .add _ entry, answer, left => Adds full wants entry answer left
  | .addSimple now cid priority, answer, left =>
    Adds full wants (WantEntry.new now cid priority config.defaultTimeout) answer left
  | .remove cid, answer, left =>
    answer = .entry (wants cid) ∧ left = Function.update wants cid none
  | .updatePriority cid newPriority, answer, left =>
    answer = .done (wants cid).isSome ∧ left = Function.update wants cid
      ((wants cid).map fun entry => { entry with priority := newPriority })
  | .pop, answer, left =>
    (answer = .entry none ∧ left = wants ∧ ∀ cid, wants cid = none)
      ∨ ∃ entry, answer = .entry (some entry) ∧ Due wants entry left
  | .clear, answer, left => answer = .unit ∧ left = fun _ => none

theorem Valid.add {w : WantList} (h : w.Valid) (now : Nat) {entry : WantEntry}
    (hdeadline : entry.deadline = none) : (w.add H now entry).2.Valid
      ∧ Adds (w.config.maxWants ≤ w.len) w.get entry (.done (w.add H now entry).1)
          (w.add H now entry).2.get := by
  rw [WantList.add, contains_eq]
  split
  · next hwanted =>
    exact ⟨h, .inr ⟨rfl, .inl (Option.isSome_iff_ne_none.mp hwanted), rfl⟩⟩
  · next hnew =>
    split
    · next hfull => exact ⟨h, .inr ⟨rfl, .inr hfull, rfl⟩⟩
    · next hroom =>
      rw [WantEntry.effectivePriority_of_deadline hdeadline]
      exact ⟨h.insert H entry rfl (.inr (Nat.lt_of_not_le hroom)),
        .inl ⟨rfl, Option.not_isSome_iff_eq_none.mp hnew, hroom, get_insert H w _ _ _⟩⟩

theorem Valid.updatePriority {w : WantList} (h : w.Valid) (cid : Cid) (newPriority : Int) :
    (w.updatePriority H cid newPriority).2.Valid
      ∧ (w.updatePriority H cid newPriority).1 = (w.get cid).isSome
      ∧ (w.updatePriority H cid newPriority).2.get = Function.update w.get cid
          ((w.get cid).map fun entry => { entry with priority := newPriority }) := by
  rw [WantList.updatePriority]
  split
  · next entry hget =>
    have hpresent : w.contains cid = true := by rw [contains_eq, hget, Option.isSome_some]
    rw [hget]
    exact ⟨h.insert H { entry with priority := newPriority } (h.keyed cid entry hget)
      (.inl hpresent), rfl, get_insert H w _ _ _⟩
  · next hget =>
    rw [hget, Option.map_none, ← hget, Function.update_eq_self, hget]
    exact ⟨h, rfl, rfl⟩

/-- **One step** keeps the list valid and does what it is to do. -/
theorem Valid.perform {w : WantList} (h : w.Valid) {s : Step} (hs : s.Undated) :
    (s.perform H w).2.Valid ∧ s.Means w.config (w.config.maxWants ≤ w.len) w.get
      (s.perform H w).1 (s.perform H w).2.get := by
  cases s with
  | add now entry => exact h.add H now hs
  | addSimple now cid priority => exact h.add H now rfl
  | remove cid => exact ⟨h.remove cid (h.tracks.remove cid), rfl, get_remove w cid⟩
  | updatePriority cid newPriority =>
    obtain ⟨hvalid, hanswer, hget⟩ := h.updatePriority H cid newPriority
    exact ⟨hvalid, congrArg Answer.done hanswer, hget⟩
  | pop =>
    obtain ⟨hvalid, ⟨hnone, hrest⟩ | ⟨entry, hentry, hdue⟩⟩ := pop_cases H h
    · exact ⟨hvalid, .inl ⟨congrArg Answer.entry hnone, hrest⟩⟩
    · exact ⟨hvalid, .inr ⟨entry, congrArg Answer.entry hentry, hdue⟩⟩
  | clear => exact ⟨w.valid_clear, rfl, rfl⟩

/-- A step after which the CID is wanted anew. -/
def added (cid : Cid) : Step × Answer → Bool
  | (.add _ entry, .done done) => done && decide (entry.cid = cid)
  | (.addSimple _ c _, .done done) => done && decide (c = cid)
  | _ => false

/-- A step that gives the CID away. -/
def returned (cid : Cid) : Step × Answer → Bool
  | (.pop, .entry (some entry)) => entry.cid = cid
  | _ => false

theorem isSome_update_le {wants : Cid → Option WantEntry} {c : Cid} {entry : Option WantEntry}
    (h : entry.isSome = true → (wants c).isSome = true) (cid : Cid) :
    (Function.update wants c entry cid).isSome.toNat ≤ (wants cid).isSome.toNat := by
  rw [Function.update_apply]
  split
  · next hc =>
    rw [hc]
    exact Bool.toNat_le_toNat h
  · exact Nat.le_refl _

theorem Adds.le {full : Prop} {wants left : Cid → Option WantEntry} {entry : WantEntry}
    {answer : Answer} (h : Adds full wants entry answer left) (cid : Cid) : ∃ done,
      answer = .done done ∧ (left cid).isSome.toNat
        ≤ (wants cid).isSome.toNat + (done && decide (entry.cid = cid)).toNat := by
  rcases h with ⟨rfl, hnew, -, rfl⟩ | ⟨rfl, -, rfl⟩
  · refine ⟨true, rfl, ?_⟩
    rw [Function.update_apply]
    split
    · next hc =>
      rw [hc, hnew, decide_eq_true rfl]
      exact Nat.le_refl 1
    · exact Nat.le_add_right _ _
  · exact ⟨false, rfl, Nat.le_refl _⟩

/-- A step leaves a CID or gives it away only if it was wanted or is added. -/
theorem Step.Means.le {config : WantListConfig} {full : Prop}
    {wants left : Cid → Option WantEntry} {s : Step} {answer : Answer}
    (h : s.Means config full wants answer left) (cid : Cid) :
    (left cid).isSome.toNat + (returned cid (s, answer)).toNat
      ≤ (wants cid).isSome.toNat + (added cid (s, answer)).toNat := by
  cases s with
  | add now entry | addSimple now c priority =>
    obtain ⟨done, rfl, hle⟩ := Adds.le h cid
    exact hle
  | remove c =>
    obtain ⟨rfl, rfl⟩ := h
    exact isSome_update_le (fun hnone => (by cases hnone)) cid
  | updatePriority c newPriority =>
    obtain ⟨rfl, rfl⟩ := h
    exact isSome_update_le (fun hsome => by rwa [Option.isSome_map] at hsome) cid
  | pop =>
    rcases h with ⟨rfl, rfl, -⟩ | ⟨entry, rfl, hdue⟩
    · exact Nat.le_refl _
    · rw [hdue.without, Function.update_apply]
      split
      · next hc =>
        rw [hc, hdue.wanted, returned, decide_eq_true rfl]
        exact Nat.le_refl 1
      · next hc =>
        rw [returned, decide_eq_false (Ne.symm hc)]
        exact Nat.le_refl _
  | clear =>
    obtain ⟨rfl, rfl⟩ := h
    exact Nat.zero_le _

theorem Step.Means.of_returned {config : WantListConfig} {full : Prop}
    {wants left : Cid → Option WantEntry} {s : Step} {answer : Answer}
    (h : s.Means config full wants answer left) {cid : Cid}
    (hreturned : returned cid (s, answer) = true) :
    (wants cid).isSome = true ∧ left cid = none := by
  cases s with
  | pop =>
    rcases h with ⟨rfl, -, -⟩ | ⟨entry, rfl, hdue⟩
    · cases hreturned
    · have hc : entry.cid = cid := of_decide_eq_true hreturned
      subst hc
      rw [hdue.wanted, hdue.without, Function.update_self]
      exact ⟨rfl, rfl⟩
  | _ => cases hreturned

/-! ## Runs -/

def runSteps (w : WantList) (steps : List Step) : WantList :=
  steps.foldl (fun w s => (s.perform H w).2) w

theorem runSteps_cons (w : WantList) (s : Step) (steps : List Step) :
    w.runSteps H (s :: steps) = (s.perform H w).2.runSteps H steps := rfl

theorem runSteps_append (w : WantList) (first last : List Step) :
    w.runSteps H (first ++ last) = (w.runSteps H first).runSteps H last := List.foldl_append

/-- The steps of a run with their answers. -/
def history (w : WantList) : List Step → List (Step × Answer)
  | [] => []
  | s :: steps => (s, (s.perform H w).1) :: (s.perform H w).2.history steps

theorem exists_of_history_append {steps : List Step} {before after : List (Step × Answer)} :
    ∀ {w : WantList}, w.history H steps = before ++ after →
      ∃ first last, steps = first ++ last ∧ w.history H first = before
        ∧ (w.runSteps H first).history H last = after := by
  induction before generalizing steps with
  | nil => exact fun h => ⟨[], steps, rfl, rfl, h⟩
  | cons e before ih =>
    intro w h
    cases steps with
    | nil => cases h
    | cons s steps =>
      rw [history, List.cons_append, List.cons.injEq] at h
      obtain ⟨rfl, h⟩ := h
      obtain ⟨first, last, rfl, rfl, rfl⟩ := ih h
      exact ⟨s :: first, last, rfl, rfl, rfl⟩

/-- **A run** keeps the list valid and its limits, and gives a CID away no more often than
the CID was wanted or is added. -/
theorem Valid.runSteps {steps : List Step} (hsteps : ∀ s ∈ steps, s.Undated) :
    ∀ {w : WantList}, w.Valid → (w.runSteps H steps).Valid ∧ ∀ cid,
      ((w.runSteps H steps).get cid).isSome.toNat + (w.history H steps).countP (returned cid)
        ≤ (w.get cid).isSome.toNat + (w.history H steps).countP (added cid) := by
  induction steps with
  | nil => exact fun h => ⟨h, fun _ => Nat.le_refl _⟩
  | cons s steps ih =>
    intro w h
    obtain ⟨hs, hrest⟩ := List.forall_mem_cons.mp hsteps
    obtain ⟨hvalid, hstep⟩ := h.perform H hs
    obtain ⟨hrun, hle⟩ := ih hrest hvalid
    refine ⟨hrun, fun cid => ?_⟩
    have hone := hstep.le cid
    have hmany := hle cid
    rw [runSteps_cons, history, List.countP_cons, List.countP_cons, ← Bool.cond_eq_ite,
      ← Bool.cond_eq_ite]
    change _ + (_ + (returned cid (s, (s.perform H w).1)).toNat)
      ≤ _ + (_ + (added cid (s, (s.perform H w).1)).toNat)
    omega

/-- Between two steps that give a CID away it is added. -/
theorem Valid.exists_added {w : WantList} (h : w.Valid) {steps : List Step}
    (hsteps : ∀ s ∈ steps, s.Undated) {cid : Cid} {before between after : List (Step × Answer)}
    {e e' : Step × Answer} (hpast : w.history H steps = before ++ e :: (between ++ e' :: after))
    (he : returned cid e = true) (he' : returned cid e' = true) :
    ∃ a ∈ between, added cid a = true := by
  obtain ⟨first, last, rfl, -, hlast⟩ := exists_of_history_append H hpast
  obtain ⟨hfirst, hlast'⟩ := List.forall_mem_append.mp hsteps
  have hvalid := (h.runSteps H hfirst).1
  cases last with
  | nil => cases hlast
  | cons s last =>
    obtain ⟨hs, hlast'⟩ := List.forall_mem_cons.mp hlast'
    obtain ⟨rfl, hrest⟩ := List.cons.inj hlast
    obtain ⟨hvalid, hmeans⟩ := hvalid.perform H hs
    have hgone := (hmeans.of_returned he).2
    obtain ⟨mid, last, rfl, hmid, hlast⟩ := exists_of_history_append H hrest
    obtain ⟨hmid', hlast'⟩ := List.forall_mem_append.mp hlast'
    obtain ⟨hvalid, hle⟩ := hvalid.runSteps H hmid'
    cases last with
    | nil => cases hlast
    | cons s last =>
      obtain ⟨hs, -⟩ := List.forall_mem_cons.mp hlast'
      obtain ⟨rfl, -⟩ := List.cons.inj hlast
      have hback := ((hvalid.perform H hs).2.of_returned he').1
      have hcount := hle cid
      rw [hgone, hback, hmid] at hcount
      refine List.countP_pos_iff.mp (Nat.lt_of_lt_of_le Nat.zero_lt_one ?_)
      have hone : true.toNat = 1 := rfl
      have hzero : (none : Option WantEntry).isSome.toNat = 0 := rfl
      omega

/-- What a step does to the limits and the versions. -/
theorem perform_frame (w : WantList) (s : Step) : (s.perform H w).2.config = w.config
    ∧ (s.perform H w).2.versionCounter ≤ w.versionCounter + 1 := by
  have hadd : ∀ now entry, (w.add H now entry).2.config = w.config
      ∧ (w.add H now entry).2.versionCounter ≤ w.versionCounter + 1 := by
    intro now entry
    rw [add]
    split
    · exact ⟨rfl, Nat.le_succ _⟩
    · split
      · exact ⟨rfl, Nat.le_succ _⟩
      · exact ⟨rfl, Nat.le_refl _⟩
  cases s with
  | add now entry => exact hadd now entry
  | addSimple now cid priority => exact hadd now _
  | remove cid => exact ⟨rfl, Nat.le_succ _⟩
  | updatePriority cid newPriority =>
    change (w.updatePriority H cid newPriority).2.config = w.config
      ∧ (w.updatePriority H cid newPriority).2.versionCounter ≤ w.versionCounter + 1
    rw [updatePriority]
    split
    · exact ⟨rfl, Nat.le_refl _⟩
    · exact ⟨rfl, Nat.le_succ _⟩
  | pop => exact ⟨(w.pop_frame H).1, (w.pop_frame H).2.le.trans (Nat.le_succ _)⟩
  | clear => exact ⟨rfl, Nat.le_succ _⟩

/-- The limits stay, and the version counter counts no more than the steps. -/
theorem runSteps_frame (steps : List Step) : ∀ w : WantList, (w.runSteps H steps).config = w.config
      ∧ (w.runSteps H steps).versionCounter ≤ w.versionCounter + steps.length := by
  induction steps with
  | nil => exact fun w => ⟨rfl, Nat.le_refl _⟩
  | cons s steps ih =>
    intro w
    obtain ⟨hconfig, hversion⟩ := w.perform_frame H s
    obtain ⟨hconfig', hversion'⟩ := ih (s.perform H w).2
    refine ⟨hconfig'.trans hconfig, hversion'.trans ?_⟩
    rw [List.length_cons]
    omega

/-! ## Batches -/

/-- The steps that a call takes. -/
def Call.steps : Call → List Step
  | .step s => [s]
  | .addBatch entries => entries.map fun (now, cid, priority) => .addSimple now cid priority
  | .addBatchSamePriority cids priority => cids.map fun (now, cid) => .addSimple now cid priority
  | .removeBatch cids => cids.map .remove
  | .updatePrioritiesBatch updates =>
    updates.map fun (cid, priority) => .updatePriority cid priority

/-- A batch counts those of its steps that succeed. -/
theorem countEach_eq {α : Type} {f : WantList → α → Bool × WantList} {step : α → Step}
    (hstep : ∀ w a, (step a).perform H w = (f w a).map .done id) (w : WantList) (batch : List α) :
    w.countEach f batch = ((w.history H (batch.map step)).countP (fun e => e.2 = .done true),
      w.runSteps H (batch.map step)) := by
  have hloop : ∀ (batch : List α) (count : Nat) (w : WantList),
      batch.foldl (countBody f) (count, w)
      = (count + (w.history H (batch.map step)).countP (fun e => e.2 = .done true),
        w.runSteps H (batch.map step)) := by
    intro batch
    induction batch with
    | nil => exact fun _ _ => rfl
    | cons a batch ih =>
      intro count w
      rw [List.foldl_cons, countBody, ih, List.map_cons, history, List.countP_cons,
        runSteps_cons, hstep]
      cases f w a with
      | mk done left =>
        cases done with
        | false => simp
        | true => simp [Nat.add_assoc, Nat.add_comm 1]
  rw [countEach, hloop, Nat.zero_add]

theorem addBatch_eq (w : WantList) (entries : List (Nat × Cid × Int)) : w.addBatch H entries
      = ((w.history H (Call.addBatch entries).steps).countP (fun e => e.2 = .done true),
        w.runSteps H (Call.addBatch entries).steps) := by
  refine countEach_eq H ?_ w entries
  exact fun _ _ => rfl

theorem addBatchSamePriority_eq (w : WantList) (cids : List (Nat × Cid)) (priority : Int) :
    w.addBatchSamePriority H cids priority
      = ((w.history H (Call.addBatchSamePriority cids priority).steps).countP
          (fun e => e.2 = .done true),
        w.runSteps H (Call.addBatchSamePriority cids priority).steps) := by
  refine countEach_eq H ?_ w cids
  exact fun _ _ => rfl

theorem updatePrioritiesBatch_eq (w : WantList) (updates : List (Cid × Int)) :
    w.updatePrioritiesBatch H updates
      = ((w.history H (Call.updatePrioritiesBatch updates).steps).countP
          (fun e => e.2 = .done true),
        w.runSteps H (Call.updatePrioritiesBatch updates).steps) := by
  refine countEach_eq H ?_ w updates
  exact fun _ _ => rfl

/-- The wants that an answer gives. -/
def Answer.wants : Answer → List WantEntry
  | .entry e => e.toList
  | .entries l => l
  | _ => []

/-- A batch of removals gives what its steps give. -/
theorem removeBatch_eq (w : WantList) (cids : List Cid) : w.removeBatch cids
      = ((w.history H (cids.map .remove)).flatMap (fun e => e.2.wants),
        w.runSteps H (cids.map .remove)) := by
  have hloop : ∀ (cids : List Cid) (removed : List WantEntry) (w : WantList),
      cids.foldl removeBody (removed, w)
      = (removed ++ (w.history H (cids.map .remove)).flatMap (fun e => e.2.wants),
        w.runSteps H (cids.map .remove)) := by
    intro cids
    induction cids with
    | nil => exact fun removed w => Prod.ext (List.append_nil removed).symm rfl
    | cons cid cids ih =>
      intro removed w
      rw [List.foldl_cons, removeBody, ih, List.map_cons, history, List.flatMap_cons,
        runSteps_cons, ← List.append_assoc]
      rfl
  rw [removeBatch, hloop, List.nil_append]

/-- A call leaves what its steps leave. -/
theorem perform_eq (w : WantList) (call : Call) :
    (call.perform H w).2 = w.runSteps H call.steps := by
  cases call with
  | step s => rfl
  | addBatch entries => exact congrArg Prod.snd (w.addBatch_eq H entries)
  | addBatchSamePriority cids priority =>
    exact congrArg Prod.snd (w.addBatchSamePriority_eq H cids priority)
  | removeBatch cids => exact congrArg Prod.snd (w.removeBatch_eq H cids)
  | updatePrioritiesBatch updates => exact congrArg Prod.snd (w.updatePrioritiesBatch_eq H updates)

theorem run_eq (calls : List Call) : ∀ w : WantList,
    w.run H calls = w.runSteps H (calls.flatMap Call.steps) := by
  induction calls with
  | nil => exact fun _ => rfl
  | cons call calls ih =>
    intro w
    rw [List.flatMap_cons, runSteps_append, ← perform_eq, ← ih]
    rfl

/-- **A priority queue with keys**, after any calls. A `u64` counts the versions as the model
does for the first `2 ^ 64 - 1` steps. -/
theorem keyed_queue (config : WantListConfig) (calls : List Call)
    (hcalls : ∀ s ∈ calls.flatMap Call.steps, s.Undated) :
    let w := (new config).run H calls
    let past := (new config).history H (calls.flatMap Call.steps)
    (∀ s : Step, s.Undated → s.Means config (config.maxWants ≤ w.len) w.get
        (s.perform H w).1 (s.perform H w).2.get)
      ∧ ((w.pop H).1 = none ↔ w.isEmpty = true)
      ∧ (∀ entry, (w.pop H).1 = some entry → Due w.get entry (w.pop H).2.get)
      ∧ (∀ cid, past.countP (returned cid) ≤ past.countP (added cid))
      ∧ (∀ cid before e between e' after, past = before ++ e :: (between ++ e' :: after) →
          returned cid e = true → returned cid e' = true → ∃ a ∈ between, added cid a = true)
      ∧ w.len ≤ config.maxWants
      ∧ w.versionCounter ≤ (calls.flatMap Call.steps).length := by
  intro w past
  have hw : w = (new config).runSteps H (calls.flatMap Call.steps) := run_eq H calls _
  obtain ⟨hvalid, hle⟩ := (valid_new config).runSteps H hcalls
  obtain ⟨hconfig, hversion⟩ := runSteps_frame H (calls.flatMap Call.steps) (new config)
  rw [← hw] at hvalid hle hconfig hversion
  replace hconfig : w.config = config := hconfig
  refine ⟨fun s hs => ?_, ?_, fun entry hentry => ?_, fun cid => ?_, ?_, ?_,
    hversion.trans_eq (Nat.zero_add _)⟩
  · have hmeans := (hvalid.perform H hs).2
    rw [hconfig] at hmeans
    exact hmeans
  · rw [isEmpty_iff]
    rcases (pop_cases H hvalid).2 with ⟨hnone, -, hempty⟩ | ⟨entry, hentry, hdue⟩
    · exact iff_of_true hnone hempty
    · refine iff_of_false ?_ fun hempty => ?_
      · rw [hentry]
        exact Option.some_ne_none entry
      · cases hdue.wanted.symm.trans (hempty entry.cid)
  · rcases (pop_cases H hvalid).2 with ⟨hnone, -⟩ | ⟨_, hsome, hdue⟩
    · cases hnone.symm.trans hentry
    · cases hsome.symm.trans hentry
      exact hdue
  · exact Nat.le_trans (Nat.le_add_left _ _) ((hle cid).trans_eq (Nat.zero_add _))
  · intro cid before e between e' after hpast he he'
    exact (valid_new config).exists_added H hcalls hpast he he'
  · exact hconfig ▸ hvalid.bounded

end

namespace Sample

def first : Cid := Cid.newV1 codecRaw { code := 0, digest := [1], size_le := by decide }

def second : Cid := Cid.newV1 codecRaw { code := 0, digest := [2], size_le := by decide }

/-- The want that has got a higher priority is due, whatever its first entry in the heap. -/
theorem keyed_queue_reprioritized :
    let H := HeapEntry.firstGreatest
    let w := (new {}).run H
      [.addBatch [(0, first, 10), (1, second, 20)], .updatePrioritiesBatch [(first, 100)]]
    ∃ entry, (w.pop H).1 = some entry ∧ 100 ≤ entry.priority := by
  intro H w
  obtain ⟨-, hempty, hdue, -⟩ := keyed_queue H {}
    [.addBatch [(0, first, 10), (1, second, 20)], .updatePrioritiesBatch [(first, 100)]]
    (by decide)
  cases hpop : (w.pop H).1 with
  | none => exact absurd (hempty.mp hpop) (by decide)
  | some entry =>
    refine ⟨entry, rfl, ?_⟩
    rcases (hdue entry hpop).first first _ rfl with hlt | ⟨heq, -⟩
    · exact le_of_lt hlt
    · exact le_of_eq heq

end Sample

end WantList

end Ipfrs.Transport
