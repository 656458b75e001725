/-
Ipfrs.Core.MerkleBatchTheorems — what prover and verifier do at the needed positions.

Both go over the needed positions in the same order (`neededFrom`). The prover's entries
are the nodes there, each pushed unless it is in the list already (`proveLevels_eq`); so
the list is complete exactly if no two of them are equal (`pushAll_eq_iff`). The verifier
places one entry at each needed position, or runs out of them (`pullLevels_eq`), and then
computes every covered node (`lookup_propagate`).
-/
import Ipfrs.Core.MerkleBatch
import Ipfrs.Lib.MerkleTree

namespace Ipfrs.Core

open Ipfrs.Lib

/-! ## Sets of positions -/

@[simp] theorem mem_insertPos {p pos : Nat} {s : List Nat} :
    p ∈ insertPos pos s ↔ p = pos ∨ p ∈ s := by
  unfold insertPos
  split
  · next h =>
    constructor
    · exact .inr
    · intro hp
      rcases hp with rfl | hp
      · exact h
      · exact hp
  · simp

theorem nodup_insertPos {pos : Nat} {s : List Nat} (h : s.Nodup) : (insertPos pos s).Nodup := by
  unfold insertPos
  split
  · exact h
  · next hnot =>
    exact (List.perm_orderedInsert _ pos s).nodup_iff.mpr (List.nodup_cons.mpr ⟨hnot, h⟩)

/-- The set `s` with the parents of the positions put in one by one. -/
def addParents (l s : List Nat) : List Nat := l.foldl (fun s pos => insertPos (pos / 2) s) s

theorem addParents_cons (pos : Nat) (l s : List Nat) :
    addParents (pos :: l) s = addParents l (insertPos (pos / 2) s) :=
  rfl

theorem mem_addParents {q : Nat} (l s : List Nat) :
    q ∈ addParents l s ↔ (∃ p ∈ l, p / 2 = q) ∨ q ∈ s := by
  induction l generalizing s with
  | nil => simp [addParents]
  | cons pos l ih =>
    rw [addParents_cons, ih, mem_insertPos]
    rw [eq_comm]
    simp only [List.mem_cons, exists_eq_or_imp, or_assoc, or_left_comm]

theorem nodup_addParents (l : List Nat) : ∀ {s : List Nat}, s.Nodup → (addParents l s).Nodup := by
  induction l with
  | nil => exact fun h => h
  | cons pos l ih => exact fun h => ih (nodup_insertPos h)

theorem mem_collectPos {p : Nat} (l : List Nat) : p ∈ collectPos l ↔ p ∈ l := by
  have hfold : ∀ (l s : List Nat),
      p ∈ l.foldl (fun s pos => insertPos pos s) s ↔ p ∈ l ∨ p ∈ s := by
    intro l
    induction l with
    | nil => simp
    | cons pos l ih =>
      intro s
      rw [List.foldl_cons, ih, mem_insertPos, List.mem_cons]
      tauto
  rw [collectPos, hfold]
  simp

theorem nodup_collectPos (l : List Nat) : (collectPos l).Nodup := by
  have hfold : ∀ (l s : List Nat), s.Nodup →
      (l.foldl (fun s pos => insertPos pos s) s).Nodup := by
    intro l
    induction l with
    | nil => exact fun s h => h
    | cons pos l ih => exact fun s h => ih _ (nodup_insertPos h)
  exact hfold l [] List.nodup_nil

/-! ## The needed positions in order -/

/-- The needed siblings of some of the covered positions. -/
def neededIn (covered l : List Nat) : List Nat :=
  l.filterMap (fun pos => if siblingPos pos ∈ covered then none else some (siblingPos pos))

/-- The needed positions of `height` levels from `level` on. -/
def neededFrom : Nat → Nat → List Nat → List (Nat × Nat)
  | 0, _, _ => []
  | height + 1, level, covered =>
    (neededIn covered covered).map (fun pos => (level, pos))
      ++ neededFrom height (level + 1) (addParents covered [])

theorem neededFrom_nil : ∀ height level : Nat, neededFrom height level [] = []
  | 0, _ => rfl
  | height + 1, level => neededFrom_nil height (level + 1)

/-- They lie on no lower level. -/
theorem neededFrom_le : ∀ {height level : Nat} {covered : List Nat} {e : Nat × Nat},
    e ∈ neededFrom height level covered → level ≤ e.1
  | 0, _, _, _, h => absurd h List.not_mem_nil
  | height + 1, level, covered, e, h => by
    rcases List.mem_append.mp h with h | h
    · obtain ⟨pos, _, rfl⟩ := List.mem_map.mp h
      exact Nat.le_refl _
    · exact Nat.le_of_succ_le (neededFrom_le h)

theorem neededIn_cons (covered l : List Nat) (pos : Nat) : neededIn covered (pos :: l) =
      if siblingPos pos ∈ covered then neededIn covered l
      else siblingPos pos :: neededIn covered l := by
  simp only [neededIn, List.filterMap_cons]
  split
  · next h =>
    split at h
    · next hmem => rw [if_pos hmem]
    · cases h
  · next h =>
    split at h
    · cases h
    · next hmem =>
      cases h
      rw [if_neg hmem]

theorem mem_neededIn {covered : List Nat} {p : Nat} :
    p ∈ neededIn covered covered ↔ p ∉ covered ∧ MerkleTree.sibling p ∈ covered := by
  simp only [neededIn, List.mem_filterMap, Option.ite_none_left_eq_some, Option.some.injEq]
  constructor
  · intro h
    obtain ⟨pos, hpos, hnot, rfl⟩ := h
    exact ⟨hnot, (MerkleTree.sibling_sibling pos).symm ▸ hpos⟩
  · intro h
    exact ⟨MerkleTree.sibling p, h.2, by rw [← MerkleTree.sibling_sibling p] at h; exact h.1,
      MerkleTree.sibling_sibling p⟩

theorem nodup_neededIn (covered : List Nat) {l : List Nat} (h : l.Nodup) :
    (neededIn covered l).Nodup := by
  refine h.filterMap (fun a b c ha hb => ?_)
  simp only [Option.mem_def, Option.ite_none_left_eq_some, Option.some.injEq] at ha hb
  exact MerkleTree.sibling_injective (ha.2.trans hb.2.symm)

section

variable {leaves : Nat → Prop}

/-- The list holds the covered positions of the level. -/
def IsCovered (leaves : Nat → Prop) (level : Nat) (covered : List Nat) : Prop :=
  ∀ p, p ∈ covered ↔ MerkleTree.Covered leaves level p

theorem IsCovered.next {level : Nat} {covered : List Nat} (h : IsCovered leaves level covered) :
    IsCovered leaves (level + 1) (addParents covered []) := by
  intro q
  rw [mem_addParents, MerkleTree.covered_succ]
  simp only [List.not_mem_nil, or_false, h _]

theorem IsCovered.mem_neededIn {level : Nat} {covered : List Nat}
    (h : IsCovered leaves level covered) {p : Nat} :
    p ∈ neededIn covered covered ↔ MerkleTree.Needed leaves level p := by
  rw [Core.mem_neededIn, h, h, MerkleTree.Needed]

theorem IsCovered.mem_neededFrom : ∀ {height level : Nat} {covered : List Nat},
    IsCovered leaves level covered → ∀ {e : Nat × Nat},
      (e ∈ neededFrom height level covered ↔
        level ≤ e.1 ∧ e.1 < level + height ∧ MerkleTree.Needed leaves e.1 e.2)
  | 0, level, covered, _, e => by
    simp only [neededFrom, List.not_mem_nil, false_iff]
    omega
  | height + 1, level, covered, h, (l, p) => by
    have hnext : (l, p) ∈ neededFrom height (level + 1) (addParents covered []) ↔
        level + 1 ≤ l ∧ l < level + 1 + height ∧ MerkleTree.Needed leaves l p :=
      h.next.mem_neededFrom
    simp only [neededFrom, List.mem_append, List.mem_map, Prod.mk.injEq, hnext]
    constructor
    · intro hmem
      rcases hmem with ⟨pos, hpos, rfl, rfl⟩ | ⟨hle, hlt, hneeded⟩
      · exact ⟨Nat.le_refl _, by omega, h.mem_neededIn.mp hpos⟩
      · exact ⟨by omega, by omega, hneeded⟩
    · intro hmem
      obtain ⟨hle, hlt, hneeded⟩ := hmem
      rcases Nat.eq_or_lt_of_le hle with rfl | hgt
      · exact .inl ⟨p, h.mem_neededIn.mpr hneeded, rfl, rfl⟩
      · exact .inr ⟨hgt, by omega, hneeded⟩

theorem IsCovered.nodup_neededFrom : ∀ {height level : Nat} {covered : List Nat},
    IsCovered leaves level covered → covered.Nodup → (neededFrom height level covered).Nodup
  | 0, _, _, _, _ => List.nodup_nil
  | height + 1, level, covered, h, hnodup => by
    refine List.nodup_append.mpr ⟨?_, ?_, ?_⟩
    · exact (nodup_neededIn covered hnodup).map (fun a b hab => (Prod.mk.inj hab).2)
    · exact h.next.nodup_neededFrom (nodup_addParents covered List.nodup_nil)
    · intro a ha b hb hab
      obtain ⟨pos, _, rfl⟩ := List.mem_map.mp ha
      have := (h.next.mem_neededFrom.mp hb).1
      rw [← hab] at this
      omega

end

/-! ## The entries of the prover -/

/-- Pushing entries, each unless it is there. -/
def pushAll {α : Type} [BEq α] [LawfulBEq α] (s entries : List α) : List α :=
  entries.foldl (fun s e => if e ∈ s then s else s ++ [e]) s

theorem pushAll_cons {α : Type} [BEq α] [LawfulBEq α] (s : List α) (e : α) (entries : List α) :
    pushAll s (e :: entries) = pushAll (if e ∈ s then s else s ++ [e]) entries :=
  rfl

theorem pushAll_append {α : Type} [BEq α] [LawfulBEq α] (s entries entries' : List α) :
    pushAll s (entries ++ entries') = pushAll (pushAll s entries) entries' :=
  List.foldl_append

theorem length_pushAll_le {α : Type} [BEq α] [LawfulBEq α] (entries : List α) :
    ∀ s : List α, (pushAll s entries).length ≤ s.length + entries.length := by
  induction entries with
  | nil => exact fun s => Nat.le_refl _
  | cons e entries ih =>
    intro s
    rw [pushAll_cons, List.length_cons]
    refine (ih _).trans ?_
    split
    · omega
    · rw [List.length_append, List.length_singleton]
      omega

/-- Nothing is left out exactly if there is no repetition. -/
theorem pushAll_eq_iff {α : Type} [BEq α] [LawfulBEq α] (entries : List α) : ∀ s : List α, s.Nodup →
      ((s ++ entries).Nodup → pushAll s entries = s ++ entries) ∧
      (¬ (s ++ entries).Nodup → (pushAll s entries).length < s.length + entries.length) := by
  induction entries with
  | nil =>
    intro s hs
    exact ⟨fun _ => (List.append_nil s).symm, fun h => absurd ((List.append_nil s).symm ▸ hs) h⟩
  | cons e entries ih =>
    intro s hs
    have hassoc : s ++ e :: entries = (s ++ [e]) ++ entries := by simp
    by_cases he : e ∈ s
    · rw [pushAll_cons, if_pos he]
      refine ⟨fun h => ?_, fun _ => ?_⟩
      · exact absurd rfl ((List.nodup_append.mp h).2.2 e he e List.mem_cons_self)
      · have := length_pushAll_le entries s
        rw [List.length_cons]
        omega
    · have hs' : (s ++ [e]).Nodup := by
        rw [List.nodup_append]
        refine ⟨hs, List.nodup_singleton e, fun a ha b hb => ?_⟩
        rw [List.mem_singleton.mp hb]
        exact fun hab => he (hab ▸ ha)
      obtain ⟨heq, hlt⟩ := ih (s ++ [e]) hs'
      rw [pushAll_cons, if_neg he, hassoc]
      refine ⟨heq, fun h => ?_⟩
      have := hlt h
      rw [List.length_append, List.length_singleton] at this
      rw [List.length_cons]
      omega

namespace MerkleBatchProver

theorem foldl_proveStep (level : Nat) (levelNodes : List UInt64) (covered l : List Nat) :
    ∀ (s : List Nat) (hashes : List (Nat × UInt64)),
      l.foldl (proveStep level levelNodes covered) (s, hashes) = (addParents l s, pushAll hashes
            ((neededIn covered l).map (fun pos => (level, levelNodes.getD pos 0)))) := by
  induction l with
  | nil => exact fun _ _ => rfl
  | cons pos l ih =>
    intro s hashes
    rw [List.foldl_cons, neededIn_cons]
    by_cases hmem : siblingPos pos ∈ covered
    · simp only [proveStep, if_pos hmem, ih, addParents_cons]
    · simp only [proveStep, if_neg hmem, ih, addParents_cons, List.map_cons, pushAll_cons]

/-- The prover pushes the nodes at the needed positions. -/
theorem proveLevels_eq (value : Nat → Nat → UInt64) : ∀ (levels : List (List UInt64))
    (level : Nat) (covered : List Nat) (hashes : List (Nat × UInt64)),
    (∀ e ∈ neededFrom levels.length level covered,
      level ≤ e.1 ∧ (levels.getD (e.1 - level) []).getD e.2 0 = value e.1 e.2) →
    proveLevels level levels covered hashes
      = pushAll hashes ((neededFrom levels.length level covered).map
          (fun e => (e.1, value e.1 e.2)))
  | [], _, _, _, _ => rfl
  | levelNodes :: rest, level, covered, hashes, h => by
    rw [List.length_cons, neededFrom] at h
    obtain ⟨hhead, htail⟩ := List.forall_mem_append.mp h
    have hnodes : (neededIn covered covered).map (fun pos => (level, levelNodes.getD pos 0))
        = (neededIn covered covered).map (fun pos => (level, value level pos)) := by
      refine List.map_congr_left (fun pos hpos => ?_)
      have hvalue := (hhead (level, pos) (List.mem_map_of_mem hpos)).2
      rw [← hvalue]
      simp
    have hrest := proveLevels_eq value rest (level + 1) (addParents covered [])
      (pushAll hashes ((neededIn covered covered).map (fun pos => (level, value level pos))))
      (fun e he => by
        have hle := (neededFrom_le he)
        have hvalue := (htail e he).2
        rw [show e.1 - level = e.1 - (level + 1) + 1 by omega] at hvalue
        exact ⟨hle, by simpa using hvalue⟩)
    rw [proveLevels, foldl_proveStep, hnodes]
    simp only [hrest, List.length_cons, neededFrom, List.map_append, List.map_map,
      pushAll_append, Function.comp_def]

/-! ## The entries of the verifier -/

/-- The map with the hashes of the entries placed at the positions, in order. -/
def placeAll (known : Known) (positions : List (Nat × Nat)) (entries : List (Nat × UInt64)) :
    Known :=
  (positions.zip entries).foldl (fun known e => known.insert e.1 e.2.2) known

theorem placeAll_append (positions' : List (Nat × Nat)) (positions : List (Nat × Nat)) :
    ∀ (known : Known) (entries : List (Nat × UInt64)), positions.length ≤ entries.length →
      placeAll known (positions ++ positions') entries
        = placeAll (placeAll known positions entries) positions'
            (entries.drop positions.length) := by
  induction positions with
  | nil => simp [placeAll]
  | cons pos positions ih =>
    intro known entries hlen
    cases entries with
    | nil => simp at hlen
    | cons e entries => exact ih _ entries (by simpa using hlen)

/-- Placing the values of the positions makes them known. -/
theorem lookup_placeAll (value : Nat × Nat → UInt64) (positions : List (Nat × Nat))
    (q : Nat × Nat) : ∀ known : Known,
      (placeAll known positions (positions.map (fun e => (e.1, value e)))).lookup q
        = if q ∈ positions then some (value q) else known.lookup q := by
  induction positions with
  | nil => simp [placeAll]
  | cons pos positions ih =>
    intro known
    have hstep := ih (known.insert pos (value pos))
    by_cases hq : q = pos
    · subst hq
      simpa [placeAll] using hstep
    · simpa [placeAll, hq, AList.lookup_insert_ne hq] using hstep

/-- Elsewhere nothing changes. -/
theorem lookup_placeAll_of_notMem {positions : List (Nat × Nat)} {q : Nat × Nat}
    (hq : q ∉ positions) : ∀ (known : Known) (entries : List (Nat × UInt64)),
      (placeAll known positions entries).lookup q = known.lookup q := by
  induction positions with
  | nil => exact fun _ _ => rfl
  | cons pos positions ih =>
    intro known entries
    obtain ⟨hne, hnot⟩ := not_or.mp (List.mem_cons.not.mp hq)
    cases entries with
    | nil => rfl
    | cons e entries => exact (ih hnot _ entries).trans (AList.lookup_insert_ne hne)

/-- With an entry for each position, something is known at all of them. -/
theorem exists_lookup_placeAll {positions : List (Nat × Nat)} {q : Nat × Nat}
    (hq : q ∈ positions) : ∀ (known : Known) {entries : List (Nat × UInt64)},
      positions.length ≤ entries.length → ∃ e ∈ positions.zip entries, e.1 = q ∧
          (placeAll known positions entries).lookup q = some e.2.2 := by
  induction positions with
  | nil => cases hq
  | cons pos positions ih =>
    intro known entries hlen
    cases entries with
    | nil => simp at hlen
    | cons e entries =>
      by_cases hmem : q ∈ positions
      · obtain ⟨e', he', heq, hlookup⟩ :=
          ih hmem (known.insert pos e.2) (by simpa using hlen)
        exact ⟨e', List.mem_cons_of_mem _ he', heq, hlookup⟩
      · obtain rfl : q = pos := by simpa [hmem] using hq
        refine ⟨(q, e), List.mem_cons_self, rfl, ?_⟩
        exact (lookup_placeAll_of_notMem hmem _ entries).trans (AList.lookup_insert known)

theorem knownLeaves_eq (leafIndices : List Nat) (dataItems : List (List UInt8)) :
    knownLeaves leafIndices dataItems = placeAll ∅ (leafIndices.map (fun i => (0, i)))
          (dataItems.map (fun item => (0, leafHash item))) := by
  simp [knownLeaves, placeAll, List.zip_map, List.foldl_map]

theorem pullLevel_eq (level : Nat) (covered l : List Nat) :
    ∀ (s : List Nat) (entries : List (Nat × UInt64)) (known : Known),
      pullLevel level covered l (s, entries, known)
        = if (neededIn covered l).length ≤ entries.length then
            .ok (addParents l s, entries.drop (neededIn covered l).length,
              placeAll known ((neededIn covered l).map (fun pos => (level, pos))) entries)
          else .error (.invalidProof "not enough sibling hashes in proof") := by
  induction l with
  | nil => simp [pullLevel, neededIn, addParents, placeAll]
  | cons pos l ih =>
    intro s entries known
    rw [neededIn_cons]
    by_cases hmem : siblingPos pos ∈ covered
    · simp only [pullLevel, if_pos hmem, ih, addParents_cons]
    · cases entries with
      | nil => simp [pullLevel, hmem]
      | cons e entries =>
        simp only [pullLevel, if_neg hmem, ih, addParents_cons, List.length_cons,
          Nat.add_le_add_iff_right, List.drop_succ_cons, List.map_cons]
        rfl

/-- The verifier takes one entry for each needed position. -/
theorem pullLevels_eq : ∀ (height level : Nat) (covered : List Nat)
    (entries : List (Nat × UInt64)) (known : Known),
    pullLevels height level covered entries known
      = if (neededFrom height level covered).length ≤ entries.length then
          .ok (placeAll known (neededFrom height level covered) entries)
        else .error (.invalidProof "not enough sibling hashes in proof")
  | 0, level, covered, entries, known => by simp [pullLevels, neededFrom, placeAll]
  | height + 1, level, covered, entries, known => by
    rw [pullLevels, pullLevel_eq, neededFrom, List.length_append, List.length_map]
    by_cases hlen : (neededIn covered covered).length ≤ entries.length
    · simp only [if_pos hlen, pullLevels_eq height, List.length_drop]
      rw [placeAll_append _ _ _ _ (by simpa using hlen), List.length_map]
      congr 1
      exact propext (by omega)
    · rw [if_neg hlen, if_neg (by omega)]

/-! ## Upwards -/

theorem lookup_addLevel (known : Known) (level p : Nat) (current : LevelKnown) :
    (addLevel known level current).lookup p = (known.lookup (level, p)).or (current.lookup p) := by
  have hfold : ∀ (l : List (Sigma fun _ : Nat × Nat => UInt64)) (current : LevelKnown),
      l.NodupKeys →
        (l.foldl (fun current e =>
            if e.1.1 = level then current.insert e.1.2 e.2 else current) current).lookup p
          = (l.dlookup (level, p)).or (current.lookup p) := by
    intro l
    induction l with
    | nil => simp
    | cons e l ih =>
      intro current hnodup
      obtain ⟨⟨l', p'⟩, v⟩ := e
      obtain ⟨hnot, hnodup⟩ := List.nodupKeys_cons.mp hnodup
      rw [List.foldl_cons, ih _ hnodup]
      by_cases heq : (level, p) = (l', p')
      · obtain ⟨rfl, rfl⟩ := Prod.mk.inj heq
        rw [List.dlookup_cons_eq, List.dlookup_eq_none.mpr hnot]
        simp
      · rw [List.dlookup_cons_ne _ _ heq]
        split
        · next hlevel =>
          have hp : p ≠ p' := fun hp => heq (by rw [hp, ← hlevel])
          rw [AList.lookup_insert_ne hp]
        · rfl
  exact hfold known.entries current known.nodupKeys

/-- The hash at a parent of which both children are known. -/
def parentHash (current : LevelKnown) (q : Nat) : Option UInt64 :=
  match current.lookup (q * 2), current.lookup (q * 2 + 1) with
  | some left, some right => some (combine left right)
  | _, _ => none

/-- One round adds the hash of the parent. -/
theorem lookup_parentStep {current next : LevelKnown} {processed seen : List Nat}
    (hlookup : ∀ q, next.lookup q = if q ∈ seen then parentHash current q else none)
    (hsub : ∀ q ∈ processed, q ∈ seen) (pos : Nat) :
    (∀ q, (parentStep current (next, processed) pos).1.lookup q
      = if q ∈ pos / 2 :: seen then parentHash current q else none) ∧
    (∀ q ∈ (parentStep current (next, processed) pos).2, q ∈ pos / 2 :: seen) := by
  have hseen : ∀ q ∈ processed, q ∈ pos / 2 :: seen :=
    fun q hq => List.mem_cons_of_mem _ (hsub q hq)
  by_cases hmem : pos / 2 ∈ processed
  · simp only [parentStep, if_pos hmem]
    refine ⟨fun q => ?_, hseen⟩
    by_cases hq : q = pos / 2
    · simp [hlookup, hq, hsub _ hmem]
    · simp [hlookup, hq]
  · simp only [parentStep, if_neg hmem]
    split
    · next left right hleft hright =>
      have hparent : parentHash current (pos / 2) = some (combine left right) := by
        simp only [parentHash, hleft, hright]
      constructor
      · intro q
        by_cases hq : q = pos / 2
        · subst hq
          simp [hparent]
        · simp [AList.lookup_insert_ne hq, hlookup, hq]
      · simpa using hseen
    · next hnone =>
      have hparent : parentHash current (pos / 2) = none := by
        unfold parentHash
        split
        · next left right hleft hright => exact absurd hright (hnone left right hleft)
        · rfl
      refine ⟨fun q => ?_, hseen⟩
      by_cases hq : q = pos / 2
      · simp [hlookup, hq, hparent]
      · simp [hlookup, hq]

theorem lookup_nextLevel (current : LevelKnown) (q : Nat) :
    (nextLevel current).lookup q = parentHash current q := by
  have hfold : ∀ (l seen : List Nat) (state : LevelKnown × List Nat),
      (∀ q, state.1.lookup q = if q ∈ seen then parentHash current q else none) →
      (∀ q ∈ state.2, q ∈ seen) →
      ∃ seen' : List Nat, (∀ q, (l.foldl (parentStep current) state).1.lookup q
          = if q ∈ seen' then parentHash current q else none) ∧
        (∀ pos ∈ l, pos / 2 ∈ seen') ∧ (∀ q ∈ seen, q ∈ seen') := by
    intro l
    induction l with
    | nil => exact fun seen state hlookup _ => ⟨seen, hlookup, by simp, fun _ h => h⟩
    | cons pos l ih =>
      intro seen state hlookup hsub
      obtain ⟨hlookup', hsub'⟩ := lookup_parentStep hlookup hsub pos
      obtain ⟨seen', hfinal, hall, hkeep⟩ := ih (pos / 2 :: seen) _ hlookup' hsub'
      refine ⟨seen', hfinal, ?_, fun q hq => hkeep q (List.mem_cons_of_mem _ hq)⟩
      intro p hp
      rcases List.mem_cons.mp hp with rfl | hp
      · exact hkeep _ List.mem_cons_self
      · exact hall p hp
  obtain ⟨seen', hfinal, hall, -⟩ := hfold (current.keys.insertionSort (· ≤ ·)) [] (∅, [])
    (by simp) (by simp)
  rw [nextLevel, hfinal]
  split
  · rfl
  · next hnot =>
    -- the left child of a parent that was not met is not known
    have hleft : current.lookup (q * 2) = none := by
      rw [AList.lookup_eq_none]
      intro hmem
      refine hnot ?_
      have hpos := hall (q * 2) ((List.mem_insertionSort _).mpr (AList.mem_keys.mp hmem))
      rwa [Nat.mul_div_cancel q (by decide)] at hpos
    simp [parentHash, hleft]

/-- The hash at a position from what is known: its own, or else that of its children. -/
def knownHash (known : Known) : Nat → Nat → UInt64
  | 0, pos => (known.lookup (0, pos)).getD 0
  | level + 1, pos =>
    (known.lookup (level + 1, pos)).getD
      (combine (knownHash known level (pos * 2)) (knownHash known level (pos * 2 + 1)))

theorem knownHash_of_lookup {known : Known} {level pos : Nat} {hash : UInt64}
    (h : known.lookup (level, pos) = some hash) : knownHash known level pos = hash := by
  cases level with
  | zero => simp [knownHash, h]
  | succ level => simp [knownHash, h]

theorem knownHash_succ {known : Known} {level pos : Nat}
    (h : known.lookup (level + 1, pos) = none) : knownHash known (level + 1) pos
      = combine (knownHash known level (pos * 2)) (knownHash known level (pos * 2 + 1)) := by
  simp [knownHash, h]

section

variable {leaves : Nat → Prop} {known : Known} {height : Nat}

/-- With the covered leaves and the needed nodes known, so is every covered node. -/
theorem lookup_propagate
    (hneeded : ∀ l p, l < height → MerkleTree.Needed leaves l p →
      ∃ hash, known.lookup (l, p) = some hash)
    (hnone : ∀ l p, MerkleTree.Covered leaves (l + 1) p → known.lookup (l + 1, p) = none) :
    ∀ (rounds level : Nat) (current : LevelKnown), level + rounds = height →
      (∀ p, MerkleTree.Covered leaves level p →
        current.lookup p = some (knownHash known level p)) →
      ∀ p, MerkleTree.Covered leaves height p →
        (propagate known rounds level current).lookup p = some (knownHash known height p)
  | 0, level, current, hlevel, hcovered => by
    rw [← hlevel]
    exact hcovered
  | rounds + 1, level, current, hlevel, hcovered => by
    refine lookup_propagate hneeded hnone rounds (level + 1) _ (by omega) (fun q hq => ?_)
    -- at this level covered and needed positions are known
    have hboth : ∀ p, MerkleTree.Covered leaves level p ∨ MerkleTree.Needed leaves level p →
        (addLevel known level current).lookup p = some (knownHash known level p) := by
      intro p hp
      rw [lookup_addLevel]
      cases hlookup : known.lookup (level, p) with
      | some hash => simp [knownHash_of_lookup hlookup]
      | none =>
        rcases hp with hp | hp
        · simpa using hcovered p hp
        · obtain ⟨hash, hhash⟩ := hneeded level p (by omega) hp
          rw [hhash] at hlookup
          cases hlookup
    obtain ⟨hleft, hright⟩ := (MerkleTree.covered_succ_iff level q).mp hq
    simp only [lookup_nextLevel, parentHash, hboth _ hleft, hboth _ hright,
      knownHash_succ (hnone level q hq)]

/-- Where nothing is known, nothing can be computed. -/
theorem lookup_propagate_empty : ∀ (rounds level : Nat) (current : LevelKnown),
    (∀ p, current.lookup p = none) → ∀ p, (propagate ∅ rounds level current).lookup p = none
  | 0, _, _, h => h
  | rounds + 1, level, current, h => by
    refine lookup_propagate_empty rounds (level + 1) _ (fun q => ?_)
    simp [lookup_nextLevel, parentHash, lookup_addLevel, h]

end

end MerkleBatchProver

end Ipfrs.Core
