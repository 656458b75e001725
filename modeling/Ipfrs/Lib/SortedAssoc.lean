/-
Ipfrs.Lib.SortedAssoc — a stable sort by a key, and when it forgets the order of its input.

Elements with one key stay in the order they came in (`filter_sortBy`). So the result is
the same for every order of the input exactly if elements with one key are equal
(`sortBy_perm_iff`).
-/
import Mathlib.Data.List.Sort
import Mathlib.Data.List.Perm.Subperm

namespace Ipfrs.Lib.StableSort

variable {α κ : Type} [LinearOrder κ] (key : α → κ)

/-- Insertion sort by a key, which is stable. -/
def sortBy (l : List α) : List α := l.insertionSort (fun a b => key a ≤ key b)

theorem perm_sortBy (l : List α) : (sortBy key l).Perm l := List.perm_insertionSort _ l

theorem pairwise_sortBy (l : List α) : (sortBy key l).Pairwise (fun a b => key a ≤ key b) := by
  have : Std.Total (fun a b => key a ≤ key b) := ⟨fun a b => le_total (key a) (key b)⟩
  have : IsTrans α (fun a b => key a ≤ key b) := ⟨fun _ _ _ => le_trans⟩
  exact List.pairwise_insertionSort _ l

/-- An insertion stands before the elements of its own key. -/
theorem filter_orderedInsert (k : κ) (a : α) (l : List α) :
    (l.orderedInsert (fun a b => key a ≤ key b) a).filter (fun b => key b = k)
      = (a :: l).filter (fun b => key b = k) := by
  induction l with
  | nil => rfl
  | cons b l ih =>
    rw [List.orderedInsert_cons]
    by_cases hab : key a ≤ key b
    · rw [if_pos hab]
    · rw [if_neg hab]
      by_cases hb : key b = k
      · have ha : key a ≠ k := fun ha => hab (by rw [ha, hb])
        simp only [List.filter_cons, ih, ha, hb]
        simp
      · simp only [List.filter_cons, ih, hb]
        simp

/-- **Stability**: elements with one key keep their order. -/
theorem filter_sortBy (k : κ) (l : List α) :
    (sortBy key l).filter (fun b => key b = k) = l.filter (fun b => key b = k) := by
  induction l with
  | nil => rfl
  | cons a l ih =>
    have hstep : sortBy key (a :: l)
        = (sortBy key l).orderedInsert (fun a b => key a ≤ key b) a := rfl
    rw [hstep, filter_orderedInsert, List.filter_cons, List.filter_cons, ih]

/-- **The result does not depend on the order** of the input exactly if elements with one
key are equal. -/
theorem sortBy_perm_iff (l : List α) : (∀ l', l'.Perm l → sortBy key l' = sortBy key l)
      ↔ ∀ a ∈ l, ∀ b ∈ l, key a = key b → a = b := by
  constructor
  · intro h a ha b hb hkey
    by_contra hne
    obtain ⟨s, t, rfl⟩ := List.append_of_mem ha
    have hl₁ : (s ++ a :: t).Perm (a :: (s ++ t)) := List.perm_middle
    have hb₁ : b ∈ s ++ t := by
      rcases List.mem_cons.mp (hl₁.mem_iff.mp hb) with rfl | hb₁
      · exact absurd rfl hne
      · exact hb₁
    obtain ⟨s', t', hst⟩ := List.append_of_mem hb₁
    have hl₂ : (s ++ t).Perm (b :: (s' ++ t')) := by
      rw [hst]
      exact List.perm_middle
    have hperm : (s ++ a :: t).Perm (a :: b :: (s' ++ t')) := hl₁.trans (hl₂.cons a)
    have hab := h _ hperm.symm
    have hba := h (b :: a :: (s' ++ t')) ((List.Perm.swap a b _).trans hperm.symm)
    have hfilter := congrArg (List.filter (fun c => key c = key a)) (hab.trans hba.symm)
    rw [filter_sortBy, filter_sortBy] at hfilter
    simp only [List.filter_cons, hkey, decide_true, if_true] at hfilter
    exact hne (List.cons.inj hfilter).1
  · intro h l' hperm
    refine List.Perm.eq_of_pairwise ?_ (pairwise_sortBy key l') (pairwise_sortBy key l)
      (((perm_sortBy key l').trans hperm).trans (perm_sortBy key l).symm)
    intro a b ha hb hab hba
    have ha' : a ∈ l := hperm.mem_iff.mp ((perm_sortBy key l').mem_iff.mp ha)
    have hb' : b ∈ l := (perm_sortBy key l).mem_iff.mp hb
    exact h a ha' b hb' (le_antisymm hab hba)

end Ipfrs.Lib.StableSort

/-! ## Ordered maps as association lists with strictly increasing keys

The list is the map's iteration order, which is what an encoder walks, so an
encoder over such a map is a plain list recursion. `insert` keeps the keys
strictly increasing and replaces the value of a present key; `ofEntries` inserts
entry by entry, so a later entry for the same key wins.

`foldl_insert_of_sorted` is the fact a decoder's round trip rests on: inserting
entries whose keys increase past the map's last key appends them in order. -/

namespace Ipfrs.Lib.SortedAssoc

variable {κ : Type} {β : Type} [LinearOrder κ]

/-- Insert or replace, keeping the keys strictly increasing. -/
def insert (k : κ) (v : β) : List (κ × β) → List (κ × β)
  | [] => [(k, v)]
  | e :: m =>
    if k < e.1 then (k, v) :: e :: m
    else if k = e.1 then (k, v) :: m
    else e :: insert k v m

/-- The value stored under a key. -/
def get? : List (κ × β) → κ → Option β
  | [], _ => none
  | e :: m, k => if k = e.1 then some e.2 else get? m k

/-- Collect entries in order; a later entry for a key replaces an earlier one. -/
def ofEntries (l : List (κ × β)) : List (κ × β) :=
  l.foldl (fun m e => insert e.1 e.2 m) []

/-- Keys strictly increase along the list. -/
def Sorted (m : List (κ × β)) : Prop := m.Pairwise (fun a b => a.1 < b.1)

instance (m : List (κ × β)) : Decidable (Sorted m) :=
  inferInstanceAs (Decidable (m.Pairwise _))

theorem sorted_nil : Sorted ([] : List (κ × β)) := List.Pairwise.nil

variable {k : κ} {l m : List (κ × β)}

theorem mem_insert {v : β} {e : κ × β} :
    ∀ {m : List (κ × β)}, e ∈ insert k v m → e = (k, v) ∨ e ∈ m
  | [], h => by simpa [insert] using h
  | a :: m, h => by
    rw [insert] at h
    split at h
    · simpa using h
    · split at h
      · rcases List.mem_cons.mp h with rfl | hm
        · exact .inl rfl
        · exact .inr (List.mem_cons_of_mem _ hm)
      · rcases List.mem_cons.mp h with rfl | hm
        · exact .inr List.mem_cons_self
        · rcases mem_insert hm with he | he
          · exact .inl he
          · exact .inr (List.mem_cons_of_mem _ he)

/-- Insertion keeps the map ordered. -/
theorem sorted_insert (k : κ) (v : β) :
    ∀ {m : List (κ × β)}, Sorted m → Sorted (insert k v m)
  | [], _ => by simp [insert, Sorted]
  | a :: m, h => by
    obtain ⟨hlt, hm⟩ := List.pairwise_cons.mp h
    rw [insert]
    split
    · next hk =>
      refine List.pairwise_cons.mpr ⟨fun b hb => ?_, h⟩
      rcases List.mem_cons.mp hb with rfl | hb
      · exact hk
      · exact lt_trans hk (hlt b hb)
    · split
      · next hk => exact List.pairwise_cons.mpr ⟨fun b hb => hk ▸ hlt b hb, hm⟩
      · next hnlt hne =>
        refine List.pairwise_cons.mpr ⟨fun b hb => ?_, sorted_insert k v hm⟩
        rcases mem_insert hb with rfl | hb
        · exact lt_of_le_of_ne (not_lt.mp hnlt) (fun he => hne he.symm)
        · exact hlt b hb

theorem length_insert_le (k : κ) (v : β) :
    ∀ m : List (κ × β), (insert k v m).length ≤ m.length + 1
  | [] => by simp [insert]
  | a :: m => by
    have ih := length_insert_le k v m
    rw [insert]
    split
    · simp
    · split
      · simp
      · simp only [List.length_cons]; omega

/-- A key above every stored key is appended. -/
theorem insert_of_above (k : κ) (v : β) :
    ∀ m : List (κ × β), (∀ e ∈ m, e.1 < k) → insert k v m = m ++ [(k, v)]
  | [], _ => rfl
  | a :: m, h => by
    have ha : a.1 < k := h a List.mem_cons_self
    rw [insert, if_neg (not_lt_of_gt ha), if_neg (ne_of_gt ha),
      insert_of_above k v m (fun e he => h e (List.mem_cons_of_mem _ he))]
    rfl

/-- Inserting entries that continue the order appends them. -/
theorem foldl_insert_of_sorted :
    ∀ (l m : List (κ × β)), Sorted (m ++ l) →
      l.foldl (fun acc e => insert e.1 e.2 acc) m = m ++ l
  | [], m, _ => by simp
  | e :: l, m, h => by
    have habove : ∀ a ∈ m, a.1 < e.1 := fun a ha =>
      (List.pairwise_append.mp h).2.2 a ha e List.mem_cons_self
    have hassoc : (m ++ [(e.1, e.2)]) ++ l = m ++ e :: l := by simp
    rw [List.foldl_cons, insert_of_above e.1 e.2 m habove,
      foldl_insert_of_sorted l _ (hassoc ▸ h), hassoc]

/-- An ordered entry list collects to itself. -/
theorem ofEntries_of_sorted (h : Sorted l) : ofEntries l = l := by
  have := foldl_insert_of_sorted l [] (by simpa using h)
  simpa [ofEntries] using this

theorem sorted_foldl_insert :
    ∀ (l m : List (κ × β)), Sorted m →
      Sorted (l.foldl (fun acc e => insert e.1 e.2 acc) m)
  | [], _, h => h
  | e :: l, _, h => sorted_foldl_insert l _ (sorted_insert e.1 e.2 h)

theorem sorted_ofEntries (l : List (κ × β)) : Sorted (ofEntries l) :=
  sorted_foldl_insert l [] sorted_nil

theorem mem_foldl_insert {e : κ × β} :
    ∀ (l m : List (κ × β)), e ∈ l.foldl (fun acc e => insert e.1 e.2 acc) m → e ∈ l ∨ e ∈ m := by
  intro l
  induction l with
  | nil =>
    intro m h
    exact .inr h
  | cons a l ih =>
    intro m h
    rcases ih _ h with h | h
    · exact .inl (List.mem_cons_of_mem _ h)
    · rcases mem_insert h with rfl | h
      · exact .inl List.mem_cons_self
      · exact .inr h

theorem mem_of_mem_ofEntries {e : κ × β} (h : e ∈ ofEntries l) : e ∈ l := by
  rcases mem_foldl_insert l [] h with h | h
  · exact h
  · cases h

theorem length_foldl_insert_le : ∀ (l m : List (κ × β)),
    (l.foldl (fun acc e => insert e.1 e.2 acc) m).length ≤ m.length + l.length := by
  intro l
  induction l with
  | nil =>
    intro m
    exact Nat.le_refl _
  | cons a l ih =>
    intro m
    have h1 := ih (insert a.1 a.2 m)
    have h2 := length_insert_le a.1 a.2 m
    simp only [List.foldl_cons, List.length_cons] at h1 ⊢
    omega

theorem length_ofEntries_le (l : List (κ × β)) : (ofEntries l).length ≤ l.length := by
  simpa [ofEntries] using length_foldl_insert_le l []

theorem mem_of_get? {v : β} (h : get? m k = some v) : (k, v) ∈ m := by
  induction m with
  | nil => cases h
  | cons a m ih =>
    rw [get?] at h
    split at h
    · next hk =>
      cases h
      rw [hk]
      exact List.mem_cons_self
    · exact List.mem_cons_of_mem _ (ih h)

/-- Lookup after a function on the values. -/
theorem get?_map_values {γ : Type} (f : β → γ) (k : κ) : ∀ m : List (κ × β),
    get? (m.map (fun e => (e.1, f e.2))) k = (get? m k).map f
  | [] => rfl
  | a :: m => by
    simp only [List.map_cons, get?, get?_map_values f k m]
    split <;> rfl

theorem sorted_map_values {γ : Type} (f : β → γ) (h : Sorted m) :
    Sorted (m.map (fun e => (e.1, f e.2))) := by
  rw [Sorted, List.pairwise_map]
  exact h

/-- Lookup after insertion. -/
theorem get?_insert (k : κ) (v : β) (k' : κ) :
    ∀ m : List (κ × β), get? (insert k v m) k' = if k' = k then some v else get? m k'
  | [] => by simp [insert, get?]
  | a :: m => by
    have ih := get?_insert k v k' m
    rw [insert]
    split
    · simp [get?]
    · split
      · next hk =>
        subst hk
        simp only [get?]
        split <;> rfl
      · next hne =>
        simp only [get?, ih]
        by_cases h : k' = a.1
        · have hk : ¬ k' = k := fun hk => hne (hk.symm.trans h)
          rw [if_pos h, if_neg hk, if_pos h]
        · rw [if_neg h, if_neg h]

/-- Lookup in collected entries finds the last one. -/
theorem get?_ofEntries (l : List (κ × β)) (k : κ) :
    get? (ofEntries l) k = (l.reverse.find? (fun e => e.1 == k)).map Prod.snd := by
  rw [ofEntries, ← List.foldr_reverse]
  induction l.reverse with
  | nil => rfl
  | cons e l ih =>
    rw [List.foldr_cons, get?_insert, ih]
    by_cases h : k = e.1
    · simp [h]
    · simp [h, Ne.symm h]

theorem find?_of_nodup {v : β} : ∀ {l : List (κ × β)}, (l.map Prod.fst).Nodup →
    (k, v) ∈ l → l.find? (fun e => e.1 == k) = some (k, v)
  | e :: l, hnodup, hmem => by
    rw [List.map_cons, List.nodup_cons] at hnodup
    rw [List.find?_cons]
    rcases List.mem_cons.mp hmem with rfl | hmem
    · simp
    · have hne : e.1 ≠ k := fun heq => hnodup.1 (heq ▸ List.mem_map_of_mem hmem)
      rw [beq_false_of_ne hne]
      exact find?_of_nodup hnodup.2 hmem

/-- With different keys, every entry is found. -/
theorem get?_ofEntries_of_nodup (h : (l.map Prod.fst).Nodup) {v : β} (hmem : (k, v) ∈ l) :
    get? (ofEntries l) k = some v := by
  have hrev : (l.reverse.map Prod.fst).Nodup := by
    rw [List.map_reverse]
    exact List.nodup_reverse.mpr h
  rw [get?_ofEntries, find?_of_nodup hrev (List.mem_reverse.mpr hmem)]
  rfl

theorem nodup_keys (h : Sorted m) : (m.map Prod.fst).Nodup := by
  rw [List.Nodup, List.pairwise_map]
  exact h.imp (fun hlt => ne_of_lt hlt)

theorem mem_keys_ofEntries (h : k ∈ l.map Prod.fst) : k ∈ (ofEntries l).map Prod.fst := by
  obtain ⟨e, he, rfl⟩ := List.mem_map.mp h
  have hfind : (l.reverse.find? (fun e' => e'.1 == e.1)).isSome := by
    rw [List.find?_isSome]
    exact ⟨e, List.mem_reverse.mpr he, beq_self_eq_true _⟩
  obtain ⟨e', he'⟩ := Option.isSome_iff_exists.mp hfind
  have hget : get? (ofEntries l) e.1 = some e'.2 := by rw [get?_ofEntries, he']; rfl
  exact List.mem_map.mpr ⟨(e.1, e'.2), mem_of_get? hget, rfl⟩

/-- **No entry is lost** exactly if the keys are different. -/
theorem length_ofEntries_eq_iff (l : List (κ × β)) :
    (ofEntries l).length = l.length ↔ (l.map Prod.fst).Nodup := by
  have hkeys := nodup_keys (sorted_ofEntries l)
  have hsub : (ofEntries l).map Prod.fst ⊆ l.map Prod.fst := by
    intro k hk
    obtain ⟨e, he, rfl⟩ := List.mem_map.mp hk
    exact List.mem_map_of_mem (mem_of_mem_ofEntries he)
  constructor
  · intro hlen
    have hperm := (hkeys.subperm hsub).perm_of_length_le (by simp [hlen])
    exact hperm.nodup_iff.mp hkeys
  · intro hnodup
    have hle := (hnodup.subperm (fun k => mem_keys_ofEntries)).length_le
    rw [List.length_map, List.length_map] at hle
    exact Nat.le_antisymm (length_ofEntries_le l) hle

theorem exists_get?_ofEntries : (get? (ofEntries l) k).isSome ↔ k ∈ l.map Prod.fst := by
  rw [get?_ofEntries, Option.isSome_map, List.find?_isSome]
  simp

/-- **Of the keys that are asked for no entry is lost** exactly if these are different. -/
theorem filter_ofEntries_perm_iff (p : κ → Bool) (l : List (κ × β)) :
    ((ofEntries l).filter (fun e => p e.1)).Perm (l.filter (fun e => p e.1))
      ↔ ((l.filter (fun e => p e.1)).map Prod.fst).Nodup := by
  have hkeys : (((ofEntries l).filter (fun e => p e.1)).map Prod.fst).Nodup :=
    (nodup_keys (sorted_ofEntries l)).sublist (List.filter_sublist.map Prod.fst)
  constructor
  · intro hperm
    exact (hperm.map Prod.fst).nodup_iff.mp hkeys
  · intro hnodup
    refine (List.perm_ext_iff_of_nodup hkeys.of_map hnodup.of_map).mpr (fun e => ?_)
    rw [List.mem_filter, List.mem_filter]
    refine and_congr_left (fun hp => ⟨mem_of_mem_ofEntries, fun he => ?_⟩)
    have hsome := exists_get?_ofEntries.mpr (List.mem_map_of_mem he)
    obtain ⟨v, hget⟩ := Option.isSome_iff_exists.mp hsome
    have hmem := mem_of_get? hget
    -- the entry found is the only one of its key
    have hsame : (e.1, v) = e := by
      refine List.inj_on_of_nodup_map hnodup ?_ (List.mem_filter.mpr ⟨he, hp⟩) rfl
      exact List.mem_filter.mpr ⟨mem_of_mem_ofEntries hmem, hp⟩
    exact hsame ▸ hmem

end Ipfrs.Lib.SortedAssoc
