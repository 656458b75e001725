/-
Ipfrs.Lib.EntryMap — hash maps.

A hash map is its entries, one for each key. `alter` is the entry interface of a map: it
gives a key a value made from the one it had, if any. `group` collects a sequence under keys,
and the groups together are the sequence in another order (`perm_filters`).
-/
import Mathlib.Data.List.Nodup
import Mathlib.Data.List.Perm.Basic

namespace Ipfrs.Lib

variable {κ β α : Type}

/-- The entries of a map, no two with the same key. -/
structure EntryMap (κ β : Type) where
  entries : List (κ × β)
  nodup : (entries.map Prod.fst).Nodup

namespace EntryMap

def empty : EntryMap κ β where
  entries := []
  nodup := List.nodup_nil

def keys (m : EntryMap κ β) : List κ := m.entries.map Prod.fst

theorem nodup_keys (m : EntryMap κ β) : m.keys.Nodup := m.nodup

def values (m : EntryMap κ β) : List β := m.entries.map Prod.snd

def size (m : EntryMap κ β) : Nat := m.entries.length

variable [DecidableEq κ]

/-- The first value of a key. -/
def find (k : κ) : List (κ × β) → Option β
  | [] => none
  | (k', v) :: rest => if k' = k then some v else find k rest

def get? (m : EntryMap κ β) (k : κ) : Option β := find k m.entries

/-- A new value for a key, at the end if the key is new. -/
def alterEntries (k : κ) (f : Option β → β) : List (κ × β) → List (κ × β)
  | [] => [(k, f none)]
  | (k', v) :: rest =>
    if k' = k then (k', f (some v)) :: rest else (k', v) :: alterEntries k f rest

variable {k k' : κ} {f : Option β → β} {m : EntryMap κ β} {key : α → κ}

theorem mem_keys_alterEntries : ∀ {l : List (κ × β)},
    k' ∈ (alterEntries k f l).map Prod.fst ↔ k' = k ∨ k' ∈ l.map Prod.fst
  | [] => by simp [alterEntries]
  | (k₀, v) :: rest => by
    rw [alterEntries]
    split
    · next heq =>
      subst heq
      simp
    · rw [List.map_cons, List.mem_cons, mem_keys_alterEntries, List.map_cons, List.mem_cons]
      exact or_left_comm

theorem nodup_alterEntries : ∀ {l : List (κ × β)},
    (l.map Prod.fst).Nodup → ((alterEntries k f l).map Prod.fst).Nodup
  | [], _ => List.nodup_singleton k
  | (k₀, v) :: rest, h => by
    obtain ⟨hfresh, hrest⟩ := List.nodup_cons.mp h
    rw [alterEntries]
    split
    · exact h
    · next hne =>
      refine List.nodup_cons.mpr ⟨?_, nodup_alterEntries hrest⟩
      rw [mem_keys_alterEntries, not_or]
      exact ⟨hne, hfresh⟩

def alter (m : EntryMap κ β) (k : κ) (f : Option β → β) : EntryMap κ β where
  entries := alterEntries k f m.entries
  nodup := nodup_alterEntries m.nodup

theorem mem_keys_alter : k' ∈ (m.alter k f).keys ↔ k' = k ∨ k' ∈ m.keys := mem_keys_alterEntries

theorem find_alterEntries : ∀ {l : List (κ × β)},
    find k' (alterEntries k f l) = if k' = k then some (f (find k l)) else find k' l
  | [] => by
    by_cases hk : k' = k
    · simp [alterEntries, find, hk]
    · simp [alterEntries, find, hk, Ne.symm hk]
  | (k₀, v) :: rest => by
    by_cases hk₀ : k₀ = k
    · subst hk₀
      by_cases hk : k' = k₀
      · simp [alterEntries, find, hk]
      · simp [alterEntries, find, hk, Ne.symm hk]
    · rw [alterEntries, if_neg hk₀, find, find_alterEntries, find, find, if_neg hk₀]
      by_cases hk : k' = k
      · rw [if_pos hk, if_pos hk, if_neg (by rw [hk]; exact hk₀)]
      · rw [if_neg hk, if_neg hk]

theorem get?_alter : (m.alter k f).get? k' = if k' = k then some (f (m.get? k)) else m.get? k' :=
  find_alterEntries

theorem isSome_find : ∀ {l : List (κ × β)},
    (find k l).isSome = true ↔ k ∈ l.map Prod.fst
  | [] => by simp [find]
  | (k₀, v) :: rest => by
    rw [find, List.map_cons, List.mem_cons]
    by_cases hk : k₀ = k
    · simp [hk]
    · simp [hk, Ne.symm hk, isSome_find]

theorem isSome_get? : (m.get? k).isSome = true ↔ k ∈ m.keys :=
  isSome_find

theorem get?_of_not_mem (h : k ∉ m.keys) : m.get? k = none := by
  rw [← Option.not_isSome_iff_eq_none, isSome_get?]
  exact h

theorem find_of_mem {v : β} : ∀ {l : List (κ × β)},
    (l.map Prod.fst).Nodup → (k, v) ∈ l → find k l = some v
  | (k₀, v₀) :: rest, hnodup, h => by
    obtain ⟨hfresh, hrest⟩ := List.nodup_cons.mp hnodup
    rcases List.mem_cons.mp h with heq | h
    · cases heq
      rw [find, if_pos rfl]
    · have hk : k ∈ rest.map Prod.fst := List.mem_map_of_mem h
      have hne : k₀ ≠ k := fun heq => hfresh (heq ▸ hk)
      rw [find, if_neg hne, find_of_mem hrest h]

theorem get?_of_mem {e : κ × β} (h : e ∈ m.entries) : m.get? e.1 = some e.2 := find_of_mem m.nodup h

theorem mem_of_find {v : β} : ∀ {l : List (κ × β)}, find k l = some v → (k, v) ∈ l
  | (k₀, v₀) :: rest, h => by
    rw [find] at h
    split at h
    · next heq =>
      cases h
      cases heq
      exact List.mem_cons_self
    · exact List.mem_cons_of_mem _ (mem_of_find h)

/-- The values are those of the keys. -/
theorem mem_values {v : β} : v ∈ m.values ↔ ∃ k, m.get? k = some v := by
  constructor
  · intro h
    obtain ⟨e, he, rfl⟩ := List.mem_map.mp h
    exact ⟨e.1, get?_of_mem he⟩
  · rintro ⟨k, hk⟩
    exact List.mem_map_of_mem (mem_of_find hk)

/-! ## Removal -/

def erase (m : EntryMap κ β) (k : κ) : EntryMap κ β where
  entries := m.entries.filter (fun e => e.1 ≠ k)
  nodup := m.nodup.sublist (List.Sublist.map _ List.filter_sublist)

theorem find_filter_ne : ∀ {l : List (κ × β)},
    find k' (l.filter (fun e => e.1 ≠ k)) = if k' = k then none else find k' l
  | [] => by simp [find]
  | (k₀, v) :: rest => by
    by_cases hk₀ : k₀ = k
    · rw [List.filter_cons_of_neg (by simpa using hk₀), find_filter_ne, find]
      by_cases hk : k' = k
      · rw [if_pos hk, if_pos hk]
      · rw [if_neg hk, if_neg hk, if_neg (fun heq => hk (heq.symm.trans hk₀))]
    · rw [List.filter_cons_of_pos (by simpa using hk₀), find, find_filter_ne, find]
      by_cases hk : k' = k
      · rw [if_pos hk, if_pos hk, if_neg (fun heq => hk₀ (heq.trans hk))]
      · rw [if_neg hk, if_neg hk]

theorem get?_erase : (m.erase k).get? k' = if k' = k then none else m.get? k' := find_filter_ne

/-! ## Groups -/

/-- A sequence collected under keys. -/
def group (key : α → κ) (l : List α) : EntryMap κ (List α) :=
  l.foldl (fun m a => m.alter (key a) (fun old => old.getD [] ++ [a])) empty

theorem mem_keys_foldl_alter {f : α → Option β → β} :
    ∀ {l : List α} {m : EntryMap κ β},
      k ∈ (l.foldl (fun m a => m.alter (key a) (f a)) m).keys ↔ k ∈ l.map key ∨ k ∈ m.keys
  | [], m => by simp
  | a :: l, m => by
    rw [List.foldl_cons, mem_keys_foldl_alter, mem_keys_alter, List.map_cons, List.mem_cons,
      or_assoc, or_left_comm]

theorem mem_keys_group {l : List α} : k ∈ (group key l).keys ↔ k ∈ l.map key := by
  rw [group, mem_keys_foldl_alter]
  simp [keys, empty]

theorem getD_get?_foldl_group :
    ∀ {l : List α} {m : EntryMap κ (List α)},
      ((l.foldl (fun m a => m.alter (key a) (fun old => old.getD [] ++ [a])) m).get? k).getD []
        = (m.get? k).getD [] ++ l.filter (fun a => key a = k)
  | [], m => by simp
  | a :: l, m => by
    rw [List.foldl_cons, getD_get?_foldl_group, get?_alter]
    by_cases hk : k = key a
    · subst hk
      simp
    · simp [hk, Ne.symm hk]

/-- The group of a key is what has this key. -/
theorem getD_get?_group {l : List α} :
    ((group key l).get? k).getD [] = l.filter (fun a => key a = k) := by
  rw [group, getD_get?_foldl_group]
  rfl

/-- The parts of a sequence under distinct keys are together the sequence. -/
theorem perm_filters [DecidableEq α] {l : List α} {ks : List κ} (hks : ks.Nodup)
    (hall : ∀ a ∈ l, key a ∈ ks) :
    (ks.flatMap (fun k => l.filter (fun a => key a = k))).Perm l := by
  have hcount : ∀ (a : α) (ks : List κ), ks.Nodup →
      (ks.flatMap (fun k => l.filter (fun a => key a = k))).count a
        = if key a ∈ ks then l.count a else 0 := by
    intro a ks hks
    induction ks with
    | nil => rfl
    | cons k ks ih =>
      obtain ⟨hfresh, hrest⟩ := List.nodup_cons.mp hks
      rw [List.flatMap_cons, List.count_append, ih hrest]
      by_cases hk : key a = k
      · subst hk
        rw [List.count_filter (by simp), if_neg hfresh, if_pos List.mem_cons_self, Nat.add_zero]
      · have hnot : a ∉ l.filter (fun a => key a = k) := by simp [hk]
        rw [List.count_eq_zero_of_not_mem hnot, Nat.zero_add]
        simp [hk]
  rw [List.perm_iff_count]
  intro a
  rw [hcount a ks hks]
  by_cases ha : a ∈ l
  · rw [if_pos (hall a ha)]
  · rw [List.count_eq_zero_of_not_mem ha, ite_self]

end EntryMap

end Ipfrs.Lib
