/-
Ipfrs.Lib.Lru — bounded maps that forget the entry used longest ago.

`Lru` lists the operations of such a map over a representation `C`; `Lawful` says what
a user may rely on without knowing which entry is forgotten: a lookup changes no
entry, a stored value is there right after it is stored, and an entry that is there
later was there before or is the one that was stored. `All.new`, `All.get`, `All.pop`
and `All.put` are the invariant rules that follow: a property of all entries survives
every operation as long as it holds of what is stored.

`recency` is the map as the list of its entries from the one used last to the one
used longest ago.
-/
import Mathlib.Data.PNat.Defs
import Mathlib.Data.List.Basic

namespace Ipfrs.Lib

/-- The operations of a bounded map over the representation `C`. -/
structure Lru (C κ β : Type) where
  new : ℕ+ → C
  get : C → κ → Option β × C
  put : C → κ → β → C
  pop : C → κ → Option β × C
  len : C → Nat
  cap : C → ℕ+

namespace Lru

variable {C κ β : Type}

/-- The value a lookup finds. -/
def lookup (lru : Lru C κ β) (c : C) (k : κ) : Option β := (lru.get c k).1

/-- What a user of the map relies on. -/
structure Lawful (lru : Lru C κ β) : Prop where
  lookup_new : ∀ n k, lru.lookup (lru.new n) k = none
  lookup_get : ∀ c k k', lru.lookup (lru.get c k).2 k' = lru.lookup c k'
  lookup_put_self : ∀ c k v, lru.lookup (lru.put c k v) k = some v
  lookup_put : ∀ c k v k' w, k' ≠ k → lru.lookup (lru.put c k v) k' = some w →
    lru.lookup c k' = some w
  lookup_pop : ∀ c k k' w, lru.lookup (lru.pop c k).2 k' = some w → lru.lookup c k' = some w

/-- What is taken out is gone. -/
structure Forgets (lru : Lru C κ β) : Prop where
  lookup_pop_self : ∀ c k, lru.lookup (lru.pop c k).2 k = none

/-- Storing that hands back the entry it displaces: the one the key had, or else the one
used longest ago if there is no room. -/
structure Pushing (lru : Lru C κ β) where
  push : C → κ → β → Option (κ × β) × C
  snd_push : ∀ c k v, (push c k v).2 = lru.put c k v
  fst_push : ∀ c k v e, (push c k v).1 = some e → lru.lookup c e.1 = some e.2

/-- Every entry of the map has the property. -/
def All (lru : Lru C κ β) (P : κ → β → Prop) (c : C) : Prop :=
  ∀ k v, lru.lookup c k = some v → P k v

namespace All

variable {lru : Lru C κ β} {P Q : κ → β → Prop} {c : C}

theorem new (hl : lru.Lawful) (n : ℕ+) : lru.All P (lru.new n) := by
  intro k v hv
  rw [hl.lookup_new] at hv
  cases hv

theorem get (hl : lru.Lawful) (h : lru.All P c) (k : κ) : lru.All P (lru.get c k).2 := by
  intro k' v hv
  rw [hl.lookup_get] at hv
  exact h k' v hv

theorem pop (hl : lru.Lawful) (h : lru.All P c) (k : κ) : lru.All P (lru.pop c k).2 := by
  intro k' v hv
  exact h k' v (hl.lookup_pop c k k' v hv)

theorem mono (h : lru.All P c) (himp : ∀ k v, P k v → Q k v) : lru.All Q c :=
  fun k v hv => himp k v (h k v hv)

/-- Nothing is left of the key that is taken out. -/
theorem pop_ne (hl : lru.Lawful) (hf : lru.Forgets) (h : lru.All P c) (k : κ) :
    lru.All (fun k' v => k' ≠ k ∧ P k' v) (lru.pop c k).2 := by
  intro k' v hv
  refine ⟨?_, pop hl h k k' v hv⟩
  rintro rfl
  rw [hf.lookup_pop_self] at hv
  cases hv

/-- Storing may change the property, as long as the other keys keep theirs. -/
theorem put (hl : lru.Lawful) (h : lru.All P c) {k : κ} {v : β} (hself : Q k v)
    (hother : ∀ k' w, k' ≠ k → P k' w → Q k' w) : lru.All Q (lru.put c k v) := by
  intro k' w hw
  by_cases hk : k' = k
  · subst hk
    rw [hl.lookup_put_self] at hw
    cases hw
    exact hself
  · exact hother k' w hk (h k' w (hl.lookup_put c k v k' w hk hw))

end All

end Lru

/-! ## Entries by recency -/

/-- The entries from the one used last to the one used longest ago. -/
structure Recency (κ β : Type) where
  capacity : ℕ+
  entries : List (κ × β)

namespace Recency

variable {κ β : Type} [DecidableEq κ]

/-- The value of the first entry with the key. -/
def find (k : κ) : List (κ × β) → Option β
  | [] => none
  | e :: l => if e.1 = k then some e.2 else find k l

/-- The entries with another key. -/
def drop (k : κ) (l : List (κ × β)) : List (κ × β) := l.filter (fun e => e.1 ≠ k)

theorem find_drop (k k' : κ) (l : List (κ × β)) :
    find k' (drop k l) = if k' = k then none else find k' l := by
  induction l with
  | nil => simp [drop, find]
  | cons e l ih =>
    unfold drop at ih ⊢
    by_cases he : e.1 = k
    · by_cases hk : k' = k
      · simpa [he, hk] using ih
      · have hne : ¬k = k' := fun h => hk h.symm
        simpa [find, he, hk, hne] using ih
    · by_cases hk : k' = k
      · subst hk
        simpa [find, he] using ih
      · simpa [find, he, hk] using congrArg (fun r => if e.1 = k' then some e.2 else r) ih

theorem find_take {k : κ} {v : β} {n : Nat} {l : List (κ × β)} (h : find k (l.take n) = some v) :
    find k l = some v := by
  induction l generalizing n with
  | nil => simp [find] at h
  | cons e l ih =>
    cases n with
    | zero => simp [find] at h
    | succ n =>
      rw [List.take_succ_cons, find] at h
      rw [find]
      split at h
      · rename_i he
        rw [if_pos he]
        exact h
      · rename_i he
        rw [if_neg he]
        exact ih h

/-- A lookup moves the entry it finds to the front. -/
def touch (k : κ) (c : Recency κ β) : Recency κ β :=
  match find k c.entries with
  | none => c
  | some v => { c with entries := (k, v) :: drop k c.entries }

/-- Storing puts the entry in front; of too many entries the last one goes. -/
def store (k : κ) (v : β) (c : Recency κ β) : Recency κ β :=
  { c with entries := ((k, v) :: drop k c.entries).take c.capacity }

end Recency

open Recency in
/-- The bounded map that keeps its entries by recency. -/
def recency (κ β : Type) [DecidableEq κ] : Lru (Recency κ β) κ β where
  new capacity := { capacity, entries := [] }
  get c k := (find k c.entries, touch k c)
  put c k v := store k v c
  pop c k := (find k c.entries, { c with entries := drop k c.entries })
  len c := c.entries.length
  cap c := c.capacity

theorem recency_lawful (κ β : Type) [DecidableEq κ] : (recency κ β).Lawful where
  lookup_new n k := rfl
  lookup_get c k k' := by
    show Recency.find k' (Recency.touch k c).entries = Recency.find k' c.entries
    unfold Recency.touch
    split
    · rfl
    · rename_i v hv
      rw [Recency.find, Recency.find_drop]
      by_cases hk : k' = k
      · subst hk
        simp [hv]
      · have hne : ¬k = k' := fun h => hk h.symm
        simp [hk, hne]
  lookup_put_self c k v := by
    show Recency.find k (Recency.store k v c).entries = some v
    obtain ⟨n, hn⟩ := Nat.exists_eq_succ_of_ne_zero c.capacity.ne_zero
    simp [Recency.store, hn, Recency.find]
  lookup_put c k v k' w hk h := by
    have hstored : Recency.find k' (Recency.store k v c).entries = some w := h
    have hfound := Recency.find_take hstored
    have hne : ¬k = k' := fun h => hk h.symm
    show Recency.find k' c.entries = some w
    simpa [Recency.find, Recency.find_drop, hk, hne] using hfound
  lookup_pop c k k' w h := by
    have hfound : Recency.find k' (Recency.drop k c.entries) = some w := h
    rw [Recency.find_drop] at hfound
    split at hfound
    · cases hfound
    · exact hfound

theorem recency_forgets (κ β : Type) [DecidableEq κ] : (recency κ β).Forgets where
  lookup_pop_self c k := by
    show Recency.find k (Recency.drop k c.entries) = none
    rw [Recency.find_drop, if_pos rfl]

/-- The entry that storing under a key displaces. -/
def Recency.displaced {κ β : Type} [DecidableEq κ] (k : κ) (c : Recency κ β) : Option (κ × β) :=
  match find k c.entries with
  | some v => some (k, v)
  | none =>
    if c.entries.length < c.capacity then none
    else c.entries.getLast?.bind (fun e => (find e.1 c.entries).map (fun v => (e.1, v)))

def recencyPushing (κ β : Type) [DecidableEq κ] : (recency κ β).Pushing where
  push c k v := (Recency.displaced k c, (recency κ β).put c k v)
  snd_push _ _ _ := rfl
  fst_push c k v e h := by
    show Recency.find e.1 c.entries = some e.2
    have hgone : Recency.displaced k c = some e := h
    unfold Recency.displaced at hgone
    split at hgone
    · rename_i w hw
      cases hgone
      exact hw
    · split at hgone
      · cases hgone
      · obtain ⟨e', -, he'⟩ := Option.bind_eq_some_iff.mp hgone
        obtain ⟨w, hw, rfl⟩ := Option.map_eq_some_iff.mp he'
        exact hw

end Ipfrs.Lib
