/-
Ipfrs.Lib.Trie — `w`-way tries keyed by digit sequences.

A key is read one digit per level. A slot of a node is empty, a single entry
placed at the first level where it is alone, or a node one level down. `insert`
splits a slot by pushing both entries one level further, and fails when the
levels run out.

The invariant `Ok` has three parts: an entry sits below the slots its digits name
(`routed`), the levels left suffice, and every node below the top holds two
different keys (`crowded`). Under it `insert` never fails and changes the entries
as a map does (`insert_spec`), `find` and `toList` read the same entries
(`find_eq_some_iff`, `nodup_keys`), and the shape is a function of the entries
(`eq_of_mem_iff`): whatever the order of insertions, the trie is the same.
-/
import Mathlib.Data.List.FinRange

namespace Ipfrs.Lib

/-- A slot of a trie. -/
inductive Trie (w : Nat) (κ ν : Type) where
  | empty
  | leaf (k : κ) (v : ν)
  | branch (slots : Fin w → Trie w κ ν)

namespace Trie

variable {w : Nat} {κ ν : Type}

/-- The slots of a node without entries. -/
def vacant : Fin w → Trie w κ ν := fun _ => .empty

/-- The entries of a slot. -/
def toList : Trie w κ ν → List (κ × ν)
  | .empty => []
  | .leaf k v => [(k, v)]
  | .branch slots => (List.finRange w).flatMap (fun i => (slots i).toList)

/-- The entries of a node. -/
def entries (slots : Fin w → Trie w κ ν) : List (κ × ν) :=
  (List.finRange w).flatMap (fun i => (slots i).toList)

@[simp] theorem toList_branch (slots : Fin w → Trie w κ ν) :
    (Trie.branch slots).toList = entries slots := rfl

theorem mem_entries {slots : Fin w → Trie w κ ν} {e : κ × ν} :
    e ∈ entries slots ↔ ∃ i, e ∈ (slots i).toList := by
  simp [entries]

@[simp] theorem not_mem_entries_vacant {e : κ × ν} : e ∉ entries (vacant : Fin w → Trie w κ ν) := by
  simp [entries, vacant, toList]

section

variable [DecidableEq κ] (digit : κ → Nat → Fin w)

/-- Insert with `n` levels left, the next digit being the one at `d`. -/
def insert : (n d : Nat) → (Fin w → Trie w κ ν) → κ → ν → Option (Fin w → Trie w κ ν)
  | 0, _, _, _, _ => none
  | n + 1, d, slots, k, v =>
    match slots (digit k d) with
    | .empty => some (Function.update slots (digit k d) (.leaf k v))
    | .leaf k' v' =>
      if k' = k then some (Function.update slots (digit k d) (.leaf k v))
      else do
        let below ← insert n (d + 1) vacant k' v'
        let below ← insert n (d + 1) below k v
        some (Function.update slots (digit k d) (.branch below))
    | .branch below => do
        let below ← insert n (d + 1) below k v
        some (Function.update slots (digit k d) (.branch below))

/-- Look a key up with `n` levels left. -/
def find : (n d : Nat) → (Fin w → Trie w κ ν) → κ → Option ν
  | 0, _, _, _ => none
  | n + 1, d, slots, k =>
    match slots (digit k d) with
    | .empty => none
    | .leaf k' v => if k' = k then some v else none
    | .branch below => find n (d + 1) below k

end

/-! ## The invariant -/

variable (digit : κ → Nat → Fin w)

/-- A slot with `n` levels below it, whose own digit is the one before `d`. -/
inductive Ok : Nat → Nat → Trie w κ ν → Prop where
  | empty (n d) : Ok n d .empty
  | leaf (n d k v) : Ok n d (.leaf k v)
  | branch (n d) (slots : Fin w → Trie w κ ν)
      (below : ∀ i, Ok n (d + 1) (slots i))
      (routed : ∀ i, ∀ e ∈ (slots i).toList, digit e.1 d = i)
      (crowded : ∃ e ∈ entries slots, ∃ e' ∈ entries slots, e.1 ≠ e'.1) :
      Ok (n + 1) d (.branch slots)

/-- A node with `n` levels left: as a branch, but it may hold one entry or none. -/
structure NodeOk (n d : Nat) (slots : Fin w → Trie w κ ν) : Prop where
  below : ∀ i, Ok digit n (d + 1) (slots i)
  routed : ∀ i, ∀ e ∈ (slots i).toList, digit e.1 d = i

variable {digit}

theorem nodeOk_vacant (n d : Nat) : NodeOk digit n d (vacant : Fin w → Trie w κ ν) where
  below _ := .empty _ _
  routed _ e he := by cases he

theorem NodeOk.branch {n d : Nat} {slots : Fin w → Trie w κ ν} (h : NodeOk digit n d slots)
    (crowded : ∃ e ∈ entries slots, ∃ e' ∈ entries slots, e.1 ≠ e'.1) :
    Ok digit (n + 1) d (.branch slots) :=
  .branch n d slots h.below h.routed crowded

/-- An entry of a node sits in the slot its digit names, and in no other. -/
theorem NodeOk.mem_slot_iff {n d : Nat} {slots : Fin w → Trie w κ ν}
    (h : NodeOk digit n d slots) {i : Fin w} {e : κ × ν} :
    e ∈ (slots i).toList ↔ e ∈ entries slots ∧ digit e.1 d = i := by
  rw [mem_entries]
  constructor
  · intro he
    exact ⟨⟨i, he⟩, h.routed i e he⟩
  · rintro ⟨⟨j, hj⟩, hi⟩
    rw [← hi, h.routed j e hj]
    exact hj

/-- Replacing a slot by one whose entries belong there keeps the node well
formed. -/
theorem NodeOk.update {n d : Nat} {slots : Fin w → Trie w κ ν} (h : NodeOk digit n d slots)
    {i : Fin w} {t : Trie w κ ν} (ht : Ok digit n (d + 1) t)
    (hrouted : ∀ e ∈ t.toList, digit e.1 d = i) : NodeOk digit n d (Function.update slots i t) where
  below j := by
    by_cases hj : j = i
    · subst hj
      rw [Function.update_self]
      exact ht
    · rw [Function.update_of_ne hj]
      exact h.below j
  routed j e he := by
    by_cases hj : j = i
    · subst hj
      rw [Function.update_self] at he
      exact hrouted e he
    · rw [Function.update_of_ne hj] at he
      exact h.routed j e he

theorem mem_entries_update {slots : Fin w → Trie w κ ν} {i : Fin w} {t : Trie w κ ν} {e : κ × ν} :
    e ∈ entries (Function.update slots i t) ↔ e ∈ t.toList ∨ ∃ j, j ≠ i ∧ e ∈ (slots j).toList := by
  rw [mem_entries]
  constructor
  · rintro ⟨j, he⟩
    by_cases hj : j = i
    · subst hj
      rw [Function.update_self] at he
      exact .inl he
    · rw [Function.update_of_ne hj] at he
      exact .inr ⟨j, hj, he⟩
  · rintro (he | ⟨j, hj, he⟩)
    · exact ⟨i, by rw [Function.update_self]; exact he⟩
    · exact ⟨j, by rw [Function.update_of_ne hj]; exact he⟩

/-! ## Listing -/

/-- Different slots of a node hold different keys. -/
theorem nodup_slots {n d : Nat} {slots : Fin w → Trie w κ ν} (h : NodeOk digit n d slots)
    (hslots : ∀ i, ((slots i).toList.map Prod.fst).Nodup) :
    ((entries slots).map Prod.fst).Nodup := by
  rw [entries, List.map_flatMap, List.nodup_flatMap]
  refine ⟨fun i _ => hslots i, ?_⟩
  refine (List.nodup_finRange w).imp ?_
  intro i j hij x hx hx'
  obtain ⟨e, he, rfl⟩ := List.mem_map.mp hx
  obtain ⟨e', he', hee⟩ := List.mem_map.mp hx'
  have h1 := h.routed i e he
  have h2 := h.routed j e' he'
  rw [hee] at h2
  exact hij (h1.symm.trans h2)

theorem Ok.nodup_keys {n d : Nat} {t : Trie w κ ν} (h : Ok digit n d t) :
    (t.toList.map Prod.fst).Nodup := by
  induction h with
  | empty n d => exact List.nodup_nil
  | leaf n d k v => exact List.nodup_singleton _
  | branch n d slots below routed _ ih => exact nodup_slots ⟨below, routed⟩ ih

/-- A node lists each key once. -/
theorem NodeOk.nodup_keys {n d : Nat} {slots : Fin w → Trie w κ ν}
    (h : NodeOk digit n d slots) : ((entries slots).map Prod.fst).Nodup :=
  nodup_slots h (fun i => (h.below i).nodup_keys)

/-! ## Uniqueness of shape -/

/-- Slots with the same entries are the same slot. -/
theorem Ok.eq_of_mem_iff {n d : Nat} {t : Trie w κ ν} (h : Ok digit n d t) :
    ∀ {n' : Nat} {t' : Trie w κ ν}, Ok digit n' d t' → (∀ e, e ∈ t.toList ↔ e ∈ t'.toList) →
      t = t' := by
  induction h with
  | empty n d =>
    intro n' t' h' hmem
    cases h' with
    | empty => rfl
    | leaf _ _ k v =>
      exact absurd ((hmem (k, v)).mpr (List.mem_singleton_self _)) (by simp [toList])
    | branch _ _ slots _ _ crowded =>
      obtain ⟨e, he, _⟩ := crowded
      exact absurd ((hmem e).mpr he) (by simp [toList])
  | leaf n d k v =>
    intro n' t' h' hmem
    cases h' with
    | empty => exact absurd ((hmem (k, v)).mp (List.mem_singleton_self _)) (by simp [toList])
    | leaf _ _ k' v' =>
      have he := List.mem_singleton.mp ((hmem (k, v)).mp (List.mem_singleton_self _))
      rw [Prod.mk.injEq] at he
      rw [he.1, he.2]
    | branch _ _ slots _ _ crowded =>
      obtain ⟨e, he, e', he', hne⟩ := crowded
      have h1 := List.mem_singleton.mp ((hmem e).mpr he)
      have h2 := List.mem_singleton.mp ((hmem e').mpr he')
      rw [h1, h2] at hne
      exact absurd rfl hne
  | branch n d slots below routed crowded ih =>
    intro n' t' h' hmem
    cases h' with
    | empty =>
      obtain ⟨e, he, _⟩ := crowded
      exact absurd ((hmem e).mp he) (by simp [toList])
    | leaf _ _ k v =>
      obtain ⟨e, he, e', he', hne⟩ := crowded
      have h1 := List.mem_singleton.mp ((hmem e).mp he)
      have h2 := List.mem_singleton.mp ((hmem e').mp he')
      rw [h1, h2] at hne
      exact absurd rfl hne
    | branch _ _ slots' below' routed' _ =>
      have hnode : NodeOk digit n d slots := ⟨below, routed⟩
      have hnode' : NodeOk digit _ d slots' := ⟨below', routed'⟩
      congr 1
      funext i
      refine ih i (below' i) (fun e => ?_)
      rw [hnode.mem_slot_iff, hnode'.mem_slot_iff]
      exact and_congr_left' (hmem e)

/-- **Canonical shape**: nodes with the same entries are the same node. -/
theorem NodeOk.eq_of_mem_iff {n n' d : Nat} {slots slots' : Fin w → Trie w κ ν}
    (h : NodeOk digit n d slots) (h' : NodeOk digit n' d slots')
    (hmem : ∀ e, e ∈ entries slots ↔ e ∈ entries slots') : slots = slots' := by
  funext i
  refine (h.below i).eq_of_mem_iff (h'.below i) (fun e => ?_)
  rw [h.mem_slot_iff, h'.mem_slot_iff]
  exact and_congr_left' (hmem e)

/-! ## Insertion -/

/-- `after` holds the entries of `before` with the entry of `k` set to `v`. -/
def Sets (k : κ) (v : ν) (before after : List (κ × ν)) : Prop :=
  ∀ e, e ∈ after ↔ e = (k, v) ∨ (e.1 ≠ k ∧ e ∈ before)

/-- Setting the entry in the key's slot sets it in the node. -/
theorem NodeOk.sets_update {n d : Nat} {slots : Fin w → Trie w κ ν}
    (h : NodeOk digit n d slots) {k : κ} {v : ν} {t : Trie w κ ν}
    (ht : Sets k v (slots (digit k d)).toList t.toList) :
    Sets k v (entries slots) (entries (Function.update slots (digit k d) t)) := by
  intro e
  rw [mem_entries_update, ht e]
  constructor
  · rintro ((rfl | ⟨hne, he⟩) | ⟨j, hj, he⟩)
    · exact .inl rfl
    · exact .inr ⟨hne, (h.mem_slot_iff.mp he).1⟩
    · obtain ⟨hmem, hdigit⟩ := h.mem_slot_iff.mp he
      refine .inr ⟨?_, hmem⟩
      intro hk
      exact hj (by rw [← hdigit, hk])
  · rintro (rfl | ⟨hne, he⟩)
    · exact .inl (.inl rfl)
    · by_cases hdigit : digit e.1 d = digit k d
      · exact .inl (.inr ⟨hne, h.mem_slot_iff.mpr ⟨he, hdigit⟩⟩)
      · exact .inr ⟨digit e.1 d, hdigit, h.mem_slot_iff.mpr ⟨he, rfl⟩⟩

/-- Setting an entry keeps two different keys. -/
theorem Sets.crowded {k : κ} {v : ν} {before after : List (κ × ν)} (h : Sets k v before after)
    (hb : ∃ e ∈ before, ∃ e' ∈ before, e.1 ≠ e'.1) : ∃ e ∈ after, ∃ e' ∈ after, e.1 ≠ e'.1 := by
  have keeps : ∀ e ∈ before, ∃ e' ∈ after, e'.1 = e.1 := by
    intro e he
    by_cases hk : e.1 = k
    · exact ⟨(k, v), (h _).mpr (.inl rfl), hk.symm⟩
    · exact ⟨e, (h _).mpr (.inr ⟨hk, he⟩), rfl⟩
  obtain ⟨e, he, e', he', hne⟩ := hb
  obtain ⟨a, ha, hae⟩ := keeps e he
  obtain ⟨a', ha', hae'⟩ := keeps e' he'
  exact ⟨a, ha, a', ha', by rw [hae, hae']; exact hne⟩

/-- Keys that share the digits before `d` and the slot at `d` share the digits
before `d + 1`. -/
theorem NodeOk.agree_succ {n d : Nat} {slots : Fin w → Trie w κ ν} (h : NodeOk digit n d slots)
    {k : κ} (hagree : ∀ e ∈ entries slots, ∀ j < d, digit e.1 j = digit k j) {e : κ × ν}
    (he : e ∈ (slots (digit k d)).toList) : ∀ j < d + 1, digit e.1 j = digit k j := by
  intro j hj
  obtain ⟨hmem, hdigit⟩ := h.mem_slot_iff.mp he
  rcases Nat.lt_succ_iff_lt_or_eq.mp hj with hj | rfl
  · exact hagree e hmem j hj
  · exact hdigit

variable [DecidableEq κ]

/-- What insertion does to a node with `n + 1` levels left. -/
def Inserts (digit : κ → Nat → Fin w) (n d : Nat) (slots : Fin w → Trie w κ ν) (k : κ) (v : ν) :
    Prop :=
  ∃ slots', insert digit (n + 1) d slots k v = some slots' ∧ NodeOk digit n d slots' ∧
    Sets k v (entries slots) (entries slots')

/-- A slot that is empty, or holds the key alone, takes the entry. -/
theorem inserts_leaf {n d : Nat} {slots : Fin w → Trie w κ ν} {k : κ} {v : ν}
    (h : NodeOk digit n d slots)
    (hslot : slots (digit k d) = .empty ∨ ∃ v', slots (digit k d) = .leaf k v') :
    Inserts digit n d slots k v := by
  have hinsert : insert digit (n + 1) d slots k v
      = some (Function.update slots (digit k d) (.leaf k v)) := by
    rcases hslot with hslot | ⟨v', hslot⟩
    · rw [insert, hslot]
    · rw [insert, hslot]
      exact if_pos rfl
  refine ⟨_, hinsert, h.update (.leaf _ _ _ _) ?_, h.sets_update ?_⟩
  · intro e he
    rw [List.mem_singleton.mp he]
  · intro e
    rcases hslot with hslot | ⟨v', hslot⟩
    · simp [hslot, toList]
    · simp only [hslot, toList, List.mem_singleton]
      constructor
      · exact .inl
      · rintro (he | ⟨hne, he⟩)
        · exact he
        · rw [he] at hne
          exact absurd rfl hne

/-- A slot replaced by a node one level down that sets the entry. -/
theorem inserts_branch {n d : Nat} {slots below : Fin w → Trie w κ ν} {k : κ} {v : ν}
    (h : NodeOk digit (n + 1) d slots) (hinsert : insert digit (n + 2) d slots k v
      = some (Function.update slots (digit k d) (.branch below)))
    (hbelow : NodeOk digit n (d + 1) below)
    (hcrowded : ∃ e ∈ entries below, ∃ e' ∈ entries below, e.1 ≠ e'.1)
    (hsets : Sets k v (slots (digit k d)).toList (entries below)) :
    Inserts digit (n + 1) d slots k v := by
  refine ⟨_, hinsert, h.update (hbelow.branch hcrowded) ?_, h.sets_update hsets⟩
  intro e he
  rcases (hsets e).mp he with rfl | ⟨_, he⟩
  · rfl
  · exact h.routed _ e he

/-- **Insertion** into a node whose entries share the key's digits before `d`
succeeds when the digits up to the last level tell all keys apart. -/
theorem insert_spec : ∀ (n d : Nat) (slots : Fin w → Trie w κ ν) (k : κ) (v : ν),
    NodeOk digit n d slots →
    (∀ x y : κ, (∀ j < d + n + 1, digit x j = digit y j) → x = y) →
    (∀ e ∈ entries slots, ∀ j < d, digit e.1 j = digit k j) →
    Inserts digit n d slots k v
  | n, d, slots, k, v, h, hsep, hagree => by
    have hok := h.below (digit k d)
    cases hslot : slots (digit k d) with
    | empty => exact inserts_leaf h (.inl hslot)
    | leaf k' v' =>
      by_cases hk : k' = k
      · exact inserts_leaf h (.inr ⟨v', by rw [hslot, hk]⟩)
      · have hmem : (k', v') ∈ (slots (digit k d)).toList := by
          rw [hslot]
          exact List.mem_singleton_self _
        have hshared : ∀ j < d + 1, digit k' j = digit k j := h.agree_succ hagree hmem
        cases n with
        | zero => exact absurd (hsep k' k hshared) hk
        | succ n =>
          have hsep' : ∀ x y : κ, (∀ j < d + 1 + n + 1, digit x j = digit y j) → x = y :=
            fun x y hxy => hsep x y (fun j hj => hxy j (by omega))
          -- the slot's entry goes into a new node, and then the key
          obtain ⟨c₁, hins₁, hok₁, hsets₁⟩ := insert_spec n (d + 1) vacant k' v'
            (nodeOk_vacant _ _) hsep' (fun e he => absurd he not_mem_entries_vacant)
          have hmem₁ : ∀ e, e ∈ entries c₁ ↔ e = (k', v') := by
            intro e
            rw [hsets₁ e]
            simp
          obtain ⟨c₂, hins₂, hok₂, hsets₂⟩ := insert_spec n (d + 1) c₁ k v hok₁ hsep'
            (fun e he => by rw [(hmem₁ e).mp he]; exact hshared)
          have hinsert : insert digit (n + 2) d slots k v
              = some (Function.update slots (digit k d) (.branch c₂)) := by
            rw [insert, hslot]
            simp [hk, hins₁, hins₂]
          refine inserts_branch h hinsert hok₂ ?_ ?_
          · refine ⟨(k', v'), (hsets₂ _).mpr (.inr ⟨hk, (hmem₁ _).mpr rfl⟩), (k, v),
              (hsets₂ _).mpr (.inl rfl), hk⟩
          · intro e
            rw [hsets₂ e, hmem₁ e, hslot]
            simp [toList]
    | branch below =>
      rw [hslot] at hok
      cases hok with
      | branch n _ _ hbelow hrouted hcrowded =>
        have hnode : NodeOk digit n (d + 1) below := ⟨hbelow, hrouted⟩
        obtain ⟨c, hins, hok', hsets⟩ := insert_spec n (d + 1) below k v hnode
          (fun x y hxy => hsep x y (fun j hj => hxy j (by omega)))
          (fun e he => h.agree_succ hagree (by rw [hslot]; exact he))
        have hinsert : insert digit (n + 2) d slots k v
            = some (Function.update slots (digit k d) (.branch c)) := by
          rw [insert, hslot]
          simp [hins]
        refine inserts_branch h hinsert hok' (hsets.crowded hcrowded) ?_
        rw [hslot]
        exact hsets

/-! ## Lookup -/

/-- Lookup finds exactly the entries. -/
theorem find_eq_some_iff : ∀ (n d : Nat) (slots : Fin w → Trie w κ ν) (k : κ) (v : ν),
    NodeOk digit n d slots →
    (find digit (n + 1) d slots k = some v ↔ (k, v) ∈ entries slots)
  | n, d, slots, k, v, h => by
    have hok := h.below (digit k d)
    have hmem : (k, v) ∈ entries slots ↔ (k, v) ∈ (slots (digit k d)).toList := by
      rw [h.mem_slot_iff]
      simp
    rw [find, hmem]
    cases hslot : slots (digit k d) with
    | empty => simp [toList]
    | leaf k' v' =>
      by_cases hk : k' = k
      · simp [toList, hk, eq_comm]
      · simp [toList, hk, Ne.symm hk]
    | branch below =>
      rw [hslot] at hok
      cases hok with
      | branch n _ _ hbelow hrouted _ =>
        exact find_eq_some_iff n (d + 1) below k v ⟨hbelow, hrouted⟩

end Trie

end Ipfrs.Lib
