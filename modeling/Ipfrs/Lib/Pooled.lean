/-
Ipfrs.Lib.Pooled — answering a part of a list elsewhere.

A batch operation answers some elements itself, passes the others on with the places
they came from, and writes what comes back to these places. The result is what each
element's own answer would have been.
-/
import Mathlib.Data.List.AList
import Mathlib.Algebra.Order.Group.Multiset

namespace Ipfrs.Lib.PutBack

variable {α β : Type}

/-- The elements that are passed on, with their places. -/
def rest (p : α → Bool) (l : List α) : List (α × Nat) := l.zipIdx.filter (fun x => p x.1)

/-- Each value that is there is written to its place. -/
def putBack (results : List β) (values : List (Nat × Option β)) : List β :=
  values.foldl (fun r v => v.2.elim r (r.set v.1)) results

theorem putBack_append_map (p : α → Bool) (f : α → β) (g : α → Option β) :
    ∀ (l : List α) (pre : List β),
      putBack (pre ++ l.map f)
          (((l.zipIdx pre.length).filter (fun x => p x.1)).map (fun x => (x.2, g x.1)))
        = pre ++ l.map (fun a => if p a then (g a).getD (f a) else f a)
  | [], _ => rfl
  | a :: l, pre => by
    have ih := putBack_append_map p f g l
      (pre ++ [if p a then (g a).getD (f a) else f a])
    rw [List.length_append, List.length_singleton, List.append_assoc, List.append_assoc] at ih
    rw [List.zipIdx_cons, List.map_cons, List.map_cons]
    by_cases hp : p a = true
    · rw [if_pos hp] at ih ⊢
      simp only [List.filter_cons, hp, if_true]
      rw [List.map_cons, putBack, List.foldl_cons, ← putBack]
      have hset : (g a).elim (pre ++ f a :: l.map f) ((pre ++ f a :: l.map f).set pre.length)
          = pre ++ (g a).getD (f a) :: l.map f := by
        cases g a <;> simp
      exact hset ▸ ih
    · rw [if_neg hp] at ih ⊢
      simp only [List.filter_cons, hp]
      exact ih

/-- What comes back for the elements passed on, written to their places. -/
theorem putBack_rest (p : α → Bool) (f : α → β) (g : α → Option β) (l : List α) : putBack (l.map f)
        (((rest p l).map Prod.snd).zip (((rest p l).map Prod.fst).map g))
      = l.map (fun a => if p a then (g a).getD (f a) else f a) := by
  have hzip : ((rest p l).map Prod.snd).zip (((rest p l).map Prod.fst).map g)
      = (rest p l).map (fun x => (x.2, g x.1)) := by
    rw [List.map_map, List.zip_map']
    rfl
  rw [hzip]
  exact putBack_append_map p f g l []

end Ipfrs.Lib.PutBack

/-! ## What the members of a list hold together

Each member holds some keys, a key as often as it likes; `pooled` counts all of them.
When one member is replaced the rest holds what it held before (`exists_pooled_set`), so
a statement about the whole pool is carried over a step of one member by arithmetic on
what that member held and holds. The entries of a map are such members too. -/

namespace Ipfrs.Lib.Pooled

variable {τ K : Type}

def pooled (held : τ → List K) (members : List τ) : Multiset K := ↑(members.flatMap held)

variable {held : τ → List K} {members : List τ}

@[simp] theorem pooled_nil : pooled held [] = 0 := rfl

@[simp] theorem pooled_append (members members' : List τ) :
    pooled held (members ++ members') = pooled held members + pooled held members' := by
  rw [pooled, List.flatMap_append, ← Multiset.coe_add]
  rfl

@[simp] theorem pooled_cons (t : τ) (members : List τ) :
    pooled held (t :: members) = ↑(held t) + pooled held members := by
  rw [pooled, List.flatMap_cons, ← Multiset.coe_add]
  rfl

theorem pooled_eq_zero (h : ∀ t ∈ members, held t = []) : pooled held members = 0 := by
  rw [pooled, List.flatMap_eq_nil_iff.mpr h]
  rfl

/-- The others hold what they held, whatever one member comes to hold. -/
theorem exists_pooled_set {i : Nat} {t : τ} (h : members[i]? = some t) (held : τ → List K) :
    ∃ others, pooled held members = ↑(held t) + others
      ∧ ∀ u, pooled held (members.set i u) = ↑(held u) + others := by
  obtain ⟨hlt, ht⟩ := List.getElem?_eq_some_iff.mp h
  have hset : ∀ u, pooled held (members.set i u)
      = ↑(held u) + (pooled held (members.take i) + pooled held (members.drop (i + 1))) := by
    intro u
    rw [List.set_eq_take_cons_drop u hlt, pooled_append, pooled_cons, add_left_comm]
  refine ⟨_, ?_, hset⟩
  have hsame := hset t
  rwa [← ht, List.set_getElem_self, ht] at hsame

/-! ## The entries of a map -/

variable {V : Type} {A : Type} [DecidableEq A]

/-- What the values of a map hold. -/
def entriesHold (held : V → List K) (map : AList (fun _ : A => V)) : Multiset K :=
  pooled (fun entry => held entry.2) map.entries

variable {heldBy : V → List K} {map : AList (fun _ : A => V)} {a : A} {v : V}

theorem entriesHold_insert (h : map.lookup a = none) :
    entriesHold heldBy (map.insert a v) = ↑(heldBy v) + entriesHold heldBy map := by
  rw [entriesHold, AList.entries_insert_of_notMem (AList.lookup_eq_none.mp h), pooled_cons]
  rfl

variable (heldBy) in
theorem entriesHold_erase (h : map.lookup a = some v) :
    entriesHold heldBy map = ↑(heldBy v) + entriesHold heldBy (map.erase a) := by
  have hmem : a ∈ map.entries.keys :=
    AList.mem_keys.mp (AList.lookup_isSome.mp (by rw [h]; rfl))
  obtain ⟨w, before, after, hnot, hsplit, herase⟩ := List.exists_of_kerase hmem
  have hw : w = v := by
    have hlookup : map.entries.dlookup a = some v := h
    rw [hsplit, List.dlookup_append, List.dlookup_eq_none.mpr hnot, Option.none_or,
      List.dlookup_cons_eq] at hlookup
    exact Option.some.inj hlookup
  subst hw
  show pooled _ map.entries = _ + pooled _ (map.entries.kerase a)
  rw [herase, hsplit, pooled_append, pooled_cons, pooled_append, add_left_comm]

variable (heldBy) in
theorem mem_entriesHold (h : map.lookup a = some v) {k : K} (hk : k ∈ heldBy v) :
    k ∈ entriesHold heldBy map := by
  rw [entriesHold_erase heldBy h, Multiset.mem_add, Multiset.mem_coe]
  exact .inl hk

end Ipfrs.Lib.Pooled
