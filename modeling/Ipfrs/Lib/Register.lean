/-
Ipfrs.Lib.Register — a register that keeps one of two values.

A register that holds a value and is offered another keeps one of them. What it holds in
the end depends in general on the order of the offers. `settlesAlike_iff` says when it does
not, for values each of which is offered at least once: some of them that look alike are
overtaken by no other.
-/
import Mathlib.Data.Set.Basic

namespace Ipfrs.Lib

variable {α γ : Type} {keep : α → α → α} {f : α → γ} {values : List α} {K : Set α}

/-- What the register holds after some offers. -/
def settle (keep : α → α → α) : List α → Option α
  | [] => none
  | a :: as => some (as.foldl keep a)

/-- Each of the values is offered, some perhaps more than once, and nothing else is. -/
def Offers (values as : List α) : Prop := ∀ a, a ∈ as ↔ a ∈ values

/-- Whatever the order and the repetitions, what is kept looks the same. -/
def SettlesAlike (keep : α → α → α) (f : α → γ) (values : List α) : Prop :=
  ∀ as bs, Offers values as → Offers values bs →
    (settle keep as).map f = (settle keep bs).map f

/-- The later of two values is kept, or the same one whichever comes later. -/
structure Selects (keep : α → α → α) : Prop where
  eq_or_eq : ∀ a b, keep a b = a ∨ keep a b = b
  overtakes : ∀ a b, keep a b = b ∨ keep b a = a

/-- None of the values that are not in `K` overtakes one that is. -/
def Leads (keep : α → α → α) (values : List α) (K : Set α) : Prop :=
  ∀ k ∈ K, ∀ a ∈ values, a ∉ K → keep k a = k

theorem settle_append {as : List α} {a : α} (h : settle keep as = some a) (bs : List α) :
    settle keep (as ++ bs) = some (bs.foldl keep a) := by
  cases as with
  | nil => cases h
  | cons b as =>
    rw [List.cons_append, settle, List.foldl_append, ← Option.some.inj h]

namespace Selects

theorem foldl_mem (hkeep : Selects keep) : ∀ (as : List α) (a : α), as.foldl keep a ∈ a :: as
  | [], _ => List.mem_cons_self
  | b :: as, a => by
    have hrest := hkeep.foldl_mem as (keep a b)
    rw [List.foldl_cons]
    obtain h | h := hkeep.eq_or_eq a b
    · rw [h] at hrest ⊢
      simp only [List.mem_cons] at hrest ⊢
      exact hrest.imp_right .inr
    · rw [h] at hrest ⊢
      exact List.mem_cons_of_mem a hrest

theorem settle_mem (hkeep : Selects keep) {as : List α} {a : α} (h : settle keep as = some a) :
    a ∈ as := by
  cases as with
  | nil => cases h
  | cons b as => exact Option.some.inj h ▸ hkeep.foldl_mem as b

/-- What leads stays in the lead. -/
theorem foldl_leads (hkeep : Selects keep) (hK : Leads keep values K) : ∀ {as : List α} {k : α},
    k ∈ K → (∀ a ∈ as, a ∈ values) → as.foldl keep k ∈ K
  | [], _, hk, _ => hk
  | a :: as, k, hk, has => by
    rw [List.foldl_cons]
    refine hkeep.foldl_leads hK ?_ (fun b hb => has b (List.mem_cons_of_mem a hb))
    by_cases ha : a ∈ K
    · obtain h | h := hkeep.eq_or_eq k a <;> rw [h] <;> assumption
    · rwa [hK k hk a (has a List.mem_cons_self) ha]

/-- After one of the leading values has been offered, one of them is held. -/
theorem settle_leads (hkeep : Selects keep) (hK : Leads keep values K) {as : List α} {k : α}
    (hk : k ∈ K) (hmem : k ∈ as) (has : ∀ a ∈ as, a ∈ values) :
    ∃ k' ∈ K, settle keep as = some k' := by
  obtain ⟨first, last, rfl⟩ := List.append_of_mem hmem
  have hlast := fun a ha => has a (List.mem_append_right first (List.mem_cons_of_mem k ha))
  cases hfirst : settle keep first with
  | none =>
    cases first with
    | nil => exact ⟨_, hkeep.foldl_leads hK hk hlast, rfl⟩
    | cons a first => cases hfirst
  | some a =>
    refine ⟨_, ?_, settle_append hfirst (k :: last)⟩
    have ha := has a (List.mem_append_left _ (hkeep.settle_mem hfirst))
    rw [List.foldl_cons]
    refine hkeep.foldl_leads hK ?_ hlast
    by_cases haK : a ∈ K
    · obtain h | h := hkeep.eq_or_eq a k <;> rw [h] <;> assumption
    · obtain h | h := hkeep.overtakes a k
      · rwa [h]
      · rw [hK k hk a ha haK] at h
        exact absurd (h ▸ hk) haK

/-- What is held in the end looks the same exactly if values that look alike lead. -/
theorem settlesAlike_iff (hkeep : Selects keep) : SettlesAlike keep f values ↔
    ∃ K : Set α, (∀ k ∈ K, k ∈ values) ∧ (values ≠ [] → K.Nonempty)
      ∧ (∀ k ∈ K, ∀ k' ∈ K, f k = f k') ∧ Leads keep values K := by
  constructor
  · intro h
    -- The values that can be held in the end lead: another offer shows who overtakes them.
    refine ⟨{k | ∃ as, Offers values as ∧ settle keep as = some k}, ?_, ?_, ?_, ?_⟩
    · rintro k ⟨as, has, hk⟩
      exact (has k).mp (hkeep.settle_mem hk)
    · intro hne
      obtain ⟨a, as, rfl⟩ := List.exists_cons_of_ne_nil hne
      exact ⟨_, a :: as, fun _ => Iff.rfl, rfl⟩
    · rintro k ⟨as, has, hk⟩ k' ⟨bs, hbs, hk'⟩
      have heq := h as bs has hbs
      rw [hk, hk'] at heq
      exact Option.some.inj heq
    · rintro k ⟨as, has, hk⟩ a ha hnot
      refine (hkeep.eq_or_eq k a).resolve_right fun hkept => hnot ?_
      refine ⟨as ++ [a], fun b => ?_, by rw [settle_append hk, List.foldl_cons, hkept]; rfl⟩
      rw [List.mem_append, List.mem_singleton, has b]
      exact ⟨fun hb => hb.elim id (fun hb => hb ▸ ha), .inl⟩
  · rintro ⟨K, hsub, hne, halike, hK⟩ as bs has hbs
    by_cases hvalues : values = []
    · have hempty (cs : List α) (hcs : Offers values cs) : cs = [] := by
        rw [List.eq_nil_iff_forall_not_mem]
        intro c hc
        rw [hcs c, hvalues] at hc
        cases hc
      rw [hempty as has, hempty bs hbs]
    · obtain ⟨k, hk⟩ := hne hvalues
      obtain ⟨k₁, hk₁, heq₁⟩ :=
        hkeep.settle_leads hK hk ((has k).mpr (hsub k hk)) (fun a ha => (has a).mp ha)
      obtain ⟨k₂, hk₂, heq₂⟩ :=
        hkeep.settle_leads hK hk ((hbs k).mpr (hsub k hk)) (fun b hb => (hbs b).mp hb)
      rw [heq₁, heq₂, Option.map_some, Option.map_some, halike k₁ hk₁ k₂ hk₂]

end Selects

end Ipfrs.Lib
