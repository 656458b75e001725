/-
Ipfrs.Lib.DepthFirst — finding a cycle depth first.

A search keeps the nodes it has visited and the path it is on, the newest node first. What
was visited and has left the path is finished: it is on no cycle, and all that follows it
is finished too. `Inv` is what such a search keeps. A node of the path that is met again
closes a cycle (`Inv.cycle`), and at an empty path no visited node is on one
(`Inv.no_cycle`).
-/
import Mathlib.Data.List.Chain

namespace Ipfrs.Lib.DepthFirst

variable {α : Type} {next : α → List α} {visited path : List α} {v : α}

/-- A path of at least one step. -/
abbrev Leads (next : α → List α) : α → α → Prop := Relation.TransGen (fun a b => b ∈ next a)

structure Inv (next : α → List α) (visited path : List α) : Prop where
  nodup : path.Nodup
  subset : ∀ x ∈ path, x ∈ visited
  chain : path.IsChain (fun b a => b ∈ next a)
  finished : ∀ x ∈ visited, x ∉ path →
    (∀ y ∈ next x, y ∈ visited ∧ y ∉ path) ∧ ¬ Leads next x x

theorem Inv.init : Inv next [] [] where
  nodup := List.nodup_nil
  subset x hx := by cases hx
  chain := List.IsChain.nil
  finished x hx := by cases hx

/-- A node that was not visited, and follows the newest of the path, joins it. -/
theorem Inv.enter (h : Inv next visited path) (hv : v ∉ visited)
    (hnext : ∀ p ∈ path.head?, v ∈ next p) : Inv next (v :: visited) (v :: path) where
  nodup := List.nodup_cons.mpr ⟨fun hmem => hv (h.subset v hmem), h.nodup⟩
  subset x hx := by
    rcases List.mem_cons.mp hx with rfl | hx
    · exact List.mem_cons_self
    · exact List.mem_cons_of_mem _ (h.subset x hx)
  chain := List.isChain_cons.mpr ⟨hnext, h.chain⟩
  finished x hx hpath := by
    obtain ⟨hne, hpath⟩ := not_or.mp (mt List.mem_cons.mpr hpath)
    have hold := (List.mem_cons.mp hx).resolve_left hne
    obtain ⟨hdone, hcycle⟩ := h.finished x hold hpath
    refine ⟨fun y hy => ?_, hcycle⟩
    obtain ⟨hyv, hyp⟩ := hdone y hy
    refine ⟨List.mem_cons_of_mem _ hyv, ?_⟩
    rw [List.mem_cons, not_or]
    exact ⟨fun heq => hv (heq ▸ hyv), hyp⟩

/-- The newest node leaves the path when all that follows it is finished. -/
theorem Inv.leave (h : Inv next visited (v :: path))
    (hnext : ∀ y ∈ next v, y ∈ visited ∧ y ∉ v :: path) : Inv next visited path where
  nodup := (List.nodup_cons.mp h.nodup).2
  subset x hx := h.subset x (List.mem_cons_of_mem _ hx)
  chain := (List.isChain_cons.mp h.chain).2
  finished x hx hpath := by
    have hout : ∀ {y}, y ∉ v :: path → y ∉ path := fun hy hmem => hy (List.mem_cons_of_mem _ hmem)
    by_cases hxv : x = v
    · subst hxv
      refine ⟨fun y hy => ⟨(hnext y hy).1, hout (hnext y hy).2⟩, fun hcycle => ?_⟩
      -- all that a finished node leads to is finished, and `x` is not
      have hclosed : ∀ y, Leads next x y → y ∈ visited ∧ y ∉ x :: path := by
        intro y hy
        induction hy with
        | single hy => exact hnext _ hy
        | tail _ hlast ih => exact (h.finished _ ih.1 ih.2).1 _ hlast
      exact (hclosed x hcycle).2 List.mem_cons_self
    · have hold : x ∉ v :: path := by
        rw [List.mem_cons, not_or]
        exact ⟨hxv, hpath⟩
      obtain ⟨hdone, hcycle⟩ := h.finished x hx hold
      exact ⟨fun y hy => ⟨(hdone y hy).1, hout (hdone y hy).2⟩, hcycle⟩

/-- Each node of a path leads to its newest. -/
theorem leads_head {p : α} {rest : List α} (hchain : (p :: rest).IsChain (fun b a => b ∈ next a))
    (hv : v ∈ p :: rest) : Relation.ReflTransGen (fun a b => b ∈ next a) v p := by
  induction rest generalizing p with
  | nil =>
    rw [List.mem_singleton.mp hv]
  | cons q rest ih =>
    obtain ⟨hpq, hrest⟩ := List.isChain_cons_cons.mp hchain
    rcases List.mem_cons.mp hv with rfl | hv
    · exact .refl
    · exact (ih hrest hv).tail hpq

/-- A node of the path that follows its newest closes a cycle. -/
theorem Inv.cycle (h : Inv next visited path) (hv : v ∈ path)
    (hnext : ∀ p ∈ path.head?, v ∈ next p) : Leads next v v := by
  cases path with
  | nil => cases hv
  | cons p rest => exact .tail' (leads_head h.chain hv) (hnext p rfl)

/-- At an empty path no visited node is on a cycle. -/
theorem Inv.no_cycle (h : Inv next visited []) (hv : v ∈ visited) : ¬ Leads next v v :=
  (h.finished v hv List.not_mem_nil).2

end Ipfrs.Lib.DepthFirst
