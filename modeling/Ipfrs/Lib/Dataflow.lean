/-
Ipfrs.Lib.Dataflow — evaluating the nodes of a graph, each from the values of others.

`eval v env` computes the value of `v` from an environment, and may fail. An environment
`Denotes` the graph when it gives every node the value computed from itself, or nothing
where that fails. With a rank there is exactly one (`Denotes.unique`, `exists_denotes`),
and a run in any sorted order ends in it, if it has a value for every node
(`run_eq_ok_iff`): the order does not matter.
-/
import Ipfrs.Lib.Topo

namespace Ipfrs.Lib.Dataflow

open Ipfrs.Lib.Topo

variable {α β ε : Type} [DecidableEq α]

/-- Evaluate in order, and stop at the first failure. -/
def run (eval : α → (α → Option β) → Except ε β) :
    List α → (α → Option β) → Except ε (α → Option β)
  | [], env => .ok env
  | v :: rest, env =>
    match eval v env with
    | .ok x => run eval rest (Function.update env v (some x))
    | .error e => .error e

/-- Evaluate in order; a node that fails gets no value. -/
def denote (eval : α → (α → Option β) → Except ε β) :
    List α → (α → Option β) → (α → Option β)
  | [], env => env
  | v :: rest, env => denote eval rest (Function.update env v (eval v env).toOption)

/-- A node's value depends on those of the nodes it needs only. -/
def LocalEval (eval : α → (α → Option β) → Except ε β) (nodes : List α) (needs : α → List α) :
    Prop :=
  ∀ v ∈ nodes, ∀ env env' : α → Option β, (∀ u ∈ needs v, env u = env' u) →
    eval v env = eval v env'

structure Denotes (eval : α → (α → Option β) → Except ε β) (nodes : List α)
    (env : α → Option β) : Prop where
  value : ∀ v ∈ nodes, env v = (eval v env).toOption
  outside : ∀ v, v ∉ nodes → env v = none

variable {eval : α → (α → Option β) → Except ε β} {nodes l : List α} {needs : α → List α}
  {env env' : α → Option β}

theorem toOption_eq_some {r : Except ε β} {x : β} : r.toOption = some x ↔ r = .ok x := by
  cases r with
  | error e => simp [Except.toOption]
  | ok y => simp [Except.toOption]

theorem Denotes.unique (h : Denotes eval nodes env) (h' : Denotes eval nodes env')
    (hlocal : LocalEval eval nodes needs) (hclosed : ∀ v ∈ nodes, ∀ u ∈ needs v, u ∈ nodes)
    {rank : α → Nat} (hrank : Ranks needs nodes rank) : env = env' := by
  have hall : ∀ n, ∀ v ∈ nodes, rank v = n → env v = env' v := by
    intro n
    induction n using Nat.strongRecOn with
    | ind n ih =>
      intro v hv hvn
      rw [h.value v hv, h'.value v hv]
      congr 1
      apply hlocal v hv
      intro u hu
      have hlt := hrank v hv u hu
      exact ih (rank u) (by omega) u (hclosed v hv u hu) rfl
  funext v
  by_cases hv : v ∈ nodes
  · exact hall _ v hv rfl
  · rw [h.outside v hv, h'.outside v hv]

/-! ## Runs -/

theorem denote_of_not_mem {v : α} (hv : v ∉ l) : denote eval l env v = env v := by
  induction l generalizing env with
  | nil => rfl
  | cons w rest ih =>
    obtain ⟨hne, hrest⟩ := not_or.mp (mt List.mem_cons.mpr hv)
    rw [denote, ih hrest, Function.update_of_ne hne]

/-- A run succeeds if every node gets a value, and then ends in the denotation. -/
theorem run_eq_ok {env₁ : α → Option β} (hl : l.Nodup) : run eval l env = .ok env₁ ↔
      env₁ = denote eval l env ∧ ∀ v ∈ l, (denote eval l env v).isSome := by
  induction l generalizing env with
  | nil =>
    rw [run, denote, Except.ok.injEq, eq_comm]
    simp
  | cons v rest ih =>
    obtain ⟨hv, hrest⟩ := List.nodup_cons.mp hl
    rw [run, denote]
    cases heval : eval v env with
    | error e =>
      have hnone : denote eval rest (Function.update env v none) v = none := by
        rw [denote_of_not_mem hv, Function.update_self]
      constructor
      · intro h
        cases h
      · rintro ⟨-, hsome⟩
        have hvsome := hsome v List.mem_cons_self
        rw [Except.toOption, hnone] at hvsome
        cases hvsome
    | ok x =>
      have hsome : denote eval rest (Function.update env v (some x)) v = some x := by
        rw [denote_of_not_mem hv, Function.update_self]
      dsimp only
      rw [Except.toOption, ih hrest]
      simp [hsome]

/-- Evaluating in a sorted order gives every node the value computed from the end. -/
theorem denote_value (hlocal : LocalEval eval nodes needs) {done : List α}
    (hs : Sorted needs done l) (hl : l.Nodup) (hdone : ∀ u ∈ done, u ∉ l)
    (hsub : ∀ v ∈ l, v ∈ nodes) :
    ∀ v ∈ l, denote eval l env v = (eval v (denote eval l env)).toOption := by
  induction l generalizing env done with
  | nil =>
    intro v hv
    cases hv
  | cons w rest ih =>
    obtain ⟨hw, hrest⟩ := List.nodup_cons.mp hl
    intro v hv
    rw [denote]
    rcases List.mem_cons.mp hv with rfl | hv
    · rw [denote_of_not_mem hw, Function.update_self]
      congr 1
      apply hlocal v (hsub v List.mem_cons_self)
      intro u hu
      have hu' : u ∉ v :: rest := hdone u (hs.1 u hu)
      obtain ⟨hne, hur⟩ := not_or.mp (mt List.mem_cons.mpr hu')
      rw [denote_of_not_mem hur, Function.update_of_ne hne]
    · refine ih hs.2 hrest ?_ (fun x hx => hsub x (List.mem_cons_of_mem _ hx)) v hv
      intro u hu
      rcases List.mem_cons.mp hu with rfl | hu
      · exact hw
      · exact fun hur => hdone u hu (List.mem_cons_of_mem _ hur)

theorem exists_denotes (hlocal : LocalEval eval l needs) (hs : Sorted needs [] l)
    (hl : l.Nodup) : Denotes eval l (denote eval l (fun _ => none)) where
  value := denote_value hlocal hs hl (by simp) (fun _ hv => hv)
  outside := fun _ hv => denote_of_not_mem hv

/-- **Runs.** In any sorted order a run succeeds with an environment exactly if this is
the denotation of the graph and has a value for every node. -/
theorem run_eq_ok_iff (hperm : l.Perm nodes) (hnodes : nodes.Nodup)
    (hlocal : LocalEval eval nodes needs) (hclosed : ∀ v ∈ nodes, ∀ u ∈ needs v, u ∈ nodes)
    (hs : Sorted needs [] l) : run eval l (fun _ => none) = .ok env ↔
      Denotes eval nodes env ∧ ∀ v ∈ nodes, (env v).isSome := by
  have hl : l.Nodup := hperm.nodup_iff.mpr hnodes
  have hlocal' : LocalEval eval l needs := fun v hv => hlocal v (hperm.mem_iff.mp hv)
  have hden := exists_denotes hlocal' hs hl
  have hden' : Denotes eval nodes (denote eval l (fun _ => none)) :=
    ⟨fun v hv => hden.value v (hperm.mem_iff.mpr hv),
      fun v hv => hden.outside v (fun hvl => hv (hperm.mem_iff.mp hvl))⟩
  have hrank : Ranks needs nodes l.idxOf :=
    fun v hv => hs.ranks hl v (hperm.mem_iff.mpr hv)
  rw [run_eq_ok hl]
  constructor
  · rintro ⟨rfl, hsome⟩
    exact ⟨hden', fun v hv => hsome v (hperm.mem_iff.mpr hv)⟩
  · rintro ⟨henv, hsome⟩
    have heq := henv.unique hden' hlocal hclosed hrank
    exact ⟨heq, fun v hv => heq ▸ hsome v (hperm.mem_iff.mp hv)⟩

end Ipfrs.Lib.Dataflow
