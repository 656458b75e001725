/-
Ipfrs.Lib.Interleaving — a thread that takes and gives back locks.

A thread has the locks it holds, each for reading or for writing, beside its own state. A
lock is not reentrant: asking for one that the thread holds itself blocks it for good, and
that is the only way a program here fails. `withLock` is a guard that is dropped at the end
of its scope; what a body does under it is what the whole does without it (`withLock_ok`).
-/
import Mathlib.Data.List.Basic
import Ipfrs.Lib.Journal

namespace Ipfrs.Lib

inductive Access
  | read
  | write
  deriving DecidableEq

/-- A thread that asks for a lock it holds. -/
structure Blocked (L : Type) where
  lock : L
  held : Access
  wanted : Access
  deriving DecidableEq

structure Thread (L σ : Type) where
  held : List (L × Access)
  state : σ

/-- A program of a thread. -/
abbrev Locking (L σ : Type) := EStateM (Blocked L) (Thread L σ)

namespace Locking

variable {L σ α β : Type}

def read : Locking L σ σ := do
  let t ← get
  pure t.state

def update (f : σ → σ) : Locking L σ Unit := modify fun t => { t with state := f t.state }

@[simp] theorem read_run (t : Thread L σ) : (read : Locking L σ σ) t = .ok t.state t := rfl

@[simp] theorem update_run (f : σ → σ) (t : Thread L σ) :
    (update f : Locking L σ Unit) t = .ok () { t with state := f t.state } := rfl

variable [DecidableEq L]

def acquire (lock : L) (wanted : Access) : Locking L σ Unit := do
  let t ← get
  match t.held.lookup lock with
  | some held => throw { lock, held, wanted }
  | none => set { t with held := (lock, wanted) :: t.held }

/-- Drop the guard that was taken last. -/
def release : Locking L σ Unit := modify fun t => { t with held := t.held.tail }

/-- A scope with a guard. -/
def withLock (lock : L) (access : Access) (body : Locking L σ α) : Locking L σ α := do
  acquire lock access
  let a ← body
  release
  pure a

variable {lock : L} {access : Access} {held : List (L × Access)} {s s' : σ}

theorem acquire_free {wanted : Access} (h : held.lookup lock = none) :
    acquire lock wanted ⟨held, s⟩ = .ok () ⟨(lock, wanted) :: held, s⟩ := by
  unfold acquire
  rw [run_bind_ok (run_get _)]
  simp only [h]
  rfl

theorem acquire_held {held' wanted : Access} (h : held.lookup lock = some held') :
    acquire lock wanted ⟨held, s⟩ = .error { lock, held := held', wanted } ⟨held, s⟩ := by
  unfold acquire
  rw [run_bind_ok (run_get _)]
  simp only [h]
  rfl

/-- A guard around a body that gives back what it takes. -/
theorem withLock_ok {body : Locking L σ α} {a : α} (hfree : held.lookup lock = none)
    (hbody : body ⟨(lock, access) :: held, s⟩ = .ok a ⟨(lock, access) :: held, s'⟩) :
    withLock lock access body ⟨held, s⟩ = .ok a ⟨held, s'⟩ := by
  unfold withLock
  rw [run_bind_ok (acquire_free hfree), run_bind_ok hbody]
  rfl

/-- A body that blocks blocks under its guard. -/
theorem withLock_blocked {body : Locking L σ α} {b : Blocked L} {t : Thread L σ}
    (hfree : held.lookup lock = none) (hbody : body ⟨(lock, access) :: held, s⟩ = .error b t) :
    withLock lock access body ⟨held, s⟩ = .error b t := by
  unfold withLock
  rw [run_bind_ok (acquire_free hfree), run_bind_error hbody]

/-- A guard that the thread has already. -/
theorem withLock_held {held' : Access} (body : Locking L σ α) (h : held.lookup lock = some held') :
    withLock lock access body ⟨held, s⟩
      = .error { lock, held := held', wanted := access } ⟨held, s⟩ := by
  unfold withLock
  rw [run_bind_error (acquire_held h)]

end Locking

end Ipfrs.Lib

/-! ## Calls that take turns on a shared state

A call begins as a task and goes on whenever it gets a turn; between two turns of one
task any other task may have its own and any call may begin. A task that has returned
stays in the list, so the list is the history of the calls in the order in which they
began, each with how far it has come.

`step_induction` is the invariant rule for runs, `labels_prefix_step` says that no turn
changes which calls have begun. -/

namespace Ipfrs.Lib.Interleaving

/-- How a call begins, and what a task does in one turn. -/
structure Machine (σ κ τ : Type) where
  start : κ → σ → τ × σ
  resume : τ → σ → τ × σ

structure Pool (σ τ : Type) where
  shared : σ
  tasks : List τ

inductive Turn (κ : Type) where
  | call (k : κ)
  | resume (i : Nat)

namespace Machine

variable {σ κ τ : Type} (m : Machine σ κ τ)

def step (p : Pool σ τ) : Turn κ → Pool σ τ
  | .call k => { shared := (m.start k p.shared).2, tasks := p.tasks ++ [(m.start k p.shared).1] }
  | .resume i =>
    match p.tasks[i]? with
    | none => p
    | some t =>
      { shared := (m.resume t p.shared).2, tasks := p.tasks.set i (m.resume t p.shared).1 }

def run (p : Pool σ τ) (turns : List (Turn κ)) : Pool σ τ := turns.foldl m.step p

/-- Each turn meets the condition in the state that it finds. -/
def Meets (Cond : Pool σ τ → Turn κ → Prop) : List (Turn κ) → Pool σ τ → Prop
  | [], _ => True
  | turn :: turns, p => Cond p turn ∧ Meets Cond turns (m.step p turn)

instance instDecidableMeets {Cond : Pool σ τ → Turn κ → Prop} [∀ p turn, Decidable (Cond p turn)] :
    (turns : List (Turn κ)) → (p : Pool σ τ) → Decidable (m.Meets Cond turns p)
  | [], _ => .isTrue trivial
  | turn :: turns, p =>
    have : Decidable (m.Meets Cond turns (m.step p turn)) :=
      instDecidableMeets turns (m.step p turn)
    inferInstanceAs (Decidable (Cond p turn ∧ m.Meets Cond turns (m.step p turn)))

variable {m}

@[simp] theorem run_nil (p : Pool σ τ) : m.run p [] = p := rfl

@[simp] theorem run_cons (p : Pool σ τ) (turn : Turn κ) (turns : List (Turn κ)) :
    m.run p (turn :: turns) = m.run (m.step p turn) turns := rfl

theorem run_append (p : Pool σ τ) (turns turns' : List (Turn κ)) :
    m.run p (turns ++ turns') = m.run (m.run p turns) turns' :=
  List.foldl_append

theorem meets_append {Cond : Pool σ τ → Turn κ → Prop} {p : Pool σ τ} :
    ∀ {turns turns' : List (Turn κ)}, m.Meets Cond (turns ++ turns') p ↔
      m.Meets Cond turns p ∧ m.Meets Cond turns' (m.run p turns)
  | [], _ => by simp [Meets]
  | turn :: turns, turns' => by
    rw [List.cons_append, Meets, Meets, meets_append, run_cons, and_assoc]

/-- A condition on the turns alone can be met together with one on the states. -/
theorem Meets.and {P : Turn κ → Prop} {Cond : Pool σ τ → Turn κ → Prop} :
    ∀ {turns : List (Turn κ)} {p : Pool σ τ}, (∀ turn ∈ turns, P turn) → m.Meets Cond turns p →
      m.Meets (fun p turn => P turn ∧ Cond p turn) turns p
  | [], _, _, _ => trivial
  | turn :: turns, _, hP, hmeets => by
    rw [List.forall_mem_cons] at hP
    exact ⟨⟨hP.1, hmeets.1⟩, Meets.and hP.2 hmeets.2⟩

/-- What every turn keeps under its condition holds at the end of every run that meets it. -/
theorem step_induction {Inv : Pool σ τ → Prop} {Cond : Pool σ τ → Turn κ → Prop}
    (hstep : ∀ p turn, Inv p → Cond p turn → Inv (m.step p turn)) :
    ∀ (turns : List (Turn κ)) (p : Pool σ τ), Inv p → m.Meets Cond turns p →
      Inv (m.run p turns)
  | [], _, hp, _ => hp
  | turn :: turns, p, hp, hmeets =>
    step_induction hstep turns (m.step p turn) (hstep p turn hp hmeets.1) hmeets.2

/-! ## The tasks after a turn -/

theorem getElem?_call {p : Pool σ τ} {k : κ} {j : Nat} {t : τ} :
    (m.step p (.call k)).tasks[j]? = some t ↔
      p.tasks[j]? = some t ∨ (j = p.tasks.length ∧ t = (m.start k p.shared).1) := by
  rw [step]
  rcases Nat.lt_trichotomy j p.tasks.length with hj | rfl | hj
  · rw [List.getElem?_append_left hj]
    simp [Nat.ne_of_lt hj]
  · simp [eq_comm]
  · rw [List.getElem?_append_right (Nat.le_of_lt hj), List.getElem?_eq_none (Nat.le_of_lt hj)]
    have hne : j - p.tasks.length ≠ 0 := by omega
    simp [Nat.ne_of_gt hj, hne]

theorem step_resume {p : Pool σ τ} {i : Nat} {t : τ} (h : p.tasks[i]? = some t) :
    m.step p (.resume i)
      = { shared := (m.resume t p.shared).2, tasks := p.tasks.set i (m.resume t p.shared).1 } := by
  rw [step, h]

theorem step_resume_none {p : Pool σ τ} {i : Nat} (h : p.tasks[i]? = none) :
    m.step p (.resume i) = p := by
  rw [step, h]

theorem getElem?_resume {p : Pool σ τ} {i j : Nat} {t t' : τ} (h : p.tasks[i]? = some t) :
    (m.step p (.resume i)).tasks[j]? = some t' ↔
      (j = i ∧ t' = (m.resume t p.shared).1) ∨ (j ≠ i ∧ p.tasks[j]? = some t') := by
  have hlt := (List.getElem?_eq_some_iff.mp h).1
  rw [step_resume h]
  by_cases hj : j = i
  · subst hj
    simp [List.getElem?_set_self hlt, eq_comm]
  · simp [hj, List.getElem?_set_ne (Ne.symm hj)]

/-- Where a task after a turn comes from. -/
theorem getElem?_step {p : Pool σ τ} {turn : Turn κ} {j : Nat} {u : τ}
    (h : (m.step p turn).tasks[j]? = some u) : p.tasks[j]? = some u
      ∨ (∃ k, turn = .call k ∧ j = p.tasks.length ∧ u = (m.start k p.shared).1)
      ∨ (∃ t, turn = .resume j ∧ p.tasks[j]? = some t ∧ u = (m.resume t p.shared).1) := by
  cases turn with
  | call k =>
    rcases getElem?_call.mp h with hold | hnew
    · exact .inl hold
    · exact .inr (.inl ⟨k, rfl, hnew⟩)
  | resume i =>
    cases ht : p.tasks[i]? with
    | none =>
      rw [step_resume_none ht] at h
      exact .inl h
    | some t =>
      rcases (getElem?_resume ht).mp h with ⟨rfl, hu⟩ | ⟨-, hold⟩
      · exact .inr (.inr ⟨t, rfl, ht, hu⟩)
      · exact .inl hold

theorem mem_step {p : Pool σ τ} {turn : Turn κ} {u : τ} (h : u ∈ (m.step p turn).tasks) :
    u ∈ p.tasks ∨ (∃ k, turn = .call k ∧ u = (m.start k p.shared).1)
      ∨ (∃ i t, turn = .resume i ∧ p.tasks[i]? = some t ∧ u = (m.resume t p.shared).1) := by
  obtain ⟨j, hj⟩ := List.mem_iff_getElem?.mp h
  rcases getElem?_step hj with hold | ⟨k, rfl, -, rfl⟩ | ⟨t, rfl, ht, rfl⟩
  · exact .inl (List.mem_of_getElem? hold)
  · exact .inr (.inl ⟨k, rfl, rfl⟩)
  · exact .inr (.inr ⟨j, t, rfl, ht, rfl⟩)

/-- A task stays as it is except in its own turn. -/
theorem mem_step_of_mem {p : Pool σ τ} (turn : Turn κ) {u : τ} (h : u ∈ p.tasks) :
    u ∈ (m.step p turn).tasks ∨ ∃ i, turn = .resume i ∧ p.tasks[i]? = some u := by
  obtain ⟨j, hj⟩ := List.mem_iff_getElem?.mp h
  cases turn with
  | call k => exact .inl (List.mem_of_getElem? (getElem?_call.mpr (.inl hj)))
  | resume i =>
    cases ht : p.tasks[i]? with
    | none =>
      rw [step_resume_none ht]
      exact .inl h
    | some t =>
      by_cases hji : j = i
      · subst hji
        exact .inr ⟨j, rfl, hj⟩
      · exact .inl (List.mem_of_getElem? ((getElem?_resume ht).mpr (.inr ⟨hji, hj⟩)))

/-- What a turn leaves of the shared state. -/
theorem shared_step (p : Pool σ τ) (turn : Turn κ) : (m.step p turn).shared = p.shared
      ∨ (∃ k, turn = .call k ∧ (m.step p turn).shared = (m.start k p.shared).2)
      ∨ (∃ i t, turn = .resume i ∧ p.tasks[i]? = some t
          ∧ (m.step p turn).shared = (m.resume t p.shared).2
          ∧ (m.resume t p.shared).1 ∈ (m.step p turn).tasks) := by
  cases turn with
  | call k => exact .inr (.inl ⟨k, rfl, rfl⟩)
  | resume i =>
    cases ht : p.tasks[i]? with
    | none => exact .inl (congrArg Pool.shared (step_resume_none ht))
    | some t =>
      refine .inr (.inr ⟨i, t, rfl, ht, congrArg Pool.shared (step_resume ht), ?_⟩)
      exact List.mem_of_getElem? ((getElem?_resume ht).mpr (.inl ⟨rfl, rfl⟩))

/-! ## Which calls have begun -/

variable {label : τ → κ}

/-- No turn changes which calls have begun before. -/
theorem labels_prefix_step (hresume : ∀ t s, label (m.resume t s).1 = label t)
    (p : Pool σ τ) (turn : Turn κ) : p.tasks.map label <+: (m.step p turn).tasks.map label := by
  cases turn with
  | call k =>
    rw [step, List.map_append]
    exact List.prefix_append _ _
  | resume i =>
    cases h : p.tasks[i]? with
    | none =>
      simpa only [step_resume_none h] using List.prefix_refl _
    | some t =>
      have hsame : (p.tasks.set i (m.resume t p.shared).1).map label = p.tasks.map label := by
        rw [List.map_set, hresume]
        obtain ⟨hlt, rfl⟩ := List.getElem?_eq_some_iff.mp h
        apply List.ext_getElem (by simp)
        intro n h₁ h₂
        rw [List.getElem_set]
        split
        · next heq => subst heq; simp
        · rfl
      simpa only [step_resume h, hsame] using List.prefix_refl _

end Machine

end Ipfrs.Lib.Interleaving
