/-
Ipfrs.Lib.Journal — fallible programs over a state that records what was written.

A program that takes `&mut self` and returns a result keeps its writes when it
fails, which is `EStateM`. `log` reads off the state everything written so far; a
program `Grows` the log when it never loses an entry.

Some properties of such programs hold only while the log stays within a set `H`
of entries that do not contradict each other. `Triple H m s Q E` says: if the run
of `m` from `s` ends with its log within `H`, it ends in `Q`, or fails in `E`.
Since logs grow, a bound on the log at the end bounds it at every point before
(`Triple.bind`), so one assumption about the end of a whole run is enough.
-/
import Mathlib.Logic.Basic

namespace Ipfrs.Lib

variable {ε σ α β γ : Type}

/-- The state a run ends in, whether it succeeds or fails. -/
def finalState : EStateM.Result ε σ α → σ
  | .ok _ s => s
  | .error _ s => s

@[simp] theorem finalState_ok (a : α) (s : σ) :
    finalState (EStateM.Result.ok a s : EStateM.Result ε σ α) = s := rfl

@[simp] theorem finalState_error (e : ε) (s : σ) :
    finalState (EStateM.Result.error e s : EStateM.Result ε σ α) = s := rfl

@[simp] theorem run_pure (a : α) (s : σ) : (pure a : EStateM ε σ α) s = .ok a s := rfl

@[simp] theorem run_get (s : σ) : (MonadState.get : EStateM ε σ σ) s = .ok s s := rfl

@[simp] theorem run_modify (f : σ → σ) (s : σ) :
    (modify f : EStateM ε σ PUnit) s = .ok () (f s) := rfl

@[simp] theorem run_modifyGet (g : σ → α × σ) (s : σ) :
    (modifyGet g : EStateM ε σ α) s = .ok (g s).1 (g s).2 := rfl

variable {m x : EStateM ε σ α} {f : α → EStateM ε σ β}

theorem run_bind_ok {s s' : σ} {a : α} (h : x s = .ok a s') : (x >>= f) s = f a s' := by
  show EStateM.bind x f s = _
  rw [EStateM.bind, h]

theorem run_bind_error {s s' : σ} {e : ε} (h : x s = .error e s') : (x >>= f) s = .error e s' := by
  show EStateM.bind x f s = _
  rw [EStateM.bind, h]

/-- A sequence succeeds when both parts do. -/
theorem run_bind_eq_ok {s s'' : σ} {b : β} (h : (x >>= f) s = .ok b s'') :
    ∃ a s', x s = .ok a s' ∧ f a s' = .ok b s'' := by
  cases hx : x s with
  | ok a s' =>
    rw [run_bind_ok hx] at h
    exact ⟨a, s', rfl, h⟩
  | error e s' =>
    rw [run_bind_error hx] at h
    cases h

/-- Changing the result does not change the state. -/
theorem finalState_bind_pure (x : EStateM ε σ α) (g : α → β) (s : σ) :
    finalState ((x >>= fun a => pure (g a)) s) = finalState (x s) := by
  cases hx : x s with
  | ok a s' =>
    rw [run_bind_ok hx]
    rfl
  | error e s' =>
    rw [run_bind_error hx]
    rfl

/-- A program that only reads the state. -/
def readM (f : σ → Except ε α) : EStateM ε σ α := do
  let s ← MonadState.get
  liftExcept (f s)

theorem readM_run (f : σ → Except ε α) (s : σ) :
    readM f s = (match f s with
      | .ok a => .ok a s
      | .error e => .error e s) := by
  show (liftExcept (f s) : EStateM ε σ α) s = _
  cases f s with
  | ok a => rfl
  | error e => rfl

theorem readM_ok {f : σ → Except ε α} {s : σ} {a : α} (h : f s = .ok a) : readM f s = .ok a s := by
  rw [readM_run, h]

theorem readM_error {f : σ → Except ε α} {s : σ} {e : ε} (h : f s = .error e) :
    readM f s = .error e s := by
  rw [readM_run, h]

/-! ## What a run keeps -/

/-- No run breaks `I`, whether it succeeds or fails. -/
def Keeps (I : σ → Prop) (m : EStateM ε σ α) : Prop := ∀ s, I s → I (finalState (m s))

section

variable {I : σ → Prop}

theorem Keeps.pure (a : α) : Keeps I (Pure.pure a : EStateM ε σ α) := by
  intro s hs
  exact hs

theorem Keeps.throw (x : ε) : Keeps I (MonadExcept.throw x : EStateM ε σ α) := by
  intro s hs
  exact hs

theorem Keeps.lift (r : Except ε α) : Keeps I (liftExcept r : EStateM ε σ α) := by
  cases r with
  | ok a => exact Keeps.pure a
  | error e => exact Keeps.throw e

theorem Keeps.bind {x : EStateM ε σ α} {f : α → EStateM ε σ β} (hx : Keeps I x)
    (hf : ∀ a, Keeps I (f a)) : Keeps I (x >>= f) := by
  intro s hs
  have hmid := hx s hs
  cases h : x s with
  | ok a s' =>
    rw [h] at hmid
    rw [run_bind_ok h]
    exact hf a s' hmid
  | error err s' =>
    rw [h] at hmid
    rw [run_bind_error h]
    exact hmid

theorem Keeps.modify {f : σ → σ} (hf : ∀ s, I s → I (f s)) :
    Keeps I (modify f : EStateM ε σ Unit) := by
  intro s hs
  exact hf s hs

theorem Keeps.get : Keeps I (MonadState.get : EStateM ε σ σ) := by
  intro s hs
  exact hs

theorem Keeps.readM (f : σ → Except ε α) : Keeps I (readM f) := by
  intro s hs
  rw [readM_run]
  cases f s with
  | ok a => exact hs
  | error err => exact hs

end

variable (log : σ → List γ)

/-- No run loses an entry of the log. -/
def Grows (m : EStateM ε σ α) : Prop := ∀ e, Keeps (fun s => e ∈ log s) m

/-- If a run ends with its log within `H`, it succeeds in `Q` or fails in `E`. -/
def Triple (H : List γ) (m : EStateM ε σ α) (s : σ) (Q : α → σ → Prop) (E : ε → σ → Prop) :
    Prop :=
  (∀ e ∈ log (finalState (m s)), e ∈ H) →
    match m s with
    | .ok a s' => Q a s'
    | .error e s' => E e s'

variable {log}

theorem Grows.pure (a : α) : Grows log (Pure.pure a : EStateM ε σ α) := fun _ => Keeps.pure a

theorem Grows.bind {x : EStateM ε σ α} {f : α → EStateM ε σ β} (hx : Grows log x)
    (hf : ∀ a, Grows log (f a)) : Grows log (x >>= f) :=
  fun e => Keeps.bind (hx e) (fun a => hf a e)

/-! ## Triples -/

variable {H : List γ} {s : σ} {Q : α → σ → Prop} {E : ε → σ → Prop}

/-- A run that is known to succeed. -/
theorem Triple.of_ok {a : α} {s' : σ} (hrun : m s = .ok a s') (h : (∀ e ∈ log s', e ∈ H) → Q a s') :
    Triple log H m s Q E := by
  intro hlog
  rw [hrun] at hlog ⊢
  exact h hlog

theorem Triple.pure {a : α} (h : Q a s) : Triple log H (Pure.pure a : EStateM ε σ α) s Q E := by
  intro _
  exact h

theorem Triple.conseq {Q' : α → σ → Prop} {E' : ε → σ → Prop} (h : Triple log H m s Q E)
    (hQ : ∀ a s', Q a s' → Q' a s') (hE : ∀ e s', E e s' → E' e s') : Triple log H m s Q' E' := by
  intro hlog
  have hm := h hlog
  cases hr : m s with
  | ok a s' =>
    rw [hr] at hm
    exact hQ a s' hm
  | error e s' =>
    rw [hr] at hm
    exact hE e s' hm

/-- Sequencing: a bound on the final log bounds the log in between. -/
theorem Triple.bind {x : EStateM ε σ α} {f : α → EStateM ε σ β} {P : α → σ → Prop}
    {Q : β → σ → Prop} (hx : Triple log H x s P E) (hgrows : ∀ a, Grows log (f a))
    (hf : ∀ a s', x s = .ok a s' → P a s' → Triple log H (f a) s' Q E) :
    Triple log H (x >>= f) s Q E := by
  intro hlog
  cases h : x s with
  | ok a s' =>
    rw [run_bind_ok h] at hlog ⊢
    have hP := hx (by
      rw [h]
      intro e he
      exact hlog e (hgrows a e s' he))
    rw [h] at hP
    exact hf a s' h hP hlog
  | error err s' =>
    rw [run_bind_error h] at hlog ⊢
    have hE := hx (by rw [h]; exact hlog)
    rw [h] at hE
    exact hE

/-- A first step that is known to succeed. -/
theorem Triple.step {Q : β → σ → Prop} {a : α} {s' : σ} (hrun : x s = .ok a s')
    (h : Triple log H (f a) s' Q E) : Triple log H (x >>= f) s Q E := by
  intro hlog
  rw [run_bind_ok hrun] at hlog ⊢
  exact h hlog

/-- A first step that is known to fail. -/
theorem Triple.fail {Q : β → σ → Prop} {e : ε} {s' : σ} (hrun : x s = .error e s') (h : E e s') :
    Triple log H (x >>= f) s Q E := by
  intro _
  rw [run_bind_error hrun]
  exact h

/-- The bound on the final log bounds the log at the start. -/
theorem Triple.start (hgrows : Grows log m) (h : (∀ e ∈ log s, e ∈ H) → Triple log H m s Q E) :
    Triple log H m s Q E := by
  intro hlog
  exact h (fun e he => hlog e (hgrows e s he)) hlog

/-- Reading leaves the log as it is, so the bound on it is known while reading. -/
theorem Triple.readM {f : σ → Except ε α}
    (h : (∀ e ∈ log s, e ∈ H) →
      match f s with
      | .ok a => Q a s
      | .error e => E e s) :
    Triple log H (readM f) s Q E := by
  intro hlog
  rw [readM_run] at hlog ⊢
  cases hf : f s with
  | ok a | error a =>
    simp only [hf] at h hlog ⊢
    exact h hlog

/-- A run that satisfies a triple which excludes failure succeeds. -/
theorem Triple.succeeds (h : Triple log H m s Q (fun _ _ => False))
    (hlog : ∀ e ∈ log (finalState (m s)), e ∈ H) : ∃ a s', m s = .ok a s' ∧ Q a s' := by
  have hm := h hlog
  cases hr : m s with
  | ok a s' =>
    rw [hr] at hm
    exact ⟨a, s', rfl, hm⟩
  | error e s' =>
    rw [hr] at hm
    exact hm.elim

end Ipfrs.Lib
