/-
Ipfrs.Lib.Outcome — reasoning about `Except` computations.

A fallible function that chains `?` is a chain of binds. `bind_eq_ok` peels one
bind off a successful run; the two `simp` lemmas run a bind whose first part is
known.
-/
import Mathlib.Data.List.Forall2
import Ipfrs.Lib.Journal

namespace Ipfrs.Lib

variable {ε ε' α β γ : Type}

@[simp] theorem ok_bind (a : α) (f : α → Except ε β) : (Except.ok a >>= f) = f a := rfl

@[simp] theorem error_bind (e : ε) (f : α → Except ε β) :
    (Except.error e >>= f) = Except.error e := rfl

/-- A successful bind splits into its two successful parts. -/
theorem bind_eq_ok {x : Except ε α} {f : α → Except ε β} {b : β} :
    (x >>= f) = .ok b ↔ ∃ a, x = .ok a ∧ f a = .ok b := by
  cases x with
  | error e => simp
  | ok a => simp

theorem mapError_eq_ok {f : ε → ε'} {x : Except ε α} {a : α} :
    x.mapError f = .ok a ↔ x = .ok a := by
  cases x with
  | error e =>
    show Except.error (f e) = .ok a ↔ Except.error e = .ok a
    simp
  | ok b =>
    show Except.ok b = .ok a ↔ Except.ok b = .ok a
    simp

/-- What holds of every successful call holds along a successful `mapM`. -/
theorem map_of_mapM_ok {f : α → Except ε β} {g : β → γ} {k : α → γ}
    (hf : ∀ a b, f a = .ok b → g b = k a) :
    ∀ {l : List α} {bs : List β}, l.mapM f = .ok bs → bs.map g = l.map k
  | [], bs, h => by
    cases h
    rfl
  | a :: l, bs, h => by
    rw [List.mapM_cons] at h
    obtain ⟨b, hb, h⟩ := bind_eq_ok.mp h
    obtain ⟨bs', hbs, h⟩ := bind_eq_ok.mp h
    cases h
    rw [List.map_cons, List.map_cons, hf a b hb, map_of_mapM_ok hf hbs]

/-- Every call of a successful `mapM` succeeds. -/
theorem ok_of_mapM_ok {f : α → Except ε β} : ∀ {l : List α} {bs : List β}, l.mapM f = .ok bs →
    ∀ a ∈ l, ∃ b, f a = .ok b
  | [], _, _ => by simp
  | a :: l, bs, h => by
    rw [List.mapM_cons] at h
    obtain ⟨b, hb, h⟩ := bind_eq_ok.mp h
    obtain ⟨bs', hbs, -⟩ := bind_eq_ok.mp h
    exact List.forall_mem_cons.mpr ⟨⟨b, hb⟩, ok_of_mapM_ok hbs⟩

/-- A `mapM` all of whose calls succeed is a `map`. -/
theorem mapM_eq_map {f : α → Except ε β} {g : α → β} :
    ∀ {l : List α}, (∀ a ∈ l, f a = .ok (g a)) → l.mapM f = .ok (l.map g)
  | [], _ => rfl
  | a :: l, h => by
    have ih := mapM_eq_map (fun a' ha' => h a' (List.mem_cons_of_mem a ha'))
    rw [List.mapM_cons, h a List.mem_cons_self, ih]
    rfl

/-- If every call succeeds with a result related to its argument, so does the `mapM`. -/
theorem mapM_forall₂ {f : α → Except ε β} {R : α → β → Prop} :
    ∀ {l : List α}, (∀ a ∈ l, ∃ b, f a = .ok b ∧ R a b) →
      ∃ bs, l.mapM f = .ok bs ∧ List.Forall₂ R l bs
  | [], _ => ⟨[], rfl, .nil⟩
  | a :: l, h => by
    obtain ⟨b, hb, hR⟩ := h a List.mem_cons_self
    obtain ⟨bs, hbs, hall⟩ := mapM_forall₂ (fun a' ha' => h a' (List.mem_cons_of_mem a ha'))
    refine ⟨b :: bs, ?_, .cons hR hall⟩
    rw [List.mapM_cons, hb, hbs]
    rfl

/-! ## What a fallible program ends in

`Ends m s Q E` says of one run of a program over a state: it succeeds in `Q`, or fails
in a state with `E`. The rules follow the ways programs are put together: sequence,
choice, an operation on one part of the state (`zoom`), and a call for each element of
a list.

A service takes one request after the other; a request answers or fails, and either way the
next one finds the state that was left. `answered_of_step` is the rule for runs: a step that
keeps an invariant and answers rightly, under a condition on each step, answers rightly
throughout. -/

variable {ε σ τ α β : Type}

def Ends (m : EStateM ε σ α) (s : σ) (Q : α → σ → Prop) (E : σ → Prop) : Prop :=
  match m s with
  | .ok a s' => Q a s'
  | .error _ s' => E s'

namespace Ends

variable {s : σ} {E : σ → Prop}

variable {Q : α → σ → Prop} {m : EStateM ε σ α}

theorem pure {a : α} (h : Q a s) : Ends (Pure.pure a : EStateM ε σ α) s Q E := h

/-- A program that reads the state first. -/
theorem get_bind {f : σ → EStateM ε σ β} {Q : β → σ → Prop} (h : Ends (f s) s Q E) :
    Ends (MonadState.get >>= f) s Q E := h

/-- A program that changes the state first. -/
theorem modify_bind {g : σ → σ} {f : Unit → EStateM ε σ β} {Q : β → σ → Prop}
    (h : Ends (f ()) (g s) Q E) : Ends (modify g >>= f) s Q E := h

/-- A program that reads and changes the state first. -/
theorem modifyGet_bind {g : σ → α × σ} {f : α → EStateM ε σ β} {Q : β → σ → Prop}
    (h : Ends (f (g s).1) (g s).2 Q E) : Ends (modifyGet g >>= f) s Q E := h

theorem modify {f : σ → σ} {Q : Unit → σ → Prop} (h : Q () (f s)) :
    Ends (modify f : EStateM ε σ Unit) s Q E := h

theorem bind {x : EStateM ε σ α} {f : α → EStateM ε σ β} {P : α → σ → Prop} {Q : β → σ → Prop}
    (hx : Ends x s P E) (hf : ∀ a s', P a s' → Ends (f a) s' Q E) : Ends (x >>= f) s Q E := by
  unfold Ends at hx
  cases h : x s with
  | ok a s' =>
    rw [h] at hx
    have hrest := hf a s' hx
    unfold Ends at hrest ⊢
    rw [run_bind_ok h]
    exact hrest
  | error e s' =>
    rw [h] at hx
    unfold Ends
    rw [run_bind_error h]
    exact hx

theorem conseq {P : α → σ → Prop} {E' : σ → Prop} (h : Ends m s P E)
    (hQ : ∀ a s', P a s' → Q a s') (hE : ∀ s', E s' → E' s') : Ends m s Q E' := by
  unfold Ends at h ⊢
  cases hm : m s with
  | ok a s' =>
    rw [hm] at h
    exact hQ a s' h
  | error e s' =>
    rw [hm] at h
    exact hE s' h

/-- The two outcomes, one by one. -/
theorem of_outcomes (hok : ∀ {a s'}, m s = .ok a s' → Q a s')
    (herror : ∀ {e s'}, m s = .error e s' → E s') : Ends m s Q E := by
  unfold Ends
  cases hm : m s with
  | ok a s' => exact hok hm
  | error e s' => exact herror hm

theorem of_ok {a : α} {s' : σ} (h : Ends m s Q E) (hm : m s = .ok a s') : Q a s' := by
  unfold Ends at h
  rwa [hm] at h

/-- What cannot fail succeeds. -/
theorem exists_ok (h : Ends m s Q (fun _ => False)) : ∃ a s', m s = .ok a s' ∧ Q a s' := by
  unfold Ends at h
  cases hm : m s with
  | ok a s' =>
    rw [hm] at h
    exact ⟨a, s', rfl, h⟩
  | error e s' =>
    rw [hm] at h
    exact h.elim

/-- What holds of both outcomes holds of the final state. -/
theorem finalState (h : Ends m s (fun _ s' => E s') E) : E (finalState (m s)) := by
  unfold Ends at h
  cases hm : m s with
  | ok a s' => rwa [hm] at h
  | error e s' => rwa [hm] at h

end Ends

/-- The run ended well. -/
def endsWell : EStateM.Result ε σ α → Bool
  | .ok _ _ => true
  | .error _ _ => false

/-! ## Parts of the state -/

/-- A program on one part of the state. -/
def zoom (part : σ → τ) (put : τ → σ → σ) (m : EStateM ε τ α) : EStateM ε σ α := fun s =>
  match m (part s) with
  | .ok a t => .ok a (put t s)
  | .error e t => .error e (put t s)

theorem Ends.zoom {part : σ → τ} {put : τ → σ → σ} {m : EStateM ε τ α} {s : σ}
    {Q : α → σ → Prop} {E : σ → Prop}
    (h : Ends m (part s) (fun a t => Q a (put t s)) (fun t => E (put t s))) :
    Ends (zoom part put m) s Q E := by
  unfold Ends at h ⊢
  unfold Lib.zoom
  cases hm : m (part s) with
  | ok a t =>
    rw [hm] at h
    exact h
  | error e t =>
    rw [hm] at h
    exact h

/-! ## Runs, evaluated

`simp` unfolds a program call by call with these two; both are true by definition. -/

theorem run_bind (x : EStateM ε σ α) (f : α → EStateM ε σ β) (s : σ) :
    (x >>= f) s
      = match x s with
        | .ok a s' => f a s'
        | .error e s' => .error e s' := rfl

theorem run_map (f : α → β) (x : EStateM ε σ α) (s : σ) :
    (f <$> x) s
      = match x s with
        | .ok a s' => .ok (f a) s'
        | .error e s' => .error e s' := rfl

/-! ## One call for each element -/

/-- The results of one call after the other, up to the first that fails. -/
def eachInOrder (f : α → EStateM ε σ β) : List α → EStateM ε σ (List β)
  | [] => pure []
  | a :: as => do
    let b ← f a
    let bs ← eachInOrder f as
    pure (b :: bs)

/-- The same for calls without a result. -/
def forEach (f : α → EStateM ε σ Unit) : List α → EStateM ε σ Unit
  | [] => pure ()
  | a :: as => do
    f a
    forEach f as

/-- Calls that keep an invariant and answer `g` answer with the list of all `g`. -/
theorem Ends.eachInOrder {f : α → EStateM ε σ β} {Inv : σ → Prop} {g : α → β}
    (hf : ∀ a s, Inv s → Ends (f a) s (fun b s' => b = g a ∧ Inv s') Inv) :
    ∀ (as : List α) (s : σ), Inv s →
      Ends (eachInOrder f as) s (fun bs s' => bs = as.map g ∧ Inv s') Inv
  | [], _, hs => ⟨rfl, hs⟩
  | a :: as, s, hs => by
    refine Ends.bind (hf a s hs) ?_
    rintro b s' ⟨rfl, hs'⟩
    refine Ends.bind (Ends.eachInOrder hf as s' hs') ?_
    rintro bs s'' ⟨rfl, hs''⟩
    exact ⟨rfl, hs''⟩

/-- Each call that is made meets the condition in the state that it finds. -/
def EachMeets (f : α → EStateM ε σ Unit) (Cond : σ → α → Prop) : List α → σ → Prop
  | [], _ => True
  | a :: as, s => Cond s a ∧ ∀ s', f a s = .ok () s' → EachMeets f Cond as s'

theorem eachMeets_of_forall {f : α → EStateM ε σ Unit} {Cond : σ → α → Prop}
    (h : ∀ s a, Cond s a) : ∀ (as : List α) (s : σ), EachMeets f Cond as s
  | [], _ => trivial
  | a :: as, s => ⟨h s a, fun s' _ => eachMeets_of_forall h as s'⟩

/-- Calls that keep an invariant when they meet a condition keep it one after the other. -/
theorem Ends.forEach {f : α → EStateM ε σ Unit} {Inv : σ → Prop} {Cond : σ → α → Prop}
    (hf : ∀ s a, Inv s → Cond s a → Ends (f a) s (fun _ s' => Inv s') Inv) :
    ∀ (as : List α) (s : σ), Inv s → EachMeets f Cond as s →
      Ends (forEach f as) s (fun _ s' => Inv s') Inv
  | [], _, hs, _ => hs
  | a :: as, s, hs, hmeets => by
    refine Ends.bind (P := fun _ s' => Inv s' ∧ EachMeets f Cond as s') ?_ ?_
    · have h := hf s a hs hmeets.1
      unfold Ends at h ⊢
      cases hrun : f a s with
      | ok u s' =>
        rw [hrun] at h
        exact ⟨h, hmeets.2 s' hrun⟩
      | error e s' =>
        rw [hrun] at h
        exact h
    · rintro _ s' ⟨hs', hrest⟩
      exact Ends.forEach hf as s' hs' hrest

/-! ## Services -/

namespace Service

variable {ε σ ρ α : Type} (perform : ρ → EStateM ε σ α)

/-- The state some requests leave. -/
def after : List ρ → σ → σ
  | [], s => s
  | r :: rs, s => after rs (finalState (perform r s))

/-- Each request meets the condition in the state that it finds. -/
def Meets (Cond : σ → ρ → Prop) : List ρ → σ → Prop
  | [], _ => True
  | r :: rs, s => Cond s r ∧ Meets Cond rs (finalState (perform r s))

/-- Each answer given is right for the state that its request found. -/
def Answered (Right : σ → ρ → α → Prop) (rs : List ρ) (s : σ) : Prop :=
  ∀ pre r post a s', rs = pre ++ r :: post → perform r (after perform pre s) = .ok a s' →
    Right (after perform pre s) r a

variable {perform}

theorem answered_nil {Right : σ → ρ → α → Prop} {s : σ} : Answered perform Right [] s := by
  intro pre r post a s' h
  cases pre <;> cases h

theorem answered_cons {Right : σ → ρ → α → Prop} {r : ρ} {rs : List ρ} {s : σ}
    (hone : ∀ a s', perform r s = .ok a s' → Right s r a)
    (hrest : Answered perform Right rs (finalState (perform r s))) :
    Answered perform Right (r :: rs) s := by
  intro pre q post a s' h ha
  cases pre with
  | nil =>
    cases h
    exact hone a s' ha
  | cons p pre =>
    cases h
    exact hrest pre q post a s' rfl ha

theorem answered_of_step {Inv : σ → Prop} {Cond : σ → ρ → Prop} {Right : σ → ρ → α → Prop}
    (hstep : ∀ s r, Inv s → Cond s r →
      Ends (perform r) s (fun a s' => Right s r a ∧ Inv s') Inv) :
    ∀ (rs : List ρ) (s : σ), Inv s → Meets perform Cond rs s → Answered perform Right rs s
  | [], _, _, _ => answered_nil
  | r :: rs, s, hs, hmeets => by
    have h := hstep s r hs hmeets.1
    apply answered_cons
    · intro a s' ha
      exact (h.of_ok ha).1
    · have hkept := (h.conseq (fun _ _ hq => hq.2) (fun _ he => he)).finalState
      exact answered_of_step hstep rs _ hkept hmeets.2

end Service

end Ipfrs.Lib
