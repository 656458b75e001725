/-
Ipfrs.Lib.FieldReader — reading fields of known length from input that comes in pieces.

A reader knows how many symbols its field still needs; it collects what comes until the
field is full and then moves on, possibly with a result. `run` feeds it one symbol after
the other, so how the input is cut makes no difference (`run_append`); `run_collect` and
`run_finish` say what a run does within one field.
-/
import Mathlib.Data.List.Basic

namespace Ipfrs.Lib

structure FieldReader (β σ ε φ : Type) where
  /-- The symbols that the field still needs. -/
  need : σ → Nat
  /-- Some of them arrive. -/
  collect : σ → List β → σ
  /-- All of them have arrived. -/
  finish : σ → List β → Except ε (Option φ × σ)

namespace FieldReader

variable {β σ ε φ : Type} (m : FieldReader β σ ε φ)

def feed (s : σ) (b : β) : Except ε (Option φ × σ) :=
  if m.need s ≤ 1 then m.finish s [b] else .ok (none, m.collect s [b])

/-- The results of feeding some symbols, and the state they leave. -/
def run : List β → σ → Except ε (List φ × σ)
  | [], s => .ok ([], s)
  | b :: bs, s => do
    let (r, s) ← m.feed s b
    let (rs, s) ← run bs s
    return (r.toList ++ rs, s)

/-- In the states that `Inv` picks out fields are not empty, and collecting in several steps
is collecting at once. -/
structure Lawful (Inv : σ → Prop) : Prop where
  need_pos : ∀ {s}, Inv s → 0 < m.need s
  collect_inv : ∀ {s} {bs : List β}, Inv s → bs.length < m.need s → Inv (m.collect s bs)
  collect_nil : ∀ {s}, Inv s → m.collect s [] = s
  need_collect : ∀ {s} {bs : List β}, Inv s → bs.length < m.need s →
    m.need (m.collect s bs) = m.need s - bs.length
  collect_append : ∀ {s} {bs cs : List β}, Inv s →
    m.collect (m.collect s bs) cs = m.collect s (bs ++ cs)
  finish_collect : ∀ {s} {bs cs : List β}, Inv s →
    m.finish (m.collect s bs) cs = m.finish s (bs ++ cs)
  finish_inv : ∀ {s s'} {bs : List β} {r : Option φ}, Inv s → bs.length = m.need s →
    m.finish s bs = .ok (r, s') → Inv s'

variable {m}

@[simp] theorem run_nil (s : σ) : m.run [] s = .ok ([], s) := rfl

theorem run_cons (b : β) (bs : List β) (s : σ) : m.run (b :: bs) s = (m.feed s b).bind fun fed =>
      (m.run bs fed.2).map fun res => (fed.1.toList ++ res.1, res.2) := by
  rw [run]
  cases m.feed s b with
  | error e => rfl
  | ok fed => cases hrest : m.run bs fed.2 <;> simp [bind, Except.bind, Except.map, hrest, pure,
      Except.pure]

/-- A run goes on where its first part ended. -/
theorem run_append (as bs : List β) (s : σ) : m.run (as ++ bs) s = (m.run as s).bind fun fst =>
      (m.run bs fst.2).map fun res => (fst.1 ++ res.1, res.2) := by
  induction as generalizing s with
  | nil => cases hrest : m.run bs s <;> simp [Except.bind, Except.map, hrest]
  | cons a as ih =>
    rw [List.cons_append, run_cons, run_cons]
    cases m.feed s a with
    | error e => rfl
    | ok fed =>
      simp only [Except.bind, ih]
      cases m.run as fed.2 with
      | error e => rfl
      | ok fst => cases hrest : m.run bs fst.2 <;> simp [Except.map, hrest]

theorem run_append_eq_ok {as bs : List β} {s s'' : σ} {rs : List φ} :
    m.run (as ++ bs) s = .ok (rs, s'') ↔
      ∃ rs₁ rs₂ s', m.run as s = .ok (rs₁, s') ∧ m.run bs s' = .ok (rs₂, s'')
        ∧ rs = rs₁ ++ rs₂ := by
  rw [run_append]
  constructor
  · intro h
    cases has : m.run as s with
    | error e =>
      rw [has] at h
      cases h
    | ok fst =>
      cases hbs : m.run bs fst.2 with
      | error e =>
        rw [has, Except.bind, hbs] at h
        cases h
      | ok res =>
        rw [has, Except.bind, hbs] at h
        cases h
        exact ⟨fst.1, res.1, fst.2, rfl, hbs, rfl⟩
  · rintro ⟨rs₁, rs₂, s', has, hbs, rfl⟩
    rw [has, Except.bind, hbs]
    rfl

variable {Inv : σ → Prop}

theorem feed_inv (hm : m.Lawful Inv) {b : β} {s s' : σ} {r : Option φ} (hs : Inv s)
    (h : m.feed s b = .ok (r, s')) : Inv s' := by
  have hpos := hm.need_pos hs
  rw [feed] at h
  split at h
  · next hle =>
    refine hm.finish_inv hs ?_ h
    rw [List.length_singleton]
    omega
  · next hlt =>
    cases h
    refine hm.collect_inv hs ?_
    rw [List.length_singleton]
    omega

theorem run_inv (hm : m.Lawful Inv) : ∀ {bs : List β} {s s' : σ} {rs : List φ}, Inv s →
    m.run bs s = .ok (rs, s') → Inv s'
  | [], _, _, _, hs, h => by
    cases h
    exact hs
  | b :: bs, s, s', rs, hs, h => by
    obtain ⟨_, _, s₁, hone, hrest, -⟩ := run_append_eq_ok.mp (show m.run ([b] ++ bs) s = _ from h)
    rw [run_cons] at hone
    cases hfeed : m.feed s b with
    | error e =>
      rw [hfeed] at hone
      cases hone
    | ok fed =>
      rw [hfeed] at hone
      cases hone
      exact run_inv hm (feed_inv hm hs hfeed) hrest

/-- Less than a field is collected. -/
theorem run_collect (hm : m.Lawful Inv) : ∀ {bs : List β} {s : σ}, Inv s →
    bs.length < m.need s → m.run bs s = .ok ([], m.collect s bs)
  | [], s, hs, _ => by rw [run_nil, hm.collect_nil hs]
  | b :: bs, s, hs, hlen => by
    rw [List.length_cons] at hlen
    have hone : [b].length < m.need s := by
      rw [List.length_singleton]
      omega
    have hfeed : m.feed s b = .ok (none, m.collect s [b]) := by
      rw [feed, if_neg (by omega)]
    have hneed := hm.need_collect hs hone
    rw [List.length_singleton] at hneed
    have hrest : m.run bs (m.collect s [b]) = _ :=
      run_collect hm (hm.collect_inv hs hone) (by omega)
    rw [run_cons, hfeed, Except.bind, hrest, hm.collect_append hs]
    rfl

/-- A whole field finishes. -/
theorem run_finish (hm : m.Lawful Inv) {bs : List β} {s : σ} (hs : Inv s)
    (hlen : bs.length = m.need s) :
    m.run bs s = (m.finish s bs).map fun fed => (fed.1.toList, fed.2) := by
  have hpos := hm.need_pos hs
  obtain ⟨init, last, rfl⟩ : ∃ init last, bs = init ++ [last] := by
    refine ⟨bs.dropLast, bs.getLast ?_, (List.dropLast_append_getLast _).symm⟩
    exact List.ne_nil_of_length_pos (by omega)
  rw [List.length_append, List.length_singleton] at hlen
  have hinit : init.length < m.need s := by omega
  have hneed := hm.need_collect hs hinit
  have hfeed : m.feed (m.collect s init) last = m.finish s (init ++ [last]) := by
    rw [feed, if_pos (by omega), hm.finish_collect hs]
  rw [run_append, run_collect hm hs hinit, Except.bind, run_cons, hfeed]
  cases m.finish s (init ++ [last]) with
  | error e => rfl
  | ok fed => simp [Except.bind, Except.map]

theorem run_finish_eq_ok (hm : m.Lawful Inv) {bs : List β} {s s' : σ} {r : Option φ} (hs : Inv s)
    (hlen : bs.length = m.need s) (h : m.finish s bs = .ok (r, s')) :
    m.run bs s = .ok (r.toList, s') := by
  rw [run_finish hm hs hlen, h]
  rfl

end FieldReader

end Ipfrs.Lib
