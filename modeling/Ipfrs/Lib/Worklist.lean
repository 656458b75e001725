/-
Ipfrs.Lib.Worklist — marking what is reachable in a graph.

A search keeps the nodes seen so far and a frontier. It takes a node from the
frontier; one that was seen is dropped, any other is seen and its successors join
the frontier. `Inv` is what such a search keeps, whatever the order of the
frontier, and at an empty frontier it says that the nodes seen are the nodes
reachable (`Inv.done`). `pending` falls in every round when all but finitely many
nodes have no successors. `Walked` is what a search by recursion does.
-/
import Mathlib.Data.Finset.Insert
import Mathlib.Algebra.Ring.Nat

namespace Ipfrs.Lib.Worklist

variable {α : Type} {next next' : α → List α} {roots seen frontier rest : List α} {x : α}

/-- `x` is reached from a root along successors. -/
def Reach (next : α → List α) (roots : List α) (x : α) : Prop :=
  ∃ r ∈ roots, Relation.ReflTransGen (fun a b => b ∈ next a) r x

theorem Reach.root (h : x ∈ roots) : Reach next roots x := ⟨x, h, .refl⟩

theorem Reach.step {y : α} (hx : Reach next roots x) (hy : y ∈ next x) : Reach next roots y := by
  obtain ⟨r, hr, hpath⟩ := hx
  exact ⟨r, hr, hpath.tail hy⟩

/-- What holds of the roots and passes to successors holds of all that is reached. -/
theorem Reach.rule {P : α → Prop} (hroot : ∀ r ∈ roots, P r)
    (hstep : ∀ a b, Reach next roots a → P a → b ∈ next a → P b) (hx : Reach next roots x) :
    P x := by
  obtain ⟨r, hr, hpath⟩ := hx
  induction hpath with
  | refl => exact hroot r hr
  | tail hpath hlast ih => exact hstep _ _ ⟨r, hr, hpath⟩ ih hlast

/-- More successors reach more. -/
theorem Reach.mono (hsub : ∀ a, ∀ b ∈ next a, b ∈ next' a) (hx : Reach next roots x) :
    Reach next' roots x :=
  Reach.rule (fun _ hr => .root hr) (fun a b _ ha hb => ha.step (hsub a b hb)) hx

/-- More roots reach more. -/
theorem Reach.mono_roots {roots' : List α} (hsub : ∀ r ∈ roots, r ∈ roots')
    (hx : Reach next roots x) : Reach next roots' x := by
  obtain ⟨r, hr, hpath⟩ := hx
  exact ⟨r, hsub r hr, hpath⟩

/-- What is reached from what follows a node is reached from it. -/
theorem Reach.of_next (hx : Reach next (next r) x) : Reach next [r] x :=
  Reach.rule (fun _ hy => (Reach.root List.mem_cons_self).step hy)
    (fun _ _ _ ha hb => ha.step hb) hx

/-! ## The invariant of a search -/

structure Inv (next : α → List α) (roots seen frontier : List α) : Prop where
  sound : ∀ x, x ∈ seen ∨ x ∈ frontier → Reach next roots x
  closed : ∀ x ∈ seen, ∀ y ∈ next x, y ∈ seen ∨ y ∈ frontier
  rooted : ∀ r ∈ roots, r ∈ seen ∨ r ∈ frontier

theorem Inv.init (hfrontier : ∀ x, x ∈ frontier ↔ x ∈ roots) : Inv next roots [] frontier where
  sound x hx := by
    rcases hx with hx | hx
    · cases hx
    · exact .root ((hfrontier x).mp hx)
  closed x hx := by cases hx
  rooted r hr := .inr ((hfrontier r).mpr hr)

theorem Inv.skip (h : Inv next roots seen (x :: rest)) (hx : x ∈ seen) :
    Inv next roots seen rest := by
  -- what was only the head of the frontier is seen
  have drop : ∀ y, y ∈ seen ∨ y ∈ x :: rest → y ∈ seen ∨ y ∈ rest := by
    rintro y (hy | hy)
    · exact .inl hy
    · rcases List.mem_cons.mp hy with rfl | hy
      · exact .inl hx
      · exact .inr hy
  refine ⟨?_, fun a ha b hb => drop b (h.closed a ha b hb), fun r hr => drop r (h.rooted r hr)⟩
  rintro y (hy | hy)
  · exact h.sound y (.inl hy)
  · exact h.sound y (.inr (List.mem_cons_of_mem _ hy))

/-- Seeing the head of the frontier: what follows it may join the frontier, and must if it
was not seen. -/
theorem Inv.visitNew (h : Inv next roots seen (x :: rest))
    (hsound : ∀ y ∈ frontier, y ∈ next x ∨ y ∈ rest) (hrest : ∀ y ∈ rest, y ∈ frontier)
    (hnext : ∀ y ∈ next x, y ∈ x :: seen ∨ y ∈ frontier) : Inv next roots (x :: seen) frontier := by
  have keep : ∀ y, y ∈ seen ∨ y ∈ x :: rest → y ∈ x :: seen ∨ y ∈ frontier := by
    rintro y (hy | hy)
    · exact .inl (List.mem_cons_of_mem _ hy)
    · rcases List.mem_cons.mp hy with rfl | hy
      · exact .inl List.mem_cons_self
      · exact .inr (hrest y hy)
  have hx : Reach next roots x := h.sound x (.inr List.mem_cons_self)
  refine ⟨?_, ?_, fun r hr => keep r (h.rooted r hr)⟩
  · rintro y (hy | hy)
    · rcases List.mem_cons.mp hy with rfl | hy
      · exact hx
      · exact h.sound y (.inl hy)
    · rcases hsound y hy with hy | hy
      · exact hx.step hy
      · exact h.sound y (.inr (List.mem_cons_of_mem _ hy))
  · intro a ha b hb
    rcases List.mem_cons.mp ha with rfl | ha
    · exact hnext b hb
    · exact keep b (h.closed a ha b hb)

theorem Inv.visit (h : Inv next roots seen (x :: rest))
    (hfrontier : ∀ y, y ∈ frontier ↔ y ∈ next x ∨ y ∈ rest) : Inv next roots (x :: seen) frontier :=
  h.visitNew (fun y hy => (hfrontier y).mp hy) (fun y hy => (hfrontier y).mpr (.inr hy))
    (fun y hy => .inr ((hfrontier y).mpr (.inl hy)))

/-- **The search is exact**: at an empty frontier, seen is reachable. -/
theorem Inv.done (h : Inv next roots seen []) : x ∈ seen ↔ Reach next roots x := by
  constructor
  · intro hx
    exact h.sound x (.inl hx)
  · refine Reach.rule ?_ ?_
    · intro r hr
      exact (h.rooted r hr).resolve_right List.not_mem_nil
    · intro a b _ ha hb
      exact (h.closed a ha b hb).resolve_right List.not_mem_nil

/-! ## Termination -/

section

variable [DecidableEq α]

/-- What an unseen node can still add. -/
def weight (next : α → List α) (seen : List α) (u : α) : Nat :=
  if u ∈ seen then 0 else 1 + (next u).length

/-- The length of the frontier, and what the unseen nodes can add to it. -/
def pending (next : α → List α) (support seen frontier : List α) : Nat :=
  frontier.length + (support.map (weight next seen)).sum

theorem pending_skip (support : List α) :
    pending next support seen rest < pending next support seen (x :: rest) := by
  simp only [pending, List.length_cons]
  omega

theorem weight_cons_le (next : α → List α) (seen : List α) (x u : α) :
    weight next (x :: seen) u ≤ weight next seen u := by
  by_cases hu : u ∈ seen
  · simp [weight, hu]
  · by_cases hx : u = x
    · simp [weight, hx]
    · simp [weight, hu, hx]

theorem sum_weight_cons_le (next : α → List α) (seen : List α) (x : α) (support : List α) :
    (support.map (weight next (x :: seen))).sum ≤ (support.map (weight next seen)).sum := by
  induction support with
  | nil => exact Nat.le_refl _
  | cons u support ih =>
    have hu := weight_cons_le next seen x u
    simp only [List.map_cons, List.sum_cons]
    omega

/-- Seeing a node of the support takes its weight out of the sum. -/
theorem sum_weight_cons_add_le (next : α → List α) {support : List α} (hmem : x ∈ support)
    (hx : x ∉ seen) : (support.map (weight next (x :: seen))).sum + (1 + (next x).length)
      ≤ (support.map (weight next seen)).sum := by
  induction support with
  | nil => cases hmem
  | cons u support ih =>
    simp only [List.map_cons, List.sum_cons]
    rcases List.mem_cons.mp hmem with rfl | hmem
    · have hle := sum_weight_cons_le next seen x support
      have hx0 : weight next (x :: seen) x = 0 := by simp [weight]
      have hx1 : weight next seen x = 1 + (next x).length := by simp [weight, hx]
      omega
    · have hu := weight_cons_le next seen x u
      have hle := ih hmem
      omega

theorem pending_visit {support : List α} (hx : x ∉ seen) (hsupport : x ∉ support → next x = [])
    (hlen : frontier.length ≤ (next x).length + rest.length) :
    pending next support (x :: seen) frontier < pending next support seen (x :: rest) := by
  simp only [pending, List.length_cons]
  by_cases hmem : x ∈ support
  · have hle := sum_weight_cons_add_le next hmem hx
    omega
  · have hle := sum_weight_cons_le next seen x support
    rw [hsupport hmem, List.length_nil] at hlen
    omega

end

/-! ## Marking when pushed

A search can also mark a node when it pushes it, and so push each node once. Its stack
is then among the marked nodes. -/

section

variable [DecidableEq α] {marked stack : List α}

/-- Mark and push the nodes that are not marked yet: the marked nodes and the stack. -/
def markNew : List α → List α × List α → List α × List α
  | [], s => s
  | y :: ys, s => if y ∈ s.1 then markNew ys s else markNew ys (y :: s.1, y :: s.2)

theorem mem_markNew_marked (ys : List α) (s : List α × List α) :
    x ∈ (markNew ys s).1 ↔ x ∈ s.1 ∨ x ∈ ys := by
  induction ys generalizing s with
  | nil => simp [markNew]
  | cons y ys ih =>
    rw [markNew]
    split
    · next hy =>
      rw [ih, List.mem_cons]
      constructor
      · exact Or.imp_right .inr
      · rintro (hx | rfl | hx)
        · exact .inl hx
        · exact .inl hy
        · exact .inr hx
    · rw [ih, List.mem_cons, List.mem_cons]
      tauto

theorem mem_markNew_stack (ys : List α) (s : List α × List α) :
    x ∈ (markNew ys s).2 ↔ x ∈ s.2 ∨ (x ∈ ys ∧ x ∉ s.1) := by
  induction ys generalizing s with
  | nil => simp [markNew]
  | cons y ys ih =>
    rw [markNew]
    by_cases hxy : x = y
    · subst hxy
      split
      · next hx => simp [ih, hx]
      · next hx => simp [ih, hx]
    · split
      · simp [ih, hxy]
      · simp [ih, hxy]

/-- The nodes of a support that are not marked. -/
def unmarked (support marked : List α) : Nat := (support.filter (fun u => u ∉ marked)).length

/-- Names of the nodes count as the nodes. -/
theorem unmarked_map {β : Type} [DecidableEq β] {f : α → β} (hf : Function.Injective f)
    (support marked : List α) :
    unmarked (support.map f) (marked.map f) = unmarked support marked := by
  rw [unmarked, unmarked, List.filter_map, List.length_map]
  congr 2
  funext u
  rw [Function.comp_apply, decide_eq_decide, List.mem_map_of_injective hf]

theorem unmarked_cons_lt {support : List α} (hmem : x ∈ support) (hx : x ∉ marked) :
    unmarked support (x :: marked) < unmarked support marked := by
  have hsub : support.filter (fun u => u ∉ x :: marked)
      = (support.filter (fun u => u ∉ marked)).filter (fun u => u ≠ x) := by
    rw [List.filter_filter]
    congr 1
    funext u
    simp [List.mem_cons, not_or]
  rw [unmarked, unmarked, hsub]
  apply List.length_filter_lt_length_iff_exists.mpr
  exact ⟨x, List.mem_filter.mpr ⟨hmem, by simpa using hx⟩, by simp⟩

/-- Marking more leaves less unmarked. -/
theorem unmarked_le (support : List α) {marked' : List α} (h : ∀ x ∈ marked, x ∈ marked') :
    unmarked support marked' ≤ unmarked support marked := by
  have hsub : (support.filter (fun u => u ∉ marked')).Sublist
      (support.filter (fun u => u ∉ marked)) := by
    refine List.monotone_filter_right support (fun u hu => ?_)
    simp only [decide_eq_true_eq] at hu ⊢
    exact fun hmem => hu (h u hmem)
  exact hsub.length_le

theorem markNew_length_le {support : List α} {ys : List α} (hys : ∀ y ∈ ys, y ∈ support)
    (s : List α × List α) : (markNew ys s).2.length + unmarked support (markNew ys s).1
      ≤ s.2.length + unmarked support s.1 := by
  induction ys generalizing s with
  | nil => exact Nat.le_refl _
  | cons y ys ih =>
    have hrest : ∀ u ∈ ys, u ∈ support := fun u hu => hys u (List.mem_cons_of_mem _ hu)
    rw [markNew]
    split
    · exact ih hrest s
    · next hy =>
      have hlt := unmarked_cons_lt (hys y List.mem_cons_self) hy
      have hle := ih hrest (y :: s.1, y :: s.2)
      simp only [List.length_cons] at hle
      omega

structure Marks (next : α → List α) (roots marked stack : List α) : Prop where
  sound : ∀ x ∈ marked, Reach next roots x
  closed : ∀ x ∈ marked, x ∈ stack ∨ ∀ y ∈ next x, y ∈ marked
  pushed : ∀ x ∈ stack, x ∈ marked
  rooted : ∀ r ∈ roots, r ∈ marked

omit [DecidableEq α] in
theorem Marks.init (hmarked : ∀ x, x ∈ marked ↔ x ∈ roots) (hstack : ∀ x, x ∈ stack ↔ x ∈ roots) :
    Marks next roots marked stack where
  sound x hx := .root ((hmarked x).mp hx)
  closed x hx := .inl ((hstack x).mpr ((hmarked x).mp hx))
  pushed x hx := (hmarked x).mpr ((hstack x).mp hx)
  rooted r hr := (hmarked r).mpr hr

theorem Marks.visit (h : Marks next roots marked (x :: rest)) :
    Marks next roots (markNew (next x) (marked, rest)).1 (markNew (next x) (marked, rest)).2 := by
  have hx : x ∈ marked := h.pushed x List.mem_cons_self
  constructor
  · intro y hy
    rcases (mem_markNew_marked _ _).mp hy with hy | hy
    · exact h.sound y hy
    · exact (h.sound x hx).step hy
  · intro a ha
    simp only [mem_markNew_stack, mem_markNew_marked] at ha ⊢
    by_cases hold : a ∈ marked
    · rcases h.closed a hold with hstack | hnext
      · rcases List.mem_cons.mp hstack with rfl | hrest
        · exact .inr (fun y hy => .inr hy)
        · exact .inl (.inl hrest)
      · exact .inr (fun y hy => .inl (hnext y hy))
    · exact .inl (.inr ⟨ha.resolve_left hold, hold⟩)
  · intro y hy
    rw [mem_markNew_marked]
    rcases (mem_markNew_stack _ _).mp hy with hy | hy
    · exact .inl (h.pushed y (List.mem_cons_of_mem _ hy))
    · exact .inr hy.1
  · intro r hr
    rw [mem_markNew_marked]
    exact .inl (h.rooted r hr)

omit [DecidableEq α] in
/-- At an empty stack, marked is reachable. -/
theorem Marks.done (h : Marks next roots marked []) : x ∈ marked ↔ Reach next roots x := by
  constructor
  · exact h.sound x
  · refine Reach.rule h.rooted ?_
    intro a b _ ha hb
    exact (h.closed a ha).resolve_left List.not_mem_nil b hb

end

/-! ## Walks by recursion

A recursive walk sees a node when it first meets it, and goes on behind it when all that
follows it is seen. `opened` are the nodes whose successors are being looked at. A walk may be
cut short where it would go on behind a node, as long as no `sure` successor of the node is
left: it is seen, or it follows an open node and will be (`Owed`). `Traced` says where the nodes
seen come from: from nodes `inside` that are open or have no sure successor left, which bounds
what has been seen when a walk is cut. If what leads to a sure node is sure, no sure node that
is reached is missed in the end (`Walked.exact`).
-/

section

variable [DecidableEq α] {sure inside found : α → Prop} {opened starts starts' : List α}
  {old mid new : Finset α} {reported reported' : List α}

/-- Each node seen follows a node inside that is open, or whose sure successors are seen. -/
def Traced (next : α → List α) (sure inside : α → Prop) (opened : List α) (seen : Finset α) :
    Prop :=
  ∀ x ∈ seen, ∃ w, inside w ∧ x ∈ next w ∧ (w ∈ opened ∨ ∀ y ∈ next w, sure y → y ∈ seen)

/-- The node is seen, or it follows an open one. -/
def Owed (next : α → List α) (opened : List α) (seen : Finset α) (x : α) : Prop :=
  x ∈ seen ∨ ∃ w ∈ opened, x ∈ next w

/-- What a walk does to the nodes seen, and which of the new ones it reports. -/
structure Walked (next : α → List α) (sure inside found : α → Prop) (opened starts : List α)
    (old new : Finset α) (reported : List α) : Prop where
  grows : old ⊆ new
  sound : ∀ x ∈ new, x ∉ old → Reach next starts x
  reports : ∀ x, x ∈ reported ↔ x ∈ new ∧ x ∉ old ∧ found x
  nodup : reported.Nodup
  covers : ∀ x ∈ starts, sure x → Owed next opened new x
  closed : ∀ x ∈ new, x ∉ old → x ∉ opened → ∀ y ∈ next x, sure y → Owed next opened new y
  traced : Traced next sure inside opened old → Traced next sure inside opened new

omit [DecidableEq α] in
theorem Traced.open (h : Traced next sure inside opened old) (v : α) :
    Traced next sure inside (v :: opened) old := by
  intro x hx
  obtain ⟨w, hw, hlink, hcase⟩ := h x hx
  exact ⟨w, hw, hlink, hcase.imp_left (List.mem_cons_of_mem v)⟩

omit [DecidableEq α] in
/-- A node is left when all its successors are seen. -/
theorem Traced.leave {v : α} (h : Traced next sure inside (v :: opened) old)
    (hv : ∀ y ∈ next v, y ∈ old) : Traced next sure inside opened old := by
  intro x hx
  obtain ⟨w, hw, hlink, hcase⟩ := h x hx
  refine ⟨w, hw, hlink, ?_⟩
  rcases hcase with hopen | hall
  · rcases List.mem_cons.mp hopen with rfl | hopen
    · exact .inr (fun y hy _ => hv y hy)
    · exact .inl hopen
  · exact .inr hall

theorem Traced.insert {w : α} (h : Traced next sure inside opened old) (hin : inside w)
    (hw : w ∈ opened) (hx : x ∈ next w) : Traced next sure inside opened (insert x old) := by
  intro y hy
  rcases Finset.mem_insert.mp hy with rfl | hy
  · exact ⟨w, hin, hx, .inl hw⟩
  · obtain ⟨w', hin', hlink, hcase⟩ := h y hy
    refine ⟨w', hin', hlink, hcase.imp_right (fun hall z hz hsure => ?_)⟩
    exact Finset.mem_insert_of_mem (hall z hz hsure)

omit [DecidableEq α] in
/-- With a sure node left that follows none of the open ones, all that is seen follows nodes
inside that it does not follow. -/
theorem Traced.of_not_owed (h : Traced next sure inside opened old) {y : α} (hsure : sure y)
    (hy : ¬ Owed next opened old y) (hx : x ∈ old) : ∃ w, inside w ∧ x ∈ next w ∧ y ∉ next w := by
  obtain ⟨w, hin, hlink, hcase⟩ := h x hx
  refine ⟨w, hin, hlink, fun hyw => hy ?_⟩
  rcases hcase with hopen | hall
  · exact .inr ⟨w, hopen, hyw⟩
  · exact .inl (hall y hyw hsure)

omit [DecidableEq α] in
theorem Owed.mono (h : Owed next opened old x) (hsub : old ⊆ new) : Owed next opened new x :=
  h.imp_left (fun hx => hsub hx)

omit [DecidableEq α] in
/-- A walk that sees nothing new. -/
theorem Walked.stop (h : ∀ x ∈ starts, sure x → Owed next opened old x) :
    Walked next sure inside found opened starts old old [] where
  grows := Finset.Subset.refl _
  sound x hx hold := absurd hx hold
  reports x := by
    constructor
    · intro hx
      cases hx
    · rintro ⟨hx, hold, -⟩
      exact absurd hx hold
  nodup := List.nodup_nil
  covers := h
  closed _ hx hold := absurd hx hold
  traced h := h

omit [DecidableEq α] in
theorem Walked.append (h : Walked next sure inside found opened starts old mid reported)
    (h' : Walked next sure inside found opened starts' mid new reported') :
    Walked next sure inside found opened (starts ++ starts') old new
      (reported ++ reported') where
  grows := h.grows.trans h'.grows
  sound x hx hold := by
    by_cases hmid : x ∈ mid
    · exact (h.sound x hmid hold).mono_roots (fun _ => List.mem_append_left _)
    · exact (h'.sound x hx hmid).mono_roots (fun _ => List.mem_append_right _)
  reports x := by
    rw [List.mem_append, h.reports, h'.reports]
    constructor
    · rintro (⟨hmid, hold, hfound⟩ | ⟨hnew, hmid, hfound⟩)
      · exact ⟨h'.grows hmid, hold, hfound⟩
      · exact ⟨hnew, fun hold => hmid (h.grows hold), hfound⟩
    · rintro ⟨hnew, hold, hfound⟩
      by_cases hmid : x ∈ mid
      · exact .inl ⟨hmid, hold, hfound⟩
      · exact .inr ⟨hnew, hmid, hfound⟩
  nodup := by
    refine List.Nodup.append h.nodup h'.nodup (fun x hx hx' => ?_)
    exact ((h'.reports x).mp hx').2.1 ((h.reports x).mp hx).1
  covers x hx hsure := by
    rcases List.mem_append.mp hx with hx | hx
    · exact (h.covers x hx hsure).mono h'.grows
    · exact h'.covers x hx hsure
  closed x hx hold hopen y hy hsure := by
    by_cases hmid : x ∈ mid
    · exact (h.closed x hmid hold hopen y hy hsure).mono h'.grows
    · exact h'.closed x hx hmid hopen y hy hsure
  traced htraced := h'.traced (h.traced htraced)

/-- A node that is met first and not walked into, with no successors. It is reported if it is
found. -/
theorem Walked.meet {w : α} (hx : x ∉ old) (hin : inside w) (hw : w ∈ opened)
    (hlink : x ∈ next w) (hnone : next x = [])
    (hreported : ∀ y, y ∈ reported ↔ y = x ∧ found x) (hnodup : reported.Nodup) :
    Walked next sure inside found opened [x] old (insert x old) reported where
  grows := Finset.subset_insert _ _
  sound y hy hold := by
    rw [(Finset.mem_insert.mp hy).resolve_right hold]
    exact .root List.mem_cons_self
  reports y := by
    rw [hreported, Finset.mem_insert]
    constructor
    · rintro ⟨rfl, hfound⟩
      exact ⟨.inl rfl, hx, hfound⟩
    · rintro ⟨hy, hold, hfound⟩
      obtain rfl := hy.resolve_right hold
      exact ⟨rfl, hfound⟩
  nodup := hnodup
  covers y hy _ := by
    rw [List.mem_singleton.mp hy]
    exact .inl (Finset.mem_insert_self _ _)
  closed y hy hold _ z hz := by
    rw [(Finset.mem_insert.mp hy).resolve_right hold, hnone] at hz
    cases hz
  traced htraced := htraced.insert hin hw hlink

omit [DecidableEq α] in
/-- A node that was opened for the walk is left when all its successors are seen. -/
theorem Walked.leave {v : α}
    (h : Walked next sure inside found (v :: opened) (next v) old new reported)
    (hall : ∀ y ∈ next v, y ∈ new) :
    Walked next sure inside found opened (next v) old new reported where
  grows := h.grows
  sound := h.sound
  reports := h.reports
  nodup := h.nodup
  covers y hy _ := .inl (hall y hy)
  closed x hx hold hopen y hy hsure := by
    by_cases hxv : x = v
    · exact .inl (hall y (hxv ▸ hy))
    · refine (h.closed x hx hold (by simp [hxv, hopen]) y hy hsure).elim .inl ?_
      rintro ⟨w, hw, hlink⟩
      rcases List.mem_cons.mp hw with rfl | hw
      · exact .inl (hall y hlink)
      · exact .inr ⟨w, hw, hlink⟩
  traced htraced := (h.traced (htraced.open v)).leave hall

/-- A node that is not found is walked into. -/
theorem Walked.enter {w : α} (hin : inside w) (hw : w ∈ opened) (hlink : x ∈ next w)
    (hfound : ¬ found x)
    (h : Walked next sure inside found opened (next x) (insert x old) new reported) :
    Walked next sure inside found opened [x] old new reported where
  grows := (Finset.subset_insert _ _).trans h.grows
  sound y hy hold := by
    by_cases hyx : y = x
    · rw [hyx]
      exact .root List.mem_cons_self
    · exact (h.sound y hy (by simp [hyx, hold])).of_next
  reports y := by
    rw [h.reports, Finset.mem_insert, not_or]
    constructor
    · rintro ⟨hy, ⟨-, hold⟩, hfoundy⟩
      exact ⟨hy, hold, hfoundy⟩
    · rintro ⟨hy, hold, hfoundy⟩
      exact ⟨hy, ⟨fun hyx => hfound (hyx ▸ hfoundy), hold⟩, hfoundy⟩
  nodup := h.nodup
  covers y hy _ := by
    rw [List.mem_singleton.mp hy]
    exact .inl (h.grows (Finset.mem_insert_self _ _))
  closed y hy hold hopen z hz hsure := by
    by_cases hyx : y = x
    · exact h.covers z (hyx ▸ hz) hsure
    · exact h.closed y hy (by simp [hyx, hold]) hopen z hz hsure
  traced htraced := h.traced (htraced.insert hin hw hlink)

omit [DecidableEq α] in
/-- A walk stays within what is closed under successors. -/
theorem Walked.subset {all : Finset α}
    (h : Walked next sure inside found opened starts old new reported)
    (hclosed : ∀ a, ∀ b ∈ next a, b ∈ all) (hstarts : ∀ x ∈ starts, x ∈ all) (hold : old ⊆ all) :
    new ⊆ all := by
  intro x hx
  by_cases hxold : x ∈ old
  · exact hold hxold
  · exact Reach.rule hstarts (fun a b _ _ hb => hclosed a b hb) (h.sound x hx hxold)

omit [DecidableEq α] in
/-- **A walk is exact** on what is sure: from nothing seen, it reports what is reached and
found. -/
theorem Walked.exact (h : Walked next sure inside found [] starts ∅ new reported)
    (hsure : ∀ a, ∀ b ∈ next a, sure b → sure a) (hfound : found x → sure x) :
    x ∈ reported ↔ Reach next starts x ∧ found x := by
  have hseen : ∀ {y}, Owed next [] new y → y ∈ new := fun hy =>
    hy.resolve_right (fun ⟨_, hw, _⟩ => List.not_mem_nil hw)
  have hreached : Reach next starts x → sure x → x ∈ new :=
    Reach.rule (P := fun y => sure y → y ∈ new) (fun y hy hy' => hseen (h.covers y hy hy'))
      (fun a b _ ha hb hb' => hseen (h.closed a (ha (hsure a b hb hb')) (Finset.notMem_empty a)
        List.not_mem_nil b hb hb'))
  rw [h.reports]
  constructor
  · rintro ⟨hx, hold, hxfound⟩
    exact ⟨h.sound x hx hold, hxfound⟩
  · rintro ⟨hx, hxfound⟩
    exact ⟨hreached hx (hfound hxfound), Finset.notMem_empty x, hxfound⟩

end

end Ipfrs.Lib.Worklist
