/-
Ipfrs.Storage.PinningTheorems — what a recursive pin changes, and what takes it back.

A recursive pin changes each block it reaches once, and so does a recursive unpin. Between
the two a new pin has one reference and goes, and an old one gets back the reference it had,
unless the counter wraps or the root was pinned directly: then it stays recursive. A resolver
that fails ends the call with the root pinned already (`reversible_iff`).
-/
import Ipfrs.Lib.Worklist
import Ipfrs.Storage.Pinning
import Mathlib.Data.Set.Finite.Basic

namespace Ipfrs.Storage

open Ipfrs.Core Ipfrs.Lib Ipfrs.Lib.Worklist

/-! ## Counters -/

namespace PinStats

/-- One of the four counters, by the type that it counts; `none` for all. -/
def counter (stats : PinStats) : Option PinType → UInt64
  | none => stats.totalPins
  | some .direct => stats.directPins
  | some .recursive => stats.recursivePins
  | some .indirect => stats.indirectPins

theorem eq_of_counter {stats stats' : PinStats} (h : ∀ k, stats.counter k = stats'.counter k) :
    stats = stats' := by
  obtain ⟨a, b, c, d⟩ := stats
  obtain ⟨a', b', c', d'⟩ := stats'
  have h₀ : a = a' := h none
  have h₁ : b = b' := h (some .direct)
  have h₂ : c = c' := h (some .recursive)
  have h₃ : d = d' := h (some .indirect)
  rw [h₀, h₁, h₂, h₃]

/-- The counter `k` counts a pin of this type. -/
def counts (k : Option PinType) (pinType : PinType) : Bool := k = none ∨ k = some pinType

theorem counter_increment (stats : PinStats) (pinType : PinType) (k : Option PinType) :
    (stats.increment pinType).counter k = stats.counter k + if counts k pinType then 1 else 0 := by
  rcases k with _ | k
  · cases pinType <;> simp [increment, counter, counts]
  · cases pinType <;> cases k <;> simp [increment, counter, counts]

theorem counter_decrement (stats : PinStats) (pinType : PinType) (k : Option PinType) :
    (stats.decrement pinType).counter k = stats.counter k - if counts k pinType then 1 else 0 := by
  rcases k with _ | k
  · cases pinType <;> simp [decrement, counter, counts]
  · cases pinType <;> cases k <;> simp [decrement, counter, counts]

end PinStats

open PinStats (counts)

section

variable [CidCrate] [CidCrate.Lawful]

/-! ## Looking a pin up -/

theorem toBytes_injective : Function.Injective CidCrate.toBytes := by
  intro a b h
  have ha := CidCrate.Lawful.tryFrom_toBytes a
  rw [h, CidCrate.Lawful.tryFrom_toBytes b] at ha
  exact (Except.ok.inj ha).symm

namespace PinManager

variable {m : PinManager}

theorem getPinInfo_set (m : PinManager) (cid : Cid) (info : PinInfo) (c : Cid) :
    (m.set cid info).getPinInfo c = if c = cid then some info else m.getPinInfo c := by
  by_cases hc : c = cid
  · rw [hc, if_pos rfl]
    exact AList.lookup_insert _
  · rw [if_neg hc]
    exact AList.lookup_insert_ne (fun h => hc (toBytes_injective h))

theorem getPinInfo_erase (m : PinManager) (cid c : Cid) :
    (m.erase cid).getPinInfo c = if c = cid then none else m.getPinInfo c := by
  by_cases hc : c = cid
  · rw [hc, if_pos rfl]
    exact AList.lookup_erase _ _
  · rw [if_neg hc]
    exact AList.lookup_erase_ne (fun h => hc (toBytes_injective h))

omit [CidCrate.Lawful] in
theorem getPinInfo_count (m : PinManager) (f : PinStats → PinStats) (c : Cid) :
    (m.count f).getPinInfo c = m.getPinInfo c := rfl

/-! ## Pinning recursively -/

/-- What a recursive pin of `root` makes of the pin of a block. -/
def pinned (root cid : Cid) : Option PinInfo → PinInfo
  | some info =>
    { info with
      refCount := info.refCount + 1
      pinType :=
        if cid = root ∧ info.pinType = .direct then .recursive else info.pinType }
  | none =>
    if cid = root then PinInfo.new .recursive else (PinInfo.new .indirect).withParent root

/-- The block is new, and counted by `k`. -/
def gains (m : PinManager) (root : Cid) (k : Option PinType) (cid : Cid) : Bool :=
  (m.getPinInfo cid).isNone && counts k (if cid = root then .recursive else .indirect)

/-- These blocks are pinned, each once. The counters are told if the root's pin is not
upgraded. -/
structure Pinned (m : PinManager) (root : Cid) (seen : List Cid) (m' : PinManager) : Prop where
  nodup : seen.Nodup
  info : ∀ cid, m'.getPinInfo cid
    = if cid ∈ seen then some (pinned root cid (m.getPinInfo cid)) else m.getPinInfo cid
  stats : (∀ info, m.getPinInfo root = some info → info.pinType ≠ .direct) →
    ∀ k, m'.stats.counter k
      = m.stats.counter k + UInt64.ofNat (seen.countP (m.gains root k))

theorem Pinned.root (m : PinManager) (root : Cid) :
    Pinned m root [root] (m.pinWithType root .recursive none) := by
  refine ⟨List.nodup_singleton _, fun cid => ?_, fun hroot k => ?_⟩
  · rw [pinWithType]
    cases hinfo : m.getPinInfo root with
    | none =>
      dsimp only
      rw [getPinInfo_count, getPinInfo_set]
      by_cases hcid : cid = root
      · simp [hcid, hinfo, pinned]
      · simp [hcid]
    | some info =>
      dsimp only
      by_cases hcid : cid = root
      · split
        · next h => simp [getPinInfo_count, getPinInfo_set, hcid, hinfo, pinned, h.2]
        · next h => simp_all [getPinInfo_set, pinned]
      · split
        · simp [getPinInfo_count, getPinInfo_set, hcid]
        · simp [getPinInfo_set, hcid]
  · rw [pinWithType]
    cases hinfo : m.getPinInfo root with
    | none =>
      show (m.stats.increment .recursive).counter k = _
      rw [PinStats.counter_increment, List.countP_singleton]
      simp only [gains, hinfo, Option.isNone_none, Bool.true_and, if_true]
      split <;> rfl
    | some info =>
      have hno : ¬ (PinType.recursive = PinType.recursive ∧ info.pinType = .direct) :=
        fun h => hroot info hinfo h.2
      dsimp only
      rw [if_neg hno]
      show m.stats.counter k = _
      simp [gains, hinfo]

variable {m' : PinManager} {linkResolver : LinkResolver}

/-- One more block. -/
theorem Pinned.link {root : Cid} {seen : List Cid} (h : Pinned m root seen m')
    (hroot : root ∈ seen) {cid : Cid} (hcid : cid ∉ seen) :
    Pinned m root (cid :: seen) (m'.pinIndirect cid root) := by
  have hne : cid ≠ root := fun heq => hcid (heq ▸ hroot)
  have hold : m'.getPinInfo cid = m.getPinInfo cid := by
    rw [h.info, if_neg hcid]
  refine ⟨List.nodup_cons.mpr ⟨hcid, h.nodup⟩, fun c => ?_, fun hdirect k => ?_⟩
  · have hset : (m'.pinIndirect cid root).getPinInfo c
        = if c = cid then some (pinned root cid (m.getPinInfo cid)) else m'.getPinInfo c := by
      rw [pinIndirect, hold]
      cases m.getPinInfo cid with
      | none =>
        dsimp only
        rw [getPinInfo_count, getPinInfo_set, pinned, if_neg hne]
      | some info =>
        have hpinned : pinned root cid (some info)
            = { info with refCount := info.refCount + 1 } := by simp [pinned, hne]
        dsimp only
        rw [getPinInfo_set, hpinned]
    rw [hset]
    by_cases hc : c = cid
    · simp [hc]
    · simp [hc, h.info]
  · rw [List.countP_cons, pinIndirect, hold]
    have hbefore := h.stats hdirect k
    cases hinfo : m.getPinInfo cid with
    | none =>
      show (m'.stats.increment .indirect).counter k = _
      rw [PinStats.counter_increment, hbefore]
      simp only [gains, hinfo, Option.isNone_none, Bool.true_and, if_neg hne,
        UInt64.ofNat_add, UInt64.add_assoc]
      split <;> rfl
    | some info =>
      show m'.stats.counter k = _
      simp [gains, hinfo, hbefore]

/-- The links of a block, none where the resolver fails. -/
def resolved (linkResolver : LinkResolver) (cid : Cid) : List Cid :=
  match linkResolver cid with
  | .ok links => links
  | .error _ => []

/-- What the loop of `pin_recursive` keeps. -/
structure Pinning (m : PinManager) (linkResolver : LinkResolver) (root : Cid) (walk : PinWalk) :
    Prop where
  pinned : Pinned m root walk.seen walk.manager
  marks : Marks (resolved linkResolver) [root] walk.seen walk.toProcess
  resolves : ∀ x ∈ walk.seen, x ∈ walk.toProcess ∨ ∃ links, linkResolver x = .ok links

/-- The links of one block are pinned and pushed as by `markNew`. -/
theorem foldl_pinLink {root : Cid} (links : List Cid) : ∀ (walk : PinWalk),
    Pinned m root walk.seen walk.manager → root ∈ walk.seen →
      (links.foldl (pinLink root) walk).seen = (markNew links (walk.seen, walk.toProcess)).1
        ∧ (links.foldl (pinLink root) walk).toProcess
          = (markNew links (walk.seen, walk.toProcess)).2
        ∧ Pinned m root (links.foldl (pinLink root) walk).seen
          (links.foldl (pinLink root) walk).manager := by
  induction links with
  | nil => exact fun walk h _ => ⟨rfl, rfl, h⟩
  | cons link links ih =>
    intro walk h hroot
    rw [List.foldl_cons, pinLink, markNew]
    by_cases hlink : link ∈ walk.seen
    · rw [if_pos hlink, if_pos hlink]
      exact ih walk h hroot
    · rw [if_neg hlink, if_neg hlink]
      exact ih _ (h.link hroot hlink) (List.mem_cons_of_mem _ hroot)

/-- The blocks of the stack and the reached ones that are not pinned yet. -/
def toPin (support : List Cid) (walk : PinWalk) : Nat :=
  walk.toProcess.length + unmarked support walk.seen

/-- One round: on with the walk, closer to its end, or a result. -/
theorem Pinning.step {root : Cid} {walk : PinWalk} (h : Pinning m linkResolver root walk) :
    (∃ walk', pinBody linkResolver root walk = .inl walk' ∧ Pinning m linkResolver root walk'
        ∧ ∀ support, (∀ x, Reach (resolved linkResolver) [root] x → x ∈ support) →
          toPin support walk' < toPin support walk) ∨ (walk.toProcess = []
        ∧ pinBody linkResolver root walk = .inr (.ok walk.pinnedCount, walk.manager))
      ∨ ∃ x e, Reach (resolved linkResolver) [root] x ∧ linkResolver x = .error e
        ∧ pinBody linkResolver root walk = .inr (.error e, walk.manager) := by
  obtain ⟨toProcess, seen, pinnedCount, manager⟩ := walk
  cases toProcess with
  | nil => exact .inr (.inl ⟨rfl, rfl⟩)
  | cons x rest =>
    have hreach := h.marks.sound x (h.marks.pushed x List.mem_cons_self)
    cases hlinks : linkResolver x with
    | error e =>
      refine .inr (.inr ⟨x, e, hreach, hlinks, ?_⟩)
      rw [pinBody]
      dsimp only
      rw [hlinks]
    | ok links =>
      have hresolved : resolved linkResolver x = links := by rw [resolved, hlinks]
      have hvisit := h.marks.visit
      rw [hresolved] at hvisit
      obtain ⟨hseen, hstack, hpinned⟩ := foldl_pinLink links
        { toProcess := rest, seen, pinnedCount, manager } h.pinned
        (h.marks.rooted root List.mem_cons_self)
      refine .inl ⟨_, by rw [pinBody]; dsimp only; rw [hlinks], ⟨hpinned, ?_, ?_⟩, ?_⟩
      · rw [hseen, hstack]
        exact hvisit
      · intro y hy
        rw [hseen, mem_markNew_marked] at hy
        rw [hstack, mem_markNew_stack]
        by_cases hold : y ∈ seen
        · rcases h.resolves y hold with hin | hok
          · rcases List.mem_cons.mp hin with rfl | hrest
            · exact .inr ⟨links, hlinks⟩
            · exact .inl (.inl hrest)
          · exact .inr hok
        · exact .inl (.inr ⟨hy.resolve_left hold, hold⟩)
      · intro support hsupport
        have hle := markNew_length_le
          (fun y hy => hsupport y (hreach.step (hresolved ▸ hy))) (seen, rest)
        rw [toPin, toPin, hseen, hstack]
        simp only [List.length_cons] at hle ⊢
        omega

theorem Pinning.init (m : PinManager) (linkResolver : LinkResolver) (root : Cid) :
    Pinning m linkResolver root
      { toProcess := [root], seen := [root], pinnedCount := 1
        manager := m.pinWithType root .recursive none } where
  pinned := Pinned.root m root
  marks := Marks.init (fun _ => Iff.rfl) (fun _ => Iff.rfl)
  resolves _ hx := .inl hx

/-- With finitely many blocks reached the call returns. -/
theorem pinRecursive_returns (m : PinManager) {root : Cid}
    (hfinite : {x | Reach (resolved linkResolver) [root] x}.Finite) :
    ∃ rounds r, pinRecursive rounds linkResolver m root = some r := by
  have hsupport : ∀ x, Reach (resolved linkResolver) [root] x → x ∈ hfinite.toFinset.toList := by
    intro x hx
    simpa using hx
  have hstep : ∀ walk walk', Pinning m linkResolver root walk →
      pinBody linkResolver root walk = .inl walk' → Pinning m linkResolver root walk'
        ∧ toPin hfinite.toFinset.toList walk' < toPin hfinite.toFinset.toList walk := by
    intro walk walk' hwalk hb
    rcases hwalk.step with ⟨walk'', hgo, hnext, hlt⟩ | ⟨-, hleave⟩ | ⟨-, e, -, -, hleave⟩
    · rw [hb] at hgo
      cases hgo
      exact ⟨hnext, hlt _ hsupport⟩
    · rw [hb] at hleave
      cases hleave
    · rw [hb] at hleave
      cases hleave
  obtain ⟨r, hr⟩ := Loop.run_of_measure _ _ hstep _ (Pinning.init m linkResolver root)
    (Nat.le_refl _)
  exact ⟨_, r, hr⟩

/-- What a call that returns has pinned: all that is reached, or with an error what came
before it, the root among it. -/
theorem pinRecursive_spec {rounds : Nat} {root : Cid} {result : Except Error Nat}
    (h : pinRecursive rounds linkResolver m root = some (result, m')) :
    ∃ seen, root ∈ seen ∧ Pinned m root seen m' ∧
      match result with
      | .ok _ => ∀ x, (x ∈ seen ↔ Reach (resolved linkResolver) [root] x)
          ∧ (x ∈ seen → ∃ links, linkResolver x = .ok links)
      | .error _ => ∃ x e, Reach (resolved linkResolver) [root] x ∧ linkResolver x = .error e := by
  have hstep : ∀ walk walk', Pinning m linkResolver root walk →
      pinBody linkResolver root walk = .inl walk' → Pinning m linkResolver root walk' := by
    intro walk walk' hwalk hb
    rcases hwalk.step with ⟨walk'', hgo, hnext, -⟩ | ⟨-, hleave⟩ | ⟨-, e, -, -, hleave⟩
    · rw [hb] at hgo
      cases hgo
      exact hnext
    · rw [hb] at hleave
      cases hleave
    · rw [hb] at hleave
      cases hleave
  obtain ⟨walk, hwalk, hb⟩ := Loop.run_inv hstep (Pinning.init m linkResolver root) h
  refine ⟨walk.seen, hwalk.marks.rooted root List.mem_cons_self, ?_⟩
  rcases hwalk.step with ⟨walk', hgo, -⟩ | ⟨hempty, hleave⟩ | ⟨x, e, hreach, herror, hleave⟩
  · rw [hb] at hgo
    cases hgo
  · rw [hb] at hleave
    cases hleave
    have hmarks := hwalk.marks
    rw [hempty] at hmarks
    refine ⟨hwalk.pinned, fun x => ⟨hmarks.done, fun hx => ?_⟩⟩
    refine (hwalk.resolves x hx).resolve_left ?_
    rw [hempty]
    exact List.not_mem_nil
  · rw [hb] at hleave
    cases hleave
    exact ⟨hwalk.pinned, x, e, hreach, herror⟩

/-! ## Unpinning recursively -/

/-- What an unpin makes of the pin of a block. -/
def unpinned : Option PinInfo → Option PinInfo
  | some info =>
    if info.refCount ≤ 1 then none else some { info with refCount := info.refCount - 1 }
  | none => none

/-- The pin goes with its last reference, and `k` counts it. -/
def drops (m : PinManager) (k : Option PinType) (cid : Cid) : Bool :=
  (m.getPinInfo cid).any (fun info => decide (info.refCount ≤ 1) && counts k info.pinType)

/-- These blocks are unpinned, each once. -/
structure Unpinned (m : PinManager) (seen : List Cid) (m' : PinManager) : Prop where
  nodup : seen.Nodup
  info : ∀ cid, m'.getPinInfo cid
    = if cid ∈ seen then unpinned (m.getPinInfo cid) else m.getPinInfo cid
  stats : ∀ k, m'.stats.counter k + UInt64.ofNat (seen.countP (m.drops k)) = m.stats.counter k

theorem Unpinned.unpin {seen : List Cid} (h : Unpinned m seen m') {cid : Cid} (hcid : cid ∉ seen) :
    Unpinned m (cid :: seen) (m'.unpin cid).2 := by
  have hold : m'.getPinInfo cid = m.getPinInfo cid := by
    rw [h.info, if_neg hcid]
  refine ⟨List.nodup_cons.mpr ⟨hcid, h.nodup⟩, fun c => ?_, fun k => ?_⟩
  · have hset : (m'.unpin cid).2.getPinInfo c
        = if c = cid then unpinned (m.getPinInfo cid) else m'.getPinInfo c := by
      rw [PinManager.unpin, hold]
      cases hinfo : m.getPinInfo cid with
      | none =>
        by_cases hc : c = cid
        · simp [hc, hold, hinfo, unpinned]
        · simp [hc]
      | some info =>
        dsimp only [unpinned]
        split
        · exact getPinInfo_erase m' cid c
        · exact getPinInfo_set m' cid _ c
    rw [hset]
    by_cases hc : c = cid
    · simp [hc]
    · simp [hc, h.info]
  · have hbefore := h.stats k
    rw [List.countP_cons, PinManager.unpin, hold]
    cases hinfo : m.getPinInfo cid with
    | none => simpa [drops, hinfo] using hbefore
    | some info =>
      dsimp only
      by_cases hlast : info.refCount ≤ 1
      · rw [if_pos hlast]
        show (m'.stats.decrement info.pinType).counter k + _ = _
        rw [PinStats.counter_decrement, ← hbefore]
        by_cases hk : counts k info.pinType = true
        · have hdrops : m.drops k cid = true := by simp [drops, hinfo, hlast, hk]
          rw [if_pos hk, if_pos hdrops, UInt64.ofNat_add, UInt64.add_comm (UInt64.ofNat _),
            ← UInt64.add_assoc]
          congr 1
          exact UInt64.sub_add_cancel _ _
        · simp [drops, hinfo, hlast, hk]
      · rw [if_neg hlast]
        show m'.stats.counter k + _ = _
        simpa [drops, hinfo, hlast] using hbefore

/-- What the loop of `unpin_recursive` keeps. -/
structure Unpinning (m : PinManager) (linkResolver : LinkResolver) (root : Cid)
    (walk : UnpinWalk) : Prop where
  unpinned : Unpinned m walk.seen walk.manager
  search : Worklist.Inv (resolved linkResolver) [root] walk.seen walk.toProcess

theorem Unpinning.step {root : Cid} {walk : UnpinWalk} (h : Unpinning m linkResolver root walk) :
    (∃ walk', unpinBody linkResolver walk = .inl walk' ∧ Unpinning m linkResolver root walk'
        ∧ ∀ support, (∀ x, Reach (resolved linkResolver) [root] x → x ∈ support) →
          pending (resolved linkResolver) support walk'.seen walk'.toProcess
            < pending (resolved linkResolver) support walk.seen walk.toProcess)
      ∨ (walk.toProcess = []
        ∧ unpinBody linkResolver walk = .inr (walk.unpinnedCount, walk.manager)) := by
  obtain ⟨toProcess, seen, unpinnedCount, manager⟩ := walk
  obtain ⟨hunpinned, hsearch⟩ := h
  cases toProcess with
  | nil => exact .inr ⟨rfl, rfl⟩
  | cons x rest =>
    by_cases hx : x ∈ seen
    · refine .inl ⟨{ toProcess := rest, seen, unpinnedCount, manager }, ?_,
        ⟨hunpinned, hsearch.skip hx⟩, fun support _ => pending_skip support⟩
      rw [unpinBody]
      dsimp only
      rw [if_pos hx]
    · have hreach := hsearch.sound x (.inr List.mem_cons_self)
      let walk' : UnpinWalk :=
        { toProcess :=
            match linkResolver x with
            | .ok links => links.reverse ++ rest
            | .error _ => rest
          seen := x :: seen
          unpinnedCount := if (manager.unpin x).1 then unpinnedCount + 1 else unpinnedCount
          manager := (manager.unpin x).2 }
      have hfrontier : (∀ y, y ∈ walk'.toProcess ↔ y ∈ resolved linkResolver x ∨ y ∈ rest)
          ∧ walk'.toProcess.length ≤ (resolved linkResolver x).length + rest.length := by
        simp only [walk', resolved]
        cases linkResolver x with
        | ok links => simp
        | error e => simp
      refine .inl ⟨walk', ?_, ⟨hunpinned.unpin hx, hsearch.visit hfrontier.1⟩,
        fun support hsupport => pending_visit hx (fun hno => absurd (hsupport x hreach) hno)
          hfrontier.2⟩
      rw [unpinBody]
      exact if_neg hx

omit [CidCrate.Lawful] in
theorem Unpinning.init (m : PinManager) (linkResolver : LinkResolver) (root : Cid) :
    Unpinning m linkResolver root
      { toProcess := [root], seen := [], unpinnedCount := 0, manager := m } where
  unpinned := ⟨List.nodup_nil, fun _ => rfl, fun _ => by simp⟩
  search := Worklist.Inv.init (fun _ => Iff.rfl)

theorem unpinRecursive_returns (m : PinManager) {root : Cid}
    (hfinite : {x | Reach (resolved linkResolver) [root] x}.Finite) :
    ∃ rounds r, unpinRecursive rounds linkResolver m root = some r := by
  have hsupport : ∀ x, Reach (resolved linkResolver) [root] x → x ∈ hfinite.toFinset.toList := by
    intro x hx
    simpa using hx
  have hstep : ∀ walk walk', Unpinning m linkResolver root walk →
      unpinBody linkResolver walk = .inl walk' → Unpinning m linkResolver root walk'
        ∧ pending (resolved linkResolver) hfinite.toFinset.toList walk'.seen walk'.toProcess
          < pending (resolved linkResolver) hfinite.toFinset.toList walk.seen walk.toProcess := by
    intro walk walk' hwalk hb
    rcases hwalk.step with ⟨walk'', hgo, hnext, hlt⟩ | ⟨-, hleave⟩
    · rw [hb] at hgo
      cases hgo
      exact ⟨hnext, hlt _ hsupport⟩
    · rw [hb] at hleave
      cases hleave
  obtain ⟨r, hr⟩ := Loop.run_of_measure _
    (fun walk : UnpinWalk => pending (resolved linkResolver) hfinite.toFinset.toList walk.seen
      walk.toProcess) hstep _ (Unpinning.init m linkResolver root) (Nat.le_refl _)
  exact ⟨_, r, hr⟩

/-- A call that returns has unpinned what is reached. -/
theorem unpinRecursive_spec {rounds : Nat} {root : Cid} {n : Nat}
    (h : unpinRecursive rounds linkResolver m root = some (n, m')) :
    ∃ seen, Unpinned m seen m' ∧ ∀ x, x ∈ seen ↔ Reach (resolved linkResolver) [root] x := by
  have hstep : ∀ walk walk', Unpinning m linkResolver root walk →
      unpinBody linkResolver walk = .inl walk' → Unpinning m linkResolver root walk' := by
    intro walk walk' hwalk hb
    rcases hwalk.step with ⟨walk'', hgo, hnext, -⟩ | ⟨-, hleave⟩
    · rw [hb] at hgo
      cases hgo
      exact hnext
    · rw [hb] at hleave
      cases hleave
  obtain ⟨walk, hwalk, hb⟩ := Loop.run_inv hstep (Unpinning.init m linkResolver root) h
  rcases hwalk.step with ⟨walk', hgo, -⟩ | ⟨hempty, hleave⟩
  · rw [hb] at hgo
    cases hgo
  · rw [hb] at hleave
    cases hleave
    have hsearch := hwalk.search
    rw [hempty] at hsearch
    exact ⟨walk.seen, hwalk.unpinned, fun x => hsearch.done⟩

/-! ## There and back -/

/-- Type and references of a pin. -/
def held (m : PinManager) (cid : Cid) : Option (PinType × UInt32) :=
  (m.getPinInfo cid).map (fun info => (info.pinType, info.refCount))

/-- A recursive pin that succeeds is taken back by a recursive unpin, and one that fails has
changed nothing. -/
structure Reversible (m : PinManager) (linkResolver : LinkResolver) (root : Cid) : Prop where
  returns : ∃ rounds r, pinRecursive rounds linkResolver m root = some r
  undone : ∀ rounds n m', pinRecursive rounds linkResolver m root = some (.ok n, m') →
    (∃ rounds' r, unpinRecursive rounds' linkResolver m' root = some r)
      ∧ ∀ rounds' n' m'', unpinRecursive rounds' linkResolver m' root = some (n', m'') →
        (∀ cid, m''.held cid = m.held cid) ∧ m''.stats = m.stats
  untouched : ∀ rounds e m', pinRecursive rounds linkResolver m root = some (.error e, m') →
    (∀ cid, m'.getPinInfo cid = m.getPinInfo cid) ∧ m'.stats = m.stats

/-- One more reference can be counted and taken back, and the pin keeps its type. -/
def Restorable (root cid : Cid) (info : PinInfo) : Prop :=
  0 < info.refCount ∧ info.refCount < 4294967295 ∧ (cid = root → info.pinType ≠ .direct)

omit [CidCrate] [CidCrate.Lawful] in
theorem refCount_iff (n : UInt32) : ¬ n + 1 ≤ 1 ↔ 0 < n ∧ n < 4294967295 := by
  have hlt := n.toNat_lt
  simp only [UInt32.le_iff_toNat_le, UInt32.lt_iff_toNat_lt, UInt32.toNat_add]
  simp
  omega

omit [CidCrate.Lawful] in
/-- There and back is where it was, exactly if the pin is restorable. -/
theorem unpinned_pinned_iff (root cid : Cid) (info? : Option PinInfo) :
    (unpinned (some (pinned root cid info?))).map (fun info => (info.pinType, info.refCount))
        = info?.map (fun info => (info.pinType, info.refCount))
      ↔ ∀ info, info? = some info → Restorable root cid info := by
  cases info? with
  | none =>
    refine iff_of_true ?_ (fun info h => (by cases h))
    rw [pinned]
    split <;> rfl
  | some info =>
    have hone : (∀ i, some info = some i → Restorable root cid i) ↔ Restorable root cid info :=
      ⟨fun h => h info rfl, fun h i hi => Option.some.inj hi ▸ h⟩
    rw [hone, Restorable, ← and_assoc, ← refCount_iff, pinned, unpinned]
    by_cases hlast : info.refCount + 1 ≤ 1
    · simp [hlast]
    · rw [if_neg hlast]
      simp only [Option.map_some, Option.some.injEq, Prod.mk.injEq, hlast, not_false_eq_true,
        true_and, UInt32.add_sub_cancel, and_true]
      by_cases hup : cid = root ∧ info.pinType = .direct
      · rw [if_pos hup, hup.2]
        simp [hup.1]
      · rw [if_neg hup]
        exact iff_of_true rfl (fun hcid hdirect => hup ⟨hcid, hdirect⟩)

omit [CidCrate.Lawful] in
/-- The counters of new pins are those of the pins that go. -/
theorem drops_pinned {root : Cid} {seen : List Cid} (h : Pinned m root seen m') {cid : Cid}
    (hcid : cid ∈ seen)
    (hrestorable : ∀ info, m.getPinInfo cid = some info → Restorable root cid info)
    (k : Option PinType) : m'.drops k cid = m.gains root k cid := by
  rw [drops, h.info, if_pos hcid, gains]
  cases hinfo : m.getPinInfo cid with
  | none =>
    rw [pinned]
    split
    · simp [PinInfo.new]
    · simp [PinInfo.new, PinInfo.withParent]
  | some info =>
    have hlast := (refCount_iff info.refCount).mpr
      ⟨(hrestorable info hinfo).1, (hrestorable info hinfo).2.1⟩
    simp [pinned, hlast]

/-- **Recursive pins**: a call is reversible, exactly if every block that the root reaches is
resolved and its pin, if it has one, is restorable. -/
theorem reversible_iff (m : PinManager) {linkResolver : LinkResolver} {root : Cid}
    (hfinite : {x | Reach (resolved linkResolver) [root] x}.Finite) :
    Reversible m linkResolver root ↔
      ∀ x, Reach (resolved linkResolver) [root] x → (∃ links, linkResolver x = .ok links)
        ∧ ∀ info, m.getPinInfo x = some info → Restorable root x info := by
  have hback : ∀ {seen : List Cid} {m' : PinManager}, Pinned m root seen m' →
      (∀ x, x ∈ seen ↔ Reach (resolved linkResolver) [root] x) →
      ∀ {rounds n m''}, unpinRecursive rounds linkResolver m' root = some (n, m'') →
      ∃ seen', Unpinned m' seen' m'' ∧ seen.Perm seen' ∧
        ∀ x, Reach (resolved linkResolver) [root] x →
          m''.getPinInfo x = unpinned (some (pinned root x (m.getPinInfo x))) := by
    intro seen m' hpinned hseen rounds n m'' hun
    obtain ⟨seen', hunpinned, hseen'⟩ := unpinRecursive_spec hun
    refine ⟨seen', hunpinned, (List.perm_ext_iff_of_nodup hpinned.nodup hunpinned.nodup).mpr
      (fun x => (hseen x).trans (hseen' x).symm), fun x hx => ?_⟩
    rw [hunpinned.info, if_pos ((hseen' x).mpr hx), hpinned.info, if_pos ((hseen x).mpr hx)]
  constructor
  · intro h
    obtain ⟨rounds, ⟨result, m'⟩, hrun⟩ := h.returns
    obtain ⟨seen, hroot, hpinned, hcase⟩ := pinRecursive_spec hrun
    cases result with
    | error e =>
      -- the root has one more reference, or a new pin
      have hsame := (h.untouched rounds e m' hrun).1 root
      rw [hpinned.info, if_pos hroot] at hsame
      cases hinfo : m.getPinInfo root with
      | none =>
        rw [hinfo] at hsame
        cases hsame
      | some info =>
        rw [hinfo] at hsame
        have hcount := congrArg PinInfo.refCount (Option.some.inj hsame)
        simp [pinned] at hcount
    | ok n =>
      obtain ⟨⟨rounds', ⟨n', m''⟩, hun⟩, hundone⟩ := h.undone rounds n m' hrun
      obtain ⟨hheld, -⟩ := hundone rounds' n' m'' hun
      obtain ⟨-, -, -, hinfo⟩ := hback hpinned (fun x => (hcase x).1) hun
      intro x hx
      refine ⟨(hcase x).2 ((hcase x).1.mpr hx), (unpinned_pinned_iff root x _).mp ?_⟩
      rw [← hinfo x hx]
      exact hheld x
  · intro h
    refine ⟨pinRecursive_returns m hfinite, fun rounds n m' hrun => ?_, fun rounds e m' hrun => ?_⟩
    · obtain ⟨seen, hroot, hpinned, hcase⟩ := pinRecursive_spec hrun
      refine ⟨unpinRecursive_returns m' hfinite, fun rounds' n' m'' hun => ?_⟩
      obtain ⟨seen', hunpinned, hperm, hinfo⟩ := hback hpinned (fun x => (hcase x).1) hun
      constructor
      · intro cid
        by_cases hcid : Reach (resolved linkResolver) [root] cid
        · rw [held, hinfo cid hcid]
          exact (unpinned_pinned_iff root cid _).mpr (h cid hcid).2
        · have hout : cid ∉ seen := fun hmem => hcid ((hcase cid).1.mp hmem)
          rw [held, hunpinned.info, if_neg (fun hmem => hout (hperm.mem_iff.mpr hmem)),
            hpinned.info, if_neg hout, held]
      · refine PinStats.eq_of_counter (fun k => ?_)
        have hdirect : ∀ info, m.getPinInfo root = some info → info.pinType ≠ .direct :=
          fun info hroot' => ((h root (.root List.mem_cons_self)).2 info hroot').2.2 rfl
        have hcounts : seen'.countP (m'.drops k) = seen.countP (m.gains root k) := by
          rw [← hperm.countP_eq]
          refine List.countP_congr (fun x hx => ?_)
          rw [drops_pinned hpinned hx (h x ((hcase x).1.mp hx)).2]
        have hstats := hunpinned.stats k
        rw [hcounts, hpinned.stats hdirect k] at hstats
        exact (UInt64.add_left_inj _).mp hstats
    · obtain ⟨-, -, -, x, e', hreach, herror⟩ := pinRecursive_spec hrun
      obtain ⟨links, hlinks⟩ := (h x hreach).1
      rw [hlinks] at herror
      cases herror

end PinManager

end

section

open scoped CidFormat
open PinManager

private def diamondCid (n : UInt8) : Cid :=
  Cid.newV1 codecRaw { code := 0, digest := [n], size_le := Nat.le_of_ble_eq_true rfl }

/-- The root links to two blocks, and both of them to one. -/
private def diamond : LinkResolver := fun cid =>
  if cid = diamondCid 1 then .ok [diamondCid 2, diamondCid 3]
  else if cid = diamondCid 2 ∨ cid = diamondCid 3 then .ok [diamondCid 4]
  else .ok []

/-- A block that is reached in two ways and was pinned before. -/
theorem reversible_iff_diamond :
    (PinManager.new.pin (diamondCid 4)).Reversible diamond (diamondCid 1) := by
  have hreach : ∀ x, Reach (resolved diamond) [diamondCid 1] x →
      x ∈ [diamondCid 1, diamondCid 2, diamondCid 3, diamondCid 4] := by
    intro x hx
    refine Reach.rule (fun r hr => ?_) (fun a b ha _ hb => ?_) hx
    · rw [List.mem_singleton.mp hr]
      exact List.mem_cons_self
    · unfold resolved diamond at hb
      split_ifs at hb
      · exact List.mem_cons_of_mem _ (List.mem_append_left [diamondCid 4] hb)
      · exact List.mem_append_right [diamondCid 1, diamondCid 2, diamondCid 3] hb
      · cases hb
  refine (reversible_iff _ ((List.finite_toSet _).subset hreach)).mpr (fun x hx => ?_)
  have hx := hreach x hx
  simp only [List.mem_cons, List.not_mem_nil, or_false] at hx
  rcases hx with rfl | rfl | rfl | rfl
  · exact ⟨⟨_, rfl⟩, fun info hinfo => by cases hinfo⟩
  · exact ⟨⟨_, rfl⟩, fun info hinfo => by cases hinfo⟩
  · exact ⟨⟨_, rfl⟩, fun info hinfo => by cases hinfo⟩
  · refine ⟨⟨_, rfl⟩, fun info hinfo => ?_⟩
    cases hinfo
    exact ⟨by decide, by decide, fun h => absurd h (by decide)⟩

/-- The root stays pinned although the call has failed. -/
theorem not_reversible :
    ¬ PinManager.new.Reversible (fun _ => .error (.notFound "block")) (cidOf codecRaw [1]) := by
  intro h
  obtain ⟨hsame, -⟩ := h.untouched 1 (.notFound "block") _ rfl
  have hroot := (Pinned.root PinManager.new (cidOf codecRaw [1])).info (cidOf codecRaw [1])
  rw [if_pos List.mem_cons_self] at hroot
  exact absurd (hroot.symm.trans (hsame _)) (Option.some_ne_none _)

end

end Ipfrs.Storage
