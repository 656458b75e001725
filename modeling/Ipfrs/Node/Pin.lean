/-
Ipfrs.Node.Pin — the pin manager with its indirect pins (`pin.rs`).

Beside the pins there are the set of blocks that recursive pins refer to and, for each root,
the blocks recorded for it. A failed call of `load` leaves the table as it is then. The time of
a pin is not modelled: no method reads it. Reading the file, the `oxicode` decoder and
`Cid::from_str` are parameters.
-/
import Ipfrs.Lib.EntryMap
import Ipfrs.Node.Gc
import Ipfrs.Lib.KeyedWrites

namespace Ipfrs.Node

open Ipfrs.Core Ipfrs.Lib

/-- The three tables of a manager: `pins`, `indirect_pins` and `recursive_deps`. -/
structure PinTables extends PinManager where
  indirectPins : Finset Cid
  recursiveDeps : EntryMap Cid (Finset Cid)

namespace PinTables

def new : PinTables where
  toPinManager := PinManager.new
  indirectPins := ∅
  recursiveDeps := .empty

def pin (t : PinTables) (cid : Cid) (pinType : PinType) (name : Option String) : PinTables :=
  { t with toPinManager := t.toPinManager.pin cid pinType name }

def addIndirect (t : PinTables) (rootCid indirectCid : Cid) : PinTables :=
  { t with
    indirectPins := insert indirectCid t.indirectPins
    recursiveDeps := t.recursiveDeps.alter rootCid (fun deps => insert indirectCid (deps.getD ∅)) }

def addIndirectMany (t : PinTables) (rootCid : Cid) (indirectCids : List Cid) : PinTables :=
  { t with
    indirectPins := indirectCids.foldl (fun s cid => insert cid s) t.indirectPins
    recursiveDeps := t.recursiveDeps.alter rootCid (fun deps =>
      indirectCids.foldl (fun s cid => insert cid s) (deps.getD ∅)) }

/-- The dependencies of a root that is no pin any more: those that no other root has are no
indirect pins any more. -/
def dropDeps (t : PinTables) (cid : Cid) : PinTables :=
  match t.recursiveDeps.get? cid with
  | none => t
  | some indirectCids =>
    let deps := t.recursiveDeps.erase cid
    { t with
      indirectPins := t.indirectPins \
        indirectCids.filter (fun c => ¬ deps.values.any (fun set => c ∈ set) = true)
      recursiveDeps := deps }

def unpin [CidStream] (t : PinTables) (cid : Cid) : Except Error PinTables :=
  match t.pins.find? (fun p => p.cid = cid) with
  | none => .error (.notFound ("Block not pinned: " ++ CidStream.display cid))
  | some info =>
    let t := { t with toPinManager := t.toPinManager.remove cid }
    .ok (if info.pinType = .recursive then t.dropDeps cid else t)

def isPinned (t : PinTables) (cid : Cid) : Bool :=
  t.pins.any (fun p => p.cid = cid) || decide (cid ∈ t.indirectPins)

def clear (_ : PinTables) : PinTables := new

end PinTables

/-! ## Loading -/

/-- `PinInfoSerde`. -/
structure PinInfoSerde where
  cidStr : String
  pinType : PinType
  name : Option String
  deriving DecidableEq

/-- What reads a pin list, with the crates' error texts. -/
class PinFormat where
  /-- `oxicode::serde::decode_owned_from_slice`. -/
  decode : List UInt8 → Except String (List PinInfoSerde)
  /-- `Cid::from_str`. -/
  fromStr : String → Except String Cid

variable [PinFormat]

def PinInfoSerde.intoPinInfo (p : PinInfoSerde) : Except Error PinInfo :=
  match PinFormat.fromStr p.cidStr with
  | .ok cid => .ok { cid, pinType := p.pinType, name := p.name }
  | .error e => .error (.serialization ("Invalid CID in stored pin: " ++ e))

namespace PinTables

/-- `pins.insert(pin_info.cid, pin_info)`. -/
def insertInfo (t : PinTables) (info : PinInfo) : PinTables :=
  t.pin info.cid info.pinType info.name

/-- The loop of `load` over the list. -/
def loadLoop : List PinInfoSerde → PinTables → Except Error Unit × PinTables
  | [], t => (.ok (), t)
  | p :: rest, t =>
    match p.intoPinInfo with
    | .error e => (.error e, t)
    | .ok info => loadLoop rest (t.insertInfo info)

/-- `load`, of what reading the file gives. -/
def load (t : PinTables) (file : Except Error (List UInt8)) : Except Error Unit × PinTables :=
  match file with
  | .error e => (.error e, t)
  | .ok data =>
    match PinFormat.decode data with
    | .error e => (.error (.serialization ("Failed to deserialize pins: " ++ e)), t)
    | .ok pinList => loadLoop pinList { t with toPinManager := PinManager.new }

end PinTables

end Ipfrs.Node

/-! ## What is pinned indirectly, and what `load` leaves

In every run the indirect pins are the dependencies recorded for any root (`Recorded`). They
are those of the recursively pinned roots as long as no root with recorded dependencies is
pinned again as direct: such a pin keeps the record, and `unpin` then leaves it behind. -/

namespace Ipfrs.Node

open Ipfrs.Core Ipfrs.Lib

namespace PinManager

variable {m : PinManager}

theorem mem_pin {p : PinInfo} {cid : Cid} {pinType : PinType} {name : Option String} :
    p ∈ (m.pin cid pinType name).pins ↔
      p = { cid, pinType, name } ∨ (p ∈ m.pins ∧ p.cid ≠ cid) := by
  simp [pin]

theorem mem_remove {p : PinInfo} {cid : Cid} :
    p ∈ (m.remove cid).pins ↔ p ∈ m.pins ∧ p.cid ≠ cid := by
  simp [remove]

/-- A pin of its own identifier. -/
theorem eq_of_cid_eq {p q : PinInfo} (hp : p ∈ m.pins) (hq : q ∈ m.pins) (h : p.cid = q.cid) :
    p = q :=
  List.inj_on_of_nodup_map m.distinct hp hq h

end PinManager

namespace PinTables

variable {t : PinTables}

/-- Pinned with a type. -/
def PinnedAs (t : PinTables) (cid : Cid) (pinType : PinType) : Prop :=
  ∃ p ∈ t.pins, p.cid = cid ∧ p.pinType = pinType

/-- The dependencies recorded for a root. -/
def depsOf (t : PinTables) (root : Cid) : Finset Cid := (t.recursiveDeps.get? root).getD ∅

/-! ## Operations -/

/-- A call of the manager. -/
inductive PinOp where
  | pin (cid : Cid) (pinType : PinType) (name : Option String)
  | addIndirect (rootCid indirectCid : Cid)
  | addIndirectMany (rootCid : Cid) (indirectCids : List Cid)
  | unpin (cid : Cid)
  | clear

/-- The tables after a call; a failed call changes nothing. -/
def apply [CidStream] (t : PinTables) : PinOp → PinTables
  | .pin cid pinType name => t.pin cid pinType name
  | .addIndirect rootCid indirectCid => t.addIndirect rootCid indirectCid
  | .addIndirectMany rootCid indirectCids => t.addIndirectMany rootCid indirectCids
  | .unpin cid =>
    match t.unpin cid with
    | .ok t' => t'
    | .error _ => t
  | .clear => t.clear

/-- Dependencies are added for recursively pinned roots. -/
def Permitted (t : PinTables) : PinOp → Prop
  | .addIndirect rootCid _ => t.PinnedAs rootCid .recursive
  | .addIndirectMany rootCid _ => t.PinnedAs rootCid .recursive
  | .pin _ _ _ | .unpin _ | .clear => True

/-- A recursive root with recorded dependencies is pinned again as direct. -/
def Demotes (t : PinTables) : PinOp → Prop
  | .pin cid .direct _ => t.PinnedAs cid .recursive ∧ (t.depsOf cid).Nonempty
  | .pin _ .recursive _ | .addIndirect _ _ | .addIndirectMany _ _ | .unpin _ | .clear => False

/-- The tables after calls none of which demotes a root. -/
inductive Reached [CidStream] : PinTables → Prop where
  | new : Reached .new
  | call {t : PinTables} (op : PinOp) (h : Reached t) (hpermitted : t.Permitted op)
      (hkeeps : ¬ t.Demotes op) : Reached (t.apply op)

theorem mem_foldl_insert {x : Cid} : ∀ {cids : List Cid} {s : Finset Cid},
    x ∈ cids.foldl (fun s cid => insert cid s) s ↔ x ∈ s ∨ x ∈ cids
  | [], s => by simp
  | cid :: cids, s => by
    rw [List.foldl_cons, mem_foldl_insert, Finset.mem_insert, List.mem_cons]
    exact ⟨fun h => by tauto, fun h => by tauto⟩

/-! ## The record -/

/-- The indirect pins are what is recorded for some root. -/
def Recorded (t : PinTables) : Prop := ∀ d, d ∈ t.indirectPins ↔ ∃ root, d ∈ t.depsOf root

theorem recorded_new : Recorded .new := by
  intro d
  simp [new, depsOf, EntryMap.empty, EntryMap.get?, EntryMap.find]

variable {cid root : Cid} {f : Finset Cid → Finset Cid}

/-- What is recorded after more dependencies of a root. -/
theorem depsOf_alter {root' : Cid} {s : Finset Cid} :
    depsOf { t with
        indirectPins := s
        recursiveDeps := t.recursiveDeps.alter root (fun deps => f (deps.getD ∅)) } root'
      = if root' = root then f (t.depsOf root) else t.depsOf root' := by
  rw [depsOf, EntryMap.get?_alter]
  split
  · rfl
  · rfl

/-- Adding the same dependencies to both sides keeps the record. -/
theorem Recorded.alter (h : Recorded t) {added : Cid → Prop}
    (hf : ∀ s d, d ∈ f s ↔ d ∈ s ∨ added d) :
    Recorded { t with
      indirectPins := f t.indirectPins
      recursiveDeps := t.recursiveDeps.alter root (fun deps => f (deps.getD ∅)) } := by
  intro d
  simp only [depsOf_alter]
  rw [hf, h d]
  constructor
  · rintro (⟨r, hr⟩ | hadded)
    · by_cases hroot : r = root
      · subst hroot
        exact ⟨r, by rw [if_pos rfl, hf]; exact .inl hr⟩
      · exact ⟨r, by rw [if_neg hroot]; exact hr⟩
    · exact ⟨root, by rw [if_pos rfl, hf]; exact .inr hadded⟩
  · rintro ⟨r, hr⟩
    split at hr
    · exact ((hf _ d).mp hr).imp_left (fun h => ⟨root, h⟩)
    · exact .inl ⟨r, hr⟩

theorem dropDeps_none (h : t.recursiveDeps.get? cid = none) : t.dropDeps cid = t := by
  simp only [dropDeps, h]

theorem dropDeps_some {indirectCids : Finset Cid}
    (h : t.recursiveDeps.get? cid = some indirectCids) :
    t.dropDeps cid = { t with
      indirectPins := t.indirectPins \ indirectCids.filter (fun c =>
        ¬ (t.recursiveDeps.erase cid).values.any (fun set => c ∈ set) = true)
      recursiveDeps := t.recursiveDeps.erase cid } := by
  simp only [dropDeps, h]

theorem depsOf_dropDeps :
    (t.dropDeps cid).depsOf root = if root = cid then ∅ else t.depsOf root := by
  cases hdeps : t.recursiveDeps.get? cid with
  | none =>
    rw [dropDeps_none hdeps]
    split
    · next heq =>
      subst heq
      rw [depsOf, hdeps, Option.getD_none]
    · rfl
  | some indirectCids =>
    rw [dropDeps_some hdeps, depsOf, EntryMap.get?_erase]
    split
    · rfl
    · rfl

theorem pins_dropDeps (cid : Cid) : (t.dropDeps cid).pins = t.pins := by
  cases hdeps : t.recursiveDeps.get? cid with
  | none => rw [dropDeps_none hdeps]
  | some indirectCids => rw [dropDeps_some hdeps]

/-- A dependency that another root still has. -/
theorem mem_values_erase {d : Cid} :
    ((t.recursiveDeps.erase cid).values.any (fun set => d ∈ set) = true) ↔
      ∃ root ≠ cid, d ∈ t.depsOf root := by
  simp only [List.any_eq_true, EntryMap.mem_values, EntryMap.get?_erase, decide_eq_true_eq]
  constructor
  · rintro ⟨set, ⟨root, hroot⟩, hd⟩
    split at hroot
    · cases hroot
    · next hne => exact ⟨root, hne, by rw [depsOf, hroot]; exact hd⟩
  · rintro ⟨root, hne, hd⟩
    cases hget : t.recursiveDeps.get? root with
    | none =>
      rw [depsOf, hget] at hd
      exact absurd hd (Finset.notMem_empty d)
    | some set =>
      rw [depsOf, hget] at hd
      exact ⟨set, ⟨root, by rw [if_neg hne, hget]⟩, hd⟩

theorem Recorded.dropDeps (h : Recorded t) (cid : Cid) : Recorded (t.dropDeps cid) := by
  intro d
  simp only [depsOf_dropDeps]
  have hothers : (∃ root, d ∈ if root = cid then ∅ else t.depsOf root) ↔
      ∃ root ≠ cid, d ∈ t.depsOf root := by
    refine exists_congr (fun root => ?_)
    by_cases hroot : root = cid <;> simp [hroot]
  rw [hothers]
  cases hdeps : t.recursiveDeps.get? cid with
  | none =>
    rw [dropDeps_none hdeps, h d]
    refine ⟨?_, fun ⟨root, _, hd⟩ => ⟨root, hd⟩⟩
    rintro ⟨root, hd⟩
    refine ⟨root, ?_, hd⟩
    rintro rfl
    rw [depsOf, hdeps] at hd
    exact absurd hd (Finset.notMem_empty d)
  | some indirectCids =>
    have hcid : t.depsOf cid = indirectCids := by rw [depsOf, hdeps, Option.getD_some]
    rw [dropDeps_some hdeps]
    simp only [Finset.mem_sdiff, Finset.mem_filter, mem_values_erase, h d, not_and, not_not]
    constructor
    · rintro ⟨⟨root, hd⟩, hneeded⟩
      by_cases hroot : root = cid
      · subst hroot
        exact hneeded (hcid ▸ hd)
      · exact ⟨root, hroot, hd⟩
    · rintro ⟨root, hne, hd⟩
      exact ⟨⟨root, hd⟩, fun _ => ⟨root, hne, hd⟩⟩

/-- Dependencies are recorded for recursively pinned roots only. -/
def RootsPinned (t : PinTables) : Prop :=
  ∀ root, (t.depsOf root).Nonempty → t.PinnedAs root .recursive

theorem PinnedAs.pin {pinType pinType' : PinType} {name : Option String}
    (h : t.PinnedAs root pinType) (hne : root ≠ cid) :
    (t.pin cid pinType' name).PinnedAs root pinType := by
  obtain ⟨p, hp, hroot, htype⟩ := h
  exact ⟨p, PinManager.mem_pin.mpr (.inr ⟨hp, by rw [hroot]; exact hne⟩), hroot, htype⟩

theorem PinnedAs.remove {pinType : PinType} (h : t.PinnedAs root pinType) (hne : root ≠ cid) :
    PinnedAs { t with toPinManager := t.toPinManager.remove cid } root pinType := by
  obtain ⟨p, hp, hroot, htype⟩ := h
  exact ⟨p, PinManager.mem_remove.mpr ⟨hp, by rw [hroot]; exact hne⟩, hroot, htype⟩

theorem RootsPinned.alter (h : RootsPinned t) (hroot : t.PinnedAs root .recursive)
    {s : Finset Cid} :
    RootsPinned { t with
      indirectPins := s
      recursiveDeps := t.recursiveDeps.alter root (fun deps => f (deps.getD ∅)) } := by
  intro r hr
  rw [depsOf_alter] at hr
  split at hr
  · next heq =>
    subst heq
    exact hroot
  · exact h r hr

section

variable [CidStream]

/-- What a call of `unpin` can do. -/
theorem apply_unpin_cases (t : PinTables) (cid : Cid) :
    ((∀ p ∈ t.pins, p.cid ≠ cid) ∧ t.apply (.unpin cid) = t) ∨
    ∃ info ∈ t.pins, info.cid = cid ∧ t.apply (.unpin cid)
      = if info.pinType = .recursive then
          dropDeps { t with toPinManager := t.toPinManager.remove cid } cid
        else { t with toPinManager := t.toPinManager.remove cid } := by
  cases hfind : t.pins.find? (fun p => p.cid = cid) with
  | none =>
    refine .inl ⟨fun p hp => by simpa using List.find?_eq_none.mp hfind p hp, ?_⟩
    simp only [apply, unpin, hfind]
  | some info =>
    have hcid : info.cid = cid := by simpa using List.find?_some hfind
    refine .inr ⟨info, List.mem_of_find?_eq_some hfind, hcid, ?_⟩
    simp only [apply, unpin, hfind]

/-- **The record is kept** by every call. -/
theorem Recorded.apply (h : Recorded t) (op : PinOp) : Recorded (t.apply op) := by
  cases op with
  | pin cid pinType name => exact h
  | addIndirect rootCid indirectCid =>
    exact h.alter (fun s d => by rw [Finset.mem_insert, or_comm])
  | addIndirectMany rootCid indirectCids => exact h.alter (fun s d => mem_foldl_insert)
  | unpin cid =>
    rcases apply_unpin_cases t cid with ⟨_, hsame⟩ | ⟨info, _, _, hunpin⟩
    · rw [hsame]
      exact h
    · rw [hunpin]
      have hremoved : Recorded { t with toPinManager := t.toPinManager.remove cid } := h
      split
      · exact hremoved.dropDeps cid
      · exact hremoved
  | clear => exact recorded_new

/-- A call that demotes no root leaves no dependencies without their root. -/
theorem RootsPinned.apply (h : RootsPinned t) (op : PinOp) (hpermitted : t.Permitted op)
    (hkeeps : ¬ t.Demotes op) : RootsPinned (t.apply op) := by
  cases op with
  | pin cid pinType name =>
    intro root hroot
    have hpinned : t.PinnedAs root .recursive := h root hroot
    by_cases hne : root = cid
    · subst hne
      cases pinType with
      | direct => exact absurd ⟨hpinned, hroot⟩ hkeeps
      | recursive => exact ⟨_, PinManager.mem_pin.mpr (.inl rfl), rfl, rfl⟩
    · exact hpinned.pin hne
  | addIndirect rootCid indirectCid => exact h.alter hpermitted
  | addIndirectMany rootCid indirectCids =>
    exact h.alter (f := fun s => indirectCids.foldl (fun s cid => insert cid s) s) hpermitted
  | unpin cid =>
    rcases apply_unpin_cases t cid with ⟨_, hsame⟩ | ⟨info, hinfo, hcid, hunpin⟩
    · rw [hsame]
      exact h
    · rw [hunpin]
      intro root hroot
      by_cases hrecursive : info.pinType = .recursive
      · rw [if_pos hrecursive] at hroot ⊢
        rw [depsOf_dropDeps] at hroot
        split at hroot
        · exact absurd hroot Finset.not_nonempty_empty
        · next hne =>
          have hpinned := (h root hroot).remove hne
          rw [PinnedAs, pins_dropDeps]
          exact hpinned
      · rw [if_neg hrecursive] at hroot ⊢
        have hpinned : t.PinnedAs root .recursive := h root hroot
        refine hpinned.remove ?_
        -- a direct pin has no dependencies
        rintro rfl
        obtain ⟨p, hp, hroot', htype⟩ := hpinned
        have heq := PinManager.eq_of_cid_eq hp hinfo (hroot'.trans hcid.symm)
        exact hrecursive (heq ▸ htype)
  | clear =>
    intro root hroot
    exact absurd hroot (by simp [PinTables.apply, PinTables.clear, PinTables.new, depsOf,
      EntryMap.empty, EntryMap.get?, EntryMap.find])

theorem Reached.inv (h : Reached t) : Recorded t ∧ RootsPinned t := by
  induction h with
  | new =>
    refine ⟨recorded_new, fun root hroot => absurd hroot ?_⟩
    simp [PinTables.new, depsOf, EntryMap.empty, EntryMap.get?, EntryMap.find]
  | call op _ hpermitted hkeeps ih =>
    exact ⟨ih.1.apply op, ih.2.apply op hpermitted hkeeps⟩

/-- **Indirect pins follow their roots** while no root is demoted: they are the dependencies
recorded for the recursively pinned roots, and without pins nothing is pinned. -/
theorem Reached.indirectPins_iff (h : Reached t) :
    (∀ d, d ∈ t.indirectPins ↔ ∃ root, t.PinnedAs root .recursive ∧ d ∈ t.depsOf root) ∧
    (t.pins = [] → ∀ cid, t.isPinned cid = false) := by
  obtain ⟨hrecorded, hroots⟩ := h.inv
  have hfollow : ∀ d, d ∈ t.indirectPins ↔
      ∃ root, t.PinnedAs root .recursive ∧ d ∈ t.depsOf root := by
    intro d
    rw [hrecorded d]
    exact exists_congr (fun root => ⟨fun hd => ⟨hroots root ⟨d, hd⟩, hd⟩, And.right⟩)
  refine ⟨hfollow, fun hpins cid => ?_⟩
  have hnone : cid ∉ t.indirectPins := by
    rw [hfollow]
    rintro ⟨root, ⟨p, hp, -⟩, -⟩
    rw [hpins] at hp
    cases hp
  simp [isPinned, hpins, hnone]

end

/-! ### A root with one dependency -/

open scoped CidFormat

private def rootCid : Cid := cidOf codecDagCbor [1]

private def leafCid : Cid := cidOf codecRaw [2]

private def rootPinned : PinTables := PinTables.new.apply (.pin rootCid .recursive none)

private theorem rootPinned_root : rootPinned.PinnedAs rootCid .recursive :=
  ⟨_, List.mem_cons_self, rfl, rfl⟩

/-- After the dependency is recorded it is the one indirect pin. -/
theorem indirectPins_iff_sample :
    (∀ d, d ∈ (rootPinned.apply (.addIndirect rootCid leafCid)).indirectPins ↔
      ∃ root, (rootPinned.apply (.addIndirect rootCid leafCid)).PinnedAs root .recursive ∧
        d ∈ (rootPinned.apply (.addIndirect rootCid leafCid)).depsOf root) ∧
    ((rootPinned.apply (.addIndirect rootCid leafCid)).pins = [] →
      ∀ cid, (rootPinned.apply (.addIndirect rootCid leafCid)).isPinned cid = false) :=
  Reached.indirectPins_iff
    (.call _ (.call _ .new trivial (fun h => h)) rootPinned_root (fun h => h))

/-- The root is pinned again as direct, then unpinned: the dependency stays pinned. -/
theorem indirect_pin_leaks : rootPinned.PinnedAs rootCid .recursive ∧
    ([PinOp.addIndirect rootCid leafCid, .pin rootCid .direct none, .unpin rootCid].foldl apply
      rootPinned).pins = [] ∧
    ([PinOp.addIndirect rootCid leafCid, .pin rootCid .direct none, .unpin rootCid].foldl apply
      rootPinned).isPinned leafCid = true := by
  refine ⟨rootPinned_root, ?_, ?_⟩
  · decide +kernel
  · decide +kernel

/-! ## What a load gives -/

section

variable [PinFormat]

/-- The entries before the first whose CID does not parse, and whether there is one. -/
def readEntries : List PinInfoSerde → List PinInfo × Bool
  | [] => ([], false)
  | p :: rest =>
    match p.intoPinInfo with
    | .error _ => ([], true)
    | .ok info => (info :: (readEntries rest).1, (readEntries rest).2)

/-- `load` inserts what it reads, and fails at the first entry that it cannot. -/
theorem loadLoop_eq : ∀ (pinList : List PinInfoSerde) (t : PinTables),
    (loadLoop pinList t).2 = (readEntries pinList).1.foldl insertInfo t ∧
    ((loadLoop pinList t).1 = .ok () ↔ (readEntries pinList).2 = false)
  | [], t => by simp [loadLoop, readEntries]
  | p :: rest, t => by
    cases hinfo : p.intoPinInfo with
    | error e => simp [loadLoop, readEntries, hinfo]
    | ok info =>
      have ih := loadLoop_eq rest (t.insertInfo info)
      simp only [loadLoop, readEntries, hinfo, List.foldl_cons]
      exact ih

end

theorem mem_insertInfo {p info : PinInfo} :
    p ∈ (t.insertInfo info).pins ↔ p = info ∨ (p ∈ t.pins ∧ p.cid ≠ info.cid) :=
  PinManager.mem_pin

open KeyedWrites in
/-- Of the entries for an identifier the last one stays. -/
theorem mem_foldl_insertInfo {p : PinInfo} {entries : List PinInfo} :
    p ∈ (entries.foldl insertInfo t).pins ↔ lastOn PinInfo.cid p.cid entries = some p ∨
        (p ∈ t.pins ∧ lastOn PinInfo.cid p.cid entries = none) := by
  induction entries using List.reverseRecOn with
  | nil => simp
  | append_singleton entries info ih =>
    rw [List.foldl_append, List.foldl_cons, List.foldl_nil, mem_insertInfo, ih, lastOn_concat]
    by_cases hcid : info.cid = p.cid
    · rw [if_pos hcid]
      simp only [hcid, ne_eq, not_true_eq_false, and_false, or_false, Option.some.injEq,
        reduceCtorEq]
      exact eq_comm
    · rw [if_neg hcid]
      have hne : p ≠ info := fun h => hcid (by rw [h])
      simp only [hne, Ne.symm hcid, ne_eq, not_false_eq_true, and_true, false_or]

theorem indirectPins_foldl_insertInfo (entries : List PinInfo) (t : PinTables) :
    (entries.foldl insertInfo t).indirectPins = t.indirectPins := by
  induction entries generalizing t with
  | nil => rfl
  | cons info entries ih =>
    rw [List.foldl_cons, ih]
    rfl

/-- What is pinned after a list is read into tables without pins. -/
theorem isPinned_foldl_insertInfo (entries : List PinInfo) (hpins : t.pins = []) :
    (entries.foldl insertInfo t).isPinned cid = true ↔
      cid ∈ entries.map PinInfo.cid ∨ cid ∈ t.indirectPins := by
  rw [isPinned, Bool.or_eq_true, decide_eq_true_iff, indirectPins_foldl_insertInfo,
    List.any_eq_true]
  refine or_congr_left ⟨?_, ?_⟩
  · rintro ⟨p, hp, hcid⟩
    rcases mem_foldl_insertInfo.mp hp with hlast | ⟨hold, _⟩
    · exact List.mem_map.mpr ⟨p, (KeyedWrites.lastOn_mem hlast).1, of_decide_eq_true hcid⟩
    · rw [hpins] at hold
      cases hold
  · intro hmem
    cases hlast : KeyedWrites.lastOn PinInfo.cid cid entries with
    | none =>
      obtain ⟨p, hp, hcid⟩ := List.mem_map.mp hmem
      exact absurd hcid (KeyedWrites.lastOn_eq_none.mp hlast p hp)
    | some p =>
      have hcid := (KeyedWrites.lastOn_mem hlast).2
      exact ⟨p, mem_foldl_insertInfo.mpr (.inl (hcid ▸ hlast)), decide_eq_true hcid⟩

section

variable [PinFormat]

/-- The identifiers of a readable list. -/
theorem mem_readEntries : ∀ {pinList : List PinInfoSerde}, (readEntries pinList).2 = false →
    ∀ {cid : Cid}, cid ∈ (readEntries pinList).1.map PinInfo.cid ↔
      ∃ p ∈ pinList, PinFormat.fromStr p.cidStr = .ok cid
  | [], _, cid => by simp [readEntries]
  | p :: rest, h, cid => by
    rw [readEntries] at h ⊢
    cases hstr : PinFormat.fromStr p.cidStr with
    | error e =>
      simp [PinInfoSerde.intoPinInfo, hstr] at h
    | ok c =>
      simp only [PinInfoSerde.intoPinInfo, hstr] at h ⊢
      rw [List.map_cons, List.mem_cons, mem_readEntries h]
      simp only [List.mem_cons, exists_eq_or_imp, hstr, Except.ok.injEq]
      exact or_congr_left eq_comm

/-- The identifiers that a file lists. -/
def Listed (file : Except Error (List UInt8)) (cid : Cid) : Prop :=
  ∃ data pinList, file = .ok data ∧ PinFormat.decode data = .ok pinList ∧
    ∃ p ∈ pinList, PinFormat.fromStr p.cidStr = .ok cid

/-- A failed `load` leaves the pins as they were, another what the file lists and nothing
else. -/
def AllOrNothing (t : PinTables) (file : Except Error (List UInt8)) : Prop :=
  match t.load file with
  | (.error _, t') => ∀ p, p ∈ t'.pins ↔ p ∈ t.pins
  | (.ok _, t') => ∀ cid, t'.isPinned cid = true ↔ Listed file cid

/-- The file cannot be read or decoded, or has an unreadable entry behind entries that are
the pins there were, or lists whatever was pinned indirectly. -/
def LoadsWhole (t : PinTables) (file : Except Error (List UInt8)) : Prop :=
  ∀ data pinList, file = .ok data → PinFormat.decode data = .ok pinList →
    if (readEntries pinList).2 then
      ∀ p, p ∈ t.pins ↔ KeyedWrites.lastOn PinInfo.cid p.cid (readEntries pinList).1 = some p
    else ∀ cid ∈ t.indirectPins, cid ∈ (readEntries pinList).1.map PinInfo.cid

/-- **Loading is all-or-nothing** exactly in these cases. -/
theorem allOrNothing_iff (t : PinTables) (file : Except Error (List UInt8)) :
    AllOrNothing t file ↔ LoadsWhole t file := by
  cases file with
  | error e => exact iff_of_true (fun p => Iff.rfl) (fun data pinList h => by cases h)
  | ok data =>
    cases hdecode : PinFormat.decode data with
    | error e =>
      refine iff_of_true ?_ (fun data' pinList h hlist => ?_)
      · simp [AllOrNothing, load, hdecode]
      · cases h
        rw [hdecode] at hlist
        cases hlist
    | ok pinList =>
      have hwhole : LoadsWhole t (.ok data) ↔
          if (readEntries pinList).2 then ∀ p, p ∈ t.pins ↔
            KeyedWrites.lastOn PinInfo.cid p.cid (readEntries pinList).1 = some p
          else ∀ cid ∈ t.indirectPins, cid ∈ (readEntries pinList).1.map PinInfo.cid := by
        constructor
        · intro h
          exact h data pinList rfl hdecode
        · intro h data' pinList' hdata hlist
          cases hdata
          rw [hdecode] at hlist
          cases hlist
          exact h
      obtain ⟨htables, hok⟩ := loadLoop_eq pinList { t with toPinManager := PinManager.new }
      have hload : t.load (.ok data)
          = loadLoop pinList { t with toPinManager := PinManager.new } := by
        simp only [load, hdecode]
      rw [hwhole, AllOrNothing, hload]
      generalize hrun : loadLoop pinList { t with toPinManager := PinManager.new } = run
        at htables hok ⊢
      obtain ⟨result, t'⟩ := run
      cases result with
      | error e =>
        have hbad : (readEntries pinList).2 = true := by
          rw [← Bool.not_eq_false, ← hok]
          simp
        simp only [hbad, if_true]
        refine forall_congr' (fun p => ?_)
        have hmem : p ∈ t'.pins ↔
            KeyedWrites.lastOn PinInfo.cid p.cid (readEntries pinList).1 = some p := by
          simp only at htables
          rw [htables, mem_foldl_insertInfo]
          simp [PinManager.new]
        rw [hmem]
        exact Iff.comm
      | ok u =>
        have hgood : (readEntries pinList).2 = false := hok.mp rfl
        have hlisted : ∀ cid, Listed (.ok data) cid ↔
            cid ∈ (readEntries pinList).1.map PinInfo.cid := by
          intro cid
          rw [mem_readEntries hgood]
          constructor
          · rintro ⟨data', pinList', hdata, hlist, h⟩
            cases hdata
            rw [hdecode] at hlist
            cases hlist
            exact h
          · intro h
            exact ⟨data, pinList, rfl, hdecode, h⟩
        simp only at htables
        simp only [hgood, Bool.false_eq_true, if_false, hlisted]
        refine forall_congr' (fun cid => ?_)
        have hpins : (PinTables.mk PinManager.new t.indirectPins t.recursiveDeps).pins = [] :=
          rfl
        rw [htables, isPinned_foldl_insertInfo _ hpins]
        exact or_iff_left_iff_imp

end

/-- A list of one direct pin without a name whose CID is the text "x", and no other file. -/
@[reducible] def unreadablePin : PinFormat where
  decode data :=
    if data = [1, 1, 120, 0, 0] then .ok [⟨"x", .direct, none⟩] else .error "unexpected end"
  fromStr _ := .error "Input too short"

/-- A list with an unreadable entry: the call fails, and the pin there was is gone. -/
theorem not_allOrNothing_unreadable :
    (@load unreadablePin rootPinned (.ok [1, 1, 120, 0, 0])).2.pins = [] ∧
    ¬ @AllOrNothing unreadablePin rootPinned (.ok [1, 1, 120, 0, 0]) := by
  constructor
  · rfl
  · intro h
    have hpin : (⟨rootCid, .recursive, none⟩ : PinInfo) ∈ ([] : List PinInfo) :=
      (h ⟨rootCid, .recursive, none⟩).mpr List.mem_cons_self
    cases hpin

end PinTables

end Ipfrs.Node
