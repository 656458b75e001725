/-
Ipfrs.Core.Ipld — the IPLD data model of `ipld.rs`.

`Ipld` mirrors the source enumeration constructor by constructor. Floats are
their 64-bit patterns, and a `BTreeMap<String, Ipld>` is its iteration order: an
association list with strictly increasing keys (`Ipfrs.Lib.SortedAssoc`; Rust's
byte order on strings is the code-point order of `String`).

The Lean type is wider than the Rust one: a list can be longer than memory, a
map's keys can be out of order, an integer can leave `i128`. `Ipld.Wf` is the
part a Rust program can hold; it takes the integer range as a parameter because
the codec is exact on a smaller range than the type.
-/
import Ipfrs.Core.Cid
import Mathlib.Algebra.Group.Int.Defs
import Ipfrs.Lib.SortedAssoc

namespace Ipfrs.Core

open Ipfrs.Lib

/-- `enum Ipld`. -/
inductive Ipld where
  | null
  | bool (b : Bool)
  | integer (i : Int)
  | float (bits : UInt64)
  | string (s : String)
  | bytes (b : List UInt8)
  | list (items : List Ipld)
  | map (entries : List (String × Ipld))
  | link (cid : Cid)

namespace Ipld

/-! ## Accessors -/

/-- `Ipld::as_link`. -/
def asLink : Ipld → Option Cid
  | .link c => some c
  | _ => none

@[simp] theorem asLink_link (c : Cid) : (Ipld.link c).asLink = some c := rfl

/-- `BTreeMap::get` on a map's entries. -/
def field (m : List (String × Ipld)) (k : String) : Option Ipld := SortedAssoc.get? m k

mutual

/-- `Ipld::collect_links`: every link of the value, in traversal order. -/
def links : Ipld → List Cid
  | .link c => [c]
  | .list items => linksList items
  | .map entries => linksMap entries
  | _ => []

def linksList : List Ipld → List Cid
  | [] => []
  | v :: rest => links v ++ linksList rest

def linksMap : List (String × Ipld) → List Cid
  | [] => []
  | (_, v) :: rest => links v ++ linksMap rest

end

/-! ## Structural induction

The recursor of a nested type carries one motive per nesting; `induct` is the
form the proofs use, with a hypothesis for every member of a list or a map. -/

section Induction

variable {P : Ipld → Prop}
  (null : P .null)
  (bool : ∀ b, P (.bool b))
  (integer : ∀ i, P (.integer i))
  (float : ∀ f, P (.float f))
  (string : ∀ s, P (.string s))
  (bytes : ∀ b, P (.bytes b))
  (list : ∀ l, (∀ v ∈ l, P v) → P (.list l))
  (map : ∀ m, (∀ e ∈ m, P e.2) → P (.map m))
  (link : ∀ c, P (.link c))
include null bool integer float string bytes list map link

@[elab_as_elim]
theorem induct (v : Ipld) : P v :=
  @Ipld.rec P (fun l => ∀ v ∈ l, P v) (fun m => ∀ e ∈ m, P e.2) (fun e => P e.2)
    null bool integer float string bytes
    (fun l ih => list l ih)
    (fun m ih => map m ih)
    link
    (fun _ h => by cases h)
    (fun _ _ hv hl v hm => by
      rcases List.mem_cons.mp hm with rfl | hm
      · exact hv
      · exact hl v hm)
    (fun _ h => by cases h)
    (fun _ _ he hm e h => by
      rcases List.mem_cons.mp h with rfl | h
      · exact he
      · exact hm e h)
    (fun _ _ h => h)
    v

end Induction

/-! ## Values a Rust program can hold -/

/-- The range of `i128`. -/
def I128 (i : Int) : Prop := -2 ^ 127 ≤ i ∧ i < 2 ^ 127

/-- The integers CBOR major types 0 and 1 carry: `-2^64 ..= 2^64 - 1`. -/
def CborInt (i : Int) : Prop := -2 ^ 64 ≤ i ∧ i ≤ 2 ^ 64 - 1

instance (i : Int) : Decidable (I128 i) := inferInstanceAs (Decidable (_ ∧ _))
instance (i : Int) : Decidable (CborInt i) := inferInstanceAs (Decidable (_ ∧ _))

theorem CborInt.i128 {i : Int} (h : CborInt i) : I128 i := by
  unfold CborInt at h
  unfold I128
  omega

/-- A value whose integers are in range, whose lengths fit a 64-bit `usize`
and whose maps are ordered. -/
inductive Wf (intOk : Int → Prop) : Ipld → Prop where
  | null : Wf intOk .null
  | bool (b) : Wf intOk (.bool b)
  | integer (i) (h : intOk i) : Wf intOk (.integer i)
  | float (f) : Wf intOk (.float f)
  | string (s) (h : (utf8 s).length < 2 ^ 64) : Wf intOk (.string s)
  | bytes (b) (h : b.length < 2 ^ 64) : Wf intOk (.bytes b)
  | list (l) (h : l.length < 2 ^ 64) (items : ∀ v ∈ l, Wf intOk v) : Wf intOk (.list l)
  | map (m) (h : m.length < 2 ^ 64) (sorted : SortedAssoc.Sorted m)
      (keys : ∀ e ∈ m, (utf8 e.1).length < 2 ^ 64)
      (values : ∀ e ∈ m, Wf intOk e.2) : Wf intOk (.map m)
  | link (c) : Wf intOk (.link c)

theorem Wf.mono {p q : Int → Prop} (hpq : ∀ i, p i → q i) {v : Ipld} (h : v.Wf p) : v.Wf q := by
  induction h with
  | null => exact .null
  | bool b => exact .bool b
  | integer i h => exact .integer i (hpq i h)
  | float f => exact .float f
  | string s h => exact .string s h
  | bytes b h => exact .bytes b h
  | list l h _ ih => exact .list l h ih
  | map m h sorted keys _ ih => exact .map m h sorted keys ih
  | link c => exact .link c

/-- A map built by insertions of well-formed entries is well formed. -/
theorem Wf.ofEntries {p : Int → Prop} {l : List (String × Ipld)} (hlen : l.length < 2 ^ 64)
    (hkeys : ∀ k ∈ l.map Prod.fst, (utf8 k).length < 2 ^ 64) (hvalues : ∀ e ∈ l, e.2.Wf p) :
    (Ipld.map (SortedAssoc.ofEntries l)).Wf p :=
  .map _ (Nat.lt_of_le_of_lt (SortedAssoc.length_ofEntries_le l) hlen)
    (SortedAssoc.sorted_ofEntries l)
    (fun e he => hkeys e.1 (List.mem_map_of_mem (SortedAssoc.mem_of_mem_ofEntries he)))
    (fun e he => hvalues e (SortedAssoc.mem_of_mem_ofEntries he))

/-- The part of `Wf` that does not depend on sizes: integers in range, maps
ordered. -/
inductive Shaped (intOk : Int → Prop) : Ipld → Prop where
  | null : Shaped intOk .null
  | bool (b) : Shaped intOk (.bool b)
  | integer (i) (h : intOk i) : Shaped intOk (.integer i)
  | float (f) : Shaped intOk (.float f)
  | string (s) : Shaped intOk (.string s)
  | bytes (b) : Shaped intOk (.bytes b)
  | list (l) (items : ∀ v ∈ l, Shaped intOk v) : Shaped intOk (.list l)
  | map (m) (sorted : SortedAssoc.Sorted m) (values : ∀ e ∈ m, Shaped intOk e.2) :
      Shaped intOk (.map m)
  | link (c) : Shaped intOk (.link c)

/-- A map built by insertions of shaped values is shaped. -/
theorem Shaped.ofEntries {p : Int → Prop} {l : List (String × Ipld)}
    (h : ∀ e ∈ l, e.2.Shaped p) : (Ipld.map (SortedAssoc.ofEntries l)).Shaped p :=
  .map _ (SortedAssoc.sorted_ofEntries l)
    (fun e he => h e (SortedAssoc.mem_of_mem_ofEntries he))

end Ipld

end Ipfrs.Core
