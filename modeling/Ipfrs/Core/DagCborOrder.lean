/-
Ipfrs.Core.DagCborOrder — in which order the encoder lists a map's keys.

DAG-CBOR asks for the keys of every map in the bytewise order of their ENCODED
form, where the length head comes first: a shorter key precedes a longer one, and
keys of one length compare byte by byte. The encoder walks a `BTreeMap`, so its
order is the byte order of the keys themselves. The two agree on a map exactly
when its keys never get shorter along the string order (`textBytes_lt_iff`).

What the bytes say is read off the bytes: `scanItem` walks one item of any CBOR
input and collects, for every map it meets, the encoded keys in the order they
stand there (`scanItem_cborBytes`).
-/
import Ipfrs.Core.DagCborTheorems

namespace Ipfrs.Core

open Ipfrs.Lib

/-! ## Reading the keys off the bytes -/

/-- The encoded keys of one map, in the order they stand in the input. -/
abbrev KeyList := List (List UInt8)

/-- A reader that returns the key lists of one item and what follows it. -/
abbrev Scan := List UInt8 → Option (List KeyList × List UInt8)

/-- The argument of a head. -/
def headArgument (info : Nat) (input : List UInt8) : Option (Nat × List UInt8) :=
  (decodeCborUint info input).toOption

def scanItems (scan : Scan) : Nat → Scan
  | 0, input => some ([], input)
  | n + 1, input => do
      let (maps, input) ← scan input
      let (more, input) ← scanItems scan n input
      some (maps ++ more, input)

/-- The entries of a map: its encoded keys, and the key lists nested in them. -/
def scanEntries (scan : Scan) :
    Nat → List UInt8 → Option (KeyList × List KeyList × List UInt8)
  | 0, input => some ([], [], input)
  | n + 1, input => do
      let (inKey, afterKey) ← scan input
      -- the key as it is written: what the reader took
      let key := input.take (input.length - afterKey.length)
      let (inValue, rest) ← scan afterKey
      let (keys, maps, rest) ← scanEntries scan n rest
      some (key :: keys, inKey ++ inValue ++ maps, rest)

/-- One item behind its first byte: a number or a simple value is its head, a
string is skipped, a tag is its content. -/
def scanMajor (scan : Scan) (majorType info : Nat) : Scan := fun input => do
  let (n, input) ← headArgument info input
  match majorType with
  | 2 => if n ≤ input.length then some ([], input.drop n) else none
  | 3 => if n ≤ input.length then some ([], input.drop n) else none
  | 4 => scanItems scan n input
  | 5 => do
      let (keys, maps, rest) ← scanEntries scan n input
      some (keys :: maps, rest)
  | 6 => scan input
  | _ => some ([], input)

/-- One item of the input. Nesting is bounded by the bytes there are. -/
def scanItem : Nat → Scan
  | 0, _ => none
  | _ + 1, [] => none
  | fuel + 1, b :: input => scanMajor (scanItem fuel) (b >>> 5).toNat (b &&& 0x1f).toNat input

/-- DAG-CBOR's map order: the input is one item, and every map in it lists its
encoded keys in strictly increasing bytewise order. -/
def KeysCanonical (b : List UInt8) : Prop :=
  ∃ maps, scanItem b.length b = some (maps, []) ∧ ∀ keys ∈ maps, keys.Pairwise (· < ·)

/-! ## The maps of a value -/

mutual

/-- Every map of the value, at every nesting level, in traversal order. -/
def Ipld.maps : Ipld → List (List (String × Ipld))
  | .list items => mapsOfItems items
  | .map entries => entries :: mapsOfEntries entries
  | .null => []
  | .bool _ => []
  | .integer _ => []
  | .float _ => []
  | .string _ => []
  | .bytes _ => []
  | .link _ => []

def mapsOfItems : List Ipld → List (List (String × Ipld))
  | [] => []
  | v :: rest => v.maps ++ mapsOfItems rest

def mapsOfEntries : List (String × Ipld) → List (List (String × Ipld))
  | [] => []
  | (_, v) :: rest => v.maps ++ mapsOfEntries rest

end

/-- In every map of the value, a key that comes later in the string order is at
least as long, in bytes. -/
def Ipld.KeyLengthsOrdered (v : Ipld) : Prop :=
  ∀ m ∈ v.maps, m.Pairwise (fun a b => (utf8 a.1).length ≤ (utf8 b.1).length)

def encodedKeys (m : List (String × Ipld)) : KeyList := m.map (fun e => textBytes e.1)

/-- The maps of a well-formed value have their keys in string order. -/
theorem Ipld.Wf.maps_sorted {p : Int → Prop} {v : Ipld} (h : v.Wf p) :
    ∀ m ∈ v.maps, SortedAssoc.Sorted m ∧ ∀ e ∈ m, (utf8 e.1).length < 2 ^ 64 := by
  induction h with
  | null => simp [Ipld.maps]
  | bool b => simp [Ipld.maps]
  | integer i _ => simp [Ipld.maps]
  | float f => simp [Ipld.maps]
  | string s _ => simp [Ipld.maps]
  | bytes b _ => simp [Ipld.maps]
  | link c => simp [Ipld.maps]
  | list l _ _ ih =>
    intro m hm
    rw [Ipld.maps] at hm
    clear * - hm ih
    induction l with
    | nil => simp [mapsOfItems] at hm
    | cons v l ihl =>
      rcases List.mem_append.mp hm with hm | hm
      · exact ih v List.mem_cons_self m hm
      · exact ihl (fun w hw => ih w (List.mem_cons_of_mem _ hw)) hm
  | map entries _ sorted keys _ ih =>
    intro m hm
    rw [Ipld.maps] at hm
    rcases List.mem_cons.mp hm with rfl | hm
    · exact ⟨sorted, keys⟩
    · clear * - hm ih
      induction entries with
      | nil => simp [mapsOfEntries] at hm
      | cons e rest ihl =>
        rcases List.mem_append.mp hm with hm | hm
        · exact ih e List.mem_cons_self m hm
        · exact ihl (fun w hw => ih w (List.mem_cons_of_mem _ hw)) hm

/-! ## The order of encoded keys -/

/-- The first byte of a text head, by its additional info. -/
theorem text_head_lt : ∀ i k : Fin 32, i < k →
    (3 : UInt8) <<< 5 ||| UInt8.ofNat i < (3 : UInt8) <<< 5 ||| UInt8.ofNat k := by
  decide

theorem shortestInfo_mono {n k : Nat} (h : n ≤ k) : shortestInfo n ≤ shortestInfo k := by
  unfold shortestInfo
  repeat' split
  all_goals omega

/-- A shorter length has a smaller head, whatever follows: either its additional
info is smaller, which the first byte shows, or the two are numbers of one width. -/
theorem below_cborHead_text {n k : Nat} (hk : k < 2 ^ 64) (h : n < k) :
    Below (cborHead 3 n) (cborHead 3 k) := by
  have hn : n < 2 ^ 64 := by omega
  rcases Nat.lt_or_eq_of_le (shortestInfo_mono (Nat.le_of_lt h)) with hinfo | hinfo
  · have hfirst := text_head_lt ⟨_, shortestInfo_lt n⟩ ⟨_, shortestInfo_lt k⟩ hinfo
    rcases cborHead_cases 3 hn with ⟨_, _, hhead⟩ | ⟨w, _, _, hhead⟩ <;>
      rcases cborHead_cases 3 hk with ⟨_, _, hhead'⟩ | ⟨w', _, _, hhead'⟩ <;>
      rw [hhead, hhead'] <;> exact below_cons hfirst _ _
  · rcases cborHead_cases 3 hn with ⟨h24, hi, _⟩ | ⟨w, hw, _, hhead⟩
    · rcases cborHead_cases 3 hk with ⟨_, hi', _⟩ | ⟨w', hw', _, _⟩
      · omega
      · have hwide := (wideHeads_info hw').1
        omega
    · rcases cborHead_cases 3 hk with ⟨_, hi', _⟩ | ⟨w', hw', hkw, hhead'⟩
      · have hwide := (wideHeads_info hw).1
        omega
      · rw [hinfo] at hw hhead
        rw [wideHeads_unique hw hw'] at hhead
        rw [hhead, hhead']
        exact (below_beBytes w' hkw h).append_left [_]

/-- **Encoded keys against keys**: two keys in string order are in the order of
their encodings exactly when the first is not longer. -/
theorem textBytes_lt_iff {s t : String} (hs : (utf8 s).length < 2 ^ 64)
    (ht : (utf8 t).length < 2 ^ 64) (h : s < t) :
    textBytes s < textBytes t ↔ (utf8 s).length ≤ (utf8 t).length := by
  rw [textBytes, textBytes, asU64_of_lt hs, asU64_of_lt ht]
  constructor
  · intro hlt
    by_contra hlen
    have hgt := ((below_cborHead_text hs (not_le.mp hlen)).append (utf8 t) (utf8 s)).lt
    exact List.lt_asymm hlt hgt
  · intro hle
    rcases Nat.lt_or_eq_of_le hle with hlen | hlen
    · exact ((below_cborHead_text ht hlen).append _ _).lt
    · rw [hlen]
      exact List.append_left_lt (utf8_lt_utf8 h)

/-- The encoded keys of one map are in order exactly when its key lengths are. -/
theorem encodedKeys_pairwise_iff {m : List (String × Ipld)} (hsorted : SortedAssoc.Sorted m)
    (hkeys : ∀ e ∈ m, (utf8 e.1).length < 2 ^ 64) : (encodedKeys m).Pairwise (· < ·) ↔
      m.Pairwise (fun a b => (utf8 a.1).length ≤ (utf8 b.1).length) := by
  have hpair : ∀ a b : String × Ipld, a ∈ m → b ∈ m → a.1 < b.1 →
      (textBytes a.1 < textBytes b.1 ↔ (utf8 a.1).length ≤ (utf8 b.1).length) :=
    fun a b ha hb hab => textBytes_lt_iff (hkeys a ha) (hkeys b hb) hab
  rw [encodedKeys, List.pairwise_map]
  constructor
  · intro h
    refine (h.and hsorted).imp_of_mem ?_
    intro a b ha hb hab
    exact (hpair a b ha hb hab.2).mp hab.1
  · intro h
    refine (h.and hsorted).imp_of_mem ?_
    intro a b ha hb hab
    exact (hpair a b ha hb hab.2).mpr hab.1

/-! ## What the encoder writes -/

/-- A head is read back and the scan goes on behind it. -/
theorem scanItem_head (m : Nat) (hm : m < 8) {n : Nat} (hn : n < 2 ^ 64) {fuel : Nat}
    {s : List UInt8} (hfuel : (cborHead (UInt8.ofNat m) n ++ s).length ≤ fuel) :
    ∃ f info input, fuel = f + 1 ∧ s.length ≤ f ∧ headArgument info input = some (n, s) ∧
      scanItem fuel (cborHead (UInt8.ofNat m) n ++ s) = scanMajor (scanItem f) m info input := by
  obtain ⟨b, t, hhead, hmajor, hinfo, huint⟩ := decodeHead hm hn
  rw [hhead] at hfuel ⊢
  cases fuel with
  | zero => simp at hfuel
  | succ f =>
    refine ⟨f, shortestInfo n, t ++ s, rfl, ?_, ?_, ?_⟩
    · simp only [List.cons_append, List.length_cons, List.length_append] at hfuel
      omega
    · simp [headArgument, huint s, Except.toOption]
    · rw [← hmajor, ← hinfo]
      rfl

theorem scanItem_text (str : String) (hlen : (utf8 str).length < 2 ^ 64) (fuel : Nat)
    (s : List UInt8) (hfuel : (textBytes str ++ s).length ≤ fuel) :
    scanItem fuel (textBytes str ++ s) = some ([], s) := by
  rw [textBytes, asU64_of_lt hlen, List.append_assoc] at hfuel ⊢
  obtain ⟨f, info, input, rfl, _, harg, hscan⟩ := scanItem_head 3 (by decide) hlen hfuel
  refine hscan.trans ?_
  simp [scanMajor, harg]

theorem scanItem_bytes (b s : List UInt8) (hlen : b.length < 2 ^ 64) (fuel : Nat)
    (hfuel : (cborHead 2 b.length ++ (b ++ s)).length ≤ fuel) :
    scanItem fuel (cborHead 2 b.length ++ (b ++ s)) = some ([], s) := by
  obtain ⟨f, info, input, rfl, _, harg, hscan⟩ := scanItem_head 2 (by decide) hlen hfuel
  refine hscan.trans ?_
  simp [scanMajor, harg]

section

variable [CidCrate]

theorem scanItems_cborItems {scan : Scan} (s : List UInt8) :
    ∀ items : List Ipld,
      (∀ v ∈ items, ∀ t, (cborBytes v ++ t).length ≤ (cborItems items ++ s).length →
        scan (cborBytes v ++ t) = some (v.maps.map encodedKeys, t)) →
      scanItems scan items.length (cborItems items ++ s)
        = some ((mapsOfItems items).map encodedKeys, s)
  | [], _ => by simp [scanItems, cborItems, mapsOfItems]
  | item :: rest, h => by
    have hitem := h item List.mem_cons_self (cborItems rest ++ s) (by simp [cborItems])
    have hrest := scanItems_cborItems s rest (fun v hv t ht =>
      h v (List.mem_cons_of_mem _ hv) t (by
        simp only [cborItems, List.length_append] at ht ⊢; omega))
    rw [List.length_cons, scanItems, cborItems, List.append_assoc, hitem]
    simp [hrest, mapsOfItems]

theorem scanEntries_cborEntries {scan : Scan} (s : List UInt8) :
    ∀ entries : List (String × Ipld),
      (∀ e ∈ entries, ∀ t, (textBytes e.1 ++ t).length ≤ (cborEntries entries ++ s).length →
        scan (textBytes e.1 ++ t) = some ([], t)) →
      (∀ e ∈ entries, ∀ t, (cborBytes e.2 ++ t).length ≤ (cborEntries entries ++ s).length →
        scan (cborBytes e.2 ++ t) = some (e.2.maps.map encodedKeys, t)) →
      scanEntries scan entries.length (cborEntries entries ++ s)
        = some (encodedKeys entries, (mapsOfEntries entries).map encodedKeys, s)
  | [], _, _ => by simp [scanEntries, cborEntries, mapsOfEntries, encodedKeys]
  | e :: rest, hk, hv => by
    have hkey := hk e List.mem_cons_self (cborBytes e.2 ++ (cborEntries rest ++ s))
      (by simp [cborEntries])
    have hval := hv e List.mem_cons_self (cborEntries rest ++ s) (by simp [cborEntries])
    have hlen : (cborEntries rest ++ s).length ≤ (cborEntries (e :: rest) ++ s).length := by
      simp only [cborEntries, List.length_append]; omega
    have hrest := scanEntries_cborEntries s rest
      (fun e' he t ht => hk e' (List.mem_cons_of_mem _ he) t (ht.trans hlen))
      (fun e' he t ht => hv e' (List.mem_cons_of_mem _ he) t (ht.trans hlen))
    rw [List.length_cons, scanEntries, cborEntries, List.append_assoc, List.append_assoc, hkey]
    simp [hval, hrest, mapsOfEntries, encodedKeys]

/-- **The scan of an encoding** finds the maps of the value, each with its encoded
keys in the order of the entries, and leaves what follows the encoding. -/
theorem scanItem_cborBytes [CidCrate.Lawful] {p : Int → Prop} {v : Ipld} (hv : v.Wf p)
    (fuel : Nat) (s : List UInt8) (hfuel : (cborBytes v ++ s).length ≤ fuel) :
    scanItem fuel (cborBytes v ++ s) = some (v.maps.map encodedKeys, s) := by
  induction hv generalizing fuel s with
  | null =>
    cases fuel with
    | zero => simp [cborBytes] at hfuel
    | succ f => rfl
  | bool b =>
    cases fuel with
    | zero => simp [cborBytes] at hfuel
    | succ f => cases b <;> rfl
  | integer i _ =>
    rw [cborBytes, intHead] at hfuel ⊢
    split at hfuel
    · next hpos =>
      rw [if_pos hpos]
      obtain ⟨f, info, input, rfl, _, harg, hscan⟩ :=
        scanItem_head 0 (by decide) (asU64_lt i.toNat) hfuel
      refine hscan.trans ?_
      simp [scanMajor, harg, Ipld.maps]
    · next hneg =>
      rw [if_neg hneg]
      obtain ⟨f, info, input, rfl, _, harg, hscan⟩ :=
        scanItem_head 1 (by decide) (asU64_lt (-1 - i).toNat) hfuel
      refine hscan.trans ?_
      simp [scanMajor, harg, Ipld.maps]
  | float bits =>
    cases fuel with
    | zero => simp [cborBytes] at hfuel
    | succ f =>
      have hread := readExact_append "u64" (beBytes 8 bits.toNat) s (length_beBytes 8 _)
      rw [cborBytes, List.cons_append, scanItem]
      simp [scanMajor, headArgument, decodeCborUint, hread, Except.toOption, Ipld.maps]
  | string str hlen =>
    exact scanItem_text str hlen fuel s hfuel
  | bytes b hlen =>
    rw [cborBytes, asU64_of_lt hlen, List.append_assoc] at hfuel ⊢
    exact scanItem_bytes b s hlen fuel hfuel
  | list l hlen _ ih =>
    rw [cborBytes, asU64_of_lt hlen, List.append_assoc] at hfuel ⊢
    obtain ⟨f, info, input, rfl, hrest, harg, hscan⟩ := scanItem_head 4 (by decide) hlen hfuel
    have hitems := scanItems_cborItems s l (fun v hv t ht => ih v hv f t (ht.trans hrest))
    refine hscan.trans ?_
    simp [scanMajor, harg, hitems, Ipld.maps]
  | map m hlen _ hkeys _ ih =>
    rw [cborBytes, asU64_of_lt hlen, List.append_assoc] at hfuel ⊢
    obtain ⟨f, info, input, rfl, hrest, harg, hscan⟩ := scanItem_head 5 (by decide) hlen hfuel
    have hentries := scanEntries_cborEntries s m
      (fun e he t ht => scanItem_text e.1 (hkeys e he) f t (ht.trans hrest))
      (fun e he t ht => ih e he f t (ht.trans hrest))
    refine hscan.trans ?_
    simp [scanMajor, harg, hentries, Ipld.maps]
  | link c =>
    have hlen : (0x00 :: CidCrate.toBytes c).length < 2 ^ 64 := by
      have := CidCrate.Lawful.length_toBytes_lt c
      simp only [List.length_cons]; omega
    rw [cborBytes, asU64_of_lt hlen, List.append_assoc, List.append_assoc] at hfuel ⊢
    obtain ⟨f, info, input, rfl, hrest, harg, hscan⟩ :=
      scanItem_head 6 (by decide) (show cidTag < 2 ^ 64 by decide) hfuel
    have hbytes := scanItem_bytes (0x00 :: CidCrate.toBytes c) s hlen f hrest
    refine hscan.trans ?_
    simp only [scanMajor, harg, Option.bind_eq_bind, Option.bind_some, hbytes, Ipld.maps,
      List.map_nil]

end

/-- **Exactly when the encoder's map order is DAG-CBOR's.** The encoding of a value
lists the encoded keys of every map in strictly increasing order if and only if no
map of the value, at any nesting level, has a key that comes before a shorter one. -/
theorem toDagCbor_keysCanonical_iff [CidCrate] [CidCrate.Lawful] (v : Ipld) (hv : v.Wf Ipld.I128) :
    ∃ b, v.toDagCbor = .ok b ∧ (KeysCanonical b ↔ v.KeyLengthsOrdered) := by
  have hscan := scanItem_cborBytes hv (cborBytes v).length [] (by simp)
  rw [List.append_nil] at hscan
  have hmaps := hv.maps_sorted
  refine ⟨cborBytes v, toDagCbor_eq v, ?_, ?_⟩
  · rintro ⟨maps, hmaps', hall⟩ m hm
    rw [hscan] at hmaps'
    cases hmaps'
    have hpair := hall (encodedKeys m) (List.mem_map_of_mem hm)
    exact (encodedKeys_pairwise_iff (hmaps m hm).1 (hmaps m hm).2).mp hpair
  · intro hlen
    refine ⟨_, hscan, ?_⟩
    intro keys hkeys
    obtain ⟨m, hm, rfl⟩ := List.mem_map.mp hkeys
    exact (encodedKeys_pairwise_iff (hmaps m hm).1 (hmaps m hm).2).mpr (hlen m hm)

open scoped CidFormat in
theorem toDagCbor_keysCanonical_iff_sample :
    ∃ b, sampleValue.toDagCbor = .ok b ∧ (KeysCanonical b ↔ sampleValue.KeyLengthsOrdered) :=
  toDagCbor_keysCanonical_iff sampleValue (sampleValue_wf.mono fun _ h => h.i128)

open scoped CidFormat in
/-- The keys `"aa"` and `"b"` are written in that order, the longer one first. -/
theorem toDagCbor_longer_key_first :
    ¬ ∀ v : Ipld, v.Wf Ipld.I128 → ∀ b, v.toDagCbor = .ok b → KeysCanonical b := by
  intro h
  have hwf : (Ipld.map [("aa", .null), ("b", .null)]).Wf Ipld.I128 := by
    refine .map _ (by decide) (by decide) (by decide) ?_
    intro e he
    simp only [List.mem_cons, List.not_mem_nil, or_false] at he
    rcases he with rfl | rfl <;> exact .null
  obtain ⟨maps, hscan, hall⟩ := h _ hwf _ (toDagCbor_eq _)
  have hbytes : cborBytes (.map [("aa", .null), ("b", .null)])
      = [0xa2, 0x62, 0x61, 0x61, 0xf6, 0x61, 0x62, 0xf6] := by decide
  rw [hbytes] at hscan
  have hkeys : maps = [[[0x62, 0x61, 0x61], [0x61, 0x62]]] := by
    have hrun : scanItem 8 [0xa2, 0x62, 0x61, 0x61, 0xf6, 0x61, 0x62, 0xf6]
        = some ([[[0x62, 0x61, 0x61], [0x61, 0x62]]], []) := by decide
    exact (Prod.mk.inj (Option.some.inj (hscan.symm.trans hrun))).1
  exact absurd (hall _ (hkeys ▸ List.mem_singleton_self _)) (by decide)

end Ipfrs.Core
