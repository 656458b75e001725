/-
Ipfrs.Core.DagCborCanonical — how far DAG-CBOR bytes identify a value.

Content addressing needs two things of a codec: different values have different
bytes, and a value is read from one byte string only. The first fails on
integers, the second on the decoder's leniency, and this module says exactly
where.

* `wrapInts` reduces every integer of a value to the 64 bits its head keeps. Two
  values share their bytes exactly when they agree after that reduction
  (`cborBytes_eq_iff_wrapInts`).
* Whatever the decoder returns is a value the encoder represents
  (`decodeDagCbor_wf`), so an accepted input is re-encoded to a byte string that
  decodes to the same value, and it is that byte string itself exactly when the
  strict decoder accepts it too.
-/
import Ipfrs.Core.DagCborTheorems

namespace Ipfrs.Core

open Ipfrs.Lib

/-! ## Integers -/

/-- What survives of an integer: its sign class and the low 64 bits of its head. -/
def wrapInt (i : Int) : Int :=
  if i ≥ 0 then (asU64 i.toNat : Int) else -1 - (asU64 (-1 - i).toNat : Int)

theorem wrapInt_cborInt (i : Int) : Ipld.CborInt (wrapInt i) := by
  have h1 := asU64_lt i.toNat
  have h2 := asU64_lt (-1 - i).toNat
  unfold wrapInt Ipld.CborInt
  split <;> omega

/-- An integer and its reduction have the same head. -/
theorem intHead_wrapInt (i : Int) : intHead (wrapInt i) = intHead i := by
  have h1 := asU64_lt i.toNat
  have h2 := asU64_lt (-1 - i).toNat
  unfold wrapInt intHead
  split
  · next hpos =>
    rw [if_pos (by omega : (asU64 i.toNat : Int) ≥ 0), Int.toNat_natCast, asU64_of_lt h1]
  · next hneg =>
    have hval : (-1 - (-1 - (asU64 (-1 - i).toNat : Int))).toNat = asU64 (-1 - i).toNat := by
      omega
    rw [if_neg (by omega), hval, asU64_of_lt h2]

mutual

/-- Every integer of a value reduced to what its head keeps. -/
def Ipld.wrapInts : Ipld → Ipld
  | .integer i => .integer (wrapInt i)
  | .list items => .list (wrapItems items)
  | .map entries => .map (wrapEntries entries)
  | .null => .null
  | .bool b => .bool b
  | .float f => .float f
  | .string s => .string s
  | .bytes b => .bytes b
  | .link c => .link c

def wrapItems : List Ipld → List Ipld
  | [] => []
  | v :: rest => v.wrapInts :: wrapItems rest

def wrapEntries : List (String × Ipld) → List (String × Ipld)
  | [] => []
  | (k, v) :: rest => (k, v.wrapInts) :: wrapEntries rest

end

theorem wrapItems_eq_map (l : List Ipld) : wrapItems l = l.map Ipld.wrapInts := by
  induction l with
  | nil => rfl
  | cons v l ih => rw [wrapItems, ih, List.map_cons]

theorem wrapEntries_eq_map (m : List (String × Ipld)) :
    wrapEntries m = m.map (fun e => (e.1, e.2.wrapInts)) := by
  induction m with
  | nil => rfl
  | cons e m ih => rw [wrapEntries, ih, List.map_cons]

/-- The reduction keeps a value well formed and brings its integers into range. -/
theorem Ipld.Wf.wrapInts {p : Int → Prop} {v : Ipld} (h : v.Wf p) : v.wrapInts.Wf Ipld.CborInt := by
  induction h with
  | null => exact .null
  | bool b => exact .bool b
  | integer i _ => exact .integer _ (wrapInt_cborInt i)
  | float f => exact .float f
  | string s h => exact .string s h
  | bytes b h => exact .bytes b h
  | link c => exact .link c
  | list l h _ ih =>
    rw [Ipld.wrapInts, wrapItems_eq_map]
    refine .list _ (by simpa using h) (fun v hv => ?_)
    obtain ⟨w, hw, rfl⟩ := List.mem_map.mp hv
    exact ih w hw
  | map m h sorted keys _ ih =>
    rw [Ipld.wrapInts, wrapEntries_eq_map]
    refine .map _ (by simpa using h) (List.pairwise_map.mpr sorted) (fun e he => ?_)
      (fun e he => ?_)
    · obtain ⟨e', he', rfl⟩ := List.mem_map.mp he
      exact keys e' he'
    · obtain ⟨e', he', rfl⟩ := List.mem_map.mp he
      exact ih e' he'

section

variable [CidCrate]

mutual

/-- The encoder does not see the bits `wrapInts` drops. -/
theorem cborBytes_wrapInts : ∀ v : Ipld, cborBytes v.wrapInts = cborBytes v
  | .integer i => by rw [Ipld.wrapInts, cborBytes, cborBytes, intHead_wrapInt]
  | .list items => by
    rw [Ipld.wrapInts, cborBytes, cborBytes, cborItems_wrapItems items, wrapItems_eq_map,
      List.length_map]
  | .map entries => by
    rw [Ipld.wrapInts, cborBytes, cborBytes, cborEntries_wrapEntries entries,
      wrapEntries_eq_map, List.length_map]
  | .null => rfl
  | .bool _ => rfl
  | .float _ => rfl
  | .string _ => rfl
  | .bytes _ => rfl
  | .link _ => rfl

theorem cborItems_wrapItems : ∀ l : List Ipld, cborItems (wrapItems l) = cborItems l
  | [] => rfl
  | v :: rest => by
    rw [wrapItems, cborItems, cborItems, cborBytes_wrapInts v, cborItems_wrapItems rest]

theorem cborEntries_wrapEntries : ∀ m : List (String × Ipld),
    cborEntries (wrapEntries m) = cborEntries m
  | [] => rfl
  | (k, v) :: rest => by
    rw [wrapEntries, cborEntries, cborEntries, cborBytes_wrapInts v,
      cborEntries_wrapEntries rest]

end

/-- Two values share their bytes exactly when they agree up to `wrapInts`. -/
theorem cborBytes_eq_iff_wrapInts [CidCrate.Lawful] {p : Int → Prop} {v w : Ipld}
    (hv : v.Wf p) (hw : w.Wf p) : cborBytes v = cborBytes w ↔ v.wrapInts = w.wrapInts := by
  constructor
  · intro h
    refine cborBytes_injOn hv.wrapInts hw.wrapInts ?_
    rw [cborBytes_wrapInts, cborBytes_wrapInts, h]
  · intro h
    rw [← cborBytes_wrapInts v, h, cborBytes_wrapInts w]

end

/-- **When the encoding identifies the value.** Over the full `i128` range two
values with the same DAG-CBOR bytes are equal exactly when they do not differ only
in integer bits above the 64 a head keeps. -/
theorem toDagCbor_injective_iff [CidCrate] [CidCrate.Lawful] (v w : Ipld)
    (hv : v.Wf Ipld.I128) (hw : w.Wf Ipld.I128) :
    (∀ b, v.toDagCbor = .ok b → w.toDagCbor = .ok b → v = w) ↔
      ¬ (v ≠ w ∧ v.wrapInts = w.wrapInts) := by
  have hbytes := cborBytes_eq_iff_wrapInts hv hw
  constructor
  · rintro h ⟨hne, hwrap⟩
    refine hne (h (cborBytes v) (toDagCbor_eq v) ?_)
    rw [toDagCbor_eq, hbytes.mpr hwrap]
  · intro h b hb hb'
    rw [toDagCbor_eq] at hb hb'
    have heq : cborBytes v = cborBytes w := by rw [Except.ok.inj hb, Except.ok.inj hb']
    by_contra hne
    exact h ⟨hne, hbytes.mp heq⟩

open scoped CidFormat in
/-- At the two ends of the 64-bit range the condition holds and the bytes differ. -/
theorem toDagCbor_injective_iff_ends :
    ((Ipld.integer (2 ^ 64 - 1)).wrapInts = .integer (2 ^ 64 - 1) ∧
      (Ipld.integer (-2 ^ 64)).wrapInts = .integer (-2 ^ 64)) ∧
    ∀ b, (Ipld.integer (2 ^ 64 - 1)).toDagCbor = .ok b →
      (Ipld.integer (-2 ^ 64)).toDagCbor = .ok b →
      Ipld.integer (2 ^ 64 - 1) = Ipld.integer (-2 ^ 64) := by
  refine ⟨⟨by rw [Ipld.wrapInts]; rfl, by rw [Ipld.wrapInts]; rfl⟩, ?_⟩
  refine (toDagCbor_injective_iff (.integer (2 ^ 64 - 1)) (.integer (-2 ^ 64))
    (.integer _ (by decide)) (.integer _ (by decide))).mpr ?_
  rintro ⟨_, h⟩
  rw [Ipld.wrapInts, Ipld.wrapInts] at h
  exact absurd (Ipld.integer.inj h) (by decide)

open scoped CidFormat in
/-- `2^64` and `0` are both encoded as the single byte `0x00`. -/
theorem toDagCbor_not_injective : ¬ ∀ v w : Ipld, v.Wf Ipld.I128 → w.Wf Ipld.I128 →
      ∀ b, v.toDagCbor = .ok b → w.toDagCbor = .ok b → v = w := by
  intro h
  have heq := h (.integer (2 ^ 64)) (.integer 0) (.integer _ (by decide)) (.integer _ (by decide))
    [0x00] rfl rfl
  exact absurd (Ipld.integer.inj heq) (by decide)

/-! ## Accepted inputs -/

theorem decodeCborUint_lt {info n : Nat} {input rest : List UInt8}
    (h : decodeCborUint info input = .ok (n, rest)) : n < 2 ^ 64 := by
  rcases decodeCborUint_eq_ok h with ⟨hle, rfl, _⟩ | ⟨w, hw, hlt, _⟩
  · omega
  · exact Nat.lt_of_lt_of_le hlt (Nat.pow_le_pow_right (by decide) (wideHeads_info hw).2)

/-- A decoder that returns only values the encoder represents. -/
def DecodesWf (decode : List UInt8 → Except Error (Ipld × List UInt8)) : Prop :=
  ∀ {input v rest}, decode input = .ok (v, rest) → v.Wf Ipld.CborInt

theorem decodeItems_wf {decode : List UInt8 → Except Error (Ipld × List UInt8)}
    (hd : DecodesWf decode) :
    ∀ (n : Nat) {input rest : List UInt8} {items : List Ipld},
      decodeItems decode n input = .ok (items, rest) →
      items.length = n ∧ ∀ v ∈ items, v.Wf Ipld.CborInt
  | 0, input, rest, items, h => by
    cases h
    simp
  | n + 1, input, rest, items, h => by
    obtain ⟨⟨item, mid⟩, hitem, h⟩ := bind_eq_ok.mp h
    obtain ⟨⟨tail, end'⟩, htail, h⟩ := bind_eq_ok.mp h
    cases h
    obtain ⟨hlen, hall⟩ := decodeItems_wf hd n htail
    refine ⟨by simp [hlen], fun v hv => ?_⟩
    rcases List.mem_cons.mp hv with rfl | hv
    · exact hd hitem
    · exact hall v hv

/-- What the entry loop keeps true of the map it builds. -/
structure EntriesWf (m : List (String × Ipld)) : Prop where
  sorted : SortedAssoc.Sorted m
  keys : ∀ e ∈ m, (utf8 e.1).length < 2 ^ 64
  values : ∀ e ∈ m, e.2.Wf Ipld.CborInt

theorem EntriesWf.insert {m : List (String × Ipld)} (h : EntriesWf m) {k : String} {v : Ipld}
    (hk : (utf8 k).length < 2 ^ 64) (hv : v.Wf Ipld.CborInt) :
    EntriesWf (SortedAssoc.insert k v m) where
  sorted := SortedAssoc.sorted_insert k v h.sorted
  keys e he := by
    rcases SortedAssoc.mem_insert he with rfl | he
    · exact hk
    · exact h.keys e he
  values e he := by
    rcases SortedAssoc.mem_insert he with rfl | he
    · exact hv
    · exact h.values e he

theorem decodeEntries_wf {decode : List UInt8 → Except Error (Ipld × List UInt8)}
    (hd : DecodesWf decode) :
    ∀ (n : Nat) {input rest : List UInt8} {m entries : List (String × Ipld)}, EntriesWf m →
      decodeEntries decode n input m = .ok (entries, rest) →
      EntriesWf entries ∧ entries.length ≤ m.length + n
  | 0, input, rest, m, entries, hm, h => by
    cases h
    exact ⟨hm, le_rfl⟩
  | n + 1, input, rest, m, entries, hm, h => by
    obtain ⟨⟨key, mid⟩, hkey, hrest⟩ := bind_eq_ok.mp h
    have hkeywf := hd hkey
    dsimp only at hrest
    split at hrest
    · next s =>
      cases hkeywf with
      | string _ hs =>
        obtain ⟨⟨value, tail⟩, hvalue, htail⟩ := bind_eq_ok.mp hrest
        obtain ⟨hwf, hlen⟩ := decodeEntries_wf hd n (hm.insert hs (hd hvalue)) htail
        have hinsert := SortedAssoc.length_insert_le s value m
        exact ⟨hwf, by omega⟩
    · cases hrest

theorem decodeSimple_wf {info : Nat} {input rest : List UInt8} {v : Ipld}
    (h : decodeSimple info input = .ok (v, rest)) : v.Wf Ipld.CborInt := by
  unfold decodeSimple at h
  split at h
  · cases h; exact .bool _
  · cases h; exact .bool _
  · cases h; exact .null
  · obtain ⟨⟨b, tail⟩, _, h⟩ := bind_eq_ok.mp h
    cases h; exact .float _
  · obtain ⟨⟨b, tail⟩, _, h⟩ := bind_eq_ok.mp h
    cases h; exact .float _
  · obtain ⟨⟨b, tail⟩, _, h⟩ := bind_eq_ok.mp h
    cases h; exact .float _
  · cases h

section

variable [CidCrate]

theorem decodeLink_wf {content v : Ipld} (h : decodeLink content = .ok v) : v.Wf Ipld.CborInt := by
  unfold decodeLink at h
  split at h
  · dsimp only at h
    split at h
    · cases h; exact .link _
    · cases h
  · cases h

theorem decodeMajor_wf {decode : List UInt8 → Except Error (Ipld × List UInt8)}
    (hd : DecodesWf decode) {majorType info : Nat} {input rest : List UInt8} {v : Ipld}
    (h : decodeMajor decode majorType info input = .ok (v, rest)) : v.Wf Ipld.CborInt := by
  unfold decodeMajor at h
  split at h
  · obtain ⟨⟨n, tail⟩, huint, h⟩ := bind_eq_ok.mp h
    cases h
    have hn := decodeCborUint_lt huint
    exact .integer _ (by unfold Ipld.CborInt; omega)
  · obtain ⟨⟨n, tail⟩, huint, h⟩ := bind_eq_ok.mp h
    cases h
    have hn := decodeCborUint_lt huint
    exact .integer _ (by unfold Ipld.CborInt; omega)
  · obtain ⟨⟨n, tail⟩, huint, h⟩ := bind_eq_ok.mp h
    obtain ⟨⟨b, tail'⟩, hread, h⟩ := bind_eq_ok.mp h
    cases h
    exact .bytes _ ((readExact_eq_ok hread).2 ▸ decodeCborUint_lt huint)
  · obtain ⟨⟨n, tail⟩, huint, h⟩ := bind_eq_ok.mp h
    obtain ⟨⟨b, tail'⟩, hread, h⟩ := bind_eq_ok.mp h
    dsimp only at h
    split at h
    · next s hs =>
      cases h
      refine .string _ ?_
      rw [utf8_of_ofUtf8? hs]
      exact (readExact_eq_ok hread).2 ▸ decodeCborUint_lt huint
    · cases h
  · obtain ⟨⟨n, tail⟩, huint, h⟩ := bind_eq_ok.mp h
    obtain ⟨⟨items, tail'⟩, hitems, h⟩ := bind_eq_ok.mp h
    cases h
    obtain ⟨rfl, hall⟩ := decodeItems_wf hd n hitems
    exact .list _ (decodeCborUint_lt huint) hall
  · obtain ⟨⟨n, tail⟩, huint, h⟩ := bind_eq_ok.mp h
    obtain ⟨⟨entries, tail'⟩, hentries, h⟩ := bind_eq_ok.mp h
    cases h
    have hn := decodeCborUint_lt huint
    obtain ⟨hwf, hlen⟩ := decodeEntries_wf hd n
      ⟨SortedAssoc.sorted_nil, fun e he => by simp at he, fun e he => by simp at he⟩ hentries
    simp only [List.length_nil, Nat.zero_add] at hlen
    exact .map _ (Nat.lt_of_le_of_lt hlen hn) hwf.sorted hwf.keys hwf.values
  · obtain ⟨⟨tag, tail⟩, huint, h⟩ := bind_eq_ok.mp h
    obtain ⟨⟨content, tail'⟩, hcontent, h⟩ := bind_eq_ok.mp h
    dsimp only at h
    split at h
    · obtain ⟨w, hw, h⟩ := bind_eq_ok.mp h
      cases h
      exact decodeLink_wf hw
    · cases h
      exact hd hcontent
  · exact decodeSimple_wf h
  · cases h

/-- Whatever the decoder returns, the encoder represents. -/
theorem decodeDagCbor_wf : ∀ fuel : Nat, DecodesWf (decodeDagCbor fuel)
  | 0, _, _, _, h => by cases h
  | _ + 1, [], _, _, h => by cases h
  | fuel + 1, _ :: _, _, _, h => decodeMajor_wf (decodeDagCbor_wf fuel) h

theorem fromDagCbor_wf {b : List UInt8} {v : Ipld} (h : Ipld.fromDagCbor b = .ok v) :
    v.Wf Ipld.CborInt := by
  obtain ⟨⟨w, rest⟩, hrun, h⟩ := bind_eq_ok.mp h
  cases h
  exact decodeDagCbor_wf _ hrun

/-- The strict inputs are exactly the encodings. -/
theorem isStrict_iff [CidCrate.Lawful] (b : List UInt8) :
    IsStrict b ↔ ∃ v, v.Wf Ipld.CborInt ∧ b = cborBytes v := by
  constructor
  · rintro ⟨v, h⟩
    obtain ⟨hb, hwf⟩ := strictDagCbor_sound b.length h
    exact ⟨v, hwf, by rw [hb, List.append_nil]⟩
  · rintro ⟨v, hwf, rfl⟩
    have h := strictDagCbor_cborBytes hwf (cborBytes v).length [] (by simp)
    rw [List.append_nil] at h
    exact ⟨v, h⟩

end

/-- **What decoding promises about the bytes.** An accepted input decodes to a value
the encoder represents, whose encoding is accepted, is strict and decodes to the
same value; the input is that encoding exactly when it is strict. -/
theorem fromDagCbor_canonical [CidCrate] [CidCrate.Lawful] (b : List UInt8) (v : Ipld)
    (h : Ipld.fromDagCbor b = .ok v) :
    ∃ c, v.toDagCbor = .ok c ∧ IsStrict c ∧ Ipld.fromDagCbor c = .ok v ∧ (c = b ↔ IsStrict b) := by
  have hwf := fromDagCbor_wf h
  have hstrict : IsStrict (cborBytes v) := (isStrict_iff _).mpr ⟨v, hwf, rfl⟩
  refine ⟨cborBytes v, toDagCbor_eq v, hstrict, fromDagCbor_cborBytes hwf, ?_, ?_⟩
  · rintro rfl
    exact hstrict
  · intro hb
    obtain ⟨w, hw, rfl⟩ := (isStrict_iff b).mp hb
    rw [fromDagCbor_cborBytes hw] at h
    rw [Except.ok.inj h]

open scoped CidFormat in
/-- A 32-bit float is read and written back as a 64-bit one. -/
theorem fromDagCbor_canonical_short_float :
    ∃ c, (Ipld.float 0x3ff8000000000000).toDagCbor = .ok c ∧ IsStrict c ∧
      Ipld.fromDagCbor c = .ok (.float 0x3ff8000000000000) ∧
      (c = [0xfa, 0x3f, 0xc0, 0x00, 0x00] ↔ IsStrict [0xfa, 0x3f, 0xc0, 0x00, 0x00]) :=
  fromDagCbor_canonical [0xfa, 0x3f, 0xc0, 0x00, 0x00] (.float 0x3ff8000000000000) rfl

open scoped CidFormat in
/-- `f6 00` is accepted as `null`, with a byte left over, and re-encodes to `f6`. -/
theorem fromDagCbor_not_strict :
    ¬ ∀ (b : List UInt8) (v : Ipld), Ipld.fromDagCbor b = .ok v → v.toDagCbor = .ok b := by
  intro h
  have hbytes := h [0xf6, 0x00] .null rfl
  rw [toDagCbor_eq] at hbytes
  exact absurd (Except.ok.inj hbytes) (by decide)

end Ipfrs.Core
