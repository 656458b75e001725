/-
Ipfrs.Core.DagCborStrict — the bytes of a value, and the strict decoder that
reads exactly those.

`cborBytes` is the byte string the encoder appends, without the buffer
(`encodeDagCbor_eq`). `strictDagCbor` is the decoder's abstract counterpart, what
the codec's specification asks for: shortest heads only, no tag but 42 and that
one around a canonical CID, 64-bit floats, map keys strictly increasing. The two
are inverse to each other: on `cborBytes v` followed by any suffix the strict
decoder returns `v` and the suffix (`strictDagCbor_cborBytes`), and whatever it
reads is `cborBytes` of what it returns (`strictDagCbor_sound`).
-/
import Ipfrs.Core.DagCbor

namespace Ipfrs.Core

open Ipfrs.Lib

/-! ## Heads -/

/-- The bytes `encode_cbor_length` appends. -/
def cborHead (majorType : UInt8) (length : Nat) : List UInt8 :=
  encodeCborLength majorType length []

theorem encodeCborLength_eq (majorType : UInt8) (length : Nat) (buffer : List UInt8) :
    encodeCborLength majorType length buffer = buffer ++ cborHead majorType length := by
  unfold cborHead encodeCborLength
  split
  · rfl
  · split
    · rfl
    · split
      · rfl
      · split <;> rfl

theorem cborHead_ne_nil (majorType : UInt8) (length : Nat) : cborHead majorType length ≠ [] := by
  unfold cborHead encodeCborLength
  split
  · simp
  · split
    · simp
    · split
      · simp
      · split <;> simp

/-- A first byte built from a major type and five low bits splits back. -/
theorem head_bits : ∀ (m : Fin 8) (k : Fin 32),
    (((UInt8.ofNat m) <<< 5 ||| UInt8.ofNat k) >>> 5).toNat = m ∧
      (((UInt8.ofNat m) <<< 5 ||| UInt8.ofNat k) &&& 0x1f).toNat = k := by
  decide

variable {n : Nat} {input rest : List UInt8}

theorem readExact_append (what : String) (b s : List UInt8) (h : b.length = n) :
    readExact what n (b ++ s) = .ok (b, s) := by
  subst h
  simp [readExact]

/-- The four wide heads: an additional info and the bytes it announces. -/
def wideHeads : List (Nat × Nat) := [(24, 1), (25, 2), (26, 4), (27, 8)]

theorem decodeCborUint_wide {k w : Nat} (hkw : (k, w) ∈ wideHeads) (hn : n < 256 ^ w)
    (s : List UInt8) : decodeCborUint k (beBytes w n ++ s) = .ok (n, s) := by
  have hread : ∀ what, readExact what w (beBytes w n ++ s) = .ok (beBytes w n, s) :=
    fun what => readExact_append what _ s (length_beBytes w n)
  have hval : beNat (beBytes w n) = n := beNat_beBytes_of_lt hn
  simp only [wideHeads, List.mem_cons, Prod.mk.injEq, List.not_mem_nil, or_false] at hkw
  rcases hkw with ⟨rfl, rfl⟩ | ⟨rfl, rfl⟩ | ⟨rfl, rfl⟩ | ⟨rfl, rfl⟩ <;>
    simp [decodeCborUint, hread, hval]

/-- The additional info of the shortest head. -/
def shortestInfo (n : Nat) : Nat :=
  if n < 24 then n
  else if n < 256 then 24
  else if n < 65536 then 25
  else if n < 4294967296 then 26
  else 27

/-- A head is its first byte alone, or a first byte and the length in the number
of bytes it announces. -/
theorem cborHead_cases (majorType : UInt8) (hn : n < 2 ^ 64) :
    (n < 24 ∧ shortestInfo n = n ∧
      cborHead majorType n = [majorType <<< 5 ||| UInt8.ofNat (shortestInfo n)]) ∨
    ∃ w, (shortestInfo n, w) ∈ wideHeads ∧ n < 256 ^ w ∧ cborHead majorType n
        = (majorType <<< 5 ||| UInt8.ofNat (shortestInfo n)) :: beBytes w n := by
  unfold cborHead encodeCborLength shortestInfo
  by_cases h24 : n < 24
  · simp [h24]
  · refine .inr ?_
    simp only [h24, if_false]
    by_cases h8 : n < 256
    · refine ⟨1, by simp [h8, wideHeads], h8, ?_⟩
      simp [h8, beBytes, leBytes, Nat.mod_eq_of_lt h8]
    · simp only [h8, if_false]
      by_cases h16 : n < 65536
      · exact ⟨2, by simp [h16, wideHeads], h16, by simp [h16]⟩
      · simp only [h16, if_false]
        by_cases h32 : n < 4294967296
        · exact ⟨4, by simp [h32, wideHeads], h32, by simp [h32]⟩
        · exact ⟨8, by simp [h32, wideHeads], hn, by simp [h32]⟩

theorem shortestInfo_lt (n : Nat) : shortestInfo n < 32 := by
  unfold shortestInfo
  split
  · omega
  · split
    · omega
    · split
      · omega
      · split <;> omega

/-- The decoder reads a head back: its first byte carries the major type and the
shortest additional info, and `decode_cbor_uint` recovers the length and leaves
what follows. -/
theorem decodeHead {m : Nat} (hm : m < 8) (hn : n < 2 ^ 64) :
    ∃ b t, cborHead (UInt8.ofNat m) n = b :: t ∧ (b >>> 5).toNat = m ∧
      (b &&& 0x1f).toNat = shortestInfo n ∧
      ∀ s, decodeCborUint (shortestInfo n) (t ++ s) = .ok (n, s) := by
  obtain ⟨hmajor, hinfo⟩ := head_bits ⟨m, hm⟩ ⟨shortestInfo n, shortestInfo_lt n⟩
  rcases cborHead_cases (UInt8.ofNat m) hn with ⟨hlt, hshort, hhead⟩ | ⟨w, hw, hlt, hhead⟩
  · refine ⟨_, [], hhead, hmajor, hinfo, fun s => ?_⟩
    simp [hshort, decodeCborUint, show n ≤ 23 by omega]
  · exact ⟨_, _, hhead, hmajor, hinfo, fun s => decodeCborUint_wide hw hlt s⟩

/-! ## The bytes of a value -/

/-- The 64 bits of an integer's magnitude that its head keeps, with the major
type that carries its sign. -/
def intHead (i : Int) : List UInt8 :=
  if i ≥ 0 then cborHead 0 (asU64 i.toNat) else cborHead 1 (asU64 (-1 - i).toNat)

def textBytes (s : String) : List UInt8 := cborHead 3 (asU64 (utf8 s).length) ++ utf8 s

theorem encodeCborInteger_eq (i : Int) (buffer : List UInt8) :
    encodeCborInteger i buffer = .ok (buffer ++ intHead i) := by
  unfold encodeCborInteger intHead
  split
  · rw [encodeCborLength_eq]
  · rw [encodeCborLength_eq]

theorem asU64_of_lt (h : n < 2 ^ 64) : asU64 n = n := Nat.mod_eq_of_lt h

theorem asU64_lt (n : Nat) : asU64 n < 2 ^ 64 := Nat.mod_lt _ (by decide)

section

variable [CidCrate]

mutual

/-- The bytes `encode_dag_cbor` appends for a value. -/
def cborBytes : Ipld → List UInt8
  | .null => [0xf6]
  | .bool b => [if b then 0xf5 else 0xf4]
  | .integer i => intHead i
  | .float f => 0xfb :: beBytes 8 f.toNat
  | .string s => textBytes s
  | .bytes b => cborHead 2 (asU64 b.length) ++ b
  | .list items => cborHead 4 (asU64 items.length) ++ cborItems items
  | .map entries => cborHead 5 (asU64 entries.length) ++ cborEntries entries
  | .link c =>
    cborHead 6 cidTag ++ (cborHead 2 (asU64 (0x00 :: CidCrate.toBytes c).length)
      ++ 0x00 :: CidCrate.toBytes c)

def cborItems : List Ipld → List UInt8
  | [] => []
  | item :: rest => cborBytes item ++ cborItems rest

def cborEntries : List (String × Ipld) → List UInt8
  | [] => []
  | (key, value) :: rest => textBytes key ++ (cborBytes value ++ cborEntries rest)

end

mutual

/-- The encoder never fails and appends exactly `cborBytes`. -/
theorem encodeDagCbor_eq : ∀ (v : Ipld) (buffer : List UInt8),
    encodeDagCbor v buffer = .ok (buffer ++ cborBytes v)
  | .null, buffer => by simp [encodeDagCbor, cborBytes]
  | .bool b, buffer => by simp [encodeDagCbor, cborBytes]
  | .integer i, buffer => by rw [encodeDagCbor, cborBytes, encodeCborInteger_eq]
  | .float f, buffer => by simp [encodeDagCbor, cborBytes]
  | .string s, buffer => by
    simp [encodeDagCbor, cborBytes, textBytes, encodeCborLength_eq _ _ buffer]
  | .bytes b, buffer => by
    simp [encodeDagCbor, cborBytes, encodeCborLength_eq _ _ buffer]
  | .list items, buffer => by
    rw [encodeDagCbor, cborBytes, encodeItems_eq items, encodeCborLength_eq _ _ buffer,
      List.append_assoc]
  | .map entries, buffer => by
    rw [encodeDagCbor, cborBytes, encodeEntries_eq entries, encodeCborLength_eq _ _ buffer,
      List.append_assoc]
  | .link c, buffer => by
    rw [encodeDagCbor, cborBytes, encodeCborTag, encodeCborLength_eq 2,
      encodeCborLength_eq 6 cidTag buffer]
    simp

theorem encodeItems_eq : ∀ (items : List Ipld) (buffer : List UInt8),
    encodeItems items buffer = .ok (buffer ++ cborItems items)
  | [], buffer => by simp [encodeItems, cborItems]
  | item :: rest, buffer => by
    rw [encodeItems, encodeDagCbor_eq item, ok_bind, encodeItems_eq rest, cborItems,
      List.append_assoc]

theorem encodeEntries_eq : ∀ (entries : List (String × Ipld)) (buffer : List UInt8),
    encodeEntries entries buffer = .ok (buffer ++ cborEntries entries)
  | [], buffer => by simp [encodeEntries, cborEntries]
  | (key, value) :: rest, buffer => by
    rw [encodeEntries, encodeDagCbor_eq value, ok_bind, encodeEntries_eq rest,
      cborEntries, encodeCborLength_eq _ _ buffer]
    simp [textBytes]

end

/-- `to_dag_cbor` is total. -/
theorem toDagCbor_eq (v : Ipld) : v.toDagCbor = .ok (cborBytes v) := by
  simp [Ipld.toDagCbor, encodeDagCbor_eq]

/-- Every value takes at least one byte. -/
theorem cborBytes_ne_nil (v : Ipld) : cborBytes v ≠ [] := by
  cases v with
  | integer i =>
    rw [cborBytes, intHead]
    split <;> exact cborHead_ne_nil _ _
  | _ => simp [cborBytes, textBytes, cborHead_ne_nil]

theorem length_le_cborItems (items : List Ipld) : items.length ≤ (cborItems items).length := by
  induction items with
  | nil => simp
  | cons v rest ih =>
    have hv : 0 < (cborBytes v).length := List.length_pos_of_ne_nil (cborBytes_ne_nil v)
    simp only [cborItems, List.length_cons, List.length_append]
    omega

theorem length_le_cborEntries (entries : List (String × Ipld)) :
    entries.length ≤ (cborEntries entries).length := by
  induction entries with
  | nil => simp
  | cons e rest ih =>
    have hv : 0 < (cborBytes e.2).length :=
      List.length_pos_of_ne_nil (cborBytes_ne_nil e.2)
    simp only [cborEntries, List.length_cons, List.length_append]
    omega

theorem length_cborBytes_le_items {v : Ipld} {items : List Ipld} (h : v ∈ items) :
    (cborBytes v).length ≤ (cborItems items).length := by
  induction items with
  | nil => cases h
  | cons w rest ih =>
    simp only [cborItems, List.length_append]
    rcases List.mem_cons.mp h with rfl | h
    · omega
    · have := ih h
      omega

theorem length_le_entries {e : String × Ipld} {entries : List (String × Ipld)} (h : e ∈ entries) :
    (utf8 e.1).length ≤ (cborEntries entries).length ∧
      (cborBytes e.2).length ≤ (cborEntries entries).length := by
  induction entries with
  | nil => cases h
  | cons w rest ih =>
    simp only [cborEntries, textBytes, List.length_append]
    rcases List.mem_cons.mp h with rfl | h
    · omega
    · obtain ⟨hk, hv⟩ := ih h
      omega

/-- A value whose encoding fits in memory has lengths that fit a `usize`: every
part is written out in full. -/
theorem Ipld.Shaped.wf {p : Int → Prop} {v : Ipld} (h : v.Shaped p)
    (hlen : (cborBytes v).length < 2 ^ 64) : v.Wf p := by
  induction h with
  | null => exact .null
  | bool b => exact .bool b
  | integer i hi => exact .integer i hi
  | float f => exact .float f
  | link c => exact .link c
  | string s =>
    simp only [cborBytes, textBytes, List.length_append] at hlen
    exact .string s (by omega)
  | bytes b =>
    simp only [cborBytes, List.length_append] at hlen
    exact .bytes b (by omega)
  | list l _ ih =>
    simp only [cborBytes, List.length_append] at hlen
    have hcount := length_le_cborItems l
    refine .list l (by omega) (fun v hv => ih v hv ?_)
    have := length_cborBytes_le_items hv
    omega
  | map m sorted _ ih =>
    simp only [cborBytes, List.length_append] at hlen
    have hcount := length_le_cborEntries m
    refine .map m (by omega) sorted (fun e he => ?_) (fun e he => ih e he ?_)
    · have := (length_le_entries he).1
      omega
    · have := (length_le_entries he).2
      omega

end

/-! ## The strict decoder -/

/-- A head value in its shortest form. -/
def strictUint (info : Nat) (input : List UInt8) : Option (Nat × List UInt8) :=
  match decodeCborUint info input with
  | .ok (n, rest) => if shortestInfo n = info then some (n, rest) else none
  | .error _ => none

/-- `n` bytes of payload. -/
def strictBytes (n : Nat) (input : List UInt8) : Option (List UInt8 × List UInt8) :=
  if n ≤ input.length then some (input.take n, input.drop n) else none

def strictItems (strict : List UInt8 → Option (Ipld × List UInt8)) :
    Nat → List UInt8 → Option (List Ipld × List UInt8)
  | 0, input => some ([], input)
  | n + 1, input => do
      let (item, input) ← strict input
      let (items, input) ← strictItems strict n input
      some (item :: items, input)

/-- Entries whose keys increase strictly past those already read. -/
def strictEntries (strict : List UInt8 → Option (Ipld × List UInt8)) :
    Nat → List UInt8 → List (String × Ipld) → Option (List (String × Ipld) × List UInt8)
  | 0, input, read => some (read, input)
  | n + 1, input, read => do
      let (key, input) ← strict input
      match key with
      | .string s =>
        if read.all (fun e => e.1 < s) then do
          let (value, input) ← strict input
          strictEntries strict n input (read ++ [(s, value)])
        else none
      | _ => none

/-- The simple values, and floats in their 64-bit form only. -/
def strictSimple (info : Nat) (input : List UInt8) : Option (Ipld × List UInt8) :=
  match info with
  | 20 => some (.bool false, input)
  | 21 => some (.bool true, input)
  | 22 => some (.null, input)
  | 27 => do
      let (b, input) ← strictBytes 8 input
      some (.float (UInt64.ofNat (beNat b)), input)
  | _ => none

section

variable [CidCrate]

/-- The identity byte and the bytes a CID is written in. -/
def strictLink : Ipld → Option Ipld
  | .bytes (0x00 :: b) =>
    match CidCrate.tryFrom b with
    | .ok c => if CidCrate.toBytes c = b then some (.link c) else none
    | .error _ => none
  | _ => none

def strictMajor (strict : List UInt8 → Option (Ipld × List UInt8)) (majorType info : Nat)
    (input : List UInt8) : Option (Ipld × List UInt8) :=
  match majorType with
  | 0 => do
      let (n, input) ← strictUint info input
      some (.integer n, input)
  | 1 => do
      let (n, input) ← strictUint info input
      some (.integer (-1 - n), input)
  | 2 => do
      let (n, input) ← strictUint info input
      let (b, input) ← strictBytes n input
      some (.bytes b, input)
  | 3 => do
      let (n, input) ← strictUint info input
      let (b, input) ← strictBytes n input
      let s ← ofUtf8? b
      some (.string s, input)
  | 4 => do
      let (n, input) ← strictUint info input
      let (items, input) ← strictItems strict n input
      some (.list items, input)
  | 5 => do
      let (n, input) ← strictUint info input
      let (entries, input) ← strictEntries strict n input []
      some (.map entries, input)
  | 6 => do
      let (tag, input) ← strictUint info input
      let (content, input) ← strict input
      if tag = cidTag then
        let v ← strictLink content
        some (v, input)
      else none
  | 7 => strictSimple info input
  | _ => none

/-- A strict DAG-CBOR decoder: what the codec's specification accepts. -/
def strictDagCbor : Nat → List UInt8 → Option (Ipld × List UInt8)
  | 0, _ => none
  | _ + 1, [] => none
  | fuel + 1, b :: input =>
    strictMajor (strictDagCbor fuel) (b >>> 5).toNat (b &&& 0x1f).toNat input

/-- The whole input is one strict item. -/
def IsStrict (input : List UInt8) : Prop :=
  ∃ v, strictDagCbor input.length input = some (v, [])

end

/-! ### A strict input is an encoding -/

theorem byte_split (b : UInt8) : ((b >>> 5) <<< 5) ||| (b &&& 0x1f) = b := by
  have h : ∀ k : Fin 256, ((UInt8.ofNat k >>> 5) <<< 5) ||| (UInt8.ofNat k &&& 0x1f)
      = UInt8.ofNat k := by decide +kernel
  simpa using h ⟨b.toNat, b.toNat_lt⟩

theorem readExact_eq_ok {what : String} {b : List UInt8}
    (h : readExact what n input = .ok (b, rest)) : input = b ++ rest ∧ b.length = n := by
  unfold readExact at h
  split at h
  · next hn =>
    cases h
    exact ⟨(List.take_append_drop n input).symm, List.length_take_of_le hn⟩
  · cases h

theorem strictBytes_eq_some {b : List UInt8} (h : strictBytes n input = some (b, rest)) :
    input = b ++ rest ∧ b.length = n := by
  unfold strictBytes at h
  split at h
  · next hn =>
    cases h
    exact ⟨(List.take_append_drop n input).symm, List.length_take_of_le hn⟩
  · cases h

/-- `decode_cbor_uint` reads the info itself or the big-endian bytes it announces. -/
theorem decodeCborUint_eq_ok {info : Nat} (h : decodeCborUint info input = .ok (n, rest)) :
    (info ≤ 23 ∧ n = info ∧ rest = input) ∨
      ∃ w, (info, w) ∈ wideHeads ∧ n < 256 ^ w ∧ input = beBytes w n ++ rest := by
  have wide : ∀ (what : String) (w : Nat), (do
      let (buf, input) ← readExact what w input
      Except.ok (beNat buf, input)) = .ok (n, rest) →
      n < 256 ^ w ∧ input = beBytes w n ++ rest := by
    intro what w hw
    obtain ⟨⟨buf, tail⟩, hread, hok⟩ := bind_eq_ok.mp hw
    obtain ⟨hinput, hlen⟩ := readExact_eq_ok hread
    cases hok
    subst hlen
    exact ⟨beNat_lt buf, by rw [beBytes_beNat, hinput]⟩
  unfold decodeCborUint at h
  split at h
  · next hle => cases h; exact .inl ⟨hle, rfl, rfl⟩
  · refine .inr ?_
    split at h
    · exact ⟨1, by simp [wideHeads], wide _ _ h⟩
    · exact ⟨2, by simp [wideHeads], wide _ _ h⟩
    · exact ⟨4, by simp [wideHeads], wide _ _ h⟩
    · exact ⟨8, by simp [wideHeads], wide _ _ h⟩
    · cases h

theorem wideHeads_unique : ∀ {k w w' : Nat}, (k, w) ∈ wideHeads → (k, w') ∈ wideHeads → w = w' := by
  intro k w w' h h'
  simp only [wideHeads, List.mem_cons, Prod.mk.injEq, List.not_mem_nil, or_false] at h h'
  omega

theorem wideHeads_info {k w : Nat} (h : (k, w) ∈ wideHeads) : 24 ≤ k ∧ w ≤ 8 := by
  simp only [wideHeads, List.mem_cons, Prod.mk.injEq, List.not_mem_nil, or_false] at h
  omega

/-- A strict head is the one the encoder writes. -/
theorem strictUint_eq_some {b : UInt8} (h : strictUint (b &&& 0x1f).toNat input = some (n, rest)) :
    b :: input = cborHead (b >>> 5) n ++ rest ∧ n < 2 ^ 64 := by
  unfold strictUint at h
  split at h
  · next n' rest' hdec =>
    split at h
    · next hinfo =>
      cases h
      have hb : ((b >>> 5) <<< 5) ||| UInt8.ofNat (shortestInfo n) = b := by
        rw [hinfo, UInt8.ofNat_toNat, byte_split]
      rw [← hinfo] at hdec
      rcases decodeCborUint_eq_ok hdec with ⟨hle, hn, rfl⟩ | ⟨w, hw, hlt, rfl⟩
      · have hn64 : n < 2 ^ 64 := by omega
        rcases cborHead_cases (b >>> 5) hn64 with ⟨_, _, hhead⟩ | ⟨w, hw, _, _⟩
        · rw [hhead, hb]
          exact ⟨rfl, hn64⟩
        · have := (wideHeads_info hw).1
          omega
      · have hn64 : n < 2 ^ 64 :=
          Nat.lt_of_lt_of_le hlt (Nat.pow_le_pow_right (by decide) (wideHeads_info hw).2)
        rcases cborHead_cases (b >>> 5) hn64 with ⟨_, hshort, _⟩ | ⟨w', hw', _, hhead⟩
        · have := (wideHeads_info hw).1
          omega
        · rw [hhead, hb, wideHeads_unique hw' hw]
          exact ⟨rfl, hn64⟩
    · cases h
  · cases h

/-- The same with the major type the decoder branches on. -/
theorem strictUint_of_major {b : UInt8} {m : Nat} (hm : (b >>> 5).toNat = m)
    (h : strictUint (b &&& 0x1f).toNat input = some (n, rest)) :
    b :: input = cborHead (UInt8.ofNat m) n ++ rest ∧ n < 2 ^ 64 := by
  have hmajor : b >>> 5 = UInt8.ofNat m := by
    rw [← hm, UInt8.ofNat_toNat]
  rw [← hmajor]
  exact strictUint_eq_some h

section

variable [CidCrate]

/-- What it means for a strict decoder to read only encodings. -/
def StrictSound (strict : List UInt8 → Option (Ipld × List UInt8)) : Prop :=
  ∀ {input v rest}, strict input = some (v, rest) →
    input = cborBytes v ++ rest ∧ v.Wf Ipld.CborInt

variable {strict : List UInt8 → Option (Ipld × List UInt8)}

theorem strictItems_sound (hs : StrictSound strict) :
    ∀ (n : Nat) {input rest : List UInt8} {items : List Ipld},
      strictItems strict n input = some (items, rest) →
      input = cborItems items ++ rest ∧ items.length = n ∧ ∀ v ∈ items, v.Wf Ipld.CborInt
  | 0, input, rest, items, h => by
    cases h
    simp [cborItems]
  | n + 1, input, rest, items, h => by
    obtain ⟨⟨item, mid⟩, hitem, h⟩ := Option.bind_eq_some_iff.mp h
    obtain ⟨⟨tail, end'⟩, htail, h⟩ := Option.bind_eq_some_iff.mp h
    cases h
    obtain ⟨rfl, hwf⟩ := hs hitem
    obtain ⟨rfl, hlen, hall⟩ := strictItems_sound hs n htail
    refine ⟨by simp [cborItems], by simp [hlen], fun v hv => ?_⟩
    rcases List.mem_cons.mp hv with rfl | hv
    · exact hwf
    · exact hall v hv

theorem strictEntries_sound (hs : StrictSound strict) :
    ∀ (n : Nat) {input rest : List UInt8} {read entries : List (String × Ipld)},
      SortedAssoc.Sorted read →
      strictEntries strict n input read = some (entries, rest) →
      ∃ new, entries = read ++ new ∧ input = cborEntries new ++ rest ∧ new.length = n ∧
        SortedAssoc.Sorted entries ∧
        ∀ e ∈ new, (utf8 e.1).length < 2 ^ 64 ∧ e.2.Wf Ipld.CborInt
  | 0, input, rest, read, entries, hsort, h => by
    cases h
    exact ⟨[], by simp [cborEntries, hsort]⟩
  | n + 1, input, rest, read, entries, hsort, h => by
    obtain ⟨⟨key, mid⟩, hkey, hrest⟩ := Option.bind_eq_some_iff.mp h
    obtain ⟨rfl, hkeywf⟩ := hs hkey
    cases hkeywf with
    | string str hstr =>
      dsimp only at hrest
      split at hrest
      · next habove =>
        obtain ⟨⟨value, tail⟩, hvalue, htail⟩ := Option.bind_eq_some_iff.mp hrest
        obtain ⟨rfl, hvaluewf⟩ := hs hvalue
        have hsort' : SortedAssoc.Sorted (read ++ [(str, value)]) := by
          refine List.pairwise_append.mpr ⟨hsort, List.pairwise_singleton _ _, ?_⟩
          intro a ha b hb
          rw [List.mem_singleton.mp hb]
          simpa using List.all_eq_true.mp habove a ha
        obtain ⟨new, rfl, rfl, hlen, hsorted, hall⟩ := strictEntries_sound hs n hsort' htail
        refine ⟨(str, value) :: new, by simp, by simp [cborEntries, cborBytes],
          by simp [hlen], hsorted, fun e he => ?_⟩
        rcases List.mem_cons.mp he with rfl | he
        · exact ⟨hstr, hvaluewf⟩
        · exact hall e he
      · cases hrest
    | _ => cases hrest

/-- A strict link is the identity byte and the bytes the CID is written in. -/
theorem strictLink_sound {content v : Ipld} (h : strictLink content = some v) :
    ∃ c, v = .link c ∧ content = .bytes (0x00 :: CidCrate.toBytes c) := by
  unfold strictLink at h
  split at h
  · next b =>
    split at h
    · next c _ =>
      split at h
      · next hb =>
        cases h
        exact ⟨c, rfl, by rw [hb]⟩
      · cases h
    · cases h
  · cases h

/-- Major type 7: the four values the encoder writes. -/
theorem strictSimple_sound {b : UInt8} (hb : (b >>> 5).toNat = 7) {input rest : List UInt8}
    {v : Ipld} (h : strictSimple (b &&& 0x1f).toNat input = some (v, rest)) :
    b :: input = cborBytes v ++ rest ∧ v.Wf Ipld.CborInt := by
  have hbyte : b = ((7 : UInt8) <<< 5) ||| UInt8.ofNat (b &&& 0x1f).toNat := by
    have h7 : b >>> 5 = 7 := UInt8.toNat_inj.mp hb
    rw [UInt8.ofNat_toNat, ← h7, byte_split]
  unfold strictSimple at h
  split at h
  · next hinfo => cases h; rw [hbyte, hinfo]; exact ⟨rfl, .bool _⟩
  · next hinfo => cases h; rw [hbyte, hinfo]; exact ⟨rfl, .bool _⟩
  · next hinfo => cases h; rw [hbyte, hinfo]; exact ⟨rfl, .null⟩
  · next hinfo =>
    obtain ⟨⟨buf, tail⟩, hbuf, h⟩ := Option.bind_eq_some_iff.mp h
    cases h
    obtain ⟨rfl, hlen⟩ := strictBytes_eq_some hbuf
    have hbits : (UInt64.ofNat (beNat buf)).toNat = beNat buf := by
      have hlt := beNat_lt buf
      rw [hlen] at hlt
      exact UInt64.toNat_ofNat_of_lt' hlt
    refine ⟨?_, .float _⟩
    rw [cborBytes, hbits, ← hlen, beBytes_beNat, hbyte, hinfo]
    rfl
  · cases h

theorem strictMajor_sound (hs : StrictSound strict) {b : UInt8} {input rest : List UInt8}
    {v : Ipld} (h : strictMajor strict (b >>> 5).toNat (b &&& 0x1f).toNat input = some (v, rest)) :
    b :: input = cborBytes v ++ rest ∧ v.Wf Ipld.CborInt := by
  unfold strictMajor at h
  split at h
  · next hm =>
    obtain ⟨⟨n, tail⟩, huint, h⟩ := Option.bind_eq_some_iff.mp h
    cases h
    obtain ⟨hhead, hn⟩ := strictUint_of_major hm huint
    refine ⟨?_, .integer _ (by unfold Ipld.CborInt; omega)⟩
    rw [hhead, cborBytes, intHead, if_pos (by omega), Int.toNat_natCast, asU64_of_lt hn]
    rfl
  · next hm =>
    obtain ⟨⟨n, tail⟩, huint, h⟩ := Option.bind_eq_some_iff.mp h
    cases h
    obtain ⟨hhead, hn⟩ := strictUint_of_major hm huint
    refine ⟨?_, .integer _ (by unfold Ipld.CborInt; omega)⟩
    have hval : (-1 - (-1 - (n : Int))).toNat = n := by omega
    rw [hhead, cborBytes, intHead, if_neg (by omega), hval, asU64_of_lt hn]
    rfl
  · next hm =>
    obtain ⟨⟨n, tail⟩, huint, h⟩ := Option.bind_eq_some_iff.mp h
    obtain ⟨⟨buf, tail'⟩, hbuf, h⟩ := Option.bind_eq_some_iff.mp h
    cases h
    obtain ⟨hhead, hn⟩ := strictUint_of_major hm huint
    obtain ⟨rfl, rfl⟩ := strictBytes_eq_some hbuf
    refine ⟨?_, .bytes _ hn⟩
    rw [hhead, cborBytes, asU64_of_lt hn, List.append_assoc]
    rfl
  · next hm =>
    obtain ⟨⟨n, tail⟩, huint, h⟩ := Option.bind_eq_some_iff.mp h
    obtain ⟨⟨buf, tail'⟩, hbuf, h⟩ := Option.bind_eq_some_iff.mp h
    obtain ⟨str, hstr, h⟩ := Option.bind_eq_some_iff.mp h
    cases h
    obtain ⟨hhead, hn⟩ := strictUint_of_major hm huint
    obtain ⟨rfl, rfl⟩ := strictBytes_eq_some hbuf
    have hutf8 : utf8 str = buf := utf8_of_ofUtf8? hstr
    rw [← hutf8] at hhead hn
    refine ⟨?_, .string _ hn⟩
    rw [hhead, cborBytes, textBytes, asU64_of_lt hn, List.append_assoc]
    rfl
  · next hm =>
    obtain ⟨⟨n, tail⟩, huint, h⟩ := Option.bind_eq_some_iff.mp h
    obtain ⟨⟨items, tail'⟩, hitems, h⟩ := Option.bind_eq_some_iff.mp h
    cases h
    obtain ⟨hhead, hn⟩ := strictUint_of_major hm huint
    obtain ⟨rfl, rfl, hwf⟩ := strictItems_sound hs n hitems
    refine ⟨?_, .list _ hn hwf⟩
    rw [hhead, cborBytes, asU64_of_lt hn, List.append_assoc]
    rfl
  · next hm =>
    obtain ⟨⟨n, tail⟩, huint, h⟩ := Option.bind_eq_some_iff.mp h
    obtain ⟨⟨entries, tail'⟩, hentries, h⟩ := Option.bind_eq_some_iff.mp h
    cases h
    obtain ⟨hhead, hn⟩ := strictUint_of_major hm huint
    obtain ⟨new, hnew, rfl, rfl, hsorted, hwf⟩ :=
      strictEntries_sound hs n SortedAssoc.sorted_nil hentries
    rw [List.nil_append] at hnew
    subst hnew
    refine ⟨?_, .map _ hn hsorted (fun e he => (hwf e he).1) (fun e he => (hwf e he).2)⟩
    rw [hhead, cborBytes, asU64_of_lt hn, List.append_assoc]
    rfl
  · next hm =>
    obtain ⟨⟨tag, tail⟩, huint, h⟩ := Option.bind_eq_some_iff.mp h
    obtain ⟨⟨content, tail'⟩, hcontent, h⟩ := Option.bind_eq_some_iff.mp h
    dsimp only at h
    split at h
    · next htag =>
      obtain ⟨w, hw, h⟩ := Option.bind_eq_some_iff.mp h
      cases h
      obtain ⟨c, rfl, rfl⟩ := strictLink_sound hw
      obtain ⟨hhead, _⟩ := strictUint_of_major hm huint
      obtain ⟨rfl, _⟩ := hs hcontent
      rw [htag] at hhead
      refine ⟨?_, .link c⟩
      rw [hhead, cborBytes, cborBytes, List.append_assoc, List.append_assoc,
        List.append_assoc]
      rfl
    · cases h
  · next hm => exact strictSimple_sound hm h
  · cases h

/-- **A strict decoder reads encodings only.** -/
theorem strictDagCbor_sound : ∀ fuel : Nat, StrictSound (strictDagCbor fuel)
  | 0, _, _, _, h => by cases h
  | _ + 1, [], _, _, h => by cases h
  | fuel + 1, _ :: _, _, _, h => strictMajor_sound (strictDagCbor_sound fuel) h

/-! ### An encoding is strict -/

omit [CidCrate] in
theorem strictBytes_append (b s : List UInt8) {n : Nat} (h : b.length = n) :
    strictBytes n (b ++ s) = some (b, s) := by
  subst h
  simp [strictBytes]

theorem strictItems_cborItems (s : List UInt8) :
    ∀ items : List Ipld,
      (∀ v ∈ items, ∀ t, (cborBytes v ++ t).length ≤ (cborItems items ++ s).length →
        strict (cborBytes v ++ t) = some (v, t)) →
      strictItems strict items.length (cborItems items ++ s) = some (items, s)
  | [], _ => by simp [strictItems, cborItems]
  | item :: rest, h => by
    have hitem := h item List.mem_cons_self (cborItems rest ++ s) (by simp [cborItems])
    have hrest : strictItems strict rest.length (cborItems rest ++ s) = some (rest, s) :=
      strictItems_cborItems s rest (fun v hv t ht =>
        h v (List.mem_cons_of_mem _ hv) t (by
          simp only [cborItems, List.length_append] at ht ⊢; omega))
    rw [List.length_cons, strictItems, cborItems, List.append_assoc, hitem]
    simp [hrest]

theorem strictEntries_cborEntries (s : List UInt8) :
    ∀ entries read : List (String × Ipld), SortedAssoc.Sorted (read ++ entries) →
      (∀ e ∈ entries, ∀ t, (textBytes e.1 ++ t).length ≤ (cborEntries entries ++ s).length →
        strict (textBytes e.1 ++ t) = some (.string e.1, t)) →
      (∀ e ∈ entries, ∀ t, (cborBytes e.2 ++ t).length ≤ (cborEntries entries ++ s).length →
        strict (cborBytes e.2 ++ t) = some (e.2, t)) →
      strictEntries strict entries.length (cborEntries entries ++ s) read
        = some (read ++ entries, s)
  | [], read, _, _, _ => by simp [strictEntries, cborEntries]
  | e :: rest, read, hsort, hk, hv => by
    have hkey := hk e List.mem_cons_self (cborBytes e.2 ++ (cborEntries rest ++ s))
      (by simp [cborEntries])
    have hval := hv e List.mem_cons_self (cborEntries rest ++ s) (by simp [cborEntries])
    have hlen : (cborEntries rest ++ s).length ≤ (cborEntries (e :: rest) ++ s).length := by
      simp only [cborEntries, List.length_append]; omega
    have habove : read.all (fun a => a.1 < e.1) = true := by
      refine List.all_eq_true.mpr (fun a ha => decide_eq_true ?_)
      exact (List.pairwise_append.mp hsort).2.2 a ha e List.mem_cons_self
    have hassoc : (read ++ [(e.1, e.2)]) ++ rest = read ++ e :: rest := by simp
    have hrest := strictEntries_cborEntries s rest (read ++ [(e.1, e.2)]) (hassoc ▸ hsort)
      (fun e' he t ht => hk e' (List.mem_cons_of_mem _ he) t (ht.trans hlen))
      (fun e' he t ht => hv e' (List.mem_cons_of_mem _ he) t (ht.trans hlen))
    rw [List.length_cons, strictEntries, cborEntries, List.append_assoc, List.append_assoc,
      hkey]
    simp only [Option.bind_eq_bind, Option.bind_some, habove, if_true]
    rw [hval]
    simp only [Option.bind_some]
    rw [hrest, hassoc]

theorem strictDagCbor_head (m : Nat) (hm : m < 8) {n : Nat} (hn : n < 2 ^ 64) {fuel : Nat}
    {s : List UInt8} (hfuel : (cborHead (UInt8.ofNat m) n ++ s).length ≤ fuel) :
    ∃ f info input, fuel = f + 1 ∧ s.length ≤ f ∧ strictUint info input = some (n, s) ∧
      strictDagCbor fuel (cborHead (UInt8.ofNat m) n ++ s)
        = strictMajor (strictDagCbor f) m info input := by
  obtain ⟨b, t, hhead, hmajor, hinfo, huint⟩ := decodeHead hm hn
  rw [hhead] at hfuel ⊢
  cases fuel with
  | zero => simp at hfuel
  | succ f =>
    refine ⟨f, shortestInfo n, t ++ s, rfl, ?_, ?_, ?_⟩
    · simp only [List.cons_append, List.length_cons, List.length_append] at hfuel
      omega
    · simp [strictUint, huint s]
    · rw [← hmajor, ← hinfo]
      rfl

theorem strictDagCbor_textBytes (str : String) (hlen : (utf8 str).length < 2 ^ 64)
    (fuel : Nat) (s : List UInt8) (hfuel : (textBytes str ++ s).length ≤ fuel) :
    strictDagCbor fuel (textBytes str ++ s) = some (.string str, s) := by
  rw [textBytes, asU64_of_lt hlen, List.append_assoc] at hfuel ⊢
  obtain ⟨f, info, input, rfl, _, huint, hdec⟩ := strictDagCbor_head 3 (by decide) hlen hfuel
  refine hdec.trans ?_
  simp [strictMajor, huint, strictBytes_append (utf8 str) s rfl]

theorem strictDagCbor_byteString (b s : List UInt8) (hlen : b.length < 2 ^ 64) (fuel : Nat)
    (hfuel : (cborHead 2 b.length ++ (b ++ s)).length ≤ fuel) :
    strictDagCbor fuel (cborHead 2 b.length ++ (b ++ s)) = some (.bytes b, s) := by
  obtain ⟨f, info, input, rfl, _, huint, hdec⟩ := strictDagCbor_head 2 (by decide) hlen hfuel
  refine hdec.trans ?_
  simp [strictMajor, huint, strictBytes_append b s rfl]

/-- **Every encoding is strict.** -/
theorem strictDagCbor_cborBytes [CidCrate.Lawful] {v : Ipld} (hv : v.Wf Ipld.CborInt) (fuel : Nat)
    (s : List UInt8) (hfuel : (cborBytes v ++ s).length ≤ fuel) :
    strictDagCbor fuel (cborBytes v ++ s) = some (v, s) := by
  induction hv generalizing fuel s with
  | null =>
    cases fuel with
    | zero => simp [cborBytes] at hfuel
    | succ f => rfl
  | bool b =>
    cases fuel with
    | zero => simp [cborBytes] at hfuel
    | succ f => cases b <;> rfl
  | integer i hi =>
    unfold Ipld.CborInt at hi
    rw [cborBytes, intHead] at hfuel ⊢
    split at hfuel
    · next hpos =>
      have hlt : i.toNat < 2 ^ 64 := by omega
      rw [if_pos hpos]
      rw [asU64_of_lt hlt] at hfuel ⊢
      obtain ⟨f, info, input, rfl, _, huint, hdec⟩ := strictDagCbor_head 0 (by decide) hlt hfuel
      refine hdec.trans ?_
      simp [strictMajor, huint, Int.toNat_of_nonneg hpos]
    · next hneg =>
      have hlt : (-1 - i).toNat < 2 ^ 64 := by omega
      rw [if_neg hneg]
      rw [asU64_of_lt hlt] at hfuel ⊢
      obtain ⟨f, info, input, rfl, _, huint, hdec⟩ := strictDagCbor_head 1 (by decide) hlt hfuel
      refine hdec.trans ?_
      have hval : (-1 - ((-1 - i).toNat : Int)) = i := by omega
      simp only [strictMajor, huint, Option.bind_eq_bind, Option.bind_some, hval]
  | float bits =>
    cases fuel with
    | zero => simp [cborBytes] at hfuel
    | succ f =>
      have hread := strictBytes_append (beBytes 8 bits.toNat) s (length_beBytes 8 _)
      have hval : beNat (beBytes 8 bits.toNat) = bits.toNat :=
        beNat_beBytes_of_lt bits.toNat_lt
      rw [cborBytes, List.cons_append, strictDagCbor]
      simp [strictMajor, strictSimple, hread, hval]
  | string str hlen =>
    exact strictDagCbor_textBytes str hlen fuel s hfuel
  | bytes b hlen =>
    rw [cborBytes, asU64_of_lt hlen, List.append_assoc] at hfuel ⊢
    exact strictDagCbor_byteString b s hlen fuel hfuel
  | list l hlen _ ih =>
    rw [cborBytes, asU64_of_lt hlen, List.append_assoc] at hfuel ⊢
    obtain ⟨f, info, input, rfl, hrest, huint, hdec⟩ :=
      strictDagCbor_head 4 (by decide) hlen hfuel
    have hitems := strictItems_cborItems s l
      (fun v hv t ht => ih v hv f t (ht.trans hrest))
    refine hdec.trans ?_
    simp [strictMajor, huint, hitems]
  | map m hlen hsorted hkeys _ ih =>
    rw [cborBytes, asU64_of_lt hlen, List.append_assoc] at hfuel ⊢
    obtain ⟨f, info, input, rfl, hrest, huint, hdec⟩ :=
      strictDagCbor_head 5 (by decide) hlen hfuel
    have hentries := strictEntries_cborEntries s m [] hsorted
      (fun e he t ht => strictDagCbor_textBytes e.1 (hkeys e he) f t (ht.trans hrest))
      (fun e he t ht => ih e he f t (ht.trans hrest))
    refine hdec.trans ?_
    simp [strictMajor, huint, hentries]
  | link c =>
    have hlen : (0x00 :: CidCrate.toBytes c).length < 2 ^ 64 := by
      have := CidCrate.Lawful.length_toBytes_lt c
      simp only [List.length_cons]; omega
    rw [cborBytes, asU64_of_lt hlen, List.append_assoc, List.append_assoc] at hfuel ⊢
    obtain ⟨f, info, input, rfl, hrest, huint, hdec⟩ :=
      strictDagCbor_head 6 (by decide) (show cidTag < 2 ^ 64 by decide) hfuel
    have hbytes := strictDagCbor_byteString (0x00 :: CidCrate.toBytes c) s hlen f hrest
    refine hdec.trans ?_
    simp only [strictMajor, huint, Option.bind_eq_bind, Option.bind_some, hbytes]
    simp [strictLink, CidCrate.Lawful.tryFrom_toBytes c]

end

end Ipfrs.Core
