/-
Ipfrs.Core.CarTheorems — what an archive gives back.

Reading an archive is rebuilding its blocks: `read_all_blocks` on what the writer
produced is `rebuild` on each block in turn (`readLoop_frames`), whatever the
compression. `rebuild` is the reader's last step alone, `Block::new` on the data
and a comparison of CIDs, so it returns the block when `Block::new` made it and
fails when the block's CID names another codec. A section of a standard file has no
flag, and the reader guesses whether its first byte is one.
-/
import Ipfrs.Core.Car
import Ipfrs.Core.DagCborTheorems

namespace Ipfrs.Core

open Ipfrs.Lib

/-! ## Varints -/

/-- Seven more bits above `shift` of them. -/
theorem or_shiftLeft {r v shift : Nat} (hr : r < 2 ^ shift) (hv : v * 2 ^ shift < 2 ^ 64) :
    r ||| (v <<< shift) % 2 ^ 64 = r + v * 2 ^ shift := by
  have hshift : v <<< shift = v * 2 ^ shift := Nat.shiftLeft_eq v shift
  rw [hshift, Nat.mod_eq_of_lt hv, ← hshift, Nat.or_comm, ← Nat.shiftLeft_add_eq_or_of_lt hr]
  omega

/-- The reader's loop on what the writer's loop still has to write: `r` is what was
read below `shift`, and the two loops have as many rounds left. -/
theorem readVarintLoop_writeVarintLoop (rest : List UInt8) :
    ∀ (rounds shift r v : Nat), shift < 64 → shift + 7 * rounds = 70 → r < 2 ^ shift →
      v * 2 ^ shift < 2 ^ 64 →
      readVarintLoop rounds shift r (writeVarintLoop rounds v ++ rest)
        = .ok (some (r + v * 2 ^ shift), rest)
  | 0, shift, r, v, hlt, hsum, hr, hv => by omega
  | rounds + 1, shift, r, v, hlt, hsum, hr, hv => by
    rw [writeVarintLoop]
    split
    · next hlast =>
      have hsmall : v < 128 := by omega
      have hbyte : (UInt8.ofNat (v % 128)).toNat = v := by
        rw [UInt8.toNat_ofNat_of_lt' (by omega : v % 128 < 256)]; omega
      have hmod : v % 128 = v := by omega
      rw [List.singleton_append, readVarintLoop, hbyte, hmod, or_shiftLeft hr hv,
        if_pos hsmall]
    · next hmore =>
      have hbyte : (UInt8.ofNat (v % 128 + 128)).toNat = v % 128 + 128 :=
        UInt8.toNat_ofNat_of_lt' (by omega : v % 128 + 128 < 256)
      have hmod : (v % 128 + 128) % 128 = v % 128 := by omega
      have hpow : (2 : Nat) ^ (shift + 7) = 128 * 2 ^ shift := by
        rw [Nat.pow_add, Nat.mul_comm]
      have hlow : (v % 128) * 2 ^ shift < 2 ^ 64 :=
        Nat.lt_of_le_of_lt (Nat.mul_le_mul_right _ (Nat.mod_le v 128)) hv
      have hhigh : v / 128 * 2 ^ (shift + 7) ≤ v * 2 ^ shift := by
        rw [hpow, ← Nat.mul_assoc]
        exact Nat.mul_le_mul_right _ (by omega)
      have hroom : shift + 7 < 64 := by
        by_contra hge
        have hbig : (2 : Nat) ^ 64 ≤ 2 ^ (shift + 7) :=
          Nat.pow_le_pow_right (by decide) (by omega)
        have hone : 1 * 2 ^ (shift + 7) ≤ v / 128 * 2 ^ (shift + 7) :=
          Nat.mul_le_mul_right _ (by omega)
        omega
      have hr' : r + (v % 128) * 2 ^ shift < 2 ^ (shift + 7) := by
        have : (v % 128 + 1) * 2 ^ shift ≤ 128 * 2 ^ shift :=
          Nat.mul_le_mul_right _ (by omega)
        rw [Nat.add_mul] at this
        omega
      have ih := readVarintLoop_writeVarintLoop rest rounds (shift + 7)
        (r + (v % 128) * 2 ^ shift) (v / 128) hroom (by omega) hr' (by omega)
      have hval : r + v % 128 * 2 ^ shift + v / 128 * 2 ^ (shift + 7) = r + v * 2 ^ shift := by
        rw [hpow, ← Nat.mul_assoc, Nat.add_assoc, ← Nat.add_mul]
        congr 2
        omega
      rw [List.cons_append, readVarintLoop, hbyte, hmod, or_shiftLeft hr hlow,
        if_neg (by omega), if_neg (by omega), ih, hval]

/-- **A varint is read back** and what follows it is left. -/
theorem readVarintOpt_writeVarint {n : Nat} (hn : n < 2 ^ 64) (rest : List UInt8) :
    readVarintOpt (writeVarint n ++ rest) = .ok (some n, rest) := by
  have h := readVarintLoop_writeVarintLoop rest maxVarintSize 0 0 n (by decide) (by decide)
    (by decide) (by omega)
  simpa [readVarintOpt, writeVarint] using h

theorem readVarint_writeVarint {n : Nat} (hn : n < 2 ^ 64) (rest : List UInt8) :
    readVarint (writeVarint n ++ rest) = .ok (n, rest) := by
  simp [readVarint, readVarintOpt_writeVarint hn]

/-- A number that is read takes bytes from the input. -/
theorem readVarintLoop_shorter : ∀ (rounds shift result : Nat) {input rest : List UInt8} {n : Nat},
    readVarintLoop rounds shift result input = .ok (some n, rest) → rest.length < input.length
  | 0, _, _, _, _, _, h => by cases h
  | rounds + 1, shift, result, [], rest, n, h => by
    rw [readVarintLoop] at h
    split at h <;> cases h
  | rounds + 1, shift, result, b :: input, rest, n, h => by
    rw [readVarintLoop] at h
    split at h
    · cases h
      simp
    · split at h
      · cases h
      · have ih := readVarintLoop_shorter rounds _ _ h
        simp only [List.length_cons]
        omega

/-! ### Overlong varints

The reader stops at ten bytes, and the tenth brings seven bits to a shift of 63. -/

/-- A shift past the 64th bit is a reduction. -/
theorem or_shiftLeft_mod {r x shift : Nat} (hr : r < 2 ^ shift) (hshift : shift ≤ 64) :
    r ||| (x <<< shift) % 2 ^ 64 = (r + x * 2 ^ shift) % 2 ^ 64 := by
  have hpow : (2 : Nat) ^ 64 = 2 ^ shift * 2 ^ (64 - shift) := by
    rw [← Nat.pow_add, Nat.add_sub_cancel' hshift]
  have hkept : (x <<< shift) % 2 ^ 64 = (x % 2 ^ (64 - shift)) <<< shift := by
    rw [Nat.shiftLeft_eq, Nat.shiftLeft_eq, hpow, Nat.mul_comm x, Nat.mul_mod_mul_left,
      Nat.mul_comm]
  have hsmall : r < 2 ^ 64 :=
    Nat.lt_of_lt_of_le hr (Nat.pow_le_pow_right (by decide) hshift)
  have hsum : r ||| (x <<< shift) % 2 ^ 64 = r + (x <<< shift) % 2 ^ 64 := by
    rw [hkept, Nat.or_comm, ← Nat.shiftLeft_add_eq_or_of_lt hr, Nat.add_comm]
  have hlt : r + (x <<< shift) % 2 ^ 64 < 2 ^ 64 := by
    rw [← hsum]
    exact Nat.or_lt_two_pow hsmall (Nat.mod_lt _ (by decide))
  rw [hsum, ← Nat.shiftLeft_eq, Nat.add_mod, Nat.mod_eq_of_lt hsmall, Nat.mod_eq_of_lt hlt]

/-- What the loop returns is the number its bytes denote, reduced to 64 bits. -/
theorem readVarintLoop_eq_mod : ∀ (rounds shift r : Nat) {input rest : List UInt8} {v : Nat},
    shift < 64 → r < 2 ^ shift →
    readVarintLoop rounds shift r input = .ok (some v, rest) →
    ∃ m, Varint.read input = some (m, rest) ∧ v = (r + m * 2 ^ shift) % 2 ^ 64
      ∧ input.length ≤ rest.length + rounds
  | 0, _, _, _, _, _, _, _, h => by cases h
  | rounds + 1, shift, r, [], rest, v, _, _, h => by
    rw [readVarintLoop] at h
    split at h <;> cases h
  | rounds + 1, shift, r, b :: input, rest, v, hlt, hr, h => by
    rw [readVarintLoop, or_shiftLeft_mod hr (Nat.le_of_lt hlt)] at h
    split at h
    · next hlast =>
      cases h
      exact ⟨b.toNat, by rw [Varint.read, if_pos hlast], by rw [Nat.mod_eq_of_lt hlast],
        by simp only [List.length_cons]; omega⟩
    · next hmore =>
      split at h
      · cases h
      · next hroom =>
        have hpow : (2 : Nat) ^ (shift + 7) = 128 * 2 ^ shift := by
          rw [Nat.pow_add, Nat.mul_comm]
        have hfits : (2 : Nat) ^ (shift + 7) ≤ 2 ^ 64 :=
          Nat.pow_le_pow_right (by decide) (by omega)
        have hlow : r + b.toNat % 128 * 2 ^ shift < 2 ^ (shift + 7) := by
          have : (b.toNat % 128 + 1) * 2 ^ shift ≤ 128 * 2 ^ shift :=
            Nat.mul_le_mul_right _ (by omega)
          rw [Nat.add_mul] at this
          omega
        rw [Nat.mod_eq_of_lt (Nat.lt_of_lt_of_le hlow hfits)] at h
        obtain ⟨m, hread, hv, hlen⟩ :=
          readVarintLoop_eq_mod rounds (shift + 7) _ (by omega) hlow h
        have hbyte : b.toNat % 128 = b.toNat - 128 := by
          have := b.toNat_lt
          omega
        refine ⟨b.toNat - 128 + 128 * m, ?_, ?_, ?_⟩
        · rw [Varint.read, if_neg hmore, hread]
        · rw [hv, hpow, hbyte, Nat.add_mul, Nat.add_assoc, ← Nat.mul_assoc,
            Nat.mul_comm m 128]
        · simp only [List.length_cons]
          omega

/-- `n` bytes that continue a number, then a last one that is more than 1. -/
def HighGroup (n : Nat) (input : List UInt8) : Prop :=
  ∃ (groups : List UInt8) (last : UInt8) (rest : List UInt8),
    input = groups ++ last :: rest ∧ groups.length = n ∧ (∀ g ∈ groups, 128 ≤ g.toNat)
      ∧ 2 ≤ last.toNat ∧ last.toNat < 128

theorem highGroup_zero (b : UInt8) (input : List UInt8) :
    HighGroup 0 (b :: input) ↔ 2 ≤ b.toNat ∧ b.toNat < 128 := by
  constructor
  · rintro ⟨groups, last, rest, heq, hlen, -, hlast⟩
    rw [List.length_eq_zero_iff.mp hlen, List.nil_append] at heq
    rw [(List.cons.inj heq).1]
    exact hlast
  · intro h
    exact ⟨[], b, input, rfl, rfl, by simp, h⟩

theorem highGroup_succ (n : Nat) (b : UInt8) (input : List UInt8) :
    HighGroup (n + 1) (b :: input) ↔ 128 ≤ b.toNat ∧ HighGroup n input := by
  constructor
  · rintro ⟨groups, last, rest, heq, hlen, hgroups, hlast⟩
    cases groups with
    | nil => cases hlen
    | cons g groups =>
      obtain ⟨rfl, rfl⟩ := List.cons.inj heq
      exact ⟨hgroups b (by simp), groups, last, rest, rfl, by simpa using hlen,
        fun g hg => hgroups g (by simp [hg]), hlast⟩
  · rintro ⟨hb, groups, last, rest, rfl, hlen, hgroups, hlast⟩
    exact ⟨b :: groups, last, rest, rfl, by simp [hlen], by simpa [hb] using hgroups, hlast⟩

/-- A number of at most `n + 1` groups is too large for `7 * n + 1` bits exactly when
its last group is high. -/
theorem highGroup_iff : ∀ (n : Nat) {input rest : List UInt8} {m : Nat},
    Varint.read input = some (m, rest) → input.length ≤ rest.length + (n + 1) →
    (HighGroup n input ↔ 2 * 128 ^ n ≤ m)
  | n, [], rest, m, h, _ => by cases h
  | n, b :: input, rest, m, h, hlen => by
    rw [Varint.read] at h
    split at h
    · next hlast =>
      cases h
      cases n with
      | zero => rw [highGroup_zero]; omega
      | succ n =>
        have hpos : 1 ≤ 128 ^ n :=
          Nat.one_le_two_pow.trans (Nat.pow_le_pow_left (by decide) n)
        rw [highGroup_succ, Nat.pow_succ]
        omega
    · next hmore =>
      split at h
      · next m' rest' hread =>
        cases h
        cases n with
        | zero =>
          have := Varint.read_shorter hread
          simp only [List.length_cons] at hlen
          omega
        | succ n =>
          have hb := b.toNat_lt
          have ih := highGroup_iff n hread (by simp only [List.length_cons] at hlen; omega)
          rw [highGroup_succ, ih, Nat.pow_succ]
          omega
      · cases h

/-- Nine groups that go on and a tenth above 1: the input of a number whose high bits
do not fit a `u64`. -/
def TenthByteOverflows (input : List UInt8) : Prop := HighGroup 9 input

/-- The loop stops at the first byte that ends a number, whatever its bits. -/
theorem readVarintLoop_groups (last : UInt8) (rest : List UInt8) (hlast : last.toNat < 128) :
    ∀ (groups : List UInt8) (rounds shift r : Nat), (∀ g ∈ groups, 128 ≤ g.toNat) →
      shift + 7 * groups.length < 64 → groups.length < rounds →
      ∃ v, readVarintLoop rounds shift r (groups ++ last :: rest) = .ok (some v, rest)
  | [], rounds + 1, shift, r, _, _, _ => by
    rw [List.nil_append, readVarintLoop, if_pos hlast]
    exact ⟨_, rfl⟩
  | g :: groups, rounds + 1, shift, r, hgroups, hroom, hrounds => by
    simp only [List.length_cons] at hroom hrounds
    have hg : ¬ g.toNat < 128 := Nat.not_lt.mpr (hgroups g (by simp))
    rw [List.cons_append, readVarintLoop, if_neg hg, if_neg (by omega)]
    exact readVarintLoop_groups last rest hlast groups rounds (shift + 7) _
      (fun g' h => hgroups g' (by simp [h])) (by omega) (by omega)

/-- **What a varint is read as**: what was written comes back, and on every input that
is read as a number it is the number denoted unless a tenth byte overflows. -/
theorem varints_exact_iff (v : UInt64) (s input : List UInt8) :
    readVarint (writeVarint v.toNat ++ s) = .ok (v.toNat, s)
      ∧ ((∀ (v : Nat) (rest : List UInt8), readVarintOpt input = .ok (some v, rest) →
            Varint.read input = some (v, rest)) ↔ ¬ TenthByteOverflows input) := by
  refine ⟨readVarint_writeVarint v.toNat_lt s, ?_, ?_⟩
  · intro hexact hhigh
    obtain ⟨groups, last, rest, rfl, hlen, hgroups, -, hlast⟩ := id hhigh
    obtain ⟨v, hread⟩ := readVarintLoop_groups last rest hlast groups maxVarintSize 0 0 hgroups
      (by omega) (by rw [hlen]; decide)
    obtain ⟨m, hm, hv, hlen⟩ :=
      readVarintLoop_eq_mod maxVarintSize 0 0 (by decide) (by decide) hread
    have hsame := hexact v rest hread
    rw [hm] at hsame
    cases hsame
    have hbig := (highGroup_iff 9 hm hlen).mp hhigh
    omega
  · intro hlow v rest hread
    obtain ⟨m, hm, hv, hlen⟩ :=
      readVarintLoop_eq_mod maxVarintSize 0 0 (by decide) (by decide) hread
    have hsmall : ¬ 2 * 128 ^ 9 ≤ m := fun h => hlow ((highGroup_iff 9 hm hlen).mpr h)
    have hval : v = m := by omega
    rw [hm, hval]

/-- Nine bytes that go on and a tenth of 2 are read as 0, not as `2 ^ 64`. -/
theorem tenth_byte_dropped : ¬ ((∀ (v : UInt64) (s : List UInt8),
          readVarint (writeVarint v.toNat ++ s) = .ok (v.toNat, s))
        ∧ ∀ (input : List UInt8) (v : Nat) (rest : List UInt8),
            readVarintOpt input = .ok (some v, rest) → Varint.read input = some (v, rest)) := by
  intro h
  have hread : readVarintOpt (List.replicate 9 128 ++ [2]) = .ok (some 0, []) := by decide
  have hzero := h.2 _ _ _ hread
  revert hzero
  decide

/-! ## The header -/

theorem readExactIo_append (b rest : List UInt8) :
    readExactIo b.length (b ++ rest) = .ok (b, rest) := by
  simp [readExactIo]

theorem mapM_headerRoot (roots : List Cid) : (roots.map Ipld.link).mapM headerRoot = .ok roots := by
  induction roots with
  | nil => rfl
  | cons c roots ih => simp [List.mapM_cons, ih, headerRoot, pure, Except.pure]

/-- The entries of a header, in key order. -/
def headerEntries (roots : List Cid) : List (String × Ipld) :=
  [("roots", .list (roots.map Ipld.link)), ("version", .integer 1)]

theorem toIpld_new (roots : List Cid) :
    (CarHeader.new roots).toIpld = .map (headerEntries roots) := by
  have hlt : ("roots" : String) < "version" := by decide
  simp [CarHeader.toIpld, CarHeader.new, carVersion, headerEntries, SortedAssoc.ofEntries,
    SortedAssoc.insert, hlt]

theorem headerEntries_wf (roots : List Cid) (hlen : roots.length < 2 ^ 64) :
    (Ipld.map (headerEntries roots)).Wf Ipld.CborInt := by
  refine .map _ (by simp [headerEntries]) ?_ ?_ ?_
  · refine List.pairwise_cons.mpr ⟨?_, List.pairwise_singleton _ _⟩
    intro e he
    rw [List.mem_singleton.mp he]
    exact (by decide : ("roots" : String) < "version")
  · simp only [headerEntries, List.mem_cons, List.not_mem_nil, or_false]
    rintro e (rfl | rfl)
    · exact (by decide : (utf8 "roots").length < 2 ^ 64)
    · exact (by decide : (utf8 "version").length < 2 ^ 64)
  · simp only [headerEntries, List.mem_cons, List.not_mem_nil, or_false]
    rintro e (rfl | rfl)
    · refine .list _ (by simpa using hlen) ?_
      intro v hv
      obtain ⟨c, _, rfl⟩ := List.mem_map.mp hv
      exact .link c
    · exact .integer _ (by decide)

section

variable [CidCrate]

theorem encode_new (roots : List Cid) :
    (CarHeader.new roots).encode = .ok (cborBytes (.map (headerEntries roots))) := by
  rw [CarHeader.encode, toIpld_new]
  exact toDagCbor_eq _

/-- Every root takes at least a byte of the header. -/
theorem length_roots_le (roots : List Cid) :
    roots.length ≤ (cborBytes (.map (headerEntries roots))).length := by
  have hitems := length_le_cborItems (roots.map Ipld.link)
  simp only [headerEntries, cborBytes, cborEntries, List.length_append, List.length_map]
    at hitems ⊢
  omega

/-- **A header is read back.** -/
theorem decode_headerEntries [CidCrate.Lawful] (roots : List Cid) (hlen : roots.length < 2 ^ 64) :
    CarHeader.decode (cborBytes (.map (headerEntries roots))) = .ok (CarHeader.new roots) := by
  have hversion : Ipld.field (headerEntries roots) "version" = some (.integer 1) := rfl
  have hroots : Ipld.field (headerEntries roots) "roots"
      = some (.list (roots.map Ipld.link)) := rfl
  rw [CarHeader.decode, fromDagCbor_cborBytes (headerEntries_wf roots hlen)]
  simp only [ok_bind, hversion, hroots, mapM_headerRoot]
  rfl

end

/-! ## Payloads -/

section

variable [CompressionCrates]

/-- The level check of `compress`, the only way a block can fail to be written. -/
def LevelOk : Option (CompressionAlgorithm × Int) → Prop
  | none => True
  | some (_, level) => asU8 level ≤ 9

theorem compress_level {data c : List UInt8} {algorithm : CompressionAlgorithm} {level : Nat}
    (h : compress data algorithm level = .ok c) : level ≤ 9 := by
  unfold compress at h
  split at h
  · cases h
  · omega

variable [CompressionCrates.Lawful] {compression : Option (CompressionAlgorithm × Int)}
  {data : List UInt8}

theorem payload_ok (hlevel : LevelOk compression) (hsize : BlockSized data) :
    ∃ p, CarWriter.payload compression data = .ok p := by
  cases compression with
  | none => exact ⟨_, rfl⟩
  | some c =>
    obtain ⟨algorithm, level⟩ := c
    have hok : ¬ asU8 level > 9 := Nat.not_lt.mpr hlevel
    by_cases halg : algorithm = .none
    · subst halg
      simp [CarWriter.payload, compress, hok]
    · obtain ⟨c, hc, _, _⟩ := decompressAny_compress hsize halg hlevel
      exact ⟨_, by simp [CarWriter.payload, hc]; rfl⟩

/-- Every payload of a block's data is short enough for its length to be written,
and is read back: as it is behind the flag 0, decompressed behind the flag 1. -/
theorem payload_spec (hsize : BlockSized data) {finalData : List UInt8} {wasCompressed : Bool}
    (h : CarWriter.payload compression data = .ok (finalData, wasCompressed)) :
    finalData.length < 2 ^ 63 ∧
      (if wasCompressed then decompressAny finalData else .ok finalData) = .ok data := by
  have hlen : data.length < 2 ^ 63 := Nat.lt_of_le_of_lt hsize.2 (by decide)
  cases compression with
  | none =>
    cases h
    exact ⟨hlen, rfl⟩
  | some c =>
    obtain ⟨algorithm, level⟩ := c
    obtain ⟨compressed, hc, h⟩ := bind_eq_ok.mp h
    cases h
    have hlevel := compress_level hc
    by_cases halg : algorithm = .none
    · subst halg
      have hok : ¬ asU8 level > 9 := by omega
      simp only [compress, if_neg hok] at hc
      cases hc
      exact ⟨hlen, rfl⟩
    · obtain ⟨c, hc', hlen', hback⟩ := decompressAny_compress hsize halg hlevel
      rw [hc] at hc'
      cases hc'
      simp only [halg, ne_eq, not_false_eq_true, decide_true, if_true]
      exact ⟨hlen', hback⟩

end

/-! ## Blocks -/

section

variable [CidCrate] [CidStream]

/-- The reader's last step: the data as a block of its own, if that has the CID. -/
def rebuild (block : Block) : Except Error Block := do
  let block' ← Block.new block.data
  if block'.cid ≠ block.cid then
    .error (.invalidData ("Block CID mismatch: expected " ++ CidStream.display block.cid
      ++ ", got " ++ CidStream.display block'.cid))
  else .ok block'

/-- `rebuild` returns a block exactly when `Block::new` makes that same block. -/
theorem rebuild_eq_ok {block b : Block} :
    rebuild block = .ok b ↔ Block.new block.data = .ok b ∧ b.cid = block.cid := by
  constructor
  · intro h
    obtain ⟨b', hnew, h⟩ := bind_eq_ok.mp h
    split at h
    · cases h
    · next hcid =>
      cases h
      exact ⟨hnew, not_not.mp hcid⟩
  · intro h
    simp [rebuild, h.1, h.2]

theorem mapM_rebuild : ∀ {blocks : List Block}, (∀ b ∈ blocks, Block.new b.data = .ok b) →
    blocks.mapM rebuild = .ok blocks
  | [], _ => rfl
  | b :: blocks, h => by
    have hb : rebuild b = .ok b := rebuild_eq_ok.mpr ⟨h b List.mem_cons_self, rfl⟩
    have ih := mapM_rebuild (fun b' hb' => h b' (List.mem_cons_of_mem _ hb'))
    simp [List.mapM_cons, hb, ih, pure, Except.pure]

end

section

variable [CidCrate] [CompressionCrates]

/-- The bytes `write_block` appends. -/
def blockFrame (compression : Option (CompressionAlgorithm × Int)) (block : Block) :
    Except Error (List UInt8) := do
  let (finalData, wasCompressed) ← CarWriter.payload compression block.data
  .ok (writeVarint (asU64 ((CidCrate.toBytes block.cid).length + 1 + finalData.length))
    ++ (CidCrate.toBytes block.cid ++ (if wasCompressed then 1 else 0) :: finalData))

theorem blockFrame_ne_nil {compression : Option (CompressionAlgorithm × Int)} {block : Block}
    {frame : List UInt8} (hframe : blockFrame compression block = .ok frame) : frame ≠ [] := by
  obtain ⟨⟨finalData, wasCompressed⟩, _, hframe⟩ := bind_eq_ok.mp hframe
  cases hframe
  simp

/-- `write_block` appends a frame and keeps the settings. -/
theorem writeBlock_eq_ok {w w' : CarWriter} (hw : w.headerWritten = true) {block : Block}
    (h : w.writeBlock block = .ok w') :
    ∃ frame, blockFrame w.compression block = .ok frame ∧ w'.writer = w.writer ++ frame ∧
      w'.headerWritten = true ∧ w'.compression = w.compression := by
  simp only [CarWriter.writeBlock, hw, Bool.not_true] at h
  obtain ⟨⟨finalData, wasCompressed⟩, hpayload, h⟩ := bind_eq_ok.mp h
  cases h
  refine ⟨_, by simp only [blockFrame, hpayload]; rfl, ?_, rfl, rfl⟩
  simp

theorem writeBlock_ok {w : CarWriter} (hw : w.headerWritten = true) {block : Block}
    {p : List UInt8 × Bool} (hp : CarWriter.payload w.compression block.data = .ok p) :
    ∃ w', w.writeBlock block = .ok w' := by
  simp only [CarWriter.writeBlock, hw, Bool.not_true, hp]
  exact ⟨_, rfl⟩

/-- The loop of writes: its frames, one after another. -/
theorem foldlM_writeBlock_eq_ok : ∀ {blocks : List Block} {w w' : CarWriter},
    w.headerWritten = true → blocks.foldlM CarWriter.writeBlock w = .ok w' →
    ∃ frames, List.Forall₂ (fun b frame => blockFrame w.compression b = .ok frame) blocks frames ∧
      w'.writer = w.writer ++ frames.flatten
  | [], w, w', _, h => by
    cases h
    exact ⟨[], .nil, by simp⟩
  | b :: blocks, w, w', hw, h => by
    obtain ⟨w1, hstep, h⟩ := bind_eq_ok.mp h
    obtain ⟨frame, hframe, hwriter, hw1, hcomp⟩ := writeBlock_eq_ok hw hstep
    obtain ⟨frames, hframes, hrest⟩ := foldlM_writeBlock_eq_ok hw1 h
    rw [hcomp] at hframes
    exact ⟨frame :: frames, .cons hframe hframes, by simp [hrest, hwriter]⟩

theorem foldlM_writeBlock_ok [CompressionCrates.Lawful] : ∀ {blocks : List Block} {w : CarWriter},
    w.headerWritten = true → LevelOk w.compression → (∀ b ∈ blocks, BlockSized b.data) →
    ∃ w', blocks.foldlM CarWriter.writeBlock w = .ok w'
  | [], w, _, _, _ => ⟨w, rfl⟩
  | b :: blocks, w, hw, hlevel, hsize => by
    obtain ⟨p, hp⟩ := payload_ok hlevel (hsize b List.mem_cons_self)
    obtain ⟨w1, hstep⟩ := writeBlock_ok hw hp
    obtain ⟨_, _, _, hw1, hcomp⟩ := writeBlock_eq_ok hw hstep
    obtain ⟨w', hrest⟩ := foldlM_writeBlock_ok hw1 (hcomp ▸ hlevel)
      (fun b' hb' => hsize b' (List.mem_cons_of_mem _ hb'))
    exact ⟨w', by rw [List.foldlM_cons, hstep]; exact hrest⟩

theorem writeCar_ok [CompressionCrates.Lawful] {roots : List Cid}
    {compression : Option (CompressionAlgorithm × Int)}
    {blocks : List Block} (hlevel : LevelOk compression) (hsize : ∀ b ∈ blocks, BlockSized b.data) :
    ∃ w, writeCar roots compression blocks = .ok w := by
  rw [writeCar, CarWriter.newWithOptions, CarWriter.writeHeader, encode_new]
  exact foldlM_writeBlock_ok rfl hlevel hsize

variable [CidStream]

theorem parseBlock_payload [CidStream.Lawful] {block : Block} {finalData : List UInt8}
    {wasCompressed : Bool}
    (hback : (if wasCompressed then decompressAny finalData else .ok finalData) = .ok block.data) :
    parseBlock (CidCrate.toBytes block.cid ++ (if wasCompressed then 1 else 0) :: finalData)
      = rebuild block := by
  rw [parseBlock, CidStream.Lawful.readBytes_toBytes]
  cases wasCompressed with
  | false =>
    simp only [Bool.false_eq_true, if_false] at hback ⊢
    cases hback
    simp [rebuild]
  | true =>
    simp only [if_true] at hback ⊢
    simp [rebuild, hback]

/-- At the end of the input there is no further block. -/
theorem readBlock_nil (header : CarHeader) :
    CarReader.readBlock { reader := [], header } = .ok (none, { reader := [], header }) := rfl

/-- A block that is read takes bytes from the input. -/
theorem readBlock_shorter {r r' : CarReader} {b : Block} (h : r.readBlock = .ok (some b, r')) :
    r'.reader.length < r.reader.length := by
  obtain ⟨⟨len?, rest⟩, hlen, h⟩ := bind_eq_ok.mp h
  cases len? with
  | none => cases h
  | some n =>
    obtain ⟨⟨bytes, tail⟩, hbytes, h⟩ := bind_eq_ok.mp h
    obtain ⟨block, _, h⟩ := bind_eq_ok.mp h
    cases h
    have hshort := readVarintLoop_shorter _ _ _ hlen
    unfold readExactIo at hbytes
    split at hbytes
    · cases hbytes
      simp only [List.length_drop]
      omega
    · cases hbytes

/-- One round of the loop. -/
theorem readLoop_succ (fuel : Nat) (r : CarReader) (read : List Block) :
    CarReader.readLoop (fuel + 1) r read
      = (r.readBlock >>= fun p => match p with
          | (none, r) => .ok (read, r)
          | (some block, r) => CarReader.readLoop fuel r (read ++ [block])) := rfl

/-- The bound on the blocks is no limit once it covers the input. -/
theorem readLoop_fuel : ∀ (fuel fuel' : Nat) (r : CarReader) (read : List Block),
    r.reader.length ≤ fuel → r.reader.length ≤ fuel' →
    CarReader.readLoop fuel r read = CarReader.readLoop fuel' r read
  | 0, 0, r, read, _, _ => rfl
  | 0, fuel' + 1, r, read, h, _ | fuel + 1, 0, r, read, _, h => by
    obtain ⟨reader, header⟩ := r
    have hnil : reader = [] := List.eq_nil_of_length_eq_zero (by simpa using h)
    subst hnil
    simp [readBlock_nil, CarReader.readLoop]
  | fuel + 1, fuel' + 1, r, read, h, h' => by
    rw [readLoop_succ, readLoop_succ]
    cases hread : r.readBlock with
    | error e => rfl
    | ok p =>
      obtain ⟨block?, r'⟩ := p
      cases block? with
      | none => rfl
      | some b =>
        have hshort := readBlock_shorter hread
        exact readLoop_fuel fuel fuel' r' (read ++ [b]) (by omega) (by omega)

/-- **The source's loop**: read a block; stop at the end of the input, push the
block otherwise. -/
theorem readLoop_eq (r : CarReader) (read : List Block) :
    CarReader.readLoop r.reader.length r read
      = (r.readBlock >>= fun p => match p with
          | (none, r) => .ok (read, r)
          | (some block, r) => CarReader.readLoop r.reader.length r (read ++ [block])) := by
  rw [readLoop_fuel r.reader.length (r.reader.length + 1) r read (by omega) (by omega),
    readLoop_succ]
  cases hread : r.readBlock with
  | error e => rfl
  | ok p =>
    obtain ⟨block?, r'⟩ := p
    cases block? with
    | none => rfl
    | some b =>
      have hshort := readBlock_shorter hread
      exact readLoop_fuel _ _ r' (read ++ [b]) (by omega) (by omega)

variable [CidCrate.Lawful] [CidStream.Lawful] [CompressionCrates.Lawful]

/-- **One block back**: on a frame, `read_block` rebuilds the block and is left with
what follows the frame. -/
theorem readBlock_frame {compression : Option (CompressionAlgorithm × Int)} {block : Block}
    {frame : List UInt8} (hsize : BlockSized block.data)
    (hframe : blockFrame compression block = .ok frame) (header : CarHeader)
    (rest : List UInt8) :
    CarReader.readBlock { reader := frame ++ rest, header }
      = (do let b ← rebuild block; .ok (some b, { reader := rest, header })) := by
  obtain ⟨⟨finalData, wasCompressed⟩, hpayload, hframe⟩ := bind_eq_ok.mp hframe
  cases hframe
  obtain ⟨hlen, hback⟩ := payload_spec hsize hpayload
  have hcid := CidCrate.Lawful.length_toBytes_lt block.cid
  have htotal : (CidCrate.toBytes block.cid).length + 1 + finalData.length < 2 ^ 64 := by omega
  have hread := readExactIo_append
    (CidCrate.toBytes block.cid ++ (if wasCompressed then 1 else 0) :: finalData) rest
  have hlength :
      (CidCrate.toBytes block.cid ++ (if wasCompressed then 1 else 0) :: finalData).length
        = (CidCrate.toBytes block.cid).length + 1 + finalData.length := by
    simp only [List.length_append, List.length_cons]; omega
  rw [hlength] at hread
  simp only [CarReader.readBlock, asU64_of_lt htotal, List.append_assoc (writeVarint _),
    readVarintOpt_writeVarint htotal, ok_bind, hread, parseBlock_payload hback]

/-- The loop of reads over a sequence of frames rebuilds the blocks in order. -/
theorem readLoop_frames {compression : Option (CompressionAlgorithm × Int)} (header : CarHeader) :
    ∀ {blocks : List Block} {frames : List (List UInt8)} (fuel : Nat) (read : List Block),
      (∀ b ∈ blocks, BlockSized b.data) →
      List.Forall₂ (fun b frame => blockFrame compression b = .ok frame) blocks frames →
      frames.flatten.length ≤ fuel →
      CarReader.readLoop fuel { reader := frames.flatten, header } read
        = (do let bs ← blocks.mapM rebuild; .ok (read ++ bs, { reader := [], header }))
  | [], _, fuel, read, _, .nil, _ => by
    cases fuel with
    | zero => simp [CarReader.readLoop]
    | succ fuel => simp [CarReader.readLoop, readBlock_nil]
  | b :: blocks, _ :: frames, fuel, read, hsize, .cons hframe hframes, hfuel => by
    have hpos : 0 < fuel := by
      have := List.length_pos_of_ne_nil (blockFrame_ne_nil hframe)
      simp only [List.flatten_cons, List.length_append] at hfuel
      omega
    obtain ⟨fuel, rfl⟩ := Nat.exists_eq_succ_of_ne_zero (Nat.ne_of_gt hpos)
    have hrest : frames.flatten.length ≤ fuel := by
      have := List.length_pos_of_ne_nil (blockFrame_ne_nil hframe)
      simp only [List.flatten_cons, List.length_append] at hfuel
      omega
    have hread := readBlock_frame (hsize b List.mem_cons_self) hframe header frames.flatten
    rw [List.flatten_cons, CarReader.readLoop, hread, List.mapM_cons]
    cases hb : rebuild b with
    | error e => simp
    | ok b' =>
      have ih := readLoop_frames header fuel (read ++ [b'])
        (fun b hb => hsize b (List.mem_cons_of_mem _ hb)) hframes hrest
      simp only [ok_bind, ih, bind_assoc]
      simp

/-- **Reading an archive rebuilds its blocks.** What the writer produced opens with
the same roots, and `read_all_blocks` is `rebuild` on every block in order. -/
theorem readAllBlocks_writeCar {roots : List Cid}
    {compression : Option (CompressionAlgorithm × Int)} {blocks : List Block} {w : CarWriter}
    (hroots : ∀ b, (CarHeader.new roots).encode = .ok b → b.length < 2 ^ 64)
    (hsize : ∀ b ∈ blocks, BlockSized b.data)
    (h : writeCar roots compression blocks = .ok w) :
    ∃ r, CarReader.new w.writer = .ok r ∧ r.header.roots = roots ∧
      r.readAllBlocks = (do
        let bs ← blocks.mapM rebuild
        .ok (bs, { reader := [], header := r.header })) := by
  obtain ⟨w0, hopen, h⟩ := bind_eq_ok.mp h
  rw [CarWriter.newWithOptions, CarWriter.writeHeader, encode_new] at hopen
  cases hopen
  obtain ⟨frames, hframes, hwriter⟩ := foldlM_writeBlock_eq_ok rfl h
  have hlen := hroots _ (encode_new roots)
  have hcount := length_roots_le roots
  have hnew : CarReader.new w.writer
      = .ok { reader := frames.flatten, header := CarHeader.new roots } := by
    rw [hwriter, List.nil_append, List.append_assoc, asU64_of_lt hlen]
    simp only [CarReader.new, readVarint_writeVarint hlen, ok_bind, readExactIo_append,
      decode_headerEntries roots (by omega)]
  exact ⟨_, hnew, rfl, readLoop_frames _ _ [] hsize hframes (Nat.le_refl _)⟩

end

/-- **An archive of blocks made by `Block::new` reads back.** Every level the
compressor accepts lets the archive be written, and whatever was written, with any
compression setting, opens with the same roots and yields the same blocks in order
and then the end of the input. -/
theorem car_round_trip [CidCrate] [CidCrate.Lawful] [CidStream] [CidStream.Lawful]
    [CompressionCrates] [CompressionCrates.Lawful] (roots : List Cid)
    (compression : Option (CompressionAlgorithm × Int)) (blocks : List Block)
    (hroots : ∀ b, (CarHeader.new roots).encode = .ok b → b.length < 2 ^ 64)
    (hblocks : ∀ b ∈ blocks, Block.new b.data = .ok b) :
    (LevelOk compression → ∃ w, writeCar roots compression blocks = .ok w) ∧
    ∀ w, writeCar roots compression blocks = .ok w →
      ∃ r r', CarReader.new w.writer = .ok r ∧ r.header.roots = roots ∧
        r.readAllBlocks = .ok (blocks, r') ∧ r'.readBlock = .ok (none, r') := by
  have hsize : ∀ b ∈ blocks, BlockSized b.data := fun b hb => (Block.new_eq_ok.mp (hblocks b hb)).1
  refine ⟨fun hlevel => writeCar_ok hlevel hsize, ?_⟩
  intro w hw
  obtain ⟨r, hnew, hr, hall⟩ := readAllBlocks_writeCar hroots hsize hw
  rw [mapM_rebuild hblocks, ok_bind] at hall
  exact ⟨r, _, hnew, hr, hall, readBlock_nil _⟩

open scoped CidFormat StoredFrames in
/-- A compressed archive whose second block starts with the byte of a flag. -/
theorem car_round_trip_sample : ∃ w r r', writeCar [cidOf codecRaw [7]] (some (.zstd, 3))
        [⟨cidOf codecRaw [7], [7]⟩, ⟨cidOf codecRaw [1, 0], [1, 0]⟩] = .ok w ∧
      CarReader.new w.writer = .ok r ∧ r.header.roots = [cidOf codecRaw [7]] ∧ r.readAllBlocks = .ok
        ([⟨cidOf codecRaw [7], [7]⟩, ⟨cidOf codecRaw [1, 0], [1, 0]⟩], r') ∧
      r'.readBlock = .ok (none, r') := by
  have h := car_round_trip [cidOf codecRaw [7]] (some (.zstd, 3))
    [⟨cidOf codecRaw [7], [7]⟩, ⟨cidOf codecRaw [1, 0], [1, 0]⟩]
    (by
      intro b hb
      rw [encode_new] at hb
      cases hb
      decide)
    (by
      intro b hb
      simp only [List.mem_cons, List.not_mem_nil, or_false] at hb
      rcases hb with rfl | rfl <;> rfl)
  obtain ⟨w, hw⟩ := h.1 (show asU8 3 ≤ 9 by decide)
  obtain ⟨r, r', hr⟩ := h.2 w hw
  exact ⟨w, r, r', hw, hr⟩

/-! ## Sections without a flag -/

section

variable [CompressionCrates]

/-- What the reader takes the data of a section to be: it drops a first byte 0, and
decompresses what follows a first byte 1. -/
def guessData : List UInt8 → Except Error (List UInt8)
  | [] => .error (.deserialization "Empty block data")
  | flag :: rest =>
    if flag = 0 then .ok rest
    else if flag = 1 then decompressAny rest
    else .ok (flag :: rest)

/-- The guess is right unless the data begins with a flag: no data is what follows its own
first byte. -/
theorem guessData_eq_self {data : List UInt8} (hdata : data ≠ []) : guessData data = .ok data ↔
      data.head? ≠ some 0 ∧ ∀ rest, data = 1 :: rest → decompressAny rest = .ok data := by
  obtain ⟨flag, rest, rfl⟩ := List.exists_cons_of_ne_nil hdata
  have hshorter : rest ≠ flag :: rest := fun h => absurd (congrArg List.length h) (by simp)
  rw [guessData]
  by_cases hzero : flag = 0
  · subst hzero
    simp [hshorter]
  · by_cases hone : flag = 1
    · subst hone
      simp
    · simp [hzero, hone]

variable [CidCrate] [CidStream]

/-- A section of a standard CARv1 file: the length, the CID and the data, with no flag. -/
def standardSection (block : Block) : List UInt8 :=
  writeVarint ((CidCrate.toBytes block.cid).length + block.data.length)
    ++ (CidCrate.toBytes block.cid ++ block.data)

theorem readBlock_section [CidCrate.Lawful] {block : Block} (hsize : BlockSized block.data)
    (header : CarHeader) (rest : List UInt8) :
    CarReader.readBlock { reader := standardSection block ++ rest, header }
      = (do
          let b ← parseBlock (CidCrate.toBytes block.cid ++ block.data)
          .ok (some b, { reader := rest, header })) := by
  have hcid := CidCrate.Lawful.length_toBytes_lt block.cid
  have hmax : maxBlockSize < 2 ^ 63 := by decide
  have htotal : (CidCrate.toBytes block.cid).length + block.data.length < 2 ^ 64 := by
    have := hsize.2
    omega
  have hread := readExactIo_append (CidCrate.toBytes block.cid ++ block.data) rest
  rw [List.length_append] at hread
  simp only [CarReader.readBlock, standardSection, List.append_assoc (writeVarint _),
    readVarintOpt_writeVarint htotal, ok_bind, hread]

variable [CidStream.Lawful]

/-- On the bytes of a section, the reader rebuilds the block from its guess. -/
theorem parseBlock_guess (cid : Cid) (data : List UInt8) : parseBlock (CidCrate.toBytes cid ++ data)
      = (guessData data >>= fun d => rebuild { cid, data := d }) := by
  rw [parseBlock, CidStream.Lawful.readBytes_toBytes]
  cases data with
  | nil => rfl
  | cons flag rest =>
    by_cases hzero : flag = 0
    · subst hzero
      rfl
    · by_cases hone : flag = 1
      · subst hone
        rfl
      · simp [guessData, hzero, hone, rebuild]

/-- **A standard section is read as its block** exactly if the data does not begin with a
flag: it does not begin with 0, and where it begins with 1 it is what its own remainder
decompresses to. -/
theorem readBlock_section_iff [CidCrate.Lawful] {block : Block}
    (hblock : Block.new block.data = .ok block) (header : CarHeader) (rest : List UInt8) :
    CarReader.readBlock { reader := standardSection block ++ rest, header }
        = .ok (some block, { reader := rest, header }) ↔
      block.data.head? ≠ some 0 ∧
        ∀ tail, block.data = 1 :: tail → decompressAny tail = .ok block.data := by
  have hsize : BlockSized block.data := (Block.new_eq_ok.mp hblock).1
  have hdata : block.data ≠ [] := by
    intro h
    have hmin := hsize.1
    rw [h] at hmin
    exact absurd hmin (by decide)
  rw [readBlock_section hsize, parseBlock_guess, ← guessData_eq_self hdata]
  constructor
  · intro h
    obtain ⟨b, hparse, h⟩ := bind_eq_ok.mp h
    cases h
    obtain ⟨data, hguess, hrebuild⟩ := bind_eq_ok.mp hparse
    obtain ⟨hnew, -⟩ := rebuild_eq_ok.mp hrebuild
    have hsame : block.data = data := congrArg Block.data (Block.new_eq_ok.mp hnew).2
    rw [hguess, ← hsame]
  · intro h
    have hrebuild : rebuild block = .ok block := rebuild_eq_ok.mpr ⟨hblock, rfl⟩
    rw [h, ok_bind, hrebuild, ok_bind]

end

open scoped CidFormat StoredFrames in
/-- A block whose data begins with no flag. -/
theorem readBlock_section_sample :
    CarReader.readBlock
        { reader := standardSection ⟨cidOf codecRaw [7, 1], [7, 1]⟩ ++ [2], header := .new [] }
      = .ok (some ⟨cidOf codecRaw [7, 1], [7, 1]⟩, { reader := [2], header := .new [] }) := by
  have hnew : Block.new (Block.mk (cidOf codecRaw [7, 1]) [7, 1]).data
      = .ok (Block.mk (cidOf codecRaw [7, 1]) [7, 1]) := rfl
  exact (readBlock_section_iff hnew (.new []) [2]).mpr
    ⟨by decide, fun _ h => absurd (List.cons.inj h).1 (by decide)⟩

open scoped CidFormat StoredFrames in
/-- A block whose data begins with 0: the reader drops the byte and refuses the rest. -/
theorem readBlock_section_zero :
    Block.new [0, 7] = .ok ⟨cidOf codecRaw [0, 7], [0, 7]⟩ ∧
    CarReader.readBlock
        { reader := standardSection ⟨cidOf codecRaw [0, 7], [0, 7]⟩, header := .new [] }
      ≠ .ok (some ⟨cidOf codecRaw [0, 7], [0, 7]⟩, { reader := [], header := .new [] }) := by
  refine ⟨rfl, ?_⟩
  decide +kernel

end Ipfrs.Core
