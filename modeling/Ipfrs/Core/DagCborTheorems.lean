/-
Ipfrs.Core.DagCborTheorems — the DAG-CBOR codec round-trips.

The decoder of the source accepts more than the strict decoder, but where the
strict one answers it gives the same answer (`decodeDagCbor_of_strict`): a
shortest head is a head, and entries whose keys increase are inserted at the end
of the map. So it inverts the encoder because the strict decoder does:
`decodeDagCbor_cborBytes` says that on `cborBytes v` followed by any suffix it
returns `v` and leaves exactly the suffix, at any fuel that covers the input.
-/
import Ipfrs.Core.DagCborStrict

namespace Ipfrs.Core

open Ipfrs.Lib

/-! ## The decoder extends the strict decoder -/

theorem decodeCborUint_of_strict {info n : Nat} {input rest : List UInt8}
    (h : strictUint info input = some (n, rest)) : decodeCborUint info input = .ok (n, rest) := by
  unfold strictUint at h
  split at h
  · next hdec =>
    split at h
    · cases h; exact hdec
    · cases h
  · cases h

theorem readExact_of_strict {n : Nat} {input b rest : List UInt8}
    (h : strictBytes n input = some (b, rest)) (what : String) :
    readExact what n input = .ok (b, rest) := by
  obtain ⟨rfl, hlen⟩ := strictBytes_eq_some h
  exact readExact_append what b rest hlen

/-- `decode` gives every answer that `strict` gives. -/
def Extends (decode : List UInt8 → Except Error (Ipld × List UInt8))
    (strict : List UInt8 → Option (Ipld × List UInt8)) : Prop :=
  ∀ {input r}, strict input = some r → decode input = .ok r

section

variable {decode : List UInt8 → Except Error (Ipld × List UInt8)}
  {strict : List UInt8 → Option (Ipld × List UInt8)}

theorem decodeItems_of_strict (hd : Extends decode strict) :
    ∀ (n : Nat) {input rest : List UInt8} {items : List Ipld},
      strictItems strict n input = some (items, rest) →
      decodeItems decode n input = .ok (items, rest)
  | 0, input, rest, items, h => by
    cases h
    rfl
  | n + 1, input, rest, items, h => by
    obtain ⟨⟨item, mid⟩, hitem, h⟩ := Option.bind_eq_some_iff.mp h
    obtain ⟨⟨tail, end'⟩, htail, h⟩ := Option.bind_eq_some_iff.mp h
    cases h
    simp [decodeItems, hd hitem, decodeItems_of_strict hd n htail]

/-- Keys that increase are inserted at the end, one by one. -/
theorem decodeEntries_of_strict (hd : Extends decode strict) :
    ∀ (n : Nat) {input rest : List UInt8} {read entries : List (String × Ipld)},
      strictEntries strict n input read = some (entries, rest) →
      decodeEntries decode n input read = .ok (entries, rest)
  | 0, input, rest, read, entries, h => by
    cases h
    rfl
  | n + 1, input, rest, read, entries, h => by
    obtain ⟨⟨key, mid⟩, hkey, hrest⟩ := Option.bind_eq_some_iff.mp h
    rw [decodeEntries, hd hkey]
    dsimp only at hrest
    split at hrest
    · next s =>
      split at hrest
      · next habove =>
        obtain ⟨⟨value, tail⟩, hvalue, htail⟩ := Option.bind_eq_some_iff.mp hrest
        have hinsert : SortedAssoc.insert s value read = read ++ [(s, value)] := by
          refine SortedAssoc.insert_of_above s value read (fun e he => ?_)
          simpa using List.all_eq_true.mp habove e he
        simp only [ok_bind, hd hvalue, hinsert]
        exact decodeEntries_of_strict hd n htail
      · cases hrest
    · cases hrest

theorem decodeSimple_of_strict {info : Nat} {input : List UInt8} {r : Ipld × List UInt8}
    (h : strictSimple info input = some r) : decodeSimple info input = .ok r := by
  unfold strictSimple at h
  split at h
  · cases h; rfl
  · cases h; rfl
  · cases h; rfl
  · obtain ⟨⟨buf, tail⟩, hbuf, h⟩ := Option.bind_eq_some_iff.mp h
    cases h
    simp [decodeSimple, readExact_of_strict hbuf]
  · cases h

variable [CidCrate]

theorem decodeLink_of_strict [CidCrate.Lawful] {content v : Ipld}
    (h : strictLink content = some v) : decodeLink content = .ok v := by
  obtain ⟨c, rfl, rfl⟩ := strictLink_sound h
  simp [decodeLink, CidCrate.Lawful.tryFrom_toBytes c]

theorem decodeMajor_of_strict [CidCrate.Lawful] (hd : Extends decode strict)
    {majorType info : Nat} {input : List UInt8} {r : Ipld × List UInt8}
    (h : strictMajor strict majorType info input = some r) :
    decodeMajor decode majorType info input = .ok r := by
  unfold strictMajor at h
  split at h
  · obtain ⟨⟨n, tail⟩, huint, h⟩ := Option.bind_eq_some_iff.mp h
    cases h
    simp [decodeMajor, decodeCborUint_of_strict huint]
  · obtain ⟨⟨n, tail⟩, huint, h⟩ := Option.bind_eq_some_iff.mp h
    cases h
    simp [decodeMajor, decodeCborUint_of_strict huint]
  · obtain ⟨⟨n, tail⟩, huint, h⟩ := Option.bind_eq_some_iff.mp h
    obtain ⟨⟨buf, tail'⟩, hbuf, h⟩ := Option.bind_eq_some_iff.mp h
    cases h
    simp [decodeMajor, decodeCborUint_of_strict huint, readExact_of_strict hbuf]
  · obtain ⟨⟨n, tail⟩, huint, h⟩ := Option.bind_eq_some_iff.mp h
    obtain ⟨⟨buf, tail'⟩, hbuf, h⟩ := Option.bind_eq_some_iff.mp h
    obtain ⟨str, hstr, h⟩ := Option.bind_eq_some_iff.mp h
    cases h
    simp [decodeMajor, decodeCborUint_of_strict huint, readExact_of_strict hbuf, hstr]
  · obtain ⟨⟨n, tail⟩, huint, h⟩ := Option.bind_eq_some_iff.mp h
    obtain ⟨⟨items, tail'⟩, hitems, h⟩ := Option.bind_eq_some_iff.mp h
    cases h
    simp [decodeMajor, decodeCborUint_of_strict huint, decodeItems_of_strict hd n hitems]
  · obtain ⟨⟨n, tail⟩, huint, h⟩ := Option.bind_eq_some_iff.mp h
    obtain ⟨⟨entries, tail'⟩, hentries, h⟩ := Option.bind_eq_some_iff.mp h
    cases h
    simp [decodeMajor, decodeCborUint_of_strict huint, decodeEntries_of_strict hd n hentries]
  · obtain ⟨⟨tag, tail⟩, huint, h⟩ := Option.bind_eq_some_iff.mp h
    obtain ⟨⟨content, tail'⟩, hcontent, h⟩ := Option.bind_eq_some_iff.mp h
    dsimp only at h
    split at h
    · next htag =>
      obtain ⟨w, hw, h⟩ := Option.bind_eq_some_iff.mp h
      cases h
      simp [decodeMajor, decodeCborUint_of_strict huint, hd hcontent, htag,
        decodeLink_of_strict hw]
    · cases h
  · exact decodeSimple_of_strict h
  · cases h

end

section

variable [CidCrate] [CidCrate.Lawful]

/-- Where the strict decoder answers, the decoder answers the same. -/
theorem decodeDagCbor_of_strict :
    ∀ fuel : Nat, Extends (decodeDagCbor fuel) (strictDagCbor fuel)
  | 0, _, _, h => by cases h
  | _ + 1, [], _, h => by cases h
  | fuel + 1, _ :: _, _, h => decodeMajor_of_strict (decodeDagCbor_of_strict fuel) h

/-! ## Decoding what was encoded -/

/-- **The decoder inverts the encoder**: on the bytes of a value followed by any
suffix it returns the value and leaves exactly the suffix. -/
theorem decodeDagCbor_cborBytes {v : Ipld} (hv : v.Wf Ipld.CborInt) (fuel : Nat)
    (s : List UInt8) (hfuel : (cborBytes v ++ s).length ≤ fuel) :
    decodeDagCbor fuel (cborBytes v ++ s) = .ok (v, s) :=
  decodeDagCbor_of_strict fuel (strictDagCbor_cborBytes hv fuel s hfuel)

/-- Decoding an encoding gives the value back. -/
theorem fromDagCbor_cborBytes {v : Ipld} (hv : v.Wf Ipld.CborInt) :
    Ipld.fromDagCbor (cborBytes v) = .ok v := by
  have h := decodeDagCbor_cborBytes hv (cborBytes v).length [] (by simp)
  rw [List.append_nil] at h
  simp [Ipld.fromDagCbor, runDagCbor, h]

/-- On values whose integers fit the 64-bit heads, equal bytes mean equal values. -/
theorem cborBytes_injOn {v w : Ipld} (hv : v.Wf Ipld.CborInt) (hw : w.Wf Ipld.CborInt)
    (h : cborBytes v = cborBytes w) : v = w := by
  have hdec := fromDagCbor_cborBytes hv
  rw [h, fromDagCbor_cborBytes hw] at hdec
  exact (Except.ok.inj hdec).symm

end

/-- **DAG-CBOR round trip with exact consumption.** Encoding succeeds, and the
decoder run on the encoding followed by any suffix returns the value and leaves
exactly the suffix unread. -/
theorem toDagCbor_decodes_exactly [CidCrate] [CidCrate.Lawful] (v : Ipld)
    (hv : v.Wf Ipld.CborInt) (s : List UInt8) :
    ∃ b, v.toDagCbor = .ok b ∧ runDagCbor (b ++ s) = .ok (v, s) :=
  ⟨cborBytes v, toDagCbor_eq v, decodeDagCbor_cborBytes hv _ s le_rfl⟩

open scoped CidFormat in
/-- A map that holds both ends of the integer range and a link to a raw block. -/
def sampleValue : Ipld :=
  .map [("k", .list [.integer (2 ^ 64 - 1), .integer (-2 ^ 64)]),
    ("next", .link (cidOf codecRaw [1, 2, 3]))]

theorem sampleValue_wf : sampleValue.Wf Ipld.CborInt := by
  refine .map _ (by decide) (by decide) (by decide) ?_
  intro e he
  simp only [List.mem_cons, List.not_mem_nil, or_false] at he
  rcases he with rfl | rfl
  · refine .list _ (by decide) ?_
    intro i hi
    simp only [List.mem_cons, List.not_mem_nil, or_false] at hi
    rcases hi with rfl | rfl
    · exact .integer _ (by decide)
    · exact .integer _ (by decide)
  · exact .link _

open scoped CidFormat in
theorem toDagCbor_decodes_exactly_sample : ∃ b, sampleValue.toDagCbor = .ok b ∧
      runDagCbor (b ++ [0xff]) = .ok (sampleValue, [0xff]) :=
  toDagCbor_decodes_exactly sampleValue sampleValue_wf [0xff]

end Ipfrs.Core
