/-
Ipfrs.Core.DagCborGrammar — what the DAG-CBOR decoder takes.

`Item v bytes` says that `bytes` are one item, which the decoder takes for `v`: heads in
any of their widths, tags that are dropped, floats of three sizes, keys in any order. The
decoder reads an item off the front of its input and leaves the rest, and it takes nothing
else (`runDagCbor_eq_ok_iff`).
-/
import Ipfrs.Core.DagCborStrict

namespace Ipfrs.Core

open Ipfrs.Lib

/-! ## Heads and simple values -/

/-- `head` is a head of a major type and an argument, in any of its widths. -/
inductive Head (majorType n : Nat) : List UInt8 → Prop
  | short {first : UInt8} : (first >>> 5).toNat = majorType → (first &&& 0x1f).toNat = n →
      n ≤ 23 → Head majorType n [first]
  | wide {first : UInt8} {w : Nat} : (first >>> 5).toNat = majorType →
      ((first &&& 0x1f).toNat, w) ∈ wideHeads → n < 256 ^ w →
      Head majorType n (first :: beBytes w n)

/-- A head is its first byte and what `decode_cbor_uint` reads, whatever stands behind. -/
theorem Head.decodes {m n : Nat} {head : List UInt8} (h : Head m n head) :
    ∃ first tail, head = first :: tail ∧ (first >>> 5).toNat = m
      ∧ ∀ s, decodeCborUint (first &&& 0x1f).toNat (tail ++ s) = .ok (n, s) := by
  cases h with
  | @short first hm hn hle =>
    exact ⟨first, [], rfl, hm, fun s => by simp [decodeCborUint, hn, hle]⟩
  | @wide first w hm hw hn =>
    exact ⟨first, _, rfl, hm, decodeCborUint_wide hw hn⟩

theorem Head.of_decodes {first : UInt8} {n : Nat} {input rest : List UInt8}
    (h : decodeCborUint (first &&& 0x1f).toNat input = .ok (n, rest)) :
    ∃ head, first :: input = head ++ rest ∧ Head (first >>> 5).toNat n head := by
  rcases decodeCborUint_eq_ok h with ⟨hle, hn, hrest⟩ | ⟨w, hw, hn, hinput⟩
  · exact ⟨[first], by rw [hrest, List.singleton_append], .short rfl hn.symm (hn ▸ hle)⟩
  · exact ⟨first :: beBytes w n, by rw [hinput, List.cons_append], .wide rfl hw hn⟩

/-- A simple value is its own bytes. -/
theorem decodeSimple_takes {info : Nat} {input rest : List UInt8} {v : Ipld}
    (h : decodeSimple info input = .ok (v, rest)) :
    ∃ tail, input = tail ++ rest ∧ decodeSimple info tail = .ok (v, []) := by
  have wide : ∀ (what : String) (w : Nat) (f : List UInt8 → Ipld),
      (readExact what w input >>= fun read => .ok (f read.1, read.2)) = .ok (v, rest) →
      ∃ tail, input = tail ++ rest
        ∧ (readExact what w tail >>= fun read => .ok (f read.1, read.2)) = .ok (v, []) := by
    intro what w f hw
    obtain ⟨⟨b, last⟩, hread, hok⟩ := bind_eq_ok.mp hw
    cases hok
    obtain ⟨rfl, hlen⟩ := readExact_eq_ok hread
    have hself : readExact what w b = .ok (b, []) := by
      simpa using readExact_append what b [] hlen
    exact ⟨b, rfl, by rw [hself]; rfl⟩
  unfold decodeSimple at h ⊢
  split at h
  · cases h; exact ⟨[], rfl, rfl⟩
  · cases h; exact ⟨[], rfl, rfl⟩
  · cases h; exact ⟨[], rfl, rfl⟩
  · exact wide _ _ (fun b => .float (f16ToF64 (UInt16.ofNat (beNat b)))) h
  · exact wide _ _ (fun b => .float (f32ToF64 (UInt32.ofNat (beNat b)))) h
  · exact wide _ _ (fun b => .float (UInt64.ofNat (beNat b))) h
  · cases h

theorem decodeSimple_append {info : Nat} {tail : List UInt8} {v : Ipld}
    (h : decodeSimple info tail = .ok (v, [])) (s : List UInt8) :
    decodeSimple info (tail ++ s) = .ok (v, s) := by
  have wide : ∀ (what : String) (w : Nat) (f : List UInt8 → Ipld),
      (readExact what w tail >>= fun read => .ok (f read.1, read.2)) = .ok (v, []) →
      (readExact what w (tail ++ s) >>= fun read => .ok (f read.1, read.2)) = .ok (v, s) := by
    intro what w f hw
    obtain ⟨⟨b, last⟩, hread, hok⟩ := bind_eq_ok.mp hw
    cases hok
    obtain ⟨rfl, hlen⟩ := readExact_eq_ok hread
    rw [List.append_nil, readExact_append what b s hlen]
    rfl
  unfold decodeSimple at h ⊢
  split at h
  · cases h; rfl
  · cases h; rfl
  · cases h; rfl
  · exact wide _ _ (fun b => .float (f16ToF64 (UInt16.ofNat (beNat b)))) h
  · exact wide _ _ (fun b => .float (f32ToF64 (UInt32.ofNat (beNat b)))) h
  · exact wide _ _ (fun b => .float (UInt64.ofNat (beNat b))) h
  · cases h

/-- An entry of a map with the bytes of its key and its value. -/
structure Entry where
  key : String
  keyBytes : List UInt8
  value : Ipld
  valueBytes : List UInt8

/-- The bytes of the entry. -/
def Entry.bytes (e : Entry) : List UInt8 := e.keyBytes ++ e.valueBytes

/-- The decoder at a head: one round of its recursion is spent, and the rest fits the
others. -/
theorem Head.round {m n fuel : Nat} {head s : List UInt8} (h : Head m n head)
    (hfuel : (head ++ s).length ≤ fuel) :
    ∃ f first input, fuel = f + 1 ∧ head ++ s = first :: input ∧ s.length ≤ f
      ∧ (first >>> 5).toNat = m ∧ decodeCborUint (first &&& 0x1f).toNat input = .ok (n, s) := by
  obtain ⟨first, tail, rfl, hm, hread⟩ := h.decodes
  cases fuel with
  | zero => simp at hfuel
  | succ f =>
    refine ⟨f, first, tail ++ s, rfl, rfl, ?_, hm, hread s⟩
    simp only [List.cons_append, List.length_cons, List.length_append] at hfuel
    omega

theorem decodeItems_parts {decode : List UInt8 → Except Error (Ipld × List UInt8)}
    (s : List UInt8) : ∀ parts : List (Ipld × List UInt8),
      (∀ p ∈ parts, ∀ t, (p.2 ++ t).length ≤ (parts.flatMap Prod.snd ++ s).length →
        decode (p.2 ++ t) = .ok (p.1, t)) →
      decodeItems decode parts.length (parts.flatMap Prod.snd ++ s)
        = .ok (parts.map Prod.fst, s)
  | [], _ => rfl
  | p :: parts, h => by
    have hp := h p List.mem_cons_self (parts.flatMap Prod.snd ++ s) (by simp)
    have ih := decodeItems_parts s parts (fun q hq t ht => h q (List.mem_cons_of_mem _ hq) t
      (ht.trans (by simp only [List.flatMap_cons, List.length_append]; omega)))
    rw [List.length_cons, decodeItems, List.flatMap_cons, List.append_assoc, hp, ok_bind]
    dsimp only
    rw [ih]
    rfl

theorem decodeEntries_entries {decode : List UInt8 → Except Error (Ipld × List UInt8)}
    (s : List UInt8) : ∀ (entries : List Entry) (map : List (String × Ipld)),
      (∀ e ∈ entries, ∀ t,
        (e.keyBytes ++ t).length ≤ (entries.flatMap Entry.bytes ++ s).length →
        decode (e.keyBytes ++ t) = .ok (.string e.key, t)) →
      (∀ e ∈ entries, ∀ t,
        (e.valueBytes ++ t).length ≤ (entries.flatMap Entry.bytes ++ s).length →
        decode (e.valueBytes ++ t) = .ok (e.value, t)) →
      decodeEntries decode entries.length (entries.flatMap Entry.bytes ++ s) map
        = .ok ((entries.map fun e => (e.key, e.value)).foldl
            (fun m e => SortedAssoc.insert e.1 e.2 m) map, s)
  | [], _, _, _ => rfl
  | e :: entries, map, hk, hv => by
    have hlen : (entries.flatMap Entry.bytes ++ s).length
        ≤ ((e :: entries).flatMap Entry.bytes ++ s).length := by
      simp only [List.flatMap_cons, List.length_append]
      omega
    have hkey := hk e List.mem_cons_self (e.valueBytes ++ (entries.flatMap Entry.bytes ++ s))
      (by simp [Entry.bytes])
    have hval := hv e List.mem_cons_self (entries.flatMap Entry.bytes ++ s)
      (by simp [Entry.bytes])
    have ih := decodeEntries_entries s entries (SortedAssoc.insert e.key e.value map)
      (fun e' he t ht => hk e' (List.mem_cons_of_mem _ he) t (ht.trans hlen))
      (fun e' he t ht => hv e' (List.mem_cons_of_mem _ he) t (ht.trans hlen))
    have hbytes : (e :: entries).flatMap Entry.bytes ++ s
        = e.keyBytes ++ (e.valueBytes ++ (entries.flatMap Entry.bytes ++ s)) := by
      simp [Entry.bytes]
    rw [List.length_cons, decodeEntries, hbytes, hkey, ok_bind]
    simp only [hval, ok_bind]
    exact ih

/-! ## Items -/

section

variable [CidCrate]

/-- `bytes` are one item, which the decoder takes for the value. -/
inductive Item : Ipld → List UInt8 → Prop
  | unsigned {n : Nat} {head : List UInt8} : Head 0 n head → Item (.integer n) head
  | negative {n : Nat} {head : List UInt8} : Head 1 n head → Item (.integer (-1 - n)) head
  | bytes {b head : List UInt8} : Head 2 b.length head → Item (.bytes b) (head ++ b)
  | string {b head : List UInt8} {s : String} : Head 3 b.length head → ofUtf8? b = some s →
      Item (.string s) (head ++ b)
  | list {head : List UInt8} (parts : List (Ipld × List UInt8)) : Head 4 parts.length head →
      (∀ p ∈ parts, Item p.1 p.2) →
      Item (.list (parts.map Prod.fst)) (head ++ parts.flatMap Prod.snd)
  | map {head : List UInt8} (entries : List Entry) : Head 5 entries.length head →
      (∀ e ∈ entries, Item (.string e.key) e.keyBytes) →
      (∀ e ∈ entries, Item e.value e.valueBytes) →
      Item (.map (SortedAssoc.ofEntries (entries.map fun e => (e.key, e.value))))
        (head ++ entries.flatMap Entry.bytes)
  | link {head bytes : List UInt8} {content v : Ipld} : Head 6 cidTag head →
      Item content bytes → decodeLink content = .ok v → Item v (head ++ bytes)
  | tagged {head bytes : List UInt8} {tag : Nat} {v : Ipld} : Head 6 tag head → tag ≠ cidTag →
      Item v bytes → Item v (head ++ bytes)
  | simple {first : UInt8} {tail : List UInt8} {v : Ipld} : (first >>> 5).toNat = 7 →
      decodeSimple (first &&& 0x1f).toNat tail = .ok (v, []) → Item v (first :: tail)

/-! ## What is decoded is an item -/

/-- What the decoder takes is an item, and it leaves the rest. -/
def TakesItem (decode : List UInt8 → Except Error (Ipld × List UInt8)) : Prop :=
  ∀ (input rest : List UInt8) (v : Ipld), decode input = .ok (v, rest) →
    ∃ bytes, input = bytes ++ rest ∧ Item v bytes

variable {decode : List UInt8 → Except Error (Ipld × List UInt8)}

theorem decodeItems_takes (hd : TakesItem decode) :
    ∀ {n : Nat} {input rest : List UInt8} {items : List Ipld},
      decodeItems decode n input = .ok (items, rest) →
      ∃ parts : List (Ipld × List UInt8), items = parts.map Prod.fst ∧ parts.length = n
        ∧ input = parts.flatMap Prod.snd ++ rest ∧ ∀ p ∈ parts, Item p.1 p.2
  | 0, input, rest, items, h => by
    cases h
    exact ⟨[], rfl, rfl, rfl, by simp⟩
  | n + 1, input, rest, items, h => by
    rw [decodeItems] at h
    obtain ⟨⟨v, mid⟩, hv, h⟩ := bind_eq_ok.mp h
    obtain ⟨⟨vs, last⟩, hvs, h⟩ := bind_eq_ok.mp h
    cases h
    obtain ⟨bytes, rfl, hitem⟩ := hd _ _ _ hv
    obtain ⟨parts, rfl, rfl, rfl, hall⟩ := decodeItems_takes hd hvs
    exact ⟨(v, bytes) :: parts, rfl, rfl, by simp, List.forall_mem_cons.mpr ⟨hitem, hall⟩⟩

theorem decodeEntries_takes (hd : TakesItem decode) : ∀ {n : Nat} {input rest : List UInt8}
      {map result : List (String × Ipld)}, decodeEntries decode n input map = .ok (result, rest) →
      ∃ entries : List Entry, entries.length = n
        ∧ result = (entries.map fun e => (e.key, e.value)).foldl
            (fun m e => SortedAssoc.insert e.1 e.2 m) map
        ∧ input = entries.flatMap Entry.bytes ++ rest
        ∧ ∀ e ∈ entries, Item (.string e.key) e.keyBytes ∧ Item e.value e.valueBytes
  | 0, input, rest, map, result, h => by
    cases h
    exact ⟨[], rfl, rfl, rfl, by simp⟩
  | n + 1, input, rest, map, result, h => by
    rw [decodeEntries] at h
    obtain ⟨⟨key, afterKey⟩, hkey, h⟩ := bind_eq_ok.mp h
    cases key with
    | string s =>
      obtain ⟨⟨v, mid⟩, hv, hmore⟩ := bind_eq_ok.mp h
      obtain ⟨keyBytes, rfl, hs⟩ := hd _ _ _ hkey
      obtain ⟨bytes, rfl, hitem⟩ := hd _ _ _ hv
      obtain ⟨entries, hlen, hres, rfl, hall⟩ := decodeEntries_takes hd hmore
      exact ⟨⟨s, keyBytes, v, bytes⟩ :: entries, by simp [hlen], hres, by simp [Entry.bytes],
        List.forall_mem_cons.mpr ⟨⟨hs, hitem⟩, hall⟩⟩
    | _ => cases h

theorem decodeMajor_takes (hd : TakesItem decode) {first : UInt8} {input rest : List UInt8}
    {v : Ipld}
    (h : decodeMajor decode (first >>> 5).toNat (first &&& 0x1f).toNat input = .ok (v, rest)) :
    ∃ bytes, first :: input = bytes ++ rest ∧ Item v bytes := by
  have head : ∀ {m n : Nat} {mid : List UInt8}, (first >>> 5).toNat = m →
      decodeCborUint (first &&& 0x1f).toNat input = .ok (n, mid) →
      ∃ head, first :: input = head ++ mid ∧ Head m n head := by
    rintro m n mid rfl hread
    exact Head.of_decodes hread
  unfold decodeMajor at h
  split at h
  · next hm =>
    obtain ⟨⟨n, mid⟩, hread, h⟩ := bind_eq_ok.mp h
    cases h
    obtain ⟨bytes, heq, hhead⟩ := head hm hread
    exact ⟨bytes, heq, .unsigned hhead⟩
  · next hm =>
    obtain ⟨⟨n, mid⟩, hread, h⟩ := bind_eq_ok.mp h
    cases h
    obtain ⟨bytes, heq, hhead⟩ := head hm hread
    exact ⟨bytes, heq, .negative hhead⟩
  · next hm =>
    obtain ⟨⟨n, mid⟩, hread, h⟩ := bind_eq_ok.mp h
    obtain ⟨⟨b, last⟩, hb, h⟩ := bind_eq_ok.mp h
    cases h
    obtain ⟨bytes, heq, hhead⟩ := head hm hread
    obtain ⟨rfl, rfl⟩ := readExact_eq_ok hb
    exact ⟨bytes ++ b, by rw [heq, List.append_assoc], .bytes hhead⟩
  · next hm =>
    obtain ⟨⟨n, mid⟩, hread, h⟩ := bind_eq_ok.mp h
    obtain ⟨⟨b, last⟩, hb, htext⟩ := bind_eq_ok.mp h
    obtain ⟨bytes, heq, hhead⟩ := head hm hread
    obtain ⟨rfl, rfl⟩ := readExact_eq_ok hb
    dsimp only at htext
    split at htext
    · next s hs =>
      cases htext
      exact ⟨bytes ++ b, by rw [heq, List.append_assoc], .string hhead hs⟩
    · cases htext
  · next hm =>
    obtain ⟨⟨n, mid⟩, hread, h⟩ := bind_eq_ok.mp h
    obtain ⟨⟨items, last⟩, hitems, h⟩ := bind_eq_ok.mp h
    cases h
    obtain ⟨bytes, heq, hhead⟩ := head hm hread
    obtain ⟨parts, rfl, rfl, rfl, hall⟩ := decodeItems_takes hd hitems
    exact ⟨bytes ++ parts.flatMap Prod.snd, by rw [heq, List.append_assoc],
      .list parts hhead hall⟩
  · next hm =>
    obtain ⟨⟨n, mid⟩, hread, h⟩ := bind_eq_ok.mp h
    obtain ⟨⟨result, last⟩, hentries, h⟩ := bind_eq_ok.mp h
    cases h
    obtain ⟨bytes, heq, hhead⟩ := head hm hread
    obtain ⟨entries, rfl, rfl, rfl, hall⟩ := decodeEntries_takes hd hentries
    exact ⟨bytes ++ entries.flatMap Entry.bytes, by rw [heq, List.append_assoc],
      .map entries hhead (fun e he => (hall e he).1) (fun e he => (hall e he).2)⟩
  · next hm =>
    obtain ⟨⟨tag, mid⟩, hread, h⟩ := bind_eq_ok.mp h
    obtain ⟨⟨content, last⟩, hcontent, hv⟩ := bind_eq_ok.mp h
    obtain ⟨bytes, heq, hhead⟩ := head hm hread
    obtain ⟨b, rfl, hitem⟩ := hd _ _ _ hcontent
    dsimp only at hv
    split at hv
    · next htag =>
      obtain ⟨w, hlink, hv⟩ := bind_eq_ok.mp hv
      cases hv
      exact ⟨bytes ++ b, by rw [heq, List.append_assoc], .link (htag ▸ hhead) hitem hlink⟩
    · next htag =>
      cases hv
      exact ⟨bytes ++ b, by rw [heq, List.append_assoc], .tagged hhead htag hitem⟩
  · next hm =>
    obtain ⟨tail, rfl, hsimple⟩ := decodeSimple_takes h
    exact ⟨first :: tail, rfl, .simple hm hsimple⟩
  · cases h

theorem decodeDagCbor_takes : ∀ fuel : Nat, TakesItem (decodeDagCbor fuel)
  | 0, _, _, _, h => by cases h
  | _ + 1, [], _, _, h => by cases h
  | fuel + 1, _ :: _, _, _, h => decodeMajor_takes (decodeDagCbor_takes fuel) h

/-! ## An item is decoded -/

/-- **An item is decoded**, whatever stands behind it. -/
theorem decodeDagCbor_item {v : Ipld} {bytes : List UInt8} (h : Item v bytes) (fuel : Nat)
    (s : List UInt8) (hfuel : (bytes ++ s).length ≤ fuel) :
    decodeDagCbor fuel (bytes ++ s) = .ok (v, s) := by
  induction h generalizing fuel s with
  | unsigned hhead | negative hhead =>
    obtain ⟨f, first, input, rfl, heq, -, hm, hread⟩ := hhead.round hfuel
    rw [heq, decodeDagCbor, hm, decodeMajor, hread, ok_bind]
  | @bytes b _ hhead =>
    rw [List.append_assoc] at hfuel ⊢
    obtain ⟨f, first, input, rfl, heq, -, hm, hread⟩ := hhead.round hfuel
    rw [heq, decodeDagCbor, hm, decodeMajor, hread, ok_bind]
    simp only [readExact_append _ b s rfl, ok_bind]
  | @string b _ str hhead hs =>
    rw [List.append_assoc] at hfuel ⊢
    obtain ⟨f, first, input, rfl, heq, -, hm, hread⟩ := hhead.round hfuel
    rw [heq, decodeDagCbor, hm, decodeMajor, hread, ok_bind]
    simp only [readExact_append _ b s rfl, ok_bind, hs]
  | list parts hhead _ ih =>
    rw [List.append_assoc] at hfuel ⊢
    obtain ⟨f, first, input, rfl, heq, hrest, hm, hread⟩ := hhead.round hfuel
    have hitems := decodeItems_parts s parts (fun p hp t ht => ih p hp f t (ht.trans hrest))
    rw [heq, decodeDagCbor, hm, decodeMajor, hread, ok_bind]
    simp only [hitems, ok_bind]
  | map entries hhead _ _ ihk ihv =>
    rw [List.append_assoc] at hfuel ⊢
    obtain ⟨f, first, input, rfl, heq, hrest, hm, hread⟩ := hhead.round hfuel
    have hentries := decodeEntries_entries s entries []
      (fun e he t ht => ihk e he f t (ht.trans hrest))
      (fun e he t ht => ihv e he f t (ht.trans hrest))
    rw [heq, decodeDagCbor, hm, decodeMajor, hread, ok_bind]
    simp only [hentries, ok_bind]
    rfl
  | link hhead _ hlink ih =>
    rw [List.append_assoc] at hfuel ⊢
    obtain ⟨f, first, input, rfl, heq, hrest, hm, hread⟩ := hhead.round hfuel
    rw [heq, decodeDagCbor, hm, decodeMajor, hread, ok_bind]
    simp only [ih f s hrest, ok_bind, if_true, hlink]
  | tagged hhead htag _ ih =>
    rw [List.append_assoc] at hfuel ⊢
    obtain ⟨f, first, input, rfl, heq, hrest, hm, hread⟩ := hhead.round hfuel
    rw [heq, decodeDagCbor, hm, decodeMajor, hread, ok_bind]
    simp only [ih f s hrest, ok_bind, if_neg htag]
  | @simple first tail v hm hsimple =>
    cases fuel with
    | zero => simp at hfuel
    | succ f =>
      rw [List.cons_append, decodeDagCbor, hm, decodeMajor]
      exact decodeSimple_append hsimple s

/-- **The decoder takes exactly the items.** -/
theorem runDagCbor_eq_ok_iff {input rest : List UInt8} {v : Ipld} :
    runDagCbor input = .ok (v, rest) ↔ ∃ bytes, input = bytes ++ rest ∧ Item v bytes := by
  constructor
  · exact decodeDagCbor_takes input.length input rest v
  · rintro ⟨bytes, rfl, h⟩
    exact decodeDagCbor_item h _ rest (Nat.le_refl _)

end

end Ipfrs.Core
