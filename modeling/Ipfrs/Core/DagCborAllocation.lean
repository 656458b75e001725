/-
Ipfrs.Core.DagCborAllocation — the memory the DAG-CBOR decoder asks for.

`decode_dag_cbor` passes the length of a byte string, a text or an array to
`vec![0u8; len]` or `Vec::with_capacity(len)` before it reads what was announced.
`Traced` is a computation with the list of these requests, and `Traced.decodeDagCbor`
the decoder written in it; without the requests it is `decodeDagCbor`
(`result_decodeDagCbor`). A request that the machine refuses ends the process, so what
stands behind it in the trace is then not reached.

`Overdraws input` says that the input is the beginning of an item, good as far as it goes,
up to a head that announces more than what is left. These are exactly the inputs on which
a request exceeds what is unread (`allocations_within_iff`).
-/
import Ipfrs.Core.DagCborGrammar

namespace Ipfrs.Core

open Ipfrs.Lib

/-! ## The requests -/

/-- A length passed to the allocator, and the bytes not yet read. The length of an array is
in items, of 96 bytes each. -/
structure Request where
  len : Nat
  unread : Nat
  deriving DecidableEq

/-- A computation with the requests it makes, those before a failure included. -/
structure Traced (α : Type) where
  requests : List Request
  result : Except Error α

namespace Traced

variable {α β : Type}

/-- A computation that asks for nothing. -/
def lift (result : Except Error α) : Traced α := { requests := [], result }

/-- `vec![0u8; len]` and `Vec::with_capacity(len)`. -/
def allocate (len : Nat) (input : List UInt8) : Traced Unit :=
  { requests := [{ len, unread := input.length }], result := .ok () }

def bind (x : Traced α) (f : α → Traced β) : Traced β :=
  match x.result with
  | .ok a => { requests := x.requests ++ (f a).requests, result := (f a).result }
  | .error e => { requests := x.requests, result := .error e }

instance : Monad Traced where
  pure a := lift (.ok a)
  bind := bind

@[simp] theorem result_lift (r : Except Error α) : (lift r).result = r := rfl

@[simp] theorem requests_lift (r : Except Error α) : (lift r).requests = [] := rfl

@[simp] theorem result_allocate (len : Nat) (input : List UInt8) :
    (allocate len input).result = .ok () := rfl

@[simp] theorem result_pure (a : α) : (pure a : Traced α).result = .ok a := rfl

@[simp] theorem result_bind (x : Traced α) (f : α → Traced β) :
    (x >>= f).result = x.result >>= fun a => (f a).result := by
  show (bind x f).result = _
  unfold bind
  cases x.result <;> rfl

/-- Some request is larger than what was left to read. -/
def Over (x : Traced α) : Prop := ∃ r ∈ x.requests, r.unread < r.len

@[simp] theorem over_lift (r : Except Error α) : ¬ Over (lift r) := by
  simp [Over]

@[simp] theorem over_pure (a : α) : ¬ Over (pure a : Traced α) := over_lift _

@[simp] theorem over_allocate (len : Nat) (input : List UInt8) :
    Over (allocate len input) ↔ input.length < len := by
  simp [Over, allocate]

/-- A request of a sequence is one of its first part or, if that succeeds, of the rest. -/
theorem over_bind (x : Traced α) (f : α → Traced β) :
    Over (x >>= f) ↔ Over x ∨ ∃ a, x.result = .ok a ∧ Over (f a) := by
  show Over (bind x f) ↔ _
  unfold bind Over
  cases x.result with
  | ok a => simp [or_and_right, exists_or]
  | error e => simp

/-- What asks for nothing more after a part asks for too much if that part does. -/
theorem over_bind_of_quiet {x : Traced α} {f : α → Traced β} (hf : ∀ a, ¬ Over (f a)) :
    Over (x >>= f) ↔ Over x := by
  rw [over_bind, or_iff_left]
  rintro ⟨a, -, ha⟩
  exact hf a ha

/-! ## The decoder with its requests -/

/-- The loop of the array branch. -/
def decodeItems (decode : List UInt8 → Traced (Ipld × List UInt8)) :
    Nat → List UInt8 → Traced (List Ipld × List UInt8)
  | 0, input => pure ([], input)
  | n + 1, input => do
      let (item, input) ← decode input
      let (items, input) ← decodeItems decode n input
      pure (item :: items, input)

/-- The loop of the map branch. -/
def decodeEntries (decode : List UInt8 → Traced (Ipld × List UInt8)) :
    Nat → List UInt8 → List (String × Ipld) → Traced (List (String × Ipld) × List UInt8)
  | 0, input, map => pure (map, input)
  | n + 1, input, map => do
      let (key, input) ← decode input
      match key with
      | .string s => do
          let (value, input) ← decode input
          decodeEntries decode n input (SortedAssoc.insert s value map)
      | _ => lift (.error (.deserialization "Map keys must be strings in IPLD"))

section

variable [CidCrate]

/-- `decode_dag_cbor` after its first byte. A map is not given its capacity. -/
def decodeMajor (decode : List UInt8 → Traced (Ipld × List UInt8))
    (majorType additionalInfo : Nat) (input : List UInt8) : Traced (Ipld × List UInt8) :=
  match majorType with
  | 0 => do
      let (value, input) ← lift (decodeCborUint additionalInfo input)
      pure (.integer value, input)
  | 1 => do
      let (value, input) ← lift (decodeCborUint additionalInfo input)
      pure (.integer (-1 - value), input)
  | 2 => do
      let (len, input) ← lift (decodeCborUint additionalInfo input)
      allocate len input
      let (b, input) ← lift (readExact "bytes" len input)
      pure (.bytes b, input)
  | 3 => do
      let (len, input) ← lift (decodeCborUint additionalInfo input)
      allocate len input
      let (b, input) ← lift (readExact "string" len input)
      match ofUtf8? b with
      | some s => pure (.string s, input)
      | none => lift (.error (.deserialization "Invalid UTF-8"))
  | 4 => do
      let (len, input) ← lift (decodeCborUint additionalInfo input)
      allocate len input
      let (items, input) ← decodeItems decode len input
      pure (.list items, input)
  | 5 => do
      let (len, input) ← lift (decodeCborUint additionalInfo input)
      let (entries, input) ← decodeEntries decode len input []
      pure (.map entries, input)
  | 6 => do
      let (tag, input) ← lift (decodeCborUint additionalInfo input)
      let (content, input) ← decode input
      if tag = cidTag then
        let v ← lift (decodeLink content)
        pure (v, input)
      else pure (content, input)
  | 7 => lift (decodeSimple additionalInfo input)
  | n => lift (.error (.deserialization ("Unknown CBOR major type: " ++ toString n)))

/-- `decode_dag_cbor`. -/
def decodeDagCbor : Nat → List UInt8 → Traced (Ipld × List UInt8)
  | 0, _ =>
    lift (.error (.deserialization "Failed to read CBOR: failed to fill whole buffer"))
  | _ + 1, [] =>
    lift (.error (.deserialization "Failed to read CBOR: failed to fill whole buffer"))
  | fuel + 1, firstByte :: input =>
    decodeMajor (decodeDagCbor fuel) (firstByte >>> 5).toNat (firstByte &&& 0x1f).toNat input

end

/-! ### Without the requests it is the decoder -/

variable {plain : List UInt8 → Except Error (Ipld × List UInt8)}

theorem result_decodeItems {decode : List UInt8 → Traced (Ipld × List UInt8)}
    (h : ∀ input, (decode input).result = plain input) :
    ∀ (n : Nat) (input : List UInt8),
      (decodeItems decode n input).result = Core.decodeItems plain n input
  | 0, input => rfl
  | n + 1, input => by
    simp only [decodeItems, Core.decodeItems, result_bind, h, result_pure,
      result_decodeItems h n]

theorem result_decodeEntries {decode : List UInt8 → Traced (Ipld × List UInt8)}
    (h : ∀ input, (decode input).result = plain input) :
    ∀ (n : Nat) (input : List UInt8) (map : List (String × Ipld)),
      (decodeEntries decode n input map).result = Core.decodeEntries plain n input map
  | 0, input, map => rfl
  | n + 1, input, map => by
    simp only [decodeEntries, Core.decodeEntries, result_bind, h]
    congr 1
    funext p
    obtain ⟨key, input⟩ := p
    cases key <;> simp [h, result_decodeEntries h n]

theorem result_decodeMajor [CidCrate] {decode : List UInt8 → Traced (Ipld × List UInt8)}
    (h : ∀ input, (decode input).result = plain input) (majorType info : Nat) (input : List UInt8) :
    (decodeMajor decode majorType info input).result
      = Core.decodeMajor plain majorType info input := by
  unfold decodeMajor Core.decodeMajor
  split
  · simp
  · simp
  · simp
  · simp only [result_bind, result_lift, result_allocate, ok_bind]
    congr 1
    funext p
    congr 1
    funext q
    cases ofUtf8? q.1 <;> rfl
  · simp [result_decodeItems h]
  · simp [result_decodeEntries h]
  · simp only [result_bind, result_lift, h]
    congr 1
    funext p
    congr 1
    funext q
    by_cases htag : p.1 = cidTag
    · simp [htag]
    · simp [htag]
  · rfl
  · simp

theorem result_decodeDagCbor [CidCrate] : ∀ (fuel : Nat) (input : List UInt8),
    (decodeDagCbor fuel input).result = Core.decodeDagCbor fuel input
  | 0, _ => rfl
  | _ + 1, [] => rfl
  | fuel + 1, b :: input => by
    rw [decodeDagCbor, Core.decodeDagCbor]
    exact result_decodeMajor (result_decodeDagCbor fuel) _ _ input

end Traced

/-- The requests made while a byte string is decoded. -/
def allocations [CidCrate] (input : List UInt8) : List Request :=
  (Traced.decodeDagCbor input.length input).requests

/-! ## Which inputs ask for too much -/

section

variable {decode : List UInt8 → Traced (Ipld × List UInt8)}

/-- A loop over items reaches the one behind those it decodes. -/
theorem over_decodeItems (rest : List UInt8) (hrest : (decode rest).Over) :
    ∀ (parts : List (Ipld × List UInt8)) {n : Nat}, parts.length < n →
      (∀ p ∈ parts, ∀ t, (p.2 ++ t).length ≤ (parts.flatMap Prod.snd ++ rest).length →
        (decode (p.2 ++ t)).result = .ok (p.1, t)) →
      (Traced.decodeItems decode n (parts.flatMap Prod.snd ++ rest)).Over
  | [], n + 1, _, _ => by
    rw [Traced.decodeItems, Traced.over_bind]
    exact .inl hrest
  | p :: parts, n + 1, hlen, h => by
    have hp := h p List.mem_cons_self (parts.flatMap Prod.snd ++ rest) (by simp)
    have ih := over_decodeItems rest hrest parts (Nat.lt_of_succ_lt_succ hlen)
      (fun q hq t ht => h q (List.mem_cons_of_mem _ hq) t
        (ht.trans (by simp only [List.flatMap_cons, List.length_append]; omega)))
    rw [Traced.decodeItems, Traced.over_bind, List.flatMap_cons, List.append_assoc]
    refine .inr ⟨_, hp, ?_⟩
    dsimp only
    rw [Traced.over_bind]
    exact .inl ih

/-- A loop over entries reaches what is behind those it decodes. -/
theorem over_decodeEntries (tail : List UInt8) :
    ∀ (entries : List Entry) {n : Nat} (map : List (String × Ipld)), entries.length < n →
      (∀ map', (Traced.decodeEntries decode (n - entries.length) tail map').Over) →
      (∀ e ∈ entries, ∀ t,
        (e.keyBytes ++ t).length ≤ (entries.flatMap Entry.bytes ++ tail).length →
        (decode (e.keyBytes ++ t)).result = .ok (.string e.key, t)) →
      (∀ e ∈ entries, ∀ t,
        (e.valueBytes ++ t).length ≤ (entries.flatMap Entry.bytes ++ tail).length →
        (decode (e.valueBytes ++ t)).result = .ok (e.value, t)) →
      (Traced.decodeEntries decode n (entries.flatMap Entry.bytes ++ tail) map).Over
  | [], n, map, _, htail, _, _ => htail map
  | e :: entries, n + 1, map, hlen, htail, hk, hv => by
    have hsize : (entries.flatMap Entry.bytes ++ tail).length
        ≤ ((e :: entries).flatMap Entry.bytes ++ tail).length := by
      simp only [List.flatMap_cons, List.length_append]
      omega
    have hkey := hk e List.mem_cons_self (e.valueBytes ++ (entries.flatMap Entry.bytes ++ tail))
      (by simp [Entry.bytes])
    have hval := hv e List.mem_cons_self (entries.flatMap Entry.bytes ++ tail)
      (by simp [Entry.bytes])
    have hbytes : (e :: entries).flatMap Entry.bytes ++ tail
        = e.keyBytes ++ (e.valueBytes ++ (entries.flatMap Entry.bytes ++ tail)) := by
      simp [Entry.bytes]
    have ih := over_decodeEntries tail entries (SortedAssoc.insert e.key e.value map)
      (Nat.lt_of_succ_lt_succ hlen)
      (fun map' => by simpa using htail map')
      (fun e' he t ht => hk e' (List.mem_cons_of_mem _ he) t (ht.trans hsize))
      (fun e' he t ht => hv e' (List.mem_cons_of_mem _ he) t (ht.trans hsize))
    rw [Traced.decodeEntries, Traced.over_bind, hbytes]
    refine .inr ⟨_, hkey, ?_⟩
    dsimp only
    rw [Traced.over_bind]
    exact .inr ⟨_, hval, ih⟩

end

section

variable [CidCrate]

/-- The input is the beginning of an item up to a head of a byte string, a text or an
array that announces more than there is behind it. -/
inductive Overdraws : List UInt8 → Prop
  | head {m n : Nat} {head rest : List UInt8} : Head m n head → m = 2 ∨ m = 3 ∨ m = 4 →
      rest.length < n → Overdraws (head ++ rest)
  | item {n : Nat} {head rest : List UInt8} (parts : List (Ipld × List UInt8)) :
      Head 4 n head → (∀ p ∈ parts, Item p.1 p.2) → parts.length < n → Overdraws rest →
      Overdraws (head ++ (parts.flatMap Prod.snd ++ rest))
  | key {n : Nat} {head rest : List UInt8} (entries : List Entry) : Head 5 n head →
      (∀ e ∈ entries, Item (.string e.key) e.keyBytes ∧ Item e.value e.valueBytes) →
      entries.length < n → Overdraws rest →
      Overdraws (head ++ (entries.flatMap Entry.bytes ++ rest))
  | value {n : Nat} {head bytes rest : List UInt8} {s : String} (entries : List Entry) :
      Head 5 n head →
      (∀ e ∈ entries, Item (.string e.key) e.keyBytes ∧ Item e.value e.valueBytes) →
      entries.length < n → Item (.string s) bytes → Overdraws rest →
      Overdraws (head ++ (entries.flatMap Entry.bytes ++ (bytes ++ rest)))
  | tag {n : Nat} {head rest : List UInt8} : Head 6 n head → Overdraws rest →
      Overdraws (head ++ rest)

section

variable {decode : List UInt8 → Traced (Ipld × List UInt8)}

/-- Where a loop over items asks for too much, it has read items up to an item that does. -/
theorem overdraws_of_items (hd : TakesItem (fun input => (decode input).result))
    (hover : ∀ input, (decode input).Over → Overdraws input) :
    ∀ {n : Nat} {input : List UInt8}, (Traced.decodeItems decode n input).Over →
      ∃ (parts : List (Ipld × List UInt8)) (rest : List UInt8),
        input = parts.flatMap Prod.snd ++ rest ∧ (∀ p ∈ parts, Item p.1 p.2)
          ∧ parts.length < n ∧ Overdraws rest
  | 0, input, h => by
    rw [Traced.decodeItems] at h
    exact absurd h (Traced.over_pure _)
  | n + 1, input, h => by
    rw [Traced.decodeItems, Traced.over_bind] at h
    rcases h with h | ⟨⟨v, mid⟩, hv, h⟩
    · exact ⟨[], input, rfl, by simp, by simp, hover input h⟩
    · rw [Traced.over_bind] at h
      rcases h with h | ⟨_, _, h⟩
      · obtain ⟨bytes, rfl, hitem⟩ := hd _ _ _ hv
        obtain ⟨parts, rest, rfl, hall, hlen, hrest⟩ := overdraws_of_items hd hover h
        exact ⟨(v, bytes) :: parts, rest, by simp, List.forall_mem_cons.mpr ⟨hitem, hall⟩,
          by simpa using hlen, hrest⟩
      · exact absurd h (Traced.over_pure _)

/-- The same over entries: it has read whole ones, and perhaps a key. -/
theorem overdraws_of_entries (hd : TakesItem (fun input => (decode input).result))
    (hover : ∀ input, (decode input).Over → Overdraws input) :
    ∀ {n : Nat} {input : List UInt8} {map : List (String × Ipld)},
      (Traced.decodeEntries decode n input map).Over →
      ∃ (entries : List Entry) (tail : List UInt8), input = entries.flatMap Entry.bytes ++ tail
        ∧ (∀ e ∈ entries, Item (.string e.key) e.keyBytes ∧ Item e.value e.valueBytes)
        ∧ entries.length < n
        ∧ (Overdraws tail ∨ ∃ (s : String) (bytes rest : List UInt8),
            tail = bytes ++ rest ∧ Item (.string s) bytes ∧ Overdraws rest)
  | 0, input, map, h => by
    rw [Traced.decodeEntries] at h
    exact absurd h (Traced.over_pure _)
  | n + 1, input, map, h => by
    rw [Traced.decodeEntries, Traced.over_bind] at h
    rcases h with h | ⟨⟨key, mid⟩, hkey, h⟩
    · exact ⟨[], input, rfl, by simp, by simp, .inl (hover input h)⟩
    · cases key with
      | string s =>
        obtain ⟨keyBytes, rfl, hs⟩ := hd _ _ _ hkey
        dsimp only at h
        rw [Traced.over_bind] at h
        rcases h with h | ⟨⟨v, last⟩, hv, h⟩
        · exact ⟨[], _, rfl, by simp, by simp, .inr ⟨s, keyBytes, mid, rfl, hs, hover mid h⟩⟩
        · obtain ⟨bytes, rfl, hitem⟩ := hd _ _ _ hv
          obtain ⟨entries, tail, rfl, hall, hlen, htail⟩ := overdraws_of_entries hd hover h
          exact ⟨⟨s, keyBytes, v, bytes⟩ :: entries, tail, by simp [Entry.bytes],
            List.forall_mem_cons.mpr ⟨⟨hs, hitem⟩, hall⟩, by simpa using hlen, htail⟩
      | _ => exact absurd h (Traced.over_lift _)

omit [CidCrate] in
/-- What follows a head asks for too much, since reading a head asks for nothing. -/
theorem exists_head_of_over {α : Type} {first : UInt8} {input : List UInt8}
    {k : Nat × List UInt8 → Traced α}
    (h : (Traced.lift (decodeCborUint (first &&& 0x1f).toNat input) >>= k).Over) :
    ∃ n mid head, first :: input = head ++ mid ∧ Head (first >>> 5).toNat n head
      ∧ (k (n, mid)).Over := by
  rw [Traced.over_bind] at h
  rcases h with h | ⟨⟨n, mid⟩, hread, h⟩
  · exact absurd h (Traced.over_lift _)
  · obtain ⟨head, heq, hhead⟩ := Head.of_decodes hread
    exact ⟨n, mid, head, heq, hhead, h⟩

omit [CidCrate] in
/-- An integer is its head. -/
theorem not_over_integer {first : UInt8} {input : List UInt8}
    {f : Nat × List UInt8 → Ipld × List UInt8} :
    ¬ (Traced.lift (decodeCborUint (first &&& 0x1f).toNat input) >>= fun p =>
        pure (f p) : Traced _).Over := by
  rw [Traced.over_bind_of_quiet fun _ => Traced.over_pure _]
  exact Traced.over_lift _

theorem overdraws_of_major (hd : TakesItem (fun input => (decode input).result))
    (hover : ∀ input, (decode input).Over → Overdraws input) {first : UInt8} {input : List UInt8}
    (h : (Traced.decodeMajor decode (first >>> 5).toNat (first &&& 0x1f).toNat input).Over) :
    Overdraws (first :: input) := by
  unfold Traced.decodeMajor at h
  split at h
  · exact absurd h not_over_integer
  · exact absurd h not_over_integer
  · next hm =>
    -- a byte string asks once, for what its head says, and so does a text
    obtain ⟨n, mid, head, heq, hhead, h⟩ := exists_head_of_over h
    have hquiet : ∀ _ : Unit, ¬ (Traced.lift (readExact "bytes" n mid) >>= fun p =>
        pure (Ipld.bytes p.1, p.2) : Traced _).Over := fun _ => by
      rw [Traced.over_bind_of_quiet fun _ => Traced.over_pure _]
      exact Traced.over_lift _
    rw [Traced.over_bind_of_quiet hquiet, Traced.over_allocate] at h
    exact heq ▸ .head (hm ▸ hhead) (.inl rfl) h
  · next hm =>
    obtain ⟨n, mid, head, heq, hhead, h⟩ := exists_head_of_over h
    rw [Traced.over_bind, Traced.over_allocate] at h
    rcases h with h | ⟨_, _, h⟩
    · exact heq ▸ .head (hm ▸ hhead) (.inr (.inl rfl)) h
    · rw [Traced.over_bind] at h
      rcases h with h | ⟨q, _, h⟩
      · exact absurd h (Traced.over_lift _)
      · dsimp only at h
        split at h
        · exact absurd h (Traced.over_pure _)
        · exact absurd h (Traced.over_lift _)
  · next hm =>
    obtain ⟨n, mid, head, heq, hhead, h⟩ := exists_head_of_over h
    rw [Traced.over_bind, Traced.over_allocate,
      Traced.over_bind_of_quiet fun _ => Traced.over_pure _] at h
    rcases h with h | ⟨_, _, h⟩
    · exact heq ▸ .head (hm ▸ hhead) (.inr (.inr rfl)) h
    · obtain ⟨parts, rest, rfl, hall, hlen, hrest⟩ := overdraws_of_items hd hover h
      exact heq ▸ .item parts (hm ▸ hhead) hall hlen hrest
  · next hm =>
    obtain ⟨n, mid, head, heq, hhead, h⟩ := exists_head_of_over h
    rw [Traced.over_bind_of_quiet fun _ => Traced.over_pure _] at h
    obtain ⟨entries, tail, rfl, hall, hlen, htail⟩ := overdraws_of_entries hd hover h
    rcases htail with htail | ⟨s, bytes, rest, rfl, hs, hrest⟩
    · exact heq ▸ .key entries (hm ▸ hhead) hall hlen htail
    · exact heq ▸ .value entries (hm ▸ hhead) hall hlen hs hrest
  · next hm =>
    obtain ⟨n, mid, head, heq, hhead, h⟩ := exists_head_of_over h
    rw [Traced.over_bind] at h
    rcases h with h | ⟨⟨content, last⟩, _, h⟩
    · exact heq ▸ .tag (hm ▸ hhead) (hover mid h)
    · dsimp only at h
      split at h
      · rw [Traced.over_bind_of_quiet fun _ => Traced.over_pure _] at h
        exact absurd h (Traced.over_lift _)
      · exact absurd h (Traced.over_pure _)
  · exact absurd h (Traced.over_lift _)
  · exact absurd h (Traced.over_lift _)

theorem overdraws_of_over : ∀ (fuel : Nat) (input : List UInt8),
    (Traced.decodeDagCbor fuel input).Over → Overdraws input
  | 0, _, h => absurd h (Traced.over_lift _)
  | _ + 1, [], h => absurd h (Traced.over_lift _)
  | fuel + 1, first :: input, h => by
    refine overdraws_of_major ?_ (overdraws_of_over fuel) h
    intro input rest v hv
    exact decodeDagCbor_takes fuel input rest v
      ((Traced.result_decodeDagCbor fuel input).symm.trans hv)

end

theorem result_item {v : Ipld} {bytes : List UInt8} (h : Item v bytes) {fuel : Nat}
    {s : List UInt8} (hfuel : (bytes ++ s).length ≤ fuel) :
    (Traced.decodeDagCbor fuel (bytes ++ s)).result = .ok (v, s) := by
  rw [Traced.result_decodeDagCbor]
  exact decodeDagCbor_item h fuel s hfuel

/-- A map whose first entries are whole is read up to what is behind them. -/
theorem over_map {n fuel : Nat} {head tail : List UInt8} (entries : List Entry)
    (hhead : Head 5 n head)
    (hall : ∀ e ∈ entries, Item (.string e.key) e.keyBytes ∧ Item e.value e.valueBytes)
    (hlen : entries.length < n) (htail : ∀ f k map, tail.length ≤ f →
      (Traced.decodeEntries (Traced.decodeDagCbor f) (k + 1) tail map).Over)
    (hfuel : (head ++ (entries.flatMap Entry.bytes ++ tail)).length ≤ fuel) :
    (Traced.decodeDagCbor fuel (head ++ (entries.flatMap Entry.bytes ++ tail))).Over := by
  obtain ⟨f, first, input, rfl, heq, hf, hm, hread⟩ := hhead.round hfuel
  obtain ⟨k, hk⟩ : ∃ k, n - entries.length = k + 1 :=
    ⟨n - entries.length - 1, by omega⟩
  have hloop : (Traced.decodeEntries (Traced.decodeDagCbor f) n
      (entries.flatMap Entry.bytes ++ tail) []).Over := by
    refine over_decodeEntries tail entries [] hlen ?_ ?_ ?_
    · intro map
      rw [hk]
      refine htail f k map (Nat.le_trans ?_ hf)
      simp only [List.length_append]
      omega
    · exact fun e he t ht => result_item (hall e he).1 (ht.trans hf)
    · exact fun e he t ht => result_item (hall e he).2 (ht.trans hf)
  rw [heq, Traced.decodeDagCbor, hm, Traced.decodeMajor, Traced.over_bind]
  refine .inr ⟨(n, _), hread, ?_⟩
  dsimp only
  rw [Traced.over_bind]
  exact .inl hloop

theorem over_of_overdraws {input : List UInt8} (h : Overdraws input) (fuel : Nat)
    (hfuel : input.length ≤ fuel) : (Traced.decodeDagCbor fuel input).Over := by
  induction h generalizing fuel with
  | @head m n head rest hhead hm hlen =>
    obtain ⟨f, first, input, rfl, heq, hf, hfirst, hread⟩ := hhead.round hfuel
    rw [heq, Traced.decodeDagCbor, hfirst]
    rcases hm with rfl | rfl | rfl
    all_goals
      rw [Traced.decodeMajor, Traced.over_bind]
      refine .inr ⟨(n, rest), hread, ?_⟩
      dsimp only
      rw [Traced.over_bind, Traced.over_allocate]
      exact .inl hlen
  | @item n head rest parts hhead hall hlen _ ih =>
    obtain ⟨f, first, input, rfl, heq, hf, hm, hread⟩ := hhead.round hfuel
    have hrest : rest.length ≤ f := by
      refine Nat.le_trans ?_ hf
      simp only [List.length_append]
      omega
    have hloop := over_decodeItems rest (ih f hrest) parts hlen
      (fun p hp t ht => result_item (hall p hp) (ht.trans hf))
    rw [heq, Traced.decodeDagCbor, hm, Traced.decodeMajor, Traced.over_bind]
    refine .inr ⟨(n, _), hread, ?_⟩
    dsimp only
    rw [Traced.over_bind]
    refine .inr ⟨(), rfl, ?_⟩
    rw [Traced.over_bind]
    exact .inl hloop
  | @key n head rest entries hhead hall hlen _ ih =>
    refine over_map entries hhead hall hlen (fun f k map hf => ?_) hfuel
    rw [Traced.decodeEntries, Traced.over_bind]
    exact .inl (ih f hf)
  | @value n head bytes rest s entries hhead hall hlen hs _ ih =>
    refine over_map entries hhead hall hlen (fun f k map hf => ?_) hfuel
    rw [Traced.decodeEntries, Traced.over_bind]
    refine .inr ⟨_, result_item hs hf, ?_⟩
    dsimp only
    rw [Traced.over_bind]
    refine .inl (ih f (Nat.le_trans ?_ hf))
    simp only [List.length_append]
    omega
  | @tag n head rest hhead _ ih =>
    obtain ⟨f, first, input, rfl, heq, hf, hm, hread⟩ := hhead.round hfuel
    rw [heq, Traced.decodeDagCbor, hm, Traced.decodeMajor, Traced.over_bind]
    refine .inr ⟨(n, rest), hread, ?_⟩
    dsimp only
    rw [Traced.over_bind]
    exact .inl (ih f hf)

/-- **What the decoder asks for**: every request is within what is unread, unless a head
that it comes to announces more than what is behind it. -/
theorem allocations_within_iff (b : List UInt8) :
    (∀ r ∈ allocations b, r.len ≤ r.unread) ↔ ¬ Overdraws b := by
  have hover : (Traced.decodeDagCbor b.length b).Over ↔ Overdraws b :=
    ⟨overdraws_of_over b.length b, fun h => over_of_overdraws h b.length (Nat.le_refl _)⟩
  rw [← hover]
  simp [Traced.Over, allocations]

end

open scoped CidFormat in
/-- Nine bytes announce an array of `2 ^ 64 - 1` items with nothing behind it. -/
theorem not_allocations_within : ¬ ∀ b : List UInt8, ∀ r ∈ allocations b, r.len ≤ r.unread := by
  intro h
  have hasked : allocations (0x9b :: List.replicate 8 0xff)
      = [{ len := 2 ^ 64 - 1, unread := 0 }] := by rfl
  have hle := h (0x9b :: List.replicate 8 0xff) { len := 2 ^ 64 - 1, unread := 0 }
    (by rw [hasked]; exact List.mem_singleton_self _)
  exact absurd hle (by decide)

end Ipfrs.Core
