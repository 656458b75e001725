/-
Ipfrs.Storage.WalEntry — the binary entries of the write-ahead log.

An entry is a frame: the magic `WALX`, the sequence number and the transaction
id, the operation, the key and the value each after its length, the time of the
write, and the FNV-1a hash of everything before it. `decode` reads one frame at
an offset and refuses a short, foreign or altered one.

Lengths are written with `as u32`, which keeps the low 32 bits; `leBytes 4` does
the same, so `encode` is total and an entry whose key or value is longer than
that is written with a wrong length, as in the source.
-/
import Ipfrs.Lib.Bytes
import Ipfrs.Lib.Fnv
import Ipfrs.Lib.Slices

namespace Ipfrs.Storage

open Ipfrs.Lib

/-- The FNV-1a 64-bit hash. -/
def fnv1a64 (data : List UInt8) : UInt64 := Fnv.hash data

/-- `b"WALX"`. -/
def walMagic : List UInt8 := [0x57, 0x41, 0x4c, 0x58]

def minEntryBytes : Nat := 45

inductive WalError where
  | checksumMismatch (entrySeq expected got : UInt64)
  | corruptedEntry (seq : UInt64)
  | transactionNotFound (txId : UInt64)
  | entryTooLarge (bytes : Nat)
  | segmentFull
  | invalidMagic
  deriving DecidableEq, Repr

inductive WalOpType where
  | put
  | delete
  | begin
  | commit
  | rollback
  | checkpoint
  deriving DecidableEq, Repr

namespace WalOpType

/-- The discriminants `#[repr(u8)]` gives the operations. -/
def toU8 : WalOpType → UInt8
  | put => 1
  | delete => 2
  | begin => 3
  | commit => 4
  | rollback => 5
  | checkpoint => 6

def fromU8 (v : UInt8) : Option WalOpType :=
  if v = 1 then some put
  else if v = 2 then some delete
  else if v = 3 then some begin
  else if v = 4 then some commit
  else if v = 5 then some rollback
  else if v = 6 then some checkpoint
  else none

@[simp] theorem fromU8_toU8 (op : WalOpType) : fromU8 op.toU8 = some op := by
  cases op <;> rfl

/-- `matches!(op, Put | Delete)`. -/
def isData : WalOpType → Bool
  | put => true
  | delete => true
  | begin => false
  | commit => false
  | rollback => false
  | checkpoint => false

end WalOpType

structure WalEntry where
  seqNum : UInt64
  /-- 0 for a standalone write. -/
  txId : UInt64
  opType : WalOpType
  key : List UInt8
  value : List UInt8
  timestamp : UInt64
  checksum : UInt64
  deriving DecidableEq, Repr

namespace WalEntry

/-- Everything of the frame before the checksum. -/
def body (e : WalEntry) : List UInt8 :=
  walMagic ++ leBytes 8 e.seqNum.toNat ++ leBytes 8 e.txId.toNat ++ [e.opType.toU8]
    ++ leBytes 4 e.key.length ++ e.key ++ leBytes 4 e.value.length ++ e.value
    ++ leBytes 8 e.timestamp.toNat

def encode (e : WalEntry) : List UInt8 :=
  e.body ++ leBytes 8 (fnv1a64 e.body).toNat

/-- `u64::from_le_bytes` of a slice. -/
def u64At (buf : List UInt8) (start : Nat) : UInt64 :=
  UInt64.ofNat (leNat (window buf start 8))

/-- `u32::from_le_bytes(..) as usize` of a slice. -/
def u32At (buf : List UInt8) (start : Nat) : Nat :=
  leNat (window buf start 4)

/-- One entry at `offset`, with the number of bytes it takes. -/
def decode (data : List UInt8) (offset : Nat) : Except WalError (WalEntry × Nat) :=
  let buf := data.drop offset
  if buf.length < minEntryBytes then .error (.corruptedEntry 0)
  else if buf.take 4 ≠ walMagic then .error .invalidMagic
  else
    let seqNum := u64At buf 4
    let txId := u64At buf 12
    match WalOpType.fromU8 (buf.getD 20 0) with
    | none => .error (.corruptedEntry seqNum)
    | some opType =>
      let keyEnd := 25 + u32At buf 21
      if buf.length < keyEnd + 4 then .error (.corruptedEntry seqNum)
      else
        let key := window buf 25 (keyEnd - 25)
        let valueStart := keyEnd + 4
        let valueEnd := valueStart + u32At buf keyEnd
        let tsEnd := valueEnd + 8
        let csEnd := tsEnd + 8
        if buf.length < csEnd then .error (.corruptedEntry seqNum)
        else
          let value := window buf valueStart (valueEnd - valueStart)
          let timestamp := u64At buf valueEnd
          let storedChecksum := u64At buf tsEnd
          let computed := fnv1a64 (buf.take tsEnd)
          if computed ≠ storedChecksum then
            .error (.checksumMismatch seqNum storedChecksum computed)
          else
            .ok ({ seqNum, txId, opType, key, value, timestamp, checksum := storedChecksum }, csEnd)

/-! ## Reading a frame back -/

/-- The key and the value fit the 32-bit lengths of the frame. -/
def Sized (e : WalEntry) : Prop := e.key.length < 2 ^ 32 ∧ e.value.length < 2 ^ 32

instance (e : WalEntry) : Decidable e.Sized := inferInstanceAs (Decidable (_ ∧ _))

/-- The entry as `decode` returns it: the log keeps 0 for the checksum, which only
`encode` fills in. -/
def stamped (e : WalEntry) : WalEntry := { e with checksum := fnv1a64 e.body }

theorem length_body (e : WalEntry) : e.body.length = 37 + e.key.length + e.value.length := by
  simp only [body, walMagic, List.length_append, length_leBytes, List.length_cons, List.length_nil]
  omega

theorem length_encode (e : WalEntry) : e.encode.length = 45 + e.key.length + e.value.length := by
  rw [encode, List.length_append, length_body, length_leBytes]
  omega

theorem u64At_eq {buf : List UInt8} {a : Nat} {n : UInt64}
    (h : window buf a 8 = leBytes 8 n.toNat) : u64At buf a = n := by
  rw [u64At, h, leNat_leBytes_of_lt n.toNat_lt, UInt64.ofNat_toNat]

theorem u32At_eq {buf : List UInt8} {a n : Nat} (h : window buf a 4 = leBytes 4 n)
    (hn : n < 2 ^ 32) : u32At buf a = n := by
  rw [u32At, h, leNat_leBytes_of_lt hn]

/-- The fields of the frame in order. -/
def fields (e : WalEntry) : List (List UInt8) :=
  [walMagic, leBytes 8 e.seqNum.toNat, leBytes 8 e.txId.toNat, [e.opType.toU8],
    leBytes 4 e.key.length, e.key, leBytes 4 e.value.length, e.value,
    leBytes 8 e.timestamp.toNat, leBytes 8 (fnv1a64 e.body).toNat]

theorem encode_eq_fields (e : WalEntry) : e.encode = e.fields.flatten := by
  simp [encode, fields, body]

/-- A field, found by the fields before it. -/
theorem window_field (e : WalEntry) (before : List (List UInt8)) {field : List UInt8}
    {after : List (List UInt8)} {a w : Nat} (h : e.fields = before ++ field :: after)
    (ha : before.flatten.length = a) (hw : field.length = w) : window e.encode a w = field := by
  rw [encode_eq_fields, h]
  exact window_flatten ha hw

/-- A buffer that holds the frame, or the beginning of it. -/
def Holds (e : WalEntry) (buf : List UInt8) : Prop := Agrees buf e.encode

section Fields

variable {e : WalEntry} {buf : List UInt8}

theorem Holds.field (h : e.Holds buf) (before : List (List UInt8)) {field : List UInt8}
    {after : List (List UInt8)} {a w : Nat} (hf : e.fields = before ++ field :: after)
    (ha : before.flatten.length = a) (hw : field.length = w) (hlen : a + w ≤ buf.length) :
    window buf a w = field := by
  have hfit : a + w ≤ e.encode.length := by
    rw [encode_eq_fields, hf, ← ha, ← hw]
    simp
  rw [h a w hlen hfit, window_field e before hf ha hw]

theorem Holds.magic (h : e.Holds buf) (hlen : 4 ≤ buf.length) : buf.take 4 = walMagic := by
  rw [← window_zero]
  exact h.field [] rfl rfl rfl hlen

theorem Holds.seqNum (h : e.Holds buf) (hlen : 12 ≤ buf.length) : u64At buf 4 = e.seqNum :=
  u64At_eq (h.field [walMagic] rfl rfl (length_leBytes ..) hlen)

theorem Holds.txId (h : e.Holds buf) (hlen : 20 ≤ buf.length) : u64At buf 12 = e.txId :=
  u64At_eq (h.field [walMagic, leBytes 8 e.seqNum.toNat] rfl rfl (length_leBytes ..) hlen)

theorem Holds.opType (h : e.Holds buf) (hlen : 21 ≤ buf.length) :
    buf.getD 20 0 = e.opType.toU8 := by
  have hop : window buf 20 1 = [e.opType.toU8] :=
    h.field [walMagic, leBytes 8 e.seqNum.toNat, leBytes 8 e.txId.toNat] rfl rfl rfl hlen
  rw [window, List.take_one, List.head?_drop] at hop
  have hget : buf[20]? = some e.opType.toU8 := Option.toList_eq_singleton_iff.mp hop
  rw [List.getD_eq_getElem?_getD, hget, Option.getD_some]

theorem Holds.keyLen (h : e.Holds buf) (hs : e.Sized) (hlen : 25 ≤ buf.length) :
    u32At buf 21 = e.key.length :=
  u32At_eq (h.field [walMagic, leBytes 8 e.seqNum.toNat, leBytes 8 e.txId.toNat,
    [e.opType.toU8]] rfl rfl (length_leBytes ..) hlen) hs.1

theorem Holds.key (h : e.Holds buf) (hlen : 25 + e.key.length ≤ buf.length) :
    window buf 25 e.key.length = e.key :=
  h.field [walMagic, leBytes 8 e.seqNum.toNat, leBytes 8 e.txId.toNat, [e.opType.toU8],
    leBytes 4 e.key.length] rfl rfl rfl hlen

theorem Holds.valueLen (h : e.Holds buf) (hs : e.Sized)
    (hlen : 25 + e.key.length + 4 ≤ buf.length) : u32At buf (25 + e.key.length) = e.value.length :=
  u32At_eq (h.field [walMagic, leBytes 8 e.seqNum.toNat, leBytes 8 e.txId.toNat,
    [e.opType.toU8], leBytes 4 e.key.length, e.key] rfl (by simp [walMagic]; omega)
    (length_leBytes ..) hlen) hs.2

theorem Holds.value (h : e.Holds buf) {a : Nat} (ha : a = 25 + e.key.length + 4)
    (hlen : a + e.value.length ≤ buf.length) : window buf a e.value.length = e.value :=
  h.field [walMagic, leBytes 8 e.seqNum.toNat, leBytes 8 e.txId.toNat, [e.opType.toU8],
    leBytes 4 e.key.length, e.key, leBytes 4 e.value.length] rfl (by simp [walMagic]; omega) rfl
    hlen

theorem Holds.timestamp (h : e.Holds buf) {a : Nat}
    (ha : a = 25 + e.key.length + 4 + e.value.length) (hlen : a + 8 ≤ buf.length) :
    u64At buf a = e.timestamp :=
  u64At_eq (h.field [walMagic, leBytes 8 e.seqNum.toNat, leBytes 8 e.txId.toNat,
    [e.opType.toU8], leBytes 4 e.key.length, e.key, leBytes 4 e.value.length, e.value] rfl
    (by simp [walMagic]; omega) (length_leBytes ..) hlen)

theorem Holds.checksum (h : e.Holds buf) {a : Nat}
    (ha : a = 25 + e.key.length + 4 + e.value.length + 8) (hlen : a + 8 ≤ buf.length) :
    u64At buf a = fnv1a64 e.body :=
  u64At_eq (h.field [walMagic, leBytes 8 e.seqNum.toNat, leBytes 8 e.txId.toNat,
    [e.opType.toU8], leBytes 4 e.key.length, e.key, leBytes 4 e.value.length, e.value,
    leBytes 8 e.timestamp.toNat] rfl (by simp [walMagic]; omega) (length_leBytes ..) hlen)

theorem Holds.body (h : e.Holds buf) {a : Nat}
    (ha : a = 25 + e.key.length + 4 + e.value.length + 8) (hlen : a ≤ buf.length) :
    buf.take a = e.body := by
  have hbody := length_body e
  have henc := length_encode e
  rw [← window_zero, h 0 a (by omega) (by omega), window_zero, encode]
  exact List.take_left' (by omega)

/-- A buffer with the whole frame at its front is read as the entry. -/
theorem decode_of_holds {data : List UInt8} {offset : Nat} (h : e.Holds (data.drop offset))
    (hs : e.Sized) (hlen : e.encode.length ≤ (data.drop offset).length) :
    decode data offset = .ok (e.stamped, e.encode.length) := by
  have henc := length_encode e
  have hmin : minEntryBytes = 45 := rfl
  unfold decode
  simp only [h.magic (by omega), h.seqNum (by omega), h.txId (by omega), h.opType (by omega),
    WalOpType.fromU8_toU8, h.keyLen hs (by omega), h.valueLen hs (by omega)]
  rw [if_neg (by omega), if_neg (by simp), if_neg (by omega), if_neg (by omega),
    h.timestamp rfl (by omega), h.checksum rfl (by omega), h.body rfl (by omega),
    if_neg (by simp), Nat.add_sub_cancel_left, Nat.add_sub_cancel_left, h.key (by omega),
    h.value rfl (by omega), henc]
  simp only [stamped, Except.ok.injEq, Prod.mk.injEq, true_and]
  omega

/-- The beginning of a frame is refused as corrupted, whatever comes of it. -/
theorem decode_of_torn {data : List UInt8} {offset : Nat} (h : e.Holds (data.drop offset))
    (hs : e.Sized) (hlen : (data.drop offset).length < e.encode.length) :
    ∃ seq, decode data offset = .error (.corruptedEntry seq) := by
  have henc := length_encode e
  have hmin : minEntryBytes = 45 := rfl
  unfold decode
  by_cases hshort : (data.drop offset).length < minEntryBytes
  · exact ⟨0, if_pos hshort⟩
  · simp only [h.magic (by omega), h.seqNum (by omega), h.txId (by omega), h.opType (by omega),
      WalOpType.fromU8_toU8, h.keyLen hs (by omega)]
    refine ⟨e.seqNum, ?_⟩
    rw [if_neg hshort, if_neg (by simp)]
    by_cases hkey : (data.drop offset).length < 25 + e.key.length + 4
    · rw [if_pos hkey]
    · rw [if_neg hkey, h.valueLen hs (by omega), if_pos (by omega)]

end Fields

end WalEntry

end Ipfrs.Storage
