/-
# Decoding bytes from the network

`protocol.txt` promises of every `Decode`: "short input → `ErrPayloadTooShort`
(never a panic)".  The length checks are there, and for ten of the sixteen message
types they are enough.  The six decoders of `protocol/kv` compute the end of their
last field in the type of the length they read.  A key of 65534 bytes behind its
two-byte length ends at `2 + 65534`, which is zero in `uint16`; the slice runs
backwards and the program panics.

`decodeMessage_ne_panic_iff` says for every input whether that happens
(`LengthOverflows`), and `decodeMessage_panics` is the shortest such request.
-/

import Keva.Protocol.Message

namespace Keva
namespace Protocol

open Bytes

/-! ### The decoders of `protocol/kv` -/

variable (data : Bytes)

/-- What the decoder of a key returns, by the length that stands in the first two bytes: the check
is made in `int`, and the slice is taken in `uint16`. -/
theorem decodeKey_eq :
    decodeKey data =
      if data.length < 2 ∨ data.length < 2 + beAt 2 data 0 then .error .payloadTooShort
      else if 2 + beAt 2 data 0 < 2 ^ 16 then .ok ((data.drop 2).take (beAt 2 data 0))
      else .panic := by
  unfold decodeKey
  by_cases h : data.length < 2
  · simp [h]
  rw [if_neg h, readBE_of_le (by omega) (by omega), Outcome.ok_bind]
  dsimp only
  rw [toNat_uint16_beAt]
  by_cases h' : data.length < 2 + beAt 2 data 0
  · simp [h']
  have hend : (2 + UInt16.ofNat (beAt 2 data 0)).toNat = (2 + beAt 2 data 0) % 2 ^ 16 := by
    rw [UInt16.toNat_add, toNat_uint16_beAt]
    rfl
  rw [if_neg h', if_neg (by omega), hend, slice_mod (beAt_two_lt data 0) (by omega)]
  split_ifs
  · rw [Outcome.ok_bind, makeCopy_take (by omega)]
    rfl
  · rfl

/-- The same for a status and a message, whose length stands behind the status byte. -/
theorem decodeStatus_eq :
    decodeStatus data =
      if data.length < 3 ∨ data.length < 3 + beAt 2 data 1 then .error .payloadTooShort
      else if 3 + beAt 2 data 1 < 2 ^ 16 then
        .ok (data.getD 0 0 = 1, (data.drop 3).take (beAt 2 data 1))
      else .panic := by
  unfold decodeStatus
  by_cases h : data.length < 3
  · simp [h]
  rw [if_neg h, index_of_lt (by omega), Outcome.ok_bind, readBE_of_le (by omega) (by omega),
    Outcome.ok_bind]
  dsimp only
  rw [toNat_uint16_beAt]
  by_cases h' : data.length < 3 + beAt 2 data 1
  · simp [h']
  have hend : (3 + UInt16.ofNat (beAt 2 data 1)).toNat = (3 + beAt 2 data 1) % 2 ^ 16 := by
    rw [UInt16.toNat_add, toNat_uint16_beAt]
    rfl
  rw [if_neg h', if_neg (by omega), hend, slice_mod (beAt_two_lt data 1) (by omega)]
  split_ifs
  · rfl
  · rfl

/-- The same for a value, whose end is computed in `uint32`, so that nothing below four gigabytes
overflows. -/
theorem GetResponse.decode_eq :
    GetResponse.decode data =
      if data.length < 5 ∨ data.length < 5 + beAt 4 data 1 then .error .payloadTooShort
      else if 5 + beAt 4 data 1 < 2 ^ 32 then
        .ok ⟨data.getD 0 0 = 1, (data.drop 5).take (beAt 4 data 1)⟩
      else .panic := by
  unfold GetResponse.decode
  by_cases h : data.length < 5
  · simp [h]
  rw [if_neg h, index_of_lt (by omega), Outcome.ok_bind, readBE_of_le (by omega) (by omega),
    Outcome.ok_bind]
  dsimp only
  rw [toNat_uint32_beAt]
  by_cases h' : data.length < 5 + beAt 4 data 1
  · simp [h']
  have hend : (5 + UInt32.ofNat (beAt 4 data 1)).toNat = (5 + beAt 4 data 1) % 2 ^ 32 := by
    rw [UInt32.toNat_add, toNat_uint32_beAt]
    rfl
  rw [if_neg h', if_neg (by omega), hend, slice_mod (beAt_four_lt data 1) (by omega)]
  split_ifs
  · rw [Outcome.ok_bind, makeCopy_take (by omega)]
    rfl
  · rfl

/-- Of the two variable fields of a set only the key has its end computed in `uint16`; that of the
value is an `int`. -/
theorem SetRequest.decode_eq :
    SetRequest.decode data =
      if data.length < 14 ∨ data.length < 14 + beAt 2 data 0 + beAt 4 data 2 then
        .error .payloadTooShort
      else if 14 + beAt 2 data 0 < 2 ^ 16 then
        .ok ⟨(data.drop 14).take (beAt 2 data 0),
          (data.drop (14 + beAt 2 data 0)).take (beAt 4 data 2), .ofNat (beAt 8 data 6)⟩
      else .panic := by
  unfold SetRequest.decode setHeaderSize
  by_cases h : data.length < 14
  · simp [h]
  rw [if_neg h, readBE_of_le (by omega) (by omega), Outcome.ok_bind,
    readBE_of_le (by omega) (by omega), Outcome.ok_bind, readBE_of_le (by omega) (by omega),
    Outcome.ok_bind]
  dsimp only
  rw [toNat_uint16_beAt, toNat_uint32_beAt]
  by_cases h' : data.length < 14 + beAt 2 data 0 + beAt 4 data 2
  · simp [h']
  have hend : (14 + UInt16.ofNat (beAt 2 data 0)).toNat = (14 + beAt 2 data 0) % 2 ^ 16 := by
    rw [UInt16.toNat_add, toNat_uint16_beAt]
    rfl
  rw [if_neg h', if_neg (by omega), hend, slice_mod (beAt_two_lt data 0) (by omega)]
  split_ifs with hfits
  · rw [Outcome.ok_bind, Nat.mod_eq_of_lt hfits, slice_add (by omega), Outcome.ok_bind,
      makeCopy_take (by omega), makeCopy_take (by omega)]
    rfl
  · rfl

/-! ### The decoders that compute in `int` -/

/-- The string that the decoders of `protocol/cluster` read, its length being the last two bytes
of the header: too short, or there. -/
theorem decodeString_eq {n : ℕ} (h2 : 2 ≤ n) (h : n ≤ data.length) :
    decodeString n data =
      if data.length < n + beAt 2 data (n - 2) then .error .payloadTooShort
      else .ok ((data.drop n).take (beAt 2 data (n - 2))) := by
  rw [decodeString, readBE_of_le (by omega) h, Outcome.ok_bind]
  split_ifs with hlt
  · rfl
  · exact slice_add (not_lt.1 hlt)

/-- The decoder of a write that is replicated: the payload is too short for its header or for the
two lengths in it, or it is decoded field by field. -/
theorem ReplicationSync.decode_eq :
    ReplicationSync.decode data =
      if data.length < 23 ∨ data.length < 23 + beAt 2 data 9 + beAt 4 data 11 then
        .error .payloadTooShort
      else
        .ok ⟨.ofNat (beAt 8 data 0), data.getD 8 0, (data.drop 23).take (beAt 2 data 9),
          (data.drop (23 + beAt 2 data 9)).take (beAt 4 data 11), .ofNat (beAt 8 data 15)⟩ := by
  unfold ReplicationSync.decode replicationSyncHeaderSize
  by_cases h : data.length < 23
  · simp [h]
  rw [if_neg h, readBE_of_le (by omega) (by omega), Outcome.ok_bind, index_of_lt (by omega),
    Outcome.ok_bind, readBE_of_le (by omega) (by omega), Outcome.ok_bind,
    readBE_of_le (by omega) (by omega), Outcome.ok_bind, readBE_of_le (by omega) (by omega),
    Outcome.ok_bind]
  dsimp only
  by_cases h' : data.length < 23 + beAt 2 data 9 + beAt 4 data 11
  · simp [h']
  rw [if_neg h', if_neg (by omega), slice_add (by omega), Outcome.ok_bind, slice_add (by omega),
    Outcome.ok_bind, makeCopy_take (by omega), makeCopy_take (by omega)]
  rfl

/-- Every slice it takes lies within what it has checked. -/
theorem ReplicationSync.decode_ne_panic : ReplicationSync.decode data ≠ .panic := by
  rw [ReplicationSync.decode_eq]
  split_ifs <;> simp

/-- An acknowledgement is eight bytes at least. -/
theorem ReplicationAck.decode_eq :
    ReplicationAck.decode data =
      if data.length < 8 then .error .payloadTooShort else .ok ⟨.ofNat (beAt 8 data 0)⟩ := by
  unfold ReplicationAck.decode
  split_ifs with h
  · rfl
  · rw [readBE_of_le (by omega) (by omega)]
    rfl

/-- Its one number is read behind the check of the length. -/
theorem ReplicationAck.decode_ne_panic : ReplicationAck.decode data ≠ .panic := by
  rw [ReplicationAck.decode_eq]
  split_ifs <;> simp

/-- A join is its address behind 16 bits of length; no arithmetic is done in a small type. -/
theorem ReplicationJoin.decode_eq :
    ReplicationJoin.decode data =
      if data.length < 2 ∨ data.length < 2 + beAt 2 data 0 then .error .payloadTooShort
      else .ok ⟨(data.drop 2).take (beAt 2 data 0)⟩ := by
  unfold ReplicationJoin.decode
  by_cases h : data.length < 2
  · simp [h]
  rw [if_neg h, decodeString_eq data le_rfl (not_lt.1 h)]
  by_cases h' : data.length < 2 + beAt 2 data 0
  · simp [h']
  · simp [h, h']

/-- Its address is sliced behind the check of the length. -/
theorem ReplicationJoin.decode_ne_panic : ReplicationJoin.decode data ≠ .panic := by
  rw [ReplicationJoin.decode_eq]
  split_ifs <;> simp

/-- A heartbeat is ten bytes of header and the address they announce. -/
theorem Heartbeat.decode_eq :
    Heartbeat.decode data =
      if data.length < 10 ∨ data.length < 10 + beAt 2 data 8 then .error .payloadTooShort
      else .ok ⟨.ofNat (beAt 8 data 0), (data.drop 10).take (beAt 2 data 8)⟩ := by
  unfold Heartbeat.decode
  by_cases h : data.length < 10
  · simp [h]
  rw [if_neg h, readBE_of_le (by omega) (by omega), Outcome.ok_bind,
    decodeString_eq data (by omega) (not_lt.1 h)]
  by_cases h' : data.length < 10 + beAt 2 data 8
  · simp [h']
  · simp [h, h']

/-- Its address is sliced behind the check of the length. -/
theorem Heartbeat.decode_ne_panic : Heartbeat.decode data ≠ .panic := by
  rw [Heartbeat.decode_eq]
  split_ifs <;> simp

/-- The acknowledgement of a heartbeat is sixteen bytes at least. -/
theorem HeartbeatAck.decode_eq :
    HeartbeatAck.decode data =
      if data.length < 16 then .error .payloadTooShort
      else .ok ⟨.ofNat (beAt 8 data 0), .ofNat (beAt 8 data 8)⟩ := by
  unfold HeartbeatAck.decode
  split_ifs with h
  · rfl
  · rw [readBE_of_le (by omega) (by omega), Outcome.ok_bind, readBE_of_le (by omega) (by omega)]
    rfl

/-- Its two numbers are read behind the check of the length. -/
theorem HeartbeatAck.decode_ne_panic : HeartbeatAck.decode data ≠ .panic := by
  rw [HeartbeatAck.decode_eq]
  split_ifs <;> simp

/-- A vote request ends with eight bytes behind the address, and the second check takes them into
account. -/
theorem VoteRequest.decode_eq :
    VoteRequest.decode data =
      if data.length < 10 ∨ data.length < 18 + beAt 2 data 8 then .error .payloadTooShort
      else
        .ok ⟨.ofNat (beAt 8 data 0), (data.drop 10).take (beAt 2 data 8),
          .ofNat (beAt 8 data (10 + beAt 2 data 8))⟩ := by
  unfold VoteRequest.decode
  by_cases h : data.length < 10
  · simp [h]
  rw [if_neg h, readBE_of_le (by omega) (by omega), Outcome.ok_bind,
    readBE_of_le (by omega) (by omega), Outcome.ok_bind]
  by_cases h' : data.length < 18 + beAt 2 data 8
  · rw [if_pos (by omega), if_pos (.inr h')]
  · rw [if_neg (by omega), if_neg (by omega), slice_add (by omega), Outcome.ok_bind,
      readBE_of_le (by omega) (by omega)]
    rfl

/-- Its last field is read where the second check has seen that there are eight bytes. -/
theorem VoteRequest.decode_ne_panic : VoteRequest.decode data ≠ .panic := by
  rw [VoteRequest.decode_eq]
  split_ifs <;> simp

/-- A vote is nine bytes at least. -/
theorem VoteResponse.decode_eq :
    VoteResponse.decode data =
      if data.length < 9 then .error .payloadTooShort
      else .ok ⟨.ofNat (beAt 8 data 0), data.getD 8 0 = 1⟩ := by
  unfold VoteResponse.decode
  split_ifs with h
  · rfl
  · rw [readBE_of_le (by omega) (by omega), Outcome.ok_bind, index_of_lt (by omega)]
    rfl

/-- Its term and its flag are read behind the check of the length. -/
theorem VoteResponse.decode_ne_panic : VoteResponse.decode data ≠ .panic := by
  rw [VoteResponse.decode_eq]
  split_ifs <;> simp

/-- An error is four bytes of header and the text they announce. -/
theorem ErrorMessage.decode_eq :
    ErrorMessage.decode data =
      if data.length < 4 ∨ data.length < 4 + beAt 2 data 2 then .error .payloadTooShort
      else .ok ⟨.ofNat (beAt 2 data 0), (data.drop 4).take (beAt 2 data 2)⟩ := by
  unfold ErrorMessage.decode
  by_cases h : data.length < 4
  · simp [h]
  rw [if_neg h, readBE_of_le (by omega) (by omega), Outcome.ok_bind,
    decodeString_eq data (by omega) (not_lt.1 h)]
  by_cases h' : data.length < 4 + beAt 2 data 2
  · simp [h']
  · simp [h, h']

/-- Its text is sliced behind the check of the length. -/
theorem ErrorMessage.decode_ne_panic : ErrorMessage.decode data ≠ .panic := by
  rw [ErrorMessage.decode_eq]
  split_ifs <;> simp

/-- One string of a topology: too short for its length, too short for its text, or there, together
with the offset at which the next field begins. -/
theorem stringAt_eq (offset : ℕ) :
    stringAt data offset =
      if data.length < offset + 2 ∨ data.length < offset + 2 + beAt 2 data offset then
        .error .payloadTooShort
      else
        .ok ((data.drop (offset + 2)).take (beAt 2 data offset),
          offset + 2 + beAt 2 data offset) := by
  unfold stringAt
  by_cases h : data.length < offset + 2
  · simp [h]
  rw [if_neg h, readBE_of_le le_rfl (not_lt.1 h), Outcome.ok_bind]
  by_cases h' : data.length < offset + 2 + beAt 2 data offset
  · simp [h']
  rw [if_neg h', if_neg (by omega), slice_add (by omega)]
  rfl

/-- The loop over the nodes checks before it reads, from wherever it starts: it computes offsets
as `int`, which no payload overflows. -/
theorem decodeNodes_ne_panic (n offset : ℕ) : decodeNodes data n offset ≠ .panic := by
  induction n generalizing offset with
  | zero => simp [decodeNodes]
  | succ n ih =>
    unfold decodeNodes
    rw [stringAt_eq]
    split_ifs
    · simp
    rw [Outcome.ok_bind]
    dsimp only
    split_ifs with hrole
    · simp
    rw [index_of_lt (by omega), Outcome.ok_bind, stringAt_eq]
    split_ifs
    · simp
    rw [Outcome.ok_bind, Ne, Outcome.bind_eq_panic_iff_left (by simp)]
    exact ih _

/-- The loop over the nodes reads each field behind a check of its own. -/
theorem TopologyResponse.decode_ne_panic : TopologyResponse.decode data ≠ .panic := by
  unfold TopologyResponse.decode
  split_ifs with h
  · simp
  rw [readBE_of_le (by omega) (by omega), Outcome.ok_bind]
  by_cases h' : data.length < 2 + beAt 2 data 0
  · simp [h']
  rw [if_neg h', slice_add (by omega), Outcome.ok_bind]
  split_ifs with h''
  · simp
  rw [readBE_of_le (by omega) (by omega), Outcome.ok_bind, Ne,
    Outcome.bind_eq_panic_iff_left (by simp)]
  exact decodeNodes_ne_panic data _ _

/-! ### Any input -/

/-- The payload announces a field that ends beyond the type its end is computed
in, and is long enough for it. -/
def LengthOverflows (opcode : UInt8) (payload : Bytes) : Prop :=
  if opcode = opGet ∨ opcode = opDelete then
    2 ^ 16 ≤ 2 + beAt 2 payload 0 ∧ 2 + beAt 2 payload 0 ≤ payload.length
  else if opcode = opSet then
    2 ^ 16 ≤ 14 + beAt 2 payload 0 ∧ 14 + beAt 2 payload 0 + beAt 4 payload 2 ≤ payload.length
  else if opcode = opGetResponse then
    2 ^ 32 ≤ 5 + beAt 4 payload 1 ∧ 5 + beAt 4 payload 1 ≤ payload.length
  else if opcode = opSetResponse ∨ opcode = opDeleteResponse then
    2 ^ 16 ≤ 3 + beAt 2 payload 1 ∧ 3 + beAt 2 payload 1 ≤ payload.length
  else False

/-- A key takes the decoder down exactly if it is there in full and its end does not fit 16 bits:
then the end wraps to a number below the start of the slice. -/
theorem decodeKey_eq_panic_iff :
    decodeKey data = .panic ↔ 2 ^ 16 ≤ 2 + beAt 2 data 0 ∧ 2 + beAt 2 data 0 ≤ data.length := by
  rw [decodeKey_eq]
  split_ifs <;> simp <;> omega

/-- The same for the message of a status, which begins one byte later. -/
theorem decodeStatus_eq_panic_iff :
    decodeStatus data = .panic ↔
      2 ^ 16 ≤ 3 + beAt 2 data 1 ∧ 3 + beAt 2 data 1 ≤ data.length := by
  rw [decodeStatus_eq]
  split_ifs <;> simp <;> omega

/-- The same for a value, in 32 bits. -/
theorem GetResponse.decode_eq_panic_iff :
    GetResponse.decode data = .panic ↔
      2 ^ 32 ≤ 5 + beAt 4 data 1 ∧ 5 + beAt 4 data 1 ≤ data.length := by
  rw [GetResponse.decode_eq]
  split_ifs <;> simp <;> omega

/-- The same for the key of a set, which begins behind fourteen bytes of header; the value has to
be there as well, since the length is checked for both at once. -/
theorem SetRequest.decode_eq_panic_iff :
    SetRequest.decode data = .panic ↔
      2 ^ 16 ≤ 14 + beAt 2 data 0 ∧ 14 + beAt 2 data 0 + beAt 4 data 2 ≤ data.length := by
  rw [SetRequest.decode_eq]
  split_ifs <;> simp <;> omega

/-- What is looked up has been registered. -/
theorem mem_registry_of_lookup {opcode : UInt8} {decode : Bytes → Outcome Error Message}
    (h : lookup opcode = some decode) : (opcode, decode) ∈ registry := by
  obtain ⟨⟨o, d⟩, hfind, rfl⟩ := Option.map_eq_some_iff.1 h
  obtain rfl : o = opcode := by simpa using List.find?_some hfind
  exact List.mem_of_find?_eq_some hfind

/-- An overflow of lengths is spoken of for registered opcodes only. -/
theorem lookup_ne_none_of_lengthOverflows {opcode : UInt8} {payload : Bytes}
    (h : LengthOverflows opcode payload) : lookup opcode ≠ none := by
  unfold LengthOverflows at h
  split_ifs at h with h₁ h₂ h₃ h₄
  · rcases h₁ with rfl | rfl <;> simp [lookup, registry]
  · subst h₂; simp [lookup, registry]
  · subst h₃; simp [lookup, registry]
  · rcases h₄ with rfl | rfl <;> simp [lookup, registry]

/-- **One registered type:** its decoder panics exactly on the payloads that overflow, that is,
where the end of a field is computed in a type too small for it. -/
theorem decode_eq_panic_iff {opcode : UInt8} {decode : Bytes → Outcome Error Message}
    (h : (opcode, decode) ∈ registry) : decode data = .panic ↔ LengthOverflows opcode data := by
  have hmap {α : Type} (x : Outcome Error α) (f : α → Message) :
      (do return f (← x)) = .panic ↔ x = .panic := Outcome.bind_eq_panic_iff_left (by simp)
  have hbind {α β : Type} (x : Outcome Error α) (f : α → β) :
      (x >>= fun a => pure (f a)) = .panic ↔ x = .panic := Outcome.bind_eq_panic_iff_left (by simp)
  simp only [registry, List.mem_cons, Prod.mk.injEq, List.not_mem_nil, or_false] at h
  rcases h with ⟨rfl, rfl⟩ | ⟨rfl, rfl⟩ | ⟨rfl, rfl⟩ | ⟨rfl, rfl⟩ | ⟨rfl, rfl⟩ | ⟨rfl, rfl⟩ |
    ⟨rfl, rfl⟩ | ⟨rfl, rfl⟩ | ⟨rfl, rfl⟩ | ⟨rfl, rfl⟩ | ⟨rfl, rfl⟩ | ⟨rfl, rfl⟩ | ⟨rfl, rfl⟩ |
    ⟨rfl, rfl⟩ | ⟨rfl, rfl⟩ | ⟨rfl, rfl⟩
  · exact (hmap _ _).trans ((hbind _ _).trans (decodeKey_eq_panic_iff data))
  · exact (hmap _ _).trans (SetRequest.decode_eq_panic_iff data)
  · exact (hmap _ _).trans ((hbind _ _).trans (decodeKey_eq_panic_iff data))
  · exact (hmap _ _).trans (GetResponse.decode_eq_panic_iff data)
  · exact (hmap _ _).trans ((hbind _ _).trans (decodeStatus_eq_panic_iff data))
  · exact (hmap _ _).trans ((hbind _ _).trans (decodeStatus_eq_panic_iff data))
  · exact (hmap _ _).trans (iff_of_false (by simp [TopologyRequest.decode]) id)
  · exact (hmap _ _).trans (iff_of_false (TopologyResponse.decode_ne_panic data) id)
  · exact (hmap _ _).trans (iff_of_false (ReplicationSync.decode_ne_panic data) id)
  · exact (hmap _ _).trans (iff_of_false (ReplicationAck.decode_ne_panic data) id)
  · exact (hmap _ _).trans (iff_of_false (ReplicationJoin.decode_ne_panic data) id)
  · exact (hmap _ _).trans (iff_of_false (Heartbeat.decode_ne_panic data) id)
  · exact (hmap _ _).trans (iff_of_false (HeartbeatAck.decode_ne_panic data) id)
  · exact (hmap _ _).trans (iff_of_false (VoteRequest.decode_ne_panic data) id)
  · exact (hmap _ _).trans (iff_of_false (VoteResponse.decode_ne_panic data) id)
  · exact (hmap _ _).trans (iff_of_false (ErrorMessage.decode_ne_panic data) id)

/-- **Decoding bytes from the network panics on no input but these:** a message of
`protocol/kv` whose length field overflows the arithmetic on it. -/
theorem decodeMessage_ne_panic_iff :
    decodeMessage data ≠ .panic ↔
      ∀ opcode payload, data = opcode :: payload → ¬ LengthOverflows opcode payload := by
  cases data with
  | nil => simp [decodeMessage]
  | cons opcode payload =>
    have hcons : (∀ o p, opcode :: payload = o :: p → ¬ LengthOverflows o p) ↔
        ¬ LengthOverflows opcode payload := by simp
    rw [hcons, not_iff_not, decodeMessage]
    cases hl : lookup opcode with
    | none =>
      refine iff_of_false (by simp) fun hover => ?_
      exact absurd hl (lookup_ne_none_of_lengthOverflows hover)
    | some decode =>
      rw [Outcome.mapError_eq_panic_iff]
      exact decode_eq_panic_iff payload (mem_registry_of_lookup hl)

/-- A `GetRequest` with a key of 65534 bytes, well-formed as it is: the end of the key is
`2 + 65534`, which is zero in 16 bits. -/
theorem decodeMessage_get_panics {key : Bytes} (h : key.length = 65534) :
    decodeMessage (encodeMessage (.getRequest ⟨key⟩)) = .panic := by
  have hencode : encodeMessage (.getRequest ⟨key⟩) = opGet :: 0xFF :: 0xFE :: key := by
    change opGet :: (be 2 key.length ++ key) = _
    rw [h]
    rfl
  have hpanic : decodeKey (0xFF :: 0xFE :: key) = .panic := by
    have hkey : beAt 2 (0xFF :: 0xFE :: key) 0 = 65534 := rfl
    rw [decodeKey_eq_panic_iff, hkey]
    simp only [List.length_cons]
    omega
  rw [hencode]
  change ((decodeKey (0xFF :: 0xFE :: key) >>= _) >>= _).mapError _ = _
  rw [hpanic]
  rfl

/-- **A well-formed request that is a panic:** `2 + keyLen` is zero in `uint16`. -/
theorem decodeMessage_panics :
    decodeMessage (encodeMessage (.getRequest ⟨List.replicate 65534 0⟩)) = .panic :=
  decodeMessage_get_panics List.length_replicate

end Protocol
end Keva
