/-
# What is encoded, whole and cut short

The decoders of `protocol`, applied to what the encoders write.  For each message
type one lemma, `decode_take`, says what comes of the first `n` bytes of an encoded
payload whose fields fit their length fields: `ErrPayloadTooShort` as long as
anything is missing, and then the message.

Every length is checked before anything is sliced, so that nothing cut short is
accepted and nothing cut short panics (`decodeMessage_of_prefix`).  The whole
message comes back from ten of the sixteen types.  In `protocol/kv` the end of the
last field is computed in the type of its length, and a message that reaches beyond
it panics: `decodeMessage_encodeMessage_iff` has the bounds, a few bytes below what
the length field can express.
-/

import Keva.Protocol.Decode

namespace Keva
namespace Protocol

open Bytes

/-- A string takes two bytes more than it has. -/
theorem length_encodeString (s : Bytes) : (encodeString s).length = 2 + s.length := by
  rw [encodeString, List.length_append, length_be]

variable (n : ℕ)

/-! ### `protocol/kv` -/

/-- **A key, cut short or not:** every proper part of its encoding is too short, and the whole is
decoded to the key, or takes the decoder down if the key ends past `2 ^ 16`.  The layouts below
follow the same scheme. -/
theorem decodeKey_take {key : Bytes} (hkey : key.length ≤ 65535) :
    decodeKey ((encodeString key).take n) =
      if n < (encodeString key).length then .error .payloadTooShort
      else if 2 + key.length < 2 ^ 16 then .ok key
      else .panic := by
  have hkeyLen : beAt 2 (encodeString key) 0 = key.length := beAt_be_append (by omega) _
  have hlen := length_encodeString key
  rw [decode_take decodeKey_eq (fun data n hn => by rw [beAt_take hn]) (by omega)
    (by rw [hkeyLen, hlen]), hkeyLen]
  simp [encodeString]

/-- A status and its message, cut short or not. -/
theorem decodeStatus_take {success : Bool} {message : Bytes} (hmessage : message.length ≤ 65535) :
    decodeStatus ((flag success ++ encodeString message).take n) =
      if n < (flag success ++ encodeString message).length then .error .payloadTooShort
      else if 3 + message.length < 2 ^ 16 then .ok (success, message)
      else .panic := by
  have hmsgLen : beAt 2 (flag success ++ encodeString message) 1 = message.length :=
    beAt_be_append (by omega) _
  have hlen : (flag success ++ encodeString message).length = 3 + message.length := by
    simp [flag, length_encodeString]
    omega
  rw [decode_take decodeStatus_eq (fun data n hn => by rw [beAt_take hn]) (by omega)
    (by rw [hmsgLen, hlen]), hmsgLen]
  simp [flag, encodeString]

/-- The answer to a get, cut short or not.  Its value may have any length that 32 bits can
announce, and the last five of them take the decoder down. -/
theorem GetResponse.decode_take {g : GetResponse} (hvalue : g.value.length < 2 ^ 32) :
    GetResponse.decode (g.encode.take n) =
      if n < g.encode.length then .error .payloadTooShort
      else if 5 + g.value.length < 2 ^ 32 then .ok g
      else .panic := by
  have hvalLen : beAt 4 g.encode 1 = g.value.length := by
    change beAt 4 (be 4 g.value.length ++ g.value) 0 = _
    exact beAt_be_append (by omega) _
  have hlen : g.encode.length = 5 + g.value.length := by
    simp [encode, flag]
    omega
  rw [Bytes.decode_take decode_eq (fun data n hn => by rw [beAt_take hn]) (by omega)
    (by rw [hvalLen, hlen]), hvalLen]
  simp [encode, flag]

/-- A set, cut short or not.  A key of more than 65521 bytes takes the decoder down. -/
theorem SetRequest.decode_take {s : SetRequest} (hkey : s.key.length ≤ 65535)
    (hvalue : s.value.length < 2 ^ 32) :
    SetRequest.decode (s.encode.take n) =
      if n < s.encode.length then .error .payloadTooShort
      else if 14 + s.key.length < 2 ^ 16 then .ok s
      else .panic := by
  have hkeyLen : beAt 2 s.encode 0 = s.key.length := by
    simp [encode, Nat.lt_succ_of_le hkey]
  have hvalLen : beAt 4 s.encode 2 = s.value.length := by
    simp [encode, show s.value.length < 4294967296 from hvalue]
  have hlen : s.encode.length = 14 + s.key.length + s.value.length := by
    simp [encode]
    omega
  have hbody : s.encode.drop 14 = s.key ++ s.value := by simp [encode, List.drop_append]
  have httl : beAt 8 s.encode 6 = s.ttl.toNat := by simp [encode]
  rw [Bytes.decode_take decode_eq
      (fun data n hn => by rw [beAt_take (by omega), beAt_take (by omega)]) (by omega)
      (by rw [hkeyLen, hvalLen, hlen]),
    hkeyLen, hvalLen, httl, ← List.drop_drop, hbody, List.take_left' rfl, List.drop_left' rfl,
    List.take_length, UInt64.ofNat_toNat]

/-! ### `protocol/cluster` and `protocol/errors.go` -/

/-- A write that is replicated, cut short or not; no length takes the decoder down. -/
theorem ReplicationSync.decode_take {r : ReplicationSync} (hkey : r.key.length ≤ 65535)
    (hvalue : r.value.length < 2 ^ 32) :
    ReplicationSync.decode (r.encode.take n) =
      if n < r.encode.length then .error .payloadTooShort else .ok r := by
  have hkeyLen : beAt 2 r.encode 9 = r.key.length := by
    simp [encode, Nat.lt_succ_of_le hkey]
  have hvalLen : beAt 4 r.encode 11 = r.value.length := by
    simp [encode, show r.value.length < 4294967296 from hvalue]
  have hlen : r.encode.length = 23 + r.key.length + r.value.length := by
    simp [encode]
    omega
  have hbody : r.encode.drop 23 = r.key ++ r.value := by simp [encode, List.drop_append]
  have hindex : beAt 8 r.encode 0 = r.logIndex.toNat := by simp [encode]
  have hexpiry : beAt 8 r.encode 15 = r.expiresAt.toNat := by simp [encode]
  have hop : r.encode.getD 8 0 = r.op := by simp [encode]
  rw [Bytes.decode_take decode_eq
      (fun data n hn => by rw [beAt_take (by omega), beAt_take (by omega)]) (by omega)
      (by rw [hkeyLen, hvalLen, hlen]),
    hkeyLen, hvalLen, hindex, hexpiry, hop, ← List.drop_drop, hbody, List.take_left' rfl,
    List.drop_left' rfl, List.take_length, UInt64.ofNat_toNat, UInt64.ofNat_toNat]

/-- An acknowledgement, cut short or not. -/
theorem ReplicationAck.decode_take (r : ReplicationAck) :
    ReplicationAck.decode (r.encode.take n) =
      if n < r.encode.length then .error .payloadTooShort else .ok r := by
  have hindex : beAt 8 r.encode 0 = r.lastAppliedIndex.toNat := by
    simpa [encode] using beAt_be_toNat r.lastAppliedIndex []
  have hlen : r.encode.length = 8 := length_be 8 _
  rw [decode_take_fixed decode_eq hlen, hindex, UInt64.ofNat_toNat]

/-- A join, cut short or not. -/
theorem ReplicationJoin.decode_take {r : ReplicationJoin} (haddr : r.nodeAddr.length ≤ 65535) :
    ReplicationJoin.decode (r.encode.take n) =
      if n < r.encode.length then .error .payloadTooShort else .ok r := by
  have haddrLen : beAt 2 r.encode 0 = r.nodeAddr.length := beAt_be_append (by omega) _
  have hlen : r.encode.length = 2 + r.nodeAddr.length := length_encodeString _
  rw [Bytes.decode_take decode_eq (fun data n hn => by rw [beAt_take hn]) (by omega)
    (by rw [haddrLen, hlen]), haddrLen]
  simp [encode, encodeString]

/-- A heartbeat, cut short or not. -/
theorem Heartbeat.decode_take {h : Heartbeat} (hid : h.leaderID.length ≤ 65535) :
    Heartbeat.decode (h.encode.take n) =
      if n < h.encode.length then .error .payloadTooShort else .ok h := by
  have hidLen : beAt 2 h.encode 8 = h.leaderID.length := by
    simp [encode, encodeString, Nat.lt_succ_of_le hid]
  have hterm : beAt 8 h.encode 0 = h.term.toNat := by simp [encode]
  have hlen : h.encode.length = 10 + h.leaderID.length := by
    simp [encode, length_encodeString]
    omega
  rw [Bytes.decode_take decode_eq (fun data n hn => by rw [beAt_take hn]) (by omega)
    (by rw [hidLen, hlen]), hidLen, hterm]
  simp [encode, encodeString, List.drop_append]

/-- The acknowledgement of a heartbeat, cut short or not. -/
theorem HeartbeatAck.decode_take (h : HeartbeatAck) :
    HeartbeatAck.decode (h.encode.take n) =
      if n < h.encode.length then .error .payloadTooShort else .ok h := by
  have hterm : beAt 8 h.encode 0 = h.term.toNat := by simp [encode]
  have hindex : beAt 8 h.encode 8 = h.lastAppliedIndex.toNat := by
    simpa [encode] using beAt_be_toNat h.lastAppliedIndex []
  have hlen : h.encode.length = 16 := by simp [encode]
  rw [decode_take_fixed decode_eq hlen, hterm, hindex, UInt64.ofNat_toNat, UInt64.ofNat_toNat]

/-- A vote request, cut short or not: a cut between the address and the index behind it is noticed
too. -/
theorem VoteRequest.decode_take {v : VoteRequest} (hid : v.candidateID.length ≤ 65535) :
    VoteRequest.decode (v.encode.take n) =
      if n < v.encode.length then .error .payloadTooShort else .ok v := by
  have hidLen : beAt 2 v.encode 8 = v.candidateID.length := by
    simp [encode, encodeString, Nat.lt_succ_of_le hid]
  have hterm : beAt 8 v.encode 0 = v.term.toNat := by simp [encode]
  have hindex : beAt 8 v.encode (10 + v.candidateID.length) = v.lastLogIndex.toNat := by
    have hname : (be 8 v.term.toNat ++ encodeString v.candidateID).length =
        10 + v.candidateID.length := by
      rw [List.length_append, length_be, length_encodeString]
      omega
    simpa [encode] using beAt_append hname v.lastLogIndex.toNat_lt []
  have hlen : v.encode.length = 18 + v.candidateID.length := by
    simp [encode, length_encodeString]
    omega
  rw [Bytes.decode_take decode_eq (fun data n hn => by rw [beAt_take hn]) (by omega)
    (by rw [hidLen, hlen]), hidLen, hterm, hindex]
  simp [encode, encodeString, List.drop_append]

/-- A vote, cut short or not. -/
theorem VoteResponse.decode_take (v : VoteResponse) :
    VoteResponse.decode (v.encode.take n) =
      if n < v.encode.length then .error .payloadTooShort else .ok v := by
  have hterm : beAt 8 v.encode 0 = v.term.toNat := by simp [encode]
  have hlen : v.encode.length = 9 := by simp [encode, flag]
  rw [decode_take_fixed decode_eq hlen, hterm]
  simp [encode, flag]

/-- An error, cut short or not. -/
theorem ErrorMessage.decode_take {e : ErrorMessage} (hmessage : e.message.length ≤ 65535) :
    ErrorMessage.decode (e.encode.take n) =
      if n < e.encode.length then .error .payloadTooShort else .ok e := by
  have hmsgLen : beAt 2 e.encode 2 = e.message.length := by
    simp [encode, encodeString, Nat.lt_succ_of_le hmessage]
  have hcode : beAt 2 e.encode 0 = e.code.toNat := beAt_be_append e.code.toNat_lt _
  have hlen : e.encode.length = 4 + e.message.length := by
    simp [encode, length_encodeString]
    omega
  rw [Bytes.decode_take decode_eq (fun data n hn => by rw [beAt_take hn]) (by omega)
    (by rw [hmsgLen, hlen]), hmsgLen, hcode]
  simp [encode, encodeString, List.drop_append]

/-! ### `protocol/client` -/

/-- A string of a topology, wherever it stands and whatever comes after it: it is read back if
all of it is there, and otherwise the payload is reported as too short. -/
theorem stringAt_take {s : Bytes} (hs : s.length ≤ 65535) (before after : Bytes) :
    stringAt ((before ++ (encodeString s ++ after)).take n) before.length =
      if n < before.length + (encodeString s).length then .error .payloadTooShort
      else .ok (s, before.length + (encodeString s).length) := by
  have hsLen : beAt 2 (before ++ (encodeString s ++ after)) before.length = s.length := by
    rw [encodeString, List.append_assoc]
    exact beAt_append rfl (by omega) _
  have hbody : (before ++ (encodeString s ++ after)).drop (before.length + 2) = s ++ after := by
    rw [← List.drop_drop, List.drop_left' rfl, encodeString, List.append_assoc,
      List.drop_left' (length_be ..)]
  have hlen : (before ++ (encodeString s ++ after)).length =
      before.length + 2 + s.length + after.length := by
    simp [length_encodeString]
    omega
  rw [length_encodeString, stringAt_eq, List.length_take, hlen]
  rcases lt_or_ge n (before.length + 2) with hn | hn
  · rw [if_pos (by omega), if_pos (by omega)]
  rw [beAt_take (by omega), hsLen]
  by_cases hn' : n < before.length + (2 + s.length)
  · rw [if_pos (by omega), if_pos hn']
  · rw [if_neg (by omega), if_neg hn', List.drop_take, hbody, List.take_take,
      Nat.min_eq_left (by omega), List.take_left' rfl, Nat.add_assoc]

/-- A node of a topology as it is written. -/
def NodeInfo.encode (i : NodeInfo) : Bytes :=
  encodeString i.address ++ [i.role] ++ encodeString i.nodeID

/-- A node of the topology is two strings and a byte between them. -/
theorem NodeInfo.length_encode (i : NodeInfo) :
    i.encode.length = (encodeString i.address).length + 1 + (encodeString i.nodeID).length := by
  simp [encode]
  omega

/-- One round of the loop over the nodes: it reads the node that begins at its
offset, and stops if that is not complete. -/
theorem decodeNodes_succ_take {i : NodeInfo} (haddr : i.address.length ≤ 65535)
    (hid : i.nodeID.length ≤ 65535) (before after : Bytes) (k : ℕ) :
    decodeNodes ((before ++ (i.encode ++ after)).take n) (k + 1) before.length =
      if n < before.length + i.encode.length then .error .payloadTooShort
      else do
        let nodes ← decodeNodes ((before ++ (i.encode ++ after)).take n) k
          (before.length + i.encode.length)
        return i :: nodes := by
  set data := (before ++ (i.encode ++ after)).take n with hdata
  set offset := before.length + (encodeString i.address).length with hoffset
  have haddress : stringAt data before.length =
      if n < offset then .error .payloadTooShort else .ok (i.address, offset) := by
    have hsplit : data = (before ++ (encodeString i.address ++
        ([i.role] ++ encodeString i.nodeID ++ after))).take n := by
      simp [hdata, NodeInfo.encode]
    rw [hsplit, stringAt_take n haddr]
  have hrole (hlt : offset < n) : data.getD offset 0 = i.role := by
    have hsplit : data = ((before ++ encodeString i.address) ++
        (i.role :: (encodeString i.nodeID ++ after))).take n := by
      simp [hdata, NodeInfo.encode]
    rw [hsplit, List.getD_eq_getElem?_getD, List.getElem?_take_of_lt hlt, hoffset,
      ← List.length_append]
    simp
  have hnodeID : stringAt data (offset + 1) =
      if n < before.length + i.encode.length then .error .payloadTooShort
      else .ok (i.nodeID, before.length + i.encode.length) := by
    have hsplit : data = ((before ++ encodeString i.address ++ [i.role]) ++
        (encodeString i.nodeID ++ after)).take n := by
      simp [hdata, NodeInfo.encode]
    have hbefore : (before ++ encodeString i.address ++ [i.role]).length = offset + 1 := by
      simp [hoffset, Nat.add_assoc]
    have hend : offset + 1 + (encodeString i.nodeID).length = before.length + i.encode.length := by
      rw [i.length_encode]
      omega
    rw [hsplit, ← hbefore, stringAt_take n hid, hbefore, hend]
  have hlen : data.length = min n (before.length + i.encode.length + after.length) := by
    simp [hdata, Nat.add_assoc]
  have hi := i.length_encode
  rw [decodeNodes, haddress]
  by_cases hn : n < offset
  · rw [if_pos hn, if_pos (by omega)]
    rfl
  rw [if_neg hn, Outcome.ok_bind]
  dsimp only
  by_cases hn' : n < offset + 1
  · rw [if_pos (by omega), if_pos (by omega)]
  rw [if_neg (by omega), index_of_lt (by omega), Outcome.ok_bind, hnodeID, hrole (by omega)]
  by_cases hn'' : n < before.length + i.encode.length
  · rw [if_pos hn'', if_pos hn'']
    rfl
  · rw [if_neg hn'', if_neg hn'']
    rfl

/-- **The loop over the nodes**, by induction on those still to come: it reads back the nodes
that were written, or reports a payload that was cut somewhere among them. -/
theorem decodeNodes_take {nodes : List NodeInfo}
    (hnodes : ∀ i ∈ nodes, i.address.length ≤ 65535 ∧ i.nodeID.length ≤ 65535)
    (before after : Bytes) (hn : before.length ≤ n) :
    decodeNodes ((before ++ (nodes.flatMap NodeInfo.encode ++ after)).take n) nodes.length
        before.length =
      if n < before.length + (nodes.flatMap NodeInfo.encode).length then .error .payloadTooShort
      else .ok nodes := by
  induction nodes generalizing before with
  | nil =>
    rw [if_neg (by simpa using hn)]
    rfl
  | cons i nodes ih =>
    obtain ⟨haddr, hid⟩ := hnodes i List.mem_cons_self
    have hrest := ih (fun j hj => hnodes j (List.mem_cons_of_mem i hj)) (before ++ i.encode)
    rw [List.append_assoc, List.length_append] at hrest
    rw [List.flatMap_cons, List.append_assoc, List.length_cons,
      decodeNodes_succ_take n haddr hid, List.length_append]
    by_cases hi : n < before.length + i.encode.length
    · rw [if_pos hi, if_pos (by omega)]
    rw [if_neg hi, hrest (not_lt.1 hi), Nat.add_assoc]
    split_ifs
    · rfl
    · rfl

/-- The fields and the node count fit their length fields of two bytes each, so that `encode`
cuts none of them. -/
def TopologyResponse.Fits (t : TopologyResponse) : Prop :=
  t.leaderAddr.length ≤ 65535 ∧ t.nodes.length ≤ 65535 ∧
    ∀ i ∈ t.nodes, i.address.length ≤ 65535 ∧ i.nodeID.length ≤ 65535

/-- A topology is decoded from what begins with it. -/
theorem TopologyResponse.decode_take {t : TopologyResponse} (h : t.Fits) (after : Bytes) :
    TopologyResponse.decode ((t.encode ++ after).take n) =
      if n < t.encode.length then .error .payloadTooShort else .ok t := by
  obtain ⟨hleader, hcount, hnodes⟩ := h
  set data := (t.encode ++ after).take n with hdata
  set head := encodeString t.leaderAddr ++ be 2 t.nodes.length with hhead
  have hsplit : t.encode ++ after = head ++ (t.nodes.flatMap NodeInfo.encode ++ after) :=
    List.append_assoc ..
  have hheadLen : head.length = 2 + t.leaderAddr.length + 2 := by
    simp [hhead, length_encodeString]
  have hlen : t.encode.length = head.length + (t.nodes.flatMap NodeInfo.encode).length :=
    List.length_append
  have hdataLen : data.length = min n (t.encode.length + after.length) := by
    rw [hdata, List.length_take, List.length_append]
  unfold TopologyResponse.decode
  by_cases hn : n < 4
  · rw [if_pos (by omega), if_pos (by omega)]
  have hleaderLen : beAt 2 data 0 = t.leaderAddr.length := by
    rw [hdata, beAt_take (by omega), hsplit, hhead, encodeString]
    simp [Nat.lt_succ_of_le hleader]
  rw [if_neg (by omega), readBE_of_le (by omega) (by omega), hleaderLen, Outcome.ok_bind]
  by_cases hn' : n < 2 + t.leaderAddr.length
  · rw [if_pos (by omega), if_pos (by omega)]
  have hleaderAddr : (data.drop 2).take t.leaderAddr.length = t.leaderAddr := by
    rw [hdata, List.drop_take, List.take_take, hsplit, hhead, encodeString,
      Nat.min_eq_left (by omega)]
    simp
  rw [if_neg (by omega), slice_add (by omega), hleaderAddr, Outcome.ok_bind]
  by_cases hn'' : n < 2 + t.leaderAddr.length + 2
  · rw [if_pos (by omega), if_pos (by omega)]
  have hnodeCount : beAt 2 data (2 + t.leaderAddr.length) = t.nodes.length := by
    rw [hdata, beAt_take (by omega), hsplit, hhead, List.append_assoc]
    exact beAt_append (length_encodeString _) (by omega) _
  rw [if_neg (by omega), readBE_of_le (by omega) (by omega), hnodeCount, Outcome.ok_bind,
    ← hheadLen, hdata, hsplit, decodeNodes_take n hnodes head after (by omega), ← hlen]
  split_ifs
  · rfl
  · rfl

/-! ### Any message -/

namespace Message

/-- Every field of variable length, and the number of nodes, fits the length field
that stands for it. -/
def Fits : Message → Prop
  | getRequest m => m.key.length ≤ 65535
  | setRequest m => m.key.length ≤ 65535 ∧ m.value.length < 2 ^ 32
  | deleteRequest m => m.key.length ≤ 65535
  | getResponse m => m.value.length < 2 ^ 32
  | setResponse m => m.message.length ≤ 65535
  | deleteResponse m => m.message.length ≤ 65535
  | topologyRequest _ => True
  | topologyResponse m => m.Fits
  | replicationSync m => m.key.length ≤ 65535 ∧ m.value.length < 2 ^ 32
  | replicationAck _ => True
  | replicationJoin m => m.nodeAddr.length ≤ 65535
  | heartbeat m => m.leaderID.length ≤ 65535
  | heartbeatAck _ => True
  | voteRequest m => m.candidateID.length ≤ 65535
  | voteResponse _ => True
  | errorMessage m => m.message.length ≤ 65535

/-- The decoder computes the end of no field in a type that is too small for it. -/
def EndsFit : Message → Prop
  | getRequest m => 2 + m.key.length < 2 ^ 16
  | setRequest m => 14 + m.key.length < 2 ^ 16
  | deleteRequest m => 2 + m.key.length < 2 ^ 16
  | getResponse m => 5 + m.value.length < 2 ^ 32
  | setResponse m => 3 + m.message.length < 2 ^ 16
  | deleteResponse m => 3 + m.message.length < 2 ^ 16
  | _ => True

instance (m : Message) : Decidable m.EndsFit := by
  cases m <;> unfold EndsFit <;> infer_instance

end Message

/-- The result of a decoder as a message. -/
theorem return_ite {α β : Type} {p q : Prop} [Decidable p] [Decidable q] {x : Outcome Error α}
    {e : Error} {a : α} {f : α → β}
    (h : x = if p then .error e else if q then .ok a else .panic) :
    (do return f (← x)) = if p then .error e else if q then .ok (f a) else .panic := by
  subst h
  split_ifs <;> rfl

/-- Brings a decoder that cannot panic into the form of those that can, so that one statement
covers all sixteen. -/
theorem return_ite_of_pos {α β : Type} {p q : Prop} [Decidable p] [Decidable q]
    {x : Outcome Error α} {e : Error} {a : α} {f : α → β} (hq : q)
    (h : x = if p then .error e else .ok a) :
    (do return f (← x)) = if p then .error e else if q then .ok (f a) else .panic :=
  return_ite (by rw [if_pos hq, h])

/-- **The registered decoder of a message** on the first `n` bytes of its payload.  One case for
each type, with the lemma of its decoder. -/
theorem Message.decode_take {m : Message} (h : m.Fits) :
    ∃ decode, lookup m.opCode = some decode ∧
      decode (m.encode.take n) =
        if n < m.encode.length then .error .payloadTooShort
        else if m.EndsFit then .ok m
        else .panic := by
  have always : True := trivial
  cases m with
  | getRequest m => exact ⟨_, rfl, return_ite (return_ite (decodeKey_take n h))⟩
  | setRequest m => exact ⟨_, rfl, return_ite (SetRequest.decode_take n h.1 h.2)⟩
  | deleteRequest m => exact ⟨_, rfl, return_ite (return_ite (decodeKey_take n h))⟩
  | getResponse m => exact ⟨_, rfl, return_ite (GetResponse.decode_take n h)⟩
  | setResponse m => exact ⟨_, rfl, return_ite (return_ite (decodeStatus_take n h))⟩
  | deleteResponse m => exact ⟨_, rfl, return_ite (return_ite (decodeStatus_take n h))⟩
  | topologyRequest m => exact ⟨_, rfl, rfl⟩
  | topologyResponse m =>
    have htake := TopologyResponse.decode_take n h []
    rw [List.append_nil] at htake
    exact ⟨_, rfl, return_ite_of_pos always htake⟩
  | replicationSync m =>
    exact ⟨_, rfl, return_ite_of_pos always (ReplicationSync.decode_take n h.1 h.2)⟩
  | replicationAck m => exact ⟨_, rfl, return_ite_of_pos always (ReplicationAck.decode_take n m)⟩
  | replicationJoin m => exact ⟨_, rfl, return_ite_of_pos always (ReplicationJoin.decode_take n h)⟩
  | heartbeat m => exact ⟨_, rfl, return_ite_of_pos always (Heartbeat.decode_take n h)⟩
  | heartbeatAck m => exact ⟨_, rfl, return_ite_of_pos always (HeartbeatAck.decode_take n m)⟩
  | voteRequest m => exact ⟨_, rfl, return_ite_of_pos always (VoteRequest.decode_take n h)⟩
  | voteResponse m => exact ⟨_, rfl, return_ite_of_pos always (VoteResponse.decode_take n m)⟩
  | errorMessage m => exact ⟨_, rfl, return_ite_of_pos always (ErrorMessage.decode_take n h)⟩

/-- **`DecodeMessage` on what `EncodeMessage` wrote,** as far as it goes: the message, if all of
it is there and no end of a field overflows, and otherwise an error or a panic. -/
theorem decodeMessage_take {m : Message} (h : m.Fits) :
    decodeMessage ((encodeMessage m).take (n + 1)) =
      if n < m.encode.length then .error (.decode m.opCode .payloadTooShort)
      else if m.EndsFit then .ok m
      else .panic := by
  obtain ⟨decode, hlookup, hdecode⟩ := m.decode_take n h
  simp only [encodeMessage, List.take_succ_cons, decodeMessage, hlookup, hdecode]
  split_ifs <;> rfl

/-- **A message is decoded from what it was encoded to,** if its fields fit their lengths, and
takes the decoder down exactly if the end of a field does not fit the type that it is computed
in. -/
theorem decodeMessage_encodeMessage {m : Message} (h : m.Fits) :
    decodeMessage (encodeMessage m) = if m.EndsFit then .ok m else .panic := by
  have hwhole : (encodeMessage m).take (m.encode.length + 1) = encodeMessage m :=
    List.take_of_length_le (List.length_cons ..).le
  rw [← hwhole, decodeMessage_take _ h, if_neg (lt_irrefl _)]

/-- **A message comes back exactly if its ends fit.**  For the types of
`protocol/kv` that is short of what their length fields allow; for all others it is
no condition. -/
theorem decodeMessage_encodeMessage_iff {m : Message} (h : m.Fits) :
    decodeMessage (encodeMessage m) = .ok m ↔ m.EndsFit := by
  rw [decodeMessage_encodeMessage h]
  split_ifs with hends
  · exact iff_of_true rfl hends
  · exact iff_of_false (by simp) hends

/-- A write of three bytes comes back. -/
theorem decodeMessage_encodeMessage_set :
    decodeMessage (encodeMessage (.setRequest ⟨[1, 2], [3], 60⟩)) =
      .ok (.setRequest ⟨[1, 2], [3], 60⟩) := by
  have hfits : Message.Fits (.setRequest ⟨[1, 2], [3], 60⟩) := ⟨by decide, by decide⟩
  exact (decodeMessage_encodeMessage_iff hfits).2 (by decide)

/-- A key behind a header of 14 bytes that ends where `uint16` is zero again. -/
theorem decodeMessage_set_eq_panic {key : Bytes} (h : key.length = 65522) :
    Message.Fits (.setRequest ⟨key, [], 0⟩) ∧
      (encodeMessage (.setRequest ⟨key, [], 0⟩)).length < 2 ^ 32 ∧
      decodeMessage (encodeMessage (.setRequest ⟨key, [], 0⟩)) = .panic := by
  have hfits : Message.Fits (.setRequest ⟨key, [], 0⟩) := ⟨by rw [h]; omega, by simp⟩
  have hends : ¬ Message.EndsFit (.setRequest ⟨key, [], 0⟩) := by
    change ¬ 14 + key.length < 2 ^ 16
    omega
  refine ⟨hfits, ?_, ?_⟩
  · change (opSet :: SetRequest.encode ⟨key, [], 0⟩).length < _
    simp [SetRequest.encode, h]
  · rw [decodeMessage_encodeMessage hfits, if_neg hends]

/-- **A request that does not come back:** its key and its size are within what the
format has room for. -/
theorem decodeMessage_set_panics :
    Message.Fits (.setRequest ⟨List.replicate 65522 0, [], 0⟩) ∧
      (encodeMessage (.setRequest ⟨List.replicate 65522 0, [], 0⟩)).length < 2 ^ 32 ∧
      decodeMessage (encodeMessage (.setRequest ⟨List.replicate 65522 0, [], 0⟩)) = .panic :=
  decodeMessage_set_eq_panic List.length_replicate

/-- `errors.Is`: the error itself or one that it wraps. -/
def Error.is (e target : Error) : Bool :=
  e = target ||
    match e with
    | decode _ cause => cause.is target
    | malformedMessage cause => cause.is target
    | _ => false

/-- **Nothing that is cut short is accepted,** and nothing that is cut short
panics. -/
theorem decodeMessage_of_prefix {m : Message} (h : m.Fits) {p : Bytes}
    (hp : p <+: encodeMessage m) (hne : p ≠ encodeMessage m) :
    ∃ e, decodeMessage p = .error e ∧ e.is .payloadTooShort := by
  have htake : p = (encodeMessage m).take p.length := List.prefix_iff_eq_take.1 hp
  have hlt : p.length < m.encode.length + 1 :=
    lt_of_le_of_ne hp.length_le fun heq => hne (hp.eq_of_length heq)
  rw [htake]
  cases hn : p.length with
  | zero => exact ⟨.payloadTooShort, rfl, by decide⟩
  | succ n =>
    refine ⟨.decode m.opCode .payloadTooShort, ?_, ?_⟩
    · rw [decodeMessage_take n h, if_pos (by omega)]
    · simp [Error.is]

/-- A heartbeat without its last two bytes. -/
theorem decodeMessage_of_prefix_heartbeat :
    ∃ e, decodeMessage [0x30, 0, 0, 0, 0, 0, 0, 0, 5, 0] = .error e ∧ e.is .payloadTooShort := by
  have hfits : Message.Fits (.heartbeat ⟨5, [9]⟩) := by
    change 1 ≤ 65535
    omega
  exact decodeMessage_of_prefix hfits (by decide) (by decide)

end Protocol
end Keva
