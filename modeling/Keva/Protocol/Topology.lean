/-
# The grammar of a topology

`protocol/client/topology_protocol_response.go`: a leader, a node count, and as many nodes,
each of an address, a role and an id; strings stand behind their 16-bit length.

`IsTopology` says so about bytes, without the decoder and the encoder.  The decoder accepts
exactly what begins with such bytes, and what it returns is encoded as just these
(`TopologyResponse.decode_grammar`), whatever the length fields claim and whatever comes after.
-/

import Keva.Protocol.RoundTrip

namespace Keva
namespace Protocol

open Bytes

/-! ### Grammar -/

/-- Two bytes of a length, and as many bytes.  `s` is any text, also an empty one. -/
def IsString (bs : Bytes) : Prop :=
  ∃ len s : Bytes, bs = len ++ s ∧ len.length = 2 ∧ s.length = ofBE len

/-- An address, one byte of a role, and an id, which is how a node stands in a topology. -/
def IsNode (bs : Bytes) : Prop :=
  ∃ (address : Bytes) (role : UInt8) (nodeID : Bytes),
    bs = address ++ [role] ++ nodeID ∧ IsString address ∧ IsString nodeID

/-- As many nodes, one after another, with nothing between them. -/
inductive AreNodes : ℕ → Bytes → Prop
  | nil : AreNodes 0 []
  | cons {n : ℕ} {node nodes : Bytes} (hnode : IsNode node) (hnodes : AreNodes n nodes) :
      AreNodes (n + 1) (node ++ nodes)

/-- A leader, two bytes of a count, and as many nodes: the format, said without the decoder. -/
def IsTopology (bs : Bytes) : Prop :=
  ∃ leader count nodes : Bytes,
    bs = leader ++ count ++ nodes ∧ IsString leader ∧ count.length = 2 ∧
      AreNodes (ofBE count) nodes

/-! ### What is well formed is what is encoded -/

/-- Two bytes are the digits of a 16-bit number. -/
theorem be_of_length {bs : Bytes} (h : bs.length = 2) : be 2 (ofBE bs) = bs ∧ ofBE bs ≤ 65535 := by
  constructor
  · rw [← h, be_ofBE]
  · have hlt := ofBE_lt bs
    rw [h] at hlt
    omega

/-- A string of the grammar is the encoding of one. -/
theorem isString_iff {bs : Bytes} : IsString bs ↔ ∃ s, s.length ≤ 65535 ∧ bs = encodeString s := by
  constructor
  · rintro ⟨len, s, rfl, hlen, hs⟩
    obtain ⟨hdigits, hle⟩ := be_of_length hlen
    refine ⟨s, hs ▸ hle, ?_⟩
    rw [encodeString, hs, hdigits]
  · rintro ⟨s, hs, rfl⟩
    exact ⟨be 2 s.length, s, rfl, length_be 2 _, (ofBE_be_of_lt (by omega)).symm⟩

/-- The strings of a node fit their length fields of two bytes. -/
def NodeInfo.Fits (i : NodeInfo) : Prop := i.address.length ≤ 65535 ∧ i.nodeID.length ≤ 65535

/-- A node of the grammar is the encoding of one. -/
theorem isNode_iff {bs : Bytes} : IsNode bs ↔ ∃ i : NodeInfo, i.Fits ∧ bs = i.encode := by
  constructor
  · rintro ⟨_, role, _, rfl, haddress, hid⟩
    obtain ⟨address, haddr, rfl⟩ := isString_iff.1 haddress
    obtain ⟨nodeID, hnode, rfl⟩ := isString_iff.1 hid
    exact ⟨⟨address, role, nodeID⟩, ⟨haddr, hnode⟩, rfl⟩
  · rintro ⟨i, ⟨haddr, hid⟩, rfl⟩
    exact ⟨_, i.role, _, rfl, isString_iff.2 ⟨_, haddr, rfl⟩, isString_iff.2 ⟨_, hid, rfl⟩⟩

/-- A number of nodes of the grammar are the encodings of as many, one behind the other. -/
theorem areNodes_iff {n : ℕ} {bs : Bytes} :
    AreNodes n bs ↔ ∃ nodes : List NodeInfo,
      nodes.length = n ∧ (∀ i ∈ nodes, i.Fits) ∧ bs = nodes.flatMap NodeInfo.encode := by
  constructor
  · intro h
    induction h with
    | nil => exact ⟨[], rfl, by simp, rfl⟩
    | cons hnode _ ih =>
      obtain ⟨i, hi, rfl⟩ := isNode_iff.1 hnode
      obtain ⟨nodes, rfl, hnodes, rfl⟩ := ih
      exact ⟨i :: nodes, rfl, List.forall_mem_cons.2 ⟨hi, hnodes⟩, rfl⟩
  · rintro ⟨nodes, rfl, hnodes, rfl⟩
    induction nodes with
    | nil => exact .nil
    | cons i nodes ih =>
      obtain ⟨hi, hnodes⟩ := List.forall_mem_cons.1 hnodes
      exact .cons (isNode_iff.2 ⟨i, hi, rfl⟩) (ih hnodes)

/-- **What is well formed is a topology that fits, encoded.**  The format and the encoder agree,
and the decoder can be compared with either. -/
theorem isTopology_iff {bs : Bytes} :
    IsTopology bs ↔ ∃ t : TopologyResponse, t.Fits ∧ bs = t.encode := by
  constructor
  · rintro ⟨_, count, _, rfl, hleader, hcount, hnodes⟩
    obtain ⟨leader, hlen, rfl⟩ := isString_iff.1 hleader
    obtain ⟨nodes, hn, hfits, rfl⟩ := areNodes_iff.1 hnodes
    obtain ⟨hdigits, hle⟩ := be_of_length hcount
    refine ⟨⟨leader, nodes⟩, ⟨hlen, hn ▸ hle, hfits⟩, ?_⟩
    rw [← hdigits, ← hn]
    rfl
  · rintro ⟨t, ⟨hleader, hcount, hnodes⟩, rfl⟩
    refine ⟨_, be 2 t.nodes.length, _, rfl, isString_iff.2 ⟨_, hleader, rfl⟩, length_be 2 _, ?_⟩
    rw [ofBE_be_of_lt (by omega)]
    exact areNodes_iff.2 ⟨t.nodes, rfl, hnodes, rfl⟩

/-! ### What is accepted is well formed -/

variable {data : Bytes}

/-- The two bytes of a length, where there are two bytes. -/
theorem drop_eq_be {offset : ℕ} (h : offset + 2 ≤ data.length) :
    data.drop offset = be 2 (beAt 2 data offset) ++ data.drop (offset + 2) := by
  have hlen : ((data.drop offset).take 2).length = 2 := by
    rw [List.length_take, List.length_drop]
    omega
  rw [beAt, (be_of_length hlen).1, ← List.drop_drop, List.take_append_drop]

/-- **A string that is read** stands there behind its length, and what is read next stands behind
it. -/
theorem stringAt_ok {offset offset' : ℕ} {s : Bytes} (h : stringAt data offset = .ok (s, offset')) :
    s.length ≤ 65535 ∧ offset' ≤ data.length ∧
      data.drop offset = encodeString s ++ data.drop offset' := by
  rw [stringAt_eq] at h
  split_ifs at h with hshort
  obtain ⟨rfl, rfl⟩ := Prod.mk.inj (Outcome.ok.inj h)
  have hlen : ((data.drop (offset + 2)).take (beAt 2 data offset)).length = beAt 2 data offset := by
    rw [List.length_take, List.length_drop]
    omega
  have hlt := beAt_two_lt data offset
  have hrest := List.take_append_drop (beAt 2 data offset) (data.drop (offset + 2))
  rw [List.drop_drop] at hrest
  refine ⟨by omega, by omega, ?_⟩
  rw [encodeString, hlen, List.append_assoc, hrest]
  exact drop_eq_be (by omega)

/-- **The nodes that are read** stand there one after another, as many as were to come. -/
theorem decodeNodes_ok {n offset : ℕ} {nodes : List NodeInfo}
    (h : decodeNodes data n offset = .ok nodes) :
    nodes.length = n ∧ (∀ i ∈ nodes, i.Fits) ∧
      ∃ rest, data.drop offset = nodes.flatMap NodeInfo.encode ++ rest := by
  induction n generalizing offset nodes with
  | zero =>
    obtain rfl := Outcome.ok.inj h
    exact ⟨rfl, by simp, data.drop offset, rfl⟩
  | succ n ih =>
    rw [decodeNodes] at h
    obtain ⟨⟨address, offset₁⟩, haddress, h⟩ := Outcome.bind_eq_ok_iff.1 h
    dsimp only at h
    split_ifs at h with hshort
    obtain ⟨role, hrole, h⟩ := Outcome.bind_eq_ok_iff.1 h
    obtain ⟨⟨nodeID, offset₂⟩, hid, h⟩ := Outcome.bind_eq_ok_iff.1 h
    obtain ⟨nodes, hnodes, h⟩ := Outcome.bind_eq_ok_iff.1 h
    obtain rfl := Outcome.ok.inj h
    obtain ⟨haddr, -, hdrop⟩ := stringAt_ok haddress
    obtain ⟨hnode, -, hdrop'⟩ := stringAt_ok hid
    obtain ⟨rfl, hfits, rest, hrest⟩ := ih hnodes
    refine ⟨rfl, List.forall_mem_cons.2 ⟨⟨haddr, hnode⟩, hfits⟩, rest, ?_⟩
    rw [hdrop, drop_of_index hrole, hdrop', hrest, List.flatMap_cons, NodeInfo.encode]
    simp

/-- **A topology that is decoded** fits its length fields, and its encoding is what the bytes
begin with. -/
theorem TopologyResponse.decode_ok {t : TopologyResponse} (h : TopologyResponse.decode data = .ok t) :
    t.Fits ∧ ∃ rest, data = t.encode ++ rest := by
  unfold TopologyResponse.decode at h
  split_ifs at h with hshort
  rw [readBE_of_le (by omega) (by omega), Outcome.ok_bind] at h
  by_cases hleader : data.length < 2 + beAt 2 data 0
  · rw [if_pos hleader] at h
    cases h
  rw [if_neg hleader, slice_add (by omega), Outcome.ok_bind] at h
  by_cases hcount : data.length < 2 + beAt 2 data 0 + 2
  · rw [if_pos hcount] at h
    cases h
  rw [if_neg hcount, readBE_of_le (by omega) (by omega), Outcome.ok_bind] at h
  obtain ⟨nodes, hnodes, h⟩ := Outcome.bind_eq_ok_iff.1 h
  obtain rfl := Outcome.ok.inj h
  -- The leader is a string at the start.
  have hstring : stringAt data 0 = .ok ((data.drop 2).take (beAt 2 data 0), 2 + beAt 2 data 0) := by
    rw [stringAt_eq, if_neg (by omega), Nat.zero_add]
  obtain ⟨hlen, -, hdrop⟩ := stringAt_ok hstring
  obtain ⟨hn, hfits, rest, hrest⟩ := decodeNodes_ok hnodes
  have hlt := beAt_two_lt data (2 + beAt 2 data 0)
  have hle : nodes.length ≤ 65535 := by omega
  refine ⟨⟨hlen, hle, hfits⟩, rest, ?_⟩
  have hbytes : data = encodeString ((data.drop 2).take (beAt 2 data 0)) ++
      (be 2 nodes.length ++ (nodes.flatMap NodeInfo.encode ++ rest)) := by
    rw [hn, ← hrest, ← drop_eq_be (by omega), ← hdrop, List.drop_zero]
  refine hbytes.trans ?_
  rw [← List.append_assoc, ← List.append_assoc]
  rfl

/-- **A topology is decoded from exactly its grammar.**  The decoder panics on no bytes.  It
succeeds exactly if the bytes begin with a topology that is well formed, and what it returns is
then encoded as just this beginning.  Conversely, whatever comes after the encoding of a topology
that fits its length fields, the topology is decoded. -/
theorem TopologyResponse.decode_grammar (data : Bytes) :
    TopologyResponse.decode data ≠ .panic ∧
      ((∃ t, TopologyResponse.decode data = .ok t) ↔
        ∃ bs rest, IsTopology bs ∧ data = bs ++ rest) ∧
      (∀ t, TopologyResponse.decode data = .ok t →
        IsTopology t.encode ∧ (∃ rest, data = t.encode ++ rest) ∧
          ∀ bs rest, IsTopology bs → data = bs ++ rest → bs = t.encode) ∧
      ∀ t : TopologyResponse, t.Fits → ∀ trailing,
        TopologyResponse.decode (t.encode ++ trailing) = .ok t := by
  have hround : ∀ t : TopologyResponse, t.Fits → ∀ trailing,
      TopologyResponse.decode (t.encode ++ trailing) = .ok t := by
    intro t ht trailing
    have htake := TopologyResponse.decode_take (t.encode ++ trailing).length ht trailing
    rwa [List.take_length, List.length_append, if_neg (by omega)] at htake
  refine ⟨TopologyResponse.decode_ne_panic data, ⟨?_, ?_⟩, ?_, hround⟩
  · rintro ⟨t, ht⟩
    obtain ⟨hfits, rest, hdata⟩ := TopologyResponse.decode_ok ht
    exact ⟨t.encode, rest, isTopology_iff.2 ⟨t, hfits, rfl⟩, hdata⟩
  · rintro ⟨bs, rest, hbs, rfl⟩
    obtain ⟨t, hfits, rfl⟩ := isTopology_iff.1 hbs
    exact ⟨t, hround t hfits rest⟩
  · intro t ht
    obtain ⟨hfits, hrest⟩ := TopologyResponse.decode_ok ht
    refine ⟨isTopology_iff.2 ⟨t, hfits, rfl⟩, hrest, ?_⟩
    rintro bs rest hbs rfl
    obtain ⟨t', hfits', rfl⟩ := isTopology_iff.1 hbs
    have heq : t' = t := Outcome.ok.inj ((hround t' hfits' rest).symm.trans ht)
    rw [heq]

end Protocol
end Keva
