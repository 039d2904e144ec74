/-
# Frames

`protocol/frame.go`: a message travels behind the 32-bit length of its opcode and
payload.  The bytes still to come on a connection are a list, and `readFrame` takes
one frame off it; a frame that was read and cannot be decoded leaves the rest of the
stream where it is.

A stream of frames is therefore read one by one, in the order they were written, the
messages as they were sent and an error for each body that no decoder accepts, until
the stream ends (`readFrames_flatMap`).  A `ReplicationSync` that fits its length
fields is read back from its frame, and what follows it on the stream is untouched
(`readFrame_encodeFrame_replicationSync`).
-/

import Keva.Protocol.RoundTrip

namespace Keva
namespace Protocol

open Bytes

/-- The length in front of a frame takes four bytes. -/
def frameHeaderSize : ℕ := 4

/-- `EncodeFrame`: the length of opcode and payload, and then these. -/
def encodeFrame (msg : Message) : Bytes :=
  be frameHeaderSize (encodeMessage msg).length ++ encodeMessage msg

/-- `ReadFrame` on a stream that ends after `stream`, and what it leaves of it.  A
`maxLen` of zero is no limit. -/
def readFrame (maxLen : ℕ) (stream : Bytes) : Outcome Error Message × Bytes :=
  match readFull frameHeaderSize stream with
  | .error e => (.error (.io e), [])
  | .ok (header, rest) =>
    let msgLen := ofBE header
    if 0 < maxLen ∧ maxLen < msgLen then (.error .frameTooLarge, rest)
    else
      match readFull msgLen rest with
      | .error e => (.error (.io e), [])
      | .ok (body, rest) => ((decodeMessage body).mapError .malformedMessage, rest)

/-- A length and a body of that length are taken off the stream, whatever the body
is. -/
theorem readFrame_append {body : Bytes} (h : body.length < 2 ^ 32) (rest : Bytes) :
    readFrame 0 (be frameHeaderSize body.length ++ body ++ rest) =
      ((decodeMessage body).mapError .malformedMessage, rest) := by
  have hlen : ofBE (be frameHeaderSize body.length) = body.length :=
    ofBE_be_of_lt (by change _ < 256 ^ 4; omega)
  unfold readFrame
  rw [List.append_assoc, readFull_append (length_be _ _)]
  dsimp only
  rw [hlen, if_neg (by omega), readFull_append rfl]

/-- **A message that is decoded from what it was encoded to** is read from its
frame. -/
theorem readFrame_encodeFrame {msg : Message} (hfits : msg.Fits) (hends : msg.EndsFit)
    (hlen : (encodeMessage msg).length < 2 ^ 32) (rest : Bytes) :
    readFrame 0 (encodeFrame msg ++ rest) = (.ok msg, rest) := by
  rw [encodeFrame, readFrame_append hlen, decodeMessage_encodeMessage hfits, if_pos hends]
  rfl

/-- A frame that is not complete is waited for: the call runs into the end of the stream, in the
header or in the body. -/
theorem readFrame_of_lt {msg : Message} (h : (encodeMessage msg).length < 2 ^ 32) {n : ℕ}
    (hn : n < (encodeFrame msg).length) :
    ∃ e, readFrame 0 ((encodeFrame msg).take n) = (.error (.io e), []) := by
  have hlen : (encodeFrame msg).length = frameHeaderSize + (encodeMessage msg).length := by
    rw [encodeFrame, List.length_append, length_be]
  unfold readFrame
  by_cases hheader : n < frameHeaderSize
  · obtain ⟨e, he⟩ : ∃ e, readFull frameHeaderSize ((encodeFrame msg).take n) = .error e :=
      readFull_of_lt (by rw [List.length_take]; omega)
    exact ⟨e, by rw [he]⟩
  · have hsplit : (encodeFrame msg).take n =
        be frameHeaderSize (encodeMessage msg).length ++
          (encodeMessage msg).take (n - frameHeaderSize) := by
      rw [encodeFrame, List.take_append, length_be, List.take_of_length_le (by rw [length_be]; omega)]
    have hsize : ofBE (be frameHeaderSize (encodeMessage msg).length) = (encodeMessage msg).length :=
      ofBE_be_of_lt (by change _ < 256 ^ 4; omega)
    obtain ⟨e, he⟩ : ∃ e, readFull (encodeMessage msg).length
        ((encodeMessage msg).take (n - frameHeaderSize)) = .error e :=
      readFull_of_lt (by rw [List.length_take]; omega)
    refine ⟨e, ?_⟩
    rw [hsplit, readFull_append (length_be _ _)]
    dsimp only
    rw [hsize, if_neg (by omega), he]

/-- The fields fit the lengths that stand for them: two bytes for the key, and four for the whole
frame. -/
structure ReplicationSync.Fits (r : ReplicationSync) : Prop where
  key_le : r.key.length ≤ 65535
  frame_lt : 1 + replicationSyncHeaderSize + r.key.length + r.value.length < 2 ^ 32

instance (r : ReplicationSync) : Decidable r.Fits :=
  decidable_of_iff (r.key.length ≤ 65535 ∧
      1 + replicationSyncHeaderSize + r.key.length + r.value.length < 2 ^ 32)
    ⟨fun h => ⟨h.1, h.2⟩, fun h => ⟨h.key_le, h.frame_lt⟩⟩

/-- A write that fits has a body that the length field can announce. -/
theorem ReplicationSync.Fits.length_lt {r : ReplicationSync} (h : r.Fits) :
    (encodeMessage (.replicationSync r)).length < 2 ^ 32 := by
  have hframe := h.frame_lt
  unfold replicationSyncHeaderSize at hframe
  change (_ :: r.encode).length < _
  simp [ReplicationSync.encode]
  omega

/-- **A write that fits is received as it was sent,** and the stream stays
aligned. -/
theorem readFrame_encodeFrame_replicationSync {r : ReplicationSync} (h : r.Fits) (rest : Bytes) :
    readFrame 0 (encodeFrame (.replicationSync r) ++ rest) = (.ok (.replicationSync r), rest) := by
  have hframe := h.frame_lt
  have hfits : Message.Fits (.replicationSync r) := ⟨h.key_le, by omega⟩
  exact readFrame_encodeFrame hfits trivial h.length_lt rest

/-! ### A stream of frames -/

/-- The messages of `protocol/kv`. -/
def Message.isCommand : Message → Bool
  | getRequest _ | setRequest _ | deleteRequest _ => true
  | getResponse _ | setResponse _ | deleteResponse _ => true
  | _ => false

/-- Only the decoders of `protocol/kv` compute in small types. -/
theorem Message.endsFit_of_not_isCommand {m : Message} (h : ¬ m.isCommand) : m.EndsFit := by
  cases m <;> first | exact trivial | exact absurd rfl h

/-- What may stand on a stream: the frame of a message that is not a client command
and fits its fields, or a length and a body of that length that `DecodeMessage`
rejects. -/
inductive Item
  | message (msg : Message) (notCommand : ¬ msg.isCommand) (fits : msg.Fits)
      (length_lt : (encodeMessage msg).length < 2 ^ 32)
  | rejected (body : Bytes) (length_lt : body.length < 2 ^ 32) (cause : Error)
      (rejects : decodeMessage body = .error cause)

namespace Item

/-- What stands on the stream for an item. -/
def bytes : Item → Bytes
  | message msg _ _ _ => encodeFrame msg
  | rejected body _ _ _ => be frameHeaderSize body.length ++ body

/-- What `ReadFrame` is to return for it. -/
def received : Item → Outcome Error Message
  | message msg _ _ _ => .ok msg
  | rejected _ _ cause _ => .error (.malformedMessage cause)

/-- One call takes one item off the stream. -/
theorem readFrame_bytes (i : Item) (rest : Bytes) :
    readFrame 0 (i.bytes ++ rest) = (i.received, rest) := by
  cases i with
  | message msg notCommand fits length_lt =>
    exact readFrame_encodeFrame fits (Message.endsFit_of_not_isCommand notCommand) length_lt rest
  | rejected body length_lt cause rejects =>
    rw [bytes, readFrame_append length_lt, rejects]
    rfl

end Item

/-- What successive calls of `ReadFrame(r, 0)` return, `n` of them. -/
def readFrames : ℕ → Bytes → List (Outcome Error Message)
  | 0, _ => []
  | n + 1, stream => (readFrame 0 stream).1 :: readFrames n (readFrame 0 stream).2

/-- **Frames survive the stream,** and a malformed one does not desynchronise it:
the calls return the items in order, and then `io.EOF`. -/
theorem readFrames_flatMap (items : List Item) :
    readFrames (items.length + 1) (items.flatMap Item.bytes) =
      items.map Item.received ++ [.error (.io .eof)] := by
  induction items with
  | nil => rfl
  | cons i items ih =>
    rw [List.length_cons, List.flatMap_cons, readFrames, i.readFrame_bytes, ih]
    rfl

/-- A heartbeat, two bodies that no decoder accepts, a heartbeat that is cut short and an opcode
that nobody has, and a write. -/
def mixedItems : List Item :=
  [.message (.heartbeat ⟨3, [1]⟩) Bool.false_ne_true (by decide : 1 ≤ 65535) (by decide),
    .rejected [opHeartbeat, 0] (by decide) (.decode opHeartbeat .payloadTooShort) rfl,
    .rejected [0xEE, 7] (by decide) (.unknownOpCode 0xEE) rfl,
    .message (.replicationSync ⟨1, 1, [7], [8], 50⟩) Bool.false_ne_true
      (by decide : 1 ≤ 65535 ∧ 1 < 2 ^ 32) (by decide)]

/-- The two messages come through, each rejected body is reported with its cause, and then the
stream is at its end. -/
theorem readFrames_flatMap_mixedItems :
    readFrames 5 (mixedItems.flatMap Item.bytes) =
      [.ok (.heartbeat ⟨3, [1]⟩),
        .error (.malformedMessage (.decode opHeartbeat .payloadTooShort)),
        .error (.malformedMessage (.unknownOpCode 0xEE)),
        .ok (.replicationSync ⟨1, 1, [7], [8], 50⟩), .error (.io .eof)] :=
  readFrames_flatMap mixedItems

/-! ### A stream that grows -/

/-- What `n` calls of `ReadFrame` return, and what they leave of the stream. -/
def takeFrames (maxLen : ℕ) : ℕ → Bytes → List (Outcome Error Message) × Bytes
  | 0, stream => ([], stream)
  | n + 1, stream =>
    let (o, rest) := readFrame maxLen stream
    let (os, rest) := takeFrames maxLen n rest
    (o :: os, rest)

/-- A call that did not run into the end of the stream, so that what it returned does not depend
on what is still to arrive. -/
def Complete (o : Outcome Error Message) : Prop := ∀ e, o ≠ .error (.io e)

variable {maxLen : ℕ} {stream rest : Bytes} {o : Outcome Error Message}

/-- **Bytes that arrive later change nothing** about a frame that is there; they are left for the
next call. -/
theorem readFrame_append_right (h : readFrame maxLen stream = (o, rest)) (ho : Complete o)
    (more : Bytes) : readFrame maxLen (stream ++ more) = (o, rest ++ more) := by
  unfold readFrame at h ⊢
  cases hheader : readFull frameHeaderSize stream with
  | error e =>
    rw [hheader] at h
    exact absurd (Prod.mk.inj h).1.symm (ho e)
  | ok p =>
    obtain ⟨header, body⟩ := p
    obtain ⟨rfl, hlen⟩ := readFull_eq_ok hheader
    rw [hheader] at h
    rw [List.append_assoc, readFull_append hlen]
    dsimp only at h ⊢
    split_ifs at h ⊢ with hlarge
    · obtain ⟨rfl, rfl⟩ := Prod.mk.inj h
      rfl
    · cases hbody : readFull (ofBE header) body with
      | error e =>
        rw [hbody] at h
        exact absurd (Prod.mk.inj h).1.symm (ho e)
      | ok p =>
        obtain ⟨bytes, after⟩ := p
        obtain ⟨rfl, hlen'⟩ := readFull_eq_ok hbody
        rw [hbody] at h
        rw [List.append_assoc, readFull_append hlen']
        obtain ⟨rfl, rfl⟩ := Prod.mk.inj h
        rfl

/-- The same for any number of frames: what arrives later is left for later calls. -/
theorem takeFrames_append_right {n : ℕ} {os : List (Outcome Error Message)}
    (h : takeFrames maxLen n stream = (os, rest)) (hos : ∀ o ∈ os, Complete o) (more : Bytes) :
    takeFrames maxLen n (stream ++ more) = (os, rest ++ more) := by
  induction n generalizing stream os with
  | zero =>
    obtain ⟨rfl, rfl⟩ := Prod.mk.inj h
    rfl
  | succ n ih =>
    cases hread : readFrame maxLen stream with
    | mk o rest₁ =>
      cases htake : takeFrames maxLen n rest₁ with
      | mk os₁ rest₂ =>
        rw [takeFrames, hread] at h
        dsimp only at h
        rw [htake] at h
        obtain ⟨rfl, rfl⟩ := Prod.mk.inj h
        rw [takeFrames, readFrame_append_right hread (hos o List.mem_cons_self) more]
        dsimp only
        rw [ih htake fun o ho => hos o (List.mem_cons_of_mem _ ho)]

/-- One more call of `ReadFrame`, on what those before it have left.  By induction on their
number, as the definition takes the first call off. -/
theorem takeFrames_succ {n : ℕ} {os : List (Outcome Error Message)} {rest' : Bytes}
    (h : takeFrames maxLen n stream = (os, rest)) (hnext : readFrame maxLen rest = (o, rest')) :
    takeFrames maxLen (n + 1) stream = (os ++ [o], rest') := by
  induction n generalizing stream os with
  | zero =>
    obtain ⟨rfl, rfl⟩ := Prod.mk.inj h
    rw [takeFrames, hnext]
    rfl
  | succ n ih =>
    cases hread : readFrame maxLen stream with
    | mk o₁ rest₁ =>
      cases htake : takeFrames maxLen n rest₁ with
      | mk os₁ rest₂ =>
        rw [takeFrames, hread] at h ⊢
        dsimp only at h ⊢
        rw [htake] at h
        obtain ⟨rfl, rfl⟩ := Prod.mk.inj h
        rw [ih htake]
        rfl

end Protocol
end Keva
