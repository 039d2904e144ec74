/-
# Messages on the wire

`protocol/message.go`, `protocol/errors.go`, `protocol/opcodes_table.go` and the
message types of `protocol/kv`, `protocol/client` and `protocol/cluster`: for each
type its fields, `Encode` and `Decode`, and over them the registry, `EncodeMessage`
and `DecodeMessage`.

| message | opcode | payload |
| --- | --- | --- |
| `GetRequest`, `DeleteRequest` | `01`, `03` | key length 2, key |
| `SetRequest` | `02` | key length 2, value length 4, TTL 8, key, value |
| `GetResponse` | `04` | found 1, value length 4, value |
| `SetResponse`, `DeleteResponse` | `05`, `06` | success 1, message length 2, message |
| `TopologyRequest` | `10` | |
| `TopologyResponse` | `11` | leader length 2, leader, node count 2, nodes |
| `ReplicationSync` | `20` | log index 8, op 1, key length 2, value length 4, expiry 8, key, value |
| `ReplicationAck` | `21` | last applied index 8 |
| `ReplicationJoin` | `22` | address length 2, address |
| `Heartbeat` | `30` | term 8, leader length 2, leader |
| `HeartbeatAck` | `31` | term 8, last applied index 8 |
| `VoteRequest` | `40` | term 8, candidate length 2, candidate, last log index 8 |
| `VoteResponse` | `41` | term 8, granted 1 |
| `ErrorMessage` | `FE` | code 2, message length 2, message |

Numbers are big-endian, and a length is written as it fits.  Every `Decode` checks
the length of its input in `int`; the decoders of `protocol/kv` then compute the
bounds of their slices in the type of the length they read, `uint16` or `uint32`,
and the others in `int`.  No `Encode` fails.
-/

import Keva.Lib.Outcome

namespace Keva
namespace Protocol

open Bytes

/-- The errors of `Decode`, `DecodeMessage` and `ReadFrame`, with what they wrap.  `decode` and
`malformedMessage` are what the two outer functions put around an inner error. -/
inductive Error
  | payloadTooShort
  | unknownOpCode (opcode : UInt8)
  | decode (opcode : UInt8) (cause : Error)
  | frameTooLarge
  | malformedMessage (cause : Error)
  | io (e : ReadError)
  deriving DecidableEq, Repr

/-- `%02X`. -/
def hexByte (b : UInt8) : String :=
  .ofList [(Nat.digitChar (b.toNat / 16)).toUpper, (Nat.digitChar (b.toNat % 16)).toUpper]

/-- The text of an error. -/
def Error.text : Error → String
  | payloadTooShort => "protocol: payload too short"
  | unknownOpCode opcode => "protocol: unknown opcode: 0x" ++ hexByte opcode
  | decode opcode cause =>
    "protocol: decode error for opcode 0x" ++ hexByte opcode ++ ": " ++ cause.text
  | frameTooLarge => "protocol: frame too large"
  | malformedMessage cause => "protocol: malformed message: " ++ cause.text
  | io .eof => "EOF"
  | io .unexpectedEOF => "unexpected EOF"

/-! ### Opcodes -/

/-- Client to node: read a key. -/
def opGet : UInt8 := 0x01
/-- Client to leader: write a key. -/
def opSet : UInt8 := 0x02
/-- Client to leader: delete a key. -/
def opDelete : UInt8 := 0x03
/-- Node to client: the answer to a get. -/
def opGetResponse : UInt8 := 0x04
/-- Leader to client: the answer to a set. -/
def opSetResponse : UInt8 := 0x05
/-- Leader to client: the answer to a delete. -/
def opDeleteResponse : UInt8 := 0x06
/-- Client to any node: who is the leader, and who else is there. -/
def opTopologyRequest : UInt8 := 0x10
/-- Node to client: the whole layout of the cluster. -/
def opTopologyResponse : UInt8 := 0x11
/-- Leader to follower: one write. -/
def opReplicationSync : UInt8 := 0x20
/-- Follower to leader: what has been applied. -/
def opReplicationAck : UInt8 := 0x21
/-- Follower to leader: registers the sender as a replication peer. -/
def opReplicationJoin : UInt8 := 0x22
/-- Leader to follower: the leader is alive, and this is its term. -/
def opHeartbeat : UInt8 := 0x30
/-- Follower to leader: the heartbeat has come in. -/
def opHeartbeatAck : UInt8 := 0x31
/-- Candidate to peer: asks for a vote. -/
def opVoteRequest : UInt8 := 0x40
/-- Peer to candidate: whether the vote was given. -/
def opVoteResponse : UInt8 := 0x41
/-- Anyone to anyone: a structured error. -/
def opError : UInt8 := 0xFE

/-! ### `protocol/kv` -/

/-- A boolean as a byte. -/
def flag (b : Bool) : Bytes := [if b then 1 else 0]

/-- A string behind its 16-bit length. -/
def encodeString (s : Bytes) : Bytes := be 2 s.length ++ s

/-- `Decode` of a request that is one key.  The end of the key is computed in
`uint16`. -/
def decodeKey (data : Bytes) : Outcome Error Bytes :=
  if data.length < 2 then .error .payloadTooShort
  else do
    let keyLen := UInt16.ofNat (← readBE 2 data 0 2)
    if data.length < 2 + keyLen.toNat then .error .payloadTooShort
    else do
      let key ← slice data 2 (2 + keyLen).toNat
      return makeCopy keyLen.toNat key

/-- `kv.GetRequest`: the key to be read. -/
structure GetRequest where
  key : Bytes
  deriving DecidableEq, Repr

/-- Key length and key, with nothing around them. -/
def GetRequest.encode (g : GetRequest) : Bytes := encodeString g.key

/-- The decoder is the one that all requests of a single key share, so its `uint16` arithmetic is
theirs too. -/
def GetRequest.decode (data : Bytes) : Outcome Error GetRequest := do
  return ⟨← decodeKey data⟩

/-- `kv.DeleteRequest`: the key to be deleted. -/
structure DeleteRequest where
  key : Bytes
  deriving DecidableEq, Repr

/-- The layout is that of a get. -/
def DeleteRequest.encode (d : DeleteRequest) : Bytes := encodeString d.key

/-- The decoder is that of a get, down to the arithmetic in `uint16`. -/
def DeleteRequest.decode (data : Bytes) : Outcome Error DeleteRequest := do
  return ⟨← decodeKey data⟩

/-- Key length, value length and TTL. -/
def setHeaderSize : ℕ := 2 + 4 + 8

/-- `kv.SetRequest`: key, value and a TTL in nanoseconds, where zero stands for the server's
default. -/
structure SetRequest where
  key : Bytes
  value : Bytes
  ttl : UInt64
  deriving DecidableEq, Repr

/-- A header of fixed size with the two lengths and the TTL, then the key and then the value. -/
def SetRequest.encode (s : SetRequest) : Bytes :=
  be 2 s.key.length ++ be 4 s.value.length ++ be 8 s.ttl.toNat ++ s.key ++ s.value

/-- The end of the key is computed in `uint16`, the end of the value in `int`. -/
def SetRequest.decode (data : Bytes) : Outcome Error SetRequest :=
  if data.length < setHeaderSize then .error .payloadTooShort
  else do
    let keyLen := UInt16.ofNat (← readBE 2 data 0 2)
    let valLen := UInt32.ofNat (← readBE 4 data 2 6)
    let ttl := UInt64.ofNat (← readBE 8 data 6 14)
    if data.length < setHeaderSize + keyLen.toNat + valLen.toNat then .error .payloadTooShort
    else do
      let key ← slice data 14 (14 + keyLen).toNat
      let value ← slice data (14 + keyLen).toNat (14 + keyLen.toNat + valLen.toNat)
      return ⟨makeCopy keyLen.toNat key, makeCopy valLen.toNat value, ttl⟩

/-- `kv.GetResponse`: whether the key was found, and its value.  A key that is not there is
answered with an empty value. -/
structure GetResponse where
  found : Bool
  value : Bytes
  deriving DecidableEq, Repr

/-- One byte for `found`, then the value behind its 32-bit length. -/
def GetResponse.encode (g : GetResponse) : Bytes := flag g.found ++ be 4 g.value.length ++ g.value

/-- The end of the value is computed in `uint32`. -/
def GetResponse.decode (data : Bytes) : Outcome Error GetResponse :=
  if data.length < 5 then .error .payloadTooShort
  else do
    let found ← index data 0
    let valLen := UInt32.ofNat (← readBE 4 data 1 5)
    if data.length < 5 + valLen.toNat then .error .payloadTooShort
    else do
      let value ← slice data 5 (5 + valLen).toNat
      return ⟨found = 1, makeCopy valLen.toNat value⟩

/-- `Decode` of a status and a message.  The end of the message is computed in
`uint16`. -/
def decodeStatus (data : Bytes) : Outcome Error (Bool × Bytes) :=
  if data.length < 3 then .error .payloadTooShort
  else do
    let success ← index data 0
    let msgLen := UInt16.ofNat (← readBE 2 data 1 3)
    if data.length < 3 + msgLen.toNat then .error .payloadTooShort
    else do
      let message ← slice data 3 (3 + msgLen).toNat
      return (success = 1, message)

/-- `kv.SetResponse`: whether the write was accepted, and if not, the text of the error. -/
structure SetResponse where
  success : Bool
  message : Bytes
  deriving DecidableEq, Repr

/-- One byte for `success`, then the message behind its 16-bit length. -/
def SetResponse.encode (r : SetResponse) : Bytes := flag r.success ++ encodeString r.message

/-- The decoder is the one that both status responses share. -/
def SetResponse.decode (data : Bytes) : Outcome Error SetResponse := do
  let (success, message) ← decodeStatus data
  return ⟨success, message⟩

/-- `kv.DeleteResponse`: whether the key was deleted, and if not, the text of the error. -/
structure DeleteResponse where
  success : Bool
  message : Bytes
  deriving DecidableEq, Repr

/-- The layout is that of the answer to a set. -/
def DeleteResponse.encode (r : DeleteResponse) : Bytes := flag r.success ++ encodeString r.message

/-- The decoder is that of the answer to a set. -/
def DeleteResponse.decode (data : Bytes) : Outcome Error DeleteResponse := do
  let (success, message) ← decodeStatus data
  return ⟨success, message⟩

/-! ### `protocol/client` -/

/-- `client.TopologyRequest`, which has no fields. -/
structure TopologyRequest where
  deriving DecidableEq, Repr

/-- Nothing follows the opcode. -/
def TopologyRequest.encode (_ : TopologyRequest) : Bytes := []

/-- Whatever follows the opcode is accepted and dropped. -/
def TopologyRequest.decode (_ : Bytes) : Outcome Error TopologyRequest := .ok ⟨⟩

/-- One node of the topology: its address, its role as a byte, and the name it goes by. -/
structure NodeInfo where
  address : Bytes
  role : UInt8
  nodeID : Bytes
  deriving DecidableEq, Repr

/-- `client.TopologyResponse`: the nodes of the cluster as the node that answers knows them. -/
structure TopologyResponse where
  leaderAddr : Bytes
  nodes : List NodeInfo
  deriving DecidableEq, Repr

/-- The number of nodes in 16 bits, and then one node after the other. -/
def TopologyResponse.encode (t : TopologyResponse) : Bytes :=
  encodeString t.leaderAddr ++ be 2 t.nodes.length ++
    t.nodes.flatMap fun n => encodeString n.address ++ [n.role] ++ encodeString n.nodeID

/-- A string behind its 16-bit length at `offset`, and the offset after it. -/
def stringAt (data : Bytes) (offset : ℕ) : Outcome Error (Bytes × ℕ) :=
  if data.length < offset + 2 then .error .payloadTooShort
  else do
    let len ← readBE 2 data offset (offset + 2)
    if data.length < offset + 2 + len then .error .payloadTooShort
    else do
      let s ← slice data (offset + 2) (offset + 2 + len)
      return (s, offset + 2 + len)

/-- The loop of `TopologyResponse.Decode`, for the nodes still to come. -/
def decodeNodes (data : Bytes) : ℕ → ℕ → Outcome Error (List NodeInfo)
  | 0, _ => .ok []
  | n + 1, offset => do
    let (address, offset) ← stringAt data offset
    if data.length < offset + 1 then .error .payloadTooShort
    else do
      let role ← index data offset
      let (nodeID, offset) ← stringAt data (offset + 1)
      let nodes ← decodeNodes data n offset
      return ⟨address, role, nodeID⟩ :: nodes

/-- Reads the 16-bit number of nodes and then that many of them.  What follows the last one is not
looked at. -/
def TopologyResponse.decode (data : Bytes) : Outcome Error TopologyResponse :=
  if data.length < 4 then .error .payloadTooShort
  else do
    let leaderLen ← readBE 2 data 0 2
    if data.length < 2 + leaderLen then .error .payloadTooShort
    else do
      let leaderAddr ← slice data 2 (2 + leaderLen)
      if data.length < 2 + leaderLen + 2 then .error .payloadTooShort
      else do
        let nodeCount ← readBE 2 data (2 + leaderLen) (2 + leaderLen + 2)
        let nodes ← decodeNodes data nodeCount (2 + leaderLen + 2)
        return ⟨leaderAddr, nodes⟩

/-! ### `protocol/cluster` -/

/-- The string behind a header of `n` bytes, its 16-bit length being the last two
of them. -/
def decodeString (n : ℕ) (data : Bytes) : Outcome Error Bytes := do
  let len ← readBE 2 data (n - 2) n
  if data.length < n + len then .error .payloadTooShort
  else slice data n (n + len)

/-- Log index, op, key length, value length and expiry. -/
def replicationSyncHeaderSize : ℕ := 8 + 1 + 2 + 4 + 8

/-- `cluster.ReplicationSync`: one write, with its index, `expiresAt` in Unix nanoseconds and
zero for a delete. -/
structure ReplicationSync where
  logIndex : UInt64
  op : UInt8
  key : Bytes
  value : Bytes
  expiresAt : UInt64
  deriving DecidableEq, Repr

/-- A header of fixed size with index, operation, the two lengths and the expiry, then the key and
then the value. -/
def ReplicationSync.encode (r : ReplicationSync) : Bytes :=
  be 8 r.logIndex.toNat ++ [r.op] ++ be 2 r.key.length ++ be 4 r.value.length ++
    be 8 r.expiresAt.toNat ++ r.key ++ r.value

/-- Unlike the decoders of `protocol/kv` this one computes the ends of its fields in `int`, which
cannot wrap. -/
def ReplicationSync.decode (data : Bytes) : Outcome Error ReplicationSync :=
  if data.length < replicationSyncHeaderSize then .error .payloadTooShort
  else do
    let logIndex := UInt64.ofNat (← readBE 8 data 0 8)
    let op ← index data 8
    let keyLen ← readBE 2 data 9 11
    let valLen ← readBE 4 data 11 15
    let expiresAt := UInt64.ofNat (← readBE 8 data 15 23)
    if data.length < replicationSyncHeaderSize + keyLen + valLen then .error .payloadTooShort
    else do
      let key ← slice data 23 (23 + keyLen)
      let value ← slice data (23 + keyLen) (23 + keyLen + valLen)
      return ⟨logIndex, op, makeCopy keyLen key, makeCopy valLen value, expiresAt⟩

/-- `cluster.ReplicationAck`: the index of the write that has just been applied. -/
structure ReplicationAck where
  lastAppliedIndex : UInt64
  deriving DecidableEq, Repr

/-- The index in 64 bits. -/
def ReplicationAck.encode (r : ReplicationAck) : Bytes := be 8 r.lastAppliedIndex.toNat

/-- Reads the index from the first eight bytes and ignores what follows. -/
def ReplicationAck.decode (data : Bytes) : Outcome Error ReplicationAck :=
  if data.length < 8 then .error .payloadTooShort
  else do
    let lastAppliedIndex := UInt64.ofNat (← readBE 8 data 0 8)
    return ⟨lastAppliedIndex⟩

/-- `cluster.ReplicationJoin`: the address under which the sender is to be registered. -/
structure ReplicationJoin where
  nodeAddr : Bytes
  deriving DecidableEq, Repr

/-- The address behind its 16-bit length. -/
def ReplicationJoin.encode (r : ReplicationJoin) : Bytes := encodeString r.nodeAddr

/-- Reads the address; its end is computed in `int`. -/
def ReplicationJoin.decode (data : Bytes) : Outcome Error ReplicationJoin :=
  if data.length < 2 then .error .payloadTooShort
  else do
    let nodeAddr ← decodeString 2 data
    return ⟨nodeAddr⟩

/-- `cluster.Heartbeat`: the term of the leader that sends it, and its address. -/
structure Heartbeat where
  term : UInt64
  leaderID : Bytes
  deriving DecidableEq, Repr

/-- The term in 64 bits, then the address behind its 16-bit length. -/
def Heartbeat.encode (h : Heartbeat) : Bytes := be 8 h.term.toNat ++ encodeString h.leaderID

/-- Reads a header of ten bytes and the address behind it; its end is computed in `int`. -/
def Heartbeat.decode (data : Bytes) : Outcome Error Heartbeat :=
  if data.length < 10 then .error .payloadTooShort
  else do
    let term := UInt64.ofNat (← readBE 8 data 0 8)
    let leaderID ← decodeString 10 data
    return ⟨term, leaderID⟩

/-- `cluster.HeartbeatAck`: the term of the node that answers, and how far its log has come. -/
structure HeartbeatAck where
  term : UInt64
  lastAppliedIndex : UInt64
  deriving DecidableEq, Repr

/-- Two numbers of 64 bits. -/
def HeartbeatAck.encode (h : HeartbeatAck) : Bytes :=
  be 8 h.term.toNat ++ be 8 h.lastAppliedIndex.toNat

/-- Reads the two numbers from the first sixteen bytes and ignores what follows. -/
def HeartbeatAck.decode (data : Bytes) : Outcome Error HeartbeatAck :=
  if data.length < 16 then .error .payloadTooShort
  else do
    let term := UInt64.ofNat (← readBE 8 data 0 8)
    let lastAppliedIndex := UInt64.ofNat (← readBE 8 data 8 16)
    return ⟨term, lastAppliedIndex⟩

/-- `cluster.VoteRequest`: the term in which the candidate stands, its address, and the index of
its last write. -/
structure VoteRequest where
  term : UInt64
  candidateID : Bytes
  lastLogIndex : UInt64
  deriving DecidableEq, Repr

/-- The one layout with a fixed field behind a variable one: the index comes after the address. -/
def VoteRequest.encode (v : VoteRequest) : Bytes :=
  be 8 v.term.toNat ++ encodeString v.candidateID ++ be 8 v.lastLogIndex.toNat

/-- The index behind the name is checked together with the name. -/
def VoteRequest.decode (data : Bytes) : Outcome Error VoteRequest :=
  if data.length < 10 then .error .payloadTooShort
  else do
    let term := UInt64.ofNat (← readBE 8 data 0 8)
    let idLen ← readBE 2 data 8 10
    if data.length < 10 + idLen + 8 then .error .payloadTooShort
    else do
      let candidateID ← slice data 10 (10 + idLen)
      let lastLogIndex := UInt64.ofNat (← readBE 8 data (10 + idLen) (18 + idLen))
      return ⟨term, candidateID, lastLogIndex⟩

/-- `cluster.VoteResponse`: the term of the node that answers, and whether it gave its vote. -/
structure VoteResponse where
  term : UInt64
  granted : Bool
  deriving DecidableEq, Repr

/-- The term in 64 bits, then one byte for `granted`. -/
def VoteResponse.encode (v : VoteResponse) : Bytes := be 8 v.term.toNat ++ flag v.granted

/-- Reads the first nine bytes.  Any byte but 1 is a vote that was not given. -/
def VoteResponse.decode (data : Bytes) : Outcome Error VoteResponse :=
  if data.length < 9 then .error .payloadTooShort
  else do
    let term := UInt64.ofNat (← readBE 8 data 0 8)
    let granted ← index data 8
    return ⟨term, granted = 1⟩

/-! ### `protocol/errors.go` -/

/-- The code of a write that was sent to a node which is not the leader. -/
def errCodeNotLeader : UInt16 := 1
/-- The code of a request that the server cannot make sense of. -/
def errCodeBadRequest : UInt16 := 4

/-- `protocol.ErrorMessage`: a code and a text. -/
structure ErrorMessage where
  code : UInt16
  message : Bytes
  deriving DecidableEq, Repr

/-- The code in 16 bits, then the text behind its 16-bit length. -/
def ErrorMessage.encode (e : ErrorMessage) : Bytes := be 2 e.code.toNat ++ encodeString e.message

/-- Reads a header of four bytes and the text behind it; its end is computed in `int`. -/
def ErrorMessage.decode (data : Bytes) : Outcome Error ErrorMessage :=
  if data.length < 4 then .error .payloadTooShort
  else do
    let code := UInt16.ofNat (← readBE 2 data 0 2)
    let message ← decodeString 4 data
    return ⟨code, message⟩

/-! ### The registry and the codec -/

/-- A message of any type: `protocol.Message` is an interface, and these are the types that have
an opcode. -/
inductive Message
  | getRequest (m : GetRequest)
  | setRequest (m : SetRequest)
  | deleteRequest (m : DeleteRequest)
  | getResponse (m : GetResponse)
  | setResponse (m : SetResponse)
  | deleteResponse (m : DeleteResponse)
  | topologyRequest (m : TopologyRequest)
  | topologyResponse (m : TopologyResponse)
  | replicationSync (m : ReplicationSync)
  | replicationAck (m : ReplicationAck)
  | replicationJoin (m : ReplicationJoin)
  | heartbeat (m : Heartbeat)
  | heartbeatAck (m : HeartbeatAck)
  | voteRequest (m : VoteRequest)
  | voteResponse (m : VoteResponse)
  | errorMessage (m : ErrorMessage)
  deriving DecidableEq, Repr

namespace Message

/-- `OpCode()`, the byte that each type of message travels under. -/
def opCode : Message → UInt8
  | getRequest _ => opGet
  | setRequest _ => opSet
  | deleteRequest _ => opDelete
  | getResponse _ => opGetResponse
  | setResponse _ => opSetResponse
  | deleteResponse _ => opDeleteResponse
  | topologyRequest _ => opTopologyRequest
  | topologyResponse _ => opTopologyResponse
  | replicationSync _ => opReplicationSync
  | replicationAck _ => opReplicationAck
  | replicationJoin _ => opReplicationJoin
  | heartbeat _ => opHeartbeat
  | heartbeatAck _ => opHeartbeatAck
  | voteRequest _ => opVoteRequest
  | voteResponse _ => opVoteResponse
  | errorMessage _ => opError

/-- `Encode()`, the payload without opcode and length. -/
def encode : Message → Bytes
  | getRequest m => m.encode
  | setRequest m => m.encode
  | deleteRequest m => m.encode
  | getResponse m => m.encode
  | setResponse m => m.encode
  | deleteResponse m => m.encode
  | topologyRequest m => m.encode
  | topologyResponse m => m.encode
  | replicationSync m => m.encode
  | replicationAck m => m.encode
  | replicationJoin m => m.encode
  | heartbeat m => m.encode
  | heartbeatAck m => m.encode
  | voteRequest m => m.encode
  | voteResponse m => m.encode
  | errorMessage m => m.encode

end Message

/-- For each opcode, how the payload of such a message is decoded. -/
def registry : List (UInt8 × (Bytes → Outcome Error Message)) :=
  [(opGet, fun data => do return .getRequest (← GetRequest.decode data)),
   (opSet, fun data => do return .setRequest (← SetRequest.decode data)),
   (opDelete, fun data => do return .deleteRequest (← DeleteRequest.decode data)),
   (opGetResponse, fun data => do return .getResponse (← GetResponse.decode data)),
   (opSetResponse, fun data => do return .setResponse (← SetResponse.decode data)),
   (opDeleteResponse, fun data => do return .deleteResponse (← DeleteResponse.decode data)),
   (opTopologyRequest, fun data => do return .topologyRequest (← TopologyRequest.decode data)),
   (opTopologyResponse, fun data => do return .topologyResponse (← TopologyResponse.decode data)),
   (opReplicationSync, fun data => do return .replicationSync (← ReplicationSync.decode data)),
   (opReplicationAck, fun data => do return .replicationAck (← ReplicationAck.decode data)),
   (opReplicationJoin, fun data => do return .replicationJoin (← ReplicationJoin.decode data)),
   (opHeartbeat, fun data => do return .heartbeat (← Heartbeat.decode data)),
   (opHeartbeatAck, fun data => do return .heartbeatAck (← HeartbeatAck.decode data)),
   (opVoteRequest, fun data => do return .voteRequest (← VoteRequest.decode data)),
   (opVoteResponse, fun data => do return .voteResponse (← VoteResponse.decode data)),
   (opError, fun data => do return .errorMessage (← ErrorMessage.decode data))]

/-- `Lookup`: the decoder that has been registered for an opcode. -/
def lookup (opcode : UInt8) : Option (Bytes → Outcome Error Message) :=
  (registry.find? fun entry => entry.1 = opcode).map Prod.snd

/-- `EncodeMessage`: the opcode, and then the payload. -/
def encodeMessage (msg : Message) : Bytes := msg.opCode :: msg.encode

/-- `DecodeMessage`: the first byte picks the decoder, and an error of the decoder is wrapped
together with the opcode it is about.  There is no byte to pick by in an empty message, which is
therefore too short. -/
def decodeMessage (data : Bytes) : Outcome Error Message :=
  match data with
  | [] => .error .payloadTooShort
  | opcode :: payload =>
    match lookup opcode with
    | none => .error (.unknownOpCode opcode)
    | some decode => (decode payload).mapError (.decode opcode)

end Protocol
end Keva
