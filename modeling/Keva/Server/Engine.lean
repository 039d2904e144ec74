/-
# Commands

`engine/handler.go`, `engine/registry_init.go` and the handlers in `engine/get.go`,
`engine/set.go` and `engine/delete.go`, over `Node` as the store (`cluster/node.go`): a handler
makes one call on the store and answers with what the call returns.  `GetTopology` is the one
command that goes past the engine (`dispatchClient` in `server/tcp.go`).

`dispatch` finds a handler for `GetRequest`, `SetRequest` and `DeleteRequest`, answers every other
message with an error, and hands no handler a message of another type (`dispatch_spec`).
-/

import Keva.Cluster.Deadline
import Keva.Cluster.Raft
import Keva.Store.Linear

namespace Keva
namespace Server

open Bytes
open Cluster (RaftState text errorText setCall setReply)
open Protocol
open Store (Request Answer Call Err)

/-- The code of a request that failed within the server. -/
def errCodeInternal : UInt16 := 3

/-! ### Handlers -/

/-- A handler on its message: the call it makes on the store, and its response to what the call
returns. -/
inductive Handling
  | get (key : Key) (respond : Except Err Bytes → Message)
  | write (call : Call) (respond : Option Err → Message)

namespace Handling

/-- The call of a handler, as the store sees it. -/
def request : Handling → Request
  | get key _ => .get key
  | write call _ => .write call

/-- A call returns what calls of its kind return. -/
def response : Handling → Answer → Option Message
  | get _ respond, .read r => some (respond r)
  | write _ respond, .wrote err => some (respond err)
  | _, _ => none

end Handling

/-- `handleGet`: a key that is not found, or has expired, is an answer and no error. -/
def handleGet (req : GetRequest) : Handling :=
  .get req.key fun
    | .error .keyNotFound => .getResponse ⟨false, []⟩
    | .error e => .errorMessage ⟨errCodeInternal, errorText e⟩
    | .ok val => .getResponse ⟨true, val⟩

/-- `handleSet`, over the call that `Node.Set` makes on the store. -/
def handleSet (defaultTTL : ℤ) (now : Time) (req : SetRequest) : Handling :=
  .write (setCall defaultTTL now req.key req.value (int64 req.ttl.toNat)) fun err =>
    .setResponse (setReply err)

/-- **`handleSet` on a node and the handler are one:** whenever the request has been carried out
on a node, whether it leads or not, the store has taken the call of the handler, and the node
answers what the handler responds to the error of that call. -/
theorem handleSet_of_node {ranges : ℕ → Eviction.Range} {db db' : Store.KVStore} {defaultTTL : ℤ}
    {leader : Option UInt64} {req : SetRequest} {now : Time} {resp : SetResponse}
    {sync : Option ReplicationSync}
    (h : Cluster.handleSet ranges db defaultTTL leader req now = some (db', resp, sync)) :
    ∃ call err, (handleSet defaultTTL now req).request = .write call ∧
      call.exec ranges db now = some (db', err) ∧
      (handleSet defaultTTL now req).response (.wrote err) = some (.setResponse resp) := by
  obtain ⟨⟨db₁, err, sync₁⟩, hnode, h⟩ := Option.bind_eq_some_iff.1 h
  obtain ⟨rfl, hrest⟩ := Prod.mk.inj (Option.some.inj h)
  obtain ⟨rfl, rfl⟩ := Prod.mk.inj hrest
  obtain ⟨⟨db₂, err₂⟩, hset, hnode⟩ := Option.bind_eq_some_iff.1 hnode
  cases err₂ with
  | some e =>
    obtain ⟨rfl, hrest⟩ := Prod.mk.inj (Option.some.inj hnode)
    obtain ⟨rfl, rfl⟩ := Prod.mk.inj hrest
    exact ⟨_, some e, rfl, hset, rfl⟩
  | none =>
    obtain ⟨rfl, hrest⟩ := Prod.mk.inj (Option.some.inj hnode)
    obtain ⟨rfl, rfl⟩ := Prod.mk.inj hrest
    exact ⟨_, none, rfl, hset, rfl⟩

/-- `handleDelete`: the error of the store, if any, goes into the message. -/
def handleDelete (req : DeleteRequest) : Handling :=
  .write (.delete req.key) fun
    | some .keyNotFound => .deleteResponse ⟨false, text "key not found"⟩
    | some e => .deleteResponse ⟨false, errorText e⟩
    | none => .deleteResponse ⟨true, text "OK"⟩

/-- What `init` registers.  A handler asserts the type of its message, and panics if it is
another one. -/
def handlers (defaultTTL : ℤ) (now : Time) : List (UInt8 × (Message → Outcome String Handling)) :=
  [(opGet, fun
      | .getRequest req => .ok (handleGet req)
      | _ => .panic),
   (opSet, fun
      | .setRequest req => .ok (handleSet defaultTTL now req)
      | _ => .panic),
   (opDelete, fun
      | .deleteRequest req => .ok (handleDelete req)
      | _ => .panic)]

/-- `Dispatch`, at a time `now` for handlers that ask for it. -/
def dispatch (defaultTTL : ℤ) (now : Time) (msg : Message) : Outcome String Handling :=
  match (handlers defaultTTL now).find? fun h => h.1 = msg.opCode with
  | none => .error ("engine: no handler for opcode 0x" ++ hexByte msg.opCode)
  | some (_, h) => h msg

/-- **What `Dispatch` comes to,** by the type of the message: three types have a handler, and for
any other the error names the opcode. -/
theorem dispatch_spec (defaultTTL : ℤ) (now : Time) (msg : Message) :
    dispatch defaultTTL now msg =
      match msg with
      | .getRequest req => .ok (handleGet req)
      | .setRequest req => .ok (handleSet defaultTTL now req)
      | .deleteRequest req => .ok (handleDelete req)
      | msg => .error ("engine: no handler for opcode 0x" ++ hexByte msg.opCode) := by
  cases msg <;> rfl

/-- The assertion on the type of the message in each handler holds, since handlers are picked by
opcode. -/
theorem dispatch_ne_panic (defaultTTL : ℤ) (now : Time) (msg : Message) :
    dispatch defaultTTL now msg ≠ .panic := by
  rw [dispatch_spec]
  cases msg <;> nofun

/-! ### Topology -/

/-- The role byte of every other node. -/
def topologyRoleFollower : UInt8 := 0
/-- The role byte of the node that is taken for the leader. -/
def topologyRoleLeader : UInt8 := 1

/-- `GetTopology`: the peers as the node knows them, one of them marked as the leader if the node
knows of one. -/
def getTopology (r : RaftState) : TopologyResponse :=
  let leaderAddr := r.leaderAddr
  let nodes := r.peers.map fun addr =>
    ⟨addr, if addr = leaderAddr then topologyRoleLeader else topologyRoleFollower, addr⟩
  ⟨leaderAddr, nodes⟩

end Server
end Keva
