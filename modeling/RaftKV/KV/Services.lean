import RaftKV.KV.Sessions
import RaftKV.Store.Durable

/-!
The two services behind the client API: one process over a durable store, and a router
over the raft groups that replicate the state machine.
-/

namespace RaftKV.KV.Services

open Files.Programs
open Raft (Bytes ID)
open Raft.EventLoop
open RaftKV.Store
open Store.Segments (Dir)
open Store.Durable
open KV.Sessions

structure PutRequest where
  key : Bytes
  value : Bytes
  clientID : UInt64
  serial : UInt64

structure GetRequest where
  key : Bytes

structure DeleteRequest where
  key : Bytes
  clientID : UInt64
  serial : UInt64

inductive Request
  | put (req : PutRequest)
  | get (req : GetRequest)
  | delete (req : DeleteRequest)

inductive Response
  | put
  | get (value : Bytes) (found : Bool)
  | delete (existed : Bool)
  deriving DecidableEq

inductive Code
  | invalidArgument
  | failedPrecondition
  | internal
  | unavailable
  deriving DecidableEq

structure Status where
  code : Code
  message : String
  deriving DecidableEq

abbrev Answer := Except Status Response

namespace Request

def key : Request → Bytes
  | .put req => req.key
  | .get req => req.key
  | .delete req => req.key

def value : Request → Bytes
  | .put req => req.value
  | .get _ => []
  | .delete _ => []

def clientID : Request → UInt64
  | .put req => req.clientID
  | .get _ => 0
  | .delete req => req.clientID

end Request

def errEmptyKey : Status where
  code := .invalidArgument
  message := "key must not be empty"

namespace KVServer

def maxKeyBytes : Nat := 4 * 1024
def maxValueBytes : Nat := 1 * 1024 * 1024

def validateKey (key : Bytes) : Except Status Unit :=
  if key = [] then .error errEmptyKey
  else if maxKeyBytes < key.length then
    .error ⟨.invalidArgument, s!"key is {key.length} bytes, limit is {maxKeyBytes}"⟩
  else .ok ()

def put (s : DurableStore) (order : Order) (req : PutRequest) :
    Prog Dir (DurableStore × Answer) :=
  match validateKey req.key with
  | .error err => .ret (s, .error err)
  | .ok () =>
      if maxValueBytes < req.value.length then
        .ret (s, .error
          ⟨.invalidArgument, s!"value is {req.value.length} bytes, limit is {maxValueBytes}"⟩)
      else
        s.put req.key req.value order >>= fun
          | (s, .error err) => .ret (s, .error ⟨.internal, "storage: " ++ err.message⟩)
          | (s, .ok ()) => .ret (s, .ok .put)

def get (s : DurableStore) (req : GetRequest) : Answer :=
  match validateKey req.key with
  | .error err => .error err
  | .ok () => .ok (.get ((s.get req.key).getD []) (s.get req.key).isSome)

def delete (s : DurableStore) (order : Order) (req : DeleteRequest) :
    Prog Dir (DurableStore × Answer) :=
  match validateKey req.key with
  | .error err => .ret (s, .error err)
  | .ok () => s.delete req.key order >>= fun
      | (s, .error err) => .ret (s, .error ⟨.internal, "storage: " ++ err.message⟩)
      | (s, .ok existed) => .ret (s, .ok (.delete existed))

def serve (s : DurableStore) (order : Order) (r : Request) : Prog Dir (DurableStore × Answer) :=
  match r with
  | .put req => put s order req
  | .get req => .ret (s, get s req)
  | .delete req => delete s order req

/-- Requests one after the other. With each comes the order in which a snapshot would
walk the map. -/
def serveAll : DurableStore → List (Request × Order) → Prog Dir (List Answer)
  | _, [] => .ret []
  | s, (r, order) :: rest => serve s order r >>= fun
      | (s, a) => serveAll s rest >>= fun answers => .ret (a :: answers)

end KVServer

def envelope (clientID serial : UInt64) (cmd : Commands.Command) : RaftKV.Raft.Command :=
  .of (encodeCommand ⟨clientID, serial, Commands.encodeCommand [] cmd⟩)

namespace KVService

section Handlers

variable (G : Gob) (shard : Nat) (n : Node Machine)

/-- The address of the leader a rejection names, byte by byte. -/
def leaderAddr (leaderID : ID) : String :=
  if leaderID ≠ 0 then
    String.ofList ((n.core.members.getD leaderID []).map fun b => Char.ofNat b.toNat)
  else ""

def toStatus : NodeError → Status
  | .rejected (.notLeader leaderID) =>
      ⟨.failedPrecondition,
        s!"not leader; shard={shard} leader_id={leaderID} leader_addr=" ++ leaderAddr n leaderID⟩
  | err => ⟨.unavailable, s!"raft: {err.message}"⟩

/-- What a step of the loop answers on a channel, if it does. -/
def answerOn (done : Chan) (effects : List Effect) : Option (Except NodeError Unit) :=
  effects.findSome? fun
    | .answered c result => if c = done then some result else none
    | .readAnswered c result => if c = done then some (result.map fun _ => ()) else none
    | _ => none

/-- Hand a message to the loop and wait: `none` as long as there is no answer. -/
def await (msg : Msg) (done : Chan) (resp : Node Machine → Response) :
    Node Machine × Option Answer :=
  let n := (step (stateMachine G) n msg).1
  (n, (answerOn done n.effects).map fun
    | .error err => .error (toStatus shard n err)
    | .ok () => .ok (resp n))

def put (req : PutRequest) (done : Chan) : Node Machine × Option Answer :=
  if req.key = [] then
    (n, some (.error errEmptyKey))
  else
    let cmd : Commands.Command := ⟨.put, req.key, req.value⟩
    await G shard n (.propose (envelope req.clientID req.serial cmd) done) done fun _ => .put

/-- Whether the key existed is read before the deletion is proposed. -/
def delete (req : DeleteRequest) (done : Chan) : Node Machine × Option Answer :=
  if req.key = [] then
    (n, some (.error errEmptyKey))
  else
    let existed := (n.sm.get req.key).isSome
    let cmd : Commands.Command := ⟨.delete, req.key, []⟩
    await G shard n (.propose (envelope req.clientID req.serial cmd) done) done fun _ =>
      .delete existed

def get (req : GetRequest) (done : Chan) : Node Machine × Option Answer :=
  if req.key = [] then
    (n, some (.error errEmptyKey))
  else
    await G shard n (.read done) done fun n =>
      .get ((n.sm.get req.key).getD []) (n.sm.get req.key).isSome

end Handlers

end KVService

def offset64 : UInt64 := 14695981039346656037
def prime64 : UInt64 := 1099511628211

/-- The FNV-1a hash. -/
def sum64 (key : Bytes) : UInt64 :=
  key.foldl (fun h b => (h ^^^ b.toUInt64) * prime64) offset64

def shardFor (key : Bytes) (shardCount : Nat) [NeZero shardCount] : Fin shardCount :=
  Fin.ofNat shardCount (sum64 key).toNat

/-- The replica of every shard this process hosts. -/
abbrev Shards (count : Nat) := Fin count → Node Machine

namespace ShardedKV

section Router

variable (G : Gob) {count : Nat} [NeZero count] (nodes : Shards count)

def delegate (key : Bytes)
    (handler : (shard : Nat) → Node Machine → Node Machine × Option Answer) :
    Shards count × Option Answer :=
  if key = [] then
    (nodes, some (.error errEmptyKey))
  else
    let g := shardFor key count
    let (n, answer) := handler g (nodes g)
    (Function.update nodes g n, answer)

def put (req : PutRequest) (done : Chan) : Shards count × Option Answer :=
  delegate nodes req.key fun shard n => KVService.put G shard n req done

def get (req : GetRequest) (done : Chan) : Shards count × Option Answer :=
  delegate nodes req.key fun shard n => KVService.get G shard n req done

def delete (req : DeleteRequest) (done : Chan) : Shards count × Option Answer :=
  delegate nodes req.key fun shard n => KVService.delete G shard n req done

def serve (r : Request) (done : Chan) : Shards count × Option Answer :=
  match r with
  | .put req => put G nodes req done
  | .get req => get G nodes req done
  | .delete req => delete G nodes req done

/-- What happens to the process: its clock ticks for a shard, or a request comes in on a
channel of its own. -/
inductive Event (count : Nat)
  | tick (shard : Fin count)
  | call (r : Request) (done : Chan)

def tick (shard : Fin count) : Shards count :=
  Function.update nodes shard (step (stateMachine G) (nodes shard) .tick).1

/-- The answers to the requests, if each of them is answered before the next event. -/
def serveAll : Shards count → List (Event count) → Option (List Answer)
  | _, [] => some []
  | nodes, .tick shard :: rest => serveAll (tick G nodes shard) rest
  | nodes, .call r done :: rest =>
      match serve G nodes r done with
      | (_, none) => none
      | (nodes, some a) => (serveAll nodes rest).map (a :: ·)

end Router

def requestOf {count : Nat} : Event count → Option Request
  | .tick _ => none
  | .call r _ => some r

end ShardedKV

end RaftKV.KV.Services
