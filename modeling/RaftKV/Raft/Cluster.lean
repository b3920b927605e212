import RaftKV.Distributed.Network
import RaftKV.Raft.Snapshotting

/-!
A cluster of raft cores: every call is one handler, every request and response
ever sent may still arrive, and a node that stops comes back through `newCore`.
-/

namespace RaftKV.Raft.Cluster

open Distributed.Network

/-- What crosses the network. A response travels with the request it answers. -/
inductive Payload
  | request (msg : Message)
  | voteResp (req : RequestVoteRequest) (resp : RequestVoteResponse)
  | appendResp (req : AppendEntriesRequest) (resp : AppendEntriesResponse)
  | snapshotResp (req : InstallSnapshotRequest) (resp : InstallSnapshotResponse)
  deriving DecidableEq

structure Packet where
  src : ID
  dest : ID
  payload : Payload
  deriving DecidableEq

def eventOf (p : Packet) : Event :=
  match p.payload with
  | .request (.requestVote req) => .requestVote req
  | .request (.appendEntries req) => .appendEntries req
  | .request (.installSnapshot req) => .installSnapshot req
  | .request (.timeoutNow req) => .timeoutNow req
  | .voteResp req resp => .voteResp p.src req.term req.preVote resp
  | .appendResp req resp => .appendResp p.src req resp
  | .snapshotResp req resp => .snapshotResp p.src req resp

def reply (p : Packet) (resp : Response) : List Packet :=
  match p.payload, resp with
  | .request (.requestVote req), .vote resp => [⟨p.dest, p.src, .voteResp req resp⟩]
  | .request (.appendEntries req), .append resp => [⟨p.dest, p.src, .appendResp req resp⟩]
  | .request (.installSnapshot req), .snapshot resp => [⟨p.dest, p.src, .snapshotResp req resp⟩]
  | _, _ => []

def outgoing (c : Core) : List Packet :=
  c.outbox.map fun o => ⟨c.cfg.id, o.dest, .request o.msg⟩

inductive Input
  | deliver (p : Packet)
  | client (ev : Event)
  | compact (index : Nat) (data : Bytes)

/-- The events that do not come from the network. Clients propose normal entries. -/
def isClient : Event → Bool
  | .propose _ typ => typ = .normal
  | .tick | .confChange _ | .transfer _ | .read => true
  | _ => false

def isLocal : Input → Bool
  | .deliver _ => false
  | .client ev => isClient ev
  | .compact _ _ => true

/-- One event, and what it sends. -/
def react (c : Core) (ev : Event) (replies : Response → List Packet) :
    Core × Option (List Packet) :=
  match handle (takeQueues c) ev with
  | (c, .error _) => (c, none)
  | (c, .ok resp) => (c, some (replies resp ++ outgoing c))

theorem react_fst (c : Core) (ev : Event) (replies : Response → List Packet) :
    (react c ev replies).1 = (handle (takeQueues c) ev).1 := by
  unfold react
  split <;> rename_i heq <;> rw [heq]

theorem mem_react {c : Core} {ev : Event} {replies : Response → List Packet} {p : Packet}
    (h : p ∈ (react c ev replies).2.getD []) :
    ∃ resp, (handle (takeQueues c) ev).2 = .ok resp ∧
      (p ∈ replies resp ∨ p ∈ outgoing (handle (takeQueues c) ev).1) := by
  unfold react at h
  split at h
  · exact absurd h List.not_mem_nil
  · rename_i c' resp heq
    rw [heq]
    exact ⟨resp, rfl, List.mem_append.mp h⟩

def respond (c : Core) : Input → Core × Option (List Packet)
  | .deliver p => react c (eventOf p) (reply p)
  | .client ev => react c ev fun _ => []
  | .compact index data => ((compact (takeQueues c) index data).1, some [])

/-- A deployment: the membership the cluster is founded with, and the configuration of
every node with the table its startup flags name. -/
structure Deployment where
  members : Members
  tables : ID → Members
  cfg : ID → Config
  cfg_id : ∀ i, (cfg i).id = i
  cfg_tables : ∀ i, i ≠ 0 → initialMembers (cfg i) = .ok (tables i)

/-- Every node boots with the table of the founders, which the 32-bit length fields of
the snapshot format can hold. -/
structure Deployment.Uniform (D : Deployment) : Prop where
  tables : ∀ i, D.tables i = D.members
  encodable : Encodable D.members

/-- A deployment whose nodes all tick alike: an election timeout of one tick and a
heartbeat on every tick. -/
def evenly (members : Members) (disablePreVote : Bool) : Deployment where
  members := members
  tables := fun _ => members
  cfg := fun i =>
    { id := i
      peerIDs := []
      members := some members
      electionTicksMin := 1
      electionTicksMax := 2
      heartbeatTicks := 1
      disablePreVote := disablePreVote }
  cfg_id := fun _ => rfl
  cfg_tables := fun _ _ => rfl

theorem uniform_evenly {members : Members} (h : Encodable members) (disablePreVote : Bool) :
    (evenly members disablePreVote).Uniform :=
  ⟨fun _ => rfl, h⟩

/-- Three nodes without the pre-vote round. -/
def trio : Deployment :=
  evenly (((∅ : Members).insert 1 []).insert 2 [] |>.insert 3 []) true

theorem uniform_trio : trio.Uniform :=
  uniform_evenly ⟨by decide, by decide⟩ true

def coreSystem (D : Deployment) : System ID Core Disk Input Packet (Nat → Nat) where
  blank := blank
  boot := fun i rng d => (newCore (D.cfg i) rng d).toOption
  disk := Core.disk
  handle := respond
  dest := Packet.dest
  input := Input.deliver
  isLocal := isLocal

abbrev CoreCall := Call ID Core Input Packet
abbrev CoreState := State ID Core Disk Input Packet

def core? (s : CoreState) (i : ID) : Option Core :=
  match s.node i with
  | .up c => some c
  | .down _ => none

theorem node_of_core? {s : CoreState} {i : ID} {c : Core} (h : c ∈ core? s i) :
    s.node i = .up c := by
  unfold core? at h
  split at h
  · rename_i hup
    rw [hup, Option.mem_some.mp h]
  · cases h

/-- Whether an input asks for a configuration entry. -/
def changesMembership : Input → Bool
  | .client (.confChange _) => true
  | _ => false

def Unchanging (s : CoreState) : Prop :=
  ∀ k ∈ s.trace, changesMembership k.input = false
  deriving Decidable

/-- The runs with one fixed membership. -/
structure FixedMembership (D : Deployment) (s : CoreState) : Prop where
  uniform : D.Uniform
  unchanging : Unchanging s

/-- Whether replay of the log file reads back what an input appends to it. -/
def readable : Input → Bool
  | .client (.propose command _) => command.length ≤ maxCommandLen
  | .client (.confChange cc) => (encodeConfChange cc).length ≤ maxCommandLen
  | _ => true

/-- The runs in which no command and no membership change is longer than 64 MiB. -/
def Bounded (s : CoreState) : Prop :=
  ∀ k ∈ s.trace, readable k.input = true
  deriving Decidable

/-- The runs whose logs survive every restart. -/
structure Regular (D : Deployment) (s : CoreState) : Prop where
  fixed : FixedMembership D s
  bounded : Bounded s

section Parts

variable {D : Deployment} {s s₀ : CoreState}

theorem FixedMembership.part (h : FixedMembership D s) (hsub : s₀.trace ⊆ s.trace) :
    FixedMembership D s₀ :=
  ⟨h.uniform, fun k hk => h.unchanging k (hsub hk)⟩

theorem Regular.part (h : Regular D s) (hsub : s₀.trace ⊆ s.trace) : Regular D s₀ :=
  ⟨h.fixed.part hsub, fun k hk => h.bounded k (hsub hk)⟩

end Parts

end RaftKV.Raft.Cluster
