import RaftKV.Raft.Cluster

/-!
The event loop around a core. It feeds the core one message at a time and then hands
out what the call has produced: to the state machine, to waiting callers, to the peers.
-/

namespace RaftKV.Raft.EventLoop

open Distributed.Network
open Raft.Cluster

/-- What consumes the committed commands. A process starts with a `fresh` one; taking
and restoring a snapshot may fail. -/
structure StateMachine (σ : Type) where
  fresh : σ
  apply : σ → Nat → Bytes → σ
  snapshot : σ → Option Bytes
  restore : σ → Bytes → Option σ

abbrev Chan := Nat

/-- A proposal waits under its index for the term it was appended in. -/
structure Waiter where
  term : Nat
  done : Chan
  deriving DecidableEq

/-- A confirmed read waits for the apply cursor. -/
structure AppliedWaiter where
  index : Nat
  respc : Chan
  deriving DecidableEq

inductive NodeError
  | proposalLost
  | rejected (err : RaftError)
  deriving DecidableEq

def NodeError.message : NodeError → String
  | .proposalLost => "raft: leadership changed, proposal lost"
  | .rejected err => err.message

/-- What a step does to its surroundings: it restores or feeds the state machine and
answers callers. -/
inductive Effect
  | restored (index : Nat)
  | applied (e : Entry)
  | answered (done : Chan) (result : Except NodeError Unit)
  | readAnswered (respc : Chan) (result : Except NodeError Nat)
  deriving DecidableEq

/-- A running node. `effects` are those of its last step, in order; after `stopped` the
loop takes no more messages. -/
structure Node (σ : Type) where
  core : Core
  sm : σ
  compactAt : Nat
  waiters : Nat → Option Waiter
  applied : Nat
  readWaiters : Nat → Option Chan
  appliedWaiters : List AppliedWaiter
  stopped : Bool
  effects : List Effect

inductive Msg
  | tick
  | deliver (p : Packet)
  | propose (command : Command) (done : Chan)
  | confChange (cc : ConfChange) (done : Chan)
  | transfer (target : ID) (respc : Chan)
  | read (respc : Chan)
  deriving DecidableEq

/-- What the core gets to see of a message. -/
def Msg.input : Msg → Input
  | .tick => .client .tick
  | .deliver p => .deliver p
  | .propose command _ => .client (.propose command .normal)
  | .confChange cc _ => .client (.confChange cc)
  | .transfer target _ => .client (.transfer target)
  | .read _ => .client .read

def Msg.isLocal : Msg → Bool
  | .deliver _ => false
  | _ => true

variable {σ : Type}

def emit (n : Node σ) (effect : Effect) : Node σ :=
  { n with effects := n.effects ++ [effect] }

/-- A proposal the core has taken waits under its index; a rejection is an answer. -/
def enlist (n : Node σ) (done : Chan) : Core × Except RaftError (Nat × Nat) → Node σ
  | (c, .ok (index, term)) =>
      { n with core := c, waiters := Function.update n.waiters index (some ⟨term, done⟩) }
  | (c, .error err) => emit { n with core := c } (.answered done (.error (.rejected err)))

/-- One call of the core and the response to a request. An error halts the node. -/
def dispatch (n : Node σ) : Msg → Node σ × Option (List Packet)
  | .tick => ({ n with core := tick n.core }, some [])
  | .deliver p =>
      match handle n.core (eventOf p) with
      | (c, .error _) => ({ n with core := c }, none)
      | (c, .ok resp) => ({ n with core := c }, some (reply p resp))
  | .propose command done => (enlist n done (propose n.core command .normal), some [])
  | .confChange cc done => (enlist n done (proposeConfChange n.core cc), some [])
  | .transfer target respc =>
      match transferLeadership n.core target with
      | (c, result) =>
          (emit { n with core := c } (.answered respc (result.mapError .rejected)), some [])
  | .read respc =>
      match requestRead n.core with
      | (c, .error err) =>
          (emit { n with core := c } (.readAnswered respc (.error (.rejected err))), some [])
      | (c, .ok id) =>
          ({ n with core := c, readWaiters := Function.update n.readWaiters id (some respc) },
            some [])

def fireAppliedWaiters (n : Node σ) : Node σ :=
  { n with
    appliedWaiters := n.appliedWaiters.filter fun w => n.applied < w.index
    effects := n.effects ++ (n.appliedWaiters.filter fun w => w.index ≤ n.applied).map
      fun w => .readAnswered w.respc (.ok w.index) }

/-- Answer the proposal that waits for the index of `e`. -/
def answerWaiter (n : Node σ) (e : Entry) : Node σ :=
  match n.waiters e.index with
  | none => n
  | some w =>
      emit { n with waiters := Function.update n.waiters e.index none }
        (.answered w.done (if w.term = e.term then .ok () else .error .proposalLost))

/-- The state machine after one entry: only the normal ones concern it. -/
def feedEntry (S : StateMachine σ) (sm : σ) (e : Entry) : σ :=
  if e.type = .normal then S.apply sm e.index e.command.bytes else sm

def applyEntry (S : StateMachine σ) (n : Node σ) (e : Entry) : Node σ :=
  answerWaiter
    (fireAppliedWaiters
      (emit { n with sm := feedEntry S n.sm e, applied := e.index } (.applied e))) e

def resolveRead (n : Node σ) (r : ReadOutcome) : Node σ :=
  match n.readWaiters r.id with
  | none => n
  | some respc =>
      let n := { n with readWaiters := Function.update n.readWaiters r.id none }
      if r.confirmed = false then
        emit n (.readAnswered respc (.error .proposalLost))
      else if r.index ≤ n.applied then
        emit n (.readAnswered respc (.ok r.index))
      else
        { n with appliedWaiters := n.appliedWaiters ++ [⟨r.index, respc⟩] }

def maybeCompact (S : StateMachine σ) (n : Node σ) : Node σ :=
  if n.applied < n.core.snapIndex + n.compactAt then n
  else
    match S.snapshot n.sm with
    | none => n
    | some data => { n with core := (compact n.core n.applied data).1 }

/-- Reset the state machine to a snapshot the core has installed, if there is one. -/
def restoreFrom (S : StateMachine σ) (n : Node σ) : Option Bytes → Option (Node σ)
  | none => some n
  | some data =>
      (S.restore n.sm data).map fun sm =>
        fireAppliedWaiters
          (emit { n with sm := sm, applied := n.core.snapIndex } (.restored n.core.snapIndex))

/-- What the call left in its queues, in order: a snapshot first, then newer entries,
then the reads that may have waited for them. -/
def drain (S : StateMachine σ) (n : Node σ) (c : Core) : Option (Node σ) :=
  (restoreFrom S n c.pendingRestore).map fun n =>
    c.readOutcomes.foldl resolveRead (c.committed.foldl (applyEntry S) n)

/-- A failed restore stops the node at once; the loop of the source may still take queued
messages before it sees that it was stopped. -/
def afterStep (S : StateMachine σ) (n : Node σ) : Node σ × List Packet :=
  let c := n.core
  let n := { n with core := takeQueues c }
  match drain S n c with
  | none => ({ n with stopped := true }, [])
  | some n => (maybeCompact S n, outgoing c)

def step (S : StateMachine σ) (n : Node σ) (m : Msg) : Node σ × List Packet :=
  let n := { n with effects := [] }
  if n.stopped then
    (n, [])
  else
    match dispatch n m with
    | (n, none) => ({ n with stopped := true }, [])
    | (n, some replies) =>
        let (n, sent) := afterStep S n
        (n, replies ++ sent)

def nodeOf (c : Core) (sm : σ) (threshold : Nat) : Node σ where
  core := takeQueues c
  sm := sm
  compactAt := if threshold = 0 then 4096 else threshold
  waiters := fun _ => none
  applied := c.snapIndex
  readWaiters := fun _ => none
  appliedWaiters := []
  stopped := false
  effects := []

def newNode (S : StateMachine σ) (cfg : Config) (threshold : Nat) (rng : Nat → Nat) (d : Disk) :
    Option (Node σ) :=
  match newCore cfg rng d with
  | .error _ => none
  | .ok c =>
      match c.pendingRestore with
      | none => some (nodeOf c S.fresh threshold)
      | some data => (S.restore S.fresh data).map fun sm => nodeOf c sm threshold

/-- A cluster of nodes, with the compaction threshold each of them is configured with. -/
def nodeSystem (D : Deployment) (S : StateMachine σ) (threshold : ID → Nat) :
    System ID (Node σ) Disk Msg Packet (Nat → Nat) where
  blank := blank
  boot := fun i rng d => newNode S (D.cfg i) (threshold i) rng d
  disk := fun n => n.core.disk
  handle := fun n m => ((step S n m).1, some (step S n m).2)
  dest := Packet.dest
  input := Msg.deliver
  isLocal := Msg.isLocal

abbrev NodeCall (σ : Type) := Call ID (Node σ) Msg Packet
abbrev NodeState (σ : Type) := State ID (Node σ) Disk Msg Packet

def node? (s : NodeState σ) (i : ID) : Option (Node σ) :=
  match s.node i with
  | .up n => some n
  | .down _ => none

theorem node_of_node? {s : NodeState σ} {i : ID} {n : Node σ} (h : n ∈ node? s i) :
    s.node i = .up n := by
  unfold node? at h
  split at h
  · rename_i hup
    rw [hup, Option.mem_some.mp h]
  · cases h

end RaftKV.Raft.EventLoop
