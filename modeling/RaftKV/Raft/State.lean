import RaftKV.Raft.Storage

/-!
The Raft core as a plain value: its fields, how it is rebuilt from disk, and the
queries and bookkeeping every handler shares.
-/

namespace RaftKV.Raft

inductive Role
  | follower
  | candidate
  | leader
  deriving DecidableEq, Repr

/-- One member of a cluster. Zero timings stand for the defaults. -/
structure Config where
  id : ID
  peerIDs : List ID
  members : Option Members
  electionTicksMin : Nat
  electionTicksMax : Nat
  heartbeatTicks : Nat
  disablePreVote : Bool

def applyDefaults (cfg : Config) : Config :=
  { cfg with
    electionTicksMin := if cfg.electionTicksMin = 0 then 20 else cfg.electionTicksMin
    electionTicksMax := if cfg.electionTicksMax = 0 then 40 else cfg.electionTicksMax
    heartbeatTicks := if cfg.heartbeatTicks = 0 then 2 else cfg.heartbeatTicks }

/-- The membership the startup flags name. -/
def initialMembers (cfg : Config) : Except RaftError Members :=
  match cfg.members with
  | some m => .ok m
  | none =>
      if cfg.id ∈ cfg.peerIDs then
        .error (.peersContainSelf cfg.id)
      else
        .ok (cfg.peerIDs.foldl (fun m p => m.insert p []) ((∅ : Members).insert cfg.id []))

structure PendingRead where
  id : Nat
  index : Nat
  minSeq : Nat
  acks : Finset ID

structure ReadOutcome where
  id : Nat
  index : Nat
  confirmed : Bool
  deriving DecidableEq

/-- The state of one node. Absent keys of the two leader tables read as zero, and
`rng` is the stream of draws still to come. Terms, indices and counters agree with the
64-bit ones of the source as long as they stay below `2 ^ 64`. -/
structure Core where
  cfg : Config
  role : Role
  term : Nat
  votedFor : ID
  leaderID : ID
  entries : List Entry
  disk : Disk
  commitIndex : Nat
  electionElapsed : Nat
  electionTimeout : Nat
  heartbeatElapsed : Nat
  rng : Nat → Nat
  ticksSinceLeader : Nat
  votes : Finset ID
  preVotes : Option (Finset ID)
  outbox : List Outbound
  nextIndex : ID → Option Nat
  matchIndex : ID → Option Nat
  committed : List Entry
  lastDelivered : Nat
  snapIndex : Nat
  snapTerm : Nat
  snapConfig : Members
  pendingRestore : Option Bytes
  members : Members
  lastConfigIndex : Nat
  configVersion : Nat
  transferTarget : ID
  transferTicks : Nat
  appendSeq : Nat
  readCounter : Nat
  pendingReads : List PendingRead
  readOutcomes : List ReadOutcome

def peerIDs (c : Core) : List ID :=
  c.members.keys.filter fun id => id ≠ c.cfg.id

def lastLogIndex (c : Core) : Nat :=
  match c.entries.getLast? with
  | none => c.snapIndex
  | some e => e.index

/-- The term of the entry at an index, `0` when the index is not available. -/
def termAt (c : Core) (index : Nat) : Nat :=
  if index = c.snapIndex then
    c.snapTerm
  else
    match c.entries with
    | [] => 0
    | first :: _ =>
        if index = 0 ∨ index < first.index ∨ lastLogIndex c < index then 0
        else ((c.entries[index - first.index]?).map Entry.term).getD 0

def lastLogTerm (c : Core) : Nat :=
  match c.entries.getLast? with
  | none => c.snapTerm
  | some e => e.term

def majority (c : Core) : Nat :=
  c.members.size / 2 + 1

def isMember (c : Core) : Bool :=
  c.members.contains c.cfg.id

def nextIndexOf (c : Core) (peer : ID) : Nat :=
  (c.nextIndex peer).getD 0

def matchIndexOf (c : Core) (peer : ID) : Nat :=
  (c.matchIndex peer).getD 0

def resetElectionTimer (c : Core) : Core :=
  { c with
    electionElapsed := 0
    electionTimeout := c.cfg.electionTicksMin +
      c.rng 0 % (c.cfg.electionTicksMax - c.cfg.electionTicksMin)
    rng := fun n => c.rng (n + 1) }

def saveState (c : Core) : Core :=
  { c with disk := saveTermAndVote c.disk c.term c.votedFor }

def abortPendingReads (c : Core) : Core :=
  { c with
    readOutcomes := c.readOutcomes ++ c.pendingReads.map fun r => ⟨r.id, 0, false⟩
    pendingReads := [] }

/-- Adopt a higher term and revert to follower. The election timer runs on. -/
def stepDown (c : Core) (term : Nat) : Core :=
  saveState <| abortPendingReads
    { c with
      role := .follower
      term := term
      votedFor := noVote
      leaderID := 0
      votes := ∅
      preVotes := none
      transferTarget := 0 }

/-- How every request handler begins. -/
def adoptTerm (c : Core) (term : Nat) : Core :=
  if c.term < term then stepDown c term else c

/-- A request of the current term proves that its sender leads it: a candidate
concedes, and everyone's patience is renewed. -/
def recognizeLeader (c : Core) (leaderId : ID) : Core :=
  { resetElectionTimer c with
    role := .follower
    votes := if c.role = .follower then c.votes else ∅
    leaderID := leaderId
    ticksSinceLeader := 0 }

def recalcConfig (c : Core) : Core :=
  { c with
    members := membersAfter c.snapConfig c.entries
    lastConfigIndex := c.entries.foldl
      (fun last e => if (changeOf e).isSome then e.index else last) 0
    configVersion := c.configVersion + 1 }

def configAt (c : Core) (index : Nat) : Members :=
  membersAfter c.snapConfig (c.entries.takeWhile fun e => e.index ≤ index)

/-- Where replication continues after a change: a leader starts tracking a new
member at the end of its log and forgets a removed one. -/
def nextAfter (c : Core) (cc : ConfChange) : ID → Option Nat :=
  if cc.op = confChangeAdd then
    if c.role = .leader ∧ c.nextIndex cc.id = none then
      Function.update c.nextIndex cc.id (some (lastLogIndex c + 1))
    else c.nextIndex
  else if cc.op = confChangeRemove then Function.update c.nextIndex cc.id none
  else c.nextIndex

def matchAfter (c : Core) (cc : ConfChange) : ID → Option Nat :=
  if cc.op = confChangeAdd then
    if c.role = .leader ∧ c.nextIndex cc.id = none then
      Function.update c.matchIndex cc.id (some 0)
    else c.matchIndex
  else if cc.op = confChangeRemove then Function.update c.matchIndex cc.id none
  else c.matchIndex

def applyConfChange (c : Core) (cc : ConfChange) (index : Nat) : Core :=
  { c with
    members := cc.apply c.members
    nextIndex := nextAfter c cc
    matchIndex := matchAfter c cc
    lastConfigIndex := index
    configVersion := c.configVersion + 1 }

/-- Configuration entries take effect when they are appended. -/
def noteAppendedConfigs (c : Core) (entries : List Entry) : Core :=
  entries.foldl
    (fun c e =>
      match changeOf e with
      | none => c
      | some cc => applyConfChange c cc e.index) c

/-- A copy made by `append([]byte(nil), data...)`: nothing copied is nil. -/
def copyBytes (data : Bytes) : Option Bytes :=
  if data = [] then none else some data

/-- A core whose files were read: the initial membership `members`, the entries
of the log. Everything in a snapshot counts as committed and delivered. -/
def bootCore (cfg : Config) (rng : Nat → Nat) (d : Disk) (members : Members)
    (entries : List Entry) : Core :=
  resetElectionTimer <| recalcConfig
    { cfg := { cfg with members := some members }
      role := .follower
      term := (loadTermAndVote d).1
      votedFor := (loadTermAndVote d).2
      leaderID := 0
      entries := entries
      disk := d
      commitIndex := (loadRaftSnapshot d).lastIndex
      electionElapsed := 0
      electionTimeout := 0
      heartbeatElapsed := 0
      rng := rng
      ticksSinceLeader := 0
      votes := ∅
      preVotes := none
      outbox := []
      nextIndex := fun _ => none
      matchIndex := fun _ => none
      committed := []
      lastDelivered := (loadRaftSnapshot d).lastIndex
      snapIndex := (loadRaftSnapshot d).lastIndex
      snapTerm := (loadRaftSnapshot d).lastTerm
      snapConfig := (d.snapshot.map Snapshot.config).getD members
      pendingRestore := copyBytes (loadRaftSnapshot d).data
      members := ∅
      lastConfigIndex := 0
      configVersion := 0
      transferTarget := 0
      transferTicks := 0
      appendSeq := 0
      readCounter := 0
      pendingReads := []
      readOutcomes := [] }

def newCore (cfg : Config) (rng : Nat → Nat) (d : Disk) : Except RaftError Core := do
  let cfg := applyDefaults cfg
  if cfg.id = 0 then
    throw .zeroID
  let members ← initialMembers cfg
  let (d, entries) ← openLog d (loadRaftSnapshot d).lastIndex
  return bootCore cfg rng d members entries

/-- The queues a call fills, taken before the next one. -/
def takeQueues (c : Core) : Core :=
  { c with outbox := [], committed := [], pendingRestore := none, readOutcomes := [] }

end RaftKV.Raft
