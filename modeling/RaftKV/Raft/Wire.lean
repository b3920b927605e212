import Mathlib.Tactic

namespace RaftKV.Raft

abbrev Bytes := List UInt8

/-- Node identifiers, 1-based: `0` means "no node". -/
abbrev ID := UInt64

def noVote : ID := 0

inductive EntryType
  | unspecified
  | normal
  | noop
  | config
  deriving DecidableEq, Repr

/-- The longest command that replay of the log file reads back, 64 MiB. Nothing keeps
longer ones out of the log. -/
def maxCommandLen : Nat := 64 * 2 ^ 20

/-- The opaque bytes of one log entry: a slice, which carries its length. -/
structure Command where
  bytes : Bytes
  length : Nat
  length_eq : length = bytes.length
  deriving DecidableEq

def Command.of (bytes : Bytes) : Command := ⟨bytes, bytes.length, rfl⟩

theorem Command.eq_of_bytes {a b : Command} (h : a.bytes = b.bytes) : a = b := by
  obtain ⟨bytes, length, rfl⟩ := a
  obtain ⟨bytes', length', rfl⟩ := b
  cases h
  rfl

/-- The commands of no byte and of one byte. -/
def noBytes : Command := .of []

def oneByte (b : UInt8) : Command := .of [b]

structure Entry where
  term : Nat
  index : Nat
  type : EntryType
  command : Command
  deriving DecidableEq

structure RequestVoteRequest where
  term : Nat
  candidateId : ID
  lastLogIndex : Nat
  lastLogTerm : Nat
  preVote : Bool
  deriving DecidableEq

structure RequestVoteResponse where
  term : Nat
  voteGranted : Bool
  deriving DecidableEq

structure AppendEntriesRequest where
  term : Nat
  leaderId : ID
  prevLogIndex : Nat
  prevLogTerm : Nat
  entries : List Entry
  leaderCommit : Nat
  seq : Nat
  deriving DecidableEq

structure AppendEntriesResponse where
  term : Nat
  success : Bool
  seq : Nat
  conflictTerm : Nat
  conflictIndex : Nat
  deriving DecidableEq

structure InstallSnapshotRequest where
  term : Nat
  leaderId : ID
  lastIncludedIndex : Nat
  lastIncludedTerm : Nat
  data : Bytes
  config : Bytes
  deriving DecidableEq

structure InstallSnapshotResponse where
  term : Nat
  deriving DecidableEq

structure TimeoutNowRequest where
  term : Nat
  leaderId : ID
  deriving DecidableEq

inductive Message
  | requestVote (req : RequestVoteRequest)
  | appendEntries (req : AppendEntriesRequest)
  | installSnapshot (req : InstallSnapshotRequest)
  | timeoutNow (req : TimeoutNowRequest)
  deriving DecidableEq

structure Outbound where
  dest : ID
  msg : Message
  deriving DecidableEq

inductive RaftError
  | zeroID
  | peersContainSelf (id : ID)
  | logStart (index base : Nat)
  | logJump (last index : Nat)
  | nonContiguous (index prev : Nat)
  | truncateCommitted (first commit : Nat)
  | notLeader (leaderID : ID)
  | changeInFlight (index commit : Nat)
  | alreadyMember (id : ID)
  | notMember (id : ID)
  | transferTarget (target : ID)
  | leaderNotReady
  | cannotCompact (index delivered : Nat)
  | membersTruncated
  | membersEntry (i : Nat)
  | membersAddress (i : Nat)
  | changeTruncated (length : Nat)
  | changeAddress
  | changeOp (op : UInt8)
  | stateSize (length : Nat)
  | stateChecksum
  | stateMagic
  | snapshotShort (length : Nat)
  | snapshotChecksum
  | snapshotMagic
  | snapshotConfig
  deriving DecidableEq

def RaftError.message : RaftError → String
  | .zeroID => "raft: node ID must be nonzero"
  | .peersContainSelf id => s!"raft: PeerIDs must not contain the node's own ID {id}"
  | .logStart index base =>
      s!"raft: log starts at index {index}, want {base + 1} (snapshot covers through {base})"
  | .logJump last index => s!"raft: log index jumps from {last} to {index}"
  | .nonContiguous index prev => s!"raft: non-contiguous append: {index} after {prev}"
  | .truncateCommitted first commit =>
      s!"raft: leader tried to truncate committed entry {first} (commit {commit})"
  | .notLeader leaderID => s!"not the leader (leader hint: node {leaderID})"
  | .changeInFlight index commit =>
      s!"raft: a membership change is already in flight (index {index}, commit {commit})"
  | .alreadyMember id => s!"raft: node {id} is already a member"
  | .notMember id => s!"raft: node {id} is not a member"
  | .transferTarget target => s!"raft: transfer target {target} is not a member"
  | .leaderNotReady => "raft: leader has not committed an entry in its term yet"
  | .cannotCompact index delivered =>
      s!"raft: cannot compact through {index}: only applied through {delivered}"
  | .membersTruncated => "raft: members table truncated"
  | .membersEntry i => s!"raft: members table truncated at entry {i}"
  | .membersAddress i => s!"raft: members table truncated in address {i}"
  | .changeTruncated length => s!"raft: config change truncated: {length} bytes"
  | .changeAddress => "raft: config change address length mismatch"
  | .changeOp op => s!"raft: unknown config change op {op}"
  | .stateSize length => s!"raft: state file is {length} bytes, want 28"
  | .stateChecksum => "raft: state file checksum mismatch — disk corruption"
  | .stateMagic => "raft: state file has bad magic"
  | .snapshotShort length => s!"raft: snapshot file too short ({length} bytes)"
  | .snapshotChecksum => "raft: snapshot checksum mismatch — disk corruption"
  | .snapshotMagic => "raft: snapshot has bad magic"
  | .snapshotConfig => "raft: snapshot config truncated"

end RaftKV.Raft
