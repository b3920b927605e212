import RaftKV.Raft.Election

namespace RaftKV.Raft

def entriesAfter (c : Core) (index : Nat) : List Entry :=
  match c.entries with
  | [] => []
  | first :: _ => c.entries.drop (index - first.index + 1)

def snapshotAt (c : Core) (appliedIndex : Nat) (smData : Bytes) : Snapshot where
  lastIndex := appliedIndex
  lastTerm := termAt c appliedIndex
  config := configAt c appliedIndex
  data := smData

/-- The snapshot replaces the log through its index; `keep` is what stays. -/
def rebase (c : Core) (snap : Snapshot) (keep : List Entry) : Core :=
  { c with
    disk := rewrite (persistRaftSnapshot c.disk snap) keep
    entries := keep
    snapIndex := snap.lastIndex
    snapTerm := snap.lastTerm
    snapConfig := snap.config }

def compact (c : Core) (appliedIndex : Nat) (smData : Bytes) : Core × Except RaftError Unit :=
  if appliedIndex ≤ c.snapIndex then
    (c, .ok ())
  else if c.lastDelivered < appliedIndex then
    (c, .error (.cannotCompact appliedIndex c.lastDelivered))
  else
    (rebase c (snapshotAt c appliedIndex smData) (entriesAfter c appliedIndex), .ok ())

/-- A log that continues a received snapshot coherently keeps its suffix. -/
def coherentSuffix (c : Core) (snap : Snapshot) : List Entry :=
  if snap.lastIndex ≤ lastLogIndex c ∧ termAt c snap.lastIndex = snap.lastTerm then
    entriesAfter c snap.lastIndex
  else []

/-- Reset the log to a received snapshot. -/
def install (c : Core) (snap : Snapshot) : Core :=
  recalcConfig
    { rebase c snap (coherentSuffix c snap) with
      commitIndex := max c.commitIndex snap.lastIndex
      lastDelivered := max c.lastDelivered snap.lastIndex
      pendingRestore := copyBytes snap.data }

def handleInstallSnapshot (c : Core) (req : InstallSnapshotRequest) :
    Core × Except RaftError InstallSnapshotResponse :=
  let c := adoptTerm c req.term
  let resp : InstallSnapshotResponse := { term := c.term }
  if req.term < c.term then
    (c, .ok resp)
  else
    let c := recognizeLeader c req.leaderId
    if req.lastIncludedIndex ≤ c.snapIndex ∨ req.lastIncludedIndex ≤ c.commitIndex then
      (c, .ok resp)
    else
      match decodeMembers req.config with
      | .error e => (c, .error e)
      | .ok config =>
          (install c
            { lastIndex := req.lastIncludedIndex
              lastTerm := req.lastIncludedTerm
              config := config
              data := req.data },
            .ok resp)

/-- A peer has the state through a snapshot's index. -/
def noteSnapshot (c : Core) (sender : ID) (index : Nat) : Core :=
  if matchIndexOf c sender < index then noteMatch c sender index else c

def handleInstallSnapshotResponse (c : Core) (sender : ID) (req : InstallSnapshotRequest)
    (resp : InstallSnapshotResponse) : Core :=
  if c.term < resp.term then
    stepDown c resp.term
  else if c.role ≠ .leader ∨ req.term ≠ c.term then
    c
  else
    feed (noteSnapshot c sender req.lastIncludedIndex) sender

/-- What the event loop feeds the core. -/
inductive Event
  | tick
  | requestVote (req : RequestVoteRequest)
  | appendEntries (req : AppendEntriesRequest)
  | installSnapshot (req : InstallSnapshotRequest)
  | timeoutNow (req : TimeoutNowRequest)
  | voteResp (sender : ID) (campaignTerm : Nat) (preVote : Bool) (resp : RequestVoteResponse)
  | appendResp (sender : ID) (req : AppendEntriesRequest) (resp : AppendEntriesResponse)
  | snapshotResp (sender : ID) (req : InstallSnapshotRequest) (resp : InstallSnapshotResponse)
  | propose (command : Command) (typ : EntryType)
  | confChange (cc : ConfChange)
  | transfer (target : ID)
  | read

inductive Response
  | vote (resp : RequestVoteResponse)
  | append (resp : AppendEntriesResponse)
  | snapshot (resp : InstallSnapshotResponse)
  | none

/-- One call of the core. An error halts the node; the rejections of proposals,
transfers and reads are answers to their callers. -/
def handle (c : Core) : Event → Core × Except RaftError Response
  | .tick => (tick c, .ok .none)
  | .requestVote req =>
      let (c, resp) := handleRequestVote c req
      (c, .ok (.vote resp))
  | .appendEntries req =>
      let (c, resp) := handleAppendEntries c req
      (c, resp.map .append)
  | .installSnapshot req =>
      let (c, resp) := handleInstallSnapshot c req
      (c, resp.map .snapshot)
  | .timeoutNow req => (handleTimeoutNow c req, .ok .none)
  | .voteResp sender campaignTerm preVote resp =>
      if preVote then (handlePreVoteResponse c sender campaignTerm resp, .ok .none)
      else (handleVoteResponse c sender campaignTerm resp, .ok .none)
  | .appendResp sender req resp => (handleAppendResponse c sender req resp, .ok .none)
  | .snapshotResp sender req resp => (handleInstallSnapshotResponse c sender req resp, .ok .none)
  | .propose command typ => ((propose c command typ).1, .ok .none)
  | .confChange cc => ((proposeConfChange c cc).1, .ok .none)
  | .transfer target => ((transferLeadership c target).1, .ok .none)
  | .read => ((requestRead c).1, .ok .none)

end RaftKV.Raft
