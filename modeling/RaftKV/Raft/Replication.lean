import RaftKV.Raft.State

namespace RaftKV.Raft

def maxAppendBytes : Nat := 2 ^ 20

def send (c : Core) (dest : ID) (msg : Message) : Core :=
  { c with outbox := c.outbox ++ [⟨dest, msg⟩] }

/-- The entries of one request: at least one, then until the payload is full. -/
def batch : (payload : Nat) → List Entry → List Entry
  | _, [] => []
  | payload, e :: rest =>
      if maxAppendBytes ≤ payload + e.command.length then [e]
      else e :: batch (payload + e.command.length) rest

def snapshotRequest (c : Core) : InstallSnapshotRequest :=
  let snap := loadRaftSnapshot c.disk
  { term := c.term
    leaderId := c.cfg.id
    lastIncludedIndex := snap.lastIndex
    lastIncludedTerm := snap.lastTerm
    data := snap.data
    config := encodeMembers snap.config }

def appendRequest (c : Core) (next : Nat) : AppendEntriesRequest where
  term := c.term
  leaderId := c.cfg.id
  prevLogIndex := next - 1
  prevLogTerm := termAt c (next - 1)
  entries :=
    match c.entries with
    | [] => []
    | first :: _ =>
        if next ≤ lastLogIndex c then batch 0 (c.entries.drop (next - first.index)) else []
  leaderCommit := c.commitIndex
  seq := c.appendSeq + 1

def nextFor (c : Core) (peer : ID) : Nat :=
  if nextIndexOf c peer = 0 then 1 else nextIndexOf c peer

def sendAppend (c : Core) (peer : ID) : Core :=
  if nextFor c peer ≤ c.snapIndex then
    send c peer (.installSnapshot (snapshotRequest c))
  else
    send { c with appendSeq := c.appendSeq + 1 } peer
      (.appendEntries (appendRequest c (nextFor c peer)))

def broadcastAppends (c : Core) : Core :=
  (peerIDs c).foldl sendAppend c

def sendTimeoutNow (c : Core) (target : ID) : Core :=
  send c target (.timeoutNow { term := c.term, leaderId := c.cfg.id })

/-- A leader that sees its own removal committed gets out of the way. -/
def relinquish (c : Core) : Core :=
  abortPendingReads { c with role := .follower, leaderID := 0, transferTarget := 0 }

/-- Queue the committed entry at index `i` for the node layer. -/
def deliverOne (base : Nat) (c : Core) (i : Nat) : Core :=
  match c.entries[i - base]? with
  | none => c
  | some e =>
      let c := { c with committed := c.committed ++ [e] }
      if e.type = .config ∧ c.role = .leader ∧ isMember c = false then relinquish c else c

def deliverCommitted (c : Core) : Core :=
  match c.entries with
  | [] => c
  | first :: _ =>
      let indices := List.range' (c.lastDelivered + 1) (c.commitIndex - c.lastDelivered)
      let c := indices.foldl (deliverOne first.index) c
      if c.lastDelivered < c.commitIndex then { c with lastDelivered := c.commitIndex } else c

/-- How many members of the configuration store the entry at index `n`. -/
def commitVotes (c : Core) (n : Nat) : Nat :=
  (if isMember c then 1 else 0) + (peerIDs c).countP fun id => n ≤ matchIndexOf c id

/-- The downward search of `maybeAdvanceCommit`, from index `n`. -/
def advanceFrom (c : Core) : (n : Nat) → Core
  | 0 => c
  | n + 1 =>
      if c.commitIndex < n + 1 ∧ termAt c (n + 1) = c.term then
        if majority c ≤ commitVotes c (n + 1) then
          deliverCommitted { c with commitIndex := n + 1 }
        else advanceFrom c n
      else c

def maybeAdvanceCommit (c : Core) : Core :=
  advanceFrom c (lastLogIndex c)

def appendOwn (c : Core) (e : Entry) : Core :=
  { c with entries := c.entries ++ [e], disk := { c.disk with log := c.disk.log ++ [e] } }

def propose (c : Core) (command : Command) (typ : EntryType) :
    Core × Except RaftError (Nat × Nat) :=
  if c.role ≠ .leader then
    (c, .error (.notLeader c.leaderID))
  else if c.transferTarget ≠ 0 then
    (c, .error (.notLeader c.transferTarget))
  else
    let e : Entry :=
      { term := c.term, index := lastLogIndex c + 1, type := typ, command := command }
    (maybeAdvanceCommit (broadcastAppends (appendOwn c e)), .ok (e.index, e.term))

def proposeConfChange (c : Core) (cc : ConfChange) : Core × Except RaftError (Nat × Nat) :=
  if c.role ≠ .leader then
    (c, .error (.notLeader c.leaderID))
  else if c.commitIndex < c.lastConfigIndex then
    (c, .error (.changeInFlight c.lastConfigIndex c.commitIndex))
  else if cc.op = confChangeAdd ∧ c.members[cc.id]? = some cc.addr then
    (c, .error (.alreadyMember cc.id))
  else if cc.op ≠ confChangeAdd ∧ c.members[cc.id]? = none then
    (c, .error (.notMember cc.id))
  else
    match propose c (encodeConfChange cc) .config with
    | (c, .error e) => (c, .error e)
    | (c, .ok (index, term)) => (applyConfChange c cc index, .ok (index, term))

/-- Whether the log already has an entry of this index and term. -/
def held (c : Core) (e : Entry) : Bool :=
  e.index ≤ lastLogIndex c ∧ termAt c e.index = e.term

/-- The part of the log a batch starting at index `first` replaces. -/
def conflicting (c : Core) (first : Nat) : List Entry :=
  match c.entries with
  | [] => []
  | b :: _ => if first ≤ lastLogIndex c then c.entries.drop (first - b.index) else []

/-- The part of the log that stays in front of a batch starting at index `first`. -/
def retained (c : Core) (first : Nat) : List Entry :=
  match c.entries with
  | [] => []
  | b :: _ => if first ≤ lastLogIndex c then c.entries.take (first - b.index) else c.entries

/-- The log with everything from the index of `e` on replaced. -/
def splice (c : Core) (d : Disk) (e : Entry) (rest : List Entry) : Core :=
  { c with disk := d, entries := retained c e.index ++ e :: rest }

def truncateAndAppend (c : Core) (e : Entry) (rest : List Entry) : Core × Except RaftError Unit :=
  if e.index ≤ c.commitIndex then
    (c, .error (.truncateCommitted e.index c.commitIndex))
  else
    match append c.disk (e :: rest) with
    | .error err => ({ c with entries := retained c e.index }, .error err)
    | .ok d =>
        -- A membership change that is undone forces a full rebuild.
        if (conflicting c e.index).any fun e => e.type = .config then
          (recalcConfig (splice c d e rest), .ok ())
        else (noteAppendedConfigs (splice c d e rest) (e :: rest), .ok ())

/-- Append what a request brings that the log does not have yet. -/
def appendNew (c : Core) (entries : List Entry) : Core × Except RaftError Unit :=
  match entries.dropWhile (held c) with
  | [] => (c, .ok ())
  | e :: rest => truncateAndAppend c e rest

def followCommit (c : Core) (leaderCommit lastNew : Nat) : Core :=
  if c.commitIndex < leaderCommit then
    deliverCommitted { c with commitIndex := min leaderCommit lastNew }
  else c

/-- The first index of the run of `term` that ends at the given index. -/
def firstIndexOfTerm (c : Core) (term : Nat) : (index : Nat) → Nat
  | 0 => 0
  | 1 => 1
  | i + 2 => if termAt c (i + 1) = term then firstIndexOfTerm c term (i + 1) else i + 2

/-- The search of `lastIndexOfTerm`, from an index downwards. -/
def lastIndexFrom (c : Core) (term : Nat) : (index : Nat) → Nat
  | 0 => 0
  | i + 1 =>
      if termAt c (i + 1) = term then i + 1
      else if termAt c (i + 1) < term ∨ termAt c (i + 1) = 0 then 0
      else lastIndexFrom c term i

def lastIndexOfTerm (c : Core) (term : Nat) : Nat :=
  lastIndexFrom c term (lastLogIndex c)

def handleAppendEntries (c : Core) (req : AppendEntriesRequest) :
    Core × Except RaftError AppendEntriesResponse :=
  let c := adoptTerm c req.term
  let resp : AppendEntriesResponse :=
    { term := c.term, success := false, seq := req.seq, conflictTerm := 0, conflictIndex := 0 }
  if req.term < c.term then
    (c, .ok resp)
  else
    let c := recognizeLeader c req.leaderId
    let prev := req.prevLogIndex
    if 0 < prev ∧ lastLogIndex c < prev then
      (c, .ok { resp with conflictIndex := lastLogIndex c + 1 })
    else if 0 < prev ∧ termAt c prev ≠ req.prevLogTerm then
      (c, .ok { resp with
        conflictTerm := termAt c prev
        conflictIndex := firstIndexOfTerm c (termAt c prev) prev })
    else
      match appendNew c req.entries with
      | (c, .error err) => (c, .error err)
      | (c, .ok ()) =>
          (followCommit c req.leaderCommit (prev + req.entries.length),
            .ok { resp with success := true })

/-- Move every pending read with enough acknowledgements to the outcomes; true if
none is left. -/
def confirmReads (c : Core) : Core × Bool :=
  let done := c.pendingReads.filter fun r => majority c ≤ r.acks.card
  let remaining := c.pendingReads.filter fun r => ¬ majority c ≤ r.acks.card
  ({ c with
      readOutcomes := c.readOutcomes ++ done.map fun r => ⟨r.id, r.index, true⟩
      pendingReads := remaining },
    remaining.isEmpty)

def noteFreshAck (c : Core) (sender : ID) (seq : Nat) : Core :=
  if c.pendingReads.any fun r => r.minSeq ≤ seq then
    (confirmReads
      { c with
        pendingReads := c.pendingReads.map fun r =>
          if r.minSeq ≤ seq then { r with acks := insert sender r.acks } else r }).1
  else c

/-- A read barrier at the commit index: only sends from now on count. -/
def newRead (c : Core) : PendingRead where
  id := c.readCounter + 1
  index := c.commitIndex
  minSeq := c.appendSeq + 1
  acks := {c.cfg.id}

def registerRead (c : Core) : Core :=
  { c with readCounter := c.readCounter + 1, pendingReads := c.pendingReads ++ [newRead c] }

def requestRead (c : Core) : Core × Except RaftError Nat :=
  if c.role ≠ .leader then
    (c, .error (.notLeader c.leaderID))
  else if termAt c c.commitIndex ≠ c.term then
    (c, .error .leaderNotReady)
  else
    let (c', done) := confirmReads (registerRead c)
    (if done then c' else broadcastAppends c', .ok (newRead c).id)

def sub64 (a b : Nat) : Nat :=
  (a + 2 ^ 64 - b) % 2 ^ 64

/-- A peer is known to store the log up to index `m`. -/
def noteMatch (c : Core) (peer : ID) (m : Nat) : Core :=
  { c with
    matchIndex := Function.update c.matchIndex peer (some m)
    nextIndex := Function.update c.nextIndex peer (some (m + 1)) }

/-- Where to retry after a rejection, from the follower's hints. -/
def retryIndex (c : Core) (resp : AppendEntriesResponse) : Nat :=
  let last := lastIndexOfTerm c resp.conflictTerm
  let next := if resp.conflictTerm ≠ 0 ∧ last ≠ 0 then last + 1 else resp.conflictIndex
  if next = 0 then 1 else next

/-- A rejection never moves the frontier forward. -/
def backUp (c : Core) (sender : ID) (resp : AppendEntriesResponse) : Core :=
  let next :=
    if retryIndex c resp < nextIndexOf c sender then retryIndex c resp
    else max 1 (sub64 (nextIndexOf c sender) 1)
  { c with nextIndex := Function.update c.nextIndex sender (some next) }

def noteAck (c : Core) (sender : ID) (m : Nat) : Core :=
  if matchIndexOf c sender < m then maybeAdvanceCommit (noteMatch c sender m) else c

/-- A pending transfer fires once the target's log is complete. -/
def fireTransfer (c : Core) (sender : ID) : Core :=
  if sender = c.transferTarget ∧ matchIndexOf c sender = lastLogIndex c then
    sendTimeoutNow c sender
  else c

def feed (c : Core) (sender : ID) : Core :=
  if nextIndexOf c sender ≤ lastLogIndex c then sendAppend c sender else c

def handleAppendResponse (c : Core) (sender : ID) (req : AppendEntriesRequest)
    (resp : AppendEntriesResponse) : Core :=
  if c.term < resp.term then
    stepDown c resp.term
  else if c.role ≠ .leader ∨ req.term ≠ c.term then
    c
  else if resp.success then
    let c := noteFreshAck c sender resp.seq
    let c := noteAck c sender (req.prevLogIndex + req.entries.length)
    feed (fireTransfer c sender) sender
  else
    sendAppend (backUp c sender resp) sender

end RaftKV.Raft
