import RaftKV.Codec.Slices
import RaftKV.Raft.Shapes

/-!
The handlers of a core with the bounds of every slice of the log they take. A difference
of indices that would wrap around, or an index outside the log, ends the call without a
result.
-/

namespace RaftKV.Raft.Bounds

open Codec.Slices
open Raft.Durability Raft.Cluster Raft.Shapes

variable {M : Members} {c : Core}

section Reading

def termAtWithin (c : Core) (index : Nat) : Option Nat :=
  if index = c.snapIndex then
    some c.snapTerm
  else
    match c.entries with
    | [] => some 0
    | first :: _ =>
        if index = 0 ∨ index < first.index ∨ lastLogIndex c < index then
          some 0
        else do
          let k ← minus index first.index
          let e ← c.entries[k]?
          return e.term

/-- The loop of `sendAppend` over the `n` entries from index `i` on. -/
def batchWithin (c : Core) (base : Nat) : (n payload i : Nat) → Option (List Entry)
  | 0, _, _ => some []
  | n + 1, payload, i => do
      let k ← minus i base
      let e ← c.entries[k]?
      if maxAppendBytes ≤ payload + e.command.length then
        return [e]
      let es ← batchWithin c base n (payload + e.command.length) (i + 1)
      return e :: es

def entriesWithin (c : Core) (next : Nat) : Option (List Entry) :=
  match c.entries with
  | [] => some []
  | first :: _ =>
      if next ≤ lastLogIndex c then
        batchWithin c first.index (lastLogIndex c + 1 - next) 0 next
      else some []

def sendAppendWithin (c : Core) (peer : ID) : Option Core :=
  if nextFor c peer ≤ c.snapIndex then
    some (send c peer (.installSnapshot (snapshotRequest c)))
  else do
    let prev ← minus (nextFor c peer) 1
    let prevTerm ← termAtWithin c prev
    let entries ← entriesWithin c (nextFor c peer)
    return send { c with appendSeq := c.appendSeq + 1 } peer
      (.appendEntries
        { term := c.term
          leaderId := c.cfg.id
          prevLogIndex := prev
          prevLogTerm := prevTerm
          entries := entries
          leaderCommit := c.commitIndex
          seq := c.appendSeq + 1 })

def broadcastAppendsWithin (c : Core) : Option Core :=
  (peerIDs c).foldlM sendAppendWithin c

theorem termAtWithin_eq (h : Contiguous c) (index : Nat) :
    termAtWithin c index = some (termAt c index) := by
  have hlast := lastLogIndex_eq h
  unfold termAtWithin termAt
  split
  · rfl
  · cases he : c.entries with
    | nil => rfl
    | cons first rest =>
        have hfirst := index_of_cons h he
        dsimp only
        rw [← he]
        split
        · rfl
        · rename_i hin
          rw [not_or, not_or, not_lt, not_lt] at hin
          have hk : index - first.index < c.entries.length := by
            omega
          simp only [minus_of_le hin.2.1, Option.bind_eq_bind, Option.bind_some,
            List.getElem?_eq_getElem hk]
          rfl

theorem batchWithin_eq {base : Nat} (n payload i : Nat) (hbase : base ≤ i)
    (hn : n = c.entries.length - (i - base)) (hle : i - base ≤ c.entries.length) :
    batchWithin c base n payload i = some (batch payload (c.entries.drop (i - base))) := by
  induction n generalizing payload i with
  | zero =>
      rw [List.drop_of_length_le (by omega)]
      rfl
  | succ n ih =>
      have hk : i - base < c.entries.length := by
        omega
      rw [List.drop_eq_getElem_cons hk, batch, batchWithin, minus_of_le hbase]
      simp only [Option.bind_eq_bind, Option.bind_some, List.getElem?_eq_getElem hk]
      split
      · rfl
      · have hrest := ih (payload + c.entries[i - base].command.length) (i + 1) (by omega)
          (by omega) (by omega)
        rw [show i + 1 - base = i - base + 1 by omega] at hrest
        rw [hrest]
        rfl

theorem sendAppendWithin_eq (h : Contiguous c) (peer : ID) :
    sendAppendWithin c peer = some (sendAppend c peer) := by
  have hlast := lastLogIndex_eq h
  have hpos := nextFor_pos c peer
  unfold sendAppendWithin sendAppend
  split
  · rfl
  · rename_i hsnap
    have hentries : entriesWithin c (nextFor c peer) =
        some (appendRequest c (nextFor c peer)).entries := by
      unfold entriesWithin appendRequest
      cases he : c.entries with
      | nil => rfl
      | cons first rest =>
          have hfirst := index_of_cons h he
          dsimp only
          rw [← he]
          split
          · exact batchWithin_eq _ 0 _ (by omega) (by omega) (by omega)
          · rfl
    simp only [minus_of_le (Nat.succ_le_of_lt hpos), termAtWithin_eq h, hentries,
      Option.bind_eq_bind, Option.bind_some]
    rfl

theorem foldlM_eq_some {α β : Type} {f : β → α → Option β} {g : β → α → β} {P : β → Prop}
    {l : List α} (hf : ∀ b, ∀ a ∈ l, P b → f b a = some (g b a)) (hP : ∀ b a, P b → P (g b a))
    {b : β} (hb : P b) : l.foldlM f b = some (l.foldl g b) := by
  induction l generalizing b with
  | nil => rfl
  | cons a l ih =>
      rw [List.foldlM_cons, List.foldl_cons, hf b a (by simp) hb]
      exact ih (fun b' a' ha' => hf b' a' (by simp [ha'])) (hP b a hb)

theorem broadcastAppendsWithin_eq (h : Contiguous c) :
    broadcastAppendsWithin c = some (broadcastAppends c) := by
  refine foldlM_eq_some (P := fun a => Contiguous a)
    (fun a peer _ ha => sendAppendWithin_eq ha peer) (fun a peer ha => ?_) h
  obtain ⟨o, hrep, -⟩ := replicates_sendAppend a peer
  rw [hrep.eq]
  exact ha

end Reading

section Committing

theorem kept_replicates {c' : Core} {out : List Outbound} (h : Kept M c)
    (hrep : Replicates c c' out) : Kept M c' := by
  refine kept_of_sameLog h (sameLog_replicates hrep) ?_ ?_ <;> rw [hrep.eq]

def deliverOneWithin (base : Nat) (c : Core) (i : Nat) : Option Core := do
  let k ← minus i base
  let e ← c.entries[k]?
  let c := { c with committed := c.committed ++ [e] }
  return if e.type = .config ∧ c.role = .leader ∧ isMember c = false then relinquish c else c

def deliverCommittedWithin (c : Core) : Option Core :=
  match c.entries with
  | [] => some c
  | first :: _ => do
      let indices := List.range' (c.lastDelivered + 1) (c.commitIndex - c.lastDelivered)
      let c ← indices.foldlM (deliverOneWithin first.index) c
      return if c.lastDelivered < c.commitIndex then { c with lastDelivered := c.commitIndex }
        else c

/-- The search of `maybeAdvanceCommit`, from index `n` downwards. -/
def advanceWithin (c : Core) : (n : Nat) → Option Core
  | 0 => some c
  | n + 1 => do
      if c.commitIndex < n + 1 then
        let term ← termAtWithin c (n + 1)
        if term ≠ c.term then
          return c
        if majority c ≤ commitVotes c (n + 1) then
          deliverCommittedWithin { c with commitIndex := n + 1 }
        else
          advanceWithin c n
      else
        return c

def maybeAdvanceCommitWithin (c : Core) : Option Core :=
  advanceWithin c (lastLogIndex c)

def replicateWithin (c : Core) (e : Entry) : Option Core := do
  let c ← broadcastAppendsWithin (appendOwn c e)
  maybeAdvanceCommitWithin c

theorem deliverCommittedWithin_eq (hn : Contiguous c)
    (hsnap : c.snapIndex ≤ c.lastDelivered) (hcommit : c.commitIndex ≤ lastLogIndex c) :
    deliverCommittedWithin c = some (deliverCommitted c) := by
  have hlast := lastLogIndex_eq hn
  unfold deliverCommittedWithin deliverCommitted
  cases he : c.entries with
  | nil => rfl
  | cons first rest =>
      have hfirst := index_of_cons hn he
      have hfold := @foldlM_eq_some _ _ (deliverOneWithin first.index) (deliverOne first.index)
        (fun a => a.entries = c.entries)
        (List.range' (c.lastDelivered + 1) (c.commitIndex - c.lastDelivered)) ?_ ?_ c rfl
      · dsimp only
        rw [hfold]
        rfl
      · intro a i hi ha
        rw [List.mem_range'_1] at hi
        have hk : i - first.index < a.entries.length := by
          rw [ha]
          omega
        unfold deliverOneWithin deliverOne
        simp only [minus_of_le (show first.index ≤ i by omega), Option.bind_eq_bind,
          Option.bind_some, List.getElem?_eq_getElem hk]
        rfl
      · intro a i ha
        unfold deliverOne
        split
        · exact ha
        · dsimp only
          split <;> exact ha

theorem advanceWithin_eq (h : Kept M c) (n : Nat) (hn : n ≤ lastLogIndex c) :
    advanceWithin c n = some (advanceFrom c n) := by
  induction n with
  | zero => rfl
  | succ n ih =>
      rw [advanceWithin, advanceFrom]
      split
      · rename_i hlt
        simp only [termAtWithin_eq h.saved.numbered, Option.bind_eq_bind, Option.bind_some, hlt,
          true_and]
        split
        · rfl
        · rename_i hterm
          rw [if_pos (not_not.mp hterm)]
          split
          · exact @deliverCommittedWithin_eq { c with commitIndex := n + 1 } h.saved.numbered
              h.cursors.snap_le hn
          · exact ih (by omega)
      · rename_i hlt
        rw [if_neg fun hcond => hlt hcond.1]
        rfl

theorem maybeAdvanceCommitWithin_eq (h : Kept M c) :
    maybeAdvanceCommitWithin c = some (maybeAdvanceCommit c) :=
  advanceWithin_eq h (lastLogIndex c) le_rfl

theorem replicateWithin_eq (h : Kept M c) {e : Entry} (he : e.index = lastLogIndex c + 1) :
    replicateWithin c e = some (maybeAdvanceCommit (broadcastAppends (appendOwn c e))) := by
  have hown := kept_appendOwn h he
  obtain ⟨out, hrep, -⟩ := replicates_broadcastAppends (appendOwn c e)
  unfold replicateWithin
  rw [broadcastAppendsWithin_eq hown.saved.numbered]
  exact maybeAdvanceCommitWithin_eq (kept_replicates hown hrep)

end Committing

section Following

def firstIndexOfTermWithin (c : Core) (term : Nat) : (index : Nat) → Option Nat
  | 0 => some 0
  | 1 => some 1
  | i + 2 => do
      let t ← termAtWithin c (i + 1)
      if t = term then firstIndexOfTermWithin c term (i + 1) else return i + 2

def freshWithin (c : Core) : List Entry → Option (List Entry)
  | [] => some []
  | e :: rest =>
      if lastLogIndex c < e.index then
        some (e :: rest)
      else do
        let t ← termAtWithin c e.index
        if t = e.term then freshWithin c rest else return e :: rest

/-- The part of the log a batch starting at index `first` replaces, and the part that stays
in front of it. -/
def cutWithin (c : Core) (first : Nat) : Option (List Entry × List Entry) :=
  match c.entries with
  | [] => some ([], [])
  | b :: _ =>
      if first ≤ lastLogIndex c then do
        let k ← minus first b.index
        let cut ← sliceFrom c.entries k
        let kept ← sliceTo c.entries k
        return (cut, kept)
      else some ([], c.entries)

def truncateAndAppendWithin (c : Core) (e : Entry) (rest : List Entry) :
    Option (Core × Except RaftError Unit) :=
  if e.index ≤ c.commitIndex then
    some (c, .error (.truncateCommitted e.index c.commitIndex))
  else do
    let (cut, kept) ← cutWithin c e.index
    match append c.disk (e :: rest) with
    | .error err => return ({ c with entries := kept }, .error err)
    | .ok d =>
        let c := { c with disk := d, entries := kept ++ e :: rest }
        if cut.any fun e => e.type = .config then return (recalcConfig c, .ok ())
        else return (noteAppendedConfigs c (e :: rest), .ok ())

def appendNewWithin (c : Core) (entries : List Entry) : Option (Core × Except RaftError Unit) := do
  match ← freshWithin c entries with
  | [] => return (c, .ok ())
  | e :: rest => truncateAndAppendWithin c e rest

def followCommitWithin (c : Core) (leaderCommit lastNew : Nat) : Option Core :=
  if c.commitIndex < leaderCommit then
    deliverCommittedWithin { c with commitIndex := min leaderCommit lastNew }
  else some c

def handleAppendEntriesWithin (c : Core) (req : AppendEntriesRequest) :
    Option (Core × Except RaftError AppendEntriesResponse) :=
  let c := adoptTerm c req.term
  let resp : AppendEntriesResponse :=
    { term := c.term, success := false, seq := req.seq, conflictTerm := 0, conflictIndex := 0 }
  if req.term < c.term then
    some (c, .ok resp)
  else
    let c := recognizeLeader c req.leaderId
    let prev := req.prevLogIndex
    if 0 < prev ∧ lastLogIndex c < prev then
      some (c, .ok { resp with conflictIndex := lastLogIndex c + 1 })
    else do
      let prevTerm ← termAtWithin c prev
      if 0 < prev ∧ prevTerm ≠ req.prevLogTerm then
        let index ← firstIndexOfTermWithin c prevTerm prev
        return (c, .ok { resp with conflictTerm := prevTerm, conflictIndex := index })
      else
        match ← appendNewWithin c req.entries with
        | (c, .error err) => return (c, .error err)
        | (c, .ok ()) =>
            let c ← followCommitWithin c req.leaderCommit (prev + req.entries.length)
            return (c, .ok { resp with success := true })

theorem firstIndexOfTermWithin_eq (h : Contiguous c) (term index : Nat) :
    firstIndexOfTermWithin c term index = some (firstIndexOfTerm c term index) := by
  fun_induction firstIndexOfTerm c term index with
  | case1 => rfl
  | case2 => rfl
  | case3 i hterm ih =>
      simp only [firstIndexOfTermWithin, termAtWithin_eq h, Option.bind_eq_bind, Option.bind_some,
        hterm, if_true]
      exact ih
  | case4 i hterm =>
      simp only [firstIndexOfTermWithin, termAtWithin_eq h, Option.bind_eq_bind, Option.bind_some,
        if_neg hterm]
      rfl

theorem freshWithin_eq (h : Contiguous c) (entries : List Entry) :
    freshWithin c entries = some (entries.dropWhile (held c)) := by
  induction entries with
  | nil => rfl
  | cons e rest ih =>
      rw [freshWithin, List.dropWhile_cons]
      unfold held
      split
      · rename_i hlt
        rw [if_neg (by simp [hlt])]
      · rename_i hle
        simp only [termAtWithin_eq h, Option.bind_eq_bind, Option.bind_some, not_lt.mp hle,
          true_and, decide_eq_true_eq]
        split
        · exact ih
        · rfl

theorem cutWithin_eq (h : Contiguous c) {first : Nat} (hf : c.snapIndex < first) :
    cutWithin c first = some (conflicting c first, retained c first) := by
  have hlast := lastLogIndex_eq h
  unfold cutWithin conflicting retained
  cases he : c.entries with
  | nil => rfl
  | cons b rest =>
      have hb := index_of_cons h he
      dsimp only
      rw [← he]
      split
      · have hk : first - b.index ≤ c.entries.length := by
          omega
        simp only [minus_of_le (show b.index ≤ first by omega), sliceFrom_of_le hk,
          sliceTo_of_le hk, Option.bind_eq_bind, Option.bind_some]
        rfl
      · rfl

theorem truncateAndAppendWithin_eq (h : Contiguous c) {e : Entry}
    {rest : List Entry} (hsnap : c.commitIndex < e.index → c.snapIndex < e.index) :
    truncateAndAppendWithin c e rest = some (truncateAndAppend c e rest) := by
  unfold truncateAndAppendWithin truncateAndAppend
  split
  · rfl
  · rename_i hcommit
    simp only [cutWithin_eq h (hsnap (Nat.lt_of_not_le hcommit)), Option.bind_eq_bind,
      Option.bind_some]
    cases append c.disk (e :: rest) with
    | error err => rfl
    | ok d =>
        dsimp only
        split <;> rfl

theorem appendNewWithin_eq (h : Kept M c) {req : AppendEntriesRequest} (hreq : WellFormed req)
    (hacc : Accepted c req) :
    appendNewWithin c req.entries = some (appendNew c req.entries) := by
  unfold appendNewWithin appendNew
  simp only [freshWithin_eq h.saved.numbered, Option.bind_eq_bind, Option.bind_some]
  cases hfresh : req.entries.dropWhile (held c) with
  | nil => rfl
  | cons e rest =>
      exact truncateAndAppendWithin_eq h.saved.numbered fun hcommit =>
        (fresh_index h.saved.numbered h.cursors hreq hacc hfresh hcommit).1

theorem followCommitWithin_eq (hn : Contiguous c)
    (hsnap : c.snapIndex ≤ c.lastDelivered) {leaderCommit lastNew : Nat}
    (hlast : lastNew ≤ lastLogIndex c) :
    followCommitWithin c leaderCommit lastNew = some (followCommit c leaderCommit lastNew) := by
  unfold followCommitWithin followCommit
  split
  · exact @deliverCommittedWithin_eq { c with commitIndex := min leaderCommit lastNew } hn hsnap
      ((min_le_right _ _).trans hlast)
  · rfl

theorem kept_recognizeLeader (h : Kept M c) (leaderId : ID) :
    Kept M (recognizeLeader c leaderId) :=
  kept_of_sameLog h rfl rfl rfl

theorem handleAppendEntriesWithin_eq (h : Kept M c) {req : AppendEntriesRequest}
    (hreq : WellFormed req) :
    handleAppendEntriesWithin c req = some (handleAppendEntries c req) := by
  have hkept := kept_recognizeLeader (kept_adoptTerm h req.term) req.leaderId
  unfold handleAppendEntriesWithin handleAppendEntries
  dsimp only
  generalize recognizeLeader (adoptTerm c req.term) req.leaderId = a at *
  split
  · rfl
  · split
    · rfl
    · rename_i hreach
      simp only [termAtWithin_eq hkept.saved.numbered, Option.bind_eq_bind, Option.bind_some]
      split
      · simp only [firstIndexOfTermWithin_eq hkept.saved.numbered, Option.bind_some]
        rfl
      · rename_i hprev
        have hacc : Accepted a req := by
          rcases Nat.eq_zero_or_pos req.prevLogIndex with hzero | hpos
          · exact Or.inl hzero
          · exact Or.inr ⟨not_lt.mp fun hlt => hreach ⟨hpos, hlt⟩,
              not_not.mp fun hne => hprev ⟨hpos, hne⟩⟩
        have hb := kept_appendNew hkept hreq hacc
        simp only [appendNewWithin_eq hkept hreq hacc, Option.bind_some]
        rcases hnew : appendNew a req.entries with ⟨b, err | ⟨⟩⟩
        · rfl
        · rw [hnew] at hb
          have hlast := le_lastLogIndex_of_appendNew hreq.numbered hacc hnew
          simp only [followCommitWithin_eq hb.saved.numbered hb.cursors.snap_le hlast,
            Option.bind_some]
          rfl

end Following

section Leading

def proposeWithin (c : Core) (command : Command) (typ : EntryType) :
    Option (Core × Except RaftError (Nat × Nat)) :=
  if c.role ≠ .leader then
    some (c, .error (.notLeader c.leaderID))
  else if c.transferTarget ≠ 0 then
    some (c, .error (.notLeader c.transferTarget))
  else do
    let e : Entry :=
      { term := c.term, index := lastLogIndex c + 1, type := typ, command := command }
    let c ← replicateWithin c e
    return (c, .ok (e.index, e.term))

def proposeConfChangeWithin (c : Core) (cc : ConfChange) :
    Option (Core × Except RaftError (Nat × Nat)) :=
  if c.role ≠ .leader then
    some (c, .error (.notLeader c.leaderID))
  else if c.commitIndex < c.lastConfigIndex then
    some (c, .error (.changeInFlight c.lastConfigIndex c.commitIndex))
  else if cc.op = confChangeAdd ∧ c.members[cc.id]? = some cc.addr then
    some (c, .error (.alreadyMember cc.id))
  else if cc.op ≠ confChangeAdd ∧ c.members[cc.id]? = none then
    some (c, .error (.notMember cc.id))
  else do
    match ← proposeWithin c (encodeConfChange cc) .config with
    | (c, .error e) => return (c, .error e)
    | (c, .ok (index, term)) => return (applyConfChange c cc index, .ok (index, term))

def requestReadWithin (c : Core) : Option (Core × Except RaftError Nat) :=
  if c.role ≠ .leader then
    some (c, .error (.notLeader c.leaderID))
  else do
    let term ← termAtWithin c c.commitIndex
    if term ≠ c.term then
      return (c, .error .leaderNotReady)
    let (c', done) := confirmReads (registerRead c)
    let c' ← if done then some c' else broadcastAppendsWithin c'
    return (c', .ok (newRead c).id)

def lastIndexFromWithin (c : Core) (term : Nat) : (index : Nat) → Option Nat
  | 0 => some 0
  | i + 1 => do
      let t ← termAtWithin c (i + 1)
      if t = term then
        return i + 1
      if t < term ∨ t = 0 then
        return 0
      lastIndexFromWithin c term i

def retryIndexWithin (c : Core) (resp : AppendEntriesResponse) : Option Nat := do
  let last ← lastIndexFromWithin c resp.conflictTerm (lastLogIndex c)
  let next := if resp.conflictTerm ≠ 0 ∧ last ≠ 0 then last + 1 else resp.conflictIndex
  return if next = 0 then 1 else next

def backUpWithin (c : Core) (sender : ID) (resp : AppendEntriesResponse) : Option Core := do
  let retry ← retryIndexWithin c resp
  let next :=
    if retry < nextIndexOf c sender then retry else max 1 (sub64 (nextIndexOf c sender) 1)
  return { c with nextIndex := Function.update c.nextIndex sender (some next) }

def noteAckWithin (c : Core) (sender : ID) (m : Nat) : Option Core :=
  if matchIndexOf c sender < m then maybeAdvanceCommitWithin (noteMatch c sender m) else some c

def feedWithin (c : Core) (sender : ID) : Option Core :=
  if nextIndexOf c sender ≤ lastLogIndex c then sendAppendWithin c sender else some c

def handleAppendResponseWithin (c : Core) (sender : ID) (req : AppendEntriesRequest)
    (resp : AppendEntriesResponse) : Option Core :=
  if c.term < resp.term then
    some (stepDown c resp.term)
  else if c.role ≠ .leader ∨ req.term ≠ c.term then
    some c
  else if resp.success then do
    let c := noteFreshAck c sender resp.seq
    let c ← noteAckWithin c sender (req.prevLogIndex + req.entries.length)
    feedWithin (fireTransfer c sender) sender
  else do
    let c ← backUpWithin c sender resp
    sendAppendWithin c sender

def handleInstallSnapshotResponseWithin (c : Core) (sender : ID) (req : InstallSnapshotRequest)
    (resp : InstallSnapshotResponse) : Option Core :=
  if c.term < resp.term then
    some (stepDown c resp.term)
  else if c.role ≠ .leader ∨ req.term ≠ c.term then
    some c
  else
    feedWithin (noteSnapshot c sender req.lastIncludedIndex) sender

def transferLeadershipWithin (c : Core) (target : ID) : Option (Core × Except RaftError Unit) :=
  if c.role ≠ .leader then
    some (c, .error (.notLeader c.leaderID))
  else if target = c.cfg.id then
    some (c, .ok ())
  else if target ∉ c.members then
    some (c, .error (.transferTarget target))
  else
    let c := { c with transferTarget := target, transferTicks := c.cfg.electionTicksMax }
    if matchIndexOf c target = lastLogIndex c then
      some (sendTimeoutNow c target, .ok ())
    else do
      let c ← sendAppendWithin c target
      return (c, .ok ())

theorem proposeWithin_eq (h : Kept M c) (command : Command) (typ : EntryType) :
    proposeWithin c command typ = some (propose c command typ) := by
  unfold proposeWithin propose
  split
  · rfl
  · split
    · rfl
    · dsimp only
      rw [replicateWithin_eq h (by rfl)]
      rfl

theorem proposeConfChangeWithin_eq (h : Kept M c) (cc : ConfChange) :
    proposeConfChangeWithin c cc = some (proposeConfChange c cc) := by
  unfold proposeConfChangeWithin proposeConfChange
  simp only [proposeWithin_eq h, Option.bind_eq_bind, Option.bind_some]
  split
  · rfl
  · split
    · rfl
    · split
      · rfl
      · split
        · rfl
        · rcases propose c (encodeConfChange cc) .config with ⟨c', err | ⟨index, term⟩⟩ <;> rfl

theorem requestReadWithin_eq (h : Kept M c) :
    requestReadWithin c = some (requestRead c) := by
  unfold requestReadWithin requestRead
  split
  · rfl
  · simp only [termAtWithin_eq h.saved.numbered, Option.bind_eq_bind, Option.bind_some]
    split
    · rfl
    · split
      · rfl
      · rw [@broadcastAppendsWithin_eq (confirmReads (registerRead c)).1 h.saved.numbered]
        rfl

theorem lastIndexFromWithin_eq (h : Contiguous c) (term index : Nat) :
    lastIndexFromWithin c term index = some (lastIndexFrom c term index) := by
  induction index with
  | zero => rfl
  | succ i ih =>
      rw [lastIndexFromWithin, lastIndexFrom]
      simp only [termAtWithin_eq h, Option.bind_eq_bind, Option.bind_some]
      split
      · rfl
      · split
        · rfl
        · exact ih

theorem backUpWithin_eq (h : Contiguous c) (sender : ID)
    (resp : AppendEntriesResponse) : backUpWithin c sender resp = some (backUp c sender resp) := by
  unfold backUpWithin retryIndexWithin
  rw [lastIndexFromWithin_eq h]
  rfl

theorem feedWithin_eq (h : Contiguous c) (sender : ID) :
    feedWithin c sender = some (feed c sender) := by
  unfold feedWithin feed
  split
  · exact sendAppendWithin_eq h sender
  · rfl

theorem noteAckWithin_eq (h : Kept M c) (sender : ID) (m : Nat) :
    noteAckWithin c sender m = some (noteAck c sender m) := by
  unfold noteAckWithin noteAck
  split
  · exact maybeAdvanceCommitWithin_eq (kept_of_sameLog h rfl rfl rfl)
  · rfl

theorem sameLog_noteAck (c : Core) (sender : ID) (m : Nat) : SameLog c (noteAck c sender m) := by
  unfold noteAck
  split
  · exact sameLog_maybeAdvanceCommit (noteMatch c sender m)
  · rfl

theorem handleAppendResponseWithin_eq (h : Kept M c) (sender : ID) (req : AppendEntriesRequest)
    (resp : AppendEntriesResponse) :
    handleAppendResponseWithin c sender req resp =
      some (handleAppendResponse c sender req resp) := by
  unfold handleAppendResponseWithin handleAppendResponse
  split
  · rfl
  · split
    · rfl
    · split
      · have hfresh : Kept M (noteFreshAck c sender resp.seq) := by
          rw [noteFreshAck_eq]
          exact kept_of_sameLog h rfl rfl rfl
        dsimp only
        rw [noteAckWithin_eq hfresh]
        have hack := saved_of_sameLog hfresh.saved
          (sameLog_noteAck _ sender (req.prevLogIndex + req.entries.length))
        refine feedWithin_eq ?_ sender
        unfold fireTransfer
        split <;> exact hack.numbered
      · rw [backUpWithin_eq h.saved.numbered]
        exact @sendAppendWithin_eq (backUp c sender resp) h.saved.numbered sender

theorem handleInstallSnapshotResponseWithin_eq (h : Kept M c) (sender : ID)
    (req : InstallSnapshotRequest) (resp : InstallSnapshotResponse) :
    handleInstallSnapshotResponseWithin c sender req resp =
      some (handleInstallSnapshotResponse c sender req resp) := by
  unfold handleInstallSnapshotResponseWithin handleInstallSnapshotResponse
  split
  · rfl
  · split
    · rfl
    · refine feedWithin_eq ?_ sender
      unfold noteSnapshot
      split <;> exact h.saved.numbered

theorem transferLeadershipWithin_eq (h : Kept M c) (target : ID) :
    transferLeadershipWithin c target = some (transferLeadership c target) := by
  unfold transferLeadershipWithin transferLeadership
  split
  · rfl
  · split
    · rfl
    · split
      · rfl
      · dsimp only
        split
        · rfl
        · rw [@sendAppendWithin_eq
            { c with transferTarget := target, transferTicks := c.cfg.electionTicksMax }
            h.saved.numbered]
          rfl

end Leading

section Campaigning

def maybeWinElectionWithin (c : Core) : Option Core :=
  if c.role ≠ .candidate ∨ c.votes.card < majority c then
    some c
  else
    let c := becomeLeader c
    replicateWithin c (noopEntry c)

def startCampaignWithin (c : Core) : Option Core :=
  let c := becomeCandidate c
  maybeWinElectionWithin (broadcast c (.requestVote (voteRequest c c.term false)))

def maybeWinPreVoteWithin (c : Core) : Option Core :=
  match c.preVotes with
  | none => some c
  | some votes =>
      if votes.card < majority c then some c
      else startCampaignWithin { c with preVotes := none }

def startPreCampaignWithin (c : Core) : Option Core :=
  let c := becomePreCandidate c
  maybeWinPreVoteWithin (broadcast c (.requestVote (voteRequest c (c.term + 1) true)))

def leaderTickWithin (c : Core) : Option Core :=
  let c := leaderClock c
  if c.cfg.heartbeatTicks ≤ c.heartbeatElapsed then
    broadcastAppendsWithin { c with heartbeatElapsed := 0 }
  else some c

def electionTimedOutWithin (c : Core) : Option Core :=
  if isMember c = false then some (resetElectionTimer c)
  else if c.cfg.disablePreVote then startCampaignWithin c
  else startPreCampaignWithin c

def tickWithin (c : Core) : Option Core :=
  if c.role = .leader then
    leaderTickWithin c
  else
    let c := followerClock c
    if c.electionTimeout ≤ c.electionElapsed then electionTimedOutWithin c else some c

def handleVoteResponseWithin (c : Core) (sender : ID) (campaignTerm : Nat)
    (resp : RequestVoteResponse) : Option Core :=
  if c.term < resp.term then
    some (stepDown c resp.term)
  else if c.role ≠ .candidate ∨ campaignTerm ≠ c.term then
    some c
  else if resp.voteGranted then
    maybeWinElectionWithin { c with votes := insert sender c.votes }
  else some c

def handlePreVoteResponseWithin (c : Core) (sender : ID) (askedTerm : Nat)
    (resp : RequestVoteResponse) : Option Core :=
  if c.term < resp.term then
    some (stepDown c resp.term)
  else
    match c.preVotes with
    | none => some c
    | some votes =>
        if c.role ≠ .follower ∨ askedTerm ≠ c.term + 1 then some c
        else if resp.voteGranted then
          maybeWinPreVoteWithin { c with preVotes := some (insert sender votes) }
        else some c

def handleTimeoutNowWithin (c : Core) (req : TimeoutNowRequest) : Option Core :=
  let c := adoptTerm c req.term
  if req.term < c.term then some c else startCampaignWithin c

theorem maybeWinElectionWithin_eq (h : Kept M c) :
    maybeWinElectionWithin c = some (maybeWinElection c) := by
  unfold maybeWinElectionWithin maybeWinElection
  split
  · rfl
  · have hlead : Kept M (becomeLeader c) := kept_of_sameLog h rfl rfl rfl
    exact replicateWithin_eq hlead rfl

theorem kept_broadcast (h : Kept M c) (msg : Message) : Kept M (broadcast c msg) := by
  rw [broadcast_eq]
  exact kept_of_sameLog h rfl rfl rfl

theorem startCampaignWithin_eq (h : Kept M c) :
    startCampaignWithin c = some (startCampaign c) := by
  have hcand : Kept M (becomeCandidate c) :=
    { saved := { h.saved with state := rfl }
      cursors := cursors_of_eq h.cursors rfl rfl rfl
      commit_le := h.commit_le
      commit_last := h.commit_last }
  exact maybeWinElectionWithin_eq (kept_broadcast hcand _)

theorem maybeWinPreVoteWithin_eq (h : Kept M c) :
    maybeWinPreVoteWithin c = some (maybeWinPreVote c) := by
  unfold maybeWinPreVoteWithin maybeWinPreVote
  cases c.preVotes with
  | none => rfl
  | some votes =>
      dsimp only
      split
      · rfl
      · exact @startCampaignWithin_eq M { c with preVotes := none }
          (kept_of_sameLog h rfl rfl rfl)

theorem startPreCampaignWithin_eq (h : Kept M c) :
    startPreCampaignWithin c = some (startPreCampaign c) := by
  have hpre : Kept M (becomePreCandidate c) := kept_of_sameLog h rfl rfl rfl
  exact maybeWinPreVoteWithin_eq (kept_broadcast hpre _)

theorem tickWithin_eq (h : Kept M c) : tickWithin c = some (tick c) := by
  have hclock : Kept M (followerClock c) := kept_of_sameLog h rfl rfl rfl
  unfold tickWithin tick leaderTickWithin leaderTick electionTimedOutWithin electionTimedOut
  dsimp only
  split
  · split
    · exact @broadcastAppendsWithin_eq { leaderClock c with heartbeatElapsed := 0 }
        h.saved.numbered
    · rfl
  · split
    · split
      · rfl
      · split
        · exact startCampaignWithin_eq hclock
        · exact startPreCampaignWithin_eq hclock
    · rfl

theorem handleVoteResponseWithin_eq (h : Kept M c) (sender : ID) (campaignTerm : Nat)
    (resp : RequestVoteResponse) :
    handleVoteResponseWithin c sender campaignTerm resp =
      some (handleVoteResponse c sender campaignTerm resp) := by
  unfold handleVoteResponseWithin handleVoteResponse
  split
  · rfl
  · split
    · rfl
    · split
      · exact maybeWinElectionWithin_eq (kept_of_sameLog h rfl rfl rfl)
      · rfl

theorem handlePreVoteResponseWithin_eq (h : Kept M c) (sender : ID) (askedTerm : Nat)
    (resp : RequestVoteResponse) :
    handlePreVoteResponseWithin c sender askedTerm resp =
      some (handlePreVoteResponse c sender askedTerm resp) := by
  unfold handlePreVoteResponseWithin handlePreVoteResponse
  split
  · rfl
  · cases c.preVotes with
    | none => rfl
    | some votes =>
        dsimp only
        split
        · rfl
        · split
          · exact @maybeWinPreVoteWithin_eq M { c with preVotes := some (insert sender votes) }
              (kept_of_sameLog h rfl rfl rfl)
          · rfl

theorem handleTimeoutNowWithin_eq (h : Kept M c) (req : TimeoutNowRequest) :
    handleTimeoutNowWithin c req = some (handleTimeoutNow c req) := by
  unfold handleTimeoutNowWithin handleTimeoutNow
  dsimp only
  split
  · rfl
  · exact startCampaignWithin_eq (kept_adoptTerm h req.term)

end Campaigning

section Snapshots

def entriesAfterWithin (c : Core) (index : Nat) : Option (List Entry) := do
  let first ← c.entries[0]?
  let k ← minus index first.index
  sliceFrom c.entries (k + 1)

def compactWithin (c : Core) (appliedIndex : Nat) (smData : Bytes) :
    Option (Core × Except RaftError Unit) :=
  if appliedIndex ≤ c.snapIndex then
    some (c, .ok ())
  else if c.lastDelivered < appliedIndex then
    some (c, .error (.cannotCompact appliedIndex c.lastDelivered))
  else do
    let term ← termAtWithin c appliedIndex
    let snap : Snapshot :=
      { lastIndex := appliedIndex
        lastTerm := term
        config := configAt c appliedIndex
        data := smData }
    let keep ← entriesAfterWithin c appliedIndex
    return (rebase c snap keep, .ok ())

def coherentSuffixWithin (c : Core) (snap : Snapshot) : Option (List Entry) :=
  if snap.lastIndex ≤ lastLogIndex c then do
    let term ← termAtWithin c snap.lastIndex
    if term = snap.lastTerm then entriesAfterWithin c snap.lastIndex else return []
  else some []

def installWithin (c : Core) (snap : Snapshot) : Option Core := do
  let keep ← coherentSuffixWithin c snap
  return recalcConfig
    { rebase c snap keep with
      commitIndex := max c.commitIndex snap.lastIndex
      lastDelivered := max c.lastDelivered snap.lastIndex
      pendingRestore := copyBytes snap.data }

def handleInstallSnapshotWithin (c : Core) (req : InstallSnapshotRequest) :
    Option (Core × Except RaftError InstallSnapshotResponse) :=
  let c := adoptTerm c req.term
  let resp : InstallSnapshotResponse := { term := c.term }
  if req.term < c.term then
    some (c, .ok resp)
  else
    let c := recognizeLeader c req.leaderId
    if req.lastIncludedIndex ≤ c.snapIndex ∨ req.lastIncludedIndex ≤ c.commitIndex then
      some (c, .ok resp)
    else
      match decodeMembers req.config with
      | .error e => some (c, .error e)
      | .ok config => do
          let c ← installWithin c
            { lastIndex := req.lastIncludedIndex
              lastTerm := req.lastIncludedTerm
              config := config
              data := req.data }
          return (c, .ok resp)

theorem entriesAfterWithin_eq (h : Contiguous c) {index : Nat}
    (hsnap : c.snapIndex < index) (hlast : index ≤ lastLogIndex c) :
    entriesAfterWithin c index = some (entriesAfter c index) := by
  rw [lastLogIndex_eq h] at hlast
  unfold entriesAfterWithin entriesAfter
  cases he : c.entries with
  | nil =>
      rw [he, List.length_nil] at hlast
      omega
  | cons first rest =>
      have hfirst := index_of_cons h he
      rw [he] at hlast
      have hk : index - first.index + 1 ≤ (first :: rest).length := by
        omega
      simp only [List.getElem?_cons_zero, minus_of_le (show first.index ≤ index by omega),
        sliceFrom_of_le hk, Option.bind_eq_bind, Option.bind_some]

theorem compactWithin_eq (h : Kept M c) {index : Nat}
    (hlog : index ≤ c.lastDelivered → index ≤ lastLogIndex c) (data : Bytes) :
    compactWithin c index data = some (compact c index data) := by
  unfold compactWithin compact
  split
  · rfl
  · rename_i hsnap
    split
    · rfl
    · rename_i hdel
      simp only [termAtWithin_eq h.saved.numbered, entriesAfterWithin_eq h.saved.numbered
        (Nat.lt_of_not_le hsnap) (hlog (Nat.le_of_not_lt hdel)), Option.bind_eq_bind,
        Option.bind_some]
      rfl

theorem installWithin_eq (h : Contiguous c) {snap : Snapshot}
    (hsnap : c.snapIndex < snap.lastIndex) :
    installWithin c snap = some (install c snap) := by
  have hkeep : coherentSuffixWithin c snap = some (coherentSuffix c snap) := by
    unfold coherentSuffixWithin coherentSuffix
    split
    · rename_i hlast
      simp only [termAtWithin_eq h, Option.bind_eq_bind, Option.bind_some, hlast, true_and]
      split
      · exact entriesAfterWithin_eq h hsnap hlast
      · rfl
    · rename_i hlast
      rw [if_neg fun hcond => hlast hcond.1]
  unfold installWithin
  rw [hkeep]
  rfl

theorem handleInstallSnapshotWithin_eq (h : Kept M c) (req : InstallSnapshotRequest) :
    handleInstallSnapshotWithin c req = some (handleInstallSnapshot c req) := by
  have hkept := kept_recognizeLeader (kept_adoptTerm h req.term) req.leaderId
  unfold handleInstallSnapshotWithin handleInstallSnapshot
  dsimp only
  split
  · rfl
  · split
    · rfl
    · rename_i hstale
      cases decodeMembers req.config with
      | error e => rfl
      | ok config =>
          have hsnap := Nat.lt_of_not_le fun hle => hstale (Or.inl hle)
          dsimp only
          rw [installWithin_eq hkept.saved.numbered hsnap]
          rfl

end Snapshots

section Calls

def handleWithin (c : Core) : Event → Option (Core × Except RaftError Response)
  | .tick => do
      let c ← tickWithin c
      return (c, .ok .none)
  | .requestVote req =>
      let (c, resp) := handleRequestVote c req
      some (c, .ok (.vote resp))
  | .appendEntries req => do
      let (c, resp) ← handleAppendEntriesWithin c req
      return (c, resp.map .append)
  | .installSnapshot req => do
      let (c, resp) ← handleInstallSnapshotWithin c req
      return (c, resp.map .snapshot)
  | .timeoutNow req => do
      let c ← handleTimeoutNowWithin c req
      return (c, .ok .none)
  | .voteResp sender campaignTerm preVote resp => do
      let c ← if preVote then handlePreVoteResponseWithin c sender campaignTerm resp
        else handleVoteResponseWithin c sender campaignTerm resp
      return (c, .ok .none)
  | .appendResp sender req resp => do
      let c ← handleAppendResponseWithin c sender req resp
      return (c, .ok .none)
  | .snapshotResp sender req resp => do
      let c ← handleInstallSnapshotResponseWithin c sender req resp
      return (c, .ok .none)
  | .propose command typ => do
      let (c, _) ← proposeWithin c command typ
      return (c, .ok .none)
  | .confChange cc => do
      let (c, _) ← proposeConfChangeWithin c cc
      return (c, .ok .none)
  | .transfer target => do
      let (c, _) ← transferLeadershipWithin c target
      return (c, .ok .none)
  | .read => do
      let (c, _) ← requestReadWithin c
      return (c, .ok .none)

def reactWithin (c : Core) (ev : Event) (replies : Response → List Packet) :
    Option (Core × Option (List Packet)) := do
  match ← handleWithin (takeQueues c) ev with
  | (c, .error _) => return (c, none)
  | (c, .ok resp) => return (c, some (replies resp ++ outgoing c))

def respondWithin (c : Core) : Input → Option (Core × Option (List Packet))
  | .deliver p => reactWithin c (eventOf p) (reply p)
  | .client ev => reactWithin c ev fun _ => []
  | .compact index data => do
      let (c, _) ← compactWithin (takeQueues c) index data
      return (c, some [])

theorem handleWithin_eq (h : Kept M c) {ev : Event} (hev : Fair ev) :
    handleWithin c ev = some (handle c ev) := by
  cases ev with
  | tick =>
      rw [handleWithin, tickWithin_eq h]
      rfl
  | requestVote req => rfl
  | appendEntries req =>
      rw [handleWithin, handleAppendEntriesWithin_eq h hev.1]
      rfl
  | installSnapshot req =>
      rw [handleWithin, handleInstallSnapshotWithin_eq h]
      rfl
  | timeoutNow req =>
      rw [handleWithin, handleTimeoutNowWithin_eq h]
      rfl
  | voteResp sender campaignTerm preVote resp =>
      rw [handleWithin, handlePreVoteResponseWithin_eq h, handleVoteResponseWithin_eq h, handle]
      split <;> rfl
  | appendResp sender req resp =>
      rw [handleWithin, handleAppendResponseWithin_eq h]
      rfl
  | snapshotResp sender req resp =>
      rw [handleWithin, handleInstallSnapshotResponseWithin_eq h]
      rfl
  | propose command typ =>
      rw [handleWithin, proposeWithin_eq h]
      rfl
  | confChange cc =>
      rw [handleWithin, proposeConfChangeWithin_eq h]
      rfl
  | transfer target =>
      rw [handleWithin, transferLeadershipWithin_eq h]
      rfl
  | read =>
      rw [handleWithin, requestReadWithin_eq h]
      rfl

theorem reactWithin_eq (h : Kept M c) {ev : Event} (hev : Fair ev)
    (replies : Response → List Packet) :
    reactWithin c ev replies = some (react c ev replies) := by
  have hq : Kept M (takeQueues c) := kept_of_sameLog h rfl rfl rfl
  unfold reactWithin react
  rw [handleWithin_eq hq hev]
  rcases handle (takeQueues c) ev with ⟨c', err | resp⟩ <;> rfl

/-- A core whose files are in order takes no slice beyond its log, whatever fair input it
gets. -/
theorem respondWithin_eq (h : Kept M c) {x : Input} (hx : FairInput x) (hlog : withinLog c x) :
    respondWithin c x = some (respond c x) := by
  cases x with
  | deliver p => exact reactWithin_eq h hx _
  | client ev => exact reactWithin_eq h hx _
  | compact index data =>
      have hq : Kept M (takeQueues c) := kept_of_sameLog h rfl rfl rfl
      rw [respondWithin, compactWithin_eq hq (of_decide_eq_true hlog)]
      rfl

end Calls

end RaftKV.Raft.Bounds
