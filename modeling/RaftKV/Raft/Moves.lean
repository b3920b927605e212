import RaftKV.Raft.Durability

/-!
Every call of the core as a chain of elementary moves, each with what the code
has checked before it. What a single move preserves, every call preserves.
-/

namespace RaftKV.Raft.Moves

open Raft.Durability

/-- The core `c` with the timers and hints of `t`. -/
def retimed (c t : Core) : Core :=
  { c with
    leaderID := t.leaderID
    electionElapsed := t.electionElapsed
    electionTimeout := t.electionTimeout
    heartbeatElapsed := t.heartbeatElapsed
    rng := t.rng
    ticksSinceLeader := t.ticksSinceLeader
    preVotes := t.preVotes
    configVersion := t.configVersion
    transferTarget := t.transferTarget
    transferTicks := t.transferTicks }

/-- The term in which an event claims that another node leads. -/
def asserted : Event → Option Nat
  | .appendEntries req => some req.term
  | .installSnapshot req => some req.term
  | .timeoutNow req => some req.term
  | _ => none

/-- Whether an event appends configuration entries of the core's own. -/
def changing : Event → Bool
  | .confChange _ => true
  | .propose _ typ => typ = .config
  | _ => false

/-- The event asks a leader to append an entry like `e`. -/
def Requests (ev : Event) (e : Entry) : Prop :=
  ev = .propose e.command e.type ∨
    ∃ cc, ev = .confChange cc ∧ e.type = .config ∧ e.command = encodeConfChange cc

/-- Who acknowledges what: the peer, the term, and the index it has everything up
to. -/
def acknowledged : Event → Option (ID × Nat × Nat)
  | .appendResp sender req resp =>
      if resp.success then some (sender, req.term, req.prevLogIndex + req.entries.length) else none
  | .snapshotResp sender req _ => some (sender, req.term, req.lastIncludedIndex)
  | _ => none

/-- The core has asked for nothing but pre-votes since its outbox was `out`. -/
def Unasked (out : List Outbound) (c : Core) : Prop :=
  ∀ o ∈ c.outbox, o ∈ out ∨ ∃ req, o.msg = .requestVote req ∧ req.preVote = true

/-- The event answers an append request of term `t`. -/
def Answers (ev : Event) (t : Nat) : Prop :=
  ∃ sender req resp, ev = .appendResp sender req resp ∧ req.term = t

/-- A node that may send append requests: a leader, or one that has just stopped
leading. -/
def Sends (ev : Event) (c : Core) : Prop :=
  c.role = .leader ∨ c.role = .follower ∧ 0 < lastLogIndex c ∧ Answers ev c.term

/-- The peer whose acknowledgement or rejection an event brings. -/
def correspondent : Event → Option ID
  | .appendResp sender _ _ => some sender
  | .snapshotResp sender _ _ => some sender
  | _ => none

/-- Whom a core may write to while it handles `ev`. -/
def Addressed (ev : Event) (c : Core) (peer : ID) : Prop :=
  peer ∈ peerIDs c ∨ correspondent ev = some peer

/-- The snapshot that a request installs, once its configuration is decoded. -/
def carried (req : InstallSnapshotRequest) (config : Members) : Snapshot where
  lastIndex := req.lastIncludedIndex
  lastTerm := req.lastIncludedTerm
  config := config
  data := req.data

/-- What a core does in one go while it handles `ev`, in a call that began with the outbox
`out`. -/
inductive MoveFrom (out : List Outbound) (ev : Event) : Core → Core → Prop
  | drift {c : Core} (t : Core)
      (hprobe : t.preVotes.isSome = true → c.preVotes.isSome = true ∨ isMember c = true) :
      MoveFrom out ev c (retimed c t)
  | stepDown {c : Core} (term : Nat) (h : c.term < term) (hask : Unasked out c) :
      MoveFrom out ev c (stepDown c term)
  | recognize {c : Core} (leaderId : ID) (h : asserted ev = some c.term)
      (hask : Unasked out c) : MoveFrom out ev c (recognizeLeader c leaderId)
  | grant {c : Core} (req : RequestVoteRequest) (hask : Unasked out c)
      (hfree : c.votedFor = noVote ∨ c.votedFor = req.candidateId) :
      MoveFrom out ev c (grantVote c req.candidateId)
  | campaign {c : Core} (h : c.role ≠ .leader ∨ asserted ev = some c.term) (hask : Unasked out c)
      (hrun : isMember c = true ∨ c.preVotes.isSome = true ∨ ∃ req, ev = .timeoutNow req) :
      MoveFrom out ev c (becomeCandidate c)
  | ask {c : Core} (req : RequestVoteRequest)
      (h : req.preVote = false → req.term = c.term ∧ req.candidateId = c.votedFor)
      (hid : req.candidateId = c.cfg.id) : MoveFrom out ev c
        { c with outbox := c.outbox ++ (peerIDs c).map fun id => ⟨id, .requestVote req⟩ }
  | count {c : Core} (sender : ID) (resp : RequestVoteResponse)
      (hev : ev = .voteResp sender c.term false resp) (hgrant : resp.voteGranted = true)
      (hrole : c.role = .candidate) : MoveFrom out ev c { c with votes := insert sender c.votes }
  | win {c : Core} (hrole : c.role = .candidate) (hvotes : majority c ≤ c.votes.card) :
      MoveFrom out ev c (appendOwn (becomeLeader c) (noopEntry (becomeLeader c)))
  | own {c : Core} (e : Entry) (hrole : c.role = .leader) (hterm : e.term = c.term)
      (hindex : e.index = lastLogIndex c + 1) (htype : e.type = .config → changing ev = true)
      (hnormal : e.type = .normal → ev = .propose e.command .normal)
      (hmade : Requests ev e) : MoveFrom out ev c (appendOwn c e)
  | send {c : Core} (o : Outbound) (seq : Nat) (hrole : Sends ev c)
      (hdest : Addressed ev c o.dest) (hle : c.appendSeq ≤ seq) (hsent : Sent c seq o) :
      MoveFrom out ev c { c with outbox := c.outbox ++ [o], appendSeq := seq }
  | fire {c : Core} (peer : ID) (hrole : Sends ev c) (hdest : Addressed ev c peer) :
      MoveFrom out ev c (sendTimeoutNow c peer)
  | advance {c : Core} (n : Nat) (hrole : c.role = .leader) (h : Advances c n) :
      MoveFrom out ev c (deliverCommitted { c with commitIndex := n })
  | follow {c : Core} (req : AppendEntriesRequest) (hev : ev = .appendEntries req)
      (hterm : req.term = c.term) (hrole : c.role = .follower)
      (hreach : Numbered req.prevLogIndex req.entries →
        req.prevLogIndex + req.entries.length ≤ lastLogIndex c)
      (hlt : c.commitIndex < req.leaderCommit) : MoveFrom out ev c (deliverCommitted
        { c with commitIndex := min req.leaderCommit (req.prevLogIndex + req.entries.length) })
  | change {c : Core} (cc : ConfChange) (index : Nat) (hev : ev = .confChange cc) :
      MoveFrom out ev c (applyConfChange c cc index)
  | accept {c : Core} (req : AppendEntriesRequest) (hev : ev = .appendEntries req)
      (hterm : req.term = c.term) (hrole : c.role = .follower) (hacc : Accepted c req) :
      MoveFrom out ev c (appendNew c req.entries).1
  | ack {c : Core} (sender : ID) (req : AppendEntriesRequest) (resp : AppendEntriesResponse)
      (hev : ev = .appendResp sender req resp) (hrole : c.role = .leader)
      (hterm : req.term = c.term) (hsuccess : resp.success = true) : MoveFrom out ev c
        { c with
          readOutcomes := (noteFreshAck c sender resp.seq).readOutcomes
          pendingReads := (noteFreshAck c sender resp.seq).pendingReads }
  | note {c : Core} (peer : ID) (m : Nat) (hev : acknowledged ev = some (peer, c.term, m))
      (hrole : c.role = .leader) (hlt : matchIndexOf c peer < m) :
      MoveFrom out ev c (noteMatch c peer m)
  | retry {c : Core} (sender : ID) (req : AppendEntriesRequest) (resp : AppendEntriesResponse)
      (hev : ev = .appendResp sender req resp) (hrole : c.role = .leader)
      (hterm : req.term = c.term) (hfail : resp.success = false) :
      MoveFrom out ev c (backUp c sender resp)
  | read {c : Core} (hev : ev = .read) (hrole : c.role = .leader)
      (hterm : termAt c c.commitIndex = c.term) :
      MoveFrom out ev c (confirmReads (registerRead c)).1
  | install {c : Core} (req : InstallSnapshotRequest) (config : Members)
      (hev : ev = .installSnapshot req) (hterm : req.term = c.term) (hrole : c.role = .follower)
      (hsnap : c.snapIndex < req.lastIncludedIndex)
      (hcommit : c.commitIndex < req.lastIncludedIndex)
      (hconfig : decodeMembers req.config = .ok config) :
      MoveFrom out ev c (install c (carried req config))

abbrev Reaches (out : List Outbound) (ev : Event) : Core → Core → Prop :=
  Relation.ReflTransGen (MoveFrom out ev)

/-- The moves of a call that finds nothing left to send. -/
abbrev Move := MoveFrom []

variable {out : List Outbound} {ev : Event} {c c' c'' : Core}

/-- What holds before a call and is kept by every move holds after the call. -/
theorem moves_induction {Q : Core → Prop} (h : Reaches out ev c c') (hc : Q c)
    (hmove : ∀ a b, MoveFrom out ev a b → Q a → Q b) : Q c' := by
  induction h with
  | refl => exact hc
  | tail _ hstep ih => exact hmove _ _ hstep ih

theorem MoveFrom.drifts (h : c' = retimed c c')
    (hprobe : c'.preVotes.isSome = true → c.preVotes.isSome = true ∨ isMember c = true) :
    MoveFrom out ev c c' := by
  rw [h]
  exact .drift c' hprobe

theorem moves_drift (h : c' = retimed c c') (hprobe : c'.preVotes = c.preVotes) :
    Reaches out ev c c' :=
  .single (.drifts h fun hsome => Or.inl (hprobe ▸ hsome))

theorem moves_of_drift (h : Reaches out ev c' c'') (hd : c' = retimed c c')
    (hprobe : c'.preVotes = c.preVotes) : Reaches out ev c c'' :=
  (moves_drift hd hprobe).trans h

theorem MoveFrom.asks (req : RequestVoteRequest)
    (h : req.preVote = false → req.term = c.term ∧ req.candidateId = c.votedFor)
    (hid : req.candidateId = c.cfg.id) : MoveFrom out ev c (broadcast c (.requestVote req)) := by
  rw [broadcast_eq]
  exact .ask req h hid

theorem MoveFrom.acks {sender : ID} {req : AppendEntriesRequest} {resp : AppendEntriesResponse}
    (hev : ev = .appendResp sender req resp) (hrole : c.role = .leader)
    (hterm : req.term = c.term) (hsuccess : resp.success = true) :
    MoveFrom out ev c (noteFreshAck c sender resp.seq) := by
  rw [noteFreshAck_eq]
  exact .ack sender req resp hev hrole hterm hsuccess

theorem MoveFrom.sends {peer : ID} (hrole : Sends ev c) (hdest : Addressed ev c peer) :
    MoveFrom out ev c (sendAppend c peer) := by
  obtain ⟨o, ho, rfl⟩ := replicates_sendAppend c peer
  rw [ho.eq]
  exact .send o _ hrole hdest ho.le (ho.sent o (List.mem_singleton_self o))

theorem unasked_of_eq (h : c.outbox = out) : Unasked out c :=
  fun _ ho => Or.inl (h ▸ ho)

theorem moves_adoptTerm (h : c.outbox = out) (term : Nat) :
    Reaches out ev c (adoptTerm c term) := by
  unfold adoptTerm
  split
  · rename_i hlt
    exact .single (.stepDown term hlt (unasked_of_eq h))
  · exact .refl

theorem outbox_adoptTerm (c : Core) (term : Nat) : (adoptTerm c term).outbox = c.outbox := by
  unfold adoptTerm
  split <;> rfl

theorem moves_sends {peers : List ID} (hrole : c.role = .leader) (hpeers : peers ⊆ peerIDs c) :
    Reaches out ev c (peers.foldl sendAppend c) := by
  induction peers generalizing c with
  | nil => exact .refl
  | cons peer peers ih =>
      obtain ⟨hpeer, hrest⟩ := List.cons_subset.mp hpeers
      obtain ⟨o, ho, -⟩ := replicates_sendAppend c peer
      refine .head (.sends (Or.inl hrole) (Or.inl hpeer)) (ih ?_ ?_) <;> rw [ho.eq]
      · exact hrole
      · exact hrest

theorem moves_broadcastAppends (hrole : c.role = .leader) :
    Reaches out ev c (broadcastAppends c) :=
  moves_sends hrole (List.Subset.refl _)

theorem moves_maybeAdvanceCommit (hrole : c.role = .leader) :
    Reaches out ev c (maybeAdvanceCommit c) := by
  rcases maybeAdvanceCommit_cases c with heq | ⟨n, hn, heq⟩
  · rw [heq]
  · rw [heq]
    exact .single (.advance n hrole hn)

theorem moves_replicate (hrole : c.role = .leader) :
    Reaches out ev c (maybeAdvanceCommit (broadcastAppends c)) := by
  have hlead : (broadcastAppends c).role = .leader := by
    obtain ⟨sent, hsent, -⟩ := replicates_broadcastAppends c
    rw [hsent.eq]
    exact hrole
  exact (moves_broadcastAppends hrole).trans (moves_maybeAdvanceCommit hlead)

theorem moves_maybeWinElection (c : Core) : Reaches out ev c (maybeWinElection c) := by
  unfold maybeWinElection
  split
  · exact .refl
  · rename_i hwon
    obtain ⟨hrole, hvotes⟩ := not_or.mp hwon
    exact .head (.win (not_not.mp hrole) (Nat.le_of_not_lt hvotes)) (moves_replicate rfl)

theorem moves_startCampaign (h : c.role ≠ .leader ∨ asserted ev = some c.term)
    (hask : Unasked out c)
    (hrun : isMember c = true ∨ c.preVotes.isSome = true ∨ ∃ req, ev = .timeoutNow req) :
    Reaches out ev c (startCampaign c) :=
  .trans (.single (.campaign h hask hrun))
    (.trans (.single (.asks _ (fun _ => ⟨rfl, rfl⟩) rfl)) (moves_maybeWinElection _))

theorem moves_maybeWinPreVote (h : c.role ≠ .leader) (hask : Unasked out c) :
    Reaches out ev c (maybeWinPreVote c) := by
  unfold maybeWinPreVote
  split
  · exact .refl
  · rename_i votes hvotes
    split
    · exact .refl
    · have hrun : c.preVotes.isSome = true := by
        rw [hvotes]
        rfl
      -- The round is given up once the campaign has begun.
      refine .head (.campaign (Or.inl h) hask (Or.inr (Or.inl hrun))) ?_
      refine .head
        (@MoveFrom.drifts out ev _ (becomeCandidate { c with preVotes := none }) rfl ?_) ?_
      · rintro ⟨⟩
      exact .head (.asks _ (fun _ => ⟨rfl, rfl⟩) rfl) (moves_maybeWinElection _)

theorem unasked_preVotes (h : c.outbox = out) (term : Nat) :
    Unasked out (broadcast c (.requestVote (voteRequest c term true))) := by
  intro o ho
  rw [broadcast_eq, h] at ho
  refine (List.mem_append.mp ho).imp_right fun hnew => ?_
  obtain ⟨id, -, rfl⟩ := List.mem_map.mp hnew
  exact ⟨_, rfl, rfl⟩

theorem moves_startPreCampaign (h : c.role ≠ .leader) (hout : c.outbox = out)
    (hmem : isMember c = true) : Reaches out ev c (startPreCampaign c) := by
  have hpre : Reaches out ev c (becomePreCandidate c) := .single (.drifts rfl fun _ => Or.inr hmem)
  have hask := @unasked_preVotes out (becomePreCandidate c) hout (c.term + 1)
  have hrole : (broadcast (becomePreCandidate c)
      (.requestVote (voteRequest (becomePreCandidate c) (c.term + 1) true))).role ≠ .leader := by
    rw [broadcast_eq]
    exact h
  exact hpre.trans (.trans (.single (.asks _ (fun hf => by cases hf) rfl))
    (moves_maybeWinPreVote hrole hask))

theorem moves_tick (hout : c.outbox = out) : Reaches out ev c (tick c) := by
  unfold tick
  split
  · rename_i hrole
    have hclock : Reaches out ev c (leaderClock c) := moves_drift rfl rfl
    unfold leaderTick
    dsimp only
    split
    · exact moves_of_drift (moves_broadcastAppends hrole) rfl rfl
    · exact hclock
  · rename_i hrole
    have hclock : Reaches out ev c (followerClock c) := moves_drift rfl rfl
    dsimp only
    split
    · unfold electionTimedOut
      split
      · exact hclock.trans (moves_drift rfl rfl)
      · rename_i hmem
        rw [Bool.not_eq_false] at hmem
        split
        · exact hclock.trans
            (moves_startCampaign (Or.inl hrole) (unasked_of_eq hout) (Or.inl hmem))
        · exact hclock.trans (moves_startPreCampaign hrole hout hmem)
    · exact hclock

theorem moves_handleRequestVote (hout : c.outbox = out) (req : RequestVoteRequest) :
    Reaches out ev c (handleRequestVote c req).1 := by
  unfold handleRequestVote
  split
  · exact .refl
  · have hadopt : Reaches out ev c (adoptTerm c req.term) := moves_adoptTerm hout req.term
    have hask : Unasked out (adoptTerm c req.term) :=
      unasked_of_eq ((outbox_adoptTerm c req.term).trans hout)
    dsimp only
    split
    · exact hadopt
    · split
      · rename_i hvote
        exact hadopt.tail (.grant req hask hvote.1)
      · exact hadopt

theorem moves_handleVoteResponse (hout : c.outbox = out) {sender : ID} {campaignTerm : Nat}
    {resp : RequestVoteResponse} (hev : ev = .voteResp sender campaignTerm false resp) :
    Reaches out ev c (handleVoteResponse c sender campaignTerm resp) := by
  unfold handleVoteResponse
  split
  · rename_i hlt
    exact .single (.stepDown _ hlt (unasked_of_eq hout))
  · split
    · exact .refl
    · rename_i hcond
      obtain ⟨hrole, hterm⟩ := not_or.mp hcond
      split
      · rename_i hgrant
        exact .head (.count sender resp (not_not.mp hterm ▸ hev) hgrant (not_not.mp hrole))
          (moves_maybeWinElection _)
      · exact .refl

theorem moves_handlePreVoteResponse (hout : c.outbox = out) (sender : ID) (askedTerm : Nat)
    (resp : RequestVoteResponse) :
    Reaches out ev c (handlePreVoteResponse c sender askedTerm resp) := by
  unfold handlePreVoteResponse
  split
  · rename_i hlt
    exact .single (.stepDown _ hlt (unasked_of_eq hout))
  · split
    · exact .refl
    · rename_i votes hvotes
      split
      · exact .refl
      · rename_i hcond
        have hrole : c.role ≠ .leader := by
          rw [not_not.mp (not_or.mp hcond).1]
          exact Role.noConfusion
        split
        · have hdrift : MoveFrom out ev c { c with preVotes := some (insert sender votes) } :=
            .drifts rfl fun _ => Or.inl (by rw [hvotes]; rfl)
          exact .head hdrift (moves_maybeWinPreVote hrole (unasked_of_eq hout))
        · exact .refl

theorem term_adoptTerm {c : Core} {term : Nat} (h : ¬ term < (adoptTerm c term).term) :
    term = (adoptTerm c term).term := by
  unfold adoptTerm at h ⊢
  split
  · rfl
  · rename_i hlt
    rw [if_neg hlt] at h
    omega

theorem le_of_adoptTerm {term : Nat} (h : ¬ term < (adoptTerm c term).term) : c.term ≤ term := by
  unfold adoptTerm at h
  split at h <;> omega

theorem vote_of_granted {c : Core} {req : RequestVoteRequest} (hreq : req.preVote = false)
    (h : (handleRequestVote c req).2.voteGranted = true) :
    (handleRequestVote c req).1.term = req.term ∧
      (handleRequestVote c req).1.votedFor = req.candidateId := by
  unfold handleRequestVote at h ⊢
  rw [if_neg (by simp [hreq])] at h ⊢
  dsimp only at h ⊢
  split at h
  · cases h
  · rename_i hterm
    rw [if_neg hterm]
    split at h
    · rename_i hfree
      rw [if_pos hfree]
      exact ⟨(term_adoptTerm hterm).symm, rfl⟩
    · cases h

theorem moves_handleTimeoutNow (hout : c.outbox = out) {req : TimeoutNowRequest}
    (hev : ev = .timeoutNow req) : Reaches out ev c (handleTimeoutNow c req) := by
  have hadopt : Reaches out ev c (adoptTerm c req.term) := moves_adoptTerm hout req.term
  unfold handleTimeoutNow
  dsimp only
  split
  · exact hadopt
  · rename_i hterm
    have hcur : asserted ev = some (adoptTerm c req.term).term := by
      rw [hev, ← term_adoptTerm hterm]
      rfl
    exact hadopt.trans (moves_startCampaign (Or.inr hcur)
      (unasked_of_eq ((outbox_adoptTerm c req.term).trans hout)) (Or.inr (Or.inr ⟨req, hev⟩)))

theorem moves_handleAppendEntries (hout : c.outbox = out) {req : AppendEntriesRequest}
    (hev : ev = .appendEntries req) : Reaches out ev c (handleAppendEntries c req).1 := by
  have hadopt : Reaches out ev c (adoptTerm c req.term) := moves_adoptTerm hout req.term
  rcases Nat.lt_or_ge req.term (adoptTerm c req.term).term with hlt | hge
  · have hstale : (handleAppendEntries c req).1 = adoptTerm c req.term := by
      unfold handleAppendEntries
      dsimp only
      rw [if_pos hlt]
    rw [hstale]
    exact hadopt
  · have hterm := term_adoptTerm hge.not_gt
    have hcur : asserted ev = some (adoptTerm c req.term).term := by
      rw [hev, ← hterm]
      rfl
    have hrec := hadopt.tail (.recognize req.leaderId hcur
      (unasked_of_eq ((outbox_adoptTerm c req.term).trans hout)))
    rcases handleAppendEntries_cases c req with
      ⟨resp, heq, -⟩ | ⟨resp, heq, -⟩ | ⟨-, hok, ⟨c', err, hnew, heq⟩ | ⟨c', resp, hnew, heq, -⟩⟩
    · rw [heq]
      exact hadopt
    · rw [heq]
      exact hrec
    all_goals
      have hacc := hrec.tail (.accept req hev hterm rfl hok)
      have hsame := appendNew_eq (recognizeLeader (adoptTerm c req.term) req.leaderId) req.entries
      rw [hnew] at hacc hsame
      rw [heq]
    · exact hacc
    · dsimp only [followCommit]
      split
      · rename_i hlt
        refine hacc.tail (.follow req hev ?_ ?_
          (fun hnum => le_lastLogIndex_of_appendNew hnum hok hnew) hlt)
        · rw [hsame]
          exact hterm
        · rw [hsame]
          rfl
      · exact hacc

theorem moves_handleInstallSnapshot (hout : c.outbox = out) {req : InstallSnapshotRequest}
    (hev : ev = .installSnapshot req) : Reaches out ev c (handleInstallSnapshot c req).1 := by
  have hadopt : Reaches out ev c (adoptTerm c req.term) := moves_adoptTerm hout req.term
  unfold handleInstallSnapshot
  dsimp only
  split
  · exact hadopt
  · rename_i hterm
    have hterm := term_adoptTerm hterm
    have hcur : asserted ev = some (adoptTerm c req.term).term := by
      rw [hev, ← hterm]
      rfl
    have hrec := hadopt.tail (.recognize req.leaderId hcur
      (unasked_of_eq ((outbox_adoptTerm c req.term).trans hout)))
    split
    · exact hrec
    · rename_i hnew
      obtain ⟨hsnap, hcommit⟩ := not_or.mp hnew
      split
      · exact hrec
      · rename_i config hconfig
        exact hrec.tail (.install req config hev hterm rfl (Nat.lt_of_not_le hsnap)
          (Nat.lt_of_not_le hcommit) hconfig)

theorem moves_feed {sender : ID} (hrole : Sends ev c) (hev : correspondent ev = some sender) :
    Reaches out ev c (feed c sender) := by
  unfold feed
  split
  · exact .single (.sends hrole (Or.inr hev))
  · exact .refl

theorem sends_maybeAdvanceCommit (h : c.role = .leader) (hev : Answers ev c.term) :
    Sends ev (maybeAdvanceCommit c) := by
  rcases maybeAdvanceCommit_cases c with heq | ⟨n, hn, heq⟩
  · rw [heq]
    exact Or.inl h
  · obtain ⟨c', hq, hdel⟩ := deliverCommitted_cases { c with commitIndex := n }
    rw [heq, hdel]
    cases hq with
    | stay => exact Or.inl h
    | leave e he hconf hrole hmem =>
        exact Or.inr ⟨rfl, (Nat.zero_lt_of_lt hn.lt).trans_le hn.le, hev⟩

theorem moves_noteAck {sender : ID} {m : Nat}
    (hev : acknowledged ev = some (sender, c.term, m)) (hrole : c.role = .leader) :
    Reaches out ev c (noteAck c sender m) := by
  unfold noteAck
  split
  · rename_i hlt
    have hnote : (noteMatch c sender m).role = .leader := hrole
    exact .head (.note sender m hev hrole hlt) (moves_maybeAdvanceCommit hnote)
  · exact .refl

theorem sends_noteAck (hrole : c.role = .leader) (hev : Answers ev c.term) (sender : ID)
    (m : Nat) : Sends ev (noteAck c sender m) := by
  unfold noteAck
  split
  · have hnote : (noteMatch c sender m).role = .leader := hrole
    exact sends_maybeAdvanceCommit hnote hev
  · exact Or.inl hrole

theorem moves_fireTransfer {sender : ID} (h : Sends ev c) (hev : correspondent ev = some sender) :
    Reaches out ev c (fireTransfer c sender) := by
  unfold fireTransfer
  split
  · exact .single (.fire sender h (Or.inr hev))
  · exact .refl

theorem sends_fireTransfer (sender : ID) (h : Sends ev c) : Sends ev (fireTransfer c sender) := by
  unfold fireTransfer
  split <;> exact h

theorem moves_handleAppendResponse (hout : c.outbox = out) {sender : ID}
    {req : AppendEntriesRequest} {resp : AppendEntriesResponse}
    (hev : ev = .appendResp sender req resp) :
    Reaches out ev c (handleAppendResponse c sender req resp) := by
  have hpeer : correspondent ev = some sender := by rw [hev]; rfl
  unfold handleAppendResponse
  split
  · rename_i hlt
    exact .single (.stepDown _ hlt (unasked_of_eq hout))
  · split
    · exact .refl
    · rename_i hcond
      have hrole : c.role = .leader := not_not.mp (not_or.mp hcond).1
      have hterm : req.term = c.term := not_not.mp (not_or.mp hcond).2
      split
      · rename_i hsuccess
        have hsame := noteFreshAck_eq c sender resp.seq
        have hack : Reaches out ev c (noteFreshAck c sender resp.seq) :=
          .single (.acks hev hrole hterm hsuccess)
        have hev' : acknowledged ev = some (sender, (noteFreshAck c sender resp.seq).term,
            req.prevLogIndex + req.entries.length) := by
          rw [hev, hsame, acknowledged, if_pos hsuccess, hterm]
        have hrole' : (noteFreshAck c sender resp.seq).role = .leader := by
          rw [hsame]
          exact hrole
        have hanswer : Answers ev (noteFreshAck c sender resp.seq).term := by
          rw [hsame]
          exact ⟨sender, req, resp, hev, hterm⟩
        have hsends := sends_noteAck hrole' hanswer sender (req.prevLogIndex + req.entries.length)
        exact hack.trans ((moves_noteAck hev' hrole').trans
          ((moves_fireTransfer hsends hpeer).trans
            (moves_feed (sends_fireTransfer sender hsends) hpeer)))
      · rename_i hfail
        have hback : Reaches out ev c (backUp c sender resp) :=
          .single (.retry sender req resp hev hrole hterm (Bool.eq_false_iff.mpr hfail))
        exact hback.tail (.sends (Or.inl hrole) (Or.inr hpeer))

theorem moves_handleInstallSnapshotResponse (hout : c.outbox = out) {sender : ID}
    {req : InstallSnapshotRequest} {resp : InstallSnapshotResponse}
    (hev : ev = .snapshotResp sender req resp) :
    Reaches out ev c (handleInstallSnapshotResponse c sender req resp) := by
  have hpeer : correspondent ev = some sender := by rw [hev]; rfl
  unfold handleInstallSnapshotResponse
  split
  · rename_i hlt
    exact .single (.stepDown _ hlt (unasked_of_eq hout))
  · split
    · exact .refl
    · rename_i hcond
      have hrole : c.role = .leader := not_not.mp (not_or.mp hcond).1
      have hterm : req.term = c.term := not_not.mp (not_or.mp hcond).2
      unfold noteSnapshot
      split
      · rename_i hlt
        have hev' : acknowledged ev = some (sender, c.term, req.lastIncludedIndex) := by
          rw [hev, acknowledged, hterm]
        exact .head (.note sender _ hev' hrole hlt) (moves_feed (Or.inl hrole) hpeer)
      · exact moves_feed (Or.inl hrole) hpeer

theorem moves_propose {command : Command} {typ : EntryType} (hev : ev = .propose command typ) :
    Reaches out ev c (propose c command typ).1 := by
  rcases propose_cases c command typ with ⟨err, heq⟩ | ⟨hrole, -, heq⟩
  · rw [heq]
  · rw [heq, hev]
    exact .head (.own _ hrole rfl rfl decide_eq_true (fun h => congrArg _ h) (Or.inl rfl))
      (moves_replicate hrole)

theorem moves_proposeConfChange {cc : ConfChange} (hev : ev = .confChange cc) :
    Reaches out ev c (proposeConfChange c cc).1 := by
  rcases proposeConfChange_cases c cc with ⟨err, heq⟩ | ⟨hrole, -, heq⟩
  · rw [heq]
  · rw [heq]
    refine .tail ?_ (.change cc _ hev)
    exact .head (.own _ hrole rfl rfl (fun _ => by rw [hev]; rfl) (by rintro ⟨⟩)
      (Or.inr ⟨cc, hev, rfl, rfl⟩)) (moves_replicate hrole)

theorem moves_transferLeadership (target : ID) :
    Reaches out ev c (transferLeadership c target).1 := by
  unfold transferLeadership
  split
  · exact .refl
  · rename_i hrole
    split
    · exact .refl
    · rename_i hne
      split
      · exact .refl
      · rename_i hmem
        have hpeer : target ∈ peerIDs c :=
          List.mem_filter.mpr ⟨Std.ExtTreeMap.mem_keys.mpr (not_not.mp hmem), decide_eq_true hne⟩
        have hsends : Sends ev c := Or.inl (not_not.mp hrole)
        dsimp only
        split
        · exact moves_of_drift (.single (.fire target hsends (Or.inl hpeer))) rfl rfl
        · exact moves_of_drift (.single (.sends hsends (Or.inl hpeer))) rfl rfl

theorem moves_requestRead (hev : ev = .read) : Reaches out ev c (requestRead c).1 := by
  unfold requestRead
  split
  · exact .refl
  · rename_i hrole
    split
    · exact .refl
    · rename_i hterm
      have hread : Reaches out ev c (confirmReads (registerRead c)).1 :=
        .single (.read hev (not_not.mp hrole) (not_not.mp hterm))
      dsimp only
      split
      · exact hread
      · exact hread.trans (moves_broadcastAppends (not_not.mp hrole))

/-- Every call is a chain of moves. -/
theorem moves_handle (hout : c.outbox = out) (ev : Event) : Reaches out ev c (handle c ev).1 := by
  cases ev with
  | tick => exact moves_tick hout
  | requestVote req => exact moves_handleRequestVote hout req
  | appendEntries req => exact moves_handleAppendEntries hout rfl
  | installSnapshot req => exact moves_handleInstallSnapshot hout rfl
  | timeoutNow req => exact moves_handleTimeoutNow hout rfl
  | voteResp sender campaignTerm preVote resp =>
      unfold handle
      dsimp only
      split
      · exact moves_handlePreVoteResponse hout sender campaignTerm resp
      · rename_i hpre
        rw [Bool.eq_false_iff.mpr hpre]
        exact moves_handleVoteResponse hout rfl
  | appendResp sender req resp => exact moves_handleAppendResponse hout rfl
  | snapshotResp sender req resp => exact moves_handleInstallSnapshotResponse hout rfl
  | propose command typ => exact moves_propose rfl
  | confChange cc => exact moves_proposeConfChange rfl
  | transfer target => exact moves_transferLeadership target
  | read => exact moves_requestRead rfl

theorem moves_taken (ev : Event) : Reaches [] ev (takeQueues c) (handle (takeQueues c) ev).1 :=
  @moves_handle [] (takeQueues c) rfl ev

theorem ne_candidate_of_sends (h : Sends ev c) : c.role ≠ .candidate := by
  rcases h with hlead | ⟨hfollow, -⟩
  · rw [hlead]
    exact Role.noConfusion
  · rw [hfollow]
    exact Role.noConfusion

/-- What a core that handles `ev` adds to its outbox, with numbers up to `seq`. -/
inductive Posted (ev : Event) (c : Core) (seq : Nat) : Outbound → Prop
  | vote (dest : ID) (req : RequestVoteRequest) (hdest : dest ∈ peerIDs c)
      (h : req.preVote = false → req.term = c.term ∧ req.candidateId = c.votedFor)
      (hid : req.candidateId = c.cfg.id) : Posted ev c seq ⟨dest, .requestVote req⟩
  | sent {o : Outbound} (hrole : Sends ev c) (hdest : Addressed ev c o.dest) (h : Sent c seq o) :
      Posted ev c seq o
  | timeoutNow (dest : ID) (hrole : Sends ev c) (hdest : Addressed ev c dest) :
      Posted ev c seq ⟨dest, .timeoutNow ⟨c.term, c.cfg.id⟩⟩

theorem outbox_deliverCommitted (c : Core) : (deliverCommitted c).outbox = c.outbox := by
  obtain ⟨c', hq, heq⟩ := deliverCommitted_cases c
  rw [heq]
  cases hq <;> rfl

theorem mem_outbox_move (hmove : MoveFrom out ev c c') {o : Outbound} (ho : o ∈ c'.outbox) :
    o ∈ c.outbox ∨ c'.term = c.term ∧ c'.role = c.role ∧ Posted ev c c'.appendSeq o := by
  cases hmove with
  | ask req hreq hid =>
      refine (List.mem_append.mp ho).imp_right fun hnew => ⟨rfl, rfl, ?_⟩
      obtain ⟨dest, hdest, rfl⟩ := List.mem_map.mp hnew
      exact .vote dest req hdest hreq hid
  | send o' seq hrole hdest hle hsent =>
      refine (List.mem_append.mp ho).imp_right fun hnew => ⟨rfl, rfl, ?_⟩
      obtain rfl := List.mem_singleton.mp hnew
      exact .sent hrole hdest hsent
  | fire peer hrole hdest =>
      refine (List.mem_append.mp ho).imp_right fun hnew => ⟨rfl, rfl, ?_⟩
      obtain rfl := List.mem_singleton.mp hnew
      exact .timeoutNow peer hrole hdest
  | advance | follow =>
      rw [outbox_deliverCommitted] at ho
      exact Or.inl ho
  | accept =>
      rw [appendNew_eq] at ho
      exact Or.inl ho
  | drift | stepDown | recognize | grant | campaign | win | own | change | count | ack | note
  | retry | read | install => exact Or.inl ho

section Files

variable {M : Members}

theorem durable_move (hev : Proper ev) (hno : ∀ cc, ev ≠ .confChange cc)
    (hmove : MoveFrom out ev c c') (h : Durable M c) : Durable M c' := by
  cases hmove with
  | stepDown | campaign =>
      exact
        { saved := { h.saved with state := rfl }
          cursors := cursors_of_eq h.cursors rfl rfl rfl
          members := h.members }
  | grant req =>
      exact
        { saved := saved_grantVote h.saved req.candidateId
          cursors := cursors_of_eq h.cursors rfl rfl rfl
          members := h.members }
  | win hrole =>
      have hlead : Durable M (becomeLeader c) := durable_volatile h rfl rfl rfl
      exact durable_appendOwn hlead rfl (changeOf_of_type_ne (by simp [noopEntry]))
  | own e hrole hterm hindex htype hnormal hmade =>
      refine durable_appendOwn h hindex (changeOf_of_type_ne ?_)
      rcases hmade with rfl | ⟨cc, hcc, -⟩
      · exact hev
      · exact absurd hcc (hno cc)
  | advance n hrole hn => exact durable_deliverCommitted h (Nat.zero_lt_of_lt hn.lt)
  | follow req hreq =>
      subst hreq
      have := hev.reach_pos
      exact durable_deliverCommitted h (by omega)
  | accept req hreq hterm hrole hacc =>
      subst hreq
      exact durable_appendNew h hev hacc
  | install req config hreq hterm hrole hsnap => exact durable_install h _ hsnap
  | change cc index hcc => exact absurd hcc (hno cc)
  | drift | recognize | ask | send | fire | ack | count | note | retry | read =>
      exact durable_volatile h rfl rfl rfl

theorem durable_handle (h : Durable M c) (hev : Proper ev) : Durable M (handle c ev).1 := by
  by_cases hcc : ∃ cc, ev = .confChange cc
  · obtain ⟨cc, rfl⟩ := hcc
    exact durable_proposeConfChange h hev
  · exact moves_induction (moves_handle rfl ev) h fun _ _ =>
      durable_move hev fun cc heq => hcc ⟨cc, heq⟩

end Files

end RaftKV.Raft.Moves
