import RaftKV.Raft.Moves

namespace RaftKV.Raft.Commits

open Raft.Durability Raft.Moves

variable {ev : Event} {a c c' c'' : Core}

section Outcomes

structure Seat where
  id : ID
  commitIndex : Nat
  lastDelivered : Nat
  members : Members
  lastConfigIndex : Nat

def seat (c : Core) : Seat where
  id := c.cfg.id
  commitIndex := c.commitIndex
  lastDelivered := c.lastDelivered
  members := c.members
  lastConfigIndex := c.lastConfigIndex

structure Tally where
  seat : Seat
  role : Role
  term : Nat
  entries : List Entry
  snapIndex : Nat
  snapTerm : Nat
  snapConfig : Members
  matchIndex : ID → Option Nat

def tally (c : Core) : Tally where
  seat := seat c
  role := c.role
  term := c.term
  entries := c.entries
  snapIndex := c.snapIndex
  snapTerm := c.snapTerm
  snapConfig := c.snapConfig
  matchIndex := c.matchIndex

/-- Whether an event makes a follower campaign. -/
def runs (c : Core) : Event → Bool
  | .tick => isMember c
  | .timeoutNow req => c.term ≤ req.term
  | .voteResp _ _ preVote resp => preVote ∧ resp.voteGranted ∧ c.preVotes.isSome
  | _ => false

/-- The first acts of a leader, before it counts. -/
def installed (a : Core) : Core :=
  broadcastAppends (appendOwn (becomeLeader a) (noopEntry (becomeLeader a)))

/-- The candidate `a` is `c` as far as its log and its configuration are concerned, and has
asked for votes in this very call only if it needs no other. -/
structure Wins (c a : Core) : Prop where
  seat : seat a = seat c
  entries : a.entries = c.entries
  snapIndex : a.snapIndex = c.snapIndex
  outbox : a.outbox = [] ∨ majority c ≤ 1

/-- How a core that leads has come to it. -/
def LeadsOrWins (c c' : Core) : Prop :=
  c'.role = .leader →
    c.role = .leader ∧ c'.term = c.term ∨
      ∃ a, Wins c a ∧ c' = maybeAdvanceCommit (installed a)

/-- How a call ends that follows no leader and makes no change. -/
inductive Outcome (ev : Event) (c : Core) : Core → Prop
  | calm {c' : Core} (ht : tally c' = tally c) : Outcome ev c c'
  | down {c' : Core} (hrole : c'.role = .follower) (hcommit : c'.commitIndex = c.commitIndex) :
      Outcome ev c c'
  | stand {c' : Core} (hrole : c'.role = .candidate) (hs : seat c' = seat c)
      (hrun : c.role = .follower → runs c ev = true) : Outcome ev c c'
  | count (b : Core) {c' : Core} (hb : Reaches [] ev c b) (hl : b.role = .leader)
      (hs : seat b = seat c) (hrun : c.role = .follower → runs c ev = true)
      (ht : tally c' = tally (maybeAdvanceCommit b)) (hwins : LeadsOrWins c c') : Outcome ev c c'

theorem tally_replicates {out : List Outbound} (h : Replicates c c' out) : tally c' = tally c := by
  rw [h.eq]
  rfl

theorem tally_sendAppend (c : Core) (peer : ID) : tally (sendAppend c peer) = tally c := by
  obtain ⟨o, ho, -⟩ := replicates_sendAppend c peer
  exact tally_replicates ho

theorem tally_broadcastAppends (c : Core) : tally (broadcastAppends c) = tally c := by
  obtain ⟨out, hout, -⟩ := replicates_broadcastAppends c
  exact tally_replicates hout

theorem tally_feed (c : Core) (sender : ID) : tally (feed c sender) = tally c := by
  unfold feed
  split
  · exact tally_sendAppend c sender
  · rfl

theorem tally_noteFreshAck (c : Core) (sender : ID) (seq : Nat) :
    tally (noteFreshAck c sender seq) = tally c := by
  rw [noteFreshAck_eq]
  rfl

theorem term_maybeAdvanceCommit (c : Core) : (maybeAdvanceCommit c).term = c.term := by
  rcases maybeAdvanceCommit_cases c with heq | ⟨n, -, heq⟩
  · rw [heq]
  · rw [heq]
    exact (sameLog_deliverCommitted { c with commitIndex := n }).term

theorem term_replicate (c : Core) (e : Entry) :
    (maybeAdvanceCommit (broadcastAppends (appendOwn c e))).term = c.term :=
  (term_maybeAdvanceCommit _).trans (congrArg Tally.term (tally_broadcastAppends _))

theorem outcome_replicate (hm : Reaches [] ev c a) (hl : a.role = .leader) (hs : seat a = seat c)
    (hrun : c.role = .follower → runs c ev = true)
    (hwins : LeadsOrWins c (maybeAdvanceCommit (broadcastAppends a))) :
    Outcome ev c (maybeAdvanceCommit (broadcastAppends a)) := by
  have ht := tally_broadcastAppends a
  refine .count (broadcastAppends a) (hm.trans (moves_broadcastAppends hl)) ?_ ?_ hrun rfl hwins
  · exact (congrArg Tally.role ht).trans hl
  · exact (congrArg Tally.seat ht).trans hs

theorem outcome_maybeWinElection (hm : Reaches [] ev c a) (hcand : a.role = .candidate)
    (hs : seat a = seat c) (hrun : c.role = .follower → runs c ev = true)
    (hwins : majority a ≤ a.votes.card → Wins c a) : Outcome ev c (maybeWinElection a) := by
  unfold maybeWinElection
  split
  · exact .stand hcand hs hrun
  · rename_i hwon
    have hvotes := Nat.le_of_not_lt (not_or.mp hwon).2
    exact outcome_replicate (hm.tail (.win hcand hvotes)) rfl hs hrun
      fun _ => Or.inr ⟨a, hwins hvotes, rfl⟩

theorem majority_of_seat (h : seat a = seat c) : majority a = majority c := by
  rw [majority, majority, show a.members = c.members from congrArg Seat.members h]

theorem outcome_startCampaign (hm : Reaches [] ev c (becomeCandidate a)) (hs : seat a = seat c)
    (he : a.entries = c.entries) (hi : a.snapIndex = c.snapIndex)
    (hrun : c.role = .follower → runs c ev = true) : Outcome ev c (startCampaign a) := by
  have hasked := hm.tail (.asks (voteRequest (becomeCandidate a) (becomeCandidate a).term false)
    (fun _ => ⟨rfl, rfl⟩) rfl)
  unfold startCampaign
  dsimp only
  rw [broadcast_eq] at hasked ⊢
  refine outcome_maybeWinElection hasked rfl hs hrun fun hvotes => ⟨hs, he, hi, Or.inr ?_⟩
  -- The only vote so far is the candidate's own.
  rw [← majority_of_seat hs]
  exact hvotes

theorem outcome_maybeWinPreVote (hm : Reaches [] ev c a) (hrole : a.role ≠ .leader)
    (hask : Unasked [] a) (hcalm : tally a = tally c)
    (hrun : c.role = .follower → runs c ev = true) :
    Outcome ev c (maybeWinPreVote a) := by
  unfold maybeWinPreVote
  split
  · exact .calm hcalm
  · rename_i votes hvotes
    split
    · exact .calm hcalm
    · have hprobe : a.preVotes.isSome = true := by
        rw [hvotes]
        rfl
      have hcampaign := hm.tail (.campaign (Or.inl hrole) hask (Or.inr (Or.inl hprobe)))
      exact outcome_startCampaign (hcampaign.tail (.drifts rfl nofun)) (congrArg Tally.seat hcalm)
        (congrArg Tally.entries hcalm) (congrArg Tally.snapIndex hcalm) hrun

theorem outcome_tick (hout : c.outbox = []) : Outcome .tick c (tick c) := by
  unfold tick
  split
  · unfold leaderTick
    dsimp only
    split
    · exact .calm (tally_broadcastAppends _)
    · exact .calm rfl
  · rename_i hrole
    have hclock : Reaches [] .tick c (followerClock c) := moves_drift rfl rfl
    dsimp only
    split
    · unfold electionTimedOut
      split
      · exact .calm rfl
      · rename_i hmem
        have hmem : isMember c = true := Bool.of_not_eq_false hmem
        have hrun : c.role = .follower → runs c .tick = true := fun _ => hmem
        split
        · exact outcome_startCampaign (hclock.tail
            (.campaign (Or.inl hrole) (unasked_of_eq hout) (Or.inl hmem))) rfl rfl rfl hrun
        · have hpre : Reaches [] .tick c (becomePreCandidate (followerClock c)) :=
            hclock.tail (.drifts rfl fun _ => Or.inr hmem)
          have hask := hpre.tail (.asks (voteRequest (becomePreCandidate (followerClock c))
            ((followerClock c).term + 1) true) (fun hf => by cases hf) rfl)
          refine outcome_maybeWinPreVote hask ?_
            (unasked_preVotes (c := becomePreCandidate (followerClock c)) hout _) ?_ hrun
          · rw [broadcast_eq]
            exact hrole
          · rw [broadcast_eq]
            rfl
    · exact .calm rfl

theorem outcome_adoptTerm (c : Core) (term : Nat) : Outcome ev c (adoptTerm c term) := by
  unfold adoptTerm
  split
  · exact .down rfl rfl
  · exact .calm rfl

theorem outcome_handleRequestVote (c : Core) (req : RequestVoteRequest) :
    Outcome ev c (handleRequestVote c req).1 := by
  have hadopt : Outcome ev c (adoptTerm c req.term) := outcome_adoptTerm c req.term
  have hgrant : Outcome ev c (grantVote (adoptTerm c req.term) req.candidateId) := by
    unfold adoptTerm
    split
    · exact .down rfl rfl
    · exact .calm rfl
  unfold handleRequestVote
  split
  · exact .calm rfl
  · dsimp only
    split
    · exact hadopt
    · split
      · exact hgrant
      · exact hadopt

theorem outcome_handleVoteResponse (hout : c.outbox = []) (sender : ID) (campaignTerm : Nat)
    (resp : RequestVoteResponse) : Outcome (.voteResp sender campaignTerm false resp) c
      (handleVoteResponse c sender campaignTerm resp) := by
  unfold handleVoteResponse
  split
  · exact .down rfl rfl
  · split
    · exact .calm rfl
    · rename_i hcond
      have hcand : c.role = .candidate := not_not.mp (not_or.mp hcond).1
      split
      · rename_i hgrant
        have hterm : campaignTerm = c.term := not_not.mp (not_or.mp hcond).2
        refine outcome_maybeWinElection (.single (.count sender resp (hterm ▸ rfl) hgrant hcand))
          hcand rfl (fun hf => ?_) fun _ => ⟨rfl, rfl, rfl, Or.inl hout⟩
        rw [hcand] at hf
        cases hf
      · exact .calm rfl

theorem outcome_handlePreVoteResponse (hout : c.outbox = []) (sender : ID) (askedTerm : Nat)
    (resp : RequestVoteResponse) :
    Outcome (.voteResp sender askedTerm true resp) c
      (handlePreVoteResponse c sender askedTerm resp) := by
  unfold handlePreVoteResponse
  split
  · exact .down rfl rfl
  · split
    · exact .calm rfl
    · rename_i votes hvotes
      split
      · exact .calm rfl
      · rename_i hcond
        have hrole : c.role ≠ .leader := by
          rw [not_not.mp (not_or.mp hcond).1]
          exact Role.noConfusion
        split
        · rename_i hgrant
          have hprobe : c.preVotes.isSome = true := by
            rw [hvotes]
            rfl
          exact outcome_maybeWinPreVote (.single (.drifts rfl fun _ => Or.inl hprobe)) hrole
            (unasked_of_eq hout) rfl fun _ => decide_eq_true ⟨rfl, hgrant, hprobe⟩
        · exact .calm rfl

theorem outcome_handleTimeoutNow (hout : c.outbox = []) (req : TimeoutNowRequest) :
    Outcome (.timeoutNow req) c (handleTimeoutNow c req) := by
  unfold handleTimeoutNow
  dsimp only
  split
  · exact outcome_adoptTerm c req.term
  · rename_i hterm
    have hadopt : Reaches [] (.timeoutNow req) c (adoptTerm c req.term) :=
      moves_adoptTerm hout req.term
    have hcampaign := hadopt.tail
      (.campaign (Or.inr (congrArg some (term_adoptTerm hterm)))
        (unasked_of_eq ((outbox_adoptTerm c req.term).trans hout)) (Or.inr (Or.inr ⟨req, rfl⟩)))
    have hsame : seat (adoptTerm c req.term) = seat c ∧
        (adoptTerm c req.term).entries = c.entries ∧
        (adoptTerm c req.term).snapIndex = c.snapIndex := by
      unfold adoptTerm
      split <;> exact ⟨rfl, rfl, rfl⟩
    exact outcome_startCampaign hcampaign hsame.1 hsame.2.1 hsame.2.2 fun _ =>
      decide_eq_true (le_of_adoptTerm hterm)

theorem outcome_handleAppendResponse (c : Core) (sender : ID) (req : AppendEntriesRequest)
    (resp : AppendEntriesResponse) :
    Outcome (.appendResp sender req resp) c (handleAppendResponse c sender req resp) := by
  unfold handleAppendResponse
  split
  · exact .down rfl rfl
  · split
    · exact .calm rfl
    · rename_i hcond
      have hl : c.role = .leader := not_not.mp (not_or.mp hcond).1
      have hterm : req.term = c.term := not_not.mp (not_or.mp hcond).2
      split
      · rename_i hsuccess
        have hfresh := tally_noteFreshAck c sender resp.seq
        have htail : ∀ a : Core, tally (feed (fireTransfer a sender) sender) = tally a := by
          intro a
          rw [tally_feed]
          unfold fireTransfer
          split <;> rfl
        dsimp only
        unfold noteAck
        split
        · rename_i hlt
          have hlead : (noteFreshAck c sender resp.seq).role = .leader :=
            (congrArg Tally.role hfresh).trans hl
          have hack : acknowledged (.appendResp sender req resp) = some (sender,
              (noteFreshAck c sender resp.seq).term, req.prevLogIndex + req.entries.length) := by
            rw [acknowledged, if_pos hsuccess, hterm]
            exact congrArg (fun t : Tally => some (sender, t.term, _)) hfresh.symm
          refine .count _ (.tail (.single (.acks rfl hl hterm hsuccess))
            (.note sender _ hack hlead hlt)) hlead (congrArg Tally.seat hfresh) ?_ (htail _)
            fun _ => Or.inl ⟨hl, ?_⟩
          · intro hf
            rw [hl] at hf
            cases hf
          · refine (congrArg Tally.term (htail _)).trans ((term_maybeAdvanceCommit _).trans ?_)
            exact congrArg Tally.term hfresh
        · exact .calm ((htail _).trans hfresh)
      · exact .calm ((tally_sendAppend _ sender).trans rfl)

theorem outcome_propose (c : Core) (command : Command) (typ : EntryType) :
    Outcome (.propose command typ) c (propose c command typ).1 := by
  rcases propose_cases c command typ with ⟨err, heq⟩ | ⟨hl, -, heq⟩
  · rw [heq]
    exact .calm rfl
  · rw [heq]
    refine outcome_replicate (.single (.own _ hl rfl rfl decide_eq_true (fun h => congrArg _ h)
      (Or.inl rfl))) hl rfl (fun hf => ?_) fun _ => Or.inl ⟨hl, term_replicate c _⟩
    rw [hl] at hf
    cases hf

theorem outcome_transferLeadership (c : Core) (target : ID) :
    Outcome ev c (transferLeadership c target).1 := by
  unfold transferLeadership
  split
  · exact .calm rfl
  · split
    · exact .calm rfl
    · split
      · exact .calm rfl
      · dsimp only
        split
        · exact .calm rfl
        · exact .calm ((tally_sendAppend _ target).trans rfl)

theorem outcome_requestRead (c : Core) : Outcome ev c (requestRead c).1 := by
  unfold requestRead
  split
  · exact .calm rfl
  · split
    · exact .calm rfl
    · dsimp only
      split
      · exact .calm rfl
      · exact .calm ((tally_broadcastAppends _).trans rfl)

/-- The events that have an outcome: those that follow no leader, change no
configuration and bring no peer's state. -/
def leads : Event → Bool
  | .appendEntries _ | .installSnapshot _ | .snapshotResp _ _ _ | .confChange _ => false
  | _ => true

theorem outcome_handle (hout : c.outbox = []) (hev : leads ev = true) :
    Outcome ev c (handle c ev).1 := by
  cases ev with
  | tick => exact outcome_tick hout
  | requestVote req => exact outcome_handleRequestVote c req
  | timeoutNow req => exact outcome_handleTimeoutNow hout req
  | voteResp sender campaignTerm preVote resp =>
      cases preVote with
      | true => exact outcome_handlePreVoteResponse hout sender campaignTerm resp
      | false => exact outcome_handleVoteResponse hout sender campaignTerm resp
  | appendResp sender req resp => exact outcome_handleAppendResponse c sender req resp
  | propose command typ => exact outcome_propose c command typ
  | transfer target => exact outcome_transferLeadership c target
  | read => exact outcome_requestRead c
  | appendEntries | installSnapshot | snapshotResp | confChange => cases hev

end Outcomes

section OwnTerm

/-- If `c'` leads and its commit index is above that of `c`, it is at an entry of
the leader's own term. -/
def OwnTerm (c c' : Core) : Prop :=
  c'.role = .leader → c.commitIndex < c'.commitIndex → termAt c' c'.commitIndex = c'.term

theorem ownTerm_of_eq (h : c'.commitIndex = c.commitIndex) : OwnTerm c c' := by
  intro _ hlt
  rw [h] at hlt
  exact absurd hlt (lt_irrefl _)

theorem ownTerm_of_follower (h : c'.role = .follower) : OwnTerm c c' := by
  intro hrole
  rw [h] at hrole
  cases hrole

theorem termAt_of_sameLog (h : SameLog c c') (index : Nat) : termAt c' index = termAt c index :=
  termAt_congr h.entries h.snapIndex h.snapTerm index

theorem termAt_of_tally (h : tally c' = tally c) (index : Nat) : termAt c' index = termAt c index :=
  termAt_congr (congrArg Tally.entries h) (congrArg Tally.snapIndex h)
    (congrArg Tally.snapTerm h) index

theorem ownTerm_maybeAdvanceCommit (c : Core) : OwnTerm c (maybeAdvanceCommit c) := by
  rcases maybeAdvanceCommit_cases c with heq | ⟨n, hn, heq⟩
  · rw [heq]
    exact ownTerm_of_eq rfl
  · intro _ _
    have hs := sameLog_deliverCommitted { c with commitIndex := n }
    have hcommit : (deliverCommitted { c with commitIndex := n }).commitIndex = n := by
      obtain ⟨c', hq, heq'⟩ := deliverCommitted_cases { c with commitIndex := n }
      rw [heq']
      cases hq <;> rfl
    rw [heq, hcommit, termAt_of_sameLog hs, hs.term]
    exact hn.term

theorem ownTerm_of_tally (h : OwnTerm a c') (hcommit : a.commitIndex = c.commitIndex)
    (ht : tally c'' = tally c') : OwnTerm c c'' := by
  have hraised : c''.commitIndex = c'.commitIndex := congrArg (fun t => t.seat.commitIndex) ht
  have hterm : c''.term = c'.term := congrArg Tally.term ht
  intro hrole hlt
  rw [termAt_of_tally ht, hraised, hterm]
  rw [hraised, ← hcommit] at hlt
  exact h ((congrArg Tally.role ht).symm.trans hrole) hlt

theorem ownTerm_of_outcome (h : Outcome ev c c') : OwnTerm c c' := by
  cases h with
  | calm ht => exact ownTerm_of_eq (congrArg (fun t => t.seat.commitIndex) ht)
  | down hrole hcommit => exact ownTerm_of_eq hcommit
  | stand hrole hs hrun => exact ownTerm_of_eq (congrArg Seat.commitIndex hs)
  | count b hb hl hs hrun ht hwins =>
      exact ownTerm_of_tally (ownTerm_maybeAdvanceCommit b) (congrArg Seat.commitIndex hs) ht

theorem commitIndex_adoptTerm (c : Core) (t : Nat) :
    (adoptTerm c t).commitIndex = c.commitIndex := by
  unfold adoptTerm
  split <;> rfl

theorem ownTerm_proposeConfChange (c : Core) (cc : ConfChange) :
    OwnTerm c (proposeConfChange c cc).1 := by
  rcases proposeConfChange_cases c cc with ⟨err, heq⟩ | ⟨-, -, heq⟩
  · rw [heq]
    exact ownTerm_of_eq rfl
  · rw [heq]
    generalize (⟨c.term, lastLogIndex c + 1, .config, encodeConfChange cc⟩ : Entry) = e
    -- The change itself touches neither the log nor the commit index.
    have hcount := ownTerm_maybeAdvanceCommit (broadcastAppends (appendOwn c e))
    have hcommit : (broadcastAppends (appendOwn c e)).commitIndex = c.commitIndex :=
      congrArg (fun t => t.seat.commitIndex) (tally_broadcastAppends (appendOwn c e))
    intro hrole hlt
    exact hcount hrole (hcommit.trans_lt hlt)

theorem commitIndex_handleInstallSnapshotResponse (c : Core) (sender : ID)
    (req : InstallSnapshotRequest) (resp : InstallSnapshotResponse) :
    (handleInstallSnapshotResponse c sender req resp).commitIndex = c.commitIndex := by
  have hfeed : ∀ c : Core, (feed c sender).commitIndex = c.commitIndex := fun c =>
    congrArg (fun t => t.seat.commitIndex) (tally_feed c sender)
  unfold handleInstallSnapshotResponse
  split
  · rfl
  · split
    · rfl
    · rw [hfeed]
      unfold noteSnapshot
      split <;> rfl

theorem role_appendNew (c : Core) (entries : List Entry) :
    (appendNew c entries).1.role = c.role := by
  rw [appendNew_eq]

theorem follower_deliverCommitted (h : c.role = .follower) :
    (deliverCommitted c).role = .follower := by
  obtain ⟨c', hq, heq⟩ := deliverCommitted_cases c
  rw [heq]
  cases hq with
  | stay => exact h
  | leave e he hconf hrole hmem => rfl

theorem role_followCommit (h : c.role = .follower) (leaderCommit lastNew : Nat) :
    (followCommit c leaderCommit lastNew).role = .follower := by
  unfold followCommit
  split
  · exact @follower_deliverCommitted { c with commitIndex := _ } h
  · exact h

theorem follows_handleAppendEntries (c : Core) (req : AppendEntriesRequest) :
    (handleAppendEntries c req).1 = adoptTerm c req.term ∨
      (handleAppendEntries c req).1.role = .follower := by
  have hrole := role_appendNew (recognizeLeader (adoptTerm c req.term) req.leaderId) req.entries
  rcases handleAppendEntries_cases c req with
    ⟨resp, heq, -⟩ | ⟨resp, heq, -⟩ | ⟨-, -, ⟨c', err, hnew, heq⟩ | ⟨c', resp, hnew, heq, -⟩⟩
  · rw [heq]
    exact Or.inl rfl
  · rw [heq]
    exact Or.inr rfl
  · rw [heq]
    rw [hnew] at hrole
    exact Or.inr hrole
  · rw [heq]
    rw [hnew] at hrole
    exact Or.inr (role_followCommit hrole _ _)

theorem follows_handleInstallSnapshot (c : Core) (req : InstallSnapshotRequest) :
    (handleInstallSnapshot c req).1 = adoptTerm c req.term ∨
      (handleInstallSnapshot c req).1.role = .follower := by
  unfold handleInstallSnapshot
  dsimp only
  split
  · exact Or.inl rfl
  · split
    · exact Or.inr rfl
    · split <;> exact Or.inr rfl

theorem ownTerm_handle (hout : c.outbox = []) (ev : Event) : OwnTerm c (handle c ev).1 := by
  have hfollows : ∀ {c' : Core} {term : Nat}, c' = adoptTerm c term ∨ c'.role = .follower →
      OwnTerm c c' := by
    rintro c' term (rfl | hf)
    · exact ownTerm_of_eq (commitIndex_adoptTerm c term)
    · exact ownTerm_of_follower hf
  cases hev : leads ev with
  | true => exact ownTerm_of_outcome (outcome_handle hout hev)
  | false =>
      cases ev with
      | appendEntries req => exact hfollows (follows_handleAppendEntries c req)
      | installSnapshot req => exact hfollows (follows_handleInstallSnapshot c req)
      | snapshotResp sender req resp =>
          exact ownTerm_of_eq (commitIndex_handleInstallSnapshotResponse c sender req resp)
      | confChange cc => exact ownTerm_proposeConfChange c cc
      | _ => cases hev

end OwnTerm

end RaftKV.Raft.Commits
