import RaftKV.Raft.Provenance

namespace RaftKV.Raft.PreVotes

open Distributed.Network
open Raft.Durability Raft.Cluster Raft.Provenance

variable {p : Core} {votes : Finset ID} {id : ID} {grants : List (ID × RequestVoteResponse)}
variable {term : Nat}

/-- A core after one more event; its queues were emptied before. -/
def after (c : Core) (ev : Event) : Core :=
  (handle (takeQueues c) ev).1

/-- The answer of `peer` to the pre-vote round that asks for `term`. -/
def answer (term : Nat) (grant : ID × RequestVoteResponse) : Event :=
  .voteResp grant.1 term true grant.2

/-- A real campaign: the next term with the own vote on disk. Only a node that is
alone has already won it. -/
def Campaigned (c c' : Core) : Prop :=
  c'.term = c.term + 1 ∧ (c'.role = .candidate ∨ c.members.size = 1 ∧ c'.role = .leader) ∧
    c'.votedFor = c.cfg.id ∧ loadTermAndVote c'.disk = (c.term + 1, c.cfg.id)
  deriving Decidable

section Campaigns

variable {c : Core}

theorem role_deliverCommitted (h : isMember c = true) : (deliverCommitted c).role = c.role := by
  obtain ⟨c', hq, heq⟩ := deliverCommitted_cases c
  rw [heq]
  cases hq with
  | stay => rfl
  | leave e he hconf hrole hmem =>
      rw [h] at hmem
      cases hmem

theorem role_maybeAdvanceCommit (h : isMember c = true) :
    (maybeAdvanceCommit c).role = c.role := by
  rcases maybeAdvanceCommit_cases c with heq | ⟨n, -, heq⟩
  · rw [heq]
  · rw [heq]
    exact role_deliverCommitted h

theorem size_pos (h : isMember c = true) : 0 < c.members.size := by
  refine Nat.pos_of_ne_zero fun hzero => ?_
  have hempty : c.members = ∅ := Std.ExtTreeMap.eq_empty_iff_size_eq_zero.mpr hzero
  unfold isMember at h
  rw [hempty] at h
  simp at h

theorem maybeWinElection_won (hrole : c.role = .candidate) (hmem : isMember c = true)
    (hvotes : majority c ≤ c.votes.card) :
    (maybeWinElection c).term = c.term ∧ (maybeWinElection c).role = .leader ∧
      (maybeWinElection c).votedFor = c.votedFor ∧
      (maybeWinElection c).disk.state = c.disk.state := by
  unfold maybeWinElection
  rw [if_neg (by rintro (hne | hlt) <;> [exact hne hrole; omega])]
  dsimp only
  obtain ⟨out, hout, -⟩ := replicates_broadcastAppends
    (appendOwn (becomeLeader c) (noopEntry (becomeLeader c)))
  have hsame := (sameLog_replicates hout).trans (sameLog_maybeAdvanceCommit _)
  have hrep := hout.eq
  have hmem' : isMember (broadcastAppends
      (appendOwn (becomeLeader c) (noopEntry (becomeLeader c)))) = true := by
    rw [hrep]
    exact hmem
  refine ⟨hsame.term, ?_, hsame.votedFor, ?_⟩
  · rw [role_maybeAdvanceCommit hmem', hrep]
    rfl
  · rw [hsame.disk]
    rfl

theorem campaigned_startCampaign (hmem : isMember c = true) : Campaigned c (startCampaign c) := by
  have hpos := size_pos hmem
  unfold startCampaign
  dsimp only
  rw [broadcast_eq]
  generalize hb : ({ becomeCandidate c with
    outbox := (becomeCandidate c).outbox ++ (peerIDs (becomeCandidate c)).map fun id =>
      ⟨id, .requestVote (voteRequest (becomeCandidate c) (becomeCandidate c).term false)⟩ } :
      Core) = b
  have hfields : b.role = .candidate ∧ b.votes.card = 1 ∧ b.term = c.term + 1 ∧
      b.votedFor = c.cfg.id ∧ b.members = c.members ∧ b.cfg = c.cfg ∧
      b.disk.state = some (c.term + 1, c.cfg.id) := by
    rw [← hb]
    exact ⟨rfl, Finset.card_singleton _, rfl, rfl, rfl, rfl, rfl⟩
  obtain ⟨hrole, hvotes, hterm, hvoted, hmembers, hcfg, hdisk⟩ := hfields
  have hload : ∀ d : Disk, d.state = b.disk.state → loadTermAndVote d = (c.term + 1, c.cfg.id) := by
    intro d hd
    rw [loadTermAndVote, hd, hdisk]
    rfl
  rcases Nat.lt_or_ge b.votes.card (majority b) with hlt | hge
  · have hsame : maybeWinElection b = b := if_pos (Or.inr hlt)
    rw [hsame]
    exact ⟨hterm, Or.inl hrole, hvoted, hload _ rfl⟩
  · have hmem' : isMember b = true := by
      unfold isMember
      rw [hmembers, hcfg]
      exact hmem
    obtain ⟨hterm', hrole', hvoted', hdisk'⟩ := maybeWinElection_won hrole hmem' hge
    have hone : c.members.size = 1 := by
      unfold majority at hge
      rw [hmembers] at hge
      omega
    exact ⟨hterm'.trans hterm, Or.inr ⟨hone, hrole'⟩, hvoted'.trans hvoted, hload _ hdisk'⟩

/-- A core in the middle of its pre-vote round of term `c.term + 1`, with the votes
in so far. -/
structure Polling (c : Core) (votes : Finset ID) (p : Core) : Prop where
  cfg : p.cfg = c.cfg
  term : p.term = c.term
  role : p.role = c.role
  members : p.members = c.members
  preVotes : p.preVotes = some votes
  few : votes.card < majority c

theorem campaigned_of_eq {p' : Core} (hcfg : p.cfg = c.cfg) (hterm : p.term = c.term)
    (hmembers : p.members = c.members) (h : Campaigned p p') : Campaigned c p' := by
  unfold Campaigned at h ⊢
  rwa [hcfg, hterm, hmembers] at h

theorem maybeWinPreVote_cases (hmem : isMember c = true)
    (hcfg : p.cfg = c.cfg) (hterm : p.term = c.term) (hrole : p.role = c.role)
    (hmembers : p.members = c.members) (hvotes : p.preVotes = some votes) :
    Polling c votes (maybeWinPreVote p) ∨
      majority c ≤ votes.card ∧ Campaigned c (maybeWinPreVote p) := by
  have hmaj : majority p = majority c := by
    unfold majority
    rw [hmembers]
  have hmem' : isMember { p with preVotes := none } = true := by
    unfold isMember
    dsimp only
    rw [hmembers, hcfg]
    exact hmem
  unfold maybeWinPreVote
  rw [hvotes]
  dsimp only
  rw [hmaj]
  split
  · rename_i hfew
    exact Or.inl ⟨hcfg, hterm, hrole, hmembers, hvotes, hfew⟩
  · rename_i hmany
    exact Or.inr ⟨Nat.le_of_not_lt hmany,
      campaigned_of_eq hcfg hterm hmembers (campaigned_startCampaign hmem')⟩

theorem after_tick_cases (hpre : c.cfg.disablePreVote = false) (hmem : isMember c = true)
    (hrole : c.role ≠ .leader) (htimeout : c.electionTimeout ≤ c.electionElapsed + 1) :
    Polling c {c.cfg.id} (after c .tick) ∨ majority c ≤ 1 ∧ Campaigned c (after c .tick) := by
  have htick : after c .tick = startPreCampaign (followerClock (takeQueues c)) := by
    change tick (takeQueues c) = _
    unfold tick
    rw [if_neg (show (takeQueues c).role ≠ .leader from hrole)]
    dsimp only
    rw [if_pos (show (followerClock (takeQueues c)).electionTimeout ≤
      (followerClock (takeQueues c)).electionElapsed from htimeout)]
    unfold electionTimedOut
    rw [if_neg (by rw [show isMember (followerClock (takeQueues c)) = true from hmem]; simp),
      if_neg (ne_true_of_eq_false
        (show (followerClock (takeQueues c)).cfg.disablePreVote = false from hpre))]
  rw [htick]
  unfold startPreCampaign
  dsimp only
  rw [broadcast_eq, ← Finset.card_singleton c.cfg.id]
  exact maybeWinPreVote_cases hmem rfl rfl rfl rfl rfl

theorem after_answer_campaigned (hp : Campaigned c p) {grant : ID × RequestVoteResponse}
    (hgrant : grant.2.term ≤ c.term) : Campaigned c (after p (answer (c.term + 1) grant)) := by
  obtain ⟨hterm, hrole, hvoted, hdisk⟩ := hp
  have hsame : after p (answer (c.term + 1) grant) = takeQueues p := by
    change handlePreVoteResponse (takeQueues p) grant.1 (c.term + 1) grant.2 = _
    unfold handlePreVoteResponse
    rw [if_neg (show ¬ (takeQueues p).term < grant.2.term by
      change ¬ p.term < _
      omega)]
    split
    · rfl
    · refine if_pos (Or.inl ?_)
      change p.role ≠ .follower
      rcases hrole with hrole | ⟨-, hrole⟩ <;> rw [hrole] <;> decide
  rw [hsame]
  exact ⟨hterm, hrole, hvoted, hdisk⟩

theorem after_answer_polling (hmem : isMember c = true)
    (hp : Polling c votes p) {grant : ID × RequestVoteResponse}
    (hgrant : grant.2.voteGranted = true ∧ grant.2.term ≤ c.term) :
    if c.role = .follower then
      Polling c (insert grant.1 votes) (after p (answer (c.term + 1) grant)) ∨
        Campaigned c (after p (answer (c.term + 1) grant))
    else Polling c votes (after p (answer (c.term + 1) grant)) := by
  have hstay : ¬ (takeQueues p).term < grant.2.term := by
    change ¬ p.term < _
    rw [hp.term]
    omega
  have hvotes : (takeQueues p).preVotes = some votes := hp.preVotes
  have hrole' : (takeQueues p).role = c.role := hp.role
  have heq : after p (answer (c.term + 1) grant) =
      if c.role = .follower then
        maybeWinPreVote { takeQueues p with preVotes := some (insert grant.1 votes) }
      else takeQueues p := by
    change handlePreVoteResponse (takeQueues p) grant.1 (c.term + 1) grant.2 = _
    unfold handlePreVoteResponse
    rw [if_neg hstay, hvotes]
    dsimp only
    have hasked : (takeQueues p).term = c.term := hp.term
    rw [hrole', hasked, hgrant.1]
    by_cases hrole : c.role = .follower <;> simp [hrole]
  rw [heq]
  split
  · have hcases := maybeWinPreVote_cases
      (p := { takeQueues p with preVotes := some (insert grant.1 votes) })
      hmem hp.cfg hp.term hp.role hp.members rfl
    exact hcases.imp_right And.right
  · exact { hp with }

theorem answers_follower (hmem : isMember c = true) (hrole : c.role = .follower)
    (hgrants : ∀ g ∈ grants, g.2.voteGranted = true ∧ g.2.term ≤ c.term)
    (hp : Polling c votes p ∨ Campaigned c p) :
    Polling c (votes ∪ (grants.map Prod.fst).toFinset)
        ((grants.map (answer (c.term + 1))).foldl after p) ∨
      Campaigned c ((grants.map (answer (c.term + 1))).foldl after p) := by
  induction grants generalizing p votes with
  | nil => simpa using hp
  | cons g grants ih =>
      have hg := hgrants g (by simp)
      have hrest : ∀ g' ∈ grants, g'.2.voteGranted = true ∧ g'.2.term ≤ c.term :=
        fun g' hg' => hgrants g' (by simp [hg'])
      have hnext : Polling c (insert g.1 votes) (after p (answer (c.term + 1) g)) ∨
          Campaigned c (after p (answer (c.term + 1) g)) := by
        rcases hp with hp | hp
        · have := after_answer_polling hmem hp hg
          rwa [if_pos hrole] at this
        · exact Or.inr (after_answer_campaigned hp hg.2)
      have := ih hrest hnext
      rw [List.map_cons, List.map_cons, List.toFinset_cons, List.foldl_cons]
      rwa [Finset.insert_union, ← Finset.union_insert] at this

theorem answers_candidate (hmem : isMember c = true) (hrole : c.role ≠ .follower)
    (hgrants : ∀ g ∈ grants, g.2.voteGranted = true ∧ g.2.term ≤ c.term)
    (hp : Polling c votes p) :
    Polling c votes ((grants.map (answer (c.term + 1))).foldl after p) := by
  induction grants generalizing p with
  | nil => exact hp
  | cons g grants ih =>
      have hnext := after_answer_polling hmem hp (hgrants g (by simp))
      rw [if_neg hrole] at hnext
      exact ih (fun g' hg' => hgrants g' (by simp [hg'])) hnext

theorem answers_campaigned
    (hgrants : ∀ g ∈ grants, g.2.term ≤ c.term) (hp : Campaigned c p) :
    Campaigned c ((grants.map (answer (c.term + 1))).foldl after p) := by
  induction grants generalizing p with
  | nil => exact hp
  | cons g grants ih =>
      exact ih (fun g' hg' => hgrants g' (by simp [hg']))
        (after_answer_campaigned hp (hgrants g (by simp)))

/-- **A granted pre-vote round leads to a campaign exactly for followers.** Whoever times
out and is granted the round by a majority campaigns if it was a follower, or is alone; a
candidate ignores the answers to its own question. -/
theorem granted_round_campaigns_iff {grants : List (ID × RequestVoteResponse)}
    (hpre : c.cfg.disablePreVote = false) (hmem : isMember c = true) (hrole : c.role ≠ .leader)
    (htimeout : c.electionTimeout ≤ c.electionElapsed + 1)
    (hgrants : ∀ g ∈ grants, g.2.voteGranted = true ∧ g.2.term ≤ c.term)
    (hpeers : ∀ g ∈ grants, g.1 ∈ peerIDs c) (hdistinct : (grants.map Prod.fst).Nodup)
    (hmajority : majority c ≤ grants.length + 1) :
    Campaigned c ((grants.map (answer (c.term + 1))).foldl after (after c .tick)) ↔
      c.role = .follower ∨ c.members.size = 1 := by
  have hpos := size_pos hmem
  have htick := after_tick_cases hpre hmem hrole htimeout
  constructor
  · intro hcamp
    by_contra hneither
    obtain ⟨hfollower, hone⟩ := not_or.mp hneither
    rcases htick with hp | ⟨hmaj, -⟩
    · have hterm := (answers_candidate hmem hfollower hgrants hp).term
      have := hcamp.1
      omega
    · unfold majority at hmaj
      omega
  · rintro (hfollower | hone)
    · have hend := answers_follower hmem hfollower hgrants (htick.imp_right And.right)
      refine hend.resolve_left fun hp => ?_
      have hself : c.cfg.id ∉ (grants.map Prod.fst).toFinset := by
        rw [List.mem_toFinset, List.mem_map]
        rintro ⟨g, hg, hid⟩
        exact ne_of_mem_peerIDs (hpeers g hg) hid
      have hcard : ({c.cfg.id} ∪ (grants.map Prod.fst).toFinset).card = grants.length + 1 := by
        rw [Finset.singleton_union, Finset.card_insert_of_notMem hself,
          List.toFinset_card_of_nodup hdistinct, List.length_map]
      have := hp.few
      omega
    · rcases htick with hp | ⟨-, hcamp⟩
      · have := hp.few
        rw [Finset.card_singleton, majority, hone] at this
        omega
      · exact answers_campaigned (fun g hg => (hgrants g hg).2) hcamp

end Campaigns

/-- Three nodes with the pre-vote round. -/
def probingTrio : Deployment :=
  evenly trio.members false

/-- What a granted round is: the node may start one, and `grants` are a majority with it. -/
def GrantedRound (c : Core) (grants : List (ID × RequestVoteResponse)) : Prop :=
  (c.cfg.disablePreVote = false ∧ isMember c = true ∧ c.role ≠ .leader ∧
      c.electionTimeout ≤ c.electionElapsed + 1) ∧
    (∀ g ∈ grants, g.2.voteGranted = true ∧ g.2.term ≤ c.term) ∧
    (∀ g ∈ grants, g.1 ∈ peerIDs c) ∧ (grants.map Prod.fst).Nodup ∧
    majority c ≤ grants.length + 1
  deriving Decidable

def booted : List (Action ID Input (Nat → Nat)) :=
  [.restart 1 fun _ => 0, .restart 2 fun _ => 0, .restart 3 fun _ => 0]

theorem granted_round_campaigns_iff_booted :
    ∃ s, Reachable (coreSystem probingTrio) s ∧ ∃ c, s.node 1 = .up c ∧
      Campaigned c (([(2, ⟨0, true⟩)].map (answer (c.term + 1))).foldl after (after c .tick)) := by
  obtain ⟨s, hs, c, hc, hround, hrole⟩ := exists_of_run (coreSystem probingTrio) booted
    (fun s => ∃ c ∈ core? s 1, GrantedRound c [(2, ⟨0, true⟩)] ∧ c.role = .follower)
    (by decide +kernel)
  obtain ⟨⟨hpre, hmem, hlead, htimeout⟩, hgrants, hpeers, hdistinct, hmaj⟩ := hround
  exact ⟨s, hs, c, node_of_core? hc, (granted_round_campaigns_iff hpre hmem hlead htimeout hgrants
    hpeers hdistinct hmaj).mpr (Or.inl hrole)⟩

/-- Node 1 campaigns after a round that node 2 grants, and nobody answers. -/
def unansweredCampaign : List (Action ID Input (Nat → Nat)) :=
  booted ++ [.act 1 (.client .tick), .deliver 0, .deliver 2]

/-- The candidate asks again and a majority grants the round, to no effect. -/
theorem candidate_ignores_its_round :
    ∃ s, Reachable (coreSystem probingTrio) s ∧ ∃ c, s.node 1 = .up c ∧
      GrantedRound c [(2, ⟨0, true⟩)] ∧ c.role = .candidate ∧
      ¬ Campaigned c
        (([(2, ⟨0, true⟩)].map (answer (c.term + 1))).foldl after (after c .tick)) := by
  obtain ⟨s, hs, c, hc, hstall⟩ := exists_of_run (coreSystem probingTrio) unansweredCampaign
    (fun s => ∃ c ∈ core? s 1, GrantedRound c [(2, ⟨0, true⟩)] ∧ c.role = .candidate ∧
      ¬ Campaigned c (([(2, ⟨0, true⟩)].map (answer (c.term + 1))).foldl after (after c .tick)))
    (by decide +kernel)
  exact ⟨s, hs, c, node_of_core? hc, hstall⟩

/-- Who claims to lead in an event, and in which term. -/
def claimed : Event → Option (Nat × ID)
  | .appendEntries req => some (req.term, req.leaderId)
  | .installSnapshot req => some (req.term, req.leaderId)
  | _ => none

/-- The term an event brings along. A pre-vote request only asks about one. -/
def carried : Event → Option Nat
  | .requestVote req => if req.preVote then none else some req.term
  | .appendEntries req => some req.term
  | .installSnapshot req => some req.term
  | .voteResp _ _ _ resp => some resp.term
  | .appendResp _ _ resp => some resp.term
  | .snapshotResp _ _ resp => some resp.term
  | _ => none

def isTick : Event → Bool
  | .tick => true
  | _ => false

/-- Everything but a sanctioned takeover; no node has the identifier zero. -/
def Ordinary (ev : Event) : Prop :=
  (∀ req, ev ≠ .timeoutNow req) ∧ ∀ term id, claimed ev = some (term, id) → id ≠ 0

/-- What `n` ticks after leader contact keep a follower out of elections. -/
structure Sheltered (n : Nat) (c : Core) : Prop where
  role : c.role = .follower
  preVotes : c.preVotes = none
  leader : c.leaderID ≠ 0
  recency : c.ticksSinceLeader ≤ n
  elapsed : c.electionElapsed ≤ n
  timeout : c.cfg.electionTicksMin ≤ c.electionTimeout

/-- One event later: still sheltered in the same term, or a follower of a term that the
event brought. -/
def Calm (n : Nat) (c : Core) (ev : Event) (c' : Core) : Prop :=
  Sheltered n c' ∧ c'.term = c.term ∧ c'.cfg = c.cfg ∨
    c'.role = .follower ∧ c.term < c'.term ∧ carried ev = some c'.term

section Contact

variable {c : Core} {n : Nat} {ev : Event}

theorem calm_same (h : Sheltered n c) : Calm n c ev c :=
  Or.inl ⟨h, rfl, rfl⟩

theorem calm_stepDown (hlt : c.term < term) (hev : carried ev = some term) :
    Calm n c ev (stepDown c term) :=
  Or.inr ⟨rfl, hlt, hev⟩

theorem sheltered_takeQueues (h : Sheltered n c) : Sheltered n (takeQueues c) :=
  { h with }

theorem le_resetElectionTimer (c : Core) :
    (resetElectionTimer c).cfg.electionTicksMin ≤ (resetElectionTimer c).electionTimeout :=
  Nat.le_add_right _ _

/-- The part of a core that its patience depends on. -/
structure Watch where
  cfg : Config
  role : Role
  term : Nat
  leaderID : ID
  preVotes : Option (Finset ID)
  ticksSinceLeader : Nat
  electionElapsed : Nat
  electionTimeout : Nat

def watch (c : Core) : Watch where
  cfg := c.cfg
  role := c.role
  term := c.term
  leaderID := c.leaderID
  preVotes := c.preVotes
  ticksSinceLeader := c.ticksSinceLeader
  electionElapsed := c.electionElapsed
  electionTimeout := c.electionTimeout

theorem sheltered_of_watch {c' : Core} (hw : watch c' = watch c) (h : Sheltered n c) :
    Sheltered n c' where
  role := (congrArg Watch.role hw).trans h.role
  preVotes := (congrArg Watch.preVotes hw).trans h.preVotes
  leader := by
    rw [show c'.leaderID = c.leaderID from congrArg Watch.leaderID hw]
    exact h.leader
  recency := (congrArg Watch.ticksSinceLeader hw).trans_le h.recency
  elapsed := (congrArg Watch.electionElapsed hw).trans_le h.elapsed
  timeout := by
    rw [show c'.cfg = c.cfg from congrArg Watch.cfg hw,
      show c'.electionTimeout = c.electionTimeout from congrArg Watch.electionTimeout hw]
    exact h.timeout

theorem watch_followCommit (hrole : c.role = .follower) (leaderCommit lastNew : Nat) :
    watch (followCommit c leaderCommit lastNew) = watch c := by
  unfold followCommit
  split
  · obtain ⟨c', hq, heq⟩ := deliverCommitted_cases
      { c with commitIndex := min leaderCommit lastNew }
    rw [heq]
    cases hq with
    | stay => rfl
    | leave e he hconf hlead hmem =>
        rw [show c.role = .leader from hlead] at hrole
        cases hrole
  · rfl

theorem watch_appendNew (c : Core) (entries : List Entry) :
    watch (appendNew c entries).1 = watch c := by
  rw [appendNew_eq]
  rfl

theorem watch_handleAppendEntries {req : AppendEntriesRequest}
    (hterm : ¬ req.term < (adoptTerm c req.term).term) :
    watch (handleAppendEntries c req).1 =
      watch (recognizeLeader (adoptTerm c req.term) req.leaderId) := by
  have hnew := watch_appendNew (recognizeLeader (adoptTerm c req.term) req.leaderId) req.entries
  rcases handleAppendEntries_cases c req with
    ⟨resp, -, hlt, -⟩ | ⟨resp, heq, -⟩ |
    ⟨-, -, ⟨c', err, happend, heq⟩ | ⟨c', resp, happend, heq, -⟩⟩
  · exact absurd hlt hterm
  · rw [heq]
  · rw [happend] at hnew
    rw [heq]
    exact hnew
  · rw [happend] at hnew
    rw [heq, watch_followCommit (congrArg Watch.role hnew)]
    exact hnew

theorem watch_handleInstallSnapshot {req : InstallSnapshotRequest}
    (hterm : ¬ req.term < (adoptTerm c req.term).term) :
    watch (handleInstallSnapshot c req).1 =
      watch (recognizeLeader (adoptTerm c req.term) req.leaderId) := by
  unfold handleInstallSnapshot
  dsimp only
  rw [if_neg hterm]
  split
  · rfl
  · split <;> rfl

theorem watch_contact (hev : claimed ev = some (term, id))
    (hterm : c.term ≤ term) :
    watch (after c ev) = watch (recognizeLeader (adoptTerm (takeQueues c) term) id) := by
  have hcur : ¬ term < (adoptTerm (takeQueues c) term).term := by
    unfold adoptTerm
    split
    · exact lt_irrefl _
    · exact Nat.not_lt.mpr hterm
  cases ev with
  | appendEntries req =>
      cases hev
      exact watch_handleAppendEntries hcur
  | installSnapshot req =>
      cases hev
      exact watch_handleInstallSnapshot hcur
  | _ => cases hev

theorem sheltered_recognizeLeader (h : c.preVotes = none) (hid : id ≠ 0) :
    Sheltered 0 (recognizeLeader c id) where
  role := rfl
  preVotes := h
  leader := hid
  recency := le_rfl
  elapsed := le_rfl
  timeout := le_resetElectionTimer c

theorem calm_contact (h : Sheltered n c)
    (hev : claimed ev = some (term, id)) (hcarried : carried ev = some term) (hid : id ≠ 0)
    (hterm : c.term ≤ term) : Calm n c ev (after c ev) := by
  have hwatch := watch_contact hev hterm
  rcases Nat.lt_or_eq_of_le hterm with hlt | rfl
  · have hadopt : adoptTerm (takeQueues c) term = stepDown (takeQueues c) term := if_pos hlt
    rw [hadopt] at hwatch
    have hnew : (after c ev).term = term := congrArg Watch.term hwatch
    refine Or.inr ⟨congrArg Watch.role hwatch, ?_, ?_⟩
    · rwa [hnew]
    · rw [hnew, hcarried]
  · have hadopt : adoptTerm (takeQueues c) c.term = takeQueues c := if_neg (lt_irrefl _)
    rw [hadopt] at hwatch
    have hshelter := sheltered_recognizeLeader (c := takeQueues c) h.preVotes hid
    refine Or.inl ⟨sheltered_of_watch hwatch ?_, congrArg Watch.term hwatch,
      congrArg Watch.cfg hwatch⟩
    exact { hshelter with
      recency := hshelter.recency.trans (Nat.zero_le n)
      elapsed := hshelter.elapsed.trans (Nat.zero_le n) }

theorem calm_handleRequestVote (h : Sheltered n c) (req : RequestVoteRequest) :
    Calm n c (.requestVote req) (handleRequestVote c req).1 := by
  unfold handleRequestVote
  split
  · exact calm_same h
  · rename_i hreal
    have hcarried : carried (.requestVote req) = some req.term := if_neg hreal
    dsimp only
    rcases Nat.lt_or_ge c.term req.term with hlt | hge
    · have hadopt : adoptTerm c req.term = stepDown c req.term := if_pos hlt
      rw [hadopt]
      split
      · exact calm_stepDown hlt hcarried
      · split
        · exact Or.inr ⟨rfl, hlt, hcarried⟩
        · exact calm_stepDown hlt hcarried
    · have hadopt : adoptTerm c req.term = c := if_neg (Nat.not_lt.mpr hge)
      rw [hadopt]
      split
      · exact calm_same h
      · split
        · refine Or.inl ⟨?_, rfl, rfl⟩
          exact
            { role := h.role
              preVotes := h.preVotes
              leader := h.leader
              recency := h.recency
              elapsed := Nat.zero_le n
              timeout := le_resetElectionTimer c }
        · exact calm_same h

theorem calm_tick (h : Sheltered n c) (hn : n + 1 < c.cfg.electionTicksMin) :
    Calm (n + 1) c .tick (tick c) := by
  have hwait : ¬ (followerClock c).electionTimeout ≤ (followerClock c).electionElapsed := by
    have := h.elapsed
    have := h.timeout
    change ¬ c.electionTimeout ≤ c.electionElapsed + 1
    omega
  unfold tick
  rw [if_neg (by rw [h.role]; decide)]
  dsimp only
  rw [if_neg hwait]
  refine Or.inl ⟨?_, rfl, rfl⟩
  exact
    { role := h.role
      preVotes := h.preVotes
      leader := h.leader
      recency := Nat.add_le_add_right h.recency 1
      elapsed := Nat.add_le_add_right h.elapsed 1
      timeout := h.timeout }

theorem handleAppendEntries_stale {req : AppendEntriesRequest} (hlt : req.term < c.term) :
    (handleAppendEntries c req).1 = c := by
  have hadopt : adoptTerm c req.term = c := if_neg (Nat.not_lt.mpr hlt.le)
  unfold handleAppendEntries
  dsimp only
  rw [hadopt, if_pos hlt]

theorem handleInstallSnapshot_stale {req : InstallSnapshotRequest} (hlt : req.term < c.term) :
    (handleInstallSnapshot c req).1 = c := by
  have hadopt : adoptTerm c req.term = c := if_neg (Nat.not_lt.mpr hlt.le)
  unfold handleInstallSnapshot
  dsimp only
  rw [hadopt, if_pos hlt]

theorem calm_handle (h : Sheltered n c) (hev : Ordinary ev) (hclaim : claimed ev = none)
    (hn : n + [ev].countP isTick < c.cfg.electionTicksMin) :
    Calm (n + [ev].countP isTick) c ev (handle c ev).1 := by
  have hrole : c.role ≠ .leader := by
    rw [h.role]
    decide
  cases ev with
  | tick => exact calm_tick h hn
  | requestVote req => exact calm_handleRequestVote h req
  | appendEntries req => cases hclaim
  | installSnapshot req => cases hclaim
  | timeoutNow req => exact absurd rfl (hev.1 req)
  | voteResp sender campaignTerm preVote resp =>
      cases preVote with
      | true =>
          change Calm n c _ (handlePreVoteResponse c sender campaignTerm resp)
          unfold handlePreVoteResponse
          split
          · rename_i hlt
            exact calm_stepDown hlt rfl
          · rw [h.preVotes]
            exact calm_same h
      | false =>
          change Calm n c _ (handleVoteResponse c sender campaignTerm resp)
          unfold handleVoteResponse
          split
          · rename_i hlt
            exact calm_stepDown hlt rfl
          · rw [if_pos (Or.inl (by rw [h.role]; decide))]
            exact calm_same h
  | appendResp sender req resp =>
      change Calm n c _ (handleAppendResponse c sender req resp)
      unfold handleAppendResponse
      split
      · rename_i hlt
        exact calm_stepDown hlt rfl
      · rw [if_pos (Or.inl hrole)]
        exact calm_same h
  | snapshotResp sender req resp =>
      change Calm n c _ (handleInstallSnapshotResponse c sender req resp)
      unfold handleInstallSnapshotResponse
      split
      · rename_i hlt
        exact calm_stepDown hlt rfl
      · rw [if_pos (Or.inl hrole)]
        exact calm_same h
  | propose command typ =>
      change Calm n c _ (propose c command typ).1
      rw [propose, if_pos hrole]
      exact calm_same h
  | confChange cc =>
      change Calm n c _ (proposeConfChange c cc).1
      rw [proposeConfChange, if_pos hrole]
      exact calm_same h
  | transfer target =>
      change Calm n c _ (transferLeadership c target).1
      rw [transferLeadership, if_pos hrole]
      exact calm_same h
  | read =>
      change Calm n c _ (requestRead c).1
      rw [requestRead, if_pos hrole]
      exact calm_same h

theorem calm_after (h : Sheltered n c) (hev : Ordinary ev)
    (hn : n + [ev].countP isTick < c.cfg.electionTicksMin) :
    Calm (n + [ev].countP isTick) c ev (after c ev) := by
  have hq := sheltered_takeQueues h
  cases ev with
  | appendEntries req =>
      rcases Nat.lt_or_ge req.term c.term with hlt | hge
      · change Calm n c _ (handleAppendEntries (takeQueues c) req).1
        rw [handleAppendEntries_stale (c := takeQueues c) hlt]
        exact calm_same hq
      · exact calm_contact h rfl rfl (hev.2 _ _ rfl) hge
  | installSnapshot req =>
      rcases Nat.lt_or_ge req.term c.term with hlt | hge
      · change Calm n c _ (handleInstallSnapshot (takeQueues c) req).1
        rw [handleInstallSnapshot_stale (c := takeQueues c) hlt]
        exact calm_same hq
      · exact calm_contact h rfl rfl (hev.2 _ _ rfl) hge
  | _ => exact calm_handle hq hev rfl hn

theorem term_le_after (c : Core) (ev : Event) : c.term ≤ (after c ev).term := by
  have := term_le_respond c (.client ev)
  rwa [show (respond c (.client ev)).1 = after c ev from react_fst c ev _] at this

theorem term_le_foldl (evs : List Event) (c : Core) : c.term ≤ (evs.foldl after c).term := by
  induction evs generalizing c with
  | nil => exact le_rfl
  | cons ev evs ih => exact (term_le_after c ev).trans (ih _)

theorem sheltered_foldl {evs : List Event} (h : Sheltered n c) (hevs : ∀ ev ∈ evs, Ordinary ev)
    (hn : n + evs.countP isTick < c.cfg.electionTicksMin)
    (hterm : (evs.foldl after c).term = c.term) :
    Sheltered (n + evs.countP isTick) (evs.foldl after c) ∧ (evs.foldl after c).cfg = c.cfg := by
  induction evs generalizing n c with
  | nil => exact ⟨h, rfl⟩
  | cons ev evs ih =>
      rw [List.foldl_cons] at hterm ⊢
      have hcount : (ev :: evs).countP isTick = [ev].countP isTick + evs.countP isTick :=
        by rw [← List.countP_append, List.singleton_append]
      rw [hcount, ← Nat.add_assoc] at hn ⊢
      have hstep := calm_after h (hevs ev (by simp)) ((Nat.le_add_right _ _).trans_lt hn)
      rcases hstep with ⟨hshelter, hsame, hcfg⟩ | ⟨-, hlt, -⟩
      · have := ih hshelter (fun ev' h' => hevs ev' (by simp [h'])) (by rw [hcfg]; exact hn)
          (hterm.trans hsame.symm)
        rwa [hcfg] at this
      · have := term_le_foldl evs (after c ev)
        omega

/-- **Leader contact keeps a follower out of elections**, provided that no pre-vote round
of its own was pending when the leader was heard from: for as long as fewer than
`ElectionTicksMin` ticks have passed and the term is the same, it grants no pre-vote and
starts no campaign, which would leave it a candidate or a leader of a term it made up. -/
theorem leader_contact_shelters {term : Nat} {id : ID} {evs : List Event}
    (hev : claimed ev = some (term, id)) (hid : id ≠ 0) (hcur : c.term ≤ term)
    (hpending : c.term < term ∨ c.preVotes = none) (hevs : ∀ ev ∈ evs, Ordinary ev)
    (hticks : evs.countP isTick < c.cfg.electionTicksMin)
    (hterm : (evs.foldl after (after c ev)).term = term) :
    (∀ req, req.preVote = true →
      (handleRequestVote (evs.foldl after (after c ev)) req).2.voteGranted = false) ∧
    ∀ ev', Ordinary ev' → (evs ++ [ev']).countP isTick < c.cfg.electionTicksMin →
      ((evs ++ [ev']).foldl after (after c ev)).role = .follower ∧
        (((evs ++ [ev']).foldl after (after c ev)).term = term ∨
          carried ev' = some ((evs ++ [ev']).foldl after (after c ev)).term) := by
  have hwatch := watch_contact hev hcur
  have hnone : (adoptTerm (takeQueues c) term).preVotes = none := by
    unfold adoptTerm
    split
    · rfl
    · rename_i hle
      exact hpending.resolve_left hle
  have hcfg : (after c ev).cfg = c.cfg := by
    have : (after c ev).cfg = (adoptTerm (takeQueues c) term).cfg := congrArg Watch.cfg hwatch
    rw [this]
    unfold adoptTerm
    split <;> rfl
  have hcontact : (after c ev).term = term := by
    have : (after c ev).term = (adoptTerm (takeQueues c) term).term := congrArg Watch.term hwatch
    rw [this]
    unfold adoptTerm
    split
    · rfl
    · rename_i hle
      exact Nat.le_antisymm hcur (Nat.le_of_not_lt hle)
  have hstart := sheltered_of_watch hwatch (sheltered_recognizeLeader hnone hid)
  obtain ⟨hshelter, hcfg'⟩ := sheltered_foldl hstart hevs (by rwa [hcfg, Nat.zero_add])
    (hterm.trans hcontact.symm)
  rw [Nat.zero_add] at hshelter
  have hmin := hcfg'.trans hcfg
  refine ⟨fun req hpre => ?_, fun ev' hev' hcount => ?_⟩
  · unfold handleRequestVote
    rw [if_pos hpre]
    refine if_pos ⟨hshelter.leader, ?_⟩
    rw [hmin]
    exact hshelter.recency.trans_lt hticks
  · rw [List.countP_append] at hcount
    rw [List.foldl_append]
    rcases calm_after hshelter hev' (by rwa [hmin]) with
      ⟨hnext, hsame, -⟩ | ⟨hrole, -, hcarried⟩
    · exact ⟨hnext.role, Or.inl (hsame.trans hterm)⟩
    · exact ⟨hrole, Or.inr hcarried⟩

end Contact

/-- Node 2 is elected in term 1 by node 1, which has not heard from it as a leader. -/
def elected : List (Action ID Input (Nat → Nat)) :=
  booted ++ [.act 2 (.client .tick), .deliver 0, .deliver 2, .deliver 3, .deliver 5]

/-- What node 2 first sends to node 1 as a leader. -/
def firstContact : Packet :=
  ⟨2, 1, .request (.appendEntries
    { term := 1
      leaderId := 2
      prevLogIndex := 0
      prevLogTerm := 0
      entries := [⟨1, 1, .noop, noBytes⟩]
      leaderCommit := 0
      seq := 1 })⟩

/-- The answer of node 3 to a pre-vote round of node 1 for term 2. -/
def lateGrant : Packet :=
  ⟨3, 1, .voteResp
    { term := 2
      candidateId := 1
      lastLogIndex := 0
      lastLogTerm := 0
      preVote := true }
    { term := 0, voteGranted := true }⟩

theorem leader_contact_shelters_elected :
    ∃ s, Reachable (coreSystem probingTrio) s ∧ firstContact ∈ s.net ∧ ∃ c, s.node 1 = .up c ∧
      ∀ ev', Ordinary ev' → ([eventOf lateGrant] ++ [ev']).countP isTick < 1 →
        (([eventOf lateGrant] ++ [ev']).foldl after (after c (eventOf firstContact))).role =
          .follower := by
  obtain ⟨s, hs, hnet, c, hc, hmin, hcur, hpre, hterm⟩ :=
    exists_of_run (coreSystem probingTrio) elected (fun s => firstContact ∈ s.net ∧
      ∃ c ∈ core? s 1, c.cfg.electionTicksMin = 1 ∧ c.term = 1 ∧ c.preVotes = none ∧
        ([eventOf lateGrant].foldl after (after c (eventOf firstContact))).term = 1)
      (by decide +kernel)
  refine ⟨s, hs, hnet, c, node_of_core? hc, fun ev' hev' hcount => ?_⟩
  have hordinary : ∀ ev ∈ [eventOf lateGrant], Ordinary ev := by
    intro ev hev
    rw [List.mem_singleton.mp hev]
    refine ⟨?_, ?_⟩
    · intro req h
      cases h
    · intro term id h
      cases h
  have hclaim : claimed (eventOf firstContact) = some (1, 2) := rfl
  have h := leader_contact_shelters hclaim (by decide) hcur.le (Or.inr hpre) hordinary
    (by rw [hmin]; decide) hterm
  exact (h.2 ev' hev' (by rwa [hmin])).1

/-- Node 1 runs out of patience before it hears from node 2, and node 3 grants it a
pre-vote. -/
def impatient : List (Action ID Input (Nat → Nat)) :=
  elected ++ [.act 1 (.client .tick), .deliver 9]

/-- The leader is heard from, and the late answer starts a campaign all the same. -/
theorem late_grant_disturbs_leader :
    ∃ s, Reachable (coreSystem probingTrio) s ∧ firstContact ∈ s.net ∧ lateGrant ∈ s.net ∧
      ∃ c, s.node 1 = .up c ∧ 0 < c.cfg.electionTicksMin ∧
        claimed (eventOf firstContact) = some (c.term, 2) ∧
        (after c (eventOf firstContact)).role = .follower ∧
        (after c (eventOf firstContact)).term = c.term ∧
        (after (after c (eventOf firstContact)) (eventOf lateGrant)).role = .candidate ∧
        (after (after c (eventOf firstContact)) (eventOf lateGrant)).term = c.term + 1 := by
  obtain ⟨s, hs, hfirst, hlate, c, hc, hmin, hterm, hcampaign⟩ :=
    exists_of_run (coreSystem probingTrio) impatient (fun s =>
      firstContact ∈ s.net ∧ lateGrant ∈ s.net ∧
      ∃ c ∈ core? s 1, 0 < c.cfg.electionTicksMin ∧ c.term = 1 ∧
        (after c (eventOf firstContact)).role = .follower ∧
        (after c (eventOf firstContact)).term = c.term ∧
        (after (after c (eventOf firstContact)) (eventOf lateGrant)).role = .candidate ∧
        (after (after c (eventOf firstContact)) (eventOf lateGrant)).term = c.term + 1)
      (by decide +kernel)
  exact ⟨s, hs, hfirst, hlate, c, node_of_core? hc, hmin, by rw [hterm]; rfl, hcampaign⟩

end RaftKV.Raft.PreVotes
