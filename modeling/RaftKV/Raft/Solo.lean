import RaftKV.Raft.EventLoop
import RaftKV.Raft.Shapes

namespace RaftKV.Raft.Solo

open Raft.Durability Raft.Shapes Raft.Cluster Raft.EventLoop

section Core

variable {c c' : Core} {e : Entry}

def Alone (c : Core) : Prop :=
  c.members.keys = [c.cfg.id]

theorem peerIDs_alone (h : Alone c) : peerIDs c = [] := by
  rw [peerIDs, h]
  simp

theorem majority_alone (h : Alone c) : majority c = 1 := by
  rw [majority, ← Std.ExtTreeMap.length_keys, h, List.length_singleton]

theorem isMember_alone (h : Alone c) : isMember c = true := by
  rw [isMember, Std.ExtTreeMap.contains_iff_mem, ← Std.ExtTreeMap.mem_keys, h]
  exact List.mem_singleton_self _

theorem broadcastAppends_alone (h : Alone c) : broadcastAppends c = c := by
  rw [broadcastAppends, peerIDs_alone h]
  rfl

/-- All entries are committed and delivered. -/
structure Settled (c : Core) : Prop where
  alone : Alone c
  numbered : Numbered c.snapIndex c.entries
  commit : c.commitIndex = lastLogIndex c
  delivered : c.lastDelivered = lastLogIndex c

/-- A core that has appended `e` and has queued it for the state machine. -/
def extended (c : Core) (e : Entry) : Core :=
  { appendOwn c e with
    commitIndex := e.index
    lastDelivered := e.index
    committed := c.committed ++ [e] }

theorem maybeAdvanceCommit_alone (h : Settled c) (hindex : e.index = lastLogIndex c + 1)
    (hterm : e.term = c.term) (htype : e.type ≠ .config) :
    maybeAdvanceCommit (appendOwn c e) = extended c e := by
  have hlast := lastLogIndex_eq h.numbered
  have hnumbered : Numbered c.snapIndex (c.entries ++ [e]) :=
    numbered_append h.numbered (numbered_cons.mpr ⟨by omega, numbered_nil _⟩)
  have hget : (c.entries ++ [e])[c.entries.length]? = some e := List.getElem?_concat_length
  have htermAt : termAt (appendOwn c e) (lastLogIndex c + 1) = c.term := by
    have hgt := termAt_of_gt (c := appendOwn c e) hnumbered c.entries.length
    rw [show (appendOwn c e).entries[c.entries.length]? = some e from hget] at hgt
    rw [hlast]
    exact hgt.trans hterm
  have hvotes : majority (appendOwn c e) ≤ commitVotes (appendOwn c e) (lastLogIndex c + 1) := by
    have halone : Alone (appendOwn c e) := h.alone
    rw [majority_alone halone, commitVotes, isMember_alone halone]
    exact Nat.le_add_right _ _
  have hadvance : maybeAdvanceCommit (appendOwn c e) =
      deliverCommitted { appendOwn c e with commitIndex := e.index } := by
    rw [maybeAdvanceCommit, lastLogIndex_appendOwn, hindex, advanceFrom,
      if_pos ⟨h.commit.trans_lt (Nat.lt_succ_self _), htermAt⟩, if_pos hvotes]
  have hle : c.snapIndex ≤ c.lastDelivered := by
    rw [h.delivered]
    omega
  have hqueue : queue { appendOwn c e with commitIndex := e.index } = [e] := by
    refine (@queue_eq { appendOwn c e with commitIndex := e.index } hnumbered hle).trans ?_
    change ((c.entries ++ [e]).drop (c.lastDelivered - c.snapIndex)).take
      (e.index - c.lastDelivered) = [e]
    rw [h.delivered, hindex, show lastLogIndex c - c.snapIndex = c.entries.length by omega,
      show lastLogIndex c + 1 - lastLogIndex c = 1 by omega, List.drop_left]
    rfl
  have hto : deliveredTo { appendOwn c e with commitIndex := e.index } = e.index := by
    refine (@deliveredTo_eq { appendOwn c e with commitIndex := e.index } hnumbered hle ?_).trans ?_
    · exact (lastLogIndex_appendOwn c e).ge
    · change max c.lastDelivered e.index = e.index
      rw [h.delivered, hindex]
      exact max_eq_right (Nat.le_succ _)
  obtain ⟨c', hq, heq⟩ := deliverCommitted_cases { appendOwn c e with commitIndex := e.index }
  rw [hadvance, heq, hto]
  rw [hqueue] at hq
  cases hq with
  | stay => rfl
  | leave f hf hconf _ _ => exact absurd (List.mem_singleton.mp hf ▸ hconf) htype

/-- The leader of a cluster of one, once it has committed an entry of its term. -/
structure Leads (c : Core) : Prop extends Settled c where
  role : c.role = .leader
  transfer : c.transferTarget = 0
  term : termAt c c.commitIndex = c.term
  reads : c.pendingReads = []

theorem Leads.handed (h : Leads c) (since elapsed reads : Nat) :
    Leads (takeQueues
      { c with ticksSinceLeader := since, heartbeatElapsed := elapsed, readCounter := reads }) :=
  ⟨⟨h.alone, h.numbered, h.commit, h.delivered⟩, h.role, h.transfer, h.term, h.reads⟩

theorem settled_extended (h : Settled c) (hindex : e.index = lastLogIndex c + 1) :
    Settled (extended c e) where
  alone := h.alone
  numbered := numbered_append h.numbered
    (numbered_cons.mpr ⟨hindex.trans (by rw [lastLogIndex_eq h.numbered]; rfl), numbered_nil _⟩)
  commit := (lastLogIndex_appendOwn c e).symm
  delivered := (lastLogIndex_appendOwn c e).symm

theorem termAt_extended (h : Settled c) (hindex : e.index = lastLogIndex c + 1) :
    termAt (extended c e) e.index = e.term := by
  have hgt := termAt_of_gt (settled_extended h hindex).numbered c.entries.length
  rw [show (extended c e).entries[c.entries.length]? = some e from
    List.getElem?_concat_length] at hgt
  rw [hindex, lastLogIndex_eq h.numbered]
  exact hgt

theorem leads_extended (h : Leads c) (hindex : e.index = lastLogIndex c + 1)
    (hterm : e.term = c.term) : Leads (extended c e) where
  toSettled := settled_extended h.toSettled hindex
  role := h.role
  transfer := h.transfer
  term := (termAt_extended h.toSettled hindex).trans hterm
  reads := h.reads

/-- The winner of an election, with the first entry of its term still to append. -/
structure Heads (c : Core) : Prop extends Settled c where
  role : c.role = .leader
  transfer : c.transferTarget = 0
  reads : c.pendingReads = []

theorem leads_of_heads (h : Heads c) : Leads (extended c (noopEntry c)) where
  toSettled := settled_extended h.toSettled rfl
  role := h.role
  transfer := h.transfer
  term := termAt_extended (e := noopEntry c) h.toSettled rfl
  reads := h.reads

theorem startCampaign_alone (h : Settled c) :
    startCampaign c =
      extended (becomeLeader (becomeCandidate c))
        (noopEntry (becomeLeader (becomeCandidate c))) := by
  have halone : Alone (becomeCandidate c) := h.alone
  have hsettled : Settled (becomeLeader (becomeCandidate c)) :=
    ⟨h.alone, h.numbered, h.commit, h.delivered⟩
  have hwins : ¬((becomeCandidate c).role ≠ .candidate ∨
      (becomeCandidate c).votes.card < majority (becomeCandidate c)) := by
    rw [majority_alone halone]
    rintro (hrole | hvotes)
    · exact hrole rfl
    · exact absurd hvotes (Nat.lt_irrefl 1)
  have happended : Alone (appendOwn (becomeLeader (becomeCandidate c))
      (noopEntry (becomeLeader (becomeCandidate c)))) := h.alone
  rw [startCampaign, broadcast, peerIDs_alone halone, List.foldl_nil, maybeWinElection,
    if_neg hwins]
  dsimp only
  rw [broadcastAppends_alone happended]
  exact maybeAdvanceCommit_alone hsettled rfl rfl (fun htype => by cases htype)

theorem startPreCampaign_alone (h : Alone c) :
    startPreCampaign c = startCampaign { becomePreCandidate c with preVotes := none } := by
  have halone : Alone (becomePreCandidate c) := h
  have hvotes : ¬({c.cfg.id} : Finset ID).card < majority (becomePreCandidate c) := by
    rw [majority_alone halone, Finset.card_singleton]
    exact Nat.lt_irrefl 1
  rw [startPreCampaign, broadcast, peerIDs_alone halone, List.foldl_nil, maybeWinPreVote]
  exact if_neg hvotes

def entryOf (c : Core) (command : Command) : Entry :=
  { term := c.term, index := lastLogIndex c + 1, type := .normal, command := command }

theorem propose_leads (h : Leads c) (command : Command) :
    propose c command .normal =
      (extended c (entryOf c command), .ok (lastLogIndex c + 1, c.term)) := by
  have halone : Alone (appendOwn c (entryOf c command)) := h.alone
  have hcommit := maybeAdvanceCommit_alone (e := entryOf c command) h.toSettled rfl rfl
    (fun htype => by cases htype)
  rw [← broadcastAppends_alone halone] at hcommit
  rw [propose, if_neg (not_not.mpr h.role), if_neg (not_not.mpr h.transfer)]
  exact congrArg (·, _) hcommit

theorem requestRead_leads (h : Leads c) :
    requestRead c =
      ({ c with
          readCounter := c.readCounter + 1
          readOutcomes := c.readOutcomes ++ [⟨c.readCounter + 1, c.commitIndex, true⟩] },
        .ok (c.readCounter + 1)) := by
  have hready : ¬termAt c c.commitIndex ≠ c.term := not_not.mpr h.term
  have hacked : majority (registerRead c) ≤ (newRead c).acks.card :=
    (majority_alone (c := registerRead c) h.alone).le
  have hpending : (registerRead c).pendingReads = [newRead c] := by
    rw [registerRead, h.reads]
    rfl
  rw [requestRead, if_neg (not_not.mpr h.role), if_neg hready, confirmReads, hpending]
  simp only [List.filter_cons, hacked, decide_true, if_true, List.filter_nil, not_true_eq_false,
    decide_false, Bool.false_eq_true, if_false, List.isEmpty_nil]
  rw [registerRead, h.reads]
  rfl

theorem tick_leads (h : Leads c) :
    ∃ elapsed, tick c = { c with ticksSinceLeader := 0, heartbeatElapsed := elapsed } := by
  have halone : Alone { leaderClock c with heartbeatElapsed := 0 } := h.alone
  have hclock : leaderClock c =
      { c with ticksSinceLeader := 0, heartbeatElapsed := c.heartbeatElapsed + 1 } := by
    simp [leaderClock, h.transfer]
  rw [tick, if_pos h.role, leaderTick, broadcastAppends_alone halone, hclock]
  split
  · exact ⟨0, rfl⟩
  · exact ⟨_, rfl⟩

theorem leads_compact (h : Leads c) (data : Bytes) :
    Leads (compact c (lastLogIndex c) data).1 ∧
      lastLogIndex (compact c (lastLogIndex c) data).1 = lastLogIndex c := by
  have hlast := lastLogIndex_eq h.numbered
  rw [compact]
  split
  · exact ⟨h, rfl⟩
  · rename_i hlt
    rw [if_neg (by rw [h.delivered]; exact Nat.lt_irrefl _)]
    have hempty : entriesAfter c (lastLogIndex c) = [] := by
      rw [entriesAfter_eq h.numbered (by omega), List.drop_of_length_le (by omega)]
    rw [hempty]
    refine ⟨⟨⟨h.alone, numbered_nil _, h.commit, h.delivered⟩, h.role, h.transfer, ?_, h.reads⟩,
      rfl⟩
    change (if c.commitIndex = lastLogIndex c then _ else _) = c.term
    rw [if_pos h.commit, ← h.commit]
    exact h.term

end Core

section Node

variable {σ : Type} {S : StateMachine σ} {n : Node σ}

/-- A node that leads a cluster of one and has nothing left to do. -/
structure Ready (n : Node σ) : Prop where
  leads : Leads n.core
  queues : takeQueues n.core = n.core
  applied : n.applied = lastLogIndex n.core
  running : n.stopped = false
  waiters : n.waiters = fun _ => none
  readWaiters : n.readWaiters = fun _ => none
  appliedWaiters : n.appliedWaiters = []

theorem ready_maybeCompact (h : Ready n) :
    Ready (maybeCompact S n) ∧ (maybeCompact S n).sm = n.sm ∧
      (maybeCompact S n).effects = n.effects := by
  rw [maybeCompact]
  split
  · exact ⟨h, rfl, rfl⟩
  · cases S.snapshot n.sm with
    | none => exact ⟨h, rfl, rfl⟩
    | some data =>
        obtain ⟨hleads, hlast⟩ := leads_compact h.leads data
        rw [← h.applied] at hleads hlast
        refine ⟨⟨hleads, ?_, hlast.symm, h.running, h.waiters, h.readWaiters, h.appliedWaiters⟩,
          rfl, rfl⟩
        change takeQueues (compact n.core n.applied data).1 = (compact n.core n.applied data).1
        rw [← h.queues, compact]
        split
        · rfl
        · split <;> rfl

theorem step_eq (h : n.stopped = false) {m : Msg} {a : Node σ} {replies : List Packet}
    (hm : dispatch { n with effects := [] } m = (a, some replies))
    (hrestore : a.core.pendingRestore = none) :
    (step S n m).1 = maybeCompact S (a.core.readOutcomes.foldl resolveRead
      (a.core.committed.foldl (applyEntry S) { a with core := takeQueues a.core })) := by
  rw [step, if_neg (by rw [h]; decide), hm]
  dsimp only
  rw [afterStep, drain, hrestore]
  rfl

theorem Ready.committed (h : Ready n) : n.core.committed = [] :=
  (congrArg Core.committed h.queues).symm

theorem Ready.readOutcomes (h : Ready n) : n.core.readOutcomes = [] :=
  (congrArg Core.readOutcomes h.queues).symm

theorem Ready.pendingRestore (h : Ready n) : n.core.pendingRestore = none :=
  (congrArg Core.pendingRestore h.queues).symm

theorem applyEntry_awaited {e : Entry} {done : Chan} (happlied : n.appliedWaiters = [])
    (hwaiters : n.waiters = Function.update (fun _ => none) e.index (some ⟨e.term, done⟩)) :
    applyEntry S n e =
      { n with
        sm := feedEntry S n.sm e
        applied := e.index
        waiters := fun _ => none
        appliedWaiters := []
        effects := n.effects ++ [.applied e, .answered done (.ok ())] } := by
  have hself : n.waiters e.index = some ⟨e.term, done⟩ := by
    rw [hwaiters, Function.update_self]
  have hclear : Function.update n.waiters e.index none = fun _ => none := by
    rw [hwaiters, Function.update_idem, Function.update_eq_self]
  rw [applyEntry, fireAppliedWaiters, answerWaiter]
  simp only [emit, happlied, hself, hclear, List.filter_nil, List.map_nil, List.append_nil,
    if_true, List.append_assoc, List.singleton_append]

theorem step_propose (h : Ready n) (command : Command) (done : Chan) :
    Ready (step S n (.propose command done)).1 ∧
      (step S n (.propose command done)).1.sm =
        S.apply n.sm (lastLogIndex n.core + 1) command.bytes ∧
      (step S n (.propose command done)).1.effects =
        [.applied (entryOf n.core command), .answered done (.ok ())] := by
  have hm : dispatch { n with effects := [] } (.propose command done) =
      ({ n with
          core := extended n.core (entryOf n.core command)
          waiters := Function.update n.waiters (lastLogIndex n.core + 1) (some ⟨n.core.term, done⟩)
          effects := [] }, some []) := by
    rw [dispatch, propose_leads h.leads]
    rfl
  have hstep := step_eq (S := S) h.running hm h.pendingRestore
  have hcommitted : (extended n.core (entryOf n.core command)).committed =
      [entryOf n.core command] := by
    rw [extended, h.committed]
    rfl
  have houtcomes : (extended n.core (entryOf n.core command)).readOutcomes = [] := h.readOutcomes
  rw [hcommitted, houtcomes, List.foldl_cons, List.foldl_nil, List.foldl_nil] at hstep
  have hawaited := applyEntry_awaited (S := S) (e := entryOf n.core command)
    (n := { n with
      core := takeQueues (extended n.core (entryOf n.core command))
      waiters := Function.update n.waiters (lastLogIndex n.core + 1) (some ⟨n.core.term, done⟩)
      effects := [] }) h.appliedWaiters (by rw [h.waiters]; rfl)
  have hleads := leads_extended (e := entryOf n.core command) h.leads rfl rfl
  rw [hstep, hawaited]
  exact ready_maybeCompact ⟨hleads.handed _ _ _, rfl, (lastLogIndex_appendOwn n.core _).symm,
    h.running, rfl, h.readWaiters, rfl⟩

theorem resolveRead_awaited {id : Nat} {respc : Chan}
    (hwaiters : n.readWaiters = Function.update (fun _ => none) id (some respc)) :
    resolveRead n ⟨id, n.applied, true⟩ =
      { n with
        readWaiters := fun _ => none
        effects := n.effects ++ [.readAnswered respc (.ok n.applied)] } := by
  have hself : n.readWaiters id = some respc := by
    rw [hwaiters, Function.update_self]
  have hclear : Function.update n.readWaiters id none = fun _ => none := by
    rw [hwaiters, Function.update_idem, Function.update_eq_self]
  simp [resolveRead, emit, hself, hclear]

theorem step_read (h : Ready n) (respc : Chan) :
    Ready (step S n (.read respc)).1 ∧ (step S n (.read respc)).1.sm = n.sm ∧
      (step S n (.read respc)).1.effects = [.readAnswered respc (.ok n.applied)] := by
  have hm : dispatch { n with effects := [] } (.read respc) =
      ({ n with
          core := { n.core with
            readCounter := n.core.readCounter + 1
            readOutcomes :=
              n.core.readOutcomes ++ [⟨n.core.readCounter + 1, n.core.commitIndex, true⟩] }
          readWaiters := Function.update n.readWaiters (n.core.readCounter + 1) (some respc)
          effects := [] }, some []) := by
    rw [dispatch, requestRead_leads h.leads]
  have houtcomes :
      n.core.readOutcomes ++ [⟨n.core.readCounter + 1, n.core.commitIndex, true⟩] =
        [⟨n.core.readCounter + 1, n.applied, true⟩] := by
    rw [h.readOutcomes, h.leads.commit, h.applied]
    rfl
  have hstep := step_eq (S := S) h.running hm h.pendingRestore
  dsimp only at hstep
  rw [h.committed, houtcomes, List.foldl_nil, List.foldl_cons, List.foldl_nil] at hstep
  have hawaited := @resolveRead_awaited σ
    { n with
      core := takeQueues { n.core with readCounter := n.core.readCounter + 1 }
      readWaiters := Function.update n.readWaiters (n.core.readCounter + 1) (some respc)
      effects := [] } (n.core.readCounter + 1) respc (by rw [h.readWaiters])
  have hnode := hstep.trans (congrArg (maybeCompact S) hawaited)
  rw [hnode]
  exact ready_maybeCompact
    ⟨h.leads.handed _ _ _, rfl, h.applied, h.running, h.waiters, rfl, h.appliedWaiters⟩

theorem step_tick (h : Ready n) :
    Ready (step S n .tick).1 ∧ (step S n .tick).1.sm = n.sm ∧ (step S n .tick).1.effects = [] := by
  obtain ⟨elapsed, htick⟩ := tick_leads h.leads
  have hm : dispatch { n with effects := [] } .tick =
      ({ n with
          core := { n.core with ticksSinceLeader := 0, heartbeatElapsed := elapsed }
          effects := [] }, some []) := by
    rw [← htick]
    rfl
  have hstep := step_eq (S := S) h.running hm h.pendingRestore
  dsimp only at hstep
  rw [h.committed, h.readOutcomes, List.foldl_nil, List.foldl_nil] at hstep
  rw [hstep]
  exact ready_maybeCompact
    ⟨h.leads.handed _ _ _, rfl, h.applied, h.running, h.waiters, h.readWaiters, h.appliedWaiters⟩

/-- A node of its own before its first election. -/
structure Waiting (n : Node σ) : Prop where
  settled : Settled n.core
  empty : n.core.entries = []
  role : n.core.role = .follower
  reads : n.core.pendingReads = []
  queues : takeQueues n.core = n.core
  applied : n.applied = lastLogIndex n.core
  threshold : 0 < n.compactAt
  running : n.stopped = false
  waiters : n.waiters = fun _ => none
  readWaiters : n.readWaiters = fun _ => none
  appliedWaiters : n.appliedWaiters = []

theorem applyEntry_quiet {e : Entry} (happlied : n.appliedWaiters = [])
    (hwaiters : n.waiters = fun _ => none) :
    applyEntry S n e =
      { n with
        sm := feedEntry S n.sm e
        applied := e.index
        effects := n.effects ++ [.applied e] } := by
  rw [applyEntry, fireAppliedWaiters, answerWaiter]
  simp only [emit, happlied, hwaiters, List.filter_nil, List.map_nil, List.append_nil]

theorem step_campaign (h : Waiting n) {c : Core} (hc : Settled c) (hreads : c.pendingReads = [])
    (hcommitted : c.committed = []) (houtcomes : c.readOutcomes = [])
    (hrestore : c.pendingRestore = none) (htick : tick n.core = startCampaign c) :
    Ready (step S n .tick).1 ∧ (step S n .tick).1.sm = n.sm := by
  have hheads : Heads (becomeLeader (becomeCandidate c)) :=
    ⟨⟨hc.alone, hc.numbered, hc.commit, hc.delivered⟩, rfl, rfl, hreads⟩
  generalize hlead : becomeLeader (becomeCandidate c) = l at hheads
  have hm : dispatch { n with effects := [] } .tick =
      ({ n with core := extended l (noopEntry l), effects := [] }, some []) := by
    rw [← hlead, ← startCampaign_alone hc, ← htick]
    rfl
  have hqueue : (extended l (noopEntry l)).committed = [noopEntry l] := by
    rw [extended, ← hlead]
    exact congrArg (· ++ _) hcommitted
  have hnone : (extended l (noopEntry l)).readOutcomes = [] := by
    rw [extended, ← hlead]
    exact houtcomes
  have hstep := step_eq (S := S) h.running hm (by rw [← hlead]; exact hrestore)
  have hquiet := @applyEntry_quiet σ S
    { n with core := takeQueues (extended l (noopEntry l)), effects := [] } (noopEntry l)
    h.appliedWaiters h.waiters
  dsimp only at hstep
  rw [hqueue, hnone, List.foldl_cons, List.foldl_nil, List.foldl_nil, hquiet] at hstep
  have hleads := (leads_of_heads hheads).handed
  obtain ⟨hready, hsm, -⟩ := @ready_maybeCompact σ S
    { n with
      core := takeQueues (extended l (noopEntry l))
      sm := feedEntry S n.sm (noopEntry l)
      applied := (noopEntry l).index
      effects := [.applied (noopEntry l)] }
    ⟨hleads _ _ _, rfl, (lastLogIndex_appendOwn l _).symm, h.running, h.waiters, h.readWaiters,
      h.appliedWaiters⟩
  rw [hstep]
  exact ⟨hready, hsm⟩

theorem step_waiting (h : Waiting n) :
    (Waiting (step S n .tick).1 ∨ Ready (step S n .tick).1) ∧ (step S n .tick).1.sm = n.sm := by
  have hcommitted : n.core.committed = [] := (congrArg Core.committed h.queues).symm
  have houtcomes : n.core.readOutcomes = [] := (congrArg Core.readOutcomes h.queues).symm
  have hrestore : n.core.pendingRestore = none := (congrArg Core.pendingRestore h.queues).symm
  have hclock : Settled (followerClock n.core) :=
    ⟨h.settled.alone, h.settled.numbered, h.settled.commit, h.settled.delivered⟩
  have hmember : ¬isMember (followerClock n.core) = false := by
    rw [isMember_alone hclock.alone]
    decide
  have htick : tick n.core =
      if n.core.electionTimeout ≤ n.core.electionElapsed + 1 then
        electionTimedOut (followerClock n.core)
      else followerClock n.core := by
    rw [tick, if_neg (by rw [h.role]; decide)]
    rfl
  split at htick
  · rw [electionTimedOut, if_neg hmember] at htick
    split at htick
    · obtain ⟨hready, hsm⟩ := step_campaign h hclock h.reads hcommitted houtcomes hrestore htick
      exact ⟨Or.inr hready, hsm⟩
    · rw [startPreCampaign_alone hclock.alone] at htick
      obtain ⟨hready, hsm⟩ := @step_campaign σ S n h
        { becomePreCandidate (followerClock n.core) with preVotes := none }
        ⟨hclock.alone, hclock.numbered, hclock.commit, hclock.delivered⟩ h.reads hcommitted
        houtcomes hrestore htick
      exact ⟨Or.inr hready, hsm⟩
  · have hm : dispatch { n with effects := [] } .tick =
        ({ n with core := followerClock n.core, effects := [] }, some []) := by
      rw [← htick]
      rfl
    have hstep := step_eq (S := S) h.running hm hrestore
    have hlast : lastLogIndex n.core = n.core.snapIndex := by
      rw [lastLogIndex_eq h.settled.numbered, h.empty]
      rfl
    have hsmall : n.applied < n.core.snapIndex + n.compactAt := by
      rw [h.applied, hlast]
      exact Nat.lt_add_of_pos_right h.threshold
    have hoff : (followerClock n.core).committed = [] := hcommitted
    have hdone : (followerClock n.core).readOutcomes = [] := houtcomes
    dsimp only at hstep
    rw [hoff, hdone, List.foldl_nil, List.foldl_nil] at hstep
    rw [hstep.trans (if_pos hsmall)]
    exact ⟨Or.inl ⟨⟨hclock.alone, hclock.numbered, hclock.commit, hclock.delivered⟩, h.empty,
      h.role, h.reads, rfl, h.applied, h.threshold, h.running, h.waiters, h.readWaiters,
      h.appliedWaiters⟩, rfl⟩

theorem waiting_of_newNode {cfg : Config} {M : Members} {threshold : Nat} {rng : Nat → Nat}
    (hM : initialMembers cfg = .ok M) (halone : M.keys = [cfg.id])
    (h : newNode S cfg threshold rng blank = some n) : Waiting n ∧ n.sm = S.fresh := by
  unfold newNode at h
  cases hcore : newCore cfg rng blank with
  | error err =>
      rw [hcore] at h
      cases h
  | ok c =>
      obtain ⟨hid, M', entries, hM', hlog, rfl⟩ := newCore_cases hcore
      obtain rfl := Except.ok.inj (hM.symm.trans hM')
      obtain rfl : [] = entries := Except.ok.inj hlog
      rw [hcore] at h
      obtain rfl := Option.some.inj h
      refine ⟨⟨⟨halone, numbered_nil _, rfl, rfl⟩, rfl, rfl, rfl, rfl, rfl, ?_, rfl, rfl, rfl, rfl⟩,
        rfl⟩
      change 0 < if threshold = 0 then 4096 else threshold
      split
      · decide
      · exact Nat.pos_of_ne_zero ‹_›

theorem ready_of_ticks {k : Nat} {n₀ : Node σ} (h₀ : Waiting n₀)
    (h : n = (fun m => (step S m .tick).1)^[k] n₀) :
    (Waiting n ∨ Ready n) ∧ n.sm = n₀.sm := by
  induction k generalizing n with
  | zero =>
      rw [h]
      exact ⟨Or.inl h₀, rfl⟩
  | succ k ih =>
      rw [Function.iterate_succ_apply'] at h
      obtain ⟨hk, hsm⟩ := ih rfl
      subst h
      rcases hk with hk | hk
      · obtain ⟨hnext, hsame⟩ := step_waiting (S := S) hk
        exact ⟨hnext, hsame.trans hsm⟩
      · obtain ⟨hnext, hsame, -⟩ := step_tick (S := S) hk
        exact ⟨Or.inr hnext, hsame.trans hsm⟩

end Node

end RaftKV.Raft.Solo
