import RaftKV.Refinement.Sending

namespace RaftKV.Refinement.Elections

open Consensus.Quorum Consensus.Protocol Consensus.Preservation Consensus.Commitment
open Consensus.Locality
open Raft Raft.Durability
open Refinement.Relation Refinement.Sending

variable {M : Members} {R : Regime M} {T : Snapshot → List Entry → Prop}
variable {g : Ghost} {i : ID} {c c' : Core} {l : Lead ID Entry}
variable {L : List Entry} {t : Nat}

/-- The new core of node `i` still stands for it, after some moves of its own. -/
def Sim (R : Regime M) (T : Snapshot → List Entry → Prop) (g : Ghost) (i : ID) (c : Core) :
    Prop :=
  ∃ g', Advance R i g g' ∧ NodeRel R T g' i c ∧ Settled M (g'.log i) c

theorem sim_of_nodeRel (hs : Sound R g) (h : NodeRel R T g i c) (hset : Settled M (g.log i) c) :
    Sim R T g i c :=
  ⟨g, advance_refl hs i, h, hset⟩

theorem Sim.after {g' : Ghost} (ha : Advance R i g g') (h : Sim R T g' i c) : Sim R T g i c := by
  obtain ⟨g'', ha', hrest⟩ := h
  exact ⟨g'', ha.trans ha', hrest⟩

section Terms

theorem vote_eq_none (hs : Sound R g) (h : NodeRel R T g i c) (ht : c.term < t) :
    g.vote i t = none := by
  cases hv : g.vote i t with
  | none => rfl
  | some x =>
      have := hs.inv.vote_term i t x hv
      rw [h.term] at this
      omega

theorem sim_stepDown (hs : Sound R g) (h : NodeRel R T g i c) (ht : c.term < t) :
    ∃ g', Advance R i g g' ∧ g'.log = g.log ∧ NodeRel R T g' i (stepDown c t) := by
  have ht' : g.term i < t := by
    rwa [h.term]
  have hg : Grows g (g.adopt i t) := grows_adopt ht'
  have hnone := vote_eq_none hs h ht
  refine ⟨g.adopt i t, ⟨⟨inv_adopt hs.inv ht', hs.numbered, hs.allowed⟩, hg, local_adopt t⟩,
    rfl, ?_⟩
  exact
    { id := h.id
      pos := h.pos
      term := Function.update_self _ _ _
      vote := by
        change noVote = (g.vote i t).getD noVote
        rw [hnone]
        rfl
      vote_pos := by
        change g.vote i t ≠ some noVote
        rw [hnone]
        exact (Option.some_ne_none noVote).symm
      mirror := { h.mirror with }
      saved := { h.saved with state := rfl }
      cursors := cursors_of_eq h.cursors rfl rfl rfl
      snapshot := h.snapshot
      commit_le := h.commit_le
      delivered := committed_mono hg h.delivered ht.le (List.take_prefix _ _)
      candidate := fun hr => by cases hr
      leader := fun hr => by cases hr
      preVotes := fun hp => by cases hp
      transfer := Or.inl rfl
      outbox := outbox_mono hg h.outbox
      committed := fun e he => ⟨(h.committed e he).1, chosen_mono hg (h.committed e he).2⟩ }

theorem settled_stepDown (h : Settled M L c) (t : Nat) :
    Settled M L (stepDown c t) :=
  ⟨h.members, h.lastConfig⟩

theorem stepDown_sim (hs : Sound R g) (h : NodeRel R T g i c) (hset : Settled M (g.log i) c)
    (ht : c.term < t) : Sim R T g i (stepDown c t) := by
  obtain ⟨g', ha, hlog, hrel⟩ := sim_stepDown hs h ht
  refine ⟨g', ha, hrel, ?_⟩
  rw [hlog]
  exact settled_stepDown hset t

theorem adoptTerm_term (c : Core) (t : Nat) : (adoptTerm c t).term = max c.term t := by
  unfold adoptTerm
  split
  · rename_i hlt
    exact (max_eq_right hlt.le).symm
  · rename_i hle
    exact (max_eq_left (Nat.le_of_not_lt hle)).symm

theorem sim_adoptTerm (hs : Sound R g) (h : NodeRel R T g i c) (hset : Settled M (g.log i) c)
    (t : Nat) : ∃ g', Advance R i g g' ∧ g'.log = g.log ∧ NodeRel R T g' i (adoptTerm c t) ∧
      Settled M (g'.log i) (adoptTerm c t) := by
  unfold adoptTerm
  split
  · rename_i hlt
    obtain ⟨g', ha, hlog, hrel⟩ := sim_stepDown hs h hlt
    refine ⟨g', ha, hlog, hrel, ?_⟩
    rw [hlog]
    exact settled_stepDown hset t
  · exact ⟨g, advance_refl hs i, rfl, h, hset⟩

theorem nodeRel_recognizeLeader (h : NodeRel R T g i c) (leaderId : ID) :
    NodeRel R T g i (recognizeLeader c leaderId) :=
  nodeRel_congr (nodeRel_follower h (if c.role = .follower then c.votes else ∅)) rfl

end Terms

section Voting

theorem upToDate_of_logUpToDate {V : List Entry} (hm : Mirror M V c)
    (h : logUpToDate c L.length (lastTerm (scheme M) L) = true) : UpToDate (scheme M) L V := by
  unfold logUpToDate at h
  rw [hm.lastLogTerm, hm.lastLogIndex] at h
  split at h
  · rw [decide_eq_true_eq] at h
    exact Or.inl h
  · rename_i heq
    rw [decide_eq_true_eq] at h
    exact Or.inr ⟨not_not.mp heq, h⟩

theorem sim_grantVote (hs : Sound R g) (h : NodeRel R T g i c) {candidate : ID}
    (hcand : g.candLog candidate c.term = some L) (hpos : candidate ≠ 0)
    (hfree : c.votedFor = noVote ∨ c.votedFor = candidate)
    (hup : UpToDate (scheme M) L (g.log i)) :
    ∃ g', Advance R i g g' ∧ g'.log = g.log ∧ NodeRel R T g' i (grantVote c candidate) ∧
      g'.vote i c.term = some candidate := by
  have hpos' : candidate ≠ noVote := hpos
  by_cases hvote : c.votedFor = candidate
  · have hsome : g.vote i c.term = some candidate := by
      have hv := h.vote
      rw [hvote] at hv
      cases hg : g.vote i c.term with
      | none =>
          rw [hg] at hv
          exact absurd hv hpos'
      | some x =>
          rw [hg] at hv
          exact congrArg some hv.symm
    have hview : view (grantVote c candidate) = view c := by
      rw [grantVote_of_eq hvote]
      rfl
    exact ⟨g, advance_refl hs i, rfl, nodeRel_congr h hview, hsome⟩
  · have hno : c.votedFor = noVote := hfree.resolve_right hvote
    have hnone : g.vote i (g.term i) = none := by
      have hv := h.vote
      rw [hno] at hv
      rw [h.term]
      cases hg : g.vote i c.term with
      | none => rfl
      | some x =>
          rw [hg] at hv
          exact absurd (hg.trans (congrArg some hv.symm)) h.vote_pos
    have hcand' : g.candLog candidate (g.term i) = some L := by
      rwa [h.term]
    have hg : Grows g (g.grant i candidate) := grows_grant candidate hnone
    have hself : (g.grant i candidate).vote i c.term = some candidate := by
      rw [← h.term]
      exact set2_same _ _ _ _
    refine ⟨g.grant i candidate, ⟨⟨inv_grant hs.inv hnone hcand' hup, hs.numbered, hs.allowed⟩,
      hg, local_grant candidate⟩, rfl, ?_, hself⟩
    rw [grantVote_of_ne hvote]
    exact
      { id := h.id
        pos := h.pos
        term := h.term
        vote := by
          change candidate = ((g.grant i candidate).vote i c.term).getD noVote
          rw [hself]
          rfl
        vote_pos := by
          change (g.grant i candidate).vote i c.term ≠ some noVote
          rw [hself]
          exact fun heq => hpos' (Option.some.inj heq)
        mirror := { h.mirror with }
        saved := { h.saved with state := rfl }
        cursors := cursors_of_eq h.cursors rfl rfl rfl
        snapshot := h.snapshot
        commit_le := h.commit_le
        delivered := committed_mono hg h.delivered le_rfl (List.take_prefix _ _)
        candidate := fun hr =>
          { cand := (h.candidate hr).cand
            fresh := (h.candidate hr).fresh
            votes := fun x hx =>
              ⟨((h.candidate hr).votes x hx).1, (hg.vote _ _ _ ((h.candidate hr).votes x hx).2).1⟩ }
        leader := fun hr => by
          obtain ⟨l, hl⟩ := h.leader hr
          exact ⟨l, { hl with }⟩
        preVotes := h.preVotes
        transfer := h.transfer
        outbox := outbox_mono hg h.outbox
        committed := fun e he => ⟨(h.committed e he).1, chosen_mono hg (h.committed e he).2⟩ }

theorem settled_grantVote (h : Settled M L c) (candidate : ID) :
    Settled M L (grantVote c candidate) :=
  ⟨h.members, h.lastConfig⟩

end Voting

section Campaigns

theorem nodeRel_push (h : NodeRel R T g i { c with role := .follower })
    (hadv : Advance R i g (g.push l)) (hrole : c.role = .leader) (hnode : l.node = i)
    {e : Entry} (hlog : l.log = g.log i ++ [e]) (he : e.index = lastLogIndex c + 1)
    (hmatch : ∀ x, matchIndexOf c x ≤ g.acc x c.term) (hvotes : c.votes = l.voters)
    (htop : ∀ cm ∈ g.commits, cm.term = c.term → cm.len ≤ c.commitIndex)
    (hown : l.init.length < c.commitIndex →
      ∃ cm ∈ g.commits, cm.term = c.term ∧ c.commitIndex ≤ cm.len) :
    NodeRel R T (g.push l) i (appendOwn c e) ∧ Leading (g.push l) i (appendOwn c e) l := by
  have hg := hadv.grows
  have hterm : g.term l.node = c.term := by
    rw [hnode]
    exact h.term
  have hnew : (g.push l).log i = g.log i ++ [e] := by
    rw [← hnode] at hlog ⊢
    rw [← hlog]
    exact Function.update_self _ _ _
  have hlead : (g.push l).lead c.term = some l := by
    rw [← hterm]
    exact push_lead_self g l
  have hmirror : Mirror M (g.log i) c := { h.mirror with }
  have hsaved : Saved M c := { h.saved with }
  have hL : Leading (g.push l) i (appendOwn c e) l :=
    { lead := hlead
      node := hnode
      log := hlog.trans hnew.symm
      acc := by
        rw [hnew, ← hlog]
        change (g.push l).acc i c.term = l.log.length
        rw [← hterm, ← hnode]
        exact set2_same _ _ _ _
      matched := fun x => (hmatch x).trans (hg.acc x _)
      votes := hvotes
      own := by
        intro hlt
        obtain ⟨cm, hcm, hrest⟩ := hown hlt
        exact ⟨cm, hg.commits hcm, hrest⟩
      top := htop }
  have hle : c.snapIndex ≤ (g.log i).length := hmirror.snap_le
  refine ⟨?_, hL⟩
  exact
    { id := h.id
      pos := h.pos
      term := h.term
      vote := h.vote
      vote_pos := h.vote_pos
      mirror :=
        { numbered := by
            rw [hnew, ← hlog]
            exact hadv.sound.numbered _ l hlead
          snap_le := by
            rw [hnew, List.length_append]
            exact hle.trans (Nat.le_add_right _ _)
          entries := by
            change c.entries ++ [e] = ((g.push l).log i).drop c.snapIndex
            rw [hnew, List.drop_append_of_le_length hle, hmirror.entries]
          snapTerm := by
            rw [hnew]
            change c.snapTerm = termOf (g.log i ++ [e]) c.snapIndex
            rw [← termOf_of_isPrefix (List.prefix_append _ _) hle, hmirror.snapTerm]
          snapConfig := by
            rw [hnew]
            change c.snapConfig = membersAfter M ((g.log i ++ [e]).take c.snapIndex)
            rw [List.take_append_of_le_length hle]
            exact hmirror.snapConfig }
      saved := saved_appendOwn hsaved he
      cursors := cursors_of_eq h.cursors rfl rfl rfl
      snapshot := by
        intro snap hsnap
        obtain ⟨henc, htaken⟩ := h.snapshot snap hsnap
        refine ⟨henc, ?_⟩
        have hidx : snap.lastIndex = c.snapIndex := by
          have := hsaved.snapIndex
          rw [loadRaftSnapshot, show c.disk.snapshot = some snap from hsnap] at this
          exact this
        rw [hnew, List.take_append_of_le_length (hidx ▸ hle)]
        exact htaken
      commit_le := h.commit_le
      delivered := committed_mono hg h.delivered le_rfl (by
        rw [hnew]
        exact (List.take_prefix _ _).trans (List.prefix_append _ _))
      candidate := fun hr => by
        change c.role = .candidate at hr
        rw [hrole] at hr
        cases hr
      leader := fun _ => ⟨l, hL⟩
      preVotes := h.preVotes
      transfer := h.transfer
      outbox := outbox_mono hg h.outbox
      committed := fun a ha => ⟨(h.committed a ha).1, chosen_mono hg (h.committed a ha).2⟩ }

theorem settled_appendOwn (h : Settled M L c) {e : Entry}
    (hplain : changeOf e = none) : Settled M (L ++ [e]) (appendOwn c e) where
  members := by
    change c.members = membersAfter M (L ++ [e])
    rw [membersAfter_concat, applyChangeOf, hplain]
    exact h.members
  lastConfig := by
    intro k a ha hconf
    rcases Nat.lt_or_ge k L.length with hk | hk
    · rw [List.getElem?_append_left hk] at ha
      exact h.lastConfig k a ha hconf
    · rw [List.getElem?_append_right hk] at ha
      rcases List.mem_singleton.mp (List.mem_of_getElem? ha) with rfl
      rw [hplain] at hconf
      cases hconf

theorem sim_replicate (hs : Sound R g) (h : NodeRel R T g i c) (hl : Leading g i c l)
    (hrole : c.role = .leader) (hconf : Counts M (g.log i) c) :
    ∃ g', Advance R i g g' ∧ g'.log = g.log ∧
      NodeRel R T g' i (maybeAdvanceCommit (broadcastAppends c)) ∧
      Leading g' i (maybeAdvanceCommit (broadcastAppends c)) l := by
  obtain ⟨hrel, hlead⟩ := nodeRel_broadcastAppends hs h hl
  obtain ⟨out, hout, -⟩ := replicates_broadcastAppends c
  refine sim_maybeAdvanceCommit hs hrel hlead ?_ ?_
  · rw [hout.eq]
    exact hrole
  · have hs := sameLog_replicates hout
    obtain ⟨k, hmem, hrest⟩ := hconf
    exact ⟨k, by rw [hs.members, hmem], hrest⟩

theorem sameLog_replicate (c : Core) : SameLog c (maybeAdvanceCommit (broadcastAppends c)) := by
  obtain ⟨out, hout, -⟩ := replicates_broadcastAppends c
  exact (sameLog_replicates hout).trans (sameLog_maybeAdvanceCommit _)

theorem sim_maybeWinElection (hs : Sound R g) (h : NodeRel R T g i c)
    (hset : Settled M (g.log i) c) : Sim R T g i (maybeWinElection c) := by
  unfold maybeWinElection
  split
  · exact sim_of_nodeRel hs h hset
  · rename_i hwin
    rw [not_or, not_not, Nat.not_lt] at hwin
    obtain ⟨hrole, hcount⟩ := hwin
    have hcand := h.candidate hrole
    have hlast : lastLogIndex (becomeLeader c) = (g.log i).length := h.mirror.lastLogIndex
    let e : Entry := noopEntry (becomeLeader c)
    let l : Lead ID Entry := ⟨i, g.log i, c.votes, g.log i ++ [e]⟩
    have hplain : changeOf e = none := changeOf_of_type_ne (by simp [e, noopEntry])
    have hasked : g.candLog i (g.term i) = some (g.log i) := by
      rw [h.term]
      exact hcand.cand
    have hmaj : Majority c.votes ((scheme M).config (g.log i)) := by
      refine ⟨fun x hx => mem_voters.mpr (hcand.votes x hx).1, ?_⟩
      change (voters (membersAfter M (g.log i))).card < 2 * c.votes.card
      rw [card_voters, ← hset.members]
      unfold majority at hcount
      omega
    have hgiven : ∀ x ∈ c.votes, g.vote x (g.term i) = some i := by
      intro x hx
      rw [h.term]
      exact (hcand.votes x hx).2
    have hfresh : ∀ l, g.lead (g.term i) = some l → l.node ≠ i := by
      rw [h.term]
      exact hcand.fresh
    have hstep : Step (scheme M) g (g.push l) := by
      refine Step.win g i c.votes e hasked hmaj hgiven hfresh h.term.symm ?_
      change ¬ (changeOf e).isSome = true
      rw [hplain]
      exact Bool.false_ne_true
    have htop : ∀ cm ∈ g.commits, cm.term = c.term → cm.len ≤ c.commitIndex := by
      intro cm hcm hterm
      obtain ⟨l', hok⟩ := hs.inv.commit cm hcm
      have hnone := lead_eq_none_of_votes hs.inv hasked hmaj hgiven hfresh
      rw [h.term, ← hterm, hok.lead] at hnone
      cases hnone
    obtain ⟨hinv, hg⟩ := inv_step hs.inv hstep
    have hadv : Advance R i g (g.push l) :=
      { sound :=
          { inv := hinv
            numbered := by
              intro t l' hl'
              by_cases ht : t = g.term l.node
              · subst ht
                rw [push_lead_self] at hl'
                rw [← Option.some.inj hl']
                refine numbered_append h.mirror.numbered ?_
                rw [numbered_cons]
                exact ⟨by simp [e, noopEntry, hlast], numbered_nil _⟩
              · rw [push_lead_of_ne g l ht] at hl'
                exact hs.numbered t l' hl'
            allowed := by
              intro t l' hl'
              by_cases ht : t = g.term l.node
              · subst ht
                rw [push_lead_self] at hl'
                rw [← Option.some.inj hl']
                exact List.forall_mem_append.mpr ⟨allowed_of_matched hs (hs.inv.log_matched i),
                  List.forall_mem_singleton.mpr (R.noop_allowed e rfl)⟩
              · rw [push_lead_of_ne g l ht] at hl'
                exact hs.allowed t l' hl' }
        grows := hg
        frame := local_push l }
    have hfollow : NodeRel R T g i { becomeLeader c with role := .follower } :=
      { h with
        mirror := mirror_of_sameLog h.mirror rfl
        saved := saved_of_sameLog h.saved rfl
        cursors := cursors_of_eq h.cursors rfl rfl rfl
        candidate := fun hr => by cases hr
        leader := fun hr => by cases hr
        preVotes := fun hp => by cases hp
        transfer := Or.inl rfl }
    obtain ⟨hrel, hL⟩ := nodeRel_push hfollow hadv rfl rfl rfl rfl (fun _ => Nat.zero_le _) rfl
      htop (fun hlt => by
        have := h.delivered.1
        have := h.commit_le
        change (g.log i).length < c.commitIndex at hlt
        omega)
    have hnew : (g.push l).log i = g.log i ++ [e] := Function.update_self _ _ _
    have hset₀ : Settled M (g.log i) (becomeLeader c) := settled_congr hset rfl
    have hset' : Settled M ((g.push l).log i) (appendOwn (becomeLeader c) e) := by
      rw [hnew]
      exact settled_appendOwn hset₀ hplain
    obtain ⟨g', ha, hlog, hrel', -⟩ :=
      sim_replicate hadv.sound hrel hL rfl (counts_of_settled hset')
    refine ⟨g', hadv.trans ha, hrel', ?_⟩
    rw [hlog]
    exact settled_congr hset' (sameLog_replicate _)

theorem sim_startCampaign (hs : Sound R g) (h : NodeRel R T g i c)
    (hset : Settled M (g.log i) c) (hmem : isMember c = true) :
    Sim R T g i (startCampaign c) := by
  have hg : Grows g (g.campaign i) := grows_campaign hs.inv i
  have hadv : Advance R i g (g.campaign i) :=
    ⟨⟨inv_campaign hs.inv i, hs.numbered, hs.allowed⟩, hg, local_campaign⟩
  have hvote : (g.campaign i).vote i (c.term + 1) = some i := by
    rw [← h.term]
    exact set2_same _ _ _ _
  have hcand : (g.campaign i).candLog i (c.term + 1) = some (g.log i) := by
    rw [← h.term]
    exact set2_same _ _ _ _
  have hin : i ∈ membersAfter M (g.log i) := by
    rw [← hset.members, ← Std.ExtTreeMap.contains_iff_mem, ← h.id]
    exact hmem
  have hrel : NodeRel R T (g.campaign i) i (becomeCandidate c) :=
    { id := h.id
      pos := h.pos
      term := by
        rw [campaign_term, h.term]
        rfl
      vote := by
        change c.cfg.id = ((g.campaign i).vote i (c.term + 1)).getD noVote
        rw [hvote, h.id]
        rfl
      vote_pos := by
        change (g.campaign i).vote i (c.term + 1) ≠ some noVote
        rw [hvote]
        exact fun heq => h.pos (Option.some.inj heq)
      mirror := { h.mirror with }
      saved := { h.saved with state := rfl }
      cursors := cursors_of_eq h.cursors rfl rfl rfl
      snapshot := h.snapshot
      commit_le := h.commit_le
      delivered := committed_mono hg h.delivered (Nat.le_succ _) (List.take_prefix _ _)
      candidate := fun _ =>
        { cand := hcand
          fresh := by
            intro l hl hnode
            have := (hs.inv.lead _ l hl).term_le
            rw [hnode, h.term] at this
            change c.term + 1 ≤ c.term at this
            omega
          votes := by
            intro x hx
            change x ∈ ({c.cfg.id} : Finset ID) at hx
            rw [Finset.mem_singleton, h.id] at hx
            rw [hx]
            exact ⟨hin, hvote⟩ }
      leader := fun hr => by cases hr
      preVotes := h.preVotes
      transfer := h.transfer
      outbox := outbox_mono hg h.outbox
      committed := fun e he => ⟨(h.committed e he).1, chosen_mono hg (h.committed e he).2⟩ }
  have hset' : Settled M (g.log i) (becomeCandidate c) := ⟨hset.members, hset.lastConfig⟩
  have hbroad : NodeRel R T (g.campaign i) i (broadcast (becomeCandidate c)
      (.requestVote (voteRequest (becomeCandidate c) (becomeCandidate c).term false))) := by
    rw [broadcast_eq]
    refine nodeRel_outbox hrel ?_
    intro o ho
    obtain ⟨id, hid, rfl⟩ := List.mem_map.mp ho
    refine ⟨hrel.id ▸ ne_of_mem_peerIDs hid, fun _ => ⟨hrel.id, g.log i, hcand,
      hrel.mirror.lastLogIndex, hrel.mirror.lastLogTerm, ?_⟩⟩
    have hkey : id ∈ c.members := by
      rw [← Std.ExtTreeMap.mem_keys]
      exact List.mem_of_mem_filter hid
    rwa [hset.members] at hkey
  refine Sim.after hadv (sim_maybeWinElection hadv.sound hbroad ?_)
  rw [broadcast_eq]
  exact settled_congr hset' rfl

/-- The node raised its term and voted for itself. -/
def Campaigned (c c' : Core) : Prop :=
  c.term < c'.term ∧ c'.votedFor = c'.cfg.id

theorem sameLog_maybeWinElection_term (c : Core) :
    (maybeWinElection c).term = c.term ∧ (maybeWinElection c).votedFor = c.votedFor ∧
      (maybeWinElection c).cfg = c.cfg := by
  unfold maybeWinElection
  split
  · exact ⟨rfl, rfl, rfl⟩
  · have hs := sameLog_replicate (appendOwn (becomeLeader c) (noopEntry (becomeLeader c)))
    exact ⟨hs.term, hs.votedFor, hs.cfg⟩

theorem campaigned_startCampaign (c : Core) : Campaigned c (startCampaign c) := by
  unfold startCampaign
  dsimp only
  obtain ⟨hterm, hvote, hcfg⟩ := sameLog_maybeWinElection_term (broadcast (becomeCandidate c)
    (.requestVote (voteRequest (becomeCandidate c) (becomeCandidate c).term false)))
  rw [broadcast_eq] at hterm hvote hcfg ⊢
  refine ⟨?_, ?_⟩
  · rw [hterm]
    exact Nat.lt_succ_self _
  · rw [hvote, hcfg]
    rfl

theorem nodeRel_preVotes (h : NodeRel R T g i c) {votes : Option (Finset ID)}
    (hv : votes.isSome = true → R.voter i) : NodeRel R T g i { c with preVotes := votes } :=
  nodeRel_aside h rfl hv h.transfer h.outbox h.committed

theorem sim_maybeWinPreVote (hs : Sound R g) (h : NodeRel R T g i c)
    (hset : Settled M (g.log i) c)
    (hmem : Campaigned c (maybeWinPreVote c) → isMember c = true) :
    Sim R T g i (maybeWinPreVote c) := by
  unfold maybeWinPreVote at hmem ⊢
  split
  · exact sim_of_nodeRel hs h hset
  · rename_i votes hvotes
    rw [hvotes] at hmem
    dsimp only at hmem
    split
    · exact sim_of_nodeRel hs h hset
    · rename_i hcount
      rw [if_neg hcount] at hmem
      refine sim_startCampaign hs (nodeRel_preVotes h fun hp => by cases hp)
        (settled_congr hset rfl) (hmem (campaigned_startCampaign { c with preVotes := none }))

theorem voter_of_isMember (hs : Sound R g) (h : NodeRel R T g i c)
    (hset : Settled M (g.log i) c) (hmem : isMember c = true) : R.voter i := by
  refine R.voter_of_mem (g.log i) (allowed_of_matched hs (hs.inv.log_matched i)) i ?_
  rw [← hset.members, ← Std.ExtTreeMap.contains_iff_mem, ← h.id]
  exact hmem

theorem sim_startPreCampaign (hs : Sound R g) (h : NodeRel R T g i c)
    (hset : Settled M (g.log i) c) (hmem : isMember c = true) :
    Sim R T g i (startPreCampaign c) := by
  have hpre : NodeRel R T g i (becomePreCandidate c) :=
    nodeRel_congr (@nodeRel_preVotes _ _ _ _ _ _ h (some {c.cfg.id})
      fun _ => voter_of_isMember hs h hset hmem) rfl
  unfold startPreCampaign
  dsimp only
  refine sim_maybeWinPreVote hs ?_ ?_ ?_
  · rw [broadcast_eq]
    refine nodeRel_outbox hpre ?_
    intro o ho
    obtain ⟨id, hid, rfl⟩ := List.mem_map.mp ho
    exact ⟨hpre.id ▸ ne_of_mem_peerIDs hid, fun hfalse => by cases hfalse⟩
  · rw [broadcast_eq]
    exact settled_congr hset rfl
  · intro _
    rw [broadcast_eq]
    exact hmem

end Campaigns

end RaftKV.Refinement.Elections
