import RaftKV.Refinement.Elections

namespace RaftKV.Refinement.Leading

open Consensus.Protocol Consensus.Preservation Consensus.Locality
open Raft Raft.Durability
open Refinement.Relation Refinement.Sending Refinement.Elections

variable {M : Members} {R : Regime M} {T : Snapshot → List Entry → Prop}
variable {g : Ghost} {i : ID} {c c' : Core} {l : Lead ID Entry}
variable {cc : ConfChange} {peer sender : ID}

section Ticks

theorem sim_leaderTick (hs : Sound R g) (h : NodeRel R T g i c) (hset : Settled M (g.log i) c)
    (hrole : c.role = .leader) : Sim R T g i (leaderTick c) := by
  have hclock : ∀ n, NodeRel R T g i { leaderClock c with heartbeatElapsed := n } := by
    intro n
    refine nodeRel_aside h rfl h.preVotes ?_ h.outbox h.committed
    change (if c.transferTarget ≠ 0 ∧ c.transferTicks - 1 = 0 then 0
      else c.transferTarget) = 0 ∨ R.voter (if c.transferTarget ≠ 0 ∧
        c.transferTicks - 1 = 0 then 0 else c.transferTarget)
    split
    · exact Or.inl rfl
    · exact h.transfer
  unfold leaderTick
  dsimp only
  split
  · obtain ⟨l, hl⟩ := (hclock 0).leader hrole
    refine sim_of_nodeRel hs (nodeRel_broadcastAppends hs (hclock 0) hl).1 ?_
    obtain ⟨out, hout, -⟩ :=
      replicates_broadcastAppends { leaderClock c with heartbeatElapsed := 0 }
    have hset' : Settled M (g.log i) { leaderClock c with heartbeatElapsed := 0 } :=
      settled_congr hset rfl
    exact settled_congr hset' (sameLog_replicates hout)
  · exact sim_of_nodeRel hs (hclock _) (settled_congr hset rfl)

theorem sim_tick (hs : Sound R g) (h : NodeRel R T g i c) (hset : Settled M (g.log i) c) :
    Sim R T g i (tick c) := by
  unfold tick
  split
  · rename_i hrole
    exact sim_leaderTick hs h hset hrole
  · have hclock : NodeRel R T g i (followerClock c) := nodeRel_congr h rfl
    have hset' : Settled M (g.log i) (followerClock c) := settled_congr hset rfl
    dsimp only
    split
    · unfold electionTimedOut
      split
      · exact sim_of_nodeRel hs (nodeRel_congr hclock rfl) (settled_congr hset' rfl)
      · rename_i hmem
        rw [Bool.not_eq_false] at hmem
        split
        · exact sim_startCampaign hs hclock hset' hmem
        · exact sim_startPreCampaign hs hclock hset' hmem
    · exact sim_of_nodeRel hs hclock hset'

end Ticks

section Votes

theorem sim_handleRequestVote (hs : Sound R g) (h : NodeRel R T g i c)
    (hset : Settled M (g.log i) c) {src : ID} (hsrc : src ≠ 0) {req : RequestVoteRequest}
    (hreq : req.preVote = false → VoteAsked M g src i req) :
    ∃ g', Advance R i g g' ∧ NodeRel R T g' i (handleRequestVote c req).1 ∧
      Settled M (g'.log i) (handleRequestVote c req).1 ∧
      (req.preVote = false → (handleRequestVote c req).2.voteGranted = true →
        req.candidateId = src ∧ VoteGiven M g' i src req.term) := by
  unfold handleRequestVote
  split
  · rename_i hpre
    exact ⟨g, advance_refl hs i, h, hset, fun hfalse => by rw [hpre] at hfalse; cases hfalse⟩
  · rename_i hpre
    rw [Bool.not_eq_true] at hpre
    obtain ⟨hid, L, hcand, hlast, hterm, hdest⟩ := hreq hpre
    obtain ⟨g₁, ha₁, hlog₁, hrel₁, hset₁⟩ := sim_adoptTerm hs h hset req.term
    have hcterm := adoptTerm_term c req.term
    generalize adoptTerm c req.term = c₁ at hrel₁ hset₁ hcterm ⊢
    dsimp only
    split
    · exact ⟨g₁, ha₁, hrel₁, hset₁, fun _ hfalse => by cases hfalse⟩
    · rename_i hnlt
      have hreqterm : req.term = c₁.term := by
        have := le_max_right c.term req.term
        omega
      split
      · rename_i hcond
        have hcand₁ : g₁.candLog src c₁.term = some L := by
          rw [← hreqterm]
          exact ha₁.grows.cand _ _ _ hcand
        have hup : UpToDate (scheme M) L (g₁.log i) := by
          refine upToDate_of_logUpToDate hrel₁.mirror ?_
          rw [← hlast, ← hterm]
          exact hcond.2
        rw [hid] at hcond
        obtain ⟨g₂, ha₂, hlog₂, hrel₂, hvote⟩ :=
          sim_grantVote ha₁.sound hrel₁ hcand₁ hsrc hcond.1 hup
        rw [hid]
        refine ⟨g₂, ha₁.trans ha₂, hrel₂, ?_, fun _ _ => ⟨rfl, ?_, L, ?_, hdest⟩⟩
        · rw [hlog₂]
          exact settled_grantVote hset₁ _
        · rw [hreqterm]
          exact hvote
        · rw [hreqterm]
          exact ha₂.grows.cand _ _ _ hcand₁
      · exact ⟨g₁, ha₁, hrel₁, hset₁, fun _ hfalse => by cases hfalse⟩

theorem sim_handleVoteResponse (hs : Sound R g) (h : NodeRel R T g i c)
    (hset : Settled M (g.log i) c) {campaignTerm : Nat}
    {resp : RequestVoteResponse}
    (hvote : resp.voteGranted = true → VoteGiven M g sender i campaignTerm) :
    Sim R T g i (handleVoteResponse c sender campaignTerm resp) := by
  unfold handleVoteResponse
  split
  · rename_i hlt
    exact stepDown_sim hs h hset hlt
  · split
    · exact sim_of_nodeRel hs h hset
    · rename_i hcond
      rw [not_or, not_not, not_not] at hcond
      obtain ⟨hrole, rfl⟩ := hcond
      split
      · rename_i hgranted
        obtain ⟨hgiven, L, hcand, hmem⟩ := hvote hgranted
        have hc := h.candidate hrole
        obtain rfl : L = g.log i := Option.some.inj (hcand.symm.trans hc.cand)
        have hrel : NodeRel R T g i { c with votes := insert sender c.votes } :=
          { h with
            mirror := mirror_of_sameLog h.mirror rfl
            saved := saved_of_sameLog h.saved rfl
            cursors := cursors_of_eq h.cursors rfl rfl rfl
            candidate := fun _ =>
              { cand := hc.cand
                fresh := hc.fresh
                votes := by
                  intro x hx
                  rcases Finset.mem_insert.mp hx with rfl | hx
                  · exact ⟨hmem, hgiven⟩
                  · exact hc.votes x hx }
            leader := fun hr => by
              change c.role = .leader at hr
              rw [hrole] at hr
              cases hr }
        exact sim_maybeWinElection hs hrel (settled_congr hset rfl)
      · exact sim_of_nodeRel hs h hset

theorem sim_handlePreVoteResponse (hs : Sound R g) (h : NodeRel R T g i c)
    (hset : Settled M (g.log i) c) {askedTerm : Nat} {resp : RequestVoteResponse}
    (hmem : R.voter i → Campaigned c (handlePreVoteResponse c sender askedTerm resp) →
      isMember c = true) :
    Sim R T g i (handlePreVoteResponse c sender askedTerm resp) := by
  unfold handlePreVoteResponse at hmem ⊢
  split
  · rename_i hlt
    exact stepDown_sim hs h hset hlt
  · rename_i hnlt
    rw [if_neg hnlt] at hmem
    cases hv : c.preVotes with
    | none => exact sim_of_nodeRel hs h hset
    | some votes =>
        have hvoter : R.voter i := h.preVotes (by rw [hv]; rfl)
        rw [hv] at hmem
        dsimp only at hmem ⊢
        split
        · exact sim_of_nodeRel hs h hset
        · rename_i hcond
          rw [if_neg hcond] at hmem
          split
          · rename_i hgranted
            rw [if_pos hgranted] at hmem
            exact sim_maybeWinPreVote hs (nodeRel_preVotes h fun _ => hvoter)
              (settled_congr hset rfl) (hmem hvoter)
          · exact sim_of_nodeRel hs h hset

theorem isMember_adoptTerm (c : Core) (t : Nat) : isMember (adoptTerm c t) = isMember c := by
  unfold adoptTerm
  split <;> rfl

theorem sim_handleTimeoutNow (hs : Sound R g) (h : NodeRel R T g i c)
    (hset : Settled M (g.log i) c) {req : TimeoutNowRequest} (hvoter : R.voter i)
    (hmem : R.voter i → Campaigned c (handleTimeoutNow c req) → isMember c = true) :
    Sim R T g i (handleTimeoutNow c req) := by
  obtain ⟨g₁, ha₁, hlog₁, hrel₁, hset₁⟩ := sim_adoptTerm hs h hset req.term
  unfold handleTimeoutNow at hmem ⊢
  dsimp only at hmem ⊢
  split
  · exact ⟨g₁, ha₁, hrel₁, hset₁⟩
  · rename_i hnlt
    rw [if_neg hnlt] at hmem
    refine Sim.after ha₁ (sim_startCampaign ha₁.sound hrel₁ hset₁ ?_)
    rw [isMember_adoptTerm]
    obtain ⟨hlt, hvote⟩ := campaigned_startCampaign (adoptTerm c req.term)
    have hle : c.term ≤ (adoptTerm c req.term).term := by
      rw [adoptTerm_term]
      exact le_max_left _ _
    exact hmem hvoter ⟨hle.trans_lt hlt, hvote⟩

end Votes

section Proposals

theorem sim_appendOwn (hs : Sound R g) (h : NodeRel R T g i c) (hrole : c.role = .leader)
    {e : Entry} (hterm : e.term = c.term) (hindex : e.index = lastLogIndex c + 1)
    (hallowed : R.allowed e)
    (hconf : ∀ l, Leading g i c l → (changeOf e).isSome = true →
      ConfigGuard (scheme M) g c.term (g.log i)) :
    ∃ g' l, Advance R i g g' ∧ g'.log i = g.log i ++ [e] ∧ NodeRel R T g' i (appendOwn c e) ∧
      Leading g' i (appendOwn c e) l := by
  obtain ⟨l, hl⟩ := h.leader hrole
  have hlast := h.mirror.lastLogIndex
  have hterm' : g.term l.node = c.term := by
    rw [hl.node, h.term]
  have hlog' : g.log l.node = l.log := by
    rw [hl.node, hl.log]
  let l' : Lead ID Entry := { l with log := l.log ++ [e] }
  have hstep : Step (scheme M) g (g.push l') := by
    refine Step.extend g l e ?_ hlog' ?_ ?_
    · rw [hterm']
      exact hl.lead
    · rw [hterm']
      exact hterm
    · intro hc
      rw [hterm', hl.log]
      exact hconf l hl hc
  obtain ⟨hinv, hg⟩ := inv_step hs.inv hstep
  have hadv : Advance R i g (g.push l') :=
    { sound :=
        { inv := hinv
          numbered := by
            intro t l'' hl''
            by_cases ht : t = g.term l'.node
            · subst ht
              rw [push_lead_self] at hl''
              rw [← Option.some.inj hl'']
              refine numbered_append (hs.numbered _ l hl.lead) ?_
              rw [numbered_cons, hl.log, Nat.zero_add, hindex, hlast]
              exact ⟨rfl, numbered_nil _⟩
            · rw [push_lead_of_ne g l' ht] at hl''
              exact hs.numbered t l'' hl''
          allowed := by
            intro t l'' hl''
            by_cases ht : t = g.term l'.node
            · subst ht
              rw [push_lead_self] at hl''
              rw [← Option.some.inj hl'']
              exact List.forall_mem_append.mpr ⟨hs.allowed _ l hl.lead,
                List.forall_mem_singleton.mpr hallowed⟩
            · rw [push_lead_of_ne g l' ht] at hl''
              exact hs.allowed t l'' hl'' }
      grows := hg
      frame := hl.node ▸ local_push l' }
  have hnew : (g.push l').log i = g.log i ++ [e] := by
    have : (g.push l').log l'.node = l'.log := Function.update_self _ _ _
    rw [← hl.log, ← hl.node]
    exact this
  have hfollow := nodeRel_follower h c.votes
  obtain ⟨hrel, hL⟩ := nodeRel_push hfollow hadv hrole hl.node
    (show l'.log = g.log i ++ [e] by rw [← hl.log]) hindex hl.matched hl.votes hl.top hl.own
  exact ⟨g.push l', l', hadv, hnew, hrel, hL⟩

theorem sim_propose (hs : Sound R g) (h : NodeRel R T g i c) (hset : Settled M (g.log i) c)
    (command : Command) {typ : EntryType} (htyp : typ ≠ .config)
    (hallowed : ∀ e : Entry, e.type = typ → R.allowed e) :
    Sim R T g i (propose c command typ).1 := by
  rcases propose_cases c command typ with ⟨err, heq⟩ | ⟨hrole, -, heq⟩
  · rw [heq]
    exact sim_of_nodeRel hs h hset
  · rw [heq]
    generalize he : (⟨c.term, lastLogIndex c + 1, typ, command⟩ : Entry) = e
    have hplain : changeOf e = none := by
      rw [← he]
      exact changeOf_of_type_ne htyp
    obtain ⟨g₁, l, ha₁, hlog₁, hrel₁, hl₁⟩ := sim_appendOwn hs h hrole (by rw [← he])
      (by rw [← he]) (hallowed e (by rw [← he])) (fun _ _ hc => by rw [hplain] at hc; cases hc)
    have hset₁ : Settled M (g₁.log i) (appendOwn c e) := by
      rw [hlog₁]
      exact settled_appendOwn hset hplain
    obtain ⟨g₂, ha₂, hlog₂, hrel₂, -⟩ :=
      sim_replicate ha₁.sound hrel₁ hl₁ hrole (counts_of_settled hset₁)
    refine ⟨g₂, ha₁.trans ha₂, hrel₂, ?_⟩
    rw [hlog₂]
    exact settled_congr hset₁ (sameLog_replicate _)

/-- A leader that has committed in its own term, through every change it knows of,
may append the next one. -/
theorem configGuard_of_committed (hs : Sound R g) (h : NodeRel R T g i c)
    (hset : Settled M (g.log i) c) (hl : Leading g i c l)
    (hready : termAt c c.commitIndex = c.term) (hlast : c.lastConfigIndex ≤ c.commitIndex) :
    ConfigGuard (scheme M) g c.term (g.log i) := by
  have hsnap : c.snapIndex ≤ c.commitIndex := by
    refine snapIndex_le_of_termAt h.mirror.numbered_entries ?_
    rw [hready]
    exact (hs.inv.lead _ l hl.lead).pos.ne'
  obtain ⟨cm, hcm, hterm, hlen⟩ := hl.own (init_lt_of_termAt hs h hl hready)
  obtain ⟨l', hcmok⟩ := hs.inv.commit cm hcm
  have hlead' := hcmok.lead
  rw [hterm, hl.lead] at hlead'
  obtain rfl := Option.some.inj hlead'
  refine ⟨cm, hcm, hterm, ?_, ?_, ?_⟩
  · rw [← hl.log]
    exact hcmok.len_le
  · rw [← hl.log]
    exact hcmok.confLen_le
  · intro q e he hc
    have := hset.lastConfig q e he hc
    omega

theorem settled_applyConfChange {L : List Entry} (h : Settled M L c)
    (haddr : cc.addr.length < 2 ^ 32) {e : Entry} {index : Nat}
    (he : e = ⟨e.term, e.index, .config, encodeConfChange cc⟩) (hindex : index = L.length + 1)
    (hs : SameLog (appendOwn c e) c') :
    Settled M (L ++ [e]) (applyConfChange c' cc index) where
  members := by
    change cc.apply c'.members = membersAfter M (L ++ [e])
    rw [hs.members]
    change cc.apply c.members = membersAfter M (L ++ [e])
    rw [membersAfter_concat, ← h.members, he]
    exact (applyChangeOf_encode _ _ _ haddr).symm
  lastConfig := by
    intro k a ha _
    have := (List.getElem?_eq_some_iff.mp ha).1
    rw [List.length_append, List.length_singleton] at this
    change k + 1 ≤ max c'.snapIndex index
    omega

theorem nodeRel_applyConfChange (h : NodeRel R T g i c) {index : Nat} :
    NodeRel R T g i (applyConfChange c cc index) :=
  { h with
    mirror := { h.mirror with }
    saved := { h.saved with }
    cursors := cursors_of_eq h.cursors rfl rfl rfl
    candidate := fun hr => candidacy_congr (h.candidate hr) rfl rfl
    leader := fun hr => by
      obtain ⟨l, hl⟩ := h.leader hr
      exact ⟨l, { hl with
        matched := by
          intro x
          have hx := hl.matched x
          unfold matchIndexOf at hx ⊢
          change ((matchAfter c cc) x).getD 0 ≤ g.acc x c.term
          unfold matchAfter
          split
          · split
            · by_cases hxid : x = cc.id
              · rw [hxid, Function.update_self]
                exact Nat.zero_le _
              · rw [Function.update_of_ne hxid]
                exact hx
            · exact hx
          · split
            · by_cases hxid : x = cc.id
              · rw [hxid, Function.update_self]
                exact Nat.zero_le _
              · rw [Function.update_of_ne hxid]
                exact hx
            · exact hx }⟩ }

theorem sim_proposeConfChange (hs : Sound R g) (h : NodeRel R T g i c)
    (hset : Settled M (g.log i) c) (haddr : cc.addr.length < 2 ^ 32)
    (hallowed : ∀ e : Entry, R.allowed e)
    (hready : lastLogIndex c < lastLogIndex (proposeConfChange c cc).1 →
      termAt c c.commitIndex = c.term) :
    Sim R T g i (proposeConfChange c cc).1 := by
  rcases proposeConfChange_cases c cc with ⟨err, heq⟩ | ⟨hrole, hflight, heq⟩
  · rw [heq]
    exact sim_of_nodeRel hs h hset
  · rw [heq] at hready ⊢
    generalize he : (⟨c.term, lastLogIndex c + 1, .config, encodeConfChange cc⟩ : Entry) = e
      at hready ⊢
    have heform : e = ⟨e.term, e.index, .config, encodeConfChange cc⟩ := by
      rw [← he]
    have hindex : e.index = lastLogIndex c + 1 := by
      rw [← he]
    have hlast := h.mirror.lastLogIndex
    have hsame := sameLog_replicate (appendOwn c e)
    have hgrown : lastLogIndex c < lastLogIndex
        (applyConfChange (maybeAdvanceCommit (broadcastAppends (appendOwn c e))) cc
          (lastLogIndex c + 1)) := by
      have hent : (applyConfChange (maybeAdvanceCommit (broadcastAppends (appendOwn c e))) cc
          (lastLogIndex c + 1)).entries = c.entries ++ [e] := hsame.entries
      have : lastLogIndex (applyConfChange (maybeAdvanceCommit (broadcastAppends
          (appendOwn c e))) cc (lastLogIndex c + 1)) = e.index := by
        rw [lastLogIndex, hent]
        simp
      omega
    obtain ⟨g₁, l, ha₁, hlog₁, hrel₁, hl₁⟩ := sim_appendOwn hs h hrole (by rw [← he]) hindex
      (hallowed e) (fun l hl _ =>
        configGuard_of_committed hs h hset hl (hready hgrown) hflight)
    have hcounts : Counts M (g₁.log i) (appendOwn c e) := by
      refine ⟨(g.log i).length, ?_, ?_, ?_⟩
      · rw [hlog₁, List.take_left]
        exact hset.members
      · rw [hlog₁, List.length_append]
        omega
      · rw [hlog₁, List.length_append, List.length_singleton]
    obtain ⟨g₂, ha₂, hlog₂, hrel₂, -⟩ := sim_replicate ha₁.sound hrel₁ hl₁ hrole hcounts
    refine ⟨g₂, ha₁.trans ha₂, nodeRel_applyConfChange hrel₂, ?_⟩
    rw [hlog₂, hlog₁]
    exact settled_applyConfChange hset haddr heform (by rw [hlast]) hsame

end Proposals

section Responses

theorem sim_sendAppend (hs : Sound R g) (h : NodeRel R T g i c) (hl : Leading g i c l)
    (hset : Settled M (g.log i) c) (hpeer : peer ≠ i) :
    Sim R T g i (sendAppend c peer) := by
  obtain ⟨o, ho, -⟩ := replicates_sendAppend c peer
  exact sim_of_nodeRel hs (nodeRel_sendAppend hs h hl hpeer).1
    (settled_congr hset (sameLog_replicates ho))

theorem sim_feed (hs : Sound R g) (h : NodeRel R T g i c) (hl : Leading g i c l)
    (hset : Settled M (g.log i) c) (hpeer : peer ≠ i) :
    Sim R T g i (feed c peer) := by
  unfold feed
  split
  · exact sim_sendAppend hs h hl hset hpeer
  · exact sim_of_nodeRel hs h hset

theorem nodeRel_noteMatch (h : NodeRel R T g i c) (hl : Leading g i c l) {m : Nat}
    (hm : m ≤ g.acc peer c.term) :
    NodeRel R T g i (noteMatch c peer m) ∧ Leading g i (noteMatch c peer m) l := by
  have key : ∀ {l'}, Leading g i c l' → Leading g i (noteMatch c peer m) l' := by
    intro l' hl'
    exact
      { hl' with
        matched := by
          intro x
          change ((Function.update c.matchIndex peer (some m)) x).getD 0 ≤ g.acc x c.term
          by_cases hx : x = peer
          · rw [hx, Function.update_self]
            exact hm
          · rw [Function.update_of_ne hx]
            exact hl'.matched x }
  refine ⟨?_, key hl⟩
  exact
    { h with
      mirror := mirror_of_sameLog h.mirror rfl
      saved := saved_of_sameLog h.saved rfl
      cursors := cursors_of_eq h.cursors rfl rfl rfl
      candidate := fun hr => candidacy_congr (h.candidate hr) rfl rfl
      leader := fun hr => by
        obtain ⟨l', hl'⟩ := h.leader hr
        exact ⟨l', key hl'⟩ }

theorem sim_noteAck (hs : Sound R g) (h : NodeRel R T g i c) (hl : Leading g i c l)
    (hrole : c.role = .leader) (hset : Settled M (g.log i) c) {m : Nat}
    (hm : m ≤ g.acc peer c.term) :
    ∃ g', Advance R i g g' ∧ NodeRel R T g' i (noteAck c peer m) ∧
      Leading g' i (noteAck c peer m) l ∧ Settled M (g'.log i) (noteAck c peer m) := by
  unfold noteAck
  split
  · obtain ⟨hrel, hlead⟩ := nodeRel_noteMatch h hl hm
    have hset' : Settled M (g.log i) (noteMatch c peer m) := settled_congr hset rfl
    obtain ⟨g', ha, hlog, hrel', hl'⟩ :=
      sim_maybeAdvanceCommit hs hrel hlead hrole (counts_of_settled hset')
    refine ⟨g', ha, hrel', hl', ?_⟩
    rw [hlog]
    exact settled_congr hset' (sameLog_maybeAdvanceCommit _)
  · exact ⟨g, advance_refl hs i, h, hl, hset⟩

theorem nodeRel_sendTimeoutNow (h : NodeRel R T g i c) (hl : Leading g i c l) {target : ID}
    (hne : target ≠ i) (hv : R.voter target) : NodeRel R T g i (sendTimeoutNow c target) := by
  refine nodeRel_outbox h ?_
  intro o ho
  rw [List.mem_singleton.mp ho]
  exact ⟨hne, hv, l, hl.lead, hl.node⟩

theorem sim_fireTransfer (h : NodeRel R T g i c) (hl : Leading g i c l)
    (hset : Settled M (g.log i) c) (hsender : sender ≠ 0) (hne : sender ≠ i) :
    NodeRel R T g i (fireTransfer c sender) ∧ Leading g i (fireTransfer c sender) l ∧
      Settled M (g.log i) (fireTransfer c sender) := by
  unfold fireTransfer
  split
  · rename_i hcond
    have hv : R.voter sender := by
      rcases h.transfer with hzero | hv
      · exact absurd (hcond.1.trans hzero) hsender
      · rw [hcond.1]
        exact hv
    exact ⟨nodeRel_sendTimeoutNow h hl hne hv, leading_congr hl rfl rfl rfl rfl,
      settled_congr hset rfl⟩
  · exact ⟨h, hl, hset⟩

theorem sim_handleAppendResponse (hs : Sound R g) (h : NodeRel R T g i c)
    (hset : Settled M (g.log i) c) (hsender : sender ≠ 0) (hne : sender ≠ i)
    {req : AppendEntriesRequest} {resp : AppendEntriesResponse}
    (hack : resp.success = true →
      req.prevLogIndex + req.entries.length ≤ g.acc sender req.term) :
    Sim R T g i (handleAppendResponse c sender req resp) := by
  unfold handleAppendResponse
  split
  · rename_i hlt
    exact stepDown_sim hs h hset hlt
  · split
    · exact sim_of_nodeRel hs h hset
    · rename_i hcond
      rw [not_or, not_not, not_not] at hcond
      obtain ⟨hrole, hterm⟩ := hcond
      split
      · rename_i hsuccess
        have hfresh : view (noteFreshAck c sender resp.seq) = view c := by
          rw [noteFreshAck_eq]
          rfl
        have hrel₁ := nodeRel_congr h hfresh
        have hset₁ := settled_congr hset (congrArg View.log hfresh)
        have hterm₁ : (noteFreshAck c sender resp.seq).term = c.term :=
          SameLog.term (congrArg View.log hfresh)
        have hrole₁ := (congrArg View.role hfresh).trans hrole
        obtain ⟨l, hl⟩ := hrel₁.leader hrole₁
        have hm : req.prevLogIndex + req.entries.length ≤
            g.acc sender (noteFreshAck c sender resp.seq).term := by
          rw [hterm₁, ← hterm]
          exact hack hsuccess
        obtain ⟨g', ha, hrel', hl', hset'⟩ := sim_noteAck hs hrel₁ hl hrole₁ hset₁ hm
        obtain ⟨hrel'', hl'', hset''⟩ := sim_fireTransfer hrel' hl' hset' hsender hne
        exact Sim.after ha (sim_feed ha.sound hrel'' hl'' hset'' hne)
      · have hback : NodeRel R T g i (backUp c sender resp) := nodeRel_congr h rfl
        obtain ⟨l, hl⟩ := hback.leader hrole
        exact sim_sendAppend hs hback hl (settled_congr hset rfl) hne

theorem sim_handleInstallSnapshotResponse (hs : Sound R g) (h : NodeRel R T g i c)
    (hset : Settled M (g.log i) c) (hne : sender ≠ i)
    {req : InstallSnapshotRequest} {resp : InstallSnapshotResponse}
    (hack : resp.term ≤ req.term → req.lastIncludedIndex ≤ g.acc sender req.term) :
    Sim R T g i (handleInstallSnapshotResponse c sender req resp) := by
  unfold handleInstallSnapshotResponse
  split
  · rename_i hlt
    exact stepDown_sim hs h hset hlt
  · rename_i hnlt
    split
    · exact sim_of_nodeRel hs h hset
    · rename_i hcond
      rw [not_or, not_not, not_not] at hcond
      obtain ⟨hrole, hterm⟩ := hcond
      obtain ⟨l, hl⟩ := h.leader hrole
      have hm : req.lastIncludedIndex ≤ g.acc sender c.term := by
        rw [← hterm]
        exact hack (by omega)
      unfold noteSnapshot
      split
      · obtain ⟨hrel, hl'⟩ := nodeRel_noteMatch h hl hm
        exact sim_feed hs hrel hl' (settled_congr hset rfl) hne
      · exact sim_feed hs h hl hset hne

theorem sim_transferLeadership (hs : Sound R g) (h : NodeRel R T g i c)
    (hset : Settled M (g.log i) c) (target : ID) :
    Sim R T g i (transferLeadership c target).1 := by
  unfold transferLeadership
  split
  · exact sim_of_nodeRel hs h hset
  · rename_i hrole
    rw [not_not] at hrole
    split
    · exact sim_of_nodeRel hs h hset
    · rename_i hne
      rw [h.id] at hne
      split
      · exact sim_of_nodeRel hs h hset
      · rename_i hmem
        rw [not_not] at hmem
        have hv : R.voter target := by
          refine R.voter_of_mem (g.log i) (allowed_of_matched hs (hs.inv.log_matched i)) target ?_
          rwa [← hset.members]
        have hrel : NodeRel R T g i
            { c with transferTarget := target, transferTicks := c.cfg.electionTicksMax } :=
          nodeRel_aside h rfl h.preVotes (Or.inr hv) h.outbox h.committed
        have hset' : Settled M (g.log i)
            { c with transferTarget := target, transferTicks := c.cfg.electionTicksMax } :=
          settled_congr hset rfl
        obtain ⟨l, hl⟩ := hrel.leader hrole
        dsimp only
        split
        · exact sim_of_nodeRel hs (nodeRel_sendTimeoutNow hrel hl hne hv)
            (settled_congr hset' rfl)
        · exact sim_sendAppend hs hrel hl hset' hne

theorem sim_requestRead (hs : Sound R g) (h : NodeRel R T g i c)
    (hset : Settled M (g.log i) c) : Sim R T g i (requestRead c).1 := by
  unfold requestRead
  split
  · exact sim_of_nodeRel hs h hset
  · rename_i hrole
    rw [not_not] at hrole
    split
    · exact sim_of_nodeRel hs h hset
    · have hrel : NodeRel R T g i (confirmReads (registerRead c)).1 := nodeRel_congr h rfl
      have hset' : Settled M (g.log i) (confirmReads (registerRead c)).1 :=
        settled_congr hset rfl
      dsimp only
      split
      · exact sim_of_nodeRel hs hrel hset'
      · obtain ⟨l, hl⟩ := hrel.leader hrole
        obtain ⟨out, hout, -⟩ := replicates_broadcastAppends (confirmReads (registerRead c)).1
        exact sim_of_nodeRel hs (nodeRel_broadcastAppends hs hrel hl).1
          (settled_congr hset' (sameLog_replicates hout))

end Responses

end RaftKV.Refinement.Leading
