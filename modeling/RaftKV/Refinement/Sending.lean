import RaftKV.Refinement.Relation

namespace RaftKV.Refinement.Sending

open Consensus.Quorum Consensus.Protocol Consensus.Completeness Consensus.Preservation
open Consensus.Commitment Consensus.Locality
open Raft Raft.Durability
open Refinement.Relation

variable {M : Members} {R : Regime M} {T : Snapshot → List Entry → Prop}
variable {g : Ghost} {i : ID} {c c' : Core} {l : Lead ID Entry}
variable {L : List Entry} {out : List Outbound} {n : Nat}

theorem mirror_of_sameLog (h : Mirror M L c) (hs : SameLog c c') :
    Mirror M L c' where
  numbered := h.numbered
  snap_le := by
    rw [hs.snapIndex]
    exact h.snap_le
  entries := by rw [hs.entries, hs.snapIndex, h.entries]
  snapTerm := by rw [hs.snapTerm, hs.snapIndex, h.snapTerm]
  snapConfig := by rw [hs.snapConfig, hs.snapIndex, h.snapConfig]

/-- The part of a core the relation looks at. -/
structure View where
  log : LogImage
  role : Role
  votes : Finset ID
  matchIndex : ID → Option Nat
  commitIndex : Nat
  lastDelivered : Nat
  preVotes : Option (Finset ID)
  transferTarget : ID
  outbox : List Outbound
  committed : List Entry

def view (c : Core) : View where
  log := logImage c
  role := c.role
  votes := c.votes
  matchIndex := c.matchIndex
  commitIndex := c.commitIndex
  lastDelivered := c.lastDelivered
  preVotes := c.preVotes
  transferTarget := c.transferTarget
  outbox := c.outbox
  committed := c.committed

theorem candidacy_congr (h : Candidacy M g i c) (ht : c'.term = c.term)
    (hv : c'.votes = c.votes) : Candidacy M g i c' where
  cand := by
    rw [ht]
    exact h.cand
  fresh := by
    rw [ht]
    exact h.fresh
  votes := by
    rw [ht, hv]
    exact h.votes

theorem leading_congr (h : Leading g i c l) (ht : c'.term = c.term)
    (hm : c'.matchIndex = c.matchIndex) (hv : c'.votes = c.votes)
    (hc : c'.commitIndex = c.commitIndex) : Leading g i c' l where
  lead := by rw [ht, h.lead]
  node := h.node
  log := h.log
  acc := by rw [ht, h.acc]
  matched := by
    intro x
    rw [matchIndexOf, hm, ht]
    exact h.matched x
  votes := by rw [hv, h.votes]
  own := by
    rw [hc, ht]
    exact h.own
  top := by
    rw [hc, ht]
    exact h.top

theorem nodeRel_congr (h : NodeRel R T g i c) (hv : view c' = view c) : NodeRel R T g i c' := by
  have hs : SameLog c c' := congrArg View.log hv
  have hrole : c'.role = c.role := congrArg View.role hv
  have hvotes : c'.votes = c.votes := congrArg View.votes hv
  have hmatch : c'.matchIndex = c.matchIndex := congrArg View.matchIndex hv
  have hcommit : c'.commitIndex = c.commitIndex := congrArg View.commitIndex hv
  have hdel : c'.lastDelivered = c.lastDelivered := congrArg View.lastDelivered hv
  have hpre : c'.preVotes = c.preVotes := congrArg View.preVotes hv
  have htarget : c'.transferTarget = c.transferTarget := congrArg View.transferTarget hv
  have hout : c'.outbox = c.outbox := congrArg View.outbox hv
  have hcom : c'.committed = c.committed := congrArg View.committed hv
  exact
    { id := by rw [hs.cfg, h.id]
      pos := h.pos
      term := by rw [hs.term, h.term]
      vote := by rw [hs.votedFor, hs.term, h.vote]
      vote_pos := by
        rw [hs.term]
        exact h.vote_pos
      mirror := mirror_of_sameLog h.mirror hs
      saved := saved_of_sameLog h.saved hs
      cursors := cursors_of_eq h.cursors hs.snapIndex hdel hcommit
      snapshot := by
        rw [hs.disk]
        exact h.snapshot
      commit_le := by
        rw [hcommit, hdel]
        exact h.commit_le
      delivered := by
        rw [hs.term, hdel]
        exact h.delivered
      candidate := fun hr => candidacy_congr (h.candidate (hrole ▸ hr)) hs.term hvotes
      leader := fun hr => by
        obtain ⟨l, hl⟩ := h.leader (hrole ▸ hr)
        exact ⟨l, leading_congr hl hs.term hmatch hvotes hcommit⟩
      preVotes := by
        rw [hpre]
        exact h.preVotes
      transfer := by
        rw [htarget]
        exact h.transfer
      outbox := by
        rw [hout]
        exact h.outbox
      committed := by
        rw [hcom]
        exact h.committed }

theorem settled_congr (h : Settled M L c) (hs : SameLog c c') :
    Settled M L c' where
  members := by rw [hs.members, h.members]
  lastConfig := by
    rw [hs.snapIndex, show c'.lastConfigIndex = c.lastConfigIndex from
      congrArg LogImage.lastConfigIndex hs]
    exact h.lastConfig

theorem nodeRel_aside (h : NodeRel R T g i c) (heq : c' =
    { c with
      heartbeatElapsed := c'.heartbeatElapsed
      ticksSinceLeader := c'.ticksSinceLeader
      preVotes := c'.preVotes
      transferTarget := c'.transferTarget
      transferTicks := c'.transferTicks
      outbox := c'.outbox
      committed := c'.committed
      readOutcomes := c'.readOutcomes
      pendingRestore := c'.pendingRestore })
    (hvotes : c'.preVotes.isSome = true → R.voter i)
    (htarget : c'.transferTarget = 0 ∨ R.voter c'.transferTarget)
    (hout : ∀ o ∈ c'.outbox, o.dest ≠ i ∧ MsgOK R T g i o.dest o.msg)
    (hdelivered : ∀ e ∈ c'.committed, 0 < e.index ∧ Chosen g (e.index - 1) e) :
    NodeRel R T g i c' := by
  rw [heq]
  exact
    { h with
      mirror := mirror_of_sameLog h.mirror rfl
      saved := saved_of_sameLog h.saved rfl
      cursors := cursors_of_eq h.cursors rfl rfl rfl
      candidate := fun hr => candidacy_congr (h.candidate hr) rfl rfl
      leader := fun hr => by
        obtain ⟨l, hl⟩ := h.leader hr
        exact ⟨l, leading_congr hl rfl rfl rfl rfl⟩
      preVotes := hvotes
      transfer := htarget
      outbox := hout
      committed := hdelivered }

theorem nodeRel_outbox (h : NodeRel R T g i c)
    (hout : ∀ o ∈ out, o.dest ≠ i ∧ MsgOK R T g i o.dest o.msg) :
    NodeRel R T g i { c with outbox := c.outbox ++ out } := by
  refine nodeRel_aside h rfl h.preVotes h.transfer (fun o ho => ?_) h.committed
  exact (List.mem_append.mp ho).elim (h.outbox o) (hout o)

theorem nodeRel_follower (h : NodeRel R T g i c) (votes : Finset ID) :
    NodeRel R T g i { c with role := .follower, votes := votes } :=
  { h with
    mirror := mirror_of_sameLog h.mirror rfl
    saved := saved_of_sameLog h.saved rfl
    cursors := cursors_of_eq h.cursors rfl rfl rfl
    candidate := fun hr => by cases hr
    leader := fun hr => by cases hr }

section Messages

theorem exists_snapshot (h : NodeRel R T g i c) (hpos : 0 < c.snapIndex) :
    ∃ snap, c.disk.snapshot = some snap ∧ loadRaftSnapshot c.disk = snap ∧
      snap.lastIndex = c.snapIndex ∧ snap.lastTerm = c.snapTerm ∧ snap.config = c.snapConfig := by
  have hidx := h.saved.snapIndex
  have hterm := h.saved.snapTerm
  have hconf := h.saved.snapConfig
  unfold loadRaftSnapshot at hidx hterm ⊢
  cases hsnap : c.disk.snapshot with
  | none =>
      rw [hsnap] at hidx
      rw [← hidx] at hpos
      exact absurd hpos (lt_irrefl 0)
  | some snap =>
      rw [hsnap] at hidx hterm hconf
      exact ⟨snap, rfl, rfl, hidx, hterm, hconf⟩

theorem snapshotOffer_of_leading (h : NodeRel R T g i c) (hl : Leading g i c l)
    (hpos : 0 < c.snapIndex) : SnapshotOffer M T g i (snapshotRequest c) l := by
  obtain ⟨snap, hsnap, hload, hidx, hterm, hconf⟩ := exists_snapshot h hpos
  have hreq : (snapshotRequest c).lastIncludedIndex = c.snapIndex := by
    rw [snapshotRequest, hload, hidx]
  have hoff : offered M l (snapshotRequest c) = snap := by
    rw [offered, hreq, hl.log, ← h.mirror.snapConfig, snapshotRequest, hload]
    obtain ⟨idx, term, config, data⟩ := snap
    simp only at hidx hconf
    rw [hidx, hconf]
  exact
    { lead := hl.lead
      node := hl.node
      term := by
        rw [hreq, hl.log, ← h.mirror.snapTerm, ← hterm, snapshotRequest, hload]
      commit := by
        rw [hreq, hl.log]
        exact committed_of_le h.delivered h.cursors.snap_le
      config := by rw [hoff, snapshotRequest, hload]
      encodable := hoff ▸ (h.snapshot snap hsnap).1
      taken := by
        have := (h.snapshot snap hsnap).2
        rwa [hoff, hreq, hl.log, ← hidx] }

theorem termOf_eq_zero {k : Nat} (h : L.length < k) : termOf L k = 0 := by
  cases k with
  | zero => rfl
  | succ k =>
      rw [termOf, List.getElem?_eq_none (by omega)]
      rfl

theorem appendOffer_of_leading (hs : Sound R g) (h : NodeRel R T g i c) (hl : Leading g i c l)
    {next seq : Nat} (hnext : c.snapIndex < next) :
    AppendOffer g i { appendRequest c next with seq := seq } l := by
  have hentries : (appendRequest c next).entries = batch 0 ((g.log i).drop (next - 1)) := by
    rw [appendRequest_entries h.mirror.numbered_entries hnext, h.mirror.entries, List.drop_drop]
    congr 2
    omega
  have hterm : (appendRequest c next).prevLogTerm = termOf (g.log i) (next - 1) :=
    h.mirror.termAt (by omega)
  have hcontent : Segment l.log { appendRequest c next with seq := seq } ∨
      Vacuous { appendRequest c next with seq := seq } := by
    by_cases hle : next - 1 ≤ (g.log i).length
    · refine Or.inl ⟨?_, ?_, ?_, ?_⟩
      · rw [hl.log]
        exact hle
      · change (appendRequest c next).entries <+: l.log.drop (next - 1)
        rw [hentries, hl.log]
        exact batch_isPrefix 0 _
      · change (appendRequest c next).prevLogTerm = termOf l.log (next - 1)
        rw [hl.log, hterm]
      · intro hzero
        change next - 1 = 0 at hzero
        change (appendRequest c next).entries ≠ []
        rw [hentries, hzero, List.drop_zero, ← hl.log]
        refine batch_ne_nil 0 (List.ne_nil_of_length_pos ?_)
        exact Nat.zero_lt_of_lt (init_length_lt (hs.inv.lead _ l hl.lead))
    · refine Or.inr ⟨?_, ?_, ?_⟩
      · change 0 < next - 1
        omega
      · change (appendRequest c next).prevLogTerm = 0
        rw [hterm, termOf_eq_zero (by omega)]
      · change (appendRequest c next).entries = []
        rw [hentries, List.drop_of_length_le (by omega), batch]
  exact
    { lead := hl.lead
      node := hl.node
      commit := by
        rw [hl.log]
        exact committed_of_le h.delivered h.commit_le
      content := hcontent }

theorem msgOK_sent (hs : Sound R g) (h : NodeRel R T g i c) (hl : Leading g i c l)
    {o : Outbound} (ho : Sent c n o) : MsgOK R T g i o.dest o.msg := by
  cases ho with
  | snapshot peer hle =>
      have hpos : 0 < nextFor c peer := by
        unfold nextFor
        split <;> omega
      exact ⟨l, snapshotOffer_of_leading h hl (by omega)⟩
  | append peer seq hlt _ _ => exact ⟨l, appendOffer_of_leading hs h hl hlt⟩

theorem nodeRel_replicates (hs : Sound R g) (h : NodeRel R T g i c) (hl : Leading g i c l)
    (hr : Replicates c c' out) (hdest : ∀ o ∈ out, o.dest ≠ i) :
    NodeRel R T g i c' := by
  have hout := nodeRel_outbox h fun o ho => ⟨hdest o ho, msgOK_sent hs h hl (hr.sent o ho)⟩
  rw [hr.eq]
  exact nodeRel_congr hout rfl

theorem leading_replicates (hl : Leading g i c l)
    (hr : Replicates c c' out) : Leading g i c' l := by
  rw [hr.eq]
  exact leading_congr hl rfl rfl rfl rfl

theorem nodeRel_sendAppend (hs : Sound R g) (h : NodeRel R T g i c) (hl : Leading g i c l)
    {peer : ID} (hpeer : peer ≠ i) :
    NodeRel R T g i (sendAppend c peer) ∧ Leading g i (sendAppend c peer) l := by
  obtain ⟨o, ho, hdest⟩ := replicates_sendAppend c peer
  refine ⟨nodeRel_replicates hs h hl ho ?_, leading_replicates hl ho⟩
  intro a ha
  rwa [List.mem_singleton.mp ha, hdest]

theorem nodeRel_broadcastAppends (hs : Sound R g) (h : NodeRel R T g i c)
    (hl : Leading g i c l) :
    NodeRel R T g i (broadcastAppends c) ∧ Leading g i (broadcastAppends c) l := by
  obtain ⟨out, hout, hdest⟩ := replicates_broadcastAppends c
  rw [h.id] at hdest
  exact ⟨nodeRel_replicates hs h hl hout hdest, leading_replicates hl hout⟩

end Messages

section Delivery

theorem chosen_queue (h : NodeRel R T g i c)
    (hn : Committed g c.term n (g.log i)) :
    ∀ e ∈ queue { c with commitIndex := n }, 0 < e.index ∧ Chosen g (e.index - 1) e := by
  intro e he
  have hnum : Contiguous c := h.mirror.numbered_entries
  rw [queue_eq (c := { c with commitIndex := n }) hnum h.cursors.snap_le] at he
  obtain ⟨k, hk⟩ := List.mem_iff_getElem?.mp he
  rw [List.getElem?_take] at hk
  split at hk
  · rename_i hlt
    rw [List.getElem?_drop] at hk
    change c.entries[c.lastDelivered - c.snapIndex + k]? = some e at hk
    change k < n - c.lastDelivered at hlt
    rw [h.mirror.entries, List.getElem?_drop] at hk
    have hindex := h.mirror.numbered _ e hk
    refine ⟨by omega, chosen_of_committed hn ?_ ?_⟩
    · have := h.cursors.snap_le
      omega
    · rw [hindex, show 0 + (c.snapIndex + (c.lastDelivered - c.snapIndex + k)) + 1 - 1 =
        c.snapIndex + (c.lastDelivered - c.snapIndex + k) by omega]
      exact hk
  · cases hk

theorem nodeRel_deliverCommitted (h : NodeRel R T g i { c with role := .follower }) {n : Nat}
    (hpos : 0 < n) (hn : Committed g c.term n (g.log i)) (hcand : c.role ≠ .candidate)
    (hlead : c.role = .leader → ∃ l, Leading g i { c with commitIndex := n } l) :
    NodeRel R T g i (deliverCommitted { c with commitIndex := n }) := by
  have hnum : Contiguous c := h.mirror.numbered_entries
  have hlast : lastLogIndex c = (g.log i).length := h.mirror.lastLogIndex
  have hto : deliveredTo { c with commitIndex := n } = max c.lastDelivered n :=
    deliveredTo_eq (c := { c with commitIndex := n }) hnum h.cursors.snap_le (by
      change n ≤ lastLogIndex c
      rw [hlast]
      exact hn.1)
  have hmax : Committed g c.term (max c.lastDelivered n) (g.log i) := by
    rcases le_total c.lastDelivered n with hle | hle
    · rwa [max_eq_right hle]
    · rw [max_eq_left hle]
      exact h.delivered
  have hchosen := chosen_queue h hn
  have hcursors : Cursors c := cursors_of_eq h.cursors rfl rfl rfl
  have hcur := cursors_deliverCommitted hcursors hpos
  obtain ⟨c', hq, heq⟩ := deliverCommitted_cases { c with commitIndex := n }
  rw [heq] at hcur ⊢
  rw [hto] at hcur ⊢
  have hcommitted : ∀ e ∈ c.committed ++ queue { c with commitIndex := n },
      0 < e.index ∧ Chosen g (e.index - 1) e := by
    exact List.forall_mem_append.mpr ⟨h.committed, hchosen⟩
  cases hq with
  | stay =>
      exact
        { h with
          mirror := mirror_of_sameLog h.mirror rfl
          saved := saved_of_sameLog h.saved rfl
          cursors := hcur
          commit_le := le_max_right _ _
          delivered := hmax
          candidate := fun hr => absurd hr hcand
          leader := fun hr => by
            obtain ⟨l, hl⟩ := hlead hr
            exact ⟨l, leading_congr hl rfl rfl rfl rfl⟩
          committed := hcommitted }
  | leave e he hconf hrole hmem =>
      exact
        { h with
          mirror := mirror_of_sameLog h.mirror rfl
          saved := saved_of_sameLog h.saved rfl
          cursors := hcur
          commit_le := le_max_right _ _
          delivered := hmax
          candidate := fun hr => by cases hr
          leader := fun hr => by cases hr
          transfer := Or.inl rfl
          committed := hcommitted }

theorem leading_deliverCommitted (h : Leading g i c l) : Leading g i (deliverCommitted c) l := by
  obtain ⟨c', hq, heq⟩ := deliverCommitted_cases c
  rw [heq]
  cases hq <;> exact leading_congr h rfl rfl rfl rfl

end Delivery

section Committing

theorem init_lt_of_termAt (hs : Sound R g) (h : NodeRel R T g i c) (hl : Leading g i c l)
    (hterm : termAt c n = c.term) : l.init.length < n := by
  have hok := hs.inv.lead _ l hl.lead
  have hsnap : c.snapIndex ≤ n := by
    refine snapIndex_le_of_termAt h.mirror.numbered_entries ?_
    rw [hterm]
    exact hok.pos.ne'
  rw [h.mirror.termAt hsnap, ← hl.log] at hterm
  cases n with
  | zero => exact absurd hterm.symm hok.pos.ne'
  | succ p =>
      rw [termOf] at hterm
      cases hget : l.log[p]? with
      | none =>
          rw [hget] at hterm
          exact absurd hterm.symm hok.pos.ne'
      | some e =>
          rw [hget] at hterm
          exact Nat.lt_succ_of_le (init_le_of_term_eq hok hget hterm)

/-- The members that store the leader's log up to index `n`. -/
def ackers (c : Core) (n : Nat) : Finset ID :=
  (voters c.members).filter fun x => x = c.cfg.id ∨ n ≤ matchIndexOf c x

theorem card_ackers (c : Core) (n : Nat) : (ackers c n).card = commitVotes c n := by
  have hnd : c.members.keys.Nodup := Std.ExtTreeMap.nodup_keys
  have hmem : isMember c = decide (c.cfg.id ∈ c.members.keys) := by
    rw [isMember, Bool.eq_iff_iff, decide_eq_true_eq, Std.ExtTreeMap.mem_keys,
      Std.ExtTreeMap.contains_iff_mem]
  unfold ackers voters commitVotes peerIDs
  rw [hmem]
  generalize c.members.keys = keys at hnd
  induction keys with
  | nil => simp
  | cons x keys ih =>
      rw [List.nodup_cons] at hnd
      have ih := ih hnd.2
      rw [List.toFinset_cons, Finset.filter_insert]
      have hx : x ∉ keys.toFinset.filter fun y => y = c.cfg.id ∨ n ≤ matchIndexOf c y := by
        simp [hnd.1]
      by_cases hself : x = c.cfg.id
      · subst hself
        rw [if_pos (Or.inl rfl), Finset.card_insert_of_notMem hx, ih]
        simp [hnd.1]
        omega
      · have hself' : ¬ c.cfg.id = x := fun h => hself h.symm
        by_cases hn : n ≤ matchIndexOf c x
        · rw [if_pos (Or.inr hn), Finset.card_insert_of_notMem hx, ih]
          simp [hself, hself', hn]
          omega
        · rw [if_neg (by tauto), ih]
          simp [hself, hself', hn]

theorem majority_ackers (h : majority c ≤ commitVotes c n) :
    Majority (ackers c n) (voters c.members) := by
  refine ⟨Finset.filter_subset _ _, ?_⟩
  rw [card_ackers, card_voters]
  unfold majority at h
  omega

/-- The membership a leader counts with: at most its newest entry is not in it. -/
def Counts (M : Members) (L : List Entry) (c : Core) : Prop :=
  ∃ k, c.members = membersAfter M (L.take k) ∧ k ≤ L.length ∧ L.length ≤ k + 1

theorem counts_of_settled (h : Settled M L c) : Counts M L c :=
  ⟨L.length, by rw [List.take_length, h.members], le_rfl, Nat.le_succ _⟩

theorem sim_maybeAdvanceCommit (hs : Sound R g) (h : NodeRel R T g i c) (hl : Leading g i c l)
    (hrole : c.role = .leader) (hconf : Counts M (g.log i) c) :
    ∃ g', Advance R i g g' ∧ g'.log = g.log ∧ NodeRel R T g' i (maybeAdvanceCommit c) ∧
      Leading g' i (maybeAdvanceCommit c) l := by
  rcases maybeAdvanceCommit_cases c with heq | ⟨n, hn, heq⟩
  · rw [heq]
    exact ⟨g, advance_refl hs i, rfl, h, hl⟩
  · rw [heq]
    obtain ⟨k, hmem, hk, hnear⟩ := hconf
    have hle : n ≤ (g.log i).length := h.mirror.lastLogIndex ▸ hn.le
    have hinit := init_lt_of_termAt hs h hl hn.term
    let cm : Commit ID := ⟨c.term, n, k, ackers c n⟩
    have hcm : CommitOK (scheme M) g cm l :=
      { lead := hl.lead
        init_lt := hinit
        len_le := by
          change n ≤ l.log.length
          rwa [hl.log]
        confLen_le := by
          change k ≤ l.log.length
          rwa [hl.log]
        near := by
          change n ≤ k + 1
          omega
        majority := by
          change Majority (ackers c n) (voters (membersAfter M (l.log.take k)))
          rw [hl.log, ← hmem]
          exact majority_ackers hn.votes
        acc := by
          intro x hx
          change n ≤ g.acc x c.term
          rcases (Finset.mem_filter.mp hx).2 with hself | hmatch
          · rw [hself, h.id, hl.acc]
            exact hle
          · exact hmatch.trans (hl.matched x) }
    have hg : Grows g (g.commit cm) := grows_commit g cm
    have hadv : Advance R i g (g.commit cm) :=
      { sound := ⟨inv_commit hs.inv hcm, hs.numbered, hs.allowed⟩
        grows := hg
        frame := local_commit fun l' hl' => by
          rw [← Option.some.inj (hl.lead.symm.trans hl')]
          exact hl.node }
    have hin : cm ∈ (g.commit cm).commits := Set.mem_insert _ _
    have hfollow := nodeRel_follower h c.votes
    have hrel : NodeRel R T (g.commit cm) i { c with role := .follower } :=
      { hfollow with
        delivered := committed_mono hg h.delivered le_rfl (List.take_prefix _ _)
        candidate := fun hr => by cases hr
        leader := fun hr => by cases hr
        outbox := outbox_mono hg h.outbox
        committed := fun e he => ⟨(h.committed e he).1, chosen_mono hg (h.committed e he).2⟩ }
    have hcommitted : Committed (g.commit cm) c.term n (g.log i) := by
      refine ⟨hle, Or.inr ⟨cm, hin, le_rfl, le_rfl, ?_⟩⟩
      change (g.log i).take n <+: g.leadLog c.term
      rw [leadLog_eq hl.lead, hl.log]
      exact List.take_prefix _ _
    have hl' : Leading (g.commit cm) i { c with commitIndex := n } l :=
      { lead := hl.lead
        node := hl.node
        log := hl.log
        acc := hl.acc
        matched := hl.matched
        votes := hl.votes
        own := fun _ => ⟨cm, hin, rfl, le_rfl⟩
        top := by
          intro cm' hcm' hterm
          rcases hcm' with rfl | hcm'
          · exact le_rfl
          · exact (hl.top cm' hcm' hterm).trans hn.lt.le }
    refine ⟨g.commit cm, hadv, rfl, ?_, leading_deliverCommitted hl'⟩
    refine nodeRel_deliverCommitted hrel (by have := hn.lt; omega) hcommitted ?_ fun _ => ⟨l, hl'⟩
    rw [hrole]
    exact fun hr => by cases hr

end Committing

end RaftKV.Refinement.Sending
