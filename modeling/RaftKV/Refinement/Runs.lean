import RaftKV.Raft.Commits
import RaftKV.Raft.Histories
import RaftKV.Refinement.Simulation

namespace RaftKV.Refinement.Runs

open Consensus.Protocol Consensus.Completeness Consensus.Preservation Consensus.Commitment
open Distributed.Network
open Raft Raft.Commits Raft.Cluster
open Raft.Histories
open Refinement.Relation Refinement.Sending Refinement.Elections Refinement.Simulation

variable {D : Deployment} {R : Regime D.members} {T T' : Snapshot → List Entry → Prop}
variable {M : Members} {g g' : Ghost} {i : ID} {c : Core} {k : CoreCall}

/-- What a call that leaves its node leading says about the leadership: `L` is the
leader's log after the call. -/
structure Led (M : Members) (T : Snapshot → List Entry → Prop) (g : Ghost) (k : CoreCall)
    (l : Lead ID Entry) (L : List Entry) : Prop where
  lead : g.lead k.post.term = some l
  node : l.node = k.node
  votes : k.post.votes = l.voters
  init : l.init <+: L
  log : L <+: l.log
  mirror : Mirror M L k.post
  commit_le : k.post.commitIndex ≤ L.length
  snapshot : 0 < k.post.snapIndex → ∃ snap, k.post.disk.snapshot = some snap ∧
    snap.lastIndex = k.post.snapIndex ∧ T snap (L.take k.post.snapIndex)

structure CallOK (M : Members) (T : Snapshot → List Entry → Prop) (g : Ghost) (k : CoreCall) :
    Prop where
  chosen : ∀ e ∈ k.post.committed, 0 < e.index ∧ Chosen g (e.index - 1) e
  was_leading : k.pre.role = .leader → ∃ l, g.lead k.pre.term = some l ∧ l.node = k.node
  led : k.post.role = .leader → ∃ l L, Led M T g k l L
  compacted : ∀ snap, Compacts k snap → ∀ e ∈ k.pre.entries, e.index ≤ snap.lastIndex →
    0 < e.index ∧ Chosen g (e.index - 1) e
  raised : k.post.role = .leader → k.pre.commitIndex < k.post.commitIndex →
    ∃ cm ∈ g.commits, cm.term = k.post.term ∧ k.post.commitIndex ≤ cm.len

theorem callOK_mono (hg : Grows g g') (h : CallOK M T g k) : CallOK M T g' k where
  chosen := fun e he => ⟨(h.chosen e he).1, chosen_mono hg (h.chosen e he).2⟩
  was_leading := by
    intro hrole
    obtain ⟨l, hl, hnode⟩ := h.was_leading hrole
    obtain ⟨l', hl', hn, -⟩ := hg.lead _ l hl
    exact ⟨l', hl', hn.trans hnode⟩
  compacted := fun snap hc e he hle =>
    ⟨(h.compacted snap hc e he hle).1, chosen_mono hg (h.compacted snap hc e he hle).2⟩
  led := by
    intro hrole
    obtain ⟨l, L, hl⟩ := h.led hrole
    obtain ⟨l', hl', hn, hinit, hvoters, hlog⟩ := hg.lead _ l hl.lead
    exact ⟨l', L,
      { hl with
        lead := hl'
        node := hn.trans hl.node
        votes := hl.votes.trans hvoters.symm
        init := hinit ▸ hl.init
        log := hl.log.trans hlog }⟩
  raised := by
    intro hrole hlt
    obtain ⟨cm, hcm, hrest⟩ := h.raised hrole hlt
    exact ⟨cm, hg.commits hcm, hrest⟩

theorem callOK_imp (hT : ∀ snap L, T snap L → T' snap L) (h : CallOK M T g k) :
    CallOK M T' g k where
  chosen := h.chosen
  was_leading := h.was_leading
  compacted := h.compacted
  led := by
    intro hrole
    obtain ⟨l, L, hl⟩ := h.led hrole
    refine ⟨l, L, { hl with snapshot := fun hpos => ?_ }⟩
    obtain ⟨snap, hsnap, hidx, htaken⟩ := hl.snapshot hpos
    exact ⟨snap, hsnap, hidx, hT _ _ htaken⟩
  raised := h.raised

theorem chosen_of_mem {R : Regime M} (h : NodeRel R T g i c) {e : Entry} (he : e ∈ c.entries)
    (hle : e.index ≤ c.lastDelivered) : 0 < e.index ∧ Chosen g (e.index - 1) e := by
  obtain ⟨p, hp⟩ := List.mem_iff_getElem?.mp he
  have hindex := h.mirror.numbered_entries p e hp
  rw [h.mirror.entries, List.getElem?_drop] at hp
  refine ⟨by omega, chosen_of_committed h.delivered (by omega) ?_⟩
  rw [hindex, Nat.add_sub_cancel]
  exact hp

theorem callOK_of_nodeRel {R : Regime M} (hpre : NodeRel R T g k.node k.pre)
    (ha : Advance R i g g') (h : NodeRel R T g' k.node k.post)
    (hown : OwnTerm k.pre k.post) : CallOK M T g' k where
  chosen := h.committed
  was_leading := by
    intro hrole
    obtain ⟨l, hl⟩ := hpre.leader hrole
    obtain ⟨l', hl', hn, -⟩ := ha.grows.lead _ l hl.lead
    exact ⟨l', hl', hn.trans hl.node⟩
  compacted := by
    rintro snap ⟨index, data, -, -, hle, rfl⟩ e he hidx
    obtain ⟨hpos, hchosen⟩ := chosen_of_mem hpre he (hidx.trans hle)
    exact ⟨hpos, chosen_mono ha.grows hchosen⟩
  led := by
    intro hrole
    obtain ⟨l, hl⟩ := h.leader hrole
    refine ⟨l, g'.log k.node,
      { lead := hl.lead
        node := hl.node
        votes := hl.votes
        init := hl.log ▸ init_isPrefix (ha.sound.inv.lead _ l hl.lead)
        log := hl.log ▸ List.prefix_refl _
        mirror := h.mirror
        commit_le := h.commit_le.trans h.delivered.1
        snapshot := fun hpos => ?_ }⟩
    obtain ⟨snap, hsnap, -, hidx, -⟩ := exists_snapshot h hpos
    exact ⟨snap, hsnap, hidx, hidx ▸ (h.snapshot snap hsnap).2⟩
  raised := by
    intro hrole hlt
    obtain ⟨l, hl⟩ := h.leader hrole
    exact hl.own (init_lt_of_termAt ha.sound h hl (hown hrole hlt))

/-- The cluster and the calls it has made stand for the protocol state `g`. -/
structure ClusterRel (R : Regime D.members) (T : Snapshot → List Entry → Prop) (g : Ghost)
    (s : CoreState) : Prop where
  world : World R T g s.node s.net
  calls : ∀ k ∈ s.trace, CallOK D.members T g k

theorem clusterRel_imp {s : CoreState} (hT : ∀ snap L, T snap L → T' snap L)
    (h : ClusterRel R T g s) : ClusterRel R T' g s :=
  ⟨world_imp h.world hT, fun k hk => callOK_imp hT (h.calls k hk)⟩

def InputOK (R : Regime M) (T : Snapshot → List Entry → Prop) (g : Ghost) (i : ID) (c : Core) :
    Input → Prop
  | .deliver p => PacketOK R T g p ∧ p.dest = i ∧
      (R.voter i → MayTrigger p → Campaigned c (respond c (.deliver p)).1 → isMember c = true)
  | .client ev => isClient ev = true ∧ ClientOK R (takeQueues c) ev
  | .compact index data => c.snapIndex < index → index ≤ c.lastDelivered →
      Encodable (snapshotAt c index data).config ∧
        T (snapshotAt c index data) ((g.log i).take index)

theorem ownTerm_react (c : Core) (ev : Event) (replies : Response → List Packet) :
    OwnTerm c (react c ev replies).1 := by
  rw [react_fst]
  exact ownTerm_handle (c := takeQueues c) rfl ev

theorem ownTerm_respond (c : Core) (x : Input) : OwnTerm c (respond c x).1 := by
  cases x with
  | deliver p => exact ownTerm_react c _ _
  | client ev => exact ownTerm_react c _ _
  | compact index data => exact ownTerm_of_eq (commitIndex_compact (takeQueues c) index data)

theorem sim_respond {R : Regime M} (hs : Sound R g) (h : NodeRel R T g i c)
    (hset : Settled M (g.log i) c) {x : Input} (hx : InputOK R T g i c x) :
    ∃ g', Advance R i g g' ∧ NodeRel R T g' i (respond c x).1 ∧
      Settled M (g'.log i) (respond c x).1 ∧
      ∀ p ∈ (respond c x).2.getD [], PacketOK R T g' p := by
  have hrel := nodeRel_takeQueues h
  have hset' : Settled M (g.log i) (takeQueues c) := settled_congr hset rfl
  cases x with
  | deliver p =>
      obtain ⟨hp, hdest, hguard⟩ := hx
      change R.voter i → MayTrigger p → Campaigned c (react c _ _).1 → _ at hguard
      rw [react_fst] at hguard
      obtain ⟨g', ha, hrel', hset', hreply⟩ := sim_deliver hs hrel hset' hp hdest hguard
      refine ⟨g', ha, ?_, ?_, ?_⟩
      · change NodeRel R T g' i (react c _ _).1
        rw [react_fst]
        exact hrel'
      · change Settled M (g'.log i) (react c _ _).1
        rw [react_fst]
        exact hset'
      · intro q hq
        obtain ⟨resp, hresp, hq | hq⟩ := mem_react hq
        · exact hreply resp hresp q hq
        · exact packetOK_outgoing hrel' q hq
  | client ev =>
      obtain ⟨g', ha, hrel', hset'⟩ := sim_client hs hrel hset' hx.1 hx.2
      refine ⟨g', ha, ?_, ?_, ?_⟩
      · change NodeRel R T g' i (react c _ _).1
        rw [react_fst]
        exact hrel'
      · change Settled M (g'.log i) (react c _ _).1
        rw [react_fst]
        exact hset'
      · intro q hq
        obtain ⟨resp, -, hq | hq⟩ := mem_react hq
        · exact absurd hq List.not_mem_nil
        · exact packetOK_outgoing hrel' q hq
  | compact index data =>
      obtain ⟨hrel', hset'⟩ := nodeRel_compact hrel hset' hx
      exact ⟨g, advance_refl hs i, hrel', hset', fun p hp => absurd hp List.not_mem_nil⟩

theorem clusterRel_call {s : CoreState} (h : ClusterRel R T g s) (hup : s.node i = .up c)
    {x : Input} (hx : InputOK R T g i c x) :
    ∃ g', Grows g g' ∧ NodeRel R T g' i (respond c x).1 ∧
      ClusterRel R T g' ((coreSystem D).call s i c x) := by
  obtain ⟨hrel, hset⟩ := h.world.live i c hup
  obtain ⟨g', ha, hrel', hset', hsent⟩ := sim_respond h.world.sound hrel hset hx
  refine ⟨g', ha.grows, hrel', ?_, ?_⟩
  · refine world_advance h.world ha hrel' hset' ?_ hsent
    cases ((coreSystem D).handle c x).2 with
    | none => exact Or.inr rfl
    | some sent => exact Or.inl rfl
  · intro k hk
    rcases List.mem_append.mp hk with hk | hk
    · exact callOK_mono ha.grows (h.calls k hk)
    · rw [List.mem_singleton.mp hk]
      exact callOK_of_nodeRel hrel ha hrel' (ownTerm_respond c x)

theorem clusterRel_crash {s : CoreState} (h : ClusterRel R T g s) (hup : s.node i = .up c) :
    ClusterRel R T g (s.set i (.down c.disk)) :=
  ⟨world_crash h.world hup, h.calls⟩

theorem clusterRel_restart {s : CoreState} (h : ClusterRel R T g s) (hD : D.Uniform) {d : Disk}
    (hdown : s.node i = .down d) (hfits : ∀ e ∈ d.log, e.command.length ≤ maxCommandLen)
    {rng : Nat → Nat} (hboot : (coreSystem D).boot i rng d = some c) :
    ClusterRel R T g (s.set i (.up c)) := by
  change (newCore (D.cfg i) rng d).toOption = some c at hboot
  have hnew : newCore (D.cfg i) rng d = .ok c := by
    cases hr : newCore (D.cfg i) rng d with
    | error err =>
        rw [hr] at hboot
        cases hboot
    | ok c' =>
        rw [hr] at hboot
        exact congrArg _ (Option.some.inj hboot)
  refine ⟨world_restart h.world hdown hfits (D.cfg_id i) (fun hpos => ?_) hnew, h.calls⟩
  rw [D.cfg_tables i hpos, hD.tables i]

theorem clusterRel_init : ClusterRel R T (RaftKV.Consensus.Protocol.init : Ghost)
    (init (coreSystem D)) :=
  ⟨world_init D.cfg D.cfg_id, fun _ hk => absurd hk List.not_mem_nil⟩

end RaftKV.Refinement.Runs
