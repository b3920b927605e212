import RaftKV.Refinement.Leading
import RaftKV.Refinement.Following

/-!
A cluster of cores stands for a state of the protocol, and every event, every
compaction and every restart keeps it that way.
-/

namespace RaftKV.Refinement.Simulation

open Consensus.Protocol Consensus.Preservation Consensus.Commitment
open Distributed.Network
open Raft Raft.Durability Raft.Cluster
open Refinement.Relation Refinement.Sending Refinement.Elections Refinement.Leading
open Refinement.Following

variable {M : Members} {R : Regime M} {T : Snapshot → List Entry → Prop}
variable {g g' : Ghost} {i : ID} {c c' : Core}

section Events

theorem nodeRel_takeQueues (h : NodeRel R T g i c) : NodeRel R T g i (takeQueues c) :=
  nodeRel_aside h rfl h.preVotes h.transfer (fun _ ho => absurd ho List.not_mem_nil)
    fun _ he => absurd he List.not_mem_nil

/-- What a client may ask for under a regime. A membership change is only safe
once the leader has committed in its own term, and with an address that reads back. -/
def ClientOK (R : Regime M) (c : Core) : Event → Prop
  | .propose _ typ => typ ≠ .config ∧ ∀ e : Entry, e.type = typ → R.allowed e
  | .confChange cc => cc.addr.length < 2 ^ 32 ∧ (∀ e : Entry, R.allowed e) ∧
      (lastLogIndex c < lastLogIndex (proposeConfChange c cc).1 →
        termAt c c.commitIndex = c.term)
  | _ => True

theorem sim_client (hs : Sound R g) (h : NodeRel R T g i c) (hset : Settled M (g.log i) c)
    {ev : Event} (hev : isClient ev = true) (hok : ClientOK R c ev) :
    Sim R T g i (handle c ev).1 := by
  cases ev with
  | tick => exact sim_tick hs h hset
  | propose command typ => exact sim_propose hs h hset command hok.1 hok.2
  | confChange cc => exact sim_proposeConfChange hs h hset hok.1 hok.2.1 hok.2.2
  | transfer target => exact sim_transferLeadership hs h hset target
  | read => exact sim_requestRead hs h hset
  | requestVote req => cases hev
  | appendEntries req => cases hev
  | installSnapshot req => cases hev
  | timeoutNow req => cases hev
  | voteResp sender campaignTerm preVote resp => cases hev
  | appendResp sender req resp => cases hev
  | snapshotResp sender req resp => cases hev

/-- The new core stands for its node, and the answer keeps its promise. -/
def Answers (R : Regime M) (T : Snapshot → List Entry → Prop) (g : Ghost) (i : ID) (p : Packet)
    (r : Core × Except RaftError Response) : Prop :=
  ∃ g', Advance R i g g' ∧ NodeRel R T g' i r.1 ∧ Settled M (g'.log i) r.1 ∧
    ∀ resp, r.2 = .ok resp → ∀ q ∈ reply p resp, PacketOK R T g' q

theorem answers_of_sim {p : Packet} (h : Sim R T g i c) (hp : ∀ resp, reply p resp = []) :
    Answers R T g i p (c, .ok .none) := by
  obtain ⟨g', ha, hrel, hset⟩ := h
  refine ⟨g', ha, hrel, hset, ?_⟩
  intro resp _ q hq
  rw [hp] at hq
  exact absurd hq List.not_mem_nil

/-- The packets that may make their receiver campaign. -/
def MayTrigger (p : Packet) : Prop :=
  match p.payload with
  | .request (.timeoutNow _) => True
  | .voteResp req _ => req.preVote = true
  | _ => False

theorem sim_deliver (hs : Sound R g) (h : NodeRel R T g i c) (hset : Settled M (g.log i) c)
    {p : Packet} (hp : PacketOK R T g p) (hdest : p.dest = i)
    (hguard : R.voter i → MayTrigger p → Campaigned c (handle c (eventOf p)).1 →
      isMember c = true) :
    Answers R T g i p (handle c (eventOf p)) := by
  obtain ⟨src, dest, payload⟩ := p
  obtain ⟨hsrc, hne, hpay⟩ := hp
  subst hdest
  cases payload with
  | request msg =>
      cases msg with
      | requestVote req =>
          obtain ⟨g', ha, hrel, hset', hvote⟩ := sim_handleRequestVote hs h hset hsrc hpay
          refine ⟨g', ha, hrel, hset', ?_⟩
          intro resp hresp q hq
          obtain rfl : .vote (handleRequestVote c req).2 = resp := Except.ok.inj hresp
          obtain rfl := List.mem_singleton.mp hq
          exact ⟨h.pos, hne.symm, hvote⟩
      | appendEntries req =>
          obtain ⟨l, hoffer⟩ := hpay
          obtain ⟨g', ha, hrel, hset', hack⟩ := sim_handleAppendEntries hs h hset hoffer
          refine ⟨g', ha, hrel, hset', ?_⟩
          intro resp hresp q hq
          change (handleAppendEntries c req).2.map Response.append = .ok resp at hresp
          cases hr : (handleAppendEntries c req).2 with
          | error err =>
              rw [hr] at hresp
              cases hresp
          | ok r =>
              rw [hr] at hresp
              obtain rfl : .append r = resp := Except.ok.inj hresp
              obtain rfl := List.mem_singleton.mp hq
              exact ⟨h.pos, hne.symm, hack r hr⟩
      | installSnapshot req =>
          obtain ⟨l, hoffer⟩ := hpay
          obtain ⟨g', ha, hrel, hset', hack⟩ := sim_handleInstallSnapshot hs h hset hoffer
          refine ⟨g', ha, hrel, hset', ?_⟩
          intro resp hresp q hq
          change (handleInstallSnapshot c req).2.map Response.snapshot = .ok resp at hresp
          cases hr : (handleInstallSnapshot c req).2 with
          | error err =>
              rw [hr] at hresp
              cases hresp
          | ok r =>
              rw [hr] at hresp
              obtain rfl : .snapshot r = resp := Except.ok.inj hresp
              obtain rfl := List.mem_singleton.mp hq
              exact ⟨h.pos, hne.symm, hack r hr⟩
      | timeoutNow req =>
          exact answers_of_sim (sim_handleTimeoutNow hs h hset hpay.1 fun hv => hguard hv trivial)
            fun _ => rfl
  | voteResp req resp =>
      change Answers R T g dest _ (if req.preVote then
        (handlePreVoteResponse c src req.term resp, .ok .none)
        else (handleVoteResponse c src req.term resp, .ok .none))
      split
      · rename_i hpre
        refine answers_of_sim (sim_handlePreVoteResponse hs h hset ?_) fun _ => rfl
        intro hv hc
        refine hguard hv hpre ?_
        change Campaigned c (if req.preVote then
          (handlePreVoteResponse c src req.term resp, Except.ok Response.none)
          else (handleVoteResponse c src req.term resp, .ok .none)).1
        rw [if_pos hpre]
        exact hc
      · rename_i hpre
        rw [Bool.not_eq_true] at hpre
        exact answers_of_sim (sim_handleVoteResponse hs h hset fun hgrant =>
          (hpay hpre hgrant).2) fun _ => rfl
  | appendResp req resp =>
      exact answers_of_sim (sim_handleAppendResponse hs h hset hsrc hne hpay) fun _ => rfl
  | snapshotResp req resp =>
      exact answers_of_sim (sim_handleInstallSnapshotResponse hs h hset hne hpay) fun _ => rfl

end Events

section Compaction

/-- Compaction is no move of the protocol: it only hides a part of the log. -/
theorem nodeRel_compact (h : NodeRel R T g i c) (hset : Settled M (g.log i) c) {index : Nat}
    {data : Bytes}
    (hsnap : c.snapIndex < index → index ≤ c.lastDelivered →
      Encodable (snapshotAt c index data).config ∧
        T (snapshotAt c index data) ((g.log i).take index)) :
    NodeRel R T g i (compact c index data).1 ∧ Settled M (g.log i) (compact c index data).1 := by
  have hdur := durable_compact (durable_of_nodeRel h hset) index data
  rcases compact_cases c index data with heq | ⟨hgt, hle, heq⟩ <;> rw [heq] at hdur ⊢
  · exact ⟨h, hset⟩
  · have hn := h.mirror.numbered_entries
    have hmirror : Mirror M (g.log i)
        (rebase c (snapshotAt c index data) (entriesAfter c index)) :=
      { numbered := h.mirror.numbered
        snap_le := hle.trans h.delivered.1
        entries := by
          change entriesAfter c index = (g.log i).drop index
          rw [entriesAfter_eq hn hgt, h.mirror.entries, List.drop_drop]
          congr 1
          omega
        snapTerm := h.mirror.termAt hgt.le
        snapConfig := h.mirror.configAt hgt.le }
    refine ⟨?_, hset.members, ?_⟩
    · exact
        { h with
          mirror := hmirror
          saved := hdur.saved
          cursors := hdur.cursors
          snapshot := by
            intro snap hs
            obtain rfl : snapshotAt c index data = snap := Option.some.inj hs
            exact hsnap hgt hle
          candidate := fun hr => candidacy_congr (h.candidate hr) rfl rfl
          leader := fun hr => by
            obtain ⟨l, hl⟩ := h.leader hr
            exact ⟨l, leading_congr hl rfl rfl rfl rfl⟩ }
    · intro k e he hconf
      have := hset.lastConfig k e he hconf
      change k + 1 ≤ max index c.lastConfigIndex
      omega

end Compaction

section Restart

variable {cfg : Config} {rng : Nat → Nat} {d : Disk} {entries : List Entry}

theorem nodeRel_bootCore (hid : cfg.id = i) (hpos : i ≠ 0)
    (hterm : g.term i = (loadTermAndVote d).1)
    (hvote : (loadTermAndVote d).2 = (g.vote i (loadTermAndVote d).1).getD noVote)
    (hvote_pos : g.vote i (loadTermAndVote d).1 ≠ some noVote)
    (hlog : replayRecords (loadRaftSnapshot d).lastIndex d.log = .ok entries)
    (hmirror : Mirror M (g.log i) (bootCore cfg rng d M entries))
    (hsnap : ∀ snap, d.snapshot = some snap →
      Encodable snap.config ∧ T snap ((g.log i).take snap.lastIndex))
    (hdel : Committed g (loadTermAndVote d).1 (loadRaftSnapshot d).lastIndex (g.log i)) :
    NodeRel R T g i (bootCore cfg rng d M entries) ∧
      Settled M (g.log i) (bootCore cfg rng d M entries) := by
  have hdur : Durable M (bootCore cfg rng d M entries) := durable_bootCore hlog
  refine ⟨?_, hmirror.members hdur.members, lastConfig_recalc hmirror⟩
  exact
    { id := hid
      pos := hpos
      term := hterm
      vote := hvote
      vote_pos := hvote_pos
      mirror := hmirror
      saved := hdur.saved
      cursors := hdur.cursors
      snapshot := hsnap
      commit_le := le_rfl
      delivered := hdel
      candidate := fun hr => by cases hr
      leader := fun hr => by cases hr
      preVotes := fun hp => by cases hp
      transfer := Or.inl rfl
      outbox := fun o ho => absurd ho List.not_mem_nil
      committed := fun e he => absurd he List.not_mem_nil }

theorem nodeRel_restart (h : NodeRel R T g i c) (hid : cfg.id = i)
    (hlog : replayRecords (loadRaftSnapshot c.disk).lastIndex c.disk.log = .ok entries) :
    NodeRel R T g i (bootCore cfg rng c.disk M entries) ∧
      Settled M (g.log i) (bootCore cfg rng c.disk M entries) := by
  have hsaved := h.saved
  have hentries : entries = c.entries := by
    rw [hsaved.snapIndex, hsaved.log] at hlog
    exact (Except.ok.inj hlog).symm
  refine nodeRel_bootCore hid h.pos ?_ ?_ ?_ hlog ?_ h.snapshot ?_
  · rw [hsaved.state]
    exact h.term
  · rw [hsaved.state]
    exact h.vote
  · rw [hsaved.state]
    exact h.vote_pos
  · exact
      { numbered := h.mirror.numbered
        snap_le := hsaved.snapIndex.le.trans h.mirror.snap_le
        entries := by
          change entries = (g.log i).drop (loadRaftSnapshot c.disk).lastIndex
          rw [hsaved.snapIndex, hentries, h.mirror.entries]
        snapTerm := by
          change (loadRaftSnapshot c.disk).lastTerm = termOf _ (loadRaftSnapshot c.disk).lastIndex
          rw [hsaved.snapIndex, hsaved.snapTerm, h.mirror.snapTerm]
        snapConfig := by
          change (c.disk.snapshot.map Snapshot.config).getD M =
            membersAfter M (List.take (loadRaftSnapshot c.disk).lastIndex _)
          rw [hsaved.snapIndex, hsaved.snapConfig, h.mirror.snapConfig] }
  · rw [hsaved.state, hsaved.snapIndex]
    exact committed_of_le h.delivered h.cursors.snap_le

theorem nodeRel_first (hid : cfg.id = i) (hpos : i ≠ 0) :
    NodeRel R T (RaftKV.Consensus.Protocol.init : Ghost) i (bootCore cfg rng blank M []) ∧
      Settled M [] (bootCore cfg rng blank M []) := by
  refine nodeRel_bootCore hid hpos rfl rfl (Option.some_ne_none noVote).symm rfl ?_ ?_ ?_
  · exact ⟨numbered_nil _, le_rfl, rfl, rfl, rfl⟩
  · intro snap hsnap
    cases hsnap
  · exact committed_zero _ _

end Restart

section Cluster

/-- The whole cluster stands for the protocol state `g`: every running core, every
stopped node through a core it could be, and every packet. -/
structure World (R : Regime M) (T : Snapshot → List Entry → Prop) (g : Ghost)
    (node : ID → Life Core Disk) (net : List Packet) : Prop where
  sound : Sound R g
  live : ∀ i c, node i = .up c → NodeRel R T g i c ∧ Settled M (g.log i) c
  stopped : ∀ i d, node i = .down d → i ≠ 0 →
    ∃ c, NodeRel R T g i c ∧ Settled M (g.log i) c ∧ c.disk = d
  packets : ∀ p ∈ net, PacketOK R T g p

variable {node : ID → Life Core Disk} {net : List Packet}

theorem world_init (cfg : ID → Config) (hid : ∀ i, (cfg i).id = i) :
    World R T (RaftKV.Consensus.Protocol.init : Ghost) (fun _ => .down blank) [] where
  sound :=
    { inv := inv_init
      numbered := fun _ _ h => absurd h (Option.some_ne_none _).symm
      allowed := fun _ _ h => absurd h (Option.some_ne_none _).symm }
  live := fun _ _ h => by cases h
  stopped := by
    intro i d hd hi
    cases hd
    obtain ⟨hrel, hset⟩ :=
      @nodeRel_first M R T i (cfg i) (fun _ => 0) (hid i) hi
    exact ⟨_, hrel, hset, rfl⟩
  packets := fun p hp => absurd hp List.not_mem_nil

/-- Node `i` moves; the others and the packets in flight do not notice. -/
theorem world_advance (hw : World R T g node net) (ha : Advance R i g g') {life : Life Core Disk}
    {sent : List Packet} (hrel : NodeRel R T g' i c') (hset : Settled M (g'.log i) c')
    (hlife : life = .up c' ∨ life = .down c'.disk) (hsent : ∀ p ∈ sent, PacketOK R T g' p) :
    World R T g' (Function.update node i life) (net ++ sent) where
  sound := ha.sound
  live := by
    intro j c hj
    by_cases hij : j = i
    · subst hij
      rw [Function.update_self] at hj
      rcases hlife with rfl | rfl
      · obtain rfl := Life.up.inj hj
        exact ⟨hrel, hset⟩
      · cases hj
    · rw [Function.update_of_ne hij] at hj
      obtain ⟨h, hs⟩ := hw.live j c hj
      rw [ha.frame.log j hij]
      exact ⟨nodeRel_mono ha hij h, hs⟩
  stopped := by
    intro j d hj hpos
    by_cases hij : j = i
    · subst hij
      rw [Function.update_self] at hj
      rcases hlife with rfl | rfl
      · cases hj
      · exact ⟨c', hrel, hset, Life.down.inj hj⟩
    · rw [Function.update_of_ne hij] at hj
      obtain ⟨c, h, hs, hd⟩ := hw.stopped j d hj hpos
      rw [ha.frame.log j hij]
      exact ⟨c, nodeRel_mono ha hij h, hs, hd⟩
  packets := by
    intro p hp
    rcases List.mem_append.mp hp with hp | hp
    · exact packetOK_mono ha.grows (hw.packets p hp)
    · exact hsent p hp

theorem world_replace (hw : World R T g node net) {life : Life Core Disk}
    (hrel : NodeRel R T g i c') (hset : Settled M (g.log i) c')
    (hlife : life = .up c' ∨ life = .down c'.disk) :
    World R T g (Function.update node i life) net := by
  have hnone : ∀ p ∈ ([] : List Packet), PacketOK R T g p := fun p hp =>
    absurd hp List.not_mem_nil
  have := world_advance hw (advance_refl hw.sound i) hrel hset hlife hnone
  rwa [List.append_nil] at this

theorem world_crash (hw : World R T g node net) (hi : node i = .up c) :
    World R T g (Function.update node i (.down c.disk)) net := by
  obtain ⟨hrel, hset⟩ := hw.live i c hi
  exact world_replace hw hrel hset (Or.inr rfl)

theorem world_restart (hw : World R T g node net) {d : Disk} (hi : node i = .down d)
    (hfits : ∀ e ∈ d.log, e.command.length ≤ maxCommandLen) {cfg : Config} {rng : Nat → Nat}
    (hid : cfg.id = i) (hM : i ≠ 0 → initialMembers cfg = .ok M)
    (hboot : newCore cfg rng d = .ok c) :
    World R T g (Function.update node i (.up c)) net := by
  obtain ⟨hpos, M', entries, hM', hlog, rfl⟩ := newCore_cases hboot
  rw [trimmed_eq hfits] at hlog ⊢
  rw [hid] at hpos
  obtain ⟨c₀, hrel, -, rfl⟩ := hw.stopped i d hi hpos
  rw [hM hpos] at hM'
  obtain rfl := Except.ok.inj hM'
  obtain ⟨hrel', hset'⟩ := @nodeRel_restart _ _ _ _ _ _ (applyDefaults cfg) rng entries hrel hid
    hlog
  exact world_replace hw hrel' hset' (Or.inl rfl)

theorem packetOK_outgoing (h : NodeRel R T g i c) : ∀ p ∈ outgoing c, PacketOK R T g p := by
  intro p hp
  obtain ⟨o, ho, rfl⟩ := List.mem_map.mp hp
  obtain ⟨hne, hmsg⟩ := h.outbox o ho
  refine ⟨?_, ?_, ?_⟩
  · change c.cfg.id ≠ 0
    rw [h.id]
    exact h.pos
  · change c.cfg.id ≠ o.dest
    rw [h.id]
    exact hne.symm
  · change MsgOK R T g c.cfg.id o.dest o.msg
    rw [h.id]
    exact hmsg

theorem world_imp {T' : Snapshot → List Entry → Prop} (hw : World R T g node net)
    (hT : ∀ snap L, T snap L → T' snap L) : World R T' g node net where
  sound := hw.sound
  live := fun i c hc => ⟨nodeRel_imp hT (hw.live i c hc).1, (hw.live i c hc).2⟩
  stopped := by
    intro i d hd hi
    obtain ⟨c, h, hs, hdisk⟩ := hw.stopped i d hd hi
    exact ⟨c, nodeRel_imp hT h, hs, hdisk⟩
  packets := fun p hp => packetOK_imp hT (hw.packets p hp)

end Cluster

end RaftKV.Refinement.Simulation
