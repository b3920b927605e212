import RaftKV.Consensus.Locality
import RaftKV.Raft.Cluster
import RaftKV.Raft.Durability

/-!
How a core stands for a node of the abstract protocol. The ghost state has every
node's whole log; a core has the part its snapshot does not cover.
-/

namespace RaftKV.Refinement.Relation

open Consensus.Quorum Consensus.Prefix Consensus.Protocol Consensus.Completeness
open Consensus.Preservation Consensus.Commitment Consensus.Locality
open Raft Raft.Durability Raft.Cluster

variable {dest j : ID} {l : Lead ID Entry} {L : List Entry}

theorem adjacent_apply (m : Members) (cc : ConfChange) :
    Adjacent (voters m) (voters (cc.apply m)) := by
  unfold ConfChange.apply
  split
  · have heq : voters (m.insert cc.id cc.addr) = insert cc.id (voters m) := by
      ext j
      rw [mem_voters, Std.ExtTreeMap.mem_insert, Finset.mem_insert, mem_voters,
        Std.compare_eq_iff_eq]
      tauto
    rw [heq]
    exact adjacent_insert _ _
  · split
    · have heq : voters (m.erase cc.id) = (voters m).erase cc.id := by
        ext j
        rw [mem_voters, Std.ExtTreeMap.mem_erase, Finset.mem_erase, mem_voters, ne_eq,
          Std.compare_eq_iff_eq]
        tauto
      rw [heq]
      exact adjacent_erase _ _
    · exact adjacent_refl _

theorem membersAfter_concat (m : Members) (L : List Entry) (e : Entry) :
    membersAfter m (L ++ [e]) = applyChangeOf (membersAfter m L) e := by
  rw [membersAfter_append]
  rfl

/-- How the protocol reads a log that starts from the membership `M`. -/
def scheme (M : Members) : Scheme ID Entry where
  term := Entry.term
  isConfig := fun e => (changeOf e).isSome = true
  config := fun L => voters (membersAfter M L)
  config_concat := by
    intro L e he
    rw [membersAfter_concat, applyChangeOf]
    cases hc : changeOf e with
    | none => rfl
    | some cc => simp [hc] at he
  config_adjacent := by
    intro L e
    rw [membersAfter_concat, applyChangeOf]
    cases changeOf e with
    | none => exact adjacent_refl _
    | some cc => exact adjacent_apply _ cc

abbrev Ghost := RaftKV.Consensus.Protocol.State ID Entry

/-- What a family of runs allows: the entries that get into logs and the nodes
that may be asked to campaign. -/
structure Regime (M : Members) where
  allowed : Entry → Prop
  voter : ID → Prop
  noop_allowed : ∀ e : Entry, e.type = .noop → allowed e
  voter_of_mem : ∀ L : List Entry, (∀ e ∈ L, allowed e) → ∀ j ∈ membersAfter M L, voter j

variable {M : Members} {R : Regime M} {T T' : Snapshot → List Entry → Prop}
variable {g g' : Ghost} {i : ID} {c : Core}

structure Sound (R : Regime M) (g : Ghost) : Prop where
  inv : Inv (scheme M) g
  numbered : ∀ t l, g.lead t = some l → Numbered 0 l.log
  allowed : ∀ t l, g.lead t = some l → ∀ e ∈ l.log, R.allowed e

theorem allowed_of_matched (h : Sound R g) (hL : Matched (scheme M) g L) :
    ∀ e ∈ L, R.allowed e := by
  intro e he
  obtain ⟨k, hk⟩ := List.mem_iff_getElem?.mp he
  obtain ⟨l, hl, -, hget⟩ := exists_lead_of_getElem? hL hk
  exact h.allowed _ l hl e (List.mem_of_getElem? hget)

theorem term_pos_of_matched (h : Sound R g) (hL : Matched (scheme M) g L)
    {k : Nat} {e : Entry} (he : L[k]? = some e) : 0 < e.term := by
  obtain ⟨l, hl, -, -⟩ := exists_lead_of_getElem? hL he
  exact (h.inv.lead _ l hl).pos

/-- The term at an index of a whole log, `0` at the start and beyond the end. -/
def termOf (L : List Entry) : Nat → Nat
  | 0 => 0
  | k + 1 => ((L[k]?).map Entry.term).getD 0

theorem termOf_of_isPrefix {A B : List Entry} (h : A <+: B) {k : Nat} (hk : k ≤ A.length) :
    termOf A k = termOf B k := by
  cases k with
  | zero => rfl
  | succ k => rw [termOf, termOf, getElem?_eq_of_isPrefix h (by omega)]

/-- `c` holds the part of the whole log `L` that its snapshot does not cover. -/
structure Mirror (M : Members) (L : List Entry) (c : Core) : Prop where
  numbered : Numbered 0 L
  snap_le : c.snapIndex ≤ L.length
  entries : c.entries = L.drop c.snapIndex
  snapTerm : c.snapTerm = termOf L c.snapIndex
  snapConfig : c.snapConfig = membersAfter M (L.take c.snapIndex)

section Mirror

variable {L : List Entry}

theorem Mirror.numbered_entries (h : Mirror M L c) : Contiguous c := by
  have := numbered_drop h.numbered c.snapIndex
  rwa [Nat.zero_add, ← h.entries] at this

theorem Mirror.lastLogIndex (h : Mirror M L c) : lastLogIndex c = L.length := by
  rw [lastLogIndex_eq h.numbered_entries, h.entries, List.length_drop]
  have := h.snap_le
  omega

theorem Mirror.termAt (h : Mirror M L c) {index : Nat} (hi : c.snapIndex ≤ index) :
    termAt c index = termOf L index := by
  rcases Nat.lt_or_eq_of_le hi with hlt | rfl
  · obtain ⟨k, rfl⟩ : ∃ k, index = c.snapIndex + k + 1 := ⟨index - c.snapIndex - 1, by omega⟩
    rw [termAt_of_gt h.numbered_entries, h.entries, List.getElem?_drop]
    rfl
  · rw [termAt_snapIndex, h.snapTerm]

theorem termOf_length (L : List Entry) : termOf L L.length = lastTerm (scheme M) L := by
  rcases List.eq_nil_or_concat L with rfl | ⟨A, e, rfl⟩
  · rfl
  · rw [List.concat_eq_append, lastTerm_concat, List.length_append, List.length_singleton, termOf]
    simp [scheme]

theorem Mirror.lastLogTerm (h : Mirror M L c) : lastLogTerm c = lastTerm (scheme M) L := by
  have hlen := h.snap_le
  unfold RaftKV.Raft.lastLogTerm
  rw [h.entries, List.getLast?_drop]
  split
  · rename_i hnone
    split at hnone
    · rw [h.snapTerm, ← termOf_length]
      congr 1
      omega
    · rw [List.getLast?_eq_none_iff] at hnone
      rw [h.snapTerm, ← termOf_length, hnone]
      have : c.snapIndex = 0 := by
        rw [hnone] at hlen
        simpa using hlen
      rw [this]
      rfl
  · rename_i e hsome
    split at hsome
    · cases hsome
    · simp [lastTerm, hsome, scheme]

theorem Mirror.members (h : Mirror M L c) (hd : c.members = membersAfter c.snapConfig c.entries) :
    c.members = membersAfter M L := by
  rw [hd, h.snapConfig, h.entries, ← membersAfter_append, List.take_append_drop]

theorem Mirror.configAt (h : Mirror M L c) {index : Nat} (hi : c.snapIndex ≤ index) :
    configAt c index = membersAfter M (L.take index) := by
  rw [configAt_eq h.numbered_entries, h.snapConfig, h.entries, ← membersAfter_append]
  congr 1
  have : index = c.snapIndex + (index - c.snapIndex) := by
    omega
  nth_rewrite 2 [this]
  rw [List.take_add]

end Mirror

structure Candidacy (M : Members) (g : Ghost) (i : ID) (c : Core) : Prop where
  cand : g.candLog i c.term = some (g.log i)
  fresh : ∀ l, g.lead c.term = some l → l.node ≠ i
  votes : ∀ x ∈ c.votes, x ∈ membersAfter M (g.log i) ∧ g.vote x c.term = some i

structure Leading (g : Ghost) (i : ID) (c : Core) (l : Lead ID Entry) : Prop where
  lead : g.lead c.term = some l
  node : l.node = i
  log : l.log = g.log i
  acc : g.acc i c.term = (g.log i).length
  matched : ∀ x, matchIndexOf c x ≤ g.acc x c.term
  votes : c.votes = l.voters
  own : l.init.length < c.commitIndex →
    ∃ cm ∈ g.commits, cm.term = c.term ∧ c.commitIndex ≤ cm.len
  top : ∀ cm ∈ g.commits, cm.term = c.term → cm.len ≤ c.commitIndex

/-- A request for a vote states the log its sender campaigns with. -/
def VoteAsked (M : Members) (g : Ghost) (i dest : ID) (req : RequestVoteRequest) : Prop :=
  req.candidateId = i ∧ ∃ L, g.candLog i req.term = some L ∧ req.lastLogIndex = L.length ∧
    req.lastLogTerm = lastTerm (scheme M) L ∧ dest ∈ membersAfter M L

/-- A granted vote is recorded, for a candidate that asked this node. -/
def VoteGiven (M : Members) (g : Ghost) (voter candidate : ID) (t : Nat) : Prop :=
  g.vote voter t = some candidate ∧
    ∃ L, g.candLog candidate t = some L ∧ voter ∈ membersAfter M L

/-- The request carries a stretch of `L` and the term in front of it. -/
structure Segment (L : List Entry) (req : AppendEntriesRequest) : Prop where
  le : req.prevLogIndex ≤ L.length
  entries : req.entries <+: L.drop req.prevLogIndex
  prevTerm : req.prevLogTerm = termOf L req.prevLogIndex
  start : req.prevLogIndex = 0 → req.entries ≠ []

/-- A request from beyond the end of the leader's log, which says nothing. -/
structure Vacuous (req : AppendEntriesRequest) : Prop where
  pos : 0 < req.prevLogIndex
  prevTerm : req.prevLogTerm = 0
  entries : req.entries = []

structure AppendOffer (g : Ghost) (i : ID) (req : AppendEntriesRequest) (l : Lead ID Entry) :
    Prop where
  lead : g.lead req.term = some l
  node : l.node = i
  commit : Committed g req.term req.leaderCommit l.log
  content : Segment l.log req ∨ Vacuous req

def offered (M : Members) (l : Lead ID Entry) (req : InstallSnapshotRequest) : Snapshot where
  lastIndex := req.lastIncludedIndex
  lastTerm := req.lastIncludedTerm
  config := membersAfter M (l.log.take req.lastIncludedIndex)
  data := req.data

structure SnapshotOffer (M : Members) (T : Snapshot → List Entry → Prop) (g : Ghost) (i : ID)
    (req : InstallSnapshotRequest) (l : Lead ID Entry) : Prop where
  lead : g.lead req.term = some l
  node : l.node = i
  term : req.lastIncludedTerm = termOf l.log req.lastIncludedIndex
  commit : Committed g req.term req.lastIncludedIndex l.log
  config : req.config = encodeMembers (offered M l req).config
  encodable : Encodable (offered M l req).config
  taken : T (offered M l req) (l.log.take req.lastIncludedIndex)

def MsgOK (R : Regime M) (T : Snapshot → List Entry → Prop) (g : Ghost) (i dest : ID) :
    Message → Prop
  | .requestVote req => req.preVote = false → VoteAsked M g i dest req
  | .appendEntries req => ∃ l, AppendOffer g i req l
  | .installSnapshot req => ∃ l, SnapshotOffer M T g i req l
  | .timeoutNow req => R.voter dest ∧ ∃ l, g.lead req.term = some l ∧ l.node = i

/-- What a packet promises, whenever it arrives. -/
def PacketOK (R : Regime M) (T : Snapshot → List Entry → Prop) (g : Ghost) (p : Packet) : Prop :=
  p.src ≠ 0 ∧ p.src ≠ p.dest ∧
    match p.payload with
    | .request msg => MsgOK R T g p.src p.dest msg
    | .voteResp req resp => req.preVote = false → resp.voteGranted = true →
        req.candidateId = p.dest ∧ VoteGiven M g p.src p.dest req.term
    | .appendResp req resp => resp.success = true →
        req.prevLogIndex + req.entries.length ≤ g.acc p.src req.term
    | .snapshotResp req resp => resp.term ≤ req.term →
        req.lastIncludedIndex ≤ g.acc p.src req.term

/-- What holds of the core `c` of node `i`, its membership apart. -/
structure NodeRel (R : Regime M) (T : Snapshot → List Entry → Prop) (g : Ghost) (i : ID)
    (c : Core) : Prop where
  id : c.cfg.id = i
  pos : i ≠ 0
  term : g.term i = c.term
  vote : c.votedFor = (g.vote i c.term).getD noVote
  vote_pos : g.vote i c.term ≠ some noVote
  mirror : Mirror M (g.log i) c
  saved : Saved M c
  cursors : Cursors c
  snapshot : ∀ snap, c.disk.snapshot = some snap →
    Encodable snap.config ∧ T snap ((g.log i).take snap.lastIndex)
  commit_le : c.commitIndex ≤ c.lastDelivered
  delivered : Committed g c.term c.lastDelivered (g.log i)
  candidate : c.role = .candidate → Candidacy M g i c
  leader : c.role = .leader → ∃ l, Leading g i c l
  preVotes : c.preVotes.isSome = true → R.voter i
  transfer : c.transferTarget = 0 ∨ R.voter c.transferTarget
  outbox : ∀ o ∈ c.outbox, o.dest ≠ i ∧ MsgOK R T g i o.dest o.msg
  committed : ∀ e ∈ c.committed, 0 < e.index ∧ Chosen g (e.index - 1) e

/-- The membership of `c` is the one its log spells out, and no change lies beyond
the last one it remembers. -/
structure Settled (M : Members) (L : List Entry) (c : Core) : Prop where
  members : c.members = membersAfter M L
  lastConfig : ∀ (k : Nat) (e : Entry), L[k]? = some e → (changeOf e).isSome = true →
    k + 1 ≤ max c.snapIndex c.lastConfigIndex

structure Advance (R : Regime M) (i : ID) (g g' : Ghost) : Prop where
  sound : Sound R g'
  grows : Grows g g'
  frame : Local i g g'

theorem advance_refl (h : Sound R g) (i : ID) : Advance R i g g :=
  ⟨h, grows_refl g, local_refl i g⟩

theorem Advance.trans {g'' : Ghost} (h : Advance R i g g') (h' : Advance R i g' g'') :
    Advance R i g g'' :=
  ⟨h'.sound, grows_trans h.grows h'.grows, local_trans h.frame h'.frame⟩

section Stability

theorem voteAsked_mono (hg : Grows g g') {req : RequestVoteRequest}
    (h : VoteAsked M g i dest req) : VoteAsked M g' i dest req := by
  obtain ⟨hid, L, hL, hrest⟩ := h
  exact ⟨hid, L, hg.cand _ _ _ hL, hrest⟩

theorem segment_mono {L' : List Entry} (hL : L <+: L') {req : AppendEntriesRequest}
    (h : Segment L req) : Segment L' req where
  le := h.le.trans hL.length_le
  entries := h.entries.trans (hL.drop _)
  prevTerm := by rw [h.prevTerm, termOf_of_isPrefix hL h.le]
  start := h.start

theorem appendOffer_mono (hg : Grows g g') {req : AppendEntriesRequest}
    (h : AppendOffer g i req l) : ∃ l', AppendOffer g' i req l' := by
  obtain ⟨l', hl', hn, -, -, hp⟩ := hg.lead _ l h.lead
  exact ⟨l',
    { lead := hl'
      node := hn.trans h.node
      commit := committed_mono hg h.commit le_rfl ((List.take_prefix _ _).trans hp)
      content := h.content.imp_left (segment_mono hp) }⟩

theorem snapshotOffer_mono (hg : Grows g g') {req : InstallSnapshotRequest}
    (h : SnapshotOffer M T g i req l) :
    ∃ l', SnapshotOffer M T g' i req l' := by
  obtain ⟨l', hl', hn, -, -, hp⟩ := hg.lead _ l h.lead
  have htake : l'.log.take req.lastIncludedIndex = l.log.take req.lastIncludedIndex :=
    take_prefix_of_le hp h.commit.1
  have hoff : offered M l' req = offered M l req := by
    rw [offered, offered, htake]
  exact ⟨l',
    { lead := hl'
      node := hn.trans h.node
      term := by rw [h.term, termOf_of_isPrefix hp h.commit.1]
      commit := committed_mono hg h.commit le_rfl ((List.take_prefix _ _).trans hp)
      config := hoff ▸ h.config
      encodable := hoff ▸ h.encodable
      taken := by
        rw [hoff, htake]
        exact h.taken }⟩

theorem msgOK_mono (hg : Grows g g') {msg : Message}
    (h : MsgOK R T g i dest msg) : MsgOK R T g' i dest msg := by
  cases msg with
  | requestVote req => exact fun hp => voteAsked_mono hg (h hp)
  | appendEntries req =>
      obtain ⟨l, hl⟩ := h
      exact appendOffer_mono hg hl
  | installSnapshot req =>
      obtain ⟨l, hl⟩ := h
      exact snapshotOffer_mono hg hl
  | timeoutNow req =>
      obtain ⟨hv, l, hl, hnode⟩ := h
      obtain ⟨l', hl', hn, -⟩ := hg.lead _ l hl
      exact ⟨hv, l', hl', hn.trans hnode⟩

theorem outbox_mono (hg : Grows g g') {out : List Outbound}
    (h : ∀ o ∈ out, o.dest ≠ i ∧ MsgOK R T g i o.dest o.msg) :
    ∀ o ∈ out, o.dest ≠ i ∧ MsgOK R T g' i o.dest o.msg :=
  fun o ho => ⟨(h o ho).1, msgOK_mono hg (h o ho).2⟩

theorem packetOK_mono (hg : Grows g g') {p : Packet} (h : PacketOK R T g p) :
    PacketOK R T g' p := by
  obtain ⟨src, dest, payload⟩ := p
  refine ⟨h.1, h.2.1, ?_⟩
  have h := h.2.2
  cases payload with
  | request msg => exact msgOK_mono hg h
  | voteResp req resp =>
      intro hpre hgrant
      obtain ⟨hid, hvote, L, hL, hmem⟩ := h hpre hgrant
      exact ⟨hid, (hg.vote _ _ _ hvote).1, L, hg.cand _ _ _ hL, hmem⟩
  | appendResp req resp => exact fun hs => (h hs).trans (hg.acc _ _)
  | snapshotResp req resp => exact fun hs => (h hs).trans (hg.acc _ _)

theorem candidacy_mono (hg : Grows g g') (hl : Local i g g') (hij : j ≠ i)
    (h : Candidacy M g j c) : Candidacy M g' j c where
  cand := by
    rw [hl.log j hij]
    exact hg.cand _ _ _ h.cand
  fresh := by
    intro l hlead hnode
    exact h.fresh l (hl.lead _ l hlead (hnode ▸ hij)) hnode
  votes := by
    intro x hx
    rw [hl.log j hij]
    exact ⟨(h.votes x hx).1, (hg.vote _ _ _ (h.votes x hx).2).1⟩

theorem lead_mono (hg : Grows g g') (hl : Local i g g') (hij : j ≠ i)
    {t : Nat} (h : g.lead t = some l) (hnode : l.node = j) :
    g'.lead t = some l := by
  obtain ⟨l', hl', hn, -⟩ := hg.lead _ l h
  have hback := hl.lead _ l' hl' (by rw [hn, hnode]; exact hij)
  rw [h] at hback
  rw [hl', ← Option.some.inj hback]

theorem leading_mono (hg : Grows g g') (hl : Local i g g') (hij : j ≠ i)
    (h : Leading g j c l) : Leading g' j c l where
  lead := lead_mono hg hl hij h.lead h.node
  node := h.node
  log := by rw [h.log, hl.log j hij]
  acc := by rw [hl.acc j hij, h.acc, hl.log j hij]
  matched := fun x => (h.matched x).trans (hg.acc x _)
  votes := h.votes
  own := by
    intro hlt
    obtain ⟨cm, hcm, hrest⟩ := h.own hlt
    exact ⟨cm, hg.commits hcm, hrest⟩
  top := by
    intro cm hcm hterm
    by_cases hold : cm ∈ g.commits
    · exact h.top cm hold hterm
    · have hlead := lead_mono hg hl hij h.lead h.node
      rw [← hterm] at hlead
      exact absurd (h.node.symm.trans (hl.commits cm hcm hold l hlead)) hij

theorem nodeRel_mono (ha : Advance R i g g') (hij : j ≠ i)
    (h : NodeRel R T g j c) : NodeRel R T g' j c := by
  have hlog := ha.frame.log j hij
  have hvote := ha.frame.vote j hij
  exact
    { h with
      term := by rw [ha.frame.term j hij, h.term]
      vote := by rw [hvote, h.vote]
      vote_pos := by
        rw [hvote]
        exact h.vote_pos
      mirror := by
        rw [hlog]
        exact h.mirror
      snapshot := by
        rw [hlog]
        exact h.snapshot
      delivered := committed_mono ha.grows h.delivered le_rfl (by
        rw [hlog]
        exact List.take_prefix _ _)
      candidate := fun hr => candidacy_mono ha.grows ha.frame hij (h.candidate hr)
      leader := fun hr => by
        obtain ⟨l, hl⟩ := h.leader hr
        exact ⟨l, leading_mono ha.grows ha.frame hij hl⟩
      outbox := outbox_mono ha.grows h.outbox
      committed := fun e he => ⟨(h.committed e he).1, chosen_mono ha.grows (h.committed e he).2⟩ }

end Stability

section Provenance

variable (hT : ∀ snap L, T snap L → T' snap L)

include hT

theorem msgOK_imp {msg : Message} (h : MsgOK R T g i dest msg) :
    MsgOK R T' g i dest msg := by
  cases msg with
  | requestVote req => exact h
  | appendEntries req => exact h
  | installSnapshot req =>
      obtain ⟨l, hl⟩ := h
      exact ⟨l, { hl with taken := hT _ _ hl.taken }⟩
  | timeoutNow req => exact h

theorem packetOK_imp {p : Packet} (h : PacketOK R T g p) : PacketOK R T' g p := by
  obtain ⟨src, dest, payload⟩ := p
  refine ⟨h.1, h.2.1, ?_⟩
  have h := h.2.2
  cases payload with
  | request msg => exact msgOK_imp hT h
  | voteResp req resp => exact h
  | appendResp req resp => exact h
  | snapshotResp req resp => exact h

theorem nodeRel_imp (h : NodeRel R T g i c) : NodeRel R T' g i c :=
  { h with
    snapshot := fun snap hsnap => ⟨(h.snapshot snap hsnap).1, hT _ _ (h.snapshot snap hsnap).2⟩
    outbox := fun o ho => ⟨(h.outbox o ho).1, msgOK_imp hT (h.outbox o ho).2⟩ }

end Provenance

end RaftKV.Refinement.Relation
