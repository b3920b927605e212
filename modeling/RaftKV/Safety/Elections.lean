import RaftKV.Consensus.Quorum
import RaftKV.Raft.Addressees
import RaftKV.Raft.Authorship
import RaftKV.Raft.Histories

/-!
Elections with one membership. Who votes for whom depends on terms and votes alone, so that
nothing here asks what becomes of the logs.
-/

namespace RaftKV.Safety.Elections

open Consensus.Quorum
open Distributed.Network
open Raft Raft.Durability Raft.Moves Raft.Cluster
open Raft.Histories Raft.Barriers Raft.Provenance Raft.Authorship Raft.Addressees

variable {ev : Event} {input : Input} {t : Nat}

theorem membersAfter_plain {M : Members} {L : List Entry} (h : ∀ e ∈ L, e.type ≠ .config) :
    membersAfter M L = M :=
  membersAfter_of_plain M fun e he => changeOf_of_type_ne (h e he)

section Tables

variable {M : Members} {ev : Event} {c c' : Core}

/-- Every table that a core goes by, has saved or passes on is `M`. -/
structure Constant (M : Members) (c : Core) : Prop where
  members : c.members = M
  snapConfig : c.snapConfig = M
  snapIndex : (loadRaftSnapshot c.disk).lastIndex = c.snapIndex
  snapshot : ∀ snap ∈ c.disk.snapshot, snap.config = M
  outbox : ∀ o ∈ c.outbox, ∀ req, o.msg = .installSnapshot req → req.config = encodeMembers M

theorem constant_of_sameLog (h : Constant M c) (hs : SameLog c c') (ho : c'.outbox = c.outbox) :
    Constant M c' where
  members := hs.members.trans h.members
  snapConfig := hs.snapConfig.trans h.snapConfig
  snapIndex := by
    rw [hs.disk, hs.snapIndex]
    exact h.snapIndex
  snapshot := hs.disk ▸ h.snapshot
  outbox := ho ▸ h.outbox

theorem config_snapshotRequest (h : Constant M c) (hpos : 0 < c.snapIndex) :
    (snapshotRequest c).config = encodeMembers M := by
  have hindex := h.snapIndex
  change encodeMembers (loadRaftSnapshot c.disk).config = _
  unfold loadRaftSnapshot at hindex ⊢
  cases hsnap : c.disk.snapshot with
  | none =>
      rw [hsnap] at hindex
      exact absurd hindex hpos.ne
  | some snap => exact congrArg encodeMembers (h.snapshot snap hsnap)

theorem constant_appendNew {entries : List Entry} (h : Constant M c)
    (hold : ∀ e ∈ c.entries, e.type ≠ .config) (hnew : ∀ e ∈ entries, e.type ≠ .config) :
    Constant M (appendNew c entries).1 := by
  unfold appendNew
  split
  · exact h
  · rename_i e rest hfresh
    have hrest : ∀ f ∈ e :: rest, f.type ≠ .config := fun f hf =>
      hnew f ((List.dropWhile_suffix _).subset (hfresh ▸ hf))
    unfold truncateAndAppend
    split
    · exact h
    · split
      · exact { h with }
      · rename_i d hd
        have hsnap : d.snapshot = c.disk.snapshot := by
          unfold append at hd
          split at hd <;> cases hd
          rfl
        have hsplice : Constant M (splice c d e rest) :=
          { h with
            snapIndex := by
              have hindex := h.snapIndex
              unfold loadRaftSnapshot at hindex
              change (d.snapshot.getD noSnapshot).lastIndex = c.snapIndex
              rw [hsnap, hindex]
            snapshot := fun snap hmem => h.snapshot snap (hsnap ▸ hmem) }
        split
        · refine { hsplice with members := ?_ }
          change membersAfter c.snapConfig (retained c e.index ++ e :: rest) = M
          rw [h.snapConfig]
          refine membersAfter_plain fun f hf => ?_
          exact (List.mem_append.mp hf).elim (fun hf => hold f (mem_of_mem_retained hf)) (hrest f)
        · dsimp only
          rw [noteAppendedConfigs_eq]
          refine { hsplice with members := ?_ }
          change membersAfter c.members (e :: rest) = M
          rw [h.members, membersAfter_plain hrest]

theorem constant_rebase {keep : List Entry} {snap : Snapshot} (h : Constant M c)
    (hsnap : snap.config = M) : Constant M (rebase c snap keep) where
  members := h.members
  snapConfig := hsnap
  snapIndex := rfl
  snapshot := by
    rintro _ ⟨⟩
    exact hsnap
  outbox := h.outbox

theorem constant_move (hM : Encodable M) (hch : changing ev = false)
    (hsnap : ∀ req, ev = .installSnapshot req → req.config = encodeMembers M)
    (hev : ∀ e ∈ brought ev, e.type ≠ .config) (hold : ∀ e ∈ c.entries, e.type ≠ .config)
    (hmove : Move ev c c') (h : Constant M c) : Constant M c' := by
  have hout : ∀ o ∈ c'.outbox, ∀ req, o.msg = .installSnapshot req →
      req.config = encodeMembers M := by
    intro o ho req hmsg
    rcases mem_outbox_move hmove ho with hold | ⟨-, -, hnew⟩
    · exact h.outbox o hold req hmsg
    cases hnew with
    | vote | timeoutNow => cases hmsg
    | sent hrole hdest hsent =>
        cases hsent with
        | snapshot peer hp =>
            cases hmsg
            exact config_snapshotRequest h ((nextFor_pos c peer).trans_le hp)
        | append => cases hmsg
  cases hmove with
  | ask | send | fire => exact { h with outbox := hout }
  | advance n hrole hn =>
      have hc : Constant M { c with commitIndex := n } := { h with }
      exact constant_of_sameLog hc (sameLog_deliverCommitted _) (outbox_deliverCommitted _)
  | follow req hreq =>
      have hc : Constant M { c with
          commitIndex := min req.leaderCommit (req.prevLogIndex + req.entries.length) } :=
        { h with }
      exact constant_of_sameLog hc (sameLog_deliverCommitted _) (outbox_deliverCommitted _)
  | change cc index hreq =>
      rw [hreq] at hch
      cases hch
  | accept req hreq =>
      subst hreq
      exact constant_appendNew h hold hev
  | grant req hask =>
      unfold grantVote
      split <;> exact { h with }
  | install req config hreq hterm hrole hgt hcommit hconfig =>
      rw [hsnap req hreq, decodeMembers_encode hM] at hconfig
      obtain rfl := Except.ok.inj hconfig
      have hbase : Constant M (rebase c (carried req M) (coherentSuffix c (carried req M))) :=
        constant_rebase h rfl
      refine { hbase with members := ?_ }
      exact membersAfter_plain fun e he => hold e (mem_of_mem_coherentSuffix he)
  | drift | ack | stepDown | recognize | campaign | count | win | own | note | retry | read =>
      exact { h with }

theorem constant_compact (h : Constant M c) (hold : ∀ e ∈ c.entries, e.type ≠ .config)
    (index : Nat) (data : Bytes) : Constant M (compact c index data).1 := by
  rcases compact_cases c index data with heq | ⟨-, -, heq⟩ <;> rw [heq]
  · exact h
  · refine constant_rebase h ?_
    change membersAfter c.snapConfig _ = M
    rw [h.snapConfig]
    exact membersAfter_plain fun e he => hold e ((List.takeWhile_prefix _).subset he)

end Tables

section Votes

variable {M : Members} {ev : Event} {c c' : Core} {calls calls' : List CoreCall} {i x : ID}
variable {p : Packet}

/-- Some call left node `x` in term `t` with a vote for `v`. -/
def Granted (calls : List CoreCall) (x : ID) (t : Nat) (v : ID) : Prop :=
  ∃ k ∈ calls, k.node = x ∧ k.post.term = t ∧ k.post.votedFor = v

theorem granted_mono {v : ID} (h : Granted calls x t v) (hsub : calls ⊆ calls') :
    Granted calls' x t v := by
  obtain ⟨k, hk, hvote⟩ := h
  exact ⟨k, hsub hk, hvote⟩

/-- Some call has found or left node `x` leading term `t`. -/
def HasLed (calls : List CoreCall) (x : ID) (t : Nat) : Prop :=
  ∃ k ∈ calls, k.node = x ∧ ∃ a, (k.pre = a ∨ k.post = a) ∧ a.role = .leader ∧ a.term = t

theorem hasLed_mono (h : HasLed calls x t) (hsub : calls ⊆ calls') :
    HasLed calls' x t := by
  obtain ⟨k, hk, hled⟩ := h
  exact ⟨k, hsub hk, hled⟩

/-- The term in which a message claims that its sender leads. -/
def claimed : Message → Option Nat
  | .appendEntries req => some req.term
  | .installSnapshot req => some req.term
  | .timeoutNow req => some req.term
  | .requestVote _ => none

/-- Node `i` asks in its own name, claims to lead the terms it has led, and counts its own
vote and votes that were granted. -/
structure Supported (M : Members) (calls : List CoreCall) (i : ID) (c : Core) : Prop where
  id : c.cfg.id = i
  asks : ∀ o ∈ c.outbox, ∀ req, o.msg = .requestVote req → req.candidateId = i
  claims : ∀ o ∈ c.outbox, ∀ t, claimed o.msg = some t →
    t = c.term ∧ (c.role = .leader ∨ HasLed calls i t)
  probing : c.preVotes.isSome = true → i ∈ M
  own : c.role ≠ .follower → i ∈ M ∧ c.votedFor = i
  votes : c.role ≠ .follower → ∀ x ∈ c.votes, x ∈ M ∧ (x = i ∨ Granted calls x c.term i)
  leads : c.role = .leader → majority c ≤ c.votes.card

theorem supported_mono (h : Supported M calls i c) (hsub : calls ⊆ calls') :
    Supported M calls' i c :=
  { h with
    claims := fun o ho t ht =>
      (h.claims o ho t ht).imp_right fun hor => hor.imp_right fun hled => hasLed_mono hled hsub
    votes := fun hrole x hx =>
      (h.votes hrole x hx).imp_right fun hor => hor.imp_right fun hg => granted_mono hg hsub }

theorem claimed_of_unasked (h : Unasked [] c) : ∀ o ∈ c.outbox, ∀ t, claimed o.msg ≠ some t := by
  rintro o ho t ht
  obtain ⟨req, hreq, -⟩ := (h o ho).resolve_left List.not_mem_nil
  rw [hreq] at ht
  cases ht

theorem supported_of_follower (h : Supported M calls i c) (hask : Unasked [] c)
    (hid : c'.cfg = c.cfg) (hout : c'.outbox = c.outbox)
    (hpre : c'.preVotes.isSome = true → c.preVotes.isSome = true) (hrole : c'.role = .follower) :
    Supported M calls i c' where
  id := (congrArg Config.id hid).trans h.id
  asks := hout ▸ h.asks
  claims := fun o ho t ht => absurd ht (claimed_of_unasked hask o (hout ▸ ho) t)
  probing := fun hsome => h.probing (hpre hsome)
  own := fun hne => absurd hrole hne
  votes := fun hne => absurd hrole hne
  leads := fun hlead => by
    rw [hrole] at hlead
    cases hlead

theorem supported_deliverCommitted (hM : c.members = M) (h : Supported M calls i c) (n : Nat) :
    Supported M calls i (deliverCommitted { c with commitIndex := n }) := by
  obtain ⟨c', hq, heq⟩ := deliverCommitted_cases { c with commitIndex := n }
  rw [heq]
  cases hq with
  | stay => exact { h with }
  | leave e he hconf hrole hmem =>
      have hlead : c.role = .leader := hrole
      have hin := (h.own (by rw [hlead]; exact Role.noConfusion)).1
      have hmember : c.members.contains c.cfg.id = false := hmem
      rw [hM, h.id, Std.ExtTreeMap.contains_iff_mem.mpr hin] at hmember
      cases hmember

theorem supported_move (hi : i ≠ 0) (hM : c.members = M) (hM' : c'.members = M)
    (hrun : ∀ req, ev = .timeoutNow req → i ∈ M)
    (hvote : ∀ sender t resp, ev = .voteResp sender t false resp → resp.voteGranted = true →
      sender ∈ M ∧ Granted calls sender t i)
    (hanswer : ∀ t, Answers ev t → HasLed calls i t)
    (hmove : Move ev c c') (h : Supported M calls i c) : Supported M calls i c' := by
  have hmember : isMember c = true → i ∈ M := by
    intro hmem
    rw [isMember, hM, h.id] at hmem
    exact Std.ExtTreeMap.contains_iff_mem.mp hmem
  have hmajority : majority c' = majority c := by
    rw [majority, majority, hM, hM']
  have hsends : Sends ev c → c.role = .leader ∨ HasLed calls i c.term :=
    fun hs => hs.imp_right fun hs => hanswer _ hs.2.2
  have hasks : ∀ o ∈ c'.outbox, ∀ req, o.msg = .requestVote req → req.candidateId = i := by
    intro o ho req hmsg
    rcases mem_outbox_move hmove ho with hold | ⟨-, -, hnew⟩
    · exact h.asks o hold req hmsg
    cases hnew with
    | vote dest req' hdest hreq hid =>
        cases hmsg
        exact hid.trans h.id
    | sent hrole hdest hsent => cases hsent <;> cases hmsg
    | timeoutNow => cases hmsg
  have hclaims : c'.term = c.term → c'.role = c.role → ∀ o ∈ c'.outbox, ∀ t,
      claimed o.msg = some t → t = c'.term ∧ (c'.role = .leader ∨ HasLed calls i t) := by
    intro hterm hrole o ho t ht
    rw [hterm, hrole]
    rcases mem_outbox_move hmove ho with hold | ⟨-, -, hnew⟩
    · exact h.claims o hold t ht
    cases hnew with
    | vote => cases ht
    | sent hs hdest hsent => cases hsent <;> cases ht <;> exact ⟨rfl, hsends hs⟩
    | timeoutNow dest hs =>
        cases ht
        exact ⟨rfl, hsends hs⟩
  cases hmove with
  | drift t hprobe =>
      exact { h with
        probing := fun hsome => (hprobe hsome).elim h.probing hmember
        leads := fun hlead => hmajority ▸ h.leads hlead }
  | stepDown term hlt hask => exact supported_of_follower h hask rfl rfl (by rintro ⟨⟩) rfl
  | recognize leaderId hcur hask => exact supported_of_follower h hask rfl rfl id rfl
  | grant req hask hfree =>
      refine { h with own := fun hrole => ⟨(h.own hrole).1, ?_⟩ }
      have hown : c.votedFor = i := (h.own hrole).2
      change req.candidateId = i
      rcases hfree with hnone | hsame
      · exact absurd (hown.symm.trans hnone) hi
      · rw [← hsame, hown]
  | campaign hrole hask hmay =>
      have hin : i ∈ M := by
        rcases hmay with hmem | hprobe | ⟨req, hreq⟩
        · exact hmember hmem
        · exact h.probing hprobe
        · exact hrun req hreq
      refine ⟨h.id, h.asks, fun o ho t ht => absurd ht (claimed_of_unasked hask o ho t), h.probing,
        fun _ => ⟨hin, h.id⟩, ?_, by rintro ⟨⟩⟩
      intro _ y hy
      obtain rfl : y = i := (Finset.mem_singleton.mp hy).trans h.id
      exact ⟨hin, Or.inl rfl⟩
  | ask | send | fire => exact { h with asks := hasks, claims := hclaims rfl rfl }
  | count sender resp hev hgrant hrole =>
      refine { h with votes := fun hne y hy => ?_, leads := fun hlead => ?_ }
      · rcases Finset.mem_insert.mp hy with rfl | hy
        · obtain ⟨hin, hg⟩ := hvote _ _ _ hev hgrant
          exact ⟨hin, Or.inr hg⟩
        · exact h.votes hne y hy
      · exact absurd (hrole.symm.trans hlead) (by rintro ⟨⟩)
  | win hrole hvotes =>
      have hne : c.role ≠ .follower := by
        rw [hrole]
        exact Role.noConfusion
      exact ⟨h.id, h.asks, fun o ho t ht => ⟨(h.claims o ho t ht).1, Or.inl rfl⟩, by rintro ⟨⟩,
        fun _ => h.own hne, fun _ => h.votes hne, fun _ => hvotes⟩
  | advance | follow => exact supported_deliverCommitted hM h _
  | accept req =>
      have hlead : c.role = .leader → majority (appendNew c req.entries).1 ≤ c.votes.card := by
        rw [hmajority]
        exact h.leads
      rw [appendNew_eq] at hlead ⊢
      exact { h with leads := hlead }
  | change cc index hev => exact { h with leads := fun hlead => hmajority ▸ h.leads hlead }
  | install req config =>
      exact { h with leads := fun hlead => hmajority ▸ h.leads hlead }
  | ack | own | note | retry | read => exact { h with }

/-- Requests go to members, so that only members answer. -/
def Internal (M : Members) (p : Packet) : Prop :=
  match p.payload with
  | .request _ => p.dest ∈ M
  | _ => p.src ∈ M

theorem internal_of_reply {q : Packet} {answer : Response} (h : p ∈ reply q answer)
    (hq : Internal M q) : Internal M p := by
  obtain ⟨src, dest, payload⟩ := q
  cases payload with
  | request msg =>
      have hdest : dest ∈ M := hq
      cases msg <;> cases answer <;>
        simp only [reply, List.not_mem_nil, List.mem_singleton] at h <;> (rw [h]; exact hdest)
  | _ => simp [reply] at h

theorem mem_of_correspondent (hp : Internal M p) (h : correspondent (eventOf p) = some x) :
    x ∈ M ∧ x = p.src := by
  obtain ⟨src, dest, payload⟩ := p
  cases payload with
  | request msg => cases msg <;> cases h
  | voteResp req resp => cases h
  | appendResp req resp =>
      cases h
      exact ⟨hp, rfl⟩
  | snapshotResp req resp =>
      cases h
      exact ⟨hp, rfl⟩

/-- What a packet may say: tables are `M`, candidates ask in their own name, those who claim
a term have led it, and a vote is granted by the node that has cast it. -/
structure Fair (M : Members) (calls : List CoreCall) (p : Packet) : Prop where
  inside : Internal M p
  apart : p.src ≠ p.dest
  claim : ∀ msg t, p.payload = .request msg → claimed msg = some t → HasLed calls p.src t
  answer : ∀ req resp, p.payload = .appendResp req resp → HasLed calls p.dest req.term
  plain : ∀ e ∈ brought (eventOf p), e.type ≠ .config
  snapshot : ∀ req, p.payload = .request (.installSnapshot req) → req.config = encodeMembers M
  ask : ∀ req, p.payload = .request (.requestVote req) → req.candidateId = p.src ∧ p.src ≠ 0
  vote : ∀ req resp, p.payload = .voteResp req resp → req.candidateId = p.dest ∧ p.dest ≠ 0 ∧
    (req.preVote = false → resp.voteGranted = true → Granted calls p.src req.term p.dest)

theorem fair_mono (h : Fair M calls p) (hsub : calls ⊆ calls') : Fair M calls' p :=
  { h with
    claim := fun msg t hpay hclaim => hasLed_mono (h.claim msg t hpay hclaim) hsub
    answer := fun req resp hpay => hasLed_mono (h.answer req resp hpay) hsub
    vote := fun req resp hpay => by
      obtain ⟨hid, hne, hgrant⟩ := h.vote req resp hpay
      exact ⟨hid, hne, fun hpre hyes => granted_mono (hgrant hpre hyes) hsub⟩ }

end Votes

section Runs

variable {D : Deployment} {s : CoreState} {i j x : ID} {c c' : Core} {k : CoreCall}
variable {calls calls' : List CoreCall} {M : Members} {p : Packet}

def Brings (input : Input) (ev : Event) : Prop :=
  input = .client ev ∨ ∃ p, input = .deliver p ∧ ev = eventOf p

theorem changing_eventOf (p : Packet) : changing (eventOf p) = false := by
  obtain ⟨src, dest, payload⟩ := p
  cases payload with
  | request msg => cases msg <;> rfl
  | voteResp | appendResp | snapshotResp => rfl

theorem plain_of_requests {e : Entry} (hch : changing ev = false)
    (h : Requests ev e) : e.type ≠ .config := by
  intro htype
  rcases h with rfl | ⟨cc, rfl, -⟩
  · exact of_decide_eq_false hch htype
  · cases hch

structure Acceptable (M : Members) (calls : List CoreCall) (i : ID) (ev : Event) : Prop where
  changing : changing ev = false
  snapshot : ∀ req, ev = .installSnapshot req → req.config = encodeMembers M
  plain : ∀ e ∈ brought ev, e.type ≠ .config
  campaign : ∀ req, ev = .timeoutNow req → i ∈ M
  vote : ∀ sender t resp, ev = .voteResp sender t false resp → resp.voteGranted = true →
    sender ∈ M ∧ Granted calls sender t i
  answer : ∀ t, Answers ev t → HasLed calls i t
  inside : ∀ x, correspondent ev = some x → x ∈ M ∧ x ≠ i

theorem acceptable_eventOf (h : Fair M calls p) : Acceptable M calls p.dest (eventOf p) := by
  refine ⟨changing_eventOf p, fun req hev => ?_, h.plain, fun req hev => ?_,
    fun sender t resp hev hgrant => ?_, ?_, fun x hx => ?_⟩
  · obtain ⟨src, dest, payload⟩ := p
    cases payload with
    | request msg =>
        cases msg with
        | installSnapshot req' =>
            cases hev
            exact h.snapshot _ rfl
        | _ => cases hev
    | _ => cases hev
  · obtain ⟨src, dest, payload⟩ := p
    cases payload with
    | request msg => exact h.inside
    | _ => cases hev
  · obtain ⟨src, dest, payload⟩ := p
    cases payload with
    | request msg => cases msg <;> cases hev
    | voteResp req resp' =>
        obtain ⟨-, -, hg⟩ := h.vote req resp' rfl
        injection hev with hsrc hterm hpre hresp
        subst hsrc hterm hresp
        exact ⟨h.inside, hg hpre hgrant⟩
    | _ => cases hev
  · rintro t ⟨sender, req, resp, hev, rfl⟩
    obtain ⟨src, dest, payload⟩ := p
    cases payload with
    | request msg => cases msg <;> cases hev
    | appendResp req' resp' =>
        cases hev
        exact h.answer _ _ rfl
    | _ => cases hev
  · obtain ⟨hmem, rfl⟩ := mem_of_correspondent h.inside hx
    exact ⟨hmem, h.apart⟩

/-- A node that knows of no membership but `M`, and only of votes that were granted. -/
structure Conforms (M : Members) (calls : List CoreCall) (i : ID) (c : Core) : Prop where
  plain : AllEntries (fun e => e.type ≠ .config) c
  constant : Constant M c
  supported : Supported M calls i c

theorem conforms_move (hM : Encodable M) (hi : i ≠ 0)
    (hev : Acceptable M calls i ev) (hmove : Move ev c c') (h : Conforms M calls i c) :
    Conforms M calls i c' := by
  have hconst : Constant M c' :=
    constant_move hM hev.changing hev.snapshot hev.plain h.plain.entries hmove h.constant
  refine ⟨allEntries_move ?_ (fun e => plain_of_requests hev.changing) hev.plain hmove h.plain,
    hconst, supported_move hi h.constant.members hconst.members hev.campaign hev.vote hev.answer
      hmove h.supported⟩
  intro e htype _
  rw [htype]
  exact EntryType.noConfusion

theorem conforms_takeQueues (h : Conforms M calls i c) : Conforms M calls i (takeQueues c) where
  plain :=
    { h.plain with
      committed := fun _ he => absurd he List.not_mem_nil
      outbox := fun _ ho => absurd ho List.not_mem_nil }
  constant := { h.constant with outbox := fun _ ho => absurd ho List.not_mem_nil }
  supported :=
    { h.supported with
      asks := fun _ ho => absurd ho List.not_mem_nil
      claims := fun _ ho => absurd ho List.not_mem_nil }

theorem conforms_respond (hM : Encodable M) (hi : i ≠ 0)
    (hev : ∀ ev, Brings input ev → Acceptable M calls i ev) (h : Conforms M calls i c) :
    Conforms M calls i (respond c input).1 := by
  have hq := conforms_takeQueues h
  have hhandle : ∀ ev, Brings input ev → Conforms M calls i (handle (takeQueues c) ev).1 :=
    fun ev hbrings => moves_induction (moves_taken ev) hq fun a b =>
      conforms_move hM hi (hev ev hbrings)
  cases input with
  | deliver p =>
      change Conforms M calls i (react c _ _).1
      rw [react_fst]
      exact hhandle _ (Or.inr ⟨p, rfl, rfl⟩)
  | client ev =>
      change Conforms M calls i (react c _ _).1
      rw [react_fst]
      exact hhandle ev (Or.inl rfl)
  | compact index data =>
      refine ⟨allEntries_compact hq.plain index data,
        constant_compact hq.constant hq.plain.entries index data, ?_⟩
      change Supported M calls i (compact (takeQueues c) index data).1
      rcases compact_cases (takeQueues c) index data with heq | ⟨-, -, heq⟩ <;> rw [heq]
      · exact hq.supported
      · exact { hq.supported with }

theorem dest_mem_of_outbox (hev : ∀ ev, Brings input ev → Acceptable M calls i ev)
    (h : Conforms M calls i c) {o : Outbound} (ho : o ∈ (respond c input).1.outbox) :
    o.dest ∈ M ∧ o.dest ≠ i := by
  have hpeers : Peers (fun x => x ∈ M ∧ x ≠ i) (takeQueues c) := fun x hx hne =>
    ⟨h.constant.members ▸ hx, h.supported.id ▸ hne⟩
  have hposts : ∀ ev, Brings input ev → o ∈ (handle (takeQueues c) ev).1.outbox →
      o.dest ∈ M ∧ o.dest ≠ i := by
    intro ev hbrings ho
    exact (posts_handle hpeers (hev ev hbrings).inside o ho).resolve_left List.not_mem_nil
  cases input with
  | deliver q =>
      change o ∈ (react c _ _).1.outbox at ho
      rw [react_fst] at ho
      exact hposts _ (Or.inr ⟨q, rfl, rfl⟩) ho
  | client ev =>
      change o ∈ (react c _ _).1.outbox at ho
      rw [react_fst] at ho
      exact hposts ev (Or.inl rfl) ho
  | compact index data =>
      change o ∈ (compact (takeQueues c) index data).1.outbox at ho
      rcases compact_cases (takeQueues c) index data with heq | ⟨-, -, heq⟩ <;> rw [heq] at ho <;>
        exact absurd ho List.not_mem_nil

def Faithful (M : Members) (calls : List CoreCall) (i : ID) : Life Core Disk → Prop
  | .up c => i ≠ 0 ∧ Conforms M calls i c
  | .down d => (∀ e ∈ d.log, e.type ≠ .config) ∧ ∀ snap ∈ d.snapshot, snap.config = M

theorem faithful_mono {life : Life Core Disk} (h : Faithful M calls i life)
    (hsub : calls ⊆ calls') : Faithful M calls' i life := by
  cases life with
  | up c => exact ⟨h.1, { h.2 with supported := supported_mono h.2.supported hsub }⟩
  | down d => exact h

theorem faithful_boot (hD : D.Uniform) {rng : Nat → Nat} {d : Disk}
    (h : Faithful D.members calls i (.down d)) (hboot : (coreSystem D).boot i rng d = some c) :
    Faithful D.members calls i (.up c) := by
  obtain ⟨hplain, hsnaps⟩ := h
  obtain ⟨hid, M, entries, hM, hlog, rfl⟩ := newCore_cases (newCore_of_boot hboot)
  rw [D.cfg_id i] at hid
  rw [D.cfg_tables i hid, hD.tables i] at hM
  obtain rfl := Except.ok.inj hM
  have hentries : ∀ e ∈ entries, e.type ≠ .config := fun e he =>
    hplain e (mem_of_mem_intact (mem_of_replay hlog he))
  have hconfig : (d.snapshot.map Snapshot.config).getD D.members = D.members := by
    cases hsnap : d.snapshot with
    | none => rfl
    | some snap => exact hsnaps snap hsnap
  refine ⟨hid, ⟨hentries, fun e he => hplain e (mem_of_mem_intact he),
      fun e he => absurd he List.not_mem_nil, fun o ho => absurd ho List.not_mem_nil⟩,
    ⟨?_, hconfig, rfl, hsnaps, fun o ho => absurd ho List.not_mem_nil⟩,
    ⟨D.cfg_id i, fun o ho => absurd ho List.not_mem_nil, fun o ho => absurd ho List.not_mem_nil,
      by rintro ⟨⟩, fun hne => absurd rfl hne, fun hne => absurd rfl hne, by rintro ⟨⟩⟩⟩
  change membersAfter ((d.snapshot.map Snapshot.config).getD D.members) entries = D.members
  rw [hconfig]
  exact membersAfter_plain hentries

theorem fair_reply {q : Packet} {answer : Response} (hq : Fair M calls q) (hk : k.node = q.dest)
    (hpost : k.post = (handle (takeQueues k.pre) (eventOf q)).1)
    (hans : (handle (takeQueues k.pre) (eventOf q)).2 = .ok answer) (hp : p ∈ reply q answer) :
    Fair M (calls ++ [k]) p := by
  have hinside := internal_of_reply hp hq.inside
  have hapart := hq.apart.symm
  have hsub : calls ⊆ calls ++ [k] := List.subset_append_left _ _
  obtain ⟨src, dest, payload⟩ := q
  cases payload with
  | request msg =>
      cases msg with
      | requestVote req =>
          cases answer with
          | vote resp =>
              obtain rfl : p = ⟨dest, src, .voteResp req resp⟩ := List.mem_singleton.mp hp
              obtain ⟨hid, hne⟩ := hq.ask req rfl
              refine ⟨hinside, hapart, by rintro _ _ ⟨⟩, by rintro _ _ ⟨⟩,
                fun e he => absurd he List.not_mem_nil, by rintro _ ⟨⟩, by rintro _ ⟨⟩, ?_⟩
              rintro req' resp' ⟨⟩
              refine ⟨hid, hne, fun hpre hgrant => ?_⟩
              obtain rfl : (handleRequestVote (takeQueues k.pre) req).2 = resp := by
                injection hans with hresp
                injection hresp
              obtain ⟨hterm, hvoted⟩ := vote_of_granted hpre hgrant
              refine ⟨k, List.mem_concat_self, hk, ?_, ?_⟩
              · rw [hpost]
                exact hterm
              · rw [hpost]
                exact hvoted.trans hid
          | _ => exact absurd hp List.not_mem_nil
      | appendEntries req =>
          cases answer with
          | append resp =>
              obtain rfl := List.mem_singleton.mp hp
              have hled := hasLed_mono (hq.claim _ _ rfl rfl) hsub
              refine ⟨hinside, hapart, by rintro _ _ ⟨⟩, ?_, fun e he => absurd he List.not_mem_nil,
                by rintro _ ⟨⟩, by rintro _ ⟨⟩, by rintro _ _ ⟨⟩⟩
              rintro _ _ ⟨⟩
              exact hled
          | _ => exact absurd hp List.not_mem_nil
      | installSnapshot req =>
          cases answer with
          | snapshot resp =>
              obtain rfl := List.mem_singleton.mp hp
              exact ⟨hinside, hapart, by rintro _ _ ⟨⟩, by rintro _ _ ⟨⟩,
                fun e he => absurd he List.not_mem_nil, by rintro _ ⟨⟩, by rintro _ ⟨⟩,
                by rintro _ _ ⟨⟩⟩
          | _ => exact absurd hp List.not_mem_nil
      | timeoutNow req => cases answer <;> exact absurd hp List.not_mem_nil
  | _ => cases answer <;> exact absurd hp List.not_mem_nil

theorem fair_outgoing (hi : i ≠ 0) (h : Conforms M calls i c)
    (hled : c.role = .leader → HasLed calls i c.term)
    (hdest : ∀ o ∈ c.outbox, o.dest ∈ M ∧ o.dest ≠ i) (hp : p ∈ outgoing c) : Fair M calls p := by
  obtain ⟨o, ho, rfl⟩ := List.mem_map.mp hp
  have hsrc : c.cfg.id = i := h.supported.id
  refine ⟨(hdest o ho).1, hsrc.trans_ne (hdest o ho).2.symm, ?_, by rintro _ _ ⟨⟩,
    fun e he => h.plain.outbox o ho e ?_, ?_, ?_, by rintro _ _ ⟨⟩⟩
  · rintro _ t ⟨⟩ hclaim
    obtain ⟨rfl, hrole⟩ := h.supported.claims o ho t hclaim
    rw [hsrc]
    exact hrole.elim hled id
  · cases hmsg : o.msg with
    | appendEntries req =>
        rw [hmsg] at he
        exact he
    | _ =>
        rw [hmsg] at he
        exact absurd he List.not_mem_nil
  · intro req hpay
    exact h.constant.outbox o ho req (Payload.request.inj hpay)
  · intro req hpay
    refine ⟨(h.supported.asks o ho req (Payload.request.inj hpay)).trans hsrc.symm, ?_⟩
    change c.cfg.id ≠ 0
    rwa [hsrc]

theorem acceptable_of_enabled (hnet : ∀ p ∈ s.net, Fair M calls p)
    (hx : Enabled (coreSystem D) s i input) (hch : changesMembership input = false)
    (hev : Brings input ev) : Acceptable M calls i ev := by
  rcases hev with rfl | ⟨p, rfl, rfl⟩
  · rcases hx with hlocal | ⟨q, -, -, hin⟩
    · cases ev with
      | propose command typ =>
          obtain rfl : typ = .normal := of_decide_eq_true hlocal
          exact ⟨rfl, by rintro _ ⟨⟩, fun e he => absurd he List.not_mem_nil, by rintro _ ⟨⟩,
            by rintro _ _ _ ⟨⟩, by rintro _ ⟨_, _, _, ⟨⟩, _⟩, by rintro _ ⟨⟩⟩
      | confChange cc => cases hch
      | tick | transfer | read =>
          exact ⟨rfl, by rintro _ ⟨⟩, fun e he => absurd he List.not_mem_nil, by rintro _ ⟨⟩,
            by rintro _ _ _ ⟨⟩, by rintro _ ⟨_, _, _, ⟨⟩, _⟩, by rintro _ ⟨⟩⟩
      | _ => cases hlocal
    · cases hin
  · rcases hx with hlocal | ⟨q, hq, hdest, hin⟩
    · cases hlocal
    · obtain rfl := Input.deliver.inj hin
      exact hdest ▸ acceptable_eventOf (hnet q hq)

theorem faithful_call (hM : Encodable M) (hmade : MadeIn (coreSystem D) s k)
    (hnode : Faithful M s.trace k.node (.up k.pre)) (hnet : ∀ p ∈ s.net, Fair M s.trace p)
    (hch : changesMembership k.input = false) :
    Faithful M (s.trace ++ [k]) k.node (.up k.post) ∧ ∀ p ∈ k.sent, Fair M (s.trace ++ [k]) p := by
  obtain ⟨hi, hconf⟩ := hnode
  have hev : ∀ ev, Brings k.input ev → Acceptable M s.trace k.node ev := fun ev =>
    acceptable_of_enabled hnet hmade.enabled hch
  have hpost : k.post = (respond k.pre k.input).1 := hmade.post
  have hconf' : Conforms M (s.trace ++ [k]) k.node k.post := by
    have h := conforms_respond hM hi hev hconf
    rw [← hpost] at h
    exact { h with supported := supported_mono h.supported (List.subset_append_left _ _) }
  refine ⟨⟨hi, hconf'⟩, fun p hp => ?_⟩
  rw [hmade.sent] at hp
  rcases mem_respond hp with hout | ⟨q, answer, hq, hans, hrep⟩
  · rw [← hpost] at hout
    refine fair_outgoing hi hconf' (fun hrole => ?_) (fun o ho => ?_) hout
    · exact ⟨k, List.mem_concat_self, rfl, k.post, Or.inr rfl,
        hrole, rfl⟩
    · rw [hpost] at ho
      exact dest_mem_of_outbox hev hconf ho
  · rcases hmade.enabled with hlocal | ⟨q', hq', hdest, hin⟩
    · rw [hq] at hlocal
      cases hlocal
    obtain rfl : q' = q := Input.deliver.inj (hin.trans hq)
    refine fair_reply (hnet q' hq') hdest.symm ?_ hans hrep
    rw [hpost, hq]
    exact react_fst _ _ _

theorem faithful_of_reachable (hs : Reachable (coreSystem D) s) (hfix : FixedMembership D s) :
    (∀ i, Faithful D.members s.trace i (s.node i)) ∧ ∀ p ∈ s.net, Fair D.members s.trace p := by
  have hD := hfix.uniform
  have hpart : ∀ {calls : List CoreCall} {k : CoreCall},
      (∀ k' ∈ calls ++ [k], changesMembership k'.input = false) →
        ∀ k' ∈ calls, changesMembership k'.input = false :=
    fun h k' hk' => h k' (List.mem_append_left _ hk')
  have hrun := cluster_induction
    (Q := fun calls i life => (∀ k ∈ calls, changesMembership k.input = false) →
      Faithful D.members calls i life)
    (N := fun calls p => (∀ k ∈ calls, changesMembership k.input = false) →
      Fair D.members calls p)
    (fun i _ => ⟨fun e he => absurd he List.not_mem_nil, by rintro _ ⟨⟩⟩)
    (fun calls k i life h hcalls => faithful_mono (h (hpart hcalls)) (List.subset_append_left _ _))
    (fun calls k p h hcalls => fair_mono (h (hpart hcalls)) (List.subset_append_left _ _)) ?_
    (fun calls i c h hcalls => ⟨(h hcalls).2.plain.disk, (h hcalls).2.constant.snapshot⟩)
    (fun calls i rng d c h hboot hcalls => faithful_boot hD (h hcalls) hboot) hs
  · exact ⟨fun i => hrun.1 i hfix.unchanging, fun p hp => hrun.2 p hp hfix.unchanging⟩
  intro s k hmade hnodes hnet
  have hstep : (∀ k' ∈ s.trace ++ [k], changesMembership k'.input = false) →
      Faithful D.members (s.trace ++ [k]) k.node (.up k.post) ∧
        ∀ p ∈ k.sent, Fair D.members (s.trace ++ [k]) p := by
    intro hcalls
    refine faithful_call hD.encodable hmade ?_ (fun p hp => hnet p hp (hpart hcalls))
      (hcalls k List.mem_concat_self)
    rw [← hmade.up]
    exact hnodes k.node (hpart hcalls)
  exact ⟨fun hcalls => (hstep hcalls).1, fun p hp hcalls => (hstep hcalls).2 p hp⟩

theorem internal_of_mem (hs : Reachable (coreSystem D) s) (hfix : FixedMembership D s) :
    ∀ p ∈ s.net, Internal D.members p :=
  fun p hp => ((faithful_of_reachable hs hfix).2 p hp).inside

theorem member_of_role (hs : Reachable (coreSystem D) s) (hfix : FixedMembership D s)
    (hup : s.node i = .up c) (hrole : c.role ≠ .follower) : i ∈ D.members := by
  have h := (faithful_of_reachable hs hfix).1 i
  rw [hup] at h
  exact (h.2.supported.own hrole).1

theorem conforms_of_held (hs : Reachable (coreSystem D) s) (hfix : FixedMembership D s)
    (hheld : Held s i c) : i ≠ 0 ∧ Conforms D.members s.trace i c := by
  rcases hheld with hup | ⟨k, hk, rfl, hstate⟩
  · have h := (faithful_of_reachable hs hfix).1 i
    rwa [hup] at h
  · obtain ⟨n, hn⟩ := List.mem_iff_getElem?.mp hk
    obtain ⟨s₀, hmade, htrace⟩ := exists_madeIn hs hn
    have hsub : s₀.trace ⊆ s.trace := htrace ▸ List.take_subset _ _
    obtain ⟨hnodes, hnet⟩ := faithful_of_reachable hmade.reachable (hfix.part hsub)
    have hpre : Faithful D.members s₀.trace k.node (.up k.pre) := hmade.up ▸ hnodes k.node
    rcases hstate with rfl | rfl
    · exact faithful_mono hpre hsub
    · refine faithful_mono (faithful_call hfix.uniform.encodable hmade hpre hnet
        (hfix.unchanging k hk)).1 ?_
      exact List.append_subset.mpr ⟨hsub, List.cons_subset.mpr ⟨hk, List.nil_subset _⟩⟩

end Runs

section Ballots

variable {D : Deployment} {s : CoreState} {i j x : ID} {c c' : Core} {ev : Event}

/-- The term of a node and its vote in this term. -/
def ballot (c : Core) : Nat × ID :=
  (c.term, c.votedFor)

def ballotOf : Life Core Disk → Nat × ID
  | .up c => ballot c
  | .down d => loadTermAndVote d

/-- Terms never go back, and a vote is never taken back within a term. -/
def Precedes (b b' : Nat × ID) : Prop :=
  b.1 ≤ b'.1 ∧ (b.1 = b'.1 → b.2 ≠ noVote → b'.2 = b.2)

theorem precedes_refl (b : Nat × ID) : Precedes b b :=
  ⟨le_rfl, fun _ _ => rfl⟩

theorem precedes_trans {a b d : Nat × ID} (h : Precedes a b) (h' : Precedes b d) :
    Precedes a d := by
  refine ⟨h.1.trans h'.1, fun heq hvote => ?_⟩
  have hab : a.1 = b.1 := le_antisymm h.1 (heq ▸ h'.1)
  have hb := h.2 hab hvote
  rw [h'.2 (hab.symm.trans heq) (hb ▸ hvote), hb]

theorem precedes_of_eq (hterm : c'.term = c.term) (hvote : c'.votedFor = c.votedFor) :
    Precedes (ballot c) (ballot c') := by
  rw [ballot, ballot, hterm, hvote]
  exact precedes_refl _

theorem precedes_deliverCommitted (c : Core) (n : Nat) :
    Precedes (ballot c) (ballot (deliverCommitted { c with commitIndex := n })) := by
  have hs := sameLog_deliverCommitted { c with commitIndex := n }
  exact precedes_of_eq hs.term hs.votedFor

theorem precedes_move (hmove : Move ev c c') : Precedes (ballot c) (ballot c') := by
  cases hmove with
  | stepDown term hlt => exact ⟨hlt.le, fun heq => absurd heq hlt.ne⟩
  | campaign => exact ⟨Nat.le_succ _, fun heq => absurd heq (Nat.lt_succ_self _).ne⟩
  | grant req hask hfree =>
      refine ⟨le_rfl, fun _ hvote => ?_⟩
      exact (hfree.resolve_left hvote).symm
  | advance | follow => exact precedes_deliverCommitted c _
  | accept =>
      rw [appendNew_eq]
      exact precedes_refl _
  | drift | ask | send | ack | recognize | count | win | own | fire | change | note | retry
  | read | install =>
      exact precedes_refl _

theorem precedes_respond (c : Core) (input : Input) :
    Precedes (ballot c) (ballot (respond c input).1) := by
  refine respond_induction (Q := fun a => Precedes (ballot c) (ballot a)) (precedes_refl _) ?_ ?_
    input
  · exact fun ev a b hmove h => precedes_trans h (precedes_move hmove)
  · intro a index data h
    rcases compact_cases a index data with heq | ⟨-, -, heq⟩ <;> rw [heq] <;> exact h

/-- The ballots of a node, in the order in which its calls have seen them. -/
def ballots (calls : List CoreCall) (i : ID) : List (Nat × ID) :=
  (calls.filter fun k => k.node = i).flatMap fun k => [ballot k.pre, ballot k.post]

theorem ballots_concat (calls : List CoreCall) (k : CoreCall) :
    ballots (calls ++ [k]) k.node = ballots calls k.node ++ [ballot k.pre] ++ [ballot k.post] := by
  simp [ballots]

theorem ballots_other (calls : List CoreCall) {k : CoreCall} (h : i ≠ k.node) :
    ballots (calls ++ [k]) i = ballots calls i := by
  simp [ballots, Ne.symm h]

theorem pairwise_concat {l : List (Nat × ID)} {a b : Nat × ID} (h : (l ++ [a]).Pairwise Precedes)
    (hab : Precedes a b) : (l ++ [a] ++ [b]).Pairwise Precedes := by
  refine List.pairwise_append.mpr ⟨h, List.pairwise_singleton _ _, fun x hx y hy => ?_⟩
  rw [List.mem_singleton.mp hy]
  rcases List.mem_append.mp hx with hx | hx
  · exact precedes_trans ((List.pairwise_append.mp h).2.2 x hx a (List.mem_singleton.mpr rfl)) hab
  · rwa [List.mem_singleton.mp hx]

theorem pairwise_ballots (hs : Reachable (coreSystem D) s) (i : ID) :
    (ballots s.trace i ++ [ballotOf (s.node i)]).Pairwise Precedes := by
  refine (nodes_induction (Q := fun calls i life => Identified i life ∧
    (ballots calls i ++ [ballotOf life]).Pairwise Precedes) ?_ ?_ ?_ ?_ ?_ hs i).2
  · exact fun i => ⟨trivial, List.pairwise_singleton _ _⟩
  · intro s i c input hreach ih hup _
    obtain ⟨hid, hpair⟩ : Identified i (.up c) ∧ _ := hup ▸ ih i
    refine ⟨⟨(congrArg Config.id (turns_respond_cfg c input)).trans hid.1,
      stateSaved_respond hid.2 input⟩, ?_⟩
    rw [trace_call, ballots_concat s.trace ⟨i, input, c, _, _⟩]
    exact pairwise_concat (pairwise_concat hpair (precedes_respond c input)) (precedes_refl _)
  · intro s i c input j life hj h
    refine ⟨h.1, ?_⟩
    rw [trace_call, ballots_other s.trace hj]
    exact h.2
  · rintro calls i c ⟨hid, hpair⟩
    refine ⟨trivial, ?_⟩
    have hsaved : ballotOf (.down c.disk) = ballotOf (.up c) := hid.2
    change (ballots calls i ++ [ballotOf (.down c.disk)]).Pairwise Precedes
    rwa [hsaved]
  · rintro calls i rng d c ⟨-, hpair⟩ hboot
    obtain ⟨-, M, entries, -, -, rfl⟩ := newCore_cases (newCore_of_boot hboot)
    exact ⟨⟨D.cfg_id i, rfl⟩, hpair⟩

theorem ballot_mem_of_held (h : Held s i c) :
    ballot c ∈ ballots s.trace i ++ [ballotOf (s.node i)] := by
  rcases h with hup | ⟨k, hk, rfl, hstate⟩
  · rw [hup]
    exact List.mem_concat_self
  · refine List.mem_append_left _ (List.mem_flatMap.mpr ⟨k, ?_, ?_⟩)
    · exact List.mem_filter.mpr ⟨hk, decide_eq_true rfl⟩
    · rcases hstate with rfl | rfl <;> simp

theorem votedFor_unique (hs : Reachable (coreSystem D) s) (h : Held s i c) (h' : Held s i c')
    (hterm : c.term = c'.term) (hvote : c.votedFor ≠ noVote) (hvote' : c'.votedFor ≠ noVote) :
    c.votedFor = c'.votedFor := by
  have hpair := pairwise_ballots hs i
  rcases List.Pairwise.forall_of_forall_of_flip
    (R := fun b b' => Precedes b b' ∨ Precedes b' b) (fun b _ => Or.inl (precedes_refl b))
    (hpair.imp Or.inl) (hpair.imp Or.inr) (ballot_mem_of_held h) (ballot_mem_of_held h')
    with hp | hp
  · exact (hp.2 hterm hvote).symm
  · exact hp.2 hterm.symm hvote'

theorem held_of_granted {v : ID} (h : Granted s.trace x t v) :
    ∃ c, Held s x c ∧ c.term = t ∧ c.votedFor = v := by
  obtain ⟨k, hk, hnode, hterm, hvote⟩ := h
  exact ⟨k.post, Or.inr ⟨k, hk, hnode, Or.inr rfl⟩, hterm, hvote⟩

theorem votes_of_leader (hs : Reachable (coreSystem D) s) (hfix : FixedMembership D s)
    (hheld : Held s i c) (hrole : c.role = .leader) :
    i ≠ 0 ∧ Majority c.votes (voters D.members) ∧
      ∀ x ∈ c.votes, ∃ a, Held s x a ∧ a.term = c.term ∧ a.votedFor = i := by
  obtain ⟨hi, hconf⟩ := conforms_of_held hs hfix hheld
  have hactive : c.role ≠ .follower := by
    rw [hrole]
    exact Role.noConfusion
  refine ⟨hi, ⟨fun x hx => mem_voters.mpr (hconf.supported.votes hactive x hx).1, ?_⟩, ?_⟩
  · have hcard := hconf.supported.leads hrole
    rw [majority, hconf.constant.members, ← card_voters] at hcard
    omega
  · intro x hx
    rcases (hconf.supported.votes hactive x hx).2 with rfl | hgrant
    · exact ⟨c, hheld, rfl, (hconf.supported.own hactive).2⟩
    · exact held_of_granted hgrant

theorem leader_unique (hs : Reachable (coreSystem D) s) (hfix : FixedMembership D s)
    (hheld : Held s i c) (hheld' : Held s j c') (hrole : c.role = .leader)
    (hrole' : c'.role = .leader) (hterm : c.term = c'.term) : i = j := by
  obtain ⟨hi, hmaj, hvotes⟩ := votes_of_leader hs hfix hheld hrole
  obtain ⟨hj, hmaj', hvotes'⟩ := votes_of_leader hs hfix hheld' hrole'
  obtain ⟨x, hx, hx'⟩ := exists_mem_of_majority hmaj hmaj' (adjacent_refl _)
  obtain ⟨a, ha, hat, rfl⟩ := hvotes x hx
  obtain ⟨b, hb, hbt, rfl⟩ := hvotes' x hx'
  exact votedFor_unique hs ha hb (by rw [hat, hbt, hterm]) hi hj

theorem unrivalled (hs : Reachable (coreSystem D) s) (hfix : FixedMembership D s)
    (hup : s.node i = .up c) (hrole : c.role = .leader) {p : Packet} (hp : p ∈ s.net)
    (hdest : p.dest = i) {msg : Message} (hpay : p.payload = .request msg) :
    claimed msg ≠ some c.term := by
  intro hclaim
  have hfair := (faithful_of_reachable hs hfix).2 p hp
  obtain ⟨k, hk, hnode, a, hstate, hlead, hterm⟩ := hfair.claim msg _ hpay hclaim
  have hsrc : p.src = i :=
    leader_unique hs hfix (Or.inr ⟨k, hk, hnode, hstate⟩) (Or.inl hup) hlead hrole hterm
  exact hfair.apart (hsrc.trans hdest.symm)

end Ballots

/-- Node 1 leads and commits; node 2, having compacted its log, takes over; node 1
restarts and follows. -/
def handover : List (Action ID Input (Nat → Nat)) :=
  [.restart 1 fun _ => 0, .restart 2 fun _ => 0, .restart 3 fun _ => 0,
    .act 1 (.client .tick), .deliver 0, .deliver 2, .deliver 3, .deliver 5,
    .act 1 (.client .tick), .deliver 6, .act 2 (.compact 1 [7]), .act 2 (.client .tick),
    .deliver 10, .deliver 11, .crash 1, .restart 1 fun _ => 0, .deliver 12]

/-- No two nodes ever lead the same term, and no node ever grants its vote to two
candidates of one term, across any restarts. -/
theorem election_safety {D : Deployment} {s : CoreState} (hs : Reachable (coreSystem D) s)
    (hfix : FixedMembership D s) :
    (∀ i j c c', Held s i c → Held s j c' → c.role = .leader → c'.role = .leader →
      c.term = c'.term → i = j) ∧
    ∀ p ∈ s.net, ∀ p' ∈ s.net, ∀ req req' resp resp', p.payload = .voteResp req resp →
      p'.payload = .voteResp req' resp' → p.src = p'.src → req.preVote = false →
      req'.preVote = false → resp.voteGranted = true → resp'.voteGranted = true →
      req.term = req'.term → req.candidateId = req'.candidateId := by
  refine ⟨?_, ?_⟩
  · intro i j c c' hheld hheld' hrole hrole' hterm
    exact leader_unique hs hfix hheld hheld' hrole hrole' hterm
  · intro p hp p' hp' req req' resp resp' hpay hpay' hsrc hpre hpre' hgrant hgrant' hterm
    have hfair := (faithful_of_reachable hs hfix).2
    obtain ⟨hid, hne, hcast⟩ := (hfair p hp).vote req resp hpay
    obtain ⟨hid', hne', hcast'⟩ := (hfair p' hp').vote req' resp' hpay'
    obtain ⟨a, ha, hat, hvote⟩ := held_of_granted (hcast hpre hgrant)
    obtain ⟨b, hb, hbt, hvote'⟩ := held_of_granted (hcast' hpre' hgrant')
    rw [hid, hid', ← hvote, ← hvote']
    rw [← hvote] at hne
    rw [← hvote'] at hne'
    exact votedFor_unique hs ha (hsrc ▸ hb) (by rw [hat, hbt, hterm]) hne hne'

theorem election_safety_handover : ∃ s, Reachable (coreSystem trio) s ∧ FixedMembership trio s ∧
    (∃ k ∈ s.trace, ∃ k' ∈ s.trace, Elects k ∧ Elects k' ∧ k.node ≠ k'.node) ∧
    ∀ i j c c', Held s i c → Held s j c' → c.role = .leader → c'.role = .leader →
      c.term = c'.term → i = j := by
  obtain ⟨s, hs, hsame, helects⟩ :=
    exists_of_run (coreSystem trio) handover (fun s => Unchanging s ∧
      ∃ k ∈ s.trace, ∃ k' ∈ s.trace, Elects k ∧ Elects k' ∧ k.node ≠ k'.node)
      (by decide +kernel)
  have hfix : FixedMembership trio s := ⟨uniform_trio, hsame⟩
  exact ⟨s, hs, hfix, helects, (election_safety hs hfix).1⟩

end RaftKV.Safety.Elections
