import RaftKV.Raft.Cluster
import RaftKV.Raft.Moves

namespace RaftKV.Raft.Barriers

open Raft.Durability Raft.Moves Raft.Cluster

variable {ev : Event} {c c' c'' : Core} {req : AppendEntriesRequest}

section Sends

/-- `c` may have sent `req` by now: a node numbers its requests as long as it leads,
and campaigns only in terms in which it has sent none. -/
def Past (c : Core) (req : AppendEntriesRequest) : Prop :=
  req.term ≤ c.term ∧
    (req.term = c.term → c.role ≠ .candidate ∧ (c.role = .leader → req.seq ≤ c.appendSeq))

/-- How a move changes term, role and numbering. -/
structure Turns (c c' : Core) : Prop where
  cfg : c'.cfg = c.cfg
  seq : c.appendSeq ≤ c'.appendSeq
  role : c.term < c'.term ∨ c'.term = c.term ∧
    (c'.role = c.role ∨ c'.role = .follower ∨ c.role = .candidate)

theorem turns_of_eq (hcfg : c'.cfg = c.cfg) (hseq : c'.appendSeq = c.appendSeq)
    (hterm : c'.term = c.term) (hrole : c'.role = c.role) : Turns c c' :=
  ⟨hcfg, hseq.ge, Or.inr ⟨hterm, Or.inl hrole⟩⟩

theorem turns_deliverCommitted (c : Core) (n : Nat) :
    Turns c (deliverCommitted { c with commitIndex := n }) := by
  obtain ⟨c', hq, heq⟩ := deliverCommitted_cases { c with commitIndex := n }
  rw [heq]
  cases hq with
  | stay => exact turns_of_eq rfl rfl rfl rfl
  | leave e he hconf hrole hmem => exact ⟨rfl, le_rfl, Or.inr ⟨rfl, Or.inr (Or.inl rfl)⟩⟩

theorem turns_move (h : Move ev c c') : Turns c c' := by
  cases h with
  | stepDown term hlt hask => exact ⟨rfl, le_rfl, Or.inl hlt⟩
  | recognize leaderId hev => exact ⟨rfl, le_rfl, Or.inr ⟨rfl, Or.inr (Or.inl rfl)⟩⟩
  | campaign hrole hask => exact ⟨rfl, le_rfl, Or.inl (Nat.lt_succ_self _)⟩
  | win hrole => exact ⟨rfl, le_rfl, Or.inr ⟨rfl, Or.inr (Or.inr hrole)⟩⟩
  | send o seq hrole hdest hle => exact ⟨rfl, hle, Or.inr ⟨rfl, Or.inl rfl⟩⟩
  | advance | follow => exact turns_deliverCommitted c _
  | accept =>
      rw [appendNew_eq]
      exact turns_of_eq rfl rfl rfl rfl
  | drift | ask | ack | grant | own | fire | change | count | note | retry | read | install =>
      exact turns_of_eq rfl rfl rfl rfl

theorem reached_of_turns {μ : Core → Nat} {t m : Nat} (ht : Turns c c')
    (hμ : c.role = .leader → μ c ≤ μ c')
    (h : t ≤ c.term ∧ (t = c.term → c.role ≠ .candidate ∧ (c.role = .leader → m ≤ μ c))) :
    t ≤ c'.term ∧ (t = c'.term → c'.role ≠ .candidate ∧ (c'.role = .leader → m ≤ μ c')) := by
  obtain ⟨hle, heq⟩ := h
  rcases ht.role with hlt | ⟨hterm, hrole⟩
  · exact ⟨by omega, fun he => by omega⟩
  · refine ⟨hterm ▸ hle, fun he => ?_⟩
    obtain ⟨hcand, hm⟩ := heq (he.trans hterm)
    rcases hrole with hrole | hrole | hrole
    · rw [hrole]
      exact ⟨hcand, fun hl => (hm hl).trans (hμ hl)⟩
    · rw [hrole]
      exact ⟨Role.noConfusion, fun hl => by cases hl⟩
    · exact absurd hrole hcand

theorem past_of_turns (ht : Turns c c') (h : Past c req) : Past c' req :=
  @reached_of_turns c c' Core.appendSeq req.term req.seq ht (fun _ => ht.seq) h

def OutboxPast (c : Core) : Prop :=
  ∀ o ∈ c.outbox, ∀ req, o.msg = .appendEntries req → Past c req

theorem outboxPast_move (hmove : Move ev c c') (h : OutboxPast c) : OutboxPast c' := by
  intro o ho req hmsg
  rcases mem_outbox_move hmove ho with hold | ⟨hterm, hrole, hnew⟩
  · exact past_of_turns (turns_move hmove) (h o hold req hmsg)
  cases hnew with
  | vote | timeoutNow => cases hmsg
  | sent hsends hdest hsent =>
      cases hsent with
      | snapshot peer hp => cases hmsg
      | append peer seq hp hlt hle =>
          cases hmsg
          exact ⟨hterm.ge, fun _ => ⟨hrole ▸ ne_candidate_of_sends hsends, fun _ => hle⟩⟩

end Sends

section Files

def StateSaved (c : Core) : Prop :=
  loadTermAndVote c.disk = (c.term, c.votedFor)

theorem stateSaved_of_eq (h : StateSaved c) (hd : c'.disk.state = c.disk.state)
    (ht : c'.term = c.term) (hv : c'.votedFor = c.votedFor) : StateSaved c' := by
  unfold StateSaved loadTermAndVote at h ⊢
  rw [hd, ht, hv, h]

theorem stateSaved_deliverCommitted (h : StateSaved c) (n : Nat) :
    StateSaved (deliverCommitted { c with commitIndex := n }) := by
  have hs := sameLog_deliverCommitted { c with commitIndex := n }
  exact stateSaved_of_eq h (congrArg Disk.state hs.disk) hs.term hs.votedFor

theorem stateSaved_move (hmove : Move ev c c') (h : StateSaved c) : StateSaved c' := by
  cases hmove with
  | stepDown | campaign => rfl
  | grant req hask =>
      unfold StateSaved grantVote
      dsimp only
      split
      · rfl
      · rename_i hsame
        rw [← not_not.mp hsame]
        exact h
  | advance | follow => exact stateSaved_deliverCommitted h _
  | accept req =>
      have hstate := appendNew_state c req.entries
      rw [appendNew_eq]
      exact stateSaved_of_eq h hstate rfl rfl
  | drift | ask | send | ack | recognize | win | own | fire | change | count | note | retry
  | read | install => exact h

end Files

section Reads

/-- From `c` to `c'` no read is confirmed: the pending ones stay or are given up. -/
structure Quiet (c c' : Core) : Prop where
  pending : c'.pendingReads = c.pendingReads ∨ c'.pendingReads = []
  outcomes : ∃ out, c'.readOutcomes = c.readOutcomes ++ out ∧ ∀ o ∈ out, o.confirmed = false
  counter : c'.readCounter = c.readCounter

theorem quiet_of_eq (hp : c'.pendingReads = c.pendingReads)
    (ho : c'.readOutcomes = c.readOutcomes) (hr : c'.readCounter = c.readCounter) :
    Quiet c c' :=
  ⟨Or.inl hp, ⟨[], by rw [ho, List.append_nil], by simp⟩, hr⟩

theorem quiet_trans (h : Quiet c c') (h' : Quiet c' c'') : Quiet c c'' := by
  obtain ⟨out, hout, hno⟩ := h.outcomes
  obtain ⟨out', hout', hno'⟩ := h'.outcomes
  refine ⟨?_, ⟨out ++ out', ?_, ?_⟩, h'.counter.trans h.counter⟩
  · rcases h'.pending with heq | heq
    · rw [heq]
      exact h.pending
    · exact Or.inr heq
  · rw [hout', hout, List.append_assoc]
  · exact List.forall_mem_append.mpr ⟨hno, hno'⟩

theorem quiet_abort (hp : c'.pendingReads = [])
    (ho : c'.readOutcomes = c.readOutcomes ++ c.pendingReads.map fun r => ⟨r.id, 0, false⟩)
    (hr : c'.readCounter = c.readCounter) : Quiet c c' := by
  refine ⟨Or.inr hp, ⟨_, ho, ?_⟩, hr⟩
  intro o hmem
  obtain ⟨r, -, rfl⟩ := List.mem_map.mp hmem
  rfl

theorem quiet_deliverCommitted (c : Core) (n : Nat) :
    Quiet c (deliverCommitted { c with commitIndex := n }) := by
  obtain ⟨c', hq, heq⟩ := deliverCommitted_cases { c with commitIndex := n }
  rw [heq]
  cases hq with
  | stay => exact quiet_of_eq rfl rfl rfl
  | leave e he hconf hrole hmem => exact quiet_abort rfl rfl rfl

/-- Only acknowledgements and new reads confirm reads. -/
def silent : Event → Bool
  | .appendResp _ _ _ => false
  | .read => false
  | _ => true

theorem quiet_move (hev : silent ev = true) (hmove : Move ev c c') : Quiet c c' := by
  cases hmove with
  | stepDown term hlt hask => exact quiet_abort rfl rfl rfl
  | advance | follow => exact quiet_deliverCommitted c _
  | accept =>
      rw [appendNew_eq]
      exact quiet_of_eq rfl rfl rfl
  | ack sender req resp hev' =>
      rw [hev'] at hev
      cases hev
  | read hev' =>
      rw [hev'] at hev
      cases hev
  | drift | ask | send | recognize | grant | campaign | win | own | fire | change | count
  | note | retry | install =>
      exact quiet_of_eq rfl rfl rfl

theorem quiet_moves (hev : silent ev = true) (h : Reaches [] ev c c') : Quiet c c' :=
  moves_induction h (quiet_of_eq rfl rfl rfl) fun _ _ hmove hq =>
    quiet_trans hq (quiet_move hev hmove)

theorem quiet_noteAck (c : Core) (sender : ID) (m : Nat) : Quiet c (noteAck c sender m) := by
  unfold noteAck
  split
  · rcases maybeAdvanceCommit_cases (noteMatch c sender m) with heq | ⟨n, -, heq⟩
    · rw [heq]
      exact quiet_of_eq rfl rfl rfl
    · rw [heq]
      have hnote : Quiet c (noteMatch c sender m) := quiet_of_eq rfl rfl rfl
      exact quiet_trans hnote (quiet_deliverCommitted _ n)
  · exact quiet_of_eq rfl rfl rfl

theorem quiet_fireTransfer (c : Core) (sender : ID) : Quiet c (fireTransfer c sender) := by
  unfold fireTransfer
  split <;> exact quiet_of_eq rfl rfl rfl

theorem quiet_feed (c : Core) (sender : ID) : Quiet c (feed c sender) := by
  unfold feed
  split
  · obtain ⟨o, ho, -⟩ := replicates_sendAppend c sender
    rw [ho.eq]
    exact quiet_of_eq rfl rfl rfl
  · exact quiet_of_eq rfl rfl rfl

/-- The reads a call may confirm or leave pending: those it finds, those an
acknowledgement counts for, and the one it registers. -/
inductive Tallied (c : Core) (x : Input) : PendingRead → Prop
  | kept {r : PendingRead} (h : r ∈ c.pendingReads) : Tallied c x r
  | acked {r : PendingRead} (h : r ∈ c.pendingReads) {p : Packet} {req : AppendEntriesRequest}
      {resp : AppendEntriesResponse} (hx : x = .deliver p) (hp : p.payload = .appendResp req resp)
      (hrole : c.role = .leader) (hterm : req.term = c.term) (hsuccess : resp.success = true)
      (hseq : r.minSeq ≤ resp.seq) : Tallied c x { r with acks := insert p.src r.acks }
  | registered (hx : x = .client .read) (hrole : c.role = .leader)
      (hterm : termAt c c.commitIndex = c.term) : Tallied c x (newRead c)

/-- Whether a call looks at the acknowledgements of the pending reads. -/
def countsReads : Input → Bool
  | .deliver ⟨_, _, .appendResp _ _⟩ => true
  | .client .read => true
  | _ => false

/-- What became of the reads of `c` by the time of `c'`. -/
structure Accounted (c : Core) (x : Input) (c' : Core) : Prop where
  pending : ∀ r ∈ c'.pendingReads, Tallied c x r
  confirmed : ∀ o ∈ c'.readOutcomes, o.confirmed = true →
    countsReads x = true ∧ c.role = .leader ∧
      ∃ r, Tallied c x r ∧ o.id = r.id ∧ o.index = r.index ∧ majority c ≤ r.acks.card
  counter : c.readCounter ≤ c'.readCounter
  registered : x = .client .read → c.role = .leader → termAt c c.commitIndex = c.term →
    c'.readCounter = c.readCounter + 1

theorem accounted_quiet {x : Input} (h : Accounted c x c') (hq : Quiet c' c'') :
    Accounted c x c'' where
  pending := by
    intro r hr
    rcases hq.pending with heq | heq
    · exact h.pending r (heq ▸ hr)
    · rw [heq] at hr
      exact absurd hr List.not_mem_nil
  confirmed := by
    intro o ho hconf
    obtain ⟨out, hout, hno⟩ := hq.outcomes
    rw [hout] at ho
    rcases List.mem_append.mp ho with ho | ho
    · exact h.confirmed o ho hconf
    · rw [hno o ho] at hconf
      cases hconf
  counter := hq.counter ▸ h.counter
  registered := fun hx hrole hterm => hq.counter.trans (h.registered hx hrole hterm)

theorem accounted_takeQueues {x : Input} (hx : x ≠ .client .read) :
    Accounted c x (takeQueues c) where
  pending := fun _ hr => Tallied.kept hr
  confirmed := fun _ ho => absurd ho List.not_mem_nil
  counter := le_rfl
  registered := fun heq => absurd heq hx

theorem accounted_confirmReads {x : Input} (hx : countsReads x = true)
    (hrole : c.role = .leader) (hm : c'.members = c.members)
    (hpend : ∀ r ∈ c'.pendingReads, Tallied c x r) (hout : c'.readOutcomes = [])
    (hcount : c.readCounter ≤ c'.readCounter)
    (hreg : x = .client .read → c.role = .leader → termAt c c.commitIndex = c.term →
      c'.readCounter = c.readCounter + 1) : Accounted c x (confirmReads c').1 where
  pending := fun r hr => hpend r (List.mem_of_mem_filter hr)
  confirmed := by
    intro o ho hconf
    have hmaj : majority c' = majority c := by
      unfold majority
      rw [hm]
    change o ∈ c'.readOutcomes ++ _ at ho
    rw [hout, List.nil_append] at ho
    obtain ⟨r, hr, rfl⟩ := List.mem_map.mp ho
    obtain ⟨hmem, hcard⟩ := List.mem_filter.mp hr
    exact ⟨hx, hrole, r, hpend r hmem, rfl, rfl, hmaj ▸ of_decide_eq_true hcard⟩
  counter := hcount
  registered := hreg

theorem accounted_noteFreshAck {p : Packet} {resp : AppendEntriesResponse}
    (hp : p.payload = .appendResp req resp) (hrole : c.role = .leader)
    (hterm : req.term = c.term) (hsuccess : resp.success = true) :
    Accounted c (.deliver p) (noteFreshAck (takeQueues c) p.src resp.seq) := by
  unfold noteFreshAck
  split
  · have hx : countsReads (.deliver p) = true := by
      obtain ⟨src, dest, payload⟩ := p
      cases hp
      rfl
    refine accounted_confirmReads hx hrole rfl ?_ rfl le_rfl fun hx => by cases hx
    intro r hr
    obtain ⟨r₀, hr₀, rfl⟩ := List.mem_map.mp hr
    have hpend : r₀ ∈ c.pendingReads := hr₀
    split
    · rename_i hseq
      exact Tallied.acked hpend rfl hp hrole hterm hsuccess hseq
    · exact Tallied.kept hpend
  · exact accounted_takeQueues fun hx => by cases hx

theorem accounted_registerRead (hrole : c.role = .leader)
    (hterm : termAt c c.commitIndex = c.term) :
    Accounted c (.client .read) (confirmReads (registerRead (takeQueues c))).1 := by
  refine accounted_confirmReads rfl hrole rfl ?_ rfl (Nat.le_succ _) fun _ _ _ => rfl
  intro r hr
  change r ∈ c.pendingReads ++ [newRead (takeQueues c)] at hr
  rcases List.mem_append.mp hr with hr | hr
  · exact Tallied.kept hr
  · rw [List.mem_singleton.mp hr]
    exact Tallied.registered rfl hrole hterm

theorem accounted_handleAppendResponse {p : Packet} {resp : AppendEntriesResponse}
    (hp : p.payload = .appendResp req resp) :
    Accounted c (.deliver p) (handleAppendResponse (takeQueues c) p.src req resp) := by
  have hidle : Accounted c (.deliver p) (takeQueues c) :=
    accounted_takeQueues fun hx => by cases hx
  unfold handleAppendResponse
  split
  · exact accounted_quiet hidle (quiet_abort rfl rfl rfl)
  · split
    · exact hidle
    · rename_i hcond
      have hrole : c.role = .leader := not_not.mp (not_or.mp hcond).1
      have hterm : req.term = c.term := not_not.mp (not_or.mp hcond).2
      split
      · rename_i hsuccess
        exact accounted_quiet (accounted_noteFreshAck hp hrole hterm hsuccess)
          (quiet_trans (quiet_noteAck _ _ _)
            (quiet_trans (quiet_fireTransfer _ _) (quiet_feed _ _)))
      · obtain ⟨o, ho, -⟩ := replicates_sendAppend (backUp (takeQueues c) p.src resp) p.src
        rw [ho.eq]
        exact accounted_quiet hidle (quiet_of_eq rfl rfl rfl)

theorem accounted_requestRead : Accounted c (.client .read) (requestRead (takeQueues c)).1 := by
  unfold requestRead
  split
  · rename_i hrole
    exact
      { pending := fun _ hr => Tallied.kept hr
        confirmed := fun _ ho => absurd ho List.not_mem_nil
        counter := le_rfl
        registered := fun _ hlead => absurd hlead hrole }
  · rename_i hrole
    split
    · rename_i hterm
      exact
        { pending := fun _ hr => Tallied.kept hr
          confirmed := fun _ ho => absurd ho List.not_mem_nil
          counter := le_rfl
          registered := fun _ _ hown => absurd hown hterm }
    · rename_i hterm
      have hacc := @accounted_registerRead c (not_not.mp hrole) (not_not.mp hterm)
      dsimp only
      split
      · exact hacc
      · obtain ⟨out, hout, -⟩ :=
          replicates_broadcastAppends (confirmReads (registerRead (takeQueues c))).1
        rw [hout.eq]
        exact accounted_quiet hacc (quiet_of_eq rfl rfl rfl)

theorem accounted_silent {x : Input} (hx : x ≠ .client .read) (hev : silent ev = true) :
    Accounted c x (handle (takeQueues c) ev).1 :=
  accounted_quiet (accounted_takeQueues hx) (quiet_moves hev (moves_taken ev))

theorem accounted_respond {x : Input} (hx : isLocal x = true ∨ ∃ p, x = .deliver p) :
    Accounted c x (respond c x).1 := by
  cases x with
  | deliver p =>
      change Accounted c _ (react c _ _).1
      rw [react_fst]
      obtain ⟨src, dest, payload⟩ := p
      match payload with
      | .appendResp req resp => exact accounted_handleAppendResponse rfl
      | .request (.requestVote _) | .request (.appendEntries _) | .request (.installSnapshot _)
      | .request (.timeoutNow _) | .voteResp _ _ | .snapshotResp _ _ =>
          exact accounted_silent (fun hx => by cases hx) rfl
  | client ev =>
      change Accounted c _ (react c _ _).1
      rw [react_fst]
      rcases hx with hlocal | ⟨p, hp⟩
      · cases ev with
        | read => exact accounted_requestRead
        | tick | propose | confChange | transfer =>
            exact accounted_silent (fun hx => by cases hx) rfl
        | requestVote | appendEntries | installSnapshot | timeoutNow | voteResp | appendResp
        | snapshotResp => cases hlocal
      · cases hp
  | compact index data =>
      refine accounted_quiet (accounted_takeQueues fun hx => by cases hx) ?_
      change Quiet (takeQueues c) (compact (takeQueues c) index data).1
      rcases compact_cases (takeQueues c) index data with heq | ⟨-, -, heq⟩ <;> rw [heq] <;>
        exact quiet_of_eq rfl rfl rfl

end Reads

end RaftKV.Raft.Barriers
