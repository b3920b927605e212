import RaftKV.Raft.Positions

namespace RaftKV.Raft

/-- A replication message of `c`: its snapshot for a peer whose entries are
compacted away, otherwise the log from where the peer continues. The sequence
number is fresh and at most `n`. -/
inductive Sent (c : Core) (n : Nat) : Outbound → Prop
  | snapshot (peer : ID) (h : nextFor c peer ≤ c.snapIndex) :
      Sent c n ⟨peer, .installSnapshot (snapshotRequest c)⟩
  | append (peer : ID) (seq : Nat) (h : c.snapIndex < nextFor c peer)
      (hlt : c.appendSeq < seq) (hle : seq ≤ n) :
      Sent c n ⟨peer, .appendEntries { appendRequest c (nextFor c peer) with seq := seq }⟩

/-- `c'` is `c` after sending `out`. -/
structure Replicates (c c' : Core) (out : List Outbound) : Prop where
  eq : c' = { c with outbox := c.outbox ++ out, appendSeq := c'.appendSeq }
  le : c.appendSeq ≤ c'.appendSeq
  sent : ∀ o ∈ out, Sent c c'.appendSeq o

theorem sent_mono {c c' : Core} {out : List Outbound} {n n' : Nat} {o : Outbound}
    (h : Sent { c with outbox := out, appendSeq := c'.appendSeq } n o)
    (hle : c.appendSeq ≤ c'.appendSeq) (hn : n ≤ n') : Sent c n' o := by
  cases h with
  | snapshot peer hp => exact Sent.snapshot peer hp
  | append peer seq hp hlt hseq =>
      exact Sent.append peer seq hp (hle.trans_lt hlt) (hseq.trans hn)

theorem replicates_refl (c : Core) : Replicates c c [] where
  eq := by rw [List.append_nil]
  le := le_rfl
  sent := by simp

theorem replicates_trans {c c' c'' : Core} {out out' : List Outbound}
    (h : Replicates c c' out) (h' : Replicates c' c'' out') :
    Replicates c c'' (out ++ out') where
  eq := by
    have hc := h'.eq
    rw [h.eq] at hc
    rw [hc, ← List.append_assoc]
  le := h.le.trans h'.le
  sent := by
    intro o ho
    rcases List.mem_append.mp ho with ho | ho
    · have hs := h.sent o ho
      cases hs with
      | snapshot peer hp => exact Sent.snapshot peer hp
      | append peer seq hp hlt hseq => exact Sent.append peer seq hp hlt (hseq.trans h'.le)
    · have hs := h'.sent o ho
      rw [h.eq] at hs
      exact sent_mono hs h.le le_rfl

theorem nextFor_pos (c : Core) (peer : ID) : 0 < nextFor c peer := by
  unfold nextFor
  split
  · exact one_pos
  · rename_i hne
    exact Nat.pos_of_ne_zero hne

theorem replicates_sendAppend (c : Core) (peer : ID) :
    ∃ o, Replicates c (sendAppend c peer) [o] ∧ o.dest = peer := by
  unfold sendAppend
  split
  · rename_i hle
    refine ⟨_, ⟨rfl, le_rfl, ?_⟩, rfl⟩
    intro o ho
    rw [List.mem_singleton.mp ho]
    exact Sent.snapshot peer hle
  · rename_i hlt
    refine ⟨_, ⟨rfl, Nat.le_succ _, ?_⟩, rfl⟩
    intro o ho
    rw [List.mem_singleton.mp ho]
    exact Sent.append peer (c.appendSeq + 1) (by omega) (Nat.lt_succ_self _) le_rfl

theorem replicates_foldl (peers : List ID) (c : Core) :
    ∃ out, Replicates c (peers.foldl sendAppend c) out ∧ ∀ o ∈ out, o.dest ∈ peers := by
  induction peers generalizing c with
  | nil => exact ⟨[], replicates_refl c, by simp⟩
  | cons peer peers ih =>
      obtain ⟨o, ho, hdest⟩ := replicates_sendAppend c peer
      obtain ⟨out, hout, hdests⟩ := ih (sendAppend c peer)
      refine ⟨[o] ++ out, replicates_trans ho hout, ?_⟩
      intro a ha
      rcases List.mem_append.mp ha with ha | ha
      · rw [List.mem_singleton.mp ha, hdest]
        exact List.mem_cons_self
      · exact List.mem_cons_of_mem _ (hdests a ha)

theorem ne_of_mem_peerIDs {c : Core} {id : ID} (h : id ∈ peerIDs c) : id ≠ c.cfg.id := by
  simpa using (List.mem_filter.mp h).2

theorem replicates_broadcastAppends (c : Core) :
    ∃ out, Replicates c (broadcastAppends c) out ∧ ∀ o ∈ out, o.dest ≠ c.cfg.id := by
  obtain ⟨out, hout, hdest⟩ := replicates_foldl (peerIDs c) c
  exact ⟨out, hout, fun o ho => ne_of_mem_peerIDs (hdest o ho)⟩

theorem broadcast_eq (c : Core) (msg : Message) :
    broadcast c msg =
      { c with outbox := c.outbox ++ (peerIDs c).map fun id => ⟨id, msg⟩ } := by
  have key : ∀ (peers : List ID) (c : Core), peers.foldl (fun c id => send c id msg) c =
      { c with outbox := c.outbox ++ peers.map fun id => ⟨id, msg⟩ } := by
    intro peers
    induction peers with
    | nil => intro c; simp
    | cons id peers ih =>
        intro c
        rw [List.foldl_cons, ih]
        simp [send]
  exact key (peerIDs c) c

/-- `c` after `es` have been queued: a leader that is not a member any more and
sees a configuration entry gets out of the way. -/
inductive Queued (c : Core) (es : List Entry) : Core → Prop
  | stay : Queued c es { c with committed := c.committed ++ es }
  | leave (e : Entry) (he : e ∈ es) (hconf : e.type = .config) (hrole : c.role = .leader)
      (hmem : isMember c = false) :
      Queued c es (relinquish { c with committed := c.committed ++ es })

theorem queued_deliverOne {base i : Nat} {c c' : Core} {es : List Entry} (h : Queued c es c') :
    Queued c (es ++ (c.entries[i - base]?).toList) (deliverOne base c' i) := by
  have hentries : c'.entries = c.entries := by
    cases h <;> rfl
  unfold deliverOne
  rw [hentries]
  cases hget : c.entries[i - base]? with
  | none => simpa using h
  | some e =>
      dsimp only [Option.toList]
      cases h with
      | stay =>
          split
          · rename_i hcond
            rw [List.append_assoc]
            exact Queued.leave e (by simp) hcond.1 hcond.2.1 hcond.2.2
          · rw [List.append_assoc]
            exact Queued.stay
      | leave f hf hconf hrole hmem =>
          rw [if_neg (by simp [relinquish, abortPendingReads])]
          have hleave : Queued c (es ++ [e]) (relinquish _) :=
            Queued.leave f (by simp [hf]) hconf hrole hmem
          simpa [relinquish, abortPendingReads] using hleave

theorem queued_foldl (base : Nat) (c : Core) (indices : List Nat) :
    Queued c (indices.flatMap fun i => (c.entries[i - base]?).toList)
      (indices.foldl (deliverOne base) c) := by
  induction indices using List.reverseRecOn with
  | nil =>
      have hstay : Queued c [] _ := Queued.stay
      simpa using hstay
  | append_singleton indices i ih =>
      have hone := @queued_deliverOne base i _ _ _ ih
      rw [List.flatMap_append, List.foldl_append]
      simpa using hone

/-- The entries `deliverCommitted` queues. -/
def queue (c : Core) : List Entry :=
  match c.entries with
  | [] => []
  | first :: _ =>
      (List.range' (c.lastDelivered + 1) (c.commitIndex - c.lastDelivered)).flatMap
        fun i => (c.entries[i - first.index]?).toList

def deliveredTo (c : Core) : Nat :=
  if c.entries = [] then c.lastDelivered else max c.lastDelivered c.commitIndex

theorem deliverCommitted_cases (c : Core) :
    ∃ c', Queued c (queue c) c' ∧
      deliverCommitted c = { c' with lastDelivered := deliveredTo c } := by
  unfold deliverCommitted queue deliveredTo
  cases he : c.entries with
  | nil =>
      refine ⟨{ c with committed := c.committed ++ [] }, Queued.stay, ?_⟩
      simp
  | cons first rest =>
      have hq := queued_foldl first.index c
        (List.range' (c.lastDelivered + 1) (c.commitIndex - c.lastDelivered))
      rw [he] at hq
      dsimp only
      generalize (List.range' (c.lastDelivered + 1) (c.commitIndex - c.lastDelivered)).foldl
        (deliverOne first.index) c = c' at hq ⊢
      refine ⟨c', hq, ?_⟩
      have hcursor : c'.lastDelivered = c.lastDelivered ∧ c'.commitIndex = c.commitIndex := by
        cases hq <;> exact ⟨rfl, rfl⟩
      rw [if_neg (List.cons_ne_nil _ _)]
      split
      · rename_i hlt
        rw [max_eq_right (by omega), hcursor.2]
      · rename_i hlt
        rw [max_eq_left (by omega), ← hcursor.1]

theorem commitIndex_deliverCommitted (c : Core) :
    (deliverCommitted c).commitIndex = c.commitIndex := by
  obtain ⟨c', hq, heq⟩ := deliverCommitted_cases c
  rw [heq]
  cases hq <;> rfl

theorem grantVote_of_eq {c : Core} {candidate : ID} (h : c.votedFor = candidate) :
    grantVote c candidate = resetElectionTimer c := by
  unfold grantVote
  rw [if_neg (not_not.mpr h), ← h]
  rfl

theorem grantVote_of_ne {c : Core} {candidate : ID} (h : c.votedFor ≠ candidate) :
    grantVote c candidate =
      { resetElectionTimer c with
        votedFor := candidate
        disk := saveTermAndVote c.disk c.term candidate } := by
  unfold grantVote
  rw [if_pos h]

theorem compact_cases (c : Core) (index : Nat) (data : Bytes) :
    (compact c index data).1 = c ∨ c.snapIndex < index ∧ index ≤ c.lastDelivered ∧
      (compact c index data).1 = rebase c (snapshotAt c index data) (entriesAfter c index) := by
  unfold compact
  split
  · exact Or.inl rfl
  · rename_i hgt
    split
    · exact Or.inl rfl
    · rename_i hle
      exact Or.inr ⟨Nat.lt_of_not_le hgt, Nat.le_of_not_lt hle, rfl⟩

theorem commitIndex_compact (c : Core) (index : Nat) (data : Bytes) :
    (compact c index data).1.commitIndex = c.commitIndex := by
  rcases compact_cases c index data with heq | ⟨-, -, heq⟩ <;> rw [heq]
  rfl

theorem lastDelivered_deliverCommitted (c : Core) :
    (deliverCommitted c).lastDelivered ≤ max c.lastDelivered c.commitIndex := by
  obtain ⟨c', hq, heq⟩ := deliverCommitted_cases c
  rw [heq]
  change deliveredTo c ≤ _
  unfold deliveredTo
  split
  · exact le_max_left _ _
  · exact le_rfl

theorem flatMap_range'_getElem? {α : Type} (l : List α) (b s n : Nat) (h : b ≤ s) :
    ((List.range' s n).flatMap fun i => (l[i - b]?).toList) = (l.drop (s - b)).take n := by
  induction n generalizing s with
  | zero => simp
  | succ n ih =>
      rw [List.range'_succ, List.flatMap_cons, ih (s + 1) (by omega),
        show s + 1 - b = (s - b) + 1 by omega]
      cases hget : l[s - b]? with
      | none =>
          have hlen : l.length ≤ s - b := List.getElem?_eq_none_iff.mp hget
          rw [List.drop_of_length_le (by omega), List.drop_of_length_le hlen]
          simp
      | some a =>
          obtain ⟨hlt, rfl⟩ := List.getElem?_eq_some_iff.mp hget
          rw [List.drop_eq_getElem_cons hlt, List.take_succ_cons]
          rfl

theorem queue_eq {c : Core} (h : Contiguous c) (hle : c.snapIndex ≤ c.lastDelivered) :
    queue c = (c.entries.drop (c.lastDelivered - c.snapIndex)).take
      (c.commitIndex - c.lastDelivered) := by
  unfold queue
  cases he : c.entries with
  | nil => simp
  | cons first rest =>
      have hfirst := index_of_cons h he
      dsimp only
      rw [flatMap_range'_getElem? _ _ _ _ (by omega), hfirst,
        show c.lastDelivered + 1 - (c.snapIndex + 1) = c.lastDelivered - c.snapIndex by omega]

theorem deliveredTo_eq {c : Core} (h : Contiguous c)
    (hle : c.snapIndex ≤ c.lastDelivered) (hc : c.commitIndex ≤ lastLogIndex c) :
    deliveredTo c = max c.lastDelivered c.commitIndex := by
  unfold deliveredTo
  split
  · rename_i hnil
    rw [lastLogIndex_eq h, hnil, List.length_nil] at hc
    omega
  · rfl

/-- What `maybeAdvanceCommit` found: an index of the leader's own term above the
commit index that a majority stores. -/
structure Advances (c : Core) (n : Nat) : Prop where
  lt : c.commitIndex < n
  le : n ≤ lastLogIndex c
  term : termAt c n = c.term
  votes : majority c ≤ commitVotes c n

theorem advanceFrom_cases (c : Core) (n : Nat) (hn : n ≤ lastLogIndex c) :
    advanceFrom c n = c ∨
      ∃ m, Advances c m ∧ advanceFrom c n = deliverCommitted { c with commitIndex := m } := by
  induction n with
  | zero => exact Or.inl rfl
  | succ n ih =>
      rw [advanceFrom]
      split
      · rename_i hcond
        split
        · rename_i hvotes
          exact Or.inr ⟨n + 1, ⟨hcond.1, hn, hcond.2, hvotes⟩, rfl⟩
        · exact ih (by omega)
      · exact Or.inl rfl

theorem maybeAdvanceCommit_cases (c : Core) :
    maybeAdvanceCommit c = c ∨
      ∃ n, Advances c n ∧ maybeAdvanceCommit c = deliverCommitted { c with commitIndex := n } :=
  advanceFrom_cases c (lastLogIndex c) le_rfl

theorem noteFreshAck_eq (c : Core) (sender : ID) (seq : Nat) :
    noteFreshAck c sender seq =
      { c with
        readOutcomes := (noteFreshAck c sender seq).readOutcomes
        pendingReads := (noteFreshAck c sender seq).pendingReads } := by
  unfold noteFreshAck
  split <;> rfl

/-- The last index at which a change took effect, after `es` were appended. -/
def lastChange (last : Nat) (es : List Entry) : Nat :=
  es.foldl (fun last e => if (changeOf e).isSome then e.index else last) last

theorem noteAppendedConfigs_eq (c : Core) (es : List Entry) :
    noteAppendedConfigs c es =
      { c with
        members := membersAfter c.members es
        nextIndex := (noteAppendedConfigs c es).nextIndex
        matchIndex := (noteAppendedConfigs c es).matchIndex
        lastConfigIndex := lastChange c.lastConfigIndex es
        configVersion := (noteAppendedConfigs c es).configVersion } := by
  induction es generalizing c with
  | nil => rfl
  | cons e es ih =>
      have hcons : noteAppendedConfigs c (e :: es) =
          noteAppendedConfigs (noteAppendedConfigs c [e]) es := rfl
      have hone : noteAppendedConfigs c [e] =
          (changeOf e).elim c fun cc => applyConfChange c cc e.index := by
        unfold noteAppendedConfigs
        rw [List.foldl_cons, List.foldl_nil]
        cases changeOf e with
        | none => rfl
        | some cc => rfl
      rw [hcons, ih, hone]
      unfold membersAfter lastChange
      rw [List.foldl_cons, List.foldl_cons]
      unfold applyChangeOf
      cases changeOf e with
      | none => rfl
      | some cc => rfl

theorem appendNew_eq (c : Core) (entries : List Entry) :
    (appendNew c entries).1 =
      { c with
        entries := (appendNew c entries).1.entries
        disk := (appendNew c entries).1.disk
        members := (appendNew c entries).1.members
        nextIndex := (appendNew c entries).1.nextIndex
        matchIndex := (appendNew c entries).1.matchIndex
        lastConfigIndex := (appendNew c entries).1.lastConfigIndex
        configVersion := (appendNew c entries).1.configVersion } := by
  unfold appendNew
  split
  · rfl
  · unfold truncateAndAppend
    split
    · rfl
    · split
      · rfl
      · split
        · rfl
        · dsimp only
          rw [noteAppendedConfigs_eq]
          rfl

theorem appendNew_state (c : Core) (entries : List Entry) :
    (appendNew c entries).1.disk.state = c.disk.state := by
  unfold appendNew
  split
  · rfl
  · unfold truncateAndAppend
    split
    · rfl
    · split
      · rfl
      · rename_i d hd
        have hstate : d.state = c.disk.state := by
          unfold append at hd
          split at hd <;> cases hd
          rfl
        split
        · exact hstate
        · dsimp only
          rw [noteAppendedConfigs_eq]
          exact hstate

theorem lastChange_ge {base last : Nat} {es : List Entry} (h : Numbered base es) :
    min base last ≤ lastChange last es ∧
      ∀ e ∈ es, (changeOf e).isSome → e.index ≤ lastChange last es := by
  induction es using List.reverseRecOn with
  | nil => simp [lastChange]
  | append_singleton es e ih =>
      have hes : Numbered base es := by
        intro k f hf
        exact h k f (by
          rw [List.getElem?_append_left (List.getElem?_eq_some_iff.mp hf).1]
          exact hf)
      have hindex : e.index = base + es.length + 1 := h es.length e (by simp)
      have hle : ∀ f ∈ es, f.index ≤ e.index := by
        intro f hf
        obtain ⟨k, hk⟩ := List.mem_iff_getElem?.mp hf
        have := hes k f hk
        have hlt := (List.getElem?_eq_some_iff.mp hk).1
        omega
      obtain ⟨hge, hall⟩ := ih hes
      unfold lastChange at hge hall ⊢
      rw [List.foldl_append]
      generalize es.foldl (fun last e => if (changeOf e).isSome then e.index else last) last =
        last' at hge hall ⊢
      simp only [List.foldl_cons, List.foldl_nil]
      split
      · refine ⟨by omega, ?_⟩
        intro f hf _
        rcases List.mem_append.mp hf with hf | hf
        · exact hle f hf
        · rw [List.mem_singleton.mp hf]
      · rename_i hnone
        refine ⟨hge, ?_⟩
        intro f hf hsome
        rcases List.mem_append.mp hf with hf | hf
        · exact hall f hf hsome
        · rw [List.mem_singleton.mp hf] at hsome
          exact absurd hsome hnone

end RaftKV.Raft
