import RaftKV.Raft.Effects

namespace RaftKV.Raft.Durability

variable {M : Members} {c c' : Core}

/-- The files spell out the term, the vote, the snapshot and the log of `c`. A
node without a snapshot has the membership `M` of its flags. -/
structure Saved (M : Members) (c : Core) : Prop where
  state : loadTermAndVote c.disk = (c.term, c.votedFor)
  snapIndex : (loadRaftSnapshot c.disk).lastIndex = c.snapIndex
  snapTerm : (loadRaftSnapshot c.disk).lastTerm = c.snapTerm
  snapConfig : (c.disk.snapshot.map Snapshot.config).getD M = c.snapConfig
  numbered : Numbered c.snapIndex c.entries
  log : replayRecords c.snapIndex c.disk.log = .ok c.entries

/-- What the cursors have to satisfy for the log to stay in one piece. -/
structure Cursors (c : Core) : Prop where
  snap_le : c.snapIndex ≤ c.lastDelivered
  commit_pos : 0 < c.lastDelivered → 0 < c.commitIndex

structure Durable (M : Members) (c : Core) : Prop where
  saved : Saved M c
  cursors : Cursors c
  members : c.members = membersAfter c.snapConfig c.entries

/-- The persistent state and the membership of a core. -/
structure LogImage where
  cfg : Config
  term : Nat
  votedFor : ID
  entries : List Entry
  disk : Disk
  snapIndex : Nat
  snapTerm : Nat
  snapConfig : Members
  members : Members
  lastConfigIndex : Nat

def logImage (c : Core) : LogImage where
  cfg := c.cfg
  term := c.term
  votedFor := c.votedFor
  entries := c.entries
  disk := c.disk
  snapIndex := c.snapIndex
  snapTerm := c.snapTerm
  snapConfig := c.snapConfig
  members := c.members
  lastConfigIndex := c.lastConfigIndex

/-- `c'` differs from `c` in volatile state only. -/
def SameLog (c c' : Core) : Prop :=
  logImage c' = logImage c

theorem SameLog.cfg (h : SameLog c c') : c'.cfg = c.cfg := congrArg LogImage.cfg h

theorem SameLog.term (h : SameLog c c') : c'.term = c.term := congrArg LogImage.term h

theorem SameLog.votedFor (h : SameLog c c') : c'.votedFor = c.votedFor :=
  congrArg LogImage.votedFor h

theorem SameLog.entries (h : SameLog c c') : c'.entries = c.entries :=
  congrArg LogImage.entries h

theorem SameLog.disk (h : SameLog c c') : c'.disk = c.disk := congrArg LogImage.disk h

theorem SameLog.snapIndex (h : SameLog c c') : c'.snapIndex = c.snapIndex :=
  congrArg LogImage.snapIndex h

theorem SameLog.snapTerm (h : SameLog c c') : c'.snapTerm = c.snapTerm :=
  congrArg LogImage.snapTerm h

theorem SameLog.snapConfig (h : SameLog c c') : c'.snapConfig = c.snapConfig :=
  congrArg LogImage.snapConfig h

theorem SameLog.members (h : SameLog c c') : c'.members = c.members :=
  congrArg LogImage.members h

theorem SameLog.trans {c'' : Core} (h : SameLog c c') (h' : SameLog c' c'') : SameLog c c'' :=
  Eq.trans h' h

theorem saved_of_sameLog (h : Saved M c) (hs : SameLog c c') : Saved M c' where
  state := by rw [hs.disk, hs.term, hs.votedFor, h.state]
  snapIndex := by rw [hs.disk, hs.snapIndex, h.snapIndex]
  snapTerm := by rw [hs.disk, hs.snapTerm, h.snapTerm]
  snapConfig := by rw [hs.disk, hs.snapConfig, h.snapConfig]
  numbered := by
    rw [hs.snapIndex, hs.entries]
    exact h.numbered
  log := by rw [hs.disk, hs.snapIndex, hs.entries, h.log]

theorem cursors_of_eq (h : Cursors c) (hs : c'.snapIndex = c.snapIndex)
    (hd : c'.lastDelivered = c.lastDelivered) (hc : c'.commitIndex = c.commitIndex) :
    Cursors c' where
  snap_le := by
    rw [hs, hd]
    exact h.snap_le
  commit_pos := by
    rw [hd, hc]
    exact h.commit_pos

theorem durable_of_sameLog (h : Durable M c) (hs : SameLog c c') (hc : Cursors c') :
    Durable M c' where
  saved := saved_of_sameLog h.saved hs
  cursors := hc
  members := by rw [hs.members, hs.snapConfig, hs.entries, h.members]

theorem durable_volatile (h : Durable M c) (hs : SameLog c c')
    (hd : c'.lastDelivered = c.lastDelivered) (hc : c'.commitIndex = c.commitIndex) :
    Durable M c' :=
  durable_of_sameLog h hs (cursors_of_eq h.cursors hs.snapIndex hd hc)

theorem sameLog_replicates {out : List Outbound} (h : Replicates c c' out) : SameLog c c' := by
  rw [h.eq]
  rfl

theorem sameLog_deliverCommitted (c : Core) : SameLog c (deliverCommitted c) := by
  obtain ⟨c', hq, heq⟩ := deliverCommitted_cases c
  rw [heq]
  cases hq <;> rfl

theorem cursors_deliverCommitted (h : Cursors c) {n : Nat} (hn : 0 < n) :
    Cursors (deliverCommitted { c with commitIndex := n }) := by
  obtain ⟨c', hq, heq⟩ := deliverCommitted_cases { c with commitIndex := n }
  have hge : c.lastDelivered ≤ deliveredTo { c with commitIndex := n } := by
    unfold deliveredTo
    split
    · exact le_rfl
    · exact le_max_left _ _
  rw [heq]
  cases hq <;> exact ⟨h.snap_le.trans hge, fun _ => hn⟩

theorem durable_deliverCommitted (h : Durable M c) {n : Nat} (hn : 0 < n) :
    Durable M (deliverCommitted { c with commitIndex := n }) :=
  durable_of_sameLog h (sameLog_deliverCommitted { c with commitIndex := n })
    (cursors_deliverCommitted h.cursors hn)

theorem sameLog_maybeAdvanceCommit (c : Core) : SameLog c (maybeAdvanceCommit c) := by
  rcases maybeAdvanceCommit_cases c with heq | ⟨n, -, heq⟩
  · rw [heq]
    rfl
  · rw [heq]
    exact sameLog_deliverCommitted { c with commitIndex := n }

theorem cursors_maybeAdvanceCommit (h : Cursors c) : Cursors (maybeAdvanceCommit c) := by
  rcases maybeAdvanceCommit_cases c with heq | ⟨n, hn, heq⟩
  · rw [heq]
    exact h
  · rw [heq]
    exact cursors_deliverCommitted h (Nat.zero_lt_of_lt hn.lt)

theorem durable_adoptTerm (h : Durable M c) (term : Nat) : Durable M (adoptTerm c term) := by
  unfold adoptTerm
  split
  · exact
      { saved := { h.saved with state := rfl }
        cursors := cursors_of_eq h.cursors rfl rfl rfl
        members := h.members }
  · exact h

theorem changeOf_of_type_ne {e : Entry} (h : e.type ≠ .config) : changeOf e = none :=
  if_neg h

theorem saved_appendOwn (h : Saved M c) {e : Entry} (he : e.index = lastLogIndex c + 1) :
    Saved M (appendOwn c e) := by
  rw [lastLogIndex_eq h.numbered] at he
  have hone : Numbered (c.snapIndex + c.entries.length) [e] := by
    rw [numbered_cons]
    exact ⟨he, numbered_nil _⟩
  have hlog := replayRecords_append h.log h.numbered le_rfl hone (List.cons_ne_nil e [])
  rw [List.take_length] at hlog
  exact
    { state := h.state
      snapIndex := h.snapIndex
      snapTerm := h.snapTerm
      snapConfig := h.snapConfig
      numbered := numbered_append h.numbered hone
      log := hlog }

theorem durable_appendOwn (h : Durable M c) {e : Entry} (he : e.index = lastLogIndex c + 1)
    (hplain : changeOf e = none) : Durable M (appendOwn c e) where
  saved := saved_appendOwn h.saved he
  cursors := cursors_of_eq h.cursors rfl rfl rfl
  members := by
    change c.members = membersAfter c.snapConfig (c.entries ++ [e])
    rw [membersAfter_append, membersAfter_of_plain _ (by simpa using hplain), h.members]

theorem applyChangeOf_encode (m : Members) (term index : Nat) {cc : ConfChange}
    (haddr : cc.addr.length < 2 ^ 32) :
    applyChangeOf m ⟨term, index, .config, encodeConfChange cc⟩ = cc.apply m := by
  unfold applyChangeOf changeOf
  rw [if_pos rfl, decodeConfChange_encode haddr]
  by_cases hop : cc.op = confChangeAdd ∨ cc.op = confChangeRemove
  · rw [if_pos hop]
    rfl
  · rw [if_neg hop]
    rw [not_or] at hop
    change m = cc.apply m
    rw [ConfChange.apply, if_neg hop.1, if_neg hop.2]

theorem propose_cases (c : Core) (command : Command) (typ : EntryType) :
    (∃ err, propose c command typ = (c, .error err)) ∨
      c.role = .leader ∧ c.transferTarget = 0 ∧ propose c command typ =
        (maybeAdvanceCommit (broadcastAppends
          (appendOwn c ⟨c.term, lastLogIndex c + 1, typ, command⟩)),
          .ok (lastLogIndex c + 1, c.term)) := by
  unfold propose
  split
  · exact Or.inl ⟨_, rfl⟩
  · rename_i hrole
    split
    · exact Or.inl ⟨_, rfl⟩
    · rename_i htarget
      exact Or.inr ⟨not_not.mp hrole, not_not.mp htarget, rfl⟩

theorem proposeConfChange_cases (c : Core) (cc : ConfChange) :
    (∃ err, proposeConfChange c cc = (c, .error err)) ∨
      c.role = .leader ∧ c.lastConfigIndex ≤ c.commitIndex ∧ proposeConfChange c cc =
        (applyConfChange (maybeAdvanceCommit (broadcastAppends
          (appendOwn c ⟨c.term, lastLogIndex c + 1, .config, encodeConfChange cc⟩)))
          cc (lastLogIndex c + 1), .ok (lastLogIndex c + 1, c.term)) := by
  unfold proposeConfChange
  split
  · exact Or.inl ⟨_, rfl⟩
  · split
    · exact Or.inl ⟨_, rfl⟩
    · rename_i hflight
      split
      · exact Or.inl ⟨_, rfl⟩
      · split
        · exact Or.inl ⟨_, rfl⟩
        · rcases propose_cases c (encodeConfChange cc) .config with ⟨err, heq⟩ | ⟨hrole, -, heq⟩
          · rw [heq]
            exact Or.inl ⟨_, rfl⟩
          · rw [heq]
            exact Or.inr ⟨hrole, by omega, rfl⟩

theorem durable_proposeConfChange (h : Durable M c) {cc : ConfChange}
    (haddr : cc.addr.length < 2 ^ 32) : Durable M (proposeConfChange c cc).1 := by
  rcases proposeConfChange_cases c cc with ⟨err, heq⟩ | ⟨-, -, heq⟩
  · rw [heq]
    exact h
  · rw [heq]
    generalize he : (⟨c.term, lastLogIndex c + 1, .config, encodeConfChange cc⟩ : Entry) = e
    have hindex : e.index = lastLogIndex c + 1 := by
      rw [← he]
    obtain ⟨out, hout, -⟩ := replicates_broadcastAppends (appendOwn c e)
    have hs : SameLog (appendOwn c e) (maybeAdvanceCommit (broadcastAppends (appendOwn c e))) :=
      (sameLog_replicates hout).trans (sameLog_maybeAdvanceCommit _)
    have hown : Cursors (appendOwn c e) := cursors_of_eq h.cursors rfl rfl rfl
    have hsent : Cursors (broadcastAppends (appendOwn c e)) := by
      rw [hout.eq]
      exact cursors_of_eq hown rfl rfl rfl
    have hcur := cursors_maybeAdvanceCommit hsent
    generalize maybeAdvanceCommit (broadcastAppends (appendOwn c e)) = c' at hs hcur ⊢
    have hsaved : Saved M c' := saved_of_sameLog (saved_appendOwn h.saved hindex) hs
    exact
      { saved := { hsaved with }
        cursors := cursors_of_eq hcur rfl rfl rfl
        members := by
          change cc.apply c'.members = membersAfter c'.snapConfig c'.entries
          rw [hs.members, hs.snapConfig, hs.entries]
          change cc.apply c.members = membersAfter c.snapConfig (c.entries ++ [e])
          rw [membersAfter_append, ← h.members, ← he]
          exact (applyChangeOf_encode c.members _ _ haddr).symm }

theorem saved_grantVote (h : Saved M c) (candidate : ID) : Saved M (grantVote c candidate) := by
  by_cases hvote : c.votedFor = candidate
  · rw [grantVote_of_eq hvote]
    exact saved_of_sameLog h rfl
  · rw [grantVote_of_ne hvote]
    exact { h with state := rfl }

theorem saved_rebase (h : Saved M c) (snap : Snapshot) {keep : List Entry}
    (hkeep : Numbered snap.lastIndex keep) : Saved M (rebase c snap keep) where
  state := h.state
  snapIndex := rfl
  snapTerm := rfl
  snapConfig := rfl
  numbered := hkeep
  log := replayRecords_numbered hkeep

theorem numbered_entriesAfter (h : Contiguous c) {index : Nat}
    (hi : c.snapIndex < index) : Numbered index (entriesAfter c index) := by
  rw [entriesAfter_eq h hi]
  have := numbered_drop h (index - c.snapIndex)
  rwa [show c.snapIndex + (index - c.snapIndex) = index by omega] at this

theorem numbered_coherentSuffix (h : Contiguous c) {snap : Snapshot}
    (hi : c.snapIndex < snap.lastIndex) : Numbered snap.lastIndex (coherentSuffix c snap) := by
  unfold coherentSuffix
  split
  · exact numbered_entriesAfter h hi
  · exact numbered_nil _

theorem mem_of_mem_entriesAfter {index : Nat} {e : Entry} (h : e ∈ entriesAfter c index) :
    e ∈ c.entries := by
  unfold entriesAfter at h
  split at h
  · exact absurd h List.not_mem_nil
  · exact List.mem_of_mem_drop h

theorem mem_of_mem_coherentSuffix {snap : Snapshot} {e : Entry}
    (h : e ∈ coherentSuffix c snap) : e ∈ c.entries := by
  unfold coherentSuffix at h
  split at h
  · exact mem_of_mem_entriesAfter h
  · exact absurd h List.not_mem_nil

theorem lastLogIndex_rebase (c : Core) {snap : Snapshot} {keep : List Entry}
    (h : Numbered snap.lastIndex keep) :
    lastLogIndex (rebase c snap keep) = snap.lastIndex + keep.length :=
  @lastLogIndex_eq (rebase c snap keep) h

theorem lastLogIndex_compact (hn : Contiguous c) (index : Nat) (data : Bytes) :
    lastLogIndex c ≤ lastLogIndex (compact c index data).1 := by
  rcases compact_cases c index data with heq | ⟨hgt, -, heq⟩ <;> rw [heq]
  have hkeep : Numbered (snapshotAt c index data).lastIndex (entriesAfter c index) :=
    numbered_entriesAfter hn hgt
  rw [lastLogIndex_rebase c hkeep, lastLogIndex_eq hn]
  change _ ≤ index + (entriesAfter c index).length
  rw [entriesAfter_eq hn hgt, List.length_drop]
  omega

theorem durable_compact (h : Durable M c) (index : Nat) (data : Bytes) :
    Durable M (compact c index data).1 := by
  rcases compact_cases c index data with heq | ⟨hgt, hle, heq⟩ <;> rw [heq]
  · exact h
  · have hn := h.saved.numbered
    exact
      { saved := saved_rebase h.saved _ (numbered_entriesAfter hn hgt)
        cursors := ⟨hle, h.cursors.commit_pos⟩
        members := by
          change c.members = membersAfter (configAt c index) (entriesAfter c index)
          rw [configAt_eq hn, entriesAfter_eq hn hgt, ← membersAfter_append,
            List.take_append_drop, h.members] }

theorem durable_install (h : Durable M c) (snap : Snapshot) (hi : c.snapIndex < snap.lastIndex) :
    Durable M (install c snap) := by
  have hsaved := saved_rebase h.saved snap (numbered_coherentSuffix h.saved.numbered hi)
  exact
    { saved := { hsaved with }
      cursors :=
        { snap_le := le_max_right _ _
          commit_pos := fun _ => lt_max_of_lt_right (Nat.zero_lt_of_lt hi) }
      members := rfl }

/-- The requests a leader builds: consecutive entries after `prevLogIndex`, and
no entry of term zero. -/
structure WellFormed (req : AppendEntriesRequest) : Prop where
  numbered : Numbered req.prevLogIndex req.entries
  start : req.prevLogIndex = 0 → req.entries ≠ []
  prevTerm : req.prevLogTerm = 0 → 0 < req.prevLogIndex → req.entries = []
  terms : ∀ e ∈ req.entries, e.term ≠ 0

theorem WellFormed.reach_pos {req : AppendEntriesRequest} (h : WellFormed req) :
    0 < req.prevLogIndex + req.entries.length := by
  by_cases hzero : req.prevLogIndex = 0
  · have := List.length_pos_iff.mpr (h.start hzero)
    omega
  · omega

theorem snapIndex_le_of_termAt (h : Contiguous c) {index : Nat}
    (ht : termAt c index ≠ 0) : c.snapIndex ≤ index := by
  by_contra hlt
  exact ht (termAt_of_lt h (Nat.lt_of_not_le hlt))

/-- Whether the log check of `handleAppendEntries` passes. -/
def Accepted (c : Core) (req : AppendEntriesRequest) : Prop :=
  req.prevLogIndex = 0 ∨
    req.prevLogIndex ≤ lastLogIndex c ∧ termAt c req.prevLogIndex = req.prevLogTerm

/-- The first new entry of a well-formed request is the very first of all, or continues
or rewinds the log above the snapshot. -/
theorem fresh_start (hn : Contiguous c) {req : AppendEntriesRequest}
    (hreq : WellFormed req) (hacc : Accepted c req) {e : Entry} {rest : List Entry}
    (hfresh : req.entries.dropWhile (held c) = e :: rest) :
    Numbered (e.index - 1) (e :: rest) ∧ (req.prevLogIndex = 0 ∧ e.index = 1 ∨
      c.snapIndex < e.index ∧ e.index ≤ lastLogIndex c + 1) := by
  have hsplit := List.takeWhile_append_dropWhile (p := held c) (l := req.entries)
  rw [hfresh] at hsplit
  generalize htake : req.entries.takeWhile (held c) = pre at hsplit
  have hheld : ∀ f ∈ pre, f.index ≤ lastLogIndex c ∧ c.snapIndex ≤ f.index := by
    intro f hf
    have hmem : f ∈ req.entries := by
      rw [← hsplit]
      exact List.mem_append_left _ hf
    have hf' : held c f = true := by
      rw [← htake] at hf
      exact (List.all_eq_true.mp List.all_takeWhile) f hf
    unfold held at hf'
    rw [decide_eq_true_eq] at hf'
    exact ⟨hf'.1, snapIndex_le_of_termAt hn (hf'.2 ▸ hreq.terms f hmem)⟩
  have hnum := hreq.numbered
  have hindex : e.index = req.prevLogIndex + pre.length + 1 := by
    refine hnum pre.length e ?_
    rw [← hsplit]
    simp
  refine ⟨?_, ?_⟩
  · have hdrop := numbered_drop hnum pre.length
    rw [← hsplit, List.drop_left] at hdrop
    rwa [show e.index - 1 = req.prevLogIndex + pre.length by omega]
  · by_cases hpre : pre = []
    · rw [hpre, List.length_nil] at hindex
      by_cases hzero : req.prevLogIndex = 0
      · exact Or.inl ⟨hzero, by omega⟩
      · obtain ⟨hle, hterm⟩ := hacc.resolve_left hzero
        have hne : req.entries ≠ [] := by
          rw [← hsplit]
          simp
        have hprev : termAt c req.prevLogIndex ≠ 0 := by
          rw [hterm]
          exact fun h0 => hne (hreq.prevTerm h0 (Nat.pos_of_ne_zero hzero))
        have := snapIndex_le_of_termAt hn hprev
        exact Or.inr ⟨by omega, by omega⟩
    · -- The entry before `e` in the request is held at index `e.index - 1`.
      have hget : pre[pre.length - 1]? = some (pre.getLast hpre) := by
        rw [← List.getLast?_eq_getElem?, List.getLast?_eq_some_getLast hpre]
      have hf := hheld _ (List.getLast_mem hpre)
      have hpos : 0 < pre.length := List.length_pos_iff.mpr hpre
      have := hnum (pre.length - 1) (pre.getLast hpre) (by
        rw [← hsplit, List.getElem?_append_left (by omega)]
        exact hget)
      exact Or.inr ⟨by omega, by omega⟩

/-- The first new entry beyond the commit index continues or rewinds the log, but never
below the snapshot. -/
theorem fresh_index (hn : Contiguous c) (hcur : Cursors c)
    {req : AppendEntriesRequest} (hreq : WellFormed req) (hacc : Accepted c req) {e : Entry}
    {rest : List Entry} (hfresh : req.entries.dropWhile (held c) = e :: rest)
    (hcommit : c.commitIndex < e.index) :
    c.snapIndex < e.index ∧ e.index ≤ lastLogIndex c + 1 ∧ Numbered (e.index - 1) (e :: rest) := by
  obtain ⟨hrest, ⟨-, hone⟩ | ⟨hsnap, hlast⟩⟩ := fresh_start hn hreq hacc hfresh
  · -- Nothing has been delivered yet, or the entry would be committed already.
    have hdel : ¬ 0 < c.lastDelivered := fun hpos => by
      have := hcur.commit_pos hpos
      omega
    have := hcur.snap_le
    exact ⟨by omega, by omega, hrest⟩
  · exact ⟨hsnap, hlast, hrest⟩

theorem truncateAndAppend_eq {e : Entry} {rest : List Entry}
    (hcommit : ¬ e.index ≤ c.commitIndex) (hrest : Numbered (e.index - 1) (e :: rest)) :
    truncateAndAppend c e rest =
      (if (conflicting c e.index).any fun e => e.type = .config then
        recalcConfig (splice c { c.disk with log := c.disk.log ++ e :: rest } e rest)
      else noteAppendedConfigs (splice c { c.disk with log := c.disk.log ++ e :: rest } e rest)
        (e :: rest), .ok ()) := by
  rw [truncateAndAppend, if_neg hcommit, append_numbered c.disk hrest]
  dsimp only
  split <;> rfl

theorem saved_splice (h : Saved M c) {e : Entry} {rest : List Entry}
    (hsnap : c.snapIndex < e.index) (hlast : e.index ≤ lastLogIndex c + 1)
    (hrest : Numbered (e.index - 1) (e :: rest)) :
    Saved M (splice c { c.disk with log := c.disk.log ++ e :: rest } e rest) := by
  have hn := h.numbered
  rw [lastLogIndex_eq hn] at hlast
  have hk : e.index - c.snapIndex - 1 ≤ c.entries.length := by
    omega
  have hbase : c.snapIndex + (e.index - c.snapIndex - 1) = e.index - 1 := by
    omega
  have hlog := replayRecords_append h.log hn hk (hbase ▸ hrest) (List.cons_ne_nil e rest)
  have hnum : Numbered c.snapIndex
      (c.entries.take (e.index - c.snapIndex - 1) ++ e :: rest) := by
    refine numbered_append (numbered_take hn _) ?_
    rwa [List.length_take, min_eq_left hk, hbase]
  rw [← retained_eq hn hsnap] at hlog hnum
  exact
    { state := h.state
      snapIndex := h.snapIndex
      snapTerm := h.snapTerm
      snapConfig := h.snapConfig
      numbered := hnum
      log := hlog }

theorem members_splice (h : Durable M c) {e : Entry} (rest : List Entry)
    (hsnap : c.snapIndex < e.index)
    (hplain : ¬ ((conflicting c e.index).any fun e => e.type = .config) = true) :
    membersAfter c.members (e :: rest) =
      membersAfter c.snapConfig (retained c e.index ++ e :: rest) := by
  have hn := h.saved.numbered
  rw [conflicting_eq hn hsnap] at hplain
  have hdrop : ∀ f ∈ c.entries.drop (e.index - c.snapIndex - 1), changeOf f = none := by
    intro f hf
    refine changeOf_of_type_ne fun htype => hplain ?_
    rw [List.any_eq_true]
    exact ⟨f, hf, by simpa using htype⟩
  have hmem : membersAfter c.snapConfig c.entries =
      membersAfter c.snapConfig (c.entries.take (e.index - c.snapIndex - 1)) := by
    nth_rewrite 1 [← List.take_append_drop (e.index - c.snapIndex - 1) c.entries]
    rw [membersAfter_append, membersAfter_of_plain _ hdrop]
  rw [retained_eq hn hsnap, membersAfter_append, h.members, hmem]

theorem durable_truncateAndAppend (h : Durable M c) {e : Entry} {rest : List Entry}
    (hcommit : ¬ e.index ≤ c.commitIndex) (hsnap : c.snapIndex < e.index)
    (hlast : e.index ≤ lastLogIndex c + 1) (hrest : Numbered (e.index - 1) (e :: rest)) :
    Durable M (truncateAndAppend c e rest).1 := by
  have hsaved := saved_splice h.saved hsnap hlast hrest
  rw [truncateAndAppend_eq hcommit hrest]
  dsimp only
  split
  · exact
      { saved := { hsaved with }
        cursors := cursors_of_eq h.cursors rfl rfl rfl
        members := rfl }
  · rename_i hplain
    rw [noteAppendedConfigs_eq]
    exact
      { saved := { hsaved with }
        cursors := cursors_of_eq h.cursors rfl rfl rfl
        members := members_splice h rest hsnap hplain }

theorem appendNew_cases (hn : Contiguous c) (hcur : Cursors c)
    {req : AppendEntriesRequest} (hreq : WellFormed req) (hacc : Accepted c req) :
    (appendNew c req.entries).1 = c ∨
      ∃ e rest, e :: rest <:+ req.entries ∧ c.commitIndex < e.index ∧ c.snapIndex < e.index ∧
        e.index ≤ lastLogIndex c + 1 ∧ Numbered (e.index - 1) (e :: rest) ∧
        appendNew c req.entries = truncateAndAppend c e rest := by
  unfold appendNew
  split
  · exact Or.inl rfl
  · rename_i e rest hfresh
    by_cases hcommit : e.index ≤ c.commitIndex
    · rw [truncateAndAppend, if_pos hcommit]
      exact Or.inl rfl
    · obtain ⟨hsnap, hlast, hrest⟩ :=
        fresh_index hn hcur hreq hacc hfresh (Nat.lt_of_not_le hcommit)
      exact Or.inr ⟨e, rest, hfresh ▸ List.dropWhile_suffix _, Nat.lt_of_not_le hcommit, hsnap,
        hlast, hrest, rfl⟩

theorem durable_appendNew (h : Durable M c) {req : AppendEntriesRequest} (hreq : WellFormed req)
    (hacc : Accepted c req) : Durable M (appendNew c req.entries).1 := by
  rcases appendNew_cases h.saved.numbered h.cursors hreq hacc with
    heq | ⟨e, rest, -, hcommit, hsnap, hlast, hrest, heq⟩
  · rw [heq]
    exact h
  · rw [heq]
    exact durable_truncateAndAppend h hcommit.not_ge hsnap hlast hrest

theorem getLast?_truncateAndAppend {e : Entry} {rest : List Entry}
    (h : truncateAndAppend c e rest = (c', .ok ())) :
    c'.entries.getLast? = (e :: rest).getLast? := by
  unfold truncateAndAppend at h
  split at h
  · cases h
  · split at h
    · cases h
    · split at h
      · cases h
        exact List.getLast?_append_cons _ _ _
      · cases h
        rw [noteAppendedConfigs_eq]
        exact List.getLast?_append_cons _ _ _

theorem le_lastLogIndex_of_appendNew {req : AppendEntriesRequest}
    (hnum : Numbered req.prevLogIndex req.entries) (hacc : Accepted c req)
    (hnew : appendNew c req.entries = (c', .ok ())) :
    req.prevLogIndex + req.entries.length ≤ lastLogIndex c' := by
  have hprev : req.prevLogIndex ≤ lastLogIndex c := by
    rcases hacc with hzero | ⟨hle, -⟩ <;> omega
  have hlast : ∀ e, req.entries.getLast? = some e →
      e.index = req.prevLogIndex + req.entries.length := by
    intro e he
    rw [List.getLast?_eq_getElem?] at he
    have hlen := (List.getElem?_eq_some_iff.mp he).1
    have := hnum _ e he
    omega
  have hsplit := List.takeWhile_append_dropWhile (p := held c) (l := req.entries)
  unfold appendNew at hnew
  split at hnew
  · rename_i hnil
    cases hnew
    cases hget : req.entries.getLast? with
    | none =>
        rw [List.getLast?_eq_none_iff.mp hget]
        exact hprev
    | some e =>
        rw [hnil, List.append_nil] at hsplit
        have he : e ∈ req.entries.takeWhile (held c) := by
          rw [hsplit]
          exact List.mem_of_getLast? hget
        have hheld := (List.all_eq_true.mp List.all_takeWhile) e he
        unfold held at hheld
        rw [decide_eq_true_eq, hlast e hget] at hheld
        exact hheld.1
  · rename_i e rest hfresh
    have htail := getLast?_truncateAndAppend hnew
    rw [hfresh] at hsplit
    have hsame : req.entries.getLast? = (e :: rest).getLast? := by
      rw [← hsplit]
      exact List.getLast?_append_cons _ _ _
    unfold lastLogIndex
    rw [htail, ← hsame]
    cases hget : req.entries.getLast? with
    | none => rw [hsame] at hget; simp at hget
    | some f => exact (hlast f hget).ge

/-- The three ways an append request of the current term ends. -/
theorem handleAppendEntries_cases (c : Core) (req : AppendEntriesRequest) :
    (∃ resp, handleAppendEntries c req = (adoptTerm c req.term, .ok resp) ∧
      req.term < (adoptTerm c req.term).term ∧ resp.success = false) ∨
    (∃ resp, handleAppendEntries c req =
      (recognizeLeader (adoptTerm c req.term) req.leaderId, .ok resp) ∧ resp.success = false ∧
      ¬ Accepted (recognizeLeader (adoptTerm c req.term) req.leaderId) req) ∨
    (¬ req.term < (adoptTerm c req.term).term ∧
      Accepted (recognizeLeader (adoptTerm c req.term) req.leaderId) req ∧
      ((∃ c' err, appendNew (recognizeLeader (adoptTerm c req.term) req.leaderId) req.entries =
          (c', .error err) ∧ handleAppendEntries c req = (c', .error err)) ∨
        ∃ c' resp, appendNew (recognizeLeader (adoptTerm c req.term) req.leaderId) req.entries =
          (c', .ok ()) ∧ handleAppendEntries c req =
            (followCommit c' req.leaderCommit (req.prevLogIndex + req.entries.length),
              .ok resp) ∧ resp.success = true)) := by
  unfold handleAppendEntries
  dsimp only
  split
  · rename_i hlt
    exact Or.inl ⟨_, rfl, hlt, rfl⟩
  · rename_i hterm
    split
    · rename_i hlong
      refine Or.inr (Or.inl ⟨_, rfl, rfl, ?_⟩)
      rintro (hzero | ⟨hle, -⟩) <;> omega
    · rename_i hlong
      split
      · rename_i hmatch
        refine Or.inr (Or.inl ⟨_, rfl, rfl, ?_⟩)
        rintro (hzero | ⟨-, hterm⟩)
        · omega
        · exact hmatch.2 hterm
      · rename_i hmatch
        refine Or.inr (Or.inr ⟨hterm, ?_, ?_⟩)
        · by_cases hzero : req.prevLogIndex = 0
          · exact Or.inl hzero
          · have hpos := Nat.pos_of_ne_zero hzero
            exact Or.inr ⟨Nat.le_of_not_lt fun hlt => hlong ⟨hpos, hlt⟩,
              not_not.mp fun hne => hmatch ⟨hpos, hne⟩⟩
        · split
          · rename_i c' err heq
            exact Or.inl ⟨c', err, heq, rfl⟩
          · rename_i c' heq
            exact Or.inr ⟨c', _, heq, rfl, rfl⟩

/-- The events of a correct environment: append requests are built as a leader
builds them, configuration entries are proposed as membership changes, and the
addresses of new members fit their length field. -/
def Proper : Event → Prop
  | .appendEntries req => WellFormed req
  | .propose _ typ => typ ≠ .config
  | .confChange cc => cc.addr.length < 2 ^ 32
  | _ => True

theorem durable_takeQueues (h : Durable M c) : Durable M (takeQueues c) :=
  durable_volatile h rfl rfl rfl

theorem newCore_eq {cfg : Config} {rng : Nat → Nat} {d : Disk} {entries : List Entry}
    (hid : cfg.id ≠ 0) (hM : initialMembers cfg = .ok M)
    (hlog : replayRecords (loadRaftSnapshot d).lastIndex (trimmed d).log = .ok entries) :
    newCore cfg rng d = .ok (bootCore (applyDefaults cfg) rng (trimmed d) M entries) := by
  have hM' : initialMembers (applyDefaults cfg) = .ok M := hM
  have hopen : openLog d (loadRaftSnapshot d).lastIndex = .ok (trimmed d, entries) := by
    change (replayRecords _ (trimmed d).log).map _ = _
    rw [hlog]
    rfl
  unfold newCore
  simp only [hM', hopen]
  rw [if_neg (show (applyDefaults cfg).id ≠ 0 from hid)]
  rfl

theorem newCore_cases {cfg : Config} {rng : Nat → Nat} {d : Disk}
    (h : newCore cfg rng d = .ok c) :
    cfg.id ≠ 0 ∧ ∃ M entries, initialMembers cfg = .ok M ∧
      replayRecords (loadRaftSnapshot d).lastIndex (trimmed d).log = .ok entries ∧
      c = bootCore (applyDefaults cfg) rng (trimmed d) M entries := by
  by_cases hid : cfg.id = 0
  · unfold newCore at h
    simp only at h
    rw [if_pos (show (applyDefaults cfg).id = 0 from hid)] at h
    cases h
  · refine ⟨hid, ?_⟩
    cases hM : initialMembers cfg with
    | error err =>
        have hM' : initialMembers (applyDefaults cfg) = .error err := hM
        unfold newCore at h
        simp only [hM'] at h
        rw [if_neg (show (applyDefaults cfg).id ≠ 0 from hid)] at h
        cases h
    | ok M =>
        cases hlog : replayRecords (loadRaftSnapshot d).lastIndex (trimmed d).log with
        | error err =>
            have hM' : initialMembers (applyDefaults cfg) = .ok M := hM
            have hopen : openLog d (loadRaftSnapshot d).lastIndex = .error err := by
              change (replayRecords _ (trimmed d).log).map _ = _
              rw [hlog]
              rfl
            unfold newCore at h
            simp only [hM', hopen] at h
            rw [if_neg (show (applyDefaults cfg).id ≠ 0 from hid)] at h
            cases h
        | ok entries =>
            rw [newCore_eq hid hM hlog] at h
            exact ⟨M, entries, rfl, rfl, (Except.ok.inj h).symm⟩

theorem numbered_replayRecords {base : Nat} {log entries : List Entry}
    (h : replayRecords base log = .ok entries) : Numbered base entries := by
  have key : ∀ (records : List Entry) (cur : List Entry), Numbered base cur →
      records.foldlM (replayRecord base) cur = .ok entries → Numbered base entries := by
    intro records
    induction records with
    | nil =>
        intro cur hcur heq
        cases heq
        exact hcur
    | cons e records ih =>
        intro cur hcur heq
        rw [List.foldlM_cons] at heq
        cases hstep : replayRecord base cur e with
        | error err =>
            rw [hstep] at heq
            cases heq
        | ok next =>
            rw [hstep] at heq
            exact ih next (numbered_replayRecord hcur hstep) heq
  exact key log [] (numbered_nil base) h

theorem durable_bootCore {cfg : Config} {rng : Nat → Nat} {d : Disk} {entries : List Entry}
    (hlog : replayRecords (loadRaftSnapshot d).lastIndex d.log = .ok entries) :
    Durable M (bootCore cfg rng d M entries) where
  saved :=
    { state := rfl
      snapIndex := rfl
      snapTerm := rfl
      snapConfig := rfl
      numbered := numbered_replayRecords hlog
      log := hlog }
  cursors := ⟨le_rfl, id⟩
  members := rfl

theorem newCore_of_durable (h : Durable M c)
    (hfits : ∀ e ∈ c.disk.log, e.command.length ≤ maxCommandLen) {cfg : Config}
    (hid : cfg.id ≠ 0) (hM : initialMembers cfg = .ok M) (rng : Nat → Nat) :
    newCore cfg rng c.disk = .ok (bootCore (applyDefaults cfg) rng c.disk M c.entries) := by
  have hlog := h.saved.log
  have htrim := trimmed_eq hfits
  rw [← h.saved.snapIndex, ← htrim] at hlog
  rw [newCore_eq hid hM hlog, htrim]

end RaftKV.Raft.Durability
