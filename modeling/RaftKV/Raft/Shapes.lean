import RaftKV.Raft.Provenance

namespace RaftKV.Raft.Shapes

open Distributed.Network
open Raft.Durability Raft.Moves Raft.Cluster
open Raft.Barriers Raft.Provenance

variable {M : Members} {ev : Event} {c c' : Core}

theorem lastLogIndex_appendOwn (c : Core) (e : Entry) : lastLogIndex (appendOwn c e) = e.index := by
  unfold lastLogIndex appendOwn
  rw [List.getLast?_concat]

section Requests

/-- A request that its sender had the log for. A request from beyond the end of the
sender's log is beyond its commit index, too. -/
def Shaped : Message → Prop
  | .appendEntries req => WellFormed req ∧ (∀ e ∈ req.entries, e.term ≤ req.term) ∧
      (req.prevLogTerm = 0 → 0 < req.prevLogIndex → req.leaderCommit ≤ req.prevLogIndex)
  | .installSnapshot req => req.lastIncludedTerm ≠ 0 ∧ req.lastIncludedTerm ≤ req.term
  | _ => True

def Fair : Event → Prop
  | .appendEntries req => Shaped (.appendEntries req)
  | .installSnapshot req => Shaped (.installSnapshot req)
  | .propose _ typ => typ ≠ .config
  | _ => True

end Requests

section Files

/-- Memory and disk agree on the log, and the cursors lie within it. -/
structure Kept (M : Members) (c : Core) : Prop where
  saved : Saved M c
  cursors : Cursors c
  commit_le : c.commitIndex ≤ c.lastDelivered
  commit_last : c.commitIndex ≤ lastLogIndex c

theorem kept_of_sameLog (h : Kept M c) (hs : SameLog c c') (hc : c'.commitIndex = c.commitIndex)
    (hd : c'.lastDelivered = c.lastDelivered) : Kept M c' where
  saved := saved_of_sameLog h.saved hs
  cursors := cursors_of_eq h.cursors hs.snapIndex hd hc
  commit_le := by
    rw [hc, hd]
    exact h.commit_le
  commit_last := by
    rw [hc, lastLogIndex_congr hs.entries hs.snapIndex]
    exact h.commit_last

theorem kept_deliverCommitted (h : Kept M c) {n : Nat} (hpos : 0 < n) (hle : n ≤ lastLogIndex c) :
    Kept M (deliverCommitted { c with commitIndex := n }) := by
  have hs := sameLog_deliverCommitted { c with commitIndex := n }
  have hto := @deliveredTo_eq { c with commitIndex := n } h.saved.numbered h.cursors.snap_le hle
  obtain ⟨c', hq, heq⟩ := deliverCommitted_cases { c with commitIndex := n }
  have hcommit : (deliverCommitted { c with commitIndex := n }).commitIndex = n := by
    rw [heq]
    cases hq <;> rfl
  have hdel : (deliverCommitted { c with commitIndex := n }).lastDelivered =
      max c.lastDelivered n := by
    rw [heq]
    exact hto
  exact
    { saved := saved_of_sameLog h.saved hs
      cursors := cursors_deliverCommitted h.cursors hpos
      commit_le := by
        rw [hcommit, hdel]
        exact le_max_right _ _
      commit_last := by
        rw [hcommit, lastLogIndex_congr hs.entries hs.snapIndex]
        exact hle }

theorem kept_appendOwn (h : Kept M c) {e : Entry} (he : e.index = lastLogIndex c + 1) :
    Kept M (appendOwn c e) where
  saved := saved_appendOwn h.saved he
  cursors := cursors_of_eq h.cursors rfl rfl rfl
  commit_le := h.commit_le
  commit_last := by
    rw [lastLogIndex_appendOwn, he]
    exact h.commit_last.trans (Nat.le_succ _)

theorem kept_of_config (h : Kept M c) (heq : c' =
    { c with
      members := c'.members
      nextIndex := c'.nextIndex
      matchIndex := c'.matchIndex
      lastConfigIndex := c'.lastConfigIndex
      configVersion := c'.configVersion }) : Kept M c' := by
  rw [heq]
  exact
    { saved := { h.saved with }
      cursors := cursors_of_eq h.cursors rfl rfl rfl
      commit_le := h.commit_le
      commit_last := h.commit_last }

theorem kept_truncateAndAppend (h : Kept M c) {e : Entry} {rest : List Entry}
    (hcommit : c.commitIndex < e.index) (hsnap : c.snapIndex < e.index)
    (hlast : e.index ≤ lastLogIndex c + 1) (hrest : Numbered (e.index - 1) (e :: rest)) :
    Kept M (truncateAndAppend c e rest).1 := by
  have hsaved := saved_splice h.saved hsnap hlast hrest
  have hlen : e.index ≤ c.snapIndex + (retained c e.index ++ e :: rest).length := by
    rw [retained_eq h.saved.numbered hsnap, List.length_append, List.length_take, List.length_cons]
    rw [lastLogIndex_eq h.saved.numbered] at hlast
    omega
  have hsplice : Kept M (splice c { c.disk with log := c.disk.log ++ e :: rest } e rest) :=
    { saved := hsaved
      cursors := cursors_of_eq h.cursors rfl rfl rfl
      commit_le := h.commit_le
      commit_last := by
        rw [lastLogIndex_eq hsaved.numbered]
        exact hcommit.le.trans hlen }
  rw [truncateAndAppend_eq hcommit.not_ge hrest]
  dsimp only
  split
  · exact kept_of_config hsplice rfl
  · refine kept_of_config hsplice ?_
    nth_rewrite 1 [noteAppendedConfigs_eq]
    rw [noteAppendedConfigs_eq]

theorem kept_appendNew (h : Kept M c) {req : AppendEntriesRequest} (hreq : WellFormed req)
    (hacc : Accepted c req) : Kept M (appendNew c req.entries).1 := by
  rcases appendNew_cases h.saved.numbered h.cursors hreq hacc with
    heq | ⟨e, rest, -, hcommit, hsnap, hlast, hrest, heq⟩
  · rw [heq]
    exact h
  · rw [heq]
    exact kept_truncateAndAppend h hcommit hsnap hlast hrest

theorem kept_install (h : Kept M c) (snap : Snapshot) (hsnap : c.snapIndex < snap.lastIndex)
    (hcommit : c.commitIndex < snap.lastIndex) : Kept M (install c snap) := by
  have hkeep := numbered_coherentSuffix h.saved.numbered hsnap
  have hsaved := saved_rebase h.saved snap hkeep
  have hlast : lastLogIndex (install c snap) = snap.lastIndex + (coherentSuffix c snap).length :=
    lastLogIndex_rebase c hkeep
  exact
    { saved := { hsaved with }
      cursors :=
        { snap_le := le_max_right _ _
          commit_pos := fun _ => lt_max_of_lt_right (Nat.zero_lt_of_lt hsnap) }
      commit_le := max_le_max h.commit_le le_rfl
      commit_last := by
        rw [hlast]
        change max c.commitIndex snap.lastIndex ≤ _
        omega }

theorem kept_compact (h : Kept M c) (index : Nat) (data : Bytes) :
    Kept M (compact c index data).1 := by
  rcases compact_cases c index data with heq | ⟨hgt, hle, heq⟩ <;> rw [heq]
  · exact h
  · have hn := h.saved.numbered
    exact
      { saved := saved_rebase h.saved _ (numbered_entriesAfter hn hgt)
        cursors := ⟨hle, h.cursors.commit_pos⟩
        commit_le := h.commit_le
        commit_last := h.commit_last.trans (heq ▸ lastLogIndex_compact hn index data) }

theorem kept_stepDown (h : Kept M c) (term : Nat) : Kept M (stepDown c term) where
  saved := { h.saved with state := rfl }
  cursors := cursors_of_eq h.cursors rfl rfl rfl
  commit_le := h.commit_le
  commit_last := h.commit_last

theorem kept_adoptTerm (h : Kept M c) (term : Nat) : Kept M (adoptTerm c term) := by
  unfold adoptTerm
  split
  · exact kept_stepDown h term
  · exact h

theorem kept_move (hev : Fair ev) (hmove : Move ev c c') (h : Kept M c) : Kept M c' := by
  cases hmove with
  | stepDown term hlt hask => exact kept_stepDown h term
  | campaign =>
      exact
        { saved := { h.saved with state := rfl }
          cursors := cursors_of_eq h.cursors rfl rfl rfl
          commit_le := h.commit_le
          commit_last := h.commit_last }
  | grant req hask =>
      exact
        { saved := saved_grantVote h.saved _
          cursors := cursors_of_eq h.cursors rfl rfl rfl
          commit_le := h.commit_le
          commit_last := h.commit_last }
  | win hrole =>
      have hlead : Kept M (becomeLeader c) := kept_of_sameLog h rfl rfl rfl
      exact kept_appendOwn hlead rfl
  | own e hrole hterm hindex htype => exact kept_appendOwn h hindex
  | advance n hrole hn => exact kept_deliverCommitted h (Nat.zero_lt_of_lt hn.lt) hn.le
  | follow req hreq hterm hrole hreach =>
      subst hreq
      have hlast := hreach hev.1.numbered
      have hpos := hev.1.reach_pos
      exact kept_deliverCommitted h (by omega) (by omega)
  | accept req hreq hterm hrole hacc =>
      subst hreq
      exact kept_appendNew h hev.1 hacc
  | install req config hreq hterm hrole hsnap hcommit => exact kept_install h _ hsnap hcommit
  | change cc index hcc => exact kept_of_config h rfl
  | drift | ask | send | ack | recognize | fire | count | note | retry | read =>
      exact kept_of_sameLog h rfl rfl rfl

end Files

section Terms

/-- The terms a core has stored, from its snapshot on. -/
def storedTerms (c : Core) : List Nat :=
  c.snapTerm :: c.entries.map Entry.term

/-- No stored term is zero or lies ahead, in memory and in the records of the log file,
of which a restart may bring back older ones. A candidate has nothing of its term yet; a
leader has something, and what it has of its own term is the end of its log. -/
structure Terms (c : Core) : Prop where
  nonzero : ∀ e ∈ c.entries, e.term ≠ 0
  snap_nonzero : 0 < c.snapIndex → c.snapTerm ≠ 0
  le : ∀ t ∈ storedTerms c, t ≤ c.term
  records : ∀ e ∈ c.disk.log, e.term ≠ 0 ∧ e.term ≤ c.term
  active : c.role ≠ .follower → c.term ≠ 0
  candidate : c.role = .candidate → ∀ t ∈ storedTerms c, t < c.term
  leader : c.role = .leader → 0 < lastLogIndex c ∧
    (storedTerms c).Pairwise fun a b => a = c.term → b = c.term

theorem terms_of_eq (h : Terms c) (he : c'.entries = c.entries) (hi : c'.snapIndex = c.snapIndex)
    (ht : c'.snapTerm = c.snapTerm) (hd : c'.disk.log = c.disk.log) (hle : c.term ≤ c'.term)
    (hrole : c'.role = .follower ∨ c'.role = c.role ∧ c'.term = c.term) : Terms c' := by
  have hstored : storedTerms c' = storedTerms c := by
    rw [storedTerms, storedTerms, he, ht]
  have hrecords : ∀ e ∈ c'.disk.log, e.term ≠ 0 ∧ e.term ≤ c'.term := by
    rw [hd]
    exact fun e he => ⟨(h.records e he).1, (h.records e he).2.trans hle⟩
  have hfollow : c'.role = .follower → Terms c' := fun hf =>
    { nonzero := he ▸ h.nonzero
      snap_nonzero := by
        rw [hi, ht]
        exact h.snap_nonzero
      le := by
        rw [hstored]
        exact fun t hmem => (h.le t hmem).trans hle
      records := hrecords
      active := fun hne => absurd hf hne
      candidate := fun hc => by rw [hf] at hc; cases hc
      leader := fun hl => by rw [hf] at hl; cases hl }
  rcases hrole with hf | ⟨hrole, hterm⟩
  · exact hfollow hf
  · exact
      { nonzero := he ▸ h.nonzero
        snap_nonzero := by
          rw [hi, ht]
          exact h.snap_nonzero
        le := by
          rw [hstored, hterm]
          exact h.le
        records := hrecords
        active := by
          rw [hrole, hterm]
          exact h.active
        candidate := by
          rw [hrole, hterm, hstored]
          exact h.candidate
        leader := by
          rw [hrole, hterm, hstored, lastLogIndex_congr he hi]
          exact h.leader }

theorem terms_deliverCommitted (h : Terms c) (n : Nat) :
    Terms (deliverCommitted { c with commitIndex := n }) := by
  obtain ⟨c', hq, heq⟩ := deliverCommitted_cases { c with commitIndex := n }
  rw [heq]
  cases hq with
  | stay => exact terms_of_eq h rfl rfl rfl rfl le_rfl (Or.inr ⟨rfl, rfl⟩)
  | leave => exact terms_of_eq h rfl rfl rfl rfl le_rfl (Or.inl rfl)

theorem terms_appendOwn {e : Entry} (hnonzero : ∀ f ∈ c.entries, f.term ≠ 0)
    (hsnap : 0 < c.snapIndex → c.snapTerm ≠ 0) (hle : ∀ t ∈ storedTerms c, t ≤ c.term)
    (hrecords : ∀ f ∈ c.disk.log, f.term ≠ 0 ∧ f.term ≤ c.term)
    (hterm : c.term ≠ 0) (he : e.term = c.term) (hindex : 0 < e.index) (hrole : c.role = .leader)
    (hown : (storedTerms c).Pairwise fun a b => a = c.term → b = c.term) :
    Terms (appendOwn c e) := by
  have hstored : storedTerms (appendOwn c e) = storedTerms c ++ [c.term] := by
    rw [← he]
    simp [storedTerms, appendOwn]
  refine ⟨?_, hsnap, ?_, ?_, fun _ => hterm, ?_, ?_⟩
  · intro f hf
    rcases List.mem_append.mp hf with hf | hf
    · exact hnonzero f hf
    · rw [List.mem_singleton.mp hf, he]
      exact hterm
  · rw [hstored]
    intro t ht
    rcases List.mem_append.mp ht with ht | ht
    · exact hle t ht
    · exact (List.mem_singleton.mp ht).le
  · intro f hf
    rcases List.mem_append.mp hf with hf | hf
    · exact hrecords f hf
    · rw [List.mem_singleton.mp hf, he]
      exact ⟨hterm, le_rfl⟩
  · intro hc
    rw [show c.role = .candidate from hc] at hrole
    cases hrole
  · intro _
    rw [lastLogIndex_appendOwn, hstored, List.pairwise_append]
    refine ⟨hindex, hown, List.pairwise_singleton _ _, ?_⟩
    intro a _ b hb _
    exact List.mem_singleton.mp hb

theorem terms_truncateAndAppend (h : Terms c) {e : Entry} {rest : List Entry}
    (hcommit : c.commitIndex < e.index) (hsnap : c.snapIndex < e.index)
    (hn : Contiguous c) (hrest : Numbered (e.index - 1) (e :: rest))
    (hrole : c.role = .follower) (hnonzero : ∀ f ∈ e :: rest, f.term ≠ 0)
    (hle : ∀ f ∈ e :: rest, f.term ≤ c.term) : Terms (truncateAndAppend c e rest).1 := by
  have hmem : ∀ f ∈ retained c e.index ++ e :: rest, f ∈ c.entries ∨ f ∈ e :: rest := by
    intro f hf
    rw [retained_eq hn hsnap] at hf
    exact (List.mem_append.mp hf).imp_left List.mem_of_mem_take
  have hsplice : Terms (splice c { c.disk with log := c.disk.log ++ e :: rest } e rest) := by
    refine ⟨?_, h.snap_nonzero, ?_, ?_, fun hne => absurd hrole hne, ?_, ?_⟩
    · intro f hf
      exact (hmem f hf).elim (h.nonzero f) (hnonzero f)
    · intro t ht
      rcases List.mem_cons.mp ht with rfl | ht
      · exact h.le _ List.mem_cons_self
      · obtain ⟨f, hf, rfl⟩ := List.mem_map.mp ht
        rcases hmem f hf with hf | hf
        · exact h.le _ (List.mem_cons_of_mem _ (List.mem_map_of_mem hf))
        · exact hle f hf
    · intro f hf
      rcases List.mem_append.mp hf with hf | hf
      · exact h.records f hf
      · exact ⟨hnonzero f hf, hle f hf⟩
    · intro hc
      rw [show c.role = .candidate from hc] at hrole
      cases hrole
    · intro hl
      rw [show c.role = .leader from hl] at hrole
      cases hrole
  rw [truncateAndAppend_eq hcommit.not_ge hrest]
  dsimp only
  split
  · exact terms_of_eq hsplice rfl rfl rfl rfl le_rfl (Or.inr ⟨rfl, rfl⟩)
  · rw [noteAppendedConfigs_eq]
    exact terms_of_eq hsplice rfl rfl rfl rfl le_rfl (Or.inr ⟨rfl, rfl⟩)

theorem terms_install (h : Terms c) {snap : Snapshot} (hrole : c.role = .follower)
    (hnonzero : snap.lastTerm ≠ 0) (hle : snap.lastTerm ≤ c.term) : Terms (install c snap) := by
  refine ⟨?_, fun _ => hnonzero, ?_, ?_, fun hne => absurd hrole hne, ?_, ?_⟩
  · exact fun e he => h.nonzero e (mem_of_mem_coherentSuffix he)
  · intro t ht
    rcases List.mem_cons.mp ht with rfl | ht
    · exact hle
    · obtain ⟨e, he, rfl⟩ := List.mem_map.mp ht
      exact h.le _ (List.mem_cons_of_mem _ (List.mem_map_of_mem (mem_of_mem_coherentSuffix he)))
  · intro e he
    have hold := mem_of_mem_coherentSuffix he
    exact ⟨h.nonzero e hold, h.le _ (List.mem_cons_of_mem _ (List.mem_map_of_mem hold))⟩
  · intro hc
    rw [show c.role = .candidate from hc] at hrole
    cases hrole
  · intro hl
    rw [show c.role = .leader from hl] at hrole
    cases hrole

theorem terms_move (hev : Fair ev) (hk : Kept M c) (hmove : Move ev c c') (h : Terms c) :
    Terms c' := by
  cases hmove with
  | stepDown term hlt hask => exact terms_of_eq h rfl rfl rfl rfl hlt.le (Or.inl rfl)
  | recognize leaderId hev => exact terms_of_eq h rfl rfl rfl rfl le_rfl (Or.inl rfl)
  | campaign hrole hask =>
      refine ⟨h.nonzero, h.snap_nonzero, ?_, ?_, fun _ => Nat.succ_ne_zero _, ?_,
        fun hl => by cases hl⟩
      · exact fun t ht => (h.le t ht).trans (Nat.le_succ _)
      · exact fun e he => ⟨(h.records e he).1, (h.records e he).2.trans (Nat.le_succ _)⟩
      · exact fun _ t ht => Nat.lt_succ_of_le (h.le t ht)
  | win hrole =>
      have hlt := h.candidate hrole
      have hterm : c.term ≠ 0 := h.active (by rw [hrole]; exact Role.noConfusion)
      refine terms_appendOwn (c := becomeLeader c) h.nonzero h.snap_nonzero h.le h.records hterm rfl
        (Nat.succ_pos _) rfl ?_
      refine List.pairwise_iff_forall_sublist.mpr ?_
      intro a b hab heq
      exact absurd heq (hlt a (hab.subset List.mem_cons_self)).ne
  | own e hrole hterm hindex htype =>
      obtain ⟨hpos, hown⟩ := h.leader hrole
      have hzero : c.term ≠ 0 := h.active (by rw [hrole]; exact Role.noConfusion)
      exact terms_appendOwn h.nonzero h.snap_nonzero h.le h.records hzero hterm (by omega)
        hrole hown
  | advance | follow => exact terms_deliverCommitted h _
  | accept req hreq hterm hrole hacc =>
      subst hreq
      rcases appendNew_cases hk.saved.numbered hk.cursors hev.1 hacc with
        heq | ⟨e, rest, hsuffix, hcommit, hsnap, -, hrest, heq⟩
      · rw [heq]
        exact h
      · rw [heq]
        exact terms_truncateAndAppend h hcommit hsnap hk.saved.numbered hrest hrole
          (fun f hf => hev.1.terms f (hsuffix.subset hf))
          fun f hf => hterm ▸ hev.2.1 f (hsuffix.subset hf)
  | install req config hreq hterm hrole hsnap hcommit =>
      subst hreq
      exact terms_install h hrole hev.1 (hterm ▸ hev.2)
  | grant req hask =>
      have hdisk : (grantVote c req.candidateId).disk.log = c.disk.log := by
        change (ite _ _ _ : Disk).log = _
        split <;> rfl
      exact terms_of_eq h rfl rfl rfl hdisk le_rfl (Or.inr ⟨rfl, rfl⟩)
  | drift | ask | send | ack | fire | count | note | retry | read | change =>
      exact terms_of_eq h rfl rfl rfl rfl le_rfl (Or.inr ⟨rfl, rfl⟩)

theorem storedTerms_compact (hn : Contiguous c) {index : Nat}
    (hgt : c.snapIndex < index) (hle : index ≤ lastLogIndex c) (data : Bytes) :
    storedTerms (rebase c (snapshotAt c index data) (entriesAfter c index)) =
      (storedTerms c).drop (index - c.snapIndex) := by
  rw [lastLogIndex_eq hn] at hle
  obtain ⟨k, rfl⟩ : ∃ k, index = c.snapIndex + k + 1 := ⟨index - c.snapIndex - 1, by omega⟩
  have hk : k < c.entries.length := by
    omega
  change termAt c _ :: (entriesAfter c _).map Entry.term = _
  rw [termAt_of_gt hn, entriesAfter_eq hn hgt, List.getElem?_eq_getElem hk, storedTerms,
    show c.snapIndex + k + 1 - c.snapIndex = k + 1 by omega, List.drop_succ_cons, ← List.map_drop,
    List.drop_eq_getElem_cons hk]
  rfl

theorem terms_compact (h : Terms c) (hn : Contiguous c) {index : Nat}
    (hlog : index ≤ c.lastDelivered → index ≤ lastLogIndex c) (data : Bytes) :
    Terms (compact c index data).1 := by
  rcases compact_cases c index data with heq | ⟨hgt, hle, heq⟩ <;> rw [heq]
  · exact h
  · have hle := hlog hle
    have hstored := storedTerms_compact hn hgt hle data
    have hlast : lastLogIndex (rebase c (snapshotAt c index data) (entriesAfter c index)) =
        index + (entriesAfter c index).length :=
      lastLogIndex_rebase c (numbered_entriesAfter hn hgt)
    generalize hc' : rebase c (snapshotAt c index data) (entriesAfter c index) = c'
      at hstored hlast
    have hmem : ∀ t ∈ storedTerms c', t ∈ storedTerms c := by
      rw [hstored]
      exact fun t => List.mem_of_mem_drop
    subst hc'
    refine ⟨fun e he => h.nonzero e (mem_of_mem_entriesAfter he), ?_,
      fun t ht => h.le t (hmem t ht), ?_, h.active, fun hc t ht => h.candidate hc t (hmem t ht), ?_⟩
    · intro _
      -- The term of the snapshot is the term of the entry at its index.
      have hk : index - c.snapIndex - 1 < c.entries.length := by
        rw [lastLogIndex_eq hn] at hle
        omega
      have hterm : termAt c index = (c.entries[index - c.snapIndex - 1]).term := by
        have := termAt_of_gt hn (index - c.snapIndex - 1)
        rwa [show c.snapIndex + (index - c.snapIndex - 1) + 1 = index by omega,
          List.getElem?_eq_getElem hk] at this
      change termAt c index ≠ 0
      rw [hterm]
      exact h.nonzero _ (List.getElem_mem hk)
    · intro e he
      have hold := mem_of_mem_entriesAfter he
      exact ⟨h.nonzero e hold, h.le _ (List.mem_cons_of_mem _ (List.mem_map_of_mem hold))⟩
    · intro hl
      obtain ⟨-, hown⟩ := h.leader hl
      refine ⟨?_, ?_⟩
      · rw [hlast]
        exact Nat.add_pos_left (Nat.zero_lt_of_lt hgt) _
      · rw [hstored]
        exact hown.sublist (List.drop_sublist _ _)

end Terms

section Sending

theorem lastLogIndex_lt_of_termAt (hn : Contiguous c) (ht : Terms c)
    {index : Nat} (hge : c.snapIndex ≤ index) (hpos : 0 < index) (hzero : termAt c index = 0) :
    lastLogIndex c < index := by
  by_contra hle
  rw [lastLogIndex_eq hn] at hle
  rcases hge.eq_or_lt with rfl | hlt
  · rw [termAt_snapIndex] at hzero
    exact ht.snap_nonzero hpos hzero
  · obtain ⟨k, rfl⟩ : ∃ k, index = c.snapIndex + k + 1 := ⟨index - c.snapIndex - 1, by omega⟩
    have hk : k < c.entries.length := by
      omega
    rw [termAt_of_gt hn, List.getElem?_eq_getElem hk] at hzero
    exact ht.nonzero _ (List.getElem_mem hk) hzero

theorem shaped_appendRequest (hk : Kept M c) (ht : Terms c) (hpos : 0 < lastLogIndex c)
    {next : Nat} (hsnap : c.snapIndex < next) (seq : Nat) :
    Shaped (.appendEntries { appendRequest c next with seq := seq }) := by
  have hn := hk.saved.numbered
  have hlast := lastLogIndex_eq hn
  have hentries := appendRequest_entries hn hsnap
  have hbatch : batch 0 (c.entries.drop (next - c.snapIndex - 1)) <+:
      c.entries.drop (next - c.snapIndex - 1) := batch_isPrefix _ _
  have hmem : ∀ e ∈ (appendRequest c next).entries, e ∈ c.entries := by
    rw [hentries]
    exact fun e he => List.mem_of_mem_drop (hbatch.subset he)
  refine ⟨⟨?_, ?_, ?_, fun e he => ht.nonzero e (hmem e he)⟩, ?_, ?_⟩
  · have hdrop := numbered_drop hn (next - c.snapIndex - 1)
    rw [show c.snapIndex + (next - c.snapIndex - 1) = next - 1 by omega] at hdrop
    change Numbered (next - 1) (appendRequest c next).entries
    rw [hentries]
    obtain ⟨rest, hrest⟩ := hbatch
    intro k e he
    refine hdrop k e ?_
    rw [← hrest, List.getElem?_append_left (List.getElem?_eq_some_iff.mp he).1]
    exact he
  · intro hprev
    change next - 1 = 0 at hprev
    change (appendRequest c next).entries ≠ []
    rw [hentries, show next - c.snapIndex - 1 = 0 by omega, List.drop_zero]
    refine batch_ne_nil 0 (List.length_pos_iff.mp ?_)
    omega
  · intro hzero hprev
    change termAt c (next - 1) = 0 at hzero
    change 0 < next - 1 at hprev
    change (appendRequest c next).entries = []
    have hgt := lastLogIndex_lt_of_termAt hn ht (Nat.le_sub_one_of_lt hsnap) hprev hzero
    rw [hentries, List.drop_of_length_le (by omega), batch]
  · exact fun e he => ht.le _ (List.mem_cons_of_mem _ (List.mem_map_of_mem (hmem e he)))
  · intro hzero hprev
    have hgt := lastLogIndex_lt_of_termAt hn ht (Nat.le_sub_one_of_lt hsnap) hprev hzero
    exact hk.commit_last.trans hgt.le

theorem shaped_sent (hk : Kept M c) (ht : Terms c) (hpos : 0 < lastLogIndex c) {n : Nat}
    {o : Outbound} (h : Sent c n o) : Shaped o.msg := by
  cases h with
  | snapshot peer hle =>
      have hsnap : 0 < c.snapIndex := (nextFor_pos c peer).trans_le hle
      change (loadRaftSnapshot c.disk).lastTerm ≠ 0 ∧ (loadRaftSnapshot c.disk).lastTerm ≤ c.term
      rw [hk.saved.snapTerm]
      exact ⟨ht.snap_nonzero hsnap, ht.le _ List.mem_cons_self⟩
  | append peer seq hlt hseq hle => exact shaped_appendRequest hk ht hpos hlt seq

def OutboxShaped (c : Core) : Prop :=
  ∀ o ∈ c.outbox, Shaped o.msg

theorem outboxShaped_move (hk : Kept M c) (ht : Terms c) (hmove : Move ev c c')
    (h : OutboxShaped c) : OutboxShaped c' := by
  intro o ho
  rcases mem_outbox_move hmove ho with hold | ⟨-, -, hnew⟩
  · exact h o hold
  cases hnew with
  | vote | timeoutNow => trivial
  | sent hrole hdest hsent =>
      exact shaped_sent hk ht (hrole.elim (fun hl => (ht.leader hl).1) fun hs => hs.2.1) hsent

end Sending

section Runs

variable {D : Deployment} {s : CoreState} {i : ID}

/-- Whether a compaction stays within the log; beyond its end the code has nothing
to cut. -/
def withinLog (c : Core) : Input → Bool
  | .compact index _ => index ≤ c.lastDelivered → index ≤ lastLogIndex c
  | _ => true

structure Sane (M : Members) (c : Core) : Prop where
  kept : Kept M c
  terms : Terms c

theorem sane_takeQueues (h : Sane M c) : Sane M (takeQueues c) :=
  ⟨kept_of_sameLog h.kept rfl rfl rfl,
    terms_of_eq h.terms rfl rfl rfl rfl le_rfl (Or.inr ⟨rfl, rfl⟩)⟩

theorem sane_handle (h : Sane M c) (hev : Fair ev) (hout : c.outbox = []) :
    Sane M (handle c ev).1 ∧ OutboxShaped (handle c ev).1 := by
  have hinv : Kept M (handle c ev).1 ∧ Terms (handle c ev).1 ∧ OutboxShaped (handle c ev).1 := by
    refine moves_induction (Q := fun a => Kept M a ∧ Terms a ∧ OutboxShaped a)
      (moves_handle hout ev) ⟨h.kept, h.terms, ?_⟩ ?_
    · rw [OutboxShaped, hout]
      exact fun o ho => absurd ho List.not_mem_nil
    · rintro a b hmove ⟨hk, ht, ho⟩
      exact ⟨kept_move hev hmove hk, terms_move hev hk hmove ht, outboxShaped_move hk ht hmove ho⟩
  exact ⟨⟨hinv.1, hinv.2.1⟩, hinv.2.2⟩

def FairInput : Input → Prop
  | .deliver p => Fair (eventOf p)
  | .client ev => Fair ev
  | .compact _ _ => True

theorem sane_respond (h : Sane M c) {input : Input} (hin : FairInput input)
    (hlog : withinLog c input) :
    Sane M (respond c input).1 ∧ OutboxShaped (respond c input).1 := by
  have hq := sane_takeQueues h
  have hreact : ∀ ev replies, Fair ev →
      Sane M (react c ev replies).1 ∧ OutboxShaped (react c ev replies).1 := by
    intro ev replies hev
    rw [react_fst]
    exact sane_handle hq hev rfl
  cases input with
  | deliver p => exact hreact _ _ hin
  | client ev => exact hreact _ _ hin
  | compact index data =>
      refine ⟨⟨kept_compact hq.kept index data,
        terms_compact hq.terms hq.kept.saved.numbered (of_decide_eq_true hlog) data⟩, ?_⟩
      have hout : (compact (takeQueues c) index data).1.outbox = [] := by
        rcases compact_cases (takeQueues c) index data with heq | ⟨-, -, heq⟩ <;> rw [heq] <;>
          rfl
      intro o ho
      change o ∈ (compact (takeQueues c) index data).1.outbox at ho
      rw [hout] at ho
      exact absurd ho List.not_mem_nil

theorem sane_bootCore (h : Sane M c) (cfg : Config) (rng : Nat → Nat) {entries : List Entry}
    (hlog : replayRecords (loadRaftSnapshot c.disk).lastIndex (trimmed c.disk).log = .ok entries) :
    Sane M (bootCore cfg rng (trimmed c.disk) M entries) := by
  have hd : Durable M (bootCore cfg rng (trimmed c.disk) M entries) := durable_bootCore hlog
  have hterm : (bootCore cfg rng (trimmed c.disk) M entries).term = c.term :=
    congrArg Prod.fst h.kept.saved.state
  have hrecords : ∀ e ∈ (trimmed c.disk).log, e.term ≠ 0 ∧ e.term ≤ c.term :=
    fun e he => h.terms.records e (mem_of_mem_intact he)
  have hold : ∀ e ∈ entries, e.term ≠ 0 ∧ e.term ≤ c.term :=
    fun e he => hrecords e (mem_of_replay hlog he)
  refine ⟨⟨hd.saved, hd.cursors, le_rfl, ?_⟩, ?_⟩
  · rw [lastLogIndex_eq hd.saved.numbered]
    exact Nat.le_add_right _ _
  · exact
      { nonzero := fun e he => (hold e he).1
        snap_nonzero := fun hpos => by
          have hsnap := h.terms.snap_nonzero
          rw [← h.kept.saved.snapIndex, ← h.kept.saved.snapTerm] at hsnap
          exact hsnap hpos
        le := by
          rw [hterm]
          intro t ht
          rcases List.mem_cons.mp ht with rfl | ht
          · exact h.kept.saved.snapTerm.trans_le (h.terms.le _ List.mem_cons_self)
          · obtain ⟨e, he, rfl⟩ := List.mem_map.mp ht
            exact (hold e he).2
        records := by
          rw [hterm]
          exact hrecords
        active := fun hne => absurd rfl hne
        candidate := fun hc => by cases hc
        leader := fun hl => by cases hl }

theorem sane_blank (cfg : Config) (rng : Nat → Nat) : Sane M (bootCore cfg rng blank M []) := by
  have hd : Durable M (bootCore cfg rng blank M []) := durable_bootCore rfl
  refine ⟨⟨hd.saved, hd.cursors, le_rfl, le_rfl⟩, ?_⟩
  exact
    { nonzero := fun e he => absurd he List.not_mem_nil
      snap_nonzero := fun h => absurd h (lt_irrefl 0)
      le := fun t ht => (List.mem_singleton.mp ht).le
      records := fun e he => absurd he List.not_mem_nil
      active := fun h => absurd rfl h
      candidate := fun h => by cases h
      leader := fun h => by cases h }

/-- A running node is sane; one that is down has the files of a sane core. -/
def SaneLife (M : Members) : Life Core Disk → Prop
  | .up c => Sane M c
  | .down d => ∃ c, Sane M c ∧ c.disk = d

theorem fairInput_of_enabled {x : Input}
    (hnet : ∀ p ∈ s.net, ∀ msg, p.payload = .request msg → Shaped msg)
    (hx : Enabled (coreSystem D) s i x) : FairInput x := by
  rcases hx with hlocal | ⟨p, hp, -, rfl⟩
  · cases x with
    | deliver p => trivial
    | compact index data => trivial
    | client ev =>
        cases ev with
        | propose command typ =>
            rintro rfl
            cases hlocal
        | appendEntries | installSnapshot => cases hlocal
        | _ => trivial
  · obtain ⟨src, dest, payload⟩ := p
    cases payload with
    | request msg =>
        have hmsg := hnet _ hp msg rfl
        cases msg with
        | appendEntries | installSnapshot => exact hmsg
        | _ => trivial
    | _ => trivial

structure SaneState (D : Deployment) (s : CoreState) : Prop where
  nodes : ∀ i, SaneLife (D.tables i) (s.node i)
  net : ∀ p ∈ s.net, ∀ msg, p.payload = .request msg → Shaped msg

theorem saneState_set (h : SaneState D s) {life : Life Core Disk}
    (hl : SaneLife (D.tables i) life) : SaneState D (s.set i life) := by
  refine ⟨fun j => ?_, h.net⟩
  change SaneLife (D.tables j) (Function.update s.node i life j)
  by_cases hj : j = i
  · subst hj
    rwa [Function.update_self]
  · rw [Function.update_of_ne hj]
    exact h.nodes j

theorem saneState_call (h : SaneState D s) {x : Input} (hup : s.node i = .up c)
    (hx : Enabled (coreSystem D) s i x) (hlog : withinLog c x) :
    SaneState D ((coreSystem D).call s i c x) := by
  have hc : Sane (D.tables i) c := by
    have := h.nodes i
    rwa [hup] at this
  obtain ⟨hsane, hout⟩ := sane_respond hc (fairInput_of_enabled h.net hx) hlog
  constructor
  · intro j
    change SaneLife (D.tables j) (Function.update s.node i _ j)
    by_cases hj : j = i
    · subst hj
      rw [Function.update_self]
      split
      · exact ⟨_, hsane, rfl⟩
      · exact hsane
    · rw [Function.update_of_ne hj]
      exact h.nodes j
  · intro p hp msg hmsg
    rcases List.mem_append.mp hp with hp | hp
    · exact h.net p hp msg hmsg
    · rcases mem_respond hp with hp | ⟨q, answer, -, -, hp⟩
      · obtain ⟨o, ho, rfl⟩ := List.mem_map.mp hp
        cases hmsg
        exact hout o ho
      · unfold reply at hp
        split at hp
        all_goals first
          | exact absurd hp List.not_mem_nil
          | rw [List.mem_singleton.mp hp] at hmsg; cases hmsg

theorem saneState_of_reachable (hs : Reachable (coreSystem D) s)
    (hlog : ∀ k ∈ s.trace, withinLog k.pre k.input) :
    SaneState D s := by
  revert hlog
  refine reachable_induction
    (Q := fun s => (∀ k ∈ s.trace, withinLog k.pre k.input) → SaneState D s)
    ?_ ?_ ?_ ?_ hs
  · intro _
    exact ⟨fun i => ⟨_, sane_blank (D.cfg i) id, rfl⟩, fun p hp => absurd hp List.not_mem_nil⟩
  · intro s i c x _ ih hup hx hlog
    exact saneState_call (ih fun k hk => hlog k (List.mem_append_left _ hk)) hup hx
      (hlog _ List.mem_concat_self)
  · intro s i c _ ih hup hlog
    have h := ih hlog
    have hc := h.nodes i
    rw [hup] at hc
    exact saneState_set h ⟨c, hc, rfl⟩
  · intro s i rng d c _ ih hdown hboot hlog
    have h := ih hlog
    have hd := h.nodes i
    rw [hdown] at hd
    obtain ⟨c₀, hsane, rfl⟩ := hd
    obtain ⟨hid, M, entries, hM, hopen, rfl⟩ := newCore_cases (newCore_of_boot hboot)
    obtain rfl : M = D.tables i := by
      have hzero : i ≠ 0 := fun h0 => hid ((D.cfg_id i).trans h0)
      rw [D.cfg_tables i hzero] at hM
      exact (Except.ok.inj hM).symm
    exact saneState_set h (sane_bootCore hsane _ _ hopen)

theorem sane_of_up (hs : Reachable (coreSystem D) s) (hlog : ∀ k ∈ s.trace, withinLog k.pre k.input)
    (hup : s.node i = .up c) : Sane (D.tables i) c := by
  have := (saneState_of_reachable hs hlog).nodes i
  rwa [hup] at this

end Runs

end RaftKV.Raft.Shapes
