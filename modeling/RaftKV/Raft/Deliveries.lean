import RaftKV.Raft.Shapes

namespace RaftKV.Raft.Deliveries

open Raft.Durability Raft.Moves Raft.Cluster Raft.Shapes

variable {M : Members} {ev : Event} {a b c c' : Core}

theorem map_index {base : Nat} {es : List Entry} (h : Numbered base es) :
    es.map Entry.index = List.range' (base + 1) es.length := by
  refine List.ext_getElem (by simp) ?_
  intro k hk _
  rw [List.length_map] at hk
  have := h k es[k] (List.getElem?_eq_getElem hk)
  rw [List.getElem_map, List.getElem_range']
  omega

theorem map_index_queue (hk : Contiguous c) (hle : c.snapIndex ≤ c.lastDelivered)
    (hlast : c.commitIndex ≤ lastLogIndex c) :
    (queue c).map Entry.index =
      List.range' (c.lastDelivered + 1) (c.commitIndex - c.lastDelivered) := by
  rw [lastLogIndex_eq hk] at hlast
  rw [queue_eq hk hle, map_index (numbered_take (numbered_drop hk _) _), List.length_take,
    List.length_drop]
  congr 1 <;> omega

/-- Since `c`, exactly the entries between the cursors have been delivered, in order. -/
structure Delivers (c c' : Core) : Prop where
  le : c.lastDelivered ≤ c'.lastDelivered
  indices : c'.committed.map Entry.index =
    List.range' (c.lastDelivered + 1) (c'.lastDelivered - c.lastDelivered)
  restore : c'.pendingRestore = none

theorem delivers_of_eq (h : Delivers c a) (hd : b.lastDelivered = a.lastDelivered)
    (hc : b.committed = a.committed) (hr : b.pendingRestore = a.pendingRestore) :
    Delivers c b where
  le := hd ▸ h.le
  indices := by
    rw [hc, hd]
    exact h.indices
  restore := hr.trans h.restore

theorem delivers_deliverCommitted (h : Delivers c a) (hk : Contiguous a)
    (hle : a.snapIndex ≤ a.lastDelivered) (hlast : a.commitIndex ≤ lastLogIndex a) :
    Delivers c (deliverCommitted a) := by
  obtain ⟨a', hq, heq⟩ := deliverCommitted_cases a
  have hcommitted : a'.committed = a.committed ++ queue a := by
    cases hq <;> rfl
  have hrestore : a'.pendingRestore = a.pendingRestore := by
    cases hq <;> rfl
  have hto := deliveredTo_eq hk hle hlast
  have hfrom := h.le
  rw [heq]
  refine ⟨?_, ?_, hrestore.trans h.restore⟩
  · change c.lastDelivered ≤ deliveredTo a
    omega
  · change a'.committed.map Entry.index =
      List.range' (c.lastDelivered + 1) (deliveredTo a - c.lastDelivered)
    rw [hcommitted, List.map_append, h.indices, map_index_queue hk hle hlast, hto]
    have hstart : a.lastDelivered + 1 =
        c.lastDelivered + 1 + (a.lastDelivered - c.lastDelivered) := by
      omega
    rw [hstart, List.range'_append_1]
    congr 1
    omega

theorem delivers_move (hev : ∀ req, ev ≠ .installSnapshot req) (hfair : Fair ev) (hk : Kept M a)
    (hmove : Move ev a b) (h : Delivers c a) : Delivers c b := by
  cases hmove with
  | advance n hrole hn =>
      exact delivers_deliverCommitted (a := { a with commitIndex := n })
        (delivers_of_eq h rfl rfl rfl) hk.saved.numbered hk.cursors.snap_le hn.le
  | follow req hreq hterm hrole hreach =>
      subst hreq
      have hlast := hreach hfair.1.numbered
      exact delivers_deliverCommitted
        (a := { a with commitIndex := min req.leaderCommit _ }) (delivers_of_eq h rfl rfl rfl)
        hk.saved.numbered hk.cursors.snap_le ((min_le_right _ _).trans hlast)
  | accept req hreq hterm hrole hacc =>
      rw [appendNew_eq]
      exact delivers_of_eq h rfl rfl rfl
  | install req config hreq => exact absurd hreq (hev req)
  | drift | ask | send | ack | stepDown | recognize | grant | campaign | win | own | fire
  | change | count | note | retry | read =>
      exact delivers_of_eq h rfl rfl rfl

theorem delivers_takeQueues (c : Core) : Delivers c (takeQueues c) where
  le := le_rfl
  indices := by
    change [] = List.range' _ (c.lastDelivered - c.lastDelivered)
    rw [Nat.sub_self]
    rfl
  restore := rfl

theorem delivers_handle (hev : ∀ req, ev ≠ .installSnapshot req) (hfair : Fair ev)
    (hk : Kept M c) : Delivers c (handle (takeQueues c) ev).1 := by
  refine (moves_induction (c := takeQueues c) (Q := fun a => Kept M a ∧ Delivers c a)
    (moves_taken ev) ⟨kept_of_sameLog hk rfl rfl rfl, delivers_takeQueues c⟩ ?_).2
  rintro a b hmove ⟨hka, ha⟩
  exact ⟨kept_move hfair hmove hka, delivers_move hev hfair hka hmove ha⟩

/-- The snapshot of `req` has taken the place of the log, and nothing is delivered. -/
structure Installs (c : Core) (req : InstallSnapshotRequest) (c' : Core) : Prop where
  commit : c.commitIndex < req.lastIncludedIndex
  snapIndex : c'.snapIndex = req.lastIncludedIndex
  delivered : c'.lastDelivered = max c.lastDelivered req.lastIncludedIndex
  committed : c'.committed = []
  restore : c'.pendingRestore = copyBytes req.data

theorem handleInstallSnapshot_cases (c : Core) (req : InstallSnapshotRequest) :
    Delivers c (handleInstallSnapshot (takeQueues c) req).1 ∨
      c.term ≤ req.term ∧ c.snapIndex < req.lastIncludedIndex ∧
        Installs c req (handleInstallSnapshot (takeQueues c) req).1 := by
  have hadopt : Delivers c (adoptTerm (takeQueues c) req.term) := by
    unfold adoptTerm
    split
    · exact delivers_of_eq (delivers_takeQueues c) rfl rfl rfl
    · exact delivers_takeQueues c
  have hcursors : (adoptTerm (takeQueues c) req.term).snapIndex = c.snapIndex ∧
      (adoptTerm (takeQueues c) req.term).commitIndex = c.commitIndex ∧
      (adoptTerm (takeQueues c) req.term).lastDelivered = c.lastDelivered ∧
      (adoptTerm (takeQueues c) req.term).committed = [] := by
    unfold adoptTerm
    split <;> exact ⟨rfl, rfl, rfl, rfl⟩
  obtain ⟨hsnap, hcommit, hdelivered, hnone⟩ := hcursors
  unfold handleInstallSnapshot
  dsimp only
  split
  · exact Or.inl hadopt
  · rename_i hterm
    split
    · exact Or.inl (delivers_of_eq hadopt rfl rfl rfl)
    · rename_i hnew
      obtain ⟨hnew, hnew'⟩ := not_or.mp hnew
      split
      · exact Or.inl (delivers_of_eq hadopt rfl rfl rfl)
      · refine Or.inr ⟨@le_of_adoptTerm (takeQueues c) _ hterm, hsnap ▸ Nat.lt_of_not_le hnew,
          hcommit ▸ Nat.lt_of_not_le hnew', rfl, ?_, hnone, rfl⟩
        change max (adoptTerm (takeQueues c) req.term).lastDelivered _ = _
        rw [hdelivered]

theorem index_le_of_mem_queue (hk : Contiguous c)
    (hle : c.snapIndex ≤ c.lastDelivered) (hlast : c.commitIndex ≤ lastLogIndex c) {e : Entry}
    (he : e ∈ queue c) : e.index ≤ c.commitIndex := by
  have hmem := List.mem_map_of_mem (f := Entry.index) he
  rw [map_index_queue hk hle hlast, List.mem_range'_1] at hmem
  omega

/-- What is delivered is committed. -/
def Covered (c : Core) : Prop :=
  ∀ e ∈ c.committed, e.index ≤ c.commitIndex

theorem covered_of_eq (h : Covered a) (hc : b.committed = a.committed)
    (hi : b.commitIndex = a.commitIndex) : Covered b := by
  unfold Covered
  rw [hc, hi]
  exact h

theorem covered_deliverCommitted {n : Nat} (hk : Kept M a) (hlast : n ≤ lastLogIndex a)
    (h : ∀ e ∈ a.committed, e.index ≤ n) :
    Covered (deliverCommitted { a with commitIndex := n }) := by
  intro e he
  rw [commitIndex_deliverCommitted]
  obtain ⟨a', hq, heq⟩ := deliverCommitted_cases { a with commitIndex := n }
  have hcommitted : a'.committed = a.committed ++ queue { a with commitIndex := n } := by
    cases hq <;> rfl
  rw [heq] at he
  change e ∈ a'.committed at he
  rw [hcommitted] at he
  rcases List.mem_append.mp he with he | he
  · exact h e he
  · exact index_le_of_mem_queue (c := { a with commitIndex := n }) hk.saved.numbered
      hk.cursors.snap_le hlast he

theorem covered_move (hev : ∀ req, ev ≠ .appendEntries req) (hk : Kept M a) (hmove : Move ev a b)
    (h : Covered a) : Covered b := by
  cases hmove with
  | advance n hrole hn =>
      exact covered_deliverCommitted hk hn.le fun e he => (h e he).trans hn.lt.le
  | follow req hreq => exact absurd hreq (hev req)
  | accept req hreq => exact absurd hreq (hev req)
  | install req config => exact fun e he => (h e he).trans (le_max_left _ _)
  | drift | ask | send | ack | stepDown | recognize | grant | campaign | win | own | fire
  | change | count | note | retry | read =>
      exact covered_of_eq h rfl rfl

theorem covered_handleAppendEntries (hk : Kept M c) {req : AppendEntriesRequest}
    (hfair : Fair (.appendEntries req)) (hc : c.committed = []) :
    Covered (handleAppendEntries c req).1 := by
  have hempty : ∀ a : Core, a.committed = [] → Covered a := by
    intro a ha e he
    rw [ha] at he
    exact absurd he List.not_mem_nil
  have hadopt : (adoptTerm c req.term).committed = [] := by
    unfold adoptTerm
    split <;> exact hc
  have hkept : Kept M (recognizeLeader (adoptTerm c req.term) req.leaderId) :=
    kept_of_sameLog (kept_adoptTerm hk req.term) rfl rfl rfl
  rcases handleAppendEntries_cases c req with
    ⟨resp, heq, -⟩ | ⟨resp, heq, -⟩ | ⟨hterm, hacc, ⟨c', err, hnew, heq⟩ | ⟨c', resp, hnew, heq, -⟩⟩
  · rw [heq]
    exact hempty _ hadopt
  · rw [heq]
    exact hempty _ hadopt
  all_goals
    have hsame := appendNew_eq (recognizeLeader (adoptTerm c req.term) req.leaderId) req.entries
    rw [hnew] at hsame
    have hnone : c'.committed = [] := (congrArg Core.committed hsame).trans hadopt
    rw [heq]
  · exact hempty _ hnone
  · have hmove :
        Move (.appendEntries req) (recognizeLeader (adoptTerm c req.term) req.leaderId) _ :=
      .accept req rfl (term_adoptTerm hterm) rfl hacc
    have hkept' := kept_move hfair hmove hkept
    rw [hnew] at hkept'
    unfold followCommit
    dsimp only
    split
    · refine covered_deliverCommitted hkept' ?_ fun e he => absurd (hnone ▸ he) List.not_mem_nil
      exact (min_le_right _ _).trans (le_lastLogIndex_of_appendNew hfair.1.numbered hacc hnew)
    · exact hempty _ hnone

theorem covered_handle (hfair : Fair ev) (hk : Kept M c) :
    Covered (handle (takeQueues c) ev).1 := by
  have hk' : Kept M (takeQueues c) := kept_of_sameLog hk rfl rfl rfl
  by_cases hev : ∀ req, ev ≠ .appendEntries req
  · refine (moves_induction (c := takeQueues c) (Q := fun a => Kept M a ∧ Covered a)
      (moves_taken ev) ⟨hk', fun e he => absurd he List.not_mem_nil⟩ ?_).2
    rintro a b hmove ⟨hka, ha⟩
    exact ⟨kept_move hfair hmove hka, covered_move hev hka hmove ha⟩
  · obtain ⟨req, hreq⟩ := not_forall.mp hev
    obtain rfl := not_not.mp hreq
    exact covered_handleAppendEntries hk' hfair rfl

theorem covered_respond {x : Input} (hfair : FairInput x) (hk : Kept M c) :
    Covered (respond c x).1 := by
  cases x with
  | deliver p =>
      change Covered (react c _ _).1
      rw [react_fst]
      exact covered_handle hfair hk
  | client ev =>
      change Covered (react c _ _).1
      rw [react_fst]
      exact covered_handle hfair hk
  | compact index data =>
      have hnone : (compact (takeQueues c) index data).1.committed = [] := by
        rcases compact_cases (takeQueues c) index data with heq | ⟨-, -, heq⟩ <;> rw [heq] <;> rfl
      intro e he
      change e ∈ (compact (takeQueues c) index data).1.committed at he
      rw [hnone] at he
      exact absurd he List.not_mem_nil

end RaftKV.Raft.Deliveries
