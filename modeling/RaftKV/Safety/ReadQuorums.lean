import RaftKV.Raft.Provenance
import RaftKV.Safety.MembershipChanges

namespace RaftKV.Safety.ReadQuorums

open Distributed.Network
open Raft Raft.Cluster Raft.Barriers Raft.Provenance
open Refinement.Relation Refinement.Sending
open Safety.MembershipChanges

variable {D : Deployment} {s : CoreState} {c : Core}

/-- A majority of the configuration of `c` satisfies `P`. The node itself need not,
but it counts only as a member. -/
def Backed (c : Core) (P : ID → Prop) : Prop :=
  ∃ Q ⊆ voters c.members, majority c ≤ Q.card ∧ ∀ x ∈ Q, x = c.cfg.id ∨ P x

theorem backed_of_advances {n : Nat} (h : Advances c n) :
    Backed c fun x => n ≤ matchIndexOf c x :=
  ⟨ackers c n, Finset.filter_subset _ _, h.votes.trans (card_ackers c n).ge,
    fun _ hx => (Finset.mem_filter.mp hx).2⟩

theorem commitIndex_maybeAdvanceCommit (c : Core) :
    (maybeAdvanceCommit c).commitIndex = c.commitIndex ∨
      Advances c (maybeAdvanceCommit c).commitIndex := by
  rcases maybeAdvanceCommit_cases c with heq | ⟨n, hn, heq⟩
  · rw [heq]
    exact Or.inl rfl
  · obtain ⟨c', hq, hdel⟩ := deliverCommitted_cases { c with commitIndex := n }
    have hcommit : (maybeAdvanceCommit c).commitIndex = n := by
      rw [heq, hdel]
      cases hq <;> rfl
    rw [hcommit]
    exact Or.inr hn

/-- Whether everybody counts as a member whom the call counts for a read: those
counted before, the sender of an acknowledgement, and a leader that is asked for a
read. -/
def countsMembers (k : CoreCall) : Bool :=
  match k.input with
  | .deliver ⟨src, _, .appendResp _ _⟩ =>
      ∀ r ∈ k.pre.pendingReads, insert src r.acks ⊆ voters k.pre.members
  | .client .read =>
      k.pre.role = .leader → isMember k.pre ∧
        ∀ r ∈ k.pre.pendingReads, r.acks ⊆ voters k.pre.members
  | _ => true

theorem subset_of_countsMembers {k : CoreCall} (hguard : countsMembers k = true)
    (hcounts : countsReads k.input = true) (hrole : k.pre.role = .leader) {r : PendingRead}
    (hr : Tallied k.pre k.input r) : r.acks ⊆ voters k.pre.members := by
  obtain ⟨node, input, pre, post, sent⟩ := k
  dsimp only at hcounts hrole hr ⊢
  match input with
  | .deliver ⟨src, dest, .appendResp req resp⟩ =>
      have hmem : ∀ r ∈ pre.pendingReads, insert src r.acks ⊆ voters pre.members :=
        of_decide_eq_true hguard
      cases hr with
      | kept h => exact (Finset.subset_insert _ _).trans (hmem r h)
      | acked h hx =>
          cases hx
          exact hmem _ h
      | registered hx => cases hx
  | .client .read =>
      obtain ⟨hself, hmem⟩ := (of_decide_eq_true hguard : pre.role = .leader → _) hrole
      cases hr with
      | kept h => exact hmem r h
      | registered =>
          refine Finset.singleton_subset_iff.mpr (mem_voters.mpr ?_)
          rw [isMember, Std.ExtTreeMap.contains_iff_mem] at hself
          exact hself
      | acked h hx => cases hx

/-- A read that a call confirms, while nobody but members is counted, was registered
by an earlier call of the leader, and a majority of the members of its configuration
accepted what it sent from then on. This is how commits are counted. -/
theorem read_quorums (hs : Reachable (coreSystem D) s) {n : Nat} {k : CoreCall}
    (hk : s.trace[n]? = some k) (hguard : countsMembers k = true) :
    (∀ o ∈ k.post.readOutcomes, o.confirmed = true →
      ∃ m k₀, m ≤ n ∧ s.trace[m]? = some k₀ ∧ k₀.node = k.node ∧ Registers k₀ o.id o.index ∧
        (∀ n' k', m < n' → n' ≤ n → s.trace[n']? = some k' → k'.node = k.node →
          ∀ index, ¬ Registers k' o.id index) ∧
        Backed k.pre fun x => ∃ req, AckedSince (s.trace.take (n + 1)) m k.node x req) ∧
    ∀ c, (maybeAdvanceCommit c).commitIndex = c.commitIndex ∨
      Backed c fun x => (maybeAdvanceCommit c).commitIndex ≤ matchIndexOf c x := by
  refine ⟨?_, fun c => (commitIndex_maybeAdvanceCommit c).imp_right backed_of_advances⟩
  intro o ho hconf
  obtain ⟨hcounts, hrole, r, m, htally, hid, hindex, hmaj, hb⟩ := exists_barrier hs hk ho hconf
  obtain ⟨k₀, hk₀, hnode, hreg, -⟩ := hb.call
  have hm : m < n + 1 := by
    have := (List.getElem?_eq_some_iff.mp hk₀).1
    rw [List.length_take] at this
    omega
  refine ⟨m, k₀, Nat.le_of_lt_succ hm, getElem?_of_take hk₀, hnode, ?_, ?_, ?_⟩
  · rw [hid, hindex]
    exact hreg
  · intro n' k' hlt hle hk' hnode'
    rw [hid]
    refine hb.last n' k' hlt ?_ hnode'
    rw [List.getElem?_take, if_pos (Nat.lt_succ_of_le hle)]
    exact hk'
  · refine ⟨r.acks, subset_of_countsMembers hguard hcounts hrole htally, hmaj, ?_⟩
    obtain ⟨s₀, hmade, -⟩ := exists_madeIn hs hk
    rw [cfg_id hmade.reachable hmade.up]
    intro x hx
    exact (hb.acks x hx).imp_right fun ⟨req, _, hack⟩ => ⟨req, hack⟩

/-- Node 1 leads, adds node 4 and is asked for a read, which nodes 2 and 3 confirm. -/
def readAfterAddition : List (Action ID Input (Nat → Nat)) :=
  [.restart 1 fun _ => 0, .restart 2 fun _ => 0, .restart 3 fun _ => 0,
    .act 1 (.client .tick), .deliver 0, .deliver 2, .deliver 3, .deliver 5, .act 1 (add 4),
    .act 1 (.client .read), .deliver 8, .deliver 9, .deliver 11, .deliver 12]

theorem read_quorums_addition : ∃ s, Reachable (coreSystem trio) s ∧
    ∃ n k, s.trace[n]? = some k ∧ countsMembers k = true ∧ k.pre.members.size = 4 ∧
      ∃ o ∈ k.post.readOutcomes, o.confirmed = true ∧
        ∃ m, Backed k.pre fun x => ∃ req, AckedSince (s.trace.take (n + 1)) m k.node x req := by
  obtain ⟨s, hs, k, hk, hguard, hsize, o, ho, hconf⟩ :=
    exists_of_run (coreSystem trio) readAfterAddition (fun s =>
      ∃ k ∈ s.trace, countsMembers k = true ∧ k.pre.members.size = 4 ∧
        ∃ o ∈ k.post.readOutcomes, o.confirmed = true) (by decide +kernel)
  obtain ⟨n, hn⟩ := List.mem_iff_getElem?.mp hk
  obtain ⟨m, k₀, -, -, -, -, -, hback⟩ := (read_quorums hs hn hguard).1 o ho hconf
  exact ⟨s, hs, n, k, hn, hguard, hsize, o, ho, hconf, m, hback⟩

/-- Node 1 leads three nodes, is asked for its own removal and then for a read, and
hears from node 2. -/
def readAfterRemoval : List (Action ID Input (Nat → Nat)) :=
  [.restart 1 fun _ => 0, .restart 2 fun _ => 0, .restart 3 fun _ => 0,
    .act 1 (.client .tick), .deliver 0, .deliver 2, .deliver 3, .deliver 5, .act 1 (remove 1),
    .act 1 (.client .read), .deliver 8, .deliver 10]

/-- Whoever has answered an append request of node `i`. -/
def ackersOf (calls : List CoreCall) (i : ID) : List ID :=
  calls.flatMap fun k =>
    match k.input with
    | .deliver ⟨src, _, .appendResp _ _⟩ => if k.node = i then [src] else []
    | _ => []

theorem mem_ackersOf {calls : List CoreCall} {n : Nat} {i x : ID} {req : AppendEntriesRequest}
    (h : AnsweredAt calls n i x req) : x ∈ ackersOf calls i := by
  obtain ⟨k, resp, hk, hnode, hin, -⟩ := h
  refine List.mem_flatMap.mpr ⟨k, List.mem_of_getElem? hk, ?_⟩
  rw [hin]
  dsimp only
  rw [if_pos hnode]
  exact List.mem_singleton.mpr rfl

/-- The read is confirmed although only one member of two has acknowledged anything. -/
theorem removed_leader_counts_itself : ∃ s, Reachable (coreSystem trio) s ∧
    ∃ n k, s.trace[n]? = some k ∧ k.pre.role = .leader ∧
      ∃ o ∈ k.post.readOutcomes, o.confirmed = true ∧
        ∀ m, ¬ Backed k.pre fun x =>
          ∃ req, AckedSince (s.trace.take (n + 1)) m k.node x req := by
  obtain ⟨s, hs, k, hk, hrole, ⟨hackers, hself, hmaj⟩, o, ho, hconf⟩ :=
    exists_of_run (coreSystem trio) readAfterRemoval (fun s =>
      ∃ k ∈ s.trace, k.pre.role = .leader ∧ ((ackersOf s.trace k.node).all (· = 2) = true ∧
        k.pre.cfg.id ∉ voters k.pre.members ∧ majority k.pre = 2) ∧
        ∃ o ∈ k.post.readOutcomes, o.confirmed = true) (by decide +kernel)
  obtain ⟨n, hn⟩ := List.mem_iff_getElem?.mp hk
  refine ⟨s, hs, n, k, hn, hrole, o, ho, hconf, ?_⟩
  rintro m ⟨Q, hsub, hcard, hQ⟩
  have htwo : Q ⊆ {2} := by
    intro x hx
    rcases hQ x hx with rfl | ⟨req, -, -, n'', -, -, -, -, -, k', resp, hk', hans⟩
    · exact absurd (hsub hx) hself
    · exact Finset.mem_singleton.mpr (of_decide_eq_true (List.all_eq_true.mp hackers x
        (mem_ackersOf ⟨k', resp, getElem?_of_take hk', hans⟩)))
  have := Finset.card_le_card htwo
  rw [Finset.card_singleton] at this
  omega

end RaftKV.Safety.ReadQuorums
