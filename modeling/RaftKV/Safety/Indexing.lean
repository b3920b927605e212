import RaftKV.Raft.Bounds
import RaftKV.Safety.Followers

namespace RaftKV.Safety.Indexing

open Consensus.Completeness
open Distributed.Network
open Raft Raft.Cluster Raft.Shapes Raft.Bounds
open Safety.Elections Safety.FixedMembership Safety.Followers

variable {D : Deployment} {s : CoreState} {i : ID} {c : Core}

/-- A log in one piece with terms that rise up to the core's, and cursors that point into
it. -/
structure Indexed (c : Core) : Prop where
  numbered : Numbered c.snapIndex c.entries
  terms : c.entries.Pairwise fun e f => e.term ≤ f.term
  term_le : ∀ e ∈ c.entries, e.term ≤ c.term
  snap_le : c.snapIndex ≤ c.lastDelivered
  delivered_le : c.lastDelivered ≤ lastLogIndex c
  commit_le : c.commitIndex ≤ lastLogIndex c

theorem indexed_of_up (hs : Reachable (coreSystem D) s) (hreg : Regular D s)
    (hup : s.node i = .up c) : Indexed c := by
  obtain ⟨g, hrel⟩ := exists_protocol hs hreg
  obtain ⟨hnode, -⟩ := hrel.world.live i c hup
  have hdelivered : c.lastDelivered ≤ lastLogIndex c := by
    rw [hnode.mirror.lastLogIndex]
    exact hnode.delivered.1
  have hinv := hrel.world.sound.inv
  exact
    { numbered := hnode.mirror.numbered_entries
      terms := by
        rw [hnode.mirror.entries]
        exact (sorted_of_matched hinv (hinv.log_matched i)).sublist (List.drop_sublist _ _)
      term_le := by
        intro e he
        rw [hnode.mirror.entries] at he
        rw [← hnode.term]
        exact hinv.log_le i e (List.mem_of_mem_drop he)
      snap_le := hnode.cursors.snap_le
      delivered_le := hdelivered
      commit_le := hnode.commit_le.trans hdelivered }

/-- With one membership and readable commands the log of every core is in order in every
state, and every call stays within the bounds of the log. -/
theorem log_indexing_in_bounds (hs : Reachable (coreSystem D) s) (hfix : FixedMembership D s)
    (hbound : Bounded s) :
    (∀ i c, s.node i = .up c → Indexed c) ∧
      ∀ k ∈ s.trace, respondWithin k.pre k.input = some (respond k.pre k.input) := by
  have hreg : Regular D s := ⟨hfix, hbound⟩
  refine ⟨fun i c hup => indexed_of_up hs hreg hup, fun k hk => ?_⟩
  have hlog := withinLog_of_regular hs hreg
  obtain ⟨n, hn⟩ := List.mem_iff_getElem?.mp hk
  obtain ⟨s₀, hmade, htrace⟩ := exists_madeIn hs hn
  have hlog₀ : ∀ j ∈ s₀.trace, withinLog j.pre j.input := by
    rw [htrace]
    exact fun j hj => hlog j (List.mem_of_mem_take hj)
  exact respondWithin_eq (sane_of_up hmade.reachable hlog₀ hmade.up).kept
    (fairInput_of_madeIn hmade hlog₀) (hlog k hk)

theorem log_indexing_in_bounds_handover : ∃ s, Reachable (coreSystem trio) s ∧
    FixedMembership trio s ∧ Bounded s ∧ (∃ c, s.node 2 = .up c ∧ c.snapIndex = 1 ∧ Indexed c) ∧
      ∀ k ∈ s.trace, respondWithin k.pre k.input = some (respond k.pre k.input) := by
  obtain ⟨s, hs, hsame, hbound, c, hc, hsnap⟩ :=
    exists_of_run (coreSystem trio) handover (fun s => Unchanging s ∧ Bounded s ∧
      ∃ c ∈ core? s 2, c.snapIndex = 1) (by decide +kernel)
  have hfix : FixedMembership trio s := ⟨uniform_trio, hsame⟩
  have hbounds := log_indexing_in_bounds hs hfix hbound
  have hup := node_of_core? hc
  exact ⟨s, hs, hfix, hbound, ⟨c, hup, hsnap, hbounds.1 2 c hup⟩, hbounds.2⟩

/-- Nodes 1 and 2 commit six entries, of which the fourth is too long to be replayed. Node 2
has delivered five of them when a request that is full after two entries takes its commit
index back to 2. Node 1 restarts with the first three entries, leads term 3 with the vote of
node 3, and its no-op replaces what node 2 has from index 4 on. Node 2 then compacts through
index 5. -/
def shortened : List (Action ID Input (Nat → Nat)) :=
  [.restart 1 fun _ => 0, .restart 2 fun _ => 0, .restart 3 fun _ => 0, .act 1 (.client .tick),
    .deliver 0, .deliver 2, .act 1 (.client (.propose (zeros maxAppendBytes) .normal)),
    .crash 1, .restart 1 fun _ => 0, .act 1 (.client .tick), .deliver 7, .deliver 9, .deliver 10,
    .deliver 12, .deliver 13, .act 1 (.client (.propose oversize .normal)),
    .act 1 (.client (.propose noBytes .normal)), .deliver 14, .deliver 19, .deliver 20,
    .deliver 21, .act 1 (.client (.propose noBytes .normal)), .deliver 22, .deliver 25,
    .deliver 26, .deliver 12, .deliver 27, .crash 1, .restart 1 fun _ => 0,
    .act 1 (.client .tick), .deliver 30, .deliver 31, .deliver 32, .act 2 (.compact 5 [])]

/-- With a command that is not replayed the log ends before what was delivered, and a
compaction takes a slice beyond it. -/
theorem log_indexing_in_bounds_oversize : ∃ s, Reachable (coreSystem trio) s ∧
    FixedMembership trio s ∧ ∃ k ∈ s.trace, lastLogIndex k.pre < k.pre.lastDelivered ∧
      ¬ Indexed k.pre ∧ respondWithin k.pre k.input = none := by
  obtain ⟨s, hs, hsame, k, hk, hlt, hnone⟩ :=
    exists_of_run (coreSystem trio) shortened (fun s => Unchanging s ∧
      ∃ k ∈ s.trace, lastLogIndex k.pre < k.pre.lastDelivered ∧
        (respondWithin k.pre k.input).isNone = true) (by decide +kernel)
  exact ⟨s, hs, ⟨uniform_trio, hsame⟩, k, hk, hlt, fun h => absurd hlt h.delivered_le.not_gt,
    Option.isNone_iff_eq_none.mp hnone⟩

end RaftKV.Safety.Indexing
