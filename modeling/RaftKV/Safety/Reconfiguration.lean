import RaftKV.Safety.MembershipChanges
import RaftKV.Safety.Pasts

namespace RaftKV.Safety.Reconfiguration

open Consensus.Commitment
open Distributed.Network
open Raft Raft.Cluster
open Raft.Histories
open Refinement.Relation Refinement.Runs
open Safety.FixedMembership Safety.MembershipChanges Safety.Pasts

variable {D : Deployment} {s : CoreState} {g : Ghost} {i j : ID} {c c' : Core}
variable {T : Snapshot → List Entry → Prop}

theorem admits_guarded (hD : Encodable D.members) :
    Admits (openRegime D.members) fun k => guarded k = true ∧ readable k.input = true := by
  rintro T g s k h hmade ⟨hguard, hreadable⟩ hsnap
  have hany := inputOK_of_guarded hD (clusterRel_imp (fun _ _ _ => trivial) h) hmade.up
    hmade.enabled hguard hreadable
  have hx := hmade.enabled
  cases hin : k.input with
  | deliver p =>
      rw [hin] at hany hx
      obtain ⟨-, hdest, hvoter⟩ := hany
      rcases hx with hlocal | ⟨q, hq, -, heq⟩
      · cases hlocal
      · obtain rfl : q = p := Input.deliver.inj heq
        exact ⟨h.world.packets q hq, hdest, hvoter⟩
  | client ev =>
      rw [hin] at hany
      exact hany
  | compact index data =>
      rw [hin] at hany
      exact fun hgt hle => ⟨(hany hgt hle).1, hsnap _ ⟨index, data, hin, hgt, hle, rfl⟩⟩

/-- Node 1 adds node 4; node 2 takes over and commits the addition with nodes 1 and 4; node 1
compacts it away and takes over again. -/
def additionCompacted : List (Action ID Input (Nat → Nat)) :=
  addition ++ [.deliver 20, .deliver 22, .deliver 23, .deliver 24, .act 2 (.client .tick),
    .deliver 25, .act 1 (.compact 2 [7]), .act 1 (.client .tick), .deliver 29, .deliver 30,
    .deliver 32, .deliver 33]

/-- Entries handed out at the same index are the same entry, while nodes come and go. -/
theorem delivered_entries_agree (hD : D.Uniform) (hs : Reachable (coreSystem D) s)
    (hbound : Bounded s) (hguard : ∀ k ∈ s.trace, guarded k = true) {k k' : CoreCall}
    (hk : k ∈ s.trace) (hk' : k' ∈ s.trace) {e e' : Entry} (he : e ∈ k.post.committed)
    (he' : e' ∈ k'.post.committed) (hindex : e.index = e'.index) : e = e' := by
  obtain ⟨g, hrel⟩ := exists_protocol_of_guarded hD hs hbound hguard
  exact eq_of_committed hrel hk hk' he he' hindex

theorem delivered_entries_agree_addition : ∃ s, Reachable (coreSystem trio) s ∧
    Bounded s ∧ (∀ k ∈ s.trace, guarded k = true) ∧ ∃ k ∈ s.trace, ∃ k' ∈ s.trace,
      k.node ≠ k'.node ∧
      ∃ e ∈ k.post.committed, ∃ e' ∈ k'.post.committed, (changeOf e).isSome = true ∧ e = e' := by
  obtain ⟨s, hs, hbound, hguard, k, hk, k', hk', hne, e, he, e', he', hchange, hindex⟩ :=
    exists_of_run (coreSystem trio) additionCompacted (fun s =>
      Bounded s ∧ (∀ k ∈ s.trace, guarded k = true) ∧ ∃ k ∈ s.trace, ∃ k' ∈ s.trace,
        k.node ≠ k'.node ∧
        ∃ e ∈ k.post.committed, ∃ e' ∈ k'.post.committed, (changeOf e).isSome = true ∧
          e.index = e'.index)
      (by decide +kernel)
  exact ⟨s, hs, hbound, hguard, k, hk, k', hk', hne, e, he, e', he', hchange,
    delivered_entries_agree uniform_trio hs hbound hguard hk hk' he he' hindex⟩

/-- Whatever a leader has committed, under whichever configuration, every leader of a later
term has from the start: the very same entries, in its log or under a snapshot. -/
theorem commits_survive_changes (hD : D.Uniform) (hs : Reachable (coreSystem D) s)
    (hbound : Bounded s) (hguard : ∀ k ∈ s.trace, guarded k = true) {k k' : CoreCall}
    (hk : k ∈ s.trace) (hk' : k' ∈ s.trace) (hraise : RaisesCommit k) (helects : Elects k')
    (hlt : k.post.term < k'.post.term) :
    (∀ i, 0 < i → i ≤ k.post.commitIndex → ∃ e, e.index = i ∧ Holds s.trace k.post e) ∧
      ∀ e, Holds s.trace k.post e → e.index ≤ k.post.commitIndex → Holds s.trace k'.post e := by
  obtain ⟨G, hpast⟩ := exists_past hD (admits_guarded hD.encodable) hs hbound
    fun k hk => ⟨hguard k hk, hbound k hk⟩
  exact holds_of_later hpast.now hk hk' hraise helects hlt

theorem commits_survive_changes_addition : ∃ s, Reachable (coreSystem trio) s ∧
    Bounded s ∧ (∀ k ∈ s.trace, guarded k = true) ∧ ∃ k ∈ s.trace, ∃ k' ∈ s.trace, RaisesCommit k ∧
      Elects k' ∧ k.post.term < k'.post.term ∧ k'.post.snapIndex = 2 ∧
      ∃ e ∈ k.post.entries, (changeOf e).isSome = true ∧ Holds s.trace k'.post e := by
  obtain ⟨s, hs, hbound, hguard, k, hk, k', hk', hraise, helects, hlt, hsnap, e, he, hchange,
    hle⟩ :=
    exists_of_run (coreSystem trio) additionCompacted (fun s =>
      Bounded s ∧ (∀ k ∈ s.trace, guarded k = true) ∧ ∃ k ∈ s.trace, ∃ k' ∈ s.trace,
        RaisesCommit k ∧ Elects k' ∧ k.post.term < k'.post.term ∧ k'.post.snapIndex = 2 ∧
        ∃ e ∈ k.post.entries, (changeOf e).isSome = true ∧ e.index ≤ k.post.commitIndex)
      (by decide +kernel)
  exact ⟨s, hs, hbound, hguard, k, hk, k', hk', hraise, helects, hlt, hsnap, e, he, hchange,
    (commits_survive_changes uniform_trio hs hbound hguard hk hk' hraise helects hlt).2 e
    (Or.inl he) hle⟩

/-- Logs match below an entry two nodes have in common, and nodes that have delivered an index
read the same configuration off their logs there. -/
theorem logs_and_configurations_agree (hD : D.Uniform) (hs : Reachable (coreSystem D) s)
    (hbound : Bounded s) (hguard : ∀ k ∈ s.trace, guarded k = true) (hup : s.node i = .up c)
    (hup' : s.node j = .up c') :
    (∀ e ∈ c.entries, ∀ e' ∈ c'.entries, e.index = e'.index → e.term = e'.term →
      e = e' ∧ ∀ f ∈ c.entries, ∀ f' ∈ c'.entries, f.index = f'.index → f.index ≤ e.index →
        f = f') ∧
      ∀ index, c.snapIndex ≤ index → c'.snapIndex ≤ index → index ≤ c.lastDelivered →
        index ≤ c'.lastDelivered → configAt c index = configAt c' index := by
  obtain ⟨g, hrel⟩ := exists_protocol_of_guarded hD hs hbound hguard
  refine ⟨?_, ?_⟩
  · intro e he e' he' hindex hterm
    exact eq_below_of_same_term hrel.world hup hup' he he' hindex hterm
  · intro index hsnap hsnap' hle hle'
    have hnode := (hrel.world.live i c hup).1
    have hnode' := (hrel.world.live j c' hup').1
    have hchosen := chosenLog_of_committed (committed_of_le hnode.delivered hle)
    have hchosen' := chosenLog_of_committed (committed_of_le hnode'.delivered hle')
    have hlen : ((g.log i).take index).length = ((g.log j).take index).length := by
      rw [List.length_take, List.length_take, min_eq_left (hle.trans hnode.delivered.1),
        min_eq_left (hle'.trans hnode'.delivered.1)]
    have hpre := isPrefix_of_chosenLog hrel.world.sound.inv hchosen hchosen' hlen.le
    rw [hnode.mirror.configAt hsnap, hnode'.mirror.configAt hsnap', hpre.eq_of_length hlen]

theorem logs_and_configurations_agree_addition : ∃ s, Reachable (coreSystem trio) s ∧
    Bounded s ∧ (∀ k ∈ s.trace, guarded k = true) ∧ ∃ c c', s.node 1 = .up c ∧ s.node 2 = .up c' ∧
      c.snapIndex = 2 ∧ c'.snapIndex = 0 ∧ (configAt c 2).size = 4 ∧
      configAt c 2 = configAt c' 2 := by
  obtain ⟨s, hs, hbound, hguard, c, hc, c', hc', hsnap, hsnap', hsize, hdel, hdel'⟩ :=
    exists_of_run (coreSystem trio) additionCompacted (fun s =>
      Bounded s ∧ (∀ k ∈ s.trace, guarded k = true) ∧ ∃ c ∈ core? s 1, ∃ c' ∈ core? s 2,
        c.snapIndex = 2 ∧
        c'.snapIndex = 0 ∧ (configAt c 2).size = 4 ∧ 2 ≤ c.lastDelivered ∧ 2 ≤ c'.lastDelivered)
      (by decide +kernel)
  have hup := node_of_core? hc
  have hup' := node_of_core? hc'
  refine ⟨s, hs, hbound, hguard, c, c', hup, hup', hsnap, hsnap', hsize, ?_⟩
  exact (logs_and_configurations_agree uniform_trio hs hbound hguard hup hup').2 2 hsnap.le
    (hsnap'.trans_le (by decide)) hdel hdel'

end RaftKV.Safety.Reconfiguration
