import RaftKV.Raft.Authorship
import RaftKV.Safety.LinearizableReads

namespace RaftKV.Safety.Precedence

open Consensus.Protocol (Commit)
open Consensus.Completeness Consensus.Commitment
open Distributed.Network
open Raft Raft.Durability Raft.Cluster
open Raft.Authorship Raft.EventLoop
open Refinement.Relation Refinement.Projection
open Safety.FixedMembership Safety.Pasts Safety.Proposals
open Safety.ReadBarriers (mem_take_of_lt)
open Safety.LinearizableReads

section Calls

variable {D : Deployment} {R : Regime D.members} {s : CoreState} {G : Nat → Ghost}
variable {j k : CoreCall} {e f : Entry} {m n : Nat}

/-- The leader that takes a command has no entry of its term at or behind the index it gives
out, and neither has anybody else. -/
theorem index_lt_of_authors (h : Past R s G) (hj : s.trace[m]? = some j) (hauthors : Authors j e)
    (hf : Logged (G m) f) (hterm : f.term = e.term) : f.index < e.index := by
  obtain ⟨s₀, hmade, -, hrel₀⟩ := h.before hj
  obtain ⟨hrel, -⟩ := hrel₀.world.live _ _ hmade.up
  obtain ⟨l, hlead⟩ := hrel.leader hauthors.role
  obtain ⟨hpos, l', hl', hget⟩ := hf
  rw [hterm, hauthors.term, hlead.lead] at hl'
  obtain rfl := Option.some.inj hl'
  have hlt := (List.getElem?_eq_some_iff.mp hget).1
  rw [hlead.log, ← hrel.mirror.lastLogIndex] at hlt
  have := hauthors.index
  omega

theorem mem_entries_of_authors {s₀ : CoreState} (hmade : MadeIn (coreSystem D) s₀ j)
    (hauthors : Authors j e) : e ∈ j.post.entries := by
  rw [hmade.post]
  change e ∈ (respond j.pre j.input).1.entries
  rw [hauthors.input]
  change e ∈ (react j.pre _ _).1.entries
  rw [react_fst]
  change e ∈ (propose (takeQueues j.pre) e.command .normal).1.entries
  rw [entries_propose (c := takeQueues j.pre) hauthors.role hauthors.target]
  refine List.mem_append_right _ (List.mem_singleton.mpr ?_)
  obtain ⟨term, index, type, command⟩ := e
  obtain ⟨rfl, -, -, -, rfl, rfl⟩ := hauthors
  rfl

theorem eq_of_authors (h : Past R s G) {m' : Nat} {j' : CoreCall} (hj : s.trace[m]? = some j)
    (hj' : s.trace[m']? = some j') (hauthors : Authors j e) (hauthors' : Authors j' e) :
    m = m' := by
  have hnot : ∀ {m m' : Nat} {j j' : CoreCall}, s.trace[m]? = some j → s.trace[m']? = some j' →
      Authors j e → Authors j' e → ¬ m < m' := by
    intro m m' j j' hj hj' ha ha' hlt
    obtain ⟨s₀, hmade, -⟩ := h.before hj
    obtain ⟨hsound, T, hrel⟩ := h.after hj
    have hlogged := logged_of_mem hsound hrel (mem_entries_of_authors hmade ha)
    have hm' := (List.getElem?_eq_some_iff.mp hj').1
    have hgrown := logged_mono (h.grows (show m + 1 ≤ m' from hlt) hm'.le) hlogged
    exact absurd (index_lt_of_authors h hj' ha' hgrown rfl) (Nat.lt_irrefl _)
  have := hnot hj hj' hauthors hauthors'
  have := hnot hj' hj hauthors' hauthors
  omega

theorem exists_chosen_below {g : Ghost} (hs : Sound R g) {p q : Nat} (h : Chosen g q f)
    (hp : p ≤ q) : ∃ e, Chosen g p e := by
  obtain ⟨cm, hcm, hlt, -⟩ := h
  obtain ⟨l, hok⟩ := hs.inv.commit cm hcm
  have hlen := hok.len_le
  refine ⟨l.log[p], cm, hcm, by omega, ?_⟩
  rw [leadLog_eq hok.lead]
  exact List.getElem?_eq_getElem _

theorem delivered_lt_of_authors (h : Past R s G) (hj : s.trace[m]? = some j)
    (hauthors : Authors j e) (hn : n < m) (hk : s.trace[n]? = some k) (hf : f ∈ k.post.committed)
    {k' : CoreCall} (hk' : k' ∈ s.trace) (he : e ∈ k'.post.committed) : f.index < e.index := by
  obtain ⟨s₀, -, htrace, hrel₀⟩ := h.before hj
  obtain ⟨hfpos, hfchosen⟩ := (hrel₀.calls k (htrace ▸ mem_take_of_lt hk hn)).chosen f hf
  obtain ⟨hepos, hechosen⟩ := (h.now.calls k' hk').chosen e he
  by_contra hge
  -- the place of the command would have been chosen before, and by the command itself
  obtain ⟨e₀, hchosen⟩ := exists_chosen_below hrel₀.world.sound hfchosen
    (show e.index - 1 ≤ f.index - 1 by omega)
  have hm := (List.getElem?_eq_some_iff.mp hj).1
  obtain rfl := chosen_unique h.now.world.sound.inv (chosen_mono (h.grows hm.le le_rfl) hchosen)
    hechosen
  exact absurd (index_lt_of_authors h hj hauthors (logged_of_chosen hrel₀.world.sound hepos hchosen)
    rfl) (Nat.lt_irrefl _)

end Calls

section Turns

variable {σ : Type} {S : StateMachine σ} {D : Deployment} {threshold : ID → Nat}
variable {s : NodeState σ} {j k : NodeCall σ} {c : Core} {e f : Entry} {m n : Nat} {done : Chan}

/-- The turn takes the command of `e` from a caller on channel `done` and gives it the place of
`e`. -/
structure Takes (k : NodeCall σ) (e : Entry) (done : Chan) : Prop where
  running : k.pre.stopped = false
  type : e.type = .normal
  input : k.input = .propose e.command done
  accepted : (propose k.pre.core e.command .normal).2 = .ok (e.index, e.term)

theorem authors_of_takes (hc : takeQueues c = k.pre.core) (h : Takes k e done) :
    Authors (coreCall k c) e := by
  have hok := h.accepted
  rw [← hc] at hok
  rcases propose_cases (takeQueues c) e.command .normal with ⟨err, heq⟩ | ⟨hrole, htarget, heq⟩
  · rw [heq] at hok
    cases hok
  · rw [heq] at hok
    obtain ⟨hindex, hterm⟩ := Prod.mk.inj (Except.ok.inj hok)
    refine ⟨h.type, ?_, hrole, htarget, hterm.symm, hindex.symm⟩
    change k.input.input = _
    rw [h.input]
    rfl

theorem takes_of_authors (hc : takeQueues c = k.pre.core) (hrun : k.pre.stopped = false)
    (h : Authors (coreCall k c) e) : ∃ done, Takes k e done := by
  have hin : k.input.input = .client (.propose e.command .normal) := h.input
  obtain ⟨done, hdone⟩ : ∃ done, k.input = .propose e.command done := by
    cases hm : k.input with
    | propose command done =>
        rw [hm] at hin
        cases hin
        exact ⟨done, rfl⟩
    | _ =>
        rw [hm] at hin
        cases hin
  refine ⟨done, hrun, h.type, hdone, ?_⟩
  have hrole : (takeQueues c).role = .leader := h.role
  have htarget : (takeQueues c).transferTarget = 0 := h.target
  rw [← hc, propose, if_neg (not_not.mpr hrole), if_neg (not_not.mpr htarget), h.index, h.term]
  rfl

theorem mem_committed_of_applied (hs : Reachable (nodeSystem D S threshold) s) (hk : k ∈ s.trace)
    (he : .applied e ∈ k.post.effects) :
    k.pre.stopped = false ∧ ∀ c, takeQueues c = k.pre.core → e ∈ (coreCall k c).post.committed := by
  have hmem := mem_delivered_of_applied hs hk he
  unfold delivered at hmem
  split at hmem
  · exact absurd hmem List.not_mem_nil
  · rename_i hstop
    rw [Bool.not_eq_true] at hstop
    refine ⟨hstop, fun c hc => ?_⟩
    rw [← hc, respond_takeQueues] at hmem
    exact hmem

theorem takes_of_answered (hs : Reachable (nodeSystem D S threshold) s) (hfull : RegularNodes D s)
    (hj : j ∈ s.trace) (hk : k ∈ s.trace) {command : Command}
    (hin : j.input = .propose command done)
    (honly : ∀ j' ∈ s.trace, opens j'.input = some done → j' = j)
    (hok : .answered done (.ok ()) ∈ k.post.effects) :
    ∃ e, e.command = command ∧ Takes j e done ∧ .applied e ∈ k.post.effects := by
  obtain ⟨s', hs', hproj⟩ := exists_core_run hs
  obtain ⟨e, w, before, after, hrun, hprop, hv, heq, happlied⟩ :=
    exists_verdict hs hk hin honly hok nofun
  have hterm : w.term = e.term := by
    by_contra hne
    rw [verdict, if_neg hne] at hv
    cases hv
  have hmem : .applied e ∈ k.post.effects := heq ▸ List.mem_append_left _ happlied
  obtain ⟨-, c, -, hcall, hdel⟩ := exists_delivers hproj hk (mem_delivered_of_applied hs hk hmem)
  have htakes : Takes j ⟨w.term, e.index, .normal, command⟩ done := ⟨hrun, rfl, hin, hprop⟩
  have hname : (⟨w.term, e.index, .normal, command⟩ : Entry) = e := by
    obtain ⟨c₀, hc₀, hcall₀⟩ := exists_coreCall hproj hj hrun
    obtain ⟨p, hp⟩ := List.mem_iff_getElem?.mp hcall₀
    obtain ⟨s₀, hmade, -⟩ := exists_madeIn hs' hp
    exact eq_of_delivered hs' (regular_of_projects hproj hfull) hcall₀ hcall
      (mem_entries_of_authors hmade (authors_of_takes hc₀ htakes)) hdel rfl hterm
  rw [hname] at htakes
  exact ⟨e, by rw [← hname], htakes, hmem⟩

theorem exists_past_of_projects {s' : CoreState} (hs' : Reachable (coreSystem D) s')
    (hproj : Projects S s s') (hfull : RegularNodes D s) :
    ∃ G, Past (fixedRegime D.members) s' G := by
  have h := regular_of_projects hproj hfull
  exact exists_past h.fixed.uniform (admits_fixed h.fixed.uniform.encodable) hs' h.bounded
    h.fixed.unchanging

theorem exists_takes (hs : Reachable (nodeSystem D S threshold) s) (hk : s.trace[n]? = some k)
    (he : .applied e ∈ k.post.effects) (htype : e.type = .normal) :
    ∃ m j done, m ≤ n ∧ s.trace[m]? = some j ∧ Takes j e done := by
  obtain ⟨s', hs', hproj⟩ := exists_core_run hs
  obtain ⟨groups, hgroups, htrace'⟩ := hproj.trace
  obtain ⟨hrun, hmem⟩ := mem_committed_of_applied hs (List.mem_of_getElem? hk) he
  obtain ⟨c, hc, hcall⟩ := getElem?_place hgroups hk hrun
  rw [← htrace'] at hcall
  obtain ⟨q, j', hq, hj', hauthors⟩ := exists_author hs' hcall (hmem c hc) htype
  rw [htrace'] at hj'
  obtain ⟨m, j, c₀, hj, hrun₀, hc₀, ⟨rfl, rfl⟩ | ⟨data, rfl⟩⟩ := exists_turn hgroups hj'
  · obtain ⟨done, htakes⟩ := takes_of_authors hc₀ hrun₀ hauthors
    refine ⟨m, j, done, ?_, hj, htakes⟩
    by_contra hlt
    exact absurd (place_lt hgroups hk hrun (Nat.lt_of_not_le hlt)) (Nat.not_lt.mpr hq)
  · exact Input.noConfusion hauthors.input

theorem eq_of_takes (hs : Reachable (nodeSystem D S threshold) s) (hfull : RegularNodes D s)
    {m' : Nat} {j' : NodeCall σ} {done' : Chan} (hj : s.trace[m]? = some j)
    (hj' : s.trace[m']? = some j') (htakes : Takes j e done)
    (htakes' : Takes j' e done') : m = m' := by
  obtain ⟨s', hs', hproj⟩ := exists_core_run hs
  obtain ⟨G, hpast⟩ := exists_past_of_projects hs' hproj hfull
  obtain ⟨groups, hgroups, htrace'⟩ := hproj.trace
  obtain ⟨c, hc, hcall⟩ := getElem?_place hgroups hj htakes.running
  obtain ⟨c', hc', hcall'⟩ := getElem?_place hgroups hj' htakes'.running
  rw [← htrace'] at hcall hcall'
  have hplace := eq_of_authors hpast hcall hcall' (authors_of_takes hc htakes)
    (authors_of_takes hc' htakes')
  rcases Nat.lt_trichotomy m m' with hlt | heq | hlt
  · exact absurd hplace (place_lt hgroups hj htakes.running hlt).ne
  · exact heq
  · exact absurd hplace.symm (place_lt hgroups hj' htakes'.running hlt).ne

/-- Nothing is made up. In every run, membership changes included, a command that a node applies
was proposed to a leader before, which gave it this index and term. With a fixed membership, and
no command too long to be read back, no other proposal got them. -/
theorem applied_commands_were_proposed (hs : Reachable (nodeSystem D S threshold) s)
    (hk : s.trace[n]? = some k) (he : .applied e ∈ k.post.effects) (htype : e.type = .normal) :
    ∃ m j done, m ≤ n ∧ s.trace[m]? = some j ∧ Takes j e done ∧
      (FixedNodes D s → BoundedNodes s → ∀ (m' : Nat) j' done', s.trace[m']? = some j' →
        Takes j' e done' → m' = m) := by
  obtain ⟨m, j, done, hm, hj, htakes⟩ := exists_takes hs hk he htype
  exact ⟨m, j, done, hm, hj, htakes, fun hfix hbound m' j' done' hj' htakes' =>
    eq_of_takes hs ⟨hfix, hbound⟩ hj' hj htakes' htakes⟩

theorem applied_commands_were_proposed_succession :
    ∃ s, Reachable (nodeSystem trio journal fun _ => 0) s ∧ FixedNodes trio s ∧ BoundedNodes s ∧
      ∃ k, s.trace[12]? = some k ∧ k.node = 2 ∧
        .applied ⟨1, 2, .normal, oneByte 65⟩ ∈ k.post.effects ∧
        ∃ m j done, m ≤ 12 ∧ s.trace[m]? = some j ∧ Takes j ⟨1, 2, .normal, oneByte 65⟩ done ∧
          ∀ (m' : Nat) j' done', s.trace[m']? = some j' →
            Takes j' ⟨1, 2, .normal, oneByte 65⟩ done' → m' = m := by
  obtain ⟨s, hs, hcalm, hbound, k, hk, hnode, he⟩ :=
    exists_of_run (nodeSystem trio journal fun _ => 0)
    [.restart 1 fun _ => 0, .restart 2 fun _ => 0, .restart 3 fun _ => 0, .act 1 .tick, .deliver 0,
      .deliver 2, .deliver 3, .deliver 5, .act 1 (.propose (oneByte 65) 7), .deliver 6, .deliver 8,
      .act 2 .tick, .deliver 9, .deliver 11, .deliver 12, .deliver 14]
    (fun s => UnchangingNodes s ∧ BoundedNodes s ∧ ∃ k ∈ s.trace[12]?, k.node = 2 ∧
      .applied ⟨1, 2, .normal, oneByte 65⟩ ∈ k.post.effects) (by decide +kernel)
  have hfix : FixedNodes trio s := ⟨uniform_trio, hcalm⟩
  obtain ⟨m, j, done, hm, hj, htakes, honly⟩ := applied_commands_were_proposed hs hk he rfl
  exact ⟨s, hs, hfix, hbound, k, hk, hnode, he, m, j, done, hm, hj, htakes, honly hfix hbound⟩

theorem index_lt_of_takes (hs : Reachable (nodeSystem D S threshold) s) (hfull : RegularNodes D s)
    (hj : s.trace[m]? = some j) (htakes : Takes j e done) (hn : n < m) (hk : s.trace[n]? = some k)
    (hf : .applied f ∈ k.post.effects) {k' : NodeCall σ} (hk' : k' ∈ s.trace)
    (he : .applied e ∈ k'.post.effects) : f.index < e.index := by
  obtain ⟨s', hs', hproj⟩ := exists_core_run hs
  obtain ⟨G, hpast⟩ := exists_past_of_projects hs' hproj hfull
  obtain ⟨groups, hgroups, htrace'⟩ := hproj.trace
  obtain ⟨hrun, hmem⟩ := mem_committed_of_applied hs (List.mem_of_getElem? hk) hf
  obtain ⟨hrun', hmem'⟩ := mem_committed_of_applied hs hk' he
  obtain ⟨c, hc, hcall⟩ := getElem?_place hgroups hj htakes.running
  obtain ⟨c₁, hc₁, hcall₁⟩ := getElem?_place hgroups hk hrun
  obtain ⟨c₂, hc₂, hcall₂⟩ := exists_coreCall hproj hk' hrun'
  rw [← htrace'] at hcall hcall₁
  exact delivered_lt_of_authors hpast hcall (authors_of_takes hc htakes)
    (place_lt hgroups hk hrun hn) hcall₁ (hmem c₁ hc₁) hcall₂ (hmem' c₂ hc₂)

theorem index_le_of_answered (hs : Reachable (nodeSystem D S threshold) s)
    (hfull : RegularNodes D s) {ch : Chan} {index : Nat} (hk : s.trace[n]? = some k)
    (he : Effect.readAnswered ch (.ok index) ∈ k.post.effects) :
    ∃ (m : Nat) (k₀ : NodeCall σ), m ≤ n ∧ s.trace[m]? = some k₀ ∧ k₀.node = k.node ∧
      k₀.input = .read ch ∧ ∀ p < m, ∀ k₁, s.trace[p]? = some k₁ →
        ∀ f, .applied f ∈ k₁.post.effects → f.index ≤ index := by
  obtain ⟨m, k₀, hm, hk₀, hnode, hin, -, hbound⟩ := bounds_of_answered hs hfull hk he
  refine ⟨m, k₀, hm, hk₀, hnode, hin, ?_⟩
  intro p hp k₁ hk₁ f hf
  exact (hbound p hp k₁ hk₁).2 f (mem_delivered_of_applied hs (List.mem_of_getElem? hk₁) hf)

end Turns

end RaftKV.Safety.Precedence
