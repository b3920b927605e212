import RaftKV.Safety.Pasts
import RaftKV.Safety.ReadOutcomes

namespace RaftKV.Safety.ReadBarriers

open Consensus.Quorum
open Consensus.Protocol (Lead Commit)
open Consensus.Completeness
open Distributed.Network
open Raft Raft.Durability Raft.Cluster Raft.Commits
open Raft.Histories Raft.Barriers Raft.Provenance
open Refinement.Relation Refinement.Sending Refinement.Runs
open Safety.Elections Safety.FixedMembership Safety.Pasts Safety.ReadOutcomes

section Quorums

variable {D : Deployment} {s : CoreState} {i x : ID} {c : Core} {k : CoreCall} {g : Ghost}
variable {T : Snapshot → List Entry → Prop}

theorem majority_of_lead (h : ClusterRel (fixedRegime D.members) T g s) {t : Nat}
    {l : Lead ID Entry} (hl : g.lead t = some l) : Majority l.voters (voters D.members) := by
  have hok := h.world.sound.inv.lead t l hl
  have hplain : ∀ e ∈ l.init, e.type ≠ .config := fun e he =>
    h.world.sound.allowed t l hl e ((init_isPrefix hok).subset he)
  have hmaj := hok.majority
  rwa [show (scheme D.members).config l.init = voters D.members from
    congrArg voters (membersAfter_plain hplain)] at hmaj

theorem len_le_of_leader (h : ClusterRel (fixedRegime D.members) T g s) (hup : s.node i = .up c)
    (hrole : c.role = .leader) (hown : termAt c c.commitIndex = c.term) {cm : Commit ID}
    (hcm : cm ∈ g.commits) (hle : cm.term ≤ c.term) : cm.len ≤ c.commitIndex := by
  obtain ⟨hrel, -⟩ := h.world.live i c hup
  obtain ⟨l, hlead⟩ := hrel.leader hrole
  have hinit := init_lt_of_termAt h.world.sound hrel hlead hown
  rcases Nat.lt_or_eq_of_le hle with hlt | heq
  · have hhas := leadsComplete h.world.sound.inv (c.term + 1) _ (Nat.lt_succ_self _) l
      hlead.lead cm hcm hlt
    obtain ⟨l', hok⟩ := h.world.sound.inv.commit cm hcm
    have hlength := hhas.length_le
    have := hok.len_le
    rw [leadLog_eq hok.lead, List.length_take] at hlength
    omega
  · exact hlead.top cm hcm heq

theorem acks_subset (hs : Reachable (coreSystem D) s) (hfix : FixedMembership D s)
    (hup : s.node i = .up c) (hrole : c.role = .leader) {calls : List CoreCall} {c' : Core}
    {r : PendingRead} {m : Nat} (hb : Barrier calls i c' r m)
    (hsent : ∀ n x req, SentAt calls n i x req → x ∈ D.members) :
    r.acks ⊆ voters D.members := by
  intro x hx
  rw [mem_voters]
  rcases hb.acks x hx with rfl | ⟨req, -, n, -, -, -, -, -, hn, -⟩
  · refine member_of_role hs hfix hup ?_
    rw [hrole]
    exact Role.noConfusion
  · exact hsent n x req hn

theorem mem_of_sentAt (hs : Reachable (coreSystem D) s) (hfix : FixedMembership D s) {n : Nat}
    {req : AppendEntriesRequest} (h : SentAt s.trace n i x req) : x ∈ D.members := by
  obtain ⟨k, hk, -, hsent⟩ := h
  have hmem : (⟨i, x, .request (.appendEntries req)⟩ : Packet) ∈ s.net := by
    rw [net_eq_flatMap hs]
    exact List.mem_flatMap.mpr ⟨k, List.mem_of_getElem? hk, hsent⟩
  exact internal_of_mem hs hfix _ hmem

theorem mem_take_of_lt {α : Type} {l : List α} {p n : Nat} {a : α} (h : l[p]? = some a)
    (hlt : p < n) : a ∈ l.take n := by
  refine List.mem_of_getElem? (i := p) ?_
  rw [List.getElem?_take, if_pos hlt]
  exact h

theorem term_of_barrier (hs : Reachable (coreSystem D) s) (hfix : FixedMembership D s) {n m : Nat}
    (hk : s.trace[n]? = some k) {r : PendingRead} (htally : Tallied k.pre k.input r)
    (hb : Barrier (s.trace.take (n + 1)) k.node k.post r m) {k₀ : CoreCall} (hm : m ≤ n)
    (hk₀ : s.trace[m]? = some k₀) (hnode : k₀.node = k.node) (hreg : Registers k₀ r.id r.index) :
    k₀.pre.term = k.pre.term := by
  obtain ⟨s₁, hmade, htrace⟩ := exists_madeIn hs hk
  have hfix₁ := hfix.part (htrace ▸ List.take_subset n s.trace)
  rcases Nat.lt_or_eq_of_le hm with hlt | rfl
  · have hpending : ∀ r₀ ∈ k.pre.pendingReads, r₀.id = r.id → k₀.pre.term = k.pre.term := by
      intro r₀ hr₀ hid
      obtain ⟨-, m₁, k₁, hk₁, hnode₁, hreg₁, hterm, hlast⟩ :=
        pending_of_fixed hmade.reachable hfix₁ hmade.up r₀ hr₀
      rw [htrace] at hk₁ hlast
      rw [hid] at hreg₁ hlast
      have hm₁ : m₁ < n := by
        have := (List.getElem?_eq_some_iff.mp hk₁).1
        rw [List.length_take] at this
        omega
      -- Each of the two is the last registration of the number.
      have heq : m₁ = m := by
        rcases Nat.lt_trichotomy m₁ m with h | h | h
        · refine absurd hreg (hlast m k₀ h ?_ hnode _)
          rw [List.getElem?_take, if_pos hlt]
          exact hk₀
        · exact h
        · refine absurd hreg₁ (hb.last m₁ k₁ h ?_ hnode₁ _)
          rw [List.getElem?_take, if_pos (by omega)]
          exact getElem?_of_take hk₁
      rw [heq] at hk₁
      rw [← hterm, ← Option.some.inj (hk₀.symm.trans (getElem?_of_take hk₁))]
    cases htally with
    | kept hr => exact hpending r hr rfl
    | acked hr => exact hpending _ hr rfl
    | registered hin hrole hterm =>
        refine absurd ⟨hin, hrole, hterm, rfl, rfl⟩ (hb.last n k hlt ?_ rfl k.pre.commitIndex)
        rw [List.getElem?_take, if_pos (Nat.lt_succ_self n)]
        exact hk
  · rw [Option.some.inj (hk.symm.trans hk₀)]

theorem commits_of_confirmed (hs : Reachable (coreSystem D) s) (hfix : FixedMembership D s)
    {G : Nat → Ghost} (hpast : Past (fixedRegime D.members) s G) {n : Nat}
    (hk : s.trace[n]? = some k) {o : ReadOutcome} (ho : o ∈ k.post.readOutcomes)
    (hconf : o.confirmed = true) :
    ∃ m k₀, m ≤ n ∧ s.trace[m]? = some k₀ ∧ k₀.node = k.node ∧ Registers k₀ o.id o.index ∧
      (∀ n' k', m < n' → n' ≤ n → s.trace[n']? = some k' → k'.node = k.node →
        ∀ index, ¬ Registers k' o.id index) ∧
      ∀ cm ∈ (G m).commits, cm.len ≤ o.index := by
  obtain ⟨-, hrole, r, m, htally, hid, hindex, hmaj, hb⟩ := exists_barrier hs hk ho hconf
  obtain ⟨k₀, hk₀, hnode, hreg, -⟩ := hb.call
  have hm : m ≤ n := by
    have := (List.getElem?_eq_some_iff.mp hk₀).1
    rw [List.length_take] at this
    omega
  replace hk₀ := getElem?_of_take hk₀
  have hterm := term_of_barrier hs hfix hk htally hb hm hk₀ hnode hreg
  rw [hid, hindex]
  refine ⟨m, k₀, hm, hk₀, hnode, hreg, ?_, ?_⟩
  · intro n' k' hlt hle hk' hnode'
    refine hb.last n' k' hlt ?_ hnode'
    rw [List.getElem?_take, if_pos (Nat.lt_succ_of_le hle)]
    exact hk'
  intro cm hcm
  obtain ⟨s₀, hmade₀, -, hrel₀⟩ := hpast.before hk₀
  rw [hreg.index]
  refine len_le_of_leader hrel₀ hmade₀.up hreg.role hreg.term hcm ?_
  -- Otherwise a member both elects the later leader before the read is registered and accepts
  -- what the reader sends afterwards.
  by_contra hlater
  obtain ⟨l, hok⟩ := hrel₀.world.sound.inv.commit cm hcm
  have hvoted := (hrel₀.world.sound.inv.lead _ l hok.lead).voted
  obtain ⟨s₁, hmade, htrace, hrel₁⟩ := hpast.before hk
  have hfix₁ := hfix.part (htrace ▸ List.take_subset n s.trace)
  have hsub : r.acks ⊆ voters D.members :=
    acks_subset hmade.reachable hfix₁ hmade.up hrole hb fun n' x req hsent =>
      mem_of_sentAt hs hfix (sentAt_of_take hsent)
  have hacks : Majority r.acks (voters D.members) := by
    refine ⟨hsub, ?_⟩
    rw [majority, members_eq hrel₁.world hmade.up, ← card_voters] at hmaj
    omega
  obtain ⟨x, hx, hvote⟩ := exists_mem_of_majority hacks (majority_of_lead hrel₀ hok.lead)
    (adjacent_refl _)
  rcases hb.acks x hx with rfl | ⟨req, -, n₁, n₂, n₃, hle, hlt, hlt', hsent, hacc, hans⟩
  · have hle := hrel₀.world.sound.inv.vote_term _ _ _ (hvoted _ hvote)
    rw [← hnode, (hrel₀.world.live _ _ hmade₀.up).1.term] at hle
    exact hlater hle
  · obtain ⟨kx, hkx, rfl, -, hpost⟩ := hacc
    have hn₃ : n₃ ≤ n := by
      obtain ⟨k₃, resp, hk₃, -⟩ := hans
      have := (List.getElem?_eq_some_iff.mp hk₃).1
      rw [List.length_take] at this
      omega
    have hkx' := getElem?_of_take hkx
    obtain ⟨sx, hmadex, -, hrelx⟩ := hpast.before hkx'
    have hgrown : kx.pre.term ≤ kx.post.term := by
      rw [hmadex.post]
      exact term_le_respond kx.pre kx.input
    have hbound : cm.term ≤ kx.pre.term := by
      have hn₂ := (List.getElem?_eq_some_iff.mp hkx').1
      have hkept := ((hpast.grows (show m ≤ n₂ by omega) hn₂.le).vote _ _ _ (hvoted _ hvote)).1
      rw [← (hrelx.world.live _ _ hmadex.up).1.term]
      exact hrelx.world.sound.inv.vote_term _ _ _ hkept
    have hsentTerm : req.term ≤ k.pre.term := by
      have hold : SentAt s₁.trace n₁ k.node kx.node req := by
        obtain ⟨k', hk', hrest⟩ := hsent
        refine ⟨k', ?_, hrest⟩
        rw [htrace, List.getElem?_take, if_pos (by omega)]
        exact getElem?_of_take hk'
      have := pastOf_sentAt hmade.reachable hold
      rw [hmade.up] at this
      exact this.1
    omega

/-- A read that is confirmed was registered at an index that covers whatever had been
committed by then, in any term. -/
theorem covered_of_confirmed (hs : Reachable (coreSystem D) s) (hfull : Regular D s) {n : Nat}
    (hk : s.trace[n]? = some k) {o : ReadOutcome} (ho : o ∈ k.post.readOutcomes)
    (hconf : o.confirmed = true) :
    ∃ m k₀, m ≤ n ∧ s.trace[m]? = some k₀ ∧ k₀.node = k.node ∧ Registers k₀ o.id o.index ∧
      (∀ n' k', m < n' → n' ≤ n → s.trace[n']? = some k' → k'.node = k.node →
        ∀ index, ¬ Registers k' o.id index) ∧
      ∀ p < m, ∀ k₁, s.trace[p]? = some k₁ →
        (RaisesCommit k₁ → k₁.post.commitIndex ≤ o.index) ∧
          ∀ e ∈ k₁.post.committed, e.index ≤ o.index := by
  obtain ⟨G, hpast⟩ := exists_past hfull.fixed.uniform
    (admits_fixed hfull.fixed.uniform.encodable) hs hfull.bounded hfull.fixed.unchanging
  obtain ⟨m, k₀, hm, hk₀, hnode, hreg, hlast, hcommits⟩ :=
    commits_of_confirmed hs hfull.fixed hpast hk ho hconf
  refine ⟨m, k₀, hm, hk₀, hnode, hreg, hlast, ?_⟩
  intro p hp k₁ hk₁
  obtain ⟨s₀, -, htrace₀, hrel₀⟩ := hpast.before hk₀
  have hok := hrel₀.calls k₁ (htrace₀ ▸ mem_take_of_lt hk₁ hp)
  refine ⟨fun hraise => ?_, fun e he => ?_⟩
  · obtain ⟨cm, hcm, -, hlen⟩ := hok.raised hraise.1 hraise.2
    exact hlen.trans (hcommits cm hcm)
  · obtain ⟨hpos, cm, hcm, hlt, -⟩ := hok.chosen e he
    have := hcommits cm hcm
    omega

end Quorums

end RaftKV.Safety.ReadBarriers
