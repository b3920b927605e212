import RaftKV.Raft.Provenance
import RaftKV.Safety.FixedMembership

/-!
The protocol behind a run, call by call: a state of it before and after each call, each of
them grown out of those before. What a call finds can be compared with what later calls find.
-/

namespace RaftKV.Safety.Pasts

open Consensus.Preservation
open Distributed.Network
open Raft Raft.Cluster Raft.Histories
open Raft.Provenance Raft.Authorship
open Refinement.Relation Refinement.Runs
open Safety.FixedMembership

variable {D : Deployment} {R : Regime D.members} {A : CoreCall → Prop} {s : CoreState}
variable {G : Nat → Ghost} {k : CoreCall}

/-- A call that satisfies `A` is one the relation survives, whatever snapshots stand for. -/
def Admits (R : Regime D.members) (A : CoreCall → Prop) : Prop :=
  ∀ {T : Snapshot → List Entry → Prop} {g : Ghost} {s : CoreState} {k : CoreCall},
    ClusterRel R T g s → MadeIn (coreSystem D) s k → A k →
    (∀ snap, Compacts k snap → T snap ((g.log k.node).take snap.lastIndex)) →
    InputOK R T g k.node k.pre k.input

theorem admits_fixed (hD : Encodable D.members) :
    Admits (fixedRegime D.members) fun k => changesMembership k.input = false := by
  intro T g s k h hmade hfix hsnap
  refine inputOK_of_enabled hD h hmade.up hmade.enabled hfix ?_
  intro index data hin hgt hle
  exact hsnap _ ⟨index, data, hin, hgt, hle, rfl⟩

/-- `G m` is the protocol before call `m` of the run. -/
structure Past (R : Regime D.members) (s : CoreState) (G : Nat → Ghost) : Prop where
  grows : ∀ {m n}, m ≤ n → n ≤ s.trace.length → Grows (G m) (G n)
  before : ∀ {m k}, s.trace[m]? = some k → ∃ s₀, MadeIn (coreSystem D) s₀ k ∧
    s₀.trace = s.trace.take m ∧ ClusterRel R (taken s₀.trace) (G m) s₀
  after : ∀ {m k}, s.trace[m]? = some k → Sound R (G (m + 1)) ∧
    ∃ T, NodeRel R T (G (m + 1)) k.node k.post
  now : ClusterRel R (taken s.trace) (G s.trace.length) s

theorem past_call (h : Past R s G) {i : ID} {c : Core} {x : Input}
    (hmade : MadeIn (coreSystem D) s ⟨i, x, c, (respond c x).1, (respond c x).2.getD []⟩)
    {g' : Ghost} (hg : Grows (G s.trace.length) g') {T : Snapshot → List Entry → Prop}
    (hpost : NodeRel R T g' i (respond c x).1)
    (hnow : ClusterRel R (taken ((coreSystem D).call s i c x).trace) g'
      ((coreSystem D).call s i c x)) :
    Past R ((coreSystem D).call s i c x) (Function.update G (s.trace.length + 1) g') := by
  have hlen : ((coreSystem D).call s i c x).trace.length = s.trace.length + 1 := by
    rw [trace_call, List.length_append, List.length_singleton]
  have hold : ∀ m, m ≤ s.trace.length → Function.update G (s.trace.length + 1) g' m = G m :=
    fun m hm => Function.update_of_ne (by omega) _ _
  have hnew : Function.update G (s.trace.length + 1) g' (s.trace.length + 1) = g' :=
    Function.update_self ..
  have htake : ∀ m, m ≤ s.trace.length →
      ((coreSystem D).call s i c x).trace.take m = s.trace.take m := by
    intro m hm
    rw [trace_call, List.take_append_of_le_length hm]
  refine ⟨?_, ?_, ?_, ?_⟩
  · intro m n hmn hn
    rw [hlen] at hn
    rcases Nat.lt_or_eq_of_le hn with hlt | rfl
    · rw [hold m (by omega), hold n (by omega)]
      exact h.grows hmn (by omega)
    · rw [hnew]
      rcases Nat.lt_or_eq_of_le hmn with hlt | rfl
      · rw [hold m (by omega)]
        exact grows_trans (h.grows (show m ≤ s.trace.length by omega) le_rfl) hg
      · rw [hnew]
        exact grows_refl g'
  · intro m k hk
    rw [trace_call] at hk
    rcases getElem?_concat_cases hk with hk | ⟨rfl, rfl⟩
    · have hm := (List.getElem?_eq_some_iff.mp hk).1
      rw [hold m hm.le, htake m hm.le]
      exact h.before hk
    · rw [hold _ le_rfl, htake _ le_rfl, List.take_length]
      exact ⟨s, hmade, rfl, h.now⟩
  · intro m k hk
    rw [trace_call] at hk
    rcases getElem?_concat_cases hk with hk | ⟨rfl, rfl⟩
    · have hm := (List.getElem?_eq_some_iff.mp hk).1
      rw [hold (m + 1) hm]
      exact h.after hk
    · rw [hnew]
      exact ⟨hnow.world.sound, T, hpost⟩
  · rw [hlen, hnew]
    exact hnow

theorem exists_past (hD : D.Uniform) (hadmits : Admits R A) (hs : Reachable (coreSystem D) s)
    (hbound : Bounded s) (hA : ∀ k ∈ s.trace, A k) : ∃ G, Past R s G := by
  refine reachable_induction
    (Q := fun s => Bounded s → (∀ k ∈ s.trace, A k) → ∃ G, Past R s G) ?_ ?_ ?_ ?_ hs hbound hA
  · intro _ _
    refine ⟨fun _ => RaftKV.Consensus.Protocol.init, fun _ _ => grows_refl _, ?_, ?_,
      clusterRel_init⟩
    · intro m k hk
      cases hk
    · intro m k hk
      cases hk
  · intro s i c x hreach ih hup hx hbound hA
    obtain ⟨G, h⟩ := ih (fun k hk => hbound k (List.mem_append_left _ hk))
      (fun k hk => hA k (List.mem_append_left _ hk))
    have hlast : (⟨i, x, c, (respond c x).1, (respond c x).2.getD []⟩ : CoreCall) ∈
        ((coreSystem D).call s i c x).trace := List.mem_concat_self
    have hmade : MadeIn (coreSystem D) s ⟨i, x, c, (respond c x).1, (respond c x).2.getD []⟩ :=
      ⟨hreach, hup, hx, rfl, rfl⟩
    have hmono : ∀ snap L, taken s.trace snap L →
        taken ((coreSystem D).call s i c x).trace snap L :=
      fun snap L ht e he => takenOf_mono (ht e he) _
    have hrel := clusterRel_imp hmono h.now
    obtain ⟨hnode, -⟩ := h.now.world.live i c hup
    obtain ⟨g', hg, hpost, hrel'⟩ := clusterRel_call hrel hup
      (hadmits hrel hmade (hA _ hlast) fun snap hc => taken_compact hnode hmono hlast rfl hc)
    exact ⟨_, past_call h hmade hg hpost hrel'⟩
  · intro s i c _ ih hup hbound hA
    obtain ⟨G, h⟩ := ih hbound hA
    exact ⟨G, { h with now := clusterRel_crash h.now hup }⟩
  · intro s i rng d c hreach ih hdown hboot hbound hA
    obtain ⟨G, h⟩ := ih hbound hA
    have hfits := readable_of_bounded hreach hbound hdown
    exact ⟨G, { h with now := clusterRel_restart h.now hD hdown hfits hboot }⟩

end RaftKV.Safety.Pasts
