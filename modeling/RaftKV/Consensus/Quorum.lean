import Mathlib.Data.Finset.Card
import Mathlib.Data.Finset.SDiff
import Mathlib.Tactic

namespace RaftKV.Consensus.Quorum

variable {N : Type*} [DecidableEq N]

/-- `Q` is more than half of the configuration `A`. -/
def Majority (Q A : Finset N) : Prop :=
  Q ⊆ A ∧ A.card < 2 * Q.card

/-- Two configurations that differ in at most one member. -/
def Adjacent (A B : Finset N) : Prop :=
  (A \ B).card + (B \ A).card ≤ 1

theorem adjacent_refl (A : Finset N) : Adjacent A A := by
  simp [Adjacent]

theorem adjacent_comm {A B : Finset N} (h : Adjacent A B) : Adjacent B A := by
  unfold Adjacent at h ⊢
  omega

theorem adjacent_insert (A : Finset N) (x : N) : Adjacent A (insert x A) := by
  have hleft : A \ insert x A = ∅ := by
    rw [Finset.sdiff_eq_empty_iff_subset]
    exact Finset.subset_insert x A
  have hright : (insert x A \ A).card ≤ 1 := by
    refine le_trans (Finset.card_le_card (t := {x}) ?_) (by simp)
    intro y hy
    rw [Finset.mem_sdiff, Finset.mem_insert] at hy
    rw [Finset.mem_singleton]
    exact hy.1.resolve_right hy.2
  rw [Adjacent, hleft, Finset.card_empty]
  omega

theorem adjacent_erase (A : Finset N) (x : N) : Adjacent A (A.erase x) := by
  by_cases hx : x ∈ A
  · have h := adjacent_comm (adjacent_insert (A.erase x) x)
    rwa [Finset.insert_erase hx] at h
  · rw [Finset.erase_eq_of_notMem hx]
    exact adjacent_refl A

theorem exists_mem_of_majority {Q Q' A B : Finset N} (hQ : Majority Q A)
    (hQ' : Majority Q' B) (hadj : Adjacent A B) : ∃ x, x ∈ Q ∧ x ∈ Q' := by
  by_contra hnone
  push Not at hnone
  have hdisj : Disjoint Q Q' := Finset.disjoint_left.mpr hnone
  have hunion : (Q ∪ Q').card ≤ (A ∪ B).card :=
    Finset.card_le_card (Finset.union_subset_union hQ.1 hQ'.1)
  rw [Finset.card_union_of_disjoint hdisj] at hunion
  have hA : (A ∪ B).card = A.card + (B \ A).card := by
    rw [← Finset.card_union_of_disjoint Finset.disjoint_sdiff,
      Finset.union_sdiff_self_eq_union]
  have hB : (A ∪ B).card = B.card + (A \ B).card := by
    rw [Finset.union_comm, ← Finset.card_union_of_disjoint Finset.disjoint_sdiff,
      Finset.union_sdiff_self_eq_union]
  have hQA := hQ.2
  have hQB := hQ'.2
  unfold Adjacent at hadj
  omega

end RaftKV.Consensus.Quorum
