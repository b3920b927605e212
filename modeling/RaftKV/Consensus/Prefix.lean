import Mathlib.Data.List.Basic
import Mathlib.Data.List.Infix
import Mathlib.Tactic

namespace RaftKV.Consensus.Prefix

variable {α : Type*}
variable {A B : List α} {i : Nat} {a : α}

/-- Two lists hold different elements at one position. Unlike the failure of
one to be a prefix of the other, this survives extending either list. -/
def Conflict (A B : List α) : Prop :=
  ∃ (i : Nat) (a b : α), A[i]? = some a ∧ B[i]? = some b ∧ a ≠ b

theorem getElem?_of_isPrefix (h : A <+: B)
    (ha : A[i]? = some a) : B[i]? = some a := by
  obtain ⟨T, rfl⟩ := h
  rw [List.getElem?_append_left]
  · exact ha
  · exact (List.getElem?_eq_some_iff.mp ha).1

theorem getElem?_eq_of_isPrefix (h : A <+: B)
    (hi : i < A.length) : A[i]? = B[i]? := by
  rw [List.getElem?_eq_getElem hi]
  exact (getElem?_of_isPrefix h (List.getElem?_eq_getElem hi)).symm

theorem conflict_mono {A' B' : List α} (h : Conflict A B) (hA : A <+: A')
    (hB : B <+: B') : Conflict A' B' := by
  obtain ⟨i, a, b, ha, hb, hne⟩ := h
  exact ⟨i, a, b, getElem?_of_isPrefix hA ha, getElem?_of_isPrefix hB hb, hne⟩

theorem not_conflict_of_isPrefix (h : A <+: B) : ¬ Conflict A B := by
  rintro ⟨i, a, b, ha, hb, hne⟩
  rw [getElem?_of_isPrefix h ha] at hb
  exact hne (Option.some.inj hb)

theorem prefix_or_conflict (A B : List α) : A <+: B ∨ B <+: A ∨ Conflict A B := by
  induction A generalizing B with
  | nil => exact Or.inl List.nil_prefix
  | cons a A ih =>
      rcases B with _ | ⟨b, B⟩
      · exact Or.inr (Or.inl List.nil_prefix)
      · by_cases hab : a = b
        · subst b
          rcases ih B with h | h | ⟨i, x, y, hx, hy, hne⟩
          · exact Or.inl (List.cons_prefix_cons.mpr ⟨rfl, h⟩)
          · exact Or.inr (Or.inl (List.cons_prefix_cons.mpr ⟨rfl, h⟩))
          · exact Or.inr (Or.inr ⟨i + 1, x, y, by simpa using hx, by simpa using hy, hne⟩)
        · exact Or.inr (Or.inr ⟨0, a, b, by simp, by simp, hab⟩)

theorem exists_common_isPrefix (A B : List α) :
    ∃ P, P <+: A ∧ P <+: B ∧ ∀ R, R <+: A → R <+: B → R <+: P := by
  induction A generalizing B with
  | nil => exact ⟨[], List.nil_prefix, List.nil_prefix, fun R hR _ => hR⟩
  | cons a A ih =>
      rcases B with _ | ⟨b, B⟩
      · exact ⟨[], List.nil_prefix, List.nil_prefix, fun R _ hR => hR⟩
      · by_cases hab : a = b
        · subst b
          obtain ⟨P, hPA, hPB, hmax⟩ := ih B
          refine ⟨a :: P, List.cons_prefix_cons.mpr ⟨rfl, hPA⟩,
            List.cons_prefix_cons.mpr ⟨rfl, hPB⟩, ?_⟩
          intro R hRA hRB
          rcases R with _ | ⟨r, R⟩
          · exact List.nil_prefix
          · rw [List.cons_prefix_cons] at hRA hRB ⊢
            exact ⟨hRA.1, hmax R hRA.2 hRB.2⟩
        · refine ⟨[], List.nil_prefix, List.nil_prefix, ?_⟩
          intro R hRA hRB
          rcases R with _ | ⟨r, R⟩
          · exact List.nil_prefix
          · rw [List.cons_prefix_cons] at hRA hRB
            exact absurd (hRA.1.symm.trans hRB.1) hab

theorem take_prefix_of_le {k : Nat} (h : A <+: B) (hk : k ≤ A.length) :
    B.take k = A.take k := by
  obtain ⟨T, rfl⟩ := h
  rw [List.take_append_of_le_length hk]

theorem take_succ_of_getElem? (h : A[i]? = some a) :
    A.take (i + 1) = A.take i ++ [a] := by
  rw [List.take_add_one, h]
  rfl

theorem getElem?_concat_isPrefix {M : List α} (h : M ++ [a] <+: A) :
    A[M.length]? = some a :=
  getElem?_of_isPrefix h (by simp)

theorem take_succ_isPrefix (h : A[i]? = some a) :
    A.take i ++ [a] <+: A := by
  rw [← take_succ_of_getElem? h]
  exact List.take_prefix _ _

theorem prefix_of_le {C : List α} (hA : A <+: C) (hB : B <+: C)
    (hlen : A.length ≤ B.length) : A <+: B :=
  List.prefix_of_prefix_length_le hA hB hlen

end RaftKV.Consensus.Prefix
