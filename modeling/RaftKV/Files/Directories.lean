import Mathlib.Tactic

namespace RaftKV.Files.Directories

abbrev Directory := Std.ExtTreeMap Nat (List UInt8)

variable {m : Directory} {l : List (Nat × List UInt8)} {name : Nat} {b : List UInt8}

theorem sorted_toList (m : Directory) : m.toList.Pairwise fun a b => a.1 < b.1 :=
  Std.ExtTreeMap.ordered_keys_toList.imp fun h => Nat.compare_eq_lt.mp h

theorem mem_toList {p : Nat × List UInt8} : p ∈ m.toList ↔ m[p.1]? = some p.2 :=
  Std.ExtTreeMap.mem_toList_iff_getElem?_eq_some

theorem getElem?_of_toList {rest : List (Nat × List UInt8)}
    (h : m.toList = l ++ (name, b) :: rest) : m[name]? = some b := by
  have hmem : (name, b) ∈ m.toList := by
    rw [h]
    simp
  exact mem_toList.mp hmem

theorem toList_eq (hl : l.Pairwise fun a b => a.1 < b.1)
    (h : ∀ p, p ∈ l ↔ m[p.1]? = some p.2) : m.toList = l := by
  have hnodup : ∀ {l' : List (Nat × List UInt8)}, (l'.Pairwise fun a b => a.1 < b.1) → l'.Nodup :=
    fun hl' => hl'.imp fun hlt heq => by
      rw [heq] at hlt
      exact lt_irrefl _ hlt
  have hperm : m.toList.Perm l :=
    (List.perm_ext_iff_of_nodup (hnodup (sorted_toList m)) (hnodup hl)).mpr
      fun p => mem_toList.trans (h p).symm
  exact hperm.eq_of_pairwise (fun a b _ _ hab hba => absurd hab hba.not_gt) (sorted_toList m) hl

theorem lt_of_mem_append {p q : Nat × List UInt8} (h : m.toList = l ++ [q]) (hp : p ∈ l) :
    p.1 < q.1 := by
  have hsorted := sorted_toList m
  rw [h, List.pairwise_append] at hsorted
  exact hsorted.2.2 p hp q (List.mem_singleton_self q)

theorem le_iff_last {rest : List (Nat × List UInt8)} (h : m.toList = l ++ (name, b) :: rest) :
    (∀ p ∈ m.toList, p.1 ≤ name) ↔ rest = [] := by
  have hsorted := sorted_toList m
  rw [h, List.pairwise_append, List.pairwise_cons] at hsorted
  constructor
  · intro hle
    refine List.eq_nil_iff_forall_not_mem.mpr fun p hp => ?_
    have hlt := hsorted.2.1.1 p hp
    have := hle p (by rw [h]; simp [hp])
    dsimp only at hlt
    omega
  · rintro rfl p hp
    rw [h, List.mem_append, List.mem_singleton] at hp
    rcases hp with hp | rfl
    · exact (lt_of_mem_append h hp).le
    · exact le_rfl

theorem exists_concat_of_max (h : m[name]? = some b) (hmax : ∀ p ∈ m.toList, p.1 ≤ name) :
    ∃ l, m.toList = l ++ [(name, b)] := by
  have hmem : (name, b) ∈ m.toList := mem_toList.mpr h
  have hne : m.toList ≠ [] := List.ne_nil_of_mem hmem
  have hlast := (List.dropLast_append_getLast hne).symm
  generalize m.toList.getLast hne = last at hlast
  have hle := hmax last (by rw [hlast]; simp)
  refine ⟨m.toList.dropLast, ?_⟩
  nth_rewrite 1 [hlast] at hmem
  rcases List.mem_append.mp hmem with hinit | hend
  · exact absurd (lt_of_mem_append hlast hinit) (Nat.not_lt.mpr hle)
  · rw [List.mem_singleton.mp hend]
    exact hlast

theorem toList_insert_at {rest : List (Nat × List UInt8)} {b' : List UInt8}
    (h : m.toList = l ++ (name, b) :: rest) :
    (m.insert name b').toList = l ++ (name, b') :: rest := by
  have hsorted := sorted_toList m
  have hsorted' : (l ++ (name, b') :: rest).Pairwise fun a b => a.1 < b.1 := by
    rw [h, List.pairwise_append, List.pairwise_cons] at hsorted
    rw [List.pairwise_append, List.pairwise_cons]
    refine ⟨hsorted.1, hsorted.2.1, fun p hp q hq => ?_⟩
    rcases List.mem_cons.mp hq with rfl | hq
    · exact hsorted.2.2 p hp (name, b) (by simp)
    · exact hsorted.2.2 p hp q (by simp [hq])
  have hother : ∀ p ∈ l ++ rest, p.1 ≠ name := by
    intro p hp heq
    rw [h, List.pairwise_append, List.pairwise_cons] at hsorted
    rcases List.mem_append.mp hp with hp | hp
    · exact (hsorted.2.2 p hp (name, b) (by simp)).ne heq
    · exact (hsorted.2.1.1 p hp).ne heq.symm
  refine toList_eq hsorted' fun p => ?_
  have hmem : p ∈ l ++ (name, b) :: rest ↔ m[p.1]? = some p.2 := by
    rw [← h]
    exact mem_toList
  rw [Std.ExtTreeMap.getElem?_insert, List.mem_append, List.mem_cons]
  split
  · rename_i heq
    rw [Std.compare_eq_iff_eq] at heq
    constructor
    · rintro (hp | rfl | hp)
      · exact absurd heq.symm (hother p (by simp [hp]))
      · rfl
      · exact absurd heq.symm (hother p (by simp [hp]))
    · intro hb
      exact Or.inr (Or.inl (Prod.ext heq.symm (Option.some.inj hb).symm))
  · rename_i hne
    rw [Std.compare_eq_iff_eq] at hne
    rw [← hmem, List.mem_append, List.mem_cons]
    refine or_congr_right (or_congr_left ?_)
    constructor
    · rintro rfl
      exact absurd rfl hne
    · rintro rfl
      exact absurd rfl hne

theorem toList_insert_last {b' : List UInt8} (h : m.toList = l ++ [(name, b)]) :
    (m.insert name b').toList = l ++ [(name, b')] :=
  toList_insert_at h

theorem toList_insert_new (h : ∀ p ∈ m.toList, p.1 < name) :
    (m.insert name b).toList = m.toList ++ [(name, b)] := by
  refine toList_eq ?_ fun p => ?_
  · rw [List.pairwise_append]
    refine ⟨sorted_toList m, List.pairwise_singleton _ _, fun p hp q hq => ?_⟩
    rw [List.mem_singleton.mp hq]
    exact h p hp
  · rw [List.mem_append, List.mem_singleton, Std.ExtTreeMap.getElem?_insert]
    split
    · rename_i heq
      rw [Std.compare_eq_iff_eq] at heq
      constructor
      · rintro (hp | rfl)
        · exact absurd (h p hp) (by omega)
        · rfl
      · intro hb
        exact Or.inr (Prod.ext heq.symm (Option.some.inj hb).symm)
    · rename_i hne
      rw [Std.compare_eq_iff_eq] at hne
      rw [mem_toList]
      constructor
      · rintro (hp | rfl)
        · exact hp
        · exact absurd rfl hne
      · exact Or.inl

theorem toList_erase_head (h : m.toList = (name, b) :: l) : (m.erase name).toList = l := by
  have hsorted := sorted_toList m
  rw [h, List.pairwise_cons] at hsorted
  refine toList_eq hsorted.2 fun p => ?_
  have hmem : p ∈ (name, b) :: l ↔ m[p.1]? = some p.2 := by
    rw [← h]
    exact mem_toList
  rw [List.mem_cons] at hmem
  rw [Std.ExtTreeMap.getElem?_erase]
  split
  · rename_i heq
    rw [Std.compare_eq_iff_eq] at heq
    constructor
    · intro hp
      exact absurd (hsorted.1 p hp) (by rw [heq]; exact lt_irrefl _)
    · intro hb
      cases hb
  · rename_i hne
    rw [Std.compare_eq_iff_eq] at hne
    rw [← hmem]
    constructor
    · exact Or.inr
    · rintro (rfl | hp)
      · exact absurd rfl hne
      · exact hp

end RaftKV.Files.Directories
