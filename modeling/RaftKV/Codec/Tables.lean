import Mathlib.Tactic

namespace RaftKV.Codec.Tables

variable {α β : Type} [Ord α] [Std.TransOrd α] [Std.LawfulEqOrd α] [DecidableEq α]

/-- The table with the rows of `l` on top of those of `m`. -/
def addRows (m : Std.ExtTreeMap α β) (l : List (α × β)) : Std.ExtTreeMap α β :=
  l.foldl (fun m p => m.insert p.1 p.2) m

theorem getElem?_addRows (l : List (α × β)) (hnd : (l.map Prod.fst).Nodup)
    (m : Std.ExtTreeMap α β) (a : α) :
    (addRows m l)[a]? = ((l.find? fun p => p.1 = a).map Prod.snd).or m[a]? := by
  induction l generalizing m with
  | nil => rfl
  | cons p l ih =>
      rw [List.map_cons, List.nodup_cons] at hnd
      rw [addRows, List.foldl_cons]
      change (addRows (m.insert p.1 p.2) l)[a]? = _
      rw [ih hnd.2, Std.ExtTreeMap.getElem?_insert]
      by_cases hp : p.1 = a
      · subst hp
        have hnone : (l.find? fun q => q.1 = p.1) = none := by
          rw [List.find?_eq_none]
          intro q hq heq
          rw [decide_eq_true_eq] at heq
          exact hnd.1 (heq ▸ List.mem_map_of_mem hq)
        simp [hnone]
      · simp [hp]

theorem addRows_of_perm {m : Std.ExtTreeMap α β} {l : List (α × β)} (h : l.Perm m.toList) :
    addRows ∅ l = m := by
  have hnd : (l.map Prod.fst).Nodup := by
    rw [(h.map Prod.fst).nodup_iff, Std.ExtTreeMap.map_fst_toList_eq_keys]
    exact Std.ExtTreeMap.nodup_keys
  have hrow : ∀ p, p ∈ l ↔ m[p.1]? = some p.2 := fun p =>
    h.mem_iff.trans Std.ExtTreeMap.mem_toList_iff_getElem?_eq_some
  apply Std.ExtTreeMap.ext_getElem?
  intro a
  rw [getElem?_addRows l hnd, Std.ExtTreeMap.getElem?_empty, Option.or_none]
  cases hfind : l.find? fun p => p.1 = a with
  | none =>
      cases hget : m[a]? with
      | none => rfl
      | some b =>
          have := List.find?_eq_none.mp hfind (a, b) ((hrow (a, b)).mpr hget)
          simp at this
  | some p =>
      have hp : p.1 = a := by simpa using List.find?_some hfind
      rw [← hp, (hrow p).mp (List.mem_of_find?_eq_some hfind)]
      rfl

end RaftKV.Codec.Tables
