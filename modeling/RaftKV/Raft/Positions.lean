import RaftKV.Raft.Snapshotting

namespace RaftKV.Raft

variable {c : Core}

/-- The log goes on from the snapshot without a gap. -/
abbrev Contiguous (c : Core) : Prop :=
  Numbered c.snapIndex c.entries

section Congruence

variable {c' : Core}

theorem lastLogIndex_congr (he : c'.entries = c.entries) (hs : c'.snapIndex = c.snapIndex) :
    lastLogIndex c' = lastLogIndex c := by
  unfold lastLogIndex
  rw [he, hs]

theorem termAt_congr (he : c'.entries = c.entries) (hi : c'.snapIndex = c.snapIndex)
    (ht : c'.snapTerm = c.snapTerm) (index : Nat) : termAt c' index = termAt c index := by
  unfold termAt lastLogIndex
  rw [he, hi, ht]

end Congruence

theorem lastLogIndex_eq (h : Contiguous c) : lastLogIndex c = c.snapIndex + c.entries.length := by
  unfold lastLogIndex
  rw [List.getLast?_eq_getElem?]
  cases hlast : c.entries[c.entries.length - 1]? with
  | none =>
      have hle : c.entries.length ≤ c.entries.length - 1 := List.getElem?_eq_none_iff.mp hlast
      dsimp only
      omega
  | some e =>
      have hlt : c.entries.length - 1 < c.entries.length := by
        obtain ⟨hlt, -⟩ := List.getElem?_eq_some_iff.mp hlast
        exact hlt
      have := h _ e hlast
      dsimp only
      omega

theorem index_of_cons {first : Entry} {rest : List Entry}
    (h : Contiguous c) (he : c.entries = first :: rest) : first.index = c.snapIndex + 1 := by
  rw [Contiguous, he, numbered_cons] at h
  exact h.1

theorem termAt_of_lt (h : Contiguous c) {index : Nat}
    (hi : index < c.snapIndex) : termAt c index = 0 := by
  unfold termAt
  rw [if_neg (by omega)]
  cases he : c.entries with
  | nil => rfl
  | cons first rest =>
      have := index_of_cons h he
      exact if_pos (by omega)

theorem termAt_snapIndex (c : Core) : termAt c c.snapIndex = c.snapTerm :=
  if_pos rfl

theorem termAt_of_gt (h : Contiguous c) (k : Nat) :
    termAt c (c.snapIndex + k + 1) = ((c.entries[k]?).map Entry.term).getD 0 := by
  have hlast := lastLogIndex_eq h
  unfold termAt
  rw [if_neg (by omega)]
  cases he : c.entries with
  | nil => simp
  | cons first rest =>
      have hfirst := index_of_cons h he
      dsimp only
      rw [← he]
      split
      · rw [List.getElem?_eq_none (by omega)]
        rfl
      · rw [hfirst, show c.snapIndex + k + 1 - (c.snapIndex + 1) = k by omega]

theorem retained_eq (h : Contiguous c) {first : Nat} (hf : c.snapIndex < first) :
    retained c first = c.entries.take (first - c.snapIndex - 1) := by
  have hlast := lastLogIndex_eq h
  unfold retained
  cases he : c.entries with
  | nil => simp
  | cons b rest =>
      have hb := index_of_cons h he
      dsimp only
      rw [← he]
      split
      · rw [hb, show first - (c.snapIndex + 1) = first - c.snapIndex - 1 by omega]
      · rw [List.take_of_length_le (by omega)]

theorem conflicting_eq (h : Contiguous c) {first : Nat} (hf : c.snapIndex < first) :
    conflicting c first = c.entries.drop (first - c.snapIndex - 1) := by
  have hlast := lastLogIndex_eq h
  unfold conflicting
  cases he : c.entries with
  | nil => simp
  | cons b rest =>
      have hb := index_of_cons h he
      dsimp only
      rw [← he]
      split
      · rw [hb, show first - (c.snapIndex + 1) = first - c.snapIndex - 1 by omega]
      · rw [List.drop_of_length_le (by omega)]

theorem entriesAfter_eq (h : Contiguous c) {index : Nat} (hi : c.snapIndex < index) :
    entriesAfter c index = c.entries.drop (index - c.snapIndex) := by
  unfold entriesAfter
  cases he : c.entries with
  | nil => simp
  | cons first rest =>
      have hfirst := index_of_cons h he
      dsimp only
      rw [← he]
      rw [hfirst, show index - (c.snapIndex + 1) + 1 = index - c.snapIndex by omega]

theorem mem_entriesAfter (h : Contiguous c) {index : Nat} (hi : c.snapIndex < index) {e : Entry} :
    e ∈ entriesAfter c index ↔ e ∈ c.entries ∧ index < e.index := by
  rw [entriesAfter_eq h hi]
  constructor
  · intro he
    obtain ⟨k, hk⟩ := List.mem_iff_getElem?.mp he
    have := numbered_drop h _ k e hk
    exact ⟨List.mem_of_mem_drop he, by omega⟩
  · rintro ⟨he, hlt⟩
    obtain ⟨k, hk⟩ := List.mem_iff_getElem?.mp he
    have := h k e hk
    refine List.mem_of_getElem? (i := k - (index - c.snapIndex)) ?_
    rw [List.getElem?_drop, Nat.add_sub_cancel' (by omega)]
    exact hk

theorem takeWhile_index_le {base : Nat} {es : List Entry} (h : Numbered base es) (index : Nat) :
    es.takeWhile (fun e => e.index ≤ index) = es.take (index - base) := by
  induction es generalizing base with
  | nil => simp
  | cons e es ih =>
      rw [numbered_cons] at h
      rw [List.takeWhile_cons]
      split
      · rename_i hle
        rw [decide_eq_true_eq] at hle
        rw [ih h.2, show index - base = index - (base + 1) + 1 by omega, List.take_succ_cons]
      · rename_i hle
        rw [decide_eq_true_eq] at hle
        rw [show index - base = 0 by omega, List.take_zero]

theorem configAt_eq (h : Contiguous c) (index : Nat) :
    configAt c index = membersAfter c.snapConfig (c.entries.take (index - c.snapIndex)) := by
  rw [configAt, takeWhile_index_le h]

theorem batch_isPrefix (payload : Nat) (es : List Entry) : batch payload es <+: es := by
  induction es generalizing payload with
  | nil => exact List.prefix_refl []
  | cons e es ih =>
      rw [batch]
      split
      · exact ⟨es, rfl⟩
      · exact (List.prefix_cons_inj e).mpr (ih _)

theorem batch_ne_nil {es : List Entry} (payload : Nat) (h : es ≠ []) : batch payload es ≠ [] := by
  cases es with
  | nil => exact absurd rfl h
  | cons e es =>
      rw [batch]
      split <;> simp

theorem appendRequest_entries (h : Contiguous c) {next : Nat} (hn : c.snapIndex < next) :
    (appendRequest c next).entries = batch 0 (c.entries.drop (next - c.snapIndex - 1)) := by
  have hlast := lastLogIndex_eq h
  unfold appendRequest
  cases he : c.entries with
  | nil => simp [batch]
  | cons first rest =>
      have hfirst := index_of_cons h he
      dsimp only
      rw [← he]
      split
      · rw [hfirst, show next - (c.snapIndex + 1) = next - c.snapIndex - 1 by omega]
      · rw [List.drop_of_length_le (by omega), batch]

theorem membersAfter_append (m : Members) (es fs : List Entry) :
    membersAfter m (es ++ fs) = membersAfter (membersAfter m es) fs :=
  List.foldl_append

theorem membersAfter_of_plain {es : List Entry} (m : Members)
    (h : ∀ e ∈ es, changeOf e = none) : membersAfter m es = m := by
  induction es with
  | nil => rfl
  | cons e es ih =>
      have he : applyChangeOf m e = m := by
        rw [applyChangeOf, h e (by simp)]
      change membersAfter (applyChangeOf m e) es = m
      rw [he]
      exact ih fun f hf => h f (by simp [hf])

end RaftKV.Raft
