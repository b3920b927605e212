import RaftKV.Consensus.Preservation

namespace RaftKV.Consensus.Commitment

open Consensus.Prefix Consensus.Protocol Consensus.Completeness Consensus.Preservation

variable {N E : Type*} {s s' : State N E} {e : E} {L : List E} {c p t : Nat}

/-- The first `c` entries of `L` are covered by a commit of a term up to `t`. -/
def Committed (s : State N E) (t c : Nat) (L : List E) : Prop :=
  c ≤ L.length ∧
    (c = 0 ∨ ∃ cm ∈ s.commits, cm.term ≤ t ∧ c ≤ cm.len ∧ L.take c <+: s.leadLog cm.term)

/-- `e` is the committed entry at position `p`. -/
def Chosen (s : State N E) (p : Nat) (e : E) : Prop :=
  ∃ cm ∈ s.commits, p < cm.len ∧ (s.leadLog cm.term)[p]? = some e

/-- Every entry of `L` is the committed one at its position. -/
def ChosenLog (s : State N E) (L : List E) : Prop :=
  ∀ p e, L[p]? = some e → Chosen s p e

theorem committed_zero (t : Nat) (L : List E) : Committed s t 0 L :=
  ⟨Nat.zero_le _, Or.inl rfl⟩

theorem committed_mono (hg : Grows s s') {t' : Nat} {L' : List E}
    (h : Committed s t c L) (ht : t ≤ t') (hL : L.take c <+: L') : Committed s' t' c L' := by
  have hlen : (L.take c).length = c := by
    rw [List.length_take]
    exact min_eq_left h.1
  have hcL' : c ≤ L'.length := hlen ▸ hL.length_le
  refine ⟨hcL', h.2.imp_right ?_⟩
  rintro ⟨cm, hcm, hterm, hclen, hpre⟩
  refine ⟨cm, hg.commits hcm, hterm.trans ht, hclen, ?_⟩
  have htake : L'.take c = L.take c := by
    have := take_prefix_of_le hL hlen.ge
    rwa [List.take_take, min_self] at this
  rw [htake]
  exact hpre.trans (leadLog_isPrefix hg cm.term)

theorem committed_of_le {c' : Nat} (h : Committed s t c L) (hc : c' ≤ c) :
    Committed s t c' L := by
  refine ⟨hc.trans h.1, ?_⟩
  rcases h.2 with rfl | ⟨cm, hcm, hterm, hclen, hpre⟩
  · exact Or.inl (by omega)
  · exact Or.inr ⟨cm, hcm, hterm, hc.trans hclen, (List.take_prefix_take_left hc).trans hpre⟩

theorem committed_congr {L' : List E} (h : Committed s t c L)
    (hL : L.take c <+: L') : Committed s t c L' :=
  committed_mono (grows_refl s) h le_rfl hL

theorem chosen_mono (hg : Grows s s') (h : Chosen s p e) : Chosen s' p e := by
  obtain ⟨cm, hcm, hp, hget⟩ := h
  exact ⟨cm, hg.commits hcm, hp, getElem?_of_isPrefix (leadLog_isPrefix hg cm.term) hget⟩

theorem chosen_of_committed (h : Committed s t c L)
    (hp : p < c) (he : L[p]? = some e) : Chosen s p e := by
  rcases h.2 with rfl | ⟨cm, hcm, -, hclen, hpre⟩
  · omega
  · refine ⟨cm, hcm, by omega, getElem?_of_isPrefix hpre ?_⟩
    rw [List.getElem?_take, if_pos hp]
    exact he

theorem chosenLog_mono (hg : Grows s s') (h : ChosenLog s L) : ChosenLog s' L :=
  fun p e hp => chosen_mono hg (h p e hp)

theorem chosenLog_of_committed (h : Committed s t c L) :
    ChosenLog s (L.take c) := by
  intro p e hp
  rw [List.getElem?_take] at hp
  split at hp
  · rename_i hlt
    exact chosen_of_committed h hlt hp
  · cases hp

theorem chosenLog_append {A B : List E} (hA : ChosenLog s A)
    (hB : ∀ p e, B[p]? = some e → Chosen s (A.length + p) e) : ChosenLog s (A ++ B) := by
  intro p e hp
  rcases Nat.lt_or_ge p A.length with hlt | hge
  · rw [List.getElem?_append_left hlt] at hp
    exact hA p e hp
  · rw [List.getElem?_append_right hge] at hp
    have hchosen := hB _ e hp
    rwa [Nat.add_sub_cancel' hge] at hchosen

variable [DecidableEq N] {S : Scheme N E}

theorem commit_prefix_lead (h : Inv S s) {cm : Commit N} (hcm : cm ∈ s.commits)
    {l : Lead N E} (hl : s.lead t = some l) (ht : cm.term ≤ t) :
    (s.leadLog cm.term).take cm.len <+: l.log := by
  rcases Nat.lt_or_eq_of_le ht with hlt | rfl
  · exact (leadsComplete h (t + 1) t (Nat.lt_succ_self t) l hl cm hcm hlt).trans
      (init_isPrefix (h.lead t l hl))
  · rw [leadLog_eq hl]
    exact List.take_prefix _ _

theorem committed_prefix_lead (h : Inv S s)
    (hL : Committed s t c L) {l : Lead N E} {t' : Nat} (hl : s.lead t' = some l)
    (ht : t ≤ t') : L.take c <+: l.log := by
  rcases hL.2 with rfl | ⟨cm, hcm, hterm, hclen, hpre⟩
  · simp
  · refine List.IsPrefix.trans ?_ (commit_prefix_lead h hcm hl (hterm.trans ht))
    rw [List.prefix_take_iff]
    refine ⟨hpre, ?_⟩
    rw [List.length_take]
    omega

/-- State machine safety: at most one entry is ever committed at a position. -/
theorem chosen_unique (h : Inv S s) {e' : E} (hc : Chosen s p e)
    (hc' : Chosen s p e') : e = e' := by
  have key : ∀ {cm cm' : Commit N} {a a' : E}, cm ∈ s.commits → cm' ∈ s.commits →
      p < cm.len → p < cm'.len → (s.leadLog cm.term)[p]? = some a →
      (s.leadLog cm'.term)[p]? = some a' → cm.term ≤ cm'.term → a = a' := by
    intro cm cm' a a' hcm hcm' hp hp' ha ha' hle
    obtain ⟨l, hok⟩ := h.commit cm' hcm'
    have hpre := commit_prefix_lead h hcm hok.lead hle
    have hget : l.log[p]? = some a := by
      refine getElem?_of_isPrefix hpre ?_
      rw [List.getElem?_take, if_pos hp]
      exact ha
    rw [leadLog_eq hok.lead, hget] at ha'
    exact Option.some.inj ha'
  obtain ⟨cm, hcm, hp, hget⟩ := hc
  obtain ⟨cm', hcm', hp', hget'⟩ := hc'
  rcases Nat.le_total cm.term cm'.term with hle | hle
  · exact key hcm hcm' hp hp' hget hget' hle
  · exact (key hcm' hcm hp' hp hget' hget hle).symm

theorem isPrefix_of_chosenLog (h : Inv S s) {A B : List E} (hA : ChosenLog s A)
    (hB : ChosenLog s B) (hle : A.length ≤ B.length) : A <+: B := by
  refine List.prefix_iff_getElem?.mpr fun p hp => ?_
  have hget : B[p]? = some B[p] := List.getElem?_eq_getElem (by omega)
  rw [hget, chosen_unique h (hA p _ (List.getElem?_eq_getElem hp)) (hB p _ hget)]

theorem exists_chosenLog (h : Inv S s) {es : List E} (hL : ChosenLog s L) {n : Nat}
    (hn : n ≤ L.length) (hes : ∀ p e, es[p]? = some e → Chosen s (n + p) e) :
    ∃ L', L <+: L' ∧ ChosenLog s L' ∧ n + es.length ≤ L'.length ∧
      L'.take (n + es.length) = L.take n ++ es ∧ ∀ e ∈ L', e ∈ L ∨ e ∈ es := by
  have hlen : (L.take n).length = n := by
    rw [List.length_take, min_eq_left hn]
  have hA : ChosenLog s (L.take n ++ es) := by
    refine chosenLog_append (fun p e hp => ?_) (fun p e hp => hlen.symm ▸ hes p e hp)
    exact hL p e (getElem?_of_isPrefix (List.take_prefix n L) hp)
  have hAlen : (L.take n ++ es).length = n + es.length := by
    rw [List.length_append, hlen]
  rcases Nat.le_total (n + es.length) L.length with hle | hle
  · have hpre := isPrefix_of_chosenLog h hA hL (hAlen ▸ hle)
    refine ⟨L, List.prefix_refl L, hL, hle, ?_, fun e he => Or.inl he⟩
    rw [← hAlen]
    exact (List.prefix_iff_eq_take.mp hpre).symm
  · refine ⟨L.take n ++ es, isPrefix_of_chosenLog h hL hA (hAlen ▸ hle), hA, hAlen.ge, ?_, ?_⟩
    · rw [← hAlen, List.take_length]
    · intro e he
      exact (List.mem_append.mp he).imp_left List.mem_of_mem_take

end RaftKV.Consensus.Commitment
