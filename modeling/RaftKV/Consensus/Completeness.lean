import RaftKV.Consensus.Protocol

namespace RaftKV.Consensus.Completeness

open Consensus.Quorum Consensus.Prefix Consensus.Protocol

variable {N E : Type*} {s : State N E}

theorem leadLog_eq {t : Nat} {l : Lead N E} (h : s.lead t = some l) :
    s.leadLog t = l.log := by
  simp [State.leadLog, h]

variable [DecidableEq N] {S : Scheme N E} {e : E} {L : List E} {p : Nat}

theorem matched_of_isPrefix {L' : List E} (h : Matched S s L) (hL : L' <+: L) :
    Matched S s L' :=
  fun M e hM => h M e (hM.trans hL)

theorem lastTerm_concat (M : List E) (e : E) : lastTerm S (M ++ [e]) = S.term e := by
  simp [lastTerm]

theorem exists_lead_of_matched (h : Matched S s L) (hne : L ≠ []) :
    ∃ l, s.lead (lastTerm S L) = some l ∧ L <+: l.log := by
  rcases List.eq_nil_or_concat L with rfl | ⟨M, e, rfl⟩
  · exact absurd rfl hne
  · rw [List.concat_eq_append, lastTerm_concat]
    exact h M e (by simp)

theorem exists_lead_of_getElem? (h : Matched S s L)
    (hp : L[p]? = some e) :
    ∃ l, s.lead (S.term e) = some l ∧ L.take p ++ [e] <+: l.log ∧ l.log[p]? = some e := by
  obtain ⟨l, hl, hpre⟩ := h _ _ (take_succ_isPrefix hp)
  refine ⟨l, hl, hpre, ?_⟩
  have hlen : (L.take p).length = p := by
    rw [List.length_take]
    have := (List.getElem?_eq_some_iff.mp hp).1
    omega
  simpa [hlen] using getElem?_concat_isPrefix hpre

theorem sorted_of_matched (h : Inv S s) (hL : Matched S s L) :
    L.Pairwise fun a b => S.term a ≤ S.term b := by
  by_cases hne : L = []
  · simp [hne]
  · obtain ⟨l, hl, hpre⟩ := exists_lead_of_matched hL hne
    exact (h.lead _ l hl).sorted.sublist hpre.sublist

theorem term_le_of_sorted (h : L.Pairwise fun a b => S.term a ≤ S.term b)
    {q : Nat} {e' : E} (hp : L[p]? = some e) (hq : L[q]? = some e') (hpq : p ≤ q) :
    S.term e ≤ S.term e' := by
  rcases Nat.lt_or_eq_of_le hpq with hlt | rfl
  · obtain ⟨hp', rfl⟩ := List.getElem?_eq_some_iff.mp hp
    obtain ⟨hq', rfl⟩ := List.getElem?_eq_some_iff.mp hq
    exact List.pairwise_iff_getElem.mp h p q hp' hq' hlt
  · rw [hp] at hq
    rw [Option.some.inj hq]

theorem term_le_lastTerm (h : Inv S s) (hL : Matched S s L)
    (hp : L[p]? = some e) : S.term e ≤ lastTerm S L := by
  rcases List.eq_nil_or_concat L with rfl | ⟨M, a, rfl⟩
  · simp at hp
  · rw [List.concat_eq_append] at hL hp ⊢
    rw [lastTerm_concat]
    have hlt := (List.getElem?_eq_some_iff.mp hp).1
    have hlast : (M ++ [a])[M.length]? = some a := by simp
    refine term_le_of_sorted (sorted_of_matched h hL) hp hlast ?_
    simp at hlt
    omega

section Lead

variable {t : Nat} {l : Lead N E}

theorem init_isPrefix (h : LeadOK S s t l) : l.init <+: l.log := by
  obtain ⟨e, T, hlog, -⟩ := h.own
  exact ⟨e :: T, hlog.symm⟩

theorem init_length_lt (h : LeadOK S s t l) : l.init.length < l.log.length := by
  obtain ⟨e, T, hlog, -⟩ := h.own
  simp [hlog]

theorem term_eq_of_init_le (h : LeadOK S s t l) (hp : l.log[p]? = some e)
    (hinit : l.init.length ≤ p) : S.term e = t := by
  obtain ⟨a, T, hlog, hown⟩ := h.own
  rw [hlog, List.getElem?_append_right hinit] at hp
  exact hown e (List.mem_of_getElem? hp)

theorem init_le_of_term_eq (h : LeadOK S s t l) (hp : l.log[p]? = some e)
    (hterm : S.term e = t) : l.init.length ≤ p := by
  by_contra hlt
  rw [Nat.not_le] at hlt
  rw [← getElem?_eq_of_isPrefix (init_isPrefix h) hlt] at hp
  have := h.init_lt e (List.mem_of_getElem? hp)
  omega

theorem term_le_of_lead (h : LeadOK S s t l) (hp : l.log[p]? = some e) :
    S.term e ≤ t := by
  by_cases hinit : l.init.length ≤ p
  · exact (term_eq_of_init_le h hp hinit).le
  · rw [Nat.not_le] at hinit
    rw [← getElem?_eq_of_isPrefix (init_isPrefix h) hinit] at hp
    exact (h.init_lt e (List.mem_of_getElem? hp)).le

theorem init_prefix_of_lastTerm (h : LeadOK S s t l) (hL : L <+: l.log)
    (hlast : lastTerm S L = t) (hne : L ≠ []) :
    l.init <+: L ∧ l.init.length < L.length := by
  rcases List.eq_nil_or_concat L with rfl | ⟨M, e, rfl⟩
  · exact absurd rfl hne
  · rw [List.concat_eq_append] at hL hlast ⊢
    rw [lastTerm_concat] at hlast
    have hle := init_le_of_term_eq h (getElem?_concat_isPrefix hL) hlast
    have hlen : l.init.length < (M ++ [e]).length := by
      simp
      omega
    exact ⟨prefix_of_le (init_isPrefix h) hL hlen.le, hlen⟩

end Lead

theorem config_take_succ (hp : L[p]? = some e)
    (he : ¬ S.isConfig e) : S.config (L.take (p + 1)) = S.config (L.take p) := by
  rw [take_succ_of_getElem? hp, S.config_concat _ _ he]

theorem config_take_eq {a b : Nat} (hab : a ≤ b)
    (hnone : ∀ (p : Nat) (e : E), a ≤ p → p < b → L[p]? = some e → ¬ S.isConfig e) :
    S.config (L.take b) = S.config (L.take a) := by
  induction b, hab using Nat.le_induction with
  | base => rfl
  | succ b hab ih =>
      have hprev := ih fun p e hp hpb => hnone p e hp (by omega)
      cases hb : L[b]? with
      | none =>
          rw [← hprev, List.take_add_one, hb]
          simp
      | some e => rw [config_take_succ hb (hnone b e hab (by omega) hb), hprev]

theorem config_take_adjacent {a b : Nat} (hab : a ≤ b)
    (hone : ∀ (p q : Nat) (e e' : E), a ≤ p → p < q → q < b → L[p]? = some e → L[q]? = some e' →
      S.isConfig e → ¬ S.isConfig e') :
    Adjacent (S.config (L.take a)) (S.config (L.take b)) := by
  induction b, hab using Nat.le_induction with
  | base => exact adjacent_refl _
  | succ b hab ih =>
      have hprev := ih fun p q e e' hp hpq hqb => hone p q e e' hp hpq (by omega)
      cases hb : L[b]? with
      | none =>
          rw [List.take_add_one, hb]
          simpa using hprev
      | some e =>
          by_cases he : S.isConfig e
          · rw [take_succ_of_getElem? hb, ← config_take_eq hab (L := L)]
            · exact S.config_adjacent _ _
            · intro p e' hp hpb hpe hconf
              exact hone p b e' e hp hpb (by omega) hpe hb hconf he
          · rw [config_take_succ hb he]
            exact hprev

/-- Enough to lead term `t` with log `I`: a majority of the configuration `I`
spells out voted for it. A voter's log may have been rewritten by leaders of terms
below `b`, which is `t` for a leader's own voters and `t + 1` for a candidate's. -/
structure Elected (S : Scheme N E) (s : State N E) (t b : Nat) (I : List E) (Q : Finset N) :
    Prop where
  matched : Matched S s I
  lt : ∀ e ∈ I, S.term e < t
  majority : Majority Q (S.config I)
  vote_matched : ∀ x ∈ Q, Matched S s (s.voteLog x t)
  upToDate : ∀ x ∈ Q, UpToDate S I (s.voteLog x t)
  kept : ∀ x ∈ Q, ∀ r k, r < t → k ≤ s.acc x r → Kept s r k (s.voteLog x t) b

theorem elected_of_lead (h : Inv S s) {t : Nat} {l : Lead N E} (hl : s.lead t = some l) :
    Elected S s t t l.init l.voters := by
  have hok := h.lead t l hl
  exact
    { matched := matched_of_isPrefix hok.matched (init_isPrefix hok)
      lt := hok.init_lt
      majority := hok.majority
      vote_matched := fun x hx => h.vote_matched x t _ (hok.voted x hx)
      upToDate := hok.upToDate
      kept := hok.kept }

/-- What the commit decision `cm` promises to every later leader. -/
def Has (s : State N E) (cm : Commit N) (I : List E) : Prop :=
  (s.leadLog cm.term).take cm.len <+: I

/-- Every leader of a term below `b` was elected with all earlier commits. -/
def LeadsComplete (s : State N E) (b : Nat) : Prop :=
  ∀ u < b, ∀ l, s.lead u = some l → ∀ cm ∈ s.commits, cm.term < u → Has s cm l.init

section Configurations

variable {I J P : List E}

/-- A configuration entry of `I` past what `I` shares with `J` was proposed after
a commit of its own term, and `J` has that commit: so it is the only one. -/
theorem config_beyond (h : Inv S s) (hI : Matched S s I)
    (hmax : ∀ R, R <+: I → R <+: J → R <+: P)
    (hJ : ∀ cm ∈ s.commits, (∃ e ∈ I, S.term e = cm.term) → Has s cm J)
    (hp : I[p]? = some e) (hconf : S.isConfig e) :
    ∃ (k : Nat) (e₀ : E), P[k]? = some e₀ ∧ S.term e₀ = S.term e ∧
      ∀ (q : Nat) (e' : E), I[q]? = some e' → q < p → S.isConfig e' → q < P.length := by
  obtain ⟨l, hl, hpre, hlp⟩ := exists_lead_of_getElem? hI hp
  have hok := h.lead _ l hl
  obtain ⟨cm, hcm, hterm, hlen, -, hbelow⟩ :=
    hok.guarded p e hlp (init_le_of_term_eq hok hlp rfl) hconf
  obtain ⟨l', hcok⟩ := h.commit cm hcm
  have hll : l' = l := by
    have := hcok.lead
    rw [hterm, hl] at this
    exact (Option.some.inj this).symm
  subst l'
  have hpI : p < I.length := (List.getElem?_eq_some_iff.mp hp).1
  have htake : l.log.take p = I.take p := by
    have hIp : I.take p <+: l.log := (List.prefix_append _ _).trans hpre
    rw [take_prefix_of_le hIp (by simp; omega), List.take_take, min_self]
  have hcmp : cm.len ≤ p := by
    rw [List.length_take] at hlen
    omega
  have hcmI : l.log.take cm.len <+: I := by
    rw [← min_eq_left hcmp, ← List.take_take, htake]
    exact (List.take_prefix _ _).trans (List.take_prefix _ _)
  have hcmJ : l.log.take cm.len <+: J := by
    have := hJ cm hcm ⟨e, List.mem_of_getElem? hp, hterm.symm⟩
    rwa [Has, hterm, leadLog_eq hl] at this
  have hcmP := hmax _ hcmI hcmJ
  have hPlen : cm.len ≤ P.length := by
    have := hcmP.length_le
    rw [List.length_take] at this
    have := hcok.len_le
    omega
  have hpos := hcok.init_lt
  have hlast : cm.len - 1 < (l.log.take cm.len).length := by
    rw [List.length_take]
    have := hcok.len_le
    omega
  refine ⟨cm.len - 1, (l.log.take cm.len)[cm.len - 1], ?_, ?_, ?_⟩
  · exact getElem?_of_isPrefix hcmP (List.getElem?_eq_getElem hlast)
  · refine term_eq_of_init_le hok (p := cm.len - 1) ?_ (by omega)
    exact getElem?_of_isPrefix (List.take_prefix _ _) (List.getElem?_eq_getElem hlast)
  · intro q e' hq hqp hconf'
    have hq' : (l.log.take p)[q]? = some e' := by
      rw [htake, List.getElem?_take, if_pos hqp]
      exact hq
    have := hbelow q e' hq' hconf'
    omega

/-- Configuration entries past the shared part in both logs: their terms would
have to be ordered both ways, or both logs share one of them. -/
theorem not_config_beyond_both (h : Inv S s) (hI : Matched S s I) (hJ : Matched S s J)
    (hPI : P <+: I) (hPJ : P <+: J) (hmax : ∀ R, R <+: I → R <+: J → R <+: P)
    {q k₁ k₂ : Nat} {e' e₁ e₂ : E} (hp : I[p]? = some e) (hq : J[q]? = some e')
    (hpP : P.length ≤ p) (hqP : P.length ≤ q) (hk₁ : P[k₁]? = some e₁)
    (hk₂ : P[k₂]? = some e₂) (ht₁ : S.term e₁ = S.term e) (ht₂ : S.term e₂ = S.term e') :
    False := by
  have hk₁P := (List.getElem?_eq_some_iff.mp hk₁).1
  have hk₂P := (List.getElem?_eq_some_iff.mp hk₂).1
  have hle : S.term e ≤ S.term e' := by
    rw [← ht₁]
    exact term_le_of_sorted (sorted_of_matched h hJ) (getElem?_of_isPrefix hPJ hk₁) hq (by omega)
  have hge : S.term e' ≤ S.term e := by
    rw [← ht₂]
    exact term_le_of_sorted (sorted_of_matched h hI) (getElem?_of_isPrefix hPI hk₂) hp (by omega)
  obtain ⟨l, hl, hpre, -⟩ := exists_lead_of_getElem? hI hp
  obtain ⟨l', hl', hpre', -⟩ := exists_lead_of_getElem? hJ hq
  have hll : l' = l := by
    rw [← le_antisymm hle hge, hl] at hl'
    exact (Option.some.inj hl').symm
  subst l'
  have hpI := (List.getElem?_eq_some_iff.mp hp).1
  have hqJ := (List.getElem?_eq_some_iff.mp hq).1
  have hshared : ∀ R, R <+: I → R <+: J → R.length ≤ P.length :=
    fun R hRI hRJ => (hmax R hRI hRJ).length_le
  rcases Nat.le_total p q with hpq | hpq
  · have hpre₂ : I.take p ++ [e] <+: J.take q ++ [e'] :=
      prefix_of_le hpre hpre' (by simp; omega)
    have := hshared _ (take_succ_isPrefix hp) (hpre₂.trans (take_succ_isPrefix hq))
    simp at this
    omega
  · have hpre₂ : J.take q ++ [e'] <+: I.take p ++ [e] :=
      prefix_of_le hpre' hpre (by simp; omega)
    have := hshared _ (hpre₂.trans (take_succ_isPrefix hp)) (take_succ_isPrefix hq)
    simp at this
    omega

theorem adjacent_of_shared (hPI : P <+: I)
    (hone : ∀ (p q : Nat) (e e' : E), P.length ≤ p → p < q → I[p]? = some e → I[q]? = some e' →
      S.isConfig e → ¬ S.isConfig e') :
    Adjacent (S.config P) (S.config I) := by
  have h := config_take_adjacent (S := S) (L := I) hPI.length_le
    fun p q e e' hp hpq _ => hone p q e e' hp hpq
  rwa [List.take_length, take_prefix_of_le hPI le_rfl, List.take_length] at h

theorem config_eq_of_shared (hPI : P <+: I)
    (hnone : ∀ (p : Nat) (e : E), P.length ≤ p → I[p]? = some e → ¬ S.isConfig e) :
    S.config I = S.config P := by
  have h := config_take_eq (S := S) (L := I) hPI.length_le fun p e hp _ => hnone p e hp
  rwa [List.take_length, take_prefix_of_le hPI le_rfl, List.take_length] at h

theorem config_adjacent_of_complete (h : Inv S s) (hI : Matched S s I) (hJ : Matched S s J)
    (hIJ : ∀ cm ∈ s.commits, (∃ e ∈ I, S.term e = cm.term) → Has s cm J)
    (hJI : ∀ cm ∈ s.commits, (∃ e ∈ J, S.term e = cm.term) → Has s cm I) :
    Adjacent (S.config I) (S.config J) := by
  obtain ⟨P, hPI, hPJ, hmax⟩ := exists_common_isPrefix I J
  have hmax' : ∀ R, R <+: J → R <+: I → R <+: P := fun R hRJ hRI => hmax R hRI hRJ
  have honeI : ∀ (p q : Nat) (e e' : E), P.length ≤ p → p < q → I[p]? = some e →
      I[q]? = some e' → S.isConfig e → ¬ S.isConfig e' := by
    intro p q e e' hp hpq hpe hqe hconf hconf'
    obtain ⟨-, -, -, -, hbelow⟩ := config_beyond h hI hmax hIJ hqe hconf'
    have := hbelow p e hpe hpq hconf
    omega
  have honeJ : ∀ (p q : Nat) (e e' : E), P.length ≤ p → p < q → J[p]? = some e →
      J[q]? = some e' → S.isConfig e → ¬ S.isConfig e' := by
    intro p q e e' hp hpq hpe hqe hconf hconf'
    obtain ⟨-, -, -, -, hbelow⟩ := config_beyond h hJ hmax' hJI hqe hconf'
    have := hbelow p e hpe hpq hconf
    omega
  by_cases hbeyond : ∃ (p : Nat) (e : E), P.length ≤ p ∧ I[p]? = some e ∧ S.isConfig e
  · obtain ⟨p, e, hpP, hp, hconf⟩ := hbeyond
    have hnoneJ : ∀ (q : Nat) (e' : E), P.length ≤ q → J[q]? = some e' → ¬ S.isConfig e' := by
      intro q e' hqP hq hconf'
      obtain ⟨k₁, e₁, hk₁, ht₁, -⟩ := config_beyond h hI hmax hIJ hp hconf
      obtain ⟨k₂, e₂, hk₂, ht₂, -⟩ := config_beyond h hJ hmax' hJI hq hconf'
      exact not_config_beyond_both h hI hJ hPI hPJ hmax hp hq hpP hqP hk₁ hk₂ ht₁ ht₂
    rw [config_eq_of_shared hPJ hnoneJ]
    exact adjacent_comm (adjacent_of_shared hPI honeI)
  · have hnoneI : ∀ (p : Nat) (e : E), P.length ≤ p → I[p]? = some e → ¬ S.isConfig e :=
      fun p e hpP hp hconf => hbeyond ⟨p, e, hpP, hp, hconf⟩
    rw [config_eq_of_shared hPI hnoneI]
    exact adjacent_of_shared hPJ honeJ

end Configurations

section Elections

variable {t b : Nat} {I : List E} {Q : Finset N} {cm : Commit N} {l : Lead N E}

theorem has_of_lt_lastTerm (h : Inv S s)
    (hlater : LeadsComplete s b) (htb : t ≤ b)
    (hel : Elected S s t b I Q) (hcm : cm ∈ s.commits) (hlast : cm.term < lastTerm S I) :
    Has s cm I := by
  have hne : I ≠ [] := by
    rintro rfl
    simp [lastTerm] at hlast
  obtain ⟨l, hl, hpre⟩ := exists_lead_of_matched hel.matched hne
  have hlt : lastTerm S I < t := by
    rcases List.eq_nil_or_concat I with rfl | ⟨M, e, rfl⟩
    · exact absurd rfl hne
    · rw [List.concat_eq_append, lastTerm_concat]
      exact hel.lt e (by simp)
  have hinit := hlater _ (by omega) l hl cm hcm hlast
  exact hinit.trans (init_prefix_of_lastTerm (h.lead _ l hl) hpre rfl hne).1

theorem has_of_voter (h : Inv S s)
    (hlater : LeadsComplete s b)
    (hel : Elected S s t b I Q) (hcm : cm ∈ s.commits) (hok : CommitOK S s cm l)
    (hlt : cm.term < t) (hlast : lastTerm S I ≤ cm.term) {x : N} (hxQ : x ∈ Q)
    (hx : x ∈ cm.quorum) : lastTerm S I = cm.term ∧ Has s cm I := by
  have hlead := h.lead _ l hok.lead
  have hV : l.log.take cm.len <+: s.voteLog x t := by
    rcases hel.kept x hxQ cm.term cm.len hlt (hok.acc x hx) with hpre | ⟨u, l', hu, hut, hl', hc⟩
    · rwa [leadLog_eq hok.lead] at hpre
    · -- the conflicting leader is itself later than the commit and has it
      have hinit := hlater u hut l' hl' cm hcm hu
      exact absurd hc (not_conflict_of_isPrefix (hinit.trans (init_isPrefix (h.lead u l' hl'))))
  have hpos := hok.init_lt
  have hlen := hok.len_le
  have hVlen : cm.len ≤ (s.voteLog x t).length := by
    have := hV.length_le
    rw [List.length_take] at this
    omega
  have hVlast : cm.term ≤ lastTerm S (s.voteLog x t) := by
    have hlt' : cm.len - 1 < l.log.length := by omega
    have hget : (s.voteLog x t)[cm.len - 1]? = some l.log[cm.len - 1] := by
      refine getElem?_of_isPrefix hV ?_
      rw [List.getElem?_take, if_pos (by omega), List.getElem?_eq_getElem hlt']
    have hterm : S.term l.log[cm.len - 1] = cm.term :=
      term_eq_of_init_le hlead (List.getElem?_eq_getElem hlt') (by omega)
    rw [← hterm]
    exact term_le_lastTerm h (hel.vote_matched x hxQ) hget
  rcases hel.upToDate x hxQ with hgt | ⟨heq, hIlen⟩
  · omega
  · have hIterm : lastTerm S I = cm.term := by omega
    have hne : I ≠ [] := by
      rintro rfl
      rw [List.length_nil] at hIlen
      omega
    obtain ⟨l', hl', hIpre⟩ := exists_lead_of_matched hel.matched hne
    rw [hIterm, hok.lead] at hl'
    obtain rfl : l = l' := Option.some.inj hl'
    refine ⟨hIterm, ?_⟩
    rw [Has, leadLog_eq hok.lead]
    refine prefix_of_le (List.take_prefix _ _) hIpre ?_
    rw [List.length_take]
    omega

/-- The elected log ends in the term of the commit. Between its end and the
configuration the commit used there is at most one configuration entry, unless an
earlier commit of the same term already reached past the end. -/
theorem has_of_lastTerm_eq (h : Inv S s)
    (hlater : LeadsComplete s b)
    (hel : Elected S s t b I Q) (hlt : lastTerm S I < t) (hne : I ≠ []) :
    ∀ n, ∀ cm ∈ s.commits, cm.confLen = n → cm.term = lastTerm S I → Has s cm I := by
  intro n
  induction n using Nat.strong_induction_on with
  | _ n ih =>
      intro cm hcm hn hterm
      obtain ⟨l, hok⟩ := h.commit cm hcm
      have hl := hok.lead
      have hlead := h.lead _ l hl
      obtain ⟨l', hl', hIpre⟩ := exists_lead_of_matched hel.matched hne
      rw [← hterm, hl] at hl'
      obtain rfl : l = l' := Option.some.inj hl'
      have hinit := (init_prefix_of_lastTerm hlead hIpre hterm.symm hne).2
      by_contra hnot
      have hshort : I.length < cm.len := by
        by_contra hle
        refine hnot ?_
        rw [Has, leadLog_eq hl]
        refine prefix_of_le (List.take_prefix _ _) hIpre ?_
        rw [List.length_take]
        omega
      have hnear := hok.near
      have hadj : Adjacent (S.config I) (S.config (l.log.take cm.confLen)) := by
        have hIt : l.log.take I.length = I := by
          rw [take_prefix_of_le hIpre le_rfl, List.take_length]
        have := config_take_adjacent (S := S) (L := l.log) (a := I.length)
          (b := cm.confLen) (by omega) ?_
        · rwa [hIt] at this
        · intro p q e e' hp hpq hq hpe hqe hconf hconf'
          obtain ⟨cm₀, hcm₀, hterm₀, hlen₀, hconf₀, hbelow⟩ :=
            hlead.guarded q e' hqe (by omega) hconf'
          rw [List.length_take] at hlen₀ hconf₀
          have hhas := ih cm₀.confLen (by omega) cm₀ hcm₀ rfl (hterm₀.trans hterm)
          have hple : p < cm₀.len := by
            refine hbelow p e ?_ hconf
            rw [List.getElem?_take, if_pos hpq]
            exact hpe
          rw [Has, hterm₀, leadLog_eq hl] at hhas
          have := hhas.length_le
          rw [List.length_take] at this
          omega
      obtain ⟨x, hxQ, hx⟩ := exists_mem_of_majority hel.majority hok.majority hadj
      exact hnot (has_of_voter h hlater hel hcm hok (by omega) hterm.ge hxQ hx).2

/-- No log that ends in an older term can be elected past a commit: the first
commit of a term uses the configuration its leader was elected with, and that one
overlaps with the configuration of the elected log. -/
theorem lastTerm_ge_of_commit (h : Inv S s)
    (hlater : LeadsComplete s b) (htb : t ≤ b)
    (hel : Elected S s t b I Q) {r : Nat} (hrt : r < t)
    (hearlier : ∀ cm' ∈ s.commits, cm'.term < r → Has s cm' I) :
    ∀ n, ∀ cm ∈ s.commits, cm.confLen = n → cm.term = r → r ≤ lastTerm S I := by
  intro n
  induction n using Nat.strong_induction_on with
  | _ n ih =>
      intro cm hcm hn hterm
      subst hterm
      by_contra hlt
      rw [Nat.not_le] at hlt
      obtain ⟨l, hok⟩ := h.commit cm hcm
      have hl := hok.lead
      have hlead := h.lead _ l hl
      have hnear := hok.near
      have hinitlt := hok.init_lt
      have hconf : S.config (l.log.take cm.confLen) = S.config l.init := by
        have := config_take_eq (S := S) (L := l.log) (a := l.init.length)
          (b := cm.confLen) (by omega) ?_
        · rwa [take_prefix_of_le (init_isPrefix hlead) le_rfl, List.take_length] at this
        · intro p e hp hpc hpe hconf
          obtain ⟨cm₀, hcm₀, hterm₀, -, hconf₀, -⟩ := hlead.guarded p e hpe hp hconf
          rw [List.length_take] at hconf₀
          have := ih cm₀.confLen (by omega) cm₀ hcm₀ rfl hterm₀
          omega
      have hinit := elected_of_lead h hl
      have hadj : Adjacent (S.config I) (S.config l.init) := by
        refine config_adjacent_of_complete h hel.matched hinit.matched ?_ ?_
        · rintro cm' hcm' ⟨e, he, hte⟩
          refine hlater cm.term (by omega) l hl cm' hcm' ?_
          obtain ⟨p, hp⟩ := List.getElem?_of_mem he
          have := term_le_lastTerm h hel.matched hp
          omega
        · rintro cm' hcm' ⟨e, he, hte⟩
          refine hearlier cm' hcm' ?_
          have := hinit.lt e he
          omega
      have hmaj := hok.majority
      rw [hconf] at hmaj
      obtain ⟨x, hxQ, hx⟩ := exists_mem_of_majority hel.majority hmaj hadj
      have := (has_of_voter h hlater hel hcm hok hrt hlt.le hxQ hx).1
      omega

/-- Leader completeness: whoever can be elected in a term has every commit of
every earlier term. -/
theorem has_of_elected (h : Inv S s) (hlater : LeadsComplete s b) (htb : t ≤ b)
    (hel : Elected S s t b I Q) :
    ∀ r, ∀ cm ∈ s.commits, cm.term = r → r < t → Has s cm I := by
  intro r
  induction r using Nat.strong_induction_on with
  | _ r hearlier =>
      intro cm hcm hterm hrt
      have hge := lastTerm_ge_of_commit h hlater htb hel hrt
        (fun cm' hcm' hlt => hearlier _ hlt cm' hcm' rfl (by omega)) cm.confLen cm hcm rfl hterm
      rcases Nat.lt_or_eq_of_le hge with hgt | heq
      · exact has_of_lt_lastTerm h hlater htb hel hcm (by omega)
      · have hne : I ≠ [] := by
          rintro rfl
          obtain ⟨l, hok⟩ := h.commit cm hcm
          have hpos := (h.lead _ l hok.lead).pos
          simp [lastTerm] at heq
          omega
        exact has_of_lastTerm_eq h hlater hel (by omega) hne cm.confLen cm hcm rfl (by omega)

theorem leadsComplete (h : Inv S s) (b : Nat) : LeadsComplete s b := by
  induction b with
  | zero => exact fun u hu => absurd hu (Nat.not_lt_zero u)
  | succ b ih =>
      intro u hu l hl cm hcm hlt
      have hlater : LeadsComplete s u := fun v hv => ih v (by omega)
      exact has_of_elected h hlater le_rfl (elected_of_lead h hl) _ cm hcm rfl hlt

theorem exists_common_voter (h : Inv S s) {b' : Nat} {I' : List E} {Q' : Finset N}
    (hel : Elected S s t b I Q) (htb : t ≤ b) (hel' : Elected S s t b' I' Q') (htb' : t ≤ b') :
    ∃ x, x ∈ Q ∧ x ∈ Q' := by
  refine exists_mem_of_majority hel.majority hel'.majority ?_
  refine config_adjacent_of_complete h hel.matched hel'.matched ?_ ?_
  · rintro cm hcm ⟨e, he, hte⟩
    exact has_of_elected h (leadsComplete h b') htb' hel' _ cm hcm rfl (hte ▸ hel.lt e he)
  · rintro cm hcm ⟨e, he, hte⟩
    exact has_of_elected h (leadsComplete h b) htb hel _ cm hcm rfl (hte ▸ hel'.lt e he)

end Elections

end RaftKV.Consensus.Completeness
