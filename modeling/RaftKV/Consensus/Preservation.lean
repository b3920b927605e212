import RaftKV.Consensus.Completeness

namespace RaftKV.Consensus.Preservation

open Consensus.Quorum Consensus.Prefix Consensus.Protocol Consensus.Completeness

variable {N E : Type*} {s s' : State N E} {e : E} {Q : Finset N} {l : Lead N E} {L : List E}
variable {c x y : N} {k r t : Nat} {β : Type*}

/-- Nothing recorded in `s` is lost or changed in `s'`. -/
structure Grows (s s' : State N E) : Prop where
  lead : ∀ t l, s.lead t = some l → ∃ l', s'.lead t = some l' ∧ l'.node = l.node ∧
    l'.init = l.init ∧ l'.voters = l.voters ∧ l.log <+: l'.log
  commits : s.commits ⊆ s'.commits
  vote : ∀ x t c, s.vote x t = some c → s'.vote x t = some c ∧ s'.voteLog x t = s.voteLog x t
  cand : ∀ x t L, s.candLog x t = some L → s'.candLog x t = some L
  acc : ∀ x t, s.acc x t ≤ s'.acc x t
  acc_past : ∀ x t, t < s.term x → s'.acc x t = s.acc x t
  term : ∀ x, s.term x ≤ s'.term x

theorem grows_refl (s : State N E) : Grows s s where
  lead := fun _ l hl => ⟨l, hl, rfl, rfl, rfl, List.prefix_refl _⟩
  commits := subset_rfl
  vote := fun _ _ _ h => ⟨h, rfl⟩
  cand := fun _ _ _ h => h
  acc := fun _ _ => le_rfl
  acc_past := fun _ _ _ => rfl
  term := fun _ => le_rfl

theorem grows_trans {s'' : State N E} (h : Grows s s') (h' : Grows s' s'') : Grows s s'' where
  lead := by
    intro t l hl
    obtain ⟨l', hl', hn, hi, hv, hp⟩ := h.lead t l hl
    obtain ⟨l'', hl'', hn', hi', hv', hp'⟩ := h'.lead t l' hl'
    exact ⟨l'', hl'', hn'.trans hn, hi'.trans hi, hv'.trans hv, hp.trans hp'⟩
  commits := h.commits.trans h'.commits
  vote := by
    intro x t c hc
    obtain ⟨hc', hlog⟩ := h.vote x t c hc
    obtain ⟨hc'', hlog'⟩ := h'.vote x t c hc'
    exact ⟨hc'', hlog'.trans hlog⟩
  cand := fun x t L hL => h'.cand x t L (h.cand x t L hL)
  acc := fun x t => (h.acc x t).trans (h'.acc x t)
  acc_past := fun x t ht =>
    (h'.acc_past x t (ht.trans_le (h.term x))).trans (h.acc_past x t ht)
  term := fun x => (h.term x).trans (h'.term x)

theorem grows_commit (s : State N E) (cm : Commit N) : Grows s (s.commit cm) :=
  { grows_refl s with commits := Set.subset_insert _ _ }

theorem leadLog_isPrefix (hg : Grows s s') (t : Nat) : s.leadLog t <+: s'.leadLog t := by
  cases hl : s.lead t with
  | none => simp [State.leadLog, hl]
  | some l =>
      obtain ⟨l', hl', -, -, -, hp⟩ := hg.lead t l hl
      rwa [leadLog_eq hl, leadLog_eq hl']

theorem kept_mono (hg : Grows s s') {t' : Nat} {L' : List E} (h : Kept s r k L t)
    (hk : k ≤ (s.leadLog r).length) (hL : L <+: L') (ht : t ≤ t') : Kept s' r k L' t' := by
  have htake : (s'.leadLog r).take k = (s.leadLog r).take k :=
    take_prefix_of_le (leadLog_isPrefix hg r) hk
  rw [Kept, htake]
  rcases h with hpre | ⟨u, l, hru, hut, hl, hc⟩
  · exact Or.inl (hpre.trans hL)
  · obtain ⟨l', hl', -, -, -, hp⟩ := hg.lead u l hl
    exact Or.inr ⟨u, l', hru, by omega, hl', conflict_mono hc (List.prefix_refl _) hp⟩

/-- `l` continues whatever leadership of its term is already recorded. -/
def Continues (s : State N E) (l : Lead N E) : Prop :=
  ∀ l₀, s.lead (s.term l.node) = some l₀ → l.node = l₀.node ∧ l.init = l₀.init ∧
    l.voters = l₀.voters ∧ l₀.log <+: l.log

theorem leadLog_prefix_of_continues (hc : Continues s l) :
    s.leadLog (s.term l.node) <+: l.log := by
  cases hl₀ : s.lead (s.term l.node) with
  | none => simp [State.leadLog, hl₀]
  | some l₀ =>
      rw [leadLog_eq hl₀]
      exact (hc l₀ hl₀).2.2.2

variable [DecidableEq N] {S : Scheme N E}

@[simp] theorem set2_same (f : N → Nat → β) (x : N) (t : Nat) (v : β) :
    set2 f x t v x t = v := by
  simp [set2]

theorem set2_of_ne (f : N → Nat → β) {u : Nat} (v : β)
    (h : ¬ (y = x ∧ u = t)) : set2 f x t v y u = f y u := by
  simp [set2, h]

theorem set2_eq_some {f : N → Nat → Option β} {u : Nat} {v w : β}
    (h : set2 f x t (some v) y u = some w) : (y = x ∧ u = t ∧ w = v) ∨ f y u = some w := by
  by_cases hxt : y = x ∧ u = t
  · obtain ⟨rfl, rfl⟩ := hxt
    rw [set2_same] at h
    exact Or.inl ⟨rfl, rfl, (Option.some.inj h).symm⟩
  · rw [set2_of_ne _ _ hxt] at h
    exact Or.inr h

theorem matched_mono (hg : Grows s s') (h : Matched S s L) : Matched S s' L := by
  intro M e hM
  obtain ⟨l, hl, hpre⟩ := h M e hM
  obtain ⟨l', hl', -, -, -, hp⟩ := hg.lead _ l hl
  exact ⟨l', hl', hpre.trans hp⟩

theorem configGuard_mono (hg : Grows s s') (h : ConfigGuard S s t L) :
    ConfigGuard S s' t L := by
  obtain ⟨cm, hcm, hrest⟩ := h
  exact ⟨cm, hg.commits hcm, hrest⟩

theorem leadOK_mono (h : Inv S s) (hg : Grows s s')
    (hl : s.lead t = some l) : LeadOK S s' t l := by
  have hok := h.lead t l hl
  have hvote := fun x hx => hg.vote x t _ (hok.voted x hx)
  exact
    { pos := hok.pos
      matched := matched_mono hg hok.matched
      sorted := hok.sorted
      init_lt := hok.init_lt
      own := hok.own
      term_le := hok.term_le.trans (hg.term _)
      majority := hok.majority
      voted := fun x hx => (hvote x hx).1
      upToDate := fun x hx => (hvote x hx).2 ▸ hok.upToDate x hx
      kept := by
        intro x hx r k hr hk
        rw [(hvote x hx).2]
        have hxt := h.vote_term x t _ (hok.voted x hx)
        rw [hg.acc_past x r (by omega)] at hk
        exact kept_mono hg (hok.kept x hx r k hr hk) (hk.trans (h.acc_le x r))
          (List.prefix_refl _) le_rfl
      guarded := fun p e hp hi hc => configGuard_mono hg (hok.guarded p e hp hi hc) }

theorem commitOK_mono (hg : Grows s s') {cm : Commit N}
    (h : CommitOK S s cm l) : ∃ l', CommitOK S s' cm l' := by
  obtain ⟨l', hl', -, hi, -, hp⟩ := hg.lead _ l h.lead
  exact ⟨l',
    { lead := hl'
      init_lt := hi ▸ h.init_lt
      len_le := h.len_le.trans hp.length_le
      confLen_le := h.confLen_le.trans hp.length_le
      near := h.near
      majority := by
        rw [take_prefix_of_le hp h.confLen_le]
        exact h.majority
      acc := fun x hx => (h.acc x hx).trans (hg.acc x _) }⟩

/-- The parts of the invariant that speak about one node only through what it
recorded, so that every step keeps them the same way. -/
theorem kept_past (h : Inv S s) (hg : Grows s s')
    (hv : s.vote x t = some c) (hr : r < t) (hk : k ≤ s'.acc x r) :
    Kept s' r k (s'.voteLog x t) (t + 1) := by
  rw [(hg.vote x t c hv).2]
  have hxt := h.vote_term x t c hv
  rw [hg.acc_past x r (by omega)] at hk
  exact kept_mono hg (h.vote_kept x t c hv r k hr hk) (hk.trans (h.acc_le x r))
    (List.prefix_refl _) le_rfl

theorem grows_adopt (ht : s.term x < t) : Grows s (s.adopt x t) :=
  { grows_refl s with
    term := by
      intro y
      by_cases hy : y = x
      · subst y
        simpa [State.adopt] using ht.le
      · simp [State.adopt, hy] }

theorem inv_adopt (h : Inv S s) (ht : s.term x < t) :
    Inv S (s.adopt x t) := by
  have hg := grows_adopt (s := s) ht
  exact
    { lead := fun t l hl => leadOK_mono h hg hl
      commit := fun cm hcm => by
        obtain ⟨l, hok⟩ := h.commit cm hcm
        exact commitOK_mono hg hok
      log_matched := h.log_matched
      log_le := fun y e he => (h.log_le y e he).trans (hg.term y)
      acc_le := h.acc_le
      acc_term := fun y r hr => (h.acc_term y r hr).trans (hg.term y)
      kept := fun y r k hk => kept_mono hg (h.kept y r k hk) (hk.trans (h.acc_le y r))
        (List.prefix_refl _) (Nat.add_le_add_right (hg.term y) 1)
      vote_term := fun y r c hc => (h.vote_term y r c hc).trans (hg.term y)
      vote_cand := h.vote_cand
      vote_matched := h.vote_matched
      vote_kept := h.vote_kept
      cand_term := fun c r L hL =>
        ⟨(h.cand_term c r L hL).1, (h.cand_term c r L hL).2.trans (hg.term c)⟩
      cand_matched := h.cand_matched
      cand_lt := h.cand_lt }

theorem upToDate_refl (L : List E) : UpToDate S L L :=
  Or.inr ⟨rfl, le_rfl⟩

theorem grows_campaign (h : Inv S s) (x : N) : Grows s (s.campaign x) :=
  { grows_refl s with
    vote := by
      intro y t c hc
      have hne : ¬ (y = x ∧ t = s.term x + 1) := by
        rintro ⟨rfl, rfl⟩
        have := h.vote_term _ _ _ hc
        omega
      simp only [State.campaign, set2_of_ne _ _ hne]
      exact ⟨hc, trivial⟩
    cand := by
      intro y t L hL
      have hne : ¬ (y = x ∧ t = s.term x + 1) := by
        rintro ⟨rfl, rfl⟩
        have := (h.cand_term _ _ _ hL).2
        omega
      simp only [State.campaign, set2_of_ne _ _ hne]
      exact hL
    term := by
      intro y
      by_cases hy : y = x
      · subst y
        simp [State.campaign]
      · simp [State.campaign, hy] }

theorem campaign_term (s : State N E) (x : N) : (s.campaign x).term x = s.term x + 1 := by
  simp [State.campaign]

theorem inv_campaign (h : Inv S s) (x : N) : Inv S (s.campaign x) := by
  have hg := grows_campaign h x
  have hvote : ∀ y t c, (s.campaign x).vote y t = some c →
      (y = x ∧ t = s.term x + 1 ∧ c = x) ∨ s.vote y t = some c :=
    fun y t c hc => set2_eq_some hc
  have hcand : ∀ c t L, (s.campaign x).candLog c t = some L →
      (c = x ∧ t = s.term x + 1 ∧ L = s.log x) ∨ s.candLog c t = some L :=
    fun c t L hL => set2_eq_some hL
  have hvoteLog : (s.campaign x).voteLog x (s.term x + 1) = s.log x := by
    simp [State.campaign]
  exact
    { lead := fun t l hl => leadOK_mono h hg hl
      commit := fun cm hcm => by
        obtain ⟨l, hok⟩ := h.commit cm hcm
        exact commitOK_mono hg hok
      log_matched := h.log_matched
      log_le := fun y e he => (h.log_le y e he).trans (hg.term y)
      acc_le := h.acc_le
      acc_term := fun y r hr => (h.acc_term y r hr).trans (hg.term y)
      kept := fun y r k hk => kept_mono hg (h.kept y r k hk) (hk.trans (h.acc_le y r))
        (List.prefix_refl _) (Nat.add_le_add_right (hg.term y) 1)
      vote_term := by
        intro y t c hc
        rcases hvote y t c hc with ⟨rfl, rfl, -⟩ | hc
        · rw [campaign_term]
        · exact (h.vote_term y t c hc).trans (hg.term y)
      vote_cand := by
        intro y t c hc
        rcases hvote y t c hc with ⟨rfl, rfl, rfl⟩ | hc
        · refine ⟨s.log c, by simp [State.campaign], ?_⟩
          rw [hvoteLog]
          exact upToDate_refl _
        · obtain ⟨L, hL, hup⟩ := h.vote_cand y t c hc
          exact ⟨L, hg.cand c t L hL, (hg.vote y t c hc).2 ▸ hup⟩
      vote_matched := by
        intro y t c hc
        rcases hvote y t c hc with ⟨rfl, rfl, rfl⟩ | hc
        · rw [hvoteLog]
          exact h.log_matched c
        · rw [(hg.vote y t c hc).2]
          exact h.vote_matched y t c hc
      vote_kept := by
        intro y t c hc r k hr hk
        rcases hvote y t c hc with ⟨rfl, rfl, rfl⟩ | hc
        · rw [hvoteLog]
          exact kept_mono hg (h.kept c r k hk) (hk.trans (h.acc_le c r))
            (List.prefix_refl _) (by omega)
        · exact kept_past h hg hc hr hk
      cand_term := by
        intro c t L hL
        rcases hcand c t L hL with ⟨rfl, rfl, -⟩ | hL
        · rw [campaign_term]
          omega
        · exact ⟨(h.cand_term c t L hL).1, (h.cand_term c t L hL).2.trans (hg.term c)⟩
      cand_matched := by
        intro c t L hL
        rcases hcand c t L hL with ⟨rfl, rfl, rfl⟩ | hL
        · exact h.log_matched c
        · exact h.cand_matched c t L hL
      cand_lt := by
        intro c t L hL e he
        rcases hcand c t L hL with ⟨rfl, rfl, rfl⟩ | hL
        · exact Nat.lt_succ_of_le (h.log_le c e he)
        · exact h.cand_lt c t L hL e he }

theorem grows_grant (c : N) (hfree : s.vote x (s.term x) = none) :
    Grows s (s.grant x c) :=
  { grows_refl s with
    vote := by
      intro y t d hd
      have hne : ¬ (y = x ∧ t = s.term x) := by
        rintro ⟨rfl, rfl⟩
        rw [hfree] at hd
        cases hd
      simp only [State.grant, set2_of_ne _ _ hne]
      exact ⟨hd, trivial⟩ }

theorem inv_grant (h : Inv S s) (hfree : s.vote x (s.term x) = none)
    (hcand : s.candLog c (s.term x) = some L) (hup : UpToDate S L (s.log x)) :
    Inv S (s.grant x c) := by
  have hg := grows_grant c hfree
  have hvote : ∀ y t d, (s.grant x c).vote y t = some d →
      (y = x ∧ t = s.term x ∧ d = c) ∨ s.vote y t = some d :=
    fun y t d hd => set2_eq_some hd
  have hvoteLog : (s.grant x c).voteLog x (s.term x) = s.log x := by
    simp [State.grant]
  exact
    { h with
      lead := fun t l hl => leadOK_mono h hg hl
      commit := fun cm hcm => by
        obtain ⟨l, hok⟩ := h.commit cm hcm
        exact commitOK_mono hg hok
      vote_term := by
        intro y t d hd
        rcases hvote y t d hd with ⟨rfl, rfl, -⟩ | hd
        · exact le_rfl
        · exact h.vote_term y t d hd
      vote_cand := by
        intro y t d hd
        rcases hvote y t d hd with ⟨rfl, rfl, rfl⟩ | hd
        · exact ⟨L, hcand, hvoteLog.symm ▸ hup⟩
        · rw [(hg.vote y t d hd).2]
          exact h.vote_cand y t d hd
      vote_matched := by
        intro y t d hd
        rcases hvote y t d hd with ⟨rfl, rfl, rfl⟩ | hd
        · rw [hvoteLog]
          exact h.log_matched y
        · rw [(hg.vote y t d hd).2]
          exact h.vote_matched y t d hd
      vote_kept := by
        intro y t d hd r k hr hk
        rcases hvote y t d hd with ⟨rfl, rfl, rfl⟩ | hd
        · rw [hvoteLog]
          exact h.kept y r k hk
        · exact kept_past h hg hd hr hk }

theorem elected_of_votes (h : Inv S s)
    (hcand : s.candLog c t = some L) (hmaj : Majority Q (S.config L))
    (hvotes : ∀ x ∈ Q, s.vote x t = some c) : Elected S s t (t + 1) L Q where
  matched := h.cand_matched c t L hcand
  lt := h.cand_lt c t L hcand
  majority := hmaj
  vote_matched := fun x hx => h.vote_matched x t c (hvotes x hx)
  upToDate := by
    intro x hx
    obtain ⟨L', hL', hup⟩ := h.vote_cand x t c (hvotes x hx)
    rw [hcand] at hL'
    rwa [Option.some.inj hL']
  kept := fun x hx r k hr hk => h.vote_kept x t c (hvotes x hx) r k hr hk

theorem lead_node_eq (h : Inv S s)
    (hcand : s.candLog c t = some L) (hmaj : Majority Q (S.config L))
    (hvotes : ∀ x ∈ Q, s.vote x t = some c) (hl : s.lead t = some l) :
    l.node = c := by
  obtain ⟨x, hxQ, hx⟩ := exists_common_voter h (elected_of_votes h hcand hmaj hvotes)
    (Nat.le_succ t) (elected_of_lead h hl) le_rfl
  have hv := (h.lead t l hl).voted x hx
  rw [hvotes x hxQ] at hv
  exact (Option.some.inj hv).symm

theorem matched_concat (h : Matched S s L)
    (hl : s.lead (S.term e) = some l) (hpre : L ++ [e] <+: l.log) : Matched S s (L ++ [e]) := by
  intro M a hM
  rcases List.prefix_concat_iff.mp (by simpa using hM) with heq | hpre'
  · obtain ⟨rfl, rfl⟩ := List.append_singleton_inj.mp heq
    exact ⟨l, hl, hpre⟩
  · exact h M a hpre'

theorem push_lead_self (s : State N E) (l : Lead N E) :
    (s.push l).lead (s.term l.node) = some l := by
  simp [State.push]

theorem push_lead_of_ne (s : State N E) (l : Lead N E) (ht : t ≠ s.term l.node) :
    (s.push l).lead t = s.lead t := by
  simp [State.push, ht]

theorem grows_push (h : Inv S s) (hc : Continues s l) : Grows s (s.push l) :=
  { grows_refl s with
    lead := by
      intro t l₀ hl₀
      by_cases ht : t = s.term l.node
      · subst ht
        obtain ⟨hn, hi, hv, hp⟩ := hc l₀ hl₀
        exact ⟨l, push_lead_self s l, hn, hi, hv, hp⟩
      · exact ⟨l₀, (push_lead_of_ne s l ht).trans hl₀, rfl, rfl, rfl, List.prefix_refl _⟩
    acc := by
      intro x t
      by_cases hxt : x = l.node ∧ t = s.term l.node
      · obtain ⟨rfl, rfl⟩ := hxt
        simp only [State.push, set2_same]
        exact (h.acc_le _ _).trans (leadLog_prefix_of_continues hc).length_le
      · simp [State.push, set2_of_ne _ _ hxt]
    acc_past := by
      intro x t ht
      have hxt : ¬ (x = l.node ∧ t = s.term l.node) := by
        rintro ⟨rfl, rfl⟩
        omega
      simp [State.push, set2_of_ne _ _ hxt] }

theorem push_log_cases (s : State N E) (l : Lead N E) (x : N) :
    (x = l.node ∧ (s.push l).log x = l.log) ∨ (x ≠ l.node ∧ (s.push l).log x = s.log x) := by
  by_cases hx : x = l.node
  · exact Or.inl ⟨hx, by simp [State.push, hx]⟩
  · exact Or.inr ⟨hx, by simp [State.push, hx]⟩

theorem inv_push (h : Inv S s) (hc : Continues s l) (hlog : s.log l.node <+: l.log)
    (hok : LeadOK S (s.push l) (s.term l.node) l) : Inv S (s.push l) := by
  have hg := grows_push h hc
  have hlogs : ∀ x, s.log x <+: (s.push l).log x := by
    intro x
    rcases push_log_cases s l x with ⟨rfl, hx⟩ | ⟨-, hx⟩ <;> rw [hx]
    exact hlog
  have hown : (s.push l).leadLog (s.term l.node) = l.log := leadLog_eq (push_lead_self s l)
  exact
    { lead := by
        intro t l₀ hl₀
        by_cases ht : t = s.term l.node
        · subst ht
          rw [push_lead_self] at hl₀
          obtain rfl := Option.some.inj hl₀
          exact hok
        · rw [push_lead_of_ne s l ht] at hl₀
          exact leadOK_mono h hg hl₀
      commit := fun cm hcm => by
        obtain ⟨l, hok⟩ := h.commit cm hcm
        exact commitOK_mono hg hok
      log_matched := by
        intro x
        rcases push_log_cases s l x with ⟨-, hx⟩ | ⟨-, hx⟩ <;> rw [hx]
        · exact hok.matched
        · exact matched_mono hg (h.log_matched x)
      log_le := by
        intro x e he
        rcases push_log_cases s l x with ⟨rfl, hx⟩ | ⟨-, hx⟩ <;> rw [hx] at he
        · obtain ⟨p, hp⟩ := List.getElem?_of_mem he
          exact term_le_of_lead hok hp
        · exact h.log_le x e he
      acc_le := by
        intro x t
        by_cases hxt : x = l.node ∧ t = s.term l.node
        · obtain ⟨rfl, rfl⟩ := hxt
          rw [hown]
          simp [State.push]
        · have hacc : (s.push l).acc x t = s.acc x t := by
            simp [State.push, set2_of_ne _ _ hxt]
          rw [hacc]
          exact (h.acc_le x t).trans (leadLog_isPrefix hg t).length_le
      acc_term := by
        intro x t hpos
        by_cases hxt : x = l.node ∧ t = s.term l.node
        · obtain ⟨rfl, rfl⟩ := hxt
          exact le_rfl
        · refine h.acc_term x t ?_
          simpa [State.push, set2_of_ne _ _ hxt] using hpos
      kept := by
        intro x r k hk
        by_cases hxt : x = l.node ∧ r = s.term l.node
        · obtain ⟨rfl, rfl⟩ := hxt
          refine Or.inl ?_
          rw [hown, (push_log_cases s l l.node).resolve_right (fun hn => hn.1 rfl) |>.2]
          exact List.take_prefix _ _
        · have hacc : (s.push l).acc x r = s.acc x r := by
            simp [State.push, set2_of_ne _ _ hxt]
          rw [hacc] at hk
          exact kept_mono hg (h.kept x r k hk) (hk.trans (h.acc_le x r)) (hlogs x) le_rfl
      vote_term := h.vote_term
      vote_cand := h.vote_cand
      vote_matched := fun x t c hc => matched_mono hg (h.vote_matched x t c hc)
      vote_kept := fun x t c hc r k hr hk => kept_past h hg hc hr hk
      cand_term := h.cand_term
      cand_matched := fun c t L hL => matched_mono hg (h.cand_matched c t L hL)
      cand_lt := h.cand_lt }

theorem sorted_concat
    (hL : L.Pairwise fun a b => S.term a ≤ S.term b) (hle : ∀ a ∈ L, S.term a ≤ t)
    (he : S.term e = t) : (L ++ [e]).Pairwise fun a b => S.term a ≤ S.term b := by
  rw [List.pairwise_append]
  refine ⟨hL, by simp, ?_⟩
  intro a ha b hb
  rw [List.mem_singleton] at hb
  subst hb
  rw [he]
  exact hle a ha

theorem lead_eq_none_of_votes (h : Inv S s)
    (hcand : s.candLog c (s.term c) = some (s.log c))
    (hmaj : Majority Q (S.config (s.log c)))
    (hvotes : ∀ x ∈ Q, s.vote x (s.term c) = some c)
    (hnew : ∀ l, s.lead (s.term c) = some l → l.node ≠ c) : s.lead (s.term c) = none := by
  cases hl : s.lead (s.term c) with
  | none => rfl
  | some l => exact absurd (lead_node_eq h hcand hmaj hvotes hl) (hnew l hl)

theorem inv_win (h : Inv S s)
    (hcand : s.candLog c (s.term c) = some (s.log c))
    (hmaj : Majority Q (S.config (s.log c)))
    (hvotes : ∀ x ∈ Q, s.vote x (s.term c) = some c)
    (hnew : ∀ l, s.lead (s.term c) = some l → l.node ≠ c)
    (hterm : S.term e = s.term c) (hconf : ¬ S.isConfig e) : Inv S (s.win c Q e) := by
  have hnone := lead_eq_none_of_votes h hcand hmaj hvotes hnew
  have hel := elected_of_votes h hcand hmaj hvotes
  have hc : Continues s ⟨c, s.log c, Q, s.log c ++ [e]⟩ := by
    intro l₀ hl₀
    rw [hnone] at hl₀
    cases hl₀
  have hg := grows_push h hc
  have hself := push_lead_self s ⟨c, s.log c, Q, s.log c ++ [e]⟩
  rw [← hterm] at hself
  refine inv_push h hc (List.prefix_append _ _) ?_
  exact
    { pos := (h.cand_term _ _ _ hcand).1
      matched := matched_concat (matched_mono hg hel.matched) hself (List.prefix_refl _)
      sorted := sorted_concat (sorted_of_matched h hel.matched)
        (fun a ha => (hel.lt a ha).le) hterm
      init_lt := hel.lt
      own := ⟨e, [], rfl, by simpa using hterm⟩
      term_le := le_rfl
      majority := hmaj
      voted := hvotes
      upToDate := hel.upToDate
      kept := by
        intro x hx r k hr hk
        have hxt := h.vote_term _ _ _ (hvotes x hx)
        rw [hg.acc_past x r (hr.trans_le hxt)] at hk
        -- nobody leads this term yet, so no voter's log was rewritten by its leader
        have hbelow : Kept s r k (s.voteLog x (s.term c)) (s.term c) := by
          rcases hel.kept x hx r k hr hk with hpre | ⟨u, l, hru, hut, hl, hcon⟩
          · exact Or.inl hpre
          · refine Or.inr ⟨u, l, hru, ?_, hl, hcon⟩
            rcases Nat.lt_succ_iff_lt_or_eq.mp hut with hlt | rfl
            · exact hlt
            · rw [hnone] at hl
              cases hl
        exact kept_mono hg hbelow (hk.trans (h.acc_le x r)) (List.prefix_refl _) le_rfl
      guarded := by
        intro p a hp hi ha
        have hpe : p = (s.log c).length := by
          have := (List.getElem?_eq_some_iff.mp hp).1
          simp at this hi
          omega
        subst hpe
        simp at hp
        exact absurd (hp ▸ ha) hconf }

theorem inv_extend (h : Inv S s)
    (hlead : s.lead (s.term l.node) = some l) (hlog : s.log l.node = l.log)
    (hterm : S.term e = s.term l.node)
    (hconf : S.isConfig e → ConfigGuard S s (s.term l.node) l.log) :
    Inv S (s.extend l e) := by
  have hok := h.lead _ l hlead
  have hc : Continues s { l with log := l.log ++ [e] } := by
    intro l₀ hl₀
    obtain rfl := Option.some.inj (hlead.symm.trans hl₀)
    exact ⟨rfl, rfl, rfl, List.prefix_append _ _⟩
  have hg := grows_push h hc
  have hold := leadOK_mono h hg hlead
  have hself := push_lead_self s { l with log := l.log ++ [e] }
  rw [← hterm] at hself
  refine inv_push h hc (by rw [hlog]; exact List.prefix_append _ _) ?_
  exact
    { hold with
      matched := matched_concat hold.matched hself (List.prefix_refl _)
      sorted := sorted_concat hok.sorted (fun a ha => by
        obtain ⟨p, hp⟩ := List.getElem?_of_mem ha
        exact term_le_of_lead hok hp) hterm
      own := by
        obtain ⟨a, T, hlogeq, hown⟩ := hok.own
        refine ⟨a, T ++ [e], by simp [hlogeq], ?_⟩
        intro e' he'
        rw [← List.cons_append, List.mem_append, List.mem_singleton] at he'
        rcases he' with he' | rfl
        · exact hown e' he'
        · exact hterm
      guarded := by
        intro p a hp hi ha
        have hplen : p < l.log.length + 1 := by
          simpa using (List.getElem?_eq_some_iff.mp hp).1
        have htake : (l.log ++ [e]).take p = l.log.take p := by
          rw [List.take_append_of_le_length (by omega)]
        simp only [htake]
        rcases Nat.lt_succ_iff_lt_or_eq.mp hplen with hlt | rfl
        · rw [List.getElem?_append_left hlt] at hp
          exact hold.guarded p a hp hi ha
        · rw [List.take_length]
          simp at hp
          exact configGuard_mono hg (hconf (hp ▸ ha)) }

theorem take_prefix_adoptPrefix (L : List E) (m : Nat) (B : List E) :
    B.take m <+: adoptPrefix L m B := by
  unfold adoptPrefix
  split
  · assumption
  · exact List.prefix_refl _

theorem adoptPrefix_cases (L : List E) (m : Nat) (B : List E) :
    adoptPrefix L m B = L ∨ adoptPrefix L m B = B.take m := by
  unfold adoptPrefix
  split
  · exact Or.inl rfl
  · exact Or.inr rfl

theorem prefix_adoptPrefix_or_conflict {A : List E} (hA : A <+: L) (m : Nat) (B : List E) :
    A <+: adoptPrefix L m B ∨ Conflict A B := by
  unfold adoptPrefix
  split
  · exact Or.inl hA
  · rename_i hnot
    rcases prefix_or_conflict A B with hAB | hBA | hcon
    · rcases Nat.le_total A.length (B.take m).length with hle | hle
      · exact Or.inl (prefix_of_le hAB (List.take_prefix _ _) hle)
      · exact absurd ((prefix_of_le (List.take_prefix _ _) hAB hle).trans hA) hnot
    · exact absurd ((List.take_prefix _ _).trans (hBA.trans hA)) hnot
    · exact Or.inr hcon

section Accept

variable {m : Nat}

theorem accept_log_self (s : State N E) (x : N) (l : Lead N E) (m : Nat) :
    (s.accept x l m).log x = adoptPrefix (s.log x) m l.log := by
  simp [State.accept]

theorem accept_log_of_ne (s : State N E) (l : Lead N E) (m : Nat) (hy : y ≠ x) :
    (s.accept x l m).log y = s.log y := by
  simp [State.accept, hy]

theorem accept_acc_self (s : State N E) (x : N) (l : Lead N E) (m : Nat) :
    (s.accept x l m).acc x (s.term x) = max (s.acc x (s.term x)) m := by
  simp [State.accept]

theorem accept_acc_of_ne (s : State N E) (l : Lead N E) (m : Nat)
    (h : ¬ (y = x ∧ t = s.term x)) : (s.accept x l m).acc y t = s.acc y t := by
  simp [State.accept, set2_of_ne _ _ h]

theorem grows_accept (s : State N E) (x : N) (l : Lead N E) (m : Nat) :
    Grows s (s.accept x l m) :=
  { grows_refl s with
    acc := by
      intro y t
      by_cases hyt : y = x ∧ t = s.term x
      · obtain ⟨rfl, rfl⟩ := hyt
        rw [accept_acc_self]
        exact le_max_left _ _
      · rw [accept_acc_of_ne s l m hyt]
    acc_past := by
      intro y t ht
      refine accept_acc_of_ne s l m ?_
      rintro ⟨rfl, rfl⟩
      omega }

theorem kept_accept (h : Inv S s) (hlead : s.lead (s.term x) = some l)
    (hk : k ≤ (s.accept x l m).acc x r) :
    Kept s r k (adoptPrefix (s.log x) m l.log) (s.term x + 1) := by
  by_cases hr : r = s.term x
  · subst hr
    rw [accept_acc_self] at hk
    refine Or.inl ?_
    rw [leadLog_eq hlead]
    rcases le_max_iff.mp hk with hacc | hkm
    · rcases h.kept x _ k hacc with hpre | ⟨u, l', hru, hut, -, -⟩
      · rw [leadLog_eq hlead] at hpre
        rcases prefix_adoptPrefix_or_conflict hpre m l.log with hnew | hcon
        · exact hnew
        · exact absurd hcon (not_conflict_of_isPrefix (List.take_prefix _ _))
      · omega
    · exact (List.take_prefix_take_left hkm).trans (take_prefix_adoptPrefix _ _ _)
  · rw [accept_acc_of_ne s l m (fun hyt => hr hyt.2)] at hk
    rcases Nat.eq_zero_or_pos k with rfl | hpos
    · exact Or.inl (by simp)
    · have hrt := h.acc_term x r (by omega)
      rcases h.kept x r k hk with hpre | hover
      · rcases prefix_adoptPrefix_or_conflict hpre m l.log with hnew | hcon
        · exact Or.inl hnew
        · exact Or.inr ⟨s.term x, l, by omega, by omega, hlead, hcon⟩
      · exact Or.inr hover

theorem inv_accept (h : Inv S s) (hlead : s.lead (s.term x) = some l)
    (hm : m ≤ l.log.length) : Inv S (s.accept x l m) := by
  have hg := grows_accept s x l m
  have hok := h.lead _ l hlead
  exact
    { lead := fun t l hl => leadOK_mono h hg hl
      commit := fun cm hcm => by
        obtain ⟨l, hok⟩ := h.commit cm hcm
        exact commitOK_mono hg hok
      log_matched := by
        intro y
        refine matched_mono hg ?_
        by_cases hy : y = x
        · subst y
          rw [accept_log_self]
          rcases adoptPrefix_cases (s.log x) m l.log with heq | heq <;> rw [heq]
          · exact h.log_matched x
          · exact matched_of_isPrefix hok.matched (List.take_prefix _ _)
        · rw [accept_log_of_ne s l m hy]
          exact h.log_matched y
      log_le := by
        intro y e he
        by_cases hy : y = x
        · subst y
          rw [accept_log_self] at he
          rcases adoptPrefix_cases (s.log x) m l.log with heq | heq <;> rw [heq] at he
          · exact h.log_le x e he
          · obtain ⟨p, hp⟩ := List.getElem?_of_mem (List.mem_of_mem_take he)
            exact term_le_of_lead hok hp
        · rw [accept_log_of_ne s l m hy] at he
          exact h.log_le y e he
      acc_le := by
        intro y t
        by_cases hyt : y = x ∧ t = s.term x
        · obtain ⟨rfl, rfl⟩ := hyt
          rw [accept_acc_self]
          refine max_le (h.acc_le y _) ?_
          change m ≤ (s.leadLog _).length
          rwa [leadLog_eq hlead]
        · rw [accept_acc_of_ne s l m hyt]
          exact h.acc_le y t
      acc_term := by
        intro y t hpos
        by_cases hyt : y = x ∧ t = s.term x
        · obtain ⟨rfl, rfl⟩ := hyt
          exact le_rfl
        · rw [accept_acc_of_ne s l m hyt] at hpos
          exact h.acc_term y t hpos
      kept := by
        intro y r k hk
        by_cases hy : y = x
        · subst y
          rw [accept_log_self]
          exact kept_accept h hlead hk
        · rw [accept_acc_of_ne s l m (fun hyt => hy hyt.1)] at hk
          rw [accept_log_of_ne s l m hy]
          exact h.kept y r k hk
      vote_term := h.vote_term
      vote_cand := h.vote_cand
      vote_matched := h.vote_matched
      vote_kept := fun y t c hc r k hr hk => kept_past h hg hc hr hk
      cand_term := h.cand_term
      cand_matched := h.cand_matched
      cand_lt := h.cand_lt }

end Accept

theorem inv_commit (h : Inv S s) {cm : Commit N} (hok : CommitOK S s cm l) :
    Inv S (s.commit cm) := by
  have hg := grows_commit s cm
  exact
    { h with
      lead := fun t l hl => leadOK_mono h hg hl
      commit := by
        intro cm' hcm'
        rcases Set.mem_insert_iff.mp hcm' with rfl | hcm'
        · exact commitOK_mono hg hok
        · obtain ⟨l', hok'⟩ := h.commit cm' hcm'
          exact commitOK_mono hg hok' }

theorem inv_init : Inv S (init : State N E) where
  lead := fun _ _ hl => by cases hl
  commit := fun _ hcm => absurd hcm (Set.notMem_empty _)
  log_matched := by
    intro x M e hM
    simp [init] at hM
  log_le := fun _ e he => by cases he
  acc_le := fun _ _ => Nat.zero_le _
  acc_term := fun _ _ hpos => absurd hpos (Nat.lt_irrefl 0)
  kept := by
    intro x r k hk
    exact Or.inl (by simp [State.leadLog, init])
  vote_term := fun _ _ _ hc => by cases hc
  vote_cand := fun _ _ _ hc => by cases hc
  vote_matched := fun _ _ _ hc => by cases hc
  vote_kept := fun _ _ _ hc => by cases hc
  cand_term := fun _ _ _ hL => by cases hL
  cand_matched := fun _ _ _ hL => by cases hL
  cand_lt := fun _ _ _ hL => by cases hL

theorem inv_step (h : Inv S s) (hstep : Step S s s') : Inv S s' ∧ Grows s s' := by
  cases hstep with
  | adopt x t ht => exact ⟨inv_adopt h ht, grows_adopt ht⟩
  | campaign x => exact ⟨inv_campaign h x, grows_campaign h x⟩
  | grant x c L hfree hcand hup => exact ⟨inv_grant h hfree hcand hup, grows_grant c hfree⟩
  | win c Q e hcand hmaj hvotes hnew hterm hconf =>
      refine ⟨inv_win h hcand hmaj hvotes hnew hterm hconf, grows_push h ?_⟩
      intro l₀ hl₀
      exact absurd (lead_node_eq h hcand hmaj hvotes hl₀) (hnew l₀ hl₀)
  | extend l e hlead hlog hterm hconf =>
      refine ⟨inv_extend h hlead hlog hterm hconf, grows_push h ?_⟩
      intro l₀ hl₀
      obtain rfl := Option.some.inj (hlead.symm.trans hl₀)
      exact ⟨rfl, rfl, rfl, List.prefix_append _ _⟩
  | accept x l m hlead hm => exact ⟨inv_accept h hlead hm, grows_accept s x l m⟩
  | commit cm l hlead hinit hlen hconfLen hnear hmaj hacc =>
      exact ⟨inv_commit h ⟨hlead, hinit, hlen, hconfLen, hnear, hmaj, hacc⟩, grows_commit s cm⟩

end RaftKV.Consensus.Preservation
