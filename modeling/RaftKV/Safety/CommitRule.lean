import RaftKV.Raft.Deliveries
import RaftKV.Raft.Pledges
import RaftKV.Safety.Followers
import RaftKV.Safety.MembershipChanges

namespace RaftKV.Safety.CommitRule

open Consensus.Quorum
open Distributed.Network
open Raft Raft.Durability Raft.Commits Raft.Moves
open Raft.Cluster Raft.Provenance Raft.Shapes Raft.Deliveries Raft.Pledges
open Refinement.Relation Refinement.Sending
open Safety.FixedMembership Safety.MembershipChanges Safety.Followers

variable {M : Members} {ev : Event} {c c' : Core} {D : Deployment} {s : CoreState} {i : ID}
variable {e : Entry} {index m n : Nat}

section Rule

theorem getElem?_storedTerms (hn : Contiguous c)
    (hge : c.snapIndex ≤ n) (hle : n ≤ lastLogIndex c) :
    (storedTerms c)[n - c.snapIndex]? = some (termAt c n) := by
  rw [lastLogIndex_eq hn] at hle
  rcases hge.eq_or_lt with rfl | hlt
  · rw [Nat.sub_self, termAt_snapIndex]
    rfl
  · obtain ⟨k, rfl⟩ : ∃ k, n = c.snapIndex + k + 1 := ⟨n - c.snapIndex - 1, by omega⟩
    have hk : k < c.entries.length := by
      omega
    rw [termAt_of_gt hn, List.getElem?_eq_getElem hk,
      show c.snapIndex + k + 1 - c.snapIndex = k + 1 by omega, storedTerms, List.getElem?_cons_succ,
      List.getElem?_map, List.getElem?_eq_getElem hk]
    rfl

/-- What a leader has of its own term is the end of its log. -/
structure Owning (c : Core) : Prop where
  numbered : Numbered c.snapIndex c.entries
  nonzero : c.term ≠ 0
  own : (storedTerms c).Pairwise fun a b => a = c.term → b = c.term

theorem owning_of_leader (hk : Kept M c) (ht : Terms c) (hl : c.role = .leader) : Owning c :=
  ⟨hk.saved.numbered, ht.active (by rw [hl]; exact Role.noConfusion), (ht.leader hl).2⟩

theorem termAt_own (h : Owning c) {n' : Nat} (hterm : termAt c n = c.term) (hle : n ≤ n')
    (hlast : n' ≤ lastLogIndex c) : termAt c n' = c.term := by
  rcases hle.eq_or_lt with rfl | hlt
  · exact hterm
  · have hge : c.snapIndex ≤ n := by
      by_contra hsnap
      rw [termAt_of_lt h.numbered (Nat.lt_of_not_le hsnap)] at hterm
      exact h.nonzero hterm.symm
    obtain ⟨hi, hget⟩ := List.getElem?_eq_some_iff.mp
      (getElem?_storedTerms h.numbered hge (hle.trans hlast))
    obtain ⟨hj, hget'⟩ := List.getElem?_eq_some_iff.mp
      (getElem?_storedTerms h.numbered (hge.trans hle) hlast)
    have := List.pairwise_iff_getElem.mp h.own _ _ hi hj (by omega)
    rw [hget, hget'] at this
    exact this hterm

theorem le_of_termAt (h : Owning c) (hterm : termAt c n = c.term) :
    n ≤ lastLogIndex c := by
  by_contra hlt
  rw [lastLogIndex_eq h.numbered] at hlt
  obtain ⟨k, rfl⟩ : ∃ k, n = c.snapIndex + k + 1 := ⟨n - c.snapIndex - 1, by omega⟩
  rw [termAt_of_gt h.numbered, List.getElem?_eq_none (by omega)] at hterm
  exact h.nonzero hterm.symm

theorem advances_of_tally (h : tally c' = tally c) (ha : Advances c' n) :
    Advances c n := by
  have hid : c'.cfg.id = c.cfg.id := congrArg (fun t => t.seat.id) h
  have hmembers : c'.members = c.members := congrArg (fun t => t.seat.members) h
  have hmatch : c'.matchIndex = c.matchIndex := congrArg Tally.matchIndex h
  have hcommit : c'.commitIndex = c.commitIndex := congrArg (fun t => t.seat.commitIndex) h
  have hlast : lastLogIndex c' = lastLogIndex c :=
    lastLogIndex_congr (congrArg Tally.entries h) (congrArg Tally.snapIndex h)
  have hvotes : commitVotes c' n = commitVotes c n := by
    unfold commitVotes isMember peerIDs matchIndexOf
    rw [hid, hmembers, hmatch]
  refine ⟨hcommit ▸ ha.lt, hlast ▸ ha.le, ?_, ?_⟩
  · rw [← termAt_of_tally h, ha.term]
    exact congrArg Tally.term h
  · have := ha.votes
    rwa [majority, hmembers, hvotes] at this

/-- A leader has committed whatever it can. -/
def Idle (c : Core) : Prop :=
  c.role = .leader → ∀ n, ¬ Advances c n

theorem idle_of_tally (h : Idle c) (ht : tally c' = tally c) : Idle c' :=
  fun hl n hn => h ((congrArg Tally.role ht).symm.trans hl) n (advances_of_tally ht hn)

theorem idle_of_role (h : c.role ≠ .leader) : Idle c :=
  fun hl => absurd hl h

theorem advanceFrom_highest
    (hown : ∀ m n, c.commitIndex < m → m ≤ n → n ≤ lastLogIndex c → termAt c m = c.term →
      termAt c n = c.term) (n : Nat) (hn : n ≤ lastLogIndex c) :
    (advanceFrom c n = c ∧ ∀ m ≤ n, ¬ Advances c m) ∨
      ∃ m, Advances c m ∧ advanceFrom c n = deliverCommitted { c with commitIndex := m } ∧
        ∀ m' ≤ n, m < m' → ¬ Advances c m' := by
  induction n with
  | zero => exact Or.inl ⟨rfl, fun m hm ha => absurd ha.lt (by omega)⟩
  | succ n ih =>
      rw [advanceFrom]
      split
      · rename_i hcond
        split
        · rename_i hvotes
          exact Or.inr ⟨n + 1, ⟨hcond.1, hn, hcond.2, hvotes⟩, rfl,
            fun m' hle hlt => absurd hlt (by omega)⟩
        · rename_i hvotes
          have hnot : ¬ Advances c (n + 1) := fun ha => hvotes ha.votes
          rcases ih (by omega) with ⟨heq, hnone⟩ | ⟨m, hm, heq, hnone⟩
          · refine Or.inl ⟨heq, fun m' hle => ?_⟩
            rcases hle.eq_or_lt with rfl | hlt
            · exact hnot
            · exact hnone m' (by omega)
          · refine Or.inr ⟨m, hm, heq, fun m' hle hgt => ?_⟩
            rcases hle.eq_or_lt with rfl | hlt
            · exact hnot
            · exact hnone m' (by omega) hgt
      · rename_i hcond
        refine Or.inl ⟨rfl, fun m hm ha => hcond ⟨?_, ?_⟩⟩
        · exact ha.lt.trans_le hm
        · exact hown m (n + 1) ha.lt hm hn ha.term

theorem advances_of_deliverCommitted (ha : Advances (deliverCommitted c) n) :
    Advances c n := by
  obtain ⟨c', hq, heq⟩ := deliverCommitted_cases c
  rw [heq] at ha
  cases hq <;> exact ⟨ha.lt, ha.le, ha.term, ha.votes⟩

theorem idle_maybeAdvanceCommit (h : Owning c) : Idle (maybeAdvanceCommit c) := by
  intro _ n ha
  rcases advanceFrom_highest (fun _ _ _ hle hlast hterm => termAt_own h hterm hle hlast)
    (lastLogIndex c) le_rfl with ⟨heq, hnone⟩ | ⟨m, hm, heq, hnone⟩
  · rw [show maybeAdvanceCommit c = c from heq] at ha
    exact hnone n ha.le ha
  · rw [show maybeAdvanceCommit c = _ from heq] at ha
    have ha := advances_of_deliverCommitted ha
    have hlt : m < n := ha.lt
    exact hnone n ha.le hlt ⟨hm.lt.trans hlt, ha.le, ha.term, ha.votes⟩

end Rule

section Search

/-- An index a leader may commit: its entry has the leader's term, and a majority of the
members store it. -/
structure Committable (c : Core) (n : Nat) : Prop where
  lt : c.commitIndex < n
  own : ∃ e ∈ c.entries, e.index = n ∧ e.term = c.term
  stored : Majority (ackers c n) (voters c.members)

/-- A log that is numbered from the snapshot on, with terms that rise up to the core's, and
cursors in their order. -/
structure Orderly (c : Core) : Prop where
  numbered : Numbered c.snapIndex c.entries
  terms : c.entries.Pairwise fun e f => e.term ≤ f.term
  term_le : ∀ e ∈ c.entries, e.term ≤ c.term
  snap_le : c.snapIndex ≤ c.lastDelivered
  delivered_le : c.lastDelivered ≤ c.commitIndex
  commit_le : c.commitIndex ≤ lastLogIndex c

theorem Orderly.getElem? (h : Orderly c) (hlt : c.commitIndex < n)
    (hle : n ≤ lastLogIndex c) :
    ∃ e, c.entries[n - c.snapIndex - 1]? = some e ∧ e.index = n ∧ termAt c n = e.term := by
  have hsnap := h.snap_le.trans h.delivered_le
  rw [lastLogIndex_eq h.numbered] at hle
  have hk : n - c.snapIndex - 1 < c.entries.length := by
    omega
  have hget := List.getElem?_eq_getElem hk
  have hterm := termAt_of_gt h.numbered (n - c.snapIndex - 1)
  have hindex := h.numbered _ _ hget
  rw [show c.snapIndex + (n - c.snapIndex - 1) + 1 = n by omega] at hterm hindex
  refine ⟨_, hget, hindex, ?_⟩
  rw [hterm, hget]
  rfl

theorem termAt_orderly (h : Orderly c) (hlt : c.commitIndex < m) (hle : m ≤ n)
    (hlast : n ≤ lastLogIndex c) (hterm : termAt c m = c.term) : termAt c n = c.term := by
  obtain ⟨e, he, -, hm⟩ := h.getElem? hlt (hle.trans hlast)
  obtain ⟨f, hf, -, hn⟩ := h.getElem? (hlt.trans_le hle) hlast
  rcases hle.eq_or_lt with rfl | hmn
  · exact hterm
  · obtain ⟨hi, rfl⟩ := List.getElem?_eq_some_iff.mp he
    obtain ⟨hj, rfl⟩ := List.getElem?_eq_some_iff.mp hf
    have hsnap := h.snap_le.trans h.delivered_le
    have hrise := List.pairwise_iff_getElem.mp h.terms _ _ hi hj (by omega)
    have hmax := h.term_le _ (List.getElem_mem hj)
    omega

theorem committable_iff_advances (h : Orderly c) (n : Nat) : Committable c n ↔ Advances c n := by
  have hlast := lastLogIndex_eq h.numbered
  constructor
  · rintro ⟨hlt, ⟨e, he, hindex, hterm⟩, hstored⟩
    obtain ⟨k, hk⟩ := List.mem_iff_getElem?.mp he
    have hpos := h.numbered k e hk
    obtain ⟨hklt, -⟩ := List.getElem?_eq_some_iff.mp hk
    have hle : n ≤ lastLogIndex c := by
      omega
    obtain ⟨f, hf, -, htermAt⟩ := h.getElem? hlt hle
    rw [show n - c.snapIndex - 1 = k by omega, hk] at hf
    cases hf
    refine ⟨hlt, hle, htermAt.trans hterm, ?_⟩
    have hcard := hstored.2
    rw [card_ackers, card_voters] at hcard
    unfold majority
    omega
  · rintro ⟨hlt, hle, hterm, hvotes⟩
    obtain ⟨e, he, hindex, htermAt⟩ := h.getElem? hlt hle
    exact ⟨hlt, ⟨e, List.mem_of_getElem? he, hindex, htermAt.symm.trans hterm⟩,
      majority_ackers hvotes⟩

/-- The commit rule: the commit index moves to the highest index a leader may commit, and
the entries up to there are queued; if there is none, nothing changes. -/
theorem commit_rule_picks_highest (h : Orderly c) :
    (∃ n es, IsGreatest {m | Committable c m} n ∧ (maybeAdvanceCommit c).commitIndex = n ∧
      (maybeAdvanceCommit c).committed = c.committed ++ es ∧ es ⊆ c.entries ∧
      es.map Entry.index = List.range' (c.lastDelivered + 1) (n - c.lastDelivered)) ∨
    ((∀ m, ¬ Committable c m) ∧ maybeAdvanceCommit c = c) := by
  rcases advanceFrom_highest (fun _ _ hlt hle hlast hterm => termAt_orderly h hlt hle hlast hterm)
    (lastLogIndex c) le_rfl with ⟨heq, hnone⟩ | ⟨n, hn, heq, hnone⟩
  · refine Or.inr ⟨fun m hm => ?_, heq⟩
    have ha := (committable_iff_advances h m).mp hm
    exact hnone m ha.le ha
  · have heq' : maybeAdvanceCommit c = deliverCommitted { c with commitIndex := n } := heq
    have hindices := @map_index_queue { c with commitIndex := n } h.numbered h.snap_le hn.le
    refine Or.inl ⟨n, queue { c with commitIndex := n }, ⟨?_, ?_⟩, ?_, ?_, ?_, hindices⟩
    · exact (committable_iff_advances h n).mpr hn
    · intro m hm
      have ha := (committable_iff_advances h m).mp hm
      by_contra hlt
      exact hnone m ha.le (not_le.mp hlt) ha
    · rw [heq', commitIndex_deliverCommitted]
    · obtain ⟨c', hq, hdeliver⟩ := deliverCommitted_cases { c with commitIndex := n }
      rw [heq', hdeliver]
      cases hq <;> rfl
    · rw [@queue_eq { c with commitIndex := n } h.numbered h.snap_le]
      exact fun e he => List.mem_of_mem_drop (List.mem_of_mem_take he)

/-- Node 1 leads two nodes and has two entries of its term; node 2 stores the first. -/
def halfStored : Core :=
  { bootCore ⟨1, [2], none, 1, 2, 1, true⟩ (fun _ => 0) blank duo.members
      [⟨1, 1, .noop, noBytes⟩, ⟨1, 2, .normal, noBytes⟩] with
    role := .leader
    term := 1
    matchIndex := fun id => if id = 2 then some 1 else none }

theorem commit_rule_picks_highest_half :
    halfStored.role = .leader ∧ Orderly halfStored ∧
      ∃ n, IsGreatest {m | Committable halfStored m} n ∧
        (maybeAdvanceCommit halfStored).commitIndex = n := by
  have hcursors : halfStored.snapIndex = 0 ∧ halfStored.lastDelivered = 0 ∧
      halfStored.commitIndex = 0 ∧ lastLogIndex halfStored = 2 := by
    decide +kernel
  obtain ⟨hsnap, hdelivered, hcommit, hlast⟩ := hcursors
  have horderly : Orderly halfStored :=
    ⟨numbered_cons.mpr ⟨rfl, numbered_cons.mpr ⟨rfl, numbered_nil _⟩⟩, by decide +kernel,
      by decide +kernel, by omega, by omega, by omega⟩
  have hone : Committable halfStored 1 := (committable_iff_advances horderly 1).mpr
    ⟨by omega, by omega, by decide +kernel, by decide +kernel⟩
  refine ⟨rfl, horderly, ?_⟩
  rcases commit_rule_picks_highest horderly with ⟨n, es, hn, hpicked, -⟩ | ⟨hnone, -⟩
  · exact ⟨n, hn, hpicked⟩
  · exact absurd hone (hnone 1)

end Search

section Handlers

theorem fit_moves (hev : Fair ev) (hm : Reaches [] ev c c') (hk : Kept M c) (ht : Terms c) :
    Kept M c' ∧ Terms c' := by
  refine moves_induction (Q := fun a => Kept M a ∧ Terms a) hm ⟨hk, ht⟩ ?_
  rintro a b hmove ⟨hk, ht⟩
  exact ⟨kept_move hev hmove hk, terms_move hev hk hmove ht⟩

theorem idle_of_outcome (hk : Kept M c) (ht : Terms c) (hev : Fair ev) (h : Idle c)
    (ho : Outcome ev c c') : Idle c' := by
  cases ho with
  | calm ht => exact idle_of_tally h ht
  | down hrole hcommit => exact idle_of_role (by rw [hrole]; exact Role.noConfusion)
  | stand hrole hs hrun => exact idle_of_role (by rw [hrole]; exact Role.noConfusion)
  | count b hb hl hs hrun htally =>
      obtain ⟨hk', ht'⟩ := fit_moves hev hb hk ht
      exact idle_of_tally (idle_maybeAdvanceCommit (owning_of_leader hk' ht' hl)) htally

theorem idle_of_follows {term : Nat} (h : Idle c)
    (hf : c' = adoptTerm c term ∨ c'.role = .follower) : Idle c' := by
  rcases hf with rfl | hf
  · unfold adoptTerm
    split
    · exact idle_of_role Role.noConfusion
    · exact h
  · exact idle_of_role (by rw [hf]; exact Role.noConfusion)

end Handlers

section Snapshots

/-- A snapshot of the leader's own term covers nothing that is not committed. -/
def Settling (c : Core) : Prop :=
  c.role = .leader → c.snapTerm = c.term → c.snapIndex ≤ c.commitIndex

theorem settling_move (ht : Terms c) (hmove : Move ev c c') (h : Settling c) : Settling c' := by
  have hsame : c'.role = c.role → c'.term = c.term → c'.snapTerm = c.snapTerm →
      c'.snapIndex = c.snapIndex → c'.commitIndex = c.commitIndex → Settling c' := by
    intro hrole hterm hst hsi hci hl hown
    rw [hsi, hci]
    exact h (hrole ▸ hl) (by rw [← hst, ← hterm]; exact hown)
  have hfollow : c'.role = .follower → Settling c' := fun hf hl => by
    rw [hf] at hl
    cases hl
  cases hmove with
  | stepDown | recognize => exact hfollow rfl
  | campaign hrole hask =>
      intro hl
      cases hl
  | win hrole =>
      intro _ hown
      exact absurd hown (ht.candidate hrole _ List.mem_cons_self).ne
  | advance n hrole hn =>
      have hlt := hn.lt
      obtain ⟨c'', hq, heq⟩ := deliverCommitted_cases { c with commitIndex := n }
      rw [heq]
      cases hq with
      | stay => exact fun hl hown => (h hl hown).trans hlt.le
      | leave =>
          intro hl
          cases hl
  | follow req hreq hterm hrole =>
      exact hfollow (@follower_deliverCommitted { c with commitIndex := _ } hrole)
  | accept req hreq hterm hrole hacc => exact hfollow ((role_appendNew c _).trans hrole)
  | install req config hreq hterm hrole => exact hfollow hrole
  | drift | ask | send | ack | grant | own | fire | change | count | note | retry | read =>
      exact hsame rfl rfl rfl rfl rfl

theorem settling_handle (hk : Kept M c) (ht : Terms c) (hev : Fair ev) (hout : c.outbox = [])
    (h : Settling c) : Settling (handle c ev).1 := by
  refine (moves_induction (Q := fun a => (Kept M a ∧ Terms a) ∧ Settling a) (moves_handle hout ev)
    ⟨⟨hk, ht⟩, h⟩ ?_).2
  rintro a b hmove ⟨⟨hk, ht⟩, ha⟩
  exact ⟨fit_moves hev (.single hmove) hk ht, settling_move ht hmove ha⟩

theorem commitVotes_noteMatch_le (c : Core) (peer : ID) (h : m < n) :
    commitVotes (noteMatch c peer m) n ≤ commitVotes c n := by
  rw [← card_ackers, ← card_ackers]
  refine Finset.card_le_card fun x hx => ?_
  obtain ⟨hmem, hx⟩ := Finset.mem_filter.mp hx
  refine Finset.mem_filter.mpr ⟨hmem, hx.imp_right fun hle => ?_⟩
  by_cases hxp : x = peer
  · subst hxp
    simp [noteMatch, matchIndexOf] at hle
    omega
  · simpa [noteMatch, matchIndexOf, Function.update_of_ne hxp] using hle

theorem idle_noteSnapshot (hown : Owning c) (hset : Settling c) (h : Idle c)
    (hl : c.role = .leader) (sender : ID) (hm : m ≤ c.snapIndex) :
    Idle (noteSnapshot c sender m) := by
  unfold noteSnapshot
  split
  · intro _ n ha
    have hlt : c.commitIndex < n := ha.lt
    have hterm : termAt c n = c.term := ha.term
    have hsnap : c.snapIndex ≤ n := by
      by_contra hsnap
      rw [termAt_of_lt hown.numbered (Nat.lt_of_not_le hsnap)] at hterm
      exact hown.nonzero hterm.symm
    have hgt : m < n := by
      by_contra hle
      obtain rfl : n = c.snapIndex := by omega
      rw [termAt_snapIndex] at hterm
      have := hset hl hterm
      omega
    exact h hl n ⟨hlt, ha.le, hterm, ha.votes.trans (commitVotes_noteMatch_le c sender hgt)⟩
  · exact h

theorem idle_handleInstallSnapshotResponse (hk : Kept M c) (ht : Terms c) (hset : Settling c)
    (h : Idle c) (sender : ID) (req : InstallSnapshotRequest) (resp : InstallSnapshotResponse)
    (hm : Since Core.snapIndex req.term req.lastIncludedIndex c) :
    Idle (handleInstallSnapshotResponse c sender req resp) := by
  unfold handleInstallSnapshotResponse
  split
  · exact idle_of_role Role.noConfusion
  · split
    · exact h
    · rename_i hactive
      rw [not_or, not_not, not_not] at hactive
      exact idle_of_tally (idle_noteSnapshot (owning_of_leader hk ht hactive.1) hset h hactive.1
        sender ((hm.2 hactive.2).2 hactive.1)) (tally_feed _ sender)

theorem advances_of_compact (hown : Owning c) (hgt : c.snapIndex < index)
    (hle : index ≤ lastLogIndex c) (data : Bytes)
    (h : Advances (rebase c (snapshotAt c index data) (entriesAfter c index)) n) :
    Advances c n := by
  have hn := hown.numbered
  have hkeep : Numbered index (entriesAfter c index) := numbered_entriesAfter hn hgt
  have hstored := storedTerms_compact hn hgt hle data
  have hlast : lastLogIndex (rebase c (snapshotAt c index data) (entriesAfter c index)) =
      lastLogIndex c := by
    rw [lastLogIndex_eq hn] at hle ⊢
    rw [@lastLogIndex_eq (rebase c (snapshotAt c index data) (entriesAfter c index)) hkeep]
    change index + (entriesAfter c index).length = _
    rw [entriesAfter_eq hn hgt, List.length_drop]
    omega
  have hterm : termAt (rebase c (snapshotAt c index data) (entriesAfter c index)) n = c.term :=
    h.term
  have hge : index ≤ n := by
    by_contra hlt
    rw [@termAt_of_lt (rebase c (snapshotAt c index data) (entriesAfter c index)) hkeep n
      (Nat.lt_of_not_le hlt)] at hterm
    exact hown.nonzero hterm.symm
  have hnlast := h.le
  rw [hlast] at hnlast
  refine ⟨h.lt, hnlast, ?_, h.votes⟩
  have hget := @getElem?_storedTerms
    (rebase c (snapshotAt c index data) (entriesAfter c index)) n hkeep hge h.le
  rw [hstored, List.getElem?_drop, hterm] at hget
  change (storedTerms c)[index - c.snapIndex + (n - index)]? = some c.term at hget
  rw [show index - c.snapIndex + (n - index) = n - c.snapIndex by omega,
    getElem?_storedTerms hn (hgt.le.trans hge) hnlast] at hget
  exact Option.some.inj hget

theorem idle_compact (hk : Kept M c) (ht : Terms c) (h : Idle c)
    (hlog : index ≤ c.lastDelivered → index ≤ lastLogIndex c) (data : Bytes) :
    Idle (compact c index data).1 := by
  rcases compact_cases c index data with heq | ⟨hgt, hle, heq⟩ <;> rw [heq]
  · exact h
  · exact fun hl n ha => h hl n (advances_of_compact (owning_of_leader hk ht hl) hgt (hlog hle)
      data ha)

theorem settling_compact (h : Settling c)
    (hcommit : index ≤ c.lastDelivered → c.role = .leader → termAt c index = c.term →
      index ≤ c.commitIndex) (data : Bytes) : Settling (compact c index data).1 := by
  rcases compact_cases c index data with heq | ⟨-, hle, heq⟩ <;> rw [heq]
  · exact h
  · exact hcommit hle

end Snapshots

section Changes

/-- The members of a configuration that store the log of `c` up to index `n`. -/
def storing (c : Core) (m : Members) (n : Nat) : Finset ID :=
  (voters m).filter fun x => x = c.cfg.id ∨ n ≤ matchIndexOf c x

def admits (c : Core) (cc : ConfChange) : Bool :=
  c.role = .leader ∧ c.lastConfigIndex ≤ c.commitIndex ∧
    ¬ (cc.op = confChangeAdd ∧ c.members[cc.id]? = some cc.addr) ∧
    ¬ (cc.op ≠ confChangeAdd ∧ c.members[cc.id]? = none) ∧ c.transferTarget = 0

/-- Whether a change that is taken up makes nothing committable: its entry is committed
at once, or no entry of the leader's term, its own included, is already stored by a
majority of the configuration it brings. -/
def nothingCommittable (c : Core) (cc : ConfChange) : Bool :=
  admits c cc → majority c ≤ commitVotes c (lastLogIndex c + 1) ∨
    ∀ n < lastLogIndex c + 2, c.commitIndex < n →
      (n = lastLogIndex c + 1 ∨ termAt c n = c.term) →
      (storing c (cc.apply c.members) n).card < (cc.apply c.members).size / 2 + 1

theorem proposeConfChange_of_not_admits {cc : ConfChange} (h : admits c cc = false) :
    (proposeConfChange c cc).1 = c := by
  have hnot := of_decide_eq_false h
  unfold proposeConfChange
  split
  · rfl
  · rename_i hrole
    split
    · rfl
    · rename_i hflight
      split
      · rfl
      · rename_i hadd
        split
        · rfl
        · rename_i hremove
          have htarget : c.transferTarget ≠ 0 := fun htarget =>
            hnot ⟨not_not.mp hrole, Nat.le_of_not_lt hflight, hadd, hremove, htarget⟩
          unfold propose
          rw [if_neg hrole, if_pos htarget]

theorem matchAfter_le (c : Core) (cc : ConfChange) (id : ID) :
    (matchAfter c cc id).getD 0 ≤ matchIndexOf c id := by
  have hupdate : ∀ v : Option Nat, v.getD 0 = 0 →
      (Function.update c.matchIndex cc.id v id).getD 0 ≤ matchIndexOf c id := by
    intro v hv
    by_cases hid : id = cc.id
    · rw [hid, Function.update_self, hv]
      exact Nat.zero_le _
    · rw [Function.update_of_ne hid]
      exact le_rfl
  unfold matchAfter
  split
  · split
    · exact hupdate _ rfl
    · exact le_rfl
  · split
    · exact hupdate _ rfl
    · exact le_rfl

theorem fit_appendOwn (hk : Kept M c) (ht : Terms c) (hl : c.role = .leader)
    (hterm : e.term = c.term) (hindex : e.index = lastLogIndex c + 1) :
    Kept M (appendOwn c e) ∧ Terms (appendOwn c e) := by
  have hown := owning_of_leader hk ht hl
  exact ⟨kept_appendOwn hk hindex, terms_appendOwn ht.nonzero ht.snap_nonzero ht.le ht.records
    hown.nonzero hterm (by omega) hl hown.own⟩

/-- `c'` is `c` after an entry of its own, as far as the commit rule is concerned. -/
structure Appended (c : Core) (e : Entry) (c' : Core) : Prop where
  entries : c'.entries = (appendOwn c e).entries
  snapIndex : c'.snapIndex = (appendOwn c e).snapIndex
  snapTerm : c'.snapTerm = (appendOwn c e).snapTerm
  term : c'.term = c.term
  id : c'.cfg.id = c.cfg.id
  members : c'.members = c.members
  matchIndex : c'.matchIndex = c.matchIndex
  commit_le : c.commitIndex ≤ c'.commitIndex

theorem appended_replicate (c : Core) (e : Entry) :
    Appended c e (maybeAdvanceCommit (broadcastAppends (appendOwn c e))) := by
  have ht := tally_broadcastAppends (appendOwn c e)
  have hsent : Appended c e (broadcastAppends (appendOwn c e)) :=
    { entries := congrArg Tally.entries ht
      snapIndex := congrArg Tally.snapIndex ht
      snapTerm := congrArg Tally.snapTerm ht
      term := congrArg Tally.term ht
      id := congrArg (fun t => t.seat.id) ht
      members := congrArg (fun t => t.seat.members) ht
      matchIndex := congrArg Tally.matchIndex ht
      commit_le := (congrArg (fun t => t.seat.commitIndex) ht).ge }
  generalize broadcastAppends (appendOwn c e) = b at hsent
  rcases maybeAdvanceCommit_cases b with heq | ⟨n, hn, heq⟩
  · rw [heq]
    exact hsent
  · obtain ⟨c', hq, hdel⟩ := deliverCommitted_cases { b with commitIndex := n }
    rw [heq, hdel]
    cases hq <;> exact { hsent with commit_le := hsent.commit_le.trans hn.lt.le }

theorem Appended.termAt (h : Appended c e c') (n : Nat) :
    termAt c' n = termAt (appendOwn c e) n :=
  termAt_congr h.entries h.snapIndex h.snapTerm n

theorem Appended.lastLogIndex (h : Appended c e c') : lastLogIndex c' = e.index :=
  (lastLogIndex_congr h.entries h.snapIndex).trans (lastLogIndex_appendOwn c e)

theorem termAt_appendOwn (hn : Contiguous c)
    (hn' : Numbered c.snapIndex (c.entries ++ [e])) (hindex : e.index = lastLogIndex c + 1)
    (hle : n ≤ lastLogIndex c) : termAt (appendOwn c e) n = termAt c n := by
  rcases Nat.lt_or_ge n c.snapIndex with hlt | hge
  · rw [termAt_of_lt hn hlt]
    exact @termAt_of_lt (appendOwn c e) hn' n hlt
  · have hget := @getElem?_storedTerms (appendOwn c e) n hn' hge
      (by rw [lastLogIndex_appendOwn]; omega)
    have hstored : storedTerms (appendOwn c e) = storedTerms c ++ [e.term] := by
      simp [storedTerms, appendOwn]
    have hold := getElem?_storedTerms hn hge hle
    have hlt := (List.getElem?_eq_some_iff.mp hold).1
    change (storedTerms (appendOwn c e))[n - c.snapIndex]? = _ at hget
    rw [hstored, List.getElem?_append_left hlt, hold] at hget
    exact (Option.some.inj hget).symm

theorem ackers_applyConfChange (h : Appended c e c') (cc : ConfChange)
    (index n : Nat) :
    ackers (applyConfChange c' cc index) n ⊆ storing c (cc.apply c.members) n := by
  intro x hx
  obtain ⟨hmem, hx⟩ := Finset.mem_filter.mp hx
  refine Finset.mem_filter.mpr ⟨?_, ?_⟩
  · rw [← h.members]
    exact hmem
  · rw [← h.id]
    refine hx.imp_right fun hle => ?_
    have hstored : matchIndexOf c' x = matchIndexOf c x := by
      rw [matchIndexOf, matchIndexOf, h.matchIndex]
    rw [← hstored]
    exact hle.trans (matchAfter_le c' cc x)

theorem idle_proposeConfChange (hk : Kept M c) (ht : Terms c) (h : Idle c) {cc : ConfChange}
    (hun : nothingCommittable c cc = true) : Idle (proposeConfChange c cc).1 := by
  cases had : admits c cc with
  | false =>
      rw [proposeConfChange_of_not_admits had]
      exact h
  | true =>
      rcases proposeConfChange_cases c cc with ⟨err, heq⟩ | ⟨hl, -, heq⟩
      · rw [heq]
        exact h
      · rw [heq]
        have hun := of_decide_eq_true hun had
        generalize he : (⟨c.term, lastLogIndex c + 1, .config, encodeConfChange cc⟩ : Entry) = e
        have hterm : e.term = c.term := by rw [← he]
        have hindex : e.index = lastLogIndex c + 1 := by rw [← he]
        obtain ⟨hk₀, ht₀⟩ := fit_appendOwn hk ht hl hterm hindex
        have hsends : Reaches [] .tick (appendOwn c e) (broadcastAppends (appendOwn c e)) :=
          moves_broadcastAppends hl
        obtain ⟨hk₁, ht₁⟩ := fit_moves (by trivial) hsends hk₀ ht₀
        have hidle := idle_maybeAdvanceCommit (owning_of_leader hk₁ ht₁
          ((congrArg Tally.role (tally_broadcastAppends (appendOwn c e))).trans hl))
        have happ := appended_replicate c e
        generalize maybeAdvanceCommit (broadcastAppends (appendOwn c e)) = c₁ at hidle happ ⊢
        intro hl₁ n ha
        have hlt : c₁.commitIndex < n := ha.lt
        have hle : n ≤ lastLogIndex c + 1 := by
          rw [← hindex, ← happ.lastLogIndex]
          exact ha.le
        have hn : termAt (appendOwn c e) n = c.term := by
          rw [← happ.termAt, ← happ.term]
          exact ha.term
        rcases hun with hmaj | hnone
        · -- The entry of the change was committed before the change took effect.
          refine hidle hl₁ (lastLogIndex c + 1) ⟨hlt.trans_le hle, ?_, ?_, ?_⟩
          · rw [happ.lastLogIndex, hindex]
          · rw [happ.termAt, happ.term]
            exact termAt_own (owning_of_leader hk₀ ht₀ hl) hn hle
              (by rw [lastLogIndex_appendOwn, hindex])
          · unfold majority commitVotes isMember peerIDs matchIndexOf at hmaj ⊢
            rw [happ.members, happ.id, happ.matchIndex]
            exact hmaj
        · have hown : n = lastLogIndex c + 1 ∨ termAt c n = c.term := by
            rcases hle.eq_or_lt with heq | hlt'
            · exact Or.inl heq
            · rw [← termAt_appendOwn hk.saved.numbered hk₀.saved.numbered hindex (by omega)]
              exact Or.inr hn
          have hfew := hnone n (by omega) (happ.commit_le.trans_lt hlt) hown
          have hvotes : majority (applyConfChange c₁ cc (lastLogIndex c + 1)) ≤
              commitVotes (applyConfChange c₁ cc (lastLogIndex c + 1)) n := ha.votes
          rw [← card_ackers] at hvotes
          have hcard := Finset.card_le_card
            (ackers_applyConfChange happ cc (lastLogIndex c + 1) n)
          have hmajority : majority (applyConfChange c₁ cc (lastLogIndex c + 1)) =
              (cc.apply c.members).size / 2 + 1 := by
            rw [← happ.members]
            rfl
          omega

end Changes

section Runs

/-- What keeps a call from leaving an entry behind that could be committed, as a
condition on the state it finds: a change makes nothing committable, and a leader
compacts entries of its own term only once they are committed. -/
def counting (c : Core) : Input → Bool
  | .client (.confChange cc) => nothingCommittable c cc
  | .compact index _ => index ≤ c.lastDelivered → index ≤ lastLogIndex c ∧
      (c.role = .leader → termAt c index = c.term → index ≤ c.commitIndex)
  | _ => true

theorem withinLog_of_counting {x : Input} (h : counting c x) : withinLog c x := by
  cases x with
  | compact index data => exact decide_eq_true fun hle => (of_decide_eq_true h hle).1
  | _ => rfl

theorem idle_handle (hk : Kept M c) (ht : Terms c) (hfair : Fair ev) (hout : c.outbox = [])
    (hset : Settling c) (h : Idle c)
    (hcc : ∀ cc, ev = .confChange cc → nothingCommittable c cc = true)
    (hsnap : ∀ sender req resp, ev = .snapshotResp sender req resp →
      Since Core.snapIndex req.term req.lastIncludedIndex c) : Idle (handle c ev).1 := by
  cases hev : leads ev with
  | true => exact idle_of_outcome hk ht hfair h (outcome_handle hout hev)
  | false =>
      cases ev with
      | appendEntries req => exact idle_of_follows h (follows_handleAppendEntries c req)
      | installSnapshot req => exact idle_of_follows h (follows_handleInstallSnapshot c req)
      | snapshotResp sender req resp =>
          exact idle_handleInstallSnapshotResponse hk ht hset h sender req resp (hsnap _ _ _ rfl)
      | confChange cc => exact idle_proposeConfChange hk ht h (hcc cc rfl)
      | _ => cases hev

theorem idle_respond (hc : Sane M c) {x : Input} (hfair : FairInput x) (hcount : counting c x)
    (hsnap : ∀ p req resp, x = .deliver p → p.payload = .snapshotResp req resp →
      Since Core.snapIndex req.term req.lastIncludedIndex c)
    (hlocal : isLocal x = true ∨ ∃ p, x = .deliver p) (hset : Settling c) (h : Idle c) :
    Idle (respond c x).1 ∧ Settling (respond c x).1 := by
  have hq := sane_takeQueues hc
  have hidle : Idle (takeQueues c) := idle_of_tally h rfl
  have hreact : ∀ ev replies, Fair ev →
      (∀ cc, ev = .confChange cc → nothingCommittable (takeQueues c) cc = true) →
      (∀ sender req resp, ev = .snapshotResp sender req resp →
        Since Core.snapIndex req.term req.lastIncludedIndex (takeQueues c)) →
      Idle (react c ev replies).1 ∧ Settling (react c ev replies).1 := by
    intro ev replies hev hcc hs
    rw [react_fst]
    exact ⟨idle_handle hq.kept hq.terms hev rfl hset hidle hcc hs,
      settling_handle hq.kept hq.terms hev rfl hset⟩
  cases x with
  | deliver p =>
      refine hreact _ _ hfair (fun cc hcc => ?_) fun sender req resp hresp => ?_
      · obtain ⟨src, dest, payload⟩ := p
        cases payload with
        | request msg => cases msg <;> cases hcc
        | _ => cases hcc
      · refine hsnap p req resp rfl ?_
        obtain ⟨src, dest, payload⟩ := p
        cases payload with
        | request msg => cases msg <;> cases hresp
        | snapshotResp =>
            cases hresp
            rfl
        | _ => cases hresp
  | client ev =>
      refine hreact _ _ hfair (fun cc hcc => ?_) fun sender req resp hresp => ?_
      · subst hcc
        exact hcount
      · subst hresp
        rcases hlocal with hlocal | ⟨p, hp⟩
        · cases hlocal
        · cases hp
  | compact index data =>
      have hcount := of_decide_eq_true hcount
      exact ⟨idle_compact hq.kept hq.terms hidle (fun hle => (hcount hle).1) data,
        settling_compact (c := takeQueues c) hset (fun hle => (hcount hle).2) data⟩

/-- As long as no change makes an entry committable and leaders compact only what they
have committed, a leader that has handled an input has no entry of its term above its
commit index that a majority of its members stores. -/
theorem leader_never_waits (hs : Reachable (coreSystem D) s)
    (hcount : ∀ k ∈ s.trace, counting k.pre k.input = true) (hup : s.node i = .up c)
    (hl : c.role = .leader) :
    ¬ ∃ n, c.commitIndex < n ∧ termAt c n = c.term ∧ majority c ≤ commitVotes c n := by
  have hinv : Idle c ∧ Settling c := by
    refine running_induction (G := fun k => counting k.pre k.input = true)
      (Q := fun c => Idle c ∧ Settling c) ?_ ?_ hs hcount hup
    · intro i rng d c hboot
      obtain ⟨-, M, entries, -, -, rfl⟩ := newCore_cases (newCore_of_boot hboot)
      exact ⟨idle_of_role Role.noConfusion, fun hl => by cases hl⟩
    · intro s k hmade hpast hk hpre
      have hlog : ∀ j ∈ s.trace, withinLog j.pre j.input := fun j hj =>
        withinLog_of_counting (hpast j hj)
      have hsane := sane_of_up hmade.reachable hlog hmade.up
      rw [hmade.post]
      refine idle_respond hsane
        (fairInput_of_enabled (saneState_of_reachable hmade.reachable hlog).net
        hmade.enabled) hk ?_ (isLocal_or_deliver hmade.enabled) hpre.2 hpre.1
      intro p req resp hp hpay
      rcases hmade.enabled with hlocal | ⟨q, hq, hdest, hin⟩
      · rw [hp] at hlocal
        cases hlocal
      · obtain rfl : q = p := Input.deliver.inj (hin.trans hp)
        have hup := upheld_image hmade.reachable hlog q hq req.term req.lastIncludedIndex
          (by rw [hpay]; rfl)
        rwa [show owner q = k.node by rw [owner, hpay]; exact hdest, hmade.up] at hup
  rintro ⟨n, hlt, hterm, hvotes⟩
  have hlog : ∀ k ∈ s.trace, withinLog k.pre k.input := fun k hk =>
    withinLog_of_counting (hcount k hk)
  have hsane := sane_of_up hs hlog hup
  exact hinv.1 hl n ⟨hlt, le_of_termAt (owning_of_leader hsane.kept hsane.terms hl) hterm, hterm,
    hvotes⟩

theorem leader_never_waits_addition : ∃ s, Reachable (coreSystem trio) s ∧
    ∃ c, s.node 1 = .up c ∧ c.role = .leader ∧ c.members.size = 4 ∧
      c.commitIndex < lastLogIndex c ∧
      ¬ ∃ n, c.commitIndex < n ∧ termAt c n = c.term ∧ majority c ≤ commitVotes c n := by
  obtain ⟨s, hs, hcount, c, hc, hl, hsize, hlt⟩ :=
    exists_of_run (coreSystem trio) (addition.take 10) (fun s =>
      (∀ k ∈ s.trace, counting k.pre k.input = true) ∧
      ∃ c ∈ core? s 1, c.role = .leader ∧ c.members.size = 4 ∧ c.commitIndex < lastLogIndex c)
      (by decide +kernel)
  have hup := node_of_core? hc
  exact ⟨s, hs, c, hup, hl, hsize, hlt, leader_never_waits hs hcount hup hl⟩

/-- Node 1 leads two nodes and removes the other one. Its vote alone commits the
removal from then on, but nothing counts it. -/
theorem removal_is_left_waiting : ∃ s, Reachable (coreSystem duo) s ∧
    ∃ c, s.node 1 = .up c ∧ c.role = .leader ∧
      ∃ n, c.commitIndex < n ∧ termAt c n = c.term ∧ majority c ≤ commitVotes c n := by
  obtain ⟨s, hs, c, hc, hl, h⟩ :=
    exists_of_run (coreSystem duo)
      [.restart 1 fun _ => 0, .restart 2 fun _ => 0, .act 1 (.client .tick), .deliver 0,
        .deliver 1, .deliver 2, .deliver 3, .act 1 (remove 2)] (fun s =>
      ∃ c ∈ core? s 1, c.role = .leader ∧ c.commitIndex < 2 ∧ termAt c 2 = c.term ∧
        majority c ≤ commitVotes c 2)
      (by decide +kernel)
  exact ⟨s, hs, c, node_of_core? hc, hl, 2, h⟩

end Runs

end RaftKV.Safety.CommitRule
