import RaftKV.Safety.ActiveMembership
import RaftKV.Safety.CommitRule

namespace RaftKV.Safety.NewConfigurations

open Distributed.Network
open Raft Raft.Durability Raft.Commits Raft.Moves
open Raft.Cluster Raft.Barriers Raft.Provenance Raft.Shapes
open Refinement.Relation Refinement.Sending
open Safety.FixedMembership Safety.Followers Safety.MembershipChanges Safety.ActiveMembership
open Safety.CommitRule

variable {D : Deployment} {s : CoreState} {i : ID} {ev : Event} {M : Members} {a b c c' : Core}
variable {e : Entry} {x : Input} {n : Nat}

section Leaving

/-- A node that is a member, or whose removal it has not delivered yet. -/
def Eligible (c : Core) : Prop :=
  isMember c = true ∨ c.lastDelivered < c.lastConfigIndex

theorem eligible_of_seat (h : seat c' = seat c) (hc : Eligible c) : Eligible c' := by
  have hid : c'.cfg.id = c.cfg.id := congrArg Seat.id h
  have hmembers : c'.members = c.members := congrArg Seat.members h
  have hdel : c'.lastDelivered = c.lastDelivered := congrArg Seat.lastDelivered h
  have hlast : c'.lastConfigIndex = c.lastConfigIndex := congrArg Seat.lastConfigIndex h
  unfold Eligible isMember at hc ⊢
  rw [hid, hmembers, hdel, hlast]
  exact hc

/-- Whoever leads or wants to lead is eligible. -/
def RoleEligible (c : Core) : Prop :=
  c.role ≠ .follower → Eligible c

theorem roleEligible_of_role (h : c.role = .follower) : RoleEligible c :=
  fun hne => absurd h hne

theorem role_deliverOne (h : c.role = .follower) (base n : Nat) :
    (deliverOne base c n).role = .follower := by
  unfold deliverOne
  split
  · exact h
  · dsimp only
    split
    · rfl
    · exact h

theorem role_foldl_deliverOne (h : c.role = .follower) (base : Nat) (indices : List Nat) :
    (indices.foldl (deliverOne base) c).role = .follower := by
  induction indices generalizing c with
  | nil => exact h
  | cons n indices ih => exact ih (role_deliverOne h base n)

theorem leaves_foldl (hl : c.role = .leader) (hmem : isMember c = false) {base : Nat}
    {indices : List Nat} (hn : n ∈ indices)
    (he : c.entries[n - base]? = some e) (hconf : e.type = .config) :
    (indices.foldl (deliverOne base) c).role = .follower := by
  induction indices generalizing c with
  | nil => exact absurd hn List.not_mem_nil
  | cons m indices ih =>
      rw [List.foldl_cons]
      cases hget : c.entries[m - base]? with
      | none =>
          have hstay : deliverOne base c m = c := by
            unfold deliverOne
            rw [hget]
          rw [hstay]
          refine ih hl hmem ((List.mem_cons.mp hn).resolve_left ?_) he
          rintro rfl
          rw [hget] at he
          cases he
      | some f =>
          by_cases hleave : f.type = .config
          · refine role_foldl_deliverOne ?_ base indices
            unfold deliverOne
            rw [hget]
            dsimp only
            rw [if_pos ⟨hleave, hl, hmem⟩]
            rfl
          · have hstay : deliverOne base c m = { c with committed := c.committed ++ [f] } := by
              unfold deliverOne
              rw [hget]
              exact if_neg fun h => hleave h.1
            rw [hstay]
            refine ih hl hmem ((List.mem_cons.mp hn).resolve_left ?_) he
            rintro rfl
            rw [hget] at he
            cases he
            exact hleave hconf

theorem leaves_deliverCommitted (hl : c.role = .leader) (hmem : isMember c = false)
    (hn : Contiguous c) (he : e ∈ c.entries)
    (hconf : e.type = .config) (hlt : c.lastDelivered < e.index) (hle : e.index ≤ c.commitIndex) :
    (deliverCommitted c).role = .follower := by
  obtain ⟨k, hk⟩ := List.mem_iff_getElem?.mp he
  have hindex := hn k e hk
  unfold deliverCommitted
  cases hentries : c.entries with
  | nil =>
      rw [hentries] at he
      exact absurd he List.not_mem_nil
  | cons first rest =>
      have hfirst := index_of_cons hn hentries
      have hleaves : ((List.range' (c.lastDelivered + 1) (c.commitIndex - c.lastDelivered)).foldl
          (deliverOne first.index) c).role = .follower := by
        refine leaves_foldl hl hmem (n := e.index) (e := e) ?_ ?_ hconf
        · rw [List.mem_range'_1]
          omega
        · rw [show e.index - first.index = k by omega]
          exact hk
      dsimp only
      split
      · exact hleaves
      · exact hleaves

theorem type_of_changeOf (h : (changeOf e).isSome) : e.type = .config := by
  by_contra hne
  rw [changeOf_of_type_ne hne] at h
  cases h

theorem roleEligible_maybeAdvanceCommit (hk : Kept M c) (hnoted : Noted c) (hl : c.role = .leader)
    (h : Eligible c) : RoleEligible (maybeAdvanceCommit c) := by
  rcases maybeAdvanceCommit_cases c with heq | ⟨n, hn, heq⟩
  · rw [heq]
    exact fun _ => h
  · rw [heq]
    intro hrole
    have hnum := hk.saved.numbered
    have hsnap := hk.cursors.snap_le
    have hto := @deliveredTo_eq { c with commitIndex := n } hnum hsnap hn.le
    have hmember : isMember (deliverCommitted { c with commitIndex := n }) = isMember c := by
      obtain ⟨c', hq, hc'⟩ := deliverCommitted_cases { c with commitIndex := n }
      rw [hc']
      cases hq <;> rfl
    have hlast : (deliverCommitted { c with commitIndex := n }).lastConfigIndex =
          c.lastConfigIndex ∧
        (deliverCommitted { c with commitIndex := n }).lastDelivered = max c.lastDelivered n := by
      obtain ⟨c', hq, hc'⟩ := deliverCommitted_cases { c with commitIndex := n }
      rw [hc']
      cases hq <;> exact ⟨rfl, hto⟩
    cases hmem : isMember c with
    | true => exact Or.inl (hmember.trans hmem)
    | false =>
        have hlt : c.lastDelivered < c.lastConfigIndex := by
          refine h.resolve_left ?_
          rw [hmem]
          exact Bool.false_ne_true
        refine Or.inr ?_
        rw [hlast.1, hlast.2]
        refine max_lt hlt (Nat.lt_of_not_le fun hle => hrole ?_)
        obtain ⟨e, he, hsome, hindex⟩ := hnoted.found.resolve_left (by omega)
        exact leaves_deliverCommitted (c := { c with commitIndex := n }) hl hmem hnum he
          (type_of_changeOf hsome) (hindex ▸ hlt) (hindex ▸ hle)

end Leaving

section Outcomes

theorem noted_moves (hfair : Fair ev) (hchange : changing ev = false)
    (happend : ∀ req, ev ≠ .appendEntries req) (hm : Reaches [] ev c b) (hk : Kept M c)
    (h : Noted c) : Kept M b ∧ Noted b := by
  refine moves_induction (Q := fun a => Kept M a ∧ Noted a) hm ⟨hk, h⟩ ?_
  rintro a b hmove ⟨hk, h⟩
  exact ⟨kept_move hfair hmove hk, noted_move hchange happend hk.saved.numbered hmove h⟩

theorem plain_of_leads (hfair : Fair ev) (hev : leads ev = true) :
    changing ev = false ∧ ∀ req, ev ≠ .appendEntries req := by
  cases ev with
  | propose command typ => exact ⟨decide_eq_false hfair, fun req h => by cases h⟩
  | appendEntries | installSnapshot | snapshotResp | confChange => cases hev
  | _ => exact ⟨rfl, fun req h => by cases h⟩

theorem roleEligible_of_outcome (hk : Kept M c) (hfair : Fair ev) (hev : leads ev = true)
    (hnoted : Noted c) (hrun : c.role = .follower → runs c ev = true → Eligible c)
    (h : RoleEligible c) (ho : Outcome ev c c') : RoleEligible c' := by
  have hseat : (c.role = .follower → runs c ev = true) → Eligible c := by
    intro hr
    by_cases hf : c.role = .follower
    · exact hrun hf (hr hf)
    · exact h hf
  cases ho with
  | calm ht =>
      intro hrole
      rw [show c'.role = c.role from congrArg Tally.role ht] at hrole
      exact eligible_of_seat (congrArg Tally.seat ht) (h hrole)
  | down hrole hcommit => exact roleEligible_of_role hrole
  | stand hrole hs hr => exact fun _ => eligible_of_seat hs (hseat hr)
  | count b hb hl hs hr ht =>
      obtain ⟨hchange, happend⟩ := plain_of_leads hfair hev
      obtain ⟨hk', hnoted'⟩ := noted_moves hfair hchange happend hb hk hnoted
      have hcount := roleEligible_maybeAdvanceCommit hk' hnoted' hl (eligible_of_seat hs (hseat hr))
      intro hrole
      rw [show c'.role = _ from congrArg Tally.role ht] at hrole
      exact eligible_of_seat (congrArg Tally.seat ht) (hcount hrole)

/-- `a` continues the log of `c` by entries that change nothing. A follower does not
get to lead the term it is in. -/
structure Extends (c a : Core) : Prop where
  entries : ∃ new, a.entries = c.entries ++ new ∧ ∀ e ∈ new, e.type ≠ .config
  term_le : c.term ≤ a.term
  follower : c.role = .follower → a.term = c.term → a.role = .follower

theorem extends_refl (c : Core) : Extends c c :=
  ⟨⟨[], (List.append_nil _).symm, fun _ he => absurd he List.not_mem_nil⟩, le_rfl, fun h _ => h⟩

theorem extends_move (hev : leads ev = true) (hchange : changing ev = false)
    (hmove : Move ev a b) (h : Extends c a) : Extends c b := by
  have hturns := turns_move hmove
  have hterm : c.term ≤ b.term := by
    have := h.term_le
    rcases hturns.role with hlt | ⟨heq, -⟩ <;> omega
  have hfollow : c.role = .follower → b.term = c.term → b.role = .follower := by
    intro hf heq
    have hle := h.term_le
    rcases hturns.role with hlt | ⟨hsame, hrole⟩
    · omega
    · have ha := h.follower hf (hsame ▸ heq)
      rcases hrole with hrole | hrole | hrole
      · exact hrole.trans ha
      · exact hrole
      · rw [ha] at hrole
        cases hrole
  have hsame : b.entries = a.entries → Extends c b := fun heq =>
    ⟨heq ▸ h.entries, hterm, hfollow⟩
  have hown : ∀ e : Entry, e.type ≠ .config → b.entries = a.entries ++ [e] → Extends c b := by
    intro e he heq
    obtain ⟨new, hnew, hplain⟩ := h.entries
    refine ⟨⟨new ++ [e], by rw [heq, hnew, List.append_assoc], fun f hf => ?_⟩, hterm, hfollow⟩
    rcases List.mem_append.mp hf with hf | hf
    · exact hplain f hf
    · rw [List.mem_singleton.mp hf]
      exact he
  cases hmove with
  | win hrole => exact hown _ EntryType.noConfusion rfl
  | own e hrole he hindex htype =>
      refine hown e (fun hconf => ?_) rfl
      rw [htype hconf] at hchange
      cases hchange
  | advance n hrole hn => exact hsame (sameLog_deliverCommitted { a with commitIndex := n }).entries
  | follow req hreq | accept req hreq =>
      rw [hreq] at hev
      cases hev
  | install req config hreq =>
      rw [hreq] at hev
      cases hev
  | change cc index hcc =>
      rw [hcc] at hev
      cases hev
  | drift | ask | send | ack | stepDown | recognize | grant | campaign | fire | count | note
  | retry | read => exact hsame rfl

theorem mem_of_extends (h : Extends c a) (he : e ∈ a.entries)
    (hsome : (changeOf e).isSome) : e ∈ c.entries := by
  obtain ⟨new, hnew, hplain⟩ := h.entries
  rw [hnew] at he
  refine (List.mem_append.mp he).resolve_right fun hmem => ?_
  exact hplain e hmem (type_of_changeOf hsome)

/-- Among the changes of its own term that a leader has not committed there is none but
the last one on record. -/
def Single (c : Core) : Prop :=
  c.role = .leader → ∀ e ∈ c.entries, (changeOf e).isSome → e.term = c.term →
    c.commitIndex < e.index → e.index = c.lastConfigIndex

theorem single_extends (ht : Terms c) (h : Single c) (hext : Extends c b) (hl : b.role = .leader)
    (he : e ∈ b.entries) (hsome : (changeOf e).isSome) (hterm : e.term = b.term)
    (hlt : c.commitIndex < e.index) : e.index = c.lastConfigIndex := by
  have hold := mem_of_extends hext he hsome
  have hstored : e.term ∈ storedTerms c := List.mem_cons_of_mem _ (List.mem_map_of_mem hold)
  have hle := ht.le _ hstored
  have hge := hext.term_le
  have hsame : b.term = c.term := by omega
  cases hrole : c.role with
  | leader => exact h hrole e hold hsome (hterm.trans hsame) hlt
  | candidate =>
      have := ht.candidate hrole _ hstored
      omega
  | follower =>
      rw [hext.follower hrole hsame] at hl
      cases hl

theorem extends_moves (hev : leads ev = true) (hfair : Fair ev) (hm : Reaches [] ev c b) :
    Extends c b :=
  moves_induction hm (extends_refl c) fun _ _ =>
    extends_move hev (plain_of_leads hfair hev).1

/-- A count keeps the log, the record and the tables, and takes the commit index up to
where a majority stands. -/
structure Counted (b c' : Core) : Prop where
  entries : c'.entries = b.entries
  snapIndex : c'.snapIndex = b.snapIndex
  term : c'.term = b.term
  id : c'.cfg.id = b.cfg.id
  members : c'.members = b.members
  lastConfigIndex : c'.lastConfigIndex = b.lastConfigIndex
  matchIndex : c'.matchIndex = b.matchIndex
  commit : c'.commitIndex = b.commitIndex ∨ Advances b c'.commitIndex
  delivered : c'.lastDelivered ≤ max b.lastDelivered c'.commitIndex

theorem counted_maybeAdvanceCommit (b : Core) : Counted b (maybeAdvanceCommit b) := by
  rcases maybeAdvanceCommit_cases b with heq | ⟨n, hn, heq⟩
  · rw [heq]
    exact ⟨rfl, rfl, rfl, rfl, rfl, rfl, rfl, Or.inl rfl, le_max_left _ _⟩
  · have hto : deliveredTo { b with commitIndex := n } ≤ max b.lastDelivered n := by
      unfold deliveredTo
      split
      · exact le_max_left _ _
      · exact le_rfl
    obtain ⟨c', hq, hc'⟩ := deliverCommitted_cases { b with commitIndex := n }
    rw [heq, hc']
    cases hq <;> exact ⟨rfl, rfl, rfl, rfl, rfl, rfl, rfl, Or.inr hn, hto⟩

theorem counted_of_tally (h : tally c' = tally (maybeAdvanceCommit b)) : Counted b c' := by
  have hb := counted_maybeAdvanceCommit b
  have hcommit : c'.commitIndex = (maybeAdvanceCommit b).commitIndex :=
    congrArg (fun t => t.seat.commitIndex) h
  exact
    { entries := (congrArg Tally.entries h).trans hb.entries
      snapIndex := (congrArg Tally.snapIndex h).trans hb.snapIndex
      term := (congrArg Tally.term h).trans hb.term
      id := (congrArg (fun t => t.seat.id) h).trans hb.id
      members := (congrArg (fun t => t.seat.members) h).trans hb.members
      lastConfigIndex := (congrArg (fun t => t.seat.lastConfigIndex) h).trans hb.lastConfigIndex
      matchIndex := (congrArg Tally.matchIndex h).trans hb.matchIndex
      commit := by
        rw [hcommit]
        exact hb.commit
      delivered := by
        rw [hcommit, show c'.lastDelivered = _ from congrArg (fun t => t.seat.lastDelivered) h]
        exact hb.delivered }

theorem Counted.commit_le (h : Counted b c') : b.commitIndex ≤ c'.commitIndex := by
  rcases h.commit with heq | hadv
  · exact heq.ge
  · exact hadv.lt.le

theorem single_of_outcome (ht : Terms c) (hfair : Fair ev) (hev : leads ev = true) (h : Single c)
    (ho : Outcome ev c c') : Single c' := by
  cases ho with
  | calm htally =>
      intro hl e he hsome hterm hlt
      have hentries : c'.entries = c.entries := congrArg Tally.entries htally
      have hterm' : c'.term = c.term := congrArg Tally.term htally
      have hcommit : c'.commitIndex = c.commitIndex :=
        congrArg (fun t => t.seat.commitIndex) htally
      have hlast : c'.lastConfigIndex = c.lastConfigIndex :=
        congrArg (fun t => t.seat.lastConfigIndex) htally
      rw [hlast]
      rw [hterm'] at hterm
      rw [hcommit] at hlt
      exact h ((congrArg Tally.role htally).symm.trans hl) e (hentries ▸ he) hsome hterm hlt
  | down hrole hcommit =>
      intro hl
      rw [hrole] at hl
      cases hl
  | stand hrole hs hr =>
      intro hl
      rw [hrole] at hl
      cases hl
  | count b hb hl hs hr htally =>
      have hc := counted_of_tally htally
      intro _ e he hsome hterm hlt
      have hcommit : b.commitIndex = c.commitIndex := congrArg Seat.commitIndex hs
      have hle := hc.commit_le
      rw [hc.lastConfigIndex, show b.lastConfigIndex = c.lastConfigIndex from
        congrArg Seat.lastConfigIndex hs]
      exact single_extends ht h (extends_moves hev hfair hb) hl (hc.entries ▸ he) hsome
        (hterm.trans hc.term) (by omega)

end Outcomes

section Quorums

theorem configAt_last (hn : Contiguous c) (h : ∀ f ∈ c.entries, (changeOf f).isSome → f.index ≤ n) :
    configAt c n = membersAfter c.snapConfig c.entries := by
  rw [configAt_eq hn]
  have hplain : ∀ f ∈ c.entries.drop (n - c.snapIndex), changeOf f = none := by
    intro f hf
    by_contra hsome
    have hle := h f (List.mem_of_mem_drop hf) (Option.isSome_iff_ne_none.mpr hsome)
    obtain ⟨k, hk⟩ := List.mem_iff_getElem?.mp hf
    rw [List.getElem?_drop] at hk
    have := hn _ f hk
    omega
  nth_rewrite 2 [← List.take_append_drop (n - c.snapIndex) c.entries]
  rw [membersAfter_append, membersAfter_of_plain _ hplain]

/-- A majority of the membership that `e` introduces is known to store it. -/
def Carried (c : Core) (e : Entry) : Prop :=
  (configAt c e.index).size / 2 + 1 ≤ (storing c (configAt c e.index) e.index).card

theorem storing_mono (c : Core) (m : Members) {n' : Nat} (h : n ≤ n') :
    storing c m n' ⊆ storing c m n := by
  intro x hx
  obtain ⟨hmem, hx⟩ := Finset.mem_filter.mp hx
  exact Finset.mem_filter.mpr ⟨hmem, hx.imp_right h.trans⟩

theorem carried_of_outcome (ht : Terms c) (hsingle : Single c) (hfair : Fair ev)
    (hev : leads ev = true) (ho : Outcome ev c c') (hn : Contiguous c')
    (hspelled : Spelled c') (hnoted : Noted c')
    (he : e ∈ c'.entries) (hsome : (changeOf e).isSome)
    (hlt : c.commitIndex < e.index) (hle : e.index ≤ c'.commitIndex)
    (hlast : e.term = c'.term ∨ ∀ f ∈ c'.entries, (changeOf f).isSome → f.index ≤ e.index) :
    Carried c' e := by
  cases ho with
  | calm htally =>
      have hcommit : c'.commitIndex = c.commitIndex :=
        congrArg (fun t => t.seat.commitIndex) htally
      omega
  | down hrole hcommit => omega
  | stand hrole hs hr =>
      have hcommit : c'.commitIndex = c.commitIndex := congrArg Seat.commitIndex hs
      omega
  | count b hb hl hs hr htally =>
      have hc := counted_of_tally htally
      have hcommit : b.commitIndex = c.commitIndex := congrArg Seat.commitIndex hs
      have hrecord : b.lastConfigIndex = c.lastConfigIndex := congrArg Seat.lastConfigIndex hs
      have hadv : Advances b c'.commitIndex := by
        refine hc.commit.resolve_left fun heq => ?_
        omega
      -- A change of the leader's own term is the last one there is.
      have hlast : ∀ f ∈ c'.entries, (changeOf f).isSome → f.index ≤ e.index := by
        rcases hlast with hown | hlast
        · have hindex := single_extends ht hsingle (extends_moves hev hfair hb) hl
            (hc.entries ▸ he) hsome (hown.trans hc.term) hlt
          intro f hf hf'
          have := hnoted.above f hf hf'
          rw [hc.lastConfigIndex] at this
          omega
        · exact hlast
      have hconfig : configAt c' e.index = b.members := by
        rw [configAt_last hn hlast, ← hspelled, hc.members]
      have hstoring : storing c' b.members e.index = storing b b.members e.index := by
        unfold storing matchIndexOf
        rw [hc.id, hc.matchIndex]
      unfold Carried
      rw [hconfig, hstoring]
      refine (hadv.votes.trans (card_ackers b c'.commitIndex).ge).trans ?_
      exact Finset.card_le_card (storing_mono b b.members hle)

end Quorums

section Changes

/-- Whether a change that a core takes up is not committed at once, unless the core is
alone in the configuration that it brings. -/
def deferred (c : Core) (cc : ConfChange) : Bool :=
  admits c cc → c.lastDelivered ≤ lastLogIndex c ∧
    (commitVotes c (lastLogIndex c + 1) < majority c ∨
      voters (cc.apply c.members) = {c.cfg.id})

theorem proposeConfChange_counted (c : Core) (cc : ConfChange) :
    (proposeConfChange c cc).1 = c ∨
      c.role = .leader ∧ c.lastConfigIndex ≤ c.commitIndex ∧ admits c cc = true ∧
        ∃ b c₁, tally b = tally
            (appendOwn c ⟨c.term, lastLogIndex c + 1, .config, encodeConfChange cc⟩) ∧
          c₁ = maybeAdvanceCommit b ∧
          (proposeConfChange c cc).1 = applyConfChange c₁ cc (lastLogIndex c + 1) := by
  cases had : admits c cc with
  | false => exact Or.inl (proposeConfChange_of_not_admits had)
  | true =>
      rcases proposeConfChange_cases c cc with ⟨err, heq⟩ | ⟨hl, hflight, heq⟩
      · rw [heq]
        exact Or.inl rfl
      · rw [heq]
        exact Or.inr ⟨hl, hflight, rfl, _, _, tally_broadcastAppends _, rfl, rfl⟩

theorem votes_of_committed (hk : Kept M c) (hindex : e.index = lastLogIndex c + 1)
    (ht : tally b = tally (appendOwn c e)) (hc : Counted b c')
    (hle : e.index ≤ c'.commitIndex) : majority c ≤ commitVotes c e.index := by
  have hcommit : b.commitIndex = c.commitIndex := congrArg (fun t => t.seat.commitIndex) ht
  have hlast : lastLogIndex b = e.index :=
    (lastLogIndex_congr (congrArg Tally.entries ht) (congrArg Tally.snapIndex ht)).trans
      (lastLogIndex_appendOwn c e)
  have hid : b.cfg.id = c.cfg.id := congrArg (fun t => t.seat.id) ht
  have hmembers : b.members = c.members := congrArg (fun t => t.seat.members) ht
  have hmatch : b.matchIndex = c.matchIndex := congrArg Tally.matchIndex ht
  have hbelow := hk.commit_last
  have hadv : Advances b c'.commitIndex := hc.commit.resolve_left (by omega)
  have hn := hadv.le
  have hvotes := hadv.votes
  rw [show c'.commitIndex = e.index by omega] at hvotes
  unfold majority commitVotes isMember peerIDs matchIndexOf at hvotes ⊢
  rwa [hmembers, hid, hmatch] at hvotes

theorem roleEligible_proposeConfChange (hk : Kept M c) {cc : ConfChange}
    (hwait : deferred c cc = true) (h : RoleEligible c) :
    RoleEligible (proposeConfChange c cc).1 := by
  rcases proposeConfChange_counted c cc with heq | ⟨hl, -, had, b, c₁, ht, rfl, heq⟩
  · rw [heq]
    exact h
  · rw [heq]
    generalize he : (⟨c.term, lastLogIndex c + 1, .config, encodeConfChange cc⟩ : Entry) = e at ht
    have hindex : e.index = lastLogIndex c + 1 := by rw [← he]
    have hc := counted_maybeAdvanceCommit b
    have hmembers : (maybeAdvanceCommit b).members = c.members :=
      hc.members.trans (congrArg (fun t => t.seat.members) ht)
    have hid : (maybeAdvanceCommit b).cfg.id = c.cfg.id :=
      hc.id.trans (congrArg (fun t => t.seat.id) ht)
    obtain ⟨hdel, hvotes⟩ := of_decide_eq_true hwait had
    intro _
    by_cases hcommit : e.index ≤ (maybeAdvanceCommit b).commitIndex
    · -- Committed at once: the node is alone in the new configuration.
      have hmaj := votes_of_committed hk hindex ht hc hcommit
      rw [hindex] at hmaj
      have halone := hvotes.resolve_left (Nat.not_lt_of_le hmaj)
      have hself : c.cfg.id ∈ voters (cc.apply c.members) := by
        rw [halone]
        exact Finset.mem_singleton_self _
      refine Or.inl ?_
      change (cc.apply (maybeAdvanceCommit b).members).contains (maybeAdvanceCommit b).cfg.id = true
      rw [hmembers, hid, Std.ExtTreeMap.contains_iff_mem]
      exact mem_voters.mp hself
    · refine Or.inr ?_
      change (maybeAdvanceCommit b).lastDelivered < lastLogIndex c + 1
      have hdel' : b.lastDelivered = c.lastDelivered :=
        congrArg (fun t => t.seat.lastDelivered) ht
      refine hc.delivered.trans_lt (max_lt ?_ ?_) <;> omega

theorem single_proposeConfChange (hnoted : Noted c) (h : Single c) (cc : ConfChange) :
    Single (proposeConfChange c cc).1 := by
  rcases proposeConfChange_counted c cc with heq | ⟨hl, hflight, -, b, c₁, ht, rfl, heq⟩
  · rw [heq]
    exact h
  · rw [heq]
    have hc := counted_maybeAdvanceCommit b
    have hcommit : b.commitIndex = c.commitIndex := congrArg (fun t => t.seat.commitIndex) ht
    have hentries : (maybeAdvanceCommit b).entries = c.entries ++ [_] :=
      hc.entries.trans (congrArg Tally.entries ht)
    intro _ e he hsome _ hlt
    change e ∈ (maybeAdvanceCommit b).entries at he
    change (maybeAdvanceCommit b).commitIndex < e.index at hlt
    have hle := hc.commit_le
    rw [hentries] at he
    rcases List.mem_append.mp he with he | he
    · have := hnoted.above e he hsome
      omega
    · rw [List.mem_singleton.mp he]
      rfl

theorem carried_proposeConfChange (hk : Kept M c) (hnoted : Noted c) {cc : ConfChange}
    (hwait : deferred c cc = true)
    (hn : Numbered (proposeConfChange c cc).1.snapIndex (proposeConfChange c cc).1.entries)
    (hspelled : Spelled (proposeConfChange c cc).1)
    (hnoted' : Noted (proposeConfChange c cc).1)
    (he : e ∈ (proposeConfChange c cc).1.entries) (hsome : (changeOf e).isSome)
    (hlt : c.commitIndex < e.index) (hle : e.index ≤ (proposeConfChange c cc).1.commitIndex) :
    Carried (proposeConfChange c cc).1 e := by
  rcases proposeConfChange_counted c cc with heq | ⟨hl, hflight, had, b, c₁, ht, rfl, heq⟩
  · rw [heq] at hle
    omega
  · rw [heq] at he hle hn hspelled hnoted' ⊢
    have hc := counted_maybeAdvanceCommit b
    have hentries : (maybeAdvanceCommit b).entries = c.entries ++ [_] :=
      hc.entries.trans (congrArg Tally.entries ht)
    have hmembers : (maybeAdvanceCommit b).members = c.members :=
      hc.members.trans (congrArg (fun t => t.seat.members) ht)
    have hid : (maybeAdvanceCommit b).cfg.id = c.cfg.id :=
      hc.id.trans (congrArg (fun t => t.seat.id) ht)
    change e ∈ (maybeAdvanceCommit b).entries at he
    change e.index ≤ (maybeAdvanceCommit b).commitIndex at hle
    have hmem := he
    rw [hentries] at hmem
    rcases List.mem_append.mp hmem with hold | hnew
    · have := hnoted.above e hold hsome
      omega
    · obtain rfl := List.mem_singleton.mp hnew
      have hmaj := votes_of_committed hk rfl ht hc hle
      obtain ⟨-, hvotes⟩ := of_decide_eq_true hwait had
      have halone := hvotes.resolve_left (Nat.not_lt_of_le hmaj)
      have hconfig : configAt (applyConfChange (maybeAdvanceCommit b) cc (lastLogIndex c + 1))
          (lastLogIndex c + 1) = cc.apply c.members := by
        refine (configAt_last hn hnoted'.above).trans ?_
        rw [← hspelled]
        exact congrArg cc.apply hmembers
      unfold Carried
      rw [hconfig, ← card_voters, halone, Finset.card_singleton]
      refine Finset.card_pos.mpr ⟨c.cfg.id, Finset.mem_filter.mpr ⟨?_, Or.inl hid.symm⟩⟩
      rw [halone]
      exact Finset.mem_singleton_self _

end Changes

section Runs

/-- What keeps changes in order, as a condition on the state a call finds: a change is
read back from its entry and is not committed at once unless its core is alone then, a node
that is made to campaign is eligible, and a compaction keeps the record of
changes. -/
def keepsOrder (c : Core) : Input → Bool
  | .client (.confChange cc) => decodable cc = true ∧ deferred c cc = true
  | .deliver p => triggers c p → isMember c = true ∨ c.lastDelivered < c.lastConfigIndex
  | .compact index data => recordable c (.compact index data)
  | _ => true

theorem recordable_of_keepsOrder (h : keepsOrder c x = true) : recordable c x = true := by
  cases x with
  | deliver p => rfl
  | compact index data => exact h
  | client ev =>
      cases ev with
      | confChange cc => exact (of_decide_eq_true h).1
      | _ => rfl

def follows : Input → Bool
  | .deliver ⟨_, _, .request (.appendEntries _)⟩ => true
  | .deliver ⟨_, _, .request (.installSnapshot _)⟩ => true
  | _ => false

/-- What a call keeps and what it commits. -/
structure Holding (c : Core) : Prop where
  eligible : RoleEligible c
  single : Single c

theorem holding_of_follows (h : Holding c) {t : Nat}
    (hf : c' = adoptTerm c t ∨ c'.role = .follower) : Holding c' := by
  have hfollow : ∀ a : Core, a.role = .follower → Holding a := fun a ha =>
    ⟨roleEligible_of_role ha, fun hl => by rw [ha] at hl; cases hl⟩
  rcases hf with rfl | hf
  · unfold adoptTerm
    split
    · exact hfollow _ rfl
    · exact h
  · exact hfollow _ hf

theorem holding_handleInstallSnapshotResponse (h : Holding c) (sender : ID)
    (req : InstallSnapshotRequest) (resp : InstallSnapshotResponse) :
    Holding (handleInstallSnapshotResponse c sender req resp) := by
  have hfeed : ∀ a : Core, Holding a → Holding (feed a sender) := by
    intro a ha
    unfold feed
    split
    · obtain ⟨o, ho, -⟩ := replicates_sendAppend a sender
      rw [ho.eq]
      exact ⟨ha.eligible, ha.single⟩
    · exact ha
  unfold handleInstallSnapshotResponse
  split
  · exact holding_of_follows h (t := 0) (Or.inr rfl)
  · split
    · exact h
    · refine hfeed _ ?_
      unfold noteSnapshot
      split
      · exact ⟨h.eligible, h.single⟩
      · exact h

theorem holding_handle (hc : Sane M c) (hnoted : Noted c) (hfair : Fair ev) (hout : c.outbox = [])
    (hrun : c.role = .follower → runs c ev = true → Eligible c)
    (hcc : ∀ cc, ev = .confChange cc → deferred c cc = true) (h : Holding c) :
    Holding (handle c ev).1 := by
  cases hev : leads ev with
  | true =>
      have ho := outcome_handle hout hev
      exact ⟨roleEligible_of_outcome hc.kept hfair hev hnoted hrun h.eligible ho,
        single_of_outcome hc.terms hfair hev h.single ho⟩
  | false =>
      cases ev with
      | appendEntries req => exact holding_of_follows h (follows_handleAppendEntries c req)
      | installSnapshot req => exact holding_of_follows h (follows_handleInstallSnapshot c req)
      | snapshotResp sender req resp =>
          exact holding_handleInstallSnapshotResponse h sender req resp
      | confChange cc =>
          exact ⟨roleEligible_proposeConfChange hc.kept (hcc cc rfl) h.eligible,
            single_proposeConfChange hnoted h.single cc⟩
      | _ => cases hev

theorem holding_compact (h : Holding c) (index : Nat) (data : Bytes) :
    Holding (compact c index data).1 := by
  rcases compact_cases c index data with heq | ⟨-, -, heq⟩ <;> rw [heq]
  · exact h
  · exact ⟨h.eligible, fun hl e he => h.single hl e (mem_of_mem_entriesAfter he)⟩

theorem carried_handle (hc : Sane M c) (hnoted : Noted c) (hfair : Fair ev) (hout : c.outbox = [])
    (hcc : ∀ cc, ev = .confChange cc → deferred c cc = true) (h : Holding c)
    (hfollow : (∀ req, ev ≠ .appendEntries req) ∧ ∀ req, ev ≠ .installSnapshot req)
    (hn : Numbered (handle c ev).1.snapIndex (handle c ev).1.entries)
    (hspelled : Spelled (handle c ev).1) (hnoted' : Noted (handle c ev).1)
    (he : e ∈ (handle c ev).1.entries) (hsome : (changeOf e).isSome)
    (hlt : c.commitIndex < e.index) (hle : e.index ≤ (handle c ev).1.commitIndex)
    (hlast : e.term = (handle c ev).1.term ∨
      ∀ f ∈ (handle c ev).1.entries, (changeOf f).isSome → f.index ≤ e.index) :
    Carried (handle c ev).1 e := by
  cases hev : leads ev with
  | true =>
      exact carried_of_outcome hc.terms h.single hfair hev (outcome_handle hout hev) hn hspelled
        hnoted' he hsome hlt hle hlast
  | false =>
      cases ev with
      | appendEntries req => exact absurd rfl (hfollow.1 req)
      | installSnapshot req => exact absurd rfl (hfollow.2 req)
      | snapshotResp sender req resp =>
          have := commitIndex_handleInstallSnapshotResponse c sender req resp
          change e.index ≤ (handleInstallSnapshotResponse c sender req resp).commitIndex at hle
          omega
      | confChange cc =>
          exact carried_proposeConfChange hc.kept hnoted (hcc cc rfl) hn hspelled hnoted' he hsome
            hlt hle
      | _ => cases hev

theorem runs_of_deliver {p : Packet} (h : runs (takeQueues c) (eventOf p) = true) :
    triggers c p = true := by
  obtain ⟨src, dest, payload⟩ := p
  cases payload with
  | request msg =>
      cases msg with
      | timeoutNow req => exact h
      | _ => cases h
  | voteResp req resp => exact h
  | _ => cases h

theorem follows_deliver {p : Packet} (h : follows (.deliver p) = false) :
    (∀ req, eventOf p ≠ .appendEntries req) ∧ ∀ req, eventOf p ≠ .installSnapshot req := by
  obtain ⟨src, dest, payload⟩ := p
  constructor
  all_goals
    intro req heq
    cases payload with
    | request msg =>
        cases msg <;> cases heq
        cases h
    | _ => cases heq

theorem respond_keepsOrder (hfair : FairInput x)
    (hx : isLocal x = true ∨ ∃ p, x = .deliver p) (h : keepsOrder c x = true) :
    (∃ index data, x = .compact index data) ∨
      ∃ ev, Fair ev ∧ (respond c x).1 = (handle (takeQueues c) ev).1 ∧
        (runs (takeQueues c) ev = true → Eligible (takeQueues c)) ∧
        (∀ cc, ev = .confChange cc → deferred (takeQueues c) cc = true) ∧
        (follows x = false →
          (∀ req, ev ≠ .appendEntries req) ∧ ∀ req, ev ≠ .installSnapshot req) := by
  cases x with
  | compact index data => exact Or.inl ⟨index, data, rfl⟩
  | deliver p =>
      refine Or.inr ⟨_, hfair, react_fst _ _ _, fun hrun => ?_, fun cc hcc => ?_, follows_deliver⟩
      · exact of_decide_eq_true h (runs_of_deliver hrun)
      · obtain ⟨src, dest, payload⟩ := p
        cases payload with
        | request msg => cases msg <;> cases hcc
        | _ => cases hcc
  | client ev =>
      refine Or.inr ⟨ev, hfair, react_fst _ _ _, fun hrun => ?_, ?_, fun _ => ?_⟩
      · cases ev with
        | tick => exact Or.inl hrun
        | _ => rcases hx with hx | ⟨p, hx⟩ <;> first | cases hrun | cases hx
      · rintro cc rfl
        exact (of_decide_eq_true h).2
      · rcases hx with hx | ⟨p, hx⟩
        · constructor <;> rintro req rfl <;> cases hx
        · cases hx

theorem holding_respond (hc : Sane M c) (hnoted : Noted c) (hfair : FairInput x)
    (hx : isLocal x = true ∨ ∃ p, x = .deliver p) (horder : keepsOrder c x = true)
    (h : Holding c) : Holding (respond c x).1 := by
  have hq := sane_takeQueues hc
  have hholding : Holding (takeQueues c) := ⟨h.eligible, h.single⟩
  rcases respond_keepsOrder hfair hx horder with
    ⟨index, data, rfl⟩ | ⟨ev, hev, heq, hrun, hcc, -⟩
  · exact holding_compact hholding index data
  · rw [heq]
    exact holding_handle hq (noted_of_eq hnoted rfl rfl rfl le_rfl) hev rfl (fun _ => hrun) hcc
      hholding

theorem holding_of_up (hs : Reachable (coreSystem D) s)
    (horder : ∀ k ∈ s.trace, keepsOrder k.pre k.input = true) (hup : s.node i = .up c) :
    Holding c := by
  refine running_induction (G := fun k => keepsOrder k.pre k.input = true) (Q := Holding) ?_ ?_ hs
    horder hup
  · intro i rng d c hboot
    obtain ⟨-, M, entries, -, -, rfl⟩ := newCore_cases (newCore_of_boot hboot)
    exact ⟨roleEligible_of_role rfl, fun hl => by cases hl⟩
  · intro s k hmade hpast hk hpre
    have hrec : ∀ j ∈ s.trace, recordable j.pre j.input := fun j hj =>
      recordable_of_keepsOrder (hpast j hj)
    have hlog : ∀ j ∈ s.trace, withinLog j.pre j.input := fun j hj =>
      withinLog_of_recordable (hrec j hj)
    rw [hmade.post]
    exact holding_respond (sane_of_up hmade.reachable hlog hmade.up)
      (noted_of_up hmade.reachable hrec hmade.up) (fairInput_of_madeIn hmade hlog)
      (isLocal_or_deliver hmade.enabled) hk hpre

/-- In a run whose calls keep the order of changes, a core that does not follow commits a change
of its own term, or the last one in its log, only when a majority of the membership that the
change introduces stores it; and a core whose last change is committed does not lead unless it
is a member. -/
theorem changes_commit_under_new_membership (hs : Reachable (coreSystem D) s)
    (horder : ∀ k ∈ s.trace, keepsOrder k.pre k.input = true) :
    (∀ k ∈ s.trace, follows k.input = false → ∀ e ∈ k.post.entries, (changeOf e).isSome = true →
      k.pre.commitIndex < e.index → e.index ≤ k.post.commitIndex →
      (e.term = k.post.term ∨
        ∀ f ∈ k.post.entries, (changeOf f).isSome = true → f.index ≤ e.index) →
      (configAt k.post e.index).size / 2 + 1 ≤
        (storing k.post (configAt k.post e.index) e.index).card) ∧
    ∀ i c, s.node i = .up c → c.lastConfigIndex ≤ c.commitIndex → isMember c = false →
      c.role ≠ .leader := by
  constructor
  · intro k hk hf e he hsome hlt hle hlast
    obtain ⟨n, hn⟩ := List.mem_iff_getElem?.mp hk
    obtain ⟨s₀, hmade, htrace⟩ := exists_madeIn hs hn
    have hpast : ∀ j ∈ s₀.trace, keepsOrder j.pre j.input = true := by
      rw [htrace]
      exact fun j hj => horder j (List.mem_of_mem_take hj)
    have hrec : ∀ j ∈ s₀.trace, recordable j.pre j.input := fun j hj =>
      recordable_of_keepsOrder (hpast j hj)
    have hlog : ∀ j ∈ s₀.trace, withinLog j.pre j.input := fun j hj =>
      withinLog_of_recordable (hrec j hj)
    have hsane := sane_of_up hmade.reachable hlog hmade.up
    have hnoted := noted_of_up hmade.reachable hrec hmade.up
    have hfair := fairInput_of_madeIn hmade hlog
    have hholding := holding_of_up hmade.reachable hpast hmade.up
    have hkrec := recordable_of_keepsOrder (horder k hk)
    have hnoted' := noted_respond hnoted hsane hfair hkrec
    have hn' := (sane_respond hsane hfair (withinLog_of_recordable hkrec)).1.kept.saved.numbered
    have hspelled := spelled_of_up hmade.reachable (fun j hj =>
      ⟨hlog j hj, addressed_of_recordable (hrec j hj)⟩) hmade.up
    have hspelled' := spelled_respond hspelled hsane hfair (addressed_of_recordable hkrec)
    have hpost : k.post = (respond k.pre k.input).1 := hmade.post
    rw [hpost] at he hle hlast ⊢
    rcases respond_keepsOrder hfair (isLocal_or_deliver hmade.enabled) (horder k hk) with
      ⟨index, data, hx⟩ | ⟨ev, hev, heq, -, hcc, hfollow⟩
    · have hsame := commitIndex_compact (takeQueues k.pre) index data
      rw [hx] at hle
      change e.index ≤ (compact (takeQueues k.pre) index data).1.commitIndex at hle
      rw [hsame] at hle
      exact absurd hlt (Nat.not_lt_of_le hle)
    · rw [heq] at he hle hlast hnoted' hn' hspelled' ⊢
      exact carried_handle (sane_takeQueues hsane) (noted_of_eq hnoted rfl rfl rfl le_rfl) hev rfl
        hcc ⟨hholding.eligible, hholding.single⟩ (hfollow hf) hn' hspelled' hnoted' he hsome hlt hle
        hlast
  · intro i c hup hle hmem hl
    have hrec : ∀ j ∈ s.trace, recordable j.pre j.input := fun j hj =>
      recordable_of_keepsOrder (horder j hj)
    have hlog : ∀ j ∈ s.trace, withinLog j.pre j.input := fun j hj =>
      withinLog_of_recordable (hrec j hj)
    have hdel := (sane_of_up hs hlog hup).kept.commit_le
    rcases (holding_of_up hs horder hup).eligible (by rw [hl]; exact Role.noConfusion) with h | h
    · rw [hmem] at h
      cases h
    · omega

/-- Node 1 leads, commits and removes itself; the other two acknowledge the removal. -/
def removal : List (Action ID Input (Nat → Nat)) :=
  [.restart 1 fun _ => 0, .restart 2 fun _ => 0, .restart 3 fun _ => 0, .act 1 (.client .tick),
    .deliver 0, .deliver 2, .deliver 3, .deliver 5, .deliver 4, .deliver 6, .act 1 (remove 1),
    .deliver 7, .deliver 9, .deliver 8, .deliver 10]

theorem changes_commit_under_new_membership_removal : ∃ s, Reachable (coreSystem trio) s ∧
    (∃ k ∈ s.trace, k.pre.commitIndex < 2 ∧ k.post.commitIndex = 2 ∧
      (configAt k.post 2).size / 2 + 1 ≤ (storing k.post (configAt k.post 2) 2).card) ∧
    ∃ c, s.node 1 = .up c ∧ c.lastConfigIndex ≤ c.commitIndex ∧ isMember c = false ∧
      c.role ≠ .leader := by
  obtain ⟨s, hs, horder, ⟨k, hk, hf, hlt, hcommit, e, he, hindex, hsome, hterm⟩, c, hc, hle,
      hmem⟩ :=
    exists_of_run (coreSystem trio) removal (fun s =>
      (∀ k ∈ s.trace, keepsOrder k.pre k.input = true) ∧
      (∃ k ∈ s.trace, follows k.input = false ∧ k.pre.commitIndex < 2 ∧ k.post.commitIndex = 2 ∧
        ∃ e ∈ k.post.entries, e.index = 2 ∧ (changeOf e).isSome = true ∧ e.term = k.post.term) ∧
      ∃ c ∈ core? s 1, c.lastConfigIndex ≤ c.commitIndex ∧ isMember c = false)
      (by decide +kernel)
  obtain ⟨hcarried, hleaves⟩ := changes_commit_under_new_membership hs horder
  refine ⟨s, hs, ⟨k, hk, hlt, hcommit, ?_⟩, c, node_of_core? hc, hle, hmem,
    hleaves 1 c (node_of_core? hc) hle hmem⟩
  have h := hcarried k hk hf e he hsome (by omega) (by omega) (Or.inl hterm)
  rwa [hindex] at h

/-- The only member commits the addition of node 2, which a majority of the two does
not store; and having committed its own removal it still leads. -/
theorem lone_leader_commits_at_once :
    (∃ s, Reachable (coreSystem lone) s ∧ ∃ k ∈ s.trace, follows k.input = false ∧
      ∃ e ∈ k.post.entries, (changeOf e).isSome = true ∧ k.pre.commitIndex < e.index ∧
        e.index ≤ k.post.commitIndex ∧ e.term = k.post.term ∧
        (storing k.post (configAt k.post e.index) e.index).card <
          (configAt k.post e.index).size / 2 + 1) ∧
    ∃ s, Reachable (coreSystem lone) s ∧ ∃ c, s.node 1 = .up c ∧
      c.lastConfigIndex ≤ c.commitIndex ∧ isMember c = false ∧ c.role = .leader := by
  refine ⟨exists_of_run (coreSystem lone)
    [.restart 1 fun _ => 0, .act 1 (.client .tick), .act 1 (add 2)] _ (by decide +kernel), ?_⟩
  obtain ⟨s, hs, c, hc, h⟩ := exists_of_run (coreSystem lone)
    [.restart 1 fun _ => 0, .act 1 (.client .tick), .act 1 (remove 1)] (fun s =>
      ∃ c ∈ core? s 1, c.lastConfigIndex ≤ c.commitIndex ∧ isMember c = false ∧
        c.role = .leader)
    (by decide +kernel)
  exact ⟨s, hs, c, node_of_core? hc, h⟩

end Runs

end RaftKV.Safety.NewConfigurations
