import RaftKV.Safety.Followers
import RaftKV.Safety.MembershipChanges

namespace RaftKV.Safety.ActiveMembership

open Distributed.Network
open Raft Raft.Durability Raft.Moves Raft.Cluster
open Raft.Provenance Raft.Shapes
open Safety.FixedMembership Safety.Followers Safety.MembershipChanges

variable {D : Deployment} {s : CoreState} {i : ID} {ev : Event} {M : Members} {c c' : Core}
variable {req : AppendEntriesRequest}

section LastChange

variable {last base : Nat} {es : List Entry}

theorem lastChange_cases (last : Nat) (es : List Entry) :
    lastChange last es = last ∨
      ∃ e ∈ es, (changeOf e).isSome ∧ e.index = lastChange last es := by
  induction es using List.reverseRecOn with
  | nil => exact Or.inl rfl
  | append_singleton es e ih =>
      unfold lastChange at ih ⊢
      rw [List.foldl_append]
      simp only [List.foldl_cons, List.foldl_nil]
      split
      · rename_i hsome
        exact Or.inr ⟨e, List.mem_concat_self, hsome, rfl⟩
      · refine ih.imp_right ?_
        rintro ⟨f, hf, hrest⟩
        exact ⟨f, List.mem_append_left _ hf, hrest⟩

end LastChange

section Noted

/-- The last change on record is the last one in the log, or lies under the snapshot
and is committed. -/
structure Noted (c : Core) : Prop where
  above : ∀ e ∈ c.entries, (changeOf e).isSome → e.index ≤ c.lastConfigIndex
  found : c.lastConfigIndex ≤ c.snapIndex ∨
    ∃ e ∈ c.entries, (changeOf e).isSome ∧ e.index = c.lastConfigIndex
  committed : c.lastConfigIndex ≤ c.snapIndex → c.lastConfigIndex ≤ c.commitIndex

theorem noted_of_eq (h : Noted c) (hl : c'.lastConfigIndex = c.lastConfigIndex)
    (he : c'.entries = c.entries) (hs : c'.snapIndex = c.snapIndex)
    (hc : c.commitIndex ≤ c'.commitIndex) : Noted c' where
  above := by
    rw [he, hl]
    exact h.above
  found := by
    rw [he, hl, hs]
    exact h.found
  committed := by
    rw [hl, hs]
    exact fun hle => (h.committed hle).trans hc

theorem noted_of_sameLog (h : Noted c) (hs : SameLog c c') (hc : c.commitIndex ≤ c'.commitIndex) :
    Noted c' :=
  noted_of_eq h (congrArg LogImage.lastConfigIndex hs) hs.entries hs.snapIndex hc

theorem noted_appendOwn (h : Noted c) {e : Entry} (he : changeOf e = none) :
    Noted (appendOwn c e) where
  above := by
    intro f hf hsome
    rcases List.mem_append.mp hf with hf | hf
    · exact h.above f hf hsome
    · rw [List.mem_singleton.mp hf, he] at hsome
      cases hsome
  found := by
    refine h.found.imp_right ?_
    rintro ⟨f, hf, hrest⟩
    exact ⟨f, List.mem_append_left _ hf, hrest⟩
  committed := h.committed

theorem lt_index {base : Nat} {es : List Entry} (hn : Numbered base es) {e : Entry} (he : e ∈ es) :
    base < e.index := by
  obtain ⟨k, hk⟩ := List.mem_iff_getElem?.mp he
  have := hn k e hk
  omega

theorem noted_recalcConfig (hn : Contiguous c) : Noted (recalcConfig c) := by
  have hcases := lastChange_cases 0 c.entries
  refine ⟨fun e he hsome => (@lastChange_ge _ 0 _ hn).2 e he hsome, ?_, ?_⟩
  · rcases hcases with hzero | hfound
    · exact Or.inl (hzero.trans_le (Nat.zero_le _))
    · exact Or.inr hfound
  · intro hle
    rcases hcases with hzero | ⟨e, he, -, hindex⟩
    · exact hzero.trans_le (Nat.zero_le _)
    · have := lt_index hn he
      change lastChange 0 c.entries ≤ c.snapIndex at hle
      omega

theorem noted_splice (h : Noted c) (hn : Contiguous c) {e : Entry}
    {rest : List Entry} {d : Disk} (hsnap : c.snapIndex < e.index)
    (hrest : Numbered (e.index - 1) (e :: rest))
    (hplain : ∀ f ∈ conflicting c e.index, f.type ≠ .config) :
    Noted (noteAppendedConfigs (splice c d e rest) (e :: rest)) := by
  have hge := @lastChange_ge _ c.lastConfigIndex _ hrest
  have hcases := lastChange_cases c.lastConfigIndex (e :: rest)
  have hsplit : c.entries = retained c e.index ++ conflicting c e.index := by
    rw [retained_eq hn hsnap, conflicting_eq hn hsnap, List.take_append_drop]
  have hlower : ∀ f ∈ retained c e.index, f.index ≤ e.index - 1 := by
    rw [retained_eq hn hsnap]
    intro f hf
    obtain ⟨k, hk⟩ := List.mem_iff_getElem?.mp hf
    have hlt := (List.getElem?_eq_some_iff.mp hk).1
    have := numbered_take hn _ k f hk
    rw [List.length_take] at hlt
    omega
  rw [noteAppendedConfigs_eq]
  refine ⟨?_, ?_, ?_⟩
  · intro f hf hsome
    change f.index ≤ lastChange c.lastConfigIndex (e :: rest)
    rcases List.mem_append.mp hf with hf | hf
    · have hold := h.above f (hsplit ▸ List.mem_append_left _ hf) hsome
      have := hlower f hf
      omega
    · exact hge.2 f hf hsome
  · change lastChange c.lastConfigIndex (e :: rest) ≤ c.snapIndex ∨ ∃ f ∈ retained c e.index ++ _, _
    rcases hcases with hsame | ⟨f, hf, hrest⟩
    · rw [hsame]
      refine h.found.imp_right ?_
      rintro ⟨f, hf, hsome, hindex⟩
      rw [hsplit] at hf
      rcases List.mem_append.mp hf with hf | hf
      · exact ⟨f, List.mem_append_left _ hf, hsome, hindex.trans hsame.symm⟩
      · rw [changeOf_of_type_ne (hplain f hf)] at hsome
        cases hsome
    · exact Or.inr ⟨f, List.mem_append_right _ hf, hrest⟩
  · intro hle
    change lastChange c.lastConfigIndex (e :: rest) ≤ c.snapIndex at hle
    change lastChange c.lastConfigIndex (e :: rest) ≤ c.commitIndex
    rcases hcases with hsame | ⟨f, hf, -, hindex⟩
    · rw [hsame] at hle ⊢
      exact h.committed hle
    · have := lt_index hrest hf
      omega

theorem noted_appendNew (h : Noted c) (hk : Kept M c) (hreq : WellFormed req)
    (hacc : Accepted c req) : Noted (appendNew c req.entries).1 := by
  have hn := hk.saved.numbered
  rcases appendNew_cases hn hk.cursors hreq hacc with
    heq | ⟨e, rest, -, hcommit, hsnap, hlast, hrest, heq⟩
  · rw [heq]
    exact h
  · rw [heq, truncateAndAppend_eq hcommit.not_ge hrest]
    dsimp only
    split
    · exact noted_recalcConfig (saved_splice hk.saved hsnap hlast hrest).numbered
    · rename_i hplain
      refine noted_splice h hn hsnap hrest fun f hf htype => hplain ?_
      exact List.any_eq_true.mpr ⟨f, hf, by simpa using htype⟩

theorem reaches_snapIndex (hk : Kept M c) (hreq : Shaped (.appendEntries req))
    (hacc : Accepted c req) (hnew : appendNew c req.entries = (c', .ok ())) :
    c.snapIndex ≤ req.prevLogIndex + req.entries.length ∨
      req.leaderCommit ≤ req.prevLogIndex + req.entries.length := by
  obtain ⟨hwf, -, hvacuous⟩ := hreq
  have hn := hk.saved.numbered
  have hindex : ∀ e ∈ req.entries, e.index ≤ req.prevLogIndex + req.entries.length := by
    intro e he
    obtain ⟨k, hget⟩ := List.mem_iff_getElem?.mp he
    have := hwf.numbered k e hget
    have := (List.getElem?_eq_some_iff.mp hget).1
    omega
  by_cases hzero : req.prevLogIndex = 0
  · refine Or.inl ?_
    cases hfresh : req.entries.dropWhile (held c) with
    | nil =>
        obtain ⟨e, he⟩ := List.exists_mem_of_ne_nil _ (hwf.start hzero)
        have hheld := List.dropWhile_eq_nil_iff.mp hfresh e he
        unfold held at hheld
        rw [decide_eq_true_eq] at hheld
        have hle := snapIndex_le_of_termAt hn (hheld.2 ▸ hwf.terms e he)
        exact hle.trans (hindex e he)
    | cons e rest =>
        have hmem : e ∈ req.entries := List.dropWhile_subset _ (hfresh ▸ List.mem_cons_self)
        have hcommit : c.commitIndex < e.index := by
          by_contra hle
          rw [appendNew, hfresh] at hnew
          dsimp only at hnew
          rw [truncateAndAppend, if_pos (Nat.le_of_not_lt hle)] at hnew
          cases hnew
        obtain ⟨hsnap, -⟩ := fresh_index hn hk.cursors hwf hacc hfresh hcommit
        exact hsnap.le.trans (hindex e hmem)
  · obtain ⟨-, hterm⟩ := hacc.resolve_left hzero
    by_cases hprev : req.prevLogTerm = 0
    · exact Or.inr ((hvacuous hprev (Nat.pos_of_ne_zero hzero)).trans (Nat.le_add_right _ _))
    · have hle := snapIndex_le_of_termAt hn (hterm ▸ hprev)
      exact Or.inl (hle.trans (Nat.le_add_right _ _))

theorem noted_followCommit (h : Noted c) {leaderCommit lastNew : Nat}
    (hreach : c.snapIndex ≤ lastNew ∨ leaderCommit ≤ lastNew) :
    Noted (followCommit c leaderCommit lastNew) := by
  unfold followCommit
  split
  · rename_i hlt
    have hs := sameLog_deliverCommitted { c with commitIndex := min leaderCommit lastNew }
    have hc : (deliverCommitted { c with commitIndex := min leaderCommit lastNew }).commitIndex =
        min leaderCommit lastNew := commitIndex_deliverCommitted _
    refine noted_of_sameLog (c := { c with commitIndex := min leaderCommit lastNew })
      ⟨h.above, h.found, ?_⟩ hs hc.ge
    intro hle
    have := h.committed hle
    change c.lastConfigIndex ≤ min leaderCommit lastNew
    change c.lastConfigIndex ≤ c.snapIndex at hle
    omega
  · exact h

theorem noted_adoptTerm (h : Noted c) (term : Nat) : Noted (adoptTerm c term) := by
  unfold adoptTerm
  split
  · exact noted_of_eq h rfl rfl rfl le_rfl
  · exact h

theorem noted_handleAppendEntries (h : Noted c) (hk : Kept M c)
    (hreq : Shaped (.appendEntries req)) : Noted (handleAppendEntries c req).1 := by
  have hadopt := noted_adoptTerm h req.term
  have hrec : Noted (recognizeLeader (adoptTerm c req.term) req.leaderId) :=
    noted_of_eq hadopt rfl rfl rfl le_rfl
  have hkept : Kept M (recognizeLeader (adoptTerm c req.term) req.leaderId) :=
    kept_of_sameLog (kept_adoptTerm hk req.term) rfl rfl rfl
  rcases handleAppendEntries_cases c req with
    ⟨resp, heq, -⟩ | ⟨resp, heq, -⟩ | ⟨-, hacc, ⟨c', err, hnew, heq⟩ | ⟨c', resp, hnew, heq, -⟩⟩
  · rw [heq]
    exact hadopt
  · rw [heq]
    exact hrec
  all_goals
    have htake := noted_appendNew hrec hkept hreq.1 hacc
    rw [hnew] at htake
    rw [heq]
  · exact htake
  · have hsnap :
        c'.snapIndex = (recognizeLeader (adoptTerm c req.term) req.leaderId).snapIndex := by
      have := congrArg Core.snapIndex
        (appendNew_eq (recognizeLeader (adoptTerm c req.term) req.leaderId) req.entries)
      rwa [hnew] at this
    refine noted_followCommit htake ?_
    rw [hsnap]
    exact reaches_snapIndex hkept hreq hacc hnew

theorem noted_move (hchange : changing ev = false) (happend : ∀ req, ev ≠ .appendEntries req)
    (hn : Contiguous c) (hmove : Move ev c c') (h : Noted c) : Noted c' := by
  cases hmove with
  | win hrole =>
      have hlead : Noted (becomeLeader c) := noted_of_eq h rfl rfl rfl le_rfl
      exact noted_appendOwn hlead (changeOf_of_type_ne EntryType.noConfusion)
  | own e hrole hterm hindex htype =>
      refine noted_appendOwn h (changeOf_of_type_ne fun hconf => ?_)
      rw [htype hconf] at hchange
      cases hchange
  | advance n hrole hadv =>
      have hs := sameLog_deliverCommitted { c with commitIndex := n }
      refine noted_of_sameLog (c := { c with commitIndex := n })
        (noted_of_eq h rfl rfl rfl hadv.lt.le) hs ?_
      rw [commitIndex_deliverCommitted]
  | follow req hreq => exact absurd hreq (happend req)
  | accept req hreq => exact absurd hreq (happend req)
  | change cc index hcc =>
      rw [hcc] at hchange
      cases hchange
  | install req config hreq hterm hrole hsnap hcommit =>
      exact noted_recalcConfig (@numbered_coherentSuffix c hn (carried req config) hsnap)
  | drift | ask | send | ack | stepDown | recognize | grant | campaign | fire | count | note
  | retry | read =>
      exact noted_of_eq h rfl rfl rfl le_rfl

/-- Whether a change is read back from its entry: it adds or removes a node, and the
address fits its length field. -/
def decodable (cc : ConfChange) : Bool :=
  (cc.op = confChangeAdd ∨ cc.op = confChangeRemove) ∧ cc.addr.length < 2 ^ 32

theorem noted_proposeConfChange (h : Noted c) (hn : Contiguous c)
    {cc : ConfChange} (hcc : decodable cc = true) :
    Noted (proposeConfChange c cc).1 := by
  rcases proposeConfChange_cases c cc with ⟨err, heq⟩ | ⟨-, -, heq⟩
  · rw [heq]
    exact h
  · have hlast := lastLogIndex_eq hn
    have hchange : changeOf ⟨c.term, lastLogIndex c + 1, .config, encodeConfChange cc⟩ =
        some cc := by
      obtain ⟨hop, haddr⟩ := of_decide_eq_true hcc
      rw [changeOf, if_pos rfl, decodeConfChange_encode haddr, if_pos hop]
      rfl
    obtain ⟨out, hout, -⟩ := replicates_broadcastAppends
      (appendOwn c ⟨c.term, lastLogIndex c + 1, .config, encodeConfChange cc⟩)
    have hs := (sameLog_replicates hout).trans (sameLog_maybeAdvanceCommit _)
    rw [heq]
    refine ⟨?_, Or.inr ?_, ?_⟩
    · intro f hf _
      change f ∈ (maybeAdvanceCommit _).entries at hf
      change f.index ≤ lastLogIndex c + 1
      rw [hs.entries] at hf
      rcases List.mem_append.mp hf with hf | hf
      · obtain ⟨k, hk⟩ := List.mem_iff_getElem?.mp hf
        have := hn k f hk
        have := (List.getElem?_eq_some_iff.mp hk).1
        omega
      · rw [List.mem_singleton.mp hf]
    · refine ⟨⟨c.term, lastLogIndex c + 1, .config, encodeConfChange cc⟩, ?_, ?_, rfl⟩
      · change _ ∈ (maybeAdvanceCommit _).entries
        rw [hs.entries]
        exact List.mem_concat_self
      · rw [hchange]
        rfl
    · intro hle
      change lastLogIndex c + 1 ≤ (maybeAdvanceCommit _).snapIndex at hle
      rw [hs.snapIndex] at hle
      change lastLogIndex c + 1 ≤ c.snapIndex at hle
      omega

/-- Whether an input keeps the record of changes: a compaction stays within the log and
does not swallow an uncommitted change, and a change is one that is read back. -/
def recordable (c : Core) : Input → Bool
  | .compact index _ => index ≤ c.lastDelivered → index ≤ lastLogIndex c ∧
      (index ≤ c.snapIndex ∨ c.lastConfigIndex ≤ c.commitIndex ∨ index < c.lastConfigIndex)
  | .client (.confChange cc) => decodable cc
  | _ => true

theorem noted_compact (h : Noted c) (hn : Contiguous c) {index : Nat}
    {data : Bytes} (hrec : recordable c (.compact index data)) :
    Noted (compact c index data).1 := by
  rcases compact_cases c index data with heq | ⟨hgt, hle, heq⟩ <;> rw [heq]
  · exact h
  · obtain ⟨-, hswallow⟩ := of_decide_eq_true hrec hle
    have hmem := fun e => @mem_entriesAfter _ hn _ hgt e
    refine ⟨fun e he hsome => h.above e ((hmem e).mp he).1 hsome, ?_, ?_⟩
    · change c.lastConfigIndex ≤ index ∨ ∃ e ∈ entriesAfter c index, _
      rcases Nat.lt_or_ge index c.lastConfigIndex with hlt | hge
      · obtain ⟨e, he, hsome, hindex⟩ := h.found.resolve_left (by omega)
        exact Or.inr ⟨e, (hmem e).mpr ⟨he, by omega⟩, hsome, hindex⟩
      · exact Or.inl hge
    · intro hle
      change c.lastConfigIndex ≤ index at hle
      change c.lastConfigIndex ≤ c.commitIndex
      omega

theorem noted_respond (h : Noted c) (hsane : Sane M c) {x : Input} (hin : FairInput x)
    (hrec : recordable c x) : Noted (respond c x).1 := by
  have hq : Noted (takeQueues c) := noted_of_eq h rfl rfl rfl le_rfl
  have hsane' := sane_takeQueues hsane
  have hreact : ∀ ev replies, Fair ev →
      (∀ cc, ev = .confChange cc → decodable cc = true) →
      Noted (react c ev replies).1 := by
    intro ev replies hev hcc
    rw [react_fst]
    by_cases hchange : changing ev = false ∧ ∀ req, ev ≠ .appendEntries req
    · refine (moves_induction (Q := fun a => Kept M a ∧ Noted a) (moves_taken ev)
        ⟨hsane'.kept, hq⟩ ?_).2
      rintro a b hmove ⟨hk, hnoted⟩
      exact ⟨kept_move hev hmove hk,
        noted_move hchange.1 hchange.2 hk.saved.numbered hmove hnoted⟩
    · cases ev with
      | appendEntries req => exact noted_handleAppendEntries hq hsane'.kept hev
      | confChange cc => exact noted_proposeConfChange hq hsane'.kept.saved.numbered (hcc cc rfl)
      | propose command typ =>
          exact absurd ⟨decide_eq_false hev, fun req h => by cases h⟩ hchange
      | _ => exact absurd ⟨rfl, fun req h => by cases h⟩ hchange
  cases x with
  | deliver p =>
      refine hreact _ _ hin fun cc h => ?_
      unfold eventOf at h
      split at h <;> cases h
  | client ev =>
      refine hreact _ _ hin ?_
      rintro cc rfl
      exact hrec
  | compact index data => exact noted_compact hq hsane'.kept.saved.numbered hrec

theorem noted_bootCore {cfg : Config} {rng : Nat → Nat} {d : Disk} {entries : List Entry}
    (hlog : replayRecords (loadRaftSnapshot d).lastIndex d.log = .ok entries) :
    Noted (bootCore cfg rng d M entries) := by
  refine noted_of_eq (noted_recalcConfig ?_) rfl rfl rfl le_rfl
  exact numbered_replayRecords hlog

theorem withinLog_of_recordable {x : Input} (h : recordable c x) : withinLog c x := by
  cases x with
  | compact index data => exact decide_eq_true fun hle => (of_decide_eq_true h hle).1
  | _ => rfl

theorem noted_of_up (hs : Reachable (coreSystem D) s)
    (hrec : ∀ k ∈ s.trace, recordable k.pre k.input = true) (hup : s.node i = .up c) :
    Noted c := by
  refine running_induction
    (G := fun k => recordable k.pre k.input = true) (Q := Noted) ?_ ?_ hs hrec hup
  · intro i rng d c hboot
    obtain ⟨-, M, entries, -, hlog, rfl⟩ := newCore_cases (newCore_of_boot hboot)
    exact noted_bootCore hlog
  · intro s k hmade hpast hk hpre
    have hlog : ∀ j ∈ s.trace, withinLog j.pre j.input := fun j hj =>
      withinLog_of_recordable (hpast j hj)
    rw [hmade.post]
    exact noted_respond hpre (sane_of_up hmade.reachable hlog hmade.up)
      (fairInput_of_madeIn hmade hlog) hk

end Noted

section Spelling

def addressed : Input → Bool
  | .client (.confChange cc) => cc.addr.length < 2 ^ 32
  | _ => true

theorem addressed_of_recordable {x : Input} (h : recordable c x) : addressed x := by
  cases x with
  | client ev =>
      cases ev with
      | confChange cc => exact decide_eq_true (of_decide_eq_true h).2
      | _ => rfl
  | _ => rfl

theorem proper_of_fair (h : Fair ev) (haddr : ∀ cc, ev = .confChange cc → cc.addr.length < 2 ^ 32) :
    Proper ev := by
  cases ev with
  | appendEntries req => exact h.1
  | propose command typ => exact h
  | confChange cc => exact haddr cc rfl
  | _ => trivial

def Spelled (c : Core) : Prop :=
  c.members = membersAfter c.snapConfig c.entries

theorem spelled_respond (h : Spelled c) (hsane : Sane M c) {x : Input} (hin : FairInput x)
    (haddr : addressed x) : Spelled (respond c x).1 := by
  have hdurable : Durable M (takeQueues c) :=
    durable_volatile ⟨hsane.kept.saved, hsane.kept.cursors, h⟩ rfl rfl rfl
  have hreact : ∀ ev replies, Proper ev → Spelled (react c ev replies).1 := by
    intro ev replies hev
    rw [react_fst]
    exact (durable_handle hdurable hev).members
  cases x with
  | deliver p =>
      refine hreact _ _ (proper_of_fair hin fun cc h => ?_)
      unfold eventOf at h
      split at h <;> cases h
  | client ev =>
      refine hreact _ _ (proper_of_fair hin ?_)
      rintro cc rfl
      exact of_decide_eq_true haddr
  | compact index data => exact (durable_compact hdurable index data).members

theorem spelled_of_up (hs : Reachable (coreSystem D) s)
    (hlog : ∀ k ∈ s.trace, withinLog k.pre k.input = true ∧ addressed k.input = true)
    (hup : s.node i = .up c) : Spelled c := by
  refine running_induction
    (G := fun k => withinLog k.pre k.input = true ∧ addressed k.input = true) (Q := Spelled)
    ?_ ?_ hs hlog hup
  · intro i rng d c hboot
    obtain ⟨-, M, entries, -, -, rfl⟩ := newCore_cases (newCore_of_boot hboot)
    rfl
  · intro s k hmade hpast hk hpre
    have hlog : ∀ j ∈ s.trace, withinLog j.pre j.input := fun j hj => (hpast j hj).1
    rw [hmade.post]
    exact spelled_respond hpre (sane_of_up hmade.reachable hlog hmade.up)
      (fairInput_of_madeIn hmade hlog) hk.2

end Spelling

/-- The membership a core acts on is what its log spells out; and as long as the record
of changes is kept, a change is on record as uncommitted exactly if the log has one
above the commit index. -/
theorem membership_is_spelled_out (hs : Reachable (coreSystem D) s) (hup : s.node i = .up c) :
    ((∀ k ∈ s.trace, withinLog k.pre k.input = true ∧ addressed k.input = true) →
      c.members = (recalcConfig c).members) ∧
    ((∀ k ∈ s.trace, recordable k.pre k.input = true) →
      (c.commitIndex < c.lastConfigIndex ↔
        ∃ e ∈ c.entries, (changeOf e).isSome = true ∧ c.commitIndex < e.index)) := by
  refine ⟨fun hlog => spelled_of_up hs hlog hup, fun hrec => ?_⟩
  have hnoted := noted_of_up hs hrec hup
  constructor
  · intro hlt
    obtain ⟨e, he, hsome, hindex⟩ := hnoted.found.resolve_left fun hle => by
      have := hnoted.committed hle
      omega
    exact ⟨e, he, hsome, by omega⟩
  · rintro ⟨e, he, hsome, hlt⟩
    exact hlt.trans_le (hnoted.above e he hsome)

theorem membership_is_spelled_out_addition : ∃ s, Reachable (coreSystem trio) s ∧
    ∃ c, s.node 1 = .up c ∧ c.commitIndex < c.lastConfigIndex ∧ c.members.size = 4 ∧
      c.members = (recalcConfig c).members ∧
      ∃ e ∈ c.entries, (changeOf e).isSome = true ∧ c.commitIndex < e.index := by
  obtain ⟨s, hs, hlog, hrec, c, hc, hlt, hsize⟩ :=
    exists_of_run (coreSystem trio) (addition.take 10) (fun s =>
      (∀ k ∈ s.trace, withinLog k.pre k.input = true ∧ addressed k.input = true) ∧
      (∀ k ∈ s.trace, recordable k.pre k.input = true) ∧
      ∃ c ∈ core? s 1, c.commitIndex < c.lastConfigIndex ∧ c.members.size = 4)
      (by decide +kernel)
  have hup := node_of_core? hc
  obtain ⟨hmembers, hchange⟩ := membership_is_spelled_out hs hup
  exact ⟨s, hs, c, hup, hlt, hsize, hmembers hlog, (hchange hrec).mp hlt⟩

/-- Node 1 leads, appends a command that fills a request and restarts; it leads again, and
node 2 rejects what it cannot place (packet 7) and catches up. Node 3 is added: node 2 has
five entries, four of them known to be committed, the addition among them. Then the rejection
arrives once more, a full request (packet 17) takes the commit index of node 2 back below the
addition, and the log is compacted through it. -/
def swallowed : List (Action ID Input (Nat → Nat)) :=
  [.restart 1 fun _ => 0, .restart 2 fun _ => 0, .act 1 (.client .tick), .deliver 0, .deliver 1,
    .act 1 (.client (.propose (zeros maxAppendBytes) .normal)), .crash 1, .restart 1 fun _ => 0,
    .act 1 (.client .tick), .deliver 4, .deliver 5, .deliver 6, .deliver 7, .deliver 8,
    .deliver 9, .deliver 10, .deliver 11, .act 1 (add 3), .deliver 12, .deliver 13,
    .act 1 (.client (.propose (oneByte 1) .normal)), .deliver 14, .deliver 16, .deliver 7,
    .deliver 17, .act 2 (.compact 4 [7])]

/-- A change is on record as uncommitted that the log does not have any more. -/
theorem compaction_swallows_change : ∃ s, Reachable (coreSystem duo) s ∧
    ∃ c, s.node 2 = .up c ∧ c.commitIndex < c.lastConfigIndex ∧
      ¬ ∃ e ∈ c.entries, (changeOf e).isSome = true ∧ c.commitIndex < e.index := by
  obtain ⟨s, hs, c, hc, hlt, hnone⟩ :=
    exists_of_run (coreSystem duo) swallowed (fun s =>
      ∃ c ∈ core? s 2, c.commitIndex < c.lastConfigIndex ∧
        ¬ ∃ e ∈ c.entries, (changeOf e).isSome = true ∧ c.commitIndex < e.index)
      (by decide +kernel)
  exact ⟨s, hs, c, node_of_core? hc, hlt, hnone⟩

end RaftKV.Safety.ActiveMembership
