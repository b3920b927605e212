import RaftKV.Raft.Pledges
import RaftKV.Safety.FixedMembership

namespace RaftKV.Safety.Frontiers

open Distributed.Network
open Raft Raft.Durability Raft.Commits Raft.Moves
open Raft.Cluster Raft.Barriers Raft.Provenance Raft.Shapes Raft.Pledges

variable {M : Members} {ev : Event} {c c' : Core} {D : Deployment} {s : CoreState} {i : ID}
variable {peer : ID} {m n t : Nat}

section Frontier

/-- A peer continues after what it is known to store and not beyond the end of the
log; right after it, once it has acknowledged anything. -/
structure Frontier (c : Core) : Prop where
  lt : ∀ id next, c.nextIndex id = some next → matchIndexOf c id < next
  le : ∀ id next, c.nextIndex id = some next → next ≤ lastLogIndex c + 1
  tight : ∀ id, matchIndexOf c id = 0 ∨ c.nextIndex id = some (matchIndexOf c id + 1)

theorem frontier_of_eq (h : Frontier c) (hn : c'.nextIndex = c.nextIndex)
    (hm : c'.matchIndex = c.matchIndex) (hl : lastLogIndex c ≤ lastLogIndex c') :
    Frontier c' := by
  have hmatch : ∀ id, matchIndexOf c' id = matchIndexOf c id := fun id => by
    rw [matchIndexOf, matchIndexOf, hm]
  refine ⟨fun id next hnext => ?_, fun id next hnext => ?_, fun id => ?_⟩
  · rw [hmatch]
    exact h.lt id next (hn ▸ hnext)
  · exact (h.le id next (hn ▸ hnext)).trans (Nat.add_le_add_right hl 1)
  · rw [hmatch, hn]
    exact h.tight id

theorem frontier_noteMatch (h : Frontier c) (peer : ID) (hm : m ≤ lastLogIndex c) :
    Frontier (noteMatch c peer m) := by
  have hself : matchIndexOf (noteMatch c peer m) peer = m := by
    simp [noteMatch, matchIndexOf]
  have hother : ∀ id, id ≠ peer → matchIndexOf (noteMatch c peer m) id = matchIndexOf c id ∧
      (noteMatch c peer m).nextIndex id = c.nextIndex id := by
    intro id hid
    simp [noteMatch, matchIndexOf, Function.update_of_ne hid]
  have hnext : (noteMatch c peer m).nextIndex peer = some (m + 1) := Function.update_self ..
  refine ⟨fun id next hid => ?_, fun id next hid => ?_, fun id => ?_⟩ <;>
    by_cases heq : id = peer
  · subst heq
    rw [hnext] at hid
    cases hid
    rw [hself]
    exact Nat.lt_succ_self m
  · rw [(hother id heq).2] at hid
    rw [(hother id heq).1]
    exact h.lt id next hid
  · subst heq
    rw [hnext] at hid
    cases hid
    exact Nat.add_le_add_right hm 1
  · rw [(hother id heq).2] at hid
    exact h.le id next hid
  · subst heq
    rw [hself]
    exact Or.inr hnext
  · rw [(hother id heq).1, (hother id heq).2]
    exact h.tight id

theorem sub64_one_lt (h : 0 < n) : sub64 n 1 < n := by
  unfold sub64
  rw [show n + 2 ^ 64 - 1 = n - 1 + 2 ^ 64 by omega, Nat.add_mod_right]
  exact (Nat.mod_le _ _).trans_lt (by omega)

theorem retryIndex_pos (c : Core) (resp : AppendEntriesResponse) : 0 < retryIndex c resp := by
  have key : ∀ n : Nat, 0 < if n = 0 then 1 else n := by
    intro n
    split <;> omega
  exact key _

theorem frontier_backUp (h : Frontier c) {sender : ID} (resp : AppendEntriesResponse)
    (hsome : (c.nextIndex sender).isSome) (hzero : matchIndexOf c sender = 0) :
    Frontier (backUp c sender resp) := by
  obtain ⟨old, hold⟩ := Option.isSome_iff_exists.mp hsome
  have hlast := h.le sender old hold
  have hpos := h.lt sender old hold
  obtain ⟨new, hnew, hge, hle⟩ : ∃ new, (backUp c sender resp).nextIndex =
      Function.update c.nextIndex sender (some new) ∧ 1 ≤ new ∧ new ≤ old := by
    have hindex : nextIndexOf c sender = old := by
      rw [nextIndexOf, hold]
      rfl
    refine ⟨_, rfl, ?_, ?_⟩
    · split
      · exact retryIndex_pos c resp
      · exact le_max_left _ _
    · rw [hindex]
      split
      · rename_i hlt
        exact hlt.le
      · have := sub64_one_lt (Nat.zero_lt_of_lt hpos)
        omega
  have hmatch : ∀ id, matchIndexOf (backUp c sender resp) id = matchIndexOf c id := fun _ => rfl
  refine ⟨fun id next hid => ?_, fun id next hid => ?_, fun id => ?_⟩
  all_goals
    rw [hnew] at *
    by_cases heq : id = sender
  · subst heq
    rw [Function.update_self] at hid
    cases hid
    rw [hmatch, hzero]
    exact hge
  · rw [Function.update_of_ne heq] at hid
    exact h.lt id next hid
  · subst heq
    rw [Function.update_self] at hid
    cases hid
    exact hle.trans hlast
  · rw [Function.update_of_ne heq] at hid
    exact h.le id next hid
  · subst heq
    exact Or.inl hzero
  · rw [Function.update_of_ne heq]
    exact h.tight id

theorem frontier_applyConfChange (h : Frontier c) (cc : ConfChange) (index : Nat) :
    Frontier (applyConfChange c cc index) := by
  have hother : ∀ id, id ≠ cc.id → nextAfter c cc id = c.nextIndex id ∧
      matchAfter c cc id = c.matchIndex id := by
    intro id hid
    unfold nextAfter matchAfter
    split
    · split
      · exact ⟨Function.update_of_ne hid .., Function.update_of_ne hid ..⟩
      · exact ⟨rfl, rfl⟩
    · split
      · exact ⟨Function.update_of_ne hid .., Function.update_of_ne hid ..⟩
      · exact ⟨rfl, rfl⟩
  have hself : (nextAfter c cc cc.id = c.nextIndex cc.id ∧
        matchAfter c cc cc.id = c.matchIndex cc.id) ∨
      (nextAfter c cc cc.id = some (lastLogIndex c + 1) ∨ nextAfter c cc cc.id = none) ∧
        (matchAfter c cc cc.id).getD 0 = 0 := by
    unfold nextAfter matchAfter
    split
    · split
      · rw [Function.update_self, Function.update_self]
        exact Or.inr ⟨Or.inl rfl, rfl⟩
      · exact Or.inl ⟨rfl, rfl⟩
    · split
      · rw [Function.update_self, Function.update_self]
        exact Or.inr ⟨Or.inr rfl, rfl⟩
      · exact Or.inl ⟨rfl, rfl⟩
  have hcase : ∀ id, (nextAfter c cc id = c.nextIndex id ∧ matchAfter c cc id = c.matchIndex id) ∨
      (nextAfter c cc id = some (lastLogIndex c + 1) ∨ nextAfter c cc id = none) ∧
        (matchAfter c cc id).getD 0 = 0 := by
    intro id
    by_cases hid : id = cc.id
    · rw [hid]
      exact hself
    · exact Or.inl (hother id hid)
  refine ⟨fun id next hid => ?_, fun id next hid => ?_, fun id => ?_⟩
  · change nextAfter c cc id = some next at hid
    change (matchAfter c cc id).getD 0 < next
    rcases hcase id with ⟨hn, hm⟩ | ⟨hn, hm⟩
    · rw [hm]
      exact h.lt id next (hn ▸ hid)
    · rw [hm]
      rcases hn with hn | hn <;> rw [hn] at hid <;> cases hid
      exact Nat.succ_pos _
  · change nextAfter c cc id = some next at hid
    change next ≤ lastLogIndex c + 1
    rcases hcase id with ⟨hn, -⟩ | ⟨hn, -⟩
    · exact h.le id next (hn ▸ hid)
    · rcases hn with hn | hn <;> rw [hn] at hid <;> cases hid
      exact le_rfl
  · change (matchAfter c cc id).getD 0 = 0 ∨
      nextAfter c cc id = some ((matchAfter c cc id).getD 0 + 1)
    rcases hcase id with ⟨hn, hm⟩ | ⟨-, hm⟩
    · rw [hn, hm]
      exact h.tight id
    · exact Or.inl hm

theorem frontier_win (c : Core) :
    Frontier (appendOwn (becomeLeader c) (noopEntry (becomeLeader c))) := by
  refine ⟨fun id next hid => ?_, fun id next hid => ?_, fun id => Or.inl rfl⟩
  all_goals
    change initialNext c id = some next at hid
    unfold initialNext at hid
    split at hid <;> cases hid
  · exact Nat.succ_pos _
  · rw [lastLogIndex_appendOwn]
    exact Nat.le_succ _

theorem frontier_deliverCommitted (h : Frontier c) (n : Nat) :
    Frontier (deliverCommitted { c with commitIndex := n }) := by
  obtain ⟨c', hq, heq⟩ := deliverCommitted_cases { c with commitIndex := n }
  rw [heq]
  cases hq <;> exact frontier_of_eq h rfl rfl le_rfl

def rejects : Event → Bool
  | .appendResp _ _ resp => !resp.success
  | _ => false

/-- Acknowledgements of the term a core leads are within its log. -/
def Credible (ev : Event) (c : Core) : Prop :=
  ∀ peer t m, acknowledged ev = some (peer, t, m) → Since lastLogIndex t m c

theorem credible_move (hmove : Move ev c c') (h : Credible ev c) : Credible ev c' :=
  fun peer t m hm => since_of_turns (turns_move hmove) (growing_lastLogIndex.move hmove)
    (h peer t m hm)

theorem frontier_move (hev : rejects ev = false) (hcred : Credible ev c) (hmove : Move ev c c')
    (h : c.role = .leader → Frontier c) (hlead : c'.role = .leader) : Frontier c' := by
  have hsame : c'.role = c.role → c'.nextIndex = c.nextIndex → c'.matchIndex = c.matchIndex →
      Frontier c' := by
    intro hrole hn hm
    have hlead' := hrole.symm.trans hlead
    exact frontier_of_eq (h hlead') hn hm (growing_lastLogIndex.move hmove hlead')
  cases hmove with
  | stepDown term hlt hask => cases hlead
  | recognize leaderId has => cases hlead
  | campaign hrole hask => cases hlead
  | win hrole => exact frontier_win c
  | advance n hrole hn => exact frontier_deliverCommitted (h hrole) n
  | follow req hreq hterm hrole =>
      cases hlead.symm.trans (@follower_deliverCommitted { c with commitIndex := _ } hrole)
  | change cc index hcc => exact frontier_applyConfChange (h hlead) cc index
  | accept req hreq hterm hrole hacc =>
      rw [role_appendNew, hrole] at hlead
      cases hlead
  | note peer m hm hrole hlt =>
      exact frontier_noteMatch (h hrole) peer (((hcred _ _ _ hm).2 rfl).2 hrole)
  | retry sender req resp hreq hrole hterm hfail =>
      subst hreq
      simp [rejects, hfail] at hev
  | install req config hreq hterm hrole =>
      rw [show c.role = .leader from hlead] at hrole
      cases hrole
  | drift | ask | send | ack | grant | own | fire | count | read => exact hsame rfl rfl rfl

end Frontier

section Sends

theorem reach_sent (hn : Contiguous c) {o : Outbound}
    (h : Sent c n o) (hm : reach (.request o.msg) = some (t, m)) :
    t = c.term ∧ (Frontier c → m ≤ lastLogIndex c) := by
  cases h with
  | snapshot => cases hm
  | append peer seq hsnap hlt hle =>
      cases hm
      refine ⟨rfl, fun hf => ?_⟩
      have hnext : nextFor c peer ≤ lastLogIndex c + 1 := by
        unfold nextFor nextIndexOf
        cases hp : c.nextIndex peer with
        | none => exact Nat.succ_le_succ (Nat.zero_le _)
        | some next =>
            have := hf.le peer next hp
            simp only [Option.getD_some]
            split <;> omega
      have hlen : (appendRequest c (nextFor c peer)).entries.length ≤
          c.entries.length - (nextFor c peer - c.snapIndex - 1) := by
        rw [appendRequest_entries hn hsnap, ← List.length_drop]
        exact (batch_isPrefix _ _).length_le
      rw [lastLogIndex_eq hn] at hnext ⊢
      change nextFor c peer - 1 + (appendRequest c (nextFor c peer)).entries.length ≤ _
      omega

/-- A leader's tables and the requests it is about to send. -/
structure Orderly (c : Core) : Prop where
  frontier : c.role = .leader → Frontier c
  outbox : OutboxSince lastLogIndex reach c

theorem orderly_of_frontier (hn : Contiguous c) (hmove : Move ev c c')
    (h : Orderly c) (hf : c'.role = .leader → Frontier c') : Orderly c' where
  frontier := hf
  outbox := by
    refine outboxSince_move growing_lastLogIndex pledge_reach hmove ?_ h.outbox
    intro o n t m hsent hm
    obtain ⟨ht, hle⟩ := reach_sent hn hsent hm
    exact ⟨ht, fun hl => hle (h.frontier hl)⟩

theorem orderly_handle (hk : Kept M c) (hfair : Fair ev) (hout : c.outbox = [])
    (hev : rejects ev = false) (hcred : Credible ev c) (h : c.role = .leader → Frontier c) :
    Orderly (handle c ev).1 := by
  refine (moves_induction (Q := fun a => Kept M a ∧ Credible ev a ∧ Orderly a)
    (moves_handle hout ev) ⟨hk, hcred, h, ?_⟩ ?_).2.2
  · rw [OutboxSince, hout]
    exact fun o ho => absurd ho List.not_mem_nil
  · rintro a b hmove ⟨hk, hcred, ha⟩
    exact ⟨kept_move hfair hmove hk, credible_move hmove hcred,
      orderly_of_frontier hk.saved.numbered hmove ha (frontier_move hev hcred hmove ha.frontier)⟩

/-- Whether a rejection that a leader heeds comes from a peer that it tracks and that
has not acknowledged anything in its term. -/
def probing (c : Core) : Input → Bool
  | .deliver ⟨src, _, .appendResp req resp⟩ =>
      c.role = .leader ∧ req.term = c.term ∧ resp.term ≤ c.term ∧ resp.success = false →
        (c.nextIndex src).isSome ∧ matchIndexOf c src = 0
  | _ => true

theorem orderly_reject {sender : ID} {req : AppendEntriesRequest} {resp : AppendEntriesResponse}
    (hn : Contiguous c) (hout : c.outbox = []) (hfail : resp.success = false)
    (hprobe : c.role = .leader ∧ req.term = c.term ∧ resp.term ≤ c.term ∧ resp.success = false →
      (c.nextIndex sender).isSome ∧ matchIndexOf c sender = 0)
    (h : c.role = .leader → Frontier c) : Orderly (handleAppendResponse c sender req resp) := by
  have hempty : ∀ a : Core, a.outbox = [] → OutboxSince lastLogIndex reach a := by
    intro a ha o ho
    rw [ha] at ho
    exact absurd ho List.not_mem_nil
  unfold handleAppendResponse
  split
  · exact ⟨(fun hl => by cases hl), hempty _ hout⟩
  · rename_i hterm
    split
    · exact ⟨h, hempty _ hout⟩
    · rename_i hactive
      rw [not_or, not_not, not_not] at hactive
      obtain ⟨hsome, hzero⟩ := hprobe ⟨hactive.1, hactive.2, Nat.le_of_not_lt hterm, hfail⟩
      rw [if_neg (by rw [hfail]; exact Bool.false_ne_true)]
      -- What is sent after the retreat is sent from the tables after it.
      have hback : Orderly (backUp c sender resp) :=
        ⟨fun _ => frontier_backUp (h hactive.1) resp hsome hzero, hempty _ hout⟩
      have hmove : Move (.appendResp sender req resp) (backUp c sender resp)
          (sendAppend (backUp c sender resp) sender) :=
        .sends (Or.inl hactive.1) (Or.inr rfl)
      refine orderly_of_frontier (c := backUp c sender resp) hn hmove hback fun _ => ?_
      obtain ⟨o, ho, -⟩ := replicates_sendAppend (backUp c sender resp) sender
      refine frontier_of_eq (hback.frontier hactive.1) ?_ ?_
        (growing_lastLogIndex.move hmove hactive.1) <;> rw [ho.eq]

theorem orderly_respond (hc : Sane M c) {x : Input} (hfair : FairInput x)
    (hprobe : probing c x = true) (hcred : ∀ p, x = .deliver p → Credible (eventOf p) c)
    (hlocal : isLocal x = true ∨ ∃ p, x = .deliver p) (h : c.role = .leader → Frontier c) :
    Orderly (respond c x).1 := by
  have hk := (sane_takeQueues hc).kept
  have hq : (takeQueues c).role = .leader → Frontier (takeQueues c) := fun hl =>
    frontier_of_eq (h hl) rfl rfl le_rfl
  have hquiet : ∀ ev replies, Fair ev → rejects ev = false → Credible ev c →
      Orderly (react c ev replies).1 := by
    intro ev replies hev hrej hcred
    rw [react_fst]
    exact orderly_handle hk hev rfl hrej hcred hq
  cases x with
  | deliver p =>
      have hcred := hcred p rfl
      obtain ⟨src, dest, payload⟩ := p
      cases payload with
      | appendResp req resp =>
          cases hs : resp.success with
          | true => exact hquiet _ _ hfair (by simp [rejects, eventOf, hs]) hcred
          | false =>
              change Orderly (react c _ _).1
              rw [react_fst]
              exact orderly_reject hk.saved.numbered rfl hs (of_decide_eq_true hprobe) hq
      | request msg => cases msg <;> exact hquiet _ _ hfair rfl hcred
      | voteResp req resp => exact hquiet _ _ hfair rfl hcred
      | snapshotResp req resp => exact hquiet _ _ hfair rfl hcred
  | client ev =>
      rcases hlocal with hlocal | ⟨p, hp⟩
      · refine hquiet _ _ hfair ?_ fun peer t m hm => ?_
        · cases ev <;> first | (cases hlocal; done) | rfl
        · cases ev <;> first | (cases hlocal; done) | cases hm
      · cases hp
  | compact index data =>
      refine ⟨fun hl => ?_, outboxSince_compact c index data⟩
      have hlast := lastLogIndex_compact hk.saved.numbered index data
      change (compact (takeQueues c) index data).1.role = .leader at hl
      change Frontier (compact (takeQueues c) index data).1
      rcases compact_cases (takeQueues c) index data with heq | ⟨-, -, heq⟩ <;>
        rw [heq] at hlast hl ⊢
      · exact hq hl
      · exact frontier_of_eq (hq hl) rfl rfl hlast

end Sends

section Runs

/-- The calls that keep the tables of a leader in order. -/
def Careful (k : CoreCall) : Prop :=
  withinLog k.pre k.input = true ∧ probing k.pre k.input = true

theorem since_lastLogIndex (hn : Contiguous c)
    (h : Since Core.snapIndex t m c) : Since lastLogIndex t m c := by
  refine ⟨h.1, fun ht => ⟨(h.2 ht).1, fun hl => ((h.2 ht).2 hl).trans ?_⟩⟩
  rw [lastLogIndex_eq hn]
  exact Nat.le_add_right _ _

theorem credible_of_madeIn {k : CoreCall} (hmade : MadeIn (coreSystem D) s k)
    (hlog : ∀ j ∈ s.trace, withinLog j.pre j.input) (hnet : Upheld lastLogIndex reach s)
    {p : Packet} (hp : k.input = .deliver p) : Credible (eventOf p) k.pre := by
  obtain ⟨hq, hdest⟩ : p ∈ s.net ∧ p.dest = k.node := by
    rcases hmade.enabled with hlocal | ⟨q, hq, hdest, hin⟩
    · rw [hp] at hlocal
      cases hlocal
    · obtain rfl : q = p := Input.deliver.inj (hin.trans hp)
      exact ⟨hq, hdest⟩
  have hn := (sane_of_up hmade.reachable hlog hmade.up).kept.saved.numbered
  intro peer t m hm
  obtain ⟨src, dest, payload⟩ := p
  cases hdest
  cases payload with
  | request msg => cases msg <;> cases hm
  | voteResp req resp => cases hm
  | appendResp req resp =>
      simp only [eventOf, acknowledged, Option.ite_none_right_eq_some, Option.some.injEq,
        Prod.mk.injEq] at hm
      obtain ⟨-, -, rfl, rfl⟩ := hm
      have h := hnet _ hq _ _ rfl
      rwa [show owner ⟨src, k.node, .appendResp req resp⟩ = k.node from rfl, hmade.up] at h
  | snapshotResp req resp =>
      cases hm
      have h := upheld_image hmade.reachable hlog _ hq _ _ rfl
      rw [show owner ⟨src, k.node, .snapshotResp req resp⟩ = k.node from rfl, hmade.up] at h
      exact since_lastLogIndex hn h

theorem careful_run (hs : Reachable (coreSystem D) s) (hcare : ∀ k ∈ s.trace, Careful k) :
    Upheld lastLogIndex reach s ∧
      ∀ i c, s.node i = .up c → c.role = .leader → Frontier c := by
  refine upheld_run (G := Careful) growing_lastLogIndex pledge_reach (fun _ h => h.1) ?_ ?_ hs hcare
  · intro i rng d c hboot hl
    obtain ⟨-, M, entries, -, -, rfl⟩ := newCore_cases (newCore_of_boot hboot)
    cases hl
  · intro s k hmade hpast hk hsane hfair hnet hpre
    have hcred : ∀ p, k.input = .deliver p → Credible (eventOf p) k.pre := fun p hp =>
      credible_of_madeIn hmade (fun j hj => (hpast j hj).1) hnet hp
    have h := orderly_respond hsane hfair hk.2 hcred (isLocal_or_deliver hmade.enabled) hpre
    rw [hmade.post]
    exact ⟨h.frontier, h.outbox⟩

/-- A message that tells a peer nothing it has acknowledged by storing everything
through `m`. -/
def Beyond (m : Nat) : Message → Prop
  | .appendEntries req => m ≤ req.prevLogIndex ∧ ∀ e ∈ req.entries, m < e.index
  | .installSnapshot req => m < req.lastIncludedIndex
  | _ => True

theorem beyond_sent (hs : Saved M c) (hf : Frontier c)
    (hm : m ≤ matchIndexOf c peer) {o : Outbound} (h : Sent c n o) (hpeer : o.dest = peer)
    (hshape : Shaped o.msg) : Beyond m o.msg := by
  have hnext : m < nextFor c peer := by
    unfold nextFor nextIndexOf
    rcases hf.tight peer with hzero | hsome
    · cases hp : c.nextIndex peer with
      | none =>
          simp only [Option.getD_none, if_true]
          omega
      | some next =>
          have := hf.lt peer next hp
          simp only [Option.getD_some]
          split <;> omega
    · simp only [hsome, Option.getD_some]
      split <;> omega
  cases h with
  | snapshot q hle =>
      subst hpeer
      change m < (loadRaftSnapshot c.disk).lastIndex
      rw [hs.snapIndex]
      exact hnext.trans_le hle
  | append q seq hsnap hlt hle =>
      subst hpeer
      have hprev : m ≤ nextFor c q - 1 := Nat.le_sub_one_of_lt hnext
      refine ⟨hprev, fun e he => ?_⟩
      obtain ⟨j, hj⟩ := List.mem_iff_getElem?.mp he
      have hindex : e.index = nextFor c q - 1 + j + 1 := hshape.1.numbered j e hj
      omega

/-- An acknowledgement through `m` by `peer` has been noted, and nothing has been sent
yet that it makes superfluous. -/
structure Noticed (M : Members) (peer : ID) (m : Nat) (c : Core) : Prop where
  saved : Saved M c
  frontier : Frontier c
  known : m ≤ matchIndexOf c peer
  outbox : ∀ o ∈ c.outbox, Beyond m o.msg

theorem noticed_noteMatch (hs : Saved M c) (hf : Frontier c) (hout : c.outbox = []) (peer : ID)
    (hm : m ≤ lastLogIndex c) : Noticed M peer m (noteMatch c peer m) where
  saved := saved_of_sameLog hs rfl
  frontier := frontier_noteMatch hf peer hm
  known := by simp [noteMatch, matchIndexOf]
  outbox := by
    intro o ho
    rw [show (noteMatch c peer m).outbox = c.outbox from rfl, hout] at ho
    exact absurd ho List.not_mem_nil

theorem noticed_of_le (hs : Saved M c) (hf : Frontier c) (hout : c.outbox = [])
    (hle : m ≤ matchIndexOf c peer) : Noticed M peer m c where
  saved := hs
  frontier := hf
  known := hle
  outbox := by
    rw [hout]
    exact fun o ho => absurd ho List.not_mem_nil

theorem noticed_maybeAdvanceCommit (h : Noticed M peer m c) :
    Noticed M peer m (maybeAdvanceCommit c) := by
  rcases maybeAdvanceCommit_cases c with heq | ⟨n, -, heq⟩
  · rw [heq]
    exact h
  · obtain ⟨c', hq, hc'⟩ := deliverCommitted_cases { c with commitIndex := n }
    rw [heq, hc']
    cases hq <;>
      exact ⟨saved_of_sameLog h.saved rfl, frontier_of_eq h.frontier rfl rfl le_rfl, h.known,
        h.outbox⟩

theorem noticed_fireTransfer (h : Noticed M peer m c) :
    Noticed M peer m (fireTransfer c peer) := by
  unfold fireTransfer
  split
  · refine ⟨saved_of_sameLog h.saved rfl, frontier_of_eq h.frontier rfl rfl le_rfl, h.known, ?_⟩
    intro o ho
    rcases List.mem_append.mp ho with ho | ho
    · exact h.outbox o ho
    · rw [List.mem_singleton.mp ho]
      trivial
  · exact h

theorem beyond_feed (h : Noticed M peer m c)
    (hshape : OutboxShaped (feed c peer)) :
    ∀ o ∈ (feed c peer).outbox, o.dest = peer → Beyond m o.msg := by
  intro o ho hdest
  have hshape := hshape o ho
  unfold feed at ho
  split at ho
  · obtain ⟨o', ho', -⟩ := replicates_sendAppend c peer
    have houtbox : (sendAppend c peer).outbox = c.outbox ++ [o'] := by
      rw [ho'.eq]
    rw [houtbox] at ho
    rcases List.mem_append.mp ho with ho | ho
    · exact h.outbox o ho
    · exact beyond_sent h.saved h.frontier h.known (ho'.sent o ho) hdest hshape
  · exact h.outbox o ho

theorem beyond_acknowledged (hs : Saved M c) (hout : c.outbox = [])
    (hf : c.role = .leader → Frontier c) (hcred : Credible ev c)
    (hack : acknowledged ev = some (peer, t, m)) (hshape : OutboxShaped (handle c ev).1) :
    ∀ o ∈ (handle c ev).1.outbox, o.dest = peer → Beyond m o.msg := by
  have hle := hcred peer t m hack
  have hempty : ∀ a : Core, a.outbox = [] → ∀ o ∈ a.outbox, o.dest = peer → Beyond m o.msg := by
    intro a ha o ho
    rw [ha] at ho
    exact absurd ho List.not_mem_nil
  cases ev with
  | appendResp sender req resp =>
      simp only [acknowledged, Option.ite_none_right_eq_some, Option.some.injEq,
        Prod.mk.injEq] at hack
      obtain ⟨hsuccess, rfl, rfl, rfl⟩ := hack
      change OutboxShaped (handleAppendResponse c sender req resp) at hshape
      change ∀ o ∈ (handleAppendResponse c sender req resp).outbox, _
      unfold handleAppendResponse at hshape ⊢
      split
      · exact hempty _ hout
      · rename_i hterm
        rw [if_neg hterm] at hshape
        split
        · exact hempty _ hout
        · rename_i hactive
          rw [if_neg hactive] at hshape
          rw [not_or, not_not, not_not] at hactive
          rw [if_pos hsuccess] at hshape
          refine beyond_feed (M := M) (noticed_fireTransfer ?_) hshape
          have hfresh : Saved M (noteFreshAck c sender resp.seq) ∧
              Frontier (noteFreshAck c sender resp.seq) ∧
              (noteFreshAck c sender resp.seq).outbox = [] := by
            rw [noteFreshAck_eq]
            exact ⟨saved_of_sameLog hs rfl, frontier_of_eq (hf hactive.1) rfl rfl le_rfl, hout⟩
          obtain ⟨hs', hf', hout'⟩ := hfresh
          have hlast : lastLogIndex (noteFreshAck c sender resp.seq) = lastLogIndex c := by
            rw [noteFreshAck_eq]
            rfl
          unfold noteAck
          split
          · refine noticed_maybeAdvanceCommit (noticed_noteMatch hs' hf' hout' sender ?_)
            rw [hlast]
            exact (hle.2 hactive.2).2 hactive.1
          · rename_i hge
            exact noticed_of_le hs' hf' hout' (Nat.le_of_not_lt hge)
  | snapshotResp sender req resp =>
      cases hack
      change OutboxShaped (handleInstallSnapshotResponse c _ req resp) at hshape
      change ∀ o ∈ (handleInstallSnapshotResponse c _ req resp).outbox, _
      unfold handleInstallSnapshotResponse at hshape ⊢
      split
      · exact hempty _ hout
      · rename_i hterm
        rw [if_neg hterm] at hshape
        split
        · exact hempty _ hout
        · rename_i hactive
          rw [if_neg hactive] at hshape
          rw [not_or, not_not, not_not] at hactive
          refine beyond_feed (M := M) ?_ hshape
          unfold noteSnapshot
          split
          · exact noticed_noteMatch hs (hf hactive.1) hout _ ((hle.2 hactive.2).2 hactive.1)
          · rename_i hge
            exact noticed_of_le hs (hf hactive.1) hout (Nat.le_of_not_lt hge)
  | _ => cases hack

def acknowledgement : Input → Option (ID × Nat × Nat)
  | .deliver p => acknowledged (eventOf p)
  | _ => none

/-- As long as a leader heeds only rejections of peers that have not acknowledged
anything, every peer it tracks continues after what it is known to store and not
beyond the end of the log, and an acknowledgement is never answered by sending the
peer what it acknowledges. -/
theorem frontier_stays_consistent (hs : Reachable (coreSystem D) s)
    (hcare : ∀ k ∈ s.trace, withinLog k.pre k.input = true ∧ probing k.pre k.input = true) :
    (∀ i c, s.node i = .up c → c.role = .leader → ∀ id next, c.nextIndex id = some next →
      matchIndexOf c id < next ∧ next ≤ lastLogIndex c + 1 ∧ 1 ≤ next) ∧
    ∀ k ∈ s.trace, ∀ sender t m, acknowledgement k.input = some (sender, t, m) →
      ∀ q ∈ k.sent, q.dest = sender → ∀ msg, q.payload = .request msg → Beyond m msg := by
  refine ⟨fun i c hup hl id next hnext => ?_, fun k hk sender t m hack q hq hdest msg hmsg => ?_⟩
  · have hf := (careful_run hs hcare).2 i c hup hl
    exact ⟨hf.lt id next hnext, hf.le id next hnext, Nat.one_le_of_lt (hf.lt id next hnext)⟩
  · obtain ⟨p, hp⟩ : ∃ p, k.input = .deliver p := by
      cases hin : k.input with
      | deliver p => exact ⟨p, rfl⟩
      | client | compact =>
          rw [hin] at hack
          cases hack
    rw [hp] at hack
    obtain ⟨n, hn⟩ := List.mem_iff_getElem?.mp hk
    obtain ⟨s₀, hmade, htrace⟩ := exists_madeIn hs hn
    have hpast : ∀ j ∈ s₀.trace, Careful j := by
      rw [htrace]
      exact fun j hj => hcare j (List.mem_of_mem_take hj)
    have hlog : ∀ j ∈ s₀.trace, withinLog j.pre j.input := fun j hj => (hpast j hj).1
    obtain ⟨hnet, hnodes⟩ := careful_run hmade.reachable hpast
    have hsane := sane_of_up hmade.reachable hlog hmade.up
    have hfair :=
      fairInput_of_enabled (saneState_of_reachable hmade.reachable hlog).net hmade.enabled
    have hshape := (sane_respond hsane hfair (hcare k hk).1).2
    obtain ⟨-, ho⟩ := request_of_mem_sent hmade hq hmsg
    rw [hmade.post] at ho
    change _ ∈ (respond k.pre k.input).1.outbox at ho
    rw [hp] at ho hshape
    change _ ∈ (react k.pre (eventOf p) (reply p)).1.outbox at ho
    change OutboxShaped (react k.pre (eventOf p) (reply p)).1 at hshape
    rw [react_fst] at ho hshape
    have hf : (takeQueues k.pre).role = .leader → Frontier (takeQueues k.pre) := fun hl =>
      frontier_of_eq (hnodes k.node k.pre hmade.up hl) rfl rfl le_rfl
    have hcred : Credible (eventOf p) (takeQueues k.pre) :=
      credible_of_madeIn hmade hlog hnet hp
    exact beyond_acknowledged (c := takeQueues k.pre) (saved_of_sameLog hsane.kept.saved rfl) rfl hf
      hcred hack hshape _ ho hdest

/-- Node 1 is elected twice; in its second term it first has to find out that node 2
lacks the entry of the first. Then node 2 catches up. -/
def probed : List (Action ID Input (Nat → Nat)) :=
  [.restart 1 fun _ => 0, .restart 2 fun _ => 0, .act 1 (.client .tick), .deliver 0, .deliver 2,
    .crash 1, .restart 1 fun _ => 0, .act 1 (.client .tick), .deliver 5, .deliver 7, .deliver 8,
    .deliver 10, .deliver 11]

/-- The same with a proposal on the way that node 2 does not have yet. -/
def fed : List (Action ID Input (Nat → Nat)) :=
  probed ++ [.act 1 (.client (.propose (oneByte 1) .normal)), .deliver 12]

/-- Whether a payload brings entries, all of them at or below `m`. -/
def resent (m : Nat) : Payload → Bool
  | .request (.appendEntries req) => req.entries ≠ [] ∧ ∀ e ∈ req.entries, e.index ≤ m
  | _ => false

theorem frontier_stays_consistent_probed : ∃ s, Reachable (coreSystem trio) s ∧
    (∃ c, s.node 1 = .up c ∧ c.nextIndex 2 = some 3 ∧ matchIndexOf c 2 < 3 ∧
      3 ≤ lastLogIndex c + 1) ∧
    ∃ k ∈ s.trace, acknowledgement k.input = some (2, 2, 2) ∧
      ∃ q ∈ k.sent, q.dest = 2 ∧ ∀ msg, q.payload = .request msg → Beyond 2 msg := by
  obtain ⟨s, hs, hcare, ⟨c, hc, hl, hnext⟩, k, hk, hack, q, hq, hdest⟩ :=
    exists_of_run (coreSystem trio) fed (fun s =>
      (∀ k ∈ s.trace, withinLog k.pre k.input = true ∧ probing k.pre k.input = true) ∧
      (∃ c ∈ core? s 1, c.role = .leader ∧ c.nextIndex 2 = some 3) ∧
      ∃ k ∈ s.trace, acknowledgement k.input = some (2, 2, 2) ∧ ∃ q ∈ k.sent, q.dest = 2)
      (by decide +kernel)
  obtain ⟨htables, hsends⟩ := frontier_stays_consistent hs hcare
  obtain ⟨hlt, hle, -⟩ := htables 1 c (node_of_core? hc) hl 2 3 hnext
  exact ⟨s, hs, ⟨c, node_of_core? hc, hnext, hlt, hle⟩, k, hk, hack, q, hq, hdest,
    hsends k hk 2 2 2 hack q hq hdest⟩

/-- The rejection arrives once more after node 2 has caught up, and so does the
acknowledgement: node 2 gets everything again that it has just acknowledged. -/
theorem late_rejection_loses_frontier : ∃ s, Reachable (coreSystem trio) s ∧
    (∃ c, s.node 1 = .up c ∧ c.role = .leader ∧ c.nextIndex 2 = some 1 ∧ matchIndexOf c 2 = 2) ∧
    ∃ k ∈ s.trace, acknowledgement k.input = some (2, 2, 2) ∧
      ∃ q ∈ k.sent, q.dest = 2 ∧ resent 2 q.payload = true := by
  obtain ⟨s, hs, ⟨c, hc, hrest⟩, hk⟩ :=
    exists_of_run (coreSystem trio) (probed ++ [.deliver 12, .deliver 10, .deliver 12]) (fun s =>
      (∃ c ∈ core? s 1, c.role = .leader ∧ c.nextIndex 2 = some 1 ∧ matchIndexOf c 2 = 2) ∧
      ∃ k ∈ s.trace, acknowledgement k.input = some (2, 2, 2) ∧
        ∃ q ∈ k.sent, q.dest = 2 ∧ resent 2 q.payload = true)
      (by decide +kernel)
  exact ⟨s, hs, ⟨c, node_of_core? hc, hrest⟩, hk⟩

end Runs

end RaftKV.Safety.Frontiers
