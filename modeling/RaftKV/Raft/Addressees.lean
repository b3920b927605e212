import RaftKV.Raft.Moves

namespace RaftKV.Raft.Addressees

open Raft.Durability Raft.Moves

variable {P : ID → Prop} {c c' c'' : Core} {ev : Event} {peer : ID}

/-- The other members of the configuration are among `P`. -/
def Peers (P : ID → Prop) (c : Core) : Prop :=
  ∀ x ∈ c.members, x ≠ c.cfg.id → P x

/-- Whatever `c'` has in its outbox and `c` has not is for one of `P`. -/
def Posts (P : ID → Prop) (c c' : Core) : Prop :=
  ∀ o ∈ c'.outbox, o ∈ c.outbox ∨ P o.dest

theorem posts_of_eq (h : c'.outbox = c.outbox) : Posts P c c' :=
  fun _ ho => Or.inl (h ▸ ho)

theorem Posts.trans (h : Posts P c c') (h' : Posts P c' c'') : Posts P c c'' := by
  intro o ho
  rcases h' o ho with ho | ho
  · exact h o ho
  · exact Or.inr ho

theorem posts_replicates {out : List Outbound} (h : Replicates c c' out)
    (hout : ∀ o ∈ out, P o.dest) : Posts P c c' := by
  intro o ho
  rw [h.eq] at ho
  exact (List.mem_append.mp ho).imp_right (hout o)

theorem of_mem_peerIDs (hP : Peers P c) (h : peer ∈ peerIDs c) : P peer := by
  obtain ⟨hmem, hne⟩ := List.mem_filter.mp h
  exact hP peer (Std.ExtTreeMap.mem_keys.mp hmem) (of_decide_eq_true hne)

theorem posts_broadcastAppends (hP : Peers P c) : Posts P c (broadcastAppends c) := by
  obtain ⟨out, hout, hdest⟩ := replicates_foldl (peerIDs c) c
  exact posts_replicates hout fun o ho => of_mem_peerIDs hP (hdest o ho)

theorem posts_proposeConfChange (hP : Peers P c) (cc : ConfChange) :
    Posts P c (proposeConfChange c cc).1 := by
  rcases proposeConfChange_cases c cc with ⟨err, heq⟩ | ⟨-, -, heq⟩ <;> rw [heq]
  · exact posts_of_eq rfl
  · generalize (⟨c.term, lastLogIndex c + 1, .config, encodeConfChange cc⟩ : Entry) = e
    have hsent : Posts P c (broadcastAppends (appendOwn c e)) :=
      @posts_broadcastAppends P (appendOwn c e) hP
    refine hsent.trans (posts_of_eq ?_)
    change (maybeAdvanceCommit _).outbox = _
    rcases maybeAdvanceCommit_cases (broadcastAppends (appendOwn c e)) with heq | ⟨n, -, heq⟩ <;>
      rw [heq]
    exact outbox_deliverCommitted { broadcastAppends (appendOwn c e) with commitIndex := n }

theorem outbox_handleAppendEntries (c : Core) (req : AppendEntriesRequest) :
    (handleAppendEntries c req).1.outbox = c.outbox := by
  have hadopt := outbox_adoptTerm c req.term
  have hnew := appendNew_eq (recognizeLeader (adoptTerm c req.term) req.leaderId) req.entries
  rcases handleAppendEntries_cases c req with
    ⟨resp, heq, -⟩ | ⟨resp, heq, -⟩ | ⟨-, -, ⟨a, err, ha, heq⟩ | ⟨a, resp, ha, heq, -⟩⟩ <;> rw [heq]
  · exact hadopt
  · exact hadopt
  all_goals
    rw [ha] at hnew
    have hout : a.outbox = c.outbox := (congrArg Core.outbox hnew).trans hadopt
  · exact hout
  · dsimp only
    unfold followCommit
    split
    · rw [outbox_deliverCommitted]
      exact hout
    · exact hout

theorem outbox_handleInstallSnapshot (c : Core) (req : InstallSnapshotRequest) :
    (handleInstallSnapshot c req).1.outbox = c.outbox := by
  have hadopt := outbox_adoptTerm c req.term
  unfold handleInstallSnapshot
  dsimp only
  split
  · exact hadopt
  · split
    · exact hadopt
    · split <;> exact hadopt

/-- Whether an event may change whom the core knows. -/
def reshapes : Event → Bool
  | .appendEntries _ | .installSnapshot _ | .confChange _ => true
  | _ => false

theorem posts_move {out : List Outbound} (hmove : MoveFrom out ev c c') (hP : Peers P c)
    (hpeer : ∀ x, correspondent ev = some x → P x) : Posts P c c' := by
  have hdest : ∀ {x}, Addressed ev c x → P x := fun hx => hx.elim (of_mem_peerIDs hP) (hpeer _)
  intro o ho
  refine (mem_outbox_move hmove ho).imp_right fun ⟨_, _, hnew⟩ => ?_
  cases hnew with
  | vote dest req hmem => exact of_mem_peerIDs hP hmem
  | sent hrole haddr => exact hdest haddr
  | timeoutNow dest hrole haddr => exact hdest haddr

theorem peers_move {out : List Outbound} (hev : reshapes ev = false)
    (hmove : MoveFrom out ev c c') (hP : Peers P c) : Peers P c' := by
  cases hmove with
  | advance n =>
      have hs := sameLog_deliverCommitted { c with commitIndex := n }
      rw [Peers, hs.members, hs.cfg]
      exact hP
  | follow req hreq | accept req hreq | change cc index hreq | install req config hreq =>
      subst hreq
      cases hev
  | drift | stepDown | recognize | grant | campaign | ask | count | win | own | send | fire | ack
  | note | retry | read => exact hP

theorem posts_handle (hP : Peers P c) (hpeer : ∀ x, correspondent ev = some x → P x) :
    Posts P c (handle c ev).1 := by
  cases hev : reshapes ev with
  | false =>
      refine (moves_induction (Q := fun a => Posts P c a ∧ Peers P a) (moves_handle rfl ev)
        ⟨posts_of_eq rfl, hP⟩ fun a b hmove ha => ?_).1
      exact ⟨ha.1.trans (posts_move hmove ha.2 hpeer), peers_move hev hmove ha.2⟩
  | true =>
      cases ev with
      | appendEntries req => exact posts_of_eq (outbox_handleAppendEntries c req)
      | installSnapshot req => exact posts_of_eq (outbox_handleInstallSnapshot c req)
      | confChange cc => exact posts_proposeConfChange hP cc
      | _ => cases hev

end RaftKV.Raft.Addressees
