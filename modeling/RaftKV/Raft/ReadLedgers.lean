import Mathlib.Data.List.Perm.Basic
import RaftKV.Raft.Provenance

namespace RaftKV.Raft.ReadLedgers

open Raft.Moves Raft.Cluster
open Raft.Provenance

variable {ev : Event} {c c' c'' : Core}

section Numbers

/-- The reads with an outcome that has not been handed out, and the pending ones. -/
def readIds (c : Core) : List Nat :=
  c.readOutcomes.map ReadOutcome.id ++ c.pendingReads.map PendingRead.id

/-- From `c` to `c'` no read is lost or resolved twice. -/
structure ReadsAccounted (c c' : Core) : Prop where
  counter : c.readCounter ≤ c'.readCounter
  ids : (readIds c').Perm
    (readIds c ++ List.range' (c.readCounter + 1) (c'.readCounter - c.readCounter))

theorem readsAccounted_of_perm (hr : c'.readCounter = c.readCounter)
    (hp : (readIds c').Perm (readIds c)) :
    ReadsAccounted c c' := by
  refine ⟨hr.ge, ?_⟩
  rw [hr, Nat.sub_self, List.range'_zero, List.append_nil]
  exact hp

theorem readsAccounted_of_eq (hp : c'.pendingReads = c.pendingReads)
    (ho : c'.readOutcomes = c.readOutcomes) (hr : c'.readCounter = c.readCounter) :
    ReadsAccounted c c' := by
  refine readsAccounted_of_perm hr ?_
  unfold readIds
  rw [hp, ho]

theorem ReadsAccounted.trans (h : ReadsAccounted c c') (h' : ReadsAccounted c' c'') :
    ReadsAccounted c c'' := by
  have hle := h.counter
  have hle' := h'.counter
  refine ⟨hle.trans hle', (h'.ids.trans (h.ids.append_right _)).trans ?_⟩
  rw [List.append_assoc, show c'.readCounter + 1 =
    c.readCounter + 1 + 1 * (c'.readCounter - c.readCounter) by omega, List.range'_append,
    show c'.readCounter - c.readCounter + (c''.readCounter - c'.readCounter) =
      c''.readCounter - c.readCounter by omega]

theorem readsAccounted_abort (hp : c'.pendingReads = [])
    (ho : c'.readOutcomes = c.readOutcomes ++ c.pendingReads.map fun r => ⟨r.id, 0, false⟩)
    (hr : c'.readCounter = c.readCounter) : ReadsAccounted c c' := by
  refine readsAccounted_of_perm hr ?_
  unfold readIds
  rw [hp, ho, List.map_append, List.map_map, List.map_nil, List.append_nil]
  exact List.Perm.refl _

theorem readIds_confirmReads (c : Core) : (readIds (confirmReads c).1).Perm (readIds c) := by
  have hsplit := List.filter_append_perm (fun r => decide (majority c ≤ r.acks.card))
    c.pendingReads
  have hmap := hsplit.map PendingRead.id
  unfold readIds confirmReads
  dsimp only
  rw [List.map_append, List.map_map, List.append_assoc]
  refine List.Perm.append_left _ ?_
  rw [List.map_append] at hmap
  simp only [decide_not]
  exact hmap

theorem readsAccounted_noteFreshAck (c : Core) (sender : ID) (seq : Nat) :
    ReadsAccounted c (noteFreshAck c sender seq) := by
  unfold noteFreshAck
  split
  · refine readsAccounted_of_perm rfl ((readIds_confirmReads _).trans ?_)
    unfold readIds
    dsimp only
    rw [List.map_map]
    refine List.Perm.of_eq (congrArg _ (List.map_congr_left fun r _ => ?_))
    rw [Function.comp_apply]
    split <;> rfl
  · exact readsAccounted_of_eq rfl rfl rfl

theorem readsAccounted_registerRead (c : Core) :
    ReadsAccounted c (confirmReads (registerRead c)).1 := by
  have hcounter : (confirmReads (registerRead c)).1.readCounter = c.readCounter + 1 := rfl
  refine ⟨hcounter ▸ Nat.le_succ _, (readIds_confirmReads _).trans ?_⟩
  rw [hcounter, Nat.add_sub_cancel_left]
  unfold readIds registerRead
  rw [List.map_append, List.append_assoc]
  exact List.Perm.refl _

theorem readsAccounted_deliverCommitted (c : Core) (n : Nat) :
    ReadsAccounted c (deliverCommitted { c with commitIndex := n }) := by
  obtain ⟨c', hq, heq⟩ := deliverCommitted_cases { c with commitIndex := n }
  rw [heq]
  cases hq with
  | stay => exact readsAccounted_of_eq rfl rfl rfl
  | leave e he hconf hrole hmem => exact readsAccounted_abort rfl rfl rfl

theorem readsAccounted_move (hmove : Move ev c c') : ReadsAccounted c c' := by
  cases hmove with
  | stepDown term hlt hask => exact readsAccounted_abort rfl rfl rfl
  | advance | follow => exact readsAccounted_deliverCommitted c _
  | accept =>
      rw [appendNew_eq]
      exact readsAccounted_of_eq rfl rfl rfl
  | ack sender req resp =>
      rw [← noteFreshAck_eq]
      exact readsAccounted_noteFreshAck c sender resp.seq
  | read => exact readsAccounted_registerRead c
  | drift | ask | send | recognize | grant | campaign | win | own | fire | change | count
  | note | retry | install =>
      exact readsAccounted_of_eq rfl rfl rfl

theorem readsAccounted_respond (c : Core) (x : Input) :
    ReadsAccounted (takeQueues c) (respond c x).1 := by
  refine respond_induction (Q := ReadsAccounted (takeQueues c)) (readsAccounted_of_eq rfl rfl rfl)
    ?_ ?_ x
  · intro ev a b hmove h
    exact h.trans (readsAccounted_move hmove)
  · intro a index data h
    rcases compact_cases a index data with heq | ⟨-, -, heq⟩ <;> rw [heq]
    · exact h
    · exact h.trans (readsAccounted_of_eq rfl rfl rfl)

end Numbers

section Leaderships

/-- The reads that are pending in `a` belong to the leadership of `c`, which goes on. -/
def Standing (c a : Core) : Prop :=
  a.pendingReads ≠ [] → c.role = .leader ∧ a.role = .leader ∧ a.term = c.term

theorem standing_of_eq {a b : Core} (h : Standing c a) (hp : b.pendingReads = a.pendingReads)
    (hrole : b.role = a.role) (hterm : b.term = a.term) : Standing c b := by
  unfold Standing
  rw [hp, hrole, hterm]
  exact h

theorem standing_of_nil {a : Core} (h : a.pendingReads = []) : Standing c a :=
  fun hne => absurd h hne

theorem standing_deliverCommitted {a : Core} (h : Standing c a) (n : Nat) :
    Standing c (deliverCommitted { a with commitIndex := n }) := by
  obtain ⟨a', hq, heq⟩ := deliverCommitted_cases { a with commitIndex := n }
  rw [heq]
  cases hq with
  | stay => exact standing_of_eq h rfl rfl rfl
  | leave e he hconf hrole hmem => exact standing_of_nil rfl

theorem standing_noteFreshAck {a : Core} (h : Standing c a) (sender : ID) (seq : Nat) :
    Standing c (noteFreshAck a sender seq) := by
  unfold noteFreshAck
  split
  · intro hne
    refine h fun hnil => hne ?_
    unfold confirmReads
    dsimp only
    rw [hnil]
    rfl
  · exact h

theorem standing_move {a b : Core} (hev : ev ≠ .read)
    (hrival : c.role = .leader → asserted ev ≠ some c.term) (hmove : Move ev a b)
    (h : Standing c a) : Standing c b := by
  cases hmove with
  | stepDown term hlt hask => exact standing_of_nil rfl
  | recognize leaderId hclaim =>
      intro hne
      obtain ⟨hlead, -, hterm⟩ := h hne
      exact absurd (hterm ▸ hclaim) (hrival hlead)
  | campaign hcamp hask =>
      intro hne
      obtain ⟨hlead, hrole, hterm⟩ := h hne
      rcases hcamp with hcamp | hclaim
      · exact absurd hrole hcamp
      · exact absurd (hterm ▸ hclaim) (hrival hlead)
  | win hrole =>
      intro hne
      obtain ⟨-, hlead, -⟩ := h hne
      rw [hrole] at hlead
      cases hlead
  | advance | follow => exact standing_deliverCommitted h _
  | accept =>
      rw [appendNew_eq]
      exact standing_of_eq h rfl rfl rfl
  | ack sender req resp =>
      rw [← noteFreshAck_eq]
      exact standing_noteFreshAck h sender resp.seq
  | read hread => exact absurd hread hev
  | drift | ask | send | grant | own | fire | change | count | note | retry | install =>
      exact standing_of_eq h rfl rfl rfl

/-- The term in which an input claims that another node leads. -/
def claimedTerm : Input → Option Nat
  | .deliver p => asserted (eventOf p)
  | .client ev => asserted ev
  | .compact _ _ => none

theorem standing_requestRead (h : c.pendingReads ≠ [] → c.role = .leader) :
    Standing c (requestRead (takeQueues c)).1 := by
  have hidle : Standing c (takeQueues c) := fun hne => ⟨h hne, h hne, rfl⟩
  unfold requestRead
  split
  · exact hidle
  · rename_i hrole
    have hlead : c.role = .leader := not_not.mp hrole
    split
    · exact hidle
    · dsimp only
      split
      · exact fun _ => ⟨hlead, hlead, rfl⟩
      · obtain ⟨out, hout, -⟩ :=
          replicates_broadcastAppends (confirmReads (registerRead (takeQueues c))).1
        rw [hout.eq]
        exact fun _ => ⟨hlead, hlead, rfl⟩

theorem standing_respond (h : c.pendingReads ≠ [] → c.role = .leader) {x : Input}
    (hrival : c.role = .leader → claimedTerm x ≠ some c.term) : Standing c (respond c x).1 := by
  have hidle : Standing c (takeQueues c) := fun hne => ⟨h hne, h hne, rfl⟩
  have hreact : ∀ ev replies, (c.role = .leader → asserted ev ≠ some c.term) →
      Standing c (react c ev replies).1 := by
    intro ev replies hclaim
    rw [react_fst]
    by_cases hread : ev = .read
    · rw [hread]
      exact standing_requestRead h
    · exact moves_induction (moves_taken ev) hidle fun _ _ => standing_move hread hclaim
  cases x with
  | deliver p => exact hreact _ _ hrival
  | client ev => exact hreact _ _ hrival
  | compact index data =>
      change Standing c (compact (takeQueues c) index data).1
      rcases compact_cases (takeQueues c) index data with heq | ⟨-, -, heq⟩ <;> rw [heq] <;>
        exact hidle

end Leaderships

end RaftKV.Raft.ReadLedgers
