import RaftKV.Raft.Pledges
import RaftKV.Refinement.Projection
import RaftKV.Safety.Indexing

namespace RaftKV.Safety.Retention

open Distributed.Network
open Raft Raft.Durability Raft.Moves Raft.Cluster
open Raft.Provenance Raft.Pledges Raft.Shapes Raft.EventLoop
open Refinement.Projection
open Safety.Followers Safety.Indexing

variable {M : Members} {D : Deployment} {s : CoreState} {i : ID} {ev : Event} {c c' : Core}

section Calls

/-- Whether an event leaves the delivered entries in the log: a batch does not replace them,
and a snapshot covers them or continues the log. -/
def retaining (c : Core) : Event → Bool
  | .appendEntries req => c.term ≤ req.term → Accepted c req →
      ∀ e ∈ (req.entries.dropWhile (held c)).head?, c.commitIndex < e.index →
        c.lastDelivered < e.index
  | .installSnapshot req => c.term ≤ req.term → c.snapIndex < req.lastIncludedIndex →
      c.commitIndex < req.lastIncludedIndex → c.lastDelivered ≤ req.lastIncludedIndex ∨
        req.lastIncludedIndex ≤ lastLogIndex c ∧
          termAt c req.lastIncludedIndex = req.lastIncludedTerm
  | _ => true

def retains (c : Core) : Input → Bool
  | .deliver p => retaining c (eventOf p)
  | .client ev => retaining c ev
  | .compact _ _ => true

def Retained (c : Core) : Prop :=
  c.lastDelivered ≤ lastLogIndex c

theorem retained_of_eq (h : Retained c) (he : c'.entries = c.entries)
    (hs : c'.snapIndex = c.snapIndex) (hd : c'.lastDelivered = c.lastDelivered) : Retained c' := by
  unfold Retained
  rw [hd, lastLogIndex_congr he hs]
  exact h

theorem retained_deliverCommitted (h : Retained c) {n : Nat} (hn : n ≤ lastLogIndex c) :
    Retained (deliverCommitted { c with commitIndex := n }) := by
  have hs := sameLog_deliverCommitted { c with commitIndex := n }
  unfold Retained
  rw [lastLogIndex_congr hs.entries hs.snapIndex]
  exact (lastDelivered_deliverCommitted _).trans (max_le h hn)

theorem retained_appendOwn (h : Retained c) {e : Entry} (he : e.index = lastLogIndex c + 1) :
    Retained (appendOwn c e) := by
  unfold Retained
  rw [lastLogIndex_appendOwn, he]
  exact Nat.le_succ_of_le h

theorem retained_move (hev : ∀ req, ev ≠ .appendEntries req)
    (hev' : ∀ req, ev ≠ .installSnapshot req) (hmove : Move ev c c') (h : Retained c) :
    Retained c' := by
  cases hmove with
  | win hrole =>
      have hlead : Retained (becomeLeader c) := retained_of_eq h rfl rfl rfl
      exact retained_appendOwn hlead rfl
  | own e hrole hterm hindex htype => exact retained_appendOwn h hindex
  | advance n hrole hn => exact retained_deliverCommitted h hn.le
  | follow req hreq => exact absurd hreq (hev req)
  | accept req hreq => exact absurd hreq (hev req)
  | install req config hreq => exact absurd hreq (hev' req)
  | drift | ask | send | ack | stepDown | recognize | grant | campaign | fire | change | count
  | note | retry | read =>
      exact retained_of_eq h rfl rfl rfl

theorem retained_adoptTerm (h : Retained c) (term : Nat) : Retained (adoptTerm c term) := by
  unfold adoptTerm
  split
  · exact retained_of_eq h rfl rfl rfl
  · exact h

theorem le_lastLogIndex_truncateAndAppend {e : Entry} {rest : List Entry}
    (hcommit : c.commitIndex < e.index) (hrest : Numbered (e.index - 1) (e :: rest)) :
    e.index ≤ lastLogIndex (truncateAndAppend c e rest).1 := by
  have hlast := getLast?_truncateAndAppend (truncateAndAppend_eq hcommit.not_ge hrest)
  rw [List.getLast?_eq_getElem? (l := e :: rest), List.length_cons, Nat.add_sub_cancel] at hlast
  have hlt : rest.length < (e :: rest).length := Nat.lt_succ_self _
  have hindex := hrest _ _ (List.getElem?_eq_getElem hlt)
  rw [truncateAndAppend_eq hcommit.not_ge hrest]
  unfold lastLogIndex
  rw [hlast, List.getElem?_eq_getElem hlt]
  change e.index ≤ (e :: rest)[rest.length].index
  omega

theorem retained_appendNew (hk : Kept M c) (h : Retained c) {req : AppendEntriesRequest}
    (hreq : WellFormed req) (hacc : Accepted c req)
    (hkeep : ∀ e ∈ (req.entries.dropWhile (held c)).head?, c.commitIndex < e.index →
      c.lastDelivered < e.index) : Retained (appendNew c req.entries).1 := by
  cases hfresh : req.entries.dropWhile (held c) with
  | nil =>
      rw [appendNew, hfresh]
      exact h
  | cons e rest =>
      have happend : appendNew c req.entries = truncateAndAppend c e rest := by
        rw [appendNew, hfresh]
      by_cases hcommit : e.index ≤ c.commitIndex
      · rw [happend, truncateAndAppend, if_pos hcommit]
        exact h
      · have hlt := Nat.lt_of_not_le hcommit
        obtain ⟨-, -, hrest⟩ := fresh_index hk.saved.numbered hk.cursors hreq hacc hfresh hlt
        have hdelivered : (appendNew c req.entries).1.lastDelivered = c.lastDelivered := by
          rw [appendNew_eq]
        rw [hfresh] at hkeep
        unfold Retained
        rw [hdelivered, happend]
        exact (hkeep e rfl hlt).le.trans (le_lastLogIndex_truncateAndAppend hlt hrest)

theorem retained_handleAppendEntries (hk : Kept M c) (h : Retained c)
    {req : AppendEntriesRequest} (hreq : WellFormed req)
    (hkeep : retaining c (.appendEntries req) = true) :
    Retained (handleAppendEntries c req).1 := by
  have hadopt := retained_adoptTerm h req.term
  have hkept : Kept M (recognizeLeader (adoptTerm c req.term) req.leaderId) :=
    kept_of_sameLog (kept_adoptTerm hk req.term) rfl rfl rfl
  have hlead : Retained (recognizeLeader (adoptTerm c req.term) req.leaderId) :=
    retained_of_eq hadopt rfl rfl rfl
  rcases handleAppendEntries_cases c req with
    ⟨resp, heq, -⟩ | ⟨resp, heq, -⟩ | ⟨hterm, hacc, hend⟩
  · rw [heq]
    exact hadopt
  · rw [heq]
    exact hlead
  · have hkeep' := of_decide_eq_true hkeep (le_of_adoptTerm hterm)
    have hnew : Retained
        (appendNew (recognizeLeader (adoptTerm c req.term) req.leaderId) req.entries).1 := by
      refine retained_appendNew hkept hlead hreq hacc ?_
      unfold adoptTerm at hacc ⊢
      split at hacc <;> rename_i hlt
      · rw [if_pos hlt]
        exact hkeep' hacc
      · rw [if_neg hlt]
        exact hkeep' hacc
    rcases hend with ⟨c', err, happend, heq⟩ | ⟨c', resp, happend, heq, -⟩
    all_goals rw [happend] at hnew; rw [heq]
    · exact hnew
    · unfold followCommit
      dsimp only
      split
      · exact retained_deliverCommitted hnew
          ((min_le_right _ _).trans (le_lastLogIndex_of_appendNew hreq.numbered hacc happend))
      · exact hnew

theorem retained_install (hk : Kept M c) (h : Retained c) {snap : Snapshot}
    (hsnap : c.snapIndex < snap.lastIndex)
    (hkeep : c.lastDelivered ≤ snap.lastIndex ∨
      snap.lastIndex ≤ lastLogIndex c ∧ termAt c snap.lastIndex = snap.lastTerm) :
    Retained (install c snap) := by
  have hn := hk.saved.numbered
  have hlast : lastLogIndex (install c snap) = snap.lastIndex + (coherentSuffix c snap).length :=
    lastLogIndex_rebase c (numbered_coherentSuffix hn hsnap)
  unfold Retained at h ⊢
  rw [hlast]
  change max c.lastDelivered snap.lastIndex ≤ _
  rcases hkeep with hle | hcont
  · omega
  · rw [coherentSuffix, if_pos hcont, entriesAfter_eq hn hsnap, List.length_drop]
    rw [lastLogIndex_eq hn] at h
    omega

theorem retained_handleInstallSnapshot (hk : Kept M c) (h : Retained c)
    {req : InstallSnapshotRequest} (hkeep : retaining c (.installSnapshot req) = true) :
    Retained (handleInstallSnapshot c req).1 := by
  have hadopt := retained_adoptTerm h req.term
  have hlead : Retained (recognizeLeader (adoptTerm c req.term) req.leaderId) :=
    retained_of_eq hadopt rfl rfl rfl
  unfold handleInstallSnapshot
  dsimp only
  split
  · exact hadopt
  · rename_i hterm
    split
    · exact hlead
    · rename_i hnew
      split
      · exact hlead
      · have hkept : Kept M (recognizeLeader (adoptTerm c req.term) req.leaderId) :=
          kept_of_sameLog (kept_adoptTerm hk req.term) rfl rfl rfl
        have hsnap := Nat.lt_of_not_le fun hle => hnew (Or.inl hle)
        have hcommit := Nat.lt_of_not_le fun hle => hnew (Or.inr hle)
        refine retained_install hkept hlead hsnap ?_
        have hkeep' := of_decide_eq_true hkeep (le_of_adoptTerm hterm)
        unfold adoptTerm at hsnap hcommit ⊢
        split at hsnap <;> rename_i hlt
        · rw [if_pos hlt] at hcommit ⊢
          exact hkeep' hsnap hcommit
        · rw [if_neg hlt] at hcommit ⊢
          exact hkeep' hsnap hcommit

theorem retained_handle (hk : Kept M c) (hev : Fair ev) (hout : c.outbox = []) (h : Retained c)
    (hkeep : retaining c ev = true) : Retained (handle c ev).1 := by
  have hmoves : (∀ req, ev ≠ .appendEntries req) → (∀ req, ev ≠ .installSnapshot req) →
      Retained (handle c ev).1 := fun hne hne' =>
    moves_induction (moves_handle hout ev) h fun a b hmove ha => retained_move hne hne' hmove ha
  cases ev with
  | appendEntries req => exact retained_handleAppendEntries hk h hev.1 hkeep
  | installSnapshot req => exact retained_handleInstallSnapshot hk h hkeep
  | _ => exact hmoves nofun nofun

theorem retained_respond (hk : Kept M c) {x : Input} (hx : FairInput x) (h : Retained c)
    (hkeep : retains c x = true) : Retained (respond c x).1 := by
  have hq : Kept M (takeQueues c) := kept_of_sameLog hk rfl rfl rfl
  have hreact : ∀ ev replies, Fair ev → retaining c ev = true →
      Retained (react c ev replies).1 := by
    intro ev replies hev hkeep
    rw [react_fst]
    exact retained_handle hq hev rfl (retained_of_eq h rfl rfl rfl) hkeep
  cases x with
  | deliver p => exact hreact _ _ hx hkeep
  | client ev => exact hreact _ _ hx hkeep
  | compact index data =>
      have hdelivered : (compact (takeQueues c) index data).1.lastDelivered = c.lastDelivered := by
        rcases compact_cases (takeQueues c) index data with heq | ⟨-, -, heq⟩ <;>
          rw [heq] <;> rfl
      change Retained (compact (takeQueues c) index data).1
      unfold Retained
      rw [hdelivered]
      exact h.trans (lastLogIndex_compact hq.saved.numbered index data)

end Calls

section Runs

theorem retained_of_boot {rng : Nat → Nat} {d : Disk}
    (hboot : (coreSystem D).boot i rng d = some c) : Retained c := by
  obtain ⟨-, M, entries, -, hopen, rfl⟩ := newCore_cases (newCore_of_boot hboot)
  have hd : Durable M (bootCore (applyDefaults (D.cfg i)) rng (trimmed d) M entries) :=
    durable_bootCore hopen
  unfold Retained
  rw [lastLogIndex_eq hd.saved.numbered]
  exact Nat.le_add_right _ _

theorem retained_of_run (hs : Reachable (coreSystem D) s)
    (hkeep : ∀ k ∈ s.trace, retains k.pre k.input) :
    (∀ k ∈ s.trace, withinLog k.pre k.input) ∧ ∀ i c, s.node i = .up c → Retained c := by
  have hset : ∀ {s : CoreState} {i : ID} {life : Life Core Disk},
      (∀ j c, s.node j = .up c → Retained c) → (∀ c, life = .up c → Retained c) →
      ∀ j c, Function.update s.node i life j = .up c → Retained c := by
    intro s i life h hlife j c hj
    by_cases hji : j = i
    · rw [hji, Function.update_self] at hj
      exact hlife c hj
    · rw [Function.update_of_ne hji] at hj
      exact h j c hj
  revert hkeep
  refine reachable_induction (Q := fun s => (∀ k ∈ s.trace, retains k.pre k.input) →
    (∀ k ∈ s.trace, withinLog k.pre k.input) ∧ ∀ i c, s.node i = .up c → Retained c)
    ?_ ?_ ?_ ?_ hs
  · exact fun _ => ⟨fun k hk => absurd hk List.not_mem_nil, nofun⟩
  · intro s i c x hreach ih hup hx hkeep
    obtain ⟨hlog, hret⟩ := ih fun k hk => hkeep k (List.mem_append_left _ hk)
    have hnow := hret i c hup
    refine ⟨fun k hk => ?_, hset hret fun c' heq => ?_⟩
    · rcases List.mem_append.mp hk with hk | hk
      · exact hlog k hk
      · rw [List.mem_singleton.mp hk]
        cases x with
        | compact index data => exact decide_eq_true fun hle => hle.trans hnow
        | deliver | client => rfl
    · split at heq
      · cases heq
      · obtain rfl := Life.up.inj heq
        exact retained_respond (sane_of_up hreach hlog hup).kept
          (fairInput_of_enabled (saneState_of_reachable hreach hlog).net hx) hnow
          (hkeep _ List.mem_concat_self)
  · exact fun s i c _ ih _ hkeep => ⟨(ih hkeep).1, hset (ih hkeep).2 nofun⟩
  · intro s i rng d c _ ih _ hboot hkeep
    refine ⟨(ih hkeep).1, hset (ih hkeep).2 fun c' heq => ?_⟩
    obtain rfl := Life.up.inj heq
    exact retained_of_boot hboot

end Runs

section Nodes

variable {σ : Type} {S : StateMachine σ} {threshold : ID → Nat} {s : NodeState σ} {n : Node σ}
variable {k : NodeCall σ}

/-- The logs of a cluster keep what has been delivered: the membership is fixed and no log
is cut by a restart, or every turn sees to it. -/
def KeepsDelivered (D : Deployment) (s : NodeState σ) : Prop :=
  RegularNodes D s ∨ ∀ k ∈ s.trace, k.pre.stopped = false → retains k.pre.core k.input.input

theorem KeepsDelivered.part {s₀ : NodeState σ} (h : KeepsDelivered D s)
    (hsub : s₀.trace ⊆ s.trace) : KeepsDelivered D s₀ :=
  h.imp (fun hreg => hreg.part hsub) fun hkeep k hk => hkeep k (hsub hk)

theorem retained_of_projects {s' : CoreState} (h : KeepsDelivered D s)
    (hs' : Reachable (coreSystem D) s') (hproj : Projects S s s') :
    (∀ k ∈ s'.trace, withinLog k.pre k.input) ∧ ∀ i c, s'.node i = .up c → Retained c := by
  rcases h with hreg | hkeep
  · have hreg' := regular_of_projects hproj hreg
    exact ⟨withinLog_of_regular hs' hreg',
      fun i c hup => (indexed_of_up hs' hreg' hup).delivered_le⟩
  · refine retained_of_run hs'
      (forall_calls hproj (G := fun c x => retains c x) ?_ fun _ _ _ => rfl)
    intro k hk c hstop hc
    have := hkeep k hk hstop
    rw [← hc] at this
    exact this

/-- The core and the message of a turn are in order. -/
structure Ordered (M : Members) (n : Node σ) (m : Msg) : Prop where
  queues : takeQueues n.core = n.core
  kept : Kept M n.core
  fair : FairInput m.input
  retained : Retained n.core

theorem ordered_of_mem (hs : Reachable (nodeSystem D S threshold) s) (h : KeepsDelivered D s)
    (hk : k ∈ s.trace) (hstop : k.pre.stopped = false) :
    Ordered (D.tables k.node) k.pre k.input := by
  obtain ⟨p, hp⟩ := List.mem_iff_getElem?.mp hk
  obtain ⟨s₀, hmade, htrace⟩ := exists_madeIn hs hp
  have hsub : s₀.trace ⊆ s.trace := htrace ▸ List.take_subset _ _
  obtain ⟨s', hs', hproj⟩ := exists_core_run hmade.reachable
  obtain ⟨hlog, hret⟩ := retained_of_projects (h.part hsub) hs' hproj
  obtain ⟨c, hup, hc⟩ := exists_core (hmade.up ▸ hproj.life k.node) hstop
  exact
    { queues := queues_taken hmade.reachable hmade.up hstop
      kept := hc ▸ kept_of_sameLog (sane_of_up hs' hlog hup).kept rfl rfl rfl
      fair := fairInput_of_enabled (saneState_of_reachable hs' hlog).net
        (input_enabled hproj hmade.enabled)
      retained := hc ▸ retained_of_eq (hret _ c hup) rfl rfl rfl }

end Nodes

end RaftKV.Safety.Retention
