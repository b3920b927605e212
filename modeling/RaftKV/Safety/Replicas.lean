import RaftKV.Safety.NewConfigurations
import RaftKV.Safety.Proposers

namespace RaftKV.Safety.Replicas

open Consensus.Commitment Consensus.Preservation
open Distributed.Network
open Raft
open Raft.Durability Raft.Cluster Raft.Provenance Raft.Shapes Raft.Deliveries Raft.EventLoop
open Raft.Authorship (readable_of_bounded)
open Refinement.Relation Refinement.Runs Refinement.Projection
open Safety.FixedMembership
open Safety.Followers (withinLog_of_regular)
open Safety.Proposals (received_dispatch)
open Safety.Proposers

section Images

variable {σ : Type} {S : StateMachine σ} {n a b : Node σ} {es es' : List Entry}

/-- A state machine that was fed a log from the start. -/
def image (S : StateMachine σ) (L : List Entry) : σ :=
  L.foldl (feedEntry S) S.fresh

/-- Restoring a snapshot gives what it was taken of. -/
def Lawful (S : StateMachine σ) : Prop :=
  ∀ sm data, S.snapshot sm = some data → ∀ sm', S.restore sm' data = some sm

def delivered (effects : List Effect) : List Entry :=
  effects.filterMap fun
    | .applied e => some e
    | _ => none

/-- The indices of the snapshots a turn has restored. -/
def restorations (effects : List Effect) : List Nat :=
  effects.filterMap fun
    | .restored index => some index
    | _ => none

@[simp]
theorem delivered_append (effects new : List Effect) :
    delivered (effects ++ new) = delivered effects ++ delivered new :=
  List.filterMap_append

@[simp]
theorem restorations_append (effects new : List Effect) :
    restorations (effects ++ new) = restorations effects ++ restorations new :=
  List.filterMap_append

/-- On the way from `n` to `a` the state machine was fed `es` and nothing else. -/
structure Feeds (S : StateMachine σ) (n a : Node σ) (es : List Entry) : Prop where
  sm : a.sm = es.foldl (feedEntry S) n.sm
  applied : a.applied = es.foldl (fun _ e => e.index) n.applied
  delivered : delivered a.effects = delivered n.effects ++ es
  restorations : restorations a.effects = restorations n.effects

theorem Feeds.trans (h : Feeds S n a es) (h' : Feeds S a b es') : Feeds S n b (es ++ es') where
  sm := by rw [h'.sm, h.sm, List.foldl_append]
  applied := by rw [h'.applied, h.applied, List.foldl_append]
  delivered := by rw [h'.delivered, h.delivered, List.append_assoc]
  restorations := h'.restorations.trans h.restorations

theorem feeds_of_quiet {effects : List Effect} (hsm : a.sm = n.sm)
    (happlied : a.applied = n.applied) (he : a.effects = n.effects ++ effects)
    (hd : delivered effects = [])
    (hr : restorations effects = []) : Feeds S n a [] where
  sm := hsm
  applied := happlied
  delivered := by rw [he, delivered_append, hd]
  restorations := by rw [he, restorations_append, hr, List.append_nil]

theorem feeds_fireAppliedWaiters (n : Node σ) : Feeds S n (fireAppliedWaiters n) [] := by
  refine feeds_of_quiet rfl rfl rfl ?_ ?_
  · rw [delivered, List.filterMap_map]
    exact List.filterMap_eq_nil_iff.mpr fun _ _ => rfl
  · rw [restorations, List.filterMap_map]
    exact List.filterMap_eq_nil_iff.mpr fun _ _ => rfl

theorem feeds_answerWaiter (n : Node σ) (e : Entry) : Feeds S n (answerWaiter n e) [] := by
  unfold answerWaiter
  split
  · exact feeds_of_quiet rfl rfl (List.append_nil _).symm rfl rfl
  · exact feeds_of_quiet rfl rfl rfl rfl rfl

theorem feeds_applyEntry (n : Node σ) (e : Entry) : Feeds S n (applyEntry S n e) [e] := by
  have hone : Feeds S n (emit { n with sm := feedEntry S n.sm e, applied := e.index }
      (.applied e)) [e] := by
    refine ⟨rfl, rfl, delivered_append _ _, ?_⟩
    exact (restorations_append _ _).trans (List.append_nil _)
  exact (hone.trans (feeds_fireAppliedWaiters _)).trans (feeds_answerWaiter _ e)

theorem feeds_foldl_applyEntry (n : Node σ) (es : List Entry) :
    Feeds S n (es.foldl (applyEntry S) n) es := by
  induction es generalizing n with
  | nil => exact feeds_of_quiet rfl rfl (List.append_nil _).symm rfl rfl
  | cons e es ih => exact (feeds_applyEntry n e).trans (ih _)

theorem feeds_resolveRead (n : Node σ) (r : ReadOutcome) : Feeds S n (resolveRead n r) [] := by
  unfold resolveRead
  split
  · exact feeds_of_quiet rfl rfl (List.append_nil _).symm rfl rfl
  · dsimp only
    split
    · exact feeds_of_quiet rfl rfl rfl rfl rfl
    · split
      · exact feeds_of_quiet rfl rfl rfl rfl rfl
      · exact feeds_of_quiet rfl rfl (List.append_nil _).symm rfl rfl

theorem feeds_foldl_resolveRead (n : Node σ) (rs : List ReadOutcome) :
    Feeds S n (rs.foldl resolveRead n) [] := by
  induction rs generalizing n with
  | nil => exact feeds_of_quiet rfl rfl (List.append_nil _).symm rfl rfl
  | cons r rs ih => exact (feeds_resolveRead n r).trans (ih _)

theorem feeds_dispatch (n : Node σ) (m : Msg) : Feeds S n (dispatch n m).1 [] := by
  have hrec := received_dispatch n m
  generalize (dispatch n m).1 = a at hrec ⊢
  cases hrec with
  | silent | enlisted | registered =>
      exact feeds_of_quiet rfl rfl (List.append_nil _).symm rfl rfl
  | answered | refused => exact feeds_of_quiet rfl rfl rfl rfl rfl

theorem feeds_drain {c : Core} (hr : c.pendingRestore = none) (hb : drain S n c = some b) :
    Feeds S n b c.committed := by
  unfold drain at hb
  rw [hr] at hb
  obtain rfl := Option.some.inj hb
  have h := (feeds_foldl_applyEntry (S := S) n c.committed).trans
    (feeds_foldl_resolveRead _ c.readOutcomes)
  rwa [List.append_nil] at h

theorem restored_drain {c : Core} {data : Bytes} (hr : c.pendingRestore = some data)
    (hc : c.committed = []) (hb : drain S n c = some b) :
    S.restore n.sm data = some b.sm ∧ b.applied = n.core.snapIndex ∧
      delivered b.effects = delivered n.effects ∧
      restorations b.effects = restorations n.effects ++ [n.core.snapIndex] := by
  unfold drain at hb
  rw [hr, hc] at hb
  obtain ⟨a, ha, rfl⟩ := Option.map_eq_some_iff.mp hb
  obtain ⟨sm, hsm, rfl⟩ := Option.map_eq_some_iff.mp ha
  have h := (feeds_fireAppliedWaiters (S := S)
    (emit { n with sm := sm, applied := n.core.snapIndex }
    (.restored n.core.snapIndex))).trans (feeds_foldl_resolveRead _ c.readOutcomes)
  refine ⟨hsm.trans (congrArg some h.sm.symm), h.applied, ?_, ?_⟩
  · refine h.delivered.trans ?_
    rw [List.append_nil, List.append_nil, emit, delivered_append]
    exact List.append_nil _
  · refine h.restorations.trans ?_
    exact restorations_append _ _

theorem foldl_index {start len : Nat} (h : es.map Entry.index = List.range' (start + 1) len) :
    es.foldl (fun _ e => e.index) start = start + len := by
  induction es generalizing start len with
  | nil =>
      cases len with
      | zero => rfl
      | succ len => cases h
  | cons e es ih =>
      cases len with
      | zero => cases h
      | succ len =>
          rw [List.range'_succ, List.map_cons] at h
          obtain ⟨hhead, htail⟩ := List.cons.inj h
          rw [List.foldl_cons, hhead, ih htail]
          omega

end Images

section Turns

variable {σ : Type} {S : StateMachine σ} {M : Members} {g : Ghost} {n a b : Node σ} {m : Msg}
variable {L L' : List Entry}

/-- The state machine holds the log `L` up to the apply cursor, and the core of a running loop
has delivered no more. -/
structure Replica (S : StateMachine σ) (L : List Entry) (n : Node σ) : Prop where
  applied_le : n.applied ≤ L.length
  sm : n.sm = image S (L.take n.applied)
  cursor : n.stopped = false → n.applied = n.core.lastDelivered

/-- The snapshot stands for the log `L₀`, which `L` continues. -/
structure Restorable (S : StateMachine σ) (L : List Entry) (snap : Snapshot) (L₀ : List Entry) :
    Prop where
  data : snap.data ≠ []
  restore : ∀ sm, S.restore sm snap.data = some (image S L₀)
  isPrefix : L₀ <+: L

/-- A turn delivers the entries behind the apply cursor one by one, or restores a snapshot and
delivers nothing. -/
def InStep (n b : Node σ) : Prop :=
  restorations b.effects = [] ∧ n.applied ≤ b.applied ∧
      (delivered b.effects).map Entry.index =
        List.range' (n.applied + 1) (b.applied - n.applied) ∨
    restorations b.effects = [b.applied] ∧ delivered b.effects = []

/-- Whether a message brings a snapshot that is installed although entries behind it have
been delivered. -/
def overtaken (n : Node σ) (m : Msg) : Bool :=
  (installs n.core m).any fun req => req.lastIncludedIndex < n.core.lastDelivered

/-- What a turn makes of the log `L` of a node. -/
structure Carried (S : StateMachine σ) (g : Ghost) (L L' : List Entry) (n b : Node σ) : Prop where
  isPrefix : L <+: L'
  chosen : ChosenLog g L'
  known : ∀ e ∈ L', e ∈ L ∨ e ∈ delivered b.effects
  delivered : ∀ e ∈ delivered b.effects, e ∈ L'
  applied_le : b.applied ≤ L'.length
  sm : b.sm = image S (L'.take b.applied)
  le : n.applied ≤ b.applied
  inStep : InStep n b

theorem kept_of_nodeRel {R : Regime M} {T : Snapshot → List Entry → Prop} {i : ID} {c : Core}
    (h : NodeRel R T g i c) : Kept M c where
  saved := h.saved
  cursors := h.cursors
  commit_le := h.commit_le
  commit_last := h.mirror.lastLogIndex.symm ▸ h.commit_le.trans h.delivered.1

theorem carried_quiet (hL : ChosenLog g L) (hr : Replica S L n)
    (hf : Feeds S { n with effects := [] } a []) : Carried S g L L n a := by
  have happlied : a.applied = n.applied := hf.applied
  have hnone : delivered a.effects = [] := hf.delivered
  refine ⟨List.prefix_refl L, hL, fun e he => Or.inl he, ?_, ?_, ?_, happlied.ge, ?_⟩
  · rw [hnone]
    exact fun e he => absurd he List.not_mem_nil
  · rw [happlied]
    exact hr.applied_le
  · rw [happlied]
    exact hf.sm.trans hr.sm
  · refine Or.inl ⟨hf.restorations, happlied.ge, ?_⟩
    rw [hnone, happlied, Nat.sub_self]
    rfl

theorem carried_delivers (hinv : RaftKV.Consensus.Protocol.Inv (scheme M) g)
    (hL : ChosenLog g L) (hr : Replica S L n) (hstop : n.stopped = false)
    (hf : Feeds S { n with effects := [] } a []) (hdel : Delivers n.core a.core)
    (hchosen : ∀ e ∈ a.core.committed, 0 < e.index ∧ Chosen g (e.index - 1) e)
    (hb : drain S { a with core := takeQueues a.core } a.core = some b) :
    (∃ L', Carried S g L L' n b) ∧ b.applied = a.core.lastDelivered := by
  have hdrain : Feeds S a b a.core.committed := { feeds_drain hdel.restore hb with }
  have hfeeds : Feeds S { n with effects := [] } b a.core.committed := hf.trans hdrain
  have hcursor := hr.cursor hstop
  have hindices := hdel.indices
  have hlen : a.core.committed.length = a.core.lastDelivered - n.core.lastDelivered := by
    have := congrArg List.length hindices
    rwa [List.length_map, List.length_range'] at this
  have hle := hdel.le
  have happlied : b.applied = a.core.lastDelivered := by
    rw [hfeeds.applied]
    change a.core.committed.foldl (fun _ e => e.index) n.applied = _
    rw [hcursor, foldl_index hindices]
    omega
  have hat : ∀ p e, a.core.committed[p]? = some e → Chosen g (n.applied + p) e := by
    intro p e hp
    have hindex := congrArg (fun l => l[p]?) hindices
    have hlt := (List.getElem?_eq_some_iff.mp hp).1
    simp only [List.getElem?_map, hp, Option.map_some,
      List.getElem?_range' (hlen ▸ hlt)] at hindex
    have hpos := hchosen e (List.mem_of_getElem? hp)
    have heq : e.index - 1 = n.applied + p := by
      have := Option.some.inj hindex
      omega
    exact heq ▸ hpos.2
  obtain ⟨L', hpre, hL', hle', htake, hknown⟩ := exists_chosenLog hinv hL hr.applied_le hat
  have hend : n.applied + a.core.committed.length = b.applied := by
    omega
  rw [hend] at hle' htake
  have hdelivered : delivered b.effects = a.core.committed := hfeeds.delivered
  refine ⟨⟨L', hpre, hL', ?_, ?_, hle', ?_, by omega, Or.inl ⟨hfeeds.restorations, by omega, ?_⟩⟩,
    happlied⟩
  · rw [hdelivered]
    exact hknown
  · rw [hdelivered]
    intro e he
    exact List.mem_of_mem_take (htake ▸ List.mem_append_right _ he)
  · rw [htake, image, List.foldl_append]
    change b.sm = a.core.committed.foldl (feedEntry S) (image S (L.take n.applied))
    rw [← hr.sm]
    exact hfeeds.sm
  · rw [hdelivered, hindices, ← hcursor, happlied]

theorem carried_installs (hL : ChosenLog g L) (hr : Replica S L n) (hstop : n.stopped = false)
    (hf : Feeds S { n with effects := [] } a [])
    {req : InstallSnapshotRequest} (hin : Installs n.core req a.core)
    (hover : n.core.lastDelivered ≤ req.lastIncludedIndex) {snap : Snapshot} {L₀ : List Entry}
    (hdata : snap.data = req.data) (hlen : L₀.length = req.lastIncludedIndex)
    (hrest : Restorable S L snap L₀)
    (hb : drain S { a with core := takeQueues a.core } a.core = some b) :
    Carried S g L L n b ∧ b.applied = a.core.lastDelivered ∧ delivered b.effects = [] := by
  have hrestore : a.core.pendingRestore = some req.data := by
    rw [hin.restore, copyBytes, if_neg (hdata ▸ hrest.data)]
  obtain ⟨hsm, happlied, hdel, hres⟩ := restored_drain hrestore hin.committed hb
  have hindex : b.applied = req.lastIncludedIndex := happlied.trans hin.snapIndex
  have hnone : delivered b.effects = [] := hdel.trans hf.delivered
  have hle : n.applied ≤ b.applied := by
    rw [hr.cursor hstop, hindex]
    exact hover
  refine ⟨⟨List.prefix_refl L, hL, fun e he => Or.inl he, ?_, ?_, ?_, hle, Or.inr ⟨?_, hnone⟩⟩, ?_,
    hnone⟩
  · rw [hnone]
    exact fun e he => absurd he List.not_mem_nil
  · rw [hindex, ← hlen]
    exact hrest.isPrefix.length_le
  · rw [hindex, ← hlen, ← List.prefix_iff_eq_take.mp hrest.isPrefix]
    rw [← hdata, hrest.restore] at hsm
    exact (Option.some.inj hsm).symm
  · refine hres.trans ?_
    have hnone' : restorations a.effects = [] := hf.restorations
    rw [hnone', List.nil_append, happlied]
  · rw [hindex, hin.delivered, max_eq_right hover]

end Turns

section Steps

variable {σ : Type} {S : StateMachine σ} {n a : Node σ} {m : Msg}

theorem step_stopped (hstop : n.stopped = true) : (step S n m).1 = { n with effects := [] } := by
  unfold step
  dsimp only
  rw [if_pos hstop]

theorem step_failed (hstop : n.stopped = false)
    (hd : dispatch { n with effects := [] } m = (a, none)) :
    (step S n m).1 = { a with stopped := true } := by
  unfold step
  dsimp only
  rw [if_neg (Bool.eq_false_iff.mp hstop), hd]

theorem step_halted (hstop : n.stopped = false) {replies : List Packet}
    (hd : dispatch { n with effects := [] } m = (a, some replies))
    (hb : drain S { a with core := takeQueues a.core } a.core = none) :
    (step S n m).1 = { a with core := takeQueues a.core, stopped := true } := by
  unfold step
  dsimp only
  rw [if_neg (Bool.eq_false_iff.mp hstop), hd]
  dsimp only
  rw [afterStep]
  dsimp only
  rw [hb]

theorem stopped_of_carries {c : Core} {life : Life Core Disk} (h : Carries (.up n) life)
    (hup : life = .up c) : n.stopped = false := by
  cases h with
  | stopped => cases hup
  | up _ _ hstop _ => exact hstop

theorem feeds_of_dispatch {replies : Option (List Packet)}
    (hd : dispatch { n with effects := [] } m = (a, replies)) :
    Feeds S { n with effects := [] } a [] := by
  have h := feeds_dispatch (S := S) { n with effects := [] } m
  rwa [hd] at h

theorem payload_of_installs {c : Core} {req : InstallSnapshotRequest}
    (h : installs c m = some req) :
    ∃ p, m = .deliver p ∧ p.payload = .request (.installSnapshot req) := by
  cases m with
  | deliver p =>
      refine ⟨p, rfl, ?_⟩
      obtain ⟨src, dest, payload⟩ := p
      cases payload with
      | request msg =>
          cases msg with
          | installSnapshot req' =>
              change (if _ then some req' else none) = some req at h
              split at h
              · cases h
                rfl
              · cases h
          | requestVote | appendEntries | timeoutNow => cases h
      | voteResp | appendResp | snapshotResp => cases h
  | tick | propose | confChange | transfer | read => cases h

end Steps

section Runs

variable {σ : Type} {S : StateMachine σ} {D : Deployment} {threshold : ID → Nat}
variable {s : NodeState σ} {s' : CoreState} {g g' : Ghost} {i : ID} {n a b : Node σ} {m : Msg}
variable {L L' : List Entry} {c : Core}

/-- The committed log of a run: all the entries that were handed to a state machine, each at
its index, and each of them within the commit index of the node that delivered it. -/
structure CommittedLog (calls : List (NodeCall σ)) (L : List Entry) : Prop where
  numbered : Numbered 0 L
  complete : ∀ k ∈ calls, ∀ e ∈ delivered k.post.effects, e ∈ L
  committed : ∀ e ∈ L, ∃ k ∈ calls, e ∈ delivered k.post.effects ∧
    e.index ≤ k.post.core.commitIndex

/-- All the state machines hold the log `L`, as far as their nodes have applied it. -/
structure Replicated (S : StateMachine σ) (g : Ghost) (s : NodeState σ) (L : List Entry) :
    Prop where
  chosen : ChosenLog g L
  complete : ∀ k ∈ s.trace, ∀ e ∈ delivered k.post.effects, e ∈ L
  committed : ∀ e ∈ L, ∃ k ∈ s.trace, e ∈ delivered k.post.effects ∧
    e.index ≤ k.post.core.commitIndex
  nodes : ∀ i n, s.node i = .up n → Replica S L n
  starts : ∀ k ∈ s.trace, Replica S L k.pre ∧ k.pre.applied ≤ k.post.applied
  turns : ∀ k ∈ s.trace, k.post.applied ≤ L.length ∧
    k.post.sm = image S (L.take k.post.applied) ∧ InStep k.pre k.post

theorem take_of_isPrefix {α : Type} {A B : List α} (h : A <+: B) {p : Nat} (hp : p ≤ A.length) :
    B.take p = A.take p := by
  obtain ⟨rest, rfl⟩ := h
  exact List.take_append_of_le_length hp

theorem replica_mono (h : Replica S L n) (hpre : L <+: L') : Replica S L' n where
  applied_le := h.applied_le.trans hpre.length_le
  sm := by
    rw [take_of_isPrefix hpre h.applied_le]
    exact h.sm
  cursor := h.cursor

theorem restorable_mono (hpre : L <+: L') (snap : Snapshot) (L₀ : List Entry)
    (h : Restorable S L snap L₀) : Restorable S L' snap L₀ :=
  { h with isPrefix := h.isPrefix.trans hpre }

theorem replicated_call (h : Replicated S g s L) (hup : s.node i = .up n)
    (hc : Carried S g' L L' n (step S n m).1)
    (hcursor : (step S n m).1.stopped = false →
      (step S n m).1.applied = (step S n m).1.core.lastDelivered)
    (hcommit : ∀ e ∈ delivered (step S n m).1.effects,
      e.index ≤ (step S n m).1.core.commitIndex) :
    Replicated S g' ((nodeSystem D S threshold).call s i n m) L' where
  chosen := hc.chosen
  complete := by
    intro k hk e he
    rcases List.mem_append.mp hk with hk | hk
    · exact hc.isPrefix.subset (h.complete k hk e he)
    · rw [List.mem_singleton.mp hk] at he
      exact hc.delivered e he
  committed := by
    intro e he
    rcases hc.known e he with hold | hnew
    · obtain ⟨k, hk, hin, hle⟩ := h.committed e hold
      exact ⟨k, List.mem_append_left _ hk, hin, hle⟩
    · exact ⟨_, List.mem_concat_self, hnew, hcommit e hnew⟩
  nodes := by
    intro j n' hup
    change Function.update s.node i (.up (step S n m).1) j = .up n' at hup
    by_cases hj : j = i
    · subst hj
      rw [Function.update_self] at hup
      obtain rfl := Life.up.inj hup
      exact ⟨hc.applied_le, hc.sm, hcursor⟩
    · rw [Function.update_of_ne hj] at hup
      exact replica_mono (h.nodes j n' hup) hc.isPrefix
  starts := by
    intro k hk
    rcases List.mem_append.mp hk with hk | hk
    · obtain ⟨hpre, hle⟩ := h.starts k hk
      exact ⟨replica_mono hpre hc.isPrefix, hle⟩
    · rw [List.mem_singleton.mp hk]
      exact ⟨replica_mono (h.nodes i n hup) hc.isPrefix, hc.le⟩
  turns := by
    intro k hk
    rcases List.mem_append.mp hk with hk | hk
    · obtain ⟨hle, hsm, hstep⟩ := h.turns k hk
      refine ⟨hle.trans hc.isPrefix.length_le, ?_, hstep⟩
      rw [take_of_isPrefix hc.isPrefix hle]
      exact hsm
    · rw [List.mem_singleton.mp hk]
      exact ⟨hc.applied_le, hc.sm, hc.inStep⟩

theorem carried_call (hs : Reachable (coreSystem D) s') (hreg : Regular D s')
    (hrel : ClusterRel (fixedRegime D.members) (Restorable S L) g s')
    (hup : s'.node i = .up c) (hx : Enabled (coreSystem D) s' i m.input)
    (hq : takeQueues c = n.core) (hr : Replica S L n) (hL : ChosenLog g' L)
    (hinv : RaftKV.Consensus.Protocol.Inv (scheme D.members) g')
    (hstop : n.stopped = false) {replies : List Packet}
    (hd : dispatch { n with effects := [] } m = (a, some replies))
    (hpost : NodeRel (fixedRegime D.members) (Restorable S L) g' i a.core)
    (hover : overtaken n m = false)
    (hb : drain S { a with core := takeQueues a.core } a.core = some b) :
    (∃ L', Carried S g' L L' n b) ∧ b.applied = a.core.lastDelivered ∧
      ∀ e ∈ delivered b.effects, e.index ≤ a.core.commitIndex := by
  obtain ⟨hpre, -⟩ := hrel.world.live i c hup
  have hkept : Kept D.members n.core :=
    hq ▸ kept_of_sameLog (kept_of_nodeRel hpre) rfl rfl rfl
  have hfair : FairInput m.input :=
    fairInput_of_enabled (saneState_of_reachable hs (withinLog_of_regular hs hreg)).net hx
  have hf : Feeds S { n with effects := [] } a [] := feeds_of_dispatch hd
  have hcore : a.core = (respond n.core m.input).1 := by
    rw [← hq, respond_takeQueues, respond_of_dispatch hq hd]
  have hcovered : Covered a.core := hcore ▸ covered_respond hfair hkept
  rcases delivers_or_installs hkept hfair with hdel | ⟨req, hreq, hin⟩
  · rw [← hcore] at hdel
    obtain ⟨hcarried, happlied⟩ := carried_delivers hinv hL hr hstop hf hdel hpost.committed hb
    refine ⟨hcarried, happlied, fun e he => hcovered e ?_⟩
    have hdelivered : delivered b.effects = _ := (feeds_drain hdel.restore hb).delivered
    have hnone : delivered a.effects = [] := hf.delivered
    change delivered b.effects = delivered a.effects ++ a.core.committed at hdelivered
    rwa [hdelivered, hnone, List.nil_append] at he
  · rw [← hcore] at hin
    obtain ⟨p, rfl, hpayload⟩ := payload_of_installs hreq
    have hp : p ∈ s'.net := by
      rcases hx with hlocal | ⟨q, hq, -, heq⟩
      · cases hlocal
      · exact Input.deliver.inj heq ▸ hq
    have hok := (hrel.world.packets p hp).2.2
    rw [hpayload] at hok
    obtain ⟨l, hoffer⟩ := hok
    have hle : n.core.lastDelivered ≤ req.lastIncludedIndex := by
      have h := hover
      rw [overtaken, hreq] at h
      exact Nat.le_of_not_lt (of_decide_eq_false h)
    have hlen : (l.log.take req.lastIncludedIndex).length = req.lastIncludedIndex := by
      rw [List.length_take, min_eq_left hoffer.commit.1]
    obtain ⟨hcarried, happlied, hnone⟩ := carried_installs hL hr hstop hf hin hle rfl hlen
      hoffer.taken hb
    refine ⟨⟨L, hcarried⟩, happlied, fun e he => ?_⟩
    rw [hnone] at he
    exact absurd he List.not_mem_nil

theorem restorable_snapshotAt (hlaw : Lawful S) (hempty : ∀ sm, S.snapshot sm ≠ some [])
    (hinv : RaftKV.Consensus.Protocol.Inv (scheme D.members) g) (hL : ChosenLog g L)
    {T : Snapshot → List Entry → Prop} (hrel : NodeRel (fixedRegime D.members) T g i c)
    (hle : b.applied ≤ L.length) (hsm : b.sm = image S (L.take b.applied))
    (hcursor : b.applied = c.lastDelivered) {data : Bytes} (hdata : S.snapshot b.sm = some data) :
    Restorable S L (snapshotAt c b.applied data) ((g.log i).take b.applied) := by
  have hdel := hrel.delivered
  rw [← hcursor] at hdel
  have hlen : ((g.log i).take b.applied).length = b.applied := by
    rw [List.length_take, min_eq_left hdel.1]
  have hpre := isPrefix_of_chosenLog hinv (chosenLog_of_committed hdel) hL (hlen.symm ▸ hle)
  have heq := List.prefix_iff_eq_take.mp hpre
  rw [hlen] at heq
  refine ⟨?_, ?_, hpre⟩
  · rintro hnil
    exact hempty b.sm (hdata.trans (congrArg some hnil))
  · intro sm
    rw [heq, ← hsm]
    exact hlaw b.sm data hdata sm

theorem replica_of_boot {rng : Nat → Nat} {d : Disk}
    (hboot : (nodeSystem D S threshold).boot i rng d = some n)
    (hcore : (coreSystem D).boot i rng d = some c)
    (hrel : NodeRel (fixedRegime D.members) (Restorable S L) g i c) : Replica S L n := by
  obtain ⟨c', hc, hn⟩ := newNode_cases hboot
  obtain rfl : c' = c := by
    have := newCore_of_boot hcore
    rw [show newCore (D.cfg i) rng d = .ok c' from hc] at this
    exact Except.ok.inj this
  have hdisk : c'.snapIndex = (loadRaftSnapshot c'.disk).lastIndex ∧
      c'.lastDelivered = c'.snapIndex ∧
      c'.pendingRestore = copyBytes (loadRaftSnapshot c'.disk).data := by
    obtain ⟨-, M, entries, -, -, rfl⟩ := newCore_cases hc
    exact ⟨rfl, rfl, rfl⟩
  obtain ⟨hindex, hcursor, hpending⟩ := hdisk
  rw [loadRaftSnapshot] at hindex hpending
  cases hsnap : c'.disk.snapshot with
  | none =>
      rw [hsnap] at hindex hpending
      rcases hn with ⟨-, rfl⟩ | ⟨data, sm, hsome, -⟩
      · have hzero : (nodeOf c' S.fresh (threshold i)).applied = 0 := hindex
        refine ⟨hzero ▸ Nat.zero_le _, ?_, fun _ => hcursor.symm⟩
        rw [hzero]
        rfl
      · rw [hpending] at hsome
        cases hsome
  | some snap =>
      obtain ⟨-, hrest⟩ := hrel.snapshot snap hsnap
      rw [hsnap] at hindex hpending
      replace hpending : c'.pendingRestore = some snap.data :=
        hpending.trans (if_neg hrest.data)
      rcases hn with ⟨hnone, -⟩ | ⟨data, sm, hsome, hsm, rfl⟩
      · rw [hpending] at hnone
        cases hnone
      · obtain rfl := Option.some.inj (hpending.symm.trans hsome)
        have hlen : ((g.log i).take snap.lastIndex).length = snap.lastIndex := by
          rw [List.length_take, min_eq_left]
          refine le_trans ?_ hrel.delivered.1
          exact (hcursor.trans hindex).ge
        have happlied : (nodeOf c' sm (threshold i)).applied =
            ((g.log i).take snap.lastIndex).length := hindex.trans hlen.symm
        refine ⟨happlied ▸ hrest.isPrefix.length_le, ?_, fun _ => hcursor.symm⟩
        rw [happlied, ← List.prefix_iff_eq_take.mp hrest.isPrefix]
        exact Option.some.inj (hsm.symm.trans (hrest.restore S.fresh))

theorem replicated_quiet (h : Replicated S g s L) (hup : s.node i = .up n) (hg : Grows g g')
    (hstep : (step S n m).1 = b) (hf : Feeds S { n with effects := [] } b [])
    (hstop : b.stopped = true) : Replicated S g' ((nodeSystem D S threshold).call s i n m) L := by
  subst hstep
  refine replicated_call h hup (carried_quiet (chosenLog_mono hg h.chosen) (h.nodes i n hup) hf)
    (fun hrun => absurd (hstop.symm.trans hrun) Bool.noConfusion) fun e he => ?_
  rw [hf.delivered] at he
  exact absurd he List.not_mem_nil

theorem replicated_behind (hlaw : Lawful S) (hempty : ∀ sm, S.snapshot sm ≠ some [])
    (hs : Reachable (coreSystem D) s') (hproj : Projects S s s') (hreg : Regular D s')
    (hrel : ClusterRel (fixedRegime D.members) (Restorable S L) g s') (h : Replicated S g s L)
    (hup : s.node i = .up n) (hfix : changesMembership m.input = false)
    (hover : overtaken n m = false) {s'' : CoreState} (hbehind : Behind D S s' i n m s'') :
    ∃ g' L', ClusterRel (fixedRegime D.members) (Restorable S L') g' s'' ∧
      Replicated S g' ((nodeSystem D S threshold).call s i n m) L' := by
  have hlife := hproj.life i
  rw [hup] at hlife
  -- the call of the core that every turn but an idle one begins with
  have hcall : ∀ c, s'.node i = .up c → Enabled (coreSystem D) s' i m.input →
      ∃ g', Grows g g' ∧ NodeRel (fixedRegime D.members) (Restorable S L) g' i
          (respond c m.input).1 ∧
        ClusterRel (fixedRegime D.members) (Restorable S L) g'
          ((coreSystem D).call s' i c m.input) := by
    intro c hc hx
    refine clusterRel_call hrel hc
      (inputOK_of_enabled hreg.fixed.uniform.encodable hrel hc hx hfix ?_)
    intro index data heq
    cases m <;> cases heq
  cases hbehind with
  | idle hstop =>
      exact ⟨g, L, hrel, replicated_quiet h hup (grows_refl g) (step_stopped hstop)
        ⟨rfl, rfl, rfl, rfl⟩ hstop⟩
  | failed a c hc hq hx hd =>
      obtain ⟨g', hg, -, hrel'⟩ := hcall c hc hx
      exact ⟨g', L, hrel', replicated_quiet h hup hg
        (step_failed (stopped_of_carries hlife hc) hd) { feeds_of_dispatch hd with } rfl⟩
  | halted a c hc hq hx hd hb =>
      obtain ⟨g', hg, -, hrel'⟩ := hcall c hc hx
      exact ⟨g', L, clusterRel_crash hrel' (node_of_dispatch hq hd), replicated_quiet h hup hg
        (step_halted (stopped_of_carries hlife hc) hd hb) { feeds_of_dispatch hd with } rfl⟩
  | plain a b c hc hq hx hd hb hstep =>
      obtain ⟨g', hg, hpost, hrel'⟩ := hcall c hc hx
      rw [respond_of_dispatch hq hd] at hpost
      obtain ⟨⟨L', hcarried⟩, happlied, hcommit⟩ := carried_call hs hreg hrel hc hx hq
        (h.nodes i n hup) (chosenLog_mono hg h.chosen) hrel'.world.sound.inv
        (stopped_of_carries hlife hc) hd hpost hover hb
      have hcore := core_drain hb
      refine ⟨g', L', clusterRel_imp (restorable_mono hcarried.isPrefix) hrel', ?_⟩
      refine replicated_call h hup (hstep ▸ hcarried) ?_ ?_
      · rw [hstep, hcore]
        exact fun _ => happlied
      · rw [hstep, hcore]
        exact hcommit
  | @compacted a b c _ data hc hq hx hd hb hdata hstep =>
      obtain ⟨g₁, hg₁, hpost, hrel₁⟩ := hcall c hc hx
      rw [respond_of_dispatch hq hd] at hpost
      obtain ⟨⟨L', hcarried⟩, happlied, hcommit⟩ := carried_call hs hreg hrel hc hx hq
        (h.nodes i n hup) (chosenLog_mono hg₁ h.chosen) hrel₁.world.sound.inv
        (stopped_of_carries hlife hc) hd hpost hover hb
      have hrel₁' := clusterRel_imp (restorable_mono hcarried.isPrefix) hrel₁
      have hok : InputOK (fixedRegime D.members) (Restorable S L') g₁ i a.core
          (.compact b.applied data) := by
        refine inputOK_of_enabled hreg.fixed.uniform.encodable hrel₁' (node_of_dispatch hq hd)
          (Or.inl rfl) rfl ?_
        rintro index data' heq - -
        cases heq
        exact restorable_snapshotAt hlaw hempty hrel₁.world.sound.inv hcarried.chosen hpost
          hcarried.applied_le hcarried.sm happlied hdata
      obtain ⟨g₂, hg₂, -, hrel₂⟩ := clusterRel_call hrel₁' (node_of_dispatch hq hd) hok
      have hcursors : (compact b.core b.applied data).1.lastDelivered = a.core.lastDelivered ∧
          (compact b.core b.applied data).1.commitIndex = a.core.commitIndex := by
        rw [core_drain hb]
        rcases compact_cases (takeQueues a.core) b.applied data with heq | ⟨-, -, heq⟩
        · rw [heq]
          exact ⟨rfl, rfl⟩
        · rw [heq]
          exact ⟨rfl, rfl⟩
      refine ⟨g₂, L', hrel₂, replicated_call h hup ?_ ?_ ?_⟩
      · rw [hstep]
        exact { hcarried with chosen := chosenLog_mono hg₂ hcarried.chosen }
      · rw [hstep]
        exact fun _ => happlied.trans hcursors.1.symm
      · rw [hstep]
        exact fun e he => (hcommit e he).trans hcursors.2.ge

theorem replicated_set (h : Replicated S g s L) {life : Life (Node σ) Disk}
    (hlife : ∀ n, life = .up n → Replica S L n) : Replicated S g (s.set i life) L :=
  { h with
    nodes := by
      intro j n hup
      change Function.update s.node i life j = .up n at hup
      by_cases hj : j = i
      · subst hj
        rw [Function.update_self] at hup
        exact hlife n hup
      · rw [Function.update_of_ne hj] at hup
        exact h.nodes j n hup }

theorem replicated_init :
    Replicated S (RaftKV.Consensus.Protocol.init : Ghost) (init (nodeSystem D S threshold)) [] where
  chosen := fun p e h => absurd (h.symm.trans List.getElem?_nil) (Option.some_ne_none e)
  complete := fun k hk => absurd hk List.not_mem_nil
  committed := fun e he => absurd he List.not_mem_nil
  nodes := by
    intro i n h
    cases h
  starts := fun k hk => absurd hk List.not_mem_nil
  turns := fun k hk => absurd hk List.not_mem_nil

/-- The invariant of whole runs: behind the nodes there is a run of cores and of the protocol,
and what the protocol has chosen is what the state machines hold. -/
theorem reachable_replicated (hlaw : Lawful S) (hempty : ∀ sm, S.snapshot sm ≠ some [])
    (hs : Reachable (nodeSystem D S threshold) s) (hreg : RegularNodes D s)
    (hover : ∀ k ∈ s.trace, overtaken k.pre k.input = false) :
    ∃ s' g L, Reachable (coreSystem D) s' ∧ Projects S s s' ∧
      ClusterRel (fixedRegime D.members) (Restorable S L) g s' ∧ Replicated S g s L := by
  revert hreg hover
  refine reachable_induction (Q := fun s => RegularNodes D s →
    (∀ k ∈ s.trace, overtaken k.pre k.input = false) →
      ∃ s' g L, Reachable (coreSystem D) s' ∧ Projects S s s' ∧
        ClusterRel (fixedRegime D.members) (Restorable S L) g s' ∧ Replicated S g s L)
    ?_ ?_ ?_ ?_ hs
  · intro _ _
    exact ⟨init (coreSystem D), _, [], reachable_init _,
      ⟨fun _ => .down _, List.Subset.refl _, [], .nil, rfl⟩, clusterRel_init, replicated_init⟩
  · intro s i n m _ ih hup hm hreg hover
    have hold : ∀ k ∈ s.trace, k ∈ ((nodeSystem D S threshold).call s i n m).trace :=
      fun k hk => List.mem_append_left _ hk
    have hlast : ⟨i, m, n, (step S n m).1, (step S n m).2⟩ ∈
        ((nodeSystem D S threshold).call s i n m).trace :=
      List.mem_concat_self
    have hreg' : RegularNodes D s := hreg.part hold
    obtain ⟨s', g, L, hs', hproj, hrel, h⟩ := ih hreg' fun k hk => hover k (hold k hk)
    obtain ⟨s'', hbehind, hproj'⟩ := project_call hproj hup hm
    obtain ⟨g', L', hrel', h'⟩ := replicated_behind hlaw hempty hs' hproj
      (regular_of_projects hproj hreg') hrel h hup (hreg.fixed.unchanging _ hlast)
      (hover _ hlast) hbehind
    exact ⟨s'', g', L', reachable_behind hs' hbehind, hproj', hrel', h'⟩
  · intro s i n _ ih hup hreg hover
    obtain ⟨s', g, L, hs', hproj, hrel, h⟩ := ih (hreg.part (List.Subset.refl _)) hover
    have h' : Replicated S g (s.set i (.down n.core.disk)) L := replicated_set h nofun
    rcases project_crash hproj hup with hproj' | ⟨c, hc, -, hproj'⟩
    · exact ⟨s', g, L, hs', hproj', hrel, h'⟩
    · exact ⟨_, g, L, reachable_crash hs' hc, hproj', clusterRel_crash hrel hc, h'⟩
  · intro s i rng d n _ ih hdown hboot hreg hover
    obtain ⟨s', g, L, hs', hproj, hrel, h⟩ := ih (hreg.part (List.Subset.refl _)) hover
    obtain ⟨c, hdown', hboot', hproj'⟩ := project_restart hproj hdown hboot
    have hbound := (regular_of_projects hproj (hreg.part (List.Subset.refl _))).bounded
    have hrel' := clusterRel_restart hrel hreg.fixed.uniform hdown'
      (readable_of_bounded hs' hbound hdown') hboot'
    have hnode := (hrel'.world.live i c (Function.update_self ..)).1
    refine ⟨_, g, L, reachable_restart hs' hdown' hboot', hproj', hrel', replicated_set h ?_⟩
    rintro n' hn
    obtain rfl := Life.up.inj hn
    exact replica_of_boot hboot hboot' hnode

theorem numbered_of_chosenLog {R : Regime D.members} (h : Sound R g) (hL : ChosenLog g L) :
    Numbered 0 L := by
  intro p e hp
  obtain ⟨cm, -, -, hget⟩ := hL p e hp
  unfold RaftKV.Consensus.Protocol.State.leadLog at hget
  cases hlead : g.lead cm.term with
  | none =>
      rw [hlead] at hget
      cases hget
  | some l =>
      rw [hlead] at hget
      exact h.numbered cm.term l hlead p e hget

/-- In every run with a fixed membership and without commands too long to be read back there is
one committed log, and after every turn the state machine of the node holds that log up to the
apply cursor: entries are applied one by one in index order, or skipped all at once by a snapshot
that stands for them. -/
theorem state_machines_hold_committed_log (hlaw : Lawful S)
    (hempty : ∀ sm, S.snapshot sm ≠ some []) (hs : Reachable (nodeSystem D S threshold) s)
    (hfix : FixedNodes D s) (hbound : BoundedNodes s)
    (hover : ∀ k ∈ s.trace, overtaken k.pre k.input = false) :
    ∃ L, CommittedLog s.trace L ∧ ∀ k ∈ s.trace, k.post.applied ≤ L.length ∧
      k.post.sm = image S (L.take k.post.applied) ∧ InStep k.pre k.post := by
  obtain ⟨s', g, L, -, -, hrel, h⟩ := reachable_replicated hlaw hempty hs ⟨hfix, hbound⟩ hover
  exact ⟨L, ⟨numbered_of_chosenLog hrel.world.sound h.chosen, h.complete, h.committed⟩, h.turns⟩

/-- A machine that holds the last command, with a header to its snapshots. -/
def register (header : Bytes) : StateMachine Bytes where
  fresh := [1]
  apply := fun _ _ command => command
  snapshot := fun m => some (header ++ m)
  restore := fun _ data => some (data.drop header.length)

theorem lawful_register (header : Bytes) : Lawful (register header) := by
  intro sm data hdata sm'
  obtain rfl := Option.some.inj hdata
  exact congrArg some (List.drop_left ..)

/-- Node 1 leads, commits a command with node 2 and compacts its log; node 3 gets the
snapshot; node 1 restarts from it. -/
theorem state_machines_hold_committed_log_restored :
    ∃ s, Reachable (nodeSystem trio (register [0]) fun _ => 2) s ∧ FixedNodes trio s ∧
      BoundedNodes s ∧ (∃ k ∈ s.trace, restorations k.post.effects = [2]) ∧
      ∃ L, CommittedLog s.trace L ∧ ∃ k ∈ s.trace, k.pre.effects = [] ∧ k.post.applied = 2 ∧
        image (register [0]) (L.take 2) = [65] := by
  obtain ⟨s, hs, hcalm, hbound, hover, hrestored, k, hk, heffects, happlied, hsm⟩ :=
    exists_of_run (nodeSystem trio (register [0]) fun _ => 2)
      [.restart 1 fun _ => 0, .restart 2 fun _ => 0, .restart 3 fun _ => 0, .act 1 .tick,
        .deliver 0, .deliver 2, .deliver 3, .deliver 5, .act 1 (.propose (oneByte 65) 7),
        .deliver 6, .deliver 8, .act 1 .tick, .deliver 10, .crash 1, .restart 1 fun _ => 0,
        .act 1 (.read 8)]
      (fun s => UnchangingNodes s ∧ BoundedNodes s ∧
        (∀ k ∈ s.trace, overtaken k.pre k.input = false) ∧
        (∃ k ∈ s.trace, restorations k.post.effects = [2]) ∧
        ∃ k ∈ s.trace, k.pre.effects = [] ∧ k.post.applied = 2 ∧ k.post.sm = [65])
      (by decide +kernel)
  obtain ⟨L, hL, hturns⟩ := state_machines_hold_committed_log (lawful_register [0])
    (fun _ h => by cases h) hs ⟨uniform_trio, hcalm⟩ hbound hover
  refine ⟨s, hs, ⟨uniform_trio, hcalm⟩, hbound, hrestored, L, hL, k, hk, heffects, happlied, ?_⟩
  rw [← hsm, ← happlied]
  exact (hturns k hk).2.1.symm

theorem getElem?_of_numbered (h : Numbered 0 L) {e : Entry} (he : e ∈ L) :
    L[e.index - 1]? = some e := by
  obtain ⟨p, hp⟩ := List.mem_iff_getElem?.mp he
  have hindex := h p e hp
  rwa [hindex, Nat.zero_add, Nat.add_sub_cancel]

/-- The only member commits the empty command and takes a snapshot, of no bytes. When it
restarts from it nothing is restored: the state machine is a fresh one, although both entries
count as applied. -/
theorem empty_snapshot_loses_entries :
    ∃ s, Reachable (nodeSystem lone (register []) fun _ => 2) s ∧ FixedNodes lone s ∧
      BoundedNodes s ∧ Lawful (register []) ∧ (∀ k ∈ s.trace, overtaken k.pre k.input = false) ∧
      ∃ k ∈ s.trace, k.post.applied = 2 ∧ ∀ L, CommittedLog s.trace L →
        k.post.sm ≠ image (register []) (L.take k.post.applied) := by
  obtain ⟨s, hs, hcalm, hbound, hover, ⟨k₁, hk₁, h₁⟩, ⟨k₂, hk₂, h₂⟩, k, hk, happlied, hsm⟩ :=
    exists_of_run (nodeSystem lone (register []) fun _ => 2)
      [.restart 1 fun _ => 0, .act 1 .tick, .act 1 (.propose noBytes 7), .crash 1,
        .restart 1 fun _ => 0, .act 1 (.read 8)]
      (fun s => UnchangingNodes s ∧ BoundedNodes s ∧
        (∀ k ∈ s.trace, overtaken k.pre k.input = false) ∧
        (∃ k ∈ s.trace, ⟨1, 1, .noop, noBytes⟩ ∈ delivered k.post.effects) ∧
        (∃ k ∈ s.trace, ⟨1, 2, .normal, noBytes⟩ ∈ delivered k.post.effects) ∧
        ∃ k ∈ s.trace, k.post.applied = 2 ∧ k.post.sm = [1])
      (by decide +kernel)
  refine ⟨s, hs, ⟨uniform_lone, hcalm⟩, hbound, lawful_register [], hover, k, hk, happlied, ?_⟩
  intro L hL
  have hfirst : L[0]? = some _ := getElem?_of_numbered hL.numbered (hL.complete k₁ hk₁ _ h₁)
  have hsecond : L[1]? = some _ := getElem?_of_numbered hL.numbered (hL.complete k₂ hk₂ _ h₂)
  have htake : L.take 2 = [⟨1, 1, .noop, noBytes⟩, ⟨1, 2, .normal, noBytes⟩] := by
    rw [List.take_add_one, List.take_add_one, hfirst, hsecond]
    rfl
  rw [happlied, htake, hsm]
  decide

end Runs

end RaftKV.Safety.Replicas
