import RaftKV.Safety.ReadBarriers

namespace RaftKV.Safety.LinearizableReads

open Distributed.Network
open Raft Raft.Cluster
open Raft.Histories Raft.Provenance Raft.EventLoop
open Refinement.Projection
open Safety.FixedMembership Safety.Proposals Safety.ReadOutcomes Safety.ReadBarriers

section Records

variable {σ : Type} {S : StateMachine σ} {D : Deployment} {threshold : ID → Nat}
variable {s : NodeState σ} {calls : List (NodeCall σ)} {i : ID} {n : Node σ} {k : NodeCall σ}
variable {c : Core} {id index : Nat} {ch : Chan}

/-- The turn left its node leading with a higher commit index than before. -/
def LeaderCommits (k : NodeCall σ) : Prop :=
  k.post.core.role = .leader ∧ k.pre.core.commitIndex < k.post.core.commitIndex
  deriving Decidable

/-- A read on channel `ch` of node `i` was registered under the number `id`, which has not
been given out since. -/
def OpenedUnder (calls : List (NodeCall σ)) (i : ID) (id : Nat) (ch : Chan) : Prop :=
  ∃ (m : Nat) (k : NodeCall σ), calls[m]? = some k ∧ k.node = i ∧ k.input = .read ch ∧
    RegistersRead k id ∧
    ∀ (m' : Nat) k', m < m' → calls[m']? = some k' → k'.node = i → ¬ RegistersRead k' id

/-- Everything that was committed when a read on channel `ch` of node `i` was registered lies
within `index`. -/
def Covers (calls : List (NodeCall σ)) (i : ID) (ch : Chan) (index : Nat) : Prop :=
  ∃ (m : Nat) (k : NodeCall σ), calls[m]? = some k ∧ k.node = i ∧ k.input = .read ch ∧
    (∃ id, RegistersRead k id) ∧
    ∀ p < m, ∀ k₁, calls[p]? = some k₁ → LeaderCommits k₁ → k₁.post.core.commitIndex ≤ index

/-- The core of node `i` has confirmed a read on channel `ch` at `index`. -/
def Confirmed (calls : List (NodeCall σ)) (i : ID) (ch : Chan) (index : Nat) : Prop :=
  ∃ (n : Nat) (k : NodeCall σ) (o : ReadOutcome), calls[n]? = some k ∧ k.node = i ∧
    o ∈ outcomes k ∧ o.confirmed = true ∧ o.index = index ∧
    OpenedUnder (calls.take (n + 1)) i o.id ch

theorem openedUnder_concat (h : OpenedUnder calls i id ch)
    (hk : k.node = i → ¬ RegistersRead k id) : OpenedUnder (calls ++ [k]) i id ch := by
  obtain ⟨m, k₀, hk₀, hnode, hin, hreg, hlast⟩ := h
  refine ⟨m, k₀, getElem?_concat_of_some hk₀, hnode, hin, hreg, ?_⟩
  intro m' k' hlt hk' hnode'
  rcases getElem?_concat_cases hk' with hold | ⟨-, rfl⟩
  · exact hlast m' k' hlt hold hnode'
  · exact hk hnode'

theorem openedUnder_last (hk : k.node = i) (hin : k.input = .read ch) (hreg : RegistersRead k id) :
    OpenedUnder (calls ++ [k]) i id ch := by
  refine ⟨calls.length, k, List.getElem?_concat_length, hk, hin, hreg, ?_⟩
  intro m' k' hlt hk'
  have := (List.getElem?_eq_some_iff.mp hk').1
  rw [List.length_append, List.length_singleton] at this
  omega

theorem confirmed_concat (h : Confirmed calls i ch index) (k : NodeCall σ) :
    Confirmed (calls ++ [k]) i ch index := by
  obtain ⟨n, k₀, o, hk₀, hrest⟩ := h
  have hn := (List.getElem?_eq_some_iff.mp hk₀).1
  refine ⟨n, k₀, o, getElem?_concat_of_some hk₀, ?_⟩
  rwa [List.take_append_of_le_length hn]

theorem registers_coreCall (hc : takeQueues c = k.pre.core) (h : RegistersRead k id) :
    Registers (coreCall k c) id c.commitIndex := by
  obtain ⟨hstop, respc, hin, hok⟩ := h
  rw [← hc] at hok
  obtain ⟨hrole, hterm, hid⟩ := requestRead_eq_ok hok
  refine ⟨?_, hrole, hterm, hid, rfl⟩
  change k.input.input = _
  rw [hin]
  rfl

theorem registersRead_of_coreCall (hc : takeQueues c = k.pre.core) (hstop : k.pre.stopped = false)
    (h : Registers (coreCall k c) id index) : RegistersRead k id := by
  have hin : k.input.input = .client .read := h.input
  obtain ⟨respc, hread⟩ : ∃ respc, k.input = .read respc := by
    cases hm : k.input with
    | read respc => exact ⟨respc, rfl⟩
    | _ =>
        rw [hm] at hin
        cases hin
  refine ⟨hstop, respc, hread, ?_⟩
  have hrole : (takeQueues c).role = .leader := h.role
  have hterm : termAt (takeQueues c) (takeQueues c).commitIndex = (takeQueues c).term := h.term
  rw [← hc, requestRead, if_neg (not_not.mpr hrole), if_neg (not_not.mpr hterm), h.id]
  rfl

theorem raisesCommit_of_leaderCommits (hs : Reachable (nodeSystem D S threshold) s)
    (hk : k ∈ s.trace) (h : LeaderCommits k) :
    k.pre.stopped = false ∧ ∀ c, takeQueues c = k.pre.core →
      RaisesCommit (coreCall k c) ∧
        (coreCall k c).post.commitIndex = k.post.core.commitIndex := by
  have hturn := turned_of_mem hs hk
  obtain ⟨p, hp⟩ := List.mem_iff_getElem?.mp hk
  obtain ⟨s₀, hmade, -⟩ := exists_madeIn hs hp
  have hpost : k.post = (step S k.pre k.input).1 := hmade.post
  have hstop : k.pre.stopped = false := by
    rw [← Bool.not_eq_true]
    intro hstop
    have hlt := h.2
    rw [hturn.stopped hstop] at hlt
    exact absurd hlt (Nat.lt_irrefl _)
  refine ⟨hstop, fun c hc => ?_⟩
  have hrespond : (coreCall k c).post = (respond k.pre.core k.input.input).1 := by
    rw [← hc, respond_takeQueues]
    rfl
  have hrole : k.post.core.role = (coreCall k c).post.role := by
    rw [hrespond]
    exact congrArg (fun t => t.2.2.1) (hturn.running hstop)
  have hcommit : (coreCall k c).post.commitIndex = k.post.core.commitIndex := by
    rw [hrespond, hpost]
    exact (commitIndex_step (hturn.queues hstop) hstop k.input).symm
  have hpre : c.commitIndex = k.pre.core.commitIndex := by
    rw [← hc]
    rfl
  refine ⟨⟨hrole.symm.trans h.1, ?_⟩, hcommit⟩
  rw [hcommit]
  change c.commitIndex < _
  rw [hpre]
  exact h.2

theorem place_of_registration {groups : List (List CoreCall)}
    (hgroups : List.Forall₂ (Expands S) calls groups) {m n q : Nat} {k₀ : NodeCall σ}
    {k' : CoreCall} (hk₀ : calls[m]? = some k₀) (hnode : k₀.node = i) (hreg : RegistersRead k₀ id)
    (hlast : ∀ (m' : Nat) k₁, m < m' → calls[m']? = some k₁ → k₁.node = i → ¬ RegistersRead k₁ id)
    (hm : place groups m ≤ n) (hk' : groups.flatten[q]? = some k') (hnode' : k'.node = i)
    (hreg' : Registers k' id index)
    (hlast' : ∀ n' k₁, q < n' → n' ≤ n → groups.flatten[n']? = some k₁ → k₁.node = i →
      ∀ index, ¬ Registers k₁ id index) : q = place groups m := by
  obtain ⟨c₀, hc₀, hcall₀⟩ := getElem?_place hgroups hk₀ hreg.1
  rcases Nat.lt_trichotomy q (place groups m) with hlt | heq | hlt
  · exact absurd (registers_coreCall hc₀ hreg) (hlast' _ _ hlt hm hcall₀ hnode _)
  · exact heq
  · obtain ⟨m₁, k₁, c₁, hk₁, hstop₁, hc₁, ⟨rfl, rfl⟩ | ⟨data, rfl⟩⟩ := exists_turn hgroups hk'
    · refine absurd (registersRead_of_coreCall hc₁ hstop₁ hreg') (hlast m₁ k₁ ?_ hk₁ hnode')
      by_contra hge
      rcases Nat.lt_or_eq_of_le (Nat.le_of_not_lt hge) with hlt' | rfl
      · exact absurd (place_lt hgroups hk₁ hstop₁ hlt') (Nat.lt_asymm hlt)
      · exact absurd hlt (Nat.lt_irrefl _)
    · exact Input.noConfusion hreg'.input

theorem bounds_of_confirmed (hs : Reachable (nodeSystem D S threshold) s) (hfull : RegularNodes D s)
    (htrace : s.trace = calls ++ [k]) {o : ReadOutcome} (ho : o ∈ outcomes k)
    (hconf : o.confirmed = true) (hopen : OpenedUnder s.trace k.node o.id ch) :
    ∃ (m : Nat) (k₀ : NodeCall σ), s.trace[m]? = some k₀ ∧ k₀.node = k.node ∧ k₀.input = .read ch ∧
      (∃ id, RegistersRead k₀ id) ∧ ∀ p < m, ∀ k₁, s.trace[p]? = some k₁ →
        (LeaderCommits k₁ → k₁.post.core.commitIndex ≤ o.index) ∧
          ∀ e ∈ delivered k₁, e.index ≤ o.index := by
  obtain ⟨m, k₀, hk₀, hnode, hin, hreg, hlast⟩ := hopen
  have hk : s.trace[calls.length]? = some k := by
    rw [htrace]
    exact List.getElem?_concat_length
  have hm : m ≤ calls.length := by
    have := (List.getElem?_eq_some_iff.mp hk₀).1
    rw [htrace, List.length_append, List.length_singleton] at this
    omega
  obtain ⟨s', hs', hproj⟩ := exists_core_run hs
  have hfull' := regular_of_projects hproj hfull
  obtain ⟨groups, hgroups, htrace'⟩ := hproj.trace
  have hstop : k.pre.stopped = false := by
    rw [← Bool.not_eq_true]
    intro hstop
    rw [outcomes, if_pos hstop] at ho
    exact absurd ho List.not_mem_nil
  obtain ⟨c, hc, hcall⟩ := getElem?_place hgroups hk hstop
  rw [← htrace'] at hcall
  have ho' : o ∈ (coreCall k c).post.readOutcomes := by
    rw [outcomes, if_neg (by rw [hstop]; exact Bool.noConfusion), ← hc, respond_takeQueues] at ho
    exact ho
  obtain ⟨q, k', -, hk', hnode', hreg', hlast', hcover⟩ :=
    covered_of_confirmed hs' hfull' hcall ho' hconf
  have hplace : place groups m ≤ place groups calls.length := by
    rcases Nat.lt_or_eq_of_le hm with hlt | rfl
    · exact (place_lt hgroups hk₀ hreg.1 hlt).le
    · exact le_rfl
  rw [htrace'] at hk' hlast'
  have hsame : q = place groups m :=
    place_of_registration hgroups hk₀ hnode hreg hlast hplace hk' hnode' hreg' hlast'
  refine ⟨m, k₀, hk₀, hnode, hin, ⟨o.id, hreg⟩, ?_⟩
  intro p hp k₁ hk₁
  refine ⟨fun hcommits => ?_, fun e he => ?_⟩
  · obtain ⟨hstop₁, hraise⟩ := raisesCommit_of_leaderCommits hs (List.mem_of_getElem? hk₁) hcommits
    obtain ⟨c₁, hc₁, hcall₁⟩ := getElem?_place hgroups hk₁ hstop₁
    rw [← htrace'] at hcall₁
    rw [← (hraise c₁ hc₁).2]
    exact (hcover _ (hsame ▸ place_lt hgroups hk₁ hstop₁ hp) _ hcall₁).1 (hraise c₁ hc₁).1
  · unfold delivered at he
    split at he
    · exact absurd he List.not_mem_nil
    · rename_i hstop₁
      rw [Bool.not_eq_true] at hstop₁
      obtain ⟨c₁, hc₁, hcall₁⟩ := getElem?_place hgroups hk₁ hstop₁
      rw [← htrace'] at hcall₁
      rw [← hc₁, respond_takeQueues] at he
      exact (hcover _ (hsame ▸ place_lt hgroups hk₁ hstop₁ hp) _ hcall₁).2 e he

end Records

section Turns

variable {σ : Type} {S : StateMachine σ} {D : Deployment} {threshold : ID → Nat}
variable {s : NodeState σ} {calls : List (NodeCall σ)} {i : ID} {n a b : Node σ} {k : NodeCall σ}
variable {m : Msg}

/-- Whoever waits or has been answered in this turn is a caller that came before. -/
structure Tracked (calls : List (NodeCall σ)) (i : ID) (n : Node σ) : Prop where
  waiting : ∀ id ch, n.readWaiters id = some ch → OpenedUnder calls i id ch
  confirmed : ∀ w ∈ n.appliedWaiters, Confirmed calls i w.respc w.index
  answered : ∀ ch index, Effect.readAnswered ch (.ok index) ∈ n.effects → Confirmed calls i ch index

theorem tracked_of_effects (h : Tracked calls i n) {es : List Effect}
    (hw : a.readWaiters = n.readWaiters) (hap : ∀ w ∈ a.appliedWaiters, w ∈ n.appliedWaiters)
    (he : a.effects = n.effects ++ es)
    (hes : ∀ ch index, Effect.readAnswered ch (.ok index) ∈ es → Confirmed calls i ch index) :
    Tracked calls i a where
  waiting := by
    rw [hw]
    exact h.waiting
  confirmed := fun w hmem => h.confirmed w (hap w hmem)
  answered := by
    rw [he]
    intro ch index hmem
    exact (List.mem_append.mp hmem).elim (h.answered ch index) (hes ch index)

theorem tracked_emit (h : Tracked calls i n) {effect : Effect} (hw : a.readWaiters = n.readWaiters)
    (hap : a.appliedWaiters = n.appliedWaiters) (he : a.effects = n.effects ++ [effect])
    (hno : ∀ ch index, effect ≠ .readAnswered ch (.ok index)) : Tracked calls i a := by
  refine tracked_of_effects h hw (fun w hmem => hap ▸ hmem) he ?_
  intro ch index hmem
  exact absurd (List.mem_singleton.mp hmem).symm (hno ch index)

theorem tracked_fireAppliedWaiters (h : Tracked calls i n) :
    Tracked calls i (fireAppliedWaiters n) := by
  refine tracked_of_effects h rfl (fun w hmem => (List.mem_filter.mp hmem).1) rfl ?_
  intro ch index hmem
  obtain ⟨w, hw, heq⟩ := List.mem_map.mp hmem
  cases heq
  exact h.confirmed w (List.mem_filter.mp hw).1

theorem tracked_resolveRead (h : Tracked calls i n) {r : ReadOutcome}
    (hr : ∀ ch, OpenedUnder calls i r.id ch → r.confirmed = true → Confirmed calls i ch r.index) :
    Tracked calls i (resolveRead n r) := by
  unfold resolveRead
  cases hw : n.readWaiters r.id with
  | none => exact h
  | some respc =>
      have hcover := hr respc (h.waiting _ _ hw)
      have hleft : Tracked calls i
          { n with readWaiters := Function.update n.readWaiters r.id none } := by
        refine { h with waiting := ?_ }
        intro id ch hid
        by_cases heq : id = r.id
        · change Function.update n.readWaiters r.id none id = some ch at hid
          rw [heq, Function.update_self] at hid
          cases hid
        · change Function.update n.readWaiters r.id none id = some ch at hid
          rw [Function.update_of_ne heq] at hid
          exact h.waiting id ch hid
      dsimp only
      split
      · exact tracked_emit hleft rfl rfl rfl nofun
      · rename_i hconf
        have hgo := hcover (Bool.eq_true_of_not_eq_false hconf)
        split
        · refine tracked_of_effects hleft rfl (fun _ hmem => hmem) rfl ?_
          intro ch index hmem
          cases List.mem_singleton.mp hmem
          exact hgo
        · refine { hleft with confirmed := ?_ }
          exact List.forall_mem_append.mpr ⟨h.confirmed, List.forall_mem_singleton.mpr hgo⟩

theorem tracked_stage {outcomes : List ReadOutcome} (hstage : Stage S outcomes n a)
    (hr : ∀ o ∈ outcomes, ∀ ch, OpenedUnder calls i o.id ch → o.confirmed = true →
      Confirmed calls i ch o.index) (h : Tracked calls i n) : Tracked calls i a := by
  cases hstage with
  | core => exact { h with }
  | restore | apply => exact tracked_emit h rfl rfl rfl (by rintro _ _ ⟨⟩)
  | fire => exact tracked_fireAppliedWaiters h
  | answer e =>
      unfold answerWaiter
      split
      · exact h
      · exact tracked_emit h rfl rfl rfl (by rintro _ _ ⟨⟩)
  | resolve r hmem => exact tracked_resolveRead h (hr r hmem)

theorem tracked_dispatch (h : Tracked calls i { k.pre with effects := [] }) (hk : k.node = i)
    (hstop : k.pre.stopped = false) :
    Tracked (calls ++ [k]) i (dispatch { k.pre with effects := [] } k.input).1 := by
  have hkept : (∀ id, ¬ RegistersRead k id) →
      Tracked (calls ++ [k]) i { k.pre with effects := [] } := by
    intro hno
    refine ⟨fun id ch hid => openedUnder_concat (h.waiting id ch hid) fun _ => hno id, ?_, ?_⟩
    swap
    · rintro _ _ ⟨⟩
    exact fun w hw => confirmed_concat (h.confirmed w hw) k
  have hother : (∀ respc, k.input ≠ .read respc) → ∀ id, ¬ RegistersRead k id := by
    rintro hin id ⟨-, respc, heq, -⟩
    exact hin respc heq
  have hrec := received_dispatch { k.pre with effects := [] } k.input
  generalize (dispatch { k.pre with effects := [] } k.input).1 = a at hrec ⊢
  generalize hm : k.input = m at hrec hother
  cases hrec with
  | silent c hopens => exact { hkept (hother (by rintro _ rfl; cases hopens)) with }
  | enlisted c index w hw => exact { hkept (hother (by rintro _ rfl; cases hw)) with }
  | answered c done r hasks =>
      exact tracked_emit (hkept (hother (by rintro _ rfl; cases hasks))) rfl rfl rfl
        (by rintro _ _ ⟨⟩)
  | refused c respc err hno =>
      exact tracked_emit (hkept fun id hreg => hno id hreg.2.choose_spec.2) rfl rfl rfl
        (by rintro _ _ ⟨⟩)
  | registered c respc id hid =>
      refine ⟨fun id' ch hid' => ?_, fun w hw => confirmed_concat (h.confirmed w hw) k,
        (by rintro _ _ ⟨⟩)⟩
      change Function.update k.pre.readWaiters id (some respc) id' = some ch at hid'
      by_cases heq : id' = id
      · rw [heq, Function.update_self] at hid'
        cases hid'
        exact heq ▸ openedUnder_last hk hm ⟨hstop, respc, hm, hid⟩
      · rw [Function.update_of_ne heq] at hid'
        refine openedUnder_concat (h.waiting id' ch hid') ?_
        rintro - ⟨-, _, -, hok⟩
        exact heq (Except.ok.inj (hok.symm.trans hid))

theorem tracked_step (hs : Reachable (nodeSystem D S threshold) s) (hup : s.node i = .up n)
    (h : Tracked s.trace i { n with effects := [] }) :
    Tracked ((nodeSystem D S threshold).call s i n m).trace i (step S n m).1 := by
  have hq := queues_taken hs hup
  have htrace : ((nodeSystem D S threshold).call s i n m).trace =
    s.trace ++ [⟨i, m, n, (step S n m).1, (step S n m).2⟩] := rfl
  have hconfirm : n.stopped = false →
      ∀ o ∈ (dispatch { n with effects := [] } m).1.core.readOutcomes, ∀ ch,
      OpenedUnder ((nodeSystem D S threshold).call s i n m).trace i o.id ch →
      o.confirmed = true →
        Confirmed ((nodeSystem D S threshold).call s i n m).trace i ch o.index := by
    intro hstop o ho ch hopen hconf
    refine ⟨s.trace.length, _, o, List.getElem?_concat_length, rfl, ?_, hconf, rfl, ?_⟩
    · rw [outcomes, if_neg (by rw [hstop]; exact Bool.noConfusion),
        respond_of_dispatch (hq hstop) rfl]
      exact ho
    · rwa [List.take_of_length_le (by rw [htrace, List.length_append, List.length_singleton])]
  cases hstop : n.stopped with
  | true =>
      have hstep : (step S n m).1 = { n with effects := [] } := by
        unfold step
        rw [if_pos hstop]
      rw [hstep]
      refine ⟨?_, fun w hw => confirmed_concat (h.confirmed w hw) _, (by rintro _ _ ⟨⟩)⟩
      intro id ch hid
      refine openedUnder_concat (h.waiting id ch hid) ?_
      rintro - ⟨hrun, -⟩
      exact Bool.noConfusion (hrun.symm.trans hstop)
  | false =>
      have hd := @tracked_dispatch σ s.trace i ⟨i, m, n, (step S n m).1, (step S n m).2⟩ h rfl hstop
      rw [← htrace] at hd
      refine step_induction (fun hstop' => ?_) (fun _ => hd)
        fun a b hstage => tracked_stage hstage (hconfirm hstop)
      rw [hstop] at hstop'
      cases hstop'

theorem tracked_of_reachable (hs : Reachable (nodeSystem D S threshold) s)
    (hup : s.node i = .up n) : Tracked s.trace i { n with effects := [] } := by
  refine nodes_induction (Q := fun (calls : List (NodeCall σ)) i life =>
    ∀ n, life = .up n → Tracked calls i { n with effects := [] }) ?_ ?_ ?_ ?_ ?_ hs i n hup
  · intro i n h
    cases h
  · intro s i n m hreach ih hup hm _ heq
    cases heq
    exact { tracked_step hreach hup (ih i n hup) with answered := nofun }
  · intro s i n m j life hj h n' heq
    have hold := h n' heq
    refine ⟨?_, fun w hw => confirmed_concat (hold.confirmed w hw) _, nofun⟩
    exact fun id ch hid => openedUnder_concat (hold.waiting id ch hid) fun hk =>
      absurd hk.symm hj
  · intro calls i n _ n' heq
    cases heq
  · intro calls i rng d n _ hboot n' heq
    cases heq
    obtain ⟨c, -, ⟨-, rfl⟩ | ⟨data, sm, -, -, rfl⟩⟩ := newNode_cases hboot <;>
      exact ⟨nofun, nofun, nofun⟩

end Turns

section Cursors

variable {σ : Type} {S : StateMachine σ} {n a b : Node σ} {start : Nat}

def moved (cursor : Nat) : Effect → Nat
  | .restored index => index
  | .applied e => e.index
  | _ => cursor

/-- The apply cursor of a turn after the effects so far. -/
def appliedAt (start : Nat) (effects : List Effect) : Nat :=
  effects.foldl moved start

/-- No read goes ahead before the cursor has reached its index. -/
def Timely : Nat → List Effect → Prop
  | _, [] => True
  | cursor, effect :: effects =>
      (∀ ch index, effect = .readAnswered ch (.ok index) → index ≤ cursor) ∧
        Timely (moved cursor effect) effects

theorem timely_append (effects new : List Effect) :
    Timely start (effects ++ new) ↔ Timely start effects ∧
      Timely (appliedAt start effects) new := by
  induction effects generalizing start with
  | nil => exact ⟨fun h => ⟨trivial, h⟩, fun h => h.2⟩
  | cons effect effects ih =>
      change (_ ∧ Timely (moved start effect) (effects ++ new)) ↔ _
      rw [ih, ← and_assoc]
      rfl

theorem le_of_timely {effects before after : List Effect} {ch : Chan} {index : Nat}
    (h : Timely start effects) (heq : effects = before ++ .readAnswered ch (.ok index) :: after) :
    index ≤ appliedAt start before := by
  rw [heq, timely_append] at h
  exact h.2.1 ch index rfl

/-- The effects of the turn so far explain where the cursor is, and no read has gone ahead
early. -/
structure Timed (start : Nat) (n : Node σ) : Prop where
  applied : n.applied = appliedAt start n.effects
  timely : Timely start n.effects

theorem timed_concat (h : Timed start n) {effect : Effect} (he : a.effects = n.effects ++ [effect])
    (happlied : a.applied = moved n.applied effect)
    (hok : ∀ ch index, effect = .readAnswered ch (.ok index) → index ≤ n.applied) :
    Timed start a where
  applied := by
    rw [happlied, he, appliedAt, List.foldl_append, h.applied]
    rfl
  timely := by
    rw [he, timely_append, ← h.applied]
    exact ⟨h.timely, hok, trivial⟩

theorem timed_fireAppliedWaiters (h : Timed start n) : Timed start (fireAppliedWaiters n) := by
  have hanswers : ∀ ws : List AppliedWaiter, (∀ w ∈ ws, w.index ≤ n.applied) →
      appliedAt n.applied (ws.map fun w => .readAnswered w.respc (.ok w.index)) = n.applied ∧
        Timely n.applied (ws.map fun w => .readAnswered w.respc (.ok w.index)) := by
    intro ws hws
    induction ws with
    | nil => exact ⟨rfl, trivial⟩
    | cons w ws ih =>
        obtain ⟨hat, htimely⟩ := ih fun w' hw' => hws w' (List.mem_cons_of_mem _ hw')
        refine ⟨hat, ?_, htimely⟩
        rintro ch index heq
        cases heq
        exact hws w List.mem_cons_self
  obtain ⟨hat, htimely⟩ := hanswers (n.appliedWaiters.filter fun w => w.index ≤ n.applied)
    fun w hw => of_decide_eq_true (List.mem_filter.mp hw).2
  refine ⟨?_, ?_⟩
  · change n.applied = appliedAt start (n.effects ++ _)
    rw [appliedAt, List.foldl_append]
    change n.applied = appliedAt (appliedAt start n.effects) _
    rw [← h.applied, hat]
  · change Timely start (n.effects ++ _)
    rw [timely_append, ← h.applied]
    exact ⟨h.timely, htimely⟩

theorem timed_resolveRead (h : Timed start n) (r : ReadOutcome) :
    Timed start (resolveRead n r) := by
  unfold resolveRead
  split
  · exact h
  · dsimp only
    split
    · exact timed_concat h rfl rfl nofun
    · split
      · rename_i hle
        refine timed_concat h rfl rfl ?_
        intro ch index heq
        cases heq
        exact hle
      · exact { h with }

theorem timed_dispatch (h : Timed start n) (m : Msg) : Timed start (dispatch n m).1 := by
  have hrec := received_dispatch n m
  generalize (dispatch n m).1 = a at hrec ⊢
  cases hrec with
  | silent | enlisted | registered => exact { h with }
  | answered | refused => exact timed_concat h rfl rfl (by rintro _ _ ⟨⟩)

theorem timed_stage {outcomes : List ReadOutcome} (hstage : Stage S outcomes n a)
    (h : Timed start n) : Timed start a := by
  cases hstage with
  | core => exact { h with }
  | restore | apply => exact timed_concat h rfl rfl (by rintro _ _ ⟨⟩)
  | fire => exact timed_fireAppliedWaiters h
  | answer e =>
      unfold answerWaiter
      split
      · exact h
      · exact timed_concat h rfl rfl (by rintro _ _ ⟨⟩)
  | resolve r => exact timed_resolveRead h r

theorem timed_step (S : StateMachine σ) (n : Node σ) (m : Msg) :
    Timed n.applied (step S n m).1 := by
  have hstart : Timed n.applied { n with effects := [] } := ⟨rfl, trivial⟩
  exact step_induction (fun _ => hstart) (fun _ => timed_dispatch hstart m) fun _ _ => timed_stage

end Cursors

section Runs

variable {σ : Type} {S : StateMachine σ} {D : Deployment} {threshold : ID → Nat}
variable {s : NodeState σ} {k : NodeCall σ} {ch : Chan} {index n : Nat}

theorem eq_of_countP_le_one {α : Type} {p : α → Bool} {l : List α} (h : l.countP p ≤ 1)
    {m m' : Nat} {a b : α} (ha : l[m]? = some a) (hb : l[m']? = some b) (hpa : p a = true)
    (hpb : p b = true) : m = m' := by
  have hnot : ∀ {m m' : Nat} {a b : α}, l[m]? = some a → l[m']? = some b → p a = true →
      p b = true → ¬ m < m' := by
    intro m m' a b ha hb hpa hpb hlt
    rw [← List.take_append_drop m' l, List.countP_append] at h
    have hbefore : 0 < (l.take m').countP p :=
      List.countP_pos_iff.mpr ⟨a, mem_take_of_lt ha hlt, hpa⟩
    have hafter : 0 < (l.drop m').countP p := by
      refine List.countP_pos_iff.mpr ⟨b, List.mem_of_getElem? (i := 0) ?_, hpb⟩
      rw [List.getElem?_drop]
      exact hb
    omega
  have := hnot ha hb hpa hpb
  have := hnot hb ha hpb hpa
  omega

theorem confirmed_of_answered (hs : Reachable (nodeSystem D S threshold) s)
    (hk : s.trace[n]? = some k) (he : Effect.readAnswered ch (.ok index) ∈ k.post.effects) :
    Confirmed (s.trace.take (n + 1)) k.node ch index := by
  obtain ⟨s₀, hmade, htrace⟩ := exists_madeIn hs hk
  have htracked := tracked_step (m := k.input) hmade.reachable hmade.up
    (tracked_of_reachable hmade.reachable hmade.up)
  rw [trace_upto hmade htrace hk] at htracked
  rw [show k.post = (step S k.pre k.input).1 from hmade.post] at he
  exact htracked.answered ch index he

/-- A read that is told to go ahead was registered before, at an index that bounds whatever had
been committed by a leader and whatever had been delivered anywhere by then. -/
theorem bounds_of_answered (hs : Reachable (nodeSystem D S threshold) s) (hfull : RegularNodes D s)
    (hk : s.trace[n]? = some k) (he : Effect.readAnswered ch (.ok index) ∈ k.post.effects) :
    ∃ (m : Nat) (k₀ : NodeCall σ), m ≤ n ∧ s.trace[m]? = some k₀ ∧ k₀.node = k.node ∧
      k₀.input = .read ch ∧ (∃ id, RegistersRead k₀ id) ∧ ∀ p < m, ∀ k₁, s.trace[p]? = some k₁ →
        (LeaderCommits k₁ → k₁.post.core.commitIndex ≤ index) ∧
          ∀ e ∈ delivered k₁, e.index ≤ index := by
  obtain ⟨n', k', o, hk', hnode', ho, hconf, rfl, hopen⟩ := confirmed_of_answered hs hk he
  have hn' : n' ≤ n := by
    have := (List.getElem?_eq_some_iff.mp hk').1
    rw [List.length_take] at this
    omega
  rw [List.take_take, min_eq_left (by omega)] at hopen
  have hk'' := getElem?_of_take hk'
  obtain ⟨s₀, hmade, htrace⟩ := exists_madeIn hs hk''
  have hcall := trace_upto hmade htrace hk''
  have hfull' : RegularNodes D ((nodeSystem D S threshold).call s₀ k'.node k'.pre k'.input) :=
    hfull.part (hcall ▸ List.take_subset _ _)
  have hlast : ((nodeSystem D S threshold).call s₀ k'.node k'.pre k'.input).trace =
      s.trace.take n' ++ [k'] := by
    rw [hcall, List.take_add_one, hk'']
    rfl
  obtain ⟨m, k₀, hk₀, hnode, hin, hreg, hbound⟩ := bounds_of_confirmed
    (reachable_call hmade.reachable hmade.up hmade.enabled) hfull' hlast ho hconf
    (by rw [hcall, hnode']; exact hopen)
  rw [hcall] at hk₀ hbound
  have hm : m ≤ n' := by
    have := (List.getElem?_eq_some_iff.mp hk₀).1
    rw [List.length_take] at this
    omega
  refine ⟨m, k₀, by omega, getElem?_of_take hk₀, hnode.trans hnode', hin, hreg, ?_⟩
  intro p hp k₁ hk₁
  refine hbound p hp k₁ ?_
  rw [List.getElem?_take, if_pos (by omega)]
  exact hk₁

theorem covers_of_answered (hs : Reachable (nodeSystem D S threshold) s) (hfull : RegularNodes D s)
    (hk : s.trace[n]? = some k) (he : Effect.readAnswered ch (.ok index) ∈ k.post.effects) :
    Covers (s.trace.take (n + 1)) k.node ch index := by
  obtain ⟨m, k₀, hm, hk₀, hnode, hin, hreg, hbound⟩ := bounds_of_answered hs hfull hk he
  have htake : ∀ {p : Nat} {k₁ : NodeCall σ}, p ≤ m → s.trace[p]? = some k₁ →
      (s.trace.take (n + 1))[p]? = some k₁ := by
    intro p k₁ hp hk₁
    rw [List.getElem?_take, if_pos (by omega)]
    exact hk₁
  refine ⟨m, k₀, htake le_rfl hk₀, hnode, hin, hreg, ?_⟩
  intro p hp k₁ hk₁
  exact (hbound p hp k₁ (getElem?_of_take hk₁)).1

/-- With one membership, and no command too long to be read back, a read that is told to go
ahead was registered before; and when it is told, the apply cursor of its node has reached
whatever leaders of any term had committed by then. If the channel carries one read only, that
is the read. -/
theorem reads_reflect_commits (hs : Reachable (nodeSystem D S threshold) s)
    (hfix : FixedNodes D s) (hbound : BoundedNodes s)
    (hk : s.trace[n]? = some k) {before after : List Effect}
    (heffects : k.post.effects = before ++ .readAnswered ch (.ok index) :: after) :
    (∃ m k₀, m ≤ n ∧ s.trace[m]? = some k₀ ∧ k₀.node = k.node ∧ k₀.input = .read ch ∧
      (∃ id, RegistersRead k₀ id) ∧
      ∀ p < m, ∀ k₁, s.trace[p]? = some k₁ → LeaderCommits k₁ →
        k₁.post.core.commitIndex ≤ appliedAt k.pre.applied before) ∧
    (openedBy k.node ch s.trace ≤ 1 → ∀ (m : Nat) k₀, s.trace[m]? = some k₀ →
      k₀.node = k.node → k₀.input = .read ch →
      ∀ p < m, ∀ k₁, s.trace[p]? = some k₁ → LeaderCommits k₁ →
        k₁.post.core.commitIndex ≤ appliedAt k.pre.applied before) := by
  have htimely : Timely k.pre.applied k.post.effects := by
    obtain ⟨s₀, hmade, -⟩ := exists_madeIn hs hk
    rw [show k.post = (step S k.pre k.input).1 from hmade.post]
    exact (timed_step S k.pre k.input).timely
  have hindex := le_of_timely htimely heffects
  obtain ⟨m, k₀, hk₀, hnode, hin, hreg, hcover⟩ := covers_of_answered hs ⟨hfix, hbound⟩ hk
    (heffects ▸ List.mem_append_right _ List.mem_cons_self)
  have hm : m ≤ n := by
    have := (List.getElem?_eq_some_iff.mp hk₀).1
    rw [List.length_take] at this
    omega
  have hreached : ∀ p < m, ∀ k₁, s.trace[p]? = some k₁ → LeaderCommits k₁ →
      k₁.post.core.commitIndex ≤ appliedAt k.pre.applied before := by
    intro p hp k₁ hk₁ hcommits
    refine (hcover p hp k₁ ?_ hcommits).trans hindex
    rw [List.getElem?_take, if_pos (by omega)]
    exact hk₁
  refine ⟨⟨m, k₀, hm, getElem?_of_take hk₀, hnode, hin, hreg, hreached⟩, ?_⟩
  intro honce m' k' hk' hnode' hin'
  have hsame : m' = m :=
    eq_of_countP_le_one honce hk' (getElem?_of_take hk₀) (by simpa using ⟨hnode', hin'⟩)
      (by simpa using ⟨hnode, hin⟩)
  rw [hsame]
  exact hreached

/-- Node 1 leads and commits; node 2 takes over, commits, takes a read and hears from node 1. -/
def readAfterSuccession : List (Action ID Msg (Nat → Nat)) :=
  [.restart 1 fun _ => 0, .restart 2 fun _ => 0, .restart 3 fun _ => 0, .act 1 .tick, .deliver 0,
    .deliver 2, .deliver 3, .deliver 5, .act 2 .tick, .deliver 6, .deliver 8, .deliver 9,
    .deliver 11, .act 2 (.read 7), .deliver 12, .deliver 14]

theorem reads_reflect_commits_succession :
    ∃ s, Reachable (nodeSystem trio journal fun _ => 0) s ∧ FixedNodes trio s ∧ BoundedNodes s ∧
      ∃ k, s.trace[12]? = some k ∧ k.post.effects = [.readAnswered 7 (.ok 2)] ∧
        ∃ k₁, s.trace[4]? = some k₁ ∧ k₁.node ≠ k.node ∧ LeaderCommits k₁ ∧
          k₁.post.core.commitIndex ≤ appliedAt k.pre.applied [] := by
  obtain ⟨s, hs, hcalm, hbound, hopened, ⟨k, hk, hnode, heffects⟩, ⟨k₀, hk₀, hnode₀, hin⟩, k₁,
      hk₁, hnode₁, hcommits⟩ :=
    exists_of_run (nodeSystem trio journal fun _ => 0) readAfterSuccession (fun s =>
      UnchangingNodes s ∧ BoundedNodes s ∧ openedBy 2 7 s.trace = 1 ∧
      (∃ k ∈ s.trace[12]?, k.node = 2 ∧ k.post.effects = [.readAnswered 7 (.ok 2)]) ∧
      (∃ k₀ ∈ s.trace[10]?, k₀.node = 2 ∧ k₀.input = .read 7) ∧
      ∃ k₁ ∈ s.trace[4]?, k₁.node = 1 ∧ LeaderCommits k₁) (by decide +kernel)
  have hfix : FixedNodes trio s := ⟨uniform_trio, hcalm⟩
  have hreads := (reads_reflect_commits hs hfix hbound hk
    (show k.post.effects = [] ++ .readAnswered 7 (.ok 2) :: [] from heffects)).2
  rw [hnode] at hreads
  refine ⟨s, hs, hfix, hbound, k, hk, heffects, k₁, hk₁, ?_, hcommits,
    hreads hopened.le 10 k₀ hk₀ hnode₀ hin 4 (by decide) k₁ hk₁ hcommits⟩
  rw [hnode, hnode₁]
  decide

/-- Node 1 commits a command too long to be read back and another one behind it, restarts,
commits in its new term and takes a read. -/
def readAfterLoss : List (Action ID Msg (Nat → Nat)) :=
  [.restart 1 fun _ => 0, .act 1 .tick, .act 1 (.propose oversize 7),
    .act 1 (.propose (oneByte 65) 8), .crash 1, .restart 1 fun _ => 0, .act 1 .tick,
    .act 1 (.read 9)]

theorem reads_reflect_commits_oversize :
    ∃ s, Reachable (nodeSystem lone journal fun _ => 0) s ∧ FixedNodes lone s ∧
      ∃ k, s.trace[4]? = some k ∧ k.input = .read 9 ∧ RegistersRead k 1 ∧
        openedBy k.node 9 s.trace = 1 ∧ k.post.effects = [.readAnswered 9 (.ok 2)] ∧
        ∃ k₁, s.trace[2]? = some k₁ ∧ LeaderCommits k₁ ∧
          appliedAt k.pre.applied [] < k₁.post.core.commitIndex := by
  obtain ⟨s, hs, hcalm, k, hk, hin, hstop, hreg, honce, heffects, k₁, hk₁, hcommits, hlt⟩ :=
    exists_of_run (nodeSystem lone journal fun _ => 0) readAfterLoss (fun s =>
      UnchangingNodes s ∧ ∃ k ∈ s.trace[4]?, k.input = .read 9 ∧ k.pre.stopped = false ∧
        (requestRead k.pre.core).2 = .ok 1 ∧ openedBy k.node 9 s.trace = 1 ∧
        k.post.effects = [.readAnswered 9 (.ok 2)] ∧
        ∃ k₁ ∈ s.trace[2]?, LeaderCommits k₁ ∧
          appliedAt k.pre.applied [] < k₁.post.core.commitIndex) (by decide +kernel)
  exact ⟨s, hs, ⟨uniform_lone, hcalm⟩, k, hk, hin, ⟨hstop, 9, hin, hreg⟩, honce, heffects, k₁, hk₁,
    hcommits, hlt⟩

end Runs

end RaftKV.Safety.LinearizableReads
