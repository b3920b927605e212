import RaftKV.Raft.ReadLedgers
import RaftKV.Safety.Proposals

namespace RaftKV.Safety.ReadOutcomes

open Distributed.Network
open Raft Raft.Durability Raft.Moves Raft.Cluster Raft.Barriers Raft.Provenance
open Raft.ReadLedgers Raft.EventLoop
open Refinement.Relation Refinement.Projection
open Safety.Elections Safety.FixedMembership Safety.Proposals

section Cores

variable {D : Deployment} {s : CoreState} {i : ID} {c : Core} {x : Input}

theorem claimedTerm_ne (hs : Reachable (coreSystem D) s) (hfix : FixedMembership D s)
    (hup : s.node i = .up c) (hx : Enabled (coreSystem D) s i x) (hrole : c.role = .leader) :
    claimedTerm x ≠ some c.term := by
  intro hterm
  rcases hx with hlocal | ⟨p, hp, hdest, rfl⟩
  · cases x with
    | deliver p => cases hlocal
    | compact index data => cases hterm
    | client ev => cases ev <;> first | cases hterm | cases hlocal
  · have hclaim := @unrivalled D s i c hs hfix hup hrole p hp hdest
    obtain ⟨src, dest, payload⟩ := p
    cases payload with
    | request msg => cases msg <;> exact hclaim rfl hterm
    | voteResp | appendResp | snapshotResp => cases hterm

/-- The read `r` of node `i` was registered in the term that `c` is in, and its number has
not been given out since. -/
def RegisteredNow (calls : List CoreCall) (i : ID) (c : Core) (r : PendingRead) : Prop :=
  ∃ m k, calls[m]? = some k ∧ k.node = i ∧ Registers k r.id r.index ∧ k.pre.term = c.term ∧
    ∀ (m' : Nat) (k' : CoreCall), m < m' → calls[m']? = some k' → k'.node = i →
      ∀ index, ¬ Registers k' r.id index

theorem registeredNow_concat {calls : List CoreCall} {c' : Core} {r : PendingRead}
    (h : RegisteredNow calls i c r) (hterm : c'.term = c.term) {k : CoreCall}
    (hk : k.node = i → ∀ index, ¬ Registers k r.id index) :
    RegisteredNow (calls ++ [k]) i c' r := by
  obtain ⟨m, k₀, hk₀, hnode, hreg, heq, hlast⟩ := h
  refine ⟨m, k₀, getElem?_concat_of_some hk₀, hnode, hreg, heq.trans hterm.symm, ?_⟩
  intro m' k' hlt hk' hnode'
  rcases getElem?_concat_cases hk' with hold | ⟨-, rfl⟩
  · exact hlast m' k' hlt hold hnode'
  · exact hk hnode'

theorem pending_of_fixed (hs : Reachable (coreSystem D) s) (hfix : FixedMembership D s)
    (hup : s.node i = .up c) :
    ∀ r ∈ c.pendingReads, c.role = .leader ∧ RegisteredNow s.trace i c r := by
  have hD := hfix.uniform
  refine nodes_induction
    (Q := fun calls i life => (∀ k ∈ calls, changesMembership k.input = false) →
      ∀ c, life = .up c → ∀ r ∈ c.pendingReads, c.role = .leader ∧ RegisteredNow calls i c r)
    ?_ ?_ ?_ ?_ ?_ hs i hfix.unchanging c hup
  · intro i _ c h
    cases h
  · intro s i c x hreach ih hup hx hfix _ heq r hr
    cases heq
    have hfix₀ : FixedMembership D s :=
      ⟨hD, fun k hk => hfix k (List.mem_append_left _ hk)⟩
    have hold := ih i hfix₀.unchanging c hup
    have hlead : c.pendingReads ≠ [] → c.role = .leader := by
      intro hne
      obtain ⟨r₀, hr₀⟩ := List.exists_mem_of_ne_nil _ hne
      exact (hold r₀ hr₀).1
    obtain ⟨hrole, hrole', hterm⟩ := standing_respond hlead (claimedTerm_ne hreach hfix₀ hup hx)
      (List.ne_nil_of_mem hr)
    refine ⟨hrole', ?_⟩
    -- A number that is pending is not given out again.
    have hkept : ∀ r₀ ∈ c.pendingReads, r.id = r₀.id → r.index = r₀.index →
        RegisteredNow ((coreSystem D).call s i c x).trace i (respond c x).1 r := by
      intro r₀ hr₀ hid hindex
      have hw : Waits s.trace i (.up c) := hup ▸ waits hreach i
      unfold RegisteredNow
      rw [hid, hindex]
      refine registeredNow_concat (hold r₀ hr₀).2 hterm fun _ index hreg => ?_
      have hle := (hw r₀ hr₀).1
      have hnew : r₀.id = c.readCounter + 1 := hreg.id
      omega
    cases (accounted_respond (isLocal_or_deliver hx)).pending r hr with
    | kept hmem => exact hkept r hmem rfl rfl
    | acked hmem => exact hkept _ hmem rfl rfl
    | registered hin hl hown =>
        refine ⟨s.trace.length, _, getElem?_trace_call s i c x, rfl, ⟨hin, hl, hown, rfl, rfl⟩,
          hterm.symm, ?_⟩
        intro m' k' hlt hk'
        have := (List.getElem?_eq_some_iff.mp hk').1
        rw [trace_call, List.length_append, List.length_singleton] at this
        omega
  · intro s i c x j life hj h hfix c' heq r hr
    obtain ⟨hrole, hreg⟩ := h (fun k hk => hfix k (List.mem_append_left _ hk)) c' heq r hr
    exact ⟨hrole, registeredNow_concat hreg rfl fun hnode => absurd hnode.symm hj⟩
  · intro calls i c _ _ c' heq
    cases heq
  · intro calls i rng d c _ hboot _ c' heq r hr
    cases heq
    obtain ⟨-, M, entries, -, -, rfl⟩ := newCore_cases (newCore_of_boot hboot)
    exact absurd hr List.not_mem_nil

end Cores

section Turns

variable {σ : Type} {S : StateMachine σ} {n n₀ : Node σ} {i : ID} {calls : List (NodeCall σ)}
variable {k : NodeCall σ} {id : Nat}

def readState (c : Core) : List PendingRead × Nat × Role × Nat :=
  (c.pendingReads, c.readCounter, c.role, c.term)

theorem readState_step (hq : takeQueues n.core = n.core) (hstop : n.stopped = false) (m : Msg) :
    readState (step S n m).1.core = readState (respond n.core m.input).1 := by
  rcases core_step (S := S) hq hstop m with heq | heq | ⟨data, heq⟩ <;> rw [heq]
  · rfl
  · rcases compact_cases (takeQueues (respond n.core m.input).1) (step S n m).1.applied data with
      hc | ⟨-, -, hc⟩ <;> rw [hc] <;> rfl

def outcomes (k : NodeCall σ) : List ReadOutcome :=
  if k.pre.stopped then [] else (respond k.pre.core k.input.input).1.readOutcomes

def outcomesOf (i : ID) (calls : List (NodeCall σ)) : List ReadOutcome :=
  (calls.filter fun k => k.node = i).flatMap outcomes

/-- The turn registers a read under the number `id`. -/
def RegistersRead (k : NodeCall σ) (id : Nat) : Prop :=
  k.pre.stopped = false ∧ ∃ respc, k.input = .read respc ∧ (requestRead k.pre.core).2 = .ok id

/-- What a turn does to the reads of its core. -/
structure Turned (k : NodeCall σ) : Prop where
  stopped : k.pre.stopped = true → k.post.core = k.pre.core
  queues : k.pre.stopped = false → takeQueues k.pre.core = k.pre.core
  running : k.pre.stopped = false →
    readState k.post.core = readState (respond k.pre.core k.input.input).1

theorem outcomesOf_append (i : ID) (before after : List (NodeCall σ)) :
    outcomesOf i (before ++ after) = outcomesOf i before ++ outcomesOf i after := by
  unfold outcomesOf
  rw [List.filter_append, List.flatMap_append]

theorem outcomesOf_own (hk : k.node = i) :
    outcomesOf i (calls ++ [k]) = outcomesOf i calls ++ outcomes k := by
  rw [outcomesOf_append]
  simp [outcomesOf, hk]

theorem outcomesOf_other (hk : k.node ≠ i) : outcomesOf i (calls ++ [k]) = outcomesOf i calls := by
  rw [outcomesOf_append]
  simp [outcomesOf, hk]

theorem perm_of_turned (h : Turned k) :
    k.pre.core.readCounter ≤ k.post.core.readCounter ∧
      ((outcomes k).map ReadOutcome.id ++ k.post.core.pendingReads.map PendingRead.id).Perm
        (k.pre.core.pendingReads.map PendingRead.id ++
          List.range' (k.pre.core.readCounter + 1)
            (k.post.core.readCounter - k.pre.core.readCounter)) := by
  unfold outcomes
  cases hstop : k.pre.stopped with
  | true =>
      rw [h.stopped hstop, Nat.sub_self]
      exact ⟨le_rfl, by simp⟩
  | false =>
      have hb := readsAccounted_respond k.pre.core k.input.input
      have hread := h.running hstop
      have hp : k.post.core.pendingReads = _ := congrArg Prod.fst hread
      have hr : k.post.core.readCounter = _ := congrArg (fun t => t.2.1) hread
      rw [hp, hr]
      exact ⟨hb.counter, hb.ids⟩

theorem requestRead_eq_ok {c : Core} (h : (requestRead c).2 = .ok id) :
    c.role = .leader ∧ termAt c c.commitIndex = c.term ∧ id = c.readCounter + 1 := by
  have hrole : c.role = .leader := by
    by_contra hne
    rw [requestRead, if_pos hne] at h
    cases h
  have hterm : termAt c c.commitIndex = c.term := by
    by_contra hne
    rw [requestRead, if_neg (not_not.mpr hrole), if_pos hne] at h
    cases h
  rw [requestRead, if_neg (not_not.mpr hrole), if_neg (not_not.mpr hterm)] at h
  exact ⟨hrole, hterm, (Except.ok.inj h).symm⟩

theorem id_of_registersRead (h : Turned k) (hreg : RegistersRead k id) :
    id = k.pre.core.readCounter + 1 ∧ k.post.core.readCounter = k.pre.core.readCounter + 1 := by
  obtain ⟨hstop, respc, hin, hok⟩ := hreg
  obtain ⟨hrole, hterm, hid⟩ := requestRead_eq_ok hok
  have hacc : Accounted k.pre.core k.input.input (respond k.pre.core k.input.input).1 := by
    rw [hin]
    exact accounted_respond (Or.inl rfl)
  have hread : k.post.core.readCounter = _ := congrArg (fun t => t.2.1) (h.running hstop)
  refine ⟨hid, hread.trans (hacc.registered ?_ hrole hterm)⟩
  rw [hin]
  rfl

/-- The account of one life: every number handed out is pending or has one outcome. -/
structure Tally (i : ID) (calls : List (NodeCall σ)) (n : Node σ) : Prop where
  ids : ((outcomesOf i calls).map ReadOutcome.id ++
    n.core.pendingReads.map PendingRead.id).Perm (List.range' 1 n.core.readCounter)
  registered : ∀ k ∈ calls, k.node = i → ∀ id, RegistersRead k id →
    0 < id ∧ id ≤ n.core.readCounter

theorem tally_of_lived (hn₀ : n₀.core.pendingReads = [] ∧ n₀.core.readCounter = 0)
    (hturned : ∀ k ∈ calls, Turned k) (h : Lived i n₀ calls n) : Tally i calls n := by
  induction h with
  | start =>
      refine ⟨?_, fun k hk => absurd hk List.not_mem_nil⟩
      rw [hn₀.1, hn₀.2]
      exact List.Perm.refl _
  | own k h hk ih =>
      have hold := ih fun j hj => hturned j (List.mem_append_left _ hj)
      have hturn := hturned k List.mem_concat_self
      obtain ⟨hle, hperm⟩ := perm_of_turned hturn
      refine ⟨?_, ?_⟩
      · rw [outcomesOf_own hk, List.map_append, List.append_assoc]
        refine (hperm.append_left _).trans ?_
        rw [← List.append_assoc]
        refine (hold.ids.append_right _).trans ?_
        rw [show k.pre.core.readCounter + 1 = 1 + 1 * k.pre.core.readCounter by omega,
          List.range'_append, Nat.add_sub_of_le hle]
      · intro j hj hnode id hreg
        rcases List.mem_append.mp hj with hj | hj
        · obtain ⟨hpos, hid⟩ := hold.registered j hj hnode id hreg
          exact ⟨hpos, hid.trans hle⟩
        · obtain rfl := List.mem_singleton.mp hj
          obtain ⟨rfl, hcount⟩ := id_of_registersRead hturn hreg
          exact ⟨Nat.succ_pos _, hcount.ge⟩
  | other k h hk ih =>
      have hold := ih fun j hj => hturned j (List.mem_append_left _ hj)
      refine ⟨?_, ?_⟩
      · rw [outcomesOf_other hk]
        exact hold.ids
      · intro j hj hnode
        rcases List.mem_append.mp hj with hj | hj
        · exact hold.registered j hj hnode
        · rw [List.mem_singleton.mp hj] at hnode
          exact absurd hnode hk

theorem count_outcomes_le (h : Tally i calls n) (id : Nat) :
    (outcomesOf i calls).countP (fun o => o.id = id) ≤ 1 := by
  have hnodup := h.ids.nodup_iff.mpr (List.nodup_range' (s := 1) (n := n.core.readCounter))
  have hle := List.nodup_iff_count_le_one.mp hnodup.of_append_left id
  rwa [List.count_eq_countP, List.countP_map] at hle

theorem count_outcomes_eq (h : Tally i calls n) (hk : k ∈ calls) (hnode : k.node = i)
    (hreg : RegistersRead k id) (hdone : id ∉ n.core.pendingReads.map PendingRead.id) :
    (outcomesOf i calls).countP (fun o => o.id = id) = 1 := by
  refine le_antisymm (count_outcomes_le h id) ?_
  obtain ⟨hpos, hle⟩ := h.registered k hk hnode id hreg
  have hmem : id ∈ List.range' 1 n.core.readCounter := List.mem_range'_1.mpr ⟨hpos, by omega⟩
  obtain ⟨o, ho, rfl⟩ := List.mem_map.mp
    ((List.mem_append.mp (h.ids.mem_iff.mpr hmem)).resolve_right hdone)
  exact List.countP_pos_iff.mpr ⟨o, ho, by simp⟩

theorem no_more_outcomes {before after : List (NodeCall σ)} (h : Tally i (before ++ after) n)
    (hone : (outcomesOf i before).countP (fun o => o.id = id) = 1) (hk : k ∈ after)
    (hnode : k.node = i) {o : ReadOutcome} (ho : o ∈ outcomes k) : o.id ≠ id := by
  intro hid
  have hle := count_outcomes_le h id
  rw [outcomesOf_append, List.countP_append, hone] at hle
  have hmem : o ∈ outcomesOf i after :=
    List.mem_flatMap.mpr ⟨k, List.mem_filter.mpr ⟨hk, by simpa using hnode⟩, ho⟩
  have hpos : 0 < (outcomesOf i after).countP (fun o => o.id = id) :=
    List.countP_pos_iff.mpr ⟨o, hmem, by simpa using hid⟩
  omega

def Leads (n : Node σ) (term : Nat) : Prop :=
  n.core.role = .leader ∧ n.core.term = term

theorem leads_of_lived (hn₀ : n₀.core.pendingReads = [] ∧ n₀.core.readCounter = 0)
    (hturned : ∀ k ∈ calls, Turned k)
    (hstanding : ∀ k ∈ calls, k.pre.stopped = false →
      Standing k.pre.core (respond k.pre.core k.input.input).1)
    (h : Lived i n₀ calls n) :
    ∀ k ∈ calls, k.node = i → ∀ id, RegistersRead k id →
      id ∈ n.core.pendingReads.map PendingRead.id → Leads n k.pre.core.term := by
  induction h with
  | start => exact fun k hk => absurd hk List.not_mem_nil
  | @own calls k h hk ih =>
      have hturned' : ∀ j ∈ calls, Turned j := fun j hj => hturned j (List.mem_append_left _ hj)
      have hold := ih hturned' fun j hj => hstanding j (List.mem_append_left _ hj)
      have htally := tally_of_lived hn₀ hturned' h
      have hlast : k ∈ calls ++ [k] := List.mem_concat_self
      have hturn := hturned k hlast
      intro j hj hnode id hreg hpend
      have hrun : k.pre.stopped = false →
          k.post.core.role = .leader ∧ k.post.core.term = k.pre.core.term := by
        intro hstop
        have hread := hturn.running hstop
        have hp : k.post.core.pendingReads = (respond k.pre.core k.input.input).1.pendingReads :=
          congrArg Prod.fst hread
        have hrole : k.post.core.role = _ := congrArg (fun t => t.2.2.1) hread
        have hterm : k.post.core.term = _ := congrArg (fun t => t.2.2.2) hread
        have hne : k.post.core.pendingReads ≠ [] := fun hnil => by
          rw [hnil] at hpend
          exact absurd hpend List.not_mem_nil
        rw [hrole, hterm]
        exact (hstanding k hlast hstop (hp ▸ hne)).2
      rcases List.mem_append.mp hj with hj | hj
      · -- A number that was there before the turn is not a new one.
        have hid := (htally.registered j hj hnode id hreg).2
        have hmem := (perm_of_turned hturn).2.mem_iff.mp (List.mem_append_right _ hpend)
        have hpre : id ∈ k.pre.core.pendingReads.map PendingRead.id := by
          refine (List.mem_append.mp hmem).resolve_right fun hnew => ?_
          have := (List.mem_range'_1.mp hnew).1
          omega
        obtain ⟨hrole, hterm⟩ := hold j hj hnode id hreg hpre
        cases hstop : k.pre.stopped with
        | true =>
            unfold Leads
            rw [hturn.stopped hstop]
            exact ⟨hrole, hterm⟩
        | false => exact ⟨(hrun hstop).1, (hrun hstop).2.trans hterm⟩
      · obtain rfl := List.mem_singleton.mp hj
        exact hrun hreg.1
  | other k h hk ih =>
      intro j hj hnode
      rcases List.mem_append.mp hj with hj | hj
      · exact ih (fun j hj => hturned j (List.mem_append_left _ hj))
          (fun j hj => hstanding j (List.mem_append_left _ hj)) j hj hnode
      · rw [List.mem_singleton.mp hj] at hnode
        exact absurd hnode hk

theorem resolved_of_lived (hn₀ : n₀.core.pendingReads = [] ∧ n₀.core.readCounter = 0)
    (hturned : ∀ k ∈ calls, Turned k)
    (hstanding : ∀ k ∈ calls, k.pre.stopped = false →
      Standing k.pre.core (respond k.pre.core k.input.input).1)
    (h : Lived i n₀ calls n) (hk : k ∈ calls) (hnode : k.node = i) (hreg : RegistersRead k id)
    (hlost : ¬ Leads n k.pre.core.term) :
    (outcomesOf i calls).countP (fun o => o.id = id) = 1 :=
  count_outcomes_eq (tally_of_lived hn₀ hturned h) hk hnode hreg fun hpend =>
    hlost (leads_of_lived hn₀ hturned hstanding h k hk hnode id hreg hpend)

end Turns

section Answers

variable {σ : Type} {S : StateMachine σ} {n a b : Node σ} {m : Msg} {ch : Chan}
variable {told opened : Nat}

/-- The answers to a read on channel `ch`. -/
def reading (ch : Chan) : Effect → Bool
  | .readAnswered respc _ => respc = ch
  | _ => false

/-- How often a read on channel `ch` has been answered in this turn or waits for the apply
cursor. -/
def served (ch : Chan) (n : Node σ) : Nat :=
  n.effects.countP (reading ch) + n.appliedWaiters.countP fun w => w.respc = ch

/-- A channel on which `opened` reads came in and `told` answers went out before this turn
is not served too often. -/
structure Account (ch : Chan) (told opened : Nat) (n : Node σ) : Prop where
  unique : ∀ id id', n.readWaiters id = some ch → n.readWaiters id' = some ch → id = id'
  waiting : ∀ id, n.readWaiters id = some ch → told + served ch n < opened
  total : told + served ch n ≤ opened

theorem account_of_served (h : Account ch told opened n)
    (hw : ∀ id, a.readWaiters id = some ch → n.readWaiters id = some ch)
    (hs : served ch a = served ch n) : Account ch told opened a where
  unique := fun id id' hid hid' => h.unique id id' (hw id hid) (hw id' hid')
  waiting := by
    intro id hid
    rw [hs]
    exact h.waiting id (hw id hid)
  total := by
    rw [hs]
    exact h.total

theorem served_emit (n : Node σ) (effect : Effect) :
    served ch (emit n effect) = served ch n + if reading ch effect then 1 else 0 := by
  unfold served emit
  rw [List.countP_append, List.countP_singleton]
  exact Nat.add_right_comm _ _ _

theorem served_readAnswered (n : Node σ) (respc : Chan) (r : Except NodeError Nat) :
    served ch (emit n (.readAnswered respc r)) = served ch n + if respc = ch then 1 else 0 := by
  simp [served_emit, reading]

theorem account_append (h : Account ch told opened n) {effect : Effect}
    (hw : a.readWaiters = n.readWaiters) (hap : a.appliedWaiters = n.appliedWaiters)
    (he : a.effects = n.effects ++ [effect]) (hno : reading ch effect = false) :
    Account ch told opened a := by
  refine account_of_served h (fun id hid => hw ▸ hid) ?_
  unfold served
  rw [he, hap, List.countP_append, List.countP_singleton, hno]
  rfl

theorem account_fireAppliedWaiters (h : Account ch told opened n) :
    Account ch told opened (fireAppliedWaiters n) := by
  refine account_of_served h (fun _ hid => hid) ?_
  have hsplit := List.countP_eq_countP_filter_add n.appliedWaiters
    (fun w => decide (w.respc = ch)) (fun w => decide (w.index ≤ n.applied))
  unfold served fireAppliedWaiters
  rw [List.countP_append, List.countP_map, hsplit, Nat.add_assoc]
  simp only [decide_not, ← not_le]
  rfl

theorem account_answerWaiter (h : Account ch told opened n) (e : Entry) :
    Account ch told opened (answerWaiter n e) := by
  unfold answerWaiter
  split
  · exact h
  · exact account_append h rfl rfl rfl rfl

theorem account_resolveRead (h : Account ch told opened n) (r : ReadOutcome) :
    Account ch told opened (resolveRead n r) := by
  unfold resolveRead
  cases hw : n.readWaiters r.id with
  | none => exact h
  | some respc =>
      have hsub : ∀ id, Function.update n.readWaiters r.id none id = some ch →
          id ≠ r.id ∧ n.readWaiters id = some ch := by
        intro id hid
        by_cases hr : id = r.id
        · rw [hr, Function.update_self] at hid
          cases hid
        · rw [Function.update_of_ne hr] at hid
          exact ⟨hr, hid⟩
      -- The channel leaves the table; if it is `ch`, nothing else waits there.
      have hmoved : ∀ a : Node σ, a.readWaiters = Function.update n.readWaiters r.id none →
          served ch a = served ch n + (if respc = ch then 1 else 0) →
          Account ch told opened a := by
        intro a ha hserved
        by_cases hch : respc = ch
        · subst hch
          have hlt := h.waiting _ hw
          have hnone : ∀ id, a.readWaiters id ≠ some respc := by
            intro id hid
            rw [ha] at hid
            exact (hsub id hid).1 (h.unique id r.id (hsub id hid).2 hw)
          rw [if_pos rfl] at hserved
          refine ⟨fun id _ hid => absurd hid (hnone id), fun id hid => absurd hid (hnone id), ?_⟩
          omega
        · rw [if_neg hch] at hserved
          exact account_of_served h (fun id hid => (hsub id (ha ▸ hid)).2) hserved
      dsimp only
      split
      · exact hmoved _ rfl (served_readAnswered _ _ _)
      · split
        · exact hmoved _ rfl (served_readAnswered _ _ _)
        · refine hmoved _ rfl ?_
          simp [served, List.countP_append, List.countP_singleton, Nat.add_assoc]

theorem account_weaken (h : Account ch told opened n) {opened' : Nat} (hle : opened ≤ opened') :
    Account ch told opened' n where
  unique := h.unique
  waiting := fun id hid => (h.waiting id hid).trans_le hle
  total := h.total.trans hle

theorem account_dispatch (h : Account ch told opened n) (hopen : m = .read ch → opened = 0) :
    Account ch told (opened + if m = .read ch then 1 else 0) (dispatch n m).1 := by
  have hsame : ∀ a : Node σ, a.readWaiters = n.readWaiters → served ch a = served ch n →
      Account ch told (opened + if m = .read ch then 1 else 0) a := by
    intro a hw hs
    exact account_weaken (account_of_served h (fun id hid => hw ▸ hid) hs) (Nat.le_add_right _ _)
  have hnone : m = .read ch → ∀ id, n.readWaiters id ≠ some ch := by
    intro hm id hid
    have := h.waiting id hid
    have := hopen hm
    omega
  have hrec := received_dispatch n m
  generalize (dispatch n m).1 = a at hrec ⊢
  cases hrec with
  | silent | enlisted => exact hsame _ rfl rfl
  | answered c done r =>
      refine hsame _ rfl ?_
      rw [served_emit]
      rfl
  | refused c respc err =>
      by_cases hch : respc = ch
      · subst hch
        have hnone := hnone rfl
        refine ⟨fun id _ hid => absurd hid (hnone id), fun id hid => absurd hid (hnone id), ?_⟩
        rw [if_pos rfl, served_readAnswered, if_pos rfl]
        exact Nat.add_le_add_right h.total 1
      · refine hsame _ rfl ?_
        rw [served_readAnswered, if_neg hch]
        rfl
  | registered c respc id =>
      by_cases hch : respc = ch
      · subst hch
        have honly : ∀ id', Function.update n.readWaiters id (some respc) id' = some respc →
            id' = id := by
          intro id' hid'
          by_contra hne
          rw [Function.update_of_ne hne] at hid'
          exact hnone rfl id' hid'
        rw [if_pos rfl]
        exact ⟨fun id₁ id₂ h₁ h₂ => (honly id₁ h₁).trans (honly id₂ h₂).symm,
          fun _ _ => Nat.lt_succ_of_le h.total, h.total.trans (Nat.le_succ _)⟩
      · rw [if_neg fun heq => hch (Msg.read.inj heq)]
        refine account_of_served h (fun id' hid' => ?_) rfl
        change Function.update n.readWaiters id (some respc) id' = some ch at hid'
        by_cases hid : id' = id
        · rw [hid, Function.update_self] at hid'
          exact absurd (Option.some.inj hid') hch
        · rwa [Function.update_of_ne hid] at hid'

theorem account_stage {outcomes : List ReadOutcome} (hstage : Stage S outcomes n a)
    (h : Account ch told opened n) : Account ch told opened a := by
  cases hstage with
  | core => exact account_of_served h (fun _ hid => hid) rfl
  | restore | apply => exact account_append h rfl rfl rfl rfl
  | fire => exact account_fireAppliedWaiters h
  | answer e => exact account_answerWaiter h e
  | resolve r => exact account_resolveRead h r

theorem account_step (h : Account ch told opened { n with effects := [] })
    (hopen : m = .read ch → opened = 0) :
    Account ch told (opened + if m = .read ch then 1 else 0) (step S n m).1 :=
  step_induction (fun _ => account_weaken h (Nat.le_add_right _ _))
    (fun _ => account_dispatch h hopen) fun _ _ => account_stage

theorem account_clear (h : Account ch told opened n) :
    Account ch (told + n.effects.countP (reading ch)) opened { n with effects := [] } := by
  have hserved : told + n.effects.countP (reading ch) + served ch { n with effects := [] } =
      told + served ch n := by
    simp [served, Nat.add_assoc]
  refine ⟨h.unique, ?_, ?_⟩
  · rw [hserved]
    exact h.waiting
  · rw [hserved]
    exact h.total

/-- How many reads of node `i` came in on channel `ch`. -/
def openedBy (i : ID) (ch : Chan) (calls : List (NodeCall σ)) : Nat :=
  calls.countP fun k => k.node = i ∧ k.input = .read ch

def toldBy (i : ID) (ch : Chan) (calls : List (NodeCall σ)) : Nat :=
  ((calls.filter fun k => k.node = i).flatMap fun k => k.post.effects).countP (reading ch)

variable {D : Deployment} {threshold : ID → Nat} {s : NodeState σ}

/-- The account of a channel between the turns of a node. -/
def Settled (ch : Chan) (calls : List (NodeCall σ)) (i : ID) : Life (Node σ) Disk → Prop
  | .up n => Account ch (toldBy i ch calls) (openedBy i ch calls) { n with effects := [] }
  | .down _ => toldBy i ch calls ≤ openedBy i ch calls

theorem told_le_of_settled {calls : List (NodeCall σ)} {i : ID} {life : Life (Node σ) Disk}
    (h : Settled ch calls i life) : toldBy i ch calls ≤ openedBy i ch calls := by
  cases life with
  | up n => exact (Nat.le_add_right _ _).trans h.total
  | down d => exact h

theorem settled_other {calls : List (NodeCall σ)} {i : ID} {life : Life (Node σ) Disk}
    (h : Settled ch calls i life) {k : NodeCall σ} (hk : k.node ≠ i) :
    Settled ch (calls ++ [k]) i life := by
  have hopened : openedBy i ch (calls ++ [k]) = openedBy i ch calls := by
    simp [openedBy, List.countP_append, hk]
  have htold : toldBy i ch (calls ++ [k]) = toldBy i ch calls := by
    simp [toldBy, List.filter_append, hk]
  cases life <;> simp only [Settled, hopened, htold] <;> exact h

theorem settled (hs : Reachable (nodeSystem D S threshold) s) (i : ID) (ch : Chan)
    (honce : openedBy i ch s.trace ≤ 1) : Settled ch s.trace i (s.node i) := by
  refine nodes_induction (Q := fun calls i life => openedBy i ch calls ≤ 1 →
    Settled ch calls i life) ?_ ?_ ?_ ?_ ?_ hs i honce
  · exact fun i _ => Nat.zero_le _
  · intro s i n m _ ih hup _ honce
    have hopened : openedBy i ch ((nodeSystem D S threshold).call s i n m).trace =
        openedBy i ch s.trace + if m = .read ch then 1 else 0 := by
      change openedBy i ch (s.trace ++ [_]) = _
      simp [openedBy, List.countP_append, List.countP_singleton]
    have htold : toldBy i ch ((nodeSystem D S threshold).call s i n m).trace =
        toldBy i ch s.trace + (step S n m).1.effects.countP (reading ch) := by
      change toldBy i ch (s.trace ++ [_]) = _
      simp only [toldBy, List.filter_append, List.flatMap_append, List.countP_append]
      simp
      rfl
    rw [hopened] at honce
    have hold := ih i (by omega)
    rw [hup] at hold
    have hstep := account_step (S := S) hold (m := m) (fun hm => by
      rw [if_pos hm] at honce
      omega)
    simp only [Settled, hopened, htold]
    exact account_clear hstep
  · intro s i n m j life hj h honce
    refine settled_other (h ?_) (Ne.symm hj)
    refine le_trans ?_ honce
    exact (List.sublist_append_left _ _).countP_le
  · intro calls i n h honce
    exact told_le_of_settled (h honce)
  · intro calls i rng d n h hboot honce
    have hle : toldBy i ch calls ≤ openedBy i ch calls := h honce
    obtain ⟨c, -, hn⟩ := newNode_cases hboot
    have hfresh : ∀ sm : σ, Account ch (toldBy i ch calls) (openedBy i ch calls)
        { nodeOf c sm (threshold i) with effects := [] } := by
      intro sm
      exact ⟨nofun, nofun, hle⟩
    rcases hn with ⟨-, rfl⟩ | ⟨data, sm, -, -, rfl⟩ <;> exact hfresh _

end Answers

section Runs

variable {σ : Type} {S : StateMachine σ} {D : Deployment} {threshold : ID → Nat}
variable {s : NodeState σ} {i : ID} {n : Node σ} {k : NodeCall σ}

theorem turned_of_mem (hs : Reachable (nodeSystem D S threshold) s) (hk : k ∈ s.trace) :
    Turned k := by
  obtain ⟨p, hp⟩ := List.mem_iff_getElem?.mp hk
  obtain ⟨s₀, hmade, -⟩ := exists_madeIn hs hp
  have hq := queues_taken hmade.reachable hmade.up
  have hpost : k.post = (step S k.pre k.input).1 := hmade.post
  refine ⟨fun hstop => ?_, hq, fun hstop => ?_⟩
  · rw [hpost, step]
    dsimp only
    rw [if_pos hstop]
  · rw [hpost]
    exact readState_step (hq hstop) hstop k.input

theorem standing_of_mem (hs : Reachable (nodeSystem D S threshold) s) (hfix : FixedNodes D s)
    (hk : k ∈ s.trace) (hstop : k.pre.stopped = false) :
    Standing k.pre.core (respond k.pre.core k.input.input).1 := by
  obtain ⟨p, hp⟩ := List.mem_iff_getElem?.mp hk
  obtain ⟨s₀, hmade, htrace⟩ := exists_madeIn hs hp
  have hfix₀ : FixedNodes D s₀ := hfix.part (htrace ▸ List.take_subset _ _)
  obtain ⟨s', hs', hproj⟩ := exists_core_run hmade.reachable
  have hfix' := fixedMembership_of_projects hproj hfix₀
  obtain ⟨c, hup, hc⟩ := exists_core (hmade.up ▸ hproj.life k.node) hstop
  have hlead : c.pendingReads ≠ [] → c.role = .leader := by
    intro hne
    obtain ⟨r, hr⟩ := List.exists_mem_of_ne_nil _ hne
    exact (pending_of_fixed hs' hfix' hup r hr).1
  have hstand := standing_respond hlead
    (claimedTerm_ne hs' hfix' hup (input_enabled hproj hmade.enabled))
  rw [← hc, respond_takeQueues]
  exact hstand

theorem reads_of_boot {rng : Nat → Nat} {d : Disk}
    (h : (nodeSystem D S threshold).boot i rng d = some n) :
    n.core.pendingReads = [] ∧ n.core.readCounter = 0 := by
  obtain ⟨c, hc, hn⟩ := newNode_cases h
  obtain ⟨-, M, entries, -, -, rfl⟩ := newCore_cases hc
  rcases hn with ⟨-, rfl⟩ | ⟨data, sm, -, -, rfl⟩ <;> exact ⟨rfl, rfl⟩

/-- With one membership pending reads belong to the term their core leads. In every life of
a node a read has one outcome at most, and has it once the node does not lead the term
anymore in which it was registered; nothing is confirmed from then on. A channel that
carries one read of a node carries one answer at most. -/
theorem read_barriers_resolve_once (D : Deployment) (S : StateMachine σ) (threshold : ID → Nat) :
    (∀ s : CoreState, Reachable (coreSystem D) s → FixedMembership D s → ∀ i c, s.node i = .up c →
      ∀ r ∈ c.pendingReads, c.role = .leader ∧ RegisteredNow s.trace i c r) ∧
    ∀ s : NodeState σ, Reachable (nodeSystem D S threshold) s → ∀ i,
      (∀ n since, Living (nodeSystem D S threshold) s i n since →
        (∀ id, (outcomesOf i since).countP (fun o => o.id = id) ≤ 1) ∧
        (FixedNodes D s → ∀ (p : Nat) k id, since[p]? = some k → k.node = i → RegistersRead k id →
          (¬ Leads n k.pre.core.term →
            (outcomesOf i since).countP (fun o => o.id = id) = 1) ∧
          ∀ (q : Nat) k₁, p ≤ q → since[q]? = some k₁ → k₁.node = i →
            ¬ Leads k₁.post k.pre.core.term →
            ∀ (q' : Nat) k₂, q < q' → since[q']? = some k₂ → k₂.node = i →
              ∀ o ∈ outcomes k₂, o.confirmed = true → o.id ≠ id)) ∧
      ∀ ch, openedBy i ch s.trace ≤ 1 → toldBy i ch s.trace ≤ 1 := by
  refine ⟨fun s hs hfix i c hup => pending_of_fixed hs hfix hup, fun s hs i => ⟨?_, ?_⟩⟩
  · rintro n since ⟨hup, hsuffix, rng, d, n₀, hboot, hlife⟩
    have hn₀ := reads_of_boot hboot
    have hturned : ∀ k ∈ since, Turned k := fun k hk => turned_of_mem hs (hsuffix.subset hk)
    have htally := tally_of_lived hn₀ hturned hlife
    refine ⟨count_outcomes_le htally, fun hfix p k id hp hnode hreg => ?_⟩
    have hstanding : ∀ k ∈ since, k.pre.stopped = false →
        Standing k.pre.core (respond k.pre.core k.input.input).1 :=
      fun k hk => standing_of_mem hs hfix (hsuffix.subset hk)
    refine ⟨resolved_of_lived hn₀ hturned hstanding hlife (List.mem_of_getElem? hp) hnode hreg, ?_⟩
    intro q k₁ hpq hq hnode₁ hlost q' k₂ hlt hq' hnode₂ o ho _
    -- The read has its outcome when the call at `q` is over.
    obtain ⟨hlen, rfl⟩ := List.getElem?_eq_some_iff.mp hq
    have hsplit : since.take (q + 1) ++ since.drop (q + 1) = since := List.take_append_drop _ _
    have hupto : Lived i n₀ (since.take (q + 1)) since[q].post := by
      rw [← List.take_append_drop q since, List.drop_eq_getElem_cons hlen] at hlife
      rw [List.take_succ_eq_append_getElem hlen]
      exact lived_upto hlife hnode₁
    have hbefore : k ∈ since.take (q + 1) := by
      refine List.mem_of_getElem? (i := p) ?_
      rw [List.getElem?_take, if_pos (Nat.lt_succ_of_le hpq)]
      exact hp
    have hafter : k₂ ∈ since.drop (q + 1) := by
      refine List.mem_of_getElem? (i := q' - (q + 1)) ?_
      rw [List.getElem?_drop, Nat.add_sub_of_le hlt]
      exact hq'
    have hone := resolved_of_lived hn₀ (fun j hj => hturned j (List.mem_of_mem_take hj))
      (fun j hj => hstanding j (List.mem_of_mem_take hj)) hupto hbefore hnode hreg hlost
    exact no_more_outcomes (hsplit.symm ▸ htally) hone hafter hnode₂ ho
  · intro ch honce
    exact (told_le_of_settled (settled hs i ch honce)).trans honce

/-- Node 1 leads, commits and registers a read; before it hears of it, node 2 takes over. -/
def interrupted : List (Action ID Msg (Nat → Nat)) :=
  [.restart 2 fun _ => 0, .restart 3 fun _ => 0, .act 1 .tick, .deliver 0, .deliver 2, .deliver 3,
    .deliver 5, .act 1 (.read 7), .act 2 .tick, .deliver 8]

theorem read_barriers_resolve_once_interrupted :
    (∃ s, Reachable (coreSystem trio) s ∧ FixedMembership trio s ∧ ∃ c, s.node 1 = .up c ∧
      ∃ r ∈ c.pendingReads, c.role = .leader ∧ RegisteredNow s.trace 1 c r) ∧
    ∃ s, Reachable (nodeSystem trio journal fun _ => 0) s ∧ FixedNodes trio s ∧ ∃ n,
      Living (nodeSystem trio journal fun _ => 0) s 1 n s.trace ∧
      (∃ k ∈ s.trace, k.node = 1 ∧ RegistersRead k 1 ∧ ¬ Leads n k.pre.core.term ∧
        (outcomesOf 1 s.trace).countP (fun o => o.id = 1) = 1) ∧
      openedBy 1 7 s.trace = 1 ∧ toldBy 1 7 s.trace ≤ 1 := by
  have hres := read_barriers_resolve_once trio journal fun _ => 0
  refine ⟨?_, ?_⟩
  · obtain ⟨s, hs, hcalm, c, hc, hne⟩ := exists_of_run (coreSystem trio)
      [.restart 1 fun _ => 0, .restart 2 fun _ => 0, .act 1 (.client .tick), .deliver 0, .deliver 2,
        .deliver 3, .deliver 5, .act 1 (.client .read)] (fun s => Unchanging s ∧
      ∃ c ∈ core? s 1, c.pendingReads.length = 1) (by decide +kernel)
    have hfix : FixedMembership trio s := ⟨uniform_trio, hcalm⟩
    have hup := node_of_core? hc
    obtain ⟨r, hr⟩ := List.exists_mem_of_length_eq_add_one hne
    exact ⟨s, hs, hfix, c, hup, r, hr, hres.1 s hs hfix 1 c hup r hr⟩
  · obtain ⟨s, hrun, hcalm, hopened, ⟨k, hk, hnode, hin, hstop, hreg⟩, n, hn, hrole⟩ :=
      exists_run (nodeSystem trio journal fun _ => 0) (.restart 1 (fun _ => 0) :: interrupted)
        (fun s => UnchangingNodes s ∧ openedBy 1 7 s.trace = 1 ∧
          (∃ k ∈ s.trace, k.node = 1 ∧ k.input = .read 7 ∧ k.pre.stopped = false ∧
            (requestRead k.pre.core).2 = .ok 1) ∧
          ∃ n ∈ node? s 1, n.core.role ≠ .leader) (by decide +kernel)
    have hfix : FixedNodes trio s := ⟨uniform_trio, hcalm⟩
    have hs : Reachable (nodeSystem trio journal fun _ => 0) s := ⟨_, hrun⟩
    have hlife := living_of_run hrun (by decide) (node_of_node? hn)
    obtain ⟨p, hp⟩ := List.mem_iff_getElem?.mp hk
    have hregisters : RegistersRead k 1 := ⟨hstop, 7, hin, hreg⟩
    have hover : ¬ Leads n k.pre.core.term := fun hleads => hrole hleads.1
    exact ⟨s, hs, hfix, n, hlife, ⟨k, hk, hnode, hregisters, hover,
      (((hres.2 s hs 1).1 n s.trace hlife).2 hfix p k 1 hp hnode hregisters).1 hover⟩, hopened,
      (hres.2 s hs 1).2 7 hopened.le⟩

end Runs

end RaftKV.Safety.ReadOutcomes
