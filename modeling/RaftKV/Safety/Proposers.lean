import RaftKV.Safety.Proposals
import RaftKV.Safety.Retention

namespace RaftKV.Safety.Proposers

open Distributed.Network
open Raft
open Raft.Durability Raft.Cluster Raft.Provenance Raft.Shapes Raft.Deliveries Raft.EventLoop
open Refinement.Projection
open Safety.Proposals Safety.Retention

section Places

variable {M : Members} {c : Core} {m : Msg} {index : Nat} {w : Waiter}

/-- Whether a message is a proposal that is taken. -/
def takes (c : Core) : Msg → Bool
  | .propose _ _ => c.role = .leader ∧ c.transferTarget = 0
  | .confChange cc _ => c.role = .leader ∧ c.transferTarget = 0 ∧
      c.lastConfigIndex ≤ c.commitIndex ∧
      if cc.op = confChangeAdd then c.members[cc.id]? ≠ some cc.addr else c.members[cc.id]? ≠ none
  | _ => false

theorem propose_ok {command : Command} {typ : EntryType} {term : Nat}
    (h : (propose c command typ).2 = .ok (index, term)) :
    c.role = .leader ∧ c.transferTarget = 0 ∧ index = lastLogIndex c + 1 := by
  unfold propose at h
  split at h
  · cases h
  · rename_i hrole
    split at h
    · cases h
    · rename_i htarget
      cases h
      exact ⟨not_not.mp hrole, not_not.mp htarget, rfl⟩

theorem takes_of_enlists (h : Enlists c m index w) :
    takes c m = true ∧ index = lastLogIndex c + 1 := by
  cases m with
  | propose command done =>
      obtain ⟨hrole, htarget, hindex⟩ := propose_ok h.1
      exact ⟨decide_eq_true ⟨hrole, htarget⟩, hindex⟩
  | confChange cc done =>
      have hok := h.1
      unfold proposeConfChange at hok
      split at hok
      · cases hok
      · split at hok
        · cases hok
        · rename_i hflight
          split at hok
          · cases hok
          · rename_i hadd
            split at hok
            · cases hok
            · rename_i hremove
              split at hok
              · cases hok
              · rename_i c' index' term hpropose
                cases hok
                obtain ⟨hrole, htarget, hindex⟩ :=
                  propose_ok (congrArg Prod.snd hpropose)
                refine ⟨decide_eq_true ⟨hrole, htarget, Nat.le_of_not_lt hflight, ?_⟩, hindex⟩
                split
                · rename_i hop
                  exact fun hmem => hadd ⟨hop, hmem⟩
                · rename_i hop
                  exact fun hmem => hremove ⟨hop, hmem⟩
  | tick | deliver | transfer | read => exact absurd h id

theorem eq_of_enlists {index' : Nat} {w' : Waiter} (h : Enlists c m index w)
    (h' : Enlists c m index' w') : index = index' ∧ w = w' := by
  have key : ∀ {r : Except RaftError (Nat × Nat)} {done : Chan}, r = .ok (index, w.term) ∧
      w.done = done → r = .ok (index', w'.term) ∧ w'.done = done → index = index' ∧ w = w' := by
    rintro r done ⟨hr, hdone⟩ ⟨hr', hdone'⟩
    rw [hr] at hr'
    obtain ⟨term, done₀⟩ := w
    obtain ⟨term', done₁⟩ := w'
    cases hr'
    cases hdone
    cases hdone'
    exact ⟨rfl, rfl⟩
  cases m with
  | propose command done => exact key h h'
  | confChange cc done => exact key h h'
  | tick | deliver | transfer | read => exact absurd h id

/-- Whether the snapshot of a request takes the place of the log. -/
def replacing (c : Core) : Event → Option InstallSnapshotRequest
  | .installSnapshot req =>
      if c.term ≤ req.term ∧ c.snapIndex < req.lastIncludedIndex ∧
        c.commitIndex < req.lastIncludedIndex then some req else none
  | _ => none

/-- The snapshot a message brings and the core installs. -/
def installs (c : Core) : Msg → Option InstallSnapshotRequest
  | .deliver p => replacing c (eventOf p)
  | _ => none

theorem delivers_or_installs (hk : Kept M c) (hm : FairInput m.input) :
    Delivers c (respond c m.input).1 ∨
      ∃ req, installs c m = some req ∧ Installs c req (respond c m.input).1 := by
  have hplain : ∀ ev replies, Fair ev → (∀ req, ev ≠ .installSnapshot req) →
      Delivers c (react c ev replies).1 := by
    intro ev replies hev hne
    rw [react_fst]
    exact delivers_handle hne hev hk
  cases m with
  | deliver p =>
      change Delivers c (react c (eventOf p) (reply p)).1 ∨
        ∃ req, replacing c (eventOf p) = some req ∧ Installs c req (react c (eventOf p) (reply p)).1
      by_cases hev : ∀ req, eventOf p ≠ .installSnapshot req
      · exact Or.inl (hplain _ _ hm hev)
      · obtain ⟨req, hreq⟩ := not_forall.mp hev
        rw [not_not.mp hreq, react_fst]
        rcases handleInstallSnapshot_cases c req with h | ⟨hterm, hsnap, h⟩
        · exact Or.inl h
        · exact Or.inr ⟨req, if_pos ⟨hterm, hsnap, h.commit⟩, h⟩
  | tick => exact Or.inl (hplain _ _ trivial nofun)
  | propose command done => exact Or.inl (hplain _ _ hm nofun)
  | confChange cc done => exact Or.inl (hplain _ _ hm nofun)
  | transfer target respc => exact Or.inl (hplain _ _ hm nofun)
  | read respc => exact Or.inl (hplain _ _ hm nofun)

end Places

section Turns

variable {σ : Type} {M : Members} {S : StateMachine σ} {n a b : Node σ} {m : Msg}

/-- Whether a turn leaves every waiter in its place: a new one gets an index nobody waits
for, and a snapshot covers no index somebody waits for. -/
def undisturbed (n : Node σ) (m : Msg) : Bool :=
  (takes n.core m → n.waiters (lastLogIndex n.core + 1) = none) ∧
    ∀ req ∈ installs n.core m, ∀ index ≤ req.lastIncludedIndex, n.waiters index = none

theorem waiters_answerWaiter (n : Node σ) (e : Entry) :
    (answerWaiter n e).waiters = Function.update n.waiters e.index none := by
  unfold answerWaiter
  cases hw : n.waiters e.index with
  | none => exact (hw ▸ Function.update_eq_self e.index n.waiters).symm
  | some w => rfl

theorem applied_answerWaiter (n : Node σ) (e : Entry) :
    (answerWaiter n e).applied = n.applied := by
  unfold answerWaiter
  split <;> rfl

theorem waiters_foldl_applyEntry (n : Node σ) (es : List Entry) (index : Nat) :
    (es.foldl (applyEntry S) n).waiters index =
      if index ∈ es.map Entry.index then none else n.waiters index := by
  induction es generalizing n with
  | nil => rfl
  | cons e es ih =>
      rw [List.foldl_cons, ih, applyEntry, waiters_answerWaiter, List.map_cons]
      by_cases hes : index ∈ es.map Entry.index
      · rw [if_pos hes, if_pos (List.mem_cons_of_mem _ hes)]
      · rw [if_neg hes]
        by_cases he : index = e.index
        · rw [he, Function.update_self, if_pos List.mem_cons_self]
        · rw [Function.update_of_ne he, if_neg fun h => (List.mem_cons.mp h).elim he hes]
          rfl

theorem applied_foldl_applyEntry {es : List Entry} {bound : Nat} (hn : n.applied ≤ bound)
    (hes : ∀ e ∈ es, e.index ≤ bound) : (es.foldl (applyEntry S) n).applied ≤ bound := by
  induction es generalizing n with
  | nil => exact hn
  | cons e es ih =>
      refine ih ?_ fun f hf => hes f (List.mem_cons_of_mem _ hf)
      rw [applyEntry, applied_answerWaiter]
      exact hes e List.mem_cons_self

theorem resolveRead_foldl (rs : List ReadOutcome) (n : Node σ) :
    (rs.foldl resolveRead n).waiters = n.waiters ∧
    (rs.foldl resolveRead n).applied = n.applied := by
  induction rs generalizing n with
  | nil => exact ⟨rfl, rfl⟩
  | cons r rs ih =>
      have hone : (resolveRead n r).waiters = n.waiters ∧
          (resolveRead n r).applied = n.applied := by
        unfold resolveRead
        split
        · exact ⟨rfl, rfl⟩
        · dsimp only
          split
          · exact ⟨rfl, rfl⟩
          · split <;> exact ⟨rfl, rfl⟩
      rw [List.foldl_cons, (ih _).1, (ih _).2]
      exact hone

/-- Whoever waits, waits for an index that has not been delivered yet. -/
structure Ahead (n : Node σ) : Prop where
  applied : n.applied ≤ n.core.lastDelivered
  waiters : ∀ index w, n.waiters index = some w → n.core.lastDelivered < index

theorem drain_delivers {c₀ : Core} (hdel : Delivers c₀ a.core) (happ : a.applied ≤ c₀.lastDelivered)
    (hw : ∀ index w, a.waiters index = some w → c₀.lastDelivered < index)
    (hb : drain S { a with core := takeQueues a.core } a.core = some b) :
    b.applied ≤ a.core.lastDelivered ∧
      ∀ index w, b.waiters index = some w → a.core.lastDelivered < index := by
  unfold drain at hb
  rw [hdel.restore] at hb
  obtain rfl := Option.some.inj hb
  have hle := hdel.le
  have hmem : ∀ index, index ∈ a.core.committed.map Entry.index ↔
      c₀.lastDelivered < index ∧ index ≤ a.core.lastDelivered := by
    intro index
    rw [hdel.indices, List.mem_range'_1]
    omega
  rw [(resolveRead_foldl _ _).1, (resolveRead_foldl _ _).2]
  refine ⟨applied_foldl_applyEntry (happ.trans hle) fun e he => ?_, fun index w hindex => ?_⟩
  · exact ((hmem _).mp (List.mem_map_of_mem he)).2
  · rw [waiters_foldl_applyEntry] at hindex
    split at hindex
    · cases hindex
    · rename_i hnot
      have hlt := hw index w hindex
      by_contra hge
      exact hnot ((hmem index).mpr ⟨hlt, Nat.le_of_not_lt hge⟩)

theorem drain_installs {c₀ : Core} {req : InstallSnapshotRequest} (hin : Installs c₀ req a.core)
    (happ : a.applied ≤ c₀.lastDelivered)
    (hw : ∀ index w, a.waiters index = some w → c₀.lastDelivered < index)
    (hfree : ∀ index ≤ req.lastIncludedIndex, a.waiters index = none)
    (hb : drain S { a with core := takeQueues a.core } a.core = some b) :
    b.applied ≤ a.core.lastDelivered ∧
      ∀ index w, b.waiters index = some w → a.core.lastDelivered < index := by
  obtain ⟨b₀, hb₀, rfl⟩ := Option.map_eq_some_iff.mp hb
  rw [hin.committed, List.foldl_nil, (resolveRead_foldl _ _).1, (resolveRead_foldl _ _).2,
    hin.delivered]
  have hrest : b₀.waiters = a.waiters ∧
      (b₀.applied = a.applied ∨ b₀.applied = req.lastIncludedIndex) := by
    cases hdata : a.core.pendingRestore with
    | none =>
        rw [hdata] at hb₀
        obtain rfl := Option.some.inj hb₀
        exact ⟨rfl, Or.inl rfl⟩
    | some data =>
        rw [hdata] at hb₀
        obtain ⟨sm, -, rfl⟩ := Option.map_eq_some_iff.mp hb₀
        exact ⟨rfl, Or.inr hin.snapIndex⟩
  refine ⟨?_, fun index w hindex => max_lt (hw index w (hrest.1 ▸ hindex)) ?_⟩
  · rcases hrest.2 with heq | heq <;> omega
  · rw [hrest.1] at hindex
    by_contra hge
    rw [hfree index (Nat.le_of_not_lt hge)] at hindex
    cases hindex

theorem lastDelivered_maybeCompact (S : StateMachine σ) (b : Node σ) :
    (maybeCompact S b).core.lastDelivered = b.core.lastDelivered ∧
      (maybeCompact S b).applied = b.applied ∧ (maybeCompact S b).waiters = b.waiters := by
  rcases maybeCompact_cases S b with heq | ⟨data, -, -, heq⟩
  · rw [heq]
    exact ⟨rfl, rfl, rfl⟩
  · rw [heq]
    refine ⟨?_, rfl, rfl⟩
    change (compact b.core b.applied data).1.lastDelivered = _
    rcases compact_cases b.core b.applied data with hc | ⟨-, -, hc⟩
    · rw [hc]
    · rw [hc]
      rfl

theorem ahead_step (hord : Ordered M n m) (hstop : n.stopped = false)
    (hquiet : undisturbed n m = true) (h : Ahead n) (hrun : (step S n m).1.stopped = false) :
    Ahead (step S n m).1 := by
  obtain ⟨-, hfree⟩ := of_decide_eq_true hquiet
  have hturn := turn_step S n m
  generalize (step S n m).1 = n' at hturn hrun
  generalize (step S n m).2 = sent at hturn
  cases hturn with
  | stopped hs =>
      rw [hstop] at hs
      cases hs
  | failed => cases hrun
  | halted => cases hrun
  | turned a b _ hd hb =>
      have hdis := dispatched_dispatch (n := { n with effects := [] }) hord.queues m
      have hreg := registered_dispatch (n := { n with effects := [] }) rfl m
      rw [hd] at hdis hreg
      have happ : a.applied ≤ n.core.lastDelivered := hdis.applied ▸ h.applied
      have hw : ∀ index w, a.waiters index = some w → n.core.lastDelivered < index := by
        intro index w hindex
        rcases hreg.waiters index w hindex with hold | hnew
        · exact h.waiters index w hold
        · rw [(takes_of_enlists hnew).2]
          exact Nat.lt_succ_of_le hord.retained
      have hcore : a.core = (respond n.core m.input).1 := hdis.core
      obtain ⟨hd', happ', hw'⟩ := lastDelivered_maybeCompact S b
      have hahead : b.applied ≤ a.core.lastDelivered ∧
          ∀ index w, b.waiters index = some w → a.core.lastDelivered < index := by
        rcases delivers_or_installs hord.kept hord.fair with hdel | ⟨req, hreq, hin⟩
        · exact drain_delivers (hcore ▸ hdel) happ hw hb
        · refine drain_installs (hcore ▸ hin) happ hw (fun index hle => ?_) hb
          -- A message that brings a snapshot is no proposal.
          cases hindex : a.waiters index with
          | none => rfl
          | some w =>
              rcases hreg.waiters index w hindex with hold | hnew
              · exact absurd hold (by rw [hfree req hreq index hle]; exact nofun)
              · cases m with
                | deliver p => exact absurd hnew id
                | tick | propose | confChange | transfer | read => cases hreq
      have hb' : b.core.lastDelivered = a.core.lastDelivered := by
        rw [core_drain hb]
        rfl
      exact ⟨by rw [happ', hd', hb']; exact hahead.1, by rw [hw', hd', hb']; exact hahead.2⟩

end Turns

section Answers

variable {σ : Type} {S : StateMachine σ} {n a b : Node σ} {m : Msg} {ch : Chan}
variable {told opened : Nat}

theorem asks_of_enlists {c : Core} {index : Nat} {w : Waiter} (h : Enlists c m index w) :
    asks m = some w.done := by
  cases m with
  | propose command done => exact congrArg some h.2.symm
  | confChange cc done => exact congrArg some h.2.symm
  | tick | deliver | transfer | read => exact absurd h id

def answering (ch : Chan) : Effect → Bool
  | .answered done _ => done = ch
  | _ => false

def answers (ch : Chan) (n : Node σ) : Nat :=
  n.effects.countP (answering ch)

def WaitsAt (ch : Chan) (n : Node σ) (index : Nat) : Prop :=
  ∃ w, n.waiters index = some w ∧ w.done = ch

/-- Of `opened` questions on a channel `told` were answered before this turn; the others
have been answered in it, or one still waits. -/
structure Ledger (ch : Chan) (told opened : Nat) (n : Node σ) : Prop where
  unique : ∀ index index', WaitsAt ch n index → WaitsAt ch n index' → index = index'
  waiting : ∀ index, WaitsAt ch n index → told + answers ch n + 1 = opened
  idle : (∀ index, ¬ WaitsAt ch n index) → told + answers ch n = opened

theorem ledger_of_eq (h : Ledger ch told opened n) (hw : a.waiters = n.waiters)
    (ha : answers ch a = answers ch n) : Ledger ch told opened a := by
  have hsame : ∀ index, WaitsAt ch a index ↔ WaitsAt ch n index := by
    intro index
    unfold WaitsAt
    rw [hw]
  exact
    { unique := fun index index' hi hi' =>
        h.unique index index' ((hsame _).mp hi) ((hsame _).mp hi')
      waiting := fun index hi => ha ▸ h.waiting index ((hsame _).mp hi)
      idle := fun hno => ha ▸ h.idle fun index hi => hno index ((hsame _).mpr hi) }

theorem answers_append {effects : List Effect} (he : a.effects = n.effects ++ effects)
    (hno : ∀ x ∈ effects, answering ch x = false) : answers ch a = answers ch n := by
  have hzero : effects.countP (answering ch) = 0 :=
    List.countP_eq_zero.mpr fun x hx => by simp [hno x hx]
  unfold answers
  rw [he, List.countP_append, hzero, Nat.add_zero]

theorem answers_answered {done : Chan} {r : Except NodeError Unit}
    (he : a.effects = n.effects ++ [.answered done r]) :
    answers ch a = answers ch n + if done = ch then 1 else 0 := by
  unfold answers
  rw [he, List.countP_append, List.countP_singleton]
  simp [answering]

theorem ledger_answerWaiter (h : Ledger ch told opened n) (e : Entry) :
    Ledger ch told opened (answerWaiter n e) := by
  cases hw : n.waiters e.index with
  | none =>
      have heq : answerWaiter n e = n := by
        rw [answerWaiter, hw]
      rw [heq]
      exact h
  | some w =>
      have hans : answers ch (answerWaiter n e) = answers ch n + if w.done = ch then 1 else 0 := by
        refine answers_answered (r := verdict w e) ?_
        rw [answerWaiter, hw]
        rfl
      have hleft : ∀ index, WaitsAt ch (answerWaiter n e) index →
          WaitsAt ch n index ∧ index ≠ e.index := by
        rintro index ⟨w', hw', hdone⟩
        rw [waiters_answerWaiter] at hw'
        by_cases hindex : index = e.index
        · rw [hindex, Function.update_self] at hw'
          cases hw'
        · rw [Function.update_of_ne hindex] at hw'
          exact ⟨⟨w', hw', hdone⟩, hindex⟩
      have hrest : ∀ index, WaitsAt ch n index → index ≠ e.index →
          WaitsAt ch (answerWaiter n e) index := by
        rintro index ⟨w', hw', hdone⟩ hindex
        refine ⟨w', ?_, hdone⟩
        rw [waiters_answerWaiter, Function.update_of_ne hindex]
        exact hw'
      by_cases hdone : w.done = ch
      · -- The one who waited on the channel is answered.
        have hwait : WaitsAt ch n e.index := ⟨w, hw, hdone⟩
        have hnone : ∀ index, ¬ WaitsAt ch (answerWaiter n e) index := fun index hi =>
          (hleft index hi).2 (h.unique index e.index (hleft index hi).1 hwait)
        rw [if_pos hdone] at hans
        refine ⟨fun index _ hi => absurd hi (hnone index), fun index hi => absurd hi (hnone index),
          fun _ => ?_⟩
        rw [hans]
        exact h.waiting _ hwait
      · rw [if_neg hdone] at hans
        refine ⟨fun index index' hi hi' => h.unique index index' (hleft _ hi).1 (hleft _ hi').1,
          fun index hi => ?_, fun hno => ?_⟩
        · rw [hans]
          exact h.waiting index (hleft index hi).1
        · rw [hans]
          refine h.idle fun index hi => ?_
          by_cases hindex : index = e.index
          · obtain ⟨w', hw', hdone'⟩ := hi
            rw [hindex, hw] at hw'
            exact hdone (Option.some.inj hw' ▸ hdone')
          · exact hno index (hrest index hi hindex)

theorem ledger_fireAppliedWaiters (h : Ledger ch told opened n) :
    Ledger ch told opened (fireAppliedWaiters n) := by
  refine ledger_of_eq h rfl (answers_append rfl fun x hx => ?_)
  obtain ⟨w, -, rfl⟩ := List.mem_map.mp hx
  rfl

theorem ledger_emit (h : Ledger ch told opened n) (hw : a.waiters = n.waiters) {effect : Effect}
    (he : a.effects = n.effects ++ [effect]) (hno : answering ch effect = false) :
    Ledger ch told opened a :=
  ledger_of_eq h hw (answers_append he fun _ hx => List.mem_singleton.mp hx ▸ hno)

theorem ledger_resolveRead (h : Ledger ch told opened n) (r : ReadOutcome) :
    Ledger ch told opened (resolveRead n r) := by
  unfold resolveRead
  split
  · exact h
  · dsimp only
    split
    · exact ledger_emit h rfl rfl rfl
    · split
      · exact ledger_emit h rfl rfl rfl
      · exact ledger_of_eq h rfl rfl

theorem ledger_answered (h : Ledger ch told opened n) (hw : a.waiters = n.waiters) {done : Chan}
    {r : Except NodeError Unit} (he : a.effects = n.effects ++ [.answered done r]) :
    Ledger ch told (opened + if done = ch then 1 else 0) a := by
  have hsame : ∀ index, WaitsAt ch a index ↔ WaitsAt ch n index := by
    intro index
    unfold WaitsAt
    rw [hw]
  refine ⟨fun index index' hi hi' => h.unique index index' ((hsame _).mp hi) ((hsame _).mp hi'),
    fun index hi => ?_, fun hno => ?_⟩
  · have := h.waiting index ((hsame _).mp hi)
    rw [answers_answered he]
    omega
  · have := h.idle fun index hi => hno index ((hsame _).mpr hi)
    rw [answers_answered he]
    omega

theorem ledger_enlist (h : Ledger ch told opened n) {done : Chan} {index term : Nat} {c : Core}
    (hfree : n.waiters index = none) (hopen : done = ch → opened = 0) :
    Ledger ch told (opened + if done = ch then 1 else 0)
      (enlist n done (c, .ok (index, term))) := by
  have hans : answers ch (enlist n done (c, .ok (index, term))) = answers ch n := rfl
  by_cases hdone : done = ch
  · have hzero := hopen hdone
    have hnone : ∀ index, ¬ WaitsAt ch n index := by
      intro index' hi
      have := h.waiting index' hi
      omega
    have hidle := h.idle hnone
    have honly : ∀ index', WaitsAt ch (enlist n done (c, .ok (index, term))) index' →
        index' = index := by
      rintro index' ⟨w, hw, hwd⟩
      by_contra hne
      change Function.update n.waiters index _ index' = some w at hw
      rw [Function.update_of_ne hne] at hw
      exact hnone index' ⟨w, hw, hwd⟩
    have hnew : WaitsAt ch (enlist n done (c, .ok (index, term))) index :=
      ⟨⟨term, done⟩, Function.update_self .., hdone⟩
    refine ⟨fun i₁ i₂ h₁ h₂ => (honly i₁ h₁).trans (honly i₂ h₂).symm, fun _ _ => ?_,
      fun hno => absurd hnew (hno index)⟩
    rw [hans, if_pos hdone, hidle]
  · have hsame : ∀ index', WaitsAt ch (enlist n done (c, .ok (index, term))) index' ↔
        WaitsAt ch n index' := by
      intro index'
      unfold WaitsAt
      change (∃ w, Function.update n.waiters index _ index' = some w ∧ _) ↔ _
      by_cases hindex : index' = index
      · subst hindex
        rw [Function.update_self, hfree]
        constructor
        · rintro ⟨w, hw, hwd⟩
          cases hw
          exact absurd hwd hdone
        · rintro ⟨w, hw, -⟩
          cases hw
      · rw [Function.update_of_ne hindex]
    rw [if_neg hdone, Nat.add_zero]
    exact
      { unique := fun i₁ i₂ h₁ h₂ => h.unique i₁ i₂ ((hsame _).mp h₁) ((hsame _).mp h₂)
        waiting := fun i hi => hans ▸ h.waiting i ((hsame i).mp hi)
        idle := fun hno => hans ▸ h.idle fun i hi => hno i ((hsame i).mpr hi) }

theorem ledger_dispatch (h : Ledger ch told opened n)
    (hfree : ∀ index w, Enlists n.core m index w → n.waiters index = none)
    (hopen : asks m = some ch → opened = 0) :
    Ledger ch told (opened + if asks m = some ch then 1 else 0) (dispatch n m).1 := by
  have hrec := received_dispatch n m
  generalize (dispatch n m).1 = a at hrec ⊢
  cases hrec with
  | silent c hm => cases m <;> first | exact ledger_of_eq h rfl rfl | cases hm
  | enlisted c index w hw =>
      simp only [asks_of_enlists hw, Option.some.injEq] at hopen ⊢
      exact ledger_enlist h (hfree index w hw) hopen
  | answered c done r hm =>
      simp only [hm, Option.some.injEq]
      refine ledger_answered (r := r) h ?_ ?_ <;> rfl
  | refused => exact ledger_emit h rfl rfl rfl
  | registered => exact ledger_of_eq h rfl rfl

theorem ledger_stage {outcomes : List ReadOutcome} (hstage : Stage S outcomes n a)
    (h : Ledger ch told opened n) : Ledger ch told opened a := by
  cases hstage with
  | core => exact ledger_of_eq h rfl rfl
  | restore | apply => exact ledger_emit h rfl rfl rfl
  | fire => exact ledger_fireAppliedWaiters h
  | answer e => exact ledger_answerWaiter h e
  | resolve r => exact ledger_resolveRead h r

theorem ledger_step (h : Ledger ch told opened { n with effects := [] })
    (hstop : n.stopped = false)
    (hfree : ∀ index w, Enlists n.core m index w → n.waiters index = none)
    (hopen : asks m = some ch → opened = 0) :
    Ledger ch told (opened + if asks m = some ch then 1 else 0) (step S n m).1 := by
  refine step_induction (fun hs => ?_) (fun _ => ledger_dispatch h hfree hopen)
    fun _ _ => ledger_stage
  rw [hstop] at hs
  cases hs

theorem ledger_clear (h : Ledger ch told opened n) :
    Ledger ch (told + answers ch n) opened { n with effects := [] } := by
  have hzero : answers ch { n with effects := [] } = 0 := rfl
  refine ⟨h.unique, fun index hi => ?_, fun hno => ?_⟩
  · rw [hzero]
    exact h.waiting index hi
  · rw [hzero]
    exact h.idle hno

end Answers

section Runs

variable {σ : Type} {S : StateMachine σ} {D : Deployment} {threshold : ID → Nat}
variable {s : NodeState σ} {i : ID} {n n₀ : Node σ} {since : List (NodeCall σ)}

/-- How often node `i` was asked on channel `ch` while its loop was running. -/
def asked (i : ID) (ch : Chan) (calls : List (NodeCall σ)) : Nat :=
  calls.countP fun k => k.node = i ∧ k.pre.stopped = false ∧ asks k.input = some ch

def answered (i : ID) (ch : Chan) (calls : List (NodeCall σ)) : Nat :=
  ((calls.filter fun k => k.node = i).flatMap fun k => k.post.effects).countP (answering ch)

/-- What holds between the turns of a life in which nobody is disturbed. -/
structure Heard (i : ID) (calls : List (NodeCall σ)) (n : Node σ) : Prop where
  ahead : Ahead n
  ledger : ∀ ch, asked i ch calls ≤ 1 →
    Ledger ch (answered i ch calls) (asked i ch calls) { n with effects := [] }
  origin : ∀ index w, n.waiters index = some w → ∃ k ∈ calls, k.node = i ∧
    k.pre.stopped = false ∧ Enlists k.pre.core k.input index w

structure Made (S : StateMachine σ) (M : Members) (k : NodeCall σ) : Prop where
  post : k.post = (step S k.pre k.input).1
  ordered : k.pre.stopped = false → Ordered M k.pre k.input
  quiet : k.pre.stopped = false → undisturbed k.pre k.input

theorem stopped_step (h : n.stopped = true) (m : Msg) : (step S n m).1.stopped = true := by
  unfold step
  dsimp only
  rw [if_pos h]
  exact h

theorem heard_own {M : Members} {calls : List (NodeCall σ)} {k : NodeCall σ}
    (h : Heard i calls k.pre) (hk : k.node = i) (hmade : Made S M k)
    (hstop : k.pre.stopped = false) (hrun : k.post.stopped = false) :
    Heard i (calls ++ [k]) k.post := by
  have hord := hmade.ordered hstop
  have hquiet := hmade.quiet hstop
  have hasked : ∀ ch, asked i ch (calls ++ [k]) =
      asked i ch calls + if asks k.input = some ch then 1 else 0 := by
    intro ch
    simp [asked, List.countP_append, List.countP_singleton, hk, hstop]
  have hanswered : ∀ ch, answered i ch (calls ++ [k]) =
      answered i ch calls + answers ch k.post := by
    intro ch
    simp [answered, answers, List.filter_append, List.countP_append, hk]
  refine ⟨?_, fun ch honce => ?_, fun index w hw => ?_⟩
  · rw [hmade.post] at hrun ⊢
    exact ahead_step hord hstop hquiet h.ahead hrun
  · rw [hasked] at honce ⊢
    rw [hanswered]
    refine ledger_clear ?_
    rw [hmade.post]
    refine ledger_step (h.ledger ch (by omega)) hstop (fun index w hw => ?_) fun hasks => ?_
    · obtain ⟨htakes, rfl⟩ := takes_of_enlists hw
      exact (of_decide_eq_true hquiet).1 htakes
    · rw [if_pos hasks] at honce
      omega
  · rw [hmade.post] at hw
    rcases (told_step (fun _ => hord.queues) k.input).waiters index w hw with hold | ⟨-, hnew⟩
    · obtain ⟨j, hj, hrest⟩ := h.origin index w hold
      exact ⟨j, List.mem_append_left _ hj, hrest⟩
    · exact ⟨k, List.mem_concat_self, hk, hstop, hnew⟩

theorem heard_other {calls : List (NodeCall σ)} {k : NodeCall σ} (h : Heard i calls n)
    (hk : k.node ≠ i) : Heard i (calls ++ [k]) n := by
  have hasked : ∀ ch, asked i ch (calls ++ [k]) = asked i ch calls := by
    intro ch
    simp [asked, List.countP_append, hk]
  have hanswered : ∀ ch, answered i ch (calls ++ [k]) = answered i ch calls := by
    intro ch
    simp [answered, List.filter_append, hk]
  refine ⟨h.ahead, fun ch honce => ?_, fun index w hw => ?_⟩
  · rw [hasked] at honce ⊢
    rw [hanswered]
    exact h.ledger ch honce
  · obtain ⟨j, hj, hrest⟩ := h.origin index w hw
    exact ⟨j, List.mem_append_left _ hj, hrest⟩

theorem heard_of_lived {M : Members} (hn₀ : Ahead n₀ ∧ ∀ index, n₀.waiters index = none)
    (hmade : ∀ k ∈ since, k.node = i → Made S M k) (h : Lived i n₀ since n)
    (hrun : n.stopped = false) : Heard i since n := by
  induction h with
  | start =>
      have hnone : ∀ ch index, ¬ WaitsAt ch { n₀ with effects := [] } index := by
        rintro ch index ⟨w, hw, -⟩
        exact absurd hw (by rw [hn₀.2 index]; exact nofun)
      refine ⟨hn₀.1, fun ch _ => ⟨fun index _ hi => absurd hi (hnone ch index),
        fun index hi => absurd hi (hnone ch index), fun _ => rfl⟩, fun index w hw => ?_⟩
      exact absurd hw (by rw [hn₀.2 index]; exact nofun)
  | own k h hk ih =>
      have hlast := hmade k List.mem_concat_self hk
      have hstop : k.pre.stopped = false := by
        by_contra hne
        rw [Bool.not_eq_false] at hne
        rw [hlast.post, stopped_step hne] at hrun
        cases hrun
      exact heard_own (ih (fun j hj => hmade j (List.mem_append_left _ hj)) hstop) hk hlast hstop
        hrun
  | other k h hk ih =>
      exact heard_other (ih (fun j hj => hmade j (List.mem_append_left _ hj)) hrun) hk

theorem ahead_of_boot {rng : Nat → Nat} {d : Disk}
    (h : (nodeSystem D S threshold).boot i rng d = some n) :
    Ahead n ∧ ∀ index, n.waiters index = none := by
  obtain ⟨c, hc, hn⟩ := newNode_cases h
  obtain ⟨-, M, entries, -, -, rfl⟩ := newCore_cases hc
  rcases hn with ⟨-, rfl⟩ | ⟨data, sm, -, -, rfl⟩ <;>
    exact ⟨⟨le_rfl, nofun⟩, fun _ => rfl⟩

theorem eq_of_countP_eq_one {α : Type} {p : α → Bool} {l : List α} (h : l.countP p = 1) {x y : α}
    (hx : x ∈ l) (hy : y ∈ l) (hpx : p x = true) (hpy : p y = true) : x = y := by
  rw [List.countP_eq_length_filter] at h
  obtain ⟨z, hz⟩ := List.length_eq_one_iff.mp h
  have hx' : x ∈ l.filter p := List.mem_filter.mpr ⟨hx, hpx⟩
  have hy' : y ∈ l.filter p := List.mem_filter.mpr ⟨hy, hpy⟩
  rw [hz] at hx' hy'
  rw [List.mem_singleton.mp hx', List.mem_singleton.mp hy']

/-- In a run whose logs keep what has been delivered, consider a life of a node in which no
turn disturbs those who wait. Whoever waits is ahead of the apply cursor; and of the
proposals that were taken, each on a channel of its own, every one waits for its index or
has been answered once. -/
theorem proposers_answered_of_undisturbed (hs : Reachable (nodeSystem D S threshold) s)
    (hret : KeepsDelivered D s) (hlive : Living (nodeSystem D S threshold) s i n since)
    (hrun : n.stopped = false)
    (hquiet : ∀ k ∈ since, k.node = i → k.pre.stopped = false → undisturbed k.pre k.input) :
    (∀ index w, n.waiters index = some w → n.applied < index) ∧
    ∀ k ∈ since, k.node = i → k.pre.stopped = false → ∀ index w,
      Enlists k.pre.core k.input index w → asked i w.done since = 1 →
      (n.waiters index = some w ∧ n.applied < index ∧ answered i w.done since = 0) ∨
        ((∀ index' w', n.waiters index' = some w' → w'.done ≠ w.done) ∧
          answered i w.done since = 1) := by
  obtain ⟨hup, hsuffix, rng, d, n₀, hboot, hlife⟩ := hlive
  have hmade : ∀ k ∈ since, k.node = i → Made S (D.tables i) k := by
    intro k hk hnode
    have hmem := hsuffix.subset hk
    obtain ⟨p, hp⟩ := List.mem_iff_getElem?.mp hmem
    obtain ⟨s₀, hin, -⟩ := exists_madeIn hs hp
    exact ⟨hin.post, hnode ▸ ordered_of_mem hs hret hmem, hquiet k hk hnode⟩
  have hheard := heard_of_lived (ahead_of_boot hboot) hmade hlife hrun
  have hahead : ∀ index w, n.waiters index = some w → n.applied < index := fun index w hw =>
    hheard.ahead.applied.trans_lt (hheard.ahead.waiters index w hw)
  refine ⟨hahead, fun k hk hnode hstop index w hin honce => ?_⟩
  have hledger := hheard.ledger w.done honce.le
  by_cases hwait : ∃ index', WaitsAt w.done { n with effects := [] } index'
  · obtain ⟨index', hi⟩ := hwait
    have hcount := hledger.waiting index' hi
    obtain ⟨w', hw', hdone⟩ := hi
    -- Whoever waits on the channel was enlisted by the same call.
    obtain ⟨k', hk', hnode', hstop', hin'⟩ := hheard.origin index' w' hw'
    obtain rfl : k' = k := by
      refine eq_of_countP_eq_one honce hk' hk ?_ ?_
      · exact decide_eq_true ⟨hnode', hstop', hdone ▸ asks_of_enlists hin'⟩
      · exact decide_eq_true ⟨hnode, hstop, asks_of_enlists hin⟩
    obtain ⟨rfl, rfl⟩ := eq_of_enlists hin hin'
    refine Or.inl ⟨hw', hahead _ _ hw', ?_⟩
    rw [honce] at hcount
    omega
  · have hnone := not_exists.mp hwait
    refine Or.inr ⟨fun index' w' hw' hdone => hnone index' ⟨w', hw', hdone⟩, ?_⟩
    have := hledger.idle hnone
    rw [honce] at this
    exact this

theorem proposers_answered_of_undisturbed_twice :
    ∃ s, Reachable (nodeSystem trio journal fun _ => 0) s ∧ KeepsDelivered trio s ∧ ∃ n,
      Living (nodeSystem trio journal fun _ => 0) s 1 n s.trace ∧
      (∃ w, n.waiters 3 = some w ∧ n.applied < 3 ∧ answered 1 w.done s.trace = 0) ∧
      ∃ k ∈ s.trace, ∃ w, Enlists k.pre.core k.input 2 w ∧
        (∀ index w', n.waiters index = some w' → w'.done ≠ w.done) ∧
        answered 1 w.done s.trace = 1 := by
  obtain ⟨s, hrun, hcalm, hbound, hquiet, ⟨k, hk, hnode, hstop, hin, hok⟩,
      ⟨k', hk', hnode', hstop', hin', hok'⟩, ⟨hasked, hasked'⟩, n, hn, hup, hone, hw⟩ :=
    exists_run (nodeSystem trio journal fun _ => 0)
      [.restart 1 fun _ => 0, .restart 2 fun _ => 0, .restart 3 fun _ => 0, .act 1 .tick,
        .deliver 0, .deliver 2, .deliver 3, .deliver 5, .act 1 (.propose (oneByte 65) 7),
        .deliver 6, .deliver 8, .act 1 (.propose (oneByte 66) 8)]
      (fun s => UnchangingNodes s ∧ BoundedNodes s ∧
        (∀ k ∈ s.trace, k.node = 1 → k.pre.stopped = false → undisturbed k.pre k.input) ∧
        (∃ k ∈ s.trace, k.node = 1 ∧ k.pre.stopped = false ∧ k.input = .propose (oneByte 65) 7 ∧
          (propose k.pre.core (oneByte 65) .normal).2 = .ok (2, 1)) ∧
        (∃ k ∈ s.trace, k.node = 1 ∧ k.pre.stopped = false ∧ k.input = .propose (oneByte 66) 8 ∧
          (propose k.pre.core (oneByte 66) .normal).2 = .ok (3, 1)) ∧
        (asked 1 7 s.trace = 1 ∧ asked 1 8 s.trace = 1) ∧
        ∃ n ∈ node? s 1, n.stopped = false ∧ answered 1 7 s.trace = 1 ∧
          n.waiters 3 = some ⟨1, 8⟩) (by decide +kernel)
  have hs : Reachable (nodeSystem trio journal fun _ => 0) s := ⟨_, hrun⟩
  have hlive := living_of_run hrun (by decide) (node_of_node? hn)
  have hret : KeepsDelivered trio s := Or.inl ⟨⟨uniform_trio, hcalm⟩, hbound⟩
  have hall := (proposers_answered_of_undisturbed hs hret hlive hup hquiet).2
  have hfirst : Enlists k.pre.core k.input 2 ⟨1, 7⟩ := by
    rw [hin]
    exact ⟨hok, rfl⟩
  have hsecond : Enlists k'.pre.core k'.input 3 ⟨1, 8⟩ := by
    rw [hin']
    exact ⟨hok', rfl⟩
  refine ⟨s, hs, hret, n, hlive, ⟨⟨1, 8⟩, ?_⟩, k, hk, ⟨1, 7⟩, hfirst, ?_⟩
  · exact (hall k' hk' hnode' hstop' 3 _ hsecond hasked').resolve_right fun h =>
      h.1 3 _ hw rfl
  · refine (hall k hk hnode hstop 2 _ hfirst hasked).resolve_left fun h => ?_
    exact absurd (hone.symm.trans h.2.2) Nat.one_ne_zero

/-- A machine that counts, with snapshots. -/
def counter : StateMachine Nat where
  fresh := 0
  apply := fun m _ _ => m + 1
  snapshot := fun m => some [UInt8.ofNat m]
  restore := fun _ data => data.head?.map UInt8.toNat

/-- Node 1 leads twice, and its log is cut in between: who waits for index 3 is replaced and
never hears of it. In the second run node 1 gets a snapshot from its successor, and who waits
for an index it covers is left behind. -/
theorem proposers_forgotten :
    (∃ s, Reachable (nodeSystem trio journal fun _ => 0) s ∧ RegularNodes trio s ∧ ∃ n,
      Living (nodeSystem trio journal fun _ => 0) s 1 n s.trace ∧ n.stopped = false ∧
      asked 1 8 s.trace = 1 ∧ answered 1 8 s.trace = 0 ∧
      (∃ k ∈ s.trace, k.node = 1 ∧ Enlists k.pre.core k.input 3 ⟨1, 8⟩) ∧
      n.waiters 3 = some ⟨3, 9⟩) ∧
    ∃ s, Reachable (nodeSystem trio counter fun _ => 1) s ∧ RegularNodes trio s ∧ ∃ n,
      Living (nodeSystem trio counter fun _ => 1) s 1 n s.trace ∧ n.stopped = false ∧
      n.waiters 2 = some ⟨1, 7⟩ ∧ n.applied = 2 ∧ answered 1 7 s.trace = 0 := by
  refine ⟨?_, ?_⟩
  · obtain ⟨s, hrun, hcalm, hbound, hasked, hanswered, ⟨k, hk, hnode, hin, htaken⟩,
      n, hn, hstop, hw⟩ :=
      exists_run (nodeSystem trio journal fun _ => 0)
        [.restart 1 fun _ => 0, .restart 2 fun _ => 0, .restart 3 fun _ => 0, .act 1 .tick,
          .deliver 0, .deliver 2, .act 1 (.propose (oneByte 65) 7),
          .act 1 (.propose (oneByte 66) 8), .act 2 .tick, .deliver 10, .deliver 11, .deliver 12,
          .act 1 .tick, .deliver 16, .deliver 17, .act 1 (.propose (oneByte 67) 9)]
        (fun s => UnchangingNodes s ∧ BoundedNodes s ∧ asked 1 8 s.trace = 1 ∧
          answered 1 8 s.trace = 0 ∧
          (∃ k ∈ s.trace, k.node = 1 ∧ k.input = .propose (oneByte 66) 8 ∧
            (propose k.pre.core (oneByte 66) .normal).2 = .ok (3, 1)) ∧
          ∃ n ∈ node? s 1, n.stopped = false ∧ n.waiters 3 = some ⟨3, 9⟩) (by decide +kernel)
    refine ⟨s, ⟨_, hrun⟩, ⟨⟨uniform_trio, hcalm⟩, hbound⟩, n,
      living_of_run hrun (by decide) (node_of_node? hn), hstop, hasked,
      hanswered, ⟨k, hk, hnode, ?_⟩, hw⟩
    rw [hin]
    exact ⟨htaken, rfl⟩
  · obtain ⟨s, hrun, hcalm, hbound, hanswered, n, hn, hstop, hw, happlied⟩ :=
      exists_run (nodeSystem trio counter fun _ => 1)
        [.restart 1 fun _ => 0, .restart 2 fun _ => 0, .restart 3 fun _ => 0, .act 1 .tick,
          .deliver 0, .deliver 2, .act 1 (.propose (oneByte 65) 7), .act 2 .tick, .deliver 8,
          .deliver 9, .deliver 11, .deliver 12, .act 2 (.propose (oneByte 66) 8), .deliver 14,
          .deliver 15, .act 2 .tick, .deliver 16]
        (fun s => UnchangingNodes s ∧ BoundedNodes s ∧ answered 1 7 s.trace = 0 ∧
          ∃ n ∈ node? s 1, n.stopped = false ∧ n.waiters 2 = some ⟨1, 7⟩ ∧ n.applied = 2)
        (by decide +kernel)
    exact ⟨s, ⟨_, hrun⟩, ⟨⟨uniform_trio, hcalm⟩, hbound⟩, n,
      living_of_run hrun (by decide) (node_of_node? hn), hstop, hw, happlied, hanswered⟩

end Runs

end RaftKV.Safety.Proposers
