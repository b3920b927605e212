import RaftKV.Raft.Deliveries
import RaftKV.Refinement.Projection
import RaftKV.Safety.Followers

namespace RaftKV.Safety.Proposals

open Consensus.Prefix Consensus.Protocol Consensus.Completeness Consensus.Preservation
open Consensus.Commitment
open Distributed.Network
open Raft Raft.Cluster
open Raft.Durability Raft.Deliveries Raft.Shapes Raft.EventLoop
open Refinement.Relation Refinement.Projection
open Safety.FixedMembership Safety.Followers

variable {done : Chan} {command : Command} {e : Entry} {index : Nat}

section Naming

variable {M : RaftKV.Raft.Members} {R : Regime M} {T : Snapshot → List Entry → Prop}
variable {g g' : Ghost} {i : ID} {c : Core} {e e' : Entry}

/-- `e` is in the log of the leader of its term, under its index. -/
def Logged (g : Ghost) (e : Entry) : Prop :=
  0 < e.index ∧ ∃ l, g.lead e.term = some l ∧ l.log[e.index - 1]? = some e

theorem logged_mono (hg : Grows g g') (h : Logged g e) : Logged g' e := by
  obtain ⟨hpos, l, hl, hget⟩ := h
  obtain ⟨l', hl', -, -, -, hlog⟩ := hg.lead _ l hl
  exact ⟨hpos, l', hl', getElem?_of_isPrefix hlog hget⟩

theorem logged_of_matched {L : List Entry} (hL : Matched (scheme M) g L) (hpos : 0 < e.index)
    (hget : L[e.index - 1]? = some e) : Logged g e := by
  obtain ⟨l, hl, -, hlog⟩ := exists_lead_of_getElem? hL hget
  exact ⟨hpos, l, hl, hlog⟩

theorem logged_of_mem (hs : Sound R g) (h : NodeRel R T g i c) (he : e ∈ c.entries) :
    Logged g e := by
  obtain ⟨hpos, hget⟩ := getElem?_of_mem h.mirror he
  exact logged_of_matched (hs.inv.log_matched i) hpos hget

theorem logged_of_chosen (hs : Sound R g) (hpos : 0 < e.index)
    (h : Chosen g (e.index - 1) e) : Logged g e := by
  obtain ⟨cm, hcm, -, hget⟩ := h
  obtain ⟨l, hok⟩ := hs.inv.commit cm hcm
  rw [leadLog_eq hok.lead] at hget
  exact logged_of_matched (hs.inv.lead _ l hok.lead).matched hpos hget

theorem eq_of_logged (h : Logged g e) (h' : Logged g e') (hindex : e.index = e'.index)
    (hterm : e.term = e'.term) : e = e' := by
  obtain ⟨-, l, hl, hget⟩ := h
  obtain ⟨-, l', hl', hget'⟩ := h'
  rw [hterm, hl'] at hl
  obtain rfl := Option.some.inj hl
  rw [hindex, hget'] at hget
  exact (Option.some.inj hget).symm

theorem entries_propose (hrole : c.role = .leader) (htarget : c.transferTarget = 0)
    {typ : EntryType} : (propose c command typ).1.entries =
      c.entries ++ [⟨c.term, lastLogIndex c + 1, typ, command⟩] := by
  rw [propose, if_neg (not_not.mpr hrole), if_neg (not_not.mpr htarget)]
  obtain ⟨out, hout, -⟩ := replicates_broadcastAppends
    (appendOwn c ⟨c.term, lastLogIndex c + 1, typ, command⟩)
  exact ((sameLog_replicates hout).trans (sameLog_maybeAdvanceCommit _)).entries

theorem mem_entries_propose {typ : EntryType} {term : Nat}
    (h : (propose c command typ).2 = .ok (index, term)) :
    ⟨term, index, typ, command⟩ ∈ (propose c command typ).1.entries := by
  by_cases hrole : c.role = .leader
  · by_cases htarget : c.transferTarget = 0
    · rw [entries_propose hrole htarget]
      unfold propose at h
      rw [if_neg (not_not.mpr hrole), if_neg (not_not.mpr htarget)] at h
      cases h
      exact List.mem_concat_self
    · unfold propose at h
      rw [if_neg (not_not.mpr hrole), if_pos htarget] at h
      cases h
  · unfold propose at h
    rw [if_pos hrole] at h
    cases h

end Naming

section Answers

variable {σ : Type} {S : StateMachine σ} {n a b : Node σ} {m : Msg}
variable {W : Nat → Option Waiter} {es : List Entry} {start : List Effect}

/-- What a proposal is told when `e` is applied at its index. -/
def verdict (w : Waiter) (e : Entry) : Except NodeError Unit :=
  if w.term = e.term then .ok () else .error .proposalLost

/-- Among the effects of `n`, those beyond `start` apply entries of `es`, and answer the
waiters `W` after the entry they wait for has been applied. -/
structure Answering (W : Nat → Option Waiter) (es : List Entry) (start : List Effect)
    (n : Node σ) : Prop where
  waiters : ∀ index w, n.waiters index = some w → W index = some w
  applied : ∀ e, .applied e ∈ n.effects → .applied e ∈ start ∨ e ∈ es
  answered : ∀ done r, .answered done r ∈ n.effects → .answered done r ∈ start ∨
    ∃ e ∈ es, ∃ w before after, W e.index = some w ∧ w.done = done ∧ r = verdict w e ∧
      n.effects = before ++ .answered done r :: after ∧ .applied e ∈ before

/-- Effects that neither apply an entry nor answer a proposal. -/
def aside : Effect → Bool
  | .restored _ | .readAnswered _ _ => true
  | _ => false

theorem answering_append (h : Answering W es start n) {l : List Effect}
    (hw : a.waiters = n.waiters) (he : a.effects = n.effects ++ l) (hl : ∀ x ∈ l, aside x = true) :
    Answering W es start a where
  waiters := hw ▸ h.waiters
  applied := by
    intro e hmem
    rw [he] at hmem
    rcases List.mem_append.mp hmem with hmem | hmem
    · exact h.applied e hmem
    · cases hl _ hmem
  answered := by
    intro done r hmem
    rw [he] at hmem
    rcases List.mem_append.mp hmem with hmem | hmem
    · refine (h.answered done r hmem).imp_right ?_
      rintro ⟨e, hes, w, before, after, hW, hdone, hr, heq, hin⟩
      refine ⟨e, hes, w, before, after ++ l, hW, hdone, hr, ?_, hin⟩
      rw [he, heq, List.append_assoc, List.cons_append]
    · cases hl _ hmem

theorem answering_fireAppliedWaiters (h : Answering W es start n) :
    Answering W es start (fireAppliedWaiters n) := by
  refine answering_append h rfl rfl ?_
  intro x hx
  obtain ⟨w, -, rfl⟩ := List.mem_map.mp hx
  rfl

theorem answering_answerWaiter (h : Answering W es start n) (he : e ∈ es)
    (happlied : .applied e ∈ n.effects) : Answering W es start (answerWaiter n e) := by
  unfold answerWaiter
  cases hw : n.waiters e.index with
  | none => exact h
  | some w =>
      refine ⟨?_, ?_, ?_⟩
      · intro index w' hw'
        refine h.waiters index w' ?_
        change Function.update n.waiters e.index none index = some w' at hw'
        by_cases hindex : index = e.index
        · rw [hindex, Function.update_self] at hw'
          cases hw'
        · rwa [Function.update_of_ne hindex] at hw'
      · intro e' he'
        rcases List.mem_append.mp he' with he' | he'
        · exact h.applied e' he'
        · cases List.mem_singleton.mp he'
      · intro done r hmem
        rcases List.mem_append.mp hmem with hmem | hmem
        · refine (h.answered done r hmem).imp_right ?_
          rintro ⟨f, hf, w', before, after, hW, hdone, hr, heq, hin⟩
          refine ⟨f, hf, w', before, after ++ [.answered w.done (verdict w e)], hW, hdone, hr, ?_,
            hin⟩
          change n.effects ++ [Effect.answered w.done (verdict w e)] = _
          rw [heq, List.append_assoc, List.cons_append]
        · cases List.mem_singleton.mp hmem
          exact Or.inr ⟨e, he, w, n.effects, [], h.waiters _ w hw, rfl, rfl, rfl, happlied⟩

theorem answering_applyEntry (h : Answering W es start n) (he : e ∈ es) :
    Answering W es start (applyEntry S n e) := by
  have hemit : Answering W es start
      (emit { n with sm := feedEntry S n.sm e, applied := e.index } (.applied e)) := by
    refine ⟨h.waiters, ?_, ?_⟩
    · intro f hf
      rcases List.mem_append.mp hf with hf | hf
      · exact h.applied f hf
      · cases List.mem_singleton.mp hf
        exact Or.inr he
    · intro done r hmem
      rcases List.mem_append.mp hmem with hmem | hmem
      · refine (h.answered done r hmem).imp_right ?_
        rintro ⟨f, hf, w, before, after, hW, hdone, hr, heq, hin⟩
        refine ⟨f, hf, w, before, after ++ [.applied e], hW, hdone, hr, ?_, hin⟩
        change n.effects ++ [Effect.applied e] = _
        rw [heq, List.append_assoc, List.cons_append]
      · cases List.mem_singleton.mp hmem
  refine answering_answerWaiter (answering_fireAppliedWaiters hemit) he ?_
  exact List.mem_append_left _ List.mem_concat_self

theorem answering_resolveRead (h : Answering W es start n) (r : ReadOutcome) :
    Answering W es start (resolveRead n r) := by
  have hemit : ∀ respc result, Answering W es start
      (emit { n with readWaiters := Function.update n.readWaiters r.id none }
        (.readAnswered respc result)) := by
    intro respc result
    refine answering_append h rfl rfl fun x hx => ?_
    rw [List.mem_singleton.mp hx]
    rfl
  unfold resolveRead
  split
  · exact h
  · dsimp only
    split
    · exact hemit _ _
    · split
      · exact hemit _ _
      · exact ⟨h.waiters, h.applied, h.answered⟩

theorem answering_restoreFrom (h : Answering W es start n) {data : Option Bytes}
    (hb : restoreFrom S n data = some b) : Answering W es start b := by
  cases data with
  | none =>
      obtain rfl := Option.some.inj hb
      exact h
  | some data =>
      obtain ⟨sm, -, rfl⟩ := Option.map_eq_some_iff.mp hb
      refine answering_fireAppliedWaiters (answering_append h rfl rfl fun x hx => ?_)
      rw [List.mem_singleton.mp hx]
      rfl

theorem answering_drain {c : Core} (hb : drain S n c = some b) :
    Answering n.waiters c.committed n.effects b := by
  obtain ⟨a, ha, rfl⟩ := Option.map_eq_some_iff.mp hb
  refine List.foldlRecOn _ _ ?_ fun n h r _ => answering_resolveRead h r
  refine List.foldlRecOn _ _ ?_ fun n h e he => answering_applyEntry h he
  exact answering_restoreFrom
    ⟨fun _ _ h => h, fun _ h => Or.inl h, fun _ _ h => Or.inl h⟩ ha

def opens : Msg → Option Chan
  | .propose _ done | .confChange _ done => some done
  | .transfer _ respc | .read respc => some respc
  | .tick | .deliver _ => none

/-- The channel on which a message wants one answer that is not a read. -/
def asks : Msg → Option Chan
  | .propose _ done | .confChange _ done | .transfer _ done => some done
  | .tick | .deliver _ | .read _ => none

/-- The message makes a proposal that is taken and waits as `w` under `index`. -/
def Enlists (c : Core) (m : Msg) (index : Nat) (w : Waiter) : Prop :=
  match m with
  | .propose command done => (propose c command .normal).2 = .ok (index, w.term) ∧ w.done = done
  | .confChange cc done => (proposeConfChange c cc).2 = .ok (index, w.term) ∧ w.done = done
  | _ => False

/-- How a call leaves its node, and the one who asked for it. -/
inductive Received (n : Node σ) : Msg → Node σ → Prop
  | silent {m : Msg} (c : Core) (hm : opens m = none) : Received n m { n with core := c }
  | enlisted {m : Msg} (c : Core) (index : Nat) (w : Waiter) (hw : Enlists n.core m index w) :
      Received n m { n with core := c, waiters := Function.update n.waiters index (some w) }
  | answered {m : Msg} (c : Core) (done : Chan) (r : Except NodeError Unit)
      (hm : asks m = some done)
      (hr : (∃ target, m = .transfer target done) ∨ ∃ err, r = .error (.rejected err)) :
      Received n m (emit { n with core := c } (.answered done r))
  | refused (c : Core) (ch : Chan) (err : NodeError) (hno : ∀ id, (requestRead n.core).2 ≠ .ok id) :
      Received n (.read ch) (emit { n with core := c } (.readAnswered ch (.error err)))
  | registered (c : Core) (ch : Chan) (id : Nat) (hid : (requestRead n.core).2 = .ok id) :
      Received n (.read ch)
        { n with core := c, readWaiters := Function.update n.readWaiters id (some ch) }

theorem received_dispatch (n : Node σ) (m : Msg) : Received n m (dispatch n m).1 := by
  have henlist : ∀ done (r : Core × Except RaftError (Nat × Nat)), asks m = some done →
      (∀ index term, r.2 = .ok (index, term) → Enlists n.core m index ⟨term, done⟩) →
      Received n m (enlist n done r) := by
    rintro done ⟨c, err | ⟨index, term⟩⟩ hm hr
    · exact .answered c done _ hm (Or.inr ⟨err, rfl⟩)
    · exact .enlisted c index _ (hr index term rfl)
  cases m with
  | tick => exact .silent _ rfl
  | deliver p =>
      rcases hc : handle n.core (eventOf p) with ⟨c, err | resp⟩
      all_goals
        simp only [dispatch, hc]
        exact .silent c rfl
  | propose command done => exact henlist done _ rfl fun index term hr => ⟨hr, rfl⟩
  | confChange cc done => exact henlist done _ rfl fun index term hr => ⟨hr, rfl⟩
  | transfer target respc => exact .answered _ respc _ rfl (Or.inl ⟨target, rfl⟩)
  | read respc =>
      rcases hc : requestRead n.core with ⟨c, err | id⟩
      all_goals simp only [dispatch, hc]
      · refine .refused c respc _ fun id hid => ?_
        rw [hc] at hid
        cases hid
      · exact .registered c respc id (by rw [hc])

/-- What a call says to the one who asked for it. -/
structure Registered (n : Node σ) (m : Msg) (a : Node σ) : Prop where
  waiters : ∀ index w, a.waiters index = some w →
    n.waiters index = some w ∨ Enlists n.core m index w
  applied : ∀ e, .applied e ∉ a.effects
  answered : ∀ done r, .answered done r ∈ a.effects →
    (∃ target, m = .transfer target done) ∨ ∃ err, r = .error (.rejected err)

theorem registered_dispatch (hn : n.effects = []) (m : Msg) :
    Registered n m (dispatch n m).1 := by
  have hnone : ∀ x, x ∉ n.effects := by
    rw [hn]
    exact fun x => List.not_mem_nil
  have hemit : ∀ {c : Core} {x y : Effect}, x ∈ (emit { n with core := c } y).effects → x = y := by
    intro c x y hx
    exact List.mem_singleton.mp ((List.mem_append.mp hx).resolve_left (hnone x))
  have hrec := received_dispatch n m
  generalize (dispatch n m).1 = a at hrec ⊢
  cases hrec with
  | silent | registered =>
      exact ⟨fun _ _ hw => Or.inl hw, fun e he => absurd he (hnone _),
        fun _ _ hr => absurd hr (hnone _)⟩
  | enlisted c index w hw =>
      refine ⟨fun index' w' hw' => ?_, fun e he => absurd he (hnone _),
        fun _ _ hr => absurd hr (hnone _)⟩
      change Function.update n.waiters index (some w) index' = some w' at hw'
      by_cases hindex : index' = index
      · rw [hindex, Function.update_self] at hw'
        exact Or.inr (hindex ▸ Option.some.inj hw' ▸ hw)
      · rw [Function.update_of_ne hindex] at hw'
        exact Or.inl hw'
  | answered c done r hm hr =>
      refine ⟨fun _ _ hw => Or.inl hw, (fun e he => by cases hemit he), fun done' r' hr' => ?_⟩
      cases hemit hr'
      exact hr
  | refused =>
      exact ⟨fun _ _ hw => Or.inl hw, (fun e he => by cases hemit he),
        fun _ _ hr => by cases hemit hr⟩

/-- What a turn says to those who wait: where its waiters come from, that it applies what
its core has delivered, and whom it answers. -/
structure Told (n : Node σ) (m : Msg) (n' : Node σ) : Prop where
  waiters : ∀ index w, n'.waiters index = some w →
    n.waiters index = some w ∨ n.stopped = false ∧ Enlists n.core m index w
  applied : ∀ e, .applied e ∈ n'.effects →
    n.stopped = false ∧ e ∈ (respond n.core m.input).1.committed
  answered : ∀ done r, .answered done r ∈ n'.effects →
    (∃ target, m = .transfer target done) ∨ (∃ err, r = .error (.rejected err)) ∨
      ∃ e w before after,
        (n.waiters e.index = some w ∨ n.stopped = false ∧ Enlists n.core m e.index w) ∧
        w.done = done ∧ r = verdict w e ∧ n'.effects = before ++ .answered done r :: after ∧
        .applied e ∈ before

theorem told_of_registered (h : Registered n m a) (hstop : n.stopped = false)
    (hw : b.waiters = a.waiters) (he : b.effects = a.effects) : Told n m b where
  waiters := fun index w hb => (h.waiters index w (hw ▸ hb)).imp_right fun hr => ⟨hstop, hr⟩
  applied := fun e hmem => absurd (he ▸ hmem) (h.applied e)
  answered := by
    intro done r hmem
    rcases h.answered done r (he ▸ hmem) with htransfer | hreject
    · exact Or.inl htransfer
    · exact Or.inr (Or.inl hreject)

theorem told_step (hq : n.stopped = false → takeQueues n.core = n.core) (m : Msg) :
    Told n m (step S n m).1 := by
  have hturn := turn_step S n m
  have hreg := registered_dispatch (n := { n with effects := [] }) rfl m
  generalize (step S n m).1 = n' at hturn
  generalize (step S n m).2 = sent at hturn
  cases hturn with
  | stopped hstop =>
      exact ⟨fun _ _ h => Or.inl h, fun e he => absurd he List.not_mem_nil,
        fun done r hr => absurd hr List.not_mem_nil⟩
  | failed a hstop hd =>
      rw [hd] at hreg
      exact told_of_registered (n := n) ⟨hreg.waiters, hreg.applied, hreg.answered⟩ hstop rfl rfl
  | halted a hstop hd hb =>
      rw [hd] at hreg
      exact told_of_registered (n := n) ⟨hreg.waiters, hreg.applied, hreg.answered⟩ hstop rfl rfl
  | turned a b hstop hd hb =>
      rw [hd] at hreg
      have hans := answering_drain hb
      have hcore : (respond n.core m.input).1 = a.core := by
        rw [respond_of_dispatch (hq hstop) hd]
      have hpost : (maybeCompact S b).waiters = b.waiters ∧
          (maybeCompact S b).effects = b.effects := by
        rcases maybeCompact_cases S b with heq | ⟨data, -, -, heq⟩ <;> rw [heq] <;> exact ⟨rfl, rfl⟩
      refine ⟨?_, ?_, ?_⟩
      · intro index w hw
        rw [hpost.1] at hw
        exact (hreg.waiters index w (hans.waiters index w hw)).imp_right fun hr => ⟨hstop, hr⟩
      · intro e he
        rw [hpost.2] at he
        rw [hcore]
        exact ⟨hstop, (hans.applied e he).resolve_left (hreg.applied e)⟩
      · intro done r hr
        rw [hpost.2] at hr ⊢
        rcases hans.answered done r hr with hr | ⟨e, -, w, before, after, hw, hrest⟩
        · rcases hreg.answered done r hr with htransfer | hreject
          · exact Or.inl htransfer
          · exact Or.inr (Or.inl hreject)
        · exact Or.inr (Or.inr ⟨e, w, before, after,
            (hreg.waiters _ w hw).imp_right fun hr => ⟨hstop, hr⟩, hrest⟩)

theorem commitIndex_step (hq : takeQueues n.core = n.core) (hstop : n.stopped = false) (m : Msg) :
    (step S n m).1.core.commitIndex = (respond n.core m.input).1.commitIndex := by
  rcases core_step (S := S) hq hstop m with heq | heq | ⟨data, heq⟩ <;> rw [heq]
  · rfl
  · exact commitIndex_compact _ _ data

end Answers

section Runs

variable {σ : Type} {S : StateMachine σ} {D : Deployment} {threshold : ID → Nat}
variable {s : NodeState σ} {i : ID} {n : Node σ}

theorem exists_enlists (hs : Reachable (nodeSystem D S threshold) s) (hup : s.node i = .up n)
    {w : Waiter} (hw : n.waiters index = some w) :
    ∃ k ∈ s.trace, k.pre.stopped = false ∧ Enlists k.pre.core k.input index w := by
  refine nodes_induction (Q := fun calls i life => ∀ n, life = .up n → ∀ index w,
    n.waiters index = some w →
      ∃ k ∈ calls, k.pre.stopped = false ∧ Enlists k.pre.core k.input index w)
    ?_ ?_ ?_ ?_ ?_ hs i n hup index w hw
  · intro i n h
    cases h
  · intro s i n m hreach ih hup hm n' heq index w hw
    cases heq
    rcases (told_step (queues_taken hreach hup) m).waiters index w hw with hold | hnew
    · obtain ⟨k, hk, hrest⟩ := ih i n hup index w hold
      exact ⟨k, List.mem_append_left _ hk, hrest⟩
    · exact ⟨_, List.mem_concat_self, hnew⟩
  · intro s i n m j life _ h n' heq index w hw
    obtain ⟨k, hk, hrest⟩ := h n' heq index w hw
    exact ⟨k, List.mem_append_left _ hk, hrest⟩
  · intro calls i n _ n' heq
    cases heq
  · intro calls i rng d n _ hboot n' heq index w hw
    cases heq
    obtain ⟨c, -, hn⟩ := newNode_cases hboot
    rcases hn with ⟨-, rfl⟩ | ⟨data, sm, -, -, rfl⟩ <;> cases hw

theorem opens_of_enlists {c : Core} {m : Msg} {w : Waiter}
    (h : Enlists c m index w) : opens m = some w.done := by
  cases m with
  | propose command done => exact congrArg some h.2.symm
  | confChange cc done => exact congrArg some h.2.symm
  | _ => exact absurd h id

theorem told_of_mem (hs : Reachable (nodeSystem D S threshold) s) {k : NodeCall σ}
    (hk : k ∈ s.trace) : Told k.pre k.input k.post := by
  obtain ⟨p, hp⟩ := List.mem_iff_getElem?.mp hk
  obtain ⟨s₀, hmade, -⟩ := exists_madeIn hs hp
  have h := told_step (S := S) (queues_taken hmade.reachable hmade.up) k.input
  rwa [← show k.post = (step S k.pre k.input).1 from hmade.post] at h

theorem exists_verdict (hs : Reachable (nodeSystem D S threshold) s) {j k : NodeCall σ}
    (hk : k ∈ s.trace) (hin : j.input = .propose command done)
    (honly : ∀ j' ∈ s.trace, opens j'.input = some done → j' = j) {r : Except NodeError Unit}
    (hr : .answered done r ∈ k.post.effects) (hrej : ∀ err, r ≠ .error (.rejected err)) :
    ∃ e w before after, j.pre.stopped = false ∧
      (propose j.pre.core command .normal).2 = .ok (e.index, w.term) ∧ r = verdict w e ∧
      k.post.effects = before ++ .answered done r :: after ∧ .applied e ∈ before := by
  rcases (told_of_mem hs hk).answered done r hr with
    ⟨target, htransfer⟩ | ⟨err, hreject⟩ | ⟨e, w, before, after, hw, hdone, hrest⟩
  · obtain rfl := honly k hk (by rw [htransfer]; rfl)
    rw [hin] at htransfer
    cases htransfer
  · exact absurd hreject (hrej err)
  · have hwait : ∃ j' ∈ s.trace, j'.pre.stopped = false ∧
        Enlists j'.pre.core j'.input e.index w := by
      rcases hw with hold | hnew
      · obtain ⟨p, hp⟩ := List.mem_iff_getElem?.mp hk
        obtain ⟨s₀, hmade, htrace⟩ := exists_madeIn hs hp
        obtain ⟨j', hj', hrest⟩ := exists_enlists hmade.reachable hmade.up hold
        rw [htrace] at hj'
        exact ⟨j', List.mem_of_mem_take hj', hrest⟩
      · exact ⟨k, hk, hnew⟩
    obtain ⟨j', hj', hstop, henlist⟩ := hwait
    obtain rfl := honly j' hj' (by rw [opens_of_enlists henlist, hdone])
    rw [hin] at henlist
    exact ⟨e, w, before, after, hstop, henlist.1, hrest⟩

def delivered (k : NodeCall σ) : List Entry :=
  if k.pre.stopped = true then [] else (respond k.pre.core k.input.input).1.committed

theorem mem_delivered_of_applied (hs : Reachable (nodeSystem D S threshold) s) {k : NodeCall σ}
    (hk : k ∈ s.trace) (he : .applied e ∈ k.post.effects) : e ∈ delivered k := by
  obtain ⟨hstop, hmem⟩ := (told_of_mem hs hk).applied e he
  rw [delivered, if_neg (by rw [hstop]; nofun)]
  exact hmem

theorem exists_delivers {s' : CoreState} (h : Projects S s s') {k : NodeCall σ}
    (hk : k ∈ s.trace) (he : e ∈ delivered k) : k.pre.stopped = false ∧
      ∃ c, takeQueues c = k.pre.core ∧ coreCall k c ∈ s'.trace ∧
        e ∈ (coreCall k c).post.committed := by
  unfold delivered at he
  split at he
  · exact absurd he List.not_mem_nil
  · rename_i hstop
    rw [Bool.not_eq_true] at hstop
    obtain ⟨c, hc, hcall⟩ := exists_coreCall h hk hstop
    rw [← hc, respond_takeQueues] at he
    exact ⟨hstop, c, hc, hcall, he⟩

theorem covered_of_mem {s : CoreState} (hs : Reachable (coreSystem D) s)
    (hreg : Regular D s) {k : CoreCall} (hk : k ∈ s.trace) : Covered k.post := by
  have hlog := withinLog_of_regular hs hreg
  obtain ⟨n, hn⟩ := List.mem_iff_getElem?.mp hk
  obtain ⟨s₀, hmade, htrace⟩ := exists_madeIn hs hn
  have hlog₀ : ∀ j ∈ s₀.trace, withinLog j.pre j.input := by
    rw [htrace]
    exact fun j hj => hlog j (List.mem_of_mem_take hj)
  rw [show k.post = (respond k.pre k.input).1 from hmade.post]
  exact covered_respond (fairInput_of_madeIn hmade hlog₀)
    (sane_of_up hmade.reachable hlog₀ hmade.up).kept

theorem eq_of_delivered {s : CoreState} (hs : Reachable (coreSystem D) s)
    (hreg : Regular D s) {j k : CoreCall} (hj : j ∈ s.trace) (hk : k ∈ s.trace)
    {e' : Entry} (he : e ∈ j.post.entries) (he' : e' ∈ k.post.committed)
    (hindex : e.index = e'.index) (hterm : e.term = e'.term) : e = e' := by
  obtain ⟨g, hrel, hlogged⟩ :=
    exists_protocol_with (P := fun g k => ∀ e ∈ k.post.entries, Logged g e)
      (fun _ _ _ hg h e he => logged_mono hg (h e he))
      (fun _ _ _ hs h _ he => logged_of_mem hs h he) hs hreg
  obtain ⟨hpos, hchosen⟩ := (hrel.calls k hk).chosen e' he'
  exact eq_of_logged (hlogged j hj e he) (logged_of_chosen hrel.world.sound hpos hchosen) hindex
    hterm

/-- A proposal, made on a channel of its own, that hears of success was committed and
applied by its node before, exactly as proposed; one that hears it is lost is never
applied by anyone. -/
theorem proposal_outcomes_truthful (hs : Reachable (nodeSystem D S threshold) s)
    (hfix : FixedNodes D s) (hbound : BoundedNodes s) {j k : NodeCall σ} (hj : j ∈ s.trace)
    (hk : k ∈ s.trace) {command : Command} {done : Chan} (hin : j.input = .propose command done)
    (honly : ∀ j' ∈ s.trace, opens j'.input = some done → j' = j) :
    (.answered done (.ok ()) ∈ k.post.effects → ∃ index term,
      (propose j.pre.core command .normal).2 = .ok (index, term) ∧
      index ≤ k.post.core.commitIndex ∧
      ∃ before after, k.post.effects = before ++ .answered done (.ok ()) :: after ∧
        .applied ⟨term, index, .normal, command⟩ ∈ before) ∧
    (.answered done (.error .proposalLost) ∈ k.post.effects → ∃ index term,
      (propose j.pre.core command .normal).2 = .ok (index, term) ∧
      ∀ k' ∈ s.trace, ∀ e ∈ delivered k', e.index = index → e.term ≠ term) := by
  obtain ⟨s', hs', hproj⟩ := exists_core_run hs
  have hreg := regular_of_projects hproj ⟨hfix, hbound⟩
  refine ⟨fun hr => ?_, fun hr => ?_⟩
  · obtain ⟨e, w, before, after, hstop, hprop, hv, heq, happlied⟩ :=
      exists_verdict hs hk hin honly hr nofun
    have hterm : w.term = e.term := by
      by_contra hne
      rw [verdict, if_neg hne] at hv
      cases hv
    have hmem : .applied e ∈ k.post.effects := heq ▸ List.mem_append_left _ happlied
    obtain ⟨hrun, c, hc, hcall, hdel⟩ :=
      exists_delivers hproj hk (mem_delivered_of_applied hs hk hmem)
    have hname : (⟨w.term, e.index, .normal, command⟩ : Entry) = e := by
      obtain ⟨c₀, hc₀, hcall₀⟩ := exists_coreCall hproj hj hstop
      refine eq_of_delivered hs' hreg hcall₀ hcall ?_ hdel rfl hterm
      have hlog := mem_entries_propose hprop
      rw [← hc₀] at hlog
      change _ ∈ (respond c₀ j.input.input).1.entries
      rw [hin]
      change _ ∈ (react c₀ _ _).1.entries
      rw [react_fst]
      exact hlog
    refine ⟨e.index, w.term, hprop, ?_, before, after, heq, hname ▸ happlied⟩
    obtain ⟨p, hp⟩ := List.mem_iff_getElem?.mp hk
    obtain ⟨s₀, hmade, -⟩ := exists_madeIn hs hp
    rw [show k.post = (step S k.pre k.input).1 from hmade.post,
      commitIndex_step (queues_taken hmade.reachable hmade.up hrun) hrun, ← hc, respond_takeQueues]
    exact covered_of_mem hs' hreg hcall e hdel
  · obtain ⟨e, w, before, after, -, hprop, hv, heq, happlied⟩ :=
      exists_verdict hs hk hin honly hr nofun
    have hterm : w.term ≠ e.term := by
      intro heq
      rw [verdict, if_pos heq] at hv
      cases hv
    have hmem : .applied e ∈ k.post.effects := heq ▸ List.mem_append_left _ happlied
    refine ⟨e.index, w.term, hprop, ?_⟩
    intro k' hk' e' he' hindex
    obtain ⟨-, c, -, hcall, hdel⟩ := exists_delivers hproj hk (mem_delivered_of_applied hs hk hmem)
    obtain ⟨-, c', -, hcall', hdel'⟩ := exists_delivers hproj hk' he'
    obtain ⟨g, hrel⟩ := exists_protocol hs' hreg
    rw [eq_of_committed hrel hcall' hcall hdel' hdel hindex]
    exact hterm.symm

/-- A state machine that writes down what it applies, and is never compacted. -/
def journal : StateMachine (List Bytes) where
  fresh := []
  apply := fun m _ b => m ++ [b]
  snapshot := fun _ => none
  restore := fun _ _ => none

/-- Node 1 takes a command and is succeeded by node 2 before sending it; node 2 commits
another one. -/
def succession : List (Action ID Msg (Nat → Nat)) :=
  [.restart 1 fun _ => 0, .restart 2 fun _ => 0, .restart 3 fun _ => 0,
    .act 1 .tick, .deliver 0, .deliver 2, .deliver 3, .deliver 5, .deliver 4,
    .act 1 (.propose (oneByte 65) 7), .act 2 .tick, .deliver 9, .deliver 10, .deliver 12,
    .deliver 13, .deliver 14, .deliver 16, .act 2 (.propose (oneByte 66) 8), .deliver 17,
    .deliver 18, .deliver 20]

theorem exists_only {β : Type} {f : NodeCall σ → β} {b : β}
    (h : (s.trace.filter fun k => opens k.input = some done).map f = [b]) :
    ∃ j ∈ s.trace, f j = b ∧ opens j.input = some done ∧
      ∀ j' ∈ s.trace, opens j'.input = some done → j' = j := by
  obtain ⟨j, hj, hin⟩ := List.map_eq_singleton_iff.mp h
  have hmem : ∀ j', j' ∈ s.trace ∧ opens j'.input = some done ↔ j' = j := by
    intro j'
    have h : j' ∈ s.trace.filter (fun k => opens k.input = some done) ↔ _ := List.mem_filter
    rw [hj, List.mem_singleton, decide_eq_true_eq] at h
    exact h.symm
  obtain ⟨hmem', hopens⟩ := (hmem j).mpr rfl
  exact ⟨j, hmem', hin, hopens, fun j' hj' hopens' => (hmem j').mp ⟨hj', hopens'⟩⟩

theorem proposal_outcomes_truthful_succession :
    ∃ s, Reachable (nodeSystem trio journal fun _ => 0) s ∧ FixedNodes trio s ∧ BoundedNodes s ∧
      (∃ j ∈ s.trace, ∃ k ∈ s.trace, .answered 7 (.error .proposalLost) ∈ k.post.effects ∧
        ∃ index term, (propose j.pre.core (oneByte 65) .normal).2 = .ok (index, term) ∧
          ∀ k' ∈ s.trace, ∀ e ∈ delivered k', e.index = index → e.term ≠ term) ∧
      ∃ j ∈ s.trace, ∃ k ∈ s.trace, .answered 8 (.ok ()) ∈ k.post.effects ∧
        ∃ index term, (propose j.pre.core (oneByte 66) .normal).2 = .ok (index, term) ∧
          index ≤ k.post.core.commitIndex ∧
          ∃ before after, k.post.effects = before ++ .answered 8 (.ok ()) :: after ∧
            .applied ⟨term, index, .normal, (oneByte 66)⟩ ∈ before := by
  obtain ⟨s, hs, hsame, hbound, hlost, hwon, ⟨k, hk, hr⟩, k', hk', hr'⟩ :=
    exists_of_run (nodeSystem trio journal fun _ => 0) succession (fun s =>
      UnchangingNodes s ∧ BoundedNodes s ∧
      (s.trace.filter fun k => opens k.input = some 7).map (·.input) =
        [.propose (oneByte 65) 7] ∧
      (s.trace.filter fun k => opens k.input = some 8).map (·.input) =
        [.propose (oneByte 66) 8] ∧
      (∃ k ∈ s.trace, .answered 7 (.error .proposalLost) ∈ k.post.effects) ∧
      ∃ k ∈ s.trace, .answered 8 (.ok ()) ∈ k.post.effects)
      (by decide +kernel)
  obtain ⟨j, hj, hin, -, honly⟩ := exists_only hlost
  obtain ⟨j', hj', hin', -, honly'⟩ := exists_only hwon
  have hfix : FixedNodes trio s := ⟨uniform_trio, hsame⟩
  exact ⟨s, hs, hfix, hbound,
    ⟨j, hj, k, hk, hr, (proposal_outcomes_truthful hs hfix hbound hj hk hin honly).2 hr⟩,
    j', hj', k', hk', hr', (proposal_outcomes_truthful hs hfix hbound hj' hk' hin' honly').1 hr'⟩

/-- The index and term a proposal is given. -/
def offered (k : NodeCall σ) : Option (Nat × Nat) :=
  match k.input with
  | .propose command _ => (propose k.pre.core command .normal).2.toOption
  | _ => none

theorem propose_of_offered {k : NodeCall σ} {place : Nat × Nat}
    (h : offered k = some place) (hopens : opens k.input = some done) :
    ∃ command, k.input = .propose command done ∧
      (propose k.pre.core command .normal).2 = .ok place := by
  unfold offered at h
  split at h
  · rename_i command done' hin
    rw [hin] at hopens
    obtain rfl := Option.some.inj hopens
    refine ⟨command, hin, ?_⟩
    cases hr : (propose k.pre.core command .normal).2 with
    | error err =>
        rw [hr] at h
        cases h
    | ok place' =>
        rw [hr] at h
        rw [Option.some.inj h]
  · cases h

/-- Node 1 takes a command that is too long to be replayed and sends it to node 2, which
leads term 2, commits it with node 3 and delivers it. Both restart without it; node 3 leads
term 3, and its no-op replaces the command on node 1. -/
def supplanted : List (Action ID Msg (Nat → Nat)) :=
  [.restart 1 fun _ => 0, .restart 2 fun _ => 0, .restart 3 fun _ => 0, .act 1 .tick, .deliver 0,
    .deliver 2, .act 1 (.propose oversize 7), .deliver 5, .act 2 .tick, .deliver 9, .deliver 10,
    .deliver 12, .deliver 13, .deliver 14, .deliver 15, .deliver 16, .deliver 17, .crash 2,
    .crash 3, .restart 2 fun _ => 0, .restart 3 fun _ => 0, .act 3 .tick, .deliver 19,
    .deliver 20, .deliver 21, .deliver 23, .act 3 .tick, .deliver 24]

/-- A proposal hears that its entry is lost, which another node has delivered. -/
theorem proposal_outcomes_truthful_oversize :
    ∃ s, Reachable (nodeSystem trio journal fun _ => 0) s ∧ FixedNodes trio s ∧
      ∃ j ∈ s.trace, ∃ command, j.input = .propose command 7 ∧
        (∀ j' ∈ s.trace, opens j'.input = some 7 → j' = j) ∧
        (∃ k ∈ s.trace, .answered 7 (.error .proposalLost) ∈ k.post.effects) ∧
        ∃ index term, (propose j.pre.core command .normal).2 = .ok (index, term) ∧
          ∃ k' ∈ s.trace, ∃ e ∈ delivered k', e.index = index ∧ e.term = term := by
  obtain ⟨s, hs, hsame, hlost, hk, hdelivered⟩ :=
    exists_of_run (nodeSystem trio journal fun _ => 0) supplanted (fun s => UnchangingNodes s ∧
      (s.trace.filter fun k => opens k.input = some 7).map offered = [some (2, 1)] ∧
      (∃ k ∈ s.trace, .answered 7 (.error .proposalLost) ∈ k.post.effects) ∧
      ∃ k ∈ s.trace, ∃ e ∈ delivered k, e.index = 2 ∧ e.term = 1) (by decide +kernel)
  obtain ⟨j, hj, hoffered, hopens, honly⟩ := exists_only hlost
  obtain ⟨command, hin, hprop⟩ := propose_of_offered hoffered hopens
  exact ⟨s, hs, ⟨uniform_trio, hsame⟩, j, hj, command, hin, honly, hk, 2, 1, hprop, hdelivered⟩

end Runs

end RaftKV.Safety.Proposals
