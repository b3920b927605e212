import RaftKV.Raft.EventLoop

/-!
A run of nodes is a run of their cores: every turn of an event loop is one call of the
core, and a compaction if one is due.
-/

namespace RaftKV.Refinement.Projection

open Distributed.Network
open Raft Raft.Cluster
open Raft.EventLoop

variable {σ : Type} {S : StateMachine σ} {D : Deployment} {threshold : ID → Nat}
variable {s : NodeState σ} {s' : CoreState} {i : ID} {n a b : Node σ} {m : Msg} {c : Core}
variable {life : Life Core Disk}
variable {groups : List (List CoreCall)} {calls : List (NodeCall σ)} {k : NodeCall σ}

section Turns

/-- How a turn of the loop ends: `a` is the node after the call of its core, `b` the
node once the queues are drained. -/
inductive Turn (S : StateMachine σ) (n : Node σ) (m : Msg) : Node σ → List Packet → Prop
  | stopped (hstop : n.stopped = true) : Turn S n m { n with effects := [] } []
  | failed (a : Node σ) (hstop : n.stopped = false)
      (hd : dispatch { n with effects := [] } m = (a, none)) :
      Turn S n m { a with stopped := true } []
  | halted (a : Node σ) {replies : List Packet} (hstop : n.stopped = false)
      (hd : dispatch { n with effects := [] } m = (a, some replies))
      (hb : drain S { a with core := takeQueues a.core } a.core = none) :
      Turn S n m { a with core := takeQueues a.core, stopped := true } replies
  | turned (a b : Node σ) {replies : List Packet} (hstop : n.stopped = false)
      (hd : dispatch { n with effects := [] } m = (a, some replies))
      (hb : drain S { a with core := takeQueues a.core } a.core = some b) :
      Turn S n m (maybeCompact S b) (replies ++ outgoing a.core)

theorem turn_step (S : StateMachine σ) (n : Node σ) (m : Msg) :
    Turn S n m (step S n m).1 (step S n m).2 := by
  unfold step
  dsimp only
  by_cases hstop : n.stopped = true
  · rw [if_pos hstop]
    exact Turn.stopped hstop
  · rw [if_neg hstop]
    rw [Bool.not_eq_true] at hstop
    split
    · rename_i a hd
      exact Turn.failed a hstop hd
    · rename_i a replies hd
      unfold afterStep
      dsimp only
      split
      · rename_i hb
        rw [List.append_nil]
        exact Turn.halted a hstop hd hb
      · rename_i b hb
        exact Turn.turned a b hstop hd hb

/-- A call changes the core as `respond` says, and leaves the rest of the node alone but
for its waiters and answers. -/
structure Dispatched (n : Node σ) (m : Msg) (a : Node σ) (replies : Option (List Packet)) :
    Prop where
  core : a.core = (respond n.core m.input).1
  sent : replies.map (· ++ outgoing a.core) = (respond n.core m.input).2
  sm : a.sm = n.sm
  applied : a.applied = n.applied
  appliedWaiters : a.appliedWaiters = n.appliedWaiters
  stopped : a.stopped = n.stopped

theorem respond_client {ev : Event} {c' : Core} (hq : takeQueues c = c)
    (h : handle c ev = (c', .ok .none)) : respond c (.client ev) = (c', some (outgoing c')) := by
  change react c ev _ = _
  rw [react, hq, h]
  rfl

theorem dispatched_enlist {ev : Event} (hq : takeQueues n.core = n.core)
    (hin : m.input = .client ev) (r : Core × Except RaftError (Nat × Nat)) (done : Chan)
    (h : handle n.core ev = (r.1, .ok .none)) : Dispatched n m (enlist n done r) (some []) := by
  have hr := respond_client hq h
  rw [← hin] at hr
  obtain ⟨c, err | r⟩ := r
  all_goals
    exact ⟨congrArg Prod.fst hr.symm, congrArg Prod.snd hr.symm, rfl, rfl, rfl, rfl⟩

theorem dispatched_dispatch (hq : takeQueues n.core = n.core) (m : Msg) :
    Dispatched n m (dispatch n m).1 (dispatch n m).2 := by
  cases m with
  | tick =>
      have hr : respond n.core (Msg.tick).input = _ := respond_client hq rfl
      exact ⟨congrArg Prod.fst hr.symm, congrArg Prod.snd hr.symm, rfl, rfl, rfl, rfl⟩
  | deliver p =>
      have hr : respond n.core (Msg.deliver p).input = react n.core (eventOf p) (reply p) := rfl
      rw [react, hq] at hr
      rcases hc : handle n.core (eventOf p) with ⟨c, err | resp⟩
      all_goals
        rw [hc] at hr
        simp only [dispatch, hc]
        exact ⟨congrArg Prod.fst hr.symm, congrArg Prod.snd hr.symm, rfl, rfl, rfl, rfl⟩
  | propose command done => exact dispatched_enlist hq rfl _ done rfl
  | confChange cc done => exact dispatched_enlist hq rfl _ done rfl
  | transfer target respc =>
      have hr : respond n.core (Msg.transfer target respc).input = _ := respond_client hq rfl
      rcases hc : transferLeadership n.core target with ⟨c, result⟩
      rw [hc] at hr
      simp only [dispatch, hc]
      exact ⟨congrArg Prod.fst hr.symm, congrArg Prod.snd hr.symm, rfl, rfl, rfl, rfl⟩
  | read respc =>
      have hr : respond n.core (Msg.read respc).input = _ := respond_client hq rfl
      rcases hc : requestRead n.core with ⟨c, err | id⟩
      all_goals
        rw [hc] at hr
        simp only [dispatch, hc]
        exact ⟨congrArg Prod.fst hr.symm, congrArg Prod.snd hr.symm, rfl, rfl, rfl, rfl⟩

/-- What draining the queues leaves alone. -/
def fixture (n : Node σ) : Core × Nat × Bool :=
  (n.core, n.compactAt, n.stopped)

theorem fixture_applyEntry (S : StateMachine σ) (n : Node σ) (e : Entry) :
    fixture (applyEntry S n e) = fixture n := by
  unfold applyEntry answerWaiter
  split <;> rfl

theorem fixture_resolveRead (n : Node σ) (r : ReadOutcome) :
    fixture (resolveRead n r) = fixture n := by
  unfold resolveRead
  split
  · rfl
  · dsimp only
    split
    · rfl
    · split <;> rfl

theorem fixture_foldl {α : Type} {f : Node σ → α → Node σ}
    (hf : ∀ n x, fixture (f n x) = fixture n) (n : Node σ) (xs : List α) :
    fixture (xs.foldl f n) = fixture n := by
  induction xs generalizing n with
  | nil => rfl
  | cons x xs ih => exact (ih (f n x)).trans (hf n x)

theorem fixture_restoreFrom {data : Option Bytes} (h : restoreFrom S n data = some b) :
    fixture b = fixture n := by
  cases data with
  | none =>
      obtain rfl := Option.some.inj h
      rfl
  | some data =>
      obtain ⟨sm, -, rfl⟩ := Option.map_eq_some_iff.mp h
      rfl

theorem fixture_drain (h : drain S n c = some b) : fixture b = fixture n := by
  obtain ⟨a, ha, rfl⟩ := Option.map_eq_some_iff.mp h
  rw [fixture_foldl fixture_resolveRead, fixture_foldl (fixture_applyEntry S)]
  exact fixture_restoreFrom ha

theorem core_drain (h : drain S n c = some b) : b.core = n.core :=
  congrArg Prod.fst (fixture_drain h)

theorem stopped_drain (h : drain S n c = some b) : b.stopped = n.stopped :=
  congrArg (fun f => f.2.2) (fixture_drain h)

theorem maybeCompact_cases (S : StateMachine σ) (b : Node σ) :
    maybeCompact S b = b ∨ ∃ data, S.snapshot b.sm = some data ∧
      b.core.snapIndex + b.compactAt ≤ b.applied ∧
      maybeCompact S b = { b with core := (compact b.core b.applied data).1 } := by
  unfold maybeCompact
  split
  · exact Or.inl rfl
  · rename_i hle
    split
    · exact Or.inl rfl
    · rename_i data hdata
      exact Or.inr ⟨data, hdata, Nat.le_of_not_lt hle, rfl⟩

/-- What the loop does in one go after a call that left `outcomes` for the reads. -/
inductive Stage (S : StateMachine σ) (outcomes : List ReadOutcome) : Node σ → Node σ → Prop
  | core {n : Node σ} (c : Core) (stopped : Bool) :
      Stage S outcomes n { n with core := c, stopped := stopped }
  | restore {n : Node σ} (sm : σ) : Stage S outcomes n
      (emit { n with sm := sm, applied := n.core.snapIndex } (.restored n.core.snapIndex))
  | apply {n : Node σ} (e : Entry) : Stage S outcomes n
      (emit { n with sm := feedEntry S n.sm e, applied := e.index } (.applied e))
  | fire {n : Node σ} : Stage S outcomes n (fireAppliedWaiters n)
  | answer {n : Node σ} (e : Entry) : Stage S outcomes n (answerWaiter n e)
  | resolve {n : Node σ} (r : ReadOutcome) (hr : r ∈ outcomes) :
      Stage S outcomes n (resolveRead n r)

/-- What holds after the call of a turn and is kept by every stage holds after the turn. -/
theorem step_induction {Q : Node σ → Prop}
    (hstopped : n.stopped = true → Q { n with effects := [] })
    (hdispatch : n.stopped = false → Q (dispatch { n with effects := [] } m).1)
    (hstage : ∀ a b, Stage S (dispatch { n with effects := [] } m).1.core.readOutcomes a b →
      Q a → Q b) : Q (step S n m).1 := by
  have hturn := turn_step S n m
  generalize (step S n m).1 = n' at hturn ⊢
  generalize (step S n m).2 = sent at hturn
  cases hturn with
  | stopped hstop => exact hstopped hstop
  | failed a hrun hd =>
      have hcalled := hdispatch hrun
      rw [hd] at hcalled
      exact hstage a _ (.core a.core true) hcalled
  | halted a hrun hd hb =>
      have hcalled := hdispatch hrun
      rw [hd] at hcalled
      exact hstage a _ (.core _ true) hcalled
  | turned a b hrun hd hb =>
      have hcalled := hdispatch hrun
      rw [hd] at hcalled hstage
      have hdrained : Q b := by
        obtain ⟨a', ha', rfl⟩ := Option.map_eq_some_iff.mp hb
        refine List.foldlRecOn _ _ ?_ fun c hc r hr => hstage _ _ (.resolve r hr) hc
        refine List.foldlRecOn _ _ ?_ fun c hc e _ =>
          hstage _ _ (.answer e) (hstage _ _ .fire (hstage _ _ (.apply e) hc))
        have htaken := hstage a _ (.core (takeQueues a.core) a.stopped) hcalled
        cases hdata : a.core.pendingRestore with
        | none =>
            rw [hdata] at ha'
            exact Option.some.inj ha' ▸ htaken
        | some data =>
            rw [hdata] at ha'
            obtain ⟨sm, -, rfl⟩ := Option.map_eq_some_iff.mp ha'
            exact hstage _ _ .fire (hstage _ _ (.restore sm) htaken)
      rcases maybeCompact_cases S b with hc | ⟨data, -, -, hc⟩ <;> rw [hc]
      · exact hdrained
      · exact hstage b _ (.core _ b.stopped) hdrained

end Turns

section Runs

/-- The call of the core `c` behind a turn of its loop. -/
def coreCall (k : NodeCall σ) (c : Core) : CoreCall where
  node := k.node
  input := k.input.input
  pre := c
  post := (respond c k.input.input).1
  sent := (respond c k.input.input).2.getD []

/-- The compaction at the end of a turn. -/
def compactCall (k : NodeCall σ) (c : Core) (data : Bytes) : CoreCall where
  node := k.node
  input := .compact k.post.applied data
  pre := c
  post := (compact (takeQueues c) k.post.applied data).1
  sent := []

/-- The calls of the core that make up a turn of its loop. -/
inductive Expands (S : StateMachine σ) (k : NodeCall σ) : List CoreCall → Prop
  | stopped (hstop : k.pre.stopped = true) : Expands S k []
  | plain (c : Core) (hstop : k.pre.stopped = false) (hc : takeQueues c = k.pre.core) :
      Expands S k [coreCall k c]
  | compacted (c : Core) {data : Bytes} (hstop : k.pre.stopped = false)
      (hc : takeQueues c = k.pre.core) (hdata : S.snapshot k.post.sm = some data) :
      Expands S k [coreCall k c, compactCall k (coreCall k c).post data]

/-- The core behind a node. A loop that has stopped leaves only its disk. -/
inductive Carries : Life (Node σ) Disk → Life Core Disk → Prop
  | down (d : Disk) : Carries (.down d) (.down d)
  | stopped (n : Node σ) (hstop : n.stopped = true) : Carries (.up n) (.down n.core.disk)
  | up (n : Node σ) (c : Core) (hstop : n.stopped = false) (hc : takeQueues c = n.core) :
      Carries (.up n) (.up c)

/-- The cores of `s` have run into the state `s'`. -/
structure Projects (S : StateMachine σ) (s : NodeState σ) (s' : CoreState) : Prop where
  life : ∀ i, Carries (s.node i) (s'.node i)
  net : s.net ⊆ s'.net
  trace : ∃ groups, List.Forall₂ (Expands S) s.trace groups ∧ s'.trace = groups.flatten

/-- The run of the core behind a turn of node `i`, from the cluster of cores `s'`. -/
inductive Behind (D : Deployment) (S : StateMachine σ) (s' : CoreState) (i : ID) (n : Node σ)
    (m : Msg) : CoreState → Prop
  | idle (hstop : n.stopped = true) : Behind D S s' i n m s'
  | failed (a : Node σ) (c : Core) (hup : s'.node i = .up c) (hc : takeQueues c = n.core)
      (hx : Enabled (coreSystem D) s' i m.input)
      (hd : dispatch { n with effects := [] } m = (a, none)) :
      Behind D S s' i n m ((coreSystem D).call s' i c m.input)
  | halted (a : Node σ) (c : Core) {replies : List Packet} (hup : s'.node i = .up c)
      (hc : takeQueues c = n.core) (hx : Enabled (coreSystem D) s' i m.input)
      (hd : dispatch { n with effects := [] } m = (a, some replies))
      (hb : drain S { a with core := takeQueues a.core } a.core = none) :
      Behind D S s' i n m (((coreSystem D).call s' i c m.input).set i (.down a.core.disk))
  | plain (a b : Node σ) (c : Core) {replies : List Packet} (hup : s'.node i = .up c)
      (hc : takeQueues c = n.core) (hx : Enabled (coreSystem D) s' i m.input)
      (hd : dispatch { n with effects := [] } m = (a, some replies))
      (hb : drain S { a with core := takeQueues a.core } a.core = some b)
      (hstep : (step S n m).1 = b) :
      Behind D S s' i n m ((coreSystem D).call s' i c m.input)
  | compacted (a b : Node σ) (c : Core) {replies : List Packet} {data : Bytes}
      (hup : s'.node i = .up c) (hc : takeQueues c = n.core)
      (hx : Enabled (coreSystem D) s' i m.input)
      (hd : dispatch { n with effects := [] } m = (a, some replies))
      (hb : drain S { a with core := takeQueues a.core } a.core = some b)
      (hdata : S.snapshot b.sm = some data)
      (hstep : (step S n m).1 = { b with core := (compact b.core b.applied data).1 }) :
      Behind D S s' i n m ((coreSystem D).call ((coreSystem D).call s' i c m.input) i a.core
        (.compact b.applied data))

theorem takeQueues_compact (c : Core) (index : Nat) (data : Bytes) :
    takeQueues (compact (takeQueues c) index data).1 = (compact (takeQueues c) index data).1 := by
  unfold compact
  split
  · rfl
  · split <;> rfl

theorem respond_takeQueues (c : Core) (x : Input) : respond (takeQueues c) x = respond c x := by
  cases x <;> rfl

theorem projects_extend (h : Projects S s s') (life : Life Core Disk) {s'' : CoreState}
    (hnode : s''.node = Function.update s'.node i life) (hnet : s'.net ⊆ s''.net)
    (hlife : Carries (.up (step S n m).1) life) (hsent : (step S n m).2 ⊆ s''.net)
    {calls : List CoreCall} (hcalls : Expands S ⟨i, m, n, (step S n m).1, (step S n m).2⟩ calls)
    (htrace : s''.trace = s'.trace ++ calls) :
    Projects S ((nodeSystem D S threshold).call s i n m) s'' where
  life := by
    intro j
    rw [hnode]
    change Carries (Function.update s.node i _ j) _
    by_cases hj : j = i
    · subst hj
      rw [Function.update_self, Function.update_self]
      exact hlife
    · rw [Function.update_of_ne hj, Function.update_of_ne hj]
      exact h.life j
  net := List.append_subset.mpr ⟨List.Subset.trans h.net hnet, hsent⟩
  trace := by
    obtain ⟨groups, hgroups, heq⟩ := h.trace
    refine ⟨groups ++ [calls], List.rel_append hgroups (.cons hcalls .nil), ?_⟩
    rw [htrace, heq, List.flatten_concat]

theorem input_enabled (h : Projects S s s') (hm : Enabled (nodeSystem D S threshold) s i m) :
    Enabled (coreSystem D) s' i m.input := by
  rcases hm with hlocal | ⟨p, hp, hdest, rfl⟩
  · refine Or.inl ?_
    cases m with
    | deliver p => cases hlocal
    | _ => rfl
  · exact Or.inr ⟨p, h.net hp, hdest, rfl⟩

theorem respond_of_dispatch (hq : takeQueues c = n.core) {replies : Option (List Packet)}
    (hd : dispatch { n with effects := [] } m = (a, replies)) :
    respond c m.input = (a.core, replies.map (· ++ outgoing a.core)) := by
  have h := dispatched_dispatch (n := { n with effects := [] }) (by rw [← hq]; rfl) m
  rw [hd] at h
  rw [← respond_takeQueues, hq]
  exact Prod.ext h.core.symm h.sent.symm

/-- The core after a turn: as the call has left it, or with its queues drained, or compacted
on top. -/
theorem core_step (hq : takeQueues n.core = n.core) (hstop : n.stopped = false) (m : Msg) :
    (step S n m).1.core = (respond n.core m.input).1 ∨
      (step S n m).1.core = takeQueues (respond n.core m.input).1 ∨
      ∃ data, (step S n m).1.core =
        (compact (takeQueues (respond n.core m.input).1) (step S n m).1.applied data).1 := by
  have hturn := turn_step S n m
  generalize (step S n m).1 = n' at hturn
  generalize (step S n m).2 = sent at hturn
  cases hturn with
  | stopped hs =>
      rw [hstop] at hs
      cases hs
  | failed a _ hd =>
      rw [respond_of_dispatch hq hd]
      exact Or.inl rfl
  | halted a _ hd hb =>
      rw [respond_of_dispatch hq hd]
      exact Or.inr (Or.inl rfl)
  | turned a b _ hd hb =>
      rw [respond_of_dispatch hq hd]
      have hcore := core_drain hb
      rcases maybeCompact_cases S b with heq | ⟨data, -, -, heq⟩
      · rw [heq, hcore]
        exact Or.inr (Or.inl rfl)
      · rw [heq, hcore]
        exact Or.inr (Or.inr ⟨data, rfl⟩)

theorem node_of_dispatch (hq : takeQueues c = n.core) {replies : List Packet}
    (hd : dispatch { n with effects := [] } m = (a, some replies)) :
    ((coreSystem D).call s' i c m.input).node i = .up a.core := by
  have hr : (coreSystem D).handle c m.input = (a.core, some (replies ++ outgoing a.core)) :=
    respond_of_dispatch hq hd
  rw [call_eq_record hr]
  exact Function.update_self ..

theorem exists_core (h : Carries (.up n) life) (hstop : n.stopped = false) :
    ∃ c, life = .up c ∧ takeQueues c = n.core := by
  cases h with
  | stopped _ hs =>
      rw [hstop] at hs
      cases hs
  | up _ c _ hc => exact ⟨c, rfl, hc⟩

theorem project_call (h : Projects S s s') (hup : s.node i = .up n)
    (hm : Enabled (nodeSystem D S threshold) s i m) :
    ∃ s'', Behind D S s' i n m s'' ∧
      Projects S ((nodeSystem D S threshold).call s i n m) s'' := by
  have hlife := h.life i
  rw [hup] at hlife
  have hx := input_enabled h hm
  have hturn := turn_step S n m
  generalize hpost : (step S n m).1 = post at hturn
  generalize hsent : (step S n m).2 = sent at hturn
  cases hturn with
  | stopped hstop =>
      refine ⟨s', .idle hstop, projects_extend h _ (Function.update_eq_self i _).symm
        (List.Subset.refl _) ?_ ?_ (.stopped hstop) (List.append_nil _).symm⟩
      · rw [hpost]
        generalize s'.node i = life at hlife
        cases hlife with
        | stopped _ hs => exact Carries.stopped { n with effects := [] } hs
        | up _ c hs hc =>
            rw [hstop] at hs
            cases hs
      · rw [hsent]
        exact List.nil_subset _
  | failed a hstop hd =>
      obtain ⟨c, hcore, hq⟩ := exists_core hlife hstop
      have hr : respond c m.input = (a.core, none) := respond_of_dispatch hq hd
      refine ⟨_, .failed a c hcore hq hx hd, projects_extend h _ rfl (List.subset_append_left _ _)
        ?_ ?_ (.plain c hstop hq) rfl⟩
      · have hr' : (coreSystem D).handle c m.input = (a.core, none) := hr
        rw [hpost, hr']
        exact Carries.stopped { a with stopped := true } rfl
      · rw [hsent]
        exact List.nil_subset _
  | halted a hstop hd hb =>
      obtain ⟨c, hcore, hq⟩ := exists_core hlife hstop
      have hr : respond c m.input = (a.core, some (sent ++ outgoing a.core)) :=
        respond_of_dispatch hq hd
      refine ⟨_, .halted a c hcore hq hx hd hb, projects_extend h (.down a.core.disk) ?_
        (List.subset_append_left _ _) ?_ ?_ (.plain c hstop hq) rfl⟩
      · exact Function.update_idem ..
      · rw [hpost]
        exact Carries.stopped { a with core := takeQueues a.core, stopped := true } rfl
      · rw [hsent]
        change sent ⊆ s'.net ++ (respond c m.input).2.getD []
        rw [hr]
        exact fun p hp => List.mem_append_right _ (List.mem_append_left _ hp)
  | @turned a b replies hstop hd hb =>
      obtain ⟨c, hcore, hq⟩ := exists_core hlife hstop
      have hr : respond c m.input = (a.core, some (replies ++ outgoing a.core)) :=
        respond_of_dispatch hq hd
      have hb' := core_drain hb
      have hrun : b.stopped = false := by
        have h := dispatched_dispatch (n := { n with effects := [] }) (by rw [← hq]; rfl) m
        rw [hd] at h
        exact (stopped_drain hb).trans (h.stopped.trans hstop)
      have hsub : replies ++ outgoing a.core ⊆ ((coreSystem D).call s' i c m.input).net := by
        change _ ⊆ s'.net ++ (respond c m.input).2.getD []
        rw [hr]
        exact List.subset_append_right _ _
      have hcall : (coreSystem D).call s' i c m.input =
          s'.record i m.input c a.core (replies ++ outgoing a.core) := call_eq_record hr s' i
      have hpost' : (coreCall ⟨i, m, n, (step S n m).1, (step S n m).2⟩ c).post = a.core :=
        congrArg Prod.fst hr
      rcases maybeCompact_cases S b with heq | ⟨data, hdata, -, heq⟩
      · refine ⟨_, .plain a b c hcore hq hx hd hb (hpost.trans heq), projects_extend h
          (.up a.core) (by rw [hcall]; rfl) (List.subset_append_left _ _) ?_
          (hsent ▸ hsub) (.plain c hstop hq) rfl⟩
        rw [hpost, heq]
        exact Carries.up b a.core hrun hb'.symm
      · refine ⟨_, .compacted a b c hcore hq hx hd hb hdata (hpost.trans heq), projects_extend h
          (.up (compact (takeQueues a.core) b.applied data).1) ?_ ?_ ?_ ?_
          (@Expands.compacted _ S _ c data hstop hq ?_) ?_⟩
        · rw [hcall]
          exact Function.update_idem ..
        · exact fun p hp => List.mem_append_left _ (List.mem_append_left _ hp)
        · rw [hpost, heq, hb']
          exact Carries.up _ _ hrun (takeQueues_compact a.core b.applied data)
        · exact hsent ▸ fun p hp => List.mem_append_left _ (hsub hp)
        · change S.snapshot (step S n m).1.sm = some data
          rw [hpost, heq]
          exact hdata
        · rw [hpost', compactCall]
          have happlied : (step S n m).1.applied = b.applied := by
            rw [hpost, heq]
          dsimp only
          rw [happlied]
          exact List.append_assoc ..

theorem reachable_behind (hs : Reachable (coreSystem D) s') {s'' : CoreState}
    (h : Behind D S s' i n m s'') : Reachable (coreSystem D) s'' := by
  cases h with
  | idle => exact hs
  | failed a c hup hc hx hd => exact reachable_call hs hup hx
  | halted a c hup hc hx hd hb =>
      exact reachable_crash (reachable_call hs hup hx) (node_of_dispatch hc hd)
  | plain a b c hup hc hx => exact reachable_call hs hup hx
  | compacted a b c hup hc hx hd =>
      exact reachable_call (reachable_call hs hup hx) (node_of_dispatch hc hd) (Or.inl rfl)

theorem projects_set (h : Projects S s s') {life' : Life (Node σ) Disk}
    (hlife : Carries life' life) : Projects S (s.set i life') (s'.set i life) where
  life := by
    intro j
    change Carries (Function.update s.node i life' j) (Function.update s'.node i life j)
    by_cases hj : j = i
    · subst hj
      rw [Function.update_self, Function.update_self]
      exact hlife
    · rw [Function.update_of_ne hj, Function.update_of_ne hj]
      exact h.life j
  net := h.net
  trace := h.trace

theorem project_crash (h : Projects S s s') (hup : s.node i = .up n) :
    Projects S (s.set i (.down n.core.disk)) s' ∨
      ∃ c, s'.node i = .up c ∧ takeQueues c = n.core ∧
        Projects S (s.set i (.down n.core.disk)) (s'.set i (.down c.disk)) := by
  have hlife := h.life i
  rw [hup] at hlife
  generalize heq : s'.node i = life at hlife
  cases hlife with
  | stopped _ hs =>
      have hsame : s'.set i (.down n.core.disk) = s' := by
        rw [State.set, ← heq, Function.update_eq_self]
      exact Or.inl (hsame ▸ projects_set h (Carries.down n.core.disk))
  | up _ c hs hc =>
      refine Or.inr ⟨c, rfl, hc, projects_set h ?_⟩
      rw [← hc]
      exact Carries.down c.disk

theorem newNode_cases {cfg : Config} {t : Nat} {rng : Nat → Nat} {d : Disk}
    (h : newNode S cfg t rng d = some n) :
    ∃ c, newCore cfg rng d = .ok c ∧
      (c.pendingRestore = none ∧ n = nodeOf c S.fresh t ∨
        ∃ data sm, c.pendingRestore = some data ∧ S.restore S.fresh data = some sm ∧
          n = nodeOf c sm t) := by
  unfold newNode at h
  split at h
  · cases h
  · rename_i c hc
    refine ⟨c, hc, ?_⟩
    split at h
    · rename_i hnone
      exact Or.inl ⟨hnone, (Option.some.inj h).symm⟩
    · rename_i data hdata
      obtain ⟨sm, hsm, rfl⟩ := Option.map_eq_some_iff.mp h
      exact Or.inr ⟨data, sm, hdata, hsm, rfl⟩

theorem project_restart (h : Projects S s s') {d : Disk} (hdown : s.node i = .down d)
    {rng : Nat → Nat} (hboot : (nodeSystem D S threshold).boot i rng d = some n) :
    ∃ c, s'.node i = .down d ∧ (coreSystem D).boot i rng d = some c ∧
      Projects S (s.set i (.up n)) (s'.set i (.up c)) := by
  have hlife := h.life i
  rw [hdown] at hlife
  generalize heq : s'.node i = life at hlife
  cases hlife
  obtain ⟨c, hc, hn⟩ := newNode_cases hboot
  refine ⟨c, rfl, ?_, projects_set h ?_⟩
  · change (newCore (D.cfg i) rng d).toOption = some c
    rw [hc]
    rfl
  · rcases hn with ⟨-, rfl⟩ | ⟨data, sm, -, -, rfl⟩ <;> exact Carries.up _ c rfl rfl

theorem exists_group
    (h : List.Forall₂ (Expands S) calls groups) (hk : k ∈ calls) :
    ∃ group ∈ groups, Expands S k group := by
  induction h with
  | nil => exact absurd hk List.not_mem_nil
  | cons hhead _ ih =>
      rcases List.mem_cons.mp hk with rfl | hk
      · exact ⟨_, List.mem_cons_self, hhead⟩
      · obtain ⟨group, hgroup, hexp⟩ := ih hk
        exact ⟨group, List.mem_cons_of_mem _ hgroup, hexp⟩

theorem exists_coreCall (h : Projects S s s') (hk : k ∈ s.trace)
    (hstop : k.pre.stopped = false) :
    ∃ c, takeQueues c = k.pre.core ∧ coreCall k c ∈ s'.trace := by
  obtain ⟨groups, hgroups, htrace⟩ := h.trace
  obtain ⟨group, hgroup, hexp⟩ := exists_group hgroups hk
  rw [htrace]
  cases hexp with
  | stopped hs =>
      rw [hstop] at hs
      cases hs
  | plain c _ hc =>
      exact ⟨c, hc, List.mem_flatten.mpr ⟨_, hgroup, List.mem_singleton.mpr rfl⟩⟩
  | compacted c _ hc _ => exact ⟨c, hc, List.mem_flatten.mpr ⟨_, hgroup, List.mem_cons_self⟩⟩

/-- Every run of nodes is a run of cores. -/
theorem exists_core_run (hs : Reachable (nodeSystem D S threshold) s) :
    ∃ s', Reachable (coreSystem D) s' ∧ Projects S s s' := by
  refine reachable_induction (Q := fun s => ∃ s', Reachable (coreSystem D) s' ∧ Projects S s s')
    ?_ ?_ ?_ ?_ hs
  · exact ⟨_, reachable_init _, fun _ => .down _, List.Subset.refl _, [], .nil, rfl⟩
  · rintro s i n m - ⟨s', hs', h⟩ hup hm
    obtain ⟨s'', hbehind, h'⟩ := project_call h hup hm
    exact ⟨s'', reachable_behind hs' hbehind, h'⟩
  · rintro s i n - ⟨s', hs', h⟩ hup
    rcases project_crash h hup with h' | ⟨c, hcore, -, h'⟩
    · exact ⟨s', hs', h'⟩
    · exact ⟨_, reachable_crash hs' hcore, h'⟩
  · rintro s i rng d n - ⟨s', hs', h⟩ hdown hboot
    obtain ⟨c, hcore, hboot', h'⟩ := project_restart h hdown hboot
    exact ⟨_, reachable_restart hs' hcore hboot', h'⟩

theorem queues_taken (hs : Reachable (nodeSystem D S threshold) s) (hup : s.node i = .up n)
    (hstop : n.stopped = false) : takeQueues n.core = n.core := by
  obtain ⟨s', -, h⟩ := exists_core_run hs
  obtain ⟨c, -, hc⟩ := exists_core (hup ▸ h.life i) hstop
  rw [← hc]
  rfl

theorem forall_calls (h : Projects S s s') {G : Core → Input → Prop}
    (hturn : ∀ k ∈ s.trace, ∀ c, k.pre.stopped = false → takeQueues c = k.pre.core →
      G c k.input.input)
    (hcompact : ∀ c index data, G c (.compact index data)) :
    ∀ k' ∈ s'.trace, G k'.pre k'.input := by
  obtain ⟨groups, hgroups, htrace⟩ := h.trace
  rw [htrace]
  clear htrace h
  generalize s.trace = calls at hturn hgroups
  induction hgroups with
  | nil => exact fun k' hk' => absurd hk' List.not_mem_nil
  | cons hhead _ ih =>
      intro k' hk'
      rw [List.flatten_cons] at hk'
      rcases List.mem_append.mp hk' with hk' | hk'
      · have hcall := hturn _ List.mem_cons_self
        cases hhead with
        | stopped => exact absurd hk' List.not_mem_nil
        | plain c hstop hc =>
            rw [List.mem_singleton.mp hk']
            exact hcall c hstop hc
        | compacted c hstop hc =>
            rcases List.mem_cons.mp hk' with rfl | hk'
            · exact hcall c hstop hc
            · rw [List.mem_singleton.mp hk']
              exact hcompact _ _ _
      · exact ih (fun k hk => hturn k (List.mem_cons_of_mem _ hk)) k' hk'

/-- Where in the run of the cores turn `m` begins. -/
def place (groups : List (List CoreCall)) (m : Nat) : Nat :=
  (groups.take m).flatten.length

theorem place_cons (group : List CoreCall) (groups : List (List CoreCall)) (m : Nat) :
    place (group :: groups) (m + 1) = group.length + place groups m := by
  simp [place]

theorem getElem?_place
    (h : List.Forall₂ (Expands S) calls groups) {m : Nat}
    (hk : calls[m]? = some k) (hstop : k.pre.stopped = false) :
    ∃ c, takeQueues c = k.pre.core ∧ groups.flatten[place groups m]? = some (coreCall k c) := by
  induction h generalizing m with
  | nil => cases hk
  | @cons k₀ group calls groups hhead _ ih =>
      cases m with
      | zero =>
          obtain rfl := Option.some.inj hk
          cases hhead with
          | stopped hs =>
              rw [hstop] at hs
              cases hs
          | plain c _ hc => exact ⟨c, hc, rfl⟩
          | compacted c _ hc => exact ⟨c, hc, rfl⟩
      | succ m =>
          obtain ⟨c, hc, hget⟩ := ih hk
          refine ⟨c, hc, ?_⟩
          rw [List.flatten_cons, place_cons, List.getElem?_append_right (Nat.le_add_right _ _),
            Nat.add_sub_cancel_left]
          exact hget

theorem place_lt
    (h : List.Forall₂ (Expands S) calls groups) {m p : Nat}
    (hk : calls[p]? = some k) (hstop : k.pre.stopped = false) (hlt : p < m) :
    place groups p < place groups m := by
  induction h generalizing m p with
  | nil => cases hk
  | @cons k₀ group calls groups hhead _ ih =>
      obtain ⟨m, rfl⟩ : ∃ m', m = m' + 1 := ⟨m - 1, by omega⟩
      cases p with
      | zero =>
          obtain rfl := Option.some.inj hk
          have hpos : 0 < group.length := by
            cases hhead with
            | stopped hs =>
                rw [hstop] at hs
                cases hs
            | plain => exact Nat.succ_pos _
            | compacted => exact Nat.succ_pos _
          rw [place_cons]
          exact Nat.lt_add_right _ hpos
      | succ p =>
          rw [place_cons, place_cons]
          exact Nat.add_lt_add_left (ih hk (Nat.lt_of_succ_lt_succ hlt)) _

theorem exists_turn
    (h : List.Forall₂ (Expands S) calls groups) {q : Nat} {k' : CoreCall}
    (hk' : groups.flatten[q]? = some k') :
    ∃ m k c, calls[m]? = some k ∧ k.pre.stopped = false ∧ takeQueues c = k.pre.core ∧
      (k' = coreCall k c ∧ q = place groups m ∨
        ∃ data, k' = compactCall k (coreCall k c).post data) := by
  induction h generalizing q with
  | nil => cases hk'
  | @cons k group calls groups hhead _ ih =>
      rw [List.flatten_cons] at hk'
      rcases Nat.lt_or_ge q group.length with hlt | hge
      · rw [List.getElem?_append_left hlt] at hk'
        cases hhead with
        | stopped => cases hk'
        | plain c hstop hc =>
            obtain rfl : q = 0 := Nat.lt_one_iff.mp hlt
            exact ⟨0, k, c, rfl, hstop, hc, Or.inl ⟨(Option.some.inj hk').symm, rfl⟩⟩
        | @compacted c data hstop hc hdata =>
            cases q with
            | zero => exact ⟨0, k, c, rfl, hstop, hc, Or.inl ⟨(Option.some.inj hk').symm, rfl⟩⟩
            | succ q =>
                obtain rfl : q = 0 := Nat.lt_one_iff.mp (Nat.lt_of_succ_lt_succ hlt)
                exact ⟨0, k, c, rfl, hstop, hc, Or.inr ⟨data, (Option.some.inj hk').symm⟩⟩
      · rw [List.getElem?_append_right hge] at hk'
        obtain ⟨m, k₁, c, hk₁, hstop, hc, hcall⟩ := ih hk'
        refine ⟨m + 1, k₁, c, hk₁, hstop, hc, hcall.imp_left ?_⟩
        rintro ⟨heq, hq⟩
        refine ⟨heq, ?_⟩
        rw [place_cons]
        omega

def UnchangingNodes (s : NodeState σ) : Prop :=
  ∀ k ∈ s.trace, changesMembership k.input.input = false
  deriving Decidable

structure FixedNodes (D : Deployment) (s : NodeState σ) : Prop where
  uniform : D.Uniform
  unchanging : UnchangingNodes s

/-- The runs of nodes in which no command and no membership change is longer than 64 MiB. -/
def BoundedNodes (s : NodeState σ) : Prop :=
  ∀ k ∈ s.trace, readable k.input.input = true
  deriving Decidable

/-- The runs of nodes whose logs survive every restart. -/
structure RegularNodes (D : Deployment) (s : NodeState σ) : Prop where
  fixed : FixedNodes D s
  bounded : BoundedNodes s

theorem FixedNodes.part {s₀ : NodeState σ} (h : FixedNodes D s) (hsub : s₀.trace ⊆ s.trace) :
    FixedNodes D s₀ :=
  ⟨h.uniform, fun k hk => h.unchanging k (hsub hk)⟩

theorem RegularNodes.part {s₀ : NodeState σ} (h : RegularNodes D s) (hsub : s₀.trace ⊆ s.trace) :
    RegularNodes D s₀ :=
  ⟨h.fixed.part hsub, fun k hk => h.bounded k (hsub hk)⟩

theorem fixedMembership_of_projects (h : Projects S s s') (hfix : FixedNodes D s) :
    FixedMembership D s' := by
  refine ⟨hfix.uniform, ?_⟩
  exact forall_calls h (G := fun _ x => changesMembership x = false)
    (fun k hk _ _ _ => hfix.unchanging k hk) fun _ _ _ => rfl

theorem regular_of_projects (h : Projects S s s') (hreg : RegularNodes D s) : Regular D s' := by
  refine ⟨fixedMembership_of_projects h hreg.fixed, ?_⟩
  exact forall_calls h (G := fun _ x => readable x = true)
    (fun k hk _ _ _ => hreg.bounded k hk) fun _ _ _ => rfl

end Runs

end RaftKV.Refinement.Projection
