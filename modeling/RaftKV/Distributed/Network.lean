import Mathlib.Tactic

/-!
Nodes that crash and recover, over a network that may delay, reorder, repeat or
lose every packet. A node is running or has only its disk left; a packet once
sent may be delivered any number of times; every call of a running node is
recorded.
-/

namespace RaftKV.Distributed.Network

variable {I M D X P R : Type}

inductive Life (M D : Type)
  | up (m : M)
  | down (d : D)

/-- One call of a node: its input, its state before and after, what it sent. -/
structure Call (I M X P : Type) where
  node : I
  input : X
  pre : M
  post : M
  sent : List P

structure State (I M D X P : Type) where
  node : I → Life M D
  net : List P
  trace : List (Call I M X P)

/-- A kind of node: how it boots from its disk, how it reacts to inputs. A call
that returns no packets halts the node. -/
structure System (I M D X P R : Type) where
  blank : D
  boot : I → R → D → Option M
  disk : M → D
  handle : M → X → M × Option (List P)
  dest : P → I
  input : P → X
  isLocal : X → Bool

inductive Action (I X R : Type)
  | deliver (k : Nat)
  | act (i : I) (x : X)
  | crash (i : I)
  | restart (i : I) (r : R)

def init (sys : System I M D X P R) : State I M D X P where
  node := fun _ => .down sys.blank
  net := []
  trace := []

section

variable [DecidableEq I]

def State.set (s : State I M D X P) (i : I) (life : Life M D) : State I M D X P :=
  { s with node := Function.update s.node i life }

def System.call (sys : System I M D X P R) (s : State I M D X P) (i : I) (m : M) (x : X) :
    State I M D X P where
  node := Function.update s.node i
    (match (sys.handle m x).2 with
      | none => .down (sys.disk (sys.handle m x).1)
      | some _ => .up (sys.handle m x).1)
  net := s.net ++ (sys.handle m x).2.getD []
  trace := s.trace ++ [⟨i, x, m, (sys.handle m x).1, (sys.handle m x).2.getD []⟩]

def System.step (sys : System I M D X P R) (s : State I M D X P) :
    Action I X R → Option (State I M D X P)
  | .deliver k =>
      match s.net[k]? with
      | none => none
      | some p =>
          match s.node (sys.dest p) with
          | .down _ => none
          | .up m => some (sys.call s (sys.dest p) m (sys.input p))
  | .act i x =>
      match s.node i with
      | .down _ => none
      | .up m => if sys.isLocal x then some (sys.call s i m x) else none
  | .crash i =>
      match s.node i with
      | .down _ => none
      | .up m => some (s.set i (.down (sys.disk m)))
  | .restart i r =>
      match s.node i with
      | .up _ => none
      | .down d => (sys.boot i r d).map fun m => s.set i (.up m)

def System.run (sys : System I M D X P R) (actions : List (Action I X R)) :
    Option (State I M D X P) :=
  actions.foldlM sys.step (init sys)

def Reachable (sys : System I M D X P R) (s : State I M D X P) : Prop :=
  ∃ actions, sys.run actions = some s

theorem exists_run (sys : System I M D X P R) (actions : List (Action I X R))
    (test : State I M D X P → Prop) [DecidablePred test]
    (h : ((sys.run actions).any fun s => decide (test s)) = true) :
    ∃ s, sys.run actions = some s ∧ test s := by
  cases hrun : sys.run actions with
  | none =>
      rw [hrun] at h
      cases h
  | some s =>
      rw [hrun] at h
      exact ⟨s, rfl, of_decide_eq_true h⟩

theorem exists_of_run (sys : System I M D X P R) (actions : List (Action I X R))
    (test : State I M D X P → Prop) [DecidablePred test]
    (h : ((sys.run actions).any fun s => decide (test s)) = true) :
    ∃ s, Reachable sys s ∧ test s := by
  obtain ⟨s, hrun, htest⟩ := exists_run sys actions test h
  exact ⟨s, ⟨actions, hrun⟩, htest⟩

/-- The inputs a node may see: its own, and those of packets addressed to it. -/
def Enabled (sys : System I M D X P R) (s : State I M D X P) (i : I) (x : X) : Prop :=
  sys.isLocal x = true ∨ ∃ p ∈ s.net, sys.dest p = i ∧ sys.input p = x

theorem step_cases {sys : System I M D X P R} {s s' : State I M D X P} {a : Action I X R}
    (h : sys.step s a = some s') :
    (∃ i m x, s.node i = .up m ∧ Enabled sys s i x ∧ s' = sys.call s i m x) ∨
    (∃ i m, a = .crash i ∧ s.node i = .up m ∧ s' = s.set i (.down (sys.disk m))) ∨
    (∃ i r d m, a = .restart i r ∧ s.node i = .down d ∧ sys.boot i r d = some m ∧
      s' = s.set i (.up m)) := by
  cases a with
  | deliver k =>
      simp only [System.step] at h
      cases hp : s.net[k]? with
      | none => simp [hp] at h
      | some p =>
          cases hm : s.node (sys.dest p) with
          | down d => simp [hp, hm] at h
          | up m =>
              simp only [hp, hm, Option.some.injEq] at h
              exact Or.inl ⟨_, m, _, hm, Or.inr ⟨p, List.mem_of_getElem? hp, rfl, rfl⟩, h.symm⟩
  | act i x =>
      simp only [System.step] at h
      cases hm : s.node i with
      | down d => simp [hm] at h
      | up m =>
          simp only [hm, Option.ite_none_right_eq_some, Option.some.injEq] at h
          exact Or.inl ⟨i, m, x, hm, Or.inl h.1, h.2.symm⟩
  | crash i =>
      simp only [System.step] at h
      cases hm : s.node i with
      | down d => simp [hm] at h
      | up m =>
          simp only [hm, Option.some.injEq] at h
          exact Or.inr (Or.inl ⟨i, m, rfl, hm, h.symm⟩)
  | restart i r =>
      simp only [System.step] at h
      cases hm : s.node i with
      | up m => simp [hm] at h
      | down d =>
          simp only [hm, Option.map_eq_some_iff] at h
          obtain ⟨m, hboot, hs⟩ := h
          exact Or.inr (Or.inr ⟨i, r, d, m, rfl, hm, hboot, hs.symm⟩)

theorem reachable_init (sys : System I M D X P R) : Reachable sys (init sys) :=
  ⟨[], rfl⟩

theorem reachable_step {sys : System I M D X P R} {s s' : State I M D X P} {a : Action I X R}
    (hs : Reachable sys s) (h : sys.step s a = some s') : Reachable sys s' := by
  obtain ⟨actions, hrun⟩ := hs
  refine ⟨actions ++ [a], ?_⟩
  unfold System.run at hrun ⊢
  rw [List.foldlM_append, hrun]
  simpa using h

theorem reachable_call {sys : System I M D X P R} {s : State I M D X P} (hs : Reachable sys s)
    {i : I} {m : M} (hm : s.node i = .up m) {x : X} (hx : Enabled sys s i x) :
    Reachable sys (sys.call s i m x) := by
  rcases hx with hlocal | ⟨p, hp, rfl, rfl⟩
  · refine reachable_step (a := .act i x) hs ?_
    simp only [System.step, hm, if_pos hlocal]
  · obtain ⟨k, hk⟩ := List.mem_iff_getElem?.mp hp
    refine reachable_step (a := .deliver k) hs ?_
    simp only [System.step, hk, hm]

theorem reachable_crash {sys : System I M D X P R} {s : State I M D X P} (hs : Reachable sys s)
    {i : I} {m : M} (hm : s.node i = .up m) :
    Reachable sys (s.set i (.down (sys.disk m))) := by
  refine reachable_step (a := .crash i) hs ?_
  simp only [System.step, hm]

theorem reachable_restart {sys : System I M D X P R} {s : State I M D X P}
    (hs : Reachable sys s) {i : I} {r : R} {d : D} {m : M} (hd : s.node i = .down d)
    (hboot : sys.boot i r d = some m) : Reachable sys (s.set i (.up m)) := by
  refine reachable_step (a := .restart i r) hs ?_
  simp only [System.step, hd, hboot, Option.map_some]

def State.record (s : State I M D X P) (i : I) (x : X) (m m' : M) (sent : List P) :
    State I M D X P where
  node := Function.update s.node i (.up m')
  net := s.net ++ sent
  trace := s.trace ++ [⟨i, x, m, m', sent⟩]

theorem call_eq_record {sys : System I M D X P R} {m m' : M} {x : X} {sent : List P}
    (h : sys.handle m x = (m', some sent)) (s : State I M D X P) (i : I) :
    sys.call s i m x = s.record i x m m' sent := by
  simp only [System.call, State.record, h, Option.getD_some]

theorem up_of_set {s : State I M D X P} {i j : I} {life : Life M D} {m : M}
    (h : (s.set i life).node j = .up m) : life = .up m ∨ s.node j = .up m := by
  change Function.update s.node i life j = .up m at h
  by_cases hj : j = i
  · subst hj
    rw [Function.update_self] at h
    exact Or.inl h
  · rw [Function.update_of_ne hj] at h
    exact Or.inr h

theorem up_of_call {sys : System I M D X P R} {s : State I M D X P} {i j : I} {m m' : M} {x : X}
    (h : (sys.call s i m x).node j = .up m') : (sys.handle m x).1 = m' ∨ s.node j = .up m' := by
  refine (up_of_set (s := s) h).imp_left fun hlife => ?_
  split at hlife
  · cases hlife
  · exact Life.up.inj hlife

/-- What holds initially and is kept by every call, crash and restart holds in
every reachable state. -/
theorem reachable_induction {sys : System I M D X P R} {Q : State I M D X P → Prop}
    (hinit : Q (init sys))
    (hcall : ∀ s i m x, Reachable sys s → Q s → s.node i = .up m → Enabled sys s i x →
      Q (sys.call s i m x))
    (hcrash : ∀ s i m, Reachable sys s → Q s → s.node i = .up m →
      Q (s.set i (.down (sys.disk m))))
    (hrestart : ∀ s i r d m, Reachable sys s → Q s → s.node i = .down d →
      sys.boot i r d = some m → Q (s.set i (.up m)))
    {s : State I M D X P} (hs : Reachable sys s) : Q s := by
  obtain ⟨actions, hrun⟩ := hs
  induction actions using List.reverseRecOn generalizing s with
  | nil =>
      obtain rfl : init sys = s := by simpa [System.run] using hrun
      exact hinit
  | append_singleton actions a ih =>
      unfold System.run at hrun
      rw [List.foldlM_append] at hrun
      cases hmid : actions.foldlM sys.step (init sys) with
      | none => simp [hmid] at hrun
      | some mid =>
          have hstep : sys.step mid a = some s := by simpa [hmid] using hrun
          have hreach : Reachable sys mid := ⟨actions, hmid⟩
          rcases step_cases hstep with
            ⟨i, m, x, hm, hx, rfl⟩ | ⟨i, m, -, hm, rfl⟩ | ⟨i, r, d, m, -, hm, hboot, rfl⟩
          · exact hcall mid i m x hreach (ih hmid) hm hx
          · exact hcrash mid i m hreach (ih hmid) hm
          · exact hrestart mid i r d m hreach (ih hmid) hm hboot

/-- The same for what is said about each node and the calls so far: a node keeps it
through its own calls, crashes and restarts, and through the calls of others. -/
theorem nodes_induction {sys : System I M D X P R}
    {Q : List (Call I M X P) → I → Life M D → Prop} (hinit : ∀ i, Q [] i (.down sys.blank))
    (hcall : ∀ s i m x, Reachable sys s → (∀ j, Q s.trace j (s.node j)) → s.node i = .up m →
      Enabled sys s i x → Q (sys.call s i m x).trace i (.up (sys.handle m x).1))
    (hother : ∀ s i m x j life, j ≠ i → Q s.trace j life → Q (sys.call s i m x).trace j life)
    (hcrash : ∀ calls i m, Q calls i (.up m) → Q calls i (.down (sys.disk m)))
    (hrestart : ∀ calls i r d m, Q calls i (.down d) → sys.boot i r d = some m →
      Q calls i (.up m))
    {s : State I M D X P} (hs : Reachable sys s) (i : I) : Q s.trace i (s.node i) := by
  have hset : ∀ (s : State I M D X P) (i : I) (life : Life M D),
      (∀ j, Q s.trace j (s.node j)) → Q s.trace i life →
      ∀ j, Q (s.set i life).trace j ((s.set i life).node j) := by
    intro s i life h hi j
    change Q s.trace j (Function.update s.node i life j)
    by_cases hj : j = i
    · subst hj
      rwa [Function.update_self]
    · rw [Function.update_of_ne hj]
      exact h j
  refine reachable_induction (Q := fun s => ∀ i, Q s.trace i (s.node i)) hinit ?_ ?_ ?_ hs i
  · intro s i m x hreach ih hm hx j
    have hup := hcall s i m x hreach ih hm hx
    change Q _ j (Function.update s.node i _ j)
    by_cases hj : j = i
    · subst hj
      rw [Function.update_self]
      split
      · exact hcrash _ _ _ hup
      · exact hup
    · rw [Function.update_of_ne hj]
      exact hother s i m x j _ hj (ih j)
  · intro s i m _ ih hm
    exact hset s i _ ih (hcrash _ _ _ (hm ▸ ih i))
  · intro s i r d m _ ih hd hboot
    exact hset s i _ ih (hrestart _ _ _ _ _ (hd ▸ ih i) hboot)

theorem net_eq_flatMap {sys : System I M D X P R} {s : State I M D X P} (hs : Reachable sys s) :
    s.net = s.trace.flatMap Call.sent := by
  refine reachable_induction (Q := fun s => s.net = s.trace.flatMap Call.sent) rfl ?_
    (fun _ _ _ _ h _ => h) (fun _ _ _ _ _ _ h _ _ => h) hs
  intro s i m x _ h _ _
  change s.net ++ _ = (s.trace ++ [_]).flatMap Call.sent
  rw [List.flatMap_append, h]
  simp

structure MadeIn (sys : System I M D X P R) (s : State I M D X P) (k : Call I M X P) : Prop where
  reachable : Reachable sys s
  up : s.node k.node = .up k.pre
  enabled : Enabled sys s k.node k.input
  post : k.post = (sys.handle k.pre k.input).1
  sent : k.sent = (sys.handle k.pre k.input).2.getD []

theorem trace_of_madeIn {sys : System I M D X P R} {s : State I M D X P} {k : Call I M X P}
    (h : MadeIn sys s k) : (sys.call s k.node k.pre k.input).trace = s.trace ++ [k] := by
  change s.trace ++ [_] = _
  rw [← h.post, ← h.sent]

/-- The same for what is said about each node, about each packet and the calls so far, as
long as more calls take nothing back. -/
theorem cluster_induction {sys : System I M D X P R}
    {Q : List (Call I M X P) → I → Life M D → Prop} {N : List (Call I M X P) → P → Prop}
    (hinit : ∀ i, Q [] i (.down sys.blank))
    (hnode : ∀ calls k i life, Q calls i life → Q (calls ++ [k]) i life)
    (hnet : ∀ calls k p, N calls p → N (calls ++ [k]) p)
    (hcall : ∀ s k, MadeIn sys s k → (∀ j, Q s.trace j (s.node j)) → (∀ p ∈ s.net, N s.trace p) →
      Q (s.trace ++ [k]) k.node (.up k.post) ∧ ∀ p ∈ k.sent, N (s.trace ++ [k]) p)
    (hcrash : ∀ calls i m, Q calls i (.up m) → Q calls i (.down (sys.disk m)))
    (hrestart : ∀ calls i r d m, Q calls i (.down d) → sys.boot i r d = some m →
      Q calls i (.up m))
    {s : State I M D X P} (hs : Reachable sys s) :
    (∀ i, Q s.trace i (s.node i)) ∧ ∀ p ∈ s.net, N s.trace p := by
  have hset : ∀ (s : State I M D X P) (i : I) (life : Life M D),
      (∀ j, Q s.trace j (s.node j)) → Q s.trace i life →
      ∀ j, Q s.trace j (Function.update s.node i life j) := by
    intro s i life h hi j
    by_cases hj : j = i
    · subst hj
      rwa [Function.update_self]
    · rw [Function.update_of_ne hj]
      exact h j
  refine reachable_induction
    (Q := fun s => (∀ i, Q s.trace i (s.node i)) ∧ ∀ p ∈ s.net, N s.trace p) ?_ ?_ ?_ ?_ hs
  · exact ⟨hinit, fun p hp => absurd hp List.not_mem_nil⟩
  · intro s i m x hreach ih hm hx
    obtain ⟨hup, hsent⟩ :=
      hcall s ⟨i, x, m, (sys.handle m x).1, (sys.handle m x).2.getD []⟩
        ⟨hreach, hm, hx, rfl, rfl⟩ ih.1 ih.2
    refine ⟨fun j => ?_, fun p hp => ?_⟩
    · change Q _ j (Function.update s.node i _ j)
      by_cases hj : j = i
      · subst hj
        rw [Function.update_self]
        split
        · exact hcrash _ _ _ hup
        · exact hup
      · rw [Function.update_of_ne hj]
        exact hnode _ _ _ _ (ih.1 j)
    · exact (List.mem_append.mp hp).elim (fun hp => hnet _ _ _ (ih.2 p hp)) (hsent p)
  · intro s i m _ ih hm
    exact ⟨hset s i _ ih.1 (hcrash _ _ _ (hm ▸ ih.1 i)), ih.2⟩
  · intro s i r d m _ ih hd hboot
    exact ⟨hset s i _ ih.1 (hrestart _ _ _ _ _ (hd ▸ ih.1 i) hboot), ih.2⟩

theorem exists_madeIn {sys : System I M D X P R} {s : State I M D X P} (hs : Reachable sys s)
    {n : Nat} {k : Call I M X P} (hk : s.trace[n]? = some k) :
    ∃ s₀, MadeIn sys s₀ k ∧ s₀.trace = s.trace.take n := by
  revert n k
  refine reachable_induction (Q := fun s => ∀ {n : Nat} {k : Call I M X P},
    s.trace[n]? = some k → ∃ s₀, MadeIn sys s₀ k ∧ s₀.trace = s.trace.take n) ?_ ?_
    (fun _ _ _ _ h _ => h) (fun _ _ _ _ _ _ h _ _ => h) hs
  · intro n k hk
    simp [init] at hk
  · intro s i m x hreach ih hm hx n k hk
    have htrace : (sys.call s i m x).trace =
      s.trace ++ [⟨i, x, m, (sys.handle m x).1, (sys.handle m x).2.getD []⟩] := rfl
    rw [htrace] at hk ⊢
    rcases Nat.lt_or_ge n s.trace.length with hlt | hge
    · rw [List.getElem?_append_left hlt] at hk
      rw [List.take_append_of_le_length hlt.le]
      exact ih hk
    · obtain rfl : n = s.trace.length := by
        have := (List.getElem?_eq_some_iff.mp hk).1
        simp at this
        omega
      rw [List.getElem?_append_right le_rfl, Nat.sub_self, List.getElem?_cons_zero] at hk
      cases hk
      exact ⟨s, ⟨hreach, hm, hx, rfl, rfl⟩, List.take_left.symm⟩

theorem trace_upto {sys : System I M D X P R} {s s₀ : State I M D X P} {k : Call I M X P} {n : Nat}
    (hmade : MadeIn sys s₀ k) (htrace : s₀.trace = s.trace.take n) (hk : s.trace[n]? = some k) :
    (sys.call s₀ k.node k.pre k.input).trace = s.trace.take (n + 1) := by
  rw [trace_of_madeIn hmade, htrace, List.take_add_one, hk]
  rfl

/-- What holds of every node that has just booted and is kept by every call holds of
every running node, in a run whose calls all meet `G`. -/
theorem running_induction {sys : System I M D X P R} {G : Call I M X P → Prop} {Q : M → Prop}
    (hboot : ∀ i r d m, sys.boot i r d = some m → Q m)
    (hcall : ∀ s k, MadeIn sys s k → (∀ j ∈ s.trace, G j) → G k → Q k.pre → Q k.post)
    {s : State I M D X P} (hs : Reachable sys s) (hG : ∀ k ∈ s.trace, G k) {i : I} {m : M}
    (hm : s.node i = .up m) : Q m := by
  refine nodes_induction
    (Q := fun calls _ life => (∀ k ∈ calls, G k) → ∀ m, life = .up m → Q m) ?_ ?_ ?_ ?_ ?_ hs i
    hG m hm
  · intro _ _ _ h
    cases h
  · intro s i m x hreach ih hm hx hG _ heq
    cases heq
    have hpast : ∀ j ∈ s.trace, G j := fun j hj => hG j (List.mem_append_left _ hj)
    exact hcall s ⟨i, x, m, _, _⟩ ⟨hreach, hm, hx, rfl, rfl⟩ hpast
      (hG _ List.mem_concat_self) (ih i hpast m hm)
  · intro s i m x j life _ h hG
    exact h fun k hk => hG k (List.mem_append_left _ hk)
  · intro _ _ _ _ _ _ h
    cases h
  · intro calls i r d m _ hb _ _ heq
    cases heq
    exact hboot i r d m hb

theorem recorded_induction {sys : System I M D X P R} {G : Call I M X P → Prop} {Q : M → Prop}
    (hboot : ∀ i r d m, sys.boot i r d = some m → Q m)
    (hcall : ∀ s k, MadeIn sys s k → (∀ j ∈ s.trace, G j) → G k → Q k.pre → Q k.post)
    {s : State I M D X P} (hs : Reachable sys s) (hG : ∀ k ∈ s.trace, G k) {k : Call I M X P}
    (hk : k ∈ s.trace) : Q k.pre ∧ Q k.post := by
  obtain ⟨n, hn⟩ := List.mem_iff_getElem?.mp hk
  obtain ⟨s₀, hmade, htrace⟩ := exists_madeIn hs hn
  have hpast : ∀ j ∈ s₀.trace, G j := by
    rw [htrace]
    exact fun j hj => hG j (List.mem_of_mem_take hj)
  have hpre : Q k.pre := running_induction hboot hcall hmade.reachable hpast hmade.up
  exact ⟨hpre, hcall s₀ k hmade hpast (hG k hk) hpre⟩

/-- Node `i` has gone from the state `m₀` to `m` while `calls` were made, by itself and by
others. -/
inductive Lived (i : I) (m₀ : M) : List (Call I M X P) → M → Prop
  | start : Lived i m₀ [] m₀
  | own {calls : List (Call I M X P)} (k : Call I M X P) (h : Lived i m₀ calls k.pre)
      (hk : k.node = i) : Lived i m₀ (calls ++ [k]) k.post
  | other {calls : List (Call I M X P)} {m : M} (k : Call I M X P) (h : Lived i m₀ calls m)
      (hk : k.node ≠ i) : Lived i m₀ (calls ++ [k]) m

/-- `since` are the calls made since node `i` was booted last; `m` is what it has come to. -/
structure Living (sys : System I M D X P R) (s : State I M D X P) (i : I) (m : M)
    (since : List (Call I M X P)) : Prop where
  up : s.node i = .up m
  suffix : since <:+ s.trace
  life : ∃ r d m₀, sys.boot i r d = some m₀ ∧ Lived i m₀ since m

omit [DecidableEq I] in
theorem lived_upto {i : I} {m₀ m : M} {before after : List (Call I M X P)} {k : Call I M X P}
    (h : Lived i m₀ (before ++ k :: after) m) (hk : k.node = i) :
    Lived i m₀ (before ++ [k]) k.post := by
  generalize hcalls : before ++ k :: after = calls at h
  induction h generalizing after with
  | start => simp at hcalls
  | own k' h hk' ih =>
      rcases List.eq_nil_or_concat after with rfl | ⟨after', k'', rfl⟩
      · obtain ⟨rfl, rfl⟩ := List.append_singleton_inj.mp hcalls
        exact Lived.own k h hk
      · rw [List.concat_eq_append, ← List.cons_append, ← List.append_assoc] at hcalls
        exact ih (List.append_singleton_inj.mp hcalls).1
  | other k' h hk' ih =>
      rcases List.eq_nil_or_concat after with rfl | ⟨after', k'', rfl⟩
      · obtain ⟨-, rfl⟩ := List.append_singleton_inj.mp hcalls
        exact absurd hk hk'
      · rw [List.concat_eq_append, ← List.cons_append, ← List.append_assoc] at hcalls
        exact ih (List.append_singleton_inj.mp hcalls).1

/-- The actions that neither end nor begin a life of node `i`. -/
def Action.spares (i : I) : Action I X R → Bool
  | .crash j | .restart j _ => j ≠ i
  | .deliver _ | .act _ _ => true

theorem lived_step {sys : System I M D X P R} {s s' : State I M D X P} {a : Action I X R}
    (h : sys.step s a = some s') {i : I} (ha : a.spares i = true) {m' : M}
    (hup : s'.node i = .up m') :
    ∃ m, s.node i = .up m ∧ ∀ m₀, Lived i m₀ s.trace m → Lived i m₀ s'.trace m' := by
  have hset : ∀ j life, j ≠ i → s' = s.set j life →
      ∃ m, s.node i = .up m ∧ ∀ m₀, Lived i m₀ s.trace m → Lived i m₀ s'.trace m' := by
    rintro j life hj rfl
    change Function.update s.node j life i = .up m' at hup
    rw [Function.update_of_ne hj.symm] at hup
    exact ⟨m', hup, fun _ hlife => hlife⟩
  rcases step_cases h with
    ⟨j, m, x, hm, -, rfl⟩ | ⟨j, m, rfl, -, heq⟩ | ⟨j, r, d, m, rfl, -, -, heq⟩
  · change Function.update s.node j _ i = .up m' at hup
    by_cases hj : j = i
    · subst hj
      have hpost : (sys.handle m x).1 = m' := by
        rw [Function.update_self] at hup
        split at hup
        · cases hup
        · exact Life.up.inj hup
      exact ⟨m, hm, fun m₀ hlife => hpost ▸ Lived.own ⟨j, x, m, _, _⟩ hlife rfl⟩
    · rw [Function.update_of_ne (Ne.symm hj)] at hup
      exact ⟨m', hup, fun m₀ hlife => Lived.other ⟨j, x, m, _, _⟩ hlife hj⟩
  · exact hset j _ (of_decide_eq_true ha) heq
  · exact hset j _ (of_decide_eq_true ha) heq

/-- A run that boots a node first and spares it from then on is the life of this node. -/
theorem living_of_run {sys : System I M D X P R} {s : State I M D X P} {i : I} {r : R} {m : M}
    {actions : List (Action I X R)} (hrun : sys.run (.restart i r :: actions) = some s)
    (hspare : ∀ a ∈ actions, a.spares i = true) (hup : s.node i = .up m) :
    Living sys s i m s.trace := by
  suffices hlife : ∃ m₀, sys.boot i r sys.blank = some m₀ ∧ Lived i m₀ s.trace m by
    obtain ⟨m₀, hboot, hlife⟩ := hlife
    exact ⟨hup, List.suffix_refl _, r, _, m₀, hboot, hlife⟩
  induction actions using List.reverseRecOn generalizing s m with
  | nil =>
      have hstep : (sys.boot i r sys.blank).map (fun m => (init sys).set i (.up m)) = some s := by
        simpa [System.run, System.step, init] using hrun
      obtain ⟨m₀, hboot, rfl⟩ := Option.map_eq_some_iff.mp hstep
      change Function.update (init sys).node i (Life.up m₀) i = Life.up m at hup
      rw [Function.update_self] at hup
      obtain rfl := Life.up.inj hup
      exact ⟨m₀, hboot, Lived.start⟩
  | append_singleton actions a ih =>
      rw [← List.cons_append, System.run, List.foldlM_append] at hrun
      obtain ⟨mid, hmid, hstep⟩ := Option.bind_eq_some_iff.mp hrun
      have hstep : sys.step mid a = some s := by simpa using hstep
      obtain ⟨m', hup', hlife⟩ :=
        lived_step hstep (hspare a List.mem_concat_self) hup
      obtain ⟨m₀, hboot, hlived⟩ :=
        ih hmid (fun b hb => hspare b (List.mem_append_left _ hb)) hup'
      exact ⟨m₀, hboot, hlife m₀ hlived⟩

end

end RaftKV.Distributed.Network
