import RaftKV.Distributed.Network

/-!
Processes that host a node of each of several groups. The groups share the processes and the
network, and nothing else: what such a cluster does looks to each group like a run of its own.
-/

namespace RaftKV.Distributed.Hosting

open Distributed.Network

variable {I M D X P R γ τ Y : Type}

/-- How a process shares itself out. Packets travel under the name of their group; an input
goes to the node it is routed to, if there is one. -/
structure Router (γ X P τ Y : Type) where
  name : γ → τ
  receive : τ × P → Y
  route : Y → Option (γ × X)
  isLocal : Y → Bool

section

variable [DecidableEq γ] [Fintype γ]

/-- The processes as nodes of one system. A process starts if all of its nodes do, and keeps
running whatever becomes of them. -/
def hosted (sys : System I M D X P R) (router : Router γ X P τ Y) :
    System I (γ → M) (γ → D) Y (τ × P) (γ → R) where
  blank := fun _ => sys.blank
  boot := fun i r d =>
    if h : ∀ g, (sys.boot i (r g) (d g)).isSome then
      some fun g => (sys.boot i (r g) (d g)).get (h g)
    else none
  disk := fun m g => sys.disk (m g)
  handle := fun m y =>
    match router.route y with
    | none => (m, some [])
    | some (g, x) =>
        (Function.update m g (sys.handle (m g) x).1,
          some (((sys.handle (m g) x).2.getD []).map (router.name g, ·)))
  dest := fun p => sys.dest p.2
  input := router.receive
  isLocal := router.isLocal

def lifeOf (g : γ) : Life (γ → M) (γ → D) → Life M D
  | .up m => .up (m g)
  | .down d => .down (d g)

/-- A call of a process as a call of its node of the group, if it is one. -/
def callOf (router : Router γ X P τ Y) (g : γ) (k : Call I (γ → M) Y (τ × P)) :
    Option (Call I M X P) :=
  match router.route k.input with
  | none => none
  | some (g', x) =>
      if g' = g then some ⟨k.node, x, k.pre g, k.post g, k.sent.map Prod.snd⟩ else none

variable [DecidableEq τ]

/-- A packet of the group without its name. -/
def packetOf (router : Router γ X P τ Y) (g : γ) (p : τ × P) : Option P :=
  if p.1 = router.name g then some p.2 else none

/-- What a group sees of a cluster. -/
def project (router : Router γ X P τ Y) (g : γ) (s : State I (γ → M) (γ → D) Y (τ × P)) :
    State I M D X P where
  node := lifeOf g ∘ s.node
  net := s.net.filterMap (packetOf router g)
  trace := s.trace.filterMap (callOf router g)

end

section Packets

variable [DecidableEq τ] {router : Router γ X P τ Y} {g g' : γ}

theorem filterMap_packetOf (sent : List P) :
    (sent.map (router.name g, ·)).filterMap (packetOf router g) = sent := by
  have h : packetOf router g ∘ (router.name g, ·) = some := funext fun p => if_pos rfl
  rw [List.filterMap_map, h, List.filterMap_some]

theorem filterMap_packetOf_of_ne (hname : Function.Injective router.name) (h : g' ≠ g)
    (sent : List P) : (sent.map (router.name g', ·)).filterMap (packetOf router g) = [] := by
  refine List.filterMap_eq_nil_iff.mpr fun p hp => ?_
  obtain ⟨q, -, rfl⟩ := List.mem_map.mp hp
  exact if_neg fun heq => h (hname heq)

end Packets

section Runs

variable [DecidableEq I] [DecidableEq γ] [Fintype γ] [DecidableEq τ]
variable {sys : System I M D X P R} {router : Router γ X P τ Y}
variable {s : State I (γ → M) (γ → D) Y (τ × P)} {i : I} {m m' : γ → M} {y : Y} {g : γ} {x : X}

/-- Names tell groups apart, packets go where their name says, what is local to a process is
local to the node it concerns, and nodes do not halt. -/
structure Sound (sys : System I M D X P R) (router : Router γ X P τ Y) : Prop where
  name : Function.Injective router.name
  receive : ∀ t p g x, router.route (router.receive (t, p)) = some (g, x) →
    t = router.name g ∧ x = sys.input p
  isLocal : ∀ y g x, router.isLocal y = true → router.route y = some (g, x) → sys.isLocal x = true
  serves : ∀ m x, ∃ sent, (sys.handle m x).2 = some sent

omit [Fintype γ] in
theorem project_set (s : State I (γ → M) (γ → D) Y (τ × P)) (i : I) (life : Life (γ → M) (γ → D))
    (g : γ) : project router g (s.set i life) = (project router g s).set i (lifeOf g life) := by
  simp only [project, State.set, Function.comp_update]

theorem project_call (hsound : Sound sys router) (hroute : router.route y = some (g, x)) :
    project router g ((hosted sys router).call s i m y) =
      sys.call (project router g s) i (m g) x := by
  obtain ⟨sent, hsent⟩ := hsound.serves (m g) x
  have hhandle : (hosted sys router).handle m y = (Function.update m g (sys.handle (m g) x).1,
      some (sent.map (router.name g, ·))) := by
    simp only [hosted, hroute, hsent, Option.getD_some]
  have hcall : callOf router g ⟨i, y, m, Function.update m g (sys.handle (m g) x).1,
      sent.map (router.name g, ·)⟩ = some ⟨i, x, m g, (sys.handle (m g) x).1, sent⟩ := by
    simp only [callOf, hroute, if_pos, Function.update_self, List.map_map, Function.comp_def,
      List.map_id']
  rw [call_eq_record hhandle, call_eq_record (Prod.ext rfl hsent)]
  simp only [project, State.record, Function.comp_update, lifeOf, Function.update_self,
    List.filterMap_append, filterMap_packetOf, List.filterMap_cons_some hcall, List.filterMap_nil]

theorem project_call_of_ne (hsound : Sound sys router) (hup : s.node i = .up m)
    (hroute : ∀ x, router.route y ≠ some (g, x)) :
    project router g ((hosted sys router).call s i m y) = project router g s := by
  have hnone : ∀ m' sent, callOf router g (⟨i, y, m, m', sent⟩ : Call I (γ → M) Y (τ × P)) =
      none := by
    intro m' sent
    unfold callOf
    split
    · rfl
    · rename_i g' x hy
      refine if_neg ?_
      rintro rfl
      exact hroute x hy
  -- the node of the group stays as it is, and nothing is sent in its name
  obtain ⟨m', sent, hhandle, hm', hsent⟩ : ∃ m' sent,
      (hosted sys router).handle m y = (m', some sent) ∧ m' g = m g ∧
        sent.filterMap (packetOf router g) = [] := by
    cases hy : router.route y with
    | none => exact ⟨m, [], by simp only [hosted, hy], rfl, rfl⟩
    | some target =>
        obtain ⟨g', x⟩ := target
        have hne : g' ≠ g := by
          rintro rfl
          exact hroute x hy
        exact ⟨_, _, by simp only [hosted, hy]; rfl, Function.update_of_ne hne.symm _ _,
          filterMap_packetOf_of_ne hsound.name hne _⟩
  have hlife : lifeOf g (.up m' : Life (γ → M) (γ → D)) = lifeOf g (s.node i) := by
    rw [hup, lifeOf, lifeOf, hm']
  rw [call_eq_record hhandle]
  simp only [project, State.record, Function.comp_update, hlife, List.filterMap_append, hsent,
    List.filterMap_cons_none (hnone m' sent), List.filterMap_nil, List.append_nil]
  congr 1
  exact Function.update_eq_self i (lifeOf g ∘ s.node)

omit [DecidableEq I] in
theorem enabled_project (hsound : Sound sys router) (hy : Enabled (hosted sys router) s i y)
    (hroute : router.route y = some (g, x)) : Enabled sys (project router g s) i x := by
  rcases hy with hlocal | ⟨⟨t, p⟩, hp, hdest, rfl⟩
  · exact Or.inl (hsound.isLocal y g x hlocal hroute)
  · obtain ⟨rfl, rfl⟩ := hsound.receive t p g x hroute
    exact Or.inr ⟨p, List.mem_filterMap.mpr ⟨_, hp, if_pos rfl⟩, hdest, rfl⟩

/-- Each group runs as it would alone. -/
theorem reachable_project (hsound : Sound sys router) (hs : Reachable (hosted sys router) s)
    (g : γ) : Reachable sys (project router g s) := by
  have hlife : ∀ {s : State I (γ → M) (γ → D) Y (τ × P)} {i : I} {life : Life (γ → M) (γ → D)},
      s.node i = life → (project router g s).node i = lifeOf g life := congrArg (lifeOf g)
  refine reachable_induction (Q := fun s => Reachable sys (project router g s)) ?_ ?_ ?_ ?_ hs
  · exact reachable_init sys
  · intro s i m y _ ih hup hy
    by_cases hroute : ∃ x, router.route y = some (g, x)
    · obtain ⟨x, hx⟩ := hroute
      rw [project_call hsound hx]
      exact reachable_call ih (hlife hup) (enabled_project hsound hy hx)
    · rw [project_call_of_ne hsound hup fun x hx => hroute ⟨x, hx⟩]
      exact ih
  · intro s i m _ ih hup
    rw [project_set]
    exact reachable_crash ih (hlife hup)
  · intro s i r d m _ ih hdown hboot
    have hboot' : sys.boot i (r g) (d g) = some (m g) := by
      unfold hosted at hboot
      dsimp only at hboot
      split at hboot
      · obtain rfl := Option.some.inj hboot
        exact (Option.some_get _).symm
      · cases hboot
    rw [project_set]
    exact reachable_restart ih (hlife hdown) hboot'

end Runs

section Moments

variable [DecidableEq γ] {router : Router γ X P τ Y} {g : γ}
variable {calls : List (Call I (γ → M) Y (τ × P))}

/-- The places of the calls of a group among all calls. -/
def turns (router : Router γ X P τ Y) (g : γ) (calls : List (Call I (γ → M) Y (τ × P))) :
    List Nat :=
  (calls.zipIdx.filter fun x => (callOf router g x.1).isSome).map Prod.snd

/-- When the call number `p` of a group was made, on the clock of all calls. What has not
happened comes after everything that has. -/
def moment (router : Router γ X P τ Y) (g : γ) (calls : List (Call I (γ → M) Y (τ × P)))
    (p : Nat) : Nat :=
  (turns router g calls)[p]?.getD calls.length

theorem sublist_turns : (turns router g calls).Sublist (List.range calls.length) := by
  rw [List.range_eq_range', ← List.zipIdx_map_snd 0 calls]
  exact List.filter_sublist.map _

theorem moment_mono : Monotone (moment router g calls) := by
  have hsorted : (turns router g calls).Pairwise (· < ·) :=
    List.Pairwise.sublist sublist_turns List.pairwise_lt_range
  intro p q hpq
  unfold moment
  rcases Nat.lt_or_ge q (turns router g calls).length with hq | hq
  · rw [List.getElem?_eq_getElem (hpq.trans_lt hq), List.getElem?_eq_getElem hq]
    rcases hpq.lt_or_eq with hlt | rfl
    · exact (List.pairwise_iff_getElem.mp hsorted p q (hlt.trans hq) hq hlt).le
    · exact le_rfl
  · rw [List.getElem?_eq_none hq, Option.getD_none]
    rcases Nat.lt_or_ge p (turns router g calls).length with hp | hp
    · rw [List.getElem?_eq_getElem hp]
      exact (List.mem_range.mp (sublist_turns.subset (List.getElem_mem hp))).le
    · rw [List.getElem?_eq_none hp]
      exact le_rfl

theorem getElem?_moment {p : Nat} {k : Call I M X P}
    (hk : (calls.filterMap (callOf router g))[p]? = some k) :
    ∃ k', calls[moment router g calls p]? = some k' ∧ callOf router g k' = some k := by
  have hpairs : ∀ (l : List (Call I (γ → M) Y (τ × P) × Nat)) (p : Nat),
      ((l.map Prod.fst).filterMap (callOf router g))[p]? = some k →
      ∃ x ∈ l, (l.filter fun x => (callOf router g x.1).isSome)[p]? = some x ∧
        callOf router g x.1 = some k := by
    intro l
    induction l with
    | nil => intro p h; cases h
    | cons x l ih =>
        intro p h
        rw [List.map_cons] at h
        cases hx : callOf router g x.1 with
        | none =>
            rw [List.filterMap_cons_none hx] at h
            rw [List.filter_cons_of_neg (by rw [hx]; exact Bool.false_ne_true)]
            obtain ⟨y, hy, hrest⟩ := ih p h
            exact ⟨y, List.mem_cons_of_mem _ hy, hrest⟩
        | some k₀ =>
            rw [List.filterMap_cons_some hx] at h
            rw [List.filter_cons_of_pos (by rw [hx]; rfl)]
            cases p with
            | zero => exact ⟨x, List.mem_cons_self, rfl, hx.trans h⟩
            | succ p =>
                obtain ⟨y, hy, hrest⟩ := ih p h
                exact ⟨y, List.mem_cons_of_mem _ hy, hrest⟩
  rw [← List.zipIdx_map_fst 0 calls] at hk
  obtain ⟨⟨k', q⟩, hmem, hget, hcall⟩ := hpairs _ p hk
  refine ⟨k', ?_, hcall⟩
  rw [moment, turns, List.getElem?_map, hget]
  exact List.mem_zipIdx_iff_getElem?.mp hmem

end Moments

end RaftKV.Distributed.Hosting
