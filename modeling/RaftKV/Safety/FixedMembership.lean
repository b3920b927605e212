import RaftKV.Refinement.Runs
import RaftKV.Safety.Elections

/-!
The safety properties of a cluster with one fixed membership and readable commands, over
every run: any delivery order, loss and repetition, any number of crashes and restarts, any
compactions and snapshot installs.
-/

namespace RaftKV.Safety.FixedMembership

open Consensus.Prefix Consensus.Protocol Consensus.Completeness Consensus.Preservation
open Consensus.Commitment
open Distributed.Network
open Raft Raft.Durability Raft.Cluster Raft.Histories Raft.Authorship
open Refinement.Relation Refinement.Sending Refinement.Following Refinement.Simulation
open Refinement.Runs
open Safety.Elections

variable {k : CoreCall} {e e' : Entry} {l : Lead ID Entry} {L : List Entry} {p : Nat}
variable {T : Snapshot → List Entry → Prop}

section Regime

variable {M : Members}

/-- No configuration entries, so that exactly the initial members vote. -/
def fixedRegime (M : Members) : Regime M where
  allowed := fun e => e.type ≠ .config
  voter := fun j => j ∈ M
  noop_allowed := by
    intro e he
    rw [he]
    exact EntryType.noConfusion
  voter_of_mem := by
    intro L hL j hj
    rwa [membersAfter_plain hL] at hj

/-- Every entry of `L` is one that `snap` was taken of. -/
def taken (trace : List CoreCall) (snap : Snapshot) (L : List Entry) : Prop :=
  ∀ e ∈ L, TakenOf trace snap e

end Regime

variable {D : Deployment} {s : CoreState} {g : Ghost} {i j : ID} {c c' : Core}

theorem members_eq
    (h : World (fixedRegime D.members) T g s.node s.net) (hup : s.node i = .up c) :
    c.members = D.members := by
  obtain ⟨hrel, hset⟩ := h.live i c hup
  rw [hset.members]
  exact membersAfter_plain (allowed_of_matched h.sound (h.sound.inv.log_matched i))

theorem taken_compact {R : Regime D.members}
    (h : NodeRel R T g i c) {trace : List CoreCall} (hT : ∀ snap L, T snap L → taken trace snap L)
    (hk : k ∈ trace) (hpre : k.pre = c) {snap : Snapshot}
    (hc : Compacts k snap) : taken trace snap ((g.log i).take snap.lastIndex) := by
  intro e he
  obtain ⟨p, hp⟩ := List.mem_iff_getElem?.mp he
  rw [List.getElem?_take] at hp
  split at hp
  · rename_i hlt
    have hindex := h.mirror.numbered p e hp
    rcases Nat.lt_or_ge p c.snapIndex with hsnap | hsnap
    · obtain ⟨old, hold, -, hidx, -⟩ := exists_snapshot h (Nat.zero_lt_of_lt hsnap)
      refine TakenOf.earlier hk hc (hpre ▸ hold) (hT _ _ (h.snapshot old hold).2 e ?_)
      refine List.mem_of_getElem? (i := p) ?_
      rw [List.getElem?_take, if_pos (by omega)]
      exact hp
    · refine TakenOf.log hk hc ?_ (by omega)
      rw [hpre, h.mirror.entries]
      refine List.mem_of_getElem? (i := p - c.snapIndex) ?_
      rw [List.getElem?_drop, Nat.add_sub_cancel' hsnap]
      exact hp
  · cases hp

theorem inputOK_of_enabled (hD : Encodable D.members)
    (h : ClusterRel (fixedRegime D.members) T g s) (hup : s.node i = .up c) {x : Input}
    (hx : Enabled (coreSystem D) s i x) (hfix : changesMembership x = false)
    (hcompact : ∀ index data, x = .compact index data → c.snapIndex < index →
      index ≤ c.lastDelivered →
        T (snapshotAt c index data) ((g.log i).take index)) :
    InputOK (fixedRegime D.members) T g i c x := by
  obtain ⟨hrel, -⟩ := h.world.live i c hup
  have hmem := members_eq h.world hup
  cases x with
  | deliver p =>
      rcases hx with hlocal | ⟨q, hq, hdest, hin⟩
      · cases hlocal
      · obtain rfl : q = p := Input.deliver.inj hin
        refine ⟨h.world.packets q hq, hdest, fun hv _ _ => ?_⟩
        rw [isMember, hmem, hrel.id]
        exact Std.ExtTreeMap.contains_iff_mem.mpr hv
  | client ev =>
      rcases hx with hlocal | ⟨q, -, -, hin⟩
      · refine ⟨hlocal, ?_⟩
        cases ev with
        | propose command typ =>
            have htyp : typ ≠ .config := by
              rintro rfl
              cases hlocal
            refine ⟨htyp, ?_⟩
            rintro e rfl
            exact htyp
        | confChange cc => cases hfix
        | _ => trivial
      · cases hin
  | compact index data =>
      intro hgt hle
      refine ⟨?_, hcompact index data rfl hgt hle⟩
      change Encodable (configAt c index)
      rw [hrel.mirror.configAt hgt.le, membersAfter_plain]
      · exact hD
      · intro e he
        exact allowed_of_matched h.world.sound (h.world.sound.inv.log_matched i) e
          (List.mem_of_mem_take he)

/-- Every run with a fixed membership and readable commands is a run of the protocol; and what
each call says about the protocol when it is made, and still says as the protocol goes on, holds
in the end. -/
theorem exists_protocol_with {P : Ghost → CoreCall → Prop}
    (hmono : ∀ g g' k, Grows g g' → P g k → P g' k)
    (hcall : ∀ T g k, Sound (fixedRegime D.members) g →
      NodeRel (fixedRegime D.members) T g k.node k.post → P g k)
    (hs : Reachable (coreSystem D) s) (hreg : Regular D s) :
    ∃ g, ClusterRel (fixedRegime D.members) (taken s.trace) g s ∧ ∀ k ∈ s.trace, P g k := by
  refine reachable_induction (Q := fun s => Regular D s →
    ∃ g, ClusterRel (fixedRegime D.members) (taken s.trace) g s ∧ ∀ k ∈ s.trace, P g k)
    ?_ ?_ ?_ ?_ hs hreg
  · exact fun _ => ⟨_, clusterRel_init, fun _ hk => absurd hk List.not_mem_nil⟩
  · intro s i c x _ ih hup hx hreg
    obtain ⟨g, hrel, hP⟩ := ih (hreg.part (List.subset_append_left _ _))
    obtain ⟨hnode, -⟩ := hrel.world.live i c hup
    have hlast : (⟨i, x, c, (respond c x).1, (respond c x).2.getD []⟩ : CoreCall) ∈
        ((coreSystem D).call s i c x).trace := List.mem_concat_self
    have hmono' : ∀ snap L, taken s.trace snap L →
        taken ((coreSystem D).call s i c x).trace snap L :=
      fun snap L h e he => takenOf_mono (h e he) _
    have hx' := inputOK_of_enabled hreg.fixed.uniform.encodable (clusterRel_imp hmono' hrel) hup hx
      (hreg.fixed.unchanging _ hlast)
      fun index data hcompact hgt hle =>
        taken_compact hnode hmono' hlast rfl ⟨index, data, hcompact, hgt, hle, rfl⟩
    obtain ⟨g', hg, hnode', hrel'⟩ := clusterRel_call (clusterRel_imp hmono' hrel) hup hx'
    refine ⟨g', hrel', ?_⟩
    intro k hk
    rcases List.mem_append.mp hk with hk | hk
    · exact hmono g g' k hg (hP k hk)
    · rw [List.mem_singleton.mp hk]
      exact hcall _ g' _ hrel'.world.sound hnode'
  · intro s i c _ ih hup hreg
    obtain ⟨g, hrel, hP⟩ := ih (hreg.part (List.Subset.refl _))
    exact ⟨g, clusterRel_crash hrel hup, hP⟩
  · intro s i rng d c hreach ih hdown hboot hreg
    obtain ⟨g, hrel, hP⟩ := ih (hreg.part (List.Subset.refl _))
    have hfits := readable_of_bounded hreach hreg.bounded hdown
    exact ⟨g, clusterRel_restart hrel hreg.fixed.uniform hdown hfits hboot, hP⟩

theorem exists_protocol (hs : Reachable (coreSystem D) s) (hreg : Regular D s) :
    ∃ g, ClusterRel (fixedRegime D.members) (taken s.trace) g s := by
  obtain ⟨g, hrel, -⟩ := exists_protocol_with (P := fun _ _ => True) (fun _ _ _ _ _ => trivial)
    (fun _ _ _ _ _ => trivial) hs hreg
  exact ⟨g, hrel⟩

theorem length_zeros (n : Nat) : n = (List.replicate n (0 : UInt8)).length :=
  List.length_replicate.symm

def zeros (n : Nat) : Command :=
  ⟨List.replicate n 0, n, length_zeros n⟩

/-- A command that replay of the log file takes for a torn tail. -/
def oversize : Command :=
  zeros (maxCommandLen + 1)

def lone : Deployment :=
  evenly ((∅ : Members).insert 1 []) true

theorem uniform_lone : lone.Uniform :=
  uniform_evenly ⟨by decide, by decide⟩ true

/-- The node of a cluster of one commits a long command and restarts. -/
def forgetful : List (Action ID Input (Nat → Nat)) :=
  [.restart 1 fun _ => 0, .act 1 (.client .tick), .act 1 (.client (.propose oversize .normal)),
    .crash 1, .restart 1 fun _ => 0, .act 1 (.client .tick)]

theorem eq_of_committed {R : Regime D.members}
    (h : ClusterRel R T g s) {k' : CoreCall} (hk : k ∈ s.trace) (hk' : k' ∈ s.trace)
    (he : e ∈ k.post.committed) (he' : e' ∈ k'.post.committed)
    (hindex : e.index = e'.index) : e = e' := by
  obtain ⟨-, hchosen⟩ := (h.calls k hk).chosen e he
  obtain ⟨-, hchosen'⟩ := (h.calls k' hk').chosen e' he'
  rw [← hindex] at hchosen'
  exact chosen_unique h.world.sound.inv hchosen hchosen'

/-- Entries handed out at the same index are the same entry, whichever nodes and
whichever of their lives they were handed out in. -/
theorem state_machine_safety (hs : Reachable (coreSystem D) s) (hfix : FixedMembership D s)
    (hbound : Bounded s) {k k' : CoreCall} (hk : k ∈ s.trace) (hk' : k' ∈ s.trace) {e e' : Entry}
    (he : e ∈ k.post.committed) (he' : e' ∈ k'.post.committed) (hindex : e.index = e'.index) :
    e = e' := by
  obtain ⟨g, hrel⟩ := exists_protocol hs ⟨hfix, hbound⟩
  exact eq_of_committed hrel hk hk' he he' hindex

theorem state_machine_safety_handover : ∃ s, Reachable (coreSystem trio) s ∧
    FixedMembership trio s ∧ Bounded s ∧ ∃ k ∈ s.trace, ∃ k' ∈ s.trace, k.node ≠ k'.node ∧
      ∃ e ∈ k.post.committed, ∃ e' ∈ k'.post.committed, e.index = e'.index ∧ e = e' := by
  obtain ⟨s, hs, hsame, hbound, k, hk, k', hk', hne, e, he, e', he', hindex⟩ :=
    exists_of_run (coreSystem trio) handover (fun s => Unchanging s ∧ Bounded s ∧
      ∃ k ∈ s.trace, ∃ k' ∈ s.trace, k.node ≠ k'.node ∧
        ∃ e ∈ k.post.committed, ∃ e' ∈ k'.post.committed, e.index = e'.index)
      (by decide +kernel)
  have hfix : FixedMembership trio s := ⟨uniform_trio, hsame⟩
  exact ⟨s, hs, hfix, hbound, k, hk, k', hk', hne, e, he, e', he', hindex,
    state_machine_safety hs hfix hbound hk hk' he he' hindex⟩

/-- Without the bound the entry of a long command is replaced after it was handed out. -/
theorem state_machine_safety_oversize : ∃ s, Reachable (coreSystem lone) s ∧
    FixedMembership lone s ∧ ∃ k ∈ s.trace, ∃ k' ∈ s.trace, k.node = k'.node ∧
      ∃ e ∈ k.post.committed, ∃ e' ∈ k'.post.committed, e.index = e'.index ∧ e ≠ e' := by
  obtain ⟨s, hs, hsame, k, hk, k', hk', hnode, e, he, e', he', hindex, hterm⟩ :=
    exists_of_run (coreSystem lone) forgetful (fun s => Unchanging s ∧
      ∃ k ∈ s.trace, ∃ k' ∈ s.trace, k.node = k'.node ∧
        ∃ e ∈ k.post.committed, ∃ e' ∈ k'.post.committed, e.index = e'.index ∧ e.term ≠ e'.term)
      (by decide +kernel)
  exact ⟨s, hs, ⟨uniform_lone, hsame⟩, k, hk, k', hk', hnode, e, he, e', he', hindex,
    fun heq => hterm (congrArg Entry.term heq)⟩

section Elections

variable {R : Regime D.members} {T : Snapshot → List Entry → Prop}

theorem lead_of_held (h : ClusterRel R T g s) (hheld : Held s i c) (hrole : c.role = .leader) :
    ∃ l, g.lead c.term = some l ∧ l.node = i := by
  rcases hheld with hup | ⟨k, hk, rfl, rfl | rfl⟩
  · obtain ⟨l, hl⟩ := (h.world.live i c hup).1.leader hrole
    exact ⟨l, hl.lead, hl.node⟩
  · exact (h.calls k hk).was_leading hrole
  · obtain ⟨l, L, hl⟩ := (h.calls k hk).led hrole
    exact ⟨l, hl.lead, hl.node⟩

theorem eq_of_leaders (h : ClusterRel R T g s) (hheld : Held s i c) (hheld' : Held s j c')
    (hrole : c.role = .leader) (hrole' : c'.role = .leader) (hterm : c.term = c'.term) :
    i = j := by
  obtain ⟨l, hl, rfl⟩ := lead_of_held h hheld hrole
  obtain ⟨l', hl', rfl⟩ := lead_of_held h hheld' hrole'
  rw [hterm, hl'] at hl
  rw [Option.some.inj hl]

end Elections

section Completeness

variable {R : Regime D.members} {T : Snapshot → List Entry → Prop}

theorem chosen_of_takenOf (h : ClusterRel R T g s) {snap : Snapshot}
    (ht : TakenOf s.trace snap e) : 0 < e.index ∧ Chosen g (e.index - 1) e := by
  induction ht with
  | log hk hc he hle => exact (h.calls _ hk).compacted _ hc _ he hle
  | earlier _ _ _ _ ih => exact ih

theorem getElem?_of_mem {M : Members} (hm : Mirror M L c)
    (he : e ∈ c.entries) : 0 < e.index ∧ L[e.index - 1]? = some e := by
  obtain ⟨p, hp⟩ := List.mem_iff_getElem?.mp he
  have hindex := hm.numbered_entries p e hp
  rw [hm.entries, List.getElem?_drop] at hp
  refine ⟨by omega, ?_⟩
  rw [hindex, Nat.add_sub_cancel]
  exact hp

theorem mem_of_getElem? {M : Members} (hm : Mirror M L c)
    (hp : L[p]? = some e) (hsnap : c.snapIndex ≤ p) : e ∈ c.entries := by
  rw [hm.entries]
  refine List.mem_of_getElem? (i := p - c.snapIndex) ?_
  rw [List.getElem?_drop, Nat.add_sub_cancel' hsnap]
  exact hp

theorem holds_of_led
    (hled : Led D.members (taken s.trace) g k l L) (hp : L[p]? = some e) :
    Holds s.trace k.post e := by
  have hindex := hled.mirror.numbered p e hp
  rcases Nat.lt_or_ge p k.post.snapIndex with hlt | hge
  · obtain ⟨snap, hsnap, -, htaken⟩ := hled.snapshot (Nat.zero_lt_of_lt hlt)
    refine Or.inr ⟨by omega, snap, hsnap, htaken e ?_⟩
    refine List.mem_of_getElem? (i := p) ?_
    rw [List.getElem?_take, if_pos hlt]
    exact hp
  · exact Or.inl (mem_of_getElem? hled.mirror hp hge)

theorem getElem?_of_holds (h : ClusterRel R T g s) (hk : k ∈ s.trace)
    (hled : Led D.members T g k l L)
    (hraise : RaisesCommit k) (he : Holds s.trace k.post e)
    (hle : e.index ≤ k.post.commitIndex) : 0 < e.index ∧ L[e.index - 1]? = some e := by
  rcases he with he | ⟨-, snap, -, htaken⟩
  · exact getElem?_of_mem hled.mirror he
  · obtain ⟨hpos, htaken⟩ := chosen_of_takenOf h htaken
    refine ⟨hpos, ?_⟩
    obtain ⟨cm, hcm, hterm, hlen⟩ := (h.calls k hk).raised hraise.1 hraise.2
    have hlt : e.index - 1 < L.length := by
      have := hled.commit_le
      omega
    have hget : L[e.index - 1]? = some L[e.index - 1] := List.getElem?_eq_getElem hlt
    have hchosen : Chosen g (e.index - 1) L[e.index - 1] := by
      refine ⟨cm, hcm, by omega, ?_⟩
      rw [hterm, leadLog_eq hled.lead]
      exact getElem?_of_isPrefix hled.log hget
    rw [hget, chosen_unique h.world.sound.inv hchosen htaken]

theorem getElem?_of_later (h : ClusterRel R T g s) {k' : CoreCall} (hk : k ∈ s.trace)
    {l' : Lead ID Entry} {L' : List Entry} (hled : Led D.members T g k l L)
    (hled' : Led D.members T g k' l' L') (hraise : RaisesCommit k)
    (hlt : k.post.term < k'.post.term) (hp : L[p]? = some e)
    (hcommit : p < k.post.commitIndex) : L'[p]? = some e := by
  obtain ⟨cm, hcm, hterm, hlen⟩ := (h.calls k hk).raised hraise.1 hraise.2
  have hcomplete := leadsComplete h.world.sound.inv (k'.post.term + 1) _ (Nat.lt_succ_self _) l'
    hled'.lead cm hcm (hterm ▸ hlt)
  refine getElem?_of_isPrefix hled'.init (getElem?_of_isPrefix hcomplete ?_)
  rw [List.getElem?_take, if_pos (by omega), hterm, leadLog_eq hled.lead]
  exact getElem?_of_isPrefix hled.log hp

theorem exists_holds
    (hled : Led D.members (taken s.trace) g k l L) {i : Nat} (hpos : 0 < i)
    (hle : i ≤ k.post.commitIndex) : ∃ e, e.index = i ∧ Holds s.trace k.post e := by
  have hlen : i - 1 < L.length := by
    have := hled.commit_le
    omega
  have hget : L[i - 1]? = some L[i - 1] := List.getElem?_eq_getElem hlen
  have hindex := hled.mirror.numbered _ _ hget
  exact ⟨L[i - 1], by omega, holds_of_led hled hget⟩

theorem holds_of_later (h : ClusterRel R (taken s.trace) g s) {k k' : CoreCall}
    (hk : k ∈ s.trace) (hk' : k' ∈ s.trace) (hraise : RaisesCommit k) (helects : Elects k')
    (hlt : k.post.term < k'.post.term) :
    (∀ i, 0 < i → i ≤ k.post.commitIndex → ∃ e, e.index = i ∧ Holds s.trace k.post e) ∧
      ∀ e, Holds s.trace k.post e → e.index ≤ k.post.commitIndex → Holds s.trace k'.post e := by
  obtain ⟨l, L, hled⟩ := (h.calls k hk).led hraise.1
  obtain ⟨l', L', hled'⟩ := (h.calls k' hk').led helects.1
  refine ⟨?_, ?_⟩
  · intro i hpos hle
    exact exists_holds hled hpos hle
  · intro e he hle
    obtain ⟨hpos, hget⟩ := getElem?_of_holds h hk hled hraise he hle
    exact holds_of_led hled' (getElem?_of_later h hk hled hled' hraise hlt hget (by omega))

end Completeness

/-- Once a leader has raised its commit index, every node elected in a later term
has everything up to it: the very same entries, in its log or under a snapshot
taken of a log that contains them. -/
theorem leader_completeness (hs : Reachable (coreSystem D) s) (hfix : FixedMembership D s)
    (hbound : Bounded s) {k k' : CoreCall} (hk : k ∈ s.trace) (hk' : k' ∈ s.trace)
    (hraise : RaisesCommit k) (helects : Elects k') (hlt : k.post.term < k'.post.term) :
    (∀ i, 0 < i → i ≤ k.post.commitIndex → ∃ e, e.index = i ∧ Holds s.trace k.post e) ∧
      ∀ e, Holds s.trace k.post e → e.index ≤ k.post.commitIndex →
        Holds s.trace k'.post e := by
  obtain ⟨g, hrel⟩ := exists_protocol hs ⟨hfix, hbound⟩
  exact holds_of_later hrel hk hk' hraise helects hlt

theorem leader_completeness_handover : ∃ s, Reachable (coreSystem trio) s ∧
    FixedMembership trio s ∧ Bounded s ∧ ∃ k ∈ s.trace, ∃ k' ∈ s.trace, RaisesCommit k ∧
      Elects k' ∧ k.post.term < k'.post.term ∧ k'.post.snapIndex = 1 ∧
      ∃ e ∈ k.post.entries, e.index = 1 ∧ Holds s.trace k'.post e := by
  obtain ⟨s, hs, hsame, hbound, k, hk, k', hk', hraise, helects, hlt, hsnap, e, he, hindex, hle⟩ :=
    exists_of_run (coreSystem trio) handover (fun s => Unchanging s ∧ Bounded s ∧
      ∃ k ∈ s.trace, ∃ k' ∈ s.trace, RaisesCommit k ∧ Elects k' ∧ k.post.term < k'.post.term ∧
        k'.post.snapIndex = 1 ∧ ∃ e ∈ k.post.entries, e.index = 1 ∧
          e.index ≤ k.post.commitIndex)
      (by decide +kernel)
  have hfix : FixedMembership trio s := ⟨uniform_trio, hsame⟩
  exact ⟨s, hs, hfix, hbound, k, hk, k', hk', hraise, helects, hlt, hsnap, e, he, hindex,
    (leader_completeness hs hfix hbound hk hk' hraise helects hlt).2 e (Or.inl he) hle⟩

/-- Without the bound a later leader may lack what was committed before. -/
theorem leader_completeness_oversize : ∃ s, Reachable (coreSystem lone) s ∧
    FixedMembership lone s ∧ ∃ k ∈ s.trace, ∃ k' ∈ s.trace, RaisesCommit k ∧ Elects k' ∧
      k.post.term < k'.post.term ∧ ∃ e, Holds s.trace k.post e ∧
        e.index ≤ k.post.commitIndex ∧ ¬ Holds s.trace k'.post e := by
  obtain ⟨s, hs, hsame, k, hk, k', hk', hraise, helects, hlt, hsnap, e, he, hpos, hle, hother⟩ :=
    exists_of_run (coreSystem lone) forgetful (fun s => Unchanging s ∧
      ∃ k ∈ s.trace, ∃ k' ∈ s.trace, RaisesCommit k ∧ Elects k' ∧ k.post.term < k'.post.term ∧
        k'.post.snapIndex = 0 ∧ ∃ e ∈ k.post.entries, 0 < e.index ∧
          e.index ≤ k.post.commitIndex ∧ ∀ f ∈ k'.post.entries, f.index = e.index →
            f.term ≠ e.term)
      (by decide +kernel)
  refine ⟨s, hs, ⟨uniform_lone, hsame⟩, k, hk, k', hk', hraise, helects, hlt, e, Or.inl he, hle, ?_⟩
  rintro (hmem | ⟨hsnapped, -⟩)
  · exact hother e hmem rfl rfl
  · omega

section Matching

variable {R : Regime D.members} {T : Snapshot → List Entry → Prop}

theorem eq_of_same_term (h : World R T g s.node s.net) (hup : s.node i = .up c)
    (hup' : s.node j = .up c') (he : e ∈ c.entries) (he' : e' ∈ c'.entries)
    (hindex : e.index = e'.index) (hterm : e.term = e'.term) :
    (g.log i).take e.index = (g.log j).take e.index := by
  obtain ⟨hpos, hget⟩ := getElem?_of_mem (h.live i c hup).1.mirror he
  obtain ⟨-, hget'⟩ := getElem?_of_mem (h.live j c' hup').1.mirror he'
  rw [← hindex] at hget'
  have hlen := (List.getElem?_eq_some_iff.mp hget).1
  have hlen' := (List.getElem?_eq_some_iff.mp hget').1
  refine take_eq_of_termOf (h.sound.inv.log_matched i) (h.sound.inv.log_matched j) (by omega)
    (by omega) ?_
  obtain ⟨p, hp⟩ : ∃ p, e.index = p + 1 := ⟨e.index - 1, by omega⟩
  rw [hp, Nat.add_sub_cancel] at hget hget'
  rw [hp, termOf, termOf, hget, hget']
  exact hterm

theorem eq_of_take_eq (h : World R T g s.node s.net) (hup : s.node i = .up c)
    (hup' : s.node j = .up c') {n : Nat} (heq : (g.log i).take n = (g.log j).take n)
    (he : e ∈ c.entries) (he' : e' ∈ c'.entries) (hindex : e.index = e'.index)
    (hle : e.index ≤ n) : e = e' := by
  obtain ⟨hpos, hget⟩ := getElem?_of_mem (h.live i c hup).1.mirror he
  obtain ⟨-, hget'⟩ := getElem?_of_mem (h.live j c' hup').1.mirror he'
  rw [← hindex] at hget'
  have hlt : e.index - 1 < n := by
    omega
  have hboth := congrArg (fun L => L[e.index - 1]?) heq
  simp only [List.getElem?_take, if_pos hlt, hget, hget'] at hboth
  exact Option.some.inj hboth

theorem eq_below_of_same_term (h : World R T g s.node s.net) (hup : s.node i = .up c)
    (hup' : s.node j = .up c') (he : e ∈ c.entries) (he' : e' ∈ c'.entries)
    (hindex : e.index = e'.index) (hterm : e.term = e'.term) :
    e = e' ∧ ∀ f ∈ c.entries, ∀ f' ∈ c'.entries, f.index = f'.index → f.index ≤ e.index →
      f = f' := by
  have heq := eq_of_same_term h hup hup' he he' hindex hterm
  refine ⟨eq_of_take_eq h hup hup' heq he he' hindex le_rfl, ?_⟩
  intro f hf f' hf' hfindex hle
  exact eq_of_take_eq h hup hup' heq hf hf' hfindex hle

theorem snapTerm_eq (h : World R T g s.node s.net) (hup : s.node i = .up c)
    (hup' : s.node j = .up c') (he : e ∈ c'.entries) (hindex : c.snapIndex = e.index)
    (hle : e.index ≤ c'.commitIndex) : c.snapTerm = e.term := by
  have hrel := (h.live i c hup).1
  have hrel' := (h.live j c' hup').1
  obtain ⟨hpos, hget⟩ := getElem?_of_mem hrel'.mirror he
  obtain ⟨-, hchosen⟩ := chosen_of_mem hrel' he (hle.trans hrel'.commit_le)
  have hlen : e.index - 1 < (g.log i).length := by
    have := hrel.mirror.snap_le
    omega
  have hget' : (g.log i)[e.index - 1]? = some (g.log i)[e.index - 1] :=
    List.getElem?_eq_getElem hlen
  have hchosen' := chosen_of_committed hrel.delivered (by have := hrel.cursors.snap_le; omega) hget'
  obtain ⟨p, hp⟩ : ∃ p, e.index = p + 1 := ⟨e.index - 1, by omega⟩
  rw [chosen_unique h.sound.inv hchosen' hchosen, hp, Nat.add_sub_cancel] at hget'
  rw [hrel.mirror.snapTerm, hindex, hp, termOf, hget']
  rfl

end Matching

/-- Two running nodes that hold entries of one index and term hold the same entry
there, and the same entries below as far as both still hold them; and the boundary
term of a snapshot is the term of the committed entry another node has there. -/
theorem log_matching (hs : Reachable (coreSystem D) s) (hfix : FixedMembership D s)
    (hbound : Bounded s) (hup : s.node i = .up c) (hup' : s.node j = .up c') :
    (∀ e ∈ c.entries, ∀ e' ∈ c'.entries, e.index = e'.index → e.term = e'.term →
      e = e' ∧ ∀ f ∈ c.entries, ∀ f' ∈ c'.entries, f.index = f'.index → f.index ≤ e.index →
        f = f') ∧
      ∀ e ∈ c'.entries, c.snapIndex = e.index → e.index ≤ c'.commitIndex →
        c.snapTerm = e.term := by
  obtain ⟨g, hrel⟩ := exists_protocol hs ⟨hfix, hbound⟩
  refine ⟨?_, ?_⟩
  · intro e he e' he' hindex hterm
    exact eq_below_of_same_term hrel.world hup hup' he he' hindex hterm
  · intro e he hindex hle
    exact snapTerm_eq hrel.world hup hup' he hindex hle

theorem log_matching_handover : ∃ s, Reachable (coreSystem trio) s ∧ FixedMembership trio s ∧
    Bounded s ∧ ∃ c c', s.node 2 = .up c ∧ s.node 1 = .up c' ∧
      (∃ e ∈ c.entries, ∃ e' ∈ c'.entries, e.index = e'.index ∧ e.term = e'.term ∧ e = e') ∧
      ∃ e ∈ c'.entries, c.snapIndex = e.index ∧ e.index ≤ c'.commitIndex ∧
        c.snapTerm = e.term := by
  obtain ⟨s, hs, hsame, hbound, c, hc, c', hc', ⟨e, he, e', he', hindex, hterm⟩, f, hf, hsnap,
    hle⟩ := exists_of_run (coreSystem trio) handover (fun s => Unchanging s ∧ Bounded s ∧
      ∃ c ∈ core? s 2, ∃ c' ∈ core? s 1,
        (∃ e ∈ c.entries, ∃ e' ∈ c'.entries, e.index = e'.index ∧ e.term = e'.term) ∧
        ∃ e ∈ c'.entries, c.snapIndex = e.index ∧ e.index ≤ c'.commitIndex)
      (by decide +kernel)
  have hfix : FixedMembership trio s := ⟨uniform_trio, hsame⟩
  have hup := node_of_core? hc
  have hup' := node_of_core? hc'
  obtain ⟨hmatch, hboundary⟩ := log_matching hs hfix hbound hup hup'
  exact ⟨s, hs, hfix, hbound, c, c', hup, hup',
    ⟨e, he, e', he', hindex, hterm, (hmatch e he e' he' hindex hterm).1⟩,
    f, hf, hsnap, hle, hboundary f hf hsnap hle⟩

/-- The cluster commits a long command and node 3 compacts it; the two others restart
without it and commit something else in its place. -/
def diverging : List (Action ID Input (Nat → Nat)) :=
  [.restart 1 fun _ => 0, .restart 2 fun _ => 0, .restart 3 fun _ => 0,
    .act 1 (.client .tick), .deliver 0, .deliver 2, .act 1 (.client (.propose oversize .normal)),
    .deliver 5, .deliver 7, .act 1 (.client .tick), .deliver 9, .act 3 (.compact 2 []),
    .crash 1, .restart 1 fun _ => 0, .crash 2, .restart 2 fun _ => 0,
    .act 1 (.client .tick), .deliver 11, .deliver 13, .deliver 14, .deliver 16]

/-- Without the bound a snapshot may stand for another entry than the one that the others
have committed. -/
theorem log_matching_oversize : ∃ s, Reachable (coreSystem trio) s ∧ FixedMembership trio s ∧
    ∃ c c', s.node 3 = .up c ∧ s.node 1 = .up c' ∧ ∃ e ∈ c'.entries, c.snapIndex = e.index ∧
      e.index ≤ c'.commitIndex ∧ c.snapTerm ≠ e.term := by
  obtain ⟨s, hs, hsame, c, hc, c', hc', hboundary⟩ :=
    exists_of_run (coreSystem trio) diverging (fun s => Unchanging s ∧
      ∃ c ∈ core? s 3, ∃ c' ∈ core? s 1, ∃ e ∈ c'.entries, c.snapIndex = e.index ∧
        e.index ≤ c'.commitIndex ∧ c.snapTerm ≠ e.term)
      (by decide +kernel)
  exact ⟨s, hs, ⟨uniform_trio, hsame⟩, c, c', node_of_core? hc, node_of_core? hc', hboundary⟩

end RaftKV.Safety.FixedMembership
