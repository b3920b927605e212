import RaftKV.Safety.FixedMembership

/-!
Clusters whose membership changes. A leader may be asked for a change before it
has committed anything in its own term, and then two changes of different terms
can leave majorities that do not overlap; once every change waits for such a
commit, and only members are made to campaign, elections are safe.
-/

namespace RaftKV.Safety.MembershipChanges

open Distributed.Network
open Raft Raft.Durability Raft.Cluster Raft.Histories
open Raft.Authorship
open Refinement.Relation Refinement.Elections Refinement.Simulation Refinement.Runs
open Safety.FixedMembership

/-- Any entry may be in a log, and any node may be made to campaign. -/
def openRegime (M : Members) : Regime M where
  allowed := fun _ => True
  voter := fun _ => True
  noop_allowed := fun _ _ => trivial
  voter_of_mem := fun _ _ _ _ => trivial

/-- Whether a packet makes its receiver start an election, pre-vote majority
permitting. -/
def triggers (c : Core) (p : Packet) : Bool :=
  match p.payload with
  | .request (.timeoutNow req) => c.term ≤ req.term
  | .voteResp req resp => req.preVote ∧ resp.voteGranted ∧ c.preVotes.isSome
  | _ => false

/-- What keeps a call safe while memberships change, as a condition on the state it
finds: a leader that is asked for a change has committed in its own term, a node
that is made to campaign is a member of its configuration, and a snapshot has room
for the membership. -/
def guarded (k : CoreCall) : Bool :=
  match k.input with
  | .client (.confChange _) =>
      k.pre.role = .leader → termAt k.pre k.pre.commitIndex = k.pre.term
  | .deliver p => triggers k.pre p → isMember k.pre
  | .compact index _ => (configAt k.pre index).size < 2 ^ 32
  | _ => true

variable {D : Deployment} {s : CoreState} {g : Ghost} {i : ID} {c : Core}
variable {T : Snapshot → List Entry → Prop}

def AddressesFit (m : Members) : Prop :=
  ∀ p ∈ m.toList, p.2.length < 2 ^ 32

theorem length_addr_of_changeOf {e : Entry} {cc : ConfChange} (h : changeOf e = some cc) :
    cc.addr.length < 2 ^ 32 := by
  unfold changeOf at h
  split at h
  · unfold decodeConfChange at h
    split at h
    · cases h
    · split at h
      · cases h
      · rename_i hlong hlen
        split at h
        · cases h
        · obtain rfl := Option.some.inj h
          have hbytes := e.command.length_eq
          have hlt := Codec.LittleEndian.leNat_lt ((e.command.bytes.drop 9).take 4)
          have hfield : ((e.command.bytes.drop 9).take 4).length = 4 := by
            rw [List.length_take, List.length_drop]
            omega
          rw [hfield] at hlt
          change (e.command.bytes.drop 13).length < _
          rw [List.length_drop, ← hbytes, not_not.mp hlen]
          exact hlt
  · cases h

theorem addressesFit_applyEntry {m : Members} (h : AddressesFit m) (e : Entry) :
    AddressesFit (applyChangeOf m e) := by
  unfold applyChangeOf
  cases hchange : changeOf e with
  | none => exact h
  | some cc =>
      rintro ⟨id, addr⟩ hp
      dsimp only at hp
      rw [Std.ExtTreeMap.mem_toList_iff_getElem?_eq_some] at hp
      have hold : ∀ {addr : Bytes}, m[id]? = some addr → addr.length < 2 ^ 32 := fun hget =>
        h (id, _) (Std.ExtTreeMap.mem_toList_iff_getElem?_eq_some.mpr hget)
      unfold ConfChange.apply at hp
      split at hp
      · rw [Std.ExtTreeMap.getElem?_insert] at hp
        split at hp
        · cases hp
          exact length_addr_of_changeOf hchange
        · exact hold hp
      · split at hp
        · rw [Std.ExtTreeMap.getElem?_erase] at hp
          split at hp
          · cases hp
          · exact hold hp
        · exact hold hp

theorem addressesFit_membersAfter {m : Members} (h : AddressesFit m) (L : List Entry) :
    AddressesFit (membersAfter m L) := by
  induction L generalizing m with
  | nil => exact h
  | cons e L ih => exact ih (addressesFit_applyEntry h e)

theorem triggers_of_campaigned {p : Packet} (hid : c.cfg.id ≠ 0) (hp : MayTrigger p)
    (hc : Campaigned c (handle (takeQueues c) (eventOf p)).1) : triggers c p = true := by
  obtain ⟨src, dest, payload⟩ := p
  have hidle : ∀ c' : Core, c'.term = c.term → ¬ Campaigned c c' := by
    intro c' hterm hc
    have := hc.1
    omega
  match payload with
  | .request (.timeoutNow req) =>
      change Campaigned c (handleTimeoutNow (takeQueues c) req) at hc
      change decide (c.term ≤ req.term) = true
      rw [decide_eq_true_eq]
      by_contra hlt
      have hadopt : adoptTerm (takeQueues c) req.term = takeQueues c :=
        if_neg (show ¬ c.term < req.term by omega)
      unfold handleTimeoutNow at hc
      rw [hadopt] at hc
      dsimp only at hc
      rw [if_pos (show req.term < (takeQueues c).term from Nat.lt_of_not_le hlt)] at hc
      exact hidle _ rfl hc
  | .voteResp req resp =>
      have hpre : req.preVote = true := hp
      change Campaigned c (if req.preVote then
        (handlePreVoteResponse (takeQueues c) src req.term resp, Except.ok Response.none)
        else _).1 at hc
      rw [if_pos hpre] at hc
      change decide (req.preVote ∧ resp.voteGranted ∧ c.preVotes.isSome) = true
      rw [decide_eq_true_eq]
      dsimp only at hc
      unfold handlePreVoteResponse at hc
      split at hc
      · -- A node that only adopts a term votes for nobody.
        exact absurd hc.2.symm hid
      · split at hc
        · exact absurd hc (hidle _ rfl)
        · rename_i votes hvotes
          have hsome : c.preVotes = some votes := hvotes
          split at hc
          · exact absurd hc (hidle _ rfl)
          · split at hc
            · rename_i hgrant
              exact ⟨hpre, hgrant, by rw [hsome]; rfl⟩
            · exact absurd hc (hidle _ rfl)
  | .request (.requestVote req) => cases hp
  | .request (.appendEntries req) => cases hp
  | .request (.installSnapshot req) => cases hp
  | .appendResp req resp => cases hp
  | .snapshotResp req resp => cases hp

theorem inputOK_of_guarded (hD : Encodable D.members)
    (h : ClusterRel (openRegime D.members) (fun _ _ => True) g s)
    (hup : s.node i = .up c) {x : Input} (hx : Enabled (coreSystem D) s i x) {post : Core}
    {sent : List Packet} (hguard : guarded ⟨i, x, c, post, sent⟩ = true)
    (hreadable : readable x = true) :
    InputOK (openRegime D.members) (fun _ _ => True) g i c x := by
  obtain ⟨hrel, -⟩ := h.world.live i c hup
  cases x with
  | deliver p =>
      rcases hx with hlocal | ⟨q, hq, hdest, hin⟩
      · cases hlocal
      · obtain rfl : q = p := Input.deliver.inj hin
        refine ⟨h.world.packets q hq, hdest, fun _ hsum hc => ?_⟩
        change Campaigned c (react c _ _).1 at hc
        rw [react_fst] at hc
        exact of_decide_eq_true hguard
          (triggers_of_campaigned (hrel.id ▸ hrel.pos) hsum hc)
  | client ev =>
      rcases hx with hlocal | ⟨q, -, -, hin⟩
      · refine ⟨hlocal, ?_⟩
        cases ev with
        | propose command typ =>
            refine ⟨?_, fun _ _ => trivial⟩
            rintro rfl
            cases hlocal
        | confChange cc =>
            have hlen : (encodeConfChange cc).length ≤ maxCommandLen := of_decide_eq_true hreadable
            rw [length_encodeConfChange] at hlen
            unfold maxCommandLen at hlen
            refine ⟨by omega, fun _ => trivial, fun hlt => ?_⟩
            rcases proposeConfChange_cases (takeQueues c) cc with ⟨err, heq⟩ | ⟨hrole, -⟩
            · rw [heq] at hlt
              exact absurd hlt (lt_irrefl _)
            · exact of_decide_eq_true hguard hrole
        | _ => trivial
      · cases hin
  | compact index data =>
      intro hgt hle
      refine ⟨⟨of_decide_eq_true hguard, ?_⟩, trivial⟩
      change AddressesFit (configAt c index)
      rw [hrel.mirror.configAt hgt.le]
      exact addressesFit_membersAfter hD.2 _

theorem exists_protocol_of_guarded (hD : D.Uniform) (hs : Reachable (coreSystem D) s)
    (hbound : Bounded s) (hguard : ∀ k ∈ s.trace, guarded k = true) :
    ∃ g, ClusterRel (openRegime D.members) (fun _ _ => True) g s := by
  refine reachable_induction (Q := fun s => Bounded s → (∀ k ∈ s.trace, guarded k = true) →
    ∃ g, ClusterRel (openRegime D.members) (fun _ _ => True) g s) ?_ ?_ ?_ ?_ hs hbound hguard
  · exact fun _ _ => ⟨_, clusterRel_init⟩
  · intro s i c x _ ih hup hx hbound hguard
    obtain ⟨g, hrel⟩ := ih (fun k hk => hbound k (List.mem_append_left _ hk))
      (fun k hk => hguard k (List.mem_append_left _ hk))
    have hlast : (⟨i, x, c, (respond c x).1, (respond c x).2.getD []⟩ : CoreCall) ∈
        ((coreSystem D).call s i c x).trace := List.mem_concat_self
    obtain ⟨g', -, -, hrel'⟩ := clusterRel_call hrel hup
      (inputOK_of_guarded hD.encodable hrel hup hx (hguard _ hlast) (hbound _ hlast))
    exact ⟨g', hrel'⟩
  · intro s i c _ ih hup hbound hguard
    obtain ⟨g, hrel⟩ := ih hbound hguard
    exact ⟨g, clusterRel_crash hrel hup⟩
  · intro s i rng d c hreach ih hdown hboot hbound hguard
    obtain ⟨g, hrel⟩ := ih hbound hguard
    exact ⟨g, clusterRel_restart hrel hD hdown (readable_of_bounded hreach hbound hdown) hboot⟩

theorem votes_of_elects {R : Regime D.members} (h : ClusterRel R T g s) {k k' : CoreCall}
    (hk : k ∈ s.trace) (hk' : k' ∈ s.trace) (helects : Elects k) (helects' : Elects k')
    (hterm : k.post.term = k'.post.term) :
    (k.post.votes ∩ k'.post.votes).Nonempty ∧ k.node = k'.node := by
  obtain ⟨l, L, hled⟩ := (h.calls k hk).led helects.1
  obtain ⟨l', L', hled'⟩ := (h.calls k' hk').led helects'.1
  obtain rfl : l = l' := by
    have hlead := hled.lead
    rw [hterm, hled'.lead] at hlead
    exact (Option.some.inj hlead).symm
  refine ⟨?_, hled.node.symm.trans hled'.node⟩
  rw [hled.votes, hled'.votes, Finset.inter_self, ← Finset.card_pos]
  have := (h.world.sound.inv.lead _ l hled.lead).majority.2
  omega

/-- As long as all nodes boot with one table and every call is guarded, the voters of any two
elections of one term overlap, and no two nodes ever lead the same term. -/
theorem elections_overlap (hD : D.Uniform) (hs : Reachable (coreSystem D) s)
    (hbound : Bounded s) (hguard : ∀ k ∈ s.trace, guarded k = true) :
    (∀ k ∈ s.trace, ∀ k' ∈ s.trace, Elects k → Elects k' → k.post.term = k'.post.term →
      (k.post.votes ∩ k'.post.votes).Nonempty ∧ k.node = k'.node) ∧
    ∀ i j c c', Held s i c → Held s j c' → c.role = .leader → c'.role = .leader →
      c.term = c'.term → i = j := by
  obtain ⟨g, hrel⟩ := exists_protocol_of_guarded hD hs hbound hguard
  refine ⟨?_, ?_⟩
  · intro k hk k' hk' helects helects' hterm
    exact votes_of_elects hrel hk hk' helects helects' hterm
  · intro i j c c' hheld hheld' hrole hrole' hterm
    exact eq_of_leaders hrel hheld hheld' hrole hrole' hterm

def add (id : ID) : Input :=
  .client (.confChange ⟨confChangeAdd, id, []⟩)

def remove (id : ID) : Input :=
  .client (.confChange ⟨confChangeRemove, id, []⟩)

/-- Node 1 leads, commits and adds node 4; with its vote node 2 takes over. -/
def addition : List (Action ID Input (Nat → Nat)) :=
  [.restart 1 fun _ => 0, .restart 2 fun _ => 0, .restart 3 fun _ => 0, .restart 4 fun _ => 0,
    .act 1 (.client .tick), .deliver 0, .deliver 2, .deliver 3, .deliver 5, .act 1 (add 4),
    .act 1 (.client .tick), .deliver 6, .deliver 10, .deliver 12, .deliver 13,
    .act 2 (.client .tick), .deliver 15, .deliver 17, .deliver 18, .deliver 19]

theorem elections_overlap_addition : ∃ s, Reachable (coreSystem trio) s ∧ Bounded s ∧
    (∀ k ∈ s.trace, guarded k = true) ∧ (∃ k ∈ s.trace, Elects k ∧ 4 ∈ k.post.votes) ∧
    ∀ k ∈ s.trace, ∀ k' ∈ s.trace, Elects k → Elects k' → k.post.term = k'.post.term →
      (k.post.votes ∩ k'.post.votes).Nonempty ∧ k.node = k'.node := by
  obtain ⟨s, hs, hbound, hguard, helects⟩ := exists_of_run (coreSystem trio) addition (fun s =>
    Bounded s ∧ (∀ k ∈ s.trace, guarded k = true) ∧ ∃ k ∈ s.trace, Elects k ∧ 4 ∈ k.post.votes)
    (by decide +kernel)
  exact ⟨s, hs, hbound, hguard, helects, (elections_overlap uniform_trio hs hbound hguard).1⟩

def quartet : Deployment :=
  evenly (((∅ : Members).insert 1 []).insert 2 [] |>.insert 3 [] |>.insert 4 [])
    true

/-- Node 1 leads term 1 and appends the addition of node 5, which only node 5 gets.
Node 2 leads term 2 and commits the removal of node 1 with node 3. In term 3, nodes 4
and 5 elect node 1 in the configuration with five members, and node 2 elects node 3
in the one with three. -/
def splitChanges : List (Action ID Input (Nat → Nat)) :=
  [.restart 1 fun _ => 0, .restart 2 fun _ => 0, .restart 3 fun _ => 0, .restart 4 fun _ => 0,
    .restart 5 fun _ => 0, .act 1 (.client .tick), .deliver 0, .deliver 1, .deliver 3,
    .deliver 4, .act 1 (add 5), .act 1 (.client .tick), .deliver 14, .deliver 15, .deliver 16,
    .act 2 (.client .tick), .deliver 19, .deliver 20, .deliver 21, .deliver 22, .act 2 (remove 1),
    .deliver 27, .deliver 29, .deliver 18, .act 1 (.client .tick), .deliver 33, .deliver 34,
    .deliver 35, .deliver 36, .act 3 (.client .tick), .deliver 41, .deliver 43]

/-- Two nodes lead term 3, elected by voters that do not overlap. -/
theorem changes_split_elections : ∃ s, Reachable (coreSystem quartet) s ∧
    ∃ k ∈ s.trace, ∃ k' ∈ s.trace, Elects k ∧ Elects k' ∧ k.post.term = k'.post.term ∧
      k.node ≠ k'.node ∧ k.post.votes ∩ k'.post.votes = ∅ :=
  exists_of_run (coreSystem quartet) splitChanges (fun s =>
    ∃ k ∈ s.trace, ∃ k' ∈ s.trace, Elects k ∧ Elects k' ∧ k.post.term = k'.post.term ∧
      k.node ≠ k'.node ∧ k.post.votes ∩ k'.post.votes = ∅) (by decide +kernel)

end RaftKV.Safety.MembershipChanges
