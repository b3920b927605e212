import RaftKV.Raft.Shapes

namespace RaftKV.Raft.Pledges

open Distributed.Network
open Raft.Durability Raft.Moves Raft.Cluster Raft.Barriers
open Raft.Provenance Raft.Shapes

variable {M : Members} {ev : Event} {c c' : Core} {μ : Core → Nat} {t m : Nat}

section Leading

/-- What was said in term `t` by a node that now is in state `c`, namely that its `μ`
is at least `m`, is true as long as it leads that term. -/
def Since (μ : Core → Nat) (t m : Nat) (c : Core) : Prop :=
  t ≤ c.term ∧ (t = c.term → c.role ≠ .candidate ∧ (c.role = .leader → m ≤ μ c))

theorem since_of_turns (ht : Turns c c') (hμ : c.role = .leader → μ c ≤ μ c')
    (h : Since μ t m c) : Since μ t m c' :=
  reached_of_turns ht hμ h

/-- A quantity that only grows while a node leads. -/
structure Growing (μ : Core → Nat) : Prop where
  queues : ∀ c, μ (takeQueues c) = μ c
  move : ∀ {ev c c'}, Move ev c c' → c.role = .leader → μ c ≤ μ c'
  compact : ∀ {c}, Numbered c.snapIndex c.entries → ∀ index data,
    μ c ≤ μ (compact c index data).1

theorem growing_lastLogIndex : Growing lastLogIndex where
  queues := fun _ => rfl
  compact := fun hn index data => lastLogIndex_compact hn index data
  move := by
    intro ev c c' hmove hlead
    have hsame : c'.entries = c.entries → c'.snapIndex = c.snapIndex →
        lastLogIndex c ≤ lastLogIndex c' := fun he hs => (lastLogIndex_congr he hs).ge
    cases hmove with
    | win hrole =>
        rw [hlead] at hrole
        cases hrole
    | own e hrole hterm hindex htype =>
        rw [lastLogIndex_appendOwn, hindex]
        exact Nat.le_succ _
    | advance n hrole hn =>
        have hs := sameLog_deliverCommitted { c with commitIndex := n }
        exact hsame hs.entries hs.snapIndex
    | follow req hreq hterm hrole | accept req hreq hterm hrole
    | install req config hreq hterm hrole =>
        rw [hlead] at hrole
        cases hrole
    | drift | stepDown | recognize | grant | campaign | ask | send | fire | change | count | ack
    | note | retry | read => exact hsame rfl rfl

theorem growing_snapIndex : Growing Core.snapIndex where
  queues := fun _ => rfl
  compact := by
    intro c hn index data
    rcases compact_cases c index data with heq | ⟨hgt, -, heq⟩ <;> rw [heq]
    exact hgt.le
  move := by
    intro ev c c' hmove hlead
    cases hmove with
    | advance n hrole hn =>
        exact (sameLog_deliverCommitted { c with commitIndex := n }).snapIndex.ge
    | follow req hreq hterm hrole | accept req hreq hterm hrole
    | install req config hreq hterm hrole =>
        rw [hlead] at hrole
        cases hrole
    | drift | stepDown | recognize | grant | campaign | ask | win | own | send | fire | change
    | count | ack | note | retry | read => exact le_rfl

theorem since_respond (hμ : Growing μ) (hn : Contiguous c) (input : Input)
    (h : Since μ t m c) : Since μ t m (respond c input).1 := by
  have hq : Since μ t m (takeQueues c) := by
    unfold Since
    rw [hμ.queues]
    exact h
  have hreact : ∀ ev replies, Since μ t m (react c ev replies).1 := by
    intro ev replies
    rw [react_fst]
    exact moves_induction (moves_taken ev) hq fun a b hmove =>
      since_of_turns (turns_move hmove) (hμ.move hmove)
  cases input with
  | deliver p => exact hreact _ _
  | client ev => exact hreact _ _
  | compact index data =>
      have hgrow := @Growing.compact μ hμ (takeQueues c) hn index data
      refine since_of_turns ?_ (fun _ => hgrow) hq
      change Turns (takeQueues c) (compact (takeQueues c) index data).1
      rcases compact_cases (takeQueues c) index data with heq | ⟨-, -, heq⟩ <;> rw [heq] <;>
        exact turns_of_eq rfl rfl rfl rfl

end Leading

section Packets

/-- What a packet says about the log of the leader whose request it is or answers:
the term, and the index the request reaches. -/
def reach : Payload → Option (Nat × Nat)
  | .request (.appendEntries req) => some (req.term, req.prevLogIndex + req.entries.length)
  | .appendResp req _ => some (req.term, req.prevLogIndex + req.entries.length)
  | _ => none

/-- What a packet says about the snapshot of that leader. -/
def image : Payload → Option (Nat × Nat)
  | .request (.installSnapshot req) => some (req.term, req.lastIncludedIndex)
  | .snapshotResp req _ => some (req.term, req.lastIncludedIndex)
  | _ => none

def owner (p : Packet) : ID :=
  match p.payload with
  | .request _ => p.src
  | _ => p.dest

/-- An answer repeats what its request says, and only replication requests say
anything. -/
structure Pledge (claim : Payload → Option (Nat × Nat)) : Prop where
  echo : ∀ {q answer p x}, p ∈ reply q answer → claim p.payload = some x → claim q.payload = some x
  vote : ∀ req, claim (.request (.requestVote req)) = none
  timeout : ∀ req, claim (.request (.timeoutNow req)) = none

theorem pledge_reach : Pledge reach where
  echo := by
    intro q answer p x hp hx
    unfold reply at hp
    split at hp
    · rw [List.mem_singleton.mp hp] at hx
      cases hx
    · rename_i req resp hq
      rw [List.mem_singleton.mp hp] at hx
      rw [hq]
      exact hx
    · rw [List.mem_singleton.mp hp] at hx
      cases hx
    · exact absurd hp List.not_mem_nil
  vote := fun _ => rfl
  timeout := fun _ => rfl

theorem pledge_image : Pledge image where
  echo := by
    intro q answer p x hp hx
    unfold reply at hp
    split at hp
    · rw [List.mem_singleton.mp hp] at hx
      cases hx
    · rw [List.mem_singleton.mp hp] at hx
      cases hx
    · rename_i req resp hq
      rw [List.mem_singleton.mp hp] at hx
      rw [hq]
      exact hx
    · exact absurd hp List.not_mem_nil
  vote := fun _ => rfl
  timeout := fun _ => rfl

theorem owner_reply {q p : Packet} {answer : Response} (h : p ∈ reply q answer) :
    owner p = owner q := by
  unfold reply at h
  split at h
  all_goals first
    | exact absurd h List.not_mem_nil
    | rename_i hq
      rw [List.mem_singleton.mp h]
      simp only [owner, hq]

def OutboxSince (μ : Core → Nat) (claim : Payload → Option (Nat × Nat)) (c : Core) : Prop :=
  ∀ o ∈ c.outbox, ∀ t m, claim (.request o.msg) = some (t, m) → Since μ t m c

variable {claim : Payload → Option (Nat × Nat)}

theorem outboxSince_move (hμ : Growing μ) (hclaim : Pledge claim) (hmove : Move ev c c')
    (hsent : ∀ o n t m, Sent c n o → claim (.request o.msg) = some (t, m) →
      t = c.term ∧ (c.role = .leader → m ≤ μ c))
    (h : OutboxSince μ claim c) : OutboxSince μ claim c' := by
  intro o ho t m hm
  rcases mem_outbox_move hmove ho with hold | ⟨hterm, hrole, hnew⟩
  · exact since_of_turns (turns_move hmove) (hμ.move hmove) (h o hold t m hm)
  cases hnew with
  | vote => cases (hclaim.vote _).symm.trans hm
  | timeoutNow => cases (hclaim.timeout _).symm.trans hm
  | sent hsends hdest hnew =>
      obtain ⟨ht, hle⟩ := hsent o _ t m hnew hm
      refine ⟨(ht.trans hterm.symm).le,
        fun _ => ⟨hrole ▸ ne_candidate_of_sends hsends, fun hl => ?_⟩⟩
      have hlead := hrole.symm.trans hl
      exact (hle hlead).trans (hμ.move hmove hlead)

theorem image_sent (hk : Kept M c) {o : Outbound} {n : Nat} (h : Sent c n o)
    (hm : image (.request o.msg) = some (t, m)) : t = c.term ∧ m = c.snapIndex := by
  cases h with
  | snapshot peer hp =>
      cases hm
      exact ⟨rfl, hk.saved.snapIndex⟩
  | append => cases hm

end Packets

section Runs

variable {D : Deployment} {s : CoreState} {i : ID} {claim : Payload → Option (Nat × Nat)}

def SinceOf (μ : Core → Nat) (t m : Nat) : Life Core Disk → Prop
  | .up c => Since μ t m c
  | .down d => t ≤ (loadTermAndVote d).1

/-- What the packets in the network say about their requests' senders is true. -/
def Upheld (μ : Core → Nat) (claim : Payload → Option (Nat × Nat)) (s : CoreState) : Prop :=
  ∀ p ∈ s.net, ∀ t m, claim p.payload = some (t, m) → SinceOf μ t m (s.node (owner p))

theorem upheld_set (h : Upheld μ claim s) {life : Life Core Disk}
    (hl : ∀ t m, SinceOf μ t m (s.node i) → SinceOf μ t m life) :
    Upheld μ claim (s.set i life) := by
  intro p hp t m hm
  have hold := h p hp t m hm
  change SinceOf μ t m (Function.update s.node i life (owner p))
  by_cases hi : owner p = i
  · rw [hi] at hold ⊢
    rw [Function.update_self]
    exact hl t m hold
  · rwa [Function.update_of_ne hi]

theorem sinceOf_down (hc : StateSaved c) (h : Since μ t m c) : SinceOf μ t m (.down c.disk) := by
  change t ≤ (loadTermAndVote c.disk).1
  rw [show loadTermAndVote c.disk = (c.term, c.votedFor) from hc]
  exact h.1

theorem upheld_call (hμ : Growing μ) (hclaim : Pledge claim) (hs : Reachable (coreSystem D) s)
    {x : Input} (hup : s.node i = .up c) (hx : Enabled (coreSystem D) s i x)
    (hn : Contiguous c) (hout : OutboxSince μ claim (respond c x).1)
    (h : Upheld μ claim s) : Upheld μ claim ((coreSystem D).call s i c x) := by
  obtain ⟨hid, hsaved⟩ : Identified i (.up c) := hup ▸ identified hs i
  have hafter : ∀ t m, Since μ t m (respond c x).1 →
      SinceOf μ t m (((coreSystem D).call s i c x).node i) := by
    intro t m hsince
    change SinceOf μ t m (Function.update s.node i _ i)
    rw [Function.update_self]
    split
    · exact sinceOf_down (stateSaved_respond hsaved x) hsince
    · exact hsince
  have hkeep : ∀ j t m, SinceOf μ t m (s.node j) →
      SinceOf μ t m (((coreSystem D).call s i c x).node j) := by
    intro j t m hold
    by_cases hj : j = i
    · subst hj
      rw [hup] at hold
      exact hafter t m (since_respond hμ hn x hold)
    · change SinceOf μ t m (Function.update s.node i _ j)
      rwa [Function.update_of_ne hj]
  intro p hp t m hm
  rcases List.mem_append.mp hp with hp | hp
  · exact hkeep _ t m (h p hp t m hm)
  · rcases mem_respond hp with hp | ⟨q, answer, rfl, -, hp⟩
    · obtain ⟨o, ho, rfl⟩ := List.mem_map.mp hp
      have hsrc : (respond c x).1.cfg.id = i :=
        (congrArg Config.id (turns_respond_cfg c x)).trans hid
      change SinceOf μ t m (((coreSystem D).call s i c x).node (respond c x).1.cfg.id)
      rw [hsrc]
      exact hafter t m (hout o ho t m hm)
    · rcases hx with hlocal | ⟨q', hq, -, hin⟩
      · cases hlocal
      · obtain rfl : q' = q := Input.deliver.inj hin
        rw [owner_reply hp]
        exact hkeep _ t m (h q' hq t m (hclaim.echo hp hm))

/-- What the packets say is true throughout a run, together with what every node
keeps as long as that is so. -/
theorem upheld_run (hμ : Growing μ) (hclaim : Pledge claim) {G : CoreCall → Prop} {Q : Core → Prop}
    (hlog : ∀ k, G k → withinLog k.pre k.input)
    (hboot : ∀ i rng d c, (coreSystem D).boot i rng d = some c → Q c)
    (hcall : ∀ s k, MadeIn (coreSystem D) s k → (∀ j ∈ s.trace, G j) → G k →
      Sane (D.tables k.node) k.pre → FairInput k.input → Upheld μ claim s → Q k.pre →
      Q k.post ∧ OutboxSince μ claim k.post)
    (hs : Reachable (coreSystem D) s) (hG : ∀ k ∈ s.trace, G k) :
    Upheld μ claim s ∧ ∀ i c, s.node i = .up c → Q c := by
  revert hG
  refine reachable_induction (Q := fun s => (∀ k ∈ s.trace, G k) →
    Upheld μ claim s ∧ ∀ i c, s.node i = .up c → Q c) ?_ ?_ ?_ ?_ hs
  · exact fun _ => ⟨fun p hp => absurd hp List.not_mem_nil, fun i c h => by cases h⟩
  · intro s i c x hreach ih hup hx hG
    have hpast : ∀ k ∈ s.trace, G k := fun k hk => hG k (List.mem_append_left _ hk)
    obtain ⟨hnet, hQ⟩ := ih hpast
    have hstate := saneState_of_reachable hreach fun k hk => hlog k (hpast k hk)
    have hsane : Sane (D.tables i) c := by
      have := hstate.nodes i
      rwa [hup] at this
    obtain ⟨hpost, hout⟩ := hcall s ⟨i, x, c, _, _⟩ ⟨hreach, hup, hx, rfl, rfl⟩ hpast
      (hG _ List.mem_concat_self) hsane
      (fairInput_of_enabled hstate.net hx) hnet (hQ i c hup)
    refine ⟨upheld_call hμ hclaim hreach hup hx hsane.kept.saved.numbered hout hnet, ?_⟩
    intro j c' hj
    rcases up_of_call hj with rfl | hj
    · exact hpost
    · exact hQ j c' hj
  · intro s i c hreach ih hup hG
    obtain ⟨hnet, hQ⟩ := ih hG
    obtain ⟨-, hsaved⟩ : Identified i (.up c) := hup ▸ identified hreach i
    refine ⟨upheld_set hnet fun t m h => ?_, ?_⟩
    · rw [hup] at h
      exact sinceOf_down hsaved h
    · intro j c' hj
      rcases up_of_set hj with hlife | hj
      · cases hlife
      · exact hQ j c' hj
  · intro s i rng d c hreach ih hdown hb hG
    obtain ⟨hnet, hQ⟩ := ih hG
    refine ⟨upheld_set hnet fun t m h => ?_, ?_⟩
    · rw [hdown] at h
      obtain ⟨-, M, entries, -, -, rfl⟩ := newCore_cases (newCore_of_boot hb)
      exact ⟨h, fun _ => ⟨Role.noConfusion, fun hl => by cases hl⟩⟩
    · intro j c' hj
      rcases up_of_set hj with hlife | hj
      · cases hlife
        exact hboot i rng d _ hb
      · exact hQ j c' hj

theorem outboxSince_compact (c : Core) (index : Nat) (data : Bytes) :
    OutboxSince μ claim (compact (takeQueues c) index data).1 := by
  rcases compact_cases (takeQueues c) index data with heq | ⟨-, -, heq⟩ <;> rw [heq] <;>
    exact fun o ho => absurd ho List.not_mem_nil

theorem upheld_image (hs : Reachable (coreSystem D) s)
    (hlog : ∀ k ∈ s.trace, withinLog k.pre k.input) : Upheld Core.snapIndex image s := by
  refine (upheld_run (G := fun k => withinLog k.pre k.input) (Q := fun _ => True)
    growing_snapIndex pledge_image (fun _ h => h) (fun _ _ _ _ _ => trivial) ?_ hs hlog).1
  intro s k hmade _ _ hsane hfair _ _
  refine ⟨trivial, ?_⟩
  have hreact : ∀ ev replies, Fair ev →
      OutboxSince Core.snapIndex image (react k.pre ev replies).1 := by
    intro ev replies hev
    rw [react_fst]
    refine (moves_induction
      (Q := fun a => Kept (D.tables k.node) a ∧ OutboxSince Core.snapIndex image a)
      (moves_taken ev) ⟨(sane_takeQueues hsane).kept, ?_⟩ ?_).2
    · exact fun o ho => absurd ho List.not_mem_nil
    · rintro a b hmove ⟨hk, ho⟩
      refine ⟨kept_move hev hmove hk, outboxSince_move growing_snapIndex pledge_image hmove ?_ ho⟩
      intro o n t m hsent hm
      obtain ⟨ht, rfl⟩ := image_sent hk hsent hm
      exact ⟨ht, fun _ => le_rfl⟩
  rw [hmade.post]
  cases hin : k.input with
  | deliver p =>
      rw [hin] at hfair
      exact hreact _ _ hfair
  | client ev =>
      rw [hin] at hfair
      exact hreact _ _ hfair
  | compact index data => exact outboxSince_compact k.pre index data

end Runs

end RaftKV.Raft.Pledges
