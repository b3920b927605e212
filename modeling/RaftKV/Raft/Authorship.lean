import RaftKV.Raft.Provenance

namespace RaftKV.Raft.Authorship

open Distributed.Network
open Raft.Durability Raft.Moves Raft.Cluster
open Raft.Provenance

section Cores

variable {P : Entry → Prop} {ev : Event} {c c' : Core}

def entriesOf : Message → List Entry
  | .appendEntries req => req.entries
  | _ => []

def brought : Event → List Entry
  | .appendEntries req => req.entries
  | _ => []

/-- Everything a core has, has saved, has queued and is about to send satisfies `P`. -/
structure AllEntries (P : Entry → Prop) (c : Core) : Prop where
  entries : ∀ e ∈ c.entries, P e
  disk : ∀ e ∈ c.disk.log, P e
  committed : ∀ e ∈ c.committed, P e
  outbox : ∀ o ∈ c.outbox, ∀ e ∈ entriesOf o.msg, P e

theorem allEntries_appendOwn {e : Entry} (h : AllEntries P c) (he : P e) :
    AllEntries P (appendOwn c e) where
  entries := List.forall_mem_append.mpr ⟨h.entries, List.forall_mem_singleton.mpr he⟩
  disk := List.forall_mem_append.mpr ⟨h.disk, List.forall_mem_singleton.mpr he⟩
  committed := h.committed
  outbox := h.outbox

theorem mem_of_mem_appendRequest {next : Nat} {e : Entry}
    (he : e ∈ (appendRequest c next).entries) :
    e ∈ c.entries := by
  unfold appendRequest at he
  dsimp only at he
  split at he
  · exact absurd he List.not_mem_nil
  · split at he
    · exact List.mem_of_mem_drop ((batch_isPrefix 0 _).subset he)
    · exact absurd he List.not_mem_nil

theorem mem_of_mem_queue {e : Entry} (he : e ∈ queue c) : e ∈ c.entries := by
  unfold queue at he
  split at he
  · exact absurd he List.not_mem_nil
  · obtain ⟨i, -, hi⟩ := List.mem_flatMap.mp he
    exact List.mem_of_getElem? (Option.mem_toList.mp hi)

theorem allEntries_deliverCommitted (h : AllEntries P c) : AllEntries P (deliverCommitted c) := by
  have hqueue : ∀ e ∈ c.committed ++ queue c, P e :=
    List.forall_mem_append.mpr ⟨h.committed, fun e he => h.entries e (mem_of_mem_queue he)⟩
  obtain ⟨c', hq, heq⟩ := deliverCommitted_cases c
  rw [heq]
  cases hq with
  | stay => exact { h with committed := hqueue }
  | leave => exact { h with committed := hqueue }

theorem allEntries_rebase {keep : List Entry} (h : AllEntries P c)
    (hkeep : ∀ e ∈ keep, e ∈ c.entries) (snap : Snapshot) : AllEntries P (rebase c snap keep) where
  entries := fun e he => h.entries e (hkeep e he)
  disk := fun e he => h.entries e (hkeep e he)
  committed := h.committed
  outbox := h.outbox

theorem allEntries_install (h : AllEntries P c) (snap : Snapshot) : AllEntries P (install c snap) :=
  { allEntries_rebase h (fun _ he => mem_of_mem_coherentSuffix he) snap with }

theorem allEntries_compact (h : AllEntries P c) (index : Nat) (data : Bytes) :
    AllEntries P (compact c index data).1 := by
  rcases compact_cases c index data with heq | ⟨-, -, heq⟩ <;> rw [heq]
  · exact h
  · exact allEntries_rebase h (fun e he => mem_of_mem_entriesAfter he) _

theorem mem_of_mem_retained {first : Nat} {e : Entry} (he : e ∈ retained c first) :
    e ∈ c.entries := by
  unfold retained at he
  split at he
  · exact absurd he List.not_mem_nil
  · split at he
    · exact List.mem_of_mem_take he
    · exact he

theorem allEntries_truncateAndAppend {e : Entry} {rest : List Entry} (h : AllEntries P c)
    (hnew : ∀ f ∈ e :: rest, P f) : AllEntries P (truncateAndAppend c e rest).1 := by
  have hkept : ∀ f ∈ retained c e.index, P f := fun f hf => h.entries f (mem_of_mem_retained hf)
  have hboth : ∀ {es : List Entry}, (∀ f ∈ es, P f) → ∀ f ∈ es ++ e :: rest, P f := by
    intro es hes f hf
    exact (List.mem_append.mp hf).elim (hes f) (hnew f)
  unfold truncateAndAppend
  split
  · exact h
  · split
    · exact { h with entries := hkept }
    · rename_i d hd
      have hsplice : AllEntries P (splice c d e rest) := by
        unfold append at hd
        split at hd
        · cases hd
        · cases hd
          exact { h with entries := hboth hkept, disk := hboth h.disk }
      split
      · exact { hsplice with }
      · dsimp only
        rw [noteAppendedConfigs_eq]
        exact { hsplice with }

theorem allEntries_appendNew {entries : List Entry} (h : AllEntries P c)
    (hnew : ∀ e ∈ entries, P e) :
    AllEntries P (appendNew c entries).1 := by
  unfold appendNew
  split
  · exact h
  · rename_i e rest heq
    refine allEntries_truncateAndAppend h fun f hf => hnew f ?_
    exact (List.dropWhile_suffix _).subset (heq ▸ hf)

theorem allEntries_move (hnoop : ∀ e : Entry, e.type = .noop → e.command = noBytes → P e)
    (hown : ∀ e : Entry, Requests ev e → P e) (hev : ∀ e ∈ brought ev, P e)
    {out : List Outbound} (hmove : MoveFrom out ev c c') (h : AllEntries P c) :
    AllEntries P c' := by
  have hout : ∀ o ∈ c'.outbox, ∀ e ∈ entriesOf o.msg, P e := by
    intro o ho e he
    rcases mem_outbox_move hmove ho with hold | ⟨-, -, hnew⟩
    · exact h.outbox o hold e he
    cases hnew with
    | vote | timeoutNow => exact absurd he List.not_mem_nil
    | sent hrole hdest hsent =>
        cases hsent with
        | snapshot => exact absurd he List.not_mem_nil
        | append => exact h.entries e (mem_of_mem_appendRequest he)
  cases hmove with
  | ask | send | fire => exact { h with outbox := hout }
  | win hrole => exact allEntries_appendOwn { h with } (hnoop _ rfl rfl)
  | own e hrole hterm hindex htype hnormal hmade => exact allEntries_appendOwn h (hown e hmade)
  | advance | follow => exact allEntries_deliverCommitted { h with }
  | accept req hreq hterm hrole hacc =>
      subst hreq
      exact allEntries_appendNew h hev
  | grant req hask =>
      unfold grantVote
      split <;> exact { h with }
  | install req config hreq hterm hrole hsnap hcommit => exact allEntries_install h _
  | drift | ack | stepDown | recognize | campaign | change | count | note | retry | read =>
      exact { h with }

theorem allEntries_propose (hnoop : ∀ e : Entry, e.type = .noop → e.command = noBytes → P e)
    (h : AllEntries P c) {command : Command}
    (hnew : c.role = .leader → c.transferTarget = 0 →
      P ⟨c.term, lastLogIndex c + 1, .normal, command⟩) :
    AllEntries P (propose c command .normal).1 := by
  rcases propose_cases c command .normal with ⟨err, heq⟩ | ⟨hrole, htarget, heq⟩
  · rw [heq]
    exact h
  · rw [heq]
    exact moves_induction (moves_replicate hrole) (allEntries_appendOwn h (hnew hrole htarget))
      fun a b (hmove : MoveFrom [] .tick a b) => allEntries_move hnoop
        (fun e he => by rcases he with heq | ⟨cc, heq, -⟩ <;> cases heq)
        (fun e he => absurd he List.not_mem_nil) hmove

end Cores

section Runs

variable {D : Deployment} {s : CoreState} {i : ID} {c : Core} {e : Entry} {calls : List CoreCall}

/-- The call takes a client's command as the next entry of the leader's log. -/
structure Authors (k : CoreCall) (e : Entry) : Prop where
  type : e.type = .normal
  input : k.input = .client (.propose e.command .normal)
  role : k.pre.role = .leader
  target : k.pre.transferTarget = 0
  term : e.term = k.pre.term
  index : e.index = lastLogIndex k.pre + 1

/-- One of the calls has made the entry, unless it is the empty one of a new leader. -/
def Authored (calls : List CoreCall) (e : Entry) : Prop :=
  match e.type with
  | .normal => ∃ k ∈ calls, Authors k e
  | .config => ∃ k ∈ calls, ∃ cc, k.input = .client (.confChange cc) ∧
      e.command = encodeConfChange cc
  | _ => e.command = noBytes

theorem authored_mono {calls' : List CoreCall} (h : Authored calls e) (hsub : calls ⊆ calls') :
    Authored calls' e := by
  unfold Authored at h ⊢
  split at h
  · obtain ⟨k, hk, hauthors⟩ := h
    exact ⟨k, hsub hk, hauthors⟩
  · obtain ⟨k, hk, hchange⟩ := h
    exact ⟨k, hsub hk, hchange⟩
  · exact h

theorem exists_authors (h : Authored calls e) (htype : e.type = .normal) :
    ∃ k ∈ calls, Authors k e := by
  unfold Authored at h
  rwa [htype] at h

theorem allEntries_mono {P Q : Entry → Prop} (h : AllEntries P c) (hPQ : ∀ e, P e → Q e) :
    AllEntries Q c where
  entries := fun e he => hPQ e (h.entries e he)
  disk := fun e he => hPQ e (h.disk e he)
  committed := fun e he => hPQ e (h.committed e he)
  outbox := fun o ho e he => hPQ e (h.outbox o ho e he)

theorem allEntries_respond {x : Input} (h : AllEntries (Authored calls) c)
    (hx : ∀ ev, (x = .client ev ∨ ∃ p, x = .deliver p ∧ ev = eventOf p) →
      ∀ e ∈ brought ev, Authored calls e)
    (hclient : ∀ ev, x = .client ev → isClient ev = true)
    (hcall : ∃ k ∈ calls, k.input = x ∧ k.pre = c) :
    AllEntries (Authored calls) (respond c x).1 := by
  obtain ⟨k, hk, hin, hpre⟩ := hcall
  have hq : AllEntries (Authored calls) (takeQueues c) :=
    { h with
      committed := fun e he => absurd he List.not_mem_nil
      outbox := fun o ho => absurd ho List.not_mem_nil }
  have hnoop : ∀ e : Entry, e.type = .noop → e.command = noBytes → Authored calls e := by
    intro e htype hcommand
    unfold Authored
    rwa [htype]
  have hmoves : ∀ ev, (x = .client ev ∨ ∃ p, x = .deliver p ∧ ev = eventOf p) →
      (∀ command typ, ev ≠ .propose command typ) →
      AllEntries (Authored calls) (handle (takeQueues c) ev).1 := by
    intro ev hev hno
    refine moves_induction (moves_taken ev) hq fun a b =>
      allEntries_move hnoop (fun e hmade => ?_) (hx ev hev)
    obtain ⟨cc, hcc, htype, hcommand⟩ := hmade.resolve_left (hno _ _)
    have hchange : x = .client (.confChange cc) := by
      rcases hev with hev | ⟨p, hp, hev⟩
      · rw [hev, hcc]
      · rw [hcc] at hev
        obtain ⟨src, dest, payload⟩ := p
        cases payload with
        | request msg => cases msg <;> cases hev
        | voteResp | appendResp | snapshotResp => cases hev
    unfold Authored
    rw [htype]
    exact ⟨k, hk, cc, hin.trans hchange, hcommand⟩
  cases x with
  | deliver p =>
      change AllEntries _ (react c _ _).1
      rw [react_fst]
      refine hmoves _ (Or.inr ⟨p, rfl, rfl⟩) fun command typ heq => ?_
      obtain ⟨src, dest, payload⟩ := p
      cases payload with
      | request msg => cases msg <;> cases heq
      | voteResp | appendResp | snapshotResp => cases heq
  | client ev =>
      change AllEntries _ (react c _ _).1
      rw [react_fst]
      cases ev with
      | propose command typ =>
          obtain rfl : typ = .normal := of_decide_eq_true (hclient _ rfl)
          refine allEntries_propose hnoop hq fun hrole htarget => ?_
          subst hpre
          exact ⟨k, hk, rfl, hin, hrole, htarget, rfl, rfl⟩
      | _ => exact hmoves _ (Or.inl rfl) (by rintro _ _ ⟨⟩)
  | compact index data => exact allEntries_compact hq index data

/-- The calls have made whatever a node has. -/
def Attributed (calls : List CoreCall) : Life Core Disk → Prop
  | .up c => AllEntries (Authored calls) c
  | .down d => ∀ e ∈ d.log, Authored calls e

theorem attributed_mono {calls' : List CoreCall} {life : Life Core Disk}
    (h : Attributed calls life) (hsub : calls ⊆ calls') : Attributed calls' life := by
  cases life with
  | up c => exact allEntries_mono h fun e he => authored_mono he hsub
  | down d => exact fun e he => authored_mono (h e he) hsub

theorem attributed_boot {rng : Nat → Nat} {d : Disk} (h : Attributed calls (.down d))
    (hboot : (coreSystem D).boot i rng d = some c) : Attributed calls (.up c) := by
  obtain ⟨-, M, entries, -, hlog, rfl⟩ := newCore_cases (newCore_of_boot hboot)
  refine ⟨fun e he => ?_, fun e he => h e (mem_of_mem_intact he),
    fun e he => absurd he List.not_mem_nil, fun o ho => absurd ho List.not_mem_nil⟩
  exact h e (mem_of_mem_intact (mem_of_replay hlog he))

/-- Nothing in the cluster is made up: neither on a node nor in the network. -/
structure Accounted (s : CoreState) : Prop where
  nodes : ∀ i, Attributed s.trace (s.node i)
  net : ∀ p ∈ s.net, ∀ e ∈ brought (eventOf p), Authored s.trace e

theorem allEntries_call (h : Accounted s) (hup : s.node i = .up c) {x : Input}
    (hx : Enabled (coreSystem D) s i x) :
    AllEntries (Authored ((coreSystem D).call s i c x).trace) (respond c x).1 := by
  have hsub : s.trace ⊆ ((coreSystem D).call s i c x).trace := List.subset_append_left _ _
  have hpre : Attributed s.trace (.up c) := hup ▸ h.nodes i
  refine allEntries_respond (allEntries_mono hpre fun e he => authored_mono he hsub) ?_ ?_
    ⟨_, List.mem_concat_self, rfl, rfl⟩
  swap
  · rintro ev rfl
    rcases hx with hlocal | ⟨q, -, -, hin⟩
    · exact hlocal
    · cases hin
  rintro ev (rfl | ⟨p, rfl, rfl⟩)
  · rcases hx with hlocal | ⟨q, -, -, hin⟩
    · cases ev with
      | appendEntries req => cases hlocal
      | _ => exact fun e he => absurd he List.not_mem_nil
    · cases hin
  · rcases hx with hlocal | ⟨q, hq, -, hin⟩
    · cases hlocal
    · obtain rfl := Input.deliver.inj hin
      exact fun e he => authored_mono (h.net q hq e he) hsub

theorem accounted_of_reachable (hs : Reachable (coreSystem D) s) : Accounted s := by
  refine And.elim Accounted.mk (cluster_induction (Q := fun calls _ => Attributed calls)
    (N := fun calls p => ∀ e ∈ brought (eventOf p), Authored calls e) ?_ ?_ ?_ ?_ ?_ ?_ hs)
  · exact fun i e he => absurd he List.not_mem_nil
  · exact fun calls k i life h => attributed_mono h (List.subset_append_left _ _)
  · exact fun calls k p h e he => authored_mono (h e he) (List.subset_append_left _ _)
  · intro s k hmade hnodes hnet
    have hpost : AllEntries (Authored (s.trace ++ [k])) k.post := by
      have h := allEntries_call ⟨hnodes, hnet⟩ hmade.up hmade.enabled
      rw [trace_of_madeIn hmade] at h
      rw [hmade.post]
      exact h
    refine ⟨hpost, fun p hp e he => ?_⟩
    obtain ⟨src, dest, payload⟩ := p
    cases payload with
    | request msg =>
        cases msg with
        | appendEntries req => exact hpost.outbox _ (request_of_mem_sent hmade hp rfl).2 e he
        | _ => exact absurd he List.not_mem_nil
    | voteResp | appendResp | snapshotResp => exact absurd he List.not_mem_nil
  · exact fun calls i c h => h.disk
  · exact fun calls i rng d c h hboot => attributed_boot h hboot

theorem readable_of_bounded (hs : Reachable (coreSystem D) s) (hb : Bounded s) {d : Disk}
    (hdown : s.node i = .down d) : ∀ e ∈ d.log, e.command.length ≤ maxCommandLen := by
  intro e he
  have hauthored : Authored s.trace e := by
    have h := (accounted_of_reachable hs).nodes i
    rw [hdown] at h
    exact h e he
  unfold Authored at hauthored
  split at hauthored
  · obtain ⟨k, hk, hauthors⟩ := hauthored
    have := hb k hk
    rw [hauthors.input] at this
    exact of_decide_eq_true this
  · obtain ⟨k, hk, cc, hin, hcommand⟩ := hauthored
    have := hb k hk
    rw [hin] at this
    rw [hcommand]
    exact of_decide_eq_true this
  · rw [hauthored]
    exact Nat.zero_le _

theorem exists_author (hs : Reachable (coreSystem D) s) {n : Nat} {k : CoreCall}
    (hk : s.trace[n]? = some k) (he : e ∈ k.post.committed) (htype : e.type = .normal) :
    ∃ m j, m ≤ n ∧ s.trace[m]? = some j ∧ Authors j e := by
  obtain ⟨s₀, hmade, htrace⟩ := exists_madeIn hs hk
  have hpost := allEntries_call (accounted_of_reachable hmade.reachable) hmade.up hmade.enabled
  rw [show k.post = (respond k.pre k.input).1 from hmade.post] at he
  obtain ⟨j, hj, hauthors⟩ := exists_authors (hpost.committed e he) htype
  rw [trace_upto hmade htrace hk] at hj
  obtain ⟨m, hm⟩ := List.mem_iff_getElem?.mp hj
  have hlt := (List.getElem?_eq_some_iff.mp hm).1
  rw [List.length_take] at hlt
  exact ⟨m, j, by omega, getElem?_of_take hm, hauthors⟩

end Runs

end RaftKV.Raft.Authorship
