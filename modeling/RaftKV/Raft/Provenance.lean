import RaftKV.Raft.Barriers

/-!
Where packets and acknowledgements come from, over any run of a cluster: calls
are numbered, a request was sent by the call of its source, a response answers a
request that was sent before, and the acknowledgements of a pending read answer
requests sent after it was registered.
-/

namespace RaftKV.Raft.Provenance

open Distributed.Network
open Raft.Durability Raft.Moves Raft.Cluster Raft.Barriers

variable {D : Deployment} {s : CoreState} {i x : ID} {c : Core}
variable {req : AppendEntriesRequest} {resp : AppendEntriesResponse}
variable {k : CoreCall} {calls : List CoreCall} {m n : Nat} {p : Packet} {r : PendingRead}
variable {α : Type}

/-- What every move and every compaction keeps, every call keeps. -/
theorem respond_induction {Q : Core → Prop} (hc : Q (takeQueues c))
    (hmove : ∀ ev a b, Move ev a b → Q a → Q b)
    (hcompact : ∀ a index data, Q a → Q (compact a index data).1) (input : Input) :
    Q (respond c input).1 := by
  have hreact : ∀ ev replies, Q (react c ev replies).1 := by
    intro ev replies
    rw [react_fst]
    exact moves_induction (moves_taken ev) hc (hmove ev)
  cases input with
  | deliver p => exact hreact _ _
  | client ev => exact hreact _ _
  | compact index data => exact hcompact _ index data hc

theorem turns_respond_cfg (c : Core) (input : Input) : (respond c input).1.cfg = c.cfg := by
  refine respond_induction (Q := fun a => a.cfg = c.cfg) rfl ?_ ?_ input
  · intro ev a b hmove h
    exact (turns_move hmove).cfg.trans h
  · intro a index data h
    rcases compact_cases a index data with heq | ⟨-, -, heq⟩ <;> rw [heq] <;> exact h

theorem past_respond (h : Past c req) (input : Input) : Past (respond c input).1 req := by
  refine respond_induction (Q := fun a => Past a req) h ?_ ?_ input
  · intro ev a b hmove
    exact past_of_turns (turns_move hmove)
  · intro a index data h
    rcases compact_cases a index data with heq | ⟨-, -, heq⟩ <;> rw [heq] <;> exact h

theorem term_le_respond (c : Core) (input : Input) : c.term ≤ (respond c input).1.term := by
  refine respond_induction (Q := fun a => c.term ≤ a.term) le_rfl ?_ ?_ input
  · intro ev a b hmove h
    rcases (turns_move hmove).role with hlt | ⟨heq, -⟩ <;> omega
  · intro a index data h
    rcases compact_cases a index data with heq | ⟨-, -, heq⟩ <;> rw [heq] <;> exact h

theorem outboxPast_respond (c : Core) (input : Input) : OutboxPast (respond c input).1 := by
  refine respond_induction (Q := OutboxPast) ?_ ?_ ?_ input
  · exact fun o ho => absurd ho List.not_mem_nil
  · intro ev a b hmove
    exact outboxPast_move hmove
  · intro a index data h
    rcases compact_cases a index data with heq | ⟨-, -, heq⟩ <;> rw [heq] <;> exact h

theorem stateSaved_respond (h : StateSaved c) (input : Input) :
    StateSaved (respond c input).1 := by
  refine respond_induction (Q := StateSaved) h ?_ ?_ input
  · intro ev a b hmove
    exact stateSaved_move hmove
  · intro a index data h
    rcases compact_cases a index data with heq | ⟨-, -, heq⟩ <;> rw [heq] <;> exact h

theorem newCore_of_boot {rng : Nat → Nat} {d : Disk}
    (h : (coreSystem D).boot i rng d = some c) : newCore (D.cfg i) rng d = .ok c := by
  change (newCore (D.cfg i) rng d).toOption = some c at h
  cases hr : newCore (D.cfg i) rng d with
  | error err =>
      rw [hr] at h
      cases h
  | ok c' =>
      rw [hr] at h
      exact congrArg _ (Option.some.inj h)

section Sources

/-- What a node knows about itself, running or not: its own name, and the state
file. -/
def Identified (i : ID) : Life Core Disk → Prop
  | .up c => c.cfg.id = i ∧ StateSaved c
  | .down _ => True

theorem identified (hs : Reachable (coreSystem D) s) (i : ID) : Identified i (s.node i) := by
  refine nodes_induction (Q := fun _ => Identified) (fun _ => trivial) ?_
    (fun _ _ _ _ _ _ _ h => h) (fun _ _ _ _ => trivial) ?_ hs i
  · intro s i c input _ ih hup _
    obtain ⟨hid, hsaved⟩ : Identified i (.up c) := hup ▸ ih i
    exact ⟨(congrArg Config.id (turns_respond_cfg c input)).trans hid,
      stateSaved_respond hsaved input⟩
  · intro _ i rng d c _ hboot
    obtain ⟨-, M, entries, -, -, rfl⟩ := newCore_cases (newCore_of_boot hboot)
    exact ⟨D.cfg_id i, rfl⟩

theorem cfg_id (hs : Reachable (coreSystem D) s) (hup : s.node i = .up c) : c.cfg.id = i := by
  have h := identified hs i
  rw [hup] at h
  exact h.1

theorem mem_respond {input : Input} (h : p ∈ (respond c input).2.getD []) :
    p ∈ outgoing (respond c input).1 ∨
      ∃ q answer, input = .deliver q ∧
        (handle (takeQueues c) (eventOf q)).2 = .ok answer ∧ p ∈ reply q answer := by
  cases input with
  | deliver q =>
      obtain ⟨answer, hans, hp | hp⟩ := mem_react h
      · exact Or.inr ⟨q, answer, rfl, hans, hp⟩
      · refine Or.inl ?_
        change p ∈ outgoing (react c _ _).1
        rwa [react_fst]
  | client ev =>
      obtain ⟨answer, -, hp | hp⟩ := mem_react h
      · exact absurd hp List.not_mem_nil
      · refine Or.inl ?_
        change p ∈ outgoing (react c _ _).1
        rwa [react_fst]
  | compact index data => exact absurd h List.not_mem_nil

theorem reply_payload {q : Packet} {answer : Response} (h : p ∈ reply q answer) :
    p.src = q.dest ∧ p.dest = q.src ∧
      ((∃ req resp, p.payload = .voteResp req resp) ∨
        (∃ req resp, q.payload = .request (.appendEntries req) ∧ answer = .append resp ∧
          p.payload = .appendResp req resp) ∨
        ∃ req resp, p.payload = .snapshotResp req resp) := by
  unfold reply at h
  split at h
  · rw [List.mem_singleton.mp h]
    exact ⟨rfl, rfl, Or.inl ⟨_, _, rfl⟩⟩
  · rename_i req resp hq
    rw [List.mem_singleton.mp h]
    exact ⟨rfl, rfl, Or.inr (Or.inl ⟨req, resp, hq, rfl, rfl⟩)⟩
  · rw [List.mem_singleton.mp h]
    exact ⟨rfl, rfl, Or.inr (Or.inr ⟨_, _, rfl⟩)⟩
  · exact absurd h List.not_mem_nil

theorem request_of_mem_sent {s₀ : CoreState} (hk : MadeIn (coreSystem D) s₀ k)
    (hp : p ∈ k.sent) {msg : Message} (hmsg : p.payload = .request msg) :
    p.src = k.node ∧ ⟨p.dest, msg⟩ ∈ k.post.outbox := by
  rw [hk.sent] at hp
  rw [hk.post]
  rcases mem_respond hp with hout | ⟨q, answer, -, -, hrep⟩
  · obtain ⟨o, ho, rfl⟩ := List.mem_map.mp hout
    cases hmsg
    exact ⟨(congrArg Config.id (turns_respond_cfg k.pre k.input)).trans
      (cfg_id hk.reachable hk.up), ho⟩
  · obtain ⟨-, -, ⟨_, _, hpay⟩ | ⟨_, _, -, -, hpay⟩ | ⟨_, _, hpay⟩⟩ := reply_payload hrep <;>
      rw [hpay] at hmsg <;> cases hmsg

/-- Call `n` of the run is one in which node `i` sent `req` to `x`. -/
def SentAt (calls : List CoreCall) (n : Nat) (i x : ID) (req : AppendEntriesRequest) : Prop :=
  ∃ k, calls[n]? = some k ∧ k.node = i ∧ ⟨i, x, .request (.appendEntries req)⟩ ∈ k.sent

/-- Call `n` of the run is one in which node `x` accepted `req` of node `i`. -/
def AcceptedAt (calls : List CoreCall) (n : Nat) (i x : ID) (req : AppendEntriesRequest) :
    Prop :=
  ∃ k, calls[n]? = some k ∧ k.node = x ∧
    k.input = .deliver ⟨i, x, .request (.appendEntries req)⟩ ∧ k.post.term = req.term

/-- Call `n` of the run is one in which node `i` got to know that `x` accepted `req`. -/
def AnsweredAt (calls : List CoreCall) (n : Nat) (i x : ID) (req : AppendEntriesRequest) :
    Prop :=
  ∃ k resp, calls[n]? = some k ∧ k.node = i ∧
    k.input = .deliver ⟨x, i, .appendResp req resp⟩ ∧ resp.success = true

theorem getElem?_of_take {l : List α} {a : α}
    (h : (l.take m)[n]? = some a) : l[n]? = some a := by
  rw [List.getElem?_take] at h
  split at h
  · exact h
  · cases h

theorem sentAt_of_take (h : SentAt (calls.take m) n i x req) :
    SentAt calls n i x req := by
  obtain ⟨k, hk, hrest⟩ := h
  exact ⟨k, getElem?_of_take hk, hrest⟩

theorem exists_sentAt (hs : Reachable (coreSystem D) s) (hp : p ∈ s.net)
    (hpay : p.payload = .request (.appendEntries req)) :
    ∃ n < s.trace.length, SentAt s.trace n p.src p.dest req := by
  rw [net_eq_flatMap hs, List.mem_flatMap] at hp
  obtain ⟨k, hk, hsent⟩ := hp
  obtain ⟨n, hn⟩ := List.mem_iff_getElem?.mp hk
  obtain ⟨s₀, hmade, -⟩ := exists_madeIn hs hn
  obtain ⟨hsrc, -⟩ := request_of_mem_sent hmade hsent hpay
  refine ⟨n, (List.getElem?_eq_some_iff.mp hn).1, k, hn, hsrc.symm, ?_⟩
  rw [← hpay]
  exact hsent

theorem handleAppendEntries_response {c : Core}
    (h : (handleAppendEntries c req).2 = .ok resp) :
    resp.seq = req.seq ∧ (resp.success = true → (handleAppendEntries c req).1.term = req.term) := by
  refine ⟨?_, ?_⟩
  · unfold handleAppendEntries at h
    dsimp only at h
    split at h
    · cases h
      rfl
    · split at h
      · cases h
        rfl
      · split at h
        · cases h
          rfl
        · split at h <;> cases h
          rfl
  · intro hsuccess
    rcases handleAppendEntries_cases c req with
      ⟨r, heq, -, hno⟩ | ⟨r, heq, hno, -⟩ |
      ⟨hterm, -, ⟨c', err, -, heq⟩ | ⟨c', r, hnew, heq, -⟩⟩ <;>
      rw [heq] at h ⊢ <;> cases h
    · rw [hno] at hsuccess
      cases hsuccess
    · rw [hno] at hsuccess
      cases hsuccess
    · have hfollow : (followCommit c' req.leaderCommit
          (req.prevLogIndex + req.entries.length)).term = c'.term := by
        unfold followCommit
        split
        · exact (sameLog_deliverCommitted _).term
        · rfl
      have hnew' : c'.term = (adoptTerm c req.term).term := by
        have hsame : (appendNew (recognizeLeader (adoptTerm c req.term) req.leaderId)
            req.entries).1.term = (adoptTerm c req.term).term := by
          rw [appendNew_eq]
          rfl
        rwa [hnew] at hsame
      rw [hfollow, hnew', ← term_adoptTerm hterm]

theorem response_of_append {c : Core}
    (h : (handle c (.appendEntries req)).2 = .ok (.append resp)) :
    (handleAppendEntries c req).2 = .ok resp := by
  change (handleAppendEntries c req).2.map Response.append = .ok (.append resp) at h
  cases hr : (handleAppendEntries c req).2 with
  | error err =>
      rw [hr] at h
      cases h
  | ok r =>
      rw [hr] at h
      cases h
      rfl

/-- A response travels after the request it answers, with its number; an
acknowledgement comes from a node that was in the term of the request. -/
theorem exists_acceptedAt (hs : Reachable (coreSystem D) s) (hp : p ∈ s.net)
    (hpay : p.payload = .appendResp req resp) :
    resp.seq = req.seq ∧ ∃ n n', n < n' ∧ n' < s.trace.length ∧
      SentAt s.trace n p.dest p.src req ∧
      (resp.success = true → AcceptedAt s.trace n' p.dest p.src req) := by
  rw [net_eq_flatMap hs, List.mem_flatMap] at hp
  obtain ⟨k, hk, hsent⟩ := hp
  obtain ⟨n', hn'⟩ := List.mem_iff_getElem?.mp hk
  obtain ⟨s₀, hmade, htrace⟩ := exists_madeIn hs hn'
  have hlt := (List.getElem?_eq_some_iff.mp hn').1
  rw [hmade.sent] at hsent
  rcases mem_respond hsent with hout | ⟨q, answer, hq, hans, hrep⟩
  · obtain ⟨o, -, rfl⟩ := List.mem_map.mp hout
    cases hpay
  · obtain ⟨hsrc, hdest, hkind⟩ := reply_payload hrep
    obtain ⟨hqnet, hqdest⟩ : q ∈ s₀.net ∧ q.dest = k.node := by
      rcases hmade.enabled with hlocal | ⟨q', hq', hdest', hin⟩
      · rw [hq] at hlocal
        cases hlocal
      · obtain rfl : q' = q := Input.deliver.inj (hin.trans hq)
        exact ⟨hq', hdest'⟩
    rcases hkind with ⟨_, _, hno⟩ | ⟨req', resp', hreq, rfl, hresp⟩ | ⟨_, _, hno⟩
    · rw [hno] at hpay
      cases hpay
    · rw [hresp] at hpay
      cases hpay
      obtain ⟨n, hn, hsentAt⟩ := exists_sentAt hmade.reachable hqnet hreq
      rw [htrace] at hn hsentAt
      have hevent : eventOf q = .appendEntries req := by
        unfold eventOf
        rw [hreq]
      rw [hevent] at hans
      obtain ⟨hok, hpost⟩ := handleAppendEntries_response (response_of_append hans)
      refine ⟨hok, n, n', ?_, hlt, ?_, fun hsuccess => ⟨k, hn', ?_, ?_, ?_⟩⟩
      · rw [List.length_take] at hn
        omega
      · rw [hsrc, hdest]
        exact sentAt_of_take hsentAt
      · rw [hsrc, hqdest]
      · rw [hq, hsrc, hdest, ← hreq]
      · rw [hmade.post, hq]
        change (react k.pre (eventOf q) (reply q)).1.term = req.term
        rw [react_fst, hevent]
        exact hpost hsuccess
    · rw [hno] at hpay
      cases hpay

end Sources

section Numbering

/-- `req` may have been sent by a node in this state. -/
def PastOf (req : AppendEntriesRequest) : Life Core Disk → Prop
  | .up c => Past c req
  | .down d => req.term ≤ (loadTermAndVote d).1

theorem trace_call (s : CoreState) (i : ID) (c : Core) (input : Input) :
    ((coreSystem D).call s i c input).trace =
      s.trace ++ [⟨i, input, c, (respond c input).1, (respond c input).2.getD []⟩] :=
  rfl

theorem getElem?_trace_call (s : CoreState) (i : ID) (c : Core) (input : Input) :
    ((coreSystem D).call s i c input).trace[s.trace.length]? =
      some ⟨i, input, c, (respond c input).1, (respond c input).2.getD []⟩ := by
  rw [trace_call, List.getElem?_append_right le_rfl, Nat.sub_self]
  rfl

theorem getElem?_concat_cases {l : List α} {a b : α}
    (h : (l ++ [a])[n]? = some b) : l[n]? = some b ∨ n = l.length ∧ a = b := by
  rcases Nat.lt_or_ge n l.length with hlt | hge
  · rw [List.getElem?_append_left hlt] at h
    exact Or.inl h
  · have hn := (List.getElem?_eq_some_iff.mp h).1
    simp at hn
    obtain rfl : n = l.length := by omega
    rw [List.getElem?_append_right le_rfl, Nat.sub_self, List.getElem?_cons_zero] at h
    exact Or.inr ⟨rfl, Option.some.inj h⟩

theorem sentAt_concat
    (h : SentAt (calls ++ [k]) n i x req) :
    SentAt calls n i x req ∨ n = calls.length ∧ k.node = i ∧
      ⟨i, x, .request (.appendEntries req)⟩ ∈ k.sent := by
  obtain ⟨k', hk', hnode, hsent⟩ := h
  rcases getElem?_concat_cases hk' with hold | ⟨hn, rfl⟩
  · exact Or.inl ⟨k', hold, hnode, hsent⟩
  · exact Or.inr ⟨hn, hnode, hsent⟩

theorem pastOf_sentAt (hs : Reachable (coreSystem D) s)
    (h : SentAt s.trace n i x req) : PastOf req (s.node i) := by
  refine (nodes_induction (Q := fun calls i life => Identified i life ∧
    ∀ n x req, SentAt calls n i x req → PastOf req life) ?_ ?_ ?_ ?_ ?_ hs i).2 n x req h
  · refine fun i => ⟨trivial, fun n x req hsent => ?_⟩
    obtain ⟨k, hk, -⟩ := hsent
    simp at hk
  · intro s i c input hreach ih hup hx
    have hlast : Identified i (.up (respond c input).1) :=
      ⟨(congrArg Config.id (turns_respond_cfg c input)).trans (cfg_id hreach hup),
        stateSaved_respond (hup ▸ (ih i).1 : Identified i (.up c)).2 input⟩
    refine ⟨hlast, fun n x req hsent => ?_⟩
    rw [trace_call] at hsent
    rcases sentAt_concat hsent with hold | ⟨-, -, hnew⟩
    · have hpast := (ih i).2 n x req hold
      rw [hup] at hpast
      exact past_respond hpast input
    · have hmade : MadeIn (coreSystem D) s
          ⟨i, input, c, (respond c input).1, (respond c input).2.getD []⟩ :=
        ⟨hreach, hup, hx, rfl, rfl⟩
      exact outboxPast_respond c input _ (request_of_mem_sent hmade hnew rfl).2 req rfl
  · intro s i c input j life hj ih
    refine ⟨ih.1, fun n x req hsent => ?_⟩
    rw [trace_call] at hsent
    rcases sentAt_concat hsent with hold | ⟨-, hnode, -⟩
    · exact ih.2 n x req hold
    · exact absurd hnode.symm hj
  · intro calls i c ih
    refine ⟨trivial, fun n x req hsent => ?_⟩
    change req.term ≤ (loadTermAndVote c.disk).1
    rw [show loadTermAndVote c.disk = (c.term, c.votedFor) from ih.1.2]
    exact (ih.2 n x req hsent).1
  · intro calls i rng d c ih hboot
    obtain ⟨-, M, entries, -, -, rfl⟩ := newCore_cases (newCore_of_boot hboot)
    exact ⟨⟨D.cfg_id i, rfl⟩, fun n x req hsent =>
      ⟨ih.2 n x req hsent, fun _ => ⟨Role.noConfusion, fun hl => by cases hl⟩⟩⟩

end Numbering

section Waiting

/-- The call registered a read under the number `id`, at the commit index `index`. -/
structure Registers (k : CoreCall) (id index : Nat) : Prop where
  input : k.input = .client .read
  role : k.pre.role = .leader
  term : termAt k.pre k.pre.commitIndex = k.pre.term
  id : id = k.pre.readCounter + 1
  index : index = k.pre.commitIndex

/-- Node `i` sent `req` to `x` in call `m` or later, and has learnt that `x` accepted
it. -/
def AckedSince (calls : List CoreCall) (m : Nat) (i x : ID) (req : AppendEntriesRequest) :
    Prop :=
  ∃ n n' n'', m ≤ n ∧ n < n' ∧ n' < n'' ∧ SentAt calls n i x req ∧
    AcceptedAt calls n' i x req ∧ AnsweredAt calls n'' i x req

/-- The read `r` of node `i` was registered by call `m`, and nobody counts for it who
has not accepted a later send. -/
structure Barrier (calls : List CoreCall) (i : ID) (c : Core) (r : PendingRead) (m : Nat) :
    Prop where
  call : ∃ k, calls[m]? = some k ∧ k.node = i ∧ Registers k r.id r.index ∧ k.pre.term ≤ c.term
  last : ∀ n k, m < n → calls[n]? = some k → k.node = i → ∀ index, ¬ Registers k r.id index
  fresh : ∀ n < m, ∀ x req, SentAt calls n i x req → req.term < c.term ∨ req.seq < r.minSeq
  acks : ∀ x ∈ r.acks, x = i ∨ ∃ req, req.term ≤ c.term ∧ AckedSince calls m i x req

theorem getElem?_concat_of_some {l : List α} {a b : α}
    (h : l[n]? = some b) : (l ++ [a])[n]? = some b := by
  rw [List.getElem?_append_left (List.getElem?_eq_some_iff.mp h).1]
  exact h

theorem ackedSince_concat
    (h : AckedSince calls m i x req) : AckedSince (calls ++ [k]) m i x req := by
  obtain ⟨n, n', n'', hm, hn, hn', ⟨k₁, h₁, hr₁⟩, ⟨k₂, h₂, hr₂⟩, ⟨k₃, resp, h₃, hr₃⟩⟩ := h
  exact ⟨n, n', n'', hm, hn, hn', ⟨k₁, getElem?_concat_of_some h₁, hr₁⟩,
    ⟨k₂, getElem?_concat_of_some h₂, hr₂⟩, ⟨k₃, resp, getElem?_concat_of_some h₃, hr₃⟩⟩

theorem barrier_concat {c c' : Core}
    (h : Barrier calls i c r m) (hterm : c.term ≤ c'.term)
    (hk : k.node = i → ∀ index, ¬ Registers k r.id index) : Barrier (calls ++ [k]) i c' r m where
  call := by
    obtain ⟨k₀, hk₀, hnode, hreg, hle⟩ := h.call
    exact ⟨k₀, getElem?_concat_of_some hk₀, hnode, hreg, hle.trans hterm⟩
  last := by
    intro n k' hlt hk' hnode
    rcases getElem?_concat_cases hk' with hold | ⟨-, rfl⟩
    · exact h.last n k' hlt hold hnode
    · exact hk hnode
  fresh := by
    intro n hn x req hsent
    obtain ⟨k₀, hk₀, -⟩ := h.call
    have hm := (List.getElem?_eq_some_iff.mp hk₀).1
    rcases sentAt_concat hsent with hold | ⟨hlen, -⟩
    · rcases h.fresh n hn x req hold with hlt | hlt
      · exact Or.inl (hlt.trans_le hterm)
      · exact Or.inr hlt
    · omega
  acks := by
    intro x hx
    rcases h.acks x hx with heq | ⟨req, hreq, hack⟩
    · exact Or.inl heq
    · exact Or.inr ⟨req, hreq.trans hterm, ackedSince_concat hack⟩

def Waits (calls : List CoreCall) (i : ID) : Life Core Disk → Prop
  | .up c => ∀ r ∈ c.pendingReads, r.id ≤ c.readCounter ∧ ∃ m, Barrier calls i c r m
  | .down _ => True

variable {input : Input}

theorem ackedSince_of_acked (hs : Reachable (coreSystem D) s) (hup : s.node i = .up c)
    (hb : Barrier s.trace i c r m)
    (hx : Enabled (coreSystem D) s i (.deliver p)) (hp : p.payload = .appendResp req resp)
    (hterm : req.term = c.term) (hsuccess : resp.success = true) (hseq : r.minSeq ≤ resp.seq) :
    AckedSince ((coreSystem D).call s i c (.deliver p)).trace m i p.src req := by
  rcases hx with hlocal | ⟨q, hq, hdest, hin⟩
  · cases hlocal
  · obtain rfl : q = p := Input.deliver.inj hin
    have hdest : q.dest = i := hdest
    obtain ⟨hsame, n, n', hn, hn', hsent, hacc⟩ := exists_acceptedAt hs hq hp
    rw [hdest] at hsent hacc
    have hm : m ≤ n := by
      by_contra hlt
      rcases hb.fresh n (Nat.lt_of_not_le hlt) _ _ hsent with h | h <;> omega
    obtain ⟨k₁, h₁, hr₁⟩ := hsent
    obtain ⟨k₂, h₂, hr₂⟩ := hacc hsuccess
    refine ⟨n, n', s.trace.length, hm, hn, hn', ⟨k₁, getElem?_concat_of_some h₁, hr₁⟩,
      ⟨k₂, getElem?_concat_of_some h₂, hr₂⟩, _, resp, getElem?_trace_call s i c _, rfl, ?_,
      hsuccess⟩
    obtain ⟨src, dest, payload⟩ := q
    cases hp
    cases hdest
    rfl

theorem barrier_of_tallied (hs : Reachable (coreSystem D) s) (hw : Waits s.trace i (.up c))
    (hup : s.node i = .up c) (hx : Enabled (coreSystem D) s i input)
    (hr : Tallied c input r) :
    r.id ≤ c.readCounter + 1 ∧ ∃ m, Barrier ((coreSystem D).call s i c input).trace i
      (respond c input).1 r m := by
  have hterm := term_le_respond c input
  have hnone : ∀ r₀ ∈ c.pendingReads, ∀ index, ¬ Registers
      (⟨i, input, c, (respond c input).1, (respond c input).2.getD []⟩ : CoreCall) r₀.id
        index := by
    intro r₀ hr₀ index hreg
    have hle := (hw r₀ hr₀).1
    have hid : r₀.id = c.readCounter + 1 := hreg.id
    omega
  cases hr with
  | kept hmem =>
      obtain ⟨hid, m, hb⟩ := hw r hmem
      exact ⟨by omega, m, barrier_concat hb hterm fun _ => hnone r hmem⟩
  | @acked r₀ hmem p req resp hin hp hrole hreq hsuccess hseq =>
      subst hin
      obtain ⟨hid, m, hb⟩ := hw r₀ hmem
      have hack := ackedSince_of_acked hs hup hb hx hp hreq hsuccess hseq
      have hold := barrier_concat hb hterm fun _ => hnone r₀ hmem
      refine ⟨hid.trans (Nat.le_succ _), m, ⟨hold.call, hold.last, hold.fresh, ?_⟩⟩
      intro x hx
      rcases Finset.mem_insert.mp hx with rfl | hx
      · exact Or.inr ⟨req, hreq.le.trans hterm, hack⟩
      · exact hold.acks x hx
  | registered hin hrole hown =>
      refine ⟨le_rfl, s.trace.length, ⟨_, getElem?_trace_call s i c input, rfl,
        ⟨hin, hrole, hown, rfl, rfl⟩, hterm⟩, ?_, ?_, ?_⟩
      · intro n k hlt hk
        have := (List.getElem?_eq_some_iff.mp hk).1
        rw [trace_call, List.length_append, List.length_singleton] at this
        omega
      · intro n hn x req hsent
        rw [trace_call] at hsent
        rcases sentAt_concat hsent with hold | ⟨hlen, -⟩
        · have hpast := pastOf_sentAt hs hold
          rw [hup] at hpast
          obtain ⟨hle, heq⟩ := hpast
          rcases Nat.lt_or_eq_of_le hle with hlt | heq'
          · exact Or.inl (hlt.trans_le hterm)
          · exact Or.inr (Nat.lt_succ_of_le ((heq heq').2 hrole))
        · omega
      · intro x hx
        rw [← cfg_id hs hup]
        exact Or.inl (Finset.mem_singleton.mp hx)

theorem isLocal_or_deliver (hx : Enabled (coreSystem D) s i input) :
    isLocal input = true ∨ ∃ p, input = .deliver p := by
  rcases hx with hlocal | ⟨p, -, -, hin⟩
  · exact Or.inl hlocal
  · exact Or.inr ⟨p, hin.symm⟩

theorem waits (hs : Reachable (coreSystem D) s) (i : ID) : Waits s.trace i (s.node i) := by
  refine nodes_induction (Q := Waits) (fun _ => trivial) ?_ ?_ (fun _ _ _ _ => trivial) ?_ hs i
  · intro s i c input hreach ih hup hx
    have hw : Waits s.trace i (.up c) := hup ▸ ih i
    have hacc := accounted_respond (c := c) (isLocal_or_deliver hx)
    intro r hr
    have htally := hacc.pending r hr
    refine ⟨?_, (barrier_of_tallied hreach hw hup hx htally).2⟩
    cases htally with
    | kept hmem => exact (hw r hmem).1.trans hacc.counter
    | acked hmem => exact (hw _ hmem).1.trans hacc.counter
    | registered hin hrole hown => exact (hacc.registered hin hrole hown).ge
  · intro s i c input j life hj ih
    cases life with
    | down d => trivial
    | up c' =>
        intro r hr
        obtain ⟨hid, m, hb⟩ := ih r hr
        exact ⟨hid, m, barrier_concat hb le_rfl fun hnode => absurd hnode.symm hj⟩
  · intro calls i rng d c _ hboot
    obtain ⟨-, M, entries, -, -, rfl⟩ := newCore_cases (newCore_of_boot hboot)
    exact fun r hr => absurd hr List.not_mem_nil

theorem exists_barrier (hs : Reachable (coreSystem D) s)
    (hk : s.trace[n]? = some k) {o : ReadOutcome} (ho : o ∈ k.post.readOutcomes)
    (hconf : o.confirmed = true) :
    countsReads k.input = true ∧ k.pre.role = .leader ∧
      ∃ r m, Tallied k.pre k.input r ∧ o.id = r.id ∧ o.index = r.index ∧
        majority k.pre ≤ r.acks.card ∧ Barrier (s.trace.take (n + 1)) k.node k.post r m := by
  obtain ⟨s₀, hmade, htrace⟩ := exists_madeIn hs hk
  have hacc := accounted_respond (c := k.pre) (isLocal_or_deliver hmade.enabled)
  have hpost : k.post = (respond k.pre k.input).1 := hmade.post
  rw [hpost] at ho
  obtain ⟨hcounts, hrole, r, htally, hid, hindex, hmaj⟩ := hacc.confirmed o ho hconf
  have hw : Waits s₀.trace k.node (.up k.pre) := hmade.up ▸ waits hmade.reachable k.node
  obtain ⟨-, m, hb⟩ := barrier_of_tallied hmade.reachable hw hmade.up hmade.enabled htally
  refine ⟨hcounts, hrole, r, m, htally, hid, hindex, hmaj, ?_⟩
  have hcall : ((coreSystem D).call s₀ k.node k.pre k.input).trace = s.trace.take (n + 1) := by
    rw [trace_call, htrace, List.take_add_one, hk]
    have hsent : k.sent = (respond k.pre k.input).2.getD [] := hmade.sent
    rw [← hpost, ← hsent]
    rfl
  rw [← hcall, hpost]
  exact hb

end Waiting

end RaftKV.Raft.Provenance
