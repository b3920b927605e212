import RaftKV.Raft.Authorship
import RaftKV.Raft.Files

namespace RaftKV.Safety.Recovery

open Raft Raft.Durability Raft.Files Raft.Moves
open Raft.Authorship

/-- What the event loop does with a core: handle an event, compact the log, take
what the queues hold. -/
inductive Operation
  | event (ev : Event)
  | compact (index : Nat) (data : Bytes)
  | take

def perform (c : Core) : Operation → Except RaftError Core
  | .event ev =>
      match handle c ev with
      | (c, .ok _) => .ok c
      | (_, .error err) => .error err
  | .compact index data =>
      match compact c index data with
      | (c, .ok ()) => .ok c
      | (_, .error err) => .error err
  | .take => .ok (takeQueues c)

/-- The commands of an event are at most 64 MiB long. -/
def Sized : Event → Prop
  | .propose command _ => command.length ≤ maxCommandLen
  | .confChange cc => (encodeConfChange cc).length ≤ maxCommandLen
  | .appendEntries req => ∀ e ∈ req.entries, e.command.length ≤ maxCommandLen
  | _ => True

def Operation.Admitted : Operation → Prop
  | .event ev => Proper ev ∧ Sized ev
  | _ => True

structure Agrees (c c' : Core) : Prop where
  term : c'.term = c.term
  votedFor : c'.votedFor = c.votedFor
  entries : c'.entries = c.entries
  snapIndex : c'.snapIndex = c.snapIndex
  snapTerm : c'.snapTerm = c.snapTerm
  members : c'.members = c.members

/-- `c` knows what a call that handled `ev` promised to others: the vote it
granted, the entries it acknowledged, the campaigns it started. -/
structure Remembers (c : Core) (ev : Event) (resp : Response) (outbox : List Outbound) :
    Prop where
  vote : ∀ req term, ev = .requestVote req → req.preVote = false →
    resp = .vote { term := term, voteGranted := true } →
      c.term = req.term ∧ c.votedFor = req.candidateId
  append : ∀ req r, ev = .appendEntries req → resp = .append r → r.success = true →
    ∀ e ∈ req.entries, termAt c e.index = e.term
  campaign : ∀ o ∈ outbox, ∀ req, o.msg = .requestVote req → req.preVote = false →
    c.term = req.term ∧ c.votedFor = req.candidateId

variable {M : Members} {c c' : Core}

section Promises

theorem termAt_splice (h : Contiguous c) {e : Entry} {rest : List Entry}
    (d : Disk) (hsnap : c.snapIndex < e.index) (hlast : e.index ≤ lastLogIndex c + 1)
    (hrest : Numbered (e.index - 1) (e :: rest)) :
    Numbered c.snapIndex (splice c d e rest).entries ∧
      (∀ i < e.index, termAt (splice c d e rest) i = termAt c i) ∧
      ∀ f ∈ e :: rest, termAt (splice c d e rest) f.index = f.term := by
  have hentries : (splice c d e rest).entries =
      c.entries.take (e.index - c.snapIndex - 1) ++ e :: rest := by
    change retained c e.index ++ e :: rest = _
    rw [retained_eq h hsnap]
  rw [lastLogIndex_eq h] at hlast
  have hlen : (c.entries.take (e.index - c.snapIndex - 1)).length = e.index - c.snapIndex - 1 := by
    rw [List.length_take]
    omega
  have hnum : Numbered c.snapIndex (splice c d e rest).entries := by
    rw [hentries]
    refine numbered_append (numbered_take h _) ?_
    rwa [hlen, show c.snapIndex + (e.index - c.snapIndex - 1) = e.index - 1 by omega]
  have hgt : ∀ k, termAt (splice c d e rest) (c.snapIndex + k + 1) =
      (((splice c d e rest).entries[k]?).map Entry.term).getD 0 :=
    termAt_of_gt hnum
  refine ⟨hnum, ?_, ?_⟩
  · intro i hi
    rcases Nat.lt_trichotomy i c.snapIndex with hlt | rfl | hlt
    · rw [termAt_of_lt h hlt]
      exact termAt_of_lt hnum hlt
    · exact (termAt_snapIndex (splice c d e rest)).trans (termAt_snapIndex c).symm
    · obtain ⟨k, rfl⟩ : ∃ k, i = c.snapIndex + k + 1 := ⟨i - c.snapIndex - 1, by omega⟩
      rw [hgt, termAt_of_gt h, hentries, List.getElem?_append_left (by omega),
        List.getElem?_take, if_pos (by omega)]
  · intro f hf
    obtain ⟨k, hk⟩ := List.mem_iff_getElem?.mp hf
    have hindex := hrest k f hk
    rw [show f.index = c.snapIndex + (e.index - c.snapIndex - 1 + k) + 1 by omega, hgt, hentries,
      List.getElem?_append_right (by omega), hlen, Nat.add_sub_cancel_left, hk]
    rfl

theorem termAt_appendNew (h : Durable M c) {req : AppendEntriesRequest} (hreq : WellFormed req)
    (hacc : Accepted c req) (hnew : appendNew c req.entries = (c', .ok ())) :
    ∀ e ∈ req.entries, termAt c' e.index = e.term := by
  have hsplit := List.takeWhile_append_dropWhile (p := held c) (l := req.entries)
  have hheld : ∀ f ∈ req.entries.takeWhile (held c), termAt c f.index = f.term := by
    intro f hf
    have hf' := (List.all_eq_true.mp List.all_takeWhile) f hf
    unfold held at hf'
    rw [decide_eq_true_eq] at hf'
    exact hf'.2
  unfold appendNew at hnew
  split at hnew
  · rename_i hnil
    cases hnew
    intro e he
    rw [← hsplit, hnil, List.append_nil] at he
    exact hheld e he
  · rename_i first rest hfresh
    rw [hfresh] at hsplit
    have hcommit : ¬ first.index ≤ c.commitIndex := by
      intro hle
      rw [truncateAndAppend, if_pos hle] at hnew
      cases hnew
    obtain ⟨hsnap, hlast, hrest⟩ :=
      fresh_index h.saved.numbered h.cursors hreq hacc hfresh (Nat.lt_of_not_le hcommit)
    obtain ⟨-, hbefore, hbatch⟩ := termAt_splice h.saved.numbered
      { c.disk with log := c.disk.log ++ first :: rest } hsnap hlast hrest
    have hsame : ∀ i, termAt c' i = termAt
        (splice c { c.disk with log := c.disk.log ++ first :: rest } first rest) i := by
      rw [truncateAndAppend_eq hcommit hrest] at hnew
      split at hnew
      · cases hnew
        exact fun i => rfl
      · cases hnew
        intro i
        rw [noteAppendedConfigs_eq]
        rfl
    intro e he
    rw [hsame]
    rw [← hsplit] at he
    rcases List.mem_append.mp he with he' | he'
    · -- The entries in front of the first new one have smaller indices.
      obtain ⟨k, hk⟩ := List.mem_iff_getElem?.mp he'
      have hlt := (List.getElem?_eq_some_iff.mp hk).1
      have hnum := hreq.numbered
      rw [← hsplit] at hnum
      have hindex := hnum k e ((List.getElem?_append_left hlt).trans hk)
      have hfirst := hnum (req.entries.takeWhile (held c)).length first (by simp)
      rw [hbefore _ (by omega)]
      exact hheld e he'
    · exact hbatch e he'

theorem termAt_followCommit (c : Core) (leaderCommit lastNew index : Nat) :
    termAt (followCommit c leaderCommit lastNew) index = termAt c index := by
  unfold followCommit
  split
  · have hs := sameLog_deliverCommitted { c with commitIndex := min leaderCommit lastNew }
    exact termAt_congr hs.entries hs.snapIndex hs.snapTerm index
  · rfl

theorem termAt_of_acknowledged (h : Durable M c) {req : AppendEntriesRequest}
    (hreq : WellFormed req) {r : AppendEntriesResponse}
    (hok : handleAppendEntries c req = (c', .ok r)) (hr : r.success = true) :
    ∀ e ∈ req.entries, termAt c' e.index = e.term := by
  have hrec : Durable M (recognizeLeader (adoptTerm c req.term) req.leaderId) :=
    durable_volatile (durable_adoptTerm h req.term) rfl rfl rfl
  rcases handleAppendEntries_cases c req with
    ⟨resp, heq, -, hno⟩ | ⟨resp, heq, hno, -⟩ |
      ⟨-, hacc, ⟨c'', err, -, heq⟩ | ⟨c'', resp, hnew, heq, -⟩⟩ <;> rw [heq] at hok <;> cases hok
  · rw [hno] at hr
    cases hr
  · rw [hno] at hr
    cases hr
  · intro e he
    rw [termAt_followCommit]
    exact termAt_appendNew hrec hreq hacc hnew e he

/-- Votes are asked for in the term and with the vote the core has by then. -/
def Asking (c : Core) : Prop :=
  ∀ o ∈ c.outbox, ∀ req, o.msg = .requestVote req → req.preVote = false →
    c.term = req.term ∧ c.votedFor = req.candidateId

theorem asking_of_unasked (h : Unasked [] c) (ho : c'.outbox = c.outbox) : Asking c' := by
  intro o hmem req hmsg hpre
  rw [ho] at hmem
  obtain ⟨req', hmsg', hpre'⟩ := (h o hmem).resolve_left List.not_mem_nil
  cases hmsg.symm.trans hmsg'
  rw [hpre'] at hpre
  cases hpre

theorem asking_move {ev : Event} (hmove : Move ev c c') (h : Asking c) : Asking c' := by
  have hsame : c'.term = c.term → c'.votedFor = c.votedFor → Asking c' := by
    intro hterm hvote o ho req hmsg hpre
    rw [hterm, hvote]
    rcases mem_outbox_move hmove ho with hold | ⟨-, -, hnew⟩
    · exact h o hold req hmsg hpre
    cases hnew with
    | vote dest req' hdest hreq =>
        cases hmsg
        exact ⟨(hreq hpre).1.symm, (hreq hpre).2.symm⟩
    | sent hrole hdest hsent => cases hsent <;> cases hmsg
    | timeoutNow => cases hmsg
  cases hmove with
  | stepDown term hlt hask => exact asking_of_unasked hask rfl
  | grant req hask => exact asking_of_unasked hask rfl
  | campaign hrole hask => exact asking_of_unasked hask rfl
  | advance | follow =>
      exact hsame (sameLog_deliverCommitted _).term (sameLog_deliverCommitted _).votedFor
  | accept => exact hsame (by rw [appendNew_eq]) (by rw [appendNew_eq])
  | drift | recognize | ask | count | win | own | send | fire | change | ack | note | retry | read
  | install => exact hsame rfl rfl

end Promises

theorem durable_perform (h : Durable M c) {op : Operation} (hop : op.Admitted)
    (hstep : perform c op = .ok c') : Durable M c' := by
  cases op with
  | event ev =>
      have hd := durable_handle h hop.1
      simp only [perform] at hstep
      split at hstep <;> rename_i heq <;> cases hstep
      rwa [heq] at hd
  | compact index data =>
      have hd := durable_compact h index data
      simp only [perform] at hstep
      split at hstep <;> rename_i heq <;> cases hstep
      rwa [heq] at hd
  | take =>
      cases hstep
      exact durable_takeQueues h

/-- Everything a core has, has saved and is about to send can be read back from a log. -/
abbrev Legible (c : Core) : Prop :=
  AllEntries (fun e => e.command.length ≤ maxCommandLen) c

theorem legible_handle (h : Legible c) {ev : Event} (hev : Sized ev) :
    Legible (handle c ev).1 := by
  refine moves_induction (moves_handle rfl ev) h fun a b => allEntries_move ?_ ?_ ?_
  · intro e _ hempty
    rw [hempty]
    exact Nat.zero_le _
  · rintro e (rfl | ⟨cc, rfl, -, hcommand⟩)
    · exact hev
    · rw [hcommand]
      exact hev
  · intro e he
    cases ev with
    | appendEntries req => exact hev e he
    | _ => exact absurd he List.not_mem_nil

theorem legible_takeQueues (h : Legible c) : Legible (takeQueues c) :=
  { h with
    committed := fun _ he => absurd he List.not_mem_nil
    outbox := fun _ ho => absurd ho List.not_mem_nil }

theorem legible_perform (h : Legible c) {op : Operation} (hop : op.Admitted)
    (hstep : perform c op = .ok c') : Legible c' := by
  cases op with
  | event ev =>
      have hd := legible_handle h hop.2
      simp only [perform] at hstep
      split at hstep <;> rename_i heq <;> cases hstep
      rwa [heq] at hd
  | compact index data =>
      have hd := allEntries_compact h index data
      simp only [perform] at hstep
      split at hstep <;> rename_i heq <;> cases hstep
      rwa [heq] at hd
  | take =>
      cases hstep
      exact legible_takeQueues h

theorem run_induction {Q : Core → Prop} {ops : List Operation} (h : Q c)
    (hstep : ∀ op ∈ ops, ∀ a b, perform a op = .ok b → Q a → Q b)
    (hrun : ops.foldlM perform c = .ok c') : Q c' := by
  induction ops generalizing c with
  | nil =>
      cases hrun
      exact h
  | cons op ops ih =>
      rw [List.foldlM_cons] at hrun
      cases hop : perform c op with
      | error err =>
          rw [hop] at hrun
          cases hrun
      | ok next =>
          rw [hop] at hrun
          exact ih (hstep op List.mem_cons_self c next hop h)
            (fun o ho => hstep o (List.mem_cons_of_mem _ ho)) hrun

theorem durable_of_run {cfg : Config} {rng : Nat → Nat} {d : Disk} {c₀ : Core}
    {ops : List Operation} (hboot : newCore cfg rng d = .ok c₀) (hops : ∀ op ∈ ops, op.Admitted)
    (hrun : ops.foldlM perform c₀ = .ok c) :
    ∃ M, cfg.id ≠ 0 ∧ initialMembers cfg = .ok M ∧ Durable M c ∧ Legible c := by
  obtain ⟨hid, M, entries, hM, hlog, rfl⟩ := newCore_cases hboot
  have hlegible : Legible (bootCore (applyDefaults cfg) rng (trimmed d) M entries) :=
    ⟨fun e he => length_of_mem_intact (mem_of_replay hlog he), fun e => length_of_mem_intact,
      fun e he => absurd he List.not_mem_nil, fun o ho => absurd ho List.not_mem_nil⟩
  refine ⟨M, hid, hM, ?_⟩
  refine run_induction (Q := fun a => Durable M a ∧ Legible a) ⟨durable_bootCore hlog, hlegible⟩
    ?_ hrun
  intro op hop a b hstep h
  exact ⟨durable_perform h.1 (hops op hop) hstep, legible_perform h.2 (hops op hop) hstep⟩

theorem newCoreFrom_of_durable (h : Durable M c) (hlegible : Legible c) (hfits : Fits c.disk)
    {cfg : Config} (hid : cfg.id ≠ 0) (hM : initialMembers cfg = .ok M) (rng : Nat → Nat) :
    newCoreFrom cfg rng (filesOf c.disk) =
      .ok (bootCore (applyDefaults cfg) rng c.disk M c.entries) := by
  rw [newCoreFrom_filesOf hfits, newCore_of_durable h hlegible.disk hid hM rng]

theorem agrees_bootCore (h : Durable M c) (cfg : Config) (rng : Nat → Nat) :
    Agrees c (bootCore cfg rng c.disk M c.entries) where
  term := congrArg Prod.fst h.saved.state
  votedFor := congrArg Prod.snd h.saved.state
  entries := rfl
  snapIndex := h.saved.snapIndex
  snapTerm := h.saved.snapTerm
  members := by
    change membersAfter _ c.entries = c.members
    rw [h.saved.snapConfig, h.members]

theorem remembers_bootCore (h : Durable M c) (hout : c.outbox = []) {ev : Event}
    (hev : Proper ev) {resp : Response} (hok : handle c ev = (c', .ok resp))
    (cfg : Config) (rng : Nat → Nat) :
    Remembers (bootCore cfg rng c'.disk M c'.entries) ev resp c'.outbox := by
  have hd : Durable M c' := by
    have := durable_handle h hev
    rwa [hok] at this
  have hag := agrees_bootCore hd cfg rng
  have hask : Asking c' := by
    have hmoves := moves_handle hout ev
    rw [hok] at hmoves
    refine moves_induction hmoves ?_ fun a b => asking_move
    exact asking_of_unasked (unasked_of_eq hout) rfl
  refine ⟨?_, ?_, ?_⟩
  · rintro req term rfl hpre rfl
    have hvote := vote_of_granted (c := c) hpre
    simp only [handle, Prod.mk.injEq, Except.ok.injEq, Response.vote.injEq] at hok
    rw [hok.1, hok.2] at hvote
    rw [hag.term, hag.votedFor]
    exact hvote rfl
  · rintro req r rfl rfl hr e he
    have hok' : handleAppendEntries c req = (c', .ok r) := by
      simp only [handle, Prod.mk.injEq] at hok
      cases hres : (handleAppendEntries c req).2 with
      | error err =>
          rw [hres] at hok
          cases hok.2
      | ok r' =>
          rw [hres] at hok
          obtain rfl : r' = r := by simpa [Except.map] using hok.2
          exact Prod.ext hok.1 hres
    rw [termAt_congr hag.entries hag.snapIndex hag.snapTerm]
    exact termAt_of_acknowledged h hev hok' hr e he
  · intro o ho req hmsg hpre
    rw [hag.term, hag.votedFor]
    exact hask o ho req hmsg hpre

/-- What is on disk is what is in memory: a node that comes back from the files of
a core has its term, vote, log, snapshot position and membership, and remembers
what every call promised. -/
theorem disk_is_memory {cfg : Config} {rng : Nat → Nat} {d : Disk} {c₀ c : Core}
    {ops : List Operation} (hboot : newCore cfg rng d = .ok c₀) (hops : ∀ op ∈ ops, op.Admitted)
    (hrun : ops.foldlM perform c₀ = .ok c) (rng' : Nat → Nat) :
    (Fits c.disk → ∃ c', newCoreFrom cfg rng' (filesOf c.disk) = .ok c' ∧ Agrees c c') ∧
    ∀ ev c₁ resp, Proper ev → Sized ev → handle (takeQueues c) ev = (c₁, .ok resp) →
      Fits c₁.disk → ∃ c', newCoreFrom cfg rng' (filesOf c₁.disk) = .ok c' ∧
        Remembers c' ev resp c₁.outbox := by
  obtain ⟨M, hid, hM, hd, hlegible⟩ := durable_of_run hboot hops hrun
  refine ⟨fun hfits => ?_, ?_⟩
  · exact ⟨_, newCoreFrom_of_durable hd hlegible hfits hid hM rng', agrees_bootCore hd _ rng'⟩
  · intro ev c₁ resp hev hsized hok hfits
    have htake := durable_takeQueues hd
    have hd₁ : Durable M c₁ := by
      have := durable_handle htake hev
      rwa [hok] at this
    have hlegible₁ : Legible c₁ := by
      have := legible_handle (legible_takeQueues hlegible) hsized
      rwa [hok] at this
    exact ⟨_, newCoreFrom_of_durable hd₁ hlegible₁ hfits hid hM rng',
      remembers_bootCore htake rfl hev hok _ rng'⟩

/-- One node on its own, which leads from its first tick on. -/
def solo : Config where
  id := 1
  peerIDs := []
  members := none
  electionTicksMin := 1
  electionTicksMax := 2
  heartbeatTicks := 1
  disablePreVote := true

/-- An election, a proposal and a compaction of everything so far. -/
def soloOperations : List Operation :=
  [.event .tick, .take, .event (.propose (oneByte 7) .normal), .take, .compact 2 [9]]

theorem exists_of_perform (cfg : Config) (ops : List Operation) (test : Core → Prop)
    [DecidablePred test]
    (h : ((newCore cfg (fun _ => 0) blank).toOption.any fun c₀ =>
      (ops.foldlM perform c₀).toOption.any fun c => decide (test c)) = true) :
    ∃ c₀ c, newCore cfg (fun _ => 0) blank = .ok c₀ ∧ ops.foldlM perform c₀ = .ok c ∧ test c := by
  cases hboot : newCore cfg (fun _ => 0) blank with
  | error err =>
      rw [hboot] at h
      cases h
  | ok c₀ =>
      rw [hboot] at h
      change ((ops.foldlM perform c₀).toOption.any fun c => decide (test c)) = true at h
      cases hrun : ops.foldlM perform c₀ with
      | error err =>
          rw [hrun] at h
          cases h
      | ok c =>
          rw [hrun] at h
          exact ⟨c₀, c, rfl, hrun, of_decide_eq_true h⟩

theorem admitted_soloOperations : ∀ op ∈ soloOperations, op.Admitted := by
  simp only [soloOperations, List.mem_cons, List.not_mem_nil, or_false]
  rintro op (rfl | rfl | rfl | rfl | rfl)
  · exact ⟨trivial, trivial⟩
  · trivial
  · exact ⟨EntryType.noConfusion, show (oneByte 7).length ≤ maxCommandLen by decide⟩
  · trivial
  · trivial

/-- A leader of term 2 sends the entry after the snapshot. -/
def successor : AppendEntriesRequest where
  term := 2
  leaderId := 3
  prevLogIndex := 2
  prevLogTerm := 1
  entries := [⟨2, 3, .normal, oneByte 8⟩]
  leaderCommit := 0
  seq := 1

def acknowledges : Response → Bool
  | .append resp => resp.success
  | _ => false

theorem disk_is_memory_solo :
    ∃ c₀ c, newCore solo (fun _ => 0) blank = .ok c₀ ∧
      soloOperations.foldlM perform c₀ = .ok c ∧ c.snapIndex = 2 ∧
      (∃ c', newCoreFrom solo (fun _ => 0) (filesOf c.disk) = .ok c' ∧ Agrees c c') ∧
      ∃ c₁ resp, handle (takeQueues c) (.appendEntries successor) = (c₁, .ok resp) ∧
        acknowledges resp = true ∧
        ∃ c', newCoreFrom solo (fun _ => 0) (filesOf c₁.disk) = .ok c' ∧
          Remembers c' (.appendEntries successor) resp c₁.outbox := by
  obtain ⟨c₀, c, hboot, hrun, hsnap, hfits, hack, hfits'⟩ := exists_of_perform solo soloOperations
    (fun c => c.snapIndex = 2 ∧ Fits c.disk ∧
      ((handle (takeQueues c) (.appendEntries successor)).2.toOption.any acknowledges) = true ∧
      Fits (handle (takeQueues c) (.appendEntries successor)).1.disk)
    (by decide +kernel)
  have hproper : Proper (.appendEntries successor) :=
    { numbered := by simp [successor, numbered_cons, numbered_nil]
      start := by rintro ⟨⟩
      prevTerm := by rintro ⟨⟩
      terms := by simp [successor] }
  have hsized : Sized (.appendEntries successor) := by
    change ∀ e ∈ successor.entries, e.command.length ≤ maxCommandLen
    decide
  obtain ⟨hmemory, hpromise⟩ :=
    disk_is_memory hboot admitted_soloOperations hrun fun _ => 0
  refine ⟨c₀, c, hboot, hrun, hsnap, hmemory hfits, ?_⟩
  cases hres : handle (takeQueues c) (.appendEntries successor) with
  | mk c₁ result =>
      rw [hres] at hack hfits'
      cases result with
      | error err => cases hack
      | ok resp =>
          exact ⟨c₁, resp, rfl, hack, hpromise _ c₁ resp hproper hsized hres hfits'⟩

/-- A request no leader builds: its first entry does not follow `prevLogIndex`. -/
def gappedRequest : AppendEntriesRequest where
  term := 1
  leaderId := 2
  prevLogIndex := 0
  prevLogTerm := 0
  entries := [⟨1, 2, .normal, noBytes⟩]
  leaderCommit := 0
  seq := 1

/-- The core takes such a request without an error, and the log it writes does not
open again. -/
theorem gapped_request_breaks_log :
    ∃ c₀ c, newCore solo (fun _ => 0) blank = .ok c₀ ∧
      [Operation.event (.appendEntries gappedRequest)].foldlM perform c₀ = .ok c ∧
      newCoreFrom solo (fun _ => 0) (filesOf c.disk) = .error (.logStart 2 0) := by
  refine ⟨_, _, rfl, rfl, ?_⟩
  rw [newCoreFrom_filesOf (by decide +kernel)]
  rfl

section CrashPoints

/-- The core at each file replacement while `snap` takes the place of the log
through its index. -/
def rebasePoints (c : Core) (snap : Snapshot) (keep : List Entry) : List Core :=
  [c, { c with disk := persistRaftSnapshot c.disk snap },
    { c with disk := rewrite (persistRaftSnapshot c.disk snap) keep }]

def compactPoints (c : Core) (index : Nat) (data : Bytes) : List Core :=
  if index ≤ c.snapIndex ∨ c.lastDelivered < index then [c]
  else rebasePoints c (snapshotAt c index data) (entriesAfter c index)

def receivedSnapshot (req : InstallSnapshotRequest) (config : Members) : Snapshot where
  lastIndex := req.lastIncludedIndex
  lastTerm := req.lastIncludedTerm
  config := config
  data := req.data

/-- What a crash inside `handleInstallSnapshot` can find: before and after the term
is adopted, and at the file replacements of an installation. -/
def installPoints (c : Core) (req : InstallSnapshotRequest) : List Core :=
  let a := adoptTerm c req.term
  if req.term < a.term ∨ req.lastIncludedIndex ≤ c.snapIndex ∨
      req.lastIncludedIndex ≤ c.commitIndex then
    [c, a]
  else
    match decodeMembers req.config with
    | .error _ => [c, a]
    | .ok config =>
        c :: rebasePoints a (receivedSnapshot req config)
          (coherentSuffix a (receivedSnapshot req config))

/-- A node that dies at `p` comes back with the term and the vote of `p`, with every
entry of `c` above the snapshot it finds, and that snapshot is the one of `c` or the
one through `index`. -/
def Survives (cfg : Config) (rng : Nat → Nat) (c : Core) (index : Nat) (p : Core) : Prop :=
  ∃ c', newCoreFrom cfg rng (filesOf p.disk) = .ok c' ∧ c'.term = p.term ∧
    c'.votedFor = p.votedFor ∧
    (∀ e ∈ c.entries, c'.snapIndex < e.index → e ∈ c'.entries) ∧
    (c'.snapIndex = c.snapIndex ∨ c'.snapIndex = index)

def Refused (c : Core) (req : InstallSnapshotRequest) : Prop :=
  req.term < c.term ∨ req.lastIncludedIndex ≤ c.snapIndex ∨
    req.lastIncludedIndex ≤ c.commitIndex ∨ ∃ err, decodeMembers req.config = .error err

theorem getLast_compactPoints (c : Core) (index : Nat) (data : Bytes) :
    (compactPoints c index data).getLast?.map Core.disk = some (compact c index data).1.disk := by
  unfold compactPoints compact
  split
  · rename_i hidle
    rcases hidle with hle | hlt
    · rw [if_pos hle]
      rfl
    · split <;> rfl
  · rename_i hbusy
    rw [if_neg (not_or.mp hbusy).1, if_neg (not_or.mp hbusy).2]
    rfl

theorem cursors_adoptTerm (c : Core) (term : Nat) :
    (adoptTerm c term).snapIndex = c.snapIndex ∧ (adoptTerm c term).commitIndex = c.commitIndex ∧
      (adoptTerm c term).entries = c.entries := by
  unfold adoptTerm
  split <;> exact ⟨rfl, rfl, rfl⟩

theorem getLast_installPoints (c : Core) (req : InstallSnapshotRequest) :
    (installPoints c req).getLast?.map Core.disk =
      some (handleInstallSnapshot c req).1.disk := by
  obtain ⟨hsnap, hcommit, -⟩ := cursors_adoptTerm c req.term
  have hsnap' : (recognizeLeader (adoptTerm c req.term) req.leaderId).snapIndex = c.snapIndex :=
    hsnap
  have hcommit' :
      (recognizeLeader (adoptTerm c req.term) req.leaderId).commitIndex = c.commitIndex :=
    hcommit
  unfold installPoints handleInstallSnapshot
  dsimp only
  rw [hsnap', hcommit']
  split
  · rename_i hidle
    rcases hidle with hlt | hle
    · rw [if_pos hlt]
      rfl
    · rw [if_pos hle]
      split <;> rfl
  · rename_i hbusy
    rw [if_neg (not_or.mp hbusy).1, if_neg (not_or.mp hbusy).2]
    cases decodeMembers req.config <;> rfl

theorem replayRecords_of_ne {log entries : List Entry} {base base' : Nat}
    (h : replayRecords base log = .ok entries) (hne : entries ≠ []) (hbase : base' ≠ base) :
    replayRecords base' log = .error (.logStart (base + 1) base') := by
  unfold replayRecords at h ⊢
  cases log with
  | nil =>
      cases h
      exact absurd rfl hne
  | cons e rest =>
      rw [List.foldlM_cons] at h
      have hindex : e.index = base + 1 := by
        by_contra hne'
        rw [replayRecord, if_pos hne'] at h
        cases h
      rw [List.foldlM_cons, replayRecord, if_pos (by omega), hindex]
      rfl

theorem log_eq_nil {log : List Entry} {base : Nat} (h : replayRecords base log = .ok []) :
    log = [] := by
  unfold replayRecords at h
  rcases List.eq_nil_or_concat log with hnil | ⟨records, e, hlog⟩
  · exact hnil
  · rw [hlog, List.concat_eq_append, List.foldlM_append] at h
    cases hmid : records.foldlM (replayRecord base) [] with
    | error err =>
        rw [hmid] at h
        cases h
    | ok mid =>
        rw [hmid] at h
        change [e].foldlM (replayRecord base) mid = .ok [] at h
        simp only [List.foldlM_cons, List.foldlM_nil, bind_pure] at h
        unfold replayRecord at h
        split at h
        · split at h <;> cases h
        · dsimp only at h
          split at h
          · simp at h
          · split at h <;> simp at h

variable {cfg : Config} {rng : Nat → Nat} {index : Nat}

theorem survives_self (hid : cfg.id ≠ 0) (hM : initialMembers cfg = .ok M) {a : Core}
    (ha : Durable M a) (hl : Legible a) (hfits : Fits a.disk) (hentries : a.entries = c.entries)
    (hsnap : a.snapIndex = c.snapIndex) : Survives cfg rng c index a := by
  have hag := agrees_bootCore ha (applyDefaults cfg) rng
  refine ⟨_, newCoreFrom_of_durable ha hl hfits hid hM rng, hag.term, hag.votedFor, ?_, ?_⟩
  · intro e he _
    rw [hag.entries, hentries]
    exact he
  · exact Or.inl (hag.snapIndex.trans hsnap)

theorem survives_rebasePoints (hid : cfg.id ≠ 0) (hM : initialMembers cfg = .ok M) {a : Core}
    (ha : Durable M a) (hl : Legible a) (hempty : a.entries = []) (hentries : a.entries = c.entries)
    (hsnap : a.snapIndex = c.snapIndex) (snap : Snapshot)
    (hfits : ∀ p ∈ rebasePoints a snap [], Fits p.disk) :
    ∀ p ∈ rebasePoints a snap [], Survives cfg rng c snap.lastIndex p := by
  have hlog : a.disk.log = [] := by
    have := ha.saved.log
    rw [hempty] at this
    exact log_eq_nil this
  have hboot : ∀ d : Disk, d.state = a.disk.state → d.log = [] → d.snapshot = some snap →
      Fits d → Survives cfg rng c snap.lastIndex { a with disk := d } := by
    intro d hstate hnil hnew hfit
    have hload : loadRaftSnapshot d = snap := by
      rw [loadRaftSnapshot, hnew]
      rfl
    have htrim : (trimmed d).log = [] := by
      change intact d.log = []
      rw [hnil]
      rfl
    have hopen : replayRecords (loadRaftSnapshot d).lastIndex (trimmed d).log = .ok [] := by
      rw [htrim]
      rfl
    have hsaved : loadTermAndVote d = (a.term, a.votedFor) := by
      rw [loadTermAndVote, hstate]
      exact ha.saved.state
    refine ⟨_, (newCoreFrom_filesOf hfit cfg rng).trans (newCore_eq hid hM hopen),
      congrArg Prod.fst hsaved, congrArg Prod.snd hsaved, ?_,
      Or.inr (congrArg Snapshot.lastIndex hload)⟩
    intro e he
    rw [← hentries, hempty] at he
    exact absurd he List.not_mem_nil
  intro p hp
  have hfit := hfits p hp
  simp only [rebasePoints, List.mem_cons, List.not_mem_nil, or_false] at hp
  rcases hp with rfl | rfl | rfl
  · exact survives_self hid hM ha hl hfit hentries hsnap
  · exact hboot _ rfl hlog rfl hfit
  · exact hboot _ rfl rfl rfl hfit

theorem not_survives_rebasePoints {a : Core} (ha : Durable M a) (hl : Legible a)
    (hne : a.entries ≠ []) {snap : Snapshot} (hnew : a.snapIndex < snap.lastIndex)
    {keep : List Entry} (hfits : ∀ p ∈ rebasePoints a snap keep, Fits p.disk) :
    ¬ ∀ p ∈ rebasePoints a snap keep, Survives cfg rng c index p := by
  intro hall
  have hmid : { a with disk := persistRaftSnapshot a.disk snap } ∈ rebasePoints a snap keep := by
    simp [rebasePoints]
  obtain ⟨c', hboot, -⟩ := hall _ hmid
  rw [newCoreFrom_filesOf (hfits _ hmid)] at hboot
  obtain ⟨-, -, entries, -, hopen, -⟩ := newCore_cases hboot
  have htrim : intact a.disk.log = a.disk.log := congrArg Disk.log (trimmed_eq hl.disk)
  have hopen' : replayRecords snap.lastIndex (intact a.disk.log) = .ok entries := hopen
  rw [htrim] at hopen'
  rw [replayRecords_of_ne ha.saved.log hne (by omega)] at hopen'
  cases hopen'

theorem entriesAfter_of_nil (h : c.entries = []) (index : Nat) : entriesAfter c index = [] := by
  unfold entriesAfter
  rw [h]

theorem coherentSuffix_of_nil (h : c.entries = []) (snap : Snapshot) :
    coherentSuffix c snap = [] := by
  unfold coherentSuffix
  rw [entriesAfter_of_nil h, ite_self]

theorem compact_survives_iff (hid : cfg.id ≠ 0) (hM : initialMembers cfg = .ok M)
    (h : Durable M c) (hl : Legible c) {index : Nat} {data : Bytes}
    (hfits : ∀ p ∈ compactPoints c index data, Fits p.disk) :
    (∀ p ∈ compactPoints c index data, Survives cfg rng c index p) ↔
      c.entries = [] ∨ index ≤ c.snapIndex ∨ c.lastDelivered < index := by
  unfold compactPoints at hfits ⊢
  split at hfits
  · rename_i hidle
    rw [if_pos hidle]
    refine iff_of_true ?_ (Or.inr hidle)
    intro p hp
    have hfit := hfits p hp
    rw [List.mem_singleton.mp hp] at hfit ⊢
    exact survives_self hid hM h hl hfit rfl rfl
  · rename_i hbusy
    rw [if_neg hbusy]
    have hnew : c.snapIndex < index := Nat.lt_of_not_le (not_or.mp hbusy).1
    constructor
    · intro hall
      by_contra hcon
      exact not_survives_rebasePoints h hl (not_or.mp hcon).1 hnew hfits hall
    · rintro (hempty | hidle)
      · rw [entriesAfter_of_nil hempty] at hfits ⊢
        exact survives_rebasePoints hid hM h hl hempty rfl rfl (snapshotAt c index data) hfits
      · exact absurd hidle hbusy

theorem legible_adoptTerm (h : Legible c) (term : Nat) : Legible (adoptTerm c term) := by
  unfold adoptTerm
  split
  · exact { h with }
  · exact h

theorem install_survives_iff (hid : cfg.id ≠ 0) (hM : initialMembers cfg = .ok M)
    (h : Durable M c) (hl : Legible c) {req : InstallSnapshotRequest}
    (hfits : ∀ p ∈ installPoints c req, Fits p.disk) :
    (∀ p ∈ installPoints c req, Survives cfg rng c req.lastIncludedIndex p) ↔
      c.entries = [] ∨ Refused c req := by
  have ha := durable_adoptTerm h req.term
  have hla := legible_adoptTerm hl req.term
  obtain ⟨hsnap, hcommit, hentries⟩ := cursors_adoptTerm c req.term
  have hstale : req.term < (adoptTerm c req.term).term ↔ req.term < c.term := by
    unfold adoptTerm
    split
    · change req.term < req.term ↔ _
      omega
    · rfl
  have hself : (∀ p ∈ [c, adoptTerm c req.term], Fits p.disk) →
      ∀ p ∈ [c, adoptTerm c req.term], Survives cfg rng c req.lastIncludedIndex p := by
    intro hboth p hp
    have hfit := hboth p hp
    simp only [List.mem_cons, List.not_mem_nil, or_false] at hp
    rcases hp with rfl | rfl
    · exact survives_self hid hM h hl hfit rfl rfl
    · exact survives_self hid hM ha hla hfit hentries hsnap
  unfold installPoints at hfits ⊢
  unfold Refused
  dsimp only at hfits ⊢
  split at hfits
  · rename_i hidle
    rw [if_pos hidle]
    rw [hstale] at hidle
    exact iff_of_true (hself hfits) (Or.inr (by tauto))
  · rename_i hbusy
    rw [if_neg hbusy]
    rw [hstale] at hbusy
    cases hdec : decodeMembers req.config with
    | error err =>
        rw [hdec] at hfits
        exact iff_of_true (hself hfits) (Or.inr (by simp))
    | ok config =>
        rw [hdec] at hfits
        dsimp only at hfits
        have hnew : (adoptTerm c req.term).snapIndex < (receivedSnapshot req config).lastIndex := by
          rw [hsnap]
          exact Nat.lt_of_not_le fun hle => hbusy (Or.inr (Or.inl hle))
        constructor
        · intro hall
          by_contra hcon
          exact not_survives_rebasePoints ha hla (hentries ▸ (not_or.mp hcon).1) hnew
            (fun p hp => hfits p (List.mem_cons_of_mem _ hp))
            fun p hp => hall p (List.mem_cons_of_mem _ hp)
        · rintro (hempty | hidle)
          · have hempty' := hentries.trans hempty
            dsimp only
            rw [coherentSuffix_of_nil hempty'] at hfits ⊢
            intro p hp
            have hfit := hfits p hp
            rcases List.mem_cons.mp hp with rfl | hp
            · exact survives_self hid hM h hl hfit rfl rfl
            · exact survives_rebasePoints hid hM ha hla hempty' hentries hsnap _
                (fun p hp => hfits p (List.mem_cons_of_mem _ hp)) p hp
          · simp only [reduceCtorEq, exists_false, or_false] at hidle
            exact absurd hidle hbusy

/-- A crash inside a compaction or an installation is survived exactly when the call
replaces nothing or the log is empty. -/
theorem crash_survived_iff {d : Disk} {c₀ c : Core} {ops : List Operation}
    (hboot : newCore cfg rng d = .ok c₀) (hops : ∀ op ∈ ops, op.Admitted)
    (hrun : ops.foldlM perform c₀ = .ok c) (rng' : Nat → Nat) :
    (∀ index data, (∀ p ∈ compactPoints c index data, Fits p.disk) →
      ((∀ p ∈ compactPoints c index data, Survives cfg rng' c index p) ↔
        c.entries = [] ∨ index ≤ c.snapIndex ∨ c.lastDelivered < index)) ∧
    ∀ req, (∀ p ∈ installPoints c req, Fits p.disk) →
      ((∀ p ∈ installPoints c req, Survives cfg rng' c req.lastIncludedIndex p) ↔
        c.entries = [] ∨ Refused c req) := by
  obtain ⟨M, hid, hM, hd, hl⟩ := durable_of_run hboot hops hrun
  exact ⟨fun index data => compact_survives_iff hid hM hd hl,
    fun req => install_survives_iff hid hM hd hl⟩

/-- A leader of term 2 sends its snapshot through index 5. -/
def incoming : InstallSnapshotRequest where
  term := 2
  leaderId := 3
  lastIncludedIndex := 5
  lastIncludedTerm := 2
  data := [9]
  config := encodeMembers ((∅ : Members).insert 1 [])

/-- With two entries in the log a compaction that has nothing to do is survived and one
through both is not; once the log is empty an installation that replaces both files is. -/
theorem crash_survived_iff_solo :
    (∃ c₀ c, newCore solo (fun _ => 0) blank = .ok c₀ ∧
      (soloOperations.take 4).foldlM perform c₀ = .ok c ∧ c.entries.length = 2 ∧
      (∀ p ∈ compactPoints c 0 [9], Survives solo (fun _ => 0) c 0 p) ∧
      ¬ ∀ p ∈ compactPoints c 2 [9], Survives solo (fun _ => 0) c 2 p) ∧
    ∃ c₀ c, newCore solo (fun _ => 0) blank = .ok c₀ ∧
      soloOperations.foldlM perform c₀ = .ok c ∧ (installPoints c incoming).length = 4 ∧
      ∀ p ∈ installPoints c incoming, Survives solo (fun _ => 0) c 5 p := by
  refine ⟨?_, ?_⟩
  · obtain ⟨c₀, c, hboot, hrun, hlen, hsnap, hlast, hfits, hfits'⟩ :=
      exists_of_perform solo (soloOperations.take 4) (fun c => c.entries.length = 2 ∧
        c.snapIndex = 0 ∧ c.lastDelivered = 2 ∧ (∀ p ∈ compactPoints c 0 [9], Fits p.disk) ∧
        ∀ p ∈ compactPoints c 2 [9], Fits p.disk) (by decide +kernel)
    have hiff := (crash_survived_iff hboot
      (fun op hop => admitted_soloOperations op (List.mem_of_mem_take hop)) hrun fun _ => 0).1
    refine ⟨c₀, c, hboot, hrun, hlen, (hiff 0 [9] hfits).mpr (Or.inr (Or.inl (Nat.zero_le _))), ?_⟩
    intro hall
    rcases (hiff 2 [9] hfits').mp hall with hnil | hidle
    · rw [hnil] at hlen
      cases hlen
    · omega
  · obtain ⟨c₀, c, hboot, hrun, hnil, hlen, hfits⟩ :=
      exists_of_perform solo soloOperations (fun c => c.entries = [] ∧
        (installPoints c incoming).length = 4 ∧ ∀ p ∈ installPoints c incoming, Fits p.disk)
        (by decide +kernel)
    have hiff := (crash_survived_iff hboot admitted_soloOperations hrun fun _ => 0).2
    exact ⟨c₀, c, hboot, hrun, hlen, (hiff incoming hfits).mpr (Or.inl hnil)⟩

/-- The node leads, has one entry and compacts through it; the process dies when the
snapshot file has been replaced and the log file has not. -/
theorem crash_in_compaction_bricks_node :
    ∃ c₀ c, newCore solo (fun _ => 0) blank = .ok c₀ ∧
      [Operation.event .tick].foldlM perform c₀ = .ok c ∧
      ∃ p ∈ compactPoints c 1 [9],
        newCoreFrom solo (fun _ => 0) (filesOf p.disk) = .error (.logStart 1 1) := by
  refine ⟨_, _, rfl, rfl, _, List.mem_cons_of_mem _ List.mem_cons_self, ?_⟩
  rw [newCoreFrom_filesOf (by decide +kernel)]
  rfl

end CrashPoints

end RaftKV.Safety.Recovery
