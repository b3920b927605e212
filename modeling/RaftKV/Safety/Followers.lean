import Mathlib.Data.List.TakeWhile
import RaftKV.Raft.Shapes
import RaftKV.Safety.FixedMembership

namespace RaftKV.Safety.Followers

open Consensus.Prefix Consensus.Completeness Consensus.Commitment
open Distributed.Network
open Raft Raft.Durability Raft.Moves Raft.Cluster
open Raft.Provenance Raft.Shapes
open Refinement.Relation Refinement.Elections Refinement.Following Refinement.Sending
open Refinement.Simulation Refinement.Runs
open Safety.FixedMembership

variable {D : Deployment} {s : CoreState} {i : ID} {ev : Event} {M : Members} {c c' : Core}
variable {req : AppendEntriesRequest}

instance : Decidable (Accepted c req) :=
  inferInstanceAs (Decidable (_ ∨ _))

theorem withinLog_of_regular (hs : Reachable (coreSystem D) s) (hreg : Regular D s) :
    ∀ k ∈ s.trace, withinLog k.pre k.input := by
  intro k hk
  obtain ⟨n, hn⟩ := List.mem_iff_getElem?.mp hk
  obtain ⟨s₀, hmade, htrace⟩ := exists_madeIn hs hn
  obtain ⟨g, hrel⟩ := exists_protocol hmade.reachable
    (hreg.part (htrace ▸ List.take_subset _ _))
  obtain ⟨hnode, -⟩ := hrel.world.live _ _ hmade.up
  unfold withinLog
  split
  · refine decide_eq_true fun hle => hle.trans ?_
    rw [hnode.mirror.lastLogIndex]
    exact hnode.delivered.1
  · rfl

section Cursors

/-- An old request that brings nothing new but a higher commit index, and ends below
the commit index already reached. -/
def rewinding (c : Core) : Event → Bool
  | .appendEntries req => c.term ≤ req.term ∧ Accepted c req ∧ (∀ e ∈ req.entries, held c e) ∧
      c.commitIndex < req.leaderCommit ∧ req.prevLogIndex + req.entries.length < c.commitIndex
  | _ => false

def rewinds (c : Core) : Input → Bool
  | .deliver p => rewinding c (eventOf p)
  | .client ev => rewinding c ev
  | .compact _ _ => false

/-- Commits go forward and are delivered at once. -/
structure Forward (c c' : Core) : Prop where
  commit : c.commitIndex ≤ c'.commitIndex
  delivered : c'.lastDelivered ≤ max c.lastDelivered c'.commitIndex

theorem forward_of_eq (hc : c'.commitIndex = c.commitIndex)
    (hd : c'.lastDelivered = c.lastDelivered) : Forward c c' :=
  ⟨hc.ge, hd ▸ le_max_left _ _⟩

theorem forward_deliverCommitted {n : Nat} (hle : c.commitIndex ≤ n) :
    Forward c (deliverCommitted { c with commitIndex := n }) := by
  have hcommit : (deliverCommitted { c with commitIndex := n }).commitIndex = n :=
    commitIndex_deliverCommitted _
  refine ⟨hcommit.symm ▸ hle, ?_⟩
  rw [hcommit]
  exact lastDelivered_deliverCommitted _

theorem Forward.trans {c'' : Core} (h : Forward c c') (h' : Forward c' c'') : Forward c c'' := by
  have := h.commit
  have := h'.commit
  have := h.delivered
  have := h'.delivered
  exact ⟨by omega, by omega⟩

theorem forward_move (hev : ∀ req, ev ≠ .appendEntries req) (hmove : Move ev c c') :
    Forward c c' := by
  cases hmove with
  | advance n hrole hn => exact forward_deliverCommitted hn.lt.le
  | follow req hreq => exact absurd hreq (hev req)
  | accept req hreq => exact absurd hreq (hev req)
  | install req config hreq hterm hrole hsnap hcommit =>
      refine ⟨le_max_left _ _, ?_⟩
      change max c.lastDelivered _ ≤ max c.lastDelivered (max c.commitIndex _)
      exact max_le_max le_rfl (le_max_right _ _)
  | drift | ask | send | ack | stepDown | recognize | grant | campaign | win | own | fire
  | change | count | note | retry | read =>
      exact forward_of_eq rfl rfl

theorem forward_compact (c : Core) (index : Nat) (data : Bytes) :
    Forward c (compact c index data).1 := by
  rcases compact_cases c index data with heq | ⟨-, -, heq⟩
  · rw [heq]
    exact forward_of_eq rfl rfl
  · rw [heq]
    exact forward_of_eq rfl rfl

theorem accepted_recognized :
    Accepted (recognizeLeader (adoptTerm c req.term) req.leaderId) req ↔ Accepted c req := by
  unfold adoptTerm
  split <;> rfl

theorem held_recognized (e : Entry) :
    held (recognizeLeader (adoptTerm c req.term) req.leaderId) e = held c e := by
  unfold adoptTerm
  split <;> rfl

theorem cursors_recognized :
    (recognizeLeader (adoptTerm c req.term) req.leaderId).commitIndex = c.commitIndex ∧
      (recognizeLeader (adoptTerm c req.term) req.leaderId).lastDelivered = c.lastDelivered := by
  unfold adoptTerm
  split <;> exact ⟨rfl, rfl⟩

theorem cursors_appendNew (c : Core) (entries : List Entry) :
    (appendNew c entries).1.commitIndex = c.commitIndex ∧
      (appendNew c entries).1.lastDelivered = c.lastDelivered := by
  constructor <;> rw [appendNew_eq]

theorem held_of_appendNew (hnum : Numbered req.prevLogIndex req.entries)
    (hnew : appendNew c req.entries = (c', .ok ()))
    (hlt : req.prevLogIndex + req.entries.length < c.commitIndex) :
    ∀ e ∈ req.entries, held c e = true := by
  rw [← List.dropWhile_eq_nil_iff]
  unfold appendNew at hnew
  split at hnew
  · assumption
  · rename_i e rest hfresh
    have hmem : e ∈ req.entries := List.dropWhile_subset _ (hfresh ▸ List.mem_cons_self)
    obtain ⟨k, hk⟩ := List.mem_iff_getElem?.mp hmem
    have hindex := hnum k e hk
    have hlen := (List.getElem?_eq_some_iff.mp hk).1
    rw [truncateAndAppend, if_pos (by omega)] at hnew
    cases hnew

theorem ok_of_held (h : ∀ e ∈ req.entries, held c e = true) :
    appendNew c req.entries = (c, .ok ()) := by
  rw [appendNew, List.dropWhile_eq_nil_iff.mpr h]

theorem handleAppendEntries_rewinds (hnum : Numbered req.prevLogIndex req.entries) :
    ((handleAppendEntries c req).1.commitIndex < c.commitIndex ↔
        rewinding c (.appendEntries req) = true) ∧
      (handleAppendEntries c req).1.lastDelivered ≤
        max c.lastDelivered (handleAppendEntries c req).1.commitIndex := by
  obtain ⟨hcommit, hdel⟩ := @cursors_recognized c req
  have hadopt := adoptTerm_term c req.term
  unfold rewinding
  rw [decide_eq_true_iff]
  rcases handleAppendEntries_cases c req with
    ⟨resp, heq, hlt, -⟩ | ⟨resp, heq, -, hno⟩ | ⟨hterm, hacc, hrest⟩
  · have hc : (adoptTerm c req.term).commitIndex = c.commitIndex := hcommit
    have hd : (adoptTerm c req.term).lastDelivered = c.lastDelivered := hdel
    rw [heq]
    dsimp only
    refine ⟨⟨fun h => by omega, fun h => by omega⟩, ?_⟩
    exact hd ▸ le_max_left _ _
  · rw [heq]
    dsimp only
    refine ⟨⟨fun h => by omega, fun h => absurd (accepted_recognized.mpr h.2.1) hno⟩, ?_⟩
    exact hdel ▸ le_max_left _ _
  · have hheld := fun e => @held_recognized c req e
    have hacc' := accepted_recognized.mp hacc
    generalize recognizeLeader (adoptTerm c req.term) req.leaderId = c₂ at *
    obtain ⟨hc, hd⟩ := cursors_appendNew c₂ req.entries
    rw [hcommit] at hc
    rw [hdel] at hd
    rcases hrest with ⟨c', err, hnew, heq⟩ | ⟨c', resp, hnew, heq, -⟩
    · rw [hnew] at hc hd
      dsimp only at hc hd
      rw [heq]
      dsimp only
      refine ⟨⟨fun h => by omega, fun h => ?_⟩, hd ▸ le_max_left _ _⟩
      rw [ok_of_held fun e he => (hheld e).trans (h.2.2.1 e he)] at hnew
      cases hnew
    · rw [hnew] at hc hd
      dsimp only at hc hd
      rw [heq]
      unfold followCommit
      rw [hc]
      dsimp only
      split
      · rename_i hlt
        generalize hn : min req.leaderCommit (req.prevLogIndex + req.entries.length) = n
        have hto : (deliverCommitted { c' with commitIndex := n }).commitIndex = n :=
          commitIndex_deliverCommitted _
        have hup := lastDelivered_deliverCommitted { c' with commitIndex := n }
        rw [hto]
        refine ⟨⟨fun h => ⟨by omega, hacc', ?_, hlt, by omega⟩, fun h => by omega⟩, hd ▸ hup⟩
        intro e he
        rw [← hheld e]
        exact held_of_appendNew hnum hnew (by omega) e he
      · refine ⟨⟨fun h => by omega, fun h => by omega⟩, ?_⟩
        exact hd ▸ le_max_left _ _

theorem respond_rewinds {x : Input} (hin : FairInput x) :
    ((respond c x).1.commitIndex < c.commitIndex ↔ rewinds c x = true) ∧
      (respond c x).1.lastDelivered ≤ max c.lastDelivered (respond c x).1.commitIndex := by
  have hforward : ∀ c', Forward c c' → (c'.commitIndex < c.commitIndex ↔ false = true) ∧
      c'.lastDelivered ≤ max c.lastDelivered c'.commitIndex := by
    intro c' h
    exact ⟨⟨fun hlt => absurd hlt h.commit.not_gt, fun hf => by cases hf⟩, h.delivered⟩
  have hreact : ∀ ev replies, Fair ev →
      ((react c ev replies).1.commitIndex < c.commitIndex ↔ rewinding c ev = true) ∧
        (react c ev replies).1.lastDelivered ≤
          max c.lastDelivered (react c ev replies).1.commitIndex := by
    intro ev replies hev
    rw [react_fst]
    cases ev with
    | appendEntries req => exact @handleAppendEntries_rewinds (takeQueues c) req hev.1.numbered
    | _ =>
        refine hforward _ (moves_induction (Q := Forward c) (moves_taken _)
          (forward_of_eq rfl rfl) ?_)
        intro a b hmove h
        exact h.trans (forward_move (fun req heq => by cases heq) hmove)
  cases x with
  | deliver p => exact hreact _ _ hin
  | client ev => exact hreact _ _ hin
  | compact index data =>
      have hcompact := forward_compact (takeQueues c) index data
      exact hforward _ ⟨hcompact.commit, hcompact.delivered⟩

theorem fairInput_of_madeIn {k : CoreCall} (hmade : MadeIn (coreSystem D) s k)
    (hlog : ∀ j ∈ s.trace, withinLog j.pre j.input) : FairInput k.input :=
  fairInput_of_enabled (saneState_of_reachable hmade.reachable hlog).net hmade.enabled

/-- With a fixed membership and no command that is lost at a restart, or as long as compactions
stay within the log, a call lowers the commit index exactly if it delivers a request that rewinds.
In a run without such calls the commit index never falls, and everything delivered is
committed. -/
theorem commit_falls_iff_rewinds (hs : Reachable (coreSystem D) s)
    (hrun : Regular D s ∨ ∀ k ∈ s.trace, withinLog k.pre k.input = true) :
    (∀ k ∈ s.trace, k.post.commitIndex < k.pre.commitIndex ↔ rewinds k.pre k.input = true) ∧
      ((∀ k ∈ s.trace, rewinds k.pre k.input = false) → ∀ k ∈ s.trace,
        k.pre.commitIndex ≤ k.post.commitIndex ∧ k.post.lastDelivered ≤ k.post.commitIndex) := by
  have hlog : ∀ k ∈ s.trace, withinLog k.pre k.input = true :=
    hrun.elim (fun hreg => withinLog_of_regular hs hreg) id
  have hcall : ∀ s k, MadeIn (coreSystem D) s k → (∀ j ∈ s.trace, withinLog j.pre j.input) →
      (k.post.commitIndex < k.pre.commitIndex ↔ rewinds k.pre k.input = true) ∧
        k.post.lastDelivered ≤ max k.pre.lastDelivered k.post.commitIndex := by
    intro s k hmade hlog
    rw [hmade.post]
    exact respond_rewinds (fairInput_of_madeIn hmade hlog)
  have hiff : ∀ k ∈ s.trace,
      k.post.commitIndex < k.pre.commitIndex ↔ rewinds k.pre k.input = true := by
    intro k hk
    obtain ⟨n, hn⟩ := List.mem_iff_getElem?.mp hk
    obtain ⟨s₀, hmade, htrace⟩ := exists_madeIn hs hn
    refine (hcall s₀ k hmade ?_).1
    rw [htrace]
    exact fun j hj => hlog j (List.mem_of_mem_take hj)
  refine ⟨hiff, fun hsteady k hk => ?_⟩
  have hle : ∀ k ∈ s.trace, k.pre.commitIndex ≤ k.post.commitIndex := by
    intro k hk
    refine Nat.le_of_not_lt fun hlt => ?_
    have := (hiff k hk).mp hlt
    rw [hsteady k hk] at this
    cases this
  refine ⟨hle k hk, ?_⟩
  refine (recorded_induction
    (G := fun k => withinLog k.pre k.input = true ∧ k.pre.commitIndex ≤ k.post.commitIndex)
    (Q := fun c => c.lastDelivered ≤ c.commitIndex) ?_ ?_ hs
    (fun k hk => ⟨hlog k hk, hle k hk⟩) hk).2
  · intro i rng d c hboot
    obtain ⟨-, M, entries, -, -, rfl⟩ := newCore_cases (newCore_of_boot hboot)
    exact le_rfl
  · intro s₀ k hmade hpast hk hpre
    have hdel := (hcall s₀ k hmade fun j hj => (hpast j hj).1).2
    have := hk.2
    omega

/-- Node 1 leads and commits two entries with node 2, which compacts them away. The
request that brought the first one is still on its way. -/
def outdated : List (Action ID Input (Nat → Nat)) :=
  [.restart 1 fun _ => 0, .restart 2 fun _ => 0, .act 1 (.client .tick), .deliver 0, .deliver 2,
    .deliver 3, .deliver 5, .act 1 (.client (.propose (oneByte 1) .normal)), .deliver 6,
    .deliver 8, .act 1 (.client .tick), .deliver 9, .act 2 (.compact 2 [7])]

theorem commit_falls_iff_rewinds_outdated : ∃ s, Reachable (coreSystem trio) s ∧
    Regular trio s ∧ (∃ k ∈ s.trace, k.pre.commitIndex < k.post.commitIndex) ∧
    ∀ k ∈ s.trace, k.pre.commitIndex ≤ k.post.commitIndex ∧
      k.post.lastDelivered ≤ k.post.commitIndex := by
  obtain ⟨s, hs, hcalm, hbound, hraise, hsteady⟩ :=
    exists_of_run (coreSystem trio) outdated (fun s => Unchanging s ∧ Bounded s ∧
      (∃ k ∈ s.trace, k.pre.commitIndex < k.post.commitIndex) ∧
      ∀ k ∈ s.trace, rewinds k.pre k.input = false) (by decide +kernel)
  have hreg : Regular trio s := ⟨⟨uniform_trio, hcalm⟩, hbound⟩
  exact ⟨s, hs, hreg, hraise, (commit_falls_iff_rewinds hs (Or.inl hreg)).2 hsteady⟩

end Cursors

section Capped

def duo : Deployment :=
  evenly (((∅ : Members).insert 1 []).insert 2 []) true

theorem uniform_duo : duo.Uniform :=
  uniform_evenly ⟨by decide, by decide⟩ true

/-- Node 1 leads, appends a command that fills a request and restarts; it leads again, and
node 2 rejects what it cannot place (packet 7). Node 1 goes back to the start of its log, and
node 2 catches up to four entries, three of them known to be committed. Then the rejection
arrives once more: the leader starts over with a request that is full after two entries and
states that four are committed (packet 14), and node 2 takes it. -/
def rewound : List (Action ID Input (Nat → Nat)) :=
  [.restart 1 fun _ => 0, .restart 2 fun _ => 0, .act 1 (.client .tick), .deliver 0, .deliver 1,
    .act 1 (.client (.propose (zeros maxAppendBytes) .normal)), .crash 1, .restart 1 fun _ => 0,
    .act 1 (.client .tick), .deliver 4, .deliver 5, .deliver 6, .deliver 7, .deliver 8,
    .deliver 9, .deliver 10, .deliver 11, .act 1 (.client (.propose (oneByte 1) .normal)),
    .deliver 12, .deliver 13, .deliver 7, .deliver 14]

/-- A request cut short by its size takes the commit index back. -/
theorem capped_request_lowers_commit : ∃ s, Reachable (coreSystem duo) s ∧
    FixedMembership duo s ∧ (∀ k ∈ s.trace, withinLog k.pre k.input = true) ∧
    ∃ k ∈ s.trace, k.post.commitIndex < k.pre.commitIndex ∧
      k.post.commitIndex < k.post.lastDelivered := by
  obtain ⟨s, hs, hsame, hlog, hfalls⟩ :=
    exists_of_run (coreSystem duo) rewound (fun s => Unchanging s ∧
      (∀ k ∈ s.trace, withinLog k.pre k.input = true) ∧
      ∃ k ∈ s.trace, k.post.commitIndex < k.pre.commitIndex ∧
        k.post.commitIndex < k.post.lastDelivered) (by decide +kernel)
  exact ⟨s, hs, ⟨uniform_duo, hsame⟩, hlog, hfalls⟩

end Capped

section Halting

variable {R : Regime M} {T : Snapshot → List Entry → Prop} {g : Ghost} {src : ID}
variable {l : RaftKV.Consensus.Protocol.Lead ID Entry}

/-- A request of the present from the very beginning of the log, for a node that has
compacted more than the first entry away. -/
def predating (c : Core) : Event → Bool
  | .appendEntries req => req.prevLogIndex = 0 ∧ c.term ≤ req.term ∧ 2 ≤ c.snapIndex
  | _ => false

def predates (c : Core) : Input → Bool
  | .deliver p => predating c (eventOf p)
  | .client ev => predating c ev
  | .compact _ _ => false

theorem held_of_committed (hs : Sound R g) (h : NodeRel R T g i c)
    (hlead : g.lead req.term = some l) (hterm : c.term ≤ req.term) {p : Nat} {e : Entry}
    (hget : l.log[p]? = some e) (hcommit : e.index ≤ c.commitIndex)
    (hsnap : c.snapIndex ≤ e.index) : held c e = true := by
  have hindex := hs.numbered _ l hlead p e hget
  have hpre := committed_prefix_lead hs.inv h.delivered hlead hterm
  have hdel : e.index ≤ c.lastDelivered := hcommit.trans h.commit_le
  have hlen := hdel.trans h.delivered.1
  have hsame : (g.log i)[p]? = some e := by
    have hlt : p < ((g.log i).take c.lastDelivered).length := by
      rw [List.length_take]
      omega
    rw [← hget, ← getElem?_eq_of_isPrefix hpre hlt, List.getElem?_take, if_pos (by omega)]
  unfold held
  rw [decide_eq_true_eq, h.mirror.lastLogIndex, h.mirror.termAt hsnap, hindex, Nat.zero_add, termOf,
    hsame]
  exact ⟨by omega, rfl⟩

theorem predating_of_error (hs : Sound R g) (h : NodeRel R T g i c)
    (hoffer : AppendOffer g src req l) (hterm : c.term ≤ req.term) (hacc : Accepted c req)
    {err : RaftError} (hnew : appendNew c req.entries = (c', .error err)) :
    req.prevLogIndex = 0 ∧ 2 ≤ c.snapIndex := by
  have hwf := wellFormed_of_offer hs hoffer
  have hn := h.mirror.numbered_entries
  unfold appendNew at hnew
  split at hnew
  · cases hnew
  · rename_i e rest hfresh
    obtain ⟨hrest, hstart⟩ := fresh_start hn hwf hacc hfresh
    have hmem : e ∈ req.entries := List.dropWhile_subset _ (hfresh ▸ List.mem_cons_self)
    have hcommit : e.index ≤ c.commitIndex := by
      by_contra hgt
      rw [truncateAndAppend_eq hgt hrest] at hnew
      cases hnew
    have hnot : held c e = false := by
      have := List.head_dropWhile_not (held c) (by rw [hfresh]; simp)
      simpa [hfresh] using this
    have hget : ∃ p : Nat, l.log[p]? = some e := by
      rcases hoffer.content with hseg | hvacuous
      · obtain ⟨k, hk⟩ := List.mem_iff_getElem?.mp hmem
        have hk' := getElem?_of_isPrefix hseg.entries hk
        rw [List.getElem?_drop] at hk'
        exact ⟨_, hk'⟩
      · rw [hvacuous.entries] at hmem
        exact absurd hmem List.not_mem_nil
    obtain ⟨p, hp⟩ := hget
    have hbelow : e.index < c.snapIndex := by
      by_contra hge
      rw [held_of_committed hs h hoffer.lead hterm hp hcommit (Nat.le_of_not_lt hge)] at hnot
      cases hnot
    rcases hstart with ⟨hzero, hone⟩ | ⟨hsnap, -⟩
    · exact ⟨hzero, by omega⟩
    · omega

theorem error_of_predating (hn : Contiguous c) (hcur : Cursors c)
    (hreq : WellFormed req) (hzero : req.prevLogIndex = 0) (hsnap : 2 ≤ c.snapIndex) :
    appendNew c req.entries = (c, .error (.truncateCommitted 1 c.commitIndex)) := by
  have hcommit : 0 < c.commitIndex := hcur.commit_pos (by have := hcur.snap_le; omega)
  cases he : req.entries with
  | nil => exact absurd he (hreq.start hzero)
  | cons e rest =>
      have hindex : e.index = 1 := by
        have := hreq.numbered 0 e (by rw [he]; rfl)
        omega
      have hnot : held c e = false := by
        unfold held
        rw [decide_eq_false_iff_not, hindex, termAt_of_lt hn (by omega)]
        exact fun hheld => hreq.terms e (he ▸ List.mem_cons_self) hheld.2.symm
      unfold appendNew
      rw [List.dropWhile_cons_of_neg (by rw [hnot]; exact Bool.false_ne_true)]
      dsimp only
      rw [truncateAndAppend, hindex, if_pos (by omega)]

theorem no_error {α : Type} (a : α) : ¬ ∃ err, (Except.ok a : Except RaftError α) = .error err := by
  rintro ⟨err, h⟩
  cases h

theorem handleAppendEntries_error_iff (hs : Sound R g) (h : NodeRel R T g i c)
    (hset : Settled M (g.log i) c) (hoffer : AppendOffer g src req l) :
    (∃ err, (handleAppendEntries c req).2 = .error err) ↔
      predating c (.appendEntries req) = true := by
  obtain ⟨g', ha, -, hrel, -⟩ := sim_adoptTerm hs h hset req.term
  obtain ⟨l', hoffer'⟩ := appendOffer_mono ha.grows hoffer
  have hrel' := nodeRel_recognizeLeader hrel req.leaderId
  have hwf := wellFormed_of_offer hs hoffer
  have hadopt := adoptTerm_term c req.term
  have hsnap : (recognizeLeader (adoptTerm c req.term) req.leaderId).snapIndex = c.snapIndex := by
    unfold adoptTerm
    split <;> rfl
  unfold predating
  rw [decide_eq_true_iff, ← hsnap]
  have hterm : (recognizeLeader (adoptTerm c req.term) req.leaderId).term = max c.term req.term :=
    hadopt
  rcases handleAppendEntries_cases c req with
    ⟨resp, heq, hlt, -⟩ | ⟨resp, heq, -, hno⟩ | ⟨hge, hacc, hrest⟩
  · rw [heq]
    refine iff_of_false (no_error resp) fun h => ?_
    omega
  · rw [heq]
    exact iff_of_false (no_error resp) fun h => hno (Or.inl h.1)
  · generalize recognizeLeader (adoptTerm c req.term) req.leaderId = c₂ at *
    have hle : c.term ≤ req.term ∧ c₂.term ≤ req.term := by
      omega
    rcases hrest with ⟨c', err, hnew, heq⟩ | ⟨c', resp, hnew, heq, -⟩
    · rw [heq]
      obtain ⟨hzero, htwo⟩ := predating_of_error ha.sound hrel' hoffer' hle.2 hacc hnew
      exact iff_of_true ⟨err, rfl⟩ ⟨hzero, hle.1, htwo⟩
    · rw [heq]
      refine iff_of_false (no_error resp) fun h => ?_
      rw [error_of_predating hrel'.mirror.numbered_entries hrel'.cursors hwf h.1 h.2.2] at hnew
      cases hnew

theorem handleInstallSnapshot_ok {req : InstallSnapshotRequest} {config : Members}
    (hconfig : decodeMembers req.config = .ok config) :
    ∃ resp, (handleInstallSnapshot c req).2 = .ok resp := by
  unfold handleInstallSnapshot
  dsimp only
  rw [hconfig]
  split
  · exact ⟨_, rfl⟩
  · split <;> exact ⟨_, rfl⟩

theorem error_iff_of_other (c c' : Core) (ha : ∀ req, ev ≠ .appendEntries req)
    (hi : ∀ req, ev ≠ .installSnapshot req) :
    (∃ err, (handle c ev).2 = .error err) ↔ predating c' ev = true := by
  cases ev with
  | appendEntries req => exact absurd rfl (ha req)
  | installSnapshot req => exact absurd rfl (hi req)
  | voteResp sender campaignTerm preVote resp =>
      unfold handle
      dsimp only
      split <;> exact iff_of_false (no_error _) Bool.false_ne_true
  | _ => exact iff_of_false (no_error _) Bool.false_ne_true

theorem react_eq_none_iff {replies : Response → List Packet} :
    (react c ev replies).2 = none ↔ ∃ err, (handle (takeQueues c) ev).2 = .error err := by
  unfold react
  split
  · rename_i c' err heq
    rw [heq]
    exact iff_of_true rfl ⟨err, rfl⟩
  · rename_i c' resp heq
    rw [heq]
    exact iff_of_false (Option.some_ne_none _) (no_error resp)

theorem map_error_iff {α β : Type} (f : α → β) (r : Except RaftError α) :
    (∃ err, r.map f = .error err) ↔ ∃ err, r = .error err := by
  cases r with
  | error err => exact iff_of_true ⟨err, rfl⟩ ⟨err, rfl⟩
  | ok a => exact iff_of_false (no_error (f a)) (no_error a)

theorem deliver_halts_iff {T : Snapshot → List Entry → Prop} {R : Regime D.members}
    (h : ClusterRel R T g s) (hup : s.node i = .up c) {p : Packet} (hp : p ∈ s.net) :
    (∃ err, (handle (takeQueues c) (eventOf p)).2 = .error err) ↔
      predating c (eventOf p) = true := by
  obtain ⟨hnode, hset⟩ := h.world.live i c hup
  have hnode' := nodeRel_takeQueues hnode
  have hset' : Settled D.members (g.log i) (takeQueues c) := settled_congr hset rfl
  obtain ⟨-, -, hok⟩ := h.world.packets p hp
  obtain ⟨src, dest, payload⟩ := p
  cases payload with
  | request msg =>
      cases msg with
      | appendEntries req =>
          obtain ⟨l, hoffer⟩ := hok
          refine (map_error_iff _ _).trans ?_
          exact handleAppendEntries_error_iff h.world.sound hnode' hset' hoffer
      | installSnapshot req =>
          obtain ⟨l, hoffer⟩ := hok
          obtain ⟨resp, hresp⟩ := @handleInstallSnapshot_ok (takeQueues c) req _
            (hoffer.config ▸ decodeMembers_encode hoffer.encodable)
          refine (map_error_iff Response.snapshot _).trans ?_
          change (∃ err, (handleInstallSnapshot (takeQueues c) req).2 = .error err) ↔ _
          rw [hresp]
          exact iff_of_false (no_error resp) Bool.false_ne_true
      | _ => exact error_iff_of_other _ c (fun req h => by cases h) (fun req h => by cases h)
  | _ => exact error_iff_of_other _ c (fun req h => by cases h) (fun req h => by cases h)

/-- Whatever a node is given, a packet of the network or an input of its own, halts it
exactly if it is a request that predates its log. -/
theorem halts_iff_predates (hs : Reachable (coreSystem D) s) (hfix : FixedMembership D s)
    (hbound : Bounded s) (hup : s.node i = .up c) {x : Input} (hx : Enabled (coreSystem D) s i x) :
    (respond c x).2 = none ↔ predates c x = true := by
  obtain ⟨g, hrel⟩ := exists_protocol hs ⟨hfix, hbound⟩
  rcases hx with hlocal | ⟨p, hp, -, rfl⟩
  · cases x with
    | deliver p => cases hlocal
    | compact index data => exact iff_of_false (Option.some_ne_none _) Bool.false_ne_true
    | client ev =>
        refine react_eq_none_iff.trans ?_
        cases ev with
        | appendEntries | installSnapshot => cases hlocal
        | _ => exact error_iff_of_other _ c (fun req h => by cases h) (fun req h => by cases h)
  · exact react_eq_none_iff.trans (deliver_halts_iff hrel hup hp)

def arrival (s : CoreState) (n : Nat) : Input :=
  ((s.net[n]?).map Input.deliver).getD (.client .tick)

theorem enabled_arrival {n : Nat} (h : (s.net[n]?).any fun p => p.dest = i) :
    Enabled (coreSystem D) s i (arrival s n) := by
  unfold arrival
  cases hp : s.net[n]? with
  | none =>
      rw [hp] at h
      cases h
  | some p =>
      rw [hp] at h
      exact Or.inr ⟨p, List.mem_of_getElem? hp, of_decide_eq_true h, rfl⟩

theorem halts_iff_predates_outdated : ∃ s, Reachable (coreSystem trio) s ∧
    FixedMembership trio s ∧ Bounded s ∧ ∃ c, s.node 2 = .up c ∧ predates c (arrival s 9) = false ∧
      (respond c (arrival s 9)).2 ≠ none := by
  obtain ⟨s, hs, hsame, hbound, hdest, c, hc, hpre⟩ :=
    exists_of_run (coreSystem trio) outdated (fun s => Unchanging s ∧ Bounded s ∧
      ((s.net[9]?).any fun p => p.dest = 2) = true ∧
      ∃ c ∈ core? s 2, predates c (arrival s 9) = false) (by decide +kernel)
  have hup := node_of_core? hc
  have hfix : FixedMembership trio s := ⟨uniform_trio, hsame⟩
  refine ⟨s, hs, hfix, hbound, c, hup, hpre, fun hnone => ?_⟩
  rw [halts_iff_predates hs hfix hbound hup (enabled_arrival hdest), hpre] at hnone
  cases hnone

/-- A genuine request, delivered late, halts a node that has compacted its log. -/
theorem late_request_halts_node : ∃ s, Reachable (coreSystem trio) s ∧
    FixedMembership trio s ∧ Bounded s ∧ ∃ p ∈ s.net, ∃ c, s.node p.dest = .up c ∧
      (respond c (.deliver p)).2 = none := by
  obtain ⟨s, hs, hsame, hbound, p, hp, c, hc, hnone⟩ :=
    exists_of_run (coreSystem trio) outdated (fun s => Unchanging s ∧ Bounded s ∧
      ∃ p ∈ s.net, ∃ c ∈ core? s p.dest, (respond c (.deliver p)).2.isNone = true)
      (by decide +kernel)
  exact ⟨s, hs, ⟨uniform_trio, hsame⟩, hbound, p, hp, c, node_of_core? hc,
    Option.isNone_iff_eq_none.mp hnone⟩

end Halting

end RaftKV.Safety.Followers
