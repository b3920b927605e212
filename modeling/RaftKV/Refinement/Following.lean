import RaftKV.Refinement.Elections

namespace RaftKV.Refinement.Following

open Consensus.Prefix Consensus.Protocol Consensus.Completeness Consensus.Preservation
open Consensus.Commitment Consensus.Locality
open Raft Raft.Durability
open Refinement.Relation Refinement.Sending Refinement.Elections

variable {M : Members} {R : Regime M} {T : Snapshot → List Entry → Prop}
variable {g : Ghost} {i : ID} {c c' : Core} {l : Lead ID Entry} {m : Nat}
variable {e : Entry} {rest : List Entry} {k : Nat}

section Matching

variable {L B : List Entry}

theorem termOf_ne_zero (hs : Sound R g) (hL : Matched (scheme M) g L) (hk : 0 < k)
    (hkL : k ≤ L.length) : termOf L k ≠ 0 := by
  obtain ⟨p, rfl⟩ : ∃ p, k = p + 1 := ⟨k - 1, by omega⟩
  have hget : L[p]? = some L[p] := List.getElem?_eq_getElem (by omega)
  rw [termOf, hget]
  exact (term_pos_of_matched hs hL hget).ne'

theorem take_eq_of_termOf (hL : Matched (scheme M) g L) (hB : Matched (scheme M) g B)
    (hkL : k ≤ L.length) (hkB : k ≤ B.length) (ht : termOf L k = termOf B k) :
    L.take k = B.take k := by
  cases k with
  | zero => rfl
  | succ p =>
      have hget : L[p]? = some L[p] := List.getElem?_eq_getElem (by omega)
      have hget' : B[p]? = some B[p] := List.getElem?_eq_getElem (by omega)
      obtain ⟨l, hl, hpre, -⟩ := exists_lead_of_getElem? hL hget
      obtain ⟨l', hl', hpre', -⟩ := exists_lead_of_getElem? hB hget'
      have hterm : L[p].term = B[p].term := by
        rw [termOf, termOf, hget, hget'] at ht
        exact ht
      have hll : l = l' := by
        refine Option.some.inj (hl.symm.trans ?_)
        rw [← hl']
        exact congrArg g.lead hterm
      subst hll
      rw [← take_succ_of_getElem? hget] at hpre
      rw [← take_succ_of_getElem? hget'] at hpre'
      refine (prefix_of_le hpre hpre' ?_).eq_of_length ?_ <;>
        rw [List.length_take, List.length_take, min_eq_left hkL, min_eq_left hkB]

theorem take_prefix_of_termOf (hL : Matched (scheme M) g L) (hB : Matched (scheme M) g B)
    (hkL : k ≤ L.length) (hkB : k ≤ B.length) (ht : termOf L k = termOf B k) :
    B.take k <+: L := by
  rw [← take_eq_of_termOf hL hB hkL hkB ht]
  exact List.take_prefix _ _

end Matching

section Accepting

theorem durable_of_nodeRel (h : NodeRel R T g i c) (hset : Settled M (g.log i) c) :
    Durable M c where
  saved := h.saved
  cursors := h.cursors
  members := by
    rw [hset.members, h.mirror.snapConfig, h.mirror.entries, ← membersAfter_append,
      List.take_append_drop]

theorem advance_accept (hs : Sound R g) (h : NodeRel R T g i c)
    (hlead : g.lead c.term = some l) (hm : m ≤ l.log.length) :
    Advance R i g (g.accept i l m) := by
  have hlead' : g.lead (g.term i) = some l := by
    rwa [h.term]
  exact
    { sound := ⟨inv_accept hs.inv hlead' hm, hs.numbered, hs.allowed⟩
      grows := grows_accept g i l m
      frame := local_accept l m }

theorem delivered_isPrefix (hs : Sound R g) (h : NodeRel R T g i c)
    (hlead : g.lead c.term = some l) (m : Nat) :
    (g.log i).take c.lastDelivered <+: adoptPrefix (g.log i) m l.log :=
  (prefix_adoptPrefix_or_conflict (List.take_prefix _ _) m l.log).resolve_right
    (not_conflict_of_isPrefix (committed_prefix_lead hs.inv h.delivered hlead le_rfl))

theorem take_prefix_of_delivered (hs : Sound R g) (h : NodeRel R T g i c)
    (hlead : g.lead c.term = some l) (hm : m ≤ c.lastDelivered) :
    m ≤ l.log.length ∧ l.log.take m <+: g.log i := by
  have hpre := committed_prefix_lead hs.inv h.delivered hlead le_rfl
  have hlen : ((g.log i).take c.lastDelivered).length = c.lastDelivered := by
    rw [List.length_take, min_eq_left h.delivered.1]
  refine ⟨hm.trans (hlen ▸ hpre.length_le), ?_⟩
  rw [take_prefix_of_le hpre (hlen.symm ▸ hm), List.take_take, min_eq_left hm]
  exact List.take_prefix _ _

/-- The part of a core that a change of the log leaves alone. -/
structure Header where
  cfg : Config
  term : Nat
  votedFor : ID
  role : Role
  preVotes : Option (Finset ID)
  transferTarget : ID
  outbox : List Outbound
  committed : List Entry

def header (c : Core) : Header where
  cfg := c.cfg
  term := c.term
  votedFor := c.votedFor
  role := c.role
  preVotes := c.preVotes
  transferTarget := c.transferTarget
  outbox := c.outbox
  committed := c.committed

theorem nodeRel_accept (h : NodeRel R T g i c) (hrole : c.role = .follower)
    (hadv : Advance R i g (g.accept i l m)) (hh : header c' = header c)
    (hmirror : Mirror M (adoptPrefix (g.log i) m l.log) c') (hsaved : Saved M c')
    (hcursors : Cursors c')
    (hsnap : ∀ snap, c'.disk.snapshot = some snap → Encodable snap.config ∧
      T snap ((adoptPrefix (g.log i) m l.log).take snap.lastIndex))
    (hle : c'.commitIndex ≤ c'.lastDelivered)
    (hdel : Committed g c.term c'.lastDelivered (adoptPrefix (g.log i) m l.log)) :
    NodeRel R T (g.accept i l m) i c' := by
  have hlog := accept_log_self g i l m
  have hg := hadv.grows
  have hterm : c'.term = c.term := congrArg Header.term hh
  have hrole' : c'.role = .follower := (congrArg Header.role hh).trans hrole
  have hpre : c'.preVotes = c.preVotes := congrArg Header.preVotes hh
  have htarget : c'.transferTarget = c.transferTarget := congrArg Header.transferTarget hh
  have hout : c'.outbox = c.outbox := congrArg Header.outbox hh
  have hcom : c'.committed = c.committed := congrArg Header.committed hh
  exact
    { id := (congrArg (Config.id ∘ Header.cfg) hh).trans h.id
      pos := h.pos
      term := h.term.trans hterm.symm
      vote := by
        rw [hterm, show c'.votedFor = c.votedFor from congrArg Header.votedFor hh]
        exact h.vote
      vote_pos := by
        rw [hterm]
        exact h.vote_pos
      mirror := by
        rw [hlog]
        exact hmirror
      saved := hsaved
      cursors := hcursors
      snapshot := by
        rw [hlog]
        exact hsnap
      commit_le := hle
      delivered := by
        rw [hlog, hterm]
        exact committed_mono hg hdel le_rfl (List.take_prefix _ _)
      candidate := fun hr => by
        rw [hrole'] at hr
        cases hr
      leader := fun hr => by
        rw [hrole'] at hr
        cases hr
      preVotes := by
        rw [hpre]
        exact h.preVotes
      transfer := by
        rw [htarget]
        exact h.transfer
      outbox := by
        rw [hout]
        exact outbox_mono hg h.outbox
      committed := by
        rw [hcom]
        exact fun e he => ⟨(h.committed e he).1, chosen_mono hg (h.committed e he).2⟩ }

theorem lastIndex_of_saved (h : Saved M c) {snap : Snapshot}
    (hsnap : c.disk.snapshot = some snap) : snap.lastIndex = c.snapIndex := by
  have := h.snapIndex
  rwa [loadRaftSnapshot, hsnap] at this

theorem nodeRel_relog (hs : Sound R g) (h : NodeRel R T g i c) (hrole : c.role = .follower)
    (hlead : g.lead c.term = some l) (hm : m ≤ l.log.length) (hh : header c' = header c)
    (hmirror : Mirror M (adoptPrefix (g.log i) m l.log) c') (hsaved : Saved M c')
    (hdisk : c'.disk.snapshot = c.disk.snapshot) (hsnap : c'.snapIndex = c.snapIndex)
    (hcommit : c'.commitIndex = c.commitIndex) (hlast : c'.lastDelivered = c.lastDelivered) :
    NodeRel R T (g.accept i l m) i c' := by
  have hpre := delivered_isPrefix hs h hlead m
  refine nodeRel_accept h hrole (advance_accept hs h hlead hm) hh hmirror hsaved
    (cursors_of_eq h.cursors hsnap hlast hcommit) ?_ ?_ ?_
  · intro snap hsome
    rw [hdisk] at hsome
    obtain ⟨henc, htaken⟩ := h.snapshot snap hsome
    refine ⟨henc, ?_⟩
    have hle : snap.lastIndex ≤ c.lastDelivered := by
      rw [lastIndex_of_saved h.saved hsome]
      exact h.cursors.snap_le
    have hlen : ((g.log i).take c.lastDelivered).length = c.lastDelivered := by
      rw [List.length_take, min_eq_left h.delivered.1]
    rwa [take_prefix_of_le hpre (by rw [hlen]; exact hle), List.take_take, min_eq_left hle]
  · rw [hcommit, hlast]
    exact h.commit_le
  · rw [hlast]
    exact committed_congr h.delivered hpre

theorem nodeRel_accept_same (hs : Sound R g) (h : NodeRel R T g i c) (hrole : c.role = .follower)
    (hset : Settled M (g.log i) c) (hlead : g.lead c.term = some l) (hm : m ≤ l.log.length)
    (hpre : l.log.take m <+: g.log i) :
    NodeRel R T (g.accept i l m) i c ∧ Settled M ((g.accept i l m).log i) c := by
  have hsame : adoptPrefix (g.log i) m l.log = g.log i := if_pos hpre
  refine ⟨nodeRel_relog hs h hrole hlead hm rfl ?_ h.saved rfl rfl rfl rfl, ?_⟩
  · rw [hsame]
    exact h.mirror
  · rw [accept_log_self, hsame]
    exact hset

theorem le_acc_accept (h : NodeRel R T g i c) (l : Lead ID Entry) (m : Nat) :
    m ≤ (g.accept i l m).acc i c.term := by
  rw [← h.term, accept_acc_self]
  exact le_max_right _ _

theorem lastConfig_recalc {L : List Entry} (hm : Mirror M L c) :
    ∀ (k : Nat) (e : Entry), L[k]? = some e → (changeOf e).isSome = true →
      k + 1 ≤ max c.snapIndex (recalcConfig c).lastConfigIndex := by
  intro k e he hconf
  rcases Nat.lt_or_ge k c.snapIndex with hk | hk
  · exact le_max_of_le_left hk
  · have hmem : e ∈ c.entries := by
      rw [hm.entries]
      refine List.mem_of_getElem? (i := k - c.snapIndex) ?_
      rw [List.getElem?_drop, Nat.add_sub_cancel' hk]
      exact he
    have hindex := hm.numbered k e he
    have := (@lastChange_ge _ 0 _ hm.numbered_entries).2 e hmem hconf
    change e.index ≤ (recalcConfig c).lastConfigIndex at this
    omega

end Accepting

section Appending

variable {src : ID} {req : AppendEntriesRequest}

theorem entries_eq (h : Segment l.log req) :
    req.entries = (l.log.drop req.prevLogIndex).take req.entries.length :=
  List.prefix_iff_eq_take.mp h.entries

theorem wellFormed_of_offer (hs : Sound R g) (h : AppendOffer g src req l) : WellFormed req := by
  have hmatched := (hs.inv.lead _ l h.lead).matched
  rcases h.content with hseg | hvacuous
  · refine ⟨?_, hseg.start, ?_, ?_⟩
    · rw [entries_eq hseg]
      have := numbered_drop (hs.numbered _ l h.lead) req.prevLogIndex
      rw [Nat.zero_add] at this
      exact numbered_take this _
    · intro hzero hpos
      rw [hseg.prevTerm] at hzero
      exact absurd hzero (termOf_ne_zero hs hmatched hpos hseg.le)
    · intro e he
      obtain ⟨k, hk⟩ := List.mem_iff_getElem?.mp he
      have hget := getElem?_of_isPrefix hseg.entries hk
      rw [List.getElem?_drop] at hget
      exact (term_pos_of_matched hs hmatched hget).ne'
  · have hpos := hvacuous.pos
    have hnil := hvacuous.entries
    refine ⟨?_, fun hzero => by omega, fun _ _ => hnil, ?_⟩
    · rw [hnil]
      exact numbered_nil _
    · rw [hnil]
      exact fun e he => absurd he List.not_mem_nil

theorem take_segment (h : Segment l.log req) {es : List Entry} (hes : es <+: req.entries) :
    l.log.take (req.prevLogIndex + es.length) = l.log.take req.prevLogIndex ++ es := by
  rw [List.take_add, ← List.prefix_iff_eq_take.mp (hes.trans h.entries)]

/-- The log check: a request that passes it agrees with the log in front of its entries. -/
theorem take_prefix_of_accepted (hs : Sound R g) (h : NodeRel R T g i c)
    (hlead : g.lead req.term = some l) (hseg : Segment l.log req) (hacc : Accepted c req) :
    l.log.take req.prevLogIndex <+: g.log i := by
  have hmatched := (hs.inv.lead _ l hlead).matched
  by_cases hzero : req.prevLogIndex = 0
  · rw [hzero]
    exact List.nil_prefix
  · obtain ⟨hle, hterm⟩ := hacc.resolve_left hzero
    have hne := termOf_ne_zero hs hmatched (Nat.pos_of_ne_zero hzero) hseg.le
    rw [hseg.prevTerm] at hterm
    have hsnap : c.snapIndex ≤ req.prevLogIndex :=
      snapIndex_le_of_termAt h.mirror.numbered_entries (hterm ▸ hne)
    rw [h.mirror.lastLogIndex] at hle
    rw [h.mirror.termAt hsnap] at hterm
    exact take_prefix_of_termOf (hs.inv.log_matched i) hmatched hle hseg.le hterm

theorem take_prefix_of_held (hs : Sound R g) (h : NodeRel R T g i c)
    (hoffer : AppendOffer g src req l) (hseg : Segment l.log req) (hacc : Accepted c req)
    {es : List Entry} (hes : es <+: req.entries) (hheld : ∀ e ∈ es, held c e = true) :
    l.log.take (req.prevLogIndex + es.length) <+: g.log i := by
  have hmatched := (hs.inv.lead _ l hoffer.lead).matched
  rcases List.eq_nil_or_concat es with rfl | ⟨fs, f, rfl⟩
  · exact take_prefix_of_accepted hs h hoffer.lead hseg hacc
  · rw [List.concat_eq_append] at hes hheld ⊢
    have hget : l.log[req.prevLogIndex + fs.length]? = some f := by
      have := getElem?_of_isPrefix (hes.trans hseg.entries) (show (fs ++ [f])[fs.length]? = some f
        by simp)
      rwa [List.getElem?_drop] at this
    have hindex : f.index = req.prevLogIndex + fs.length + 1 := by
      have := hs.numbered _ l hoffer.lead _ f hget
      omega
    have hf := hheld f (by simp)
    rw [held, decide_eq_true_eq, hindex, h.mirror.lastLogIndex] at hf
    have hpos := (term_pos_of_matched hs hmatched hget).ne'
    have hsnap : c.snapIndex ≤ req.prevLogIndex + fs.length + 1 :=
      snapIndex_le_of_termAt h.mirror.numbered_entries (hf.2 ▸ hpos)
    have hlen := (List.getElem?_eq_some_iff.mp hget).1
    rw [List.length_append, List.length_singleton, ← Nat.add_assoc]
    refine take_prefix_of_termOf (hs.inv.log_matched i) hmatched hf.1 hlen ?_
    rw [← h.mirror.termAt hsnap, hf.2, termOf, hget]
    rfl

/-- A vacuous request passes only below the snapshot, where everything is committed. -/
theorem take_prefix_of_vacuous (hs : Sound R g) (h : NodeRel R T g i c)
    (hlead : g.lead c.term = some l) (hvacuous : Vacuous req) (hacc : Accepted c req) :
    req.prevLogIndex ≤ l.log.length ∧ l.log.take req.prevLogIndex <+: g.log i := by
  have hpos := hvacuous.pos
  obtain ⟨hle, hterm⟩ := hacc.resolve_left hpos.ne'
  rw [h.mirror.lastLogIndex] at hle
  have hlt : req.prevLogIndex < c.snapIndex := by
    by_contra hge
    rw [h.mirror.termAt (Nat.le_of_not_lt hge), hvacuous.prevTerm] at hterm
    exact termOf_ne_zero hs (hs.inv.log_matched i) hpos hle hterm
  have hdel : req.prevLogIndex ≤ c.lastDelivered := hlt.le.trans h.cursors.snap_le
  exact take_prefix_of_delivered hs h hlead hdel

theorem mirror_splice (h : NodeRel R T g i c)
    {d : Disk} (hk : e.index = k + 1) (hkl : k ≤ l.log.length)
    (hpre : l.log.take k <+: g.log i) (hsnap : c.snapIndex ≤ k)
    (hnum : Numbered 0 l.log) (hm : l.log.take m = l.log.take k ++ e :: rest) :
    Mirror M (l.log.take m) (splice c d e rest) := by
  have hklen : (l.log.take k).length = k := by
    rw [List.length_take, min_eq_left hkl]
  have hbase : l.log.take k <+: l.log.take m := by
    rw [hm]
    exact List.prefix_append _ _
  have hagree : (g.log i).take k = l.log.take k := by
    rw [take_prefix_of_le hpre hklen.ge, List.take_take, min_self]
  have hsnap' : c.snapIndex ≤ (l.log.take k).length := by
    rwa [hklen]
  exact
    { numbered := numbered_take hnum m
      snap_le := hsnap'.trans hbase.length_le
      entries := by
        change retained c e.index ++ e :: rest = (l.log.take m).drop c.snapIndex
        rw [retained_eq h.mirror.numbered_entries (by omega), h.mirror.entries, hm,
          List.drop_append_of_le_length hsnap', ← hagree, List.drop_take]
        congr 2
        omega
      snapTerm := by
        change c.snapTerm = termOf (l.log.take m) c.snapIndex
        rw [← termOf_of_isPrefix hbase hsnap', termOf_of_isPrefix hpre hsnap', h.mirror.snapTerm]
      snapConfig := by
        change c.snapConfig = membersAfter M ((l.log.take m).take c.snapIndex)
        rw [take_prefix_of_le hbase hsnap', ← take_prefix_of_le hpre hsnap', h.mirror.snapConfig] }

theorem lastConfig_noted (hset : Settled M (g.log i) c)
    (hkl : k ≤ l.log.length) (hpre : l.log.take k <+: g.log i)
    (hrest : Numbered k (e :: rest)) (hm : l.log.take m = l.log.take k ++ e :: rest) :
    ∀ (q : Nat) (a : Entry), (l.log.take m)[q]? = some a → (changeOf a).isSome = true →
      q + 1 ≤ max c.snapIndex (lastChange c.lastConfigIndex (e :: rest)) := by
  have hklen : (l.log.take k).length = k := by
    rw [List.length_take, min_eq_left hkl]
  obtain ⟨hold, hnew⟩ := @lastChange_ge _ c.lastConfigIndex _ hrest
  intro q a ha hconf
  rw [hm] at ha
  rcases Nat.lt_or_ge q k with hq | hq
  · rw [List.getElem?_append_left (by omega)] at ha
    have := hset.lastConfig q a (getElem?_of_isPrefix hpre ha) hconf
    omega
  · rw [List.getElem?_append_right (by omega), hklen] at ha
    have hindex := hrest _ a ha
    have := hnew a (List.mem_of_getElem? ha) hconf
    omega

theorem sim_truncateAndAppend (hs : Sound R g) (h : NodeRel R T g i c)
    (hset : Settled M (g.log i) c) (hrole : c.role = .follower) (hlead : g.lead c.term = some l)
    (hm : m ≤ l.log.length)
    (hcommit : ¬ e.index ≤ c.commitIndex) (hk : e.index = k + 1) (hsnap : c.snapIndex ≤ k)
    (hlast : k ≤ lastLogIndex c) (hrest : Numbered k (e :: rest))
    (hpre : l.log.take k <+: g.log i) (hkl : k ≤ l.log.length)
    (hseg : l.log.take m = l.log.take k ++ e :: rest) (hnew : ¬ l.log.take m <+: g.log i) :
    ∃ c', truncateAndAppend c e rest = (c', .ok ()) ∧ header c' = header c ∧
      NodeRel R T (g.accept i l m) i c' ∧ Settled M ((g.accept i l m).log i) c' := by
  have hdur := durable_of_nodeRel h hset
  have hrest' : Numbered (e.index - 1) (e :: rest) := by
    rwa [hk]
  have hdur' := durable_truncateAndAppend hdur hcommit (by omega) (by omega) hrest'
  have hadopt : adoptPrefix (g.log i) m l.log = l.log.take m := if_neg hnew
  have hmirror : Mirror M (l.log.take m)
      (splice c { c.disk with log := c.disk.log ++ e :: rest } e rest) :=
    mirror_splice h hk hkl hpre hsnap (hs.numbered _ l hlead) hseg
  rw [truncateAndAppend_eq hcommit hrest'] at hdur' ⊢
  refine ⟨_, rfl, ?_⟩
  dsimp only at hdur'
  split
  · rename_i hconf
    rw [if_pos hconf] at hdur'
    have hmirror' : Mirror M (l.log.take m) (recalcConfig
        (splice c { c.disk with log := c.disk.log ++ e :: rest } e rest)) := { hmirror with }
    refine ⟨rfl, ?_, ?_⟩
    · refine nodeRel_relog hs h hrole hlead hm rfl ?_ hdur'.saved rfl rfl rfl rfl
      rw [hadopt]
      exact hmirror'
    · have hlast := lastConfig_recalc hmirror
      rw [accept_log_self, hadopt]
      exact ⟨hmirror'.members hdur'.members, hlast⟩
  · rename_i hplain
    rw [if_neg hplain, noteAppendedConfigs_eq] at hdur'
    rw [noteAppendedConfigs_eq]
    refine ⟨rfl, ?_, ?_⟩
    · refine nodeRel_relog hs h hrole hlead hm rfl ?_ hdur'.saved rfl rfl rfl rfl
      rw [hadopt]
      exact { hmirror with }
    · rw [accept_log_self, hadopt]
      refine ⟨Mirror.members { hmirror with } hdur'.members, ?_⟩
      exact lastConfig_noted hset hkl hpre hrest hseg

/-- An accepted request leaves the follower with the leader's log through its last
entry, unless the handler gives up. -/
theorem sim_appendNew (hs : Sound R g) (h : NodeRel R T g i c) (hset : Settled M (g.log i) c)
    (hrole : c.role = .follower) (hoffer : AppendOffer g src req l) (hterm : req.term = c.term)
    (hacc : Accepted c req) :
    (∃ err, appendNew c req.entries = (c, .error err)) ∨
      ∃ c', appendNew c req.entries = (c', .ok ()) ∧ header c' = header c ∧
        req.prevLogIndex + req.entries.length ≤ l.log.length ∧
        NodeRel R T (g.accept i l (req.prevLogIndex + req.entries.length)) i c' ∧
        Settled M ((g.accept i l (req.prevLogIndex + req.entries.length)).log i) c' := by
  have hlead : g.lead c.term = some l := hterm ▸ hoffer.lead
  have hwf := wellFormed_of_offer hs hoffer
  have hdur := durable_of_nodeRel h hset
  rcases hoffer.content with hseg | hvacuous
  · have hm : req.prevLogIndex + req.entries.length ≤ l.log.length := by
      have := hseg.entries.length_le
      rw [List.length_drop] at this
      have := hseg.le
      omega
    have hsplit := List.takeWhile_append_dropWhile (p := held c) (l := req.entries)
    have hheld : ∀ e ∈ req.entries.takeWhile (held c), held c e = true := fun e he =>
      (List.all_eq_true.mp List.all_takeWhile) e he
    have hpre := take_prefix_of_held hs h hoffer hseg hacc
      (List.takeWhile_prefix (held c)) hheld
    have htake := take_segment hseg (List.takeWhile_prefix (p := held c) (l := req.entries))
    have hall := take_segment hseg (List.prefix_refl req.entries)
    unfold appendNew
    cases hfresh : req.entries.dropWhile (held c) with
    | nil =>
        rw [hfresh, List.append_nil] at hsplit
        rw [hsplit] at hpre
        obtain ⟨hrel, hset'⟩ := nodeRel_accept_same hs h hrole hset hlead hm hpre
        exact Or.inr ⟨c, rfl, rfl, hm, hrel, hset'⟩
    | cons e rest =>
        dsimp only
        by_cases hcommit : e.index ≤ c.commitIndex
        · rw [truncateAndAppend, if_pos hcommit]
          exact Or.inl ⟨_, rfl⟩
        · obtain ⟨hsnap, hlast, hrest⟩ :=
            fresh_index hdur.saved.numbered hdur.cursors hwf hacc hfresh
              (Nat.lt_of_not_le hcommit)
          have hnothead : held c e = false := by
            have := List.head_dropWhile_not (held c) (by rw [hfresh]; simp)
            simpa [hfresh] using this
          generalize req.entries.takeWhile (held c) = pre at hsplit hpre htake
          rw [hfresh] at hsplit
          have hseg' : l.log.take (req.prevLogIndex + req.entries.length) =
              l.log.take (req.prevLogIndex + pre.length) ++ e :: rest := by
            rw [hall, htake, List.append_assoc, hsplit]
          have hkl : req.prevLogIndex + pre.length ≤ l.log.length := by
            have := congrArg List.length hsplit
            rw [List.length_append] at this
            omega
          have hget : l.log[req.prevLogIndex + pre.length]? = some e := by
            refine getElem?_of_isPrefix (List.take_prefix
              (req.prevLogIndex + req.entries.length) l.log) ?_
            rw [hseg', List.getElem?_append_right (by rw [List.length_take]; omega),
              List.length_take, min_eq_left hkl, Nat.sub_self]
            rfl
          have hindex : e.index = req.prevLogIndex + pre.length + 1 := by
            have := hs.numbered _ l hlead _ e hget
            omega
          have hnew : ¬ l.log.take (req.prevLogIndex + req.entries.length) <+: g.log i := by
            intro hfull
            have hL : (g.log i)[req.prevLogIndex + pre.length]? = some e := by
              refine getElem?_of_isPrefix hfull ?_
              rw [List.getElem?_take, if_pos ?_]
              · exact hget
              · have := congrArg List.length hsplit
                rw [List.length_append, List.length_cons] at this
                omega
            have hlen := (List.getElem?_eq_some_iff.mp hL).1
            have hyes : held c e = true := by
              rw [held, decide_eq_true_eq, h.mirror.lastLogIndex, h.mirror.termAt hsnap.le,
                hindex, termOf, hL]
              exact ⟨hlen, rfl⟩
            rw [hnothead] at hyes
            cases hyes
          obtain ⟨c', heq, hh, hrel, hset'⟩ := sim_truncateAndAppend hs h hset hrole hlead hm
            hcommit hindex (by omega) (by omega) (by rwa [hindex] at hrest) hpre hkl hseg' hnew
          exact Or.inr ⟨c', heq, hh, hm, hrel, hset'⟩
  · obtain ⟨hm, hpre⟩ := take_prefix_of_vacuous hs h hlead hvacuous hacc
    rw [hvacuous.entries, List.length_nil, Nat.add_zero]
    obtain ⟨hrel, hset'⟩ := nodeRel_accept_same hs h hrole hset hlead hm hpre
    exact Or.inr ⟨c, rfl, rfl, hm, hrel, hset'⟩

theorem sim_followCommit (h : NodeRel R T g i c) (hset : Settled M (g.log i) c)
    (hrole : c.role = .follower) {leaderCommit lastNew : Nat} (hpos : 0 < lastNew)
    (hc : Committed g c.term (min leaderCommit lastNew) (g.log i)) :
    NodeRel R T g i (followCommit c leaderCommit lastNew) ∧
      Settled M (g.log i) (followCommit c leaderCommit lastNew) := by
  unfold followCommit
  split
  · rename_i hlt
    have hfollow := nodeRel_follower h c.votes
    refine ⟨nodeRel_deliverCommitted hfollow (by omega) hc ?_ fun hr => ?_, ?_⟩
    · rw [hrole]
      exact fun hr => by cases hr
    · rw [hrole] at hr
      cases hr
    · have hset' : Settled M (g.log i) { c with commitIndex := min leaderCommit lastNew } :=
        settled_congr hset rfl
      exact settled_congr hset' (sameLog_deliverCommitted _)
  · exact ⟨h, hset⟩

theorem sim_handleAppendEntries (hs : Sound R g) (h : NodeRel R T g i c)
    (hset : Settled M (g.log i) c) (hoffer : AppendOffer g src req l) :
    ∃ g', Advance R i g g' ∧ NodeRel R T g' i (handleAppendEntries c req).1 ∧
      Settled M (g'.log i) (handleAppendEntries c req).1 ∧
      ∀ resp, (handleAppendEntries c req).2 = .ok resp → resp.success = true →
        req.prevLogIndex + req.entries.length ≤ g'.acc i req.term := by
  obtain ⟨g₁, ha₁, hlog₁, hrel₁, hset₁⟩ := sim_adoptTerm hs h hset req.term
  have hcterm := adoptTerm_term c req.term
  obtain ⟨l₁, hoffer₁⟩ := appendOffer_mono ha₁.grows hoffer
  have hrel₂ := nodeRel_recognizeLeader hrel₁ req.leaderId
  have hset₂ : Settled M (g₁.log i) (recognizeLeader (adoptTerm c req.term) req.leaderId) :=
    settled_congr hset₁ rfl
  rcases handleAppendEntries_cases c req with
    ⟨resp, heq, -, hfail⟩ | ⟨resp, heq, hfail, -⟩ | ⟨hnlt, hacc, hrest⟩
  · rw [heq]
    refine ⟨g₁, ha₁, hrel₁, hset₁, ?_⟩
    intro resp' hresp hsuccess
    rw [← Except.ok.inj hresp, hfail] at hsuccess
    cases hsuccess
  · rw [heq]
    refine ⟨g₁, ha₁, hrel₂, hset₂, ?_⟩
    intro resp' hresp hsuccess
    rw [← Except.ok.inj hresp, hfail] at hsuccess
    cases hsuccess
  · have hterm₂ : req.term = (recognizeLeader (adoptTerm c req.term) req.leaderId).term := by
      change req.term = (adoptTerm c req.term).term
      have := le_max_right c.term req.term
      omega
    have hrole₂ : (recognizeLeader (adoptTerm c req.term) req.leaderId).role = .follower := rfl
    have hnew := sim_appendNew ha₁.sound hrel₂ hset₂ hrole₂ hoffer₁ hterm₂ hacc
    have hlead₂ := hoffer₁.lead
    rw [hterm₂] at hlead₂
    generalize recognizeLeader (adoptTerm c req.term) req.leaderId = c₂ at *
    rcases hrest with ⟨c', err, hcase, heq⟩ | ⟨c', resp, hcase, heq, -⟩
    · rcases hnew with ⟨err', hcase'⟩ | ⟨c'', hcase', -⟩
      · rw [hcase] at hcase'
        rw [heq, congrArg Prod.fst hcase']
        exact ⟨g₁, ha₁, hrel₂, hset₂, fun _ hresp => by cases hresp⟩
      · rw [hcase] at hcase'
        cases hcase'
    · rcases hnew with ⟨err', hcase'⟩ | ⟨c'', hcase', hh, hm, hrel', hset'⟩
      · rw [hcase] at hcase'
        cases hcase'
      · rw [hcase] at hcase'
        obtain rfl : c' = c'' := congrArg Prod.fst hcase'
        have hacc' := le_acc_accept hrel₂ l₁ (req.prevLogIndex + req.entries.length)
        have hadv := advance_accept ha₁.sound hrel₂ hlead₂ hm
        have hterm' : c'.term = req.term := (congrArg Header.term hh).trans hterm₂.symm
        have hwf := wellFormed_of_offer ha₁.sound hoffer₁
        have hpos := hwf.reach_pos
        have hcommit : Committed (g₁.accept i l₁ (req.prevLogIndex + req.entries.length)) c'.term
            (min req.leaderCommit (req.prevLogIndex + req.entries.length))
            ((g₁.accept i l₁ (req.prevLogIndex + req.entries.length)).log i) := by
          rw [hterm', accept_log_self]
          refine committed_mono hadv.grows
            (committed_of_le hoffer₁.commit (min_le_left _ _)) le_rfl ?_
          exact (List.take_prefix_take_left (min_le_right _ _)).trans
            (take_prefix_adoptPrefix _ _ _)
        obtain ⟨hrel'', hset''⟩ := sim_followCommit hrel' hset'
          ((congrArg Header.role hh).trans hrole₂) hpos hcommit
        rw [heq]
        refine ⟨_, ha₁.trans hadv, hrel'', hset'', fun _ _ _ => ?_⟩
        rw [hterm₂]
        exact hacc'

end Appending

section Installing

variable {src : ID} {req : InstallSnapshotRequest}

theorem coherentSuffix_eq (hs : Sound R g) (h : NodeRel R T g i c)
    (hlead : g.lead req.term = some l) (hlen : req.lastIncludedIndex ≤ l.log.length)
    (hterm : req.lastIncludedTerm = termOf l.log req.lastIncludedIndex)
    (hnew : c.snapIndex < req.lastIncludedIndex) :
    coherentSuffix c (offered M l req) =
      (adoptPrefix (g.log i) req.lastIncludedIndex l.log).drop req.lastIncludedIndex := by
  have hmatched := (hs.inv.lead _ l hlead).matched
  have htermAt := h.mirror.termAt hnew.le
  unfold coherentSuffix
  change (if req.lastIncludedIndex ≤ lastLogIndex c ∧
    termAt c req.lastIncludedIndex = req.lastIncludedTerm then
      entriesAfter c req.lastIncludedIndex else []) = _
  rw [h.mirror.lastLogIndex, htermAt, hterm]
  split
  · rename_i hcond
    have hpre : l.log.take req.lastIncludedIndex <+: g.log i :=
      take_prefix_of_termOf (hs.inv.log_matched i) hmatched hcond.1 hlen hcond.2
    rw [adoptPrefix, if_pos hpre, entriesAfter_eq h.mirror.numbered_entries hnew,
      h.mirror.entries, List.drop_drop]
    congr 1
    omega
  · rename_i hcond
    have hnot : ¬ l.log.take req.lastIncludedIndex <+: g.log i := by
      intro hpre
      have hklen : (l.log.take req.lastIncludedIndex).length = req.lastIncludedIndex := by
        rw [List.length_take, min_eq_left hlen]
      refine hcond ⟨hklen ▸ hpre.length_le, ?_⟩
      rw [← termOf_of_isPrefix hpre hklen.ge, termOf_of_isPrefix (List.take_prefix _ _) hklen.ge]
    rw [adoptPrefix, if_neg hnot, List.drop_take, Nat.sub_self, List.take_zero]

theorem mirror_install (hs : Sound R g) (h : NodeRel R T g i c)
    (hoffer : SnapshotOffer M T g src req l) (hnew : c.snapIndex < req.lastIncludedIndex) :
    Mirror M (adoptPrefix (g.log i) req.lastIncludedIndex l.log)
      (install c (offered M l req)) := by
  have hlen := hoffer.commit.1
  have hklen : (l.log.take req.lastIncludedIndex).length = req.lastIncludedIndex := by
    rw [List.length_take, min_eq_left hlen]
  have hpre := take_prefix_adoptPrefix (g.log i) req.lastIncludedIndex l.log
  exact
    { numbered := by
        rcases adoptPrefix_cases (g.log i) req.lastIncludedIndex l.log with heq | heq <;>
          rw [heq]
        · exact h.mirror.numbered
        · exact numbered_take (hs.numbered _ l hoffer.lead) _
      snap_le := hklen.ge.trans hpre.length_le
      entries := coherentSuffix_eq hs h hoffer.lead hlen hoffer.term hnew
      snapTerm := by
        change req.lastIncludedTerm = termOf _ req.lastIncludedIndex
        rw [hoffer.term, ← termOf_of_isPrefix hpre hklen.ge,
          termOf_of_isPrefix (List.take_prefix _ _) hklen.ge]
      snapConfig := by
        change membersAfter M (l.log.take req.lastIncludedIndex) =
          membersAfter M (List.take req.lastIncludedIndex _)
        rw [take_prefix_of_le hpre hklen.ge, List.take_take, min_self] }

theorem sim_install (hs : Sound R g) (h : NodeRel R T g i c) (hset : Settled M (g.log i) c)
    (hrole : c.role = .follower) (hoffer : SnapshotOffer M T g src req l)
    (hterm : req.term = c.term) (hnew : c.snapIndex < req.lastIncludedIndex) :
    NodeRel R T (g.accept i l req.lastIncludedIndex) i (install c (offered M l req)) ∧
      Settled M ((g.accept i l req.lastIncludedIndex).log i)
        (install c (offered M l req)) := by
  have hlead : g.lead c.term = some l := hterm ▸ hoffer.lead
  have hlen := hoffer.commit.1
  have hklen : (l.log.take req.lastIncludedIndex).length = req.lastIncludedIndex := by
    rw [List.length_take, min_eq_left hlen]
  have hpre := take_prefix_adoptPrefix (g.log i) req.lastIncludedIndex l.log
  have hmirror := mirror_install hs h hoffer hnew
  have hdur := durable_install (durable_of_nodeRel h hset) (offered M l req) hnew
  refine ⟨nodeRel_accept h hrole (advance_accept hs h hlead hlen) rfl hmirror hdur.saved
    hdur.cursors ?_ ?_ ?_, ?_⟩
  · intro snap hsnap
    obtain rfl : offered M l req = snap := Option.some.inj hsnap
    refine ⟨hoffer.encodable, ?_⟩
    change T _ (List.take req.lastIncludedIndex _)
    rw [take_prefix_of_le hpre hklen.ge, List.take_take, min_self]
    exact hoffer.taken
  · exact max_le_max_right _ h.commit_le
  · change Committed g c.term (max c.lastDelivered req.lastIncludedIndex) _
    rcases le_total c.lastDelivered req.lastIncludedIndex with hle | hle
    · rw [max_eq_right hle, ← hterm]
      exact committed_congr hoffer.commit hpre
    · rw [max_eq_left hle]
      exact committed_congr h.delivered (delivered_isPrefix hs h hlead _)
  · rw [accept_log_self]
    have hmirror₀ : Mirror M (adoptPrefix (g.log i) req.lastIncludedIndex l.log)
        (rebase c (offered M l req) (coherentSuffix c (offered M l req))) := { hmirror with }
    have hlast := lastConfig_recalc hmirror₀
    exact ⟨hmirror.members hdur.members, hlast⟩

theorem sim_handleInstallSnapshot (hs : Sound R g) (h : NodeRel R T g i c)
    (hset : Settled M (g.log i) c) (hoffer : SnapshotOffer M T g src req l) :
    ∃ g', Advance R i g g' ∧ NodeRel R T g' i (handleInstallSnapshot c req).1 ∧
      Settled M (g'.log i) (handleInstallSnapshot c req).1 ∧
      ∀ resp, (handleInstallSnapshot c req).2 = .ok resp → resp.term ≤ req.term →
        req.lastIncludedIndex ≤ g'.acc i req.term := by
  obtain ⟨g₁, ha₁, hlog₁, hrel₁, hset₁⟩ := sim_adoptTerm hs h hset req.term
  have hcterm := adoptTerm_term c req.term
  obtain ⟨l₁, hoffer₁⟩ := snapshotOffer_mono ha₁.grows hoffer
  have hrel₂ := nodeRel_recognizeLeader hrel₁ req.leaderId
  have hset₂ : Settled M (g₁.log i) (recognizeLeader (adoptTerm c req.term) req.leaderId) :=
    settled_congr hset₁ rfl
  unfold handleInstallSnapshot
  dsimp only
  split
  · rename_i hlt
    refine ⟨g₁, ha₁, hrel₁, hset₁, ?_⟩
    intro resp hresp hle
    rw [← Except.ok.inj hresp] at hle
    exact absurd hlt (Nat.not_lt_of_le hle)
  · rename_i hnlt
    have hterm₂ : req.term = (recognizeLeader (adoptTerm c req.term) req.leaderId).term := by
      change req.term = (adoptTerm c req.term).term
      have := le_max_right c.term req.term
      omega
    have hrole₂ : (recognizeLeader (adoptTerm c req.term) req.leaderId).role = .follower := rfl
    have hlead₂ := hoffer₁.lead
    rw [hterm₂] at hlead₂
    generalize hc₂ : recognizeLeader (adoptTerm c req.term) req.leaderId = c₂ at *
    have hadv := advance_accept ha₁.sound hrel₂ hlead₂ hoffer₁.commit.1
    have hacc : req.lastIncludedIndex ≤
        (g₁.accept i l₁ req.lastIncludedIndex).acc i req.term := by
      rw [hterm₂]
      exact le_acc_accept hrel₂ l₁ _
    split
    · rename_i hstale
      have hdel : req.lastIncludedIndex ≤ c₂.lastDelivered :=
        hstale.elim (fun hle => hle.trans hrel₂.cursors.snap_le)
          (fun hle => hle.trans hrel₂.commit_le)
      obtain ⟨hrel', hset'⟩ := nodeRel_accept_same ha₁.sound hrel₂ hrole₂ hset₂ hlead₂
        hoffer₁.commit.1 (take_prefix_of_delivered ha₁.sound hrel₂ hlead₂ hdel).2
      exact ⟨_, ha₁.trans hadv, hrel', hset', fun _ _ _ => hacc⟩
    · rename_i hfresh
      rw [not_or, Nat.not_le] at hfresh
      rw [hoffer₁.config, decodeMembers_encode hoffer₁.encodable]
      obtain ⟨hrel', hset'⟩ := sim_install ha₁.sound hrel₂ hset₂ hrole₂ hoffer₁ hterm₂ hfresh.1
      exact ⟨_, ha₁.trans hadv, hrel', hset', fun _ _ _ => hacc⟩

end Installing

end RaftKV.Refinement.Following
