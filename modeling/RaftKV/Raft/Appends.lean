import Mathlib.Data.List.TakeWhile
import RaftKV.Raft.Durability

namespace RaftKV.Raft.Appends

open Raft.Durability

variable {c' : Core} {e : Entry} {pre rest : List Entry}

def Holds (c : Core) (e : Entry) : Prop :=
  ∃ f ∈ c.entries, f.index = e.index ∧ f.term = e.term

section Requests

variable {c : Core} {req : AppendEntriesRequest}

theorem holds_iff (h : Contiguous c) {k : Nat} (he : e.index = c.snapIndex + k + 1) :
    Holds c e ↔ ∃ f, c.entries[k]? = some f ∧ f.term = e.term := by
  constructor
  · rintro ⟨f, hf, hindex, hterm⟩
    obtain ⟨j, hj⟩ := List.mem_iff_getElem?.mp hf
    have := h j f hj
    obtain rfl : j = k := by omega
    exact ⟨f, hj, hterm⟩
  · rintro ⟨f, hf, hterm⟩
    exact ⟨f, List.mem_of_getElem? hf, by rw [h k f hf, he], hterm⟩

theorem held_iff (h : Contiguous c) (he : c.snapIndex < e.index) : held c e = true ↔ Holds c e := by
  obtain ⟨k, hk⟩ : ∃ k, e.index = c.snapIndex + k + 1 := ⟨e.index - c.snapIndex - 1, by omega⟩
  rw [holds_iff h hk]
  unfold held
  rw [decide_eq_true_eq, lastLogIndex_eq h, hk, termAt_of_gt h]
  constructor
  · rintro ⟨hle, hterm⟩
    have hget := List.getElem?_eq_getElem (show k < c.entries.length by omega)
    rw [hget] at hterm ⊢
    exact ⟨_, rfl, hterm⟩
  · rintro ⟨f, hf, hterm⟩
    have := (List.getElem?_eq_some_iff.mp hf).1
    rw [hf]
    exact ⟨by omega, hterm⟩

theorem filter_index_lt {base : Nat} {es : List Entry} (h : Numbered base es) (index : Nat) :
    es.filter (fun e => e.index < index) = es.take (index - base - 1) := by
  induction es generalizing base with
  | nil => simp
  | cons e es ih =>
      rw [numbered_cons] at h
      rw [List.filter_cons, ih h.2]
      split
      · rename_i hlt
        rw [decide_eq_true_eq] at hlt
        rw [show index - base - 1 = index - (base + 1) - 1 + 1 by omega, List.take_succ_cons]
      · rename_i hlt
        rw [decide_eq_true_eq] at hlt
        rw [show index - base - 1 = 0 by omega, show index - (base + 1) - 1 = 0 by omega]
        simp

theorem adoptTerm_of_le {term : Nat} (h : term ≤ c.term) : adoptTerm c term = c :=
  if_neg (Nat.not_lt.mpr h)

theorem sameLog_recognizeLeader (c : Core) (leaderId : ID) :
    SameLog c (recognizeLeader c leaderId) :=
  rfl

theorem sameLog_followCommit (c : Core) (leaderCommit lastNew : Nat) :
    SameLog c (followCommit c leaderCommit lastNew) := by
  unfold followCommit
  split
  · exact sameLog_deliverCommitted _
  · rfl

theorem current_cases (hterm : req.term = c.term) :
    (¬ Accepted c req ∧ ∃ resp, handleAppendEntries c req =
      (recognizeLeader c req.leaderId, .ok resp)) ∨
    (Accepted c req ∧
      ((∃ c' err, appendNew (recognizeLeader c req.leaderId) req.entries = (c', .error err) ∧
          handleAppendEntries c req = (c', .error err)) ∨
        ∃ c' resp, appendNew (recognizeLeader c req.leaderId) req.entries = (c', .ok ()) ∧
          handleAppendEntries c req =
            (followCommit c' req.leaderCommit (req.prevLogIndex + req.entries.length),
              .ok resp))) := by
  have hadopt : adoptTerm c req.term = c := adoptTerm_of_le hterm.le
  have hcases := handleAppendEntries_cases c req
  rw [hadopt] at hcases
  rcases hcases with ⟨resp, -, hlt, -⟩ | ⟨resp, heq, -, hacc⟩ | ⟨-, hacc, herr | hok⟩
  · omega
  · exact Or.inl ⟨hacc, resp, heq⟩
  · exact Or.inr ⟨hacc, Or.inl herr⟩
  · obtain ⟨c', resp, hnew, heq, -⟩ := hok
    exact Or.inr ⟨hacc, Or.inr ⟨c', resp, hnew, heq⟩⟩

theorem sameLog_of_rejected (hterm : req.term = c.term) (h : ¬ Accepted c req) :
    SameLog c (handleAppendEntries c req).1 := by
  rcases current_cases hterm with ⟨-, resp, heq⟩ | ⟨hacc, -⟩
  · rw [heq]
    exact sameLog_recognizeLeader c _
  · exact absurd hacc h

theorem sameLog_of_held (hterm : req.term = c.term) (hheld : ∀ e ∈ req.entries, held c e = true) :
    SameLog c (handleAppendEntries c req).1 := by
  have hnew : appendNew (recognizeLeader c req.leaderId) req.entries =
      (recognizeLeader c req.leaderId, .ok ()) := by
    have hnil : req.entries.dropWhile (held (recognizeLeader c req.leaderId)) = [] :=
      List.dropWhile_eq_nil_iff.mpr hheld
    unfold appendNew
    rw [hnil]
  rcases current_cases hterm with
    ⟨-, resp, heq⟩ | ⟨-, ⟨c', err, herr, heq⟩ | ⟨c', resp, hok, heq⟩⟩
  · rw [heq]
    exact sameLog_recognizeLeader c _
  · rw [hnew] at herr
    cases herr
  · rw [hnew] at hok
    cases hok
    rw [heq]
    exact (sameLog_recognizeLeader c _).trans (sameLog_followCommit _ _ _)

/-- The log and the files after a batch that replaces everything from `e` on. -/
structure Replaced (c : Core) (e : Entry) (rest : List Entry) (c' : Core) : Prop where
  term : c'.term = c.term
  snapIndex : c'.snapIndex = c.snapIndex
  snapTerm : c'.snapTerm = c.snapTerm
  entries : c'.entries = c.entries.take (e.index - c.snapIndex - 1) ++ e :: rest
  disk : c'.disk = { c.disk with log := c.disk.log ++ e :: rest }

theorem replaced_truncateAndAppend (h : Contiguous c)
    (hcommit : c.commitIndex < e.index) (hsnap : c.snapIndex < e.index)
    (hrest : Numbered (e.index - 1) (e :: rest)) :
    ∃ c', truncateAndAppend c e rest = (c', .ok ()) ∧ Replaced c e rest c' := by
  refine ⟨_, truncateAndAppend_eq hcommit.not_ge hrest, ?_⟩
  have hentries : (splice c { c.disk with log := c.disk.log ++ e :: rest } e rest).entries =
      c.entries.take (e.index - c.snapIndex - 1) ++ e :: rest := by
    rw [splice, retained_eq h hsnap]
  split
  · exact ⟨rfl, rfl, rfl, hentries, rfl⟩
  · rw [noteAppendedConfigs_eq]
    exact ⟨rfl, rfl, rfl, hentries, rfl⟩

theorem index_gt_of_numbered (hreq : Numbered req.prevLogIndex req.entries)
    (hprev : c.snapIndex ≤ req.prevLogIndex) : ∀ e ∈ req.entries, c.snapIndex < e.index := by
  intro e he
  obtain ⟨k, hk⟩ := List.mem_iff_getElem?.mp he
  have := hreq k e hk
  omega

theorem numbered_of_split (hreq : Numbered req.prevLogIndex req.entries)
    (hsplit : req.entries = pre ++ e :: rest) :
    Numbered (e.index - 1) (e :: rest) := by
  have hindex := hreq pre.length e (by rw [hsplit]; simp)
  have hdrop := numbered_drop hreq pre.length
  rw [hsplit, List.drop_left] at hdrop
  rwa [show e.index - 1 = req.prevLogIndex + pre.length by omega]

theorem dropWhile_held (hsplit : req.entries = pre ++ e :: rest)
    (hpre : ∀ f ∈ pre, held c f = true) (he : ¬ held c e = true) :
    req.entries.dropWhile (held c) = e :: rest := by
  rw [hsplit, List.dropWhile_append_of_pos hpre, List.dropWhile_cons_of_neg he]

theorem truncates_of_committed (hterm : req.term = c.term) (hacc : Accepted c req)
    (hfresh : req.entries.dropWhile (held c) = e :: rest)
    (hcommit : e.index ≤ c.commitIndex) :
    handleAppendEntries c req = (recognizeLeader c req.leaderId,
      .error (.truncateCommitted e.index c.commitIndex)) := by
  have hnew : appendNew (recognizeLeader c req.leaderId) req.entries =
      (recognizeLeader c req.leaderId, .error (.truncateCommitted e.index c.commitIndex)) := by
    have hfresh' : req.entries.dropWhile (held (recognizeLeader c req.leaderId)) = e :: rest :=
      hfresh
    unfold appendNew
    rw [hfresh']
    exact if_pos hcommit
  rcases current_cases hterm with ⟨hrej, -⟩ | ⟨-, ⟨c', err, herr, heq⟩ | ⟨c', resp, hok, -⟩⟩
  · exact absurd hacc hrej
  · rw [hnew] at herr
    cases herr
    exact heq
  · rw [hnew] at hok
    cases hok

theorem replaced_of_fresh (h : Contiguous c) (hterm : req.term = c.term) (hacc : Accepted c req)
    (hfresh : req.entries.dropWhile (held c) = e :: rest) (hcommit : c.commitIndex < e.index)
    (hsnap : c.snapIndex < e.index) (hrest : Numbered (e.index - 1) (e :: rest)) :
    ∃ c' resp, handleAppendEntries c req = (c', .ok resp) ∧ Replaced c e rest c' := by
  obtain ⟨c₁, hnew, hrep⟩ : ∃ c', appendNew (recognizeLeader c req.leaderId) req.entries =
      (c', .ok ()) ∧ Replaced (recognizeLeader c req.leaderId) e rest c' := by
    have hfresh' : req.entries.dropWhile (held (recognizeLeader c req.leaderId)) = e :: rest :=
      hfresh
    unfold appendNew
    rw [hfresh']
    exact replaced_truncateAndAppend (c := recognizeLeader c req.leaderId) h hcommit hsnap hrest
  rcases current_cases hterm with ⟨hrej, -⟩ | ⟨-, ⟨c', err, herr, -⟩ | ⟨c', resp, hok, heq⟩⟩
  · exact absurd hacc hrej
  · rw [hnew] at herr
    cases herr
  · rw [hnew] at hok
    cases hok
    have hsame := sameLog_followCommit c₁ req.leaderCommit
      (req.prevLogIndex + req.entries.length)
    refine ⟨_, resp, heq, ?_⟩
    exact
      { term := hsame.term.trans hrep.term
        snapIndex := hsame.snapIndex.trans hrep.snapIndex
        snapTerm := hsame.snapTerm.trans hrep.snapTerm
        entries := hsame.entries.trans hrep.entries
        disk := hsame.disk.trans hrep.disk }

theorem reach_of_fresh (h : Contiguous c)
    (hreq : Numbered req.prevLogIndex req.entries) (hacc : Accepted c req)
    (hsplit : req.entries = pre ++ e :: rest) (hpre : ∀ f ∈ pre, Holds c f) :
    e.index - c.snapIndex - 1 ≤ c.entries.length := by
  have hlast := lastLogIndex_eq h
  have hindex := hreq pre.length e (by rw [hsplit]; simp)
  cases hget : pre.getLast? with
  | none =>
      rw [List.getLast?_eq_none_iff.mp hget, List.length_nil] at hindex
      rcases hacc with hzero | ⟨hle, -⟩ <;> omega
  | some f =>
      obtain ⟨g, hg, hgf, -⟩ := hpre f (List.mem_of_getLast? hget)
      obtain ⟨j, hj⟩ := List.mem_iff_getElem?.mp hg
      rw [List.getLast?_eq_getElem?] at hget
      have hlen := (List.getElem?_eq_some_iff.mp hget).1
      have hjlen := (List.getElem?_eq_some_iff.mp hj).1
      have := h j g hj
      have := hreq (pre.length - 1) f (by
        rw [hsplit, List.getElem?_append_left hlen]
        exact hget)
      omega

theorem numbered_replaced (h : Contiguous c)
    (hrep : Replaced c e rest c') (hsnap : c.snapIndex < e.index)
    (hreach : e.index - c.snapIndex - 1 ≤ c.entries.length)
    (hrest : Numbered (e.index - 1) (e :: rest)) : Contiguous c' := by
  rw [Contiguous, hrep.snapIndex, hrep.entries]
  refine numbered_append (numbered_take h _) ?_
  rwa [List.length_take, min_eq_left hreach,
    show c.snapIndex + (e.index - c.snapIndex - 1) = e.index - 1 by omega]

theorem holds_replaced (h : Contiguous c)
    (hrep : Replaced c e rest c') (hreq : Numbered req.prevLogIndex req.entries)
    (hsplit : req.entries = pre ++ e :: rest) (hpre : ∀ f ∈ pre, Holds c f) :
    ∀ f ∈ req.entries, Holds c' f := by
  intro f hf
  rw [hsplit, List.mem_append] at hf
  have hentries := hrep.entries
  rw [← filter_index_lt h] at hentries
  rcases hf with hf | hf
  · obtain ⟨g, hg, hindex, hterm⟩ := hpre f hf
    refine ⟨g, ?_, hindex, hterm⟩
    obtain ⟨k, hk⟩ := List.mem_iff_getElem?.mp hf
    have hlen := (List.getElem?_eq_some_iff.mp hk).1
    have hfi := hreq k f (by rw [hsplit, List.getElem?_append_left hlen]; exact hk)
    have hei := hreq pre.length e (by rw [hsplit]; simp)
    rw [hentries, List.mem_append, List.mem_filter]
    exact Or.inl ⟨hg, by rw [decide_eq_true_eq]; omega⟩
  · refine ⟨f, ?_, rfl, rfl⟩
    rw [hentries]
    exact List.mem_append_right _ hf

theorem sameLog_repeat (h : Contiguous c) (hterm : req.term = c.term)
    (hreq : Numbered req.prevLogIndex req.entries) (hprev : c.snapIndex ≤ req.prevLogIndex)
    {resp : AppendEntriesResponse} (hok : handleAppendEntries c req = (c', .ok resp)) :
    SameLog c' (handleAppendEntries c' req).1 := by
  have habove := index_gt_of_numbered hreq hprev
  by_cases hacc : Accepted c req
  · cases hfresh : req.entries.dropWhile (held c) with
    | nil =>
        have hheld : ∀ e ∈ req.entries, held c e = true := List.dropWhile_eq_nil_iff.mp hfresh
        have hsame := sameLog_of_held hterm hheld
        rw [hok] at hsame
        refine sameLog_of_held (hterm.trans hsame.term.symm) fun e he => ?_
        have hnum' : Contiguous c' := by
          rw [Contiguous, hsame.snapIndex, hsame.entries]
          exact h
        rw [held_iff hnum' (by rw [hsame.snapIndex]; exact habove e he), Holds, hsame.entries]
        exact (held_iff h (habove e he)).mp (hheld e he)
    | cons e rest =>
        have hsplit := List.takeWhile_append_dropWhile (p := held c) (l := req.entries)
        rw [hfresh] at hsplit
        have hpre : ∀ f ∈ req.entries.takeWhile (held c), Holds c f := fun f hf =>
          (held_iff h (habove f (List.takeWhile_subset _ hf))).mp
            ((List.all_eq_true.mp List.all_takeWhile) f hf)
        generalize req.entries.takeWhile (held c) = pre at hsplit hpre
        have hsnap := habove e (by rw [← hsplit]; simp)
        have hrest := numbered_of_split hreq hsplit.symm
        have hcommit : c.commitIndex < e.index := by
          by_contra hle
          rw [truncates_of_committed hterm hacc hfresh (Nat.le_of_not_lt hle)] at hok
          cases hok
        obtain ⟨c₁, resp₁, heq, hrep⟩ := replaced_of_fresh h hterm hacc hfresh hcommit hsnap hrest
        rw [hok] at heq
        cases heq
        have hnum' := numbered_replaced h hrep hsnap
          (reach_of_fresh h hreq hacc hsplit.symm hpre) hrest
        refine sameLog_of_held (hterm.trans hrep.term.symm) fun f hf => ?_
        rw [held_iff hnum' (by rw [hrep.snapIndex]; exact habove f hf)]
        exact holds_replaced h hrep hreq hsplit.symm hpre f hf
  · have hsame := sameLog_of_rejected hterm hacc
    rw [hok] at hsame
    refine sameLog_of_rejected (hterm.trans hsame.term.symm) ?_
    unfold Accepted
    rw [lastLogIndex_congr hsame.entries hsame.snapIndex,
      termAt_congr hsame.entries hsame.snapIndex hsame.snapTerm]
    exact hacc

/-- **Appends touch the log from the first missing entry on.** A request that fails the
check of the entry before it, or whose entries the log holds, leaves the log alone. Any
other replaces the log from its first new entry on, unless that entry is committed. -/
theorem append_replaces_from_first_new (hlog : Numbered c.snapIndex c.entries)
    (hterm : req.term = c.term) (hreq : Numbered req.prevLogIndex req.entries)
    (hprev : c.snapIndex ≤ req.prevLogIndex) :
    (¬ Accepted c req → (handleAppendEntries c req).1.entries = c.entries) ∧
    ((∀ e ∈ req.entries, Holds c e) → (handleAppendEntries c req).1.entries = c.entries) ∧
    (∀ pre e rest, Accepted c req → req.entries = pre ++ e :: rest →
      (∀ f ∈ pre, Holds c f) → ¬ Holds c e →
      (c.commitIndex < e.index →
        (∃ resp, (handleAppendEntries c req).2 = .ok resp) ∧
        (handleAppendEntries c req).1.entries =
          c.entries.filter (fun f => f.index < e.index) ++ e :: rest) ∧
      (e.index ≤ c.commitIndex →
        (∃ err, (handleAppendEntries c req).2 = .error err) ∧
        (handleAppendEntries c req).1.entries = c.entries ∧
        (handleAppendEntries c req).1.disk = c.disk)) ∧
    ∀ c' resp, handleAppendEntries c req = (c', .ok resp) →
      (handleAppendEntries c' req).1.entries = c'.entries ∧
      (handleAppendEntries c' req).1.disk = c'.disk := by
  have habove := index_gt_of_numbered hreq hprev
  refine ⟨fun hacc => (sameLog_of_rejected hterm hacc).entries, fun hheld => ?_, ?_, ?_⟩
  · exact (sameLog_of_held hterm fun e he =>
      (held_iff hlog (habove e he)).mpr (hheld e he)).entries
  · intro pre e rest hacc hsplit hpre he
    have hmem : ∀ f ∈ pre, f ∈ req.entries := fun f hf => by
      rw [hsplit]
      exact List.mem_append_left _ hf
    have hsnap := habove e (by rw [hsplit]; simp)
    have hfresh := dropWhile_held hsplit
      (fun f hf => (held_iff hlog (habove f (hmem f hf))).mpr (hpre f hf))
      (fun h => he ((held_iff hlog hsnap).mp h))
    refine ⟨fun hcommit => ?_, fun hcommit => ?_⟩
    · obtain ⟨c', resp, heq, hrep⟩ := replaced_of_fresh hlog hterm hacc hfresh hcommit hsnap
        (numbered_of_split hreq hsplit)
      rw [heq, filter_index_lt hlog]
      exact ⟨⟨resp, rfl⟩, hrep.entries⟩
    · rw [truncates_of_committed hterm hacc hfresh hcommit]
      exact ⟨⟨_, rfl⟩, rfl, rfl⟩
  · intro c' resp hok
    have hsame := sameLog_repeat hlog hterm hreq hprev hok
    exact ⟨hsame.entries, hsame.disk⟩

end Requests

/-- A follower in term 2 that holds two entries of term 1. -/
def lagging : Core :=
  bootCore
    { id := 1
      peerIDs := [2]
      members := none
      electionTicksMin := 10
      electionTicksMax := 20
      heartbeatTicks := 1
      disablePreVote := false }
    (fun _ => 0)
    { state := some (2, 0)
      log := [⟨1, 1, .noop, noBytes⟩, ⟨1, 2, .normal, oneByte 5⟩]
      snapshot := none }
    ((∅ : Members).insert 1 [] |>.insert 2 [])
    [⟨1, 1, .noop, noBytes⟩, ⟨1, 2, .normal, oneByte 5⟩]

def replacing : AppendEntriesRequest where
  term := 2
  leaderId := 2
  prevLogIndex := 1
  prevLogTerm := 1
  entries := [⟨2, 2, .noop, noBytes⟩]
  leaderCommit := 0
  seq := 1

theorem append_replaces_from_first_new_lagging :
    (handleAppendEntries lagging replacing).1.entries =
      [⟨1, 1, .noop, noBytes⟩, ⟨2, 2, .noop, noBytes⟩] := by
  have hlog : Numbered lagging.snapIndex lagging.entries := by
    change Numbered 0 [_, _]
    rw [numbered_cons, numbered_cons]
    exact ⟨rfl, rfl, numbered_nil _⟩
  have hreq : Numbered replacing.prevLogIndex replacing.entries :=
    numbered_cons.mpr ⟨rfl, numbered_nil _⟩
  have hnew : ¬ Holds lagging ⟨2, 2, .noop, noBytes⟩ := by
    rw [holds_iff hlog (k := 1) rfl]
    rintro ⟨f, hf, hterm⟩
    cases hf
    cases hterm
  have h := append_replaces_from_first_new hlog rfl hreq (by decide)
  exact ((h.2.2.1 [] _ [] (Or.inr ⟨by decide, by decide⟩) rfl (by simp) hnew).1 (by decide)).2

end RaftKV.Raft.Appends
