import Mathlib.Data.List.TakeWhile
import RaftKV.Raft.Membership

/-!
The three files of a node as the values they hold: term and vote, the records of
the append-only log, and the snapshot. A file is replaced as a whole or appended
to, and a write that returns has happened.
-/

namespace RaftKV.Raft

variable {e : Entry} {entries es log : List Entry} {base k : Nat}

structure Snapshot where
  lastIndex : Nat
  lastTerm : Nat
  config : Members
  data : Bytes

/-- What `loadRaftSnapshot` returns when there is no snapshot file. -/
def noSnapshot : Snapshot where
  lastIndex := 0
  lastTerm := 0
  config := ∅
  data := []

structure Disk where
  state : Option (Nat × ID)
  log : List Entry
  snapshot : Option Snapshot

def blank : Disk where
  state := none
  log := []
  snapshot := none

def saveTermAndVote (d : Disk) (term : Nat) (votedFor : ID) : Disk :=
  { d with state := some (term, votedFor) }

def loadTermAndVote (d : Disk) : Nat × ID :=
  d.state.getD (0, noVote)

def persistRaftSnapshot (d : Disk) (s : Snapshot) : Disk :=
  { d with snapshot := some s }

def loadRaftSnapshot (d : Disk) : Snapshot :=
  d.snapshot.getD noSnapshot

/-- The first place where the indices of a batch are not consecutive: the index
there and the one before it. -/
def firstGap : List Entry → Option (Nat × Nat)
  | e :: f :: rest =>
      if f.index ≠ e.index + 1 then some (f.index, e.index) else firstGap (f :: rest)
  | _ => none

def append (d : Disk) (entries : List Entry) : Except RaftError Disk :=
  match firstGap entries with
  | some (index, prev) => .error (.nonContiguous index prev)
  | none => .ok { d with log := d.log ++ entries }

def rewrite (d : Disk) (entries : List Entry) : Disk :=
  { d with log := entries }

/-- One record of the log file: an index that was there before supersedes
everything from it on. -/
def replayRecord (base : Nat) (entries : List Entry) (e : Entry) :
    Except RaftError (List Entry) :=
  match entries with
  | [] => if e.index ≠ base + 1 then .error (.logStart e.index base) else .ok [e]
  | first :: rest =>
      let last := rest.getLastD first
      if e.index = last.index + 1 then
        .ok (entries ++ [e])
      else if first.index ≤ e.index ∧ e.index ≤ last.index then
        .ok (entries.take (e.index - first.index) ++ [e])
      else
        .error (.logJump last.index e.index)

/-- The loop of `openLog` over the records it reads. -/
def replayRecords (base : Nat) (log : List Entry) : Except RaftError (List Entry) :=
  log.foldlM (replayRecord base) []

/-- The records replay reads: it takes the first one that is too long for a torn tail. -/
def intact (log : List Entry) : List Entry :=
  log.takeWhile fun e => e.command.length ≤ maxCommandLen

/-- What is on disk once the log file was truncated after the last record read. -/
def trimmed (d : Disk) : Disk :=
  { d with log := intact d.log }

def openLog (d : Disk) (base : Nat) : Except RaftError (Disk × List Entry) :=
  (replayRecords base (intact d.log)).map fun entries => (trimmed d, entries)

theorem trimmed_eq {d : Disk} (h : ∀ e ∈ d.log, e.command.length ≤ maxCommandLen) :
    trimmed d = d := by
  have hlog : intact d.log = d.log :=
    List.takeWhile_eq_self_iff.mpr fun e he => decide_eq_true (h e he)
  rw [trimmed, hlog]

theorem mem_of_mem_intact (h : e ∈ intact log) : e ∈ log :=
  (List.takeWhile_prefix _).subset h

theorem length_of_mem_intact (h : e ∈ intact log) :
    e.command.length ≤ maxCommandLen := by
  have hread := List.mem_takeWhile_imp h
  exact of_decide_eq_true hread

theorem openLog_trimmed (d : Disk) (base : Nat) : openLog (trimmed d) base = openLog d base := by
  have htrim : trimmed (trimmed d) = trimmed d := trimmed_eq fun _ he => length_of_mem_intact he
  have hlog : intact (trimmed d).log = intact d.log := congrArg Disk.log htrim
  unfold openLog
  rw [htrim, hlog]

/-- The indices of `entries` are consecutive, from `base + 1` on. -/
def Numbered (base : Nat) (entries : List Entry) : Prop :=
  ∀ (k : Nat) (e : Entry), entries[k]? = some e → e.index = base + k + 1

theorem numbered_nil (base : Nat) : Numbered base [] := by
  intro k e he
  simp at he

theorem numbered_cons :
    Numbered base (e :: entries) ↔ e.index = base + 1 ∧ Numbered (base + 1) entries := by
  constructor
  · intro h
    refine ⟨by simpa using h 0 e rfl, ?_⟩
    intro k f hf
    have := h (k + 1) f hf
    omega
  · rintro ⟨he, h⟩ k f hf
    cases k with
    | zero =>
        obtain rfl : e = f := by simpa using hf
        simpa using he
    | succ k =>
        have := h k f hf
        omega

theorem numbered_append {fs : List Entry} (h : Numbered base es)
    (h' : Numbered (base + es.length) fs) : Numbered base (es ++ fs) := by
  intro k e he
  rcases Nat.lt_or_ge k es.length with hk | hk
  · rw [List.getElem?_append_left hk] at he
    exact h k e he
  · rw [List.getElem?_append_right hk] at he
    have := h' _ e he
    omega

theorem numbered_take (h : Numbered base es) (n : Nat) :
    Numbered base (es.take n) := by
  intro k e he
  rw [List.getElem?_take] at he
  split at he
  · exact h k e he
  · simp at he

theorem numbered_drop (h : Numbered base es) (n : Nat) :
    Numbered (base + n) (es.drop n) := by
  intro k e he
  rw [List.getElem?_drop] at he
  have := h _ e he
  omega

theorem firstGap_eq_none (h : Numbered base es) :
    firstGap es = none := by
  induction es generalizing base with
  | nil => rfl
  | cons e es ih =>
      rw [numbered_cons] at h
      cases es with
      | nil => rfl
      | cons f rest =>
          have hf := (numbered_cons.mp h.2).1
          rw [firstGap, if_neg (by omega)]
          exact ih h.2

theorem append_numbered (d : Disk) (h : Numbered base es) :
    append d es = .ok { d with log := d.log ++ es } := by
  rw [append, firstGap_eq_none h]

theorem index_getLastD {first : Entry} {rest : List Entry}
    (h : Numbered base (first :: rest)) :
    (rest.getLastD first).index = base + rest.length + 1 := by
  refine h rest.length _ ?_
  rw [List.getLastD_eq_getLast?, ← List.getLast?_cons, List.getLast?_eq_getElem?]
  simp

theorem replayRecord_eq
    (h : Numbered base entries) (hk : k ≤ entries.length) (he : e.index = base + k + 1) :
    replayRecord base entries e = .ok (entries.take k ++ [e]) := by
  cases entries with
  | nil =>
      obtain rfl : k = 0 := by simpa using hk
      simp [replayRecord, he]
  | cons first rest =>
      have hfirst := (numbered_cons.mp h).1
      have hlast := index_getLastD h
      rw [List.length_cons] at hk
      rw [replayRecord]
      rcases Nat.lt_or_eq_of_le hk with hlt | rfl
      · rw [if_neg (by omega), if_pos (by omega), he, hfirst,
          show base + k + 1 - (base + 1) = k by omega]
      · rw [if_pos (by omega), List.take_of_length_le (by simp)]

theorem numbered_replayRecord {next : List Entry}
    (h : Numbered base entries) (hstep : replayRecord base entries e = .ok next) :
    Numbered base next := by
  have key : ∃ k ≤ entries.length, e.index = base + k + 1 := by
    cases entries with
    | nil =>
        rw [replayRecord] at hstep
        split at hstep
        · cases hstep
        · exact ⟨0, le_rfl, by omega⟩
    | cons first rest =>
        have hfirst := (numbered_cons.mp h).1
        have hlast := index_getLastD h
        rw [replayRecord] at hstep
        split at hstep
        · exact ⟨rest.length + 1, by simp, by omega⟩
        · split at hstep
          · rename_i hrange
            rw [List.length_cons]
            exact ⟨e.index - base - 1, by omega, by omega⟩
          · cases hstep
  obtain ⟨k, hk, he⟩ := key
  rw [replayRecord_eq h hk he] at hstep
  cases hstep
  refine numbered_append (numbered_take h k) ?_
  rw [numbered_cons, List.length_take, min_eq_left hk]
  exact ⟨he, numbered_nil _⟩

theorem foldlM_replayRecord (h : Numbered base entries)
    (hk : k ≤ entries.length) (hes : Numbered (base + k) es) (hne : es ≠ []) :
    es.foldlM (replayRecord base) entries = .ok (entries.take k ++ es) := by
  induction es generalizing entries k with
  | nil => exact absurd rfl hne
  | cons e es ih =>
      rw [numbered_cons] at hes
      rw [List.foldlM_cons, replayRecord_eq h hk hes.1]
      change es.foldlM (replayRecord base) (entries.take k ++ [e]) = _
      have hlen : (entries.take k ++ [e]).length = k + 1 := by
        simp [hk]
      by_cases hnil : es = []
      · rw [hnil]
        rfl
      · have hnum : Numbered base (entries.take k ++ [e]) := by
          refine numbered_append (numbered_take h k) ?_
          rw [numbered_cons, List.length_take, min_eq_left hk]
          exact ⟨hes.1, numbered_nil _⟩
        rw [ih hnum hlen.ge hes.2 hnil, List.take_of_length_le hlen.le, List.append_assoc,
          List.singleton_append]

/-- Appending a batch to the file supersedes what it overlaps on replay. -/
theorem replayRecords_append
    (hlog : replayRecords base log = .ok entries) (h : Numbered base entries)
    (hk : k ≤ entries.length) (hes : Numbered (base + k) es) (hne : es ≠ []) :
    replayRecords base (log ++ es) = .ok (entries.take k ++ es) := by
  unfold replayRecords at hlog ⊢
  rw [List.foldlM_append, hlog]
  exact foldlM_replayRecord h hk hes hne

theorem replayRecords_numbered (h : Numbered base es) :
    replayRecords base es = .ok es := by
  by_cases hne : es = []
  · rw [hne]
    rfl
  · exact foldlM_replayRecord (numbered_nil base) (Nat.zero_le 0) h hne

theorem mem_of_replay
    (h : replayRecords base log = .ok entries) (he : e ∈ entries) : e ∈ log := by
  have key : ∀ (log es : List Entry), log.foldlM (replayRecord base) es = .ok entries →
      e ∈ es ∨ e ∈ log := by
    intro log
    induction log with
    | nil =>
        intro es h
        cases h
        exact Or.inl he
    | cons f log ih =>
        intro es h
        rw [List.foldlM_cons] at h
        cases hf : replayRecord base es f with
        | error err =>
            rw [hf] at h
            cases h
        | ok es' =>
            rw [hf] at h
            have hes' : ∀ e' ∈ es', e' ∈ es ∨ e' = f := by
              unfold replayRecord at hf
              split at hf
              · split at hf
                · cases hf
                · cases hf
                  exact fun e' he' => Or.inr (List.mem_singleton.mp he')
              · dsimp only at hf
                split at hf
                · cases hf
                  exact fun e' he' => (List.mem_append.mp he').imp_right List.mem_singleton.mp
                · split at hf
                  · cases hf
                    exact fun e' he' => (List.mem_append.mp he').imp List.mem_of_mem_take
                      List.mem_singleton.mp
                  · cases hf
            rcases ih es' h with hold | hnew
            · rcases hes' e hold with hold | rfl
              · exact Or.inl hold
              · exact Or.inr List.mem_cons_self
            · exact Or.inr (List.mem_cons_of_mem _ hnew)
  exact (key log [] h).resolve_left List.not_mem_nil

end RaftKV.Raft
