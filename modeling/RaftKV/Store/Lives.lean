import RaftKV.Store.Layout
import RaftKV.Store.Operations

namespace RaftKV.Store.Lives

open Codec.Record
open Files.Directories Files.Programs
open Raft (Bytes)
open Store.Commands Store.Segments Store.Snapshots Store.Durable Store.Operations Store.Layout

/-- The calls on a store that can change it. -/
inductive Operation
  | put (key value : Bytes)
  | delete (key : Bytes)
  | snapshot
  | close
  deriving DecidableEq

def commandOf : Operation → Option Command
  | .put key value => some ⟨.put, key, value⟩
  | .delete key => some ⟨.delete, key, []⟩
  | .snapshot => none
  | .close => none

/-- A call, and whether it returned without an error. -/
def perform (s : DurableStore) (order : Order) : Operation → Prog Dir (DurableStore × Bool)
  | .put key value => s.put key value order >>= fun r => .ret (r.1, r.2.isOk)
  | .delete key => s.delete key order >>= fun r => .ret (r.1, r.2.isOk)
  | .snapshot => s.snapshot order >>= fun r => .ret (r.1, r.2.isOk)
  | .close => .ret (s.close.1, s.close.2.isOk)

/-- A walk over a map visits each row once. -/
def Lawful (order : Order) : Prop :=
  ∀ mem, (order mem).Perm mem.toList

def record (s : DurableStore) (cmd : Command) : Bytes :=
  frame [] (payload (s.seq + 1) (encodeCommand [] cmd))

def dump (s : DurableStore) (order : Order) : Bytes :=
  encodeSnapshot s.seq (order s.mem)

/-- The lengths of keys and values fit the fields of a snapshot. -/
def Short (mem : MemStore) : Prop :=
  ∀ key value : Bytes, mem[key]? = some value → key.length < 2 ^ 32 ∧ value.length < 2 ^ 32

theorem readSnapshot_short {s : DurableStore} {order : Order} (horder : Lawful order)
    (hseq : s.seq < 2 ^ 64) (hsize : s.mem.size < 2 ^ 64) (h : Short s.mem) :
    readSnapshot (dump s order) = .ok (s.mem, s.seq) := by
  have hperm := horder s.mem
  refine readSnapshot_encode hperm hseq ?_ fun row hrow => ?_
  · rw [hperm.length_eq, Std.ExtTreeMap.length_toList]
    exact hsize
  · exact h row.1 row.2 (Std.ExtTreeMap.mem_toList_iff_getElem?_eq_some.mp (hperm.subset hrow))

/-- The store refuses all writes from now on. -/
def refused (s : DurableStore) : DurableStore :=
  { s with wal := { s.wal with failed := true } }

/-- What a call comes to, with `faults` also when system calls fail for no reason of their
own. -/
inductive Outcome (faults : Prop) (s : DurableStore) (order : Order) (d : Volume Dir) :
    Operation → DurableStore × Bool → Volume Dir → Prop
  | absent {key : Bytes} (h : s.mem.get key = none) :
      Outcome faults s order d (.delete key) (s, true) d
  | refused {op : Operation} {cmd : Command} (hcmd : commandOf op = some cmd)
      (h : s.wal.failed = true ∨ s.wal.closed = true) :
      Outcome faults s order d op (refused s, false) d
  | logged {op : Operation} {cmd : Command} {b : Bytes} (hcmd : commandOf op = some cmd)
      (hfailed : s.wal.failed = false) (hclosed : s.wal.closed = false)
      (hfile : (d .wal)[s.wal.start]? = some b) :
      Outcome faults s order d op (logged s cmd, true)
        (write d .wal s.wal.start (b ++ record s cmd))
  | dumped {op : Operation} {cmd : Command} {b : Bytes} {r : DurableStore × Except StoreError Unit}
      {d' : Volume Dir} (hcmd : commandOf op = some cmd) (hfailed : s.wal.failed = false)
      (hclosed : s.wal.closed = false) (hfile : (d .wal)[s.wal.start]? = some b)
      (h : Ends (logged s cmd) (dump (logged s cmd) order)
        (write d .wal s.wal.start (b ++ record s cmd)) r d') :
      Outcome faults s order d op (r.1, true) d'
  | snapshot {r : DurableStore × Except StoreError Unit} {d' : Volume Dir}
      (h : Ends s (dump s order) d r d') : Outcome faults s order d .snapshot (r.1, r.2.isOk) d'
  | closed : Outcome faults s order d .close (s.close.1, s.close.2.isOk) d
  | cut (hf : faults) {op : Operation} {cmd : Command} {b : Bytes} (hcmd : commandOf op = some cmd)
      (hfailed : s.wal.failed = false) (hclosed : s.wal.closed = false)
      (hfile : (d .wal)[s.wal.start]? = some b) (n : Nat) :
      Outcome faults s order d op (refused s, false)
        (write d .wal s.wal.start (b ++ (record s cmd).take n))
  | dumpFailed (hf : faults) {op : Operation} {cmd : Command} {b : Bytes} {s' : DurableStore}
      {d' : Volume Dir} (hcmd : commandOf op = some cmd) (hfile : (d .wal)[s.wal.start]? = some b)
      (h : Faulted (logged s cmd) (dump (logged s cmd) order)
        (write d .wal s.wal.start (b ++ record s cmd)) s' d') :
      Outcome faults s order d op (s', true) d'
  | snapshotFailed (hf : faults) {s' : DurableStore} {d' : Volume Dir}
      (h : Faulted s (dump s order) d s' d') : Outcome faults s order d .snapshot (s', false) d'

/-- The volumes a kill in the middle of a call can leave. -/
inductive Interrupted (s : DurableStore) (order : Order) (d : Volume Dir) :
    Operation → Volume Dir → Prop
  | begun (op : Operation) : Interrupted s order d op d
  | torn {op : Operation} {cmd : Command} {b : Bytes} (hcmd : commandOf op = some cmd)
      (hfile : (d .wal)[s.wal.start]? = some b) (n : Nat) :
      Interrupted s order d op (write d .wal s.wal.start (b ++ (record s cmd).take n))
  | dumping {op : Operation} {cmd : Command} {b : Bytes} {d' : Volume Dir}
      (hcmd : commandOf op = some cmd) (hfile : (d .wal)[s.wal.start]? = some b)
      (h : Stage (s.seq + 1) (dump (logged s cmd) order)
        (write d .wal s.wal.start (b ++ record s cmd)) d') :
      Interrupted s order d op d'
  | snapshot {d' : Volume Dir} (h : Stage s.seq (dump s order) d d') :
      Interrupted s order d .snapshot d'

/-- A store writes to the newest segment, and its segments start where its snapshots end. -/
structure Newest (s : DurableStore) (d : Volume Dir) : Prop where
  anchored : Anchored d
  snaps : ∀ q b, (d .snap)[q]? = some b → q ≤ s.seq
  last : ∃ l b, (d .wal).toList = l ++ [(s.wal.start, b)]

section Newest

variable {s : DurableStore} {d : Volume Dir}

theorem Newest.file (h : Newest s d) : ∃ b, (d .wal)[s.wal.start]? = some b := by
  obtain ⟨l, b, hl⟩ := h.last
  exact ⟨b, getElem?_of_toList hl⟩

theorem Newest.names (h : Newest s d) : ∀ p ∈ (d .wal).toList, p.1 ≤ s.seq + 1 := by
  intro p hp
  obtain ⟨q, hq, hle⟩ := h.anchored p hp
  rcases hq with rfl | ⟨b, hb⟩
  · omega
  · have := h.snaps q b hb
    omega

theorem Newest.le_start (h : Newest s d) : ∀ p ∈ (d .wal).toList, p.1 ≤ s.wal.start := by
  obtain ⟨l, b, hl⟩ := h.last
  exact (le_iff_last hl).mpr rfl

end Newest

section Calls

variable {faults : Prop} {s : DurableStore} {order : Order} {d : Volume Dir} {op : Operation}
variable {cmd : Command} {b : Bytes}

theorem logAndApply_refused (cmd : Command) (order : Order)
    (h : s.wal.failed = true ∨ s.wal.closed = true) :
    ∃ err, s.logAndApply cmd order = .ret (refused s, .error err) := by
  cases hfailed : s.wal.failed with
  | true =>
      have hsame : refused s = s := by
        rw [refused, ← hfailed]
      refine ⟨.during "wal append" .walFailed, ?_⟩
      unfold DurableStore.logAndApply Wal.append
      rw [if_pos hfailed, hsame]
      rfl
  | false =>
      refine ⟨.during "wal append" .closed, ?_⟩
      unfold DurableStore.logAndApply Wal.append
      rw [if_neg (by rw [hfailed]; decide), if_pos (h.resolve_left (by rw [hfailed]; decide))]
      rfl

theorem holds_write (hfile : (d .wal)[s.wal.start]? = some b)
    (hnames : ∀ p ∈ (d .wal).toList, p.1 ≤ s.seq + 1) (hcmd : commandOf op = some cmd) :
    Holds faults (fun r d' => Outcome faults s order d op (r.1, r.2.isOk) d')
      (Interrupted s order d op) (s.logAndApply cmd order) d := by
  by_cases hopen : s.wal.failed = true ∨ s.wal.closed = true
  · obtain ⟨err, hret⟩ := logAndApply_refused cmd order hopen
    rw [hret]
    exact ⟨.begun op, .refused hcmd hopen⟩
  · rw [not_or, Bool.not_eq_true, Bool.not_eq_true] at hopen
    obtain ⟨hfailed, hclosed⟩ := hopen
    refine holds_logAndApply hfailed hclosed hfile hnames ?_ ?_ ?_ ?_ ?_
    · exact fun n => .torn hcmd hfile n
    · exact fun d' h => .dumping hcmd hfile h
    · exact .logged hcmd hfailed hclosed hfile
    · exact fun r d' h => .dumped (r := r) hcmd hfailed hclosed hfile h
    · intro hf
      exact ⟨fun n => .cut hf hcmd hfailed hclosed hfile n,
        fun s' d' h => .dumpFailed hf hcmd hfile h⟩

theorem holds_perform (hfile : (d .wal)[s.wal.start]? = some b)
    (hnames : ∀ p ∈ (d .wal).toList, p.1 ≤ s.seq + 1) (order : Order) (op : Operation) :
    Holds faults (Outcome faults s order d op) (Interrupted s order d op)
      (perform s order op) d := by
  cases op with
  | put key value =>
      refine holds_bind (holds_mono (holds_write hfile hnames rfl) ?_ fun _ h => h)
      exact fun r d' hK hQ => ⟨hK, hQ⟩
  | delete key =>
      refine holds_bind ?_
      unfold DurableStore.delete
      cases hget : s.mem.get key with
      | none => exact ⟨.begun _, .begun _, .absent hget⟩
      | some value =>
          refine holds_bind (holds_mono (holds_write hfile hnames rfl) ?_ fun _ h => h)
          rintro ⟨s', res⟩ d' hK hQ
          cases res with
          | error err => exact ⟨hK, hK, hQ⟩
          | ok _ => exact ⟨hK, hK, hQ⟩
  | snapshot =>
      refine holds_bind (holds_snapshot hnames ?_ ?_ ?_)
      · exact fun d' h => .snapshot h
      · exact fun r d' h => ⟨.snapshot (stage_of_ends h), .snapshot h⟩
      · exact fun hf s' err d' h => ⟨.snapshot (stage_of_faulted h), .snapshotFailed hf h⟩
  | close => exact ⟨.begun _, .closed⟩

end Calls

theorem holds_perform_newest {s : DurableStore} {d : Volume Dir} (hnewest : Newest s d)
    (order : Order) (op : Operation) :
    Holds False (Outcome False s order d op) (Interrupted s order d op) (perform s order op) d := by
  obtain ⟨b, hfile⟩ := hnewest.file
  exact holds_perform hfile hnewest.names order op

section Anchors

variable {s : DurableStore} {order : Order} {d d' : Volume Dir} {data : Bytes}

theorem snaps_insert_le {seq : Nat} (data : Bytes)
    (hsnaps : ∀ q b, (d .snap)[q]? = some b → q ≤ seq) :
    ∀ (q : Nat) (b : Bytes), ((d .snap).insert seq data)[q]? = some b → q ≤ seq := by
  intro q b hb
  rw [Std.ExtTreeMap.getElem?_insert] at hb
  split at hb
  · rename_i heq
    exact (Std.compare_eq_iff_eq.mp heq).ge
  · exact hsnaps q b hb

theorem exists_concat_of_pruned {seq n : Nat}
    (hsnaps : ∀ q b, (d .snap)[q]? = some b → q ≤ seq)
    (hn : n ≤ ((d .snap).insert seq data).toList.length - 2)
    (hsnap : (d' .snap).toList = ((d .snap).insert seq data).toList.drop n) :
    ∃ l, (d' .snap).toList = l ++ [(seq, data)] := by
  obtain ⟨l, hl⟩ := exists_concat_of_max (Std.ExtTreeMap.getElem?_insert_self (t := d .snap))
    fun p hp => snaps_insert_le data hsnaps p.1 p.2 (mem_toList.mp hp)
  rw [hl, List.length_append, List.length_singleton] at hn
  exact ⟨l.drop n, by rw [hsnap, hl, List.drop_append_of_le_length (by omega)]⟩

theorem anchored_of_stage {seq : Nat} (hd : Anchored d)
    (hsnaps : ∀ q b, (d .snap)[q]? = some b → q ≤ seq) (h : Stage seq data d d') :
    Anchored d' ∧ ∀ q b, (d' .snap)[q]? = some b → q ≤ seq := by
  have hbelow := snaps_insert_le data hsnaps
  have hkept : ∀ q : Nat, (∃ b, (d .snap)[q]? = some b) →
      ∃ b, ((d .snap).insert seq data)[q]? = some b := by
    rintro q ⟨b, hb⟩
    rw [Std.ExtTreeMap.getElem?_insert]
    split
    · exact ⟨data, rfl⟩
    · exact ⟨b, hb⟩
  have hself : ((d .snap).insert seq data)[seq]? = some data :=
    Std.ExtTreeMap.getElem?_insert_self
  cases h with
  | begun h =>
      unfold Anchored
      rw [h.1, h.2]
      exact ⟨hd, hsnaps⟩
  | installed h =>
      refine ⟨fun p hp => ?_, by rw [h.2]; exact hbelow⟩
      rw [h.1] at hp
      obtain ⟨q, hq, hle⟩ := hd p hp
      rw [h.2]
      exact ⟨q, hq.imp_right (hkept q), hle⟩
  | rotated hnew left hleft hwal hsnap =>
      refine ⟨fun p hp => ?_, by rw [hsnap]; exact hbelow⟩
      rw [hsnap]
      rw [hwal, List.mem_append, List.mem_singleton] at hp
      rcases hp with hp | rfl
      · obtain ⟨q, hq, hle⟩ := hd p (hleft.subset hp)
        exact ⟨q, hq.imp_right (hkept q), hle⟩
      · exact ⟨seq, Or.inr ⟨data, hself⟩, le_rfl⟩
  | pruned hnew hwal n hn hsnap =>
      obtain ⟨l, hlist⟩ := exists_concat_of_pruned hsnaps hn hsnap
      refine ⟨fun p hp => ?_, fun q b hb => ?_⟩
      · rw [hwal, List.mem_singleton] at hp
        rw [hp]
        refine ⟨seq, Or.inr ⟨data, ?_⟩, le_rfl⟩
        exact mem_toList (p := (seq, data)) |>.mp (by rw [hlist]; simp)
      · have hmem := mem_toList (p := (q, b)) |>.mpr hb
        rw [hsnap] at hmem
        exact hbelow q b (mem_toList.mp (List.mem_of_mem_drop hmem))

theorem newest_of_ends {r : DurableStore × Except StoreError Unit} (hnewest : Newest s d)
    (h : Ends s data d r d') : Newest r.1 d' ∧ r.1.mem = s.mem ∧ r.1.seq = s.seq := by
  obtain ⟨hanchored, hsnaps⟩ := anchored_of_stage hnewest.anchored hnewest.snaps (stage_of_ends h)
  cases h with
  | failed _ h => exact ⟨⟨hanchored, hsnaps, by rw [h.1]; exact hnewest.last⟩, rfl, rfl⟩
  | occupied _ _ h => exact ⟨⟨hanchored, hsnaps, by rw [h.1]; exact hnewest.last⟩, rfl, rfl⟩
  | closed _ _ _ hwal _ => exact ⟨⟨hanchored, hsnaps, _, _, hwal⟩, rfl, rfl⟩
  | done _ _ _ hwal _ => exact ⟨⟨hanchored, hsnaps, [], _, hwal⟩, rfl, rfl⟩

theorem newest_write {b' : Bytes} (s' : DurableStore) (hnewest : Newest s d)
    (hstart : s'.wal.start = s.wal.start) (hseq : s.seq ≤ s'.seq) :
    Newest s' (write d .wal s.wal.start b') := by
  obtain ⟨l, c, hl⟩ := hnewest.last
  refine ⟨anchored_write hnewest.anchored hl b', ?_, l, b', ?_⟩
  · rw [write_of_ne (by decide)]
    exact fun q b hb => (hnewest.snaps q b hb).trans hseq
  · rw [write_same, hstart]
    exact toList_insert_last hl

theorem newest_of_outcome {op : Operation} {r : DurableStore × Bool} (hnewest : Newest s d)
    (h : Outcome False s order d op r d') : Newest r.1 d' := by
  have hsame : ∀ s' : DurableStore, s'.seq = s.seq → s'.wal.start = s.wal.start →
      Newest s' d := fun s' hseq hstart =>
    ⟨hnewest.anchored, by rw [hseq]; exact hnewest.snaps, by rw [hstart]; exact hnewest.last⟩
  cases h with
  | absent h => exact hnewest
  | refused hcmd h => exact hsame _ rfl rfl
  | logged hcmd hfailed hclosed hfile => exact newest_write _ hnewest rfl (Nat.le_succ _)
  | @dumped _ cmd b _ _ hcmd hfailed hclosed hfile h =>
      have hwritten : Newest (logged s cmd) (write d .wal s.wal.start (b ++ record s cmd)) :=
        newest_write _ hnewest rfl (Nat.le_succ _)
      exact (newest_of_ends hwritten h).1
  | snapshot h => exact (newest_of_ends hnewest h).1
  | closed =>
      refine hsame _ rfl ?_
      unfold DurableStore.close Wal.close
      split <;> rfl
  | cut hf => exact hf.elim
  | dumpFailed hf => exact hf.elim
  | snapshotFailed hf => exact hf.elim

theorem anchored_of_interrupted {op : Operation} (hnewest : Newest s d)
    (h : Interrupted s order d op d') : Anchored d' := by
  cases h with
  | begun => exact hnewest.anchored
  | torn hcmd hfile n => exact (newest_write s hnewest rfl le_rfl).anchored
  | @dumping _ cmd b _ hcmd hfile h =>
      have hwritten : Newest (logged s cmd) (write d .wal s.wal.start (b ++ record s cmd)) :=
        newest_write _ hnewest rfl (Nat.le_succ _)
      exact (anchored_of_stage hwritten.anchored hwritten.snaps h).1
  | snapshot h => exact (anchored_of_stage hnewest.anchored hnewest.snaps h).1

end Anchors

/-- What became of a call: it returned without an error, it returned one, or the process
was killed before it returned. -/
inductive Fate
  | acked
  | failed
  | killed
  deriving DecidableEq

def Fate.returned (ok : Bool) : Fate :=
  if ok then .acked else .failed

structure Attempt where
  op : Operation
  fate : Fate
  deriving DecidableEq

/-- What can become of the directories and the store in them, if there is one: killing
the process ends the store and can leave any intermediate state of the directories. With
`faults`, system calls may fail at any time. -/
inductive Life (faults : Prop) : List Attempt → Volume Dir → Option DurableStore → Prop
  | new : Life faults [] (fun _ => ∅) none
  | opened {ops : List Attempt} {d d' : Volume Dir} {s : DurableStore} (h : Life faults ops d none)
      (threshold : Int) (hx : Exec faults (openStore threshold) d (.ok s) d') :
      Life faults ops d' (some s)
  | openKilled {ops : List Attempt} {d d' : Volume Dir} (h : Life faults ops d none)
      (threshold : Int) (hk : Killed faults (openStore threshold) d d') : Life faults ops d' none
  | returned {ops : List Attempt} {d d' : Volume Dir} {s s' : DurableStore} {ok : Bool}
      {order : Order} (h : Life faults ops d (some s)) (op : Operation) (horder : Lawful order)
      (hx : Exec faults (perform s order op) d (s', ok) d') :
      Life faults (ops ++ [⟨op, .returned ok⟩]) d' (some s')
  | opKilled {ops : List Attempt} {d d' : Volume Dir} {s : DurableStore} {order : Order}
      (h : Life faults ops d (some s)) (op : Operation) (horder : Lawful order)
      (hk : Killed faults (perform s order op) d d') :
      Life faults (ops ++ [⟨op, .killed⟩]) d' none
  | killed {ops : List Attempt} {d : Volume Dir} {s : DurableStore}
      (h : Life faults ops d (some s)) : Life faults ops d none

def created : DurableStore × Volume Dir :=
  (opened 0 ∅ 0 1 0, write (fun _ => ∅) .wal 1 [])

theorem life_created (faults : Prop) : Life faults [] created.2 (some created.1) :=
  .opened .new 0 (exec_of_run rfl)

end RaftKV.Store.Lives
