import RaftKV.Store.Lives

namespace RaftKV.Store.Recovery

open Files.Directories Files.Programs
open Raft (Bytes)
open Store.Commands Store.Segments Store.Snapshots Store.Durable Store.Operations Store.Layout
open Store.Lives

variable {history : List Command} {op : Operation} {d : Volume Dir}

/-- A history whose records replay reads and whose numbers fit their field. -/
structure Recorded (history : List Command) : Prop where
  writable : ∀ cmd ∈ history, Writable cmd
  length : history.length < 2 ^ 64

/-- The commands of an operation can be read back from the log. -/
def Loggable (op : Operation) : Prop :=
  ∀ cmd, commandOf op = some cmd → Writable cmd

/-- A running store and its directories hold the same history. -/
structure Live (history : List Command) (s : DurableStore) (d : Volume Dir) : Prop where
  newest : Newest s d
  recoverable : Recoverable history [] d
  mem : s.mem = stateOf history
  seq : s.seq = history.length

def Survives (history : List Command) (d : Volume Dir) : Prop :=
  ∃ torn, parseRecord torn = none ∧ Recoverable history torn d

theorem recorded_concat
    (hw : ∀ cmd ∈ history, Writable cmd) (hlen : history.length + 1 < 2 ^ 64) (hop : Loggable op)
    (cmd : Command) (hcmd : commandOf op = some cmd) : Recorded (history ++ [cmd]) where
  writable := by
    rw [List.forall_mem_append, List.forall_mem_singleton]
    exact ⟨hw, hop cmd hcmd⟩
  length := by
    rw [List.length_append]
    exact hlen

section Stages

variable {history : List Command} {torn : Bytes} {d d' : Volume Dir}

theorem anchored_of_same (h : Anchored d) (hs : Same d d') : Anchored d' := by
  unfold Anchored
  rw [hs.1, hs.2]
  exact h

theorem recoverable_of_same (h : Recoverable history torn d) (hs : Same d d') :
    Recoverable history torn d' := by
  refine ⟨anchored_of_same h.anchored hs, ?_, ?_⟩
  · rw [hs.2]
    exact h.snaps
  · rw [hs.1, hs.2]
    exact h.segs

theorem newest_of_same {s : DurableStore} (h : Newest s d) (hs : Same d d') : Newest s d' := by
  refine ⟨anchored_of_same h.anchored hs, ?_, ?_⟩
  · rw [hs.2]
    exact h.snaps
  · rw [hs.1]
    exact h.last

theorem readSnapshot_dump {s : DurableStore} {order : Order} (hrec : Recorded history)
    (horder : Lawful order) (hmem : s.mem = stateOf history) (hseq : s.seq = history.length) :
    readSnapshot (dump s order) = .ok (stateOf history, history.length) := by
  rw [← hseq, ← hmem]
  refine readSnapshot_short horder (by rw [hseq]; exact hrec.length) ?_ ?_
  · rw [hmem]
    exact lt_of_le_of_lt (size_stateOf_le history) hrec.length
  · intro key value hget
    rw [hmem] at hget
    obtain ⟨cmd, hcmd, hkey, hvalue⟩ := exists_put_of_row hget
    rw [← hkey, ← hvalue]
    exact lengths_of_writable (hrec.writable cmd hcmd)

theorem snaps_insert {data : Bytes} {seq : Nat}
    (h : ∀ q b, (d .snap)[q]? = some b →
      q ≤ history.length ∧ readSnapshot b = .ok (stateOf (history.take q), q))
    (hseq : seq ≤ history.length)
    (hdata : readSnapshot data = .ok (stateOf (history.take seq), seq)) :
    ∀ q b, ((d .snap).insert seq data)[q]? = some b →
      q ≤ history.length ∧ readSnapshot b = .ok (stateOf (history.take q), q) := by
  intro q b hb
  rw [Std.ExtTreeMap.getElem?_insert] at hb
  split at hb
  · rename_i heq
    rw [← Std.compare_eq_iff_eq.mp heq, ← Option.some.inj hb]
    exact ⟨hseq, hdata⟩
  · exact h q b hb

theorem recoverable_stage {data : Bytes} (h : Recoverable history [] d)
    (hdata : readSnapshot data = .ok (stateOf history, history.length))
    (hstage : Stage history.length data d d') : Recoverable history [] d' := by
  have hanchored := (anchored_of_stage h.anchored (fun q b hb => (h.snaps q b hb).1) hstage).1
  have hsnaps := snaps_insert h.snaps le_rfl (by rw [List.take_length]; exact hdata)
  have hself : ((d .snap).insert history.length data)[history.length]? = some data :=
    Std.ExtTreeMap.getElem?_insert_self
  -- The new segment after all the old ones; a part of them is what is left.
  have hsegs {left : List (Nat × Bytes)} (hleft : left <:+ (d .wal).toList) :
      ∃ next, Segments history [] next (left ++ [(history.length + 1, [])]) := by
    rcases h.segs with ⟨hnil, rfl⟩ | ⟨next, hold, -⟩
    · rw [hnil, List.suffix_nil] at hleft
      rw [hleft]
      exact ⟨1, .last le_rfl le_rfl⟩
    · obtain ⟨gone, hgone⟩ := hleft
      refine segments_suffix (segments_rotate hold (history.length + 1)) ⟨gone, ?_⟩ (by simp)
      rw [← List.append_assoc, hgone]
  cases hstage with
  | begun hs => exact recoverable_of_same h hs
  | installed hi =>
      refine ⟨hanchored, by rw [hi.2]; exact hsnaps, ?_⟩
      rw [hi.1, hi.2]
      refine h.segs.imp_right ?_
      rintro ⟨next, hold, -⟩
      exact ⟨next, hold, history.length, Or.inr ⟨data, hself⟩, (segments_bounds hold).2.1⟩
  | rotated hnew left hleft hwal hsnap =>
      obtain ⟨next, hrest⟩ := hsegs hleft
      refine ⟨hanchored, by rw [hsnap]; exact hsnaps, Or.inr ?_⟩
      rw [hwal, hsnap]
      exact ⟨next, hrest, history.length, Or.inr ⟨data, hself⟩, (segments_bounds hrest).2.1⟩
  | pruned hnew hwal n hn hsnap =>
      obtain ⟨next, hrest⟩ := hsegs (List.nil_suffix)
      obtain ⟨l, hlist⟩ := exists_concat_of_pruned (fun q b hb => (h.snaps q b hb).1) hn hsnap
      refine ⟨hanchored, ?_, Or.inr ⟨next, ?_, history.length, Or.inr ⟨data, ?_⟩, ?_⟩⟩
      · intro q b hb
        have hmem := mem_toList (p := (q, b)) |>.mpr hb
        rw [hsnap] at hmem
        exact hsnaps q b (mem_toList.mp (List.mem_of_mem_drop hmem))
      · rw [hwal]
        exact hrest
      · exact mem_toList (p := (history.length, data)) |>.mp (by rw [hlist]; simp)
      · exact (segments_bounds hrest).2.1

end Stages

section Writing

variable {history : List Command} {s : DurableStore} {d d' : Volume Dir} {order : Order}
variable {cmd : Command} {b : Bytes}

theorem last_of_file (hnewest : Newest s d) (hfile : (d .wal)[s.wal.start]? = some b) :
    ∃ l, (d .wal).toList = l ++ [(s.wal.start, b)] := by
  obtain ⟨l, c, hl⟩ := hnewest.last
  obtain rfl : c = b := Option.some.inj ((getElem?_of_toList hl).symm.trans hfile)
  exact ⟨l, hl⟩

theorem recoverable_cut (h : Live history s d) (hfile : (d .wal)[s.wal.start]? = some b)
    (torn : Bytes) : Recoverable history torn (write d .wal s.wal.start (b ++ torn)) := by
  obtain ⟨l, hl⟩ := last_of_file h.newest hfile
  obtain ⟨whole, hb, htorn⟩ := recoverable_torn h.recoverable hl
  rw [hb, List.append_nil]
  exact htorn torn

theorem record_eq (hseq : s.seq = history.length) :
    record s cmd = segmentBytes (history.length + 1) [cmd] := by
  rw [record, hseq, segmentBytes, segmentBytes, List.append_nil]

theorem recoverable_logged (h : Live history s d) (hfile : (d .wal)[s.wal.start]? = some b) :
    Recoverable (history ++ [cmd]) [] (write d .wal s.wal.start (b ++ record s cmd)) := by
  obtain ⟨l, hl⟩ := last_of_file h.newest hfile
  rw [record_eq h.seq]
  exact recoverable_records h.recoverable hl (by simp) [cmd]

theorem live_logged (cmd : Command) (h : Live history s d)
    (hfile : (d .wal)[s.wal.start]? = some b) :
    Live (history ++ [cmd]) (logged s cmd) (write d .wal s.wal.start (b ++ record s cmd)) where
  newest := newest_write _ h.newest rfl (Nat.le_succ _)
  recoverable := recoverable_logged h hfile
  mem := by
    rw [stateOf_concat, ← h.mem]
    rfl
  seq := by
    rw [List.length_append, List.length_singleton, ← h.seq]
    rfl

theorem live_ends {r : DurableStore × Except StoreError Unit} (hrec : Recorded history)
    (horder : Lawful order) (h : Live history s d) (hends : Ends s (dump s order) d r d') :
    Live history r.1 d' := by
  obtain ⟨hnewest, hmem, hseq⟩ := newest_of_ends h.newest hends
  have hstage := stage_of_ends hends
  rw [h.seq] at hstage
  exact ⟨hnewest,
    recoverable_stage h.recoverable (readSnapshot_dump hrec horder h.mem h.seq) hstage,
    hmem.trans h.mem, hseq.trans h.seq⟩

theorem survives_of_live (h : Live history s d) : Survives history d :=
  ⟨[], rfl, h.recoverable⟩

theorem live_outcome {r : DurableStore × Bool} (h : Live history s d)
    (horder : Lawful order) (hrec : Recorded history)
    (hrec' : ∀ cmd, commandOf op = some cmd → Recorded (history ++ [cmd]))
    (hout : Outcome False s order d op r d') :
    (r.2 = true ∧ ∃ cmd, commandOf op = some cmd ∧ Live (history ++ [cmd]) r.1 d') ∨
      (Live history r.1 d' ∧ (r.2 = true → ∀ cmd, commandOf op = some cmd →
        stateOf (history ++ [cmd]) = stateOf history)) := by
  have hnewest := newest_of_outcome h.newest hout
  cases hout with
  | @absent key hnone =>
      refine Or.inr ⟨h, fun _ cmd hcmd => ?_⟩
      cases hcmd
      rw [stateOf_concat, ← h.mem]
      apply Std.ExtTreeMap.ext_getElem?
      intro k
      change (s.mem.erase key)[k]? = s.mem[k]?
      rw [Std.ExtTreeMap.getElem?_erase]
      split
      · rename_i heq
        rw [← Std.compare_eq_iff_eq.mp heq]
        exact hnone.symm
      · rfl
  | refused hcmd hflags =>
      exact Or.inr ⟨⟨hnewest, h.recoverable, h.mem, h.seq⟩, fun hok => by cases hok⟩
  | logged hcmd hfailed hclosed hfile => exact Or.inl ⟨rfl, _, hcmd, live_logged _ h hfile⟩
  | dumped hcmd hfailed hclosed hfile hends =>
      exact Or.inl ⟨rfl, _, hcmd, live_ends (hrec' _ hcmd) horder (live_logged _ h hfile) hends⟩
  | snapshot hends =>
      exact Or.inr ⟨live_ends hrec horder h hends, fun _ cmd hcmd => by cases hcmd⟩
  | closed =>
      exact Or.inr ⟨⟨hnewest, h.recoverable, h.mem, h.seq⟩, fun _ cmd hcmd => by cases hcmd⟩
  | cut hf => exact hf.elim
  | dumpFailed hf => exact hf.elim
  | snapshotFailed hf => exact hf.elim

theorem survives_interrupted (h : Live history s d) (horder : Lawful order)
    (hrec : Recorded history)
    (hrec' : ∀ cmd, commandOf op = some cmd → Recorded (history ++ [cmd]))
    (hint : Interrupted s order d op d') :
    Survives history d' ∨ ∃ cmd, commandOf op = some cmd ∧ Survives (history ++ [cmd]) d' := by
  cases hint with
  | begun => exact Or.inl (survives_of_live h)
  | @torn _ cmd _ hcmd hfile n =>
      by_cases hn : n < (record s cmd).length
      · have hw := (hrec' cmd hcmd).writable cmd (by simp)
        exact Or.inl ⟨_, parseRecord_torn hw hn, recoverable_cut h hfile _⟩
      · rw [List.take_of_length_le (Nat.not_lt.mp hn)]
        exact Or.inr ⟨cmd, hcmd, survives_of_live (live_logged _ h hfile)⟩
  | @dumping _ cmd _ _ hcmd hfile hstage =>
      have hlive := live_logged cmd h hfile
      have hread := readSnapshot_dump (hrec' cmd hcmd) horder hlive.mem hlive.seq
      have hlen : s.seq + 1 = (history ++ [cmd]).length := hlive.seq
      rw [hlen] at hstage
      exact Or.inr ⟨cmd, hcmd, [], rfl, recoverable_stage hlive.recoverable hread hstage⟩
  | snapshot hstage =>
      have hread := readSnapshot_dump hrec horder h.mem h.seq
      rw [h.seq] at hstage
      exact Or.inl ⟨[], rfl, recoverable_stage h.recoverable hread hstage⟩

end Writing

theorem holds_open {faults : Prop}
    (hrec : Recorded history) (h : Survives history d) (threshold : Int) :
    Holds faults (fun r d' => (∃ s, r = .ok s ∧ Live history s d') ∨
        faults ∧ ∃ err, r = .error err) (Survives history) (openStore threshold) d := by
  obtain ⟨torn, htorn, hd⟩ := h
  obtain ⟨mem₀, snapSeq, size, hsnap, hreplay, hcut⟩ :=
    recovers hd hrec.writable hrec.length htorn
  have hsnaps : ∀ q b, (d .snap)[q]? = some b → q ≤ history.length := fun q b hb =>
    (hd.snaps q b hb).1
  refine holds_openStore hsnap hreplay ?_ ?_ ?_ fun hf err _ _ => Or.inr ⟨hf, err, rfl⟩
  · exact fun d' hs => ⟨torn, htorn, recoverable_of_same hd hs⟩
  · intro hnil d' hnew
    have hempty : (d .wal).toList = [] := hnil
    obtain rfl : history = [] := by
      rcases hd.segs with ⟨-, hhistory⟩ | ⟨next, hsegs, -⟩
      · exact hhistory
      · exact absurd hempty (segments_bounds hsegs).2.2
    have hlist : (d' .wal).toList = [(1, [])] := by
      rw [hnew.1, toList_insert_new (by rw [hempty]; simp), hempty]
      rfl
    have hanchored : Anchored d' := by
      intro p hp
      rw [hlist, List.mem_singleton] at hp
      rw [hp]
      exact ⟨0, Or.inl rfl, le_rfl⟩
    have hlive : Live [] (opened threshold (stateOf []) 0 1 0) d' := by
      refine ⟨⟨hanchored, ?_, [], [], hlist⟩,
        ⟨hanchored, ?_, Or.inr ⟨1, ?_, 0, Or.inl rfl, le_rfl⟩⟩, rfl, rfl⟩
      · rw [hnew.2]
        exact hsnaps
      · rw [hnew.2]
        exact hd.snaps
      · rw [hlist]
        exact .last le_rfl le_rfl
    exact ⟨survives_of_live hlive, Or.inl ⟨_, rfl, hlive⟩⟩
  · intro newest b hlast d' hwal hsnap'
    obtain ⟨l, hl⟩ := List.getLast?_eq_some_iff.mp hlast
    generalize hs : opened threshold (stateOf history) history.length newest size = s
    have hstart : s.wal.start = newest := by
      rw [← hs]
      rfl
    have hnewest : Newest s d := by
      refine ⟨hd.anchored, ?_, l, b, ?_⟩
      · rw [← hs]
        exact hsnaps
      · rw [hstart]
        exact hl
    rw [← hstart] at hwal hl
    have hsame : Same (write d .wal s.wal.start (b.take size)) d' :=
      ⟨by rw [write_same, hwal], by rw [write_of_ne (by decide), hsnap']⟩
    have hcut' : Recoverable history [] (write d .wal s.wal.start (b.take size)) := by
      obtain ⟨whole, hb, htorn'⟩ := recoverable_torn hd hl
      have hwhole : b.take size = whole := List.append_cancel_right
        ((hcut newest b hlast).symm.trans hb)
      have := htorn' []
      rwa [List.append_nil, ← hwhole] at this
    have hnewest' : Newest s (write d .wal s.wal.start (b.take size)) :=
      newest_write s hnewest rfl le_rfl
    have hlive : Live history s d' := by
      refine ⟨?_, recoverable_of_same hcut' hsame, ?_, ?_⟩
      · exact newest_of_same hnewest' hsame
      · rw [← hs]
        rfl
      · rw [← hs]
        rfl
    exact ⟨survives_of_live hlive, Or.inl ⟨_, rfl, hlive⟩⟩

theorem run_open (hrec : Recorded history)
    (h : Survives history d) (threshold : Int) :
    ∃ s d', run (openStore threshold) d = (.ok s, d') ∧ Live history s d' := by
  have hx : Exec False (openStore threshold) d _ _ := exec_of_run rfl
  rcases holds_exec (holds_open hrec h threshold) hx with ⟨s, hok, hlive⟩ | hfault
  · exact ⟨s, _, Prod.ext hok rfl, hlive⟩
  · exact hfault.1.elim

def meaning : Operation → MemStore → MemStore
  | .put key value, mem => mem.insert key value
  | .delete key, mem => mem.erase key
  | .snapshot, mem => mem
  | .close, mem => mem

/-- A map is explained by calls if it results from all that were acknowledged, in their
order, each one that was killed being applied at its place or not at all. -/
inductive Explained : List Attempt → MemStore → Prop
  | nil : Explained [] ∅
  | applied {ops : List Attempt} {mem : MemStore} {a : Attempt} (h : Explained ops mem)
      (ha : a.fate ≠ .failed) : Explained (ops ++ [a]) (meaning a.op mem)
  | lost {ops : List Attempt} {mem : MemStore} {a : Attempt} (h : Explained ops mem)
      (ha : a.fate ≠ .acked) : Explained (ops ++ [a]) mem

/-- Keys of at most 4 KiB and values of at most 1 MiB. -/
def Small : Operation → Prop
  | .put key value => key.length ≤ 2 ^ 12 ∧ value.length ≤ 2 ^ 20
  | .delete key => key.length ≤ 2 ^ 12
  | .snapshot => True
  | .close => True

theorem loggable_of_small (h : Small op) : Loggable op := by
  intro cmd hcmd
  have hmax : walMaxRecordLen = 68157457 := rfl
  have hsize : walSeqSize = 8 := rfl
  unfold Writable
  rw [length_encodeCommand]
  cases op with
  | put key value =>
      cases hcmd
      have hkey : key.length ≤ 2 ^ 12 := h.1
      have hvalue : value.length ≤ 2 ^ 20 := h.2
      dsimp only
      omega
  | delete key =>
      cases hcmd
      have hkey : key.length ≤ 2 ^ 12 := h
      dsimp only [List.length_nil]
      omega
  | snapshot => cases hcmd
  | close => cases hcmd

theorem stateOf_command {cmd : Command}
    (hcmd : commandOf op = some cmd) :
    stateOf (history ++ [cmd]) = meaning op (stateOf history) := by
  rw [stateOf_concat]
  cases op with
  | put key value =>
      cases hcmd
      rfl
  | delete key =>
      cases hcmd
      rfl
  | snapshot => cases hcmd
  | close => cases hcmd

theorem meaning_of_none (h : commandOf op = none) (mem : MemStore) :
    meaning op mem = mem := by
  cases op with
  | put key value => cases h
  | delete key => cases h
  | snapshot => rfl
  | close => rfl

/-- The directories, or the store that runs on them, hold a history that explains the
calls. -/
def Consistent (ops : List Attempt) (d : Volume Dir) (running : Option DurableStore) : Prop :=
  ∃ history, Explained ops (stateOf history) ∧ history.length ≤ ops.length ∧
    (∀ cmd ∈ history, Writable cmd) ∧
    match running with
    | none => Survives history d
    | some s => Live history s d

theorem consistent_of_life {ops : List Attempt} {running : Option DurableStore}
    (h : Life False ops d running) (hsmall : ∀ a ∈ ops, Small a.op) (hlen : ops.length < 2 ^ 64) :
    Consistent ops d running := by
  induction h with
  | new =>
      refine ⟨[], .nil, le_rfl, by simp, [], rfl, ?_, ?_, Or.inl ⟨rfl, rfl⟩⟩
      · intro p hp
        cases hp
      · intro q b hb
        rw [Std.ExtTreeMap.getElem?_empty] at hb
        cases hb
  | opened h threshold hx ih =>
      obtain ⟨history, hexp, hle, hw, hd⟩ := ih hsmall hlen
      rcases holds_exec (holds_open ⟨hw, by omega⟩ hd threshold) hx with ⟨_, hok, hlive⟩ | hfault
      · cases hok
        exact ⟨history, hexp, hle, hw, hlive⟩
      · exact hfault.1.elim
  | openKilled h threshold hk ih =>
      obtain ⟨history, hexp, hle, hw, hd⟩ := ih hsmall hlen
      exact ⟨history, hexp, hle, hw, holds_killed (holds_open ⟨hw, by omega⟩ hd threshold) hk⟩
  | @returned ops d d' s s' ok order h op horder hx ih =>
      rw [List.forall_mem_append, List.forall_mem_singleton] at hsmall
      rw [List.length_append, List.length_singleton] at hlen
      obtain ⟨history, hexp, hle, hw, hlive⟩ := ih hsmall.1 (by omega)
      have hout := holds_exec (holds_perform_newest hlive.newest order op) hx
      rcases live_outcome hlive horder ⟨hw, by omega⟩
          (recorded_concat hw (by omega) (loggable_of_small hsmall.2)) hout with
          ⟨hok, cmd, hcmd, hlive'⟩ | ⟨hlive', hkept⟩
      · cases hok
        refine ⟨history ++ [cmd], ?_, by simp; omega, ?_, hlive'⟩
        · rw [stateOf_command hcmd]
          exact hexp.applied (a := ⟨op, .acked⟩) (by simp)
        · exact (recorded_concat hw (by omega) (loggable_of_small hsmall.2) cmd hcmd).writable
      · refine ⟨history, ?_, by simp; omega, hw, hlive'⟩
        cases ok with
        | false => exact hexp.lost (a := ⟨op, .failed⟩) (by simp)
        | true =>
            have hsame : meaning op (stateOf history) = stateOf history := by
              cases hcmd : commandOf op with
              | none => exact meaning_of_none hcmd _
              | some cmd => rw [← stateOf_command hcmd, hkept rfl cmd hcmd]
            have := hexp.applied (a := ⟨op, .acked⟩) (by simp)
            rwa [hsame] at this
  | @opKilled ops d d' s order h op horder hk ih =>
      rw [List.forall_mem_append, List.forall_mem_singleton] at hsmall
      rw [List.length_append, List.length_singleton] at hlen
      obtain ⟨history, hexp, hle, hw, hlive⟩ := ih hsmall.1 (by omega)
      have hint := holds_killed (holds_perform_newest hlive.newest order op) hk
      rcases survives_interrupted hlive horder ⟨hw, by omega⟩
          (recorded_concat hw (by omega) (loggable_of_small hsmall.2)) hint with
          hd | ⟨cmd, hcmd, hd⟩
      · exact ⟨history, hexp.lost (by simp), by simp; omega, hw, hd⟩
      · refine ⟨history ++ [cmd], ?_, by simp; omega, ?_, hd⟩
        · rw [stateOf_command hcmd]
          exact hexp.applied (a := ⟨op, .killed⟩) (by simp)
        · exact (recorded_concat hw (by omega) (loggable_of_small hsmall.2) cmd hcmd).writable
  | killed h ih =>
      obtain ⟨history, hexp, hle, hw, hlive⟩ := ih hsmall hlen
      exact ⟨history, hexp, hle, hw, survives_of_live hlive⟩

/-- Wherever and however often the process is killed, the next `Open` succeeds and finds
all acknowledged operations. -/
theorem acknowledged_writes_survive {ops : List Attempt} {d : Volume Dir}
    (h : Life False ops d none) (hsmall : ∀ a ∈ ops, Small a.op) (hlen : ops.length < 2 ^ 64)
    (threshold : Int) :
    ∃ s d', run (openStore threshold) d = (.ok s, d') ∧ Explained ops s.mem := by
  obtain ⟨history, hexp, hle, hw, hd⟩ := consistent_of_life h hsmall hlen
  obtain ⟨s, d', hrun, hlive⟩ := run_open ⟨hw, by omega⟩ hd threshold
  refine ⟨s, d', hrun, ?_⟩
  rw [hlive.mem]
  exact hexp

def firstPut : Command := ⟨.put, [107], [1]⟩
def secondPut : Command := ⟨.put, [107], [2]⟩

/-- The first write is acknowledged. The second one is killed when 20 bytes of its record are in
the file, and the store is opened again. -/
theorem acknowledged_writes_survive_torn_put :
    ∃ d, Life False [⟨.put [107] [1], .returned true⟩, ⟨.put [107] [2], .killed⟩] d none ∧
      (d .wal)[1]? = some (record created.1 firstPut ++
        (record (logged created.1 firstPut) secondPut).take 20) ∧
      ∃ s d', run (openStore 1) d = (.ok s, d') ∧
        Explained [⟨.put [107] [1], .returned true⟩, ⟨.put [107] [2], .killed⟩] s.mem := by
  have hlawful : Lawful fun mem => mem.toList := fun _ => .rfl
  have hfirst : run (perform created.1 (fun mem => mem.toList) (.put [107] [1])) created.2 =
      ((logged created.1 firstPut, true), write created.2 .wal 1 (record created.1 firstPut)) :=
    rfl
  have hfile : (write created.2 .wal 1 (record created.1 firstPut) .wal)[1]? =
      some (record created.1 firstPut) := by
    rw [write_same]
    exact Std.ExtTreeMap.getElem?_insert_self
  have hlife : Life False [⟨.put [107] [1], .returned true⟩, ⟨.put [107] [2], .killed⟩]
      (write (write created.2 .wal 1 (record created.1 firstPut)) .wal 1
        (record created.1 firstPut ++ (record (logged created.1 firstPut) secondPut).take 20))
      none :=
    ((life_created False).returned (.put [107] [1]) hlawful (exec_of_run hfirst)).opKilled
      (.put [107] [2]) hlawful (.during (.part 20 hfile))
  refine ⟨_, hlife, ?_, acknowledged_writes_survive hlife (by simp [Small]) (by decide) 1⟩
  rw [write_same]
  exact Std.ExtTreeMap.getElem?_insert_self

end RaftKV.Store.Recovery
