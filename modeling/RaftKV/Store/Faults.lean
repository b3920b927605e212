import RaftKV.Store.Recovery

namespace RaftKV.Store.Faults

open Codec.Record
open Files.Directories Files.Programs
open Raft (Bytes)
open Store.Commands Store.Segments Store.Snapshots Store.Durable Store.Operations Store.Layout
open Store.Lives Store.Recovery

section Broken

variable {history : List Command} {torn : Bytes} {next : Nat}

theorem replayWAL_broken {l rest : List (Nat × Bytes)} {name : Nat} {b : Bytes}
    (h : Segments history [] next (l ++ (name, b) :: rest)) (hrest : rest ≠ [])
    (hrec : Recorded history) (htorn : parseRecord torn = none) (hne : torn ≠ []) {lastSeq : Nat}
    (hlast : lastSeq ≤ history.length) (hreach : next ≤ lastSeq + 1) :
    ∃ err, replayWAL applyRecord (l ++ (name, b ++ torn) :: rest) lastSeq
      (stateOf (history.take lastSeq)) = .error err := by
  generalize hsegs : l ++ (name, b) :: rest = segs at h
  induction h generalizing l lastSeq with
  | last hnext hend =>
      cases l with
      | nil =>
          cases hsegs
          exact absurd rfl hrest
      | cons seg l => simp at hsegs
  | @cons next next' first segs hnext hle h ih =>
      obtain ⟨-, hend, -⟩ := segments_bounds h
      cases l with
      | nil =>
          cases hsegs
          obtain ⟨hfeed, hvalid⟩ :=
            feed_chunk hrec.writable hrec.length name hnext hle hend hreach htorn
          have hcut := List.length_pos_iff.mpr hne
          rw [List.nil_append, replayWAL_cons, hfeed]
          dsimp only
          rw [if_neg hrest, if_neg (by rw [hvalid, List.length_append]; omega)]
          exact ⟨_, rfl⟩
      | cons seg l =>
          obtain ⟨rfl, hrest'⟩ := List.cons.inj hsegs
          have hnone : parseRecord [] = none := rfl
          obtain ⟨hfeed, hvalid⟩ :=
            feed_chunk hrec.writable hrec.length first hnext hle hend hreach hnone
          rw [List.append_nil] at hfeed hvalid
          obtain ⟨err, herr⟩ := @ih l (max lastSeq (next' - 1)) (by omega) (by omega) hrest'
          refine ⟨err, ?_⟩
          rw [List.cons_append, replayWAL_cons, hfeed]
          dsimp only
          rw [if_neg (by simp), if_pos hvalid, herr]

/-- A torn record is left in a segment that is not the last. -/
structure Broken (history : List Command) (d : Volume Dir) : Prop where
  anchored : Anchored d
  snaps : ∀ q b, (d .snap)[q]? = some b →
    q ≤ history.length ∧ readSnapshot b = .ok (stateOf (history.take q), q)
  segs : ∃ l name b torn rest next, (d .wal).toList = l ++ (name, b ++ torn) :: rest ∧
    rest ≠ [] ∧ torn ≠ [] ∧ parseRecord torn = none ∧
    Segments history [] next (l ++ (name, b) :: rest) ∧
    ∃ q, (q = 0 ∨ ∃ b, (d .snap)[q]? = some b) ∧ next ≤ q + 1

theorem broken_of_same {d d' : Volume Dir} (h : Broken history d) (hs : Same d d') :
    Broken history d' := by
  refine ⟨anchored_of_same h.anchored hs, ?_, ?_⟩
  · rw [hs.2]
    exact h.snaps
  · rw [hs.1, hs.2]
    exact h.segs

theorem holds_open_broken {faults : Prop} {d : Volume Dir} (hrec : Recorded history)
    (h : Broken history d) (threshold : Int) :
    Holds faults (fun r _ => ∃ err, r = .error err) (Broken history) (openStore threshold) d := by
  obtain ⟨q, hq, hsnap, hnewest⟩ := newestSnapshot_of_states h.snaps
  obtain ⟨l, name, b, torn, rest, next, hlist, hrest, hne, htorn, hsegs, q', hq', hnext⟩ := h.segs
  have hreach : next ≤ q + 1 := by
    rcases hq' with rfl | ⟨b, hb⟩
    · omega
    · have := hnewest q' b hb
      omega
  obtain ⟨err, herr⟩ := replayWAL_broken hsegs hrest hrec htorn hne hq hreach
  refine holds_openStore_error (Or.inr ⟨_, q, err, hsnap, ?_⟩) ?_ ?_
  · rw [listSegments, hlist]
    exact herr
  · exact fun d' hs => broken_of_same h hs
  · exact fun err _ _ => ⟨err, rfl⟩

end Broken

section Installing

variable {history : List Command} {torn : Bytes} {d d' : Volume Dir} {data : Bytes} {seq : Nat}

theorem anchor_insert {next : Nat}
    (h : ∃ q, (q = 0 ∨ ∃ b, (d .snap)[q]? = some b) ∧ next ≤ q + 1) :
    ∃ q, (q = 0 ∨ ∃ b, ((d .snap).insert seq data)[q]? = some b) ∧ next ≤ q + 1 := by
  obtain ⟨q, hq, hle⟩ := h
  refine ⟨q, hq.imp_right ?_, hle⟩
  rintro ⟨b, hb⟩
  rw [Std.ExtTreeMap.getElem?_insert]
  split
  · exact ⟨data, rfl⟩
  · exact ⟨b, hb⟩

theorem recoverable_installed (h : Recoverable history torn d)
    (hsnaps : ∀ q b, (d .snap)[q]? = some b → q ≤ seq) (hseq : seq ≤ history.length)
    (hdata : readSnapshot data = .ok (stateOf (history.take seq), seq))
    (hi : Installed seq data d d') : Recoverable history torn d' := by
  refine ⟨(anchored_of_stage h.anchored hsnaps (.installed hi)).1, ?_, ?_⟩
  · rw [hi.2]
    exact snaps_insert h.snaps hseq hdata
  · rw [hi.1, hi.2]
    exact h.segs.imp_right fun ⟨next, hsegs, hanchor⟩ => ⟨next, hsegs, anchor_insert hanchor⟩

theorem broken_installed (h : Broken history d)
    (hsnaps : ∀ q b, (d .snap)[q]? = some b → q ≤ seq) (hseq : seq ≤ history.length)
    (hdata : readSnapshot data = .ok (stateOf (history.take seq), seq))
    (hi : Installed seq data d d') : Broken history d' := by
  refine ⟨(anchored_of_stage h.anchored hsnaps (.installed hi)).1, ?_, ?_⟩
  · rw [hi.2]
    exact snaps_insert h.snaps hseq hdata
  · rw [hi.1, hi.2]
    obtain ⟨l, name, b, torn, rest, next, hlist, hrest, hne, htorn, hsegs, hanchor⟩ := h.segs
    exact ⟨l, name, b, torn, rest, next, hlist, hrest, hne, htorn, hsegs, anchor_insert hanchor⟩

end Installing

/-- What is left of a history: recovery finds it, or fails for good. -/
def Remains (history : List Command) (d : Volume Dir) : Prop :=
  Survives history d ∨ Broken history d

theorem remains_installed {history : List Command} {d d' : Volume Dir} {data : Bytes} {seq : Nat}
    (hsnaps : ∀ q b, (d .snap)[q]? = some b → q ≤ seq)
    (hseq : seq ≤ history.length)
    (hdata : readSnapshot data = .ok (stateOf (history.take seq), seq))
    (hd : Same d d' ∨ Installed seq data d d') :
    (Survives history d → Survives history d') ∧ (Broken history d → Broken history d') := by
  rcases hd with hs | hi
  · exact ⟨fun ⟨torn, htorn, h⟩ => ⟨torn, htorn, recoverable_of_same h hs⟩,
      fun h => broken_of_same h hs⟩
  · exact ⟨fun ⟨torn, htorn, h⟩ => ⟨torn, htorn, recoverable_installed h hsnaps hseq hdata hi⟩,
      fun h => broken_installed h hsnaps hseq hdata hi⟩

/-- A store that has not failed holds the history of its directories. Segments that were
created but never used may follow the active one. -/
structure Held (history : List Command) (s : DurableStore) (d : Volume Dir) : Prop where
  recoverable : Recoverable history [] d
  active : ∃ l b rest, (d .wal).toList = l ++ (s.wal.start, b) :: rest ∧ ∀ p ∈ rest, p.2 = []
  mem : s.mem = stateOf history
  seq : s.seq = history.length

/-- A store that has failed still has the map of the history. -/
structure Failed (history : List Command) (s : DurableStore) (d : Volume Dir) : Prop where
  failed : s.wal.failed = true
  mem : s.mem = stateOf history
  seq : s.seq = history.length
  snaps : ∀ q b, (d .snap)[q]? = some b → q ≤ s.seq

/-- Its log may have one more command or a torn record. -/
structure Stuck (history : List Command) (s : DurableStore) (d : Volume Dir) : Prop extends
    Failed history s d where
  disk : ∃ ext, (∀ cmd ∈ ext, Writable cmd) ∧ ext.length ≤ 1 ∧ Remains (history ++ ext) d

section Held

variable {history : List Command} {s : DurableStore} {d d' : Volume Dir} {order : Order}

theorem held_of_live (h : Live history s d) : Held history s d := by
  obtain ⟨l, b, hl⟩ := h.newest.last
  exact ⟨h.recoverable, ⟨l, b, [], hl, by simp⟩, h.mem, h.seq⟩

theorem Held.snaps (h : Held history s d) : ∀ q b, (d .snap)[q]? = some b → q ≤ s.seq := by
  rw [h.seq]
  exact fun q b hb => (h.recoverable.snaps q b hb).1

theorem Held.names (h : Held history s d) : ∀ p ∈ (d .wal).toList, p.1 ≤ s.seq + 1 := by
  intro p hp
  obtain ⟨q, hq, hle⟩ := h.recoverable.anchored p hp
  rcases hq with rfl | ⟨b, hb⟩
  · omega
  · have := h.snaps q b hb
    omega

theorem Held.list {b : Bytes} (h : Held history s d) (hfile : (d .wal)[s.wal.start]? = some b) :
    ∃ l rest, (d .wal).toList = l ++ (s.wal.start, b) :: rest ∧ ∀ p ∈ rest, p.2 = [] := by
  obtain ⟨l, c, rest, hl, hempty⟩ := h.active
  obtain rfl : c = b := Option.some.inj ((getElem?_of_toList hl).symm.trans hfile)
  exact ⟨l, rest, hl, hempty⟩

theorem Held.file (h : Held history s d) : ∃ b, (d .wal)[s.wal.start]? = some b := by
  obtain ⟨l, b, rest, hl, -⟩ := h.active
  exact ⟨b, getElem?_of_toList hl⟩

theorem held_logged {cmd : Command} {b : Bytes} (h : Held history s d)
    (hfile : (d .wal)[s.wal.start]? = some b) :
    Held (history ++ [cmd]) (logged s cmd) (write d .wal s.wal.start (b ++ record s cmd)) := by
  obtain ⟨l, rest, hl, hempty⟩ := h.list hfile
  refine ⟨?_, ⟨l, b ++ record s cmd, rest, ?_, hempty⟩, ?_, ?_⟩
  · rw [record_eq h.seq]
    exact recoverable_records h.recoverable hl hempty [cmd]
  · rw [write_same]
    exact toList_insert_at hl
  · rw [stateOf_concat, ← h.mem]
    rfl
  · rw [List.length_append, List.length_singleton, ← h.seq]
    rfl

theorem held_stage {s' : DurableStore} (hrec : Recorded history) (horder : Lawful order)
    (h : Held history s d) (hstage : Stage s.seq (dump s order) d d')
    (hactive : ∃ l b rest, (d' .wal).toList = l ++ (s'.wal.start, b) :: rest ∧ ∀ p ∈ rest, p.2 = [])
    (hmem : s'.mem = s.mem) (hseq : s'.seq = s.seq) : Held history s' d' := by
  rw [h.seq] at hstage
  exact ⟨recoverable_stage h.recoverable (readSnapshot_dump hrec horder h.mem h.seq) hstage,
    hactive, hmem.trans h.mem, hseq.trans h.seq⟩

theorem active_last {s' : DurableStore} {l : List (Nat × Bytes)}
    (hwal : (d' .wal).toList = l ++ [(s'.wal.start, [])]) :
    ∃ l b rest, (d' .wal).toList = l ++ (s'.wal.start, b) :: rest ∧ ∀ p ∈ rest, p.2 = [] :=
  ⟨l, [], [], hwal, by simp⟩

theorem held_ends {r : DurableStore × Except StoreError Unit} (hrec : Recorded history)
    (horder : Lawful order) (h : Held history s d) (hends : Ends s (dump s order) d r d') :
    Held history r.1 d' := by
  have hstage := stage_of_ends hends
  cases hends with
  | failed _ hi => exact held_stage hrec horder h hstage (by rw [hi.1]; exact h.active) rfl rfl
  | occupied _ _ hi => exact held_stage hrec horder h hstage (by rw [hi.1]; exact h.active) rfl rfl
  | closed _ _ _ hwal _ => exact held_stage hrec horder h hstage (active_last hwal) rfl rfl
  | done _ _ _ hwal _ =>
      exact held_stage hrec horder h hstage (active_last (l := []) hwal) rfl rfl

theorem held_faulted {s' : DurableStore} (hrec : Recorded history) (horder : Lawful order)
    (h : Held history s d) (hf : Faulted s (dump s order) d s' d') : Held history s' d' := by
  have hstage := stage_of_faulted hf
  cases hf with
  | kept hd =>
      refine held_stage hrec horder h hstage ?_ rfl rfl
      rcases hd with hs | hi
      · rw [hs.1]
        exact h.active
      · rw [hi.1]
        exact h.active
  | orphaned _ hwal _ =>
      refine held_stage hrec horder h hstage ?_ rfl rfl
      obtain ⟨l, b, rest, hl, hempty⟩ := h.active
      refine ⟨l, b, rest ++ [(s.seq + 1, [])], by rw [hwal, hl]; simp, ?_⟩
      rw [List.forall_mem_append, List.forall_mem_singleton]
      exact ⟨hempty, rfl⟩
  | moved _ left _ hwal _ => exact held_stage hrec horder h hstage (active_last hwal) rfl rfl
  | pruned _ hwal _ _ _ =>
      exact held_stage hrec horder h hstage (active_last (l := []) hwal) rfl rfl

end Held

section Cut

variable {history : List Command} {s : DurableStore} {d : Volume Dir} {cmd : Command} {b : Bytes}
variable {l rest : List (Nat × Bytes)}

theorem survives_cut (h : Held history s d)
    (hlist : (d .wal).toList = l ++ (s.wal.start, b) :: rest) (hw : Writable cmd) {n : Nat}
    (hn : n = 0 ∨ n < (record s cmd).length ∧ rest = []) :
    Survives history (write d .wal s.wal.start (b ++ (record s cmd).take n)) := by
  rcases hn with rfl | ⟨hn, rfl⟩
  · rw [List.take_zero, List.append_nil, write_eq_self (getElem?_of_toList hlist)]
    exact ⟨[], rfl, h.recoverable⟩
  · obtain ⟨whole, hb, htorn⟩ := recoverable_torn h.recoverable hlist
    rw [hb, List.append_nil]
    exact ⟨_, parseRecord_torn hw hn, htorn _⟩

theorem broken_cut (h : Held history s d)
    (hlist : (d .wal).toList = l ++ (s.wal.start, b) :: rest) (hrest : rest ≠ [])
    (hw : Writable cmd) {n : Nat} (hpos : 0 < n) (hn : n < (record s cmd).length) :
    Broken history (write d .wal s.wal.start (b ++ (record s cmd).take n)) := by
  obtain ⟨next, hsegs, hnext⟩ := segments_of_recoverable h.recoverable hlist
  have hsnap := write_of_ne (show Dir.snap ≠ Dir.wal by decide) d s.wal.start
    (b ++ (record s cmd).take n)
  rw [hlist] at hsegs
  refine ⟨anchored_write h.recoverable.anchored hlist _, ?_, ?_⟩
  · rw [hsnap]
    exact h.recoverable.snaps
  · rw [hsnap, write_same, toList_insert_at hlist]
    refine ⟨l, _, b, _, rest, next, rfl, hrest, ?_, parseRecord_torn hw hn, hsegs, hnext⟩
    rw [← List.length_pos_iff, List.length_take]
    omega

theorem survives_whole (h : Held history s d) (hfile : (d .wal)[s.wal.start]? = some b) {n : Nat}
    (hn : (record s cmd).length ≤ n) :
    Survives (history ++ [cmd]) (write d .wal s.wal.start (b ++ (record s cmd).take n)) := by
  rw [List.take_of_length_le hn]
  exact ⟨[], rfl, (held_logged h hfile).recoverable⟩

end Cut

section Steps

variable {history : List Command} {s : DurableStore} {d d' : Volume Dir} {order : Order}
variable {op : Operation}

/-- What a store that has failed can still do: write snapshots that no rotation follows. -/
structure Idle (s : DurableStore) (order : Order) (d : Volume Dir) (s' : DurableStore)
    (d' : Volume Dir) : Prop where
  failed : s'.wal.failed = true
  mem : s'.mem = s.mem
  seq : s'.seq = s.seq
  files : Same d d' ∨ Installed s.seq (dump s order) d d'

theorem holds_perform_failed {faults : Prop} (hfailed : s.wal.failed = true) (order : Order)
    (d : Volume Dir) (op : Operation) :
    Holds faults (fun r d' => Idle s order d r.1 d')
      (fun d' => Same d d' ∨ Installed s.seq (dump s order) d d') (perform s order op) d := by
  have hsame : Same d d ∨ Installed s.seq (dump s order) d d := Or.inl (.refl d)
  have hrefuse (cmd : Command) : ∃ err, s.logAndApply cmd order = .ret (refused s, .error err) :=
    logAndApply_refused cmd order (Or.inl hfailed)
  cases op with
  | put key value =>
      obtain ⟨err, hret⟩ := hrefuse ⟨.put, key, value⟩
      rw [perform, DurableStore.put, hret]
      exact ⟨hsame, rfl, rfl, rfl, hsame⟩
  | delete key =>
      obtain ⟨err, hret⟩ := hrefuse ⟨.delete, key, []⟩
      rw [perform, DurableStore.delete]
      cases s.mem.get key with
      | none => exact ⟨hsame, hfailed, rfl, rfl, hsame⟩
      | some value =>
          dsimp only
          rw [hret]
          exact ⟨hsame, rfl, rfl, rfl, hsame⟩
  | snapshot =>
      refine holds_bind (holds_bind (holds_writeSnapshot (fun _ h => h) ?_ ?_))
      · intro d' hi
        change Holds faults _ _ (s.wal.rotate (s.seq + 1) >>= _) d'
        unfold Wal.rotate
        rw [if_pos hfailed]
        exact ⟨Or.inr hi, Or.inr hi, hfailed, rfl, rfl, Or.inr hi⟩
      · intro _ d' hd
        exact ⟨hd, hd, hfailed, rfl, rfl, hd⟩
  | close =>
      refine ⟨hsame, ?_, rfl, rfl, hsame⟩
      change s.wal.close.1.failed = true
      unfold Wal.close
      split <;> exact hfailed

theorem failed_idle {s' : DurableStore} (hrec : Recorded history) (horder : Lawful order)
    (h : Failed history s d) (hi : Idle s order d s' d') : Failed history s' d' ∧
      ∀ ext, (Survives (history ++ ext) d → Survives (history ++ ext) d') ∧
        (Broken (history ++ ext) d → Broken (history ++ ext) d') := by
  refine ⟨⟨hi.failed, hi.mem.trans h.mem, hi.seq.trans h.seq, ?_⟩, fun ext => ?_⟩
  · rw [hi.seq]
    rcases hi.files with hs | hinst
    · rw [hs.2]
      exact h.snaps
    · rw [hinst.2]
      exact snaps_insert_le _ h.snaps
  · have hread : readSnapshot (dump s order) =
        .ok (stateOf ((history ++ ext).take s.seq), s.seq) := by
      rw [readSnapshot_dump hrec horder h.mem h.seq, h.seq, List.take_left]
    have hle : s.seq ≤ (history ++ ext).length := by
      rw [h.seq, List.length_append]
      exact Nat.le_add_right _ _
    exact remains_installed h.snaps hle hread hi.files

theorem stuck_idle {s' : DurableStore} (hrec : Recorded history) (horder : Lawful order)
    (h : Stuck history s d) (hi : Idle s order d s' d') : Stuck history s' d' := by
  obtain ⟨ext, hw, hlen, hdisk⟩ := h.disk
  obtain ⟨hfailed, hkept⟩ := failed_idle hrec horder h.toFailed hi
  exact ⟨hfailed, ext, hw, hlen, hdisk.imp (hkept ext).1 (hkept ext).2⟩

/-- The history of a call is as before, or longer by its command. -/
def Follows (op : Operation) (history history' : List Command) : Prop :=
  history' = history ∨ ∃ cmd, commandOf op = some cmd ∧ history' = history ++ [cmd]

theorem stuck_cut {cmd : Command} {b : Bytes} (h : Held history s d)
    (hfile : (d .wal)[s.wal.start]? = some b) (hw : Writable cmd) (n : Nat) :
    Stuck history (refused s) (write d .wal s.wal.start (b ++ (record s cmd).take n)) := by
  have hsnaps : ∀ q c, (write d .wal s.wal.start (b ++ (record s cmd).take n) .snap)[q]? = some c →
      q ≤ s.seq := by
    rw [write_of_ne (by decide)]
    exact h.snaps
  refine ⟨⟨rfl, h.mem, h.seq, hsnaps⟩, ?_⟩
  obtain ⟨l, rest, hl, -⟩ := h.list hfile
  by_cases hlen : n < (record s cmd).length
  · refine ⟨[], by simp, by simp, ?_⟩
    rw [List.append_nil]
    by_cases hn : n = 0 ∨ rest = []
    · exact Or.inl (survives_cut h hl hw (hn.imp_right fun hrest => ⟨hlen, hrest⟩))
    · rw [not_or] at hn
      exact Or.inr (broken_cut h hl hn.2 hw (Nat.pos_of_ne_zero hn.1) hlen)
  · exact ⟨[cmd], by simpa using hw, le_rfl, Or.inl (survives_whole h hfile (Nat.not_lt.mp hlen))⟩

theorem held_outcome {faults : Prop} {r : DurableStore × Bool} (h : Held history s d)
    (horder : Lawful order) (hrec : Recorded history)
    (hrec' : ∀ cmd, commandOf op = some cmd → Recorded (history ++ [cmd]))
    (hout : Outcome faults s order d op r d') :
    Stuck history r.1 d' ∨ ∃ history', Follows op history history' ∧ Held history' r.1 d' := by
  have hsame : ∀ s' : DurableStore, s'.mem = s.mem → s'.seq = s.seq →
      s'.wal.start = s.wal.start → ∃ history', Follows op history history' ∧ Held history' s' d :=
    fun s' hmem hseq hstart => ⟨history, Or.inl rfl, h.recoverable, by rw [hstart]; exact h.active,
      hmem.trans h.mem, hseq.trans h.seq⟩
  cases hout with
  | absent _ => exact Or.inr (hsame s rfl rfl rfl)
  | refused _ _ => exact Or.inr (hsame _ rfl rfl rfl)
  | logged hcmd _ _ hfile => exact Or.inr ⟨_, Or.inr ⟨_, hcmd, rfl⟩, held_logged h hfile⟩
  | dumped hcmd _ _ hfile hends =>
      exact Or.inr ⟨_, Or.inr ⟨_, hcmd, rfl⟩,
        held_ends (hrec' _ hcmd) horder (held_logged h hfile) hends⟩
  | snapshot hends => exact Or.inr ⟨history, Or.inl rfl, held_ends hrec horder h hends⟩
  | closed =>
      refine Or.inr (hsame _ rfl rfl ?_)
      unfold DurableStore.close Wal.close
      split <;> rfl
  | cut _ hcmd _ _ hfile n =>
      exact Or.inl (stuck_cut h hfile ((hrec' _ hcmd).writable _ (by simp)) n)
  | dumpFailed _ hcmd hfile hf =>
      exact Or.inr ⟨_, Or.inr ⟨_, hcmd, rfl⟩,
        held_faulted (hrec' _ hcmd) horder (held_logged h hfile) hf⟩
  | snapshotFailed _ hf => exact Or.inr ⟨history, Or.inl rfl, held_faulted hrec horder h hf⟩

theorem held_interrupted (h : Held history s d) (horder : Lawful order) (hrec : Recorded history)
    (hrec' : ∀ cmd, commandOf op = some cmd → Recorded (history ++ [cmd]))
    (hint : Interrupted s order d op d') : ∃ ext, (∀ cmd ∈ ext, Writable cmd) ∧
      ext.length ≤ 1 ∧ Remains (history ++ ext) d' := by
  have hold {d' : Volume Dir} (hd : Recoverable history [] d') : ∃ ext,
      (∀ cmd ∈ ext, Writable cmd) ∧ ext.length ≤ 1 ∧ Remains (history ++ ext) d' :=
    ⟨[], by simp, by simp, Or.inl ⟨[], rfl, by rw [List.append_nil]; exact hd⟩⟩
  cases hint with
  | begun => exact hold h.recoverable
  | torn hcmd hfile n => exact (stuck_cut h hfile ((hrec' _ hcmd).writable _ (by simp)) n).disk
  | @dumping _ cmd _ _ hcmd hfile hstage =>
      have hlog : Held (history ++ [cmd]) (logged s cmd) _ := held_logged h hfile
      have hread := readSnapshot_dump (hrec' cmd hcmd) horder hlog.mem hlog.seq
      have hlen : s.seq + 1 = (history ++ [cmd]).length := hlog.seq
      rw [hlen] at hstage
      refine ⟨[cmd], ?_, le_rfl, Or.inl ⟨[], rfl, recoverable_stage hlog.recoverable hread hstage⟩⟩
      simpa using (hrec' cmd hcmd).writable cmd (by simp)
  | snapshot hstage =>
      rw [h.seq] at hstage
      exact hold (recoverable_stage h.recoverable (readSnapshot_dump hrec horder h.mem h.seq)
        hstage)

end Steps

def Upheld (ops : List Attempt) (d : Volume Dir) : Option DurableStore → Prop
  | none => ∃ history, history.length ≤ ops.length ∧ (∀ cmd ∈ history, Writable cmd) ∧
      Remains history d
  | some s => ∃ history, history.length ≤ ops.length ∧ (∀ cmd ∈ history, Writable cmd) ∧
      (Held history s d ∨ Stuck history s d ∧ history.length < ops.length)

section Lives

variable {ops : List Attempt} {d d' : Volume Dir} {s : DurableStore} {op : Operation}
variable {history : List Command}

theorem upheld_killed {ext : List Command} (a : Attempt) (hle : history.length ≤ ops.length)
    (hw : ∀ cmd ∈ history, Writable cmd) (hext : ∀ cmd ∈ ext, Writable cmd) (hlen : ext.length ≤ 1)
    (h : Remains (history ++ ext) d) : Upheld (ops ++ [a]) d none := by
  refine ⟨history ++ ext, ?_, ?_, h⟩
  · rw [List.length_append, List.length_append]
    exact Nat.add_le_add hle hlen
  · rw [List.forall_mem_append]
    exact ⟨hw, hext⟩

theorem upheld_of_life {running : Option DurableStore} (h : Life True ops d running)
    (hops : ∀ a ∈ ops, Loggable a.op) (hlen : ops.length < 2 ^ 64) : Upheld ops d running := by
  induction h with
  | new =>
      refine ⟨[], le_rfl, by simp, Or.inl ⟨[], rfl, ?_, ?_, Or.inl ⟨rfl, rfl⟩⟩⟩
      · intro p hp
        cases hp
      · intro q b hb
        rw [Std.ExtTreeMap.getElem?_empty] at hb
        cases hb
  | opened h threshold hx ih =>
      obtain ⟨history, hle, hw, hd⟩ := ih hops hlen
      have hrec : Recorded history := ⟨hw, by omega⟩
      rcases hd with hd | hd
      · rcases holds_exec (holds_open hrec hd threshold) hx with ⟨_, hok, hlive⟩ | ⟨-, err, herr⟩
        · cases hok
          exact ⟨history, hle, hw, Or.inl (held_of_live hlive)⟩
        · cases herr
      · obtain ⟨err, herr⟩ := holds_exec (holds_open_broken hrec hd threshold) hx
        cases herr
  | openKilled h threshold hk ih =>
      obtain ⟨history, hle, hw, hd⟩ := ih hops hlen
      have hrec : Recorded history := ⟨hw, by omega⟩
      refine ⟨history, hle, hw, ?_⟩
      rcases hd with hd | hd
      · exact Or.inl (holds_killed (holds_open hrec hd threshold) hk)
      · exact Or.inr (holds_killed (holds_open_broken hrec hd threshold) hk)
  | @returned ops d d' s s' ok order h op horder hx ih =>
      rw [List.forall_mem_append, List.forall_mem_singleton] at hops
      rw [List.length_append, List.length_singleton] at hlen
      obtain ⟨history, hle, hw, hs⟩ := ih hops.1 (by omega)
      have hrec : Recorded history := ⟨hw, by omega⟩
      have hrec' := recorded_concat hw (by omega) hops.2
      rcases hs with hheld | ⟨hstuck, hlt⟩
      · obtain ⟨b, hfile⟩ := hheld.file
        have hout := holds_exec (holds_perform hfile hheld.names order op) hx
        rcases held_outcome hheld horder hrec hrec' hout with hstuck | ⟨history', hf, hheld'⟩
        · exact ⟨history, by simp; omega, hw, Or.inr ⟨hstuck, by simp; omega⟩⟩
        · rcases hf with rfl | ⟨cmd, hcmd, rfl⟩
          · exact ⟨_, by simp; omega, hw, Or.inl hheld'⟩
          · exact ⟨_, by simp; omega, (hrec' cmd hcmd).writable, Or.inl hheld'⟩
      · have hidle := holds_exec (holds_perform_failed hstuck.failed order d op) hx
        exact ⟨history, by simp; omega, hw,
          Or.inr ⟨stuck_idle hrec horder hstuck hidle, by simp; omega⟩⟩
  | @opKilled ops d d' s order h op horder hk ih =>
      rw [List.forall_mem_append, List.forall_mem_singleton] at hops
      rw [List.length_append, List.length_singleton] at hlen
      obtain ⟨history, hle, hw, hs⟩ := ih hops.1 (by omega)
      have hrec : Recorded history := ⟨hw, by omega⟩
      rcases hs with hheld | ⟨hstuck, hlt⟩
      · obtain ⟨b, hfile⟩ := hheld.file
        have hint := holds_killed (holds_perform hfile hheld.names order op) hk
        obtain ⟨ext, hext, hone, hd⟩ :=
          held_interrupted hheld horder hrec (recorded_concat hw (by omega) hops.2) hint
        exact upheld_killed _ hle hw hext hone hd
      · have hfiles := holds_killed (holds_perform_failed hstuck.failed order d op) hk
        have hidle : Idle s order d s d' := ⟨hstuck.failed, rfl, rfl, hfiles⟩
        obtain ⟨ext, hext, hone, hd⟩ := (stuck_idle hrec horder hstuck hidle).disk
        exact upheld_killed _ hle hw hext hone hd
  | killed h ih =>
      obtain ⟨history, hle, hw, hs⟩ := ih hops hlen
      rcases hs with hheld | ⟨hstuck, hlt⟩
      · exact ⟨history, hle, hw, Or.inl ⟨[], rfl, hheld.recoverable⟩⟩
      · obtain ⟨ext, hext, hone, hd⟩ := hstuck.disk
        refine ⟨history ++ ext, by simp; omega, ?_, hd⟩
        rw [List.forall_mem_append]
        exact ⟨hw, hext⟩

end Lives

/-- Further calls on a store, whether or not system calls fail in them. -/
inductive Calls : DurableStore → Volume Dir → DurableStore → Volume Dir → Prop
  | none (s : DurableStore) (d : Volume Dir) : Calls s d s d
  | call {s s' s'' : DurableStore} {d d' d'' : Volume Dir} {op : Operation} {order : Order}
      {ok : Bool} (h : Calls s d s' d') (horder : Lawful order)
      (hx : Exec True (perform s' order op) d' (s'', ok) d'') : Calls s d s'' d''

/-- The store, and the one that is opened after it, show a map. -/
def Shows (mem : MemStore) (s : DurableStore) (d : Volume Dir) : Prop :=
  s.mem = mem ∧ ∀ threshold, ∃ s' d', run (openStore threshold) d = (.ok s', d') ∧ s'.mem = mem

theorem failed_calls {history : List Command} {s s' : DurableStore} {d d' : Volume Dir}
    (hrec : Recorded history) (h : Failed history s d) (hcalls : Calls s d s' d') :
    Failed history s' d' ∧ ∀ ext, (Survives (history ++ ext) d → Survives (history ++ ext) d') ∧
      (Broken (history ++ ext) d → Broken (history ++ ext) d') := by
  induction hcalls with
  | none => exact ⟨h, fun ext => ⟨id, id⟩⟩
  | call hcalls horder hx ih =>
      obtain ⟨hfailed, hkept⟩ := ih h
      have hidle := holds_exec (holds_perform_failed hfailed.failed _ _ _) hx
      obtain ⟨hfailed', hkept'⟩ := failed_idle hrec horder hfailed hidle
      exact ⟨hfailed', fun ext => ⟨fun hd => (hkept' ext).1 ((hkept ext).1 hd),
        fun hd => (hkept' ext).2 ((hkept ext).2 hd)⟩⟩

theorem cut_of_error {history : List Command} {s s' : DurableStore} {d d' : Volume Dir}
    {order : Order} {op : Operation} {cmd : Command} (h : Held history s d)
    (hfailed : s.wal.failed = false) (hclosed : s.wal.closed = false)
    (hcmd : commandOf op = some cmd) (hx : Exec True (perform s order op) d (s', false) d') :
    s' = refused s ∧ ∃ b, (d .wal)[s.wal.start]? = some b ∧ ∃ n ≤ (record s cmd).length,
      d' = write d .wal s.wal.start (b ++ (record s cmd).take n) := by
  obtain ⟨b, hfile⟩ := h.file
  have hout := holds_exec (holds_perform hfile h.names order op) hx
  generalize hr : (s', false) = r at hout
  cases hout with
  | absent _ => cases hr
  | refused _ hflags =>
      rw [hfailed, hclosed] at hflags
      rcases hflags with hflag | hflag <;> cases hflag
  | logged _ _ _ _ => cases hr
  | dumped _ _ _ _ _ => cases hr
  | snapshot _ => cases hcmd
  | closed => cases hcmd
  | cut _ hcmd' _ _ hfile' n =>
      rw [hcmd] at hcmd'
      cases hcmd'
      cases hr
      refine ⟨rfl, _, hfile', min n (record s cmd).length, min_le_right _ _, ?_⟩
      rw [← List.take_eq_take_min]
  | dumpFailed _ _ _ _ => cases hr
  | snapshotFailed _ _ => cases hcmd

theorem shows_iff_of_survives {history : List Command} {mem : MemStore} {s : DurableStore}
    {d : Volume Dir} (hrec : Recorded history) (h : Survives history d) (hmem : s.mem = mem) :
    Shows mem s d ↔ stateOf history = mem := by
  constructor
  · rintro ⟨-, hopen⟩
    obtain ⟨s', d', hrun, hs'⟩ := hopen 0
    obtain ⟨s'', d'', hrun', hlive⟩ := run_open hrec h 0
    rw [hrun] at hrun'
    cases hrun'
    rw [← hlive.mem, hs']
  · intro heq
    refine ⟨hmem, fun threshold => ?_⟩
    obtain ⟨s', d', hrun, hlive⟩ := run_open hrec h threshold
    exact ⟨s', d', hrun, by rw [hlive.mem, heq]⟩

theorem not_shows_of_broken {history : List Command} {mem : MemStore} {s : DurableStore}
    {d : Volume Dir} (hrec : Recorded history) (h : Broken history d) : ¬ Shows mem s d := by
  rintro ⟨-, hopen⟩
  obtain ⟨s', d', hrun, -⟩ := hopen 0
  have hx : Exec False (openStore 0) d _ _ := exec_of_run hrun
  obtain ⟨err, herr⟩ := holds_exec (holds_open_broken hrec h 0) hx
  cases herr

/-- **A failed write**: what it left is not found again exactly if it is nothing, or less
than the record at the end of the newest segment, or a command without effect. -/
theorem failed_write_not_stored_iff {ops : List Attempt} {d d' d'' : Volume Dir}
    {s s' s'' : DurableStore} {order : Order} {op : Operation} {cmd : Command}
    (h : Life True ops d (some s)) (hops : ∀ a ∈ ops, Loggable a.op) (hop : Loggable op)
    (hlen : ops.length + 1 < 2 ^ 64) (hfailed : s.wal.failed = false)
    (hclosed : s.wal.closed = false) (hcmd : commandOf op = some cmd)
    (hx : Exec True (perform s order op) d (s', false) d') (hcalls : Calls s' d' s'' d'') :
    ∃ b n, (d .wal)[s.wal.start]? = some b ∧ n ≤ (record s cmd).length ∧
      d' = write d .wal s.wal.start (b ++ (record s cmd).take n) ∧
      (Shows s.mem s'' d'' ↔ n = 0 ∨
        (n < (record s cmd).length ∧ ∀ p ∈ listSegments d, p.1 ≤ s.wal.start) ∨
        (n = (record s cmd).length ∧ meaning op s.mem = s.mem)) := by
  obtain ⟨history, hle, hw, hheld | ⟨hstuck, -⟩⟩ := upheld_of_life h hops (by omega)
  · have hrec : Recorded history := ⟨hw, by omega⟩
    have hrec' := recorded_concat hw (by omega) hop cmd hcmd
    obtain ⟨rfl, b, hfile, n, hn, rfl⟩ := cut_of_error hheld hfailed hclosed hcmd hx
    refine ⟨b, n, hfile, hn, rfl, ?_⟩
    obtain ⟨l, rest, hl, -⟩ := hheld.list hfile
    have hlast : (∀ p ∈ listSegments d, p.1 ≤ s.wal.start) ↔ rest = [] := le_iff_last hl
    have hstuck := stuck_cut hheld hfile (hop cmd hcmd) n
    obtain ⟨hfailed'', hkept⟩ := failed_calls hrec hstuck.toFailed hcalls
    have hmem : s''.mem = s.mem := hfailed''.mem.trans hheld.mem.symm
    have hpos : 0 < (record s cmd).length := by
      rw [record, length_frame]
      exact Nat.add_pos_left (by decide) _
    rw [hlast]
    rcases hn.lt_or_eq with hlt | rfl
    · by_cases hcut : n = 0 ∨ rest = []
      · have hd := (hkept []).1 (by
          rw [List.append_nil]
          exact survives_cut hheld hl (hop cmd hcmd) (hcut.imp_right fun hrest => ⟨hlt, hrest⟩))
        rw [List.append_nil] at hd
        rw [shows_iff_of_survives hrec hd hmem, hheld.mem]
        exact iff_of_true rfl (hcut.imp_right fun hrest => Or.inl ⟨hlt, hrest⟩)
      · have hd := (hkept []).2 (by
          rw [List.append_nil]
          rw [not_or] at hcut
          exact broken_cut hheld hl hcut.2 (hop cmd hcmd) (Nat.pos_of_ne_zero hcut.1) hlt)
        rw [List.append_nil] at hd
        refine iff_of_false (not_shows_of_broken hrec hd) ?_
        rintro (hz | ⟨-, hrest⟩ | ⟨heq, -⟩)
        · exact hcut (Or.inl hz)
        · exact hcut (Or.inr hrest)
        · omega
    · have hd := (hkept [cmd]).1 (survives_whole hheld hfile le_rfl)
      rw [shows_iff_of_survives hrec' hd hmem, stateOf_command hcmd, ← hheld.mem]
      constructor
      · exact fun hsame => Or.inr (Or.inr ⟨rfl, hsame⟩)
      · rintro (hz | ⟨hlt, -⟩ | ⟨-, hsame⟩)
        · omega
        · exact absurd hlt (lt_irrefl _)
        · exact hsame
  · rw [hstuck.failed] at hfailed
    cases hfailed

def firstPut : Operation :=
  .put [107] [1]

theorem exec_failed_sync (order : Order) :
    Exec True (perform created.1 order firstPut) created.2 (refused created.1, false)
      (write created.2 .wal 1 (record created.1 ⟨.put, [107], [1]⟩)) :=
  .done rfl (.failed trivial (.untouched _) (.ret _ _))

theorem failed_write_not_stored_iff_synced :
    ∃ d' n, Exec True (perform created.1 (fun mem => mem.toList) firstPut) created.2
        (refused created.1, false) d' ∧
      (Shows created.1.mem (refused created.1) d' ↔ n = 0 ∨
        (n < (record created.1 ⟨.put, [107], [1]⟩).length ∧
          ∀ p ∈ listSegments created.2, p.1 ≤ created.1.wal.start) ∨
        (n = (record created.1 ⟨.put, [107], [1]⟩).length ∧
          meaning firstPut created.1.mem = created.1.mem)) := by
  have hop : Loggable firstPut := loggable_of_small ⟨by decide, by decide⟩
  have hx := exec_failed_sync fun mem => mem.toList
  obtain ⟨b, n, -, -, -, hiff⟩ := failed_write_not_stored_iff (life_created True) (by simp) hop
    (by decide) rfl rfl rfl hx (.none _ _)
  exact ⟨_, n, hx, hiff⟩

/-- An error can mean stored: the next `Open` finds the value. -/
theorem failed_write_is_stored :
    ∃ d', Life True [] created.2 (some created.1) ∧
      Exec True (perform created.1 (fun mem => mem.toList) firstPut) created.2
        (refused created.1, false) d' ∧
      (refused created.1).get [107] = none ∧
      ((run (openStore 0) d').1.toOption.bind fun s => s.get [107]) = some [1] :=
  ⟨_, life_created True, exec_failed_sync _, rfl, by decide +kernel⟩

end RaftKV.Store.Faults
