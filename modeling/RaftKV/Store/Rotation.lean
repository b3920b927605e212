import RaftKV.Store.Recovery

namespace RaftKV.Store.Rotation

open Codec.LittleEndian
open Files.Directories Files.Programs
open Raft (Bytes)
open Store.Commands Store.Segments Store.Snapshots Store.Durable Store.Operations Store.Layout
open Store.Lives Store.Recovery

variable {mem : MemStore} {lastSeq : Nat} {d : Volume Dir}

section Opening

variable {d d' : Volume Dir}

theorem newestSnapshot_greatest {snapSeq : Nat}
    (h : newestSnapshot d = .ok (mem, snapSeq)) :
    (snapSeq = 0 ∨ ∃ b, (d .snap)[snapSeq]? = some b) ∧
      ∀ q b, (d .snap)[q]? = some b → q ≤ snapSeq := by
  unfold newestSnapshot at h
  cases hlast : (d .snap).toList.getLast? with
  | none =>
      rw [hlast] at h
      cases h
      refine ⟨Or.inl rfl, fun q b hb => ?_⟩
      have hmem := mem_toList (p := (q, b)) |>.mpr hb
      rw [List.getLast?_eq_none_iff.mp hlast] at hmem
      cases hmem
  | some newest =>
      obtain ⟨name, data⟩ := newest
      rw [hlast] at h
      dsimp only at h
      obtain ⟨l, hl⟩ := List.getLast?_eq_some_iff.mp hlast
      have hget : (d .snap)[name]? = some data := mem_toList.mp (List.mem_of_getLast? hlast)
      cases hread : readSnapshot data with
      | error err =>
          rw [hread] at h
          cases h
      | ok found =>
          rw [hread] at h
          dsimp only at h
          split at h
          · cases h
          · rename_i heq
            cases h
            rw [not_not] at heq
            rw [heq]
            refine ⟨Or.inr ⟨data, hget⟩, fun q b hb => ?_⟩
            have hmem := mem_toList (p := (q, b)) |>.mpr hb
            rw [hl, List.mem_append, List.mem_singleton] at hmem
            rcases hmem with hmem | hmem
            · exact (lt_of_mem_append hl hmem).le
            · cases hmem
              exact le_rfl

theorem le_of_feed {σ : Type} {apply : σ → Nat → Bytes → Except StoreError σ} {start : Nat}
    {recs : List WalRecord} {lastSeq' : Nat} {s s' : σ}
    (h : feed apply start recs lastSeq s = .ok (s', lastSeq')) : lastSeq ≤ lastSeq' := by
  induction recs generalizing lastSeq s with
  | nil =>
      cases h
      exact le_rfl
  | cons rec recs ih =>
      rw [feed] at h
      split at h
      · rename_i hlt
        split at h
        · cases h
        · split at h
          · cases h
          · exact hlt.le.trans (ih h)
      · exact ih h

theorem le_of_replayWAL {σ : Type} {apply : σ → Nat → Bytes → Except StoreError σ}
    {segs : List (Nat × Bytes)} {lastSeq' size : Nat} {s s' : σ}
    (h : replayWAL apply segs lastSeq s = .ok (s', lastSeq', size)) : lastSeq ≤ lastSeq' := by
  induction segs generalizing lastSeq s with
  | nil =>
      cases h
      exact le_rfl
  | cons seg segs ih =>
      rw [replayWAL_cons] at h
      split at h
      · cases h
      · rename_i hfeed
        split at h
        · cases h
          exact le_of_feed hfeed
        · split at h
          · exact (le_of_feed hfeed).trans (ih h)
          · cases h

theorem holds_open_newest (h : Anchored d) (threshold : Int) :
    Holds False (fun r d' => ∀ s, r = .ok s → Newest s d') Anchored (openStore threshold) d := by
  have hsame : ∀ d', Same d d' → Anchored d' := fun _ => anchored_of_same h
  have herror : ∀ (err : StoreError) d', Same d d' → ∀ s, Except.error err = .ok s → Newest s d' :=
    fun _ _ _ _ hok => nomatch hok
  cases hsnap : newestSnapshot d with
  | error err => exact holds_openStore_error (Or.inl ⟨err, hsnap⟩) hsame herror
  | ok found =>
      obtain ⟨mem₀, snapSeq⟩ := found
      cases hreplay : replayWAL applyRecord (listSegments d) snapSeq mem₀ with
      | error err =>
          exact holds_openStore_error (Or.inr ⟨mem₀, snapSeq, err, hsnap, hreplay⟩) hsame herror
      | ok found =>
          obtain ⟨mem, lastSeq, size⟩ := found
          obtain ⟨hself, hgreatest⟩ := newestSnapshot_greatest hsnap
          have hle := le_of_replayWAL hreplay
          have hsnaps : ∀ q b, (d .snap)[q]? = some b → q ≤ lastSeq := fun q b hb =>
            (hgreatest q b hb).trans hle
          refine holds_openStore hsnap hreplay hsame ?_ ?_ False.elim
          · intro hnil d' hnew
            have hempty : (d .wal).toList = [] := hnil
            rw [hnil] at hreplay
            cases hreplay
            have hlist : (d' .wal).toList = [(snapSeq + 1, [])] := by
              rw [hnew.1, toList_insert_new (by rw [hempty]; simp), hempty]
              rfl
            have hanchored : Anchored d' := by
              intro p hp
              rw [hlist, List.mem_singleton] at hp
              rw [hp, hnew.2]
              exact ⟨snapSeq, hself, le_rfl⟩
            refine ⟨hanchored, fun s hok => ?_⟩
            cases hok
            exact ⟨hanchored, by rw [hnew.2]; exact hsnaps, [], [], hlist⟩
          · intro newest b hlast d' hwal hsnap'
            obtain ⟨l, hl⟩ := List.getLast?_eq_some_iff.mp hlast
            have hfile : (d .wal)[newest]? = some b := mem_toList.mp (List.mem_of_getLast? hlast)
            have hnewest : Newest (opened threshold mem lastSeq newest size) d :=
              ⟨h, hsnaps, l, b, hl⟩
            have hcut : Newest (opened threshold mem lastSeq newest size)
                (write d .wal newest (b.take size)) :=
              newest_write _ hnewest rfl le_rfl
            have hnewest' := newest_of_same hcut
              (⟨by rw [write_same, hwal], by rw [write_of_ne (by decide), hsnap']⟩ : Same _ d')
            refine ⟨hnewest'.anchored, fun s hok => ?_⟩
            cases hok
            exact hnewest'

end Opening

theorem newest_of_life {ops : List Attempt} {running : Option DurableStore}
    (h : Life False ops d running) : Anchored d ∧ ∀ s, running = some s → Newest s d := by
  induction h with
  | new =>
      refine ⟨?_, ?_⟩
      · intro p hp
        cases hp
      · intro s hs
        cases hs
  | opened h threshold hx ih =>
      have hnewest := holds_exec (holds_open_newest ih.1 threshold) hx
      refine ⟨(hnewest _ rfl).anchored, fun s hs => ?_⟩
      cases hs
      exact hnewest _ rfl
  | openKilled h threshold hk ih =>
      exact ⟨holds_killed (holds_open_newest ih.1 threshold) hk, fun _ hs => nomatch hs⟩
  | @returned ops d d' s s' ok order h op horder hx ih =>
      have hout := holds_exec (holds_perform_newest (ih.2 _ rfl) order op) hx
      have hnewest := newest_of_outcome (ih.2 _ rfl) hout
      refine ⟨hnewest.anchored, fun s hs => ?_⟩
      cases hs
      exact hnewest
  | @opKilled ops d d' s order h op horder hk ih =>
      have hint := holds_killed (holds_perform_newest (ih.2 _ rfl) order op) hk
      exact ⟨anchored_of_interrupted (ih.2 _ rfl) hint, fun _ hs => nomatch hs⟩
  | killed h ih => exact ⟨ih.1, fun _ hs => nomatch hs⟩

theorem short_readRows {count i : Nat} {body rest : Bytes} {mem' : MemStore}
    (h : readRows count i body mem = .ok (mem', rest)) (hmem : Short mem) : Short mem' := by
  have hfield (b : Bytes) : leNat (b.take 4) < 2 ^ 32 :=
    (leNat_lt _).trans_le (Nat.pow_le_pow_right (by decide) (List.length_take_le 4 b))
  induction count generalizing i body mem with
  | zero =>
      cases h
      exact hmem
  | succ count ih =>
      rw [readRows] at h
      split at h
      · cases h
      · dsimp only at h
        split at h
        · cases h
        · split at h
          · cases h
          · refine ih h fun key value hget => ?_
            unfold MemStore.put at hget
            rw [Std.ExtTreeMap.getElem?_insert] at hget
            split at hget
            · rename_i heq
              rw [← Std.compare_eq_iff_eq.mp heq, ← Option.some.inj hget]
              refine ⟨?_, ?_⟩
              · exact (List.length_take_le _ _).trans_lt (hfield _)
              · exact (List.length_take_le _ _).trans_lt (hfield _)
            · exact hmem key value hget

theorem short_readSnapshot {data : Bytes}
    (h : readSnapshot data = .ok (mem, lastSeq)) : Short mem := by
  unfold readSnapshot at h
  split at h
  · cases h
  · dsimp only at h
    split at h
    · cases h
    · split at h
      · cases h
      · split at h
        · cases h
        · rename_i hrows
          split at h
          · cases h
          · cases h
            refine short_readRows hrows fun key value hget => ?_
            rw [Std.ExtTreeMap.getElem?_empty] at hget
            cases hget

theorem free_iff {s : DurableStore} (hnewest : Newest s d) :
    (d .wal)[s.seq + 1]? = none ↔ s.wal.start ≤ s.seq := by
  constructor
  · intro hnone
    obtain ⟨b, hb⟩ := hnewest.file
    have hle := hnewest.names (s.wal.start, b) (mem_toList.mpr hb)
    have hne : s.wal.start ≠ s.seq + 1 := by
      intro heq
      rw [heq, hnone] at hb
      cases hb
    dsimp only at hle
    omega
  · intro hle
    cases hget : (d .wal)[s.seq + 1]? with
    | none => rfl
    | some b =>
        have := hnewest.le_start (s.seq + 1, b) (mem_toList.mpr hget)
        dsimp only at this
        omega

theorem ends_snapshot {s : DurableStore} (hnewest : Newest s d) (order : Order) :
    Ends s (dump s order) d (run (s.snapshot order) d).1 (run (s.snapshot order) d).2 :=
  holds_run (K := fun _ => True)
    (holds_snapshot hnewest.names (fun _ _ => trivial) (fun _ _ h => h) False.elim)

theorem holds_open_rotated {start : Nat} (hwal : (d .wal).toList = [(start, [])])
    (threshold : Int) :
    Holds False (fun r _ => ∀ mem, (∃ s, r = .ok s ∧ s.mem = mem) ↔
        ∃ snapSeq, newestSnapshot d = .ok (mem, snapSeq)) (fun _ => True)
      (openStore threshold) d := by
  have hsegs : listSegments d = [(start, [])] := hwal
  cases hsnap : newestSnapshot d with
  | error err =>
      refine holds_openStore_error (Or.inl ⟨err, hsnap⟩) (fun _ _ => trivial) ?_
      intro err' d' _ mem
      constructor
      · rintro ⟨s, hok, -⟩
        cases hok
      · rintro ⟨snapSeq, hok⟩
        cases hok
  | ok found =>
      obtain ⟨mem₀, snapSeq⟩ := found
      have hreplay : replayWAL applyRecord (listSegments d) snapSeq mem₀ =
          .ok (mem₀, snapSeq, 0) := by
        rw [hsegs]
        rfl
      refine holds_openStore hsnap hreplay (fun _ _ => trivial) ?_ ?_ False.elim
      · intro hnil
        rw [hsegs] at hnil
        cases hnil
      · intro newest b _ d' _ _
        refine ⟨trivial, fun mem => ?_⟩
        constructor
        · rintro ⟨s, hok, rfl⟩
          cases hok
          exact ⟨snapSeq, rfl⟩
        · rintro ⟨q, hok⟩
          cases hok
          exact ⟨_, rfl, rfl⟩

theorem newestSnapshot_of_last {l : List (Nat × Bytes)} {seq : Nat}
    {data : Bytes} (h : (d .snap).toList = l ++ [(seq, data)]) {snapSeq : Nat} :
    newestSnapshot d = .ok (mem, snapSeq) ↔
      readSnapshot data = .ok (mem, snapSeq) ∧ snapSeq = seq := by
  unfold newestSnapshot
  rw [h, List.getLast?_concat]
  dsimp only
  cases readSnapshot data with
  | error err => simp
  | ok found =>
      dsimp only
      split
      · rename_i hne
        constructor
        · intro h
          cases h
        · rintro ⟨h, heq⟩
          cases h
          exact absurd heq hne
      · rename_i heq
        rw [not_not] at heq
        constructor
        · intro h
          cases h
          exact ⟨rfl, heq⟩
        · rintro ⟨h, -⟩
          cases h
          rfl

/-- `Snapshot` returns nil, leaves the map and the number as they are and a single segment,
and the next `Open` recovers the map. -/
def Taken (s : DurableStore) (order : Order) (d : Volume Dir) : Prop :=
  let (taken, d') := run (s.snapshot order) d
  taken.2 = .ok () ∧ taken.1.mem = s.mem ∧ taken.1.seq = s.seq ∧ (listSegments d').length = 1 ∧
    ∀ threshold, ∃ s', (run (openStore threshold) d').1 = .ok s' ∧ s'.mem = s.mem

/-- **Snapshots in healthy states**: one is taken exactly if the log has not failed and is
open, the active segment has a record, and the lengths of the rows fit. -/
theorem snapshot_taken_iff {ops : List Attempt} {s : DurableStore} {d : Volume Dir}
    (h : Life False ops d (some s)) {order : Order} (horder : Lawful order) (hseq : s.seq < 2 ^ 64)
    (hsize : s.mem.size < 2 ^ 64) :
    Taken s order d ↔ s.wal.failed = false ∧ s.wal.closed = false ∧ s.wal.start ≤ s.seq ∧
      Short s.mem := by
  have hnewest := (newest_of_life h).2 s rfl
  have hends := ends_snapshot hnewest order
  unfold Taken
  generalize run (s.snapshot order) d = result at hends
  obtain ⟨⟨s', res⟩, d'⟩ := result
  dsimp only at hends ⊢
  cases hends with
  | failed hfailed _ =>
      rw [hfailed]
      simp
  | occupied hfailed hold _ =>
      have hstart : ¬ s.wal.start ≤ s.seq := fun hle => hold ((free_iff hnewest).mpr hle)
      simp [hstart]
  | closed hfailed hclosed _ _ _ =>
      rw [hclosed]
      simp
  | done hfailed hclosed hnew hwal hsnap =>
      obtain ⟨l, hl⟩ := exists_concat_of_pruned hnewest.snaps le_rfl hsnap
      have hopen := fun threshold => holds_run (holds_open_rotated hwal threshold) s.mem
      have hfound : (∃ q, newestSnapshot d' = .ok (s.mem, q)) ↔ Short s.mem := by
        simp only [newestSnapshot_of_last hl]
        constructor
        · rintro ⟨q, hread, -⟩
          exact short_readSnapshot hread
        · exact fun hshort => ⟨s.seq, readSnapshot_short horder hseq hsize hshort, rfl⟩
      have hsegs : listSegments d' = [(s.seq + 1, [])] := hwal
      rw [hfailed, hclosed, hsegs, ← free_iff hnewest, ← hfound]
      constructor
      · rintro ⟨-, -, -, -, hrecovers⟩
        exact ⟨rfl, rfl, hnew, (hopen 0).mp (hrecovers 0)⟩
      · rintro ⟨-, -, -, hmem⟩
        exact ⟨rfl, rfl, rfl, rfl, fun threshold => (hopen threshold).mpr hmem⟩

theorem snapshot_taken_iff_written :
    ∃ ops d s, Life False ops d (some s) ∧ Taken s (fun mem => mem.toList) d := by
  have hlawful : Lawful fun mem => mem.toList := fun _ => .rfl
  have hlife : Life False [⟨.put [107] [1], .acked⟩] _
      (some (logged created.1 ⟨.put, [107], [1]⟩)) :=
    (life_created False).returned (.put [107] [1]) hlawful (exec_of_run rfl)
  refine ⟨_, _, _, hlife, (snapshot_taken_iff hlife hlawful (by decide) (by decide)).mpr
    ⟨rfl, rfl, le_rfl, fun key value hget => ?_⟩⟩
  obtain ⟨cmd, hcmd, rfl, rfl⟩ := @exists_put_of_row [⟨.put, [107], [1]⟩] key value hget
  rw [List.mem_singleton.mp hcmd]
  decide

/-- Before the first write the name of the next segment is that of the active one. -/
theorem new_store_takes_no_snapshot :
    Life False [] created.2 (some created.1) ∧
      (run (created.1.snapshot fun mem => mem.toList) created.2).1.2 = .error .system ∧
      ¬ Taken created.1 (fun mem => mem.toList) created.2 :=
  ⟨life_created False, rfl, fun h => nomatch h.1⟩

end RaftKV.Store.Rotation
