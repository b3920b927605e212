import RaftKV.Codec.Slices
import RaftKV.Store.Operations

namespace RaftKV.Store.Images

open Codec.LittleEndian Codec.Record Codec.Slices Codec.Tables
open Files.Programs
open Raft (Bytes)
open Store.Commands Store.Segments Store.Snapshots Store.Operations

/-- What has been written so far, and the state of the checksum over it. -/
structure Stream where
  out : Bytes
  crc : UInt32

def Stream.write (w : Stream) (b : Bytes) : Stream :=
  ⟨w.out ++ b, b.foldl crcByte w.crc⟩

def Stream.writeRow (w : Stream) (row : Bytes × Bytes) : Stream :=
  (((w.write (leBytes 4 row.1.length)).write row.1).write (leBytes 4 row.2.length)).write row.2

/-- The file `writeSnapshot` streams: the checksum at the end is not part of itself. -/
def streamSnapshot (lastSeq : Nat) (rows : List (Bytes × Bytes)) : Bytes :=
  let header : Stream :=
    (((Stream.mk [] 0xFFFFFFFF).write snapMagic).write (leBytes 8 lastSeq)).write
      (leBytes 8 rows.length)
  let w := rows.foldl Stream.writeRow header
  w.out ++ leBytes 4 (~~~ w.crc).toNat

/-- The checksum of a stream is that of what was written. -/
def Stream.Sound (w : Stream) : Prop :=
  w.crc = w.out.foldl crcByte 0xFFFFFFFF

theorem sound_write {w : Stream} (h : w.Sound) (b : Bytes) : (w.write b).Sound := by
  unfold Stream.Sound Stream.write
  rw [List.foldl_append, ← h]

theorem stream_rows {w : Stream} (h : w.Sound) (rows : List (Bytes × Bytes)) :
    (rows.foldl Stream.writeRow w).Sound ∧
      (rows.foldl Stream.writeRow w).out = w.out ++ rows.flatMap encodeRow := by
  induction rows generalizing w with
  | nil => exact ⟨h, (List.append_nil _).symm⟩
  | cons row rows ih =>
      obtain ⟨hsound, hout⟩ := @ih (w.writeRow row)
        (sound_write (sound_write (sound_write (sound_write h _) _) _) _)
      refine ⟨hsound, ?_⟩
      rw [List.foldl_cons, hout]
      simp [Stream.writeRow, Stream.write, encodeRow]

theorem streamSnapshot_eq (lastSeq : Nat) (rows : List (Bytes × Bytes)) :
    streamSnapshot lastSeq rows = encodeSnapshot lastSeq rows := by
  have hstart : (Stream.mk [] 0xFFFFFFFF).Sound := rfl
  obtain ⟨hsound, hout⟩ := stream_rows
    (sound_write (sound_write (sound_write hstart snapMagic) (leBytes 8 lastSeq))
      (leBytes 8 rows.length)) rows
  unfold streamSnapshot encodeSnapshot withChecksum checksum
  dsimp only
  rw [hsound, hout]
  simp [Stream.write]

/-- `readRows` with the bounds of every slice it takes. -/
def rowsWithin : (count i : Nat) → Bytes → MemStore →
    Option (Except SnapshotError (MemStore × Bytes))
  | 0, _, body, mem => some (.ok (mem, body))
  | count + 1, i, body, mem => do
      if body.length < 4 then
        return .error (.truncated i)
      let keyLen ← readNat 4 body
      let body ← sliceFrom body 4
      if body.length < keyLen + 4 then
        return .error (.truncatedKey i)
      let key ← sliceTo body keyLen
      let body ← sliceFrom body keyLen
      let valLen ← readNat 4 body
      let body ← sliceFrom body 4
      if body.length < valLen then
        return .error (.truncatedValue i)
      let value ← sliceTo body valLen
      let body ← sliceFrom body valLen
      rowsWithin count (i + 1) body (mem.put key value)

def snapshotWithin (data : Bytes) : Option (Except SnapshotError (MemStore × Nat)) := do
  if data.length < 8 + 8 + 8 + 4 then
    return .error (.tooShort data.length)
  let cut ← minus data.length 4
  let body ← sliceTo data cut
  let tail ← sliceFrom data cut
  let crc ← readNat 4 tail
  if (checksum body).toNat ≠ crc then
    return .error .checksum
  let magic ← sliceTo body 8
  if magic ≠ snapMagic then
    return .error .magic
  let body ← sliceFrom body 8
  let lastSeq ← readNat 8 body
  let count ← readNat 8 (← sliceFrom body 8)
  let body ← sliceFrom body 16
  match ← rowsWithin count 0 body ∅ with
  | .error err => return .error err
  | .ok (mem, rest) =>
      if rest.length ≠ 0 then
        return .error (.trailing rest.length count)
      return .ok (mem, lastSeq)

theorem rowsWithin_eq (count i : Nat) (body : Bytes) (mem : MemStore) :
    rowsWithin count i body mem = some (readRows count i body mem) := by
  induction count generalizing i body mem with
  | zero => rfl
  | succ count ih =>
      rw [rowsWithin, readRows]
      split
      · rfl
      · rename_i hlong
        have hkeyLen : 4 ≤ body.length := by
          omega
        simp only [readNat_of_le hkeyLen, sliceFrom_of_le hkeyLen, Option.bind_eq_bind,
          Option.bind_some]
        generalize leNat (body.take 4) = keyLen
        generalize body.drop 4 = body
        split
        · rfl
        · rename_i hkey
          have hle : keyLen ≤ body.length := by
            omega
          have hvalLen : 4 ≤ (body.drop keyLen).length := by
            rw [List.length_drop]
            omega
          simp only [sliceTo_of_le hle, sliceFrom_of_le hle, readNat_of_le hvalLen,
            sliceFrom_of_le hvalLen, Option.bind_some]
          generalize leNat ((body.drop keyLen).take 4) = valLen
          generalize (body.drop keyLen).drop 4 = rest
          split
          · rfl
          · rename_i hval
            have hle' : valLen ≤ rest.length := by
              omega
            simp only [sliceTo_of_le hle', sliceFrom_of_le hle', Option.bind_some]
            exact ih (i + 1) (rest.drop valLen) (mem.put (body.take keyLen) (rest.take valLen))

theorem snapshotWithin_eq (data : Bytes) : snapshotWithin data = some (readSnapshot data) := by
  unfold snapshotWithin readSnapshot splitChecksum
  split
  · rfl
  · rename_i hlong
    have hcut : (data.drop (data.length - 4)).length = 4 := by
      rw [List.length_drop]
      omega
    have hbody : (data.take (data.length - 4)).length = data.length - 4 := by
      rw [List.length_take]
      omega
    simp only [minus_of_le (show 4 ≤ data.length by omega), Option.bind_eq_bind,
      Option.bind_some, sliceTo_of_le (Nat.sub_le data.length 4),
      sliceFrom_of_le (Nat.sub_le data.length 4), readNat_of_le hcut.ge,
      List.take_of_length_le hcut.le]
    generalize data.take (data.length - 4) = body at hbody ⊢
    have hmagic : 8 ≤ body.length := by
      omega
    split
    · rfl
    · simp only [sliceTo_of_le hmagic, Option.bind_some]
      split
      · rfl
      · have hseq : 8 ≤ (body.drop 8).length := by
          rw [List.length_drop]
          omega
        have hcount : 8 ≤ ((body.drop 8).drop 8).length := by
          rw [List.length_drop, List.length_drop]
          omega
        have hrows : 16 ≤ (body.drop 8).length := by
          rw [List.length_drop]
          omega
        simp only [sliceFrom_of_le hmagic, Option.bind_some, readNat_of_le hseq,
          sliceFrom_of_le hseq, readNat_of_le hcount, sliceFrom_of_le hrows, rowsWithin_eq]
        rcases readRows _ 0 ((body.drop 8).drop 16) ∅ with err | ⟨mem, rest⟩
        · rfl
        · dsimp only
          split <;> rfl

theorem rows_of_readRows {count i : Nat} {body rest : Bytes} {mem mem' : MemStore}
    (h : readRows count i body mem = .ok (mem', rest)) :
    ∃ rows : List (Bytes × Bytes), rows.length = count ∧
      body = rows.flatMap encodeRow ++ rest ∧ mem' = addRows mem rows ∧
      ∀ row ∈ rows, row.1.length < 2 ^ 32 ∧ row.2.length < 2 ^ 32 := by
  induction count generalizing i body mem with
  | zero =>
      cases h
      exact ⟨[], rfl, rfl, rfl, by simp⟩
  | succ count ih =>
      rw [readRows] at h
      split at h
      · cases h
      · rename_i hlong
        have hkeyLen : 4 ≤ body.length := by
          omega
        have hfield := eq_leBytes_append hkeyLen
        have hkeyLt := leNat_take_lt 4 hkeyLen
        dsimp only at h
        generalize leNat (body.take 4) = keyLen at h hfield hkeyLt
        generalize body.drop 4 = tail at h hfield
        split at h
        · cases h
        · rename_i hkey
          have hvalLen : 4 ≤ (tail.drop keyLen).length := by
            rw [List.length_drop]
            omega
          have hfield' := eq_leBytes_append hvalLen
          have hvalLt := leNat_take_lt 4 hvalLen
          have htail := List.take_append_drop keyLen tail
          have hkeyLength : (tail.take keyLen).length = keyLen := by
            rw [List.length_take]
            omega
          generalize leNat ((tail.drop keyLen).take 4) = valLen at h hfield' hvalLt
          generalize (tail.drop keyLen).drop 4 = more at h hfield'
          split at h
          · cases h
          · rename_i hval
            have hvalLength : (more.take valLen).length = valLen := by
              rw [List.length_take]
              omega
            obtain ⟨rows, hlen, hrest, hmem, hshort⟩ := ih h
            refine ⟨(tail.take keyLen, more.take valLen) :: rows, ?_, ?_, hmem, ?_⟩
            · rw [List.length_cons, hlen]
            · rw [List.flatMap_cons, encodeRow, hkeyLength, hvalLength]
              simp only [List.append_assoc]
              rw [← hrest, List.take_append_drop, ← hfield', htail, ← hfield]
            · rintro row hrow
              rcases List.mem_cons.mp hrow with rfl | hrow
              · exact ⟨by rw [hkeyLength]; exact hkeyLt, by rw [hvalLength]; exact hvalLt⟩
              · exact hshort row hrow

theorem image_of_readSnapshot {data : Bytes} {mem : MemStore} {lastSeq : Nat}
    (h : readSnapshot data = .ok (mem, lastSeq)) :
    ∃ rows : List (Bytes × Bytes), data = encodeSnapshot lastSeq rows ∧ mem = addRows ∅ rows ∧
      lastSeq < 2 ^ 64 ∧ rows.length < 2 ^ 64 ∧
      ∀ row ∈ rows, row.1.length < 2 ^ 32 ∧ row.2.length < 2 ^ 32 := by
  unfold readSnapshot at h
  split at h
  · cases h
  · rename_i hlong
    have hdata := @eq_withChecksum data (by omega)
    have hlength : (splitChecksum data).1.length = data.length - 4 := by
      rw [splitChecksum, List.length_take]
      omega
    generalize splitChecksum data = parts at h hdata hlength
    obtain ⟨body, crc⟩ := parts
    dsimp only at h hdata hlength
    split at h
    · cases h
    · rename_i hcrc
      split at h
      · cases h
      · rename_i hmagic
        have hbody := List.take_append_drop 8 body
        rw [not_not.mp hmagic] at hbody
        have hseq : 8 ≤ (body.drop 8).length := by
          rw [List.length_drop]
          omega
        have hcount : 8 ≤ ((body.drop 8).drop 8).length := by
          rw [List.length_drop, List.length_drop]
          omega
        have hfield := eq_leBytes_append hseq
        have hseqLt := leNat_take_lt 8 hseq
        have hfield' := eq_leBytes_append hcount
        have hcountLt := leNat_take_lt 8 hcount
        rw [show (body.drop 8).drop 16 = ((body.drop 8).drop 8).drop 8 by
          rw [List.drop_drop (i := 8)]] at h
        rcases hrows : readRows (leNat (((body.drop 8).drop 8).take 8)) 0
          (((body.drop 8).drop 8).drop 8) ∅ with err | ⟨mem', rest⟩
        · rw [hrows] at h
          cases h
        · rw [hrows] at h
          dsimp only at h
          split at h
          · cases h
          · rename_i hrest
            obtain ⟨rows, hlen, hflat, hmem, hshort⟩ := rows_of_readRows hrows
            cases h
            rw [List.eq_nil_of_length_eq_zero (not_not.mp hrest), List.append_nil] at hflat
            rw [← hlen] at hfield' hcountLt
            refine ⟨rows, ?_, hmem, hseqLt, hcountLt, hshort⟩
            rw [encodeSnapshot, ← hflat, ← hfield', ← hfield, hbody]
            exact hdata (not_not.mp hcrc)

/-- A snapshot of any map, written in any order, reads back. Any other file is refused or
is a snapshot from the first byte to the last, and the reader stays inside it. -/
theorem snapshot_format_exact :
    (∀ (d : Volume Dir) (mem : MemStore) (lastSeq : Nat) (rows : List (Bytes × Bytes)),
      rows.Perm mem.toList → lastSeq < 2 ^ 64 → mem.size < 2 ^ 64 →
      (∀ row ∈ mem.toList, row.1.length < 2 ^ 32 ∧ row.2.length < 2 ^ 32) →
      (run (writeSnapshot lastSeq rows) d).1 = .ok () ∧
      ((run (writeSnapshot lastSeq rows) d).2 .snap)[lastSeq]? =
        some (streamSnapshot lastSeq rows) ∧
      snapshotWithin (streamSnapshot lastSeq rows) = some (.ok (mem, lastSeq))) ∧
    ∀ data : Bytes,
      (∃ err, snapshotWithin data = some (.error err)) ∨
      ∃ lastSeq, ∃ rows : List (Bytes × Bytes),
        snapshotWithin data = some (.ok (addRows ∅ rows, lastSeq)) ∧
        data = snapMagic ++ leBytes 8 lastSeq ++ leBytes 8 rows.length ++ rows.flatMap encodeRow ++
          leBytes 4 (checksum (snapMagic ++ leBytes 8 lastSeq ++ leBytes 8 rows.length ++
            rows.flatMap encodeRow)).toNat ∧
        lastSeq < 2 ^ 64 ∧ rows.length < 2 ^ 64 ∧
        ∀ row ∈ rows, row.1.length < 2 ^ 32 ∧ row.2.length < 2 ^ 32 := by
  refine ⟨fun d mem lastSeq rows hperm hseq hsize hrows => ?_, fun data => ?_⟩
  · have hread : readSnapshot (encodeSnapshot lastSeq rows) = .ok (mem, lastSeq) := by
      refine readSnapshot_encode hperm hseq ?_ fun row hrow => hrows row (hperm.subset hrow)
      rw [hperm.length_eq, Std.ExtTreeMap.length_toList]
      exact hsize
    have hwritten : Holds False
        (fun r d' => r = .ok () ∧ Installed lastSeq (encodeSnapshot lastSeq rows) d d')
        (fun _ => True) (writeSnapshot lastSeq rows) d :=
      holds_writeSnapshot (fun _ _ => trivial) (fun d' h => ⟨rfl, h⟩) fun hf => hf.elim
    obtain ⟨hok, -, hsnap⟩ := holds_run hwritten
    refine ⟨hok, ?_, ?_⟩
    · rw [hsnap, streamSnapshot_eq]
      exact Std.ExtTreeMap.getElem?_insert_self
    · rw [streamSnapshot_eq, snapshotWithin_eq, hread]
  · rw [snapshotWithin_eq]
    rcases h : readSnapshot data with err | ⟨mem, lastSeq⟩
    · exact Or.inl ⟨err, rfl⟩
    · obtain ⟨rows, hdata, rfl, hseq, hcount, hrows⟩ := image_of_readSnapshot h
      refine Or.inr ⟨lastSeq, rows, rfl, ?_, hseq, hcount, hrows⟩
      rw [hdata, encodeSnapshot, withChecksum]
      simp only [List.append_assoc]

def twoRows : List (Bytes × Bytes) :=
  [([108, 1], [9, 9]), ([107], [])]

theorem snapshot_format_exact_two :
    ((run (writeSnapshot 5 twoRows) fun _ => ∅).2 .snap)[5]? = some (streamSnapshot 5 twoRows) ∧
    snapshotWithin (streamSnapshot 5 twoRows) =
      some (.ok (((∅ : MemStore).insert [107] []).insert [108, 1] [9, 9], 5)) ∧
    ∃ err, snapshotWithin (streamSnapshot 5 twoRows).dropLast = some (.error err) := by
  obtain ⟨-, hfile, hread⟩ := snapshot_format_exact.1 (fun _ => ∅)
    (((∅ : MemStore).insert [107] []).insert [108, 1] [9, 9]) 5 twoRows (by decide +kernel)
    (by decide) (by decide +kernel) (by decide +kernel)
  exact ⟨hfile, hread, .checksum, by decide +kernel⟩

end RaftKV.Store.Images
