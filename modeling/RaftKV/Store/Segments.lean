import RaftKV.Codec.Record
import RaftKV.Files.Programs
import RaftKV.Store.Commands

/-!
The write-ahead log: a directory of segments, each a sequence of framed records
that carry consecutive sequence numbers.
-/

namespace RaftKV.Store.Segments

open Codec.LittleEndian Codec.Record
open Files.Programs
open Raft (Bytes)
open Store.Commands

/-- The directories of a store. Snapshots in the making are kept apart from the
finished ones: they have names of their own. -/
inductive Dir
  | wal
  | snap
  | tmp
  deriving DecidableEq

inductive SnapshotError
  | tooShort (length : Nat)
  | checksum
  | magic
  | truncated (entry : Nat)
  | truncatedKey (entry : Nat)
  | truncatedValue (entry : Nat)
  | trailing (left count : Nat)
  deriving DecidableEq

/-- The texts after the name of the file. -/
def SnapshotError.message : SnapshotError → String
  | .tooShort length => s!"too short ({length} bytes)"
  | .checksum => "checksum mismatch — disk corruption"
  | .magic => "bad magic"
  | .truncated entry => s!"truncated at entry {entry}"
  | .truncatedKey entry => s!"truncated key at entry {entry}"
  | .truncatedValue entry => s!"truncated value at entry {entry}"
  | .trailing left count => s!"{left} trailing bytes after {count} entries"

/-- The errors of the store. What the operating system says about a call that failed
is not part of the model. -/
inductive StoreError
  | walFailed
  | system
  | closed
  | corrupt (start off : Nat)
  | gap (start seq last : Nat)
  | record (seq : Nat) (err : CommandError)
  | snapshot (name : Nat) (err : SnapshotError)
  | claims (name lastSeq : Nat)
  | during (context : String) (err : StoreError)
  deriving DecidableEq

def fileName (n : Nat) (ext : String) : String :=
  String.ofList (List.replicate (20 - (toString n).length) '0') ++ toString n ++ ext

def StoreError.message : StoreError → String
  | .walFailed => "wal: failed by an earlier write error; storage is read-only"
  | .system => "system call failed"
  | .closed => "file already closed"
  | .corrupt start off =>
      "wal: corrupt record in finished segment " ++ fileName start ".wal" ++ s!" at offset {off}"
  | .gap start seq last =>
      "wal: sequence gap in " ++ fileName start ".wal" ++ s!": {seq} follows {last}"
  | .record seq err => s!"wal record seq {seq}: {err.message}"
  | .snapshot name err => "snapshot " ++ fileName name ".snap" ++ s!": {err.message}"
  | .claims name lastSeq => "snapshot " ++ fileName name ".snap" ++ s!" claims lastSeq {lastSeq}"
  | .during context err => s!"{context}: {err.message}"

/-- The log a store appends to: its active segment and how many bytes it has. -/
structure Wal where
  start : Nat
  size : Nat
  failed : Bool
  closed : Bool
  deriving DecidableEq

def createWAL (startSeq : Nat) : Prog Dir (Except StoreError Wal) :=
  .attempt (.create .wal startSeq) (.ret (.error .system)) <|
    .attempt (.syncDir .wal) (.ret (.error .system)) <|
      .ret (.ok { start := startSeq, size := 0, failed := false, closed := false })

def openWALForAppend (startSeq validSize : Nat) : Wal where
  start := startSeq
  size := validSize
  failed := false
  closed := false

def walSeqSize : Nat := 8

def payload (seq : Nat) (command : Bytes) : Bytes :=
  leBytes walSeqSize seq ++ command

namespace Wal

/-- Write one record and wait until it is on disk. After a failure the contents of the
file are unknown, and nothing is appended any more. -/
def append (w : Wal) (seq : Nat) (command : Bytes) : Prog Dir (Wal × Except StoreError Unit) :=
  if w.failed then
    .ret (w, .error .walFailed)
  else if w.closed then
    .ret ({ w with failed := true }, .error .closed)
  else
    let b := frame [] (payload seq command)
    .attempt (.append .wal w.start b) (.ret ({ w with failed := true }, .error .system)) <|
      .attempt (.sync .wal w.start) (.ret ({ w with failed := true }, .error .system)) <|
        .ret ({ w with size := w.size + b.length }, .ok ())

def close (w : Wal) : Wal × Except StoreError Unit :=
  if w.closed then (w, .error .closed) else ({ w with closed := true }, .ok ())

def rotate (w : Wal) (startSeq : Nat) : Prog Dir (Wal × Except StoreError Unit) :=
  if w.failed then
    .ret (w, .error .walFailed)
  else
    createWAL startSeq >>= fun
      | .error err => .ret (w, .error err)
      | .ok next => .ret (next, if w.closed then .error .closed else .ok ())

end Wal

structure WalRecord where
  seq : Nat
  command : Bytes
  deriving DecidableEq

def maxKeyBytesOnDisk : Nat := 2 ^ 20
def maxValueBytesOnDisk : Nat := 2 ^ 26

def walMaxRecordLen : Nat := walSeqSize + 1 + 4 + maxKeyBytesOnDisk + 4 + maxValueBytesOnDisk

def parseRecord (b : Bytes) : Option (WalRecord × Nat) :=
  match parse b walMaxRecordLen with
  | none => none
  | some (payload, recLen) =>
      if payload.length < walSeqSize then none
      else some (⟨leNat (payload.take walSeqSize), payload.drop walSeqSize⟩, recLen)

def listSegments (d : Volume Dir) : List (Nat × Bytes) :=
  (d .wal).toList

section Replay

variable {σ : Type} (apply : σ → Nat → Bytes → Except StoreError σ)

/-- The loop over the records of one segment, from offset `off` on. A record has a
header, so that the length of the segment is fuel enough. -/
def replaySegment (start : Nat) (newest : Bool) :
    (fuel : Nat) → Bytes → (off lastSeq : Nat) → σ → Except StoreError (σ × Nat × Nat)
  | 0, _, off, lastSeq, s => .ok (s, lastSeq, off)
  | fuel + 1, data, off, lastSeq, s =>
      if data = [] then
        .ok (s, lastSeq, off)
      else
        match parseRecord data with
        | none => if newest then .ok (s, lastSeq, off) else .error (.corrupt start off)
        | some (rec, recLen) =>
            if lastSeq < rec.seq then
              if rec.seq ≠ lastSeq + 1 then
                .error (.gap start rec.seq lastSeq)
              else
                match apply s rec.seq rec.command with
                | .error err => .error err
                | .ok s =>
                    replaySegment start newest fuel (data.drop recLen) (off + recLen) rec.seq s
            else
              replaySegment start newest fuel (data.drop recLen) (off + recLen) lastSeq s

/-- Feed the records above `lastSeq` to `apply`: what it made of them, the highest
sequence number, and where the valid part of the newest segment ends. -/
def replayWAL : List (Nat × Bytes) → (lastSeq : Nat) → σ → Except StoreError (σ × Nat × Nat)
  | [], lastSeq, s => .ok (s, lastSeq, 0)
  | (start, data) :: rest, lastSeq, s =>
      match replaySegment apply start rest.isEmpty data.length data 0 lastSeq s with
      | .error err => .error err
      | .ok (s, lastSeq, off) =>
          if rest.isEmpty then .ok (s, lastSeq, off) else replayWAL rest lastSeq s

end Replay

def applyRecord (mem : MemStore) (seq : Nat) (command : Bytes) : Except StoreError MemStore :=
  match decodeCommand command with
  | .error err => .error (.record seq err)
  | .ok cmd => .ok (applyCommand mem cmd).1

/-- The intact records at the front of a segment, and where they end. -/
def intact : (fuel : Nat) → Bytes → List WalRecord × Nat
  | 0, _ => ([], 0)
  | fuel + 1, data =>
      match parseRecord data with
      | none => ([], 0)
      | some (rec, recLen) =>
          let (recs, off) := intact fuel (data.drop recLen)
          (rec :: recs, recLen + off)

def recordsOf (data : Bytes) : List WalRecord :=
  (intact data.length data).1

def validSize (data : Bytes) : Nat :=
  (intact data.length data).2

section Records

variable {σ : Type} (apply : σ → Nat → Bytes → Except StoreError σ)

/-- What the replay makes of the records of a segment, one after the other. -/
def feed (start : Nat) : List WalRecord → (lastSeq : Nat) → σ → Except StoreError (σ × Nat)
  | [], lastSeq, s => .ok (s, lastSeq)
  | rec :: recs, lastSeq, s =>
      if lastSeq < rec.seq then
        if rec.seq ≠ lastSeq + 1 then
          .error (.gap start rec.seq lastSeq)
        else
          match apply s rec.seq rec.command with
          | .error err => .error err
          | .ok s => feed start recs rec.seq s
      else
        feed start recs lastSeq s

theorem parseRecord_length {b : Bytes} {rec : WalRecord} {recLen : Nat}
    (h : parseRecord b = some (rec, recLen)) : headerSize ≤ recLen ∧ recLen ≤ b.length := by
  unfold parseRecord at h
  cases hp : parse b walMaxRecordLen with
  | none =>
      rw [hp] at h
      cases h
  | some found =>
      rw [hp] at h
      obtain ⟨hheader, hlen⟩ := parse_length hp
      dsimp only at h
      split at h
      · cases h
      · cases h
        exact ⟨hheader, hlen⟩

theorem replaySegment_eq (start : Nat) (newest : Bool) {fuel : Nat} {data : Bytes}
    (hfuel : data.length ≤ fuel) (off lastSeq : Nat) (s : σ) :
    replaySegment apply start newest fuel data off lastSeq s =
      match feed apply start (intact fuel data).1 lastSeq s with
      | .error err => .error err
      | .ok (s, lastSeq) =>
          if newest = true ∨ (intact fuel data).2 = data.length then
            .ok (s, lastSeq, off + (intact fuel data).2)
          else .error (.corrupt start (off + (intact fuel data).2)) := by
  induction fuel generalizing data off lastSeq s with
  | zero =>
      have hnil : data = [] := List.length_eq_zero_iff.mp (Nat.le_zero.mp hfuel)
      rw [hnil]
      simp [replaySegment, intact, feed]
  | succ fuel ih =>
      rw [replaySegment, intact]
      cases hp : parseRecord data with
      | none =>
          by_cases hnil : data = []
          · simp [hnil, feed]
          · have hpos : ¬ 0 = data.length := fun h => hnil (List.length_eq_zero_iff.mp h.symm)
            cases newest <;> simp [hnil, hpos, feed]
      | some found =>
          obtain ⟨rec, recLen⟩ := found
          obtain ⟨hheader, hlen⟩ := parseRecord_length hp
          have hsize : headerSize = 8 := rfl
          have hnil : data ≠ [] := by
            rintro rfl
            simp at hlen
            omega
          have hrest : (data.drop recLen).length ≤ fuel := by
            rw [List.length_drop]
            omega
          have hend : ∀ n, recLen + n = data.length ↔ n = (data.drop recLen).length := by
            intro n
            rw [List.length_drop]
            omega
          rw [if_neg hnil]
          dsimp only
          rw [feed]
          simp only [hend, ← Nat.add_assoc]
          split
          · split
            · rfl
            · cases apply s rec.seq rec.command with
              | error err => rfl
              | ok s => exact ih hrest (off + recLen) rec.seq s
          · exact ih hrest (off + recLen) lastSeq s

theorem replayWAL_cons (start : Nat) (data : Bytes) (rest : List (Nat × Bytes)) (lastSeq : Nat)
    (s : σ) :
    replayWAL apply ((start, data) :: rest) lastSeq s =
      match feed apply start (recordsOf data) lastSeq s with
      | .error err => .error err
      | .ok (s, lastSeq) =>
          if rest = [] then .ok (s, lastSeq, validSize data)
          else if validSize data = data.length then replayWAL apply rest lastSeq s
          else .error (.corrupt start (validSize data)) := by
  unfold recordsOf validSize
  rw [replayWAL, replaySegment_eq apply start _ le_rfl]
  cases feed apply start (intact data.length data).1 lastSeq s with
  | error err => rfl
  | ok fed =>
      by_cases hlast : rest = []
      · simp [hlast]
      · by_cases hvalid : (intact data.length data).2 = data.length <;> simp [hlast, hvalid]

end Records

end RaftKV.Store.Segments
