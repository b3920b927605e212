import RaftKV.Store.Snapshots

/-!
The durable store: a map in memory whose every change is logged before it is
acknowledged, with snapshots that bound the log.
-/

namespace RaftKV.Store.Durable

open Files.Programs
open Raft (Bytes)
open Store.Commands Store.Segments Store.Snapshots

/-- The order in which a walk over a map visits its rows. -/
abbrev Order := MemStore → List (Bytes × Bytes)

structure DurableStore where
  mem : MemStore
  wal : Wal
  seq : Nat
  snapshotThreshold : Nat

def defaultSnapshotThreshold : Nat := 2 ^ 24

def thresholdOf (bytes : Int) : Nat :=
  if bytes ≤ 0 then defaultSnapshotThreshold else bytes.toNat

/-- Recover or initialize a store. Its directories always exist in the model. -/
def openStore (thresholdBytes : Int) : Prog Dir (Except StoreError DurableStore) :=
  let store (mem : MemStore) (lastSeq : Nat) (w : Wal) : DurableStore :=
    { mem := mem, wal := w, seq := lastSeq, snapshotThreshold := thresholdOf thresholdBytes }
  loadNewestSnapshot >>= fun
    | .error err => .ret (.error (.during "recover snapshot" err))
    | .ok (mem, snapSeq) => .look fun d =>
        match replayWAL applyRecord (listSegments d) snapSeq mem with
        | .error err => .ret (.error (.during "replay wal" err))
        | .ok (mem, lastSeq, newestValidSize) =>
            match (listSegments d).getLast? with
            | none => createWAL (lastSeq + 1) >>= fun
                | .error err => .ret (.error err)
                | .ok w => .ret (.ok (store mem lastSeq w))
            | some (newest, _) =>
                .attempt (.truncate .wal newest newestValidSize)
                  (.ret (.error (.during "truncate torn wal tail" .system))) <|
                  .ret (.ok (store mem lastSeq (openWALForAppend newest newestValidSize)))

namespace DurableStore

/-- Dump the map, start a new segment, and delete what the dump covers. -/
def snapshot (s : DurableStore) (order : Order) :
    Prog Dir (DurableStore × Except StoreError Unit) :=
  writeSnapshot s.seq (order s.mem) >>= fun
    | .error err => .ret (s, .error err)
    | .ok () => s.wal.rotate (s.seq + 1) >>= fun
        | (w, .error err) => .ret ({ s with wal := w }, .error err)
        | (w, .ok ()) => .look fun d =>
            Prog.removeAll .wal ((listSegments d).map Prod.fst).dropLast >>= fun
              | false => .ret ({ s with wal := w }, .error .system)
              | true => pruneSnapshots 2 >>= fun res => .ret ({ s with wal := w }, res)

/-- A snapshot that fails is only a warning: the write is in the log. -/
def maybeSnapshot (s : DurableStore) (order : Order) : Prog Dir DurableStore :=
  if s.wal.size < s.snapshotThreshold then .ret s
  else s.snapshot order >>= fun res => .ret res.1

/-- Assign a number, persist, apply. -/
def logAndApply (s : DurableStore) (cmd : Command) (order : Order) :
    Prog Dir (DurableStore × Except StoreError Unit) :=
  s.wal.append (s.seq + 1) (encodeCommand [] cmd) >>= fun
    | (w, .error err) => .ret ({ s with wal := w }, .error (.during "wal append" err))
    | (w, .ok ()) =>
        maybeSnapshot
          { s with wal := w, seq := s.seq + 1, mem := (applyCommand s.mem cmd).1 } order >>=
        fun s => .ret (s, .ok ())

def put (s : DurableStore) (key value : Bytes) (order : Order) :
    Prog Dir (DurableStore × Except StoreError Unit) :=
  s.logAndApply ⟨.put, key, value⟩ order

/-- An absent key needs no record. -/
def delete (s : DurableStore) (key : Bytes) (order : Order) :
    Prog Dir (DurableStore × Except StoreError Bool) :=
  match s.mem.get key with
  | none => .ret (s, .ok false)
  | some _ => s.logAndApply ⟨.delete, key, []⟩ order >>= fun
      | (s, .error err) => .ret (s, .error err)
      | (s, .ok ()) => .ret (s, .ok true)

def get (s : DurableStore) (key : Bytes) : Option Bytes :=
  s.mem.get key

def close (s : DurableStore) : DurableStore × Except StoreError Unit :=
  ({ s with wal := s.wal.close.1 }, s.wal.close.2)

end DurableStore

end RaftKV.Store.Durable
