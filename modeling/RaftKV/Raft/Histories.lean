import RaftKV.Raft.Cluster

namespace RaftKV.Raft.Histories

open Raft.Cluster

/-- `c` is, or was at some moment of the run, the state of node `i`. -/
def Held (s : CoreState) (i : ID) (c : Core) : Prop :=
  s.node i = .up c ∨ ∃ k ∈ s.trace, k.node = i ∧ (k.pre = c ∨ k.post = c)

def Elects (k : CoreCall) : Prop :=
  k.post.role = .leader ∧ (k.pre.role ≠ .leader ∨ k.pre.term ≠ k.post.term)
  deriving Decidable

/-- The call left its node leading with a higher commit index than before. -/
def RaisesCommit (k : CoreCall) : Prop :=
  k.post.role = .leader ∧ k.pre.commitIndex < k.post.commitIndex
  deriving Decidable

def Compacts (k : CoreCall) (snap : Snapshot) : Prop :=
  ∃ index data, k.input = .compact index data ∧ k.pre.snapIndex < index ∧
    index ≤ k.pre.lastDelivered ∧ snap = snapshotAt k.pre index data

/-- `snap` was taken of a log that contains `e`, or of one that continued an
earlier snapshot taken of a log that contains `e`. -/
inductive TakenOf (trace : List CoreCall) : Snapshot → Entry → Prop
  | log {k : CoreCall} {snap : Snapshot} {e : Entry} (hk : k ∈ trace) (hc : Compacts k snap)
      (he : e ∈ k.pre.entries) (hle : e.index ≤ snap.lastIndex) : TakenOf trace snap e
  | earlier {k : CoreCall} {snap old : Snapshot} {e : Entry} (hk : k ∈ trace)
      (hc : Compacts k snap) (hold : k.pre.disk.snapshot = some old)
      (he : TakenOf trace old e) : TakenOf trace snap e

/-- `c` has `e` in its log, or a snapshot that covers it and was taken of a log
that contains it. -/
def Holds (trace : List CoreCall) (c : Core) (e : Entry) : Prop :=
  e ∈ c.entries ∨
    e.index ≤ c.snapIndex ∧ ∃ snap, c.disk.snapshot = some snap ∧ TakenOf trace snap e

theorem takenOf_mono {trace : List CoreCall} {snap : Snapshot} {e : Entry}
    (h : TakenOf trace snap e) (k : CoreCall) : TakenOf (trace ++ [k]) snap e := by
  induction h with
  | log hk hc he hle => exact TakenOf.log (List.mem_append_left _ hk) hc he hle
  | earlier hk hc hold _ ih => exact TakenOf.earlier (List.mem_append_left _ hk) hc hold ih

end RaftKV.Raft.Histories
