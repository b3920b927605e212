import RaftKV.Codec.Tables
import RaftKV.Store.Segments

namespace RaftKV.Store.Snapshots

open Codec.LittleEndian Codec.Record Codec.Tables
open Files.Programs
open Raft (Bytes)
open Store.Commands Store.Segments

/-- The bytes of `RKVSNAP1`. -/
def snapMagic : Bytes := [82, 75, 86, 83, 78, 65, 80, 49]

def encodeRow (row : Bytes × Bytes) : Bytes :=
  leBytes 4 row.1.length ++ (row.1 ++ (leBytes 4 row.2.length ++ row.2))

/-- The snapshot of a map whose rows are visited in the given order. -/
def encodeSnapshot (lastSeq : Nat) (rows : List (Bytes × Bytes)) : Bytes :=
  withChecksum (snapMagic ++ (leBytes 8 lastSeq ++ (leBytes 8 rows.length ++
    rows.flatMap encodeRow)))

def readRows : (count i : Nat) → Bytes → MemStore → Except SnapshotError (MemStore × Bytes)
  | 0, _, body, mem => .ok (mem, body)
  | count + 1, i, body, mem =>
      if body.length < 4 then
        .error (.truncated i)
      else
        let keyLen := leNat (body.take 4)
        let body := body.drop 4
        if body.length < keyLen + 4 then
          .error (.truncatedKey i)
        else
          let key := body.take keyLen
          let body := body.drop keyLen
          let valLen := leNat (body.take 4)
          let body := body.drop 4
          if body.length < valLen then
            .error (.truncatedValue i)
          else
            readRows count (i + 1) (body.drop valLen) (mem.put key (body.take valLen))

def readSnapshot (data : Bytes) : Except SnapshotError (MemStore × Nat) :=
  if data.length < 8 + 8 + 8 + 4 then
    .error (.tooShort data.length)
  else
    let (body, crc) := splitChecksum data
    if (checksum body).toNat ≠ crc then
      .error .checksum
    else if body.take 8 ≠ snapMagic then
      .error .magic
    else
      let body := body.drop 8
      let lastSeq := leNat (body.take 8)
      let count := leNat ((body.drop 8).take 8)
      match readRows count 0 (body.drop 16) ∅ with
      | .error err => .error err
      | .ok (mem, rest) =>
          if rest.length ≠ 0 then .error (.trailing rest.length count) else .ok (mem, lastSeq)

/-- Write a snapshot under a temporary name and put it in place. A buffered writer
passes the bytes on in pieces; what an interrupted one leaves is a prefix of them. -/
def writeSnapshot (lastSeq : Nat) (rows : List (Bytes × Bytes)) :
    Prog Dir (Except StoreError Unit) :=
  let cleanUp : Prog Dir (Except StoreError Unit) :=
    .call (.remove .tmp lastSeq) fun _ => .ret (.error .system)
  .attempt (.reset .tmp lastSeq) (.ret (.error .system)) <|
    .attempt (.append .tmp lastSeq (encodeSnapshot lastSeq rows)) cleanUp <|
      .attempt (.sync .tmp lastSeq) cleanUp <|
        .attempt (.rename .tmp lastSeq .snap lastSeq) cleanUp <|
          .attempt (.syncDir .snap) cleanUp <|
            .ret (.ok ())

def newestSnapshot (d : Volume Dir) : Except StoreError (MemStore × Nat) :=
  match (d .snap).toList.getLast? with
  | none => .ok (∅, 0)
  | some (newest, data) =>
      match readSnapshot data with
      | .error err => .error (.snapshot newest err)
      | .ok (mem, lastSeq) =>
          if lastSeq ≠ newest then .error (.claims newest lastSeq) else .ok (mem, lastSeq)

/-- Stray temporary files of a crash are deleted. -/
def loadNewestSnapshot : Prog Dir (Except StoreError (MemStore × Nat)) :=
  .look fun d => Prog.discardAll .tmp (d .tmp).keys >>= fun _ =>
    .look fun d => .ret (newestSnapshot d)

def pruneSnapshots (keep : Nat) : Prog Dir (Except StoreError Unit) :=
  .look fun d => Prog.removeAll .snap ((d .snap).keys.take ((d .snap).keys.length - keep)) >>= fun
    | true => .ret (.ok ())
    | false => .ret (.error .system)

theorem readRows_encode {rows : List (Bytes × Bytes)}
    (h : ∀ row ∈ rows, row.1.length < 2 ^ 32 ∧ row.2.length < 2 ^ 32) (i : Nat) (mem : MemStore)
    (rest : Bytes) :
    readRows rows.length i (rows.flatMap encodeRow ++ rest) mem = .ok (addRows mem rows, rest) := by
  induction rows generalizing i mem with
  | nil => rfl
  | cons row rows ih =>
      obtain ⟨key, value⟩ := row
      obtain ⟨hkey, hvalue⟩ := h (key, value) (by simp)
      have hkey' : key.length < 256 ^ 4 := hkey
      have hvalue' : value.length < 256 ^ 4 := hvalue
      generalize htail : rows.flatMap encodeRow ++ rest = tail
      have hbody : ((key, value) :: rows).flatMap encodeRow ++ rest =
          leBytes 4 key.length ++ (key ++ (leBytes 4 value.length ++ (value ++ tail))) := by
        rw [← htail]
        simp [encodeRow]
      have hkeyRead : leNat ((leBytes 4 key.length ++
          (key ++ (leBytes 4 value.length ++ (value ++ tail)))).take 4) = key.length :=
        leNat_take_append hkey' _
      have hvalueRead : leNat ((leBytes 4 value.length ++ (value ++ tail)).take 4) =
          value.length :=
        leNat_take_append hvalue' _
      rw [hbody, List.length_cons, readRows, if_neg (by simp)]
      simp only [hkeyRead, drop_leBytes_append, List.take_left, List.drop_left, hvalueRead]
      rw [if_neg (by simp), if_neg (by simp), ← htail,
        ih (fun row hrow => h row (by simp [hrow]))]
      rfl

theorem readSnapshot_encode {lastSeq : Nat} {mem : MemStore} {rows : List (Bytes × Bytes)}
    (hperm : rows.Perm mem.toList) (hseq : lastSeq < 2 ^ 64) (hcount : rows.length < 2 ^ 64)
    (hrows : ∀ row ∈ rows, row.1.length < 2 ^ 32 ∧ row.2.length < 2 ^ 32) :
    readSnapshot (encodeSnapshot lastSeq rows) = .ok (mem, lastSeq) := by
  have hseq' : lastSeq < 256 ^ 8 := by
    omega
  have hcount' : rows.length < 256 ^ 8 := by
    omega
  unfold readSnapshot encodeSnapshot
  simp only [splitChecksum_withChecksum]
  generalize hfields : leBytes 8 lastSeq ++ (leBytes 8 rows.length ++ rows.flatMap encodeRow) =
    fields
  have hdrop : (snapMagic ++ fields).drop 8 = fields := rfl
  have hdrop8 : fields.drop 8 = leBytes 8 rows.length ++ rows.flatMap encodeRow := by
    rw [← hfields, drop_leBytes_append]
  have hdrop16 : fields.drop 16 = rows.flatMap encodeRow ++ [] := by
    rw [show 16 = 8 + 8 by rfl, ← List.drop_drop, hdrop8, drop_leBytes_append, List.append_nil]
  have hsize : 16 ≤ fields.length := by
    rw [← hfields]
    simp
    omega
  rw [if_neg (by rw [length_withChecksum, List.length_append]; simp [snapMagic]; omega),
    if_neg (by simp), if_neg (by simp [snapMagic]), hdrop, hdrop8, hdrop16,
    leNat_take_append hcount', readRows_encode hrows]
  dsimp only
  rw [if_neg (by simp), addRows_of_perm hperm, ← hfields, leNat_take_append hseq']

end RaftKV.Store.Snapshots
