import RaftKV.Codec.Slices
import RaftKV.Raft.Files

namespace RaftKV.Raft.Encodings

open Codec.LittleEndian Codec.Record Codec.Slices
open Raft.Files

section Changes

/-- `decodeConfChange` with the bounds of every slice it takes. -/
def changeWithin (b : Bytes) : Option (Except RaftError ConfChange) := do
  if b.length < 1 + 8 + 4 then
    return .error (.changeTruncated b.length)
  let op ← b[0]?
  let id ← readNat 8 (← sliceFrom b 1)
  let n ← readNat 4 (← sliceFrom b 9)
  let left ← minus b.length 13
  if left ≠ n then
    return .error .changeAddress
  let addr ← sliceFrom b 13
  if op ≠ confChangeAdd ∧ op ≠ confChangeRemove then
    return .error (.changeOp op)
  return .ok ⟨op, UInt64.ofNat id, addr⟩

theorem changeWithin_cons {op : UInt8} {rest : Bytes} (h : 12 ≤ rest.length) :
    changeWithin (op :: rest) =
      if rest.length - 12 ≠ leNat ((rest.drop 8).take 4) then some (.error .changeAddress)
      else if op ≠ confChangeAdd ∧ op ≠ confChangeRemove then some (.error (.changeOp op))
      else some (.ok ⟨op, UInt64.ofNat (leNat (rest.take 8)), rest.drop 12⟩) := by
  have hlen : (op :: rest).length = rest.length + 1 := rfl
  have hid : 8 ≤ rest.length := by
    omega
  have hn : 4 ≤ (rest.drop 8).length := by
    rw [List.length_drop]
    omega
  unfold changeWithin
  rw [if_neg (by omega)]
  simp only [List.getElem?_cons_zero, Option.bind_eq_bind, Option.bind_some,
    sliceFrom_of_le (show 1 ≤ (op :: rest).length by omega),
    sliceFrom_of_le (show 9 ≤ (op :: rest).length by omega),
    sliceFrom_of_le (show 13 ≤ (op :: rest).length by omega),
    minus_of_le (show 13 ≤ (op :: rest).length by omega), List.drop_succ_cons, List.drop_zero,
    readNat_of_le hid, readNat_of_le hn]
  rw [show (op :: rest).length - 13 = rest.length - 12 by omega]
  rfl

theorem changeWithin_short {b : Bytes} (h : b.length < 13) :
    changeWithin b = some (.error (.changeTruncated b.length)) := by
  unfold changeWithin
  rw [if_pos h]
  rfl

theorem changeWithin_eq (b : Bytes) : changeWithin b = some (decodeConfChange (.of b)) := by
  have hlen : (Command.of b).length = b.length := rfl
  have hbytes : (Command.of b).bytes = b := rfl
  unfold decodeConfChange
  rw [hlen, hbytes]
  split
  · rename_i hshort
    exact changeWithin_short hshort
  · rename_i hlong
    cases b with
    | nil => exact absurd (Nat.zero_lt_succ _) hlong
    | cons op rest =>
        have hrest : 12 ≤ rest.length := by
          change ¬rest.length + 1 < 13 at hlong
          omega
        have hlen : (op :: rest).length - 13 = rest.length - 12 := by
          rw [List.length_cons]
          omega
        rw [changeWithin_cons hrest]
        simp only [List.drop_succ_cons, List.drop_zero, List.headD_cons, hlen]
        split
        · rfl
        · split <;> rfl

theorem changeWithin_encode {cc : ConfChange}
    (hop : cc.op = confChangeAdd ∨ cc.op = confChangeRemove) (haddr : cc.addr.length < 2 ^ 32) :
    changeWithin (encodeConfChange cc).bytes = some (.ok cc) := by
  have hof : Command.of (encodeConfChange cc).bytes = encodeConfChange cc :=
    Command.eq_of_bytes rfl
  rw [changeWithin_eq, hof, decodeConfChange_encode haddr, if_pos hop]

theorem eq_encode_of_changeWithin {b : Bytes} {cc : ConfChange}
    (h : changeWithin b = some (.ok cc)) : b = (encodeConfChange cc).bytes := by
  rcases Nat.lt_or_ge b.length 13 with hshort | hlong
  · rw [changeWithin_short hshort] at h
    cases h
  · cases b with
    | nil => exact absurd hlong (by decide)
    | cons op' rest =>
        have hrest : 12 ≤ rest.length := by
          rw [List.length_cons] at hlong
          omega
        have hid : 8 ≤ rest.length := by
          omega
        have hn : 4 ≤ (rest.drop 8).length := by
          rw [List.length_drop]
          omega
        have hfield := eq_leBytes_append hid
        have hfield' := eq_leBytes_append hn
        rw [changeWithin_cons hrest] at h
        split at h
        · cases h
        · rename_i hlen
          split at h
          · cases h
          · cases h
            change op' :: rest = op' :: (leBytes 8 (UInt64.ofNat (leNat (rest.take 8))).toNat ++
              (leBytes 4 (rest.drop 12).length ++ rest.drop 12))
            rw [toNat_ofNat_leNat hid, List.length_drop, not_not.mp hlen,
              show rest.drop 12 = (rest.drop 8).drop 4 by rw [List.drop_drop], ← hfield', ← hfield]

end Changes

section Members

def entriesWithin : (n i : Nat) → Bytes → Members → Option (Except RaftError Members)
  | 0, _, _, m => some (.ok m)
  | n + 1, i, b, m => do
      if b.length < 12 then
        return .error (.membersEntry i)
      let id ← readNat 8 b
      let alen ← readNat 4 (← sliceFrom b 8)
      let b ← sliceFrom b 12
      if b.length < alen then
        return .error (.membersAddress i)
      let addr ← sliceTo b alen
      let b ← sliceFrom b alen
      entriesWithin n (i + 1) b (m.insert (UInt64.ofNat id) addr)

def membersWithin (b : Bytes) : Option (Except RaftError Members) := do
  if b.length < 4 then
    return .error .membersTruncated
  let count ← readNat 4 b
  entriesWithin count 0 (← sliceFrom b 4) ∅

theorem entriesWithin_eq (n i : Nat) (b : Bytes) (m : Members) :
    entriesWithin n i b m = some (decodeEntries n i b m) := by
  induction n generalizing i b m with
  | zero => rfl
  | succ n ih =>
      rw [entriesWithin, decodeEntries]
      split
      · rfl
      · rename_i hlong
        have hn : 4 ≤ (b.drop 8).length := by
          rw [List.length_drop]
          omega
        simp only [readNat_of_le (show 8 ≤ b.length by omega), readNat_of_le hn,
          sliceFrom_of_le (show 8 ≤ b.length by omega),
          sliceFrom_of_le (show 12 ≤ b.length by omega), Option.bind_eq_bind, Option.bind_some]
        split
        · rfl
        · rename_i haddr
          rw [not_lt] at haddr
          simp only [sliceTo_of_le haddr, sliceFrom_of_le haddr, Option.bind_some]
          exact ih _ _ _

theorem membersWithin_eq (b : Bytes) : membersWithin b = some (decodeMembers b) := by
  unfold membersWithin decodeMembers
  split
  · rfl
  · rename_i hlong
    simp only [readNat_of_le (show 4 ≤ b.length by omega),
      sliceFrom_of_le (show 4 ≤ b.length by omega), Option.bind_eq_bind, Option.bind_some]
    exact entriesWithin_eq _ _ _ _

/-- `encodeMembers` as it goes over a map: the identifiers come in any order and are
sorted first. -/
def encodeMembersFrom (ids : List ID) (m : Members) : Bytes :=
  leBytes 4 ids.length ++ (ids.mergeSort fun a b => decide (a ≤ b)).flatMap fun id =>
    leBytes 8 id.toNat ++ (leBytes 4 (m.getD id []).length ++ m.getD id [])

theorem mergeSort_keys {m : Members} {ids : List ID} (h : ids.Perm m.keys) :
    (ids.mergeSort fun a b => decide (a ≤ b)) = m.keys := by
  have hsorted := @List.pairwise_mergeSort ID (fun a b => decide (a ≤ b))
    (fun a b c hab hbc => decide_eq_true
      (UInt64.le_trans (of_decide_eq_true hab) (of_decide_eq_true hbc)))
    (fun a b => by simpa using UInt64.le_total a b) ids
  have hordered : m.keys.Pairwise fun a b => compare a b = .lt := Std.ExtTreeMap.ordered_keys
  have hkeys : m.keys.Pairwise fun a b => decide (a ≤ b) = true :=
    hordered.imp fun hlt => decide_eq_true (UInt64.le_of_lt (compareOfLessAndEq_eq_lt.mp hlt))
  refine List.Perm.eq_of_pairwise ?_ hsorted hkeys ((List.mergeSort_perm _ _).trans h)
  intro a b _ _ hab hba
  exact UInt64.le_antisymm (of_decide_eq_true hab) (of_decide_eq_true hba)

theorem encodeMembersFrom_eq {m : Members} {ids : List ID} (h : ids.Perm m.keys) :
    encodeMembersFrom ids m = encodeMembers m := by
  have hsize : ids.length = m.size := by
    rw [h.length_eq, Std.ExtTreeMap.length_keys]
  unfold encodeMembersFrom encodeMembers
  rw [mergeSort_keys h, hsize, ← Std.ExtTreeMap.map_fst_toList_eq_keys, List.flatMap_map]
  congr 1
  refine List.flatMap_congr fun p hp => ?_
  have hget : m.getD p.1 [] = p.2 := by
    rw [Std.ExtTreeMap.getD_eq_getD_getElem?,
      Std.ExtTreeMap.mem_toList_iff_getElem?_eq_some.mp hp]
    rfl
  rw [hget]

end Members

section Snapshots

def snapshotWithin (b : Bytes) : Option (Except RaftError Snapshot) := do
  if b.length < 8 + 16 + 4 + 4 then
    return .error (.snapshotShort b.length)
  let cut ← minus b.length 4
  let body ← sliceTo b cut
  let tail ← sliceFrom b cut
  let crc ← readNat 4 tail
  if (checksum body).toNat ≠ crc then
    return .error .snapshotChecksum
  let magic ← sliceTo body 8
  if magic ≠ raftSnapMagic then
    return .error .snapshotMagic
  let body ← sliceFrom body 8
  let lastIndex ← readNat 8 body
  let lastTerm ← readNat 8 (← sliceFrom body 8)
  let cfgLen ← readNat 4 (← sliceFrom body 16)
  let body ← sliceFrom body 20
  if body.length < cfgLen then
    return .error .snapshotConfig
  let cfg ← sliceTo body cfgLen
  match ← membersWithin cfg with
  | .error err => return .error err
  | .ok config =>
      let data ← sliceFrom body cfgLen
      return .ok ⟨lastIndex, lastTerm, config, data⟩

def loadWithin (f : DataDir) : Option (Except RaftError Snapshot) :=
  match f.snapshot with
  | none => some (.ok noSnapshot)
  | some b => snapshotWithin b

theorem snapshotWithin_eq (b : Bytes) : snapshotWithin b = some (decodeSnapshot b) := by
  unfold snapshotWithin decodeSnapshot splitChecksum
  split
  · rfl
  · rename_i hlong
    have hcut : (b.drop (b.length - 4)).length = 4 := by
      rw [List.length_drop]
      omega
    have hbody : (b.take (b.length - 4)).length = b.length - 4 := by
      rw [List.length_take]
      omega
    simp only [minus_of_le (show 4 ≤ b.length by omega), Option.bind_eq_bind,
      Option.bind_some, sliceTo_of_le (Nat.sub_le b.length 4),
      sliceFrom_of_le (Nat.sub_le b.length 4), readNat_of_le hcut.ge,
      List.take_of_length_le hcut.le]
    generalize b.take (b.length - 4) = body at hbody ⊢
    generalize leNat (b.drop (b.length - 4)) = crc
    have hmagic : 8 ≤ body.length := by
      omega
    by_cases hcrc : (checksum body).toNat ≠ crc
    · rw [if_pos hcrc, if_pos hcrc]
      rfl
    · rw [if_neg hcrc, if_neg hcrc]
      simp only [sliceTo_of_le hmagic, Option.bind_some]
      by_cases hsame : body.take 8 ≠ raftSnapMagic
      · rw [if_pos hsame, if_pos hsame]
        rfl
      · rw [if_neg hsame, if_neg hsame]
        have hfields : 20 ≤ (body.drop 8).length := by
          rw [List.length_drop]
          omega
        simp only [sliceFrom_of_le hmagic, Option.bind_some]
        generalize body.drop 8 = fields at hfields ⊢
        have hterm : 8 ≤ (fields.drop 8).length := by
          rw [List.length_drop]
          omega
        have hlen : 4 ≤ (fields.drop 16).length := by
          rw [List.length_drop]
          omega
        simp only [readNat_of_le (show 8 ≤ fields.length by omega),
          sliceFrom_of_le (show 8 ≤ fields.length by omega), readNat_of_le hterm,
          sliceFrom_of_le (show 16 ≤ fields.length by omega), readNat_of_le hlen,
          sliceFrom_of_le hfields, Option.bind_some]
        split
        · rfl
        · rename_i hcfg
          rw [not_lt] at hcfg
          simp only [sliceTo_of_le hcfg, sliceFrom_of_le hcfg, Option.bind_some, membersWithin_eq]
          cases decodeMembers _ <;> rfl

theorem loadWithin_persist {s : Snapshot} (hindex : s.lastIndex < 2 ^ 64)
    (hterm : s.lastTerm < 2 ^ 64) (hlen : (encodeMembers s.config).length < 2 ^ 32)
    (f : DataDir) : loadWithin (f.persistRaftSnapshot s) = some (.ok s) := by
  change snapshotWithin (encodeSnapshot s) = _
  rw [snapshotWithin_eq, decodeSnapshot_encode hindex hterm (encodable_of_length hlen) hlen]

end Snapshots

/-- Snapshot files, membership tables and membership changes read back. A snapshot needs a
table whose encoding is shorter than `2 ^ 32` bytes. No reader ever leaves its bytes. -/
theorem raft_formats_round_trip :
    (∀ (f : DataDir) (s : Snapshot), s.lastIndex < 2 ^ 64 → s.lastTerm < 2 ^ 64 →
      (encodeMembers s.config).length < 2 ^ 32 →
      loadWithin (f.persistRaftSnapshot s) = some (.ok s)) ∧
    (∀ (m : Members) (ids : List ID), ids.Perm m.keys → encodeMembersFrom ids m = encodeMembers m) ∧
    (∀ m : Members, Encodable m → membersWithin (encodeMembers m) = some (.ok m)) ∧
    (∀ cc : ConfChange, cc.op = confChangeAdd ∨ cc.op = confChangeRemove →
      cc.addr.length < 2 ^ 32 → changeWithin (encodeConfChange cc).bytes = some (.ok cc)) ∧
    (∀ (b : Bytes) (cc : ConfChange),
      changeWithin b = some (.ok cc) → b = (encodeConfChange cc).bytes) ∧
    ∀ (f : DataDir) (b : Bytes),
      loadWithin f ≠ none ∧ membersWithin b ≠ none ∧ changeWithin b ≠ none := by
  refine ⟨fun f s hindex hterm hlen => loadWithin_persist hindex hterm hlen f,
    fun m ids h => encodeMembersFrom_eq h, fun m hm => ?_,
    fun cc hop haddr => changeWithin_encode hop haddr,
    fun b cc h => eq_encode_of_changeWithin h, fun f b => ⟨?_, ?_, ?_⟩⟩
  · rw [membersWithin_eq, decodeMembers_encode hm]
  · unfold loadWithin
    split
    · exact Option.some_ne_none _
    · rw [snapshotWithin_eq]
      exact Option.some_ne_none _
  · rw [membersWithin_eq]
    exact Option.some_ne_none _
  · rw [changeWithin_eq]
    exact Option.some_ne_none _

def couple : Members :=
  ((∅ : Members).insert 1 [110]).insert 2 [111, 112]

theorem raft_formats_round_trip_couple :
    (∀ f : DataDir, loadWithin (f.persistRaftSnapshot ⟨7, 2, couple, [4, 0]⟩) =
      some (.ok ⟨7, 2, couple, [4, 0]⟩)) ∧
    encodeMembersFrom [2, 1] couple = encodeMembers couple ∧
    membersWithin (encodeMembers couple) = some (.ok couple) ∧
    changeWithin (encodeConfChange ⟨confChangeAdd, 2, [110]⟩).bytes =
      some (.ok ⟨confChangeAdd, 2, [110]⟩) ∧
    [confChangeRemove, 3, 0, 0, 0, 0, 0, 0, 0, 0, 0, 0, 0] =
      (encodeConfChange ⟨confChangeRemove, 3, []⟩).bytes := by
  obtain ⟨hload, horder, hmembers, hchange, hback, -⟩ := raft_formats_round_trip
  exact ⟨fun f => hload f _ (by decide) (by decide) (by decide), horder _ _ (by decide),
    hmembers _ ⟨by decide, by decide⟩, hchange _ (Or.inl rfl) (by decide), hback _ _ rfl⟩

/-- One member with an address of `2 ^ 32 - 1` bytes: the length of the table does not fit
its field, and the table is read from its first fifteen bytes. -/
theorem long_address_not_loaded :
    ∃ s : Snapshot, s.lastIndex < 2 ^ 64 ∧ s.lastTerm < 2 ^ 64 ∧
      (∀ p ∈ s.config.toList, p.2.length < 2 ^ 32) ∧
      ∀ f : DataDir, loadWithin (f.persistRaftSnapshot s) = some (.error (.membersEntry 0)) := by
  obtain ⟨addr, haddr⟩ : ∃ addr : Bytes, addr.length = 2 ^ 32 - 1 :=
    ⟨List.replicate (2 ^ 32 - 1) 0, List.length_replicate⟩
  have hlist : ((∅ : Members).insert 1 addr).toList = [(1, addr)] := rfl
  have hencode : encodeMembers ((∅ : Members).insert 1 addr) =
      leBytes 4 1 ++ (leBytes 8 1 ++ (leBytes 4 addr.length ++ addr)) := by
    rw [encodeMembers, hlist]
    simp only [List.flatMap_cons, List.flatMap_nil, List.append_nil]
    rfl
  have hlen : (encodeMembers ((∅ : Members).insert 1 addr)).length = 2 ^ 32 + 15 := by
    rw [hencode]
    simp only [List.length_append, length_leBytes, haddr]
    omega
  refine ⟨⟨0, 0, (∅ : Members).insert 1 addr, []⟩, Nat.two_pow_pos 64, Nat.two_pow_pos 64, ?_,
    fun f => ?_⟩
  · intro p hp
    rw [hlist, List.mem_singleton] at hp
    rw [hp, haddr]
    omega
  · change snapshotWithin (encodeSnapshot _) = _
    rw [snapshotWithin_eq, encodeSnapshot]
    dsimp only
    rw [decodeSnapshot_fields (Nat.two_pow_pos 64) (Nat.two_pow_pos 64), hlen,
      show (2 ^ 32 + 15) % 2 ^ 32 = 15 by decide, List.append_nil, if_neg (by rw [hlen]; omega)]
    have htable : decodeMembers ((encodeMembers ((∅ : Members).insert 1 addr)).take 15) =
        .error (.membersEntry 0) := by
      rw [hencode]
      rfl
    rw [htable]
    rfl

end RaftKV.Raft.Encodings
