import RaftKV.Codec.LittleEndian
import RaftKV.Codec.Tables
import RaftKV.Raft.Wire

namespace RaftKV.Raft

open Codec.LittleEndian Codec.Tables

/-- A membership table, node to address. Iteration is in ascending order of the
identifiers; nothing below depends on the order. -/
abbrev Members := Std.ExtTreeMap ID Bytes

def confChangeAdd : UInt8 := 1
def confChangeRemove : UInt8 := 2

@[ext]
structure ConfChange where
  op : UInt8
  id : ID
  addr : Bytes
  deriving DecidableEq

/-- An address whose length does not fit its field is not read back. -/
def encodeConfChange (cc : ConfChange) : Command :=
  .of (cc.op :: (leBytes 8 cc.id.toNat ++ (leBytes 4 cc.addr.length ++ cc.addr)))

def decodeConfChange (b : Command) : Except RaftError ConfChange :=
  if b.length < 13 then
    .error (.changeTruncated b.length)
  else if b.length - 13 ≠ leNat ((b.bytes.drop 9).take 4) then
    .error .changeAddress
  else if b.bytes.headD 0 ≠ confChangeAdd ∧ b.bytes.headD 0 ≠ confChangeRemove then
    .error (.changeOp (b.bytes.headD 0))
  else
    .ok
      { op := b.bytes.headD 0
        id := UInt64.ofNat (leNat ((b.bytes.drop 1).take 8))
        addr := b.bytes.drop 13 }

def encodeMembers (m : Members) : Bytes :=
  leBytes 4 m.size ++
    m.toList.flatMap fun p => leBytes 8 p.1.toNat ++ (leBytes 4 p.2.length ++ p.2)

/-- The loop of `decodeMembers`: `n` entries are left, `i` have been read. -/
def decodeEntries : (n i : Nat) → Bytes → Members → Except RaftError Members
  | 0, _, _, m => .ok m
  | n + 1, i, b, m =>
      if b.length < 12 then
        .error (.membersEntry i)
      else
        let id := UInt64.ofNat (leNat (b.take 8))
        let alen := leNat ((b.drop 8).take 4)
        let rest := b.drop 12
        if rest.length < alen then
          .error (.membersAddress i)
        else
          decodeEntries n (i + 1) (rest.drop alen) (m.insert id (rest.take alen))

def decodeMembers (b : Bytes) : Except RaftError Members :=
  if b.length < 4 then
    .error .membersTruncated
  else
    decodeEntries (leNat (b.take 4)) 0 (b.drop 4) ∅

/-- A table whose size and addresses fit the 32-bit length fields. -/
def Encodable (m : Members) : Prop :=
  m.size < 2 ^ 32 ∧ ∀ p ∈ m.toList, p.2.length < 2 ^ 32

def ConfChange.apply (cc : ConfChange) (m : Members) : Members :=
  if cc.op = confChangeAdd then m.insert cc.id cc.addr
  else if cc.op = confChangeRemove then m.erase cc.id
  else m

/-- The change a log entry makes, if it is a configuration entry that decodes. -/
def changeOf (e : Entry) : Option ConfChange :=
  if e.type = .config then (decodeConfChange e.command).toOption else none

def applyChangeOf (m : Members) (e : Entry) : Members :=
  match changeOf e with
  | none => m
  | some cc => cc.apply m

def membersAfter (m : Members) (entries : List Entry) : Members :=
  entries.foldl applyChangeOf m

def voters (m : Members) : Finset ID :=
  m.keys.toFinset

theorem mem_voters {m : Members} {j : ID} : j ∈ voters m ↔ j ∈ m := by
  rw [voters, List.mem_toFinset, Std.ExtTreeMap.mem_keys]

theorem card_voters (m : Members) : (voters m).card = m.size := by
  rw [voters, List.toFinset_card_of_nodup Std.ExtTreeMap.nodup_keys, Std.ExtTreeMap.length_keys]

theorem length_encodeConfChange (cc : ConfChange) :
    (encodeConfChange cc).length = cc.addr.length + 13 := by
  change (cc.op :: (leBytes 8 cc.id.toNat ++ (leBytes 4 cc.addr.length ++ cc.addr))).length = _
  simp
  omega

theorem decodeConfChange_encode {cc : ConfChange} (haddr : cc.addr.length < 2 ^ 32) :
    decodeConfChange (encodeConfChange cc) =
      if cc.op = confChangeAdd ∨ cc.op = confChangeRemove then .ok cc
      else .error (.changeOp cc.op) := by
  have haddr' : cc.addr.length < 256 ^ 4 := haddr
  have hid : cc.id.toNat < 256 ^ 8 := cc.id.toNat_lt
  have hbytes : (encodeConfChange cc).bytes =
      cc.op :: (leBytes 8 cc.id.toNat ++ (leBytes 4 cc.addr.length ++ cc.addr)) := rfl
  have hlen := length_encodeConfChange cc
  have hdrop9 : (encodeConfChange cc).bytes.drop 9 = leBytes 4 cc.addr.length ++ cc.addr := by
    rw [hbytes, List.drop_succ_cons, drop_leBytes_append]
  have hdrop13 : (encodeConfChange cc).bytes.drop 13 = cc.addr := by
    rw [show 13 = 9 + 4 by rfl, ← List.drop_drop, hdrop9, drop_leBytes_append]
  have hidRead : leNat (((encodeConfChange cc).bytes.drop 1).take 8) = cc.id.toNat := by
    rw [hbytes, List.drop_succ_cons, List.drop_zero, leNat_take_append hid]
  have hhead : (encodeConfChange cc).bytes.headD 0 = cc.op := rfl
  generalize encodeConfChange cc = b at hlen hdrop9 hdrop13 hidRead hhead
  have haddrRead : leNat ((b.bytes.drop 9).take 4) = cc.addr.length := by
    rw [hdrop9, leNat_take_append haddr']
  unfold decodeConfChange
  rw [if_neg (by omega), if_neg (by omega)]
  by_cases hop : cc.op = confChangeAdd ∨ cc.op = confChangeRemove
  · rw [if_neg (by rw [hhead]; tauto), if_pos hop]
    refine congrArg Except.ok (ConfChange.ext hhead ?_ hdrop13)
    change UInt64.ofNat _ = _
    rw [hidRead, UInt64.ofNat_toNat]
  · rw [if_pos (by rw [hhead]; tauto), if_neg hop, hhead]

theorem decodeEntries_flatMap (l : List (ID × Bytes)) (i : Nat) (m : Members)
    (hl : ∀ p ∈ l, p.2.length < 2 ^ 32) :
    decodeEntries l.length i
        (l.flatMap fun p => leBytes 8 p.1.toNat ++ (leBytes 4 p.2.length ++ p.2)) m =
      .ok (addRows m l) := by
  induction l generalizing i m with
  | nil => rfl
  | cons p l ih =>
      have hp : p.2.length < 256 ^ 4 := by
        simpa using hl p (by simp)
      have hid : p.1.toNat < 256 ^ 8 := p.1.toNat_lt
      rw [List.length_cons, List.flatMap_cons, decodeEntries]
      simp only [List.append_assoc]
      generalize hrest : l.flatMap
        (fun p => leBytes 8 p.1.toNat ++ (leBytes 4 p.2.length ++ p.2)) = rest
      have hdrop12 : (leBytes 8 p.1.toNat ++ (leBytes 4 p.2.length ++ (p.2 ++ rest))).drop 12 =
          p.2 ++ rest := by
        rw [show 12 = 8 + 4 by rfl, ← List.drop_drop, drop_leBytes_append, drop_leBytes_append]
      rw [if_neg (by simp; omega), leNat_take_append hid, drop_leBytes_append,
        leNat_take_append hp, hdrop12, if_neg (by simp), List.drop_left, List.take_left,
        UInt64.ofNat_toNat, ← hrest]
      exact ih (i + 1) _ fun q hq => hl q (by simp [hq])

theorem decodeMembers_encode {m : Members} (h : Encodable m) :
    decodeMembers (encodeMembers m) = .ok m := by
  have hsize : m.size < 256 ^ 4 := by
    simpa using h.1
  have hlen : m.size = m.toList.length := Std.ExtTreeMap.length_toList.symm
  unfold decodeMembers encodeMembers
  rw [if_neg (by simp), leNat_take_append hsize, drop_leBytes_append, hlen,
    decodeEntries_flatMap _ _ _ h.2, addRows_of_perm (List.Perm.refl _)]

end RaftKV.Raft
