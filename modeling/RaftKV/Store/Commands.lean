import RaftKV.Codec.LittleEndian
import RaftKV.Raft.Wire

namespace RaftKV.Store.Commands

open Codec.LittleEndian
open Raft (Bytes)

inductive Op
  | put
  | delete
  deriving DecidableEq

def opPut : UInt8 := 1
def opDelete : UInt8 := 2

def Op.byte : Op → UInt8
  | .put => opPut
  | .delete => opDelete

def opOf (b : UInt8) : Option Op :=
  if b = opPut then some .put else if b = opDelete then some .delete else none

/-- One mutation. The value is ignored by deletions. -/
structure Command where
  op : Op
  key : Bytes
  value : Bytes
  deriving DecidableEq

inductive CommandError
  | truncated (length : Nat)
  | unknownOp (op : UInt8)
  | truncatedKey (keyLen left : Nat)
  | valueLength (valLen left : Nat)
  deriving DecidableEq

def CommandError.message : CommandError → String
  | .truncated length => s!"command truncated: {length} bytes"
  | .unknownOp op => s!"unknown command op {op}"
  | .truncatedKey keyLen left =>
      s!"command truncated inside key (keyLen={keyLen}, {left} bytes left)"
  | .valueLength valLen left =>
      s!"command value length {valLen} does not match {left} remaining bytes"

def encodeCommand (buf : Bytes) (c : Command) : Bytes :=
  buf ++ c.op.byte ::
    (leBytes 4 c.key.length ++ (c.key ++ (leBytes 4 c.value.length ++ c.value)))

def decodeCommand (b : Bytes) : Except CommandError Command :=
  if b.length < 1 + 4 then
    .error (.truncated b.length)
  else
    match opOf (b.headD 0) with
    | none => .error (.unknownOp (b.headD 0))
    | some op =>
        let keyLen := leNat ((b.drop 1).take 4)
        let rest := b.drop 5
        if rest.length < keyLen + 4 then
          .error (.truncatedKey keyLen rest.length)
        else
          let valLen := leNat ((rest.drop keyLen).take 4)
          let value := rest.drop (keyLen + 4)
          if value.length ≠ valLen then
            .error (.valueLength valLen value.length)
          else
            .ok ⟨op, rest.take keyLen, value⟩

theorem opOf_byte (op : Op) : opOf op.byte = some op := by
  cases op <;> rfl

theorem length_encodeCommand (c : Command) :
    (encodeCommand [] c).length = 9 + c.key.length + c.value.length := by
  simp [encodeCommand]
  omega

theorem decodeCommand_encode {c : Command} (hk : c.key.length < 2 ^ 32)
    (hv : c.value.length < 2 ^ 32) : decodeCommand (encodeCommand [] c) = .ok c := by
  have hk' : c.key.length < 256 ^ 4 := hk
  have hv' : c.value.length < 256 ^ 4 := hv
  have hlen := length_encodeCommand c
  have hhead : (encodeCommand [] c).headD 0 = c.op.byte := rfl
  have hdrop1 : (encodeCommand [] c).drop 1 =
      leBytes 4 c.key.length ++ (c.key ++ (leBytes 4 c.value.length ++ c.value)) := rfl
  have hdrop5 : (encodeCommand [] c).drop 5 =
      c.key ++ (leBytes 4 c.value.length ++ c.value) := by
    rw [show 5 = 1 + 4 by rfl, ← List.drop_drop, hdrop1, drop_leBytes_append]
  generalize encodeCommand [] c = b at hlen hhead hdrop1 hdrop5
  have hkeyRead : leNat ((b.drop 1).take 4) = c.key.length := by
    rw [hdrop1, leNat_take_append hk']
  have hvalRead : leNat (((b.drop 5).drop c.key.length).take 4) = c.value.length := by
    rw [hdrop5, List.drop_left, leNat_take_append hv']
  have hvalue : (b.drop 5).drop (c.key.length + 4) = c.value := by
    rw [← List.drop_drop, hdrop5, List.drop_left, drop_leBytes_append]
  have hkey : (b.drop 5).take c.key.length = c.key := by
    rw [hdrop5, List.take_left]
  unfold decodeCommand
  rw [if_neg (by omega), hhead, opOf_byte]
  simp only [hkeyRead, hvalRead, hvalue, hkey]
  rw [if_neg (by rw [List.length_drop]; omega), if_neg (by simp)]

abbrev MemStore := Std.ExtTreeMap Bytes Bytes

namespace MemStore

def put (s : MemStore) (key value : Bytes) : MemStore :=
  s.insert key value

def get (s : MemStore) (key : Bytes) : Option Bytes :=
  s[key]?

def delete (s : MemStore) (key : Bytes) : MemStore × Bool :=
  (s.erase key, s.contains key)

end MemStore

/-- The map after a command, and whether a deleted key was there. -/
def applyCommand (mem : MemStore) (cmd : Command) : MemStore × Bool :=
  match cmd.op with
  | .put => (mem.put cmd.key cmd.value, false)
  | .delete => mem.delete cmd.key

end RaftKV.Store.Commands
