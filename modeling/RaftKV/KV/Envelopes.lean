import RaftKV.Codec.Slices
import RaftKV.KV.Sessions

namespace RaftKV.KV.Envelopes

open Codec.LittleEndian Codec.Slices
open Raft (Bytes)
open RaftKV.Store
open KV.Sessions

/-- `Commands.decodeCommand` with the bounds of every slice it takes. -/
def decodeInner (b : Bytes) : Option (Except Commands.CommandError Commands.Command) := do
  if b.length < 1 + 4 then
    return .error (.truncated b.length)
  let op ← b[0]?
  match Commands.opOf op with
  | none => return .error (.unknownOp op)
  | some op =>
      let b ← sliceFrom b 1
      let keyLen ← readNat 4 b
      let b ← sliceFrom b 4
      if b.length < keyLen + 4 then
        return .error (.truncatedKey keyLen b.length)
      let key ← sliceTo b keyLen
      let b ← sliceFrom b keyLen
      let valLen ← readNat 4 b
      let b ← sliceFrom b 4
      if b.length ≠ valLen then
        return .error (.valueLength valLen b.length)
      return .ok ⟨op, key, b⟩

def decodeEnvelope (b : Bytes) : Option (Except CommandError Command) := do
  if b.length < 16 then
    return .error (.envelopeTruncated b.length)
  let clientID ← readNat 8 b
  let serial ← readNat 8 (← sliceFrom b 8)
  let inner ← sliceFrom b 16
  return .ok ⟨UInt64.ofNat clientID, UInt64.ofNat serial, inner⟩

theorem decodeInner_eq (b : Bytes) : decodeInner b = some (Commands.decodeCommand b) := by
  unfold decodeInner Commands.decodeCommand
  split
  · rfl
  · rename_i hlong
    cases b with
    | nil => exact absurd (Nat.zero_lt_succ _) hlong
    | cons op rest =>
        have hrest : 4 ≤ rest.length := by
          simp only [List.length_cons] at hlong
          omega
        simp only [List.getElem?_cons_zero, List.headD_cons, List.drop_succ_cons, List.drop_zero,
          Option.bind_eq_bind, Option.bind_some]
        cases Commands.opOf op with
        | none => rfl
        | some op' =>
            simp only [sliceFrom_of_le (show 1 ≤ (op :: rest).length by simp),
              List.drop_succ_cons, List.drop_zero, Option.bind_some, readNat_of_le hrest,
              sliceFrom_of_le hrest]
            split
            · rfl
            · rename_i hkey
              generalize leNat (rest.take 4) = keyLen at hkey ⊢
              generalize rest.drop 4 = body at hkey ⊢
              have hle : keyLen ≤ body.length := by
                omega
              have hval : 4 ≤ (body.drop keyLen).length := by
                rw [List.length_drop]
                omega
              rw [← List.drop_drop]
              simp only [sliceTo_of_le hle, sliceFrom_of_le hle, Option.bind_some,
                readNat_of_le hval, sliceFrom_of_le hval]
              split <;> rfl

theorem decodeEnvelope_eq (b : Bytes) : decodeEnvelope b = some (decodeCommand b) := by
  unfold decodeEnvelope decodeCommand
  split
  · rfl
  · rename_i hlong
    have hserial : 8 ≤ (b.drop 8).length := by
      rw [List.length_drop]
      omega
    simp only [readNat_of_le (show 8 ≤ b.length by omega), readNat_of_le hserial,
      sliceFrom_of_le (show 8 ≤ b.length by omega), sliceFrom_of_le (show 16 ≤ b.length by omega),
      Option.bind_eq_bind, Option.bind_some]
    rfl

theorem byte_of_opOf {b : UInt8} {op : Commands.Op} (h : Commands.opOf b = some op) :
    op.byte = b := by
  unfold Commands.opOf at h
  split at h
  · rename_i hput
    cases h
    exact hput.symm
  · split at h
    · rename_i hdelete
      cases h
      exact hdelete.symm
    · cases h

theorem eq_encode_of_decodeInner {b : Bytes} {cmd : Commands.Command}
    (h : Commands.decodeCommand b = .ok cmd) :
    b = Commands.encodeCommand [] cmd ∧ cmd.key.length < 2 ^ 32 ∧ cmd.value.length < 2 ^ 32 := by
  unfold Commands.decodeCommand at h
  split at h
  · cases h
  · rename_i hlong
    cases b with
    | nil => exact absurd (Nat.zero_lt_succ _) hlong
    | cons byte rest =>
        have hrest : 4 ≤ rest.length := by
          simp only [List.length_cons] at hlong
          omega
        have hfield := eq_leBytes_append hrest
        have hkeyLen := leNat_take_lt 4 hrest
        simp only [List.headD_cons, List.drop_succ_cons, List.drop_zero] at h
        cases hop : Commands.opOf byte with
        | none =>
            rw [hop] at h
            cases h
        | some op =>
            simp only [hop] at h
            generalize leNat (rest.take 4) = keyLen at h hfield hkeyLen
            generalize rest.drop 4 = body at h hfield
            rw [← List.drop_drop] at h
            split at h
            · cases h
            · rename_i hkey
              have hval : 4 ≤ (body.drop keyLen).length := by
                rw [List.length_drop]
                omega
              have hfield' := eq_leBytes_append hval
              have hvalLen := leNat_take_lt 4 hval
              have hbody := List.take_append_drop keyLen body
              have hlen : (body.take keyLen).length = keyLen := by
                rw [List.length_take]
                omega
              generalize leNat ((body.drop keyLen).take 4) = valLen at h hfield' hvalLen
              generalize (body.drop keyLen).drop 4 = value at h hfield'
              split at h
              · cases h
              · rename_i hvalue
                cases h
                rw [not_not] at hvalue
                refine ⟨?_, by rw [hlen]; exact hkeyLen, by rw [hvalue]; exact hvalLen⟩
                rw [Commands.encodeCommand, byte_of_opOf hop, hlen, hvalue, ← hfield', hbody,
                  ← hfield]
                rfl

theorem eq_encode_of_decodeEnvelope {b : Bytes} {c : Command} (h : decodeCommand b = .ok c) :
    b = encodeCommand c := by
  unfold decodeCommand at h
  split at h
  · cases h
  · rename_i hlong
    have hfront : 8 ≤ b.length := by
      omega
    have hback : 8 ≤ (b.drop 8).length := by
      rw [List.length_drop]
      omega
    have hclient := eq_leBytes_append hfront
    have hserial := eq_leBytes_append hback
    cases h
    unfold encodeCommand
    dsimp only
    rw [toNat_ofNat_leNat hfront, toNat_ofNat_leNat hback,
      show b.drop 16 = (b.drop 8).drop 8 by rw [List.drop_drop], ← hserial, ← hclient]

/-- The bytes of a command read back. Any other byte string is rejected by one of the two
decoders, and neither of them ever leaves the bounds of what it reads. -/
theorem command_format_bijective :
    (∀ clientID serial (cmd : Commands.Command), cmd.key.length < 2 ^ 32 →
      cmd.value.length < 2 ^ 32 →
      decodeEnvelope (encodeCommand ⟨clientID, serial, Commands.encodeCommand [] cmd⟩) =
          some (.ok ⟨clientID, serial, Commands.encodeCommand [] cmd⟩) ∧
        decodeInner (Commands.encodeCommand [] cmd) = some (.ok cmd)) ∧
    ∀ b : Bytes,
      (∃ err, decodeEnvelope b = some (.error err)) ∨
      ∃ c, decodeEnvelope b = some (.ok c) ∧
        ((∃ err, decodeInner c.inner = some (.error err)) ∨
        ∃ cmd, decodeInner c.inner = some (.ok cmd) ∧
          cmd.key.length < 2 ^ 32 ∧ cmd.value.length < 2 ^ 32 ∧
          b = encodeCommand ⟨c.clientID, c.serial, Commands.encodeCommand [] cmd⟩) := by
  refine ⟨fun clientID serial cmd hkey hvalue => ⟨?_, ?_⟩, fun b => ?_⟩
  · rw [decodeEnvelope_eq, decodeCommand_encode]
  · rw [decodeInner_eq, Commands.decodeCommand_encode hkey hvalue]
  · rw [decodeEnvelope_eq]
    rcases hb : decodeCommand b with err | c
    · exact Or.inl ⟨err, rfl⟩
    · refine Or.inr ⟨c, rfl, ?_⟩
      rw [decodeInner_eq]
      rcases hinner : Commands.decodeCommand c.inner with err | cmd
      · exact Or.inl ⟨err, rfl⟩
      · obtain ⟨heq, hkey, hvalue⟩ := eq_encode_of_decodeInner hinner
        refine Or.inr ⟨cmd, rfl, hkey, hvalue, ?_⟩
        rw [← heq]
        exact eq_encode_of_decodeEnvelope hb

theorem command_format_bijective_put :
    decodeEnvelope (encodeCommand ⟨7, 3, Commands.encodeCommand [] ⟨.put, [107, 49], [1, 2]⟩⟩) =
      some (.ok ⟨7, 3, Commands.encodeCommand [] ⟨.put, [107, 49], [1, 2]⟩⟩) ∧
    decodeInner (Commands.encodeCommand [] ⟨.put, [107, 49], [1, 2]⟩) =
      some (.ok ⟨.put, [107, 49], [1, 2]⟩) ∧
    decodeEnvelope ((encodeCommand
      ⟨7, 3, Commands.encodeCommand [] ⟨.put, [107, 49], [1, 2]⟩⟩).take 15) =
      some (.error (.envelopeTruncated 15)) ∧
    decodeInner (Commands.encodeCommand [] ⟨.put, [107, 49], [1, 2]⟩ ++ [0]) =
      some (.error (.valueLength 2 3)) := by
  obtain ⟨henvelope, hinner⟩ :=
    command_format_bijective.1 7 3 ⟨.put, [107, 49], [1, 2]⟩ (by decide) (by decide)
  exact ⟨henvelope, hinner, rfl, rfl⟩

end RaftKV.KV.Envelopes
