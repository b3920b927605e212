import RaftKV.Codec.LittleEndian

namespace RaftKV.Codec.Record

open Codec.LittleEndian

variable {b payload : List UInt8} {maxPayload recLen : Nat}

/-- One bit of the division by the reflected Castagnoli polynomial. -/
def crcBit (crc : UInt32) : UInt32 :=
  if crc &&& 1 = 1 then (crc >>> 1) ^^^ 0x82F63B78 else crc >>> 1

def crcByte (crc : UInt32) (b : UInt8) : UInt32 :=
  crcBit^[8] (crc ^^^ b.toUInt32)

/-- The CRC32-C of a byte string. -/
def checksum (b : List UInt8) : UInt32 :=
  ~~~ b.foldl crcByte 0xFFFFFFFF

example : checksum [0x31, 0x32, 0x33, 0x34, 0x35, 0x36, 0x37, 0x38, 0x39] = 0xE3069283 := by
  decide +kernel

def withChecksum (body : List UInt8) : List UInt8 :=
  body ++ leBytes 4 (checksum body).toNat

def splitChecksum (data : List UInt8) : List UInt8 × Nat :=
  (data.take (data.length - 4), leNat (data.drop (data.length - 4)))

theorem length_withChecksum (body : List UInt8) : (withChecksum body).length = body.length + 4 := by
  simp [withChecksum]

theorem splitChecksum_withChecksum (body : List UInt8) :
    splitChecksum (withChecksum body) = (body, (checksum body).toNat) := by
  have hcrc : (checksum body).toNat < 256 ^ 4 := (checksum body).toNat_lt
  unfold splitChecksum
  rw [length_withChecksum, Nat.add_sub_cancel, withChecksum, List.take_left, List.drop_left,
    leNat_leBytes_of_lt hcrc]

theorem eq_withChecksum {data : List UInt8} (hlong : 4 ≤ data.length)
    (h : (checksum (splitChecksum data).1).toNat = (splitChecksum data).2) :
    data = withChecksum (splitChecksum data).1 := by
  have htail : (data.drop (data.length - 4)).length = 4 := by
    rw [List.length_drop]
    omega
  have hcrc := leBytes_leNat (data.drop (data.length - 4))
  rw [htail] at hcrc
  rw [withChecksum, h]
  change data = data.take (data.length - 4) ++ leBytes 4 (leNat (data.drop (data.length - 4)))
  rw [hcrc, List.take_append_drop]

def headerSize : Nat := 8

/-- `payload` as one more record of `buf`. -/
def frame (buf payload : List UInt8) : List UInt8 :=
  buf ++ (leBytes 4 payload.length ++ (leBytes 4 (checksum payload).toNat ++ payload))

/-- The record at the front of `b`: its payload and its length with the header. -/
def parse (b : List UInt8) (maxPayload : Nat) : Option (List UInt8 × Nat) :=
  if b.length < headerSize then
    none
  else
    let payloadLen := leNat (b.take 4)
    let crc := leNat ((b.drop 4).take 4)
    if maxPayload < payloadLen then
      none
    else if b.length < headerSize + payloadLen then
      none
    else
      let payload := (b.drop headerSize).take payloadLen
      if (checksum payload).toNat ≠ crc then none else some (payload, headerSize + payloadLen)

theorem frame_eq_append (buf payload : List UInt8) : frame buf payload = buf ++ frame [] payload :=
  rfl

theorem length_frame (payload : List UInt8) :
    (frame [] payload).length = headerSize + payload.length := by
  simp [frame, headerSize]
  omega

theorem parse_frame (hp : payload.length ≤ maxPayload)
    (hlen : payload.length < 2 ^ 32) (rest : List UInt8) :
    parse (frame [] payload ++ rest) maxPayload = some (payload, headerSize + payload.length) := by
  have hlen' : payload.length < 256 ^ 4 := hlen
  have hcrc : (checksum payload).toNat < 256 ^ 4 := (checksum payload).toNat_lt
  have hb : frame [] payload ++ rest =
      leBytes 4 payload.length ++ (leBytes 4 (checksum payload).toNat ++ (payload ++ rest)) := by
    simp [frame]
  have hsize : (frame [] payload ++ rest).length = headerSize + payload.length + rest.length := by
    rw [List.length_append, length_frame]
  have hdrop : (frame [] payload ++ rest).drop headerSize = payload ++ rest := by
    rw [hb, show headerSize = 4 + 4 by rfl, ← List.drop_drop, drop_leBytes_append,
      drop_leBytes_append]
  have hlenRead : leNat ((frame [] payload ++ rest).take 4) = payload.length := by
    rw [hb, leNat_take_append hlen']
  have hcrcRead : leNat (((frame [] payload ++ rest).drop 4).take 4) =
      (checksum payload).toNat := by
    rw [hb, drop_leBytes_append, leNat_take_append hcrc]
  unfold parse
  simp only [hlenRead, hcrcRead, hdrop, List.take_left]
  rw [if_neg (by omega), if_neg (by omega), if_neg (by omega), if_neg (by simp)]

theorem parse_long (hp : maxPayload < payload.length)
    (hlen : payload.length < 2 ^ 32) (rest : List UInt8) :
    parse (frame [] payload ++ rest) maxPayload = none := by
  have hlen' : payload.length < 256 ^ 4 := hlen
  have hread : leNat ((frame [] payload ++ rest).take 4) = payload.length := by
    rw [frame, List.nil_append, List.append_assoc, leNat_take_append hlen']
  unfold parse
  dsimp only
  rw [hread, if_pos hp, ite_self]

theorem eq_frame_of_parse
    (h : parse b maxPayload = some (payload, recLen)) :
    b = frame [] payload ++ b.drop recLen ∧ recLen = (frame [] payload).length := by
  have hheader : headerSize = 8 := rfl
  unfold parse at h
  dsimp only at h
  split at h
  · cases h
  · rename_i hlong
    split at h
    · cases h
    · split at h
      · cases h
      · rename_i hfits
        split at h
        · cases h
        · rename_i hcrc
          have hlen : leBytes 4 (leNat (b.take 4)) = b.take 4 := leBytes_leNat_take (by omega)
          have hsum : leBytes 4 (leNat ((b.drop 4).take 4)) = (b.drop 4).take 4 :=
            leBytes_leNat_take (by rw [List.length_drop]; omega)
          generalize leNat (b.take 4) = len at h hlen hfits hcrc
          have hpayload : ((b.drop headerSize).take len).length = len := by
            rw [List.length_take, List.length_drop]
            omega
          cases h
          refine ⟨?_, by rw [length_frame, hpayload]⟩
          rw [frame, hpayload, not_not.mp hcrc, hlen, hsum, hheader, ← List.drop_drop]
          simp only [List.nil_append, List.append_assoc, List.take_append_drop]
          rw [show b.drop 8 = (b.drop 4).drop 4 by rw [List.drop_drop], List.take_append_drop,
            List.take_append_drop]

theorem parse_length
    (h : parse b maxPayload = some (payload, recLen)) :
    headerSize ≤ recLen ∧ recLen ≤ b.length := by
  obtain ⟨hb, hrec⟩ := eq_frame_of_parse h
  have hlen := congrArg List.length hb
  rw [List.length_append, ← hrec] at hlen
  rw [length_frame] at hrec
  omega

theorem payload_le_of_parse {found : List UInt8 × Nat}
    (h : parse b maxPayload = some found) : found.1.length ≤ maxPayload := by
  unfold parse at h
  dsimp only at h
  split at h
  · cases h
  · split at h
    · cases h
    · rename_i hle
      split at h
      · cases h
      · split at h <;> cases h
        exact (List.length_take_le _ _).trans (Nat.le_of_not_lt hle)

theorem parse_torn (hp : payload.length < 2 ^ 32) {n : Nat}
    (hn : n < (frame [] payload).length) (maxPayload : Nat) :
    parse ((frame [] payload).take n) maxPayload = none := by
  have hlen : payload.length < 256 ^ 4 := by
    omega
  have hsize : ((frame [] payload).take n).length = n := by
    rw [List.length_take, min_eq_left hn.le]
  rw [length_frame] at hn
  unfold parse
  rw [hsize]
  split
  · rfl
  · rename_i hheader
    have hread : leNat (((frame [] payload).take n).take 4) = payload.length := by
      have : headerSize = 8 := rfl
      rw [List.take_take, min_eq_left (by omega), frame, List.nil_append, leNat_take_append hlen]
    dsimp only
    rw [hread, if_pos hn]
    split <;> rfl

def frameAll (payloads : List (List UInt8)) : List UInt8 :=
  payloads.flatMap (frame [])

theorem frameAll_cons (payload : List UInt8) (payloads : List (List UInt8)) :
    frameAll (payload :: payloads) = frame [] payload ++ frameAll payloads :=
  rfl

theorem frameAll_append (ps qs : List (List UInt8)) :
    frameAll (ps ++ qs) = frameAll ps ++ frameAll qs :=
  List.flatMap_append

theorem length_le_length_frameAll (payloads : List (List UInt8)) :
    payloads.length ≤ (frameAll payloads).length := by
  induction payloads with
  | nil => simp
  | cons p ps ih =>
      have : headerSize = 8 := rfl
      rw [frameAll_cons, List.length_append, length_frame, List.length_cons]
      omega

theorem exists_cut {payloads : List (List UInt8)} (h : ∀ p ∈ payloads, p.length < 2 ^ 32)
    (n : Nat) :
    ∃ j ≤ payloads.length, ∃ torn,
      (frameAll payloads).take n = frameAll (payloads.take j) ++ torn ∧
      (∀ maxPayload, parse torn maxPayload = none) ∧
      (frameAll (payloads.take j)).length ≤ n ∧
      ∀ i ≤ payloads.length, (frameAll (payloads.take i)).length ≤ n → i ≤ j := by
  induction payloads generalizing n with
  | nil => exact ⟨0, le_rfl, [], by simp [frameAll], fun _ => rfl, by simp [frameAll], by simp⟩
  | cons p ps ih =>
      rw [frameAll_cons]
      rcases Nat.lt_or_ge n (frame [] p).length with hn | hn
      · refine ⟨0, Nat.zero_le _, (frame [] p).take n, ?_, parse_torn (h p (by simp)) hn,
          by simp [frameAll], ?_⟩
        · rw [List.take_append_of_le_length hn.le]
          rfl
        · intro i _ hi
          cases i with
          | zero => exact le_rfl
          | succ i =>
              rw [List.take_succ_cons, frameAll_cons, List.length_append] at hi
              omega
      · obtain ⟨j, hj, torn, htake, htorn, hlen, hmax⟩ :=
          ih (fun q hq => h q (by simp [hq])) (n - (frame [] p).length)
        refine ⟨j + 1, by simpa using hj, torn, ?_, htorn, ?_, ?_⟩
        · rw [List.take_append, List.take_of_length_le hn, htake, List.take_succ_cons,
            frameAll_cons, List.append_assoc]
        · rw [List.take_succ_cons, frameAll_cons, List.length_append]
          omega
        · intro i hi hle
          cases i with
          | zero => exact Nat.zero_le _
          | succ i =>
              rw [List.take_succ_cons, frameAll_cons, List.length_append] at hle
              have := hmax i (by simpa using hi) (by omega)
              omega

/-- The payloads of the records at the front of `b`, and the offset at which parsing
first fails. -/
def parseAll (maxPayload : Nat) (b : List UInt8) : List (List UInt8) × Nat :=
  match _h : parse b maxPayload with
  | none => ([], 0)
  | some (payload, recLen) =>
      (payload :: (parseAll maxPayload (b.drop recLen)).1,
        recLen + (parseAll maxPayload (b.drop recLen)).2)
termination_by b.length
decreasing_by
  all_goals
    have hpos : 0 < headerSize := by decide
    have := parse_length _h
    rw [List.length_drop]
    omega

theorem parseAll_of_none (h : parse b maxPayload = none) :
    parseAll maxPayload b = ([], 0) := by
  rw [parseAll]
  split
  · rfl
  · rename_i hsome
    rw [h] at hsome
    cases hsome

theorem parseAll_of_some
    (h : parse b maxPayload = some (payload, recLen)) :
    parseAll maxPayload b = (payload :: (parseAll maxPayload (b.drop recLen)).1,
      recLen + (parseAll maxPayload (b.drop recLen)).2) := by
  rw [parseAll]
  split
  · rename_i hnone
    rw [h] at hnone
    cases hnone
  · rename_i hsome
    rw [h] at hsome
    cases hsome
    rfl

theorem parseAll_frameAll {payloads : List (List UInt8)} {tail : List UInt8}
    (h : ∀ p ∈ payloads, p.length ≤ maxPayload ∧ p.length < 2 ^ 32)
    (htail : parse tail maxPayload = none) :
    parseAll maxPayload (frameAll payloads ++ tail) = (payloads, (frameAll payloads).length) := by
  induction payloads with
  | nil => exact parseAll_of_none htail
  | cons p ps ih =>
      obtain ⟨hp, hlen⟩ := h p (by simp)
      have hparse := parse_frame hp hlen (frameAll ps ++ tail)
      rw [← List.append_assoc, ← frameAll_cons, ← length_frame] at hparse
      have hdrop : (frameAll (p :: ps) ++ tail).drop (frame [] p).length = frameAll ps ++ tail := by
        rw [frameAll_cons, List.append_assoc, List.drop_left]
      rw [parseAll_of_some hparse, hdrop, ih fun q hq => h q (by simp [hq]), frameAll_cons,
        List.length_append]

/-- Framing is a code for streams: records are read back whole, a cut is noticed where the
last whole record ends, and nothing else parses. -/
theorem framing_is_stream_code (maxPayload : Nat) :
    (∀ payloads : List (List UInt8),
      (∀ p ∈ payloads, p.length ≤ maxPayload ∧ p.length < 2 ^ 32) →
      parseAll maxPayload (frameAll payloads) = (payloads, (frameAll payloads).length) ∧
      ∀ n, ∃ j ≤ payloads.length,
        parseAll maxPayload ((frameAll payloads).take n) =
          (payloads.take j, (frameAll (payloads.take j)).length) ∧
        ∀ i ≤ payloads.length, (frameAll (payloads.take i)).length ≤ n ↔ i ≤ j) ∧
    ∀ b payload recLen, parse b maxPayload = some (payload, recLen) →
      frame [] payload <+: b ∧ recLen = (frame [] payload).length := by
  refine ⟨fun payloads h => ⟨?_, fun n => ?_⟩, fun b payload recLen hparse => ?_⟩
  · have hall : parseAll maxPayload (frameAll payloads ++ []) = _ := parseAll_frameAll h rfl
    rwa [List.append_nil] at hall
  · obtain ⟨j, hj, torn, htake, htorn, hlen, hmax⟩ := exists_cut (fun p hp => (h p hp).2) n
    refine ⟨j, hj, ?_, fun i hi => ⟨hmax i hi, fun hij => ?_⟩⟩
    · rw [htake]
      exact parseAll_frameAll (fun p hp => h p (List.mem_of_mem_take hp)) (htorn maxPayload)
    · have hpre : frameAll (payloads.take i) <+: frameAll (payloads.take j) := by
        rw [← List.take_append_drop i (payloads.take j), frameAll_append, List.take_take,
          min_eq_left hij]
        exact List.prefix_append _ _
      exact hpre.length_le.trans hlen
  · obtain ⟨hb, hrec⟩ := eq_frame_of_parse hparse
    exact ⟨⟨_, hb.symm⟩, hrec⟩

theorem framing_is_stream_code_cut :
    parseAll 2 (frameAll [[1, 2], [3]]) = ([[1, 2], [3]], 19) ∧
    parseAll 2 ((frameAll [[1, 2], [3]]).take 18) = ([[1, 2]], 10) ∧
    frame [] [1, 2] <+: (frameAll [[1, 2], [3]]).take 18 := by
  have hlens : ∀ p ∈ ([[1, 2], [3]] : List (List UInt8)), p.length ≤ 2 ∧ p.length < 2 ^ 32 := by
    decide
  obtain ⟨hstream, hparse⟩ := framing_is_stream_code 2
  obtain ⟨hall, hcut⟩ := hstream _ hlens
  obtain ⟨j, hj, htake, hmax⟩ := hcut 18
  have hone : 1 ≤ j := (hmax 1 (by decide)).mp (by decide)
  have htwo : ¬2 ≤ j := fun h => absurd ((hmax 2 le_rfl).mpr h) (by decide)
  obtain rfl : j = 1 := by
    omega
  exact ⟨hall, htake, (hparse _ [1, 2] 10 (by decide +kernel)).1⟩

end RaftKV.Codec.Record
