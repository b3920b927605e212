import RaftKV.Store.Segments

namespace RaftKV.Store.Replay

open Codec.Record
open Raft (Bytes)
open Store.Commands Store.Segments

variable {recs : List WalRecord} {fromSeq lastSeq : Nat}

/-- The intact records of all segments, in their order. -/
def walked (segs : List (Nat × Bytes)) : List WalRecord :=
  segs.flatMap fun p => recordsOf p.2

/-- `apply`, and the records it is given. -/
def observing {σ : Type} (apply : σ → Nat → Bytes → Except StoreError σ) :
    List WalRecord × σ → Nat → Bytes → Except StoreError (List WalRecord × σ)
  | (passed, s), seq, command =>
      match apply s seq command with
      | .error err => .error err
      | .ok s => .ok (passed ++ [⟨seq, command⟩], s)

/-- Every record carries the number after that of the record before it. -/
def Consecutive (recs : List WalRecord) : Prop :=
  recs.IsChain fun a b => b.seq = a.seq + 1

/-- What a replay from `fromSeq` on is meant to accept, and to pass on. -/
structure GapFree (segs : List (Nat × Bytes)) (fromSeq : Nat) (passed : List WalRecord) :
    Prop where
  consecutive : Consecutive (walked segs)
  first : ∀ r, (walked segs).head? = some r → r.seq ≤ fromSeq + 1
  passed : passed = (walked segs).filter fun r => fromSeq < r.seq
  torn : ∀ p ∈ segs.dropLast, validSize p.2 = p.2.length

/-- The records at the front that are not above `fromSeq`. -/
def covered (recs : List WalRecord) (fromSeq : Nat) : List WalRecord :=
  recs.takeWhile fun r => r.seq ≤ fromSeq

/-- The records from the first one above `fromSeq` on. -/
def uncovered (recs : List WalRecord) (fromSeq : Nat) : List WalRecord :=
  recs.dropWhile fun r => r.seq ≤ fromSeq

/-- What the loop does not check, as it skips every record that is not above the highest number
so far: the records it skips stand at the front, carry consecutive numbers and end at `fromSeq`
if a record follows. -/
structure SkipsFront (recs : List WalRecord) (fromSeq : Nat) : Prop where
  consecutive : Consecutive (covered recs fromSeq)
  last : uncovered recs fromSeq ≠ [] → ∀ r ∈ (covered recs fromSeq).getLast?, r.seq = fromSeq
  rising : (uncovered recs fromSeq).IsChain fun a b => a.seq < b.seq

/-- What the loop checks: no record is more than one above the highest number so far. -/
def Checked : List WalRecord → (lastSeq : Nat) → Prop
  | [], _ => True
  | r :: recs, lastSeq => r.seq ≤ lastSeq + 1 ∧ Checked recs (max lastSeq r.seq)

/-- The records a replay picks: those above the highest number so far. -/
def picked : List WalRecord → (lastSeq : Nat) → List WalRecord × Nat
  | [], lastSeq => ([], lastSeq)
  | r :: recs, lastSeq =>
      if lastSeq < r.seq then (r :: (picked recs r.seq).1, (picked recs r.seq).2)
      else picked recs lastSeq

theorem picked_append (recs recs' : List WalRecord) (lastSeq : Nat) :
    picked (recs ++ recs') lastSeq =
      ((picked recs lastSeq).1 ++ (picked recs' (picked recs lastSeq).2).1,
        (picked recs' (picked recs lastSeq).2).2) := by
  induction recs generalizing lastSeq with
  | nil => rfl
  | cons r recs ih =>
      rw [List.cons_append, picked, picked]
      split
      · rw [ih]
        rfl
      · exact ih lastSeq

theorem checked_append {recs' : List WalRecord} (h : Checked recs lastSeq)
    (h' : Checked recs' (picked recs lastSeq).2) : Checked (recs ++ recs') lastSeq := by
  induction recs generalizing lastSeq with
  | nil => exact h'
  | cons r recs ih =>
      obtain ⟨hr, hrecs⟩ := h
      rw [picked] at h'
      refine ⟨hr, ih hrecs ?_⟩
      split at h'
      · rename_i hlt
        rw [max_eq_right hlt.le]
        exact h'
      · rename_i hle
        rw [max_eq_left (Nat.not_lt.mp hle)]
        exact h'

theorem head_le_of_checked (h : Checked recs lastSeq)
    (r : WalRecord) (hr : recs.head? = some r) : r.seq ≤ lastSeq + 1 := by
  obtain ⟨rest, rfl⟩ := List.head?_eq_some_iff.mp hr
  exact h.1

theorem checked_of_covered {front rest : List WalRecord}
    (hfront : ∀ r ∈ front, r.seq ≤ fromSeq) (h : Checked (front ++ rest) fromSeq) :
    Checked rest fromSeq := by
  induction front with
  | nil => exact h
  | cons r front ih =>
      obtain ⟨hr, hfront⟩ := List.forall_mem_cons.mp hfront
      have htail := h.2
      rw [max_eq_left hr] at htail
      exact ih hfront htail

theorem consecutive_of_rising (h : Checked recs lastSeq)
    (hrising : recs.IsChain fun a b => a.seq < b.seq)
    (hfirst : ∀ r ∈ recs.head?, lastSeq < r.seq) :
    Consecutive recs ∧ ∀ r ∈ recs.head?, r.seq = lastSeq + 1 := by
  induction recs generalizing lastSeq with
  | nil => exact ⟨List.isChain_nil, fun r hr => by cases hr⟩
  | cons r recs ih =>
      obtain ⟨hr, hrecs⟩ := h
      have hlt := hfirst r rfl
      rw [max_eq_right hlt.le] at hrecs
      obtain ⟨hnext, htail⟩ := List.isChain_cons.mp hrising
      obtain ⟨hcons, hhead⟩ := ih hrecs htail hnext
      refine ⟨List.isChain_cons.mpr ⟨hhead, hcons⟩, fun r' hr' => ?_⟩
      obtain rfl := Option.some.inj hr'
      omega

theorem lt_head_uncovered (r : WalRecord)
    (h : r ∈ (uncovered recs fromSeq).head?) : fromSeq < r.seq := by
  have hnot := List.head?_dropWhile_not (fun r : WalRecord => decide (r.seq ≤ fromSeq)) recs
  rw [Option.mem_def, uncovered] at h
  rw [h] at hnot
  exact Nat.not_le.mp (of_decide_eq_false hnot)

theorem le_of_mem_covered (r : WalRecord)
    (h : r ∈ covered recs fromSeq) : r.seq ≤ fromSeq :=
  of_decide_eq_true (List.all_eq_true.mp List.all_takeWhile r h)

theorem consecutive_iff_skipsFront
    (h : Checked recs fromSeq) : Consecutive recs ↔ SkipsFront recs fromSeq := by
  have hsplit : covered recs fromSeq ++ uncovered recs fromSeq = recs :=
    List.takeWhile_append_dropWhile
  have hle : ∀ r ∈ covered recs fromSeq, r.seq ≤ fromSeq := le_of_mem_covered
  have hchecked : Checked (uncovered recs fromSeq) fromSeq := by
    rw [← hsplit] at h
    exact checked_of_covered hle h
  constructor
  · intro hcons
    rw [← hsplit] at hcons
    obtain ⟨hcovered, huncovered, hjoint⟩ := List.isChain_append.mp hcons
    refine ⟨hcovered, fun hne r hr => ?_, huncovered.imp fun a b hab => by omega⟩
    obtain ⟨r', rest, hrest⟩ := List.exists_cons_of_ne_nil hne
    have hhead : r' ∈ (uncovered recs fromSeq).head? := by
      rw [hrest]
      rfl
    have hnext := hjoint r hr r' hhead
    have hlast := hle r (List.mem_of_getLast? hr)
    have hfirst := lt_head_uncovered r' hhead
    omega
  · rintro ⟨hcovered, hlast, hrising⟩
    obtain ⟨huncovered, hfirst⟩ := consecutive_of_rising hchecked hrising lt_head_uncovered
    rw [← hsplit]
    refine List.isChain_append.mpr ⟨hcovered, huncovered, fun r hr r' hr' => ?_⟩
    have hne : uncovered recs fromSeq ≠ [] := by
      intro hnil
      rw [hnil] at hr'
      cases hr'
    rw [hfirst r' hr', hlast hne r hr]

theorem picked_eq_filter (h : Consecutive recs)
    (hfirst : ∀ r, recs.head? = some r → r.seq ≤ lastSeq + 1) :
    (picked recs lastSeq).1 = recs.filter fun r => lastSeq < r.seq := by
  induction recs generalizing lastSeq with
  | nil => rfl
  | cons r recs ih =>
      have htail : Consecutive recs := h.tail
      have hnext : ∀ r', recs.head? = some r' → r'.seq = r.seq + 1 := by
        intro r' hr'
        obtain ⟨rest, rfl⟩ := List.head?_eq_some_iff.mp hr'
        exact (List.isChain_cons_cons.mp h).1
      rw [picked, List.filter_cons]
      by_cases hlt : lastSeq < r.seq
      · have habove : ∀ r' ∈ recs, r.seq < r'.seq := by
          have hlts : (r :: recs).IsChain fun a b => a.seq < b.seq :=
            h.imp fun a b hab => by omega
          have : IsTrans WalRecord fun a b => a.seq < b.seq := ⟨fun _ _ _ => Nat.lt_trans⟩
          exact (List.pairwise_cons.mp hlts.pairwise).1
        have hbound := hfirst r rfl
        rw [if_pos hlt, if_pos (decide_eq_true hlt),
          ih htail fun r' hr' => (hnext r' hr').le]
        refine congrArg (r :: ·) (List.filter_congr fun r' hr' => ?_)
        have := habove r' hr'
        rw [decide_eq_decide]
        omega
      · rw [if_neg hlt, if_neg (by simpa using hlt)]
        refine ih htail fun r' hr' => ?_
        rw [hnext r' hr']
        omega

section Success

variable {σ : Type} {apply : σ → Nat → Bytes → Except StoreError σ} {start lastSeq lastSeq' : Nat}
  {passed passed' : List WalRecord} {s s' : σ}

theorem feed_observing
    (h : feed (observing apply) start recs lastSeq (passed, s) = .ok ((passed', s'), lastSeq')) :
    passed' = passed ++ (picked recs lastSeq).1 ∧ lastSeq' = (picked recs lastSeq).2 ∧
      Checked recs lastSeq := by
  induction recs generalizing lastSeq passed s with
  | nil =>
      cases h
      simp [picked, Checked]
  | cons r recs ih =>
      rw [feed] at h
      rw [picked]
      split at h
      · rename_i hlt
        rw [if_pos hlt]
        split at h
        · cases h
        · rename_i hseq
          rw [observing] at h
          cases happly : apply s r.seq r.command with
          | error err =>
              rw [happly] at h
              cases h
          | ok s₁ =>
              rw [happly] at h
              obtain ⟨hpassed, hlast, hchecked⟩ := ih h
              refine ⟨?_, hlast, by omega, ?_⟩
              · rw [hpassed, List.append_assoc]
                rfl
              · rw [max_eq_right hlt.le]
                exact hchecked
      · rename_i hle
        rw [if_neg hle]
        obtain ⟨hpassed, hlast, hchecked⟩ := ih h
        refine ⟨hpassed, hlast, by omega, ?_⟩
        rw [max_eq_left (Nat.not_lt.mp hle)]
        exact hchecked

theorem replayWAL_observing {segs : List (Nat × Bytes)} {size : Nat}
    (h : replayWAL (observing apply) segs lastSeq (passed, s) =
      .ok ((passed', s'), lastSeq', size)) :
    passed' = passed ++ (picked (walked segs) lastSeq).1 ∧
      Checked (walked segs) lastSeq ∧
      ∀ p ∈ segs.dropLast, validSize p.2 = p.2.length := by
  induction segs generalizing lastSeq passed s with
  | nil =>
      cases h
      simp [walked, picked, Checked]
  | cons seg rest ih =>
      obtain ⟨start, data⟩ := seg
      have hwalked : walked ((start, data) :: rest) = recordsOf data ++ walked rest := rfl
      rw [replayWAL_cons] at h
      cases hfeed : feed (observing apply) start (recordsOf data) lastSeq (passed, s) with
      | error err =>
          rw [hfeed] at h
          cases h
      | ok fed =>
          obtain ⟨⟨passed₁, s₁⟩, last₁⟩ := fed
          rw [hfeed] at h
          obtain ⟨hpassed, hlast, hchecked⟩ := feed_observing hfeed
          dsimp only at h
          split at h
          · rename_i hrest
            cases h
            rw [hwalked, hrest]
            change _ = passed ++ (picked (recordsOf data ++ []) lastSeq).1 ∧
              Checked (recordsOf data ++ []) lastSeq ∧ _
            rw [List.append_nil]
            exact ⟨hpassed, hchecked, by simp⟩
          · rename_i hrest
            split at h
            · rename_i hvalid
              obtain ⟨hpassed', hchecked', htorn⟩ := ih h
              refine ⟨?_, checked_append hchecked (hlast ▸ hchecked'), fun p hp => ?_⟩
              · rw [hpassed', hpassed, hlast, hwalked, picked_append, List.append_assoc]
              · rw [List.dropLast_cons_of_ne_nil hrest, List.mem_cons] at hp
                rcases hp with rfl | hp
                · exact hvalid
                · exact htorn p hp
            · cases h

/-- A replay without an error is gap-free exactly if the records it skips stand at the front, in
sequence up to `fromSeq`. Later repeated and rewound numbers are skipped without notice. -/
theorem replay_gap_free_iff {segs : List (Nat × Bytes)} {fromSeq size : Nat}
    (h : replayWAL (observing apply) segs fromSeq ([], s) = .ok ((passed, s'), lastSeq, size)) :
    GapFree segs fromSeq passed ↔ SkipsFront (walked segs) fromSeq := by
  obtain ⟨hpassed, hchecked, htorn⟩ := replayWAL_observing h
  rw [← consecutive_iff_skipsFront hchecked]
  constructor
  · exact GapFree.consecutive
  · intro hcons
    have hfirst := head_le_of_checked hchecked
    exact
      { consecutive := hcons
        first := hfirst
        passed := by rw [hpassed, List.nil_append, picked_eq_filter hcons hfirst]
        torn := htorn }

end Success

def putRecord (seq : Nat) (value : UInt8) : Bytes :=
  frame [] (payload seq (encodeCommand [] ⟨.put, [107], [value]⟩))

theorem replay_gap_free_iff_two :
    GapFree [(1, putRecord 1 10), (2, putRecord 2 20 ++ [0])] 1
      [⟨2, encodeCommand [] ⟨.put, [107], [20]⟩⟩] := by
  have h : replayWAL (observing applyRecord) [(1, putRecord 1 10), (2, putRecord 2 20 ++ [0])] 1
      ([], ∅) = .ok (([⟨2, encodeCommand [] ⟨.put, [107], [20]⟩⟩],
        (∅ : MemStore).put [107] [20]), 2, 27) := by
    decide +kernel
  refine (replay_gap_free_iff h).mpr ?_
  have hwalked : walked [(1, putRecord 1 10), (2, putRecord 2 20 ++ [0])] =
      [⟨1, encodeCommand [] ⟨.put, [107], [10]⟩⟩, ⟨2, encodeCommand [] ⟨.put, [107], [20]⟩⟩] := by
    decide +kernel
  rw [hwalked]
  exact ⟨by simp [covered, Consecutive], by simp [covered, uncovered], by simp [uncovered]⟩

/-- A number that comes twice: the later write is dropped without an error. -/
theorem repeated_record_is_dropped :
    ∃ passed mem, replayWAL (observing applyRecord)
        [(1, putRecord 1 10 ++ (putRecord 2 20 ++ putRecord 2 30))] 0 ([], ∅) =
          .ok ((passed, mem), 2, 81) ∧
      MemStore.get mem [107] = some [20] ∧
      ¬ GapFree [(1, putRecord 1 10 ++ (putRecord 2 20 ++ putRecord 2 30))] 0 passed := by
  refine ⟨[⟨1, encodeCommand [] ⟨.put, [107], [10]⟩⟩, ⟨2, encodeCommand [] ⟨.put, [107], [20]⟩⟩],
    (∅ : MemStore).put [107] [20], by decide +kernel, by decide +kernel, fun h => ?_⟩
  have hwalked : walked [(1, putRecord 1 10 ++ (putRecord 2 20 ++ putRecord 2 30))] =
      [⟨1, encodeCommand [] ⟨.put, [107], [10]⟩⟩, ⟨2, encodeCommand [] ⟨.put, [107], [20]⟩⟩,
        ⟨2, encodeCommand [] ⟨.put, [107], [30]⟩⟩] := by
    decide +kernel
  have hcons := h.consecutive
  rw [hwalked] at hcons
  simp [Consecutive] at hcons

end RaftKV.Store.Replay
