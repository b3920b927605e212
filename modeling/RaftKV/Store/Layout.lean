import RaftKV.Store.Durable

namespace RaftKV.Store.Layout

open Codec.LittleEndian Codec.Record
open Files.Directories Files.Programs
open Raft (Bytes)
open Store.Commands Store.Segments Store.Snapshots

variable {b torn : Bytes} {cmd : Command} {l rest : List (Nat × Bytes)} {cmds : List Command}
variable {lastSeq name : Nat}

/-- The map after the commands of a history. -/
def stateOf (history : List Command) : MemStore :=
  history.foldl (fun mem cmd => (applyCommand mem cmd).1) ∅

theorem stateOf_concat (history : List Command) (cmd : Command) :
    stateOf (history ++ [cmd]) = (applyCommand (stateOf history) cmd).1 := by
  rw [stateOf, List.foldl_append]
  rfl

theorem exists_put_of_row {history : List Command} {key value : Bytes}
    (h : (stateOf history)[key]? = some value) :
    ∃ cmd ∈ history, cmd.key = key ∧ cmd.value = value := by
  induction history using List.reverseRecOn with
  | nil =>
      rw [show stateOf [] = ∅ from rfl, Std.ExtTreeMap.getElem?_empty] at h
      cases h
  | append_singleton history cmd ih =>
      have hold (hrow : (stateOf history)[key]? = some value) :
          ∃ c ∈ history ++ [cmd], c.key = key ∧ c.value = value := by
        obtain ⟨c, hc, hrest⟩ := ih hrow
        exact ⟨c, List.mem_append_left [cmd] hc, hrest⟩
      rw [stateOf_concat, applyCommand] at h
      cases hop : cmd.op with
      | put =>
          rw [hop] at h
          change ((stateOf history).insert cmd.key cmd.value)[key]? = some value at h
          rw [Std.ExtTreeMap.getElem?_insert] at h
          split at h
          · rename_i heq
            rw [Std.compare_eq_iff_eq] at heq
            exact ⟨cmd, by simp, heq, Option.some.inj h⟩
          · exact hold h
      | delete =>
          rw [hop] at h
          change ((stateOf history).erase cmd.key)[key]? = some value at h
          rw [Std.ExtTreeMap.getElem?_erase] at h
          split at h
          · cases h
          · exact hold h

theorem size_stateOf_le (history : List Command) : (stateOf history).size ≤ history.length := by
  induction history using List.reverseRecOn with
  | nil => exact le_of_eq Std.ExtTreeMap.size_empty
  | append_singleton history cmd ih =>
      rw [stateOf_concat, applyCommand, List.length_append, List.length_singleton]
      cases cmd.op with
      | put => exact Std.ExtTreeMap.size_insert_le.trans (Nat.succ_le_succ ih)
      | delete => exact Std.ExtTreeMap.size_erase_le.trans (ih.trans (Nat.le_succ _))

/-- A command whose record a replay reads: its length is within the bound. -/
def Writable (cmd : Command) : Prop :=
  walSeqSize + (encodeCommand [] cmd).length ≤ walMaxRecordLen

theorem length_payload (seq : Nat) (command : Bytes) :
    (payload seq command).length = walSeqSize + command.length := by
  rw [payload, List.length_append, length_leBytes]

theorem walMaxRecordLen_lt : walMaxRecordLen < 2 ^ 32 := by
  decide

theorem lengths_of_writable (h : Writable cmd) :
    cmd.key.length < 2 ^ 32 ∧ cmd.value.length < 2 ^ 32 := by
  have := walMaxRecordLen_lt
  unfold Writable at h
  rw [length_encodeCommand] at h
  exact ⟨by omega, by omega⟩

theorem parseRecord_frame {seq : Nat} (hseq : seq < 2 ^ 64) (h : Writable cmd)
    (rest : Bytes) :
    parseRecord (frame [] (payload seq (encodeCommand [] cmd)) ++ rest) =
      some (⟨seq, encodeCommand [] cmd⟩,
        (frame [] (payload seq (encodeCommand [] cmd))).length) := by
  have hseq' : seq < 256 ^ walSeqSize := hseq
  have hlen : (payload seq (encodeCommand [] cmd)).length ≤ walMaxRecordLen := by
    rw [length_payload]
    exact h
  unfold parseRecord
  rw [parse_frame hlen (hlen.trans_lt walMaxRecordLen_lt)]
  dsimp only
  rw [if_neg (by rw [length_payload]; omega), length_frame, payload, leNat_take_append hseq',
    drop_leBytes_append]

theorem parseRecord_torn {seq n : Nat} (h : Writable cmd)
    (hn : n < (frame [] (payload seq (encodeCommand [] cmd))).length) :
    parseRecord ((frame [] (payload seq (encodeCommand [] cmd))).take n) = none := by
  have hlen : (payload seq (encodeCommand [] cmd)).length < 2 ^ 32 := by
    rw [length_payload]
    exact lt_of_le_of_lt h walMaxRecordLen_lt
  unfold parseRecord
  rw [parse_torn hlen hn]

/-- The records of commands numbered from `start` on. -/
def segmentBytes (start : Nat) : List Command → Bytes
  | [] => []
  | cmd :: cmds => frame [] (payload start (encodeCommand [] cmd)) ++ segmentBytes (start + 1) cmds

theorem segmentBytes_append (start : Nat) (cmds cmds' : List Command) :
    segmentBytes start (cmds ++ cmds') =
      segmentBytes start cmds ++ segmentBytes (start + cmds.length) cmds' := by
  induction cmds generalizing start with
  | nil => rfl
  | cons cmd cmds ih =>
      rw [List.cons_append, segmentBytes, segmentBytes, ih, List.append_assoc, List.length_cons,
        show start + 1 + cmds.length = start + (cmds.length + 1) by omega]

def numbered (start : Nat) : List Command → List WalRecord
  | [] => []
  | cmd :: cmds => ⟨start, encodeCommand [] cmd⟩ :: numbered (start + 1) cmds

theorem length_le_length_segmentBytes (start : Nat) (cmds : List Command) :
    cmds.length ≤ (segmentBytes start cmds).length := by
  induction cmds generalizing start with
  | nil => exact le_rfl
  | cons cmd cmds ih =>
      have := ih (start + 1)
      have : headerSize = 8 := rfl
      rw [segmentBytes, List.length_append, length_frame, List.length_cons]
      omega

theorem intact_segment (hw : ∀ cmd ∈ cmds, Writable cmd)
    (htorn : parseRecord torn = none) {start fuel : Nat} (hseq : start + cmds.length ≤ 2 ^ 64)
    (hfuel : cmds.length ≤ fuel) :
    intact fuel (segmentBytes start cmds ++ torn) =
      (numbered start cmds, (segmentBytes start cmds).length) := by
  induction cmds generalizing start fuel with
  | nil =>
      cases fuel with
      | zero => rfl
      | succ fuel =>
          change intact (fuel + 1) torn = _
          rw [intact, htorn]
          rfl
  | cons cmd cmds ih =>
      rw [List.length_cons] at hseq hfuel
      obtain ⟨fuel, rfl⟩ : ∃ n, fuel = n + 1 := ⟨fuel - 1, by omega⟩
      rw [segmentBytes, List.append_assoc, intact,
        parseRecord_frame (by omega) (hw cmd (by simp))]
      dsimp only
      rw [List.drop_left, ih (fun c hc => hw c (by simp [hc])) (by omega) (by omega),
        List.length_append]
      rfl

theorem read_segment (hw : ∀ cmd ∈ cmds, Writable cmd)
    (htorn : parseRecord torn = none) (start : Nat) (hseq : start + cmds.length ≤ 2 ^ 64) :
    recordsOf (segmentBytes start cmds ++ torn) = numbered start cmds ∧
      validSize (segmentBytes start cmds ++ torn) = (segmentBytes start cmds).length := by
  have hfuel : cmds.length ≤ (segmentBytes start cmds ++ torn).length := by
    rw [List.length_append]
    exact (length_le_length_segmentBytes start cmds).trans (Nat.le_add_right _ _)
  have hread := intact_segment hw htorn hseq hfuel
  exact ⟨congrArg Prod.fst hread, congrArg Prod.snd hread⟩

theorem feed_numbered {history rest : List Command} (hw : ∀ cmd ∈ cmds, Writable cmd)
    (name : Nat) {start : Nat} (hstart : 1 ≤ start) (hreach : start ≤ lastSeq + 1)
    (hcmds : history.drop (start - 1) = cmds ++ rest) :
    feed applyRecord name (numbered start cmds) lastSeq (stateOf (history.take lastSeq)) =
      .ok (stateOf (history.take (max lastSeq (start - 1 + cmds.length))),
        max lastSeq (start - 1 + cmds.length)) := by
  induction cmds generalizing start lastSeq with
  | nil =>
      rw [List.length_nil, Nat.add_zero, max_eq_left (by omega)]
      rfl
  | cons cmd cmds ih =>
      have hget : history[start - 1]? = some cmd := by
        have := congrArg List.head? hcmds
        rwa [List.head?_drop] at this
      have hnext : history.drop (start + 1 - 1) = cmds ++ rest := by
        have := congrArg List.tail hcmds
        rwa [List.tail_drop, show start - 1 + 1 = start + 1 - 1 by omega] at this
      have hw' : ∀ c ∈ cmds, Writable c := fun c hc => hw c (by simp [hc])
      rw [numbered, feed, List.length_cons]
      dsimp only
      by_cases hlt : lastSeq < start
      · obtain rfl : start = lastSeq + 1 := by omega
        have htake : history.take (lastSeq + 1) = history.take lastSeq ++ [cmd] := by
          rw [List.take_add_one]
          rw [Nat.add_sub_cancel] at hget
          rw [hget]
          rfl
        have happly : applyRecord (stateOf (history.take lastSeq)) (lastSeq + 1)
            (encodeCommand [] cmd) = .ok (stateOf (history.take (lastSeq + 1))) := by
          obtain ⟨hk, hv⟩ := lengths_of_writable (hw cmd (by simp))
          unfold applyRecord
          rw [decodeCommand_encode hk hv, htake, stateOf_concat]
        rw [if_pos hlt, if_neg (by simp), happly]
        dsimp only
        rw [ih hw' (by omega) (by omega) hnext,
          show max (lastSeq + 1) (lastSeq + 1 + 1 - 1 + cmds.length) =
            max lastSeq (lastSeq + 1 - 1 + (cmds.length + 1)) by omega]
      · rw [if_neg hlt, ih hw' (by omega) (by omega) hnext,
          show start + 1 - 1 + cmds.length = start - 1 + (cmds.length + 1) by omega]

/-- The segments of a history from the number `next` on: each but the last holds whole
records, and the last may end in a torn one. Their names play no part in it. -/
inductive Segments (history : List Command) (torn : Bytes) : Nat → List (Nat × Bytes) → Prop
  | last {next name : Nat} (hnext : 1 ≤ next) (hend : next ≤ history.length + 1) :
      Segments history torn next
        [(name, segmentBytes next (history.drop (next - 1)) ++ torn)]
  | cons {next next' name : Nat} {segs : List (Nat × Bytes)} (hnext : 1 ≤ next)
      (hle : next ≤ next') (h : Segments history torn next' segs) :
      Segments history torn next
        ((name, segmentBytes next ((history.drop (next - 1)).take (next' - next))) :: segs)

section Segments

variable {history : List Command} {torn : Bytes} {next : Nat} {segs : List (Nat × Bytes)}

theorem chunk_all (history : List Command) (next : Nat) :
    (history.drop (next - 1)).take (history.length + 1 - next) = history.drop (next - 1) := by
  apply List.take_of_length_le
  rw [List.length_drop]
  omega

theorem segments_bounds (h : Segments history torn next segs) :
    1 ≤ next ∧ next ≤ history.length + 1 ∧ segs ≠ [] := by
  induction h with
  | last hnext hend => exact ⟨hnext, hend, List.cons_ne_nil _ _⟩
  | cons hnext hle h ih => exact ⟨hnext, hle.trans ih.2.1, List.cons_ne_nil _ _⟩

theorem feed_chunk (hw : ∀ cmd ∈ history, Writable cmd) (hlen : history.length < 2 ^ 64)
    {next' : Nat} (name : Nat) (hnext : 1 ≤ next) (hle : next ≤ next')
    (hend : next' ≤ history.length + 1) (hreach : next ≤ lastSeq + 1)
    (htorn : parseRecord torn = none) :
    feed applyRecord name (recordsOf
        (segmentBytes next ((history.drop (next - 1)).take (next' - next)) ++ torn)) lastSeq
        (stateOf (history.take lastSeq)) =
      .ok (stateOf (history.take (max lastSeq (next' - 1))), max lastSeq (next' - 1)) ∧
    validSize (segmentBytes next ((history.drop (next - 1)).take (next' - next)) ++ torn) =
      (segmentBytes next ((history.drop (next - 1)).take (next' - next))).length := by
  generalize hchunk : (history.drop (next - 1)).take (next' - next) = cmds
  have hsize : cmds.length = next' - next := by
    rw [← hchunk, List.length_take, List.length_drop]
    omega
  have hcmds : ∀ cmd ∈ cmds, Writable cmd := by
    intro cmd hc
    rw [← hchunk] at hc
    exact hw cmd (List.mem_of_mem_drop (List.mem_of_mem_take hc))
  have hsplit : history.drop (next - 1) =
      cmds ++ (history.drop (next - 1)).drop (next' - next) := by
    rw [← hchunk, List.take_append_drop]
  obtain ⟨hrecs, hvalid⟩ := read_segment hcmds htorn next (by omega)
  have hfeed := feed_numbered hcmds name hnext hreach hsplit
  rw [hsize, show next - 1 + (next' - next) = next' - 1 by omega] at hfeed
  rw [hrecs]
  exact ⟨hfeed, hvalid⟩

theorem replayWAL_segments (h : Segments history torn next segs)
    (hw : ∀ cmd ∈ history, Writable cmd) (hlen : history.length < 2 ^ 64)
    (htorn : parseRecord torn = none) (hlast : lastSeq ≤ history.length)
    (hreach : next ≤ lastSeq + 1) :
    ∃ l name b, segs = l ++ [(name, b ++ torn)] ∧
      replayWAL applyRecord segs lastSeq (stateOf (history.take lastSeq)) =
        .ok (stateOf history, history.length, b.length) := by
  induction h generalizing lastSeq with
  | @last next name hnext hend =>
      obtain ⟨hfeed, hvalid⟩ := feed_chunk hw hlen name hnext hend le_rfl hreach htorn
      rw [chunk_all] at hfeed hvalid
      refine ⟨[], name, _, rfl, ?_⟩
      rw [replayWAL_cons, hfeed, hvalid, Nat.add_sub_cancel, max_eq_right hlast, List.take_length]
      rfl
  | @cons next next' name segs hnext hle h ih =>
      obtain ⟨-, hend, hne⟩ := segments_bounds h
      have hnone : parseRecord [] = none := rfl
      obtain ⟨hfeed, hvalid⟩ := feed_chunk hw hlen name hnext hle hend hreach hnone
      rw [List.append_nil] at hfeed hvalid
      obtain ⟨l, last, b, hl, hreplay⟩ := @ih (max lastSeq (next' - 1)) (by omega) (by omega)
      refine ⟨_ :: l, last, b, by rw [hl]; rfl, ?_⟩
      rw [replayWAL_cons, hfeed]
      dsimp only
      rw [if_neg hne, if_pos hvalid, hreplay]

theorem segments_suffix (h : Segments history torn next segs)
    (hl : l <:+ segs) (hne : l ≠ []) : ∃ next', Segments history torn next' l := by
  induction h with
  | last hnext hend =>
      rcases List.suffix_cons_iff.mp hl with rfl | hnil
      · exact ⟨_, .last hnext hend⟩
      · exact absurd (List.suffix_nil.mp hnil) hne
  | cons hnext hle h ih =>
      rcases List.suffix_cons_iff.mp hl with rfl | hrest
      · exact ⟨_, .cons hnext hle h⟩
      · exact ih hrest

theorem chunk_append {next' : Nat} (ext : List Command) (hnext : 1 ≤ next) (hle : next ≤ next')
    (hend : next' ≤ history.length + 1) :
    ((history ++ ext).drop (next - 1)).take (next' - next) =
      (history.drop (next - 1)).take (next' - next) := by
  rw [List.drop_append_of_le_length (by omega), List.take_append_of_le_length]
  rw [List.length_drop]
  omega

theorem segmentBytes_grown (ext : List Command) (hnext : 1 ≤ next)
    (hend : next ≤ history.length + 1) :
    segmentBytes next ((history ++ ext).drop (next - 1)) =
      segmentBytes next (history.drop (next - 1)) ++ segmentBytes (history.length + 1) ext := by
  rw [List.drop_append_of_le_length (by omega), segmentBytes_append, List.length_drop,
    show next + (history.length - (next - 1)) = history.length + 1 by omega]

theorem segments_last
    (h : Segments history torn next (l ++ [(name, b)])) :
    ∃ whole, b = whole ++ torn ∧ ∀ ext torn', Segments (history ++ ext) torn' next
      (l ++ [(name, whole ++ segmentBytes (history.length + 1) ext ++ torn')]) := by
  generalize hsegs : l ++ [(name, b)] = segs at h
  induction h generalizing l with
  | @last next _ hnext hend =>
      obtain ⟨rfl, hlast⟩ := List.append_eq_singleton_iff.mp hsegs |>.resolve_right (by simp)
      cases hlast
      refine ⟨_, rfl, fun ext torn' => ?_⟩
      rw [← segmentBytes_grown ext hnext hend]
      refine .last hnext ?_
      rw [List.length_append]
      omega
  | @cons next next' _ segs hnext hle h ih =>
      obtain ⟨-, hend, hne⟩ := segments_bounds h
      cases l with
      | nil =>
          cases hsegs
          exact absurd rfl hne
      | cons seg l =>
          obtain ⟨rfl, hrest⟩ := List.cons.inj hsegs
          obtain ⟨whole, hb, hgrow⟩ := ih hrest
          refine ⟨whole, hb, fun ext torn' => ?_⟩
          rw [← chunk_append ext hnext hle hend]
          exact .cons hnext hle (hgrow ext torn')

theorem segments_of_empty (hne : segs ≠ []) (hempty : ∀ p ∈ segs, p.2 = []) :
    Segments history [] (history.length + 1) segs := by
  have hnil : segmentBytes (history.length + 1) (history.drop (history.length + 1 - 1)) = [] := by
    rw [Nat.add_sub_cancel, List.drop_length, segmentBytes]
  induction segs with
  | nil => exact absurd rfl hne
  | cons seg segs ih =>
      obtain ⟨name, b⟩ := seg
      obtain rfl : b = [] := hempty (name, b) (by simp)
      cases segs with
      | nil =>
          have hlast : Segments history [] (history.length + 1) [(name, segmentBytes
              (history.length + 1) (history.drop (history.length + 1 - 1)) ++ [])] :=
            .last (Nat.le_add_left 1 _) le_rfl
          rwa [hnil] at hlast
      | cons seg segs =>
          have hrest := ih (List.cons_ne_nil _ _) fun p hp => hempty p (List.mem_cons_of_mem _ hp)
          have hcons : Segments history [] (history.length + 1) ((name, segmentBytes _ _) :: _) :=
            .cons (Nat.le_add_left 1 _) le_rfl hrest
          rwa [Nat.sub_self, List.take_zero] at hcons

theorem nil_of_segmentBytes (h : segmentBytes next cmds = []) :
    cmds.length = 0 := by
  have := length_le_length_segmentBytes next cmds
  rw [h] at this
  exact Nat.le_zero.mp this

theorem next_of_empty (h : Segments history [] next segs) (hempty : ∀ p ∈ segs, p.2 = []) :
    next = history.length + 1 := by
  induction h with
  | last hnext hend =>
      have hb := hempty _ (List.mem_singleton_self _)
      rw [List.append_nil] at hb
      have := nil_of_segmentBytes hb
      rw [List.length_drop] at this
      omega
  | cons hnext hle h ih =>
      obtain ⟨-, hend, -⟩ := segments_bounds h
      have := nil_of_segmentBytes (hempty _ (List.mem_cons_self ..))
      rw [List.length_take, List.length_drop] at this
      have := ih fun p hp => hempty p (List.mem_cons_of_mem _ hp)
      omega

theorem segments_active
    (h : Segments history [] next (l ++ (name, b) :: rest)) (hempty : ∀ p ∈ rest, p.2 = [])
    (ext : List Command) : Segments (history ++ ext) [] next
      (l ++ (name, b ++ segmentBytes (history.length + 1) ext) :: rest) := by
  generalize hsegs : l ++ (name, b) :: rest = segs at h
  induction h generalizing l with
  | @last next _ hnext hend =>
      cases l with
      | nil =>
          cases hsegs
          rw [List.append_nil, ← segmentBytes_grown ext hnext hend,
            ← List.append_nil (segmentBytes _ _)]
          refine .last hnext ?_
          rw [List.length_append]
          omega
      | cons seg l => simp at hsegs
  | @cons next next' _ segs hnext hle h ih =>
      obtain ⟨-, hend, hne⟩ := segments_bounds h
      cases l with
      | nil =>
          cases hsegs
          obtain rfl := next_of_empty h hempty
          have hlen : next ≤ (history ++ ext).length + 1 := by
            rw [List.length_append]
            omega
          rw [chunk_all, ← segmentBytes_grown ext hnext hle, ← chunk_all]
          exact .cons hnext hlen (segments_of_empty hne hempty)
      | cons seg l =>
          obtain ⟨rfl, hrest⟩ := List.cons.inj hsegs
          rw [← chunk_append ext hnext hle hend]
          exact .cons hnext hle (ih hrest)

theorem segments_rotate (h : Segments history [] next segs) (name : Nat) :
    Segments history [] next (segs ++ [(name, [])]) := by
  induction h with
  | @last next _ hnext hend =>
      have hnew : Segments history [] (history.length + 1) [(name, [])] :=
        segments_of_empty (List.cons_ne_nil _ _) (by simp)
      rw [List.append_nil, ← chunk_all]
      exact .cons hnext hend hnew
  | cons hnext hle h ih => exact .cons hnext hle ih

end Segments

/-- Every segment is named by a number that some snapshot, or nothing at all, leads up to. -/
def Anchored (d : Volume Dir) : Prop :=
  ∀ p ∈ (d .wal).toList, ∃ q, (q = 0 ∨ ∃ b, (d .snap)[q]? = some b) ∧ p.1 ≤ q + 1

/-- The directories hold a history: the snapshots are states of it and the segments its
last commands. -/
structure Recoverable (history : List Command) (torn : Bytes) (d : Volume Dir) : Prop where
  anchored : Anchored d
  snaps : ∀ q b, (d .snap)[q]? = some b →
    q ≤ history.length ∧ readSnapshot b = .ok (stateOf (history.take q), q)
  segs : (d .wal).toList = [] ∧ history = [] ∨ ∃ next, Segments history torn next (d .wal).toList ∧
    ∃ q, (q = 0 ∨ ∃ b, (d .snap)[q]? = some b) ∧ next ≤ q + 1

section Recovery

variable {history : List Command} {torn : Bytes} {d : Volume Dir}

theorem anchored_write (h : Anchored d)
    (hlist : (d .wal).toList = l ++ (name, b) :: rest) (b' : Bytes) :
    Anchored (write d .wal name b') := by
  intro p hp
  rw [write_of_ne (by decide)]
  rw [write_same, toList_insert_at hlist, List.mem_append, List.mem_cons] at hp
  rcases hp with hp | rfl | hp
  · exact h p (by rw [hlist]; simp [hp])
  · exact h (name, b) (by rw [hlist]; simp)
  · exact h p (by rw [hlist]; simp [hp])

theorem snaps_append (h : Recoverable history torn d) (ext : List Command) :
    ∀ q b, (d .snap)[q]? = some b → q ≤ (history ++ ext).length ∧
      readSnapshot b = .ok (stateOf ((history ++ ext).take q), q) := by
  intro q b hb
  obtain ⟨hle, hread⟩ := h.snaps q b hb
  rw [List.length_append, List.take_append_of_le_length hle]
  exact ⟨hle.trans (Nat.le_add_right _ _), hread⟩

theorem segments_of_recoverable {file : Nat × Bytes}
    (h : Recoverable history torn d) (hlist : (d .wal).toList = l ++ file :: rest) :
    ∃ next, Segments history torn next (d .wal).toList ∧
      ∃ q, (q = 0 ∨ ∃ b, (d .snap)[q]? = some b) ∧ next ≤ q + 1 := by
  refine h.segs.resolve_left fun hnil => ?_
  rw [hnil.1] at hlist
  simp at hlist

theorem recoverable_records
    (h : Recoverable history [] d) (hlist : (d .wal).toList = l ++ (name, b) :: rest)
    (hempty : ∀ p ∈ rest, p.2 = []) (ext : List Command) :
    Recoverable (history ++ ext) []
      (write d .wal name (b ++ segmentBytes (history.length + 1) ext)) := by
  have hsnap := write_of_ne (show Dir.snap ≠ Dir.wal by decide) d name
    (b ++ segmentBytes (history.length + 1) ext)
  obtain ⟨next, hsegs, hnext⟩ := segments_of_recoverable h hlist
  refine ⟨anchored_write h.anchored hlist _, by rw [hsnap]; exact snaps_append h ext, Or.inr ?_⟩
  rw [hlist] at hsegs
  rw [hsnap, write_same, toList_insert_at hlist]
  exact ⟨next, segments_active hsegs hempty ext, hnext⟩

theorem recoverable_torn
    (h : Recoverable history torn d) (hlist : (d .wal).toList = l ++ [(name, b)]) :
    ∃ whole, b = whole ++ torn ∧
      ∀ torn', Recoverable history torn' (write d .wal name (whole ++ torn')) := by
  obtain ⟨next, hsegs, hnext⟩ := segments_of_recoverable h hlist
  rw [hlist] at hsegs
  obtain ⟨whole, hb, hgrow⟩ := segments_last hsegs
  refine ⟨whole, hb, fun torn' => ?_⟩
  have hsnap := write_of_ne (show Dir.snap ≠ Dir.wal by decide) d name (whole ++ torn')
  have hsegs' := hgrow [] torn'
  rw [List.append_nil, segmentBytes, List.append_nil] at hsegs'
  refine ⟨anchored_write h.anchored hlist _, by rw [hsnap]; exact h.snaps, Or.inr ?_⟩
  rw [hsnap, write_same, toList_insert_at hlist]
  exact ⟨next, hsegs', hnext⟩

theorem newestSnapshot_of_states
    (h : ∀ q b, (d .snap)[q]? = some b →
      q ≤ history.length ∧ readSnapshot b = .ok (stateOf (history.take q), q)) :
    ∃ q ≤ history.length, newestSnapshot d = .ok (stateOf (history.take q), q) ∧
      ∀ q' b, (d .snap)[q']? = some b → q' ≤ q := by
  unfold newestSnapshot
  cases hlast : (d .snap).toList.getLast? with
  | none =>
      refine ⟨0, Nat.zero_le _, rfl, fun q' b hb => ?_⟩
      have hmem := mem_toList (p := (q', b)) |>.mpr hb
      rw [List.getLast?_eq_none_iff.mp hlast] at hmem
      cases hmem
  | some newest =>
      obtain ⟨q, data⟩ := newest
      obtain ⟨l, hl⟩ := List.getLast?_eq_some_iff.mp hlast
      have hget : (d .snap)[q]? = some data := mem_toList.mp (List.mem_of_getLast? hlast)
      obtain ⟨hle, hread⟩ := h q data hget
      refine ⟨q, hle, ?_, fun q' b hb => ?_⟩
      · dsimp only
        rw [hread]
        exact if_neg (not_not_intro rfl)
      · have hmem := mem_toList (p := (q', b)) |>.mpr hb
        rw [hl, List.mem_append, List.mem_singleton] at hmem
        rcases hmem with hmem | hmem
        · exact (lt_of_mem_append hl hmem).le
        · cases hmem
          exact le_rfl

theorem recovers (h : Recoverable history torn d) (hw : ∀ cmd ∈ history, Writable cmd)
    (hlen : history.length < 2 ^ 64) (htorn : parseRecord torn = none) :
    ∃ mem₀ snapSeq size, newestSnapshot d = .ok (mem₀, snapSeq) ∧
      replayWAL applyRecord (listSegments d) snapSeq mem₀ =
        .ok (stateOf history, history.length, size) ∧
      ∀ newest b, (listSegments d).getLast? = some (newest, b) → b = b.take size ++ torn := by
  obtain ⟨q, hq, hsnap, hnewest⟩ := newestSnapshot_of_states h.snaps
  rcases h.segs with ⟨hnil, rfl⟩ | ⟨next, hsegs, q', hq', hnext⟩
  · obtain rfl : q = 0 := Nat.le_zero.mp hq
    refine ⟨_, 0, 0, hsnap, ?_, ?_⟩
    · rw [listSegments, hnil]
      rfl
    · intro newest b hlast
      rw [listSegments, hnil] at hlast
      cases hlast
  · have hreach : next ≤ q + 1 := by
      rcases hq' with rfl | ⟨b, hb⟩
      · omega
      · have := hnewest q' b hb
        omega
    obtain ⟨l, name, b, hl, hreplay⟩ := replayWAL_segments hsegs hw hlen htorn hq hreach
    refine ⟨_, q, _, hsnap, hreplay, ?_⟩
    intro newest b' hlast
    rw [listSegments, hl, List.getLast?_concat] at hlast
    cases hlast
    rw [List.take_left]

end Recovery

end RaftKV.Store.Layout
