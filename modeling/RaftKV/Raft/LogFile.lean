import RaftKV.Raft.Files

namespace RaftKV.Raft.LogFile

open Codec.Record
open Raft.Files

/-- The loop of `openLog` over the bytes of the file, from offset `off` on, with the
entries found so far. A record has a header, so that the length of the file is fuel
enough. -/
def replayLog (base : Nat) : (fuel : Nat) → Bytes → List Entry → (off : Nat) →
    Except RaftError (List Entry × Nat)
  | 0, _, entries, off => .ok (entries, off)
  | fuel + 1, data, entries, off =>
      match parse data maxEntryPayload with
      | none => .ok (entries, off)
      | some (payload, recLen) =>
          if payload.length < entryHeaderLen then
            .ok (entries, off)
          else
            match replayRecord base entries (decodeEntry payload) with
            | .error err => .error err
            | .ok entries => replayLog base fuel (data.drop recLen) entries (off + recLen)

def openLog (f : DataDir) (base : Nat) : Except RaftError (DataDir × List Entry) :=
  match replayLog base f.log.length f.log [] 0 with
  | .error err => .error err
  | .ok (entries, off) => .ok ({ f with log := f.log.take off }, entries)

theorem replayLog_eq (base fuel : Nat) (data : Bytes) (entries : List Entry) (off : Nat) :
    replayLog base fuel data entries off =
      ((scanLog fuel data).1.foldlM (replayRecord base) entries).map
        fun es => (es, off + (scanLog fuel data).2) := by
  induction fuel generalizing data entries off with
  | zero => rfl
  | succ fuel ih =>
      rw [replayLog, scanLog]
      cases parse data maxEntryPayload with
      | none => rfl
      | some found =>
          dsimp only
          split
          · rfl
          · rw [List.foldlM_cons]
            cases replayRecord base entries (decodeEntry found.1) with
            | error err => rfl
            | ok next =>
                dsimp only
                rw [ih]
                simp only [Nat.add_assoc]
                rfl

theorem length_of_mem_scanLog {fuel : Nat} {data : Bytes} {e : Entry}
    (h : e ∈ (scanLog fuel data).1) : e.command.length ≤ maxCommandLen := by
  induction fuel generalizing data with
  | zero => exact absurd h List.not_mem_nil
  | succ fuel ih =>
      rw [scanLog] at h
      cases hp : parse data maxEntryPayload with
      | none =>
          rw [hp] at h
          exact absurd h List.not_mem_nil
      | some found =>
          rw [hp] at h
          dsimp only at h
          split at h
          · exact absurd h List.not_mem_nil
          · rcases List.mem_cons.mp h with rfl | h
            · have hle := payload_le_of_parse hp
              change (found.1.drop entryHeaderLen).length ≤ maxCommandLen
              rw [List.length_drop]
              rw [maxEntryPayload] at hle
              omega
            · exact ih h

theorem openLog_eq (f : DataDir) (base : Nat) (d : Disk)
    (hd : d.log = (scanLog f.log.length f.log).1) :
    openLog f base = (Raft.openLog d base).map fun opened =>
      ({ f with log := f.log.take (scanLog f.log.length f.log).2 }, opened.2) := by
  have hlog : intact d.log = d.log :=
    congrArg Disk.log (trimmed_eq fun e he => length_of_mem_scanLog (hd ▸ he))
  unfold openLog Raft.openLog replayRecords
  rw [replayLog_eq, hlog, hd]
  cases (scanLog f.log.length f.log).1.foldlM (replayRecord base) [] with
  | error err => rfl
  | ok entries => simp [Except.map]

/-- The supersede rule: a batch replaces the log from its first index on. -/
def supersede (base : Nat) (log : List Entry) : List Entry → List Entry
  | [] => log
  | e :: rest => log.take (e.index - base - 1) ++ e :: rest

/-- The batches a core writes after `log`: consecutive indices, the first between
`base + 1` and one more than the last, numbers that fit their fields and commands that
replay reads. -/
structure Issuable (base : Nat) (log es : List Entry) : Prop where
  numbered : ∃ k ≤ log.length, Numbered (base + k) es
  fits : ∀ e ∈ es, e.term < 2 ^ 64 ∧ e.index < 2 ^ 64 ∧ e.command.length ≤ maxCommandLen

/-- The log files that successful calls of `append` and `rewrite` produce, with the
log they stand for. -/
inductive Written : (base : Nat) → List Entry → DataDir → Prop
  | create (base : Nat) (f : DataDir) : f.log = [] → Written base [] f
  | append {base : Nat} {log es : List Entry} {f f' : DataDir} : Written base log f →
      Issuable base log es → f.append es = .ok f' → Written base (supersede base log es) f'
  | rewrite {base base' : Nat} {log es : List Entry} {f : DataDir} : Written base log f →
      Issuable base' [] es → Written base' es (f.rewrite es)

/-- The file consists of records that replay to `log`. -/
structure Replays (base : Nat) (log : List Entry) (f : DataDir) : Prop where
  numbered : Numbered base log
  records : ∃ recs, f.log = frames recs ∧
    (∀ e ∈ recs, e.term < 2 ^ 64 ∧ e.index < 2 ^ 64 ∧ e.command.length ≤ maxCommandLen) ∧
    recs.foldlM (replayRecord base) [] = .ok log

section Recovery

variable {base : Nat} {log es : List Entry} {f : DataDir}

theorem foldlM_batch (h : Numbered base log) (hes : Issuable base log es) :
    es.foldlM (replayRecord base) log = .ok (supersede base log es) := by
  obtain ⟨k, hk, hnum⟩ := hes.numbered
  cases es with
  | nil => rfl
  | cons e rest =>
      have hindex := (numbered_cons.mp hnum).1
      rw [supersede, show e.index - base - 1 = k by omega]
      exact foldlM_replayRecord h hk hnum (List.cons_ne_nil e rest)

theorem numbered_supersede (h : Numbered base log) (hes : Issuable base log es) :
    Numbered base (supersede base log es) := by
  obtain ⟨k, hk, hnum⟩ := hes.numbered
  cases es with
  | nil => exact h
  | cons e rest =>
      have hindex := (numbered_cons.mp hnum).1
      rw [supersede, show e.index - base - 1 = k by omega]
      refine numbered_append (numbered_take h k) ?_
      rwa [List.length_take, min_eq_left hk]

theorem issuable_take (hes : Issuable base log es) (n : Nat) : Issuable base log (es.take n) := by
  obtain ⟨k, hk, hnum⟩ := hes.numbered
  exact ⟨⟨k, hk, numbered_take hnum n⟩, fun e he => hes.fits e (List.mem_of_mem_take he)⟩

theorem append_issuable (hes : Issuable base log es) :
    f.append es = .ok { f with log := f.log ++ frames es } := by
  obtain ⟨k, -, hnum⟩ := hes.numbered
  rw [DataDir.append, firstGap_eq_none hnum]

theorem replays_append (h : Replays base log f) (hes : Issuable base log es) :
    Replays base (supersede base log es) { f with log := f.log ++ frames es } := by
  obtain ⟨recs, hfile, hfits, hfold⟩ := h.records
  refine ⟨numbered_supersede h.numbered hes, recs ++ es, ?_, ?_, ?_⟩
  · rw [hfile, frames_append]
  · exact List.forall_mem_append.mpr ⟨hfits, hes.fits⟩
  · rw [List.foldlM_append, hfold]
    exact foldlM_batch h.numbered hes

theorem replays_written (h : Written base log f) : Replays base log f := by
  induction h with
  | create base f hempty => exact ⟨numbered_nil base, [], hempty, by simp, rfl⟩
  | append _ hes happend ih =>
      rw [append_issuable hes] at happend
      cases happend
      exact replays_append ih hes
  | @rewrite _ base' _ es f _ hes _ =>
      have hempty : Replays base' [] { f with log := [] } :=
        ⟨numbered_nil base', [], rfl, by simp, rfl⟩
      obtain ⟨k, hk, hnum⟩ := hes.numbered
      obtain rfl : k = 0 := by simpa using hk
      have hsup : supersede base' [] es = es := by
        cases es <;> simp [supersede]
      have := replays_append hempty hes
      rwa [hsup] at this

theorem openLog_torn (h : Replays base log f) {torn : Bytes}
    (htorn : parse torn maxEntryPayload = none) :
    openLog { f with log := f.log ++ torn } base = .ok (f, log) := by
  obtain ⟨recs, hfile, hfits, hfold⟩ := h.records
  have hlen : recs.length ≤ (f.log ++ torn).length := by
    rw [hfile, List.length_append]
    exact (length_le_length_frames recs).trans (Nat.le_add_right _ _)
  have hscan : scanLog (f.log ++ torn).length (f.log ++ torn) = (recs, f.log.length) := by
    rw [hfile] at hlen ⊢
    exact scanLog_torn hfits htorn hlen
  unfold openLog
  rw [replayLog_eq, hscan, hfold]
  simp [Except.map]

theorem openLog_replays (h : Replays base log f) : openLog f base = .ok (f, log) := by
  have hend : parse [] maxEntryPayload = none := rfl
  simpa using openLog_torn h hend

end Recovery

/-- **The log is recovered at every cut.** However many bytes of a batch reached the
file, opening it returns the log with the complete entries of the batch, leaves exactly
their records in the file, and later batches build on that. -/
theorem log_recovered_at_every_cut {base : Nat} {log es : List Entry} {f : DataDir}
    (hw : Written base log f) (hes : Issuable base log es) (n : Nat) :
    ∃ j ≤ es.length, (frames (es.take j)).length ≤ n ∧
      (∀ i ≤ es.length, (frames (es.take i)).length ≤ n → i ≤ j) ∧
      openLog { f with log := f.log ++ (frames es).take n } base =
        .ok ({ f with log := f.log ++ frames (es.take j) }, supersede base log (es.take j)) ∧
      ∀ es', Issuable base (supersede base log (es.take j)) es' →
        ∃ f', DataDir.append { f with log := f.log ++ frames (es.take j) } es' = .ok f' ∧
          openLog f' base = .ok (f', supersede base (supersede base log (es.take j)) es') := by
  have h := replays_written hw
  have hsmall : ∀ p ∈ es.map encodeEntry, p.length < 2 ^ 32 := by
    intro p hp
    obtain ⟨e, he, rfl⟩ := List.mem_map.mp hp
    exact (length_encodeEntry_le (hes.fits e he).2.2).trans_lt maxEntryPayload_lt
  obtain ⟨j, hj, torn, htake, htorn, hle, hmax⟩ := exists_cut hsmall n
  rw [← frames_eq_frameAll, ← List.map_take, ← frames_eq_frameAll] at htake
  rw [← List.map_take, ← frames_eq_frameAll] at hle
  simp only [← List.map_take, ← frames_eq_frameAll, List.length_map] at hmax hj
  have hrec := replays_append h (issuable_take hes j)
  refine ⟨j, hj, hle, hmax, ?_, fun es' hes' => ⟨_, append_issuable hes', ?_⟩⟩
  · have hopen := openLog_torn hrec (htorn maxEntryPayload)
    rwa [List.append_assoc, ← htake] at hopen
  · exact openLog_replays (replays_append hrec hes')

/-- Two entries of term 1, and a batch of term 2 that replaces the second of them. -/
def kept : List Entry :=
  [⟨1, 1, .noop, noBytes⟩, ⟨1, 2, .normal, oneByte 5⟩]

def rewinding : List Entry :=
  [⟨2, 2, .noop, noBytes⟩, ⟨2, 3, .normal, oneByte 6⟩]

theorem log_recovered_at_every_cut_rewinding :
    openLog
      { state := none, log := frames kept ++ (frames rewinding).take 30, snapshot := none } 0 =
      .ok ({ state := none, log := frames kept ++ frames (rewinding.take 1), snapshot := none },
        kept.take 1 ++ rewinding.take 1) := by
  have hkept : Issuable 0 [] kept :=
    ⟨⟨0, le_rfl, by simp [kept, numbered_cons, numbered_nil]⟩, by decide⟩
  have hbatch : Issuable 0 kept rewinding :=
    ⟨⟨1, by decide, by simp [rewinding, numbered_cons, numbered_nil]⟩, by decide⟩
  have hwritten : Written 0 kept ⟨none, frames kept, none⟩ :=
    (Written.create 0 ⟨none, [], none⟩ rfl).append hkept rfl
  obtain ⟨j, hj, hle, hmax, hopen, -⟩ := log_recovered_at_every_cut hwritten hbatch 30
  have hfirst := hmax 1 (by decide) (by decide)
  have hsecond : j ≠ 2 := by
    rintro rfl
    exact absurd hle (by decide)
  have hlength : rewinding.length = 2 := rfl
  obtain rfl : j = 1 := by omega
  exact hopen

end RaftKV.Raft.LogFile
