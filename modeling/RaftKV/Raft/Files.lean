import RaftKV.Codec.Record
import RaftKV.Raft.State

namespace RaftKV.Raft.Files

open Codec.LittleEndian Codec.Record

/-- The contents of the data directory. A missing log file is an empty one. -/
structure DataDir where
  state : Option Bytes
  log : Bytes
  snapshot : Option Bytes

/-- The bytes of `RKVVOTE1`. -/
def stateMagic : Bytes := [82, 75, 86, 86, 79, 84, 69, 49]

def stateFileSize : Nat := 28

def encodeState (term : Nat) (votedFor : ID) : Bytes :=
  withChecksum (stateMagic ++ (leBytes 8 term ++ leBytes 8 votedFor.toNat))

def decodeState (data : Bytes) : Except RaftError (Nat × ID) :=
  if data.length ≠ stateFileSize then
    .error (.stateSize data.length)
  else
    let (body, crc) := splitChecksum data
    if (checksum body).toNat ≠ crc then
      .error .stateChecksum
    else if body.take 8 ≠ stateMagic then
      .error .stateMagic
    else
      .ok (leNat ((body.drop 8).take 8), UInt64.ofNat (leNat ((body.drop 16).take 8)))

/-- The bytes of `RKVRSNP1`. -/
def raftSnapMagic : Bytes := [82, 75, 86, 82, 83, 78, 80, 49]

def encodeSnapshot (s : Snapshot) : Bytes :=
  let cfg := encodeMembers s.config
  withChecksum (raftSnapMagic ++ (leBytes 8 s.lastIndex ++ (leBytes 8 s.lastTerm ++
    (leBytes 4 cfg.length ++ (cfg ++ s.data)))))

def decodeSnapshot (b : Bytes) : Except RaftError Snapshot :=
  if b.length < 32 then
    .error (.snapshotShort b.length)
  else
    let (body, crc) := splitChecksum b
    if (checksum body).toNat ≠ crc then
      .error .snapshotChecksum
    else if body.take 8 ≠ raftSnapMagic then
      .error .snapshotMagic
    else
      let fields := body.drop 8
      let cfgLen := leNat ((fields.drop 16).take 4)
      let body := fields.drop 20
      if body.length < cfgLen then
        .error .snapshotConfig
      else
        (decodeMembers (body.take cfgLen)).map fun config =>
          { lastIndex := leNat (fields.take 8)
            lastTerm := leNat ((fields.drop 8).take 8)
            config := config
            data := body.drop cfgLen }

def typeByte : EntryType → UInt8
  | .unspecified => 0
  | .normal => 1
  | .noop => 2
  | .config => 3

/-- A byte no entry type has stands for an entry without a meaning. -/
def entryType (b : UInt8) : EntryType :=
  if b = 1 then .normal else if b = 2 then .noop else if b = 3 then .config else .unspecified

def entryHeaderLen : Nat := 17

def maxEntryPayload : Nat := entryHeaderLen + maxCommandLen

def encodeEntry (e : Entry) : Bytes :=
  leBytes 8 e.term ++ (leBytes 8 e.index ++ (typeByte e.type :: e.command.bytes))

def decodeEntry (payload : Bytes) : Entry where
  term := leNat (payload.take 8)
  index := leNat ((payload.drop 8).take 8)
  type := entryType ((payload.drop 16).headD 0)
  command := .of (payload.drop entryHeaderLen)

def frames (entries : List Entry) : Bytes :=
  entries.foldl (fun buf e => frame buf (encodeEntry e)) []

/-- The valid records at the front of the log file, and where they end. A record
has a header, so that the length of the file is fuel enough. -/
def scanLog : (fuel : Nat) → Bytes → List Entry × Nat
  | 0, _ => ([], 0)
  | fuel + 1, data =>
      match parse data maxEntryPayload with
      | none => ([], 0)
      | some (payload, recLen) =>
          if payload.length < entryHeaderLen then
            ([], 0)
          else
            let (entries, off) := scanLog fuel (data.drop recLen)
            (decodeEntry payload :: entries, recLen + off)

def DataDir.saveTermAndVote (f : DataDir) (term : Nat) (votedFor : ID) : DataDir :=
  { f with state := some (encodeState term votedFor) }

def DataDir.persistRaftSnapshot (f : DataDir) (s : Snapshot) : DataDir :=
  { f with snapshot := some (encodeSnapshot s) }

def DataDir.append (f : DataDir) (entries : List Entry) : Except RaftError DataDir :=
  match firstGap entries with
  | some (index, prev) => .error (.nonContiguous index prev)
  | none => .ok { f with log := f.log ++ frames entries }

def DataDir.rewrite (f : DataDir) (entries : List Entry) : DataDir :=
  { f with log := frames entries }

/-- Read the files; what follows the last valid record of the log is cut off. -/
def readFiles (f : DataDir) : Except RaftError Disk := do
  let state ← f.state.mapM decodeState
  let snapshot ← f.snapshot.mapM decodeSnapshot
  return { state := state, log := (scanLog f.log.length f.log).1, snapshot := snapshot }

def newCoreFrom (cfg : Config) (rng : Nat → Nat) (f : DataDir) : Except RaftError Core := do
  if cfg.id = 0 then
    throw .zeroID
  let _ ← initialMembers cfg
  let d ← readFiles f
  newCore cfg rng d

def filesOf (d : Disk) : DataDir where
  state := d.state.map fun p => encodeState p.1 p.2
  log := frames d.log
  snapshot := d.snapshot.map encodeSnapshot

/-- Every number on disk fits the field it is written to, and so do the lengths of the
records and of the membership table. -/
def Fits (d : Disk) : Prop :=
  (∀ p ∈ d.state, p.1 < 2 ^ 64) ∧
    (∀ e ∈ d.log, e.term < 2 ^ 64 ∧ e.index < 2 ^ 64 ∧
      entryHeaderLen + e.command.length < 2 ^ 32) ∧
    ∀ s ∈ d.snapshot, s.lastIndex < 2 ^ 64 ∧ s.lastTerm < 2 ^ 64 ∧
      (encodeMembers s.config).length < 2 ^ 32
  deriving Decidable

theorem foldl_frame (entries : List Entry) (buf : Bytes) :
    entries.foldl (fun buf e => frame buf (encodeEntry e)) buf = buf ++ frames entries := by
  induction entries generalizing buf with
  | nil => simp [frames]
  | cons e entries ih =>
      rw [frames, List.foldl_cons, List.foldl_cons, ih, ih, frame_eq_append, List.append_assoc]

theorem frames_cons (e : Entry) (entries : List Entry) :
    frames (e :: entries) = frame [] (encodeEntry e) ++ frames entries := by
  rw [frames, List.foldl_cons, foldl_frame]

theorem frames_append (es fs : List Entry) : frames (es ++ fs) = frames es ++ frames fs := by
  rw [frames, List.foldl_append, foldl_frame]
  rfl

section Operations

variable (d : Disk)

theorem filesOf_saveTermAndVote (term : Nat) (votedFor : ID) :
    filesOf (saveTermAndVote d term votedFor) = (filesOf d).saveTermAndVote term votedFor :=
  rfl

theorem filesOf_persistRaftSnapshot (s : Snapshot) :
    filesOf (persistRaftSnapshot d s) = (filesOf d).persistRaftSnapshot s :=
  rfl

theorem filesOf_rewrite (entries : List Entry) :
    filesOf (rewrite d entries) = (filesOf d).rewrite entries :=
  rfl

theorem filesOf_append (entries : List Entry) :
    (append d entries).map filesOf = (filesOf d).append entries := by
  unfold append DataDir.append
  cases firstGap entries with
  | some gap => rfl
  | none =>
      change Except.ok (filesOf { d with log := d.log ++ entries }) = _
      rw [filesOf, frames_append]
      rfl

end Operations

theorem decodeState_encode {term : Nat} (h : term < 2 ^ 64) (votedFor : ID) :
    decodeState (encodeState term votedFor) = .ok (term, votedFor) := by
  have hterm : term < 256 ^ 8 := by
    omega
  have hvote : votedFor.toNat < 256 ^ 8 := votedFor.toNat_lt
  have hdrop8 : (stateMagic ++ (leBytes 8 term ++ leBytes 8 votedFor.toNat)).drop 8 =
      leBytes 8 term ++ leBytes 8 votedFor.toNat :=
    rfl
  have hdrop16 : (stateMagic ++ (leBytes 8 term ++ leBytes 8 votedFor.toNat)).drop 16 =
      leBytes 8 votedFor.toNat ++ [] := by
    rw [show 16 = 8 + 8 by rfl, ← List.drop_drop, hdrop8, drop_leBytes_append, List.append_nil]
  unfold decodeState encodeState
  rw [splitChecksum_withChecksum,
    if_neg (by rw [length_withChecksum]; simp [stateMagic, stateFileSize])]
  simp only [hdrop8, hdrop16, leNat_take_append hterm, leNat_take_append hvote,
    UInt64.ofNat_toNat]
  rw [if_neg (by simp), if_neg (by simp [stateMagic])]

/-- The fields of a snapshot file. A length of the configuration that does not fit its
field is read modulo `2 ^ 32`. -/
theorem decodeSnapshot_fields {lastIndex lastTerm : Nat} (hindex : lastIndex < 2 ^ 64)
    (hterm : lastTerm < 2 ^ 64) (cfgLen : Nat) (rest : Bytes) :
    decodeSnapshot (withChecksum (raftSnapMagic ++ (leBytes 8 lastIndex ++ (leBytes 8 lastTerm ++
        (leBytes 4 cfgLen ++ rest))))) =
      if rest.length < cfgLen % 2 ^ 32 then .error .snapshotConfig
      else (decodeMembers (rest.take (cfgLen % 2 ^ 32))).map fun config =>
        ⟨lastIndex, lastTerm, config, rest.drop (cfgLen % 2 ^ 32)⟩ := by
  have hindex' : lastIndex < 256 ^ 8 := hindex
  have hterm' : lastTerm < 256 ^ 8 := hterm
  have hfield : leNat ((leBytes 4 cfgLen ++ rest).take 4) = cfgLen % 2 ^ 32 :=
    leNat_take_append_mod 4 cfgLen rest
  unfold decodeSnapshot
  simp only [splitChecksum_withChecksum]
  generalize hfields : leBytes 8 lastIndex ++ (leBytes 8 lastTerm ++ (leBytes 4 cfgLen ++ rest)) =
    fields
  have hdrop : (raftSnapMagic ++ fields).drop 8 = fields := rfl
  have hdrop8 : fields.drop 8 = leBytes 8 lastTerm ++ (leBytes 4 cfgLen ++ rest) := by
    rw [← hfields, drop_leBytes_append]
  have hdrop16 : fields.drop 16 = leBytes 4 cfgLen ++ rest := by
    rw [show 16 = 8 + 8 by rfl, ← List.drop_drop, hdrop8, drop_leBytes_append]
  have hdrop20 : fields.drop 20 = rest := by
    rw [show 20 = 16 + 4 by rfl, ← List.drop_drop, hdrop16, drop_leBytes_append]
  have hsize : 20 ≤ fields.length := by
    rw [← hfields]
    simp
    omega
  rw [if_neg (by rw [length_withChecksum, List.length_append]; simp [raftSnapMagic]; omega),
    if_neg (by simp), if_neg (by simp [raftSnapMagic]), hdrop, hdrop16, hdrop20, hfield, hdrop8,
    leNat_take_append hterm', ← hfields, leNat_take_append hindex']

theorem decodeSnapshot_encode {s : Snapshot} (hindex : s.lastIndex < 2 ^ 64)
    (hterm : s.lastTerm < 2 ^ 64) (hconfig : Encodable s.config)
    (hlen : (encodeMembers s.config).length < 2 ^ 32) :
    decodeSnapshot (encodeSnapshot s) = .ok s := by
  unfold encodeSnapshot
  rw [decodeSnapshot_fields hindex hterm, Nat.mod_eq_of_lt hlen, if_neg (by simp), List.take_left,
    List.drop_left, decodeMembers_encode hconfig]
  rfl

theorem length_encodeEntry (e : Entry) :
    (encodeEntry e).length = entryHeaderLen + e.command.length := by
  simp [encodeEntry, entryHeaderLen, e.command.length_eq]
  omega

theorem decodeEntry_encode {e : Entry} (hterm : e.term < 2 ^ 64) (hindex : e.index < 2 ^ 64) :
    decodeEntry (encodeEntry e) = e := by
  have hterm' : e.term < 256 ^ 8 := by
    omega
  have hindex' : e.index < 256 ^ 8 := by
    omega
  have hdrop8 : (encodeEntry e).drop 8 =
      leBytes 8 e.index ++ (typeByte e.type :: e.command.bytes) := by
    rw [encodeEntry, drop_leBytes_append]
  have hdrop16 : (encodeEntry e).drop 16 = typeByte e.type :: e.command.bytes := by
    rw [show 16 = 8 + 8 by rfl, ← List.drop_drop, hdrop8, drop_leBytes_append]
  have hdrop17 : (encodeEntry e).drop entryHeaderLen = e.command.bytes := by
    rw [show entryHeaderLen = 16 + 1 by rfl, ← List.drop_drop, hdrop16, List.drop_one,
      List.tail_cons]
  have htype : entryType (typeByte e.type) = e.type := by
    cases e.type <;> rfl
  have hcommand : Command.of e.command.bytes = e.command := Command.eq_of_bytes rfl
  have htermRead : leNat ((encodeEntry e).take 8) = e.term := by
    rw [encodeEntry, leNat_take_append hterm']
  unfold decodeEntry
  simp only [htermRead, hdrop8, hdrop16, hdrop17, hcommand, List.headD_cons, htype,
    leNat_take_append hindex']

theorem length_encodeEntry_le {e : Entry} (h : e.command.length ≤ maxCommandLen) :
    (encodeEntry e).length ≤ maxEntryPayload := by
  rw [length_encodeEntry]
  exact Nat.add_le_add_left h _

theorem maxEntryPayload_lt : maxEntryPayload < 2 ^ 32 := by
  decide

theorem length_encodeMembers (m : Members) :
    (encodeMembers m).length = 4 + (m.toList.map fun p => 12 + p.2.length).sum := by
  unfold encodeMembers
  rw [List.length_append, length_leBytes, List.length_flatMap]
  congr 3
  funext p
  simp
  omega

theorem encodable_of_length {m : Members} (h : (encodeMembers m).length < 2 ^ 32) :
    Encodable m := by
  rw [length_encodeMembers] at h
  refine ⟨?_, fun p hp => ?_⟩
  · have hrows : m.toList.length • 12 ≤ (m.toList.map fun p => 12 + p.2.length).sum := by
      have hle := List.card_nsmul_le_sum (m.toList.map fun p => 12 + p.2.length) 12 fun n hn => by
        obtain ⟨p, -, rfl⟩ := List.mem_map.mp hn
        exact Nat.le_add_right _ _
      rwa [List.length_map] at hle
    rw [Std.ExtTreeMap.length_toList, smul_eq_mul] at hrows
    omega
  · have hone := List.le_sum_of_mem
      (List.mem_map_of_mem (f := fun p : ID × Bytes => 12 + p.2.length) hp)
    omega

theorem scanLog_torn {entries : List Entry}
    (h : ∀ e ∈ entries, e.term < 2 ^ 64 ∧ e.index < 2 ^ 64 ∧ e.command.length ≤ maxCommandLen)
    {torn : Bytes}
    (htorn : parse torn maxEntryPayload = none) {fuel : Nat} (hfuel : entries.length ≤ fuel) :
    scanLog fuel (frames entries ++ torn) = (entries, (frames entries).length) := by
  induction entries generalizing fuel with
  | nil =>
      cases fuel with
      | zero => rfl
      | succ fuel =>
          change scanLog (fuel + 1) torn = _
          rw [scanLog, htorn]
          rfl
  | cons e entries ih =>
      obtain ⟨hterm, hindex, hsize⟩ := h e (by simp)
      obtain ⟨fuel, rfl⟩ : ∃ n, fuel = n + 1 := ⟨fuel - 1, by simp at hfuel; omega⟩
      have hdrop : (frame [] (encodeEntry e) ++ (frames entries ++ torn)).drop
          (headerSize + (encodeEntry e).length) = frames entries ++ torn := by
        rw [← length_frame, List.drop_left]
      rw [frames_cons, List.append_assoc, scanLog,
        parse_frame (length_encodeEntry_le hsize)
          ((length_encodeEntry_le hsize).trans_lt maxEntryPayload_lt)]
      dsimp only
      rw [if_neg (by rw [length_encodeEntry]; omega), hdrop,
        ih (fun f hf => h f (by simp [hf])) (by simpa using hfuel), decodeEntry_encode hterm hindex,
        List.length_append, length_frame]

theorem frames_eq_frameAll (entries : List Entry) :
    frames entries = frameAll (entries.map encodeEntry) := by
  induction entries with
  | nil => rfl
  | cons e entries ih => rw [frames_cons, ih, List.map_cons, frameAll_cons]

theorem length_le_length_frames (entries : List Entry) :
    entries.length ≤ (frames entries).length := by
  simpa [frames_eq_frameAll] using length_le_length_frameAll (entries.map encodeEntry)

theorem scanLog_frames {log : List Entry} (h : ∀ e ∈ log, e.term < 2 ^ 64 ∧ e.index < 2 ^ 64 ∧
      entryHeaderLen + e.command.length < 2 ^ 32) :
    (scanLog (frames log).length (frames log)).1 = intact log := by
  obtain ⟨rest, hrest⟩ : intact log <+: log := List.takeWhile_prefix _
  have hend : parse (frames rest) maxEntryPayload = none := by
    cases rest with
    | nil => rfl
    | cons e rest =>
        have hhead : ¬ e.command.length ≤ maxCommandLen := by
          intro hle
          have hdrop : log.dropWhile (fun e => decide (e.command.length ≤ maxCommandLen)) =
              e :: rest := by
            have hsplit := List.takeWhile_append_dropWhile
              (p := fun e : Entry => decide (e.command.length ≤ maxCommandLen)) (l := log)
            exact List.append_cancel_left (hsplit.trans hrest.symm)
          have hfirst := List.head_dropWhile_not
            (fun e : Entry => decide (e.command.length ≤ maxCommandLen)) (l := log)
            (by rw [hdrop]; exact List.cons_ne_nil _ _)
          simp only [hdrop, List.head_cons, decide_eq_false_iff_not] at hfirst
          exact hfirst hle
        have hmem : e ∈ log := hrest ▸ List.mem_append_right _ List.mem_cons_self
        rw [frames_cons]
        refine parse_long ?_ ?_ _
        · rw [length_encodeEntry, maxEntryPayload]
          omega
        · rw [length_encodeEntry]
          exact (h e hmem).2.2
  have hread : ∀ e ∈ intact log,
      e.term < 2 ^ 64 ∧ e.index < 2 ^ 64 ∧ e.command.length ≤ maxCommandLen := by
    intro e he
    obtain ⟨hterm, hindex, -⟩ := h e (mem_of_mem_intact he)
    exact ⟨hterm, hindex, length_of_mem_intact he⟩
  have hfuel : (intact log).length ≤ (frames log).length :=
    (List.takeWhile_prefix _).length_le.trans (length_le_length_frames log)
  have hfile : frames log = frames (intact log) ++ frames rest := by
    rw [← frames_append, hrest]
  rw [hfile] at hfuel ⊢
  rw [scanLog_torn hread hend hfuel]

theorem readFiles_filesOf {d : Disk} (h : Fits d) : readFiles (filesOf d) = .ok (trimmed d) := by
  obtain ⟨state, log, snapshot⟩ := d
  obtain ⟨hterm, hlog, hsnaps⟩ := h
  have hstate : (filesOf ⟨state, log, snapshot⟩).state.mapM decodeState = .ok state := by
    cases state with
    | none => rfl
    | some p =>
        have := decodeState_encode (hterm p rfl) p.2
        simp [filesOf, this]
  have hsnap : (filesOf ⟨state, log, snapshot⟩).snapshot.mapM decodeSnapshot = .ok snapshot := by
    cases snapshot with
    | none => rfl
    | some s =>
        obtain ⟨hindex, hterm, hlen⟩ := hsnaps s rfl
        simp [filesOf, decodeSnapshot_encode hindex hterm (encodable_of_length hlen) hlen]
  unfold readFiles
  rw [hstate, hsnap]
  change Except.ok _ = _
  rw [show (filesOf ⟨state, log, snapshot⟩).log = frames log from rfl, scanLog_frames hlog]
  rfl

theorem newCoreFrom_filesOf {d : Disk} (h : Fits d) (cfg : Config) (rng : Nat → Nat) :
    newCoreFrom cfg rng (filesOf d) = newCore cfg rng d := by
  have hsame : newCore cfg rng (trimmed d) = newCore cfg rng d := by
    unfold newCore
    rw [openLog_trimmed]
    rfl
  unfold newCoreFrom
  rw [readFiles_filesOf h, ← hsame]
  by_cases hid : cfg.id = 0
  · rw [if_pos hid]
    unfold newCore
    simp only
    rw [if_pos (show (applyDefaults cfg).id = 0 from hid)]
    rfl
  · rw [if_neg hid]
    cases hM : initialMembers cfg with
    | ok M => rfl
    | error err =>
        have hM' : initialMembers (applyDefaults cfg) = .error err := hM
        unfold newCore
        simp only [hM']
        rw [if_neg (show (applyDefaults cfg).id ≠ 0 from hid)]
        rfl

end RaftKV.Raft.Files
