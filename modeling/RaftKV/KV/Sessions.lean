import RaftKV.Codec.Tables
import RaftKV.Raft.EventLoop
import RaftKV.Store.Commands

namespace RaftKV.KV.Sessions

open Codec.LittleEndian Codec.Tables
open Raft (Bytes)
open Raft.EventLoop (StateMachine)
open RaftKV.Store
open Store.Commands (MemStore)

/-- What is replicated: a mutation in the name of a client, who numbers them. Client `0`
has no session. -/
structure Command where
  clientID : UInt64
  serial : UInt64
  inner : Bytes
  deriving DecidableEq

inductive CommandError
  | envelopeTruncated (length : Nat)
  deriving DecidableEq

def CommandError.message : CommandError → String
  | .envelopeTruncated length => s!"kvraft: command envelope truncated: {length} bytes"

def encodeCommand (c : Command) : Bytes :=
  leBytes 8 c.clientID.toNat ++ (leBytes 8 c.serial.toNat ++ c.inner)

def decodeCommand (b : Bytes) : Except CommandError Command :=
  if b.length < 16 then
    .error (.envelopeTruncated b.length)
  else
    .ok ⟨UInt64.ofNat (leNat (b.take 8)), UInt64.ofNat (leNat ((b.drop 8).take 8)), b.drop 16⟩

theorem decodeCommand_encode (c : Command) : decodeCommand (encodeCommand c) = .ok c := by
  have hclient : c.clientID.toNat < 256 ^ 8 := c.clientID.toNat_lt
  have hserial : c.serial.toNat < 256 ^ 8 := c.serial.toNat_lt
  have hlen : (encodeCommand c).length = 16 + c.inner.length := by
    simp [encodeCommand]
    omega
  have hdrop8 : (encodeCommand c).drop 8 = leBytes 8 c.serial.toNat ++ c.inner :=
    drop_leBytes_append 8 _ _
  have hdrop16 : (encodeCommand c).drop 16 = c.inner := by
    rw [show 16 = 8 + 8 by rfl, ← List.drop_drop, hdrop8, drop_leBytes_append]
  have hclientRead : leNat ((encodeCommand c).take 8) = c.clientID.toNat :=
    leNat_take_append hclient _
  unfold decodeCommand
  rw [if_neg (by omega), hdrop16, hdrop8, leNat_take_append hserial, hclientRead,
    UInt64.ofNat_toNat, UInt64.ofNat_toNat]

/-- The map, and the highest serial applied of every client. -/
structure Machine where
  data : MemStore
  sessions : Std.ExtTreeMap UInt64 UInt64
  deriving DecidableEq

def newStateMachine : Machine :=
  ⟨∅, ∅⟩

def Machine.mark (sm : Machine) (clientID : UInt64) : UInt64 :=
  sm.sessions.getD clientID 0

def Machine.apply (sm : Machine) (_index : Nat) (data : Bytes) : Machine :=
  match decodeCommand data with
  | .error _ => sm
  | .ok c =>
      if c.clientID ≠ 0 ∧ c.serial ≤ sm.mark c.clientID then
        sm
      else
        match Commands.decodeCommand c.inner with
        | .error _ => sm
        | .ok cmd =>
            { data :=
                match cmd.op with
                | .put => sm.data.put cmd.key cmd.value
                | .delete => (sm.data.delete cmd.key).1
              sessions :=
                if c.clientID ≠ 0 then sm.sessions.insert c.clientID c.serial
                else sm.sessions }

def Machine.get (sm : Machine) (key : Bytes) : Option Bytes :=
  sm.data.get key

structure SnapshotImage where
  data : MemStore
  sessions : Std.ExtTreeMap UInt64 UInt64

/-- An encoding of images that reads back. A stream of it starts with the type. -/
structure Gob where
  encode : SnapshotImage → Bytes
  decode : Bytes → Option SnapshotImage
  decode_encode : ∀ img, decode (encode img) = some img
  encode_ne_nil : ∀ img, encode img ≠ []

def Machine.snapshot (G : Gob) (sm : Machine) : Option Bytes :=
  some (G.encode ⟨sm.data, sm.sessions⟩)

def Machine.restore (G : Gob) (_ : Machine) (data : Bytes) : Option Machine :=
  if 0 < data.length then
    (G.decode data).map fun img => ⟨img.data, img.sessions⟩
  else
    some newStateMachine

def stateMachine (G : Gob) : StateMachine Machine where
  fresh := newStateMachine
  apply := Machine.apply
  snapshot := Machine.snapshot G
  restore := Machine.restore G

section Marks

variable {sm : Machine} {b : Bytes} {c : Command}

theorem restore_snapshot (G : Gob) (sm sm' : Machine) {data : Bytes}
    (h : sm.snapshot G = some data) : sm'.restore G data = some sm := by
  obtain rfl := Option.some.inj h
  have hpos := List.length_pos_iff.mpr (G.encode_ne_nil ⟨sm.data, sm.sessions⟩)
  rw [Machine.restore, if_pos hpos, G.decode_encode]
  rfl

/-- What a command does to a machine: nothing, or it is carried out and its serial becomes
the mark of its client. -/
inductive Applies (sm : Machine) (b : Bytes) : Machine → Prop
  | undecodable (err : CommandError) (h : decodeCommand b = .error err) : Applies sm b sm
  | skipped (c : Command) (h : decodeCommand b = .ok c) (hc : c.clientID ≠ 0)
      (hle : c.serial ≤ sm.mark c.clientID) : Applies sm b sm
  | malformed (c : Command) (h : decodeCommand b = .ok c) (err : Commands.CommandError)
      (hinner : Commands.decodeCommand c.inner = .error err) : Applies sm b sm
  | applied (c : Command) (h : decodeCommand b = .ok c)
      (hnew : c.clientID ≠ 0 → sm.mark c.clientID < c.serial) (cmd : Commands.Command)
      (hinner : Commands.decodeCommand c.inner = .ok cmd) :
      Applies sm b
        { data := (Commands.applyCommand sm.data cmd).1
          sessions :=
            if c.clientID ≠ 0 then sm.sessions.insert c.clientID c.serial else sm.sessions }

theorem applies_apply (sm : Machine) (index : Nat) (b : Bytes) :
    Applies sm b (sm.apply index b) := by
  unfold Machine.apply
  rcases hb : decodeCommand b with err | c
  · exact .undecodable err hb
  · by_cases hskip : c.clientID ≠ 0 ∧ c.serial ≤ sm.mark c.clientID
    · simp only [if_pos hskip]
      exact .skipped c hb hskip.1 hskip.2
    · simp only [if_neg hskip]
      rcases hinner : Commands.decodeCommand c.inner with err | cmd
      · exact .malformed c hb err hinner
      · have h : Applies sm b _ := .applied c hb
          (fun hc => UInt64.not_le.mp fun hle => hskip ⟨hc, hle⟩) cmd hinner
        unfold Commands.applyCommand at h
        rcases hop : cmd.op <;> simpa only [hop] using h

/-- A command that does nothing to `sm`: its serial is used up, or it says nothing. -/
def Spent (c : Command) (sm : Machine) : Prop :=
  c.serial ≤ sm.mark c.clientID ∨ ∃ err, Commands.decodeCommand c.inner = .error err

theorem mark_le_apply (index : Nat) (b : Bytes) (clientID : UInt64) :
    sm.mark clientID ≤ (sm.apply index b).mark clientID := by
  have h := applies_apply sm index b
  generalize sm.apply index b = sm' at h
  cases h with
  | applied c _ hnew cmd _ =>
      by_cases hc : c.clientID ≠ 0
      · unfold Machine.mark
        simp only [if_pos hc, Std.ExtTreeMap.getD_insert, Std.compare_eq_iff_eq]
        split
        · rename_i heq
          subst heq
          exact UInt64.le_of_lt (hnew hc)
        · exact UInt64.le_refl _
      · unfold Machine.mark
        rw [if_neg hc]
        exact UInt64.le_refl _
  | _ => exact UInt64.le_refl _

theorem apply_of_spent (index : Nat) (h : decodeCommand b = .ok c) (hc : c.clientID ≠ 0)
    (hspent : Spent c sm) : sm.apply index b = sm := by
  have happ := applies_apply sm index b
  generalize sm.apply index b = sm' at happ
  cases happ with
  | applied c' h' hnew cmd hinner =>
      obtain rfl := Except.ok.inj (h'.symm.trans h)
      rcases hspent with hle | ⟨err, herr⟩
      · exact absurd hle (UInt64.not_le.mpr (hnew hc))
      · rw [hinner] at herr
        cases herr
  | _ => rfl

theorem spent_apply (index : Nat) (h : decodeCommand b = .ok c) (hc : c.clientID ≠ 0) :
    Spent c (sm.apply index b) := by
  have happ := applies_apply sm index b
  generalize sm.apply index b = sm' at happ
  cases happ with
  | undecodable err h' =>
      rw [h'] at h
      cases h
  | skipped c' h' _ hle =>
      obtain rfl := Except.ok.inj (h'.symm.trans h)
      exact Or.inl hle
  | malformed c' h' err hinner =>
      obtain rfl := Except.ok.inj (h'.symm.trans h)
      exact Or.inr ⟨err, hinner⟩
  | applied c' h' _ cmd _ =>
      obtain rfl := Except.ok.inj (h'.symm.trans h)
      refine Or.inl ?_
      unfold Machine.mark
      rw [if_pos hc, Std.ExtTreeMap.getD_insert_self]
      exact UInt64.le_refl _

theorem serial_le_mark_of_changed (index : Nat) (h : decodeCommand b = .ok c)
    (hc : c.clientID ≠ 0) (hne : (sm.apply index b).data ≠ sm.data) :
    c.serial ≤ (sm.apply index b).mark c.clientID := by
  rcases spent_apply index h hc with hle | hbad
  · exact hle
  · refine absurd ?_ hne
    rw [apply_of_spent index h hc (Or.inr hbad)]

end Marks

section Replay

variable {G : Gob} {sm : Machine} {b : Bytes} {c : Command}

/-- What happens to a machine: a committed command, or a snapshot that is restored. -/
inductive Step
  | apply (index : Nat) (b : Bytes)
  | reload

def Machine.step (G : Gob) (sm : Machine) : Step → Machine
  | .apply index b => sm.apply index b
  | .reload => ((sm.snapshot G).bind (sm.restore G)).getD sm

def replay (G : Gob) (sm : Machine) (steps : List Step) : Machine :=
  steps.foldl (Machine.step G) sm

theorem step_reload (G : Gob) (sm : Machine) : sm.step G .reload = sm := by
  change ((sm.snapshot G).bind (sm.restore G)).getD sm = sm
  rw [show sm.snapshot G = some (G.encode ⟨sm.data, sm.sessions⟩) from rfl, Option.bind_some,
    restore_snapshot G sm sm rfl]
  rfl

theorem mark_le_replay (steps : List Step) (clientID : UInt64) :
    sm.mark clientID ≤ (replay G sm steps).mark clientID := by
  induction steps generalizing sm with
  | nil => exact UInt64.le_refl _
  | cons step steps ih =>
      refine UInt64.le_trans ?_ (ih)
      cases step with
      | apply index b => exact mark_le_apply index b clientID
      | reload =>
          rw [step_reload]
          exact UInt64.le_refl _

theorem spent_replay (h : Spent c sm) (steps : List Step) : Spent c (replay G sm steps) :=
  h.imp_left fun hle => UInt64.le_trans hle (mark_le_replay steps c.clientID)

theorem replay_append (steps steps' : List Step) :
    replay G sm (steps ++ steps') = replay G (replay G sm steps) steps' :=
  List.foldl_append

end Replay

/-- A further copy of a command with a session changes nothing, wherever it is inserted
after the first; and of all commands with one client and serial at most one changes the
data. -/
theorem applied_once_per_session (G : Gob) (sm : Machine) :
    (∀ before between after index index' b c, decodeCommand b = .ok c → c.clientID ≠ 0 →
      replay G sm (before ++ .apply index b :: (between ++ .apply index' b :: after)) =
        replay G sm (before ++ .apply index b :: (between ++ after))) ∧
    ∀ (steps : List Step) (i j index index' : Nat) (b b' : Bytes) (c c' : Command), i < j →
      steps[i]? = some (.apply index b) → steps[j]? = some (.apply index' b') →
      decodeCommand b = .ok c → decodeCommand b' = .ok c' → c.clientID ≠ 0 →
      c'.clientID = c.clientID → c'.serial = c.serial →
      (replay G sm (steps.take (i + 1))).data ≠ (replay G sm (steps.take i)).data →
      (replay G sm (steps.take (j + 1))).data = (replay G sm (steps.take j)).data := by
  refine ⟨?_, ?_⟩
  · intro before between after index index' b c h hc
    have hspent : Spent c (replay G sm (before ++ .apply index b :: between)) := by
      rw [replay_append]
      exact spent_replay (spent_apply index h hc) between
    have hcopy : (replay G sm (before ++ .apply index b :: between)).step G (.apply index' b) = _ :=
      apply_of_spent index' h hc hspent
    calc replay G sm (before ++ .apply index b :: (between ++ .apply index' b :: after))
        = replay G sm ((before ++ .apply index b :: between) ++ .apply index' b :: after) := by simp
      _ = replay G (replay G sm (before ++ .apply index b :: between)) after := by
          rw [replay_append, replay, List.foldl_cons, hcopy]
          rfl
      _ = replay G sm (before ++ .apply index b :: (between ++ after)) := by
          rw [← replay_append]
          simp
  · intro steps i j index index' b b' c c' hij hi hj h h' hc hclient hserial hne
    have htake : ∀ k x, steps[k]? = some x →
        replay G sm (steps.take (k + 1)) = (replay G sm (steps.take k)).step G x := by
      intro k x hk
      rw [List.take_add_one, hk, replay_append]
      rfl
    rw [htake i _ hi] at hne
    have hmark := serial_le_mark_of_changed index h hc hne
    have hlater : c.serial ≤ (replay G sm (steps.take j)).mark c.clientID := by
      refine UInt64.le_trans hmark ?_
      rw [show (replay G sm (steps.take i)).apply index b = replay G sm (steps.take (i + 1)) from
          (htake i _ hi).symm,
        ← List.take_append_drop (i + 1) (steps.take j), List.take_take, min_eq_left (by omega),
        replay_append]
      exact mark_le_replay _ _
    rw [htake j _ hj]
    refine congrArg Machine.data (apply_of_spent index' h' (hclient ▸ hc) (Or.inl ?_))
    rw [hclient, hserial]
    exact hlater

section Unary

instance encodableByte : Encodable UInt8 :=
  Encodable.ofLeftInjection UInt8.toNat (fun n => some (UInt8.ofNat n)) fun b => by simp

instance encodableWord : Encodable UInt64 :=
  Encodable.ofLeftInjection UInt64.toNat (fun n => some (UInt64.ofNat n)) fun b => by simp

instance encodableMap
    {α β : Type} [Ord α] [Std.TransOrd α] [Std.LawfulEqOrd α] [DecidableEq α] [Encodable α]
    [Encodable β] : Encodable (Std.ExtTreeMap α β) :=
  Encodable.ofLeftInjection (fun m => m.toList) (fun l => some (addRows ∅ l)) fun _ =>
    congrArg some (addRows_of_perm (List.Perm.refl _))

instance encodableImage : Encodable SnapshotImage :=
  Encodable.ofLeftInjection (fun img => (img.data, img.sessions))
    (fun p => some ⟨p.1, p.2⟩) fun _ => rfl

/-- Images numbered, and written in unary. -/
def unary : Gob where
  encode := fun img => List.replicate (Encodable.encode img + 1) 0
  decode := fun b => Encodable.decode (b.length - 1)
  decode_encode := fun img => by
    rw [List.length_replicate, Nat.add_sub_cancel, Encodable.encodek]
  encode_ne_nil := fun img => by simp

theorem applied_once_per_session_retry :
    ∃ b c b' c', decodeCommand b = .ok c ∧ c.clientID ≠ 0 ∧
      decodeCommand b' = .ok c' ∧ c'.clientID = c.clientID ∧ c'.serial = c.serial ∧
      (replay unary newStateMachine [.apply 1 b]).data ≠ newStateMachine.data ∧
      replay unary newStateMachine [.apply 1 b, .reload, .apply 2 b, .apply 3 b'] =
        replay unary newStateMachine [.apply 1 b, .reload, .apply 3 b'] ∧
      (replay unary newStateMachine [.apply 1 b, .reload, .apply 3 b']).data =
        (replay unary newStateMachine [.apply 1 b, .reload]).data := by
  refine ⟨encodeCommand ⟨1, 5, Commands.encodeCommand [] ⟨.put, [65], [7]⟩⟩,
    ⟨1, 5, Commands.encodeCommand [] ⟨.put, [65], [7]⟩⟩,
    encodeCommand ⟨1, 5, Commands.encodeCommand [] ⟨.delete, [65], []⟩⟩,
    ⟨1, 5, Commands.encodeCommand [] ⟨.delete, [65], []⟩⟩, decodeCommand_encode _, by decide,
    decodeCommand_encode _, rfl, rfl, by decide +kernel, ?_, ?_⟩
  · exact (applied_once_per_session unary newStateMachine).1 [] [.reload] _ 1 2 _ _
      (decodeCommand_encode _) (by decide)
  · exact (applied_once_per_session unary newStateMachine).2
      [.apply 1 _, .reload, .apply 3 _] 0 2 1 3 _ _ _ _ (by decide) rfl rfl
      (decodeCommand_encode _) (decodeCommand_encode _) (by decide) rfl rfl (by decide +kernel)

end Unary

end RaftKV.KV.Sessions
