import RaftKV.KV.Sessions

/-!
The storm that tests a cluster. Every client writes keys of its own, one at a time, and
keeps book of what the final value of a key may be; the verdict at the end compares.
-/

namespace RaftKV.Nemesis.Workloads

open Raft (Bytes)
open RaftKV.Store
open Store.Commands (MemStore)
open KV.Sessions

/-- Of one key: the last acknowledged write, and the writes after it whose fate is
unknown. -/
structure KeyState where
  ackedSerial : UInt64
  acked : Bytes
  unknownLater : Std.ExtTreeMap UInt64 Bytes

structure Workload where
  sharedKeys : Bool
  state : Std.ExtTreeMap Bytes KeyState

def freshState : KeyState :=
  ⟨0, [], ∅⟩

def Workload.stateFor (w : Workload) (key : Bytes) : KeyState :=
  w.state.getD key freshState

def KeyState.noteAck (st : KeyState) (serial : UInt64) (val : Bytes) : KeyState :=
  if st.ackedSerial < serial then
    { ackedSerial := serial
      acked := val
      unknownLater := st.unknownLater.filter fun s _ => ¬ s ≤ serial }
  else st

def KeyState.noteUnknown (st : KeyState) (serial : UInt64) (val : Bytes) : KeyState :=
  if st.ackedSerial < serial then
    { st with unknownLater := st.unknownLater.insert serial val }
  else st

/-- A key that several clients write is left out of the book. -/
def Workload.note (w : Workload) (key : Bytes) (f : KeyState → KeyState) : Workload :=
  if w.sharedKeys then w else { w with state := w.state.insert key (f (w.stateFor key)) }

def Workload.noteAck (w : Workload) (key : Bytes) (serial : UInt64) (val : Bytes) : Workload :=
  w.note key fun st => st.noteAck serial val

def Workload.noteUnknown (w : Workload) (key : Bytes) (serial : UInt64) (val : Bytes) : Workload :=
  w.note key fun st => st.noteUnknown serial val

/-- The values a key may have in the end. -/
def KeyState.legal (st : KeyState) : List Bytes :=
  (if 0 < st.ackedSerial then [st.acked] else []) ++ st.unknownLater.toList.map Prod.snd

inductive VerifyError
  | sharedKeys
  | unavailable (key : Bytes)
  | vanished (key acked : Bytes)
  | illegal (key got : Bytes) (legal : List Bytes)
  deriving DecidableEq

/-- The text of an error, for a way to show strings as they are and in quotes. -/
def VerifyError.message (text quoted : Bytes → String) : VerifyError → String
  | .sharedKeys => "Verify is per-client-key only; shared-key runs are verified by the " ++
      "linearizability checker"
  | .unavailable key => "verify: cluster unavailable reading " ++ text key
  | .vanished key acked =>
      "verify: acked key " ++ text key ++ " vanished (last ack " ++ quoted acked ++ ")"
  | .illegal key got legal =>
      "verify: key " ++ text key ++ " = " ++ quoted got ++ ", not a legal final state map[" ++
        " ".intercalate (legal.map fun v => text v ++ ":true") ++ "]"

local instance lawfulBytes : LawfulBEq Bytes := inferInstance

def KeyState.judge (st : KeyState) (key : Bytes) : Option Bytes → Except VerifyError Unit
  | none => if 0 < st.ackedSerial then .error (.vanished key st.acked) else .ok ()
  | some got =>
      if 0 < st.legal.length ∧ got ∉ st.legal then .error (.illegal key got st.legal) else .ok ()

/-- Read the keys back one after the other; `read` has no answer for a key if the cluster
does not give one in time. -/
def Workload.verifyKeys (w : Workload) (read : Bytes → Option (Option Bytes)) :
    List Bytes → Except VerifyError Unit
  | [] => .ok ()
  | key :: keys =>
      match read key with
      | none => .error (.unavailable key)
      | some got =>
          match (w.stateFor key).judge key got with
          | .error err => .error err
          | .ok () => w.verifyKeys read keys

/-- The verdict. The keys come in any order. -/
def Workload.verify (w : Workload) (read : Bytes → Option (Option Bytes)) (keys : List Bytes) :
    Except VerifyError Unit :=
  if w.sharedKeys then .error .sharedKeys else w.verifyKeys read keys

section Storm

structure Put where
  client : Nat
  serial : UInt64
  key : Bytes
  value : Bytes
  deriving DecidableEq

/-- The clients, and the keys each of them writes. -/
structure Setup where
  clients : Nat
  owner : Bytes → Option Nat
  clients_lt : clients < 2 ^ 64

def clientID (c : Nat) : UInt64 :=
  UInt64.ofNat (c + 1)

def Put.entry (p : Put) : Bytes :=
  encodeCommand ⟨clientID p.client, p.serial, Commands.encodeCommand [] ⟨.put, p.key, p.value⟩⟩

/-- A storm under way: the book, the replicated machine, the serials used so far, the write
each client is busy with, and all writes that were started, committed and acknowledged. -/
structure World where
  workload : Workload
  machine : Machine
  serial : Nat → UInt64
  pending : Nat → Option Put
  issued : List Put
  committed : List Put
  acknowledged : List Put

def calm : World where
  workload := ⟨false, ∅⟩
  machine := newStateMachine
  serial := fun _ => 0
  pending := fun _ => none
  issued := []
  committed := []
  acknowledged := []

inductive Event
  | issue (c : Nat) (key value : Bytes)
  | commit (index : Nat) (p : Put)
  | foreign (index : Nat) (b : Bytes)
  | acknowledge (c : Nat)
  | giveUp (c : Nat)
  deriving DecidableEq

def World.next (g : World) (c : Nat) (key value : Bytes) : Put :=
  ⟨c, g.serial c + 1, key, value⟩

/-- A client starts a write when it is done with the last one: on a key of its own, with a
value it has not used before. -/
def Setup.mayIssue (U : Setup) (g : World) (p : Put) : Bool :=
  p.client < U.clients ∧ U.owner p.key = some p.client ∧ g.pending p.client = none ∧
    (g.serial p.client).toNat + 1 < 2 ^ 64 ∧ p.key.length < 2 ^ 32 ∧ p.value.length < 2 ^ 32 ∧
    ∀ q ∈ g.issued, q.client = p.client → q.value ≠ p.value

/-- Whether a command of somebody else stays away from the sessions and the keys of the
clients. -/
def Setup.respects (U : Setup) (b : Bytes) : Bool :=
  match decodeCommand b with
  | .error _ => true
  | .ok cmd =>
      match Commands.decodeCommand cmd.inner with
      | .error _ => true
      | .ok inner => (cmd.clientID = 0 ∨ U.clients < cmd.clientID.toNat) ∧ U.owner inner.key = none

/-- One event. A write may be committed as often as it likes, from its start on, and is
acknowledged only after it was. -/
def Setup.step (U : Setup) (g : World) : Event → Option World
  | .issue c key value =>
      if U.mayIssue g (g.next c key value) then
        some { g with
          serial := Function.update g.serial c (g.serial c + 1)
          pending := Function.update g.pending c (some (g.next c key value))
          issued := g.issued ++ [g.next c key value] }
      else none
  | .commit index p =>
      if p ∈ g.issued then
        some { g with
          machine := g.machine.apply index p.entry
          committed := g.committed ++ [p] }
      else none
  | .foreign index b =>
      if U.respects b then some { g with machine := g.machine.apply index b } else none
  | .acknowledge c =>
      match g.pending c with
      | none => none
      | some p =>
          if p ∈ g.committed then
            some { g with
              workload := g.workload.noteAck p.key p.serial p.value
              pending := Function.update g.pending c none
              acknowledged := g.acknowledged ++ [p] }
          else none
  | .giveUp c =>
      match g.pending c with
      | none => none
      | some p =>
          some { g with
            workload := g.workload.noteUnknown p.key p.serial p.value
            pending := Function.update g.pending c none }

def Setup.run (U : Setup) (events : List Event) : Option World :=
  events.foldlM U.step calm

/-- The last write of a key that was acknowledged. -/
def World.lastAcked (g : World) (key : Bytes) : Option Put :=
  (g.acknowledged.filter fun p => p.key = key).getLast?

end Storm

section Invariant

variable {U : Setup} {g g' : World} {p : Put} {acks : List Put} {index c c' : Nat} {key : Bytes}
  {got : Option Bytes}

theorem clientID_ne_zero (hc : c < U.clients) : clientID c ≠ 0 := by
  have := U.clients_lt
  intro h
  have hnat := congrArg UInt64.toNat h
  rw [clientID, UInt64.toNat_ofNat', Nat.mod_eq_of_lt (by omega)] at hnat
  exact Nat.succ_ne_zero _ hnat

theorem clientID_inj (hc : c < U.clients) (hc' : c' < U.clients)
    (h : clientID c = clientID c') : c = c' := by
  have := U.clients_lt
  have hnat := congrArg UInt64.toNat h
  rw [clientID, clientID, UInt64.toNat_ofNat', UInt64.toNat_ofNat', Nat.mod_eq_of_lt (by omega),
    Nat.mod_eq_of_lt (by omega)] at hnat
  exact Nat.succ.inj hnat

structure Roster (U : Setup) (g : World) : Prop where
  client : ∀ p ∈ g.issued, p.client < U.clients
  owner : ∀ p ∈ g.issued, U.owner p.key = some p.client
  short : ∀ p ∈ g.issued, p.key.length < 2 ^ 32 ∧ p.value.length < 2 ^ 32
  pos : ∀ p ∈ g.issued, 0 < p.serial
  le : ∀ p ∈ g.issued, p.serial ≤ g.serial p.client
  unique : ∀ p ∈ g.issued, ∀ q ∈ g.issued, p.client = q.client → p.serial = q.serial → p = q
  distinct : ∀ p ∈ g.issued, ∀ q ∈ g.issued, p.client = q.client → p.value = q.value → p = q
  pending : ∀ c p, g.pending c = some p → p ∈ g.issued ∧ p.client = c ∧ p.serial = g.serial c
  committed : g.committed ⊆ g.issued

theorem client_eq {q : Put} (h : Roster U g) (hp : p ∈ g.issued) (hq : q ∈ g.issued)
    (hkey : q.key = p.key) : q.client = p.client := by
  have hown := h.owner q hq
  rw [hkey, h.owner p hp] at hown
  exact (Option.some.inj hown).symm

theorem owned (h : Roster U g) (hp : p ∈ g.issued) : U.owner p.key ≠ none := by
  rw [h.owner p hp]
  exact nofun

/-- The machine has let nothing through behind the last serial it applied. -/
structure Stored (U : Setup) (g : World) : Prop where
  mark_le : ∀ c < U.clients, g.machine.mark (clientID c) ≤ g.serial c
  committed : ∀ p ∈ g.committed, p.serial ≤ g.machine.mark (clientID p.client)
  latest : ∀ p ∈ g.issued, p.serial = g.machine.mark (clientID p.client) →
    g.machine.get p.key = some p.value

structure KeySound (U : Setup) (g : World) (key : Bytes) (st : KeyState) : Prop where
  acked : ∀ p, g.lastAcked key = some p →
    p ∈ g.issued ∧ p.key = key ∧ st.ackedSerial = p.serial ∧ st.acked = p.value
  unacked : g.lastAcked key = none → st.ackedSerial = 0
  acked_le : ∀ c, U.owner key = some c → st.ackedSerial ≤ g.machine.mark (clientID c)
  busy : ∀ c p, g.pending c = some p → p.key = key → st.ackedSerial < p.serial
  stored : U.owner key ≠ none → ∀ v, g.machine.get key = some v →
    ∃ p ∈ g.issued, p.key = key ∧ p.value = v ∧ st.ackedSerial ≤ p.serial
  present : U.owner key ≠ none → 0 < st.ackedSerial → g.machine.get key ≠ none
  ended : ∀ p ∈ g.issued, p.key = key → g.pending p.client ≠ some p →
    key ∈ g.workload.state ∧ (p.serial ≤ st.ackedSerial ∨ st.unknownLater[p.serial]? = some p.value)
  unknown : ∀ s v, st.unknownLater[s]? = some v → st.ackedSerial < s ∧
    ∃ p ∈ g.issued, p.key = key ∧ p.serial = s ∧ p.value = v
  written : key ∈ g.workload.state → ∃ p ∈ g.issued, p.key = key

structure Sound (U : Setup) (g : World) : Prop where
  roster : Roster U g
  machine : Stored U g
  shared : g.workload.sharedKeys = false
  keys : ∀ key, KeySound U g key (g.workload.stateFor key)

theorem keySound_calm (U : Setup) (key : Bytes) :
    KeySound U calm key (calm.workload.stateFor key) := by
  have hst : calm.workload.stateFor key = freshState := Std.ExtTreeMap.getD_empty
  have hget : calm.machine.get key = none := Std.ExtTreeMap.getElem?_empty
  rw [hst]
  exact
    { acked := nofun
      unacked := fun _ => rfl
      acked_le := fun c _ => UInt64.zero_le
      busy := nofun
      stored := fun _ v hv => by rw [hget] at hv; cases hv
      present := fun _ h => absurd h (UInt64.lt_irrefl 0)
      ended := fun p hp => absurd hp List.not_mem_nil
      unknown := fun s v hs => by
        rw [show freshState.unknownLater[s]? = none from Std.ExtTreeMap.getElem?_empty] at hs
        cases hs
      written := fun hk => absurd hk Std.ExtTreeMap.not_mem_empty }

theorem sound_calm (U : Setup) : Sound U calm where
  roster := by
    refine ⟨?_, ?_, ?_, ?_, ?_, ?_, ?_, nofun, List.Subset.refl _⟩ <;>
      exact fun p hp => absurd hp List.not_mem_nil
  machine := by
    refine ⟨fun c _ => UInt64.le_refl _, ?_, ?_⟩ <;> exact fun p hp => absurd hp List.not_mem_nil
  shared := rfl
  keys := keySound_calm U

theorem keySound_of_eq {st : KeyState} (h : KeySound U g key st) (hissued : g.issued ⊆ g'.issued)
    (hget : U.owner key ≠ none → g'.machine.get key = g.machine.get key)
    (hmark : ∀ c, g.machine.mark c ≤ g'.machine.mark c)
    (hacked : g'.lastAcked key = g.lastAcked key)
    (hstate : key ∈ g'.workload.state ↔ key ∈ g.workload.state)
    (hbusy : ∀ c p, g'.pending c = some p → p.key = key → st.ackedSerial < p.serial)
    (hended : ∀ p ∈ g'.issued, p.key = key → g'.pending p.client ≠ some p →
      p ∈ g.issued ∧ g.pending p.client ≠ some p) : KeySound U g' key st where
  acked := by
    intro p hp
    obtain ⟨hmem, hrest⟩ := h.acked p (hacked ▸ hp)
    exact ⟨hissued hmem, hrest⟩
  unacked := fun hnone => h.unacked (hacked ▸ hnone)
  acked_le := fun c hc => UInt64.le_trans (h.acked_le c hc) (hmark _)
  busy := hbusy
  stored := by
    intro hown v hv
    obtain ⟨p, hp, hrest⟩ := h.stored hown v (hget hown ▸ hv)
    exact ⟨p, hissued hp, hrest⟩
  present := by
    intro hown
    rw [hget hown]
    exact h.present hown
  ended := by
    intro p hp hkey hpend
    obtain ⟨hold, hpend'⟩ := hended p hp hkey hpend
    rw [hstate]
    exact h.ended p hold hkey hpend'
  unknown := by
    intro s v hs
    obtain ⟨hlt, p, hp, hrest⟩ := h.unknown s v hs
    exact ⟨hlt, p, hissued hp, hrest⟩
  written := by
    intro hk
    obtain ⟨p, hp, hrest⟩ := h.written (hstate.mp hk)
    exact ⟨p, hissued hp, hrest⟩

theorem lt_add_one {s x : UInt64} (hs : s.toNat + 1 < 2 ^ 64) (hx : x ≤ s) : x < s + 1 := by
  rw [UInt64.le_iff_toNat_le] at hx
  rw [UInt64.lt_iff_toNat_lt, UInt64.toNat_add]
  change _ < (s.toNat + 1) % 2 ^ 64
  rw [Nat.mod_eq_of_lt hs]
  omega

def World.issue (g : World) (p : Put) : World :=
  { g with
    serial := Function.update g.serial p.client p.serial
    pending := Function.update g.pending p.client (some p)
    issued := g.issued ++ [p] }

/-- A write that may be started: it is new in every respect. -/
structure Fresh (U : Setup) (g : World) (p : Put) : Prop where
  client : p.client < U.clients
  owner : U.owner p.key = some p.client
  idle : g.pending p.client = none
  short : p.key.length < 2 ^ 32 ∧ p.value.length < 2 ^ 32
  value : ∀ q ∈ g.issued, q.client = p.client → q.value ≠ p.value
  later : ∀ x ≤ g.serial p.client, x < p.serial

theorem fresh_of_mayIssue {value : Bytes} (h : U.mayIssue g (g.next c key value) = true) :
    Fresh U g (g.next c key value) := by
  obtain ⟨hc, hown, hidle, hfit, hk, hv, hval⟩ := of_decide_eq_true h
  exact ⟨hc, hown, hidle, ⟨hk, hv⟩, hval, fun x hx => lt_add_one hfit hx⟩

theorem roster_issue (h : Roster U g) (hp : Fresh U g p) : Roster U (g.issue p) := by
  have hmem : ∀ q ∈ (g.issue p).issued, q ∈ g.issued ∨ q = p := fun q hq =>
    (List.mem_append.mp hq).imp_right List.mem_singleton.mp
  have hnew : ∀ q ∈ g.issued, q.client = p.client → q.serial < p.serial := fun q hq hc =>
    hp.later _ (hc ▸ h.le q hq)
  have hall : ∀ {P : Put → Prop}, (∀ q ∈ g.issued, P q) → P p → ∀ q ∈ (g.issue p).issued, P q :=
    fun hold hnew => List.forall_mem_append.mpr ⟨hold, List.forall_mem_singleton.mpr hnew⟩
  refine ⟨hall h.client hp.client, hall h.owner hp.owner, hall h.short hp.short,
    hall h.pos (hp.later 0 UInt64.zero_le), fun q hq => ?_, fun q hq r hr hc hs => ?_,
    fun q hq r hr hc hv => ?_, fun c q hq => ?_,
    fun q hq => List.mem_append_left _ (h.committed hq)⟩
  · change q.serial ≤ Function.update g.serial p.client p.serial q.client
    rcases hmem q hq with hq | rfl
    · by_cases hc : q.client = p.client
      · rw [hc, Function.update_self]
        exact UInt64.le_of_lt (hnew q hq hc)
      · rw [Function.update_of_ne hc]
        exact h.le q hq
    · rw [Function.update_self]
      exact UInt64.le_refl _
  · rcases hmem q hq with hold | rfl <;> rcases hmem r hr with hold' | rfl
    · exact h.unique q hold r hold' hc hs
    · exact absurd hs (UInt64.ne_of_lt (hnew q hold hc))
    · exact absurd hs.symm (UInt64.ne_of_lt (hnew r hold' hc.symm))
    · rfl
  · rcases hmem q hq with hold | rfl <;> rcases hmem r hr with hold' | rfl
    · exact h.distinct q hold r hold' hc hv
    · exact absurd hv (hp.value q hold hc)
    · exact absurd hv.symm (hp.value r hold' hc.symm)
    · rfl
  · change Function.update g.pending p.client (some p) c = some q at hq
    change q ∈ g.issued ++ [p] ∧ q.client = c ∧
      q.serial = Function.update g.serial p.client p.serial c
    by_cases hc : c = p.client
    · subst hc
      rw [Function.update_self] at hq ⊢
      obtain rfl := Option.some.inj hq
      exact ⟨List.mem_concat_self, rfl, rfl⟩
    · rw [Function.update_of_ne hc] at hq ⊢
      obtain ⟨hold, hrest⟩ := h.pending c q hq
      exact ⟨List.mem_append_left _ hold, hrest⟩

theorem sound_issue (h : Sound U g) (hp : Fresh U g p) : Sound U (g.issue p) := by
  have hmark : ∀ c < U.clients, g.machine.mark (clientID c) ≤
      Function.update g.serial p.client p.serial c := by
    intro c hc
    by_cases hcp : c = p.client
    · rw [hcp, Function.update_self]
      exact UInt64.le_of_lt (hp.later _ (h.machine.mark_le _ hp.client))
    · rw [Function.update_of_ne hcp]
      exact h.machine.mark_le c hc
  refine ⟨roster_issue h.roster hp, ⟨hmark, h.machine.committed, fun q hq hs => ?_⟩, h.shared,
    fun key => keySound_of_eq (h.keys key) (List.subset_append_left _ _) (fun _ => rfl)
      (fun _ => UInt64.le_refl _) rfl Iff.rfl (fun c q hq hkey => ?_) fun q hq hkey hpend => ?_⟩
  · rcases List.mem_append.mp hq with hq | hq
    · exact h.machine.latest q hq hs
    · rw [List.mem_singleton.mp hq] at hs
      exact absurd hs.symm
        (UInt64.ne_of_lt (hp.later _ (h.machine.mark_le _ hp.client)))
  · change Function.update g.pending p.client (some p) c = some q at hq
    by_cases hc : c = p.client
    · rw [hc, Function.update_self] at hq
      obtain rfl := Option.some.inj hq
      -- What has been acknowledged was applied before.
      have hle := (h.keys key).acked_le _ (hkey ▸ hp.owner)
      exact hp.later _ (UInt64.le_trans hle (h.machine.mark_le _ hp.client))
    · rw [Function.update_of_ne hc] at hq
      exact (h.keys key).busy c q hq hkey
  · change Function.update g.pending p.client (some p) q.client ≠ some q at hpend
    rcases List.mem_append.mp hq with hq | hq
    · refine ⟨hq, ?_⟩
      by_cases hc : q.client = p.client
      · rw [hc, hp.idle]
        exact nofun
      · rwa [Function.update_of_ne hc] at hpend
    · rw [List.mem_singleton.mp hq, Function.update_self] at hpend
      exact absurd rfl hpend

theorem apply_entry (sm : Machine) (index : Nat) (hp : p.client < U.clients)
    (hshort : p.key.length < 2 ^ 32 ∧ p.value.length < 2 ^ 32) :
    sm.apply index p.entry =
      if p.serial ≤ sm.mark (clientID p.client) then sm
      else ⟨sm.data.put p.key p.value, sm.sessions.insert (clientID p.client) p.serial⟩ := by
  have hid := clientID_ne_zero hp
  have hinner := Commands.decodeCommand_encode (c := ⟨.put, p.key, p.value⟩) hshort.1 hshort.2
  unfold Machine.apply Put.entry
  rw [decodeCommand_encode]
  dsimp only
  by_cases hle : p.serial ≤ sm.mark (clientID p.client)
  · rw [if_pos ⟨hid, hle⟩, if_pos hle]
  · rw [if_neg fun h => hle h.2, if_neg hle, hinner]
    dsimp only
    rw [if_pos hid]

/-- The machine after a write of one client. -/
def advanced (sm : Machine) (p : Put) : Machine :=
  ⟨sm.data.put p.key p.value, sm.sessions.insert (clientID p.client) p.serial⟩

theorem mark_advanced (sm : Machine) (p : Put) (id : UInt64) :
    (advanced sm p).mark id = if clientID p.client = id then p.serial else sm.mark id := by
  unfold Machine.mark advanced
  simp only [Std.ExtTreeMap.getD_insert, Std.compare_eq_iff_eq]

theorem get_advanced (sm : Machine) (p : Put) (key : Bytes) :
    (advanced sm p).get key = if p.key = key then some p.value else sm.get key := by
  unfold Machine.get advanced MemStore.get MemStore.put
  simp only [Std.ExtTreeMap.getElem?_insert, Std.compare_eq_iff_eq]

theorem sound_commit (h : Sound U g) (hp : p ∈ g.issued) (index : Nat) :
    Sound U
      { g with machine := g.machine.apply index p.entry, committed := g.committed ++ [p] } := by
  have hsub : g.committed ++ [p] ⊆ g.issued :=
    List.append_subset.mpr ⟨h.roster.committed, List.cons_subset.mpr ⟨hp, List.nil_subset _⟩⟩
  have hclient := h.roster.client p hp
  rw [apply_entry g.machine index hclient (h.roster.short p hp)]
  by_cases hle : p.serial ≤ g.machine.mark (clientID p.client)
  · rw [if_pos hle]
    refine ⟨{ h.roster with committed := hsub }, ⟨h.machine.mark_le, ?_, h.machine.latest⟩,
      h.shared, fun key => keySound_of_eq (h.keys key) (List.Subset.refl _) (fun _ => rfl)
        (fun _ => UInt64.le_refl _) rfl Iff.rfl (h.keys key).busy fun q hq _ hpend => ⟨hq, hpend⟩⟩
    exact List.forall_mem_append.mpr ⟨h.machine.committed, List.forall_mem_singleton.mpr hle⟩
  · rw [if_neg hle]
    have hlt := UInt64.not_le.mp hle
    change Sound U { g with machine := advanced g.machine p, committed := g.committed ++ [p] }
    have hmark : ∀ id, g.machine.mark id ≤ (advanced g.machine p).mark id := by
      intro id
      rw [mark_advanced]
      split
      · rename_i hid
        exact hid ▸ UInt64.le_of_lt hlt
      · exact UInt64.le_refl _
    refine ⟨{ h.roster with committed := hsub },
      ⟨fun c hc => ?_, fun q hq => ?_, fun q hq hs => ?_⟩, h.shared, fun key => ?_⟩
    · change (advanced g.machine p).mark _ ≤ _
      rw [mark_advanced]
      split
      · rename_i hid
        rw [← clientID_inj hclient hc hid]
        exact h.roster.le p hp
      · exact h.machine.mark_le c hc
    · change _ ≤ (advanced g.machine p).mark _
      rcases List.mem_append.mp hq with hq | hq
      · exact UInt64.le_trans (h.machine.committed q hq) (hmark _)
      · rw [List.mem_singleton.mp hq, mark_advanced, if_pos rfl]
        exact UInt64.le_refl _
    · change q.serial = (advanced g.machine p).mark _ at hs
      change (advanced g.machine p).get _ = _
      rw [mark_advanced] at hs
      rw [get_advanced]
      split at hs
      · rename_i hid
        have hc := clientID_inj hclient (h.roster.client q hq) hid
        rw [h.roster.unique q hq p hp hc.symm hs, if_pos rfl]
      · rename_i hid
        rw [if_neg, h.machine.latest q hq hs]
        -- Two clients have no key in common.
        exact fun hkey => hid (congrArg clientID (client_eq h.roster hq hp hkey))
    · by_cases hkey : p.key = key
      · subst hkey
        have hb := h.keys p.key
        have hget : (advanced g.machine p).get p.key = some p.value := by
          rw [get_advanced, if_pos rfl]
        exact
          { hb with
            acked_le := fun c hc => UInt64.le_trans (hb.acked_le c hc) (hmark _)
            stored := fun _ v hv => ⟨p, hp, rfl, Option.some.inj (hget.symm.trans hv),
              UInt64.le_of_lt (UInt64.lt_of_le_of_lt (hb.acked_le _ (h.roster.owner p hp)) hlt)⟩
            present := fun _ _ => hget.symm ▸ nofun }
      · exact keySound_of_eq (h.keys key) (List.Subset.refl _)
          (fun _ => (get_advanced g.machine p key).trans (if_neg hkey)) hmark rfl Iff.rfl
          (h.keys key).busy fun q hq _ hpend => ⟨hq, hpend⟩

theorem apply_foreign (sm : Machine) (index : Nat) {b : Bytes} (hb : U.respects b = true) :
    (∀ c < U.clients, (sm.apply index b).mark (clientID c) = sm.mark (clientID c)) ∧
      ∀ key, U.owner key ≠ none → (sm.apply index b).get key = sm.get key := by
  have happ := applies_apply sm index b
  generalize sm.apply index b = sm' at happ
  cases happ with
  | undecodable | skipped | malformed => exact ⟨fun _ _ => rfl, fun _ _ => rfl⟩
  | applied cmd hcmd hnew inner hinner =>
      unfold Setup.respects at hb
      rw [hcmd] at hb
      dsimp only at hb
      rw [hinner] at hb
      obtain ⟨hid, hown⟩ := of_decide_eq_true hb
      refine ⟨fun c hc => ?_, fun key hkey => ?_⟩
      · unfold Machine.mark
        dsimp only
        split
        · rename_i hne
          rw [Std.ExtTreeMap.getD_insert, if_neg]
          rw [Std.compare_eq_iff_eq]
          intro heq
          have := U.clients_lt
          rcases hid with hzero | hlt
          · exact hne hzero
          · rw [heq, clientID, UInt64.toNat_ofNat', Nat.mod_eq_of_lt (by omega)] at hlt
            omega
        · rfl
      · have hne : inner.key ≠ key := fun heq => hkey (heq ▸ hown)
        unfold Machine.get MemStore.get Commands.applyCommand
        dsimp only
        split
        · exact Std.ExtTreeMap.getElem?_insert.trans
            (if_neg fun heq => hne (Std.compare_eq_iff_eq.mp heq))
        · exact Std.ExtTreeMap.getElem?_erase.trans
            (if_neg fun heq => hne (Std.compare_eq_iff_eq.mp heq))

theorem sound_foreign (h : Sound U g) (index : Nat) {b : Bytes} (hb : U.respects b = true) :
    Sound U { g with machine := g.machine.apply index b } := by
  obtain ⟨hmark, hget⟩ := apply_foreign g.machine index hb
  refine ⟨{ h.roster with }, ⟨fun c hc => ?_, fun p hp => ?_, fun p hp hs => ?_⟩, h.shared,
    fun key => keySound_of_eq (h.keys key) (List.Subset.refl _) (hget key)
      (fun id => mark_le_apply index b id) rfl Iff.rfl (h.keys key).busy
      fun q hq _ hpend => ⟨hq, hpend⟩⟩
  · exact (hmark c hc).symm ▸ h.machine.mark_le c hc
  · exact (hmark _ (h.roster.client p (h.roster.committed hp))).symm ▸ h.machine.committed p hp
  · exact (hget p.key (owned h.roster hp)).trans
      (h.machine.latest p hp (hs.trans (hmark _ (h.roster.client p hp))))

theorem stateFor_note {w : Workload} (hw : w.sharedKeys = false) (key key' : Bytes)
    (f : KeyState → KeyState) :
    (w.note key f).stateFor key' = if key = key' then f (w.stateFor key) else w.stateFor key' := by
  unfold Workload.note Workload.stateFor
  rw [hw]
  simp only [Bool.false_eq_true, if_false, Std.ExtTreeMap.getD_insert, Std.compare_eq_iff_eq]

theorem mem_note {w : Workload} (hw : w.sharedKeys = false) (key key' : Bytes)
    (f : KeyState → KeyState) :
    key' ∈ (w.note key f).state ↔ key = key' ∨ key' ∈ w.state := by
  unfold Workload.note
  rw [hw]
  simp only [Bool.false_eq_true, if_false, Std.ExtTreeMap.mem_insert, Std.compare_eq_iff_eq]

theorem sharedKeys_note (w : Workload) (key : Bytes) (f : KeyState → KeyState) :
    (w.note key f).sharedKeys = w.sharedKeys := by
  unfold Workload.note
  split <;> rfl

def World.finish (g : World) (p : Put) (f : KeyState → KeyState) (acks : List Put) : World :=
  { g with
    workload := g.workload.note p.key f
    pending := Function.update g.pending p.client none
    acknowledged := g.acknowledged ++ acks }

theorem lastAcked_finish (g : World) (f : KeyState → KeyState)
    (hacks : ∀ q ∈ acks, q.key ≠ key) : (g.finish p f acks).lastAcked key = g.lastAcked key := by
  have hnil : acks.filter (fun q => q.key = key) = [] :=
    List.filter_eq_nil_iff.mpr fun q hq => by simpa using hacks q hq
  unfold World.lastAcked
  change ((g.acknowledged ++ acks).filter _).getLast? = _
  rw [List.filter_append, hnil, List.append_nil]

theorem pending_finish {f : KeyState → KeyState} {q : Put}
    (hq : (g.finish p f acks).pending c = some q) : c ≠ p.client ∧ g.pending c = some q := by
  change Function.update g.pending p.client none c = some q at hq
  by_cases hc : c = p.client
  · rw [hc, Function.update_self] at hq
    cases hq
  · rw [Function.update_of_ne hc] at hq
    exact ⟨hc, hq⟩

theorem idle_finish (h : Sound U g) (hp : p ∈ g.issued) {f : KeyState → KeyState}
    {q : Put} (hq : (g.finish p f acks).pending c = some q) : q.key ≠ p.key := by
  obtain ⟨hc, hold⟩ := pending_finish hq
  obtain ⟨hmem, rfl, -⟩ := h.roster.pending c q hold
  exact fun hkey => hc (client_eq h.roster hp hmem hkey)

theorem sound_finish (h : Sound U g) (hp : g.pending p.client = some p) {f : KeyState → KeyState}
    (hacks : ∀ q ∈ acks, q = p)
    (hbook : KeySound U (g.finish p f acks) p.key (f (g.workload.stateFor p.key))) :
    Sound U (g.finish p f acks) := by
  refine ⟨{ h.roster with pending := fun c q hq => h.roster.pending c q (pending_finish hq).2 },
    ⟨h.machine.mark_le, h.machine.committed, h.machine.latest⟩,
    (sharedKeys_note _ _ _).trans h.shared, fun key => ?_⟩
  change KeySound U _ key ((g.workload.note p.key f).stateFor key)
  rw [stateFor_note h.shared]
  split
  · rename_i hkey
    exact hkey ▸ hbook
  · rename_i hkey
    refine keySound_of_eq (h.keys key) (List.Subset.refl _) (fun _ => rfl)
      (fun _ => UInt64.le_refl _) (lastAcked_finish g f fun q hq => hacks q hq ▸ hkey) ?_
      (fun c q hq => (h.keys key).busy c q (pending_finish hq).2) fun q hq hqkey hpend => ⟨hq, ?_⟩
    · exact (mem_note h.shared _ _ _).trans (or_iff_right hkey)
    · change Function.update g.pending p.client none q.client ≠ some q at hpend
      by_cases hc : q.client = p.client
      · rw [hc, hp]
        exact fun heq => hkey (Option.some.inj heq ▸ hqkey)
      · rwa [Function.update_of_ne hc] at hpend

theorem sound_acknowledge (h : Sound U g) (hp : g.pending p.client = some p)
    (hcommitted : p ∈ g.committed) :
    Sound U (g.finish p (fun st => st.noteAck p.serial p.value) [p]) := by
  obtain ⟨hissued, -, hserial⟩ := h.roster.pending _ p hp
  have hb := h.keys p.key
  have hlt := hb.busy _ p hp rfl
  -- The write was applied, and nothing of its client after it.
  have hmark := h.machine.committed p hcommitted
  have htop : p.serial = g.machine.mark (clientID p.client) :=
    UInt64.le_antisymm hmark (hserial ▸ h.machine.mark_le _ (h.roster.client p hissued))
  have hget := h.machine.latest p hissued htop
  have hown := h.roster.owner p hissued
  refine sound_finish h hp (fun q hq => List.mem_singleton.mp hq) ?_
  rw [KeyState.noteAck, if_pos hlt]
  have hlast : (g.finish p (fun st => st.noteAck p.serial p.value) [p]).lastAcked p.key =
      some p := by
    unfold World.lastAcked
    change ((g.acknowledged ++ [p]).filter _).getLast? = _
    rw [List.filter_append, List.filter_singleton]
    simp
  exact
    { acked := fun q hq => by
        obtain rfl := Option.some.inj (hlast.symm.trans hq)
        exact ⟨hissued, rfl, rfl, rfl⟩
      unacked := fun hnone => by
        rw [hlast] at hnone
        cases hnone
      acked_le := fun c hc => by
        obtain rfl := Option.some.inj (hown.symm.trans hc)
        exact hmark
      busy := fun c q hq hkey => absurd hkey (idle_finish h hissued hq)
      stored := fun _ v hv => ⟨p, hissued, rfl, Option.some.inj (hget.symm.trans hv),
        UInt64.le_refl _⟩
      present := fun _ _ => hget.symm ▸ nofun
      ended := fun q hq hkey _ => by
        have hc := client_eq h.roster hissued hq hkey
        refine ⟨(mem_note h.shared _ _ _).mpr (Or.inl rfl), Or.inl ?_⟩
        change q.serial ≤ p.serial
        rw [hserial, ← hc]
        exact h.roster.le q hq
      unknown := fun s v hs => by
        rw [Std.ExtTreeMap.getElem?_filter'] at hs
        obtain ⟨hs, hgt⟩ := Option.filter_eq_some_iff.mp hs
        exact ⟨UInt64.not_le.mp (of_decide_eq_true hgt), (hb.unknown s v hs).2⟩
      written := fun _ => ⟨p, hissued, rfl⟩ }

theorem sound_giveUp (h : Sound U g) (hp : g.pending p.client = some p) :
    Sound U (g.finish p (fun st => st.noteUnknown p.serial p.value) []) := by
  obtain ⟨hissued, -, hserial⟩ := h.roster.pending _ p hp
  have hb := h.keys p.key
  have hlt := hb.busy _ p hp rfl
  refine sound_finish h hp (fun q hq => absurd hq List.not_mem_nil) ?_
  rw [KeyState.noteUnknown, if_pos hlt]
  have hlast : (g.finish p (fun st => st.noteUnknown p.serial p.value) []).lastAcked p.key =
      g.lastAcked p.key := lastAcked_finish g _ fun q hq => absurd hq List.not_mem_nil
  exact
    { acked := fun q hq => hb.acked q (hlast ▸ hq)
      unacked := fun hnone => hb.unacked (hlast ▸ hnone)
      acked_le := hb.acked_le
      busy := fun c q hq hkey => absurd hkey (idle_finish h hissued hq)
      stored := hb.stored
      present := hb.present
      ended := fun q hq hkey hpend => by
        refine ⟨(mem_note h.shared _ _ _).mpr (Or.inl rfl), ?_⟩
        by_cases hqp : q = p
        · subst hqp
          exact Or.inr Std.ExtTreeMap.getElem?_insert_self
        · have hc := client_eq h.roster hissued hq hkey
          have hold : g.pending q.client ≠ some q := by
            rw [hc, hp]
            exact fun heq => hqp (Option.some.inj heq).symm
          refine (hb.ended q hq hkey hold).2.imp_right fun hq' => ?_
          have hne : p.serial ≠ q.serial := fun heq =>
            hqp (h.roster.unique q hq p hissued hc heq.symm)
          rw [Std.ExtTreeMap.getElem?_insert, if_neg fun heq => hne (Std.compare_eq_iff_eq.mp heq)]
          exact hq'
      unknown := fun s v hs => by
        rw [Std.ExtTreeMap.getElem?_insert] at hs
        split at hs
        · rename_i heq
          have heq := Std.compare_eq_iff_eq.mp heq
          exact ⟨heq ▸ hlt, p, hissued, rfl, heq, Option.some.inj hs⟩
        · exact hb.unknown s v hs
      written := fun _ => ⟨p, hissued, rfl⟩ }

theorem sound_step {e : Event} (h : Sound U g) (hstep : U.step g e = some g') : Sound U g' := by
  cases e with
  | issue c key value =>
      simp only [Setup.step] at hstep
      split at hstep
      · rename_i hmay
        obtain rfl := Option.some.inj hstep
        exact sound_issue h (fresh_of_mayIssue hmay)
      · cases hstep
  | commit index p =>
      simp only [Setup.step] at hstep
      split at hstep
      · rename_i hp
        obtain rfl := Option.some.inj hstep
        exact sound_commit h hp index
      · cases hstep
  | foreign index b =>
      simp only [Setup.step] at hstep
      split at hstep
      · rename_i hb
        obtain rfl := Option.some.inj hstep
        exact sound_foreign h index hb
      · cases hstep
  | acknowledge c =>
      simp only [Setup.step] at hstep
      split at hstep
      · cases hstep
      · rename_i p hp
        obtain ⟨-, rfl, -⟩ := h.roster.pending c p hp
        split at hstep
        · rename_i hcommitted
          obtain rfl := Option.some.inj hstep
          exact sound_acknowledge h hp hcommitted
        · cases hstep
  | giveUp c =>
      simp only [Setup.step] at hstep
      split at hstep
      · cases hstep
      · rename_i p hp
        obtain ⟨-, rfl, -⟩ := h.roster.pending c p hp
        obtain rfl := Option.some.inj hstep
        have hsound := sound_giveUp h hp
        unfold World.finish at hsound
        rwa [List.append_nil] at hsound

theorem sound_run {events : List Event} (hrun : U.run events = some g) : Sound U g := by
  induction events using List.reverseRecOn generalizing g with
  | nil =>
      obtain rfl := Option.some.inj hrun
      exact sound_calm U
  | append_singleton events e ih =>
      unfold Setup.run at hrun
      rw [List.foldlM_append] at hrun
      obtain ⟨mid, hmid, hstep⟩ := Option.bind_eq_some_iff.mp hrun
      have hstep : U.step mid e = some g := by simpa using hstep
      exact sound_step (ih hmid) hstep

end Invariant

section Verdict

variable {U : Setup} {g : World} {p q : Put} {st : KeyState} {key v : Bytes} {w : Workload}
variable {read : Bytes → Option (Option Bytes)} {keys : List Bytes} {err : VerifyError}

theorem mem_legal : v ∈ st.legal ↔
    0 < st.ackedSerial ∧ v = st.acked ∨ ∃ s : UInt64, st.unknownLater[s]? = some v := by
  have hlater : v ∈ st.unknownLater.toList.map Prod.snd ↔
      ∃ s : UInt64, st.unknownLater[s]? = some v := by
    rw [List.mem_map]
    constructor
    · rintro ⟨⟨s, v'⟩, hmem, rfl⟩
      exact ⟨s, Std.ExtTreeMap.mem_toList_iff_getElem?_eq_some.mp hmem⟩
    · rintro ⟨s, hs⟩
      exact ⟨(s, v), Std.ExtTreeMap.mem_toList_iff_getElem?_eq_some.mpr hs, rfl⟩
  unfold KeyState.legal
  rw [List.mem_append, hlater]
  refine or_congr_left ?_
  split
  · rename_i hpos
    rw [List.mem_singleton]
    exact (and_iff_right hpos).symm
  · rename_i hzero
    exact iff_of_false List.not_mem_nil fun h => hzero h.1

theorem acked_pos_iff (h : Sound U g) (key : Bytes) :
    0 < (g.workload.stateFor key).ackedSerial ↔ g.lastAcked key ≠ none := by
  have hb := h.keys key
  cases hlast : g.lastAcked key with
  | none =>
      rw [hb.unacked hlast]
      exact iff_of_false (UInt64.lt_irrefl 0) (not_not.mpr rfl)
  | some a =>
      obtain ⟨ha, -, hserial, -⟩ := hb.acked a hlast
      exact iff_of_true (hserial ▸ h.roster.pos a ha) nofun

theorem mem_legal_iff (h : Sound U g) (key v : Bytes) :
    v ∈ (g.workload.stateFor key).legal ↔ (∃ a, g.lastAcked key = some a ∧ v = a.value) ∨
      ∃ s : UInt64, (g.workload.stateFor key).unknownLater[s]? = some v := by
  rw [mem_legal]
  refine or_congr_left ?_
  rw [acked_pos_iff h, Option.ne_none_iff_exists']
  constructor
  · rintro ⟨⟨a, ha⟩, rfl⟩
    exact ⟨a, ha, ((h.keys key).acked a ha).2.2.2⟩
  · rintro ⟨a, ha, rfl⟩
    exact ⟨⟨a, ha⟩, ((h.keys key).acked a ha).2.2.2.symm⟩

theorem final_legal (h : Sound U g) (hdone : ∀ c, g.pending c = none) (hp : p ∈ g.issued) :
    (g.machine.get p.key = none → g.lastAcked p.key = none) ∧
      ∀ v, g.machine.get p.key = some v → v ∈ (g.workload.stateFor p.key).legal := by
  have hb := h.keys p.key
  have hown := owned h.roster hp
  refine ⟨fun hnone => ?_, fun v hv => ?_⟩
  · by_contra hne
    exact hb.present hown ((acked_pos_iff h p.key).mpr hne) hnone
  · obtain ⟨q, hq, hkey, rfl, hle⟩ := hb.stored hown v hv
    obtain ⟨-, hend⟩ := hb.ended q hq hkey (by rw [hdone]; exact nofun)
    rcases hend with hge | hlater
    · -- A write that is not behind the last acknowledged one, but not after it, is the same.
      have heq := UInt64.le_antisymm hle hge
      refine (mem_legal_iff h _ _).mpr (Or.inl ?_)
      have hpos := h.roster.pos q hq
      rw [← heq, acked_pos_iff h, Option.ne_none_iff_exists'] at hpos
      obtain ⟨a, ha⟩ := hpos
      obtain ⟨hmem, hakey, hserial, -⟩ := hb.acked a ha
      have hclient := client_eq h.roster hmem hq (hkey.trans hakey.symm)
      exact ⟨a, ha, congrArg Put.value
        (h.roster.unique q hq a hmem hclient (heq.symm.trans hserial))⟩
    · exact (mem_legal_iff h _ _).mpr (Or.inr ⟨q.serial, hlater⟩)

theorem stale_not_legal (h : Sound U g) (hp : p ∈ g.issued) (hq : q ∈ g.issued)
    (hclient : q.client = p.client)
    (hstale : q.key = p.key → q.serial < (g.workload.stateFor p.key).ackedSerial) :
    q.value ∉ (g.workload.stateFor p.key).legal := by
  have hb := h.keys p.key
  have hsame : ∀ r ∈ g.issued, r.key = p.key → q.value = r.value → q = r := by
    intro r hr hkey hval
    have heq := client_eq h.roster hp hr hkey
    exact h.roster.distinct q hq r hr (hclient.trans heq.symm) hval
  intro hlegal
  rcases (mem_legal_iff h _ _).mp hlegal with ⟨a, ha, hval⟩ | ⟨s, hs⟩
  · obtain ⟨hmem, hkey, hserial, -⟩ := hb.acked a ha
    obtain rfl := hsame a hmem hkey hval
    exact absurd (hstale hkey) (hserial ▸ UInt64.lt_irrefl _)
  · obtain ⟨hlt, r, hr, hkey, rfl, hval⟩ := hb.unknown s _ hs
    obtain rfl := hsame r hr hkey hval.symm
    exact UInt64.lt_asymm hlt (hstale hkey)

/-- An error that says the cluster has gone wrong. -/
def VerifyError.accuses : VerifyError → Bool
  | .vanished _ _ | .illegal _ _ _ => true
  | .sharedKeys | .unavailable _ => false

theorem judge_ok (hnone : got = none → ¬ 0 < st.ackedSerial)
    (hsome : ∀ v, got = some v → v ∈ st.legal) : st.judge key got = .ok () := by
  cases got with
  | none => exact if_neg (hnone rfl)
  | some v => exact if_neg fun h => h.2 (hsome v rfl)

theorem judge_error (h : got = none ∧ 0 < st.ackedSerial ∨
    ∃ v, got = some v ∧ st.legal ≠ [] ∧ v ∉ st.legal) : st.judge key got ≠ .ok () := by
  rcases h with ⟨rfl, hpos⟩ | ⟨v, rfl, hne, hv⟩
  · rw [KeyState.judge, if_pos hpos]
    exact nofun
  · rw [KeyState.judge, if_pos ⟨List.length_pos_iff.mpr hne, hv⟩]
    exact nofun

theorem accuses_of_judge (h : st.judge key got = .error err) :
    err.accuses = true := by
  unfold KeyState.judge at h
  split at h <;> split at h <;> cases h <;> rfl

theorem verifyKeys_error (h : w.verifyKeys read keys = .error err) :
    (∃ key ∈ keys, read key = none ∧ err = .unavailable key) ∨
      ∃ key ∈ keys, ∃ got, read key = some got ∧ (w.stateFor key).judge key got = .error err := by
  induction keys with
  | nil => cases h
  | cons key keys ih =>
      unfold Workload.verifyKeys at h
      split at h
      · rename_i hread
        cases h
        exact Or.inl ⟨key, List.mem_cons_self, hread, rfl⟩
      · rename_i got hread
        split at h
        · rename_i err' hjudge
          cases h
          exact Or.inr ⟨key, List.mem_cons_self, got, hread, hjudge⟩
        · rcases ih h with ⟨key', hmem, hrest⟩ | ⟨key', hmem, hrest⟩
          · exact Or.inl ⟨key', List.mem_cons_of_mem _ hmem, hrest⟩
          · exact Or.inr ⟨key', List.mem_cons_of_mem _ hmem, hrest⟩

theorem verifyKeys_ok (h : w.verifyKeys read keys = .ok ()) (hkey : key ∈ keys) :
    ∃ got, read key = some got ∧ (w.stateFor key).judge key got = .ok () := by
  induction keys with
  | nil => exact absurd hkey List.not_mem_nil
  | cons key' keys ih =>
      unfold Workload.verifyKeys at h
      split at h
      · cases h
      · rename_i got hread
        split at h
        · cases h
        · rename_i hjudge
          rcases List.mem_cons.mp hkey with rfl | hkey
          · exact ⟨got, hread, hjudge⟩
          · exact ih h hkey

theorem legal_ne_nil (h : Sound U g) (hdone : ∀ c, g.pending c = none) (hp : p ∈ g.issued) :
    (g.workload.stateFor p.key).legal ≠ [] := by
  obtain ⟨-, hend⟩ := (h.keys p.key).ended p hp rfl (by rw [hdone]; exact nofun)
  rcases hend with hle | hlater
  · exact List.ne_nil_of_mem (mem_legal.mpr
      (Or.inl ⟨UInt64.lt_of_lt_of_le (h.roster.pos p hp) hle, rfl⟩))
  · exact List.ne_nil_of_mem (mem_legal.mpr (Or.inr ⟨p.serial, hlater⟩))

/-- A storm of clients that write keys of their own, one write at a time, with serials that
count up and values used once; writes are committed as often as it happens, an acknowledged
one before its acknowledgement, and applied with sessions. When it is over, the book has the
keys that were written. What the machine has of them is the value acknowledged last or one
the book has as unknown; so the verdict does not accuse a cluster that reads back what the
machine has, and accepts if it can read all keys. A read that misses an acknowledged key, or
brings any other value, such as that of a write overtaken by an acknowledged one, is
reported. -/
theorem verdict_sound_and_tight (U : Setup) {events : List Event} (hrun : U.run events = some g)
    (hdone : ∀ c, g.pending c = none) :
    (∀ key, key ∈ g.workload.state ↔ ∃ p ∈ g.issued, p.key = key) ∧
    (∀ p ∈ g.issued, (g.machine.get p.key = none → g.lastAcked p.key = none) ∧
      ∀ v, g.machine.get p.key = some v → (∃ a, g.lastAcked p.key = some a ∧ v = a.value) ∨
        ∃ s : UInt64, (g.workload.stateFor p.key).unknownLater[s]? = some v) ∧
    ∀ keys, keys.Perm g.workload.state.keys → ∀ read,
      ((∀ key ∈ keys, read key = none ∨ read key = some (g.machine.get key)) →
        (∀ err, g.workload.verify read keys = .error err → err.accuses = false) ∧
        ((∀ key ∈ keys, read key ≠ none) → g.workload.verify read keys = .ok ())) ∧
      ∀ p ∈ g.issued,
        (read p.key = some none ∧ g.lastAcked p.key ≠ none ∨
          (∃ v, read p.key = some (some v) ∧ (∀ a, g.lastAcked p.key = some a → v ≠ a.value) ∧
            ∀ s : UInt64, (g.workload.stateFor p.key).unknownLater[s]? ≠ some v) ∨
          ∃ q ∈ g.issued, q.client = p.client ∧ read p.key = some (some q.value) ∧
            (q.key = p.key → ∃ a, g.lastAcked p.key = some a ∧ q.serial < a.serial)) →
        ∃ err, g.workload.verify read keys = .error err ∧
          ((∀ key ∈ keys, read key ≠ none) → err.accuses = true) := by
  have h := sound_run hrun
  have hstate : ∀ key, key ∈ g.workload.state ↔ ∃ p ∈ g.issued, p.key = key := by
    intro key
    refine ⟨(h.keys key).written, ?_⟩
    rintro ⟨p, hp, rfl⟩
    exact ((h.keys p.key).ended p hp rfl (by rw [hdone]; exact nofun)).1
  refine ⟨hstate, fun p hp => ?_, fun keys hkeys read => ?_⟩
  · obtain ⟨hnone, hsome⟩ := final_legal h hdone hp
    exact ⟨hnone, fun v hv => (mem_legal_iff h _ _).mp (hsome v hv)⟩
  · have hverify : g.workload.verify read keys = g.workload.verifyKeys read keys := by
      rw [Workload.verify, h.shared]
      rfl
    have hmem : ∀ key, key ∈ keys ↔ ∃ p ∈ g.issued, p.key = key := fun key =>
      hkeys.mem_iff.trans (Std.ExtTreeMap.mem_keys.trans (hstate key))
    rw [hverify]
    refine ⟨fun hread => ?_, fun p hp hbad => ?_⟩
    · have hjudge : ∀ key ∈ keys,
          (g.workload.stateFor key).judge key (g.machine.get key) = .ok () := by
        intro key hkey
        obtain ⟨p, hp, rfl⟩ := (hmem key).mp hkey
        obtain ⟨hnone, hsome⟩ := final_legal h hdone hp
        exact judge_ok (fun hget hpos => (acked_pos_iff h _).mp hpos (hnone hget)) hsome
      have herr : ∀ err, g.workload.verifyKeys read keys = .error err →
          ∃ key ∈ keys, read key = none ∧ err = .unavailable key := by
        intro err heq
        refine (verifyKeys_error heq).resolve_right ?_
        rintro ⟨key, hkey, got, hgot, hbad⟩
        rcases hread key hkey with hnone | hsome
        · rw [hgot] at hnone
          cases hnone
        · obtain rfl := Option.some.inj (hgot.symm.trans hsome)
          rw [hjudge key hkey] at hbad
          cases hbad
      refine ⟨fun err heq => ?_, fun hall => ?_⟩
      · obtain ⟨key, -, -, rfl⟩ := herr err heq
        rfl
      · cases heq : g.workload.verifyKeys read keys with
        | ok => rfl
        | error err =>
            obtain ⟨key, hkey, hnone, -⟩ := herr err heq
            exact absurd hnone (hall key hkey)
    · -- Whatever is wrong with the key, the book finds it.
      have hfound : ∃ got, read p.key = some got ∧
          (g.workload.stateFor p.key).judge p.key got ≠ .ok () := by
        have hne := legal_ne_nil h hdone hp
        rcases hbad with ⟨hgot, hacked⟩ | ⟨v, hgot, hnot, hlater⟩ | ⟨q, hq, hclient, hgot, hstale⟩
        · exact ⟨none, hgot, judge_error (Or.inl ⟨rfl, (acked_pos_iff h _).mpr hacked⟩)⟩
        · refine ⟨some v, hgot, judge_error (Or.inr ⟨v, rfl, hne, fun hlegal => ?_⟩)⟩
          rcases (mem_legal_iff h _ _).mp hlegal with ⟨a, ha, hval⟩ | ⟨s, hs⟩
          · exact hnot a ha hval
          · exact hlater s hs
        · refine ⟨some q.value, hgot, judge_error (Or.inr ⟨_, rfl, hne, ?_⟩)⟩
          refine stale_not_legal h hp hq hclient fun hkey => ?_
          obtain ⟨a, ha, hlt⟩ := hstale hkey
          exact ((h.keys p.key).acked a ha).2.2.1 ▸ hlt
      obtain ⟨got, hgot, hjudge⟩ := hfound
      cases heq : g.workload.verifyKeys read keys with
      | ok =>
          obtain ⟨got', hgot', hok⟩ := verifyKeys_ok heq ((hmem p.key).mpr ⟨p, hp, rfl⟩)
          obtain rfl := Option.some.inj (hgot.symm.trans hgot')
          exact absurd hok hjudge
      | error err =>
          refine ⟨err, rfl, fun hall => ?_⟩
          rcases verifyKeys_error heq with ⟨key, hkey, hnone, -⟩ | ⟨key, -, got', -, herr⟩
          · exact absurd hnone (hall key hkey)
          · exact accuses_of_judge herr

def lone : Setup where
  clients := 1
  owner := fun _ => some 0
  clients_lt := by decide

/-- The first write times out and is committed late, after the second one was acknowledged;
the fate of the third stays unknown. -/
def late : List Event :=
  [.issue 0 [97] [1], .giveUp 0, .issue 0 [97] [2], .commit 1 ⟨0, 2, [97], [2]⟩, .acknowledge 0,
    .commit 2 ⟨0, 1, [97], [1]⟩, .issue 0 [98] [3], .giveUp 0]

theorem verdict_sound_and_tight_late : ∃ g, lone.run late = some g ∧ (∀ c, g.pending c = none) ∧
    g.machine.get [97] = some [2] ∧
    g.workload.verify (fun key => some (g.machine.get key)) g.workload.state.keys = .ok () ∧
    ∃ err, g.workload.verify (fun _ => some (some [1])) g.workload.state.keys = .error err ∧
      err.accuses = true := by
  obtain ⟨g, hrun, hidle, hget, hissued, hlast⟩ : ∃ g ∈ lone.run late,
      (∀ c < 1, g.pending c = none) ∧ g.machine.get [97] = some [2] ∧
      (⟨0, 1, [97], [1]⟩ : Put) ∈ g.issued ∧ g.lastAcked [97] = some ⟨0, 2, [97], [2]⟩ := by
    decide +kernel
  have hrun : lone.run late = some g := hrun
  have hdone : ∀ c, g.pending c = none := by
    intro c
    cases hc : g.pending c with
    | none => rfl
    | some p =>
        have hroster := (sound_run hrun).roster
        obtain ⟨hp, rfl, -⟩ := hroster.pending c p hc
        rw [hidle p.client (hroster.client p hp)] at hc
        cases hc
  have hall := (verdict_sound_and_tight lone hrun hdone).2.2 _ (List.Perm.refl _)
  refine ⟨g, hrun, hdone, hget, ((hall _).1 fun _ _ => Or.inr rfl).2 (fun _ _ => nofun), ?_⟩
  obtain ⟨err, herr, haccuses⟩ := (hall fun _ => some (some [1])).2 _ hissued
    (Or.inr (Or.inr ⟨_, hissued, rfl, rfl, fun _ => ⟨_, hlast, by decide⟩⟩))
  exact ⟨err, herr, haccuses fun _ _ => nofun⟩

end Verdict

end RaftKV.Nemesis.Workloads
