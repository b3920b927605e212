import RaftKV.KV.Services
import RaftKV.Safety.Precedence
import RaftKV.Safety.Replicas

namespace RaftKV.KV.Acknowledgements

open Distributed.Network
open Raft hiding Command Response
open Raft.Cluster Raft.EventLoop
open Refinement.Projection
open Safety.Proposals hiding delivered
open Safety.FixedMembership (lone uniform_lone)
open Safety.Precedence (takes_of_answered)
open Safety.Replicas
open RaftKV.Store
open KV.Sessions KV.Services

section Sessions

variable {G : Gob} {sm : Machine} {L A : List Entry} {e : Entry} {c : Command}
variable {cmd : Commands.Command} {client serial : UInt64}

/-- The command in an entry: its envelope and what is in it. -/
def commandOf (e : Entry) : Option (Command × Commands.Command) :=
  if e.type = .normal then
    match decodeCommand e.command.bytes with
    | .error _ => none
    | .ok c =>
        match Commands.decodeCommand c.inner with
        | .error _ => none
        | .ok cmd => some (c, cmd)
  else none

/-- An entry with a command of `client` numbered `serial`. -/
def Carries (e : Entry) (client serial : UInt64) : Prop :=
  ∃ c cmd, commandOf e = some (c, cmd) ∧ c.clientID = client ∧ c.serial = serial

def before (G : Gob) (L : List Entry) (e : Entry) : Machine :=
  image (stateMachine G) (L.take (e.index - 1))

/-- The command in an entry was let through and carried out on the data. -/
def TookEffect (G : Gob) (L : List Entry) (e : Entry) : Prop :=
  ∃ c cmd, commandOf e = some (c, cmd) ∧
    (c.clientID ≠ 0 → (before G L e).mark c.clientID < c.serial) ∧
    (image (stateMachine G) (L.take e.index)).data =
      (Commands.applyCommand (before G L e).data cmd).1

/-- Up to the entry `e` there is one with the serial of the client that comes before all the
larger ones. A client without a session is always in time. -/
def Timely (L : List Entry) (e : Entry) (client serial : UInt64) : Prop :=
  client = 0 ∨ serial ≠ 0 ∧ ∃ e₁ ∈ L, e₁.index ≤ e.index ∧ Carries e₁ client serial ∧
    ∀ e₂ ∈ L, e₂.index < e₁.index → ∀ serial', Carries e₂ client serial' → serial' < serial

theorem commandOf_cases (e : Entry) :
    commandOf e = none ∧ (∀ sm, feedEntry (stateMachine G) sm e = sm) ∨
      ∃ c cmd, commandOf e = some (c, cmd) ∧ decodeCommand e.command.bytes = .ok c ∧
        Commands.decodeCommand c.inner = .ok cmd ∧
        ∀ sm : Machine, feedEntry (stateMachine G) sm e = sm.apply e.index e.command.bytes := by
  by_cases htype : e.type = .normal
  · have hfeed : ∀ sm, feedEntry (stateMachine G) sm e = sm.apply e.index e.command.bytes :=
      fun sm => if_pos htype
    unfold commandOf
    rw [if_pos htype]
    cases hc : decodeCommand e.command.bytes with
    | error err =>
        refine Or.inl ⟨rfl, fun sm => ?_⟩
        rw [hfeed, Machine.apply, hc]
    | ok c =>
        cases hcmd : Commands.decodeCommand c.inner with
        | error err =>
            refine Or.inl ⟨by simp only [hcmd], fun sm => ?_⟩
            rw [hfeed, Machine.apply, hc]
            simp only [hcmd, ite_self]
        | ok cmd => exact Or.inr ⟨c, cmd, by simp only [hcmd], rfl, hcmd, hfeed⟩
  · refine Or.inl ⟨?_, fun sm => if_neg htype⟩
    unfold commandOf
    rw [if_neg htype]

theorem image_append (A : List Entry) (e : Entry) :
    image (stateMachine G) (A ++ [e]) = feedEntry (stateMachine G) (image (stateMachine G) A) e :=
  List.foldl_append

theorem carries_mark (A : List Entry) (client : UInt64) :
    (image (stateMachine G) A).mark client = 0 ∨
      ∃ e ∈ A, Carries e client ((image (stateMachine G) A).mark client) := by
  induction A using List.reverseRecOn with
  | nil => exact Or.inl rfl
  | append_singleton A e ih =>
      have hold : (image (stateMachine G) (A ++ [e])).mark client =
          (image (stateMachine G) A).mark client →
          (image (stateMachine G) (A ++ [e])).mark client = 0 ∨
            ∃ e' ∈ A ++ [e],
              Carries e' client ((image (stateMachine G) (A ++ [e])).mark client) := by
        intro heq
        rw [heq]
        exact ih.imp_right fun ⟨e', he', hcarries⟩ => ⟨e', List.mem_append_left _ he', hcarries⟩
      rcases commandOf_cases (G := G) e with ⟨-, hfeed⟩ | ⟨c, cmd, hcmd, hc, hinner, hfeed⟩
      · exact hold (by rw [image_append, hfeed])
      · rw [image_append, hfeed] at hold ⊢
        generalize image (stateMachine G) A = sm at hold ⊢
        have happ := applies_apply sm e.index e.command.bytes
        generalize sm.apply e.index e.command.bytes = sm' at hold happ ⊢
        cases happ with
        | applied c' hc' _ cmd' _ =>
            obtain rfl := Except.ok.inj (hc'.symm.trans hc)
            by_cases hsession : c'.clientID ≠ 0 ∧ c'.clientID = client
            · obtain ⟨hne, rfl⟩ := hsession
              refine Or.inr ⟨e, List.mem_concat_self, c', cmd,
                hcmd, rfl, ?_⟩
              unfold Machine.mark
              rw [if_pos hne, Std.ExtTreeMap.getD_insert_self]
            · refine hold ?_
              unfold Machine.mark
              by_cases hne : c'.clientID ≠ 0
              · have hother : c'.clientID ≠ client := fun heq => hsession ⟨hne, heq⟩
                simp only [if_pos hne, Std.ExtTreeMap.getD_insert, Std.compare_eq_iff_eq,
                  if_neg hother]
              · rw [if_neg hne]
        | _ => exact hold rfl

theorem serial_le_mark (hclient : client ≠ 0) (he : e ∈ A) (h : Carries e client serial) :
    serial ≤ (image (stateMachine G) A).mark client := by
  induction A using List.reverseRecOn with
  | nil => exact absurd he List.not_mem_nil
  | append_singleton A e' ih =>
      rw [image_append]
      rcases List.mem_append.mp he with he | he
      · rcases commandOf_cases (G := G) e' with ⟨-, hfeed⟩ | ⟨c', cmd', -, -, -, hfeed⟩
        · rw [hfeed]
          exact ih he
        · rw [hfeed]
          exact UInt64.le_trans (ih he) (mark_le_apply _ _ _)
      · obtain rfl := List.mem_singleton.mp he
        obtain ⟨c, cmd, hcmd, rfl, rfl⟩ := h
        rcases commandOf_cases (G := G) e with ⟨hnone, -⟩ | ⟨c', cmd', hcmd', hc, hinner, hfeed⟩
        · rw [hnone] at hcmd
          cases hcmd
        · obtain ⟨rfl, rfl⟩ := Prod.mk.inj (Option.some.inj (hcmd'.symm.trans hcmd))
          rw [hfeed]
          refine (spent_apply e.index hc hclient).resolve_right ?_
          rintro ⟨err, herr⟩
          rw [hinner] at herr
          cases herr

theorem mem_take_of_numbered (hL : Numbered 0 L) {e' : Entry} (he : e' ∈ L)
    (hlt : e'.index < e.index) : e' ∈ L.take (e.index - 1) := by
  obtain ⟨p, hp⟩ := List.mem_iff_getElem?.mp he
  have hindex := hL p e' hp
  refine List.mem_iff_getElem?.mpr ⟨p, ?_⟩
  rw [List.getElem?_take, if_pos (by omega)]
  exact hp

theorem index_lt_of_mem_take (hL : Numbered 0 L) {e' : Entry} (he : e' ∈ L.take (e.index - 1)) :
    e' ∈ L ∧ e'.index < e.index := by
  obtain ⟨p, hp⟩ := List.mem_iff_getElem?.mp he
  rw [List.getElem?_take] at hp
  split at hp
  · have hindex := hL p e' hp
    exact ⟨List.mem_of_getElem? hp, by omega⟩
  · cases hp

theorem tookEffect_of_admitted (hL : Numbered 0 L) (he : e ∈ L)
    (hcmd : commandOf e = some (c, cmd))
    (hnew : c.clientID ≠ 0 → (before G L e).mark c.clientID < c.serial) : TookEffect G L e := by
  refine ⟨c, cmd, hcmd, hnew, ?_⟩
  have htake : L.take e.index = L.take (e.index - 1) ++ [e] := by
    obtain ⟨p, hp⟩ := List.mem_iff_getElem?.mp he
    have hindex := hL p e hp
    rw [hindex, Nat.zero_add, Nat.add_sub_cancel, List.take_add_one, hp]
    rfl
  rw [htake, image_append]
  change (feedEntry (stateMachine G) (before G L e) e).data = _
  rcases commandOf_cases (G := G) e with ⟨hnone, -⟩ | ⟨c', cmd', hcmd', hc, hinner, hfeed⟩
  · rw [hnone] at hcmd
    cases hcmd
  · obtain ⟨rfl, rfl⟩ := Prod.mk.inj (Option.some.inj (hcmd'.symm.trans hcmd))
    rw [hfeed]
    generalize before G L e = sm at hnew ⊢
    have happ := applies_apply sm e.index e.command.bytes
    generalize sm.apply e.index e.command.bytes = sm' at happ ⊢
    cases happ with
    | undecodable err herr =>
        rw [hc] at herr
        cases herr
    | skipped c₁ hc₁ hne hle =>
        obtain rfl := Except.ok.inj (hc₁.symm.trans hc)
        exact absurd hle (UInt64.not_le.mpr (hnew hne))
    | malformed c₁ hc₁ err herr =>
        obtain rfl := Except.ok.inj (hc₁.symm.trans hc)
        rw [hinner] at herr
        cases herr
    | applied c₁ hc₁ _ cmd₁ hinner₁ =>
        obtain rfl := Except.ok.inj (hc₁.symm.trans hc)
        obtain rfl := Except.ok.inj (hinner₁.symm.trans hinner)
        rfl

/-- The command of a committed entry, or an earlier copy of it, took effect exactly if it was
in time. -/
theorem tookEffect_iff_timely (hL : Numbered 0 L) (he : e ∈ L) (h : Carries e client serial) :
    (TookEffect G L e ∨ client ≠ 0 ∧ ∃ e' ∈ L, e'.index < e.index ∧ Carries e' client serial ∧
      TookEffect G L e') ↔ Timely L e client serial := by
  -- an entry that took effect found all the marks, hence all the serials before it, below its own
  have htimely : client ≠ 0 → ∀ e' ∈ L, e'.index ≤ e.index → Carries e' client serial →
      TookEffect G L e' → Timely L e client serial := by
    rintro hclient e' he' hle ⟨c, cmd, hcmd, rfl, rfl⟩ ⟨c', cmd', hcmd', hnew, -⟩
    obtain ⟨rfl, rfl⟩ := Prod.mk.inj (Option.some.inj (hcmd'.symm.trans hcmd))
    have hlt := hnew hclient
    refine Or.inr ⟨?_, e', he', hle, ⟨c', cmd', hcmd, rfl, rfl⟩, ?_⟩
    · intro hzero
      rw [hzero] at hlt
      exact UInt64.not_lt_zero hlt
    · intro e₂ he₂ hlt₂ serial' hcarries
      exact UInt64.lt_of_le_of_lt
        (serial_le_mark hclient (mem_take_of_numbered hL he₂ hlt₂) hcarries) hlt
  refine ⟨?_, ?_⟩
  · rintro (heffect | ⟨hclient, e', he', hlt, hcarries, heffect⟩)
    · by_cases hclient : client = 0
      · exact Or.inl hclient
      · exact htimely hclient e he le_rfl h heffect
    · exact htimely hclient e' he' hlt.le hcarries heffect
  · rintro (rfl | ⟨hserial, e₁, he₁, hle, hcarries, hfirst⟩)
    · obtain ⟨c, cmd, hcmd, hzero, -⟩ := h
      exact Or.inl (tookEffect_of_admitted hL he hcmd fun hne => absurd hzero hne)
    · have heffect : TookEffect G L e₁ := by
        obtain ⟨c, cmd, hcmd, rfl, rfl⟩ := hcarries
        refine tookEffect_of_admitted hL he₁ hcmd fun _ => ?_
        have hmark := carries_mark (G := G) (L.take (e₁.index - 1)) c.clientID
        rcases hmark with hzero | ⟨e₂, he₂, hmark⟩
        · rw [before, hzero]
          exact UInt64.pos_iff_ne_zero.mpr hserial
        · obtain ⟨hmem, hlt⟩ := index_lt_of_mem_take hL he₂
          exact hfirst e₂ hmem hlt _ hmark
      rcases Nat.lt_or_eq_of_le hle with hlt | heq
      · by_cases hclient : client = 0
        · obtain ⟨c, cmd, hcmd, hzero, -⟩ := h
          exact Or.inl
            (tookEffect_of_admitted hL he hcmd fun hne => absurd (hzero.trans hclient) hne)
        · exact Or.inr ⟨hclient, e₁, he₁, hlt, hcarries, heffect⟩
      · have hsame := getElem?_of_numbered hL he₁
        rw [heq, getElem?_of_numbered hL he] at hsame
        obtain rfl := Option.some.inj hsame
        exact Or.inl heffect

end Sessions

section Writes

variable {G : Gob} {D : Deployment} {threshold : ID → Nat} {s : NodeState Machine}
variable {r : Request} {done : Chan} {j k : NodeCall Machine}

def serialOf : Request → UInt64
  | .put req => req.serial
  | .get _ => 0
  | .delete req => req.serial

/-- What a write asks for, if its key is valid. -/
def mutation : Request → Option Commands.Command
  | .put req => if req.key = [] then none else some ⟨.put, req.key, req.value⟩
  | .get _ => none
  | .delete req => if req.key = [] then none else some ⟨.delete, req.key, []⟩

/-- Whether a message is the one a write hands to the loop, with the channel on which it
waits. -/
def Proposes (r : Request) (done : Chan) (m : Msg) : Prop :=
  ∃ cmd, mutation r = some cmd ∧ m = .propose (envelope r.clientID (serialOf r) cmd) done

theorem put_eq_await (shard : Nat) (n : Node Machine) {req : PutRequest} (hkey : req.key ≠ []) :
    ∃ m, Proposes (.put req) done m ∧
      KVService.put G shard n req done = KVService.await G shard n m done fun _ => .put := by
  refine ⟨_, ⟨⟨.put, req.key, req.value⟩, if_neg hkey, rfl⟩, ?_⟩
  unfold KVService.put
  rw [if_neg hkey]
  rfl

theorem delete_eq_await (shard : Nat) (n : Node Machine) {req : DeleteRequest}
    (hkey : req.key ≠ []) :
    ∃ m, Proposes (.delete req) done m ∧ KVService.delete G shard n req done =
      KVService.await G shard n m done fun _ => .delete (n.sm.get req.key).isSome := by
  refine ⟨_, ⟨⟨.delete, req.key, []⟩, if_neg hkey, rfl⟩, ?_⟩
  unfold KVService.delete
  rw [if_neg hkey]
  rfl

theorem commandOf_envelope {term index : Nat} {client serial : UInt64} {cmd : Commands.Command}
    (h : (envelope client serial cmd).length ≤ maxCommandLen) :
    commandOf ⟨term, index, .normal, envelope client serial cmd⟩ =
      some (⟨client, serial, Commands.encodeCommand [] cmd⟩, cmd) := by
  have hmax : maxCommandLen < 2 ^ 32 := by decide
  have hinner : (Commands.encodeCommand [] cmd).length ≤ (envelope client serial cmd).length := by
    simp only [envelope, Raft.Command.of, encodeCommand, List.length_append]
    omega
  rw [Commands.length_encodeCommand] at hinner
  have hkey : cmd.key.length < 2 ^ 32 := by omega
  have hvalue : cmd.value.length < 2 ^ 32 := by omega
  unfold commandOf envelope Raft.Command.of
  rw [if_pos rfl]
  dsimp only
  rw [decodeCommand_encode]
  dsimp only
  rw [Commands.decodeCommand_encode hkey hvalue]

theorem delivered_of_answered {σ : Type} {S : StateMachine σ} {s : NodeState σ}
    (hs : Reachable (nodeSystem D S threshold) s) (hreg : RegularNodes D s) {j k : NodeCall σ}
    (hj : j ∈ s.trace) (hk : k ∈ s.trace) {command : RaftKV.Raft.Command}
    (hin : j.input = .propose command done)
    (honly : ∀ j' ∈ s.trace, opens j'.input = some done → j' = j)
    (hok : .answered done (.ok ()) ∈ k.post.effects) :
    ∃ index term, Enlists j.pre.core j.input index ⟨term, done⟩ ∧
      ⟨term, index, .normal, command⟩ ∈ delivered k.post.effects := by
  obtain ⟨⟨term, index, type, _⟩, rfl, htakes, hmem⟩ :=
    takes_of_answered hs hreg hj hk hin honly hok
  obtain rfl : type = .normal := htakes.type
  refine ⟨index, term, ?_, List.mem_filterMap.mpr ⟨_, hmem, rfl⟩⟩
  rw [hin]
  exact ⟨htakes.accepted, rfl⟩

/-- A write on a channel of its own is acknowledged. In the committed log there is an entry
for it, within what its node has applied; and this entry, or an earlier one of the same session
and serial, was carried out on the data exactly if the serial came in time. -/
theorem acknowledged_write_took_effect_iff
    (hs : Reachable (nodeSystem D (stateMachine G) threshold) s) (hfix : FixedNodes D s)
    (hbound : BoundedNodes s)
    (hover : ∀ k ∈ s.trace, overtaken k.pre k.input = false) (hj : j ∈ s.trace) (hk : k ∈ s.trace)
    (hin : Proposes r done j.input)
    (honly : ∀ j' ∈ s.trace, opens j'.input = some done → j' = j)
    (hok : .answered done (.ok ()) ∈ k.post.effects) :
    ∃ L e cmd, CommittedLog s.trace L ∧
      k.post.sm = image (stateMachine G) (L.take k.post.applied) ∧ e ∈ L ∧
      e.index ≤ k.post.applied ∧ Enlists j.pre.core j.input e.index ⟨e.term, done⟩ ∧
      mutation r = some cmd ∧
      commandOf e = some (⟨r.clientID, serialOf r, Commands.encodeCommand [] cmd⟩, cmd) ∧
      ((TookEffect G L e ∨ r.clientID ≠ 0 ∧ ∃ e' ∈ L, e'.index < e.index ∧
        Carries e' r.clientID (serialOf r) ∧ TookEffect G L e') ↔
          Timely L e r.clientID (serialOf r)) := by
  have hlaw : Lawful (stateMachine G) := fun sm data hdata sm' => restore_snapshot G sm sm' hdata
  have hempty : ∀ sm, (stateMachine G).snapshot sm ≠ some [] :=
    fun sm h => G.encode_ne_nil _ (Option.some.inj h)
  have hreg : RegularNodes D s := ⟨hfix, hbound⟩
  obtain ⟨s', g, L, -, -, hrel, hrep⟩ := reachable_replicated hlaw hempty hs hreg hover
  have hnum := numbered_of_chosenLog hrel.world.sound hrep.chosen
  obtain ⟨cmd, hcmd, hprop⟩ := hin
  obtain ⟨index, term, henlist, hdel⟩ := delivered_of_answered hs hreg hj hk hprop honly hok
  have hmem := hrep.complete k hk _ hdel
  have hlen : (envelope r.clientID (serialOf r) cmd).length ≤ maxCommandLen := by
    have hread := hbound j hj
    rw [hprop] at hread
    exact of_decide_eq_true hread
  have hcommand : commandOf ⟨term, index, .normal, envelope r.clientID (serialOf r) cmd⟩ =
      some (⟨r.clientID, serialOf r, Commands.encodeCommand [] cmd⟩, cmd) :=
    commandOf_envelope hlen
  obtain ⟨-, hsm, hstep⟩ := hrep.turns k hk
  refine ⟨L, _, cmd, ⟨hnum, hrep.complete, hrep.committed⟩, hsm, hmem, ?_, henlist, hcmd, hcommand,
    tookEffect_iff_timely hnum hmem ⟨_, _, hcommand, rfl, rfl⟩⟩
  rcases hstep with ⟨-, hle, hindices⟩ | ⟨-, hnone⟩
  · have hin := List.mem_map_of_mem (f := Entry.index) hdel
    rw [hindices, List.mem_range'_1] at hin
    omega
  · rw [hnone] at hdel
    exact absurd hdel List.not_mem_nil

def store (serial : UInt64) : Request :=
  .put ⟨[65], [7], 1, serial⟩

def stored (serial : UInt64) : RaftKV.Raft.Command :=
  envelope 1 serial ⟨.put, [65], [7]⟩

theorem proposes_stored (serial : UInt64) (done : Chan) :
    Proposes (store serial) done (.propose (stored serial) done) :=
  ⟨_, rfl, rfl⟩

theorem acknowledged_write_took_effect_iff_first :
    ∃ s, Reachable (nodeSystem lone (stateMachine unary) fun _ => 0) s ∧ FixedNodes lone s ∧
      BoundedNodes s ∧
      ∃ L, CommittedLog s.trace L ∧ ∃ e ∈ L, e.index = 2 ∧ Carries e 1 1 ∧
        TookEffect unary L e := by
  obtain ⟨s, hs, hcalm, hbound, hover, hchan, ⟨k₁, hk₁, h₁⟩, k, hk, happlied, hok⟩ :=
    exists_of_run (nodeSystem lone (stateMachine unary) fun _ => 0)
      [.restart 1 fun _ => 0, .act 1 .tick, .act 1 (.propose (stored 1) 7)]
      (fun s => UnchangingNodes s ∧ BoundedNodes s ∧
        (∀ k ∈ s.trace, overtaken k.pre k.input = false) ∧
        (s.trace.filter fun k => opens k.input = some 7).map (·.input) = [.propose (stored 1) 7] ∧
        (∃ k ∈ s.trace, ⟨1, 1, .noop, noBytes⟩ ∈ delivered k.post.effects) ∧
        ∃ k ∈ s.trace, k.post.applied = 2 ∧ .answered 7 (.ok ()) ∈ k.post.effects)
      (by decide +kernel)
  obtain ⟨j, hj, hin, -, honly⟩ := exists_only hchan
  have hfix : FixedNodes lone s := ⟨uniform_lone, hcalm⟩
  obtain ⟨L, e, cmd, hL, -, he, hle, -, hcmd, hcommand, hiff⟩ :=
    acknowledged_write_took_effect_iff hs hfix hbound hover hj hk (hin ▸ proposes_stored 1 7) honly
      hok
  have hcarries : Carries e 1 1 := ⟨_, _, hcommand, rfl, rfl⟩
  have hfirst : L[0]? = some _ := getElem?_of_numbered hL.numbered (hL.complete k₁ hk₁ _ h₁)
  -- the no-op is no command, so the write is the second entry
  have hnot : ∀ e' ∈ L, e'.index < 2 → ∀ serial, ¬Carries e' 1 serial := by
    rintro e' he' hlt serial ⟨c, cmd', hcmd', -⟩
    obtain ⟨p, hp⟩ := List.mem_iff_getElem?.mp he'
    have hindex := hL.numbered p e' hp
    obtain rfl : p = 0 := by omega
    rw [← Option.some.inj (hfirst.symm.trans hp)] at hcmd'
    cases hcmd'
  have hindex : e.index = 2 := by
    have hge : ¬e.index < 2 := fun hlt => hnot e he hlt 1 hcarries
    omega
  refine ⟨s, hs, hfix, hbound, L, hL, e, he, hindex, hcarries, ?_⟩
  have htimely : Timely L e 1 1 :=
    Or.inr ⟨by decide, e, he, le_rfl, hcarries, fun e₂ he₂ hlt serial h =>
    absurd h (hnot e₂ he₂ (hindex ▸ hlt) serial)⟩
  refine (hiff.mpr htimely).resolve_right ?_
  rintro ⟨-, e', he', hlt, h, -⟩
  exact hnot e' he' (hindex ▸ hlt) 1 h

/-- Client 1 numbers its write 0, or 1 after it has used 2. The write is acknowledged, and no
command with its serial ever takes effect. -/
theorem acknowledged_writes_dropped :
    (∃ s, Reachable (nodeSystem lone (stateMachine unary) fun _ => 0) s ∧ FixedNodes lone s ∧
      BoundedNodes s ∧
      (∀ k ∈ s.trace, overtaken k.pre k.input = false) ∧
      ∃ j ∈ s.trace, ∃ k ∈ s.trace, Proposes (store 0) 7 j.input ∧
        (∀ j' ∈ s.trace, opens j'.input = some 7 → j' = j) ∧
        .answered 7 (.ok ()) ∈ k.post.effects ∧
        ∀ L, CommittedLog s.trace L → ∀ e ∈ L, Carries e 1 0 → ¬TookEffect unary L e) ∧
    ∃ s, Reachable (nodeSystem lone (stateMachine unary) fun _ => 0) s ∧ FixedNodes lone s ∧
      BoundedNodes s ∧
      (∀ k ∈ s.trace, overtaken k.pre k.input = false) ∧
      ∃ j ∈ s.trace, ∃ k ∈ s.trace, Proposes (store 1) 8 j.input ∧
        (∀ j' ∈ s.trace, opens j'.input = some 8 → j' = j) ∧
        .answered 8 (.ok ()) ∈ k.post.effects ∧
        ∀ L, CommittedLog s.trace L → ∀ e ∈ L, Carries e 1 1 → ¬TookEffect unary L e := by
  refine ⟨?_, ?_⟩
  · obtain ⟨s, hs, hcalm, hbound, hover, hchan, k, hk, hok⟩ :=
      exists_of_run (nodeSystem lone (stateMachine unary) fun _ => 0)
        [.restart 1 fun _ => 0, .act 1 .tick, .act 1 (.propose (stored 0) 7)]
        (fun s => UnchangingNodes s ∧ BoundedNodes s ∧
        (∀ k ∈ s.trace, overtaken k.pre k.input = false) ∧
          (s.trace.filter fun k => opens k.input = some 7).map (·.input) = [.propose (stored 0) 7] ∧
          ∃ k ∈ s.trace, .answered 7 (.ok ()) ∈ k.post.effects)
        (by decide +kernel)
    obtain ⟨j, hj, hin, -, honly⟩ := exists_only hchan
    refine ⟨s, hs, ⟨uniform_lone, hcalm⟩, hbound, hover, j, hj, k, hk, hin ▸ proposes_stored 0 7,
      honly, hok, ?_⟩
    rintro L - e - ⟨c, cmd, hcmd, hclient, hserial⟩ ⟨c', cmd', hcmd', hnew, -⟩
    obtain ⟨rfl, -⟩ := Prod.mk.inj (Option.some.inj (hcmd'.symm.trans hcmd))
    have hlt := hnew (by rw [hclient]; decide)
    rw [hserial] at hlt
    exact UInt64.not_lt_zero hlt
  · obtain ⟨s, hs, hcalm, hbound, hover, hchan, ⟨k₁, hk₁, h₁⟩, ⟨k₂, hk₂, h₂⟩, k, hk, hok⟩ :=
      exists_of_run (nodeSystem lone (stateMachine unary) fun _ => 0)
        [.restart 1 fun _ => 0, .act 1 .tick, .act 1 (.propose (stored 2) 7),
          .act 1 (.propose (stored 1) 8)]
        (fun s => UnchangingNodes s ∧ BoundedNodes s ∧
        (∀ k ∈ s.trace, overtaken k.pre k.input = false) ∧
          (s.trace.filter fun k => opens k.input = some 8).map (·.input) =
            [.propose (stored 1) 8] ∧
          (∃ k ∈ s.trace, ⟨1, 1, .noop, noBytes⟩ ∈ delivered k.post.effects) ∧
          (∃ k ∈ s.trace, ⟨1, 2, .normal, stored 2⟩ ∈ delivered k.post.effects) ∧
          ∃ k ∈ s.trace, .answered 8 (.ok ()) ∈ k.post.effects)
        (by decide +kernel)
    obtain ⟨j, hj, hin, -, honly⟩ := exists_only hchan
    refine ⟨s, hs, ⟨uniform_lone, hcalm⟩, hbound, hover, j, hj, k, hk, hin ▸ proposes_stored 1 8,
      honly, hok, ?_⟩
    rintro L hL e he ⟨c, cmd, hcmd, hclient, hserial⟩ ⟨c', cmd', hcmd', hnew, -⟩
    obtain ⟨rfl, -⟩ := Prod.mk.inj (Option.some.inj (hcmd'.symm.trans hcmd))
    have hfirst : L[0]? = some _ := getElem?_of_numbered hL.numbered (hL.complete k₁ hk₁ _ h₁)
    have hmem := hL.complete k₂ hk₂ _ h₂
    have hsecond : L[1]? = some _ := getElem?_of_numbered hL.numbered hmem
    have hstored : commandOf ⟨1, 2, .normal, stored 2⟩ = some (⟨1, 2, _⟩, _) :=
      commandOf_envelope (by decide)
    have hlater : 2 < e.index := by
      obtain ⟨p, hp⟩ := List.mem_iff_getElem?.mp he
      have hindex := hL.numbered p e hp
      rcases p with _ | _ | p
      · rw [← Option.some.inj (hfirst.symm.trans hp)] at hcmd
        cases hcmd
      · rw [← Option.some.inj (hsecond.symm.trans hp), hstored] at hcmd
        rw [← (Prod.mk.inj (Option.some.inj hcmd)).1] at hserial
        exact absurd hserial (by decide)
      · omega
    have hclient' : c'.clientID ≠ 0 := by
      rw [hclient]
      decide
    have hlt := hnew hclient'
    rw [hclient, hserial] at hlt
    have hle : 2 ≤ (before unary L e).mark 1 :=
      serial_le_mark (by decide) (mem_take_of_numbered hL.numbered hmem hlater)
        ⟨_, _, hstored, rfl, rfl⟩
    exact absurd (UInt64.lt_of_le_of_lt hle hlt) (by decide)

end Writes

end RaftKV.KV.Acknowledgements
