import RaftKV.KV.Services
import RaftKV.Raft.Solo
import RaftKV.Store.Rotation

namespace RaftKV.KV.Agreement

open Files.Programs
open Raft hiding Response
open Raft.EventLoop Raft.Solo
open RaftKV.Store
open Store.Commands (MemStore)
open Store.Segments (Dir StoreError)
open Store.Durable Store.Operations Store.Lives
open Store.Rotation (newest_of_life)
open KV.Sessions KV.Services

variable {n : Node Machine} {r : Request}

/-- What clients see: the value of every key. -/
abbrev Table := Bytes → Option Bytes

namespace Table

def apply (t : Table) (cmd : Commands.Command) : Table :=
  match cmd.op with
  | .put => Function.update t cmd.key (some cmd.value)
  | .delete => Function.update t cmd.key none

/-- What a request does to a table, and its answer. -/
def serve (t : Table) (r : Request) : Table × Answer :=
  if r.key = [] then (t, .error errEmptyKey)
  else
    match r with
    | .put req => (t.apply ⟨.put, req.key, req.value⟩, .ok .put)
    | .get req => (t, .ok (.get ((t req.key).getD []) (t req.key).isSome))
    | .delete req => (t.apply ⟨.delete, req.key, []⟩, .ok (.delete (t req.key).isSome))

end Table

def tableOf (mem : MemStore) : Table :=
  fun key => mem.get key

theorem tableOf_applyCommand (mem : MemStore) (cmd : Commands.Command) :
    tableOf (Commands.applyCommand mem cmd).1 = (tableOf mem).apply cmd := by
  funext key
  cases hop : cmd.op <;>
    simp only [tableOf, Table.apply, Commands.applyCommand, hop, Commands.MemStore.get,
      Commands.MemStore.put, Commands.MemStore.delete, Std.ExtTreeMap.getElem?_insert,
      Std.ExtTreeMap.getElem?_erase, Function.update_apply, Std.compare_eq_iff_eq,
      @eq_comm _ key]

section Standalone

variable {s s' : DurableStore} {d d' : Volume Dir} {t : Table} {order : Order}

/-- A store that takes writes and holds the table `t`. -/
structure Stores (s : DurableStore) (d : Volume Dir) (t : Table) : Prop where
  newest : Newest s d
  failed : s.wal.failed = false
  closed : s.wal.closed = false
  table : tableOf s.mem = t

theorem open_of_ends {data : Bytes} {r : DurableStore × Except StoreError Unit}
    (hclosed : s.wal.closed = false) (hfailed : s.wal.failed = false) (h : Ends s data d r d') :
    r.1.wal.failed = false ∧ r.1.wal.closed = false := by
  cases h with
  | failed _ _ => exact ⟨hfailed, hclosed⟩
  | occupied _ _ _ => exact ⟨hfailed, hclosed⟩
  | closed _ _ _ _ _ => exact ⟨rfl, rfl⟩
  | done _ _ _ _ _ => exact ⟨rfl, rfl⟩

theorem stores_logAndApply {op : Operation} {cmd : Commands.Command} (h : Stores s d t)
    (order : Order) (hcmd : commandOf op = some cmd)
    (hpresent : ∀ key, op = .delete key → s.mem.get key ≠ none) :
    ∃ s' d', run (s.logAndApply cmd order) d = ((s', .ok ()), d') ∧ Stores s' d' (t.apply cmd) := by
  obtain ⟨b, hfile⟩ := h.newest.file
  have hout := holds_run (@holds_write False s order d op cmd b hfile h.newest.names hcmd)
  generalize run (s.logAndApply cmd order) d = ran at hout
  obtain ⟨⟨s', res⟩, d'⟩ := ran
  have hnewest := newest_of_outcome h.newest hout
  have htable : tableOf (logged s cmd).mem = t.apply cmd := by
    rw [← h.table]
    exact tableOf_applyCommand s.mem cmd
  have hdone : res.isOk = true ∧ Stores s' d' (t.apply cmd) := by
    dsimp only at hout hnewest
    generalize res.isOk = ok at hout
    cases hout with
    | absent hnone => exact absurd hnone (hpresent _ rfl)
    | refused _ hshut => simp [h.failed, h.closed] at hshut
    | logged hcmd' _ _ _ =>
        obtain rfl := Option.some.inj (hcmd'.symm.trans hcmd)
        exact ⟨rfl, hnewest, h.failed, h.closed, htable⟩
    | @dumped _ cmd' b' _ _ hcmd' _ _ hfile' hends =>
        obtain rfl := Option.some.inj (hcmd'.symm.trans hcmd)
        have hwritten : Newest (logged s cmd') (write d .wal s.wal.start (b' ++ record s cmd')) :=
          newest_write _ h.newest rfl (Nat.le_succ _)
        obtain ⟨-, hmem, -⟩ := newest_of_ends hwritten hends
        obtain ⟨hfailed, hclosed⟩ := @open_of_ends (logged s cmd') _ _ _ _ h.closed h.failed hends
        exact ⟨rfl, hnewest, hfailed, hclosed, by rw [hmem]; exact htable⟩
    | snapshot _ => cases hcmd
    | closed => cases hcmd
    | cut hf => exact hf.elim
    | dumpFailed hf => exact hf.elim
    | snapshotFailed hf => exact hf.elim
  cases res with
  | error err => cases hdone.1
  | ok u => exact ⟨s', d', rfl, hdone.2⟩

/-- Sizes the standalone service takes. Both services refuse an empty key. -/
def Admissible (r : Request) : Prop :=
  r.key ≠ [] → r.key.length ≤ KVServer.maxKeyBytes ∧ r.value.length ≤ KVServer.maxValueBytes

theorem validateKey_ok {key : Bytes} (hkey : key ≠ [])
    (hlen : key.length ≤ KVServer.maxKeyBytes) : KVServer.validateKey key = .ok () := by
  rw [KVServer.validateKey, if_neg hkey, if_neg (Nat.not_lt.mpr hlen)]

theorem serve_stores (h : Stores s d t) (order : Order) (hr : Admissible r) :
    ∃ s' d', run (KVServer.serve s order r) d = ((s', (t.serve r).2), d') ∧
      Stores s' d' (t.serve r).1 := by
  unfold KVServer.serve Table.serve
  by_cases hkey : r.key = []
  · have hinvalid : KVServer.validateKey [] = .error errEmptyKey := rfl
    rw [if_pos hkey]
    refine ⟨s, d, ?_, h⟩
    cases r with
    | put req =>
        dsimp only [Request.key] at hkey
        simp only [KVServer.put, hkey, hinvalid, run]
    | get req =>
        dsimp only [Request.key] at hkey
        simp only [KVServer.get, hkey, hinvalid, run]
    | delete req =>
        dsimp only [Request.key] at hkey
        simp only [KVServer.delete, hkey, hinvalid, run]
  rw [if_neg hkey]
  obtain ⟨hshort, hvalue⟩ := hr hkey
  have hvalid := validateKey_ok hkey hshort
  cases r with
  | put req =>
      dsimp only [Request.key, Request.value] at hvalid hvalue
      obtain ⟨s', d', hrun, hstores⟩ := @stores_logAndApply s d t (.put req.key req.value) _ h
        order rfl (fun _ hop => by cases hop)
      refine ⟨s', d', ?_, hstores⟩
      simp only [KVServer.put, hvalid, if_neg (Nat.not_lt.mpr hvalue), DurableStore.put, run_bind,
        hrun]
      rfl
  | get req =>
      dsimp only [Request.key] at hvalid
      refine ⟨s, d, ?_, h⟩
      rw [← h.table]
      simp only [KVServer.get, hvalid, run]
      rfl
  | delete req =>
      dsimp only [Request.key] at hvalid
      simp only [KVServer.delete, hvalid, DurableStore.delete]
      cases hget : s.mem.get req.key with
      | none =>
          have hnone : t req.key = none := by
            rw [← h.table]
            exact hget
          have hsame : t.apply ⟨.delete, req.key, []⟩ = t := by
            change Function.update t req.key none = t
            rw [← hnone]
            exact Function.update_eq_self _ t
          dsimp only
          rw [hnone, hsame]
          exact ⟨s, d, rfl, h⟩
      | some value =>
          have hsome : t req.key = some value := by
            rw [← h.table]
            exact hget
          obtain ⟨s', d', hrun, hstores⟩ := @stores_logAndApply s d t (.delete req.key) _ h
            order rfl (fun key hop => by cases hop; rw [hget]; exact Option.some_ne_none value)
          refine ⟨s', d', ?_, hstores⟩
          rw [hsome]
          simp only [run_bind, hrun]
          rfl

theorem serve_inadmissible (s : DurableStore) (order : Order) (d : Volume Dir)
    (hr : ¬Admissible r) : ∃ err, (run (KVServer.serve s order r) d).1.2 = .error err := by
  rw [Admissible, not_forall] at hr
  obtain ⟨hkey, hlimits⟩ := hr
  unfold KVServer.serve
  cases hvalid : KVServer.validateKey r.key with
  | error err =>
      refine ⟨err, ?_⟩
      cases r with
      | put req =>
          dsimp only [Request.key] at hvalid
          simp only [KVServer.put, hvalid, run]
      | get req =>
          dsimp only [Request.key] at hvalid
          simp only [KVServer.get, hvalid, run]
      | delete req =>
          dsimp only [Request.key] at hvalid
          simp only [KVServer.delete, hvalid, run]
  | ok u =>
      have hshort : r.key.length ≤ KVServer.maxKeyBytes := by
        by_contra hlong
        rw [KVServer.validateKey, if_neg hkey, if_pos (Nat.not_le.mp hlong)] at hvalid
        cases hvalid
      have hvalue : KVServer.maxValueBytes < r.value.length :=
        Nat.not_le.mp fun hvalue => hlimits ⟨hshort, hvalue⟩
      cases r with
      | put req =>
          dsimp only [Request.key, Request.value] at hvalid hvalue
          simp only [KVServer.put, hvalid, if_pos hvalue, run]
          exact ⟨_, rfl⟩
      | get req => exact absurd hvalue (Nat.not_lt_zero _)
      | delete req => exact absurd hvalue (Nat.not_lt_zero _)

end Standalone

section Replicated

variable (G : Gob) {count : Nat} [NeZero count] {nodes : Shards count} {t : Table}

/-- Leaders of groups of one that hold the table `t` between them. -/
structure Hosts (nodes : Shards count) (t : Table) : Prop where
  ready : ∀ g, Ready (nodes g)
  table : ∀ key, (nodes (shardFor key count)).sm.get key = t key

theorem apply_envelope (sm : Machine) (index : Nat) (serial : UInt64) {cmd : Commands.Command}
    (hkey : cmd.key.length < 2 ^ 32) (hvalue : cmd.value.length < 2 ^ 32) :
    sm.apply index (envelope 0 serial cmd).bytes =
      { sm with data := (Commands.applyCommand sm.data cmd).1 } := by
  rw [Machine.apply, envelope, Raft.Command.of, decodeCommand_encode]
  dsimp only
  rw [if_neg (fun hskip => hskip.1 rfl), Commands.decodeCommand_encode hkey hvalue]
  cases hop : cmd.op <;> simp only [Commands.applyCommand, hop] <;> rfl

theorem await_propose (h : Ready n) (shard : Nat)
    (command : Raft.Command) (done : Chan) (resp : Response) :
    ∃ n' index, KVService.await G shard n (.propose command done) done (fun _ => resp) =
        (n', some (.ok resp)) ∧
      Ready n' ∧ n'.sm = n.sm.apply index command.bytes := by
  obtain ⟨hready, hsm, heffects⟩ := step_propose (S := stateMachine G) h command done
  refine ⟨_, lastLogIndex n.core + 1, ?_, hready, hsm⟩
  simp [KVService.await, heffects, KVService.answerOn]

theorem await_read (h : Ready n) (shard : Nat) (done : Chan)
    (resp : Node Machine → Response) :
    ∃ n', KVService.await G shard n (.read done) done resp = (n', some (.ok (resp n'))) ∧
      Ready n' ∧ n'.sm = n.sm := by
  obtain ⟨hready, hsm, heffects⟩ := step_read (S := stateMachine G) h done
  refine ⟨_, ?_, hready, hsm⟩
  simp [KVService.await, heffects, KVService.answerOn, Except.map]

omit [NeZero count] in
theorem ready_update {g : Fin count} (h : ∀ g, Ready (nodes g))
    (hn : Ready n) (g' : Fin count) : Ready (Function.update nodes g n g') := by
  rw [Function.update_apply]
  split
  · exact hn
  · exact h g'

theorem serve_emptyKey (nodes : Shards count) (done : Chan) (hkey : r.key = []) :
    ShardedKV.serve G nodes r done = (nodes, some (.error errEmptyKey)) := by
  cases r with
  | put req => exact if_pos hkey
  | get req => exact if_pos hkey
  | delete req => exact if_pos hkey

theorem serve_ready (h : ∀ g, Ready (nodes g)) (done : Chan) (hkey : r.key ≠ []) :
    ∃ nodes' resp, ShardedKV.serve G nodes r done = (nodes', some (.ok resp)) ∧
      ∀ g, Ready (nodes' g) := by
  cases r with
  | put req =>
      dsimp only [Request.key] at hkey
      obtain ⟨n, index, hawait, hready, -⟩ := await_propose G (h (shardFor req.key count))
        (shardFor req.key count) (envelope req.clientID req.serial ⟨.put, req.key, req.value⟩)
        done .put
      refine ⟨Function.update nodes (shardFor req.key count) n, .put, ?_, ready_update h hready⟩
      simp only [ShardedKV.serve, ShardedKV.put, ShardedKV.delegate, KVService.put, if_neg hkey,
        hawait]
  | get req =>
      dsimp only [Request.key] at hkey
      obtain ⟨n, hawait, hready, -⟩ := await_read G (h (shardFor req.key count))
        (shardFor req.key count) done fun n =>
          .get ((n.sm.get req.key).getD []) (n.sm.get req.key).isSome
      refine ⟨Function.update nodes (shardFor req.key count) n,
        .get ((n.sm.get req.key).getD []) (n.sm.get req.key).isSome, ?_, ready_update h hready⟩
      simp only [ShardedKV.serve, ShardedKV.get, ShardedKV.delegate, KVService.get, if_neg hkey,
        hawait]
  | delete req =>
      dsimp only [Request.key] at hkey
      obtain ⟨n, index, hawait, hready, -⟩ := await_propose G (h (shardFor req.key count))
        (shardFor req.key count) (envelope req.clientID req.serial ⟨.delete, req.key, []⟩)
        done (.delete ((nodes (shardFor req.key count)).sm.get req.key).isSome)
      refine ⟨Function.update nodes (shardFor req.key count) n,
        .delete ((nodes (shardFor req.key count)).sm.get req.key).isSome, ?_,
        ready_update h hready⟩
      simp only [ShardedKV.serve, ShardedKV.delete, ShardedKV.delegate, KVService.delete,
        if_neg hkey, hawait]

theorem hosts_update {g : Fin count} {t' : Table} (h : Hosts nodes t)
    (hready : Ready n) (hself : ∀ key, shardFor key count = g → n.sm.get key = t' key)
    (hother : ∀ key, shardFor key count ≠ g → t' key = t key) :
    Hosts (Function.update nodes g n) t' where
  ready := ready_update h.ready hready
  table := by
    intro key
    rw [Function.update_apply]
    split
    · rename_i hg
      exact hself key hg
    · rename_i hg
      exact (h.table key).trans (hother key hg).symm

theorem hosts_tick (h : Hosts nodes t) (g : Fin count) : Hosts (ShardedKV.tick G nodes g) t := by
  obtain ⟨hready, hsm, -⟩ := step_tick (S := stateMachine G) (h.ready g)
  refine hosts_update h hready (fun key hg => ?_) fun _ _ => rfl
  rw [hsm, ← hg]
  exact h.table key

theorem hosts_apply (h : Hosts nodes t) (cmd : Commands.Command)
    {index : Nat} {serial : UInt64} (hready : Ready n) (hkey : cmd.key.length < 2 ^ 32)
    (hvalue : cmd.value.length < 2 ^ 32)
    (hsm : n.sm = (nodes (shardFor cmd.key count)).sm.apply index (envelope 0 serial cmd).bytes) :
    Hosts (Function.update nodes (shardFor cmd.key count) n) (t.apply cmd) := by
  rw [apply_envelope _ _ _ hkey hvalue] at hsm
  refine hosts_update h hready ?_ ?_
  · intro key hshard
    have htable : tableOf (nodes (shardFor cmd.key count)).sm.data key = t key := by
      rw [← hshard]
      exact h.table key
    have happly := congrFun
      (tableOf_applyCommand (nodes (shardFor cmd.key count)).sm.data cmd) key
    rw [hsm]
    refine happly.trans ?_
    cases hop : cmd.op <;> simp only [Table.apply, hop, Function.update_apply, htable]
  · intro key hshard
    have hne : key ≠ cmd.key := fun heq => hshard (by rw [heq])
    cases hop : cmd.op <;> simp only [Table.apply, hop, Function.update_apply, if_neg hne]

theorem serve_hosts (h : Hosts nodes t) (done : Chan) (hanon : r.clientID = 0)
    (hr : Admissible r) :
    ∃ nodes', ShardedKV.serve G nodes r done = (nodes', some (t.serve r).2) ∧
      Hosts nodes' (t.serve r).1 := by
  unfold Table.serve
  by_cases hkey : r.key = []
  · rw [if_pos hkey]
    exact ⟨nodes, serve_emptyKey G nodes done hkey, h⟩
  rw [if_neg hkey]
  obtain ⟨hshort, hvalue⟩ := hr hkey
  have hshort32 : r.key.length < 2 ^ 32 := lt_of_le_of_lt hshort (by decide)
  have hvalue32 : r.value.length < 2 ^ 32 := lt_of_le_of_lt hvalue (by decide)
  cases r with
  | put req =>
      obtain ⟨key, value, clientID, serial⟩ := req
      obtain rfl : clientID = 0 := hanon
      dsimp only [Request.key] at hkey
      obtain ⟨n, index, hawait, hready, hsm⟩ := await_propose G (h.ready (shardFor key count))
        (shardFor key count) (envelope 0 serial ⟨.put, key, value⟩) done .put
      refine ⟨_, ?_, hosts_apply h ⟨.put, key, value⟩ hready hshort32 hvalue32 hsm⟩
      simp only [ShardedKV.serve, ShardedKV.put, ShardedKV.delegate, KVService.put, if_neg hkey,
        hawait]
  | get req =>
      dsimp only [Request.key] at hkey
      obtain ⟨n, hawait, hready, hsm⟩ := await_read G (h.ready (shardFor req.key count))
        (shardFor req.key count) done fun n =>
          .get ((n.sm.get req.key).getD []) (n.sm.get req.key).isSome
      have hhosts : Hosts (Function.update nodes (shardFor req.key count) n) t := by
        refine hosts_update h hready (fun key hg => ?_) fun _ _ => rfl
        rw [hsm, ← hg]
        exact h.table key
      refine ⟨_, ?_, hhosts⟩
      simp only [ShardedKV.serve, ShardedKV.get, ShardedKV.delegate, KVService.get, if_neg hkey,
        hawait, hsm, h.table]
  | delete req =>
      obtain ⟨key, clientID, serial⟩ := req
      obtain rfl : clientID = 0 := hanon
      dsimp only [Request.key] at hkey
      obtain ⟨n, index, hawait, hready, hsm⟩ := await_propose G (h.ready (shardFor key count))
        (shardFor key count) (envelope 0 serial ⟨.delete, key, []⟩) done
        (.delete (t key).isSome)
      refine ⟨_, ?_, hosts_apply h ⟨.delete, key, []⟩ hready hshort32 hvalue32 hsm⟩
      simp only [ShardedKV.serve, ShardedKV.delete, ShardedKV.delegate, KVService.delete,
        if_neg hkey, h.table, hawait]

/-- The shards of a process that is a cluster of its own, on empty disks, when ticks have
made it the leader of each of them. -/
structure Started (cfg : Config) (threshold : Nat) (nodes : Shards count) : Prop where
  alone : ∃ M, initialMembers cfg = .ok M ∧ M.keys = [cfg.id]
  booted : ∀ g, ∃ rng n₀ k, newNode (stateMachine G) cfg threshold rng blank = some n₀ ∧
    nodes g = (fun n => (step (stateMachine G) n .tick).1)^[k] n₀
  leads : ∀ g, (nodes g).core.role = .leader

theorem hosts_of_started {cfg : Config} {threshold : Nat} (h : Started G cfg threshold nodes) :
    Hosts nodes fun _ => none := by
  obtain ⟨M, hM, halone⟩ := h.alone
  have hshard : ∀ g, Ready (nodes g) ∧ (nodes g).sm = newStateMachine := by
    intro g
    obtain ⟨rng, n₀, k, hboot, hticks⟩ := h.booted g
    obtain ⟨hwaiting, hfresh⟩ := waiting_of_newNode hM halone hboot
    obtain ⟨hstate, hsm⟩ := ready_of_ticks hwaiting hticks
    refine ⟨hstate.resolve_left fun hwait => ?_, hsm.trans hfresh⟩
    have hrole := h.leads g
    rw [hwait.role] at hrole
    cases hrole
  refine ⟨fun g => (hshard g).1, fun key => ?_⟩
  rw [(hshard _).2]
  exact Std.ExtTreeMap.getElem?_empty

omit [NeZero count] in
theorem ready_tick (h : ∀ g, Ready (nodes g)) (g g' : Fin count) :
    Ready (ShardedKV.tick G nodes g g') :=
  ready_update h (step_tick (S := stateMachine G) (h g)).1 g'

theorem exists_answers (h : ∀ g, Ready (nodes g)) (events : List (ShardedKV.Event count)) :
    ∃ answers, ShardedKV.serveAll G nodes events = some answers := by
  induction events generalizing nodes with
  | nil => exact ⟨[], rfl⟩
  | cons ev events ih =>
      cases ev with
      | tick g => exact ih (ready_tick G h g)
      | call r done =>
          have hserve : ∃ nodes' answer, ShardedKV.serve G nodes r done = (nodes', some answer) ∧
              ∀ g, Ready (nodes' g) := by
            by_cases hkey : r.key = []
            · exact ⟨nodes, _, serve_emptyKey G nodes done hkey, h⟩
            · obtain ⟨nodes', resp, hserve, hready⟩ := serve_ready G h done hkey
              exact ⟨nodes', _, hserve, hready⟩
          obtain ⟨nodes', answer, hserve, hready⟩ := hserve
          obtain ⟨answers, hall⟩ := ih hready
          refine ⟨answer :: answers, ?_⟩
          rw [ShardedKV.serveAll, hserve]
          simp only [hall, Option.map_some]

end Replicated

section Agreement

variable (G : Gob) {count : Nat} [NeZero count] {nodes : Shards count} {t : Table}
variable {s : DurableStore} {d : Volume Dir}

theorem answers_eq_iff (hs : Stores s d t) (hn : Hosts nodes t) (calls : List (Request × Order))
    (events : List (ShardedKV.Event count))
    (hsame : events.filterMap ShardedKV.requestOf = calls.map Prod.fst)
    (hanon : ∀ call ∈ calls, call.1.clientID = 0) :
    ShardedKV.serveAll G nodes events = some (run (KVServer.serveAll s calls) d).1 ↔
      ∀ call ∈ calls, Admissible call.1 := by
  induction events generalizing nodes s d t calls with
  | nil =>
      obtain rfl : [] = calls := (List.map_eq_nil_iff.mp hsame.symm).symm
      exact iff_of_true rfl fun call hcall => absurd hcall List.not_mem_nil
  | cons ev events ih =>
      cases ev with
      | tick g => exact ih hs (hosts_tick G hn g) calls hsame hanon
      | call r done =>
          cases calls with
          | nil => cases hsame
          | cons call calls =>
              obtain ⟨r', order⟩ := call
              obtain ⟨rfl, hrest⟩ := List.cons.inj hsame
              have hanon' := fun call hcall => hanon call (List.mem_cons_of_mem _ hcall)
              rw [ShardedKV.serveAll, KVServer.serveAll, run_bind, List.forall_mem_cons]
              by_cases hr : Admissible r
              · obtain ⟨nodes', hserve, hhosts⟩ :=
                  serve_hosts G hn done (hanon _ List.mem_cons_self) hr
                obtain ⟨s', d', hrun, hstores⟩ := serve_stores hs order hr
                have htail := ih hstores hhosts calls hrest hanon'
                rw [hserve, hrun, ← htail, and_iff_right hr]
                dsimp only
                rw [run_bind, Option.map_eq_some_iff]
                constructor
                · rintro ⟨answers, hall, heq⟩
                  rw [hall]
                  exact congrArg some (List.cons.inj heq).2
                · intro hall
                  exact ⟨_, hall, rfl⟩
              · have hkey : r.key ≠ [] := fun hempty => hr fun hkey => absurd hempty hkey
                obtain ⟨nodes', resp, hserve, -⟩ := serve_ready G hn.ready done hkey
                obtain ⟨err, herr⟩ := serve_inadmissible s order d hr
                refine iff_of_false ?_ fun h => hr h.1
                rw [hserve, Option.map_eq_some_iff]
                rintro ⟨answers, -, heq⟩
                rw [run_bind] at heq
                have hhead := (List.cons.inj heq).1
                rw [herr] at hhead
                cases hhead

theorem stores_of_open {bytes : Int} (h : run (openStore bytes) (fun _ => ∅) = (.ok s, d)) :
    Stores s d fun _ => none := by
  have hnewest := (newest_of_life (.opened .new bytes (exec_of_run h))).2 s rfl
  obtain rfl : opened bytes ∅ 0 1 0 = s := Except.ok.inj (Prod.ext_iff.mp h).1
  refine ⟨hnewest, rfl, rfl, ?_⟩
  funext key
  exact Std.ExtTreeMap.getElem?_empty

/-- The same requests in the same order, to a new store and to new shards that have elected
their leader: the answers are the same if and only if the sizes are those the standalone
service takes. -/
theorem services_agree_iff {cfg : Config} {threshold : Nat}
    (hnodes : Started G cfg threshold nodes) {bytes : Int}
    (hstore : run (openStore bytes) (fun _ => ∅) = (.ok s, d)) (calls : List (Request × Order))
    (events : List (ShardedKV.Event count))
    (hsame : events.filterMap ShardedKV.requestOf = calls.map Prod.fst)
    (hanon : ∀ call ∈ calls, call.1.clientID = 0) :
    (∃ answers, ShardedKV.serveAll G nodes events = some answers) ∧
      (ShardedKV.serveAll G nodes events = some (run (KVServer.serveAll s calls) d).1 ↔
        ∀ call ∈ calls, Admissible call.1) := by
  have hhosts := hosts_of_started G hnodes
  exact ⟨exists_answers G hhosts.ready events,
    answers_eq_iff G (stores_of_open hstore) hhosts calls events hsame hanon⟩

end Agreement

def lone : Config where
  id := 1
  peerIDs := []
  members := none
  electionTicksMin := 1
  electionTicksMax := 2
  heartbeatTicks := 1
  disablePreVote := false

def twoShards : Shards 2 :=
  fun _ => (step (stateMachine unary)
    (nodeOf (bootCore (applyDefaults lone) (fun _ => 0) blank ((∅ : Members).insert 1 []) [])
      newStateMachine 0) .tick).1

theorem started_twoShards : Started unary lone 0 twoShards where
  alone := ⟨_, rfl, by decide⟩
  booted := fun _ => ⟨fun _ => 0, _, 1, rfl, rfl⟩
  leads := by decide +kernel

theorem services_agree_iff_reread :
    ShardedKV.serveAll unary twoShards
        [.call (.put ⟨[97], [7], 0, 0⟩) 1, .call (.get ⟨[97]⟩) 2, .tick 0,
          .call (.delete ⟨[97], 0, 5⟩) 3, .call (.get ⟨[97]⟩) 4] =
      some (run (KVServer.serveAll created.1
        [(.put ⟨[97], [7], 0, 0⟩, Std.ExtTreeMap.toList), (.get ⟨[97]⟩, Std.ExtTreeMap.toList),
          (.delete ⟨[97], 0, 5⟩, Std.ExtTreeMap.toList), (.get ⟨[97]⟩, Std.ExtTreeMap.toList)])
        created.2).1 := by
  have hstore : run (openStore 0) (fun _ => ∅) = (.ok created.1, created.2) := rfl
  refine (services_agree_iff unary started_twoShards hstore _ _ rfl ?_).2.mpr ?_
  · simp [Request.clientID]
  · simp [Admissible, Request.key, Request.value, KVServer.maxKeyBytes, KVServer.maxValueBytes]

/-- A key of 4097 bytes is refused by one service and stored by the other. -/
theorem long_key_disagrees :
    ∃ (r : Request) (s : DurableStore) (d : Volume Dir), r.clientID = 0 ∧
      Started unary lone 0 twoShards ∧ run (openStore 0) (fun _ => ∅) = (.ok s, d) ∧
      ShardedKV.serveAll unary twoShards [.call r 1] = some [.ok .put] ∧
      (run (KVServer.serveAll s [(r, Std.ExtTreeMap.toList)]) d).1 =
        [.error ⟨.invalidArgument, "key is 4097 bytes, limit is 4096"⟩] := by
  refine ⟨.put ⟨List.replicate 4097 97, [7], 0, 0⟩, created.1, created.2, rfl, started_twoShards,
    rfl, ?_, ?_⟩
  · have hready := (hosts_of_started unary started_twoShards).ready
    obtain ⟨n, index, hawait, -, -⟩ := await_propose unary
      (hready (shardFor (List.replicate 4097 97) 2)) (shardFor (List.replicate 4097 97) 2)
      (envelope 0 0 ⟨.put, List.replicate 4097 97, [7]⟩) 1 .put
    have hkey : List.replicate 4097 (97 : UInt8) ≠ [] := by decide +kernel
    simp only [ShardedKV.serveAll, ShardedKV.serve, ShardedKV.put, ShardedKV.delegate,
      KVService.put, if_neg hkey, hawait, Option.map_some]
  · have hinvalid : KVServer.validateKey (List.replicate 4097 97) =
        .error ⟨.invalidArgument, "key is 4097 bytes, limit is 4096"⟩ := by
      decide +kernel
    simp only [KVServer.serveAll, KVServer.serve, KVServer.put, hinvalid]
    rfl

end RaftKV.KV.Agreement
