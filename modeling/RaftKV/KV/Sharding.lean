import RaftKV.Distributed.Hosting
import RaftKV.KV.Histories

/-!
The server as it is deployed: every process hosts a replica of every shard, requests go to the
shard of their key, messages to the group they name. To its clients the whole of it is one table.
-/

namespace RaftKV.KV.Sharding

open Distributed.Network Distributed.Hosting Distributed.Linearizability
open Raft (Bytes ID maxCommandLen Disk)
open Raft.Cluster Raft.EventLoop
open Refinement.Projection
open Safety.Replicas
open Safety.Proposals (opens)
open Safety.ClientHistories (Operation perform Moment during)
open RaftKV.Store
open KV.Sessions KV.Services
open KV.Agreement (Table)
open KV.Histories

/-- What a process takes from outside: the requests of clients, the messages of its peers, and
the clock, which ticks for each shard. -/
inductive Input (count : Nat)
  | request (r : Request) (done : Chan)
  | receive (group : Nat) (p : Packet)
  | tick (shard : Fin count)

def messageOf : Request → Chan → Msg
  | .put req, done => .propose (envelope req.clientID req.serial ⟨.put, req.key, req.value⟩) done
  | .get _, done => .read done
  | .delete req, done => .propose (envelope req.clientID req.serial ⟨.delete, req.key, []⟩) done

/-- The transport in front of the server lets no write through whose command, in its envelope,
is longer than 64 MiB. -/
def LimitsWrites (accepts : Request → Bool) : Prop :=
  ∀ r done, accepts r = true → readable (messageOf r done).input = true

section Routes

variable {count : Nat} [NeZero count]

/-- The shard an input concerns, and what its loop gets. Requests that the transport does not
accept or that have no key are turned down at once, and so are messages to groups the process
does not have. -/
def route (accepts : Request → Bool) : Input count → Option (Fin count × Msg)
  | .request r done =>
      if accepts r = true ∧ r.key ≠ [] then some (shardFor r.key count, messageOf r done)
      else none
  | .receive group p => if h : group < count then some (⟨group, h⟩, .deliver p) else none
  | .tick shard => some (shard, .tick)

/-- Messages carry the number of their group. -/
def router (accepts : Request → Bool) (count : Nat) [NeZero count] :
    Router (Fin count) Msg Packet Nat (Input count) where
  name := Fin.val
  receive := fun p => .receive p.1 p.2
  route := route accepts
  isLocal := fun
    | .receive _ _ => false
    | _ => true

/-- A cluster of servers with `count` shards behind a transport. -/
def shardedSystem (D : Deployment) (G : Gob) (threshold : ID → Nat) (accepts : Request → Bool)
    (count : Nat) [NeZero count] :
    System ID (Shards count) (Fin count → Disk) (Input count) (Nat × Packet)
      (Fin count → Nat → Nat) :=
  hosted (nodeSystem D (stateMachine G) threshold) (router accepts count)

abbrev ServerState (count : Nat) :=
  State ID (Shards count) (Fin count → Disk) (Input count) (Nat × Packet)

abbrev shardOf (accepts : Request → Bool) (g : Fin count) (s : ServerState count) :
    NodeState Machine :=
  project (router accepts count) g s

variable {D : Deployment} {G : Gob} {threshold : ID → Nat} {accepts : Request → Bool}
variable {s : ServerState count} {y : Input count} {g : Fin count} {m : Msg}

theorem route_cases (h : route accepts y = some (g, m)) :
    (∃ r done, y = .request r done ∧ accepts r = true ∧ r.key ≠ [] ∧ g = shardFor r.key count ∧
      m = messageOf r done) ∨ (∃ p, y = .receive g p ∧ m = .deliver p) ∨
      y = .tick g ∧ m = .tick := by
  cases y with
  | request r done =>
      rw [route] at h
      split at h
      · rename_i haccept
        obtain ⟨rfl, rfl⟩ := Prod.mk.inj (Option.some.inj h)
        exact Or.inl ⟨r, done, rfl, haccept.1, haccept.2, rfl, rfl⟩
      · cases h
  | receive group p =>
      rw [route] at h
      split at h
      · obtain ⟨rfl, rfl⟩ := Prod.mk.inj (Option.some.inj h)
        exact Or.inr (Or.inl ⟨p, rfl, rfl⟩)
      · cases h
  | tick shard =>
      obtain ⟨rfl, rfl⟩ := Prod.mk.inj (Option.some.inj h)
      exact Or.inr (Or.inr ⟨rfl, rfl⟩)

theorem sound_router : Sound (nodeSystem D (stateMachine G) threshold) (router accepts count) where
  name := Fin.val_injective
  receive := by
    intro t p g m h
    change route accepts (.receive t p) = _ at h
    rcases route_cases h with ⟨r, done, hy, -⟩ | ⟨q, hy, rfl⟩ | ⟨hy, -⟩
    · cases hy
    · cases hy
      exact ⟨rfl, rfl⟩
    · cases hy
  isLocal := by
    intro y g m hlocal h
    rcases route_cases h with ⟨r, done, rfl, -, -, -, rfl⟩ | ⟨q, rfl, rfl⟩ | ⟨-, rfl⟩
    · cases r <;> rfl
    · cases hlocal
    · rfl
  serves := fun n m => ⟨_, rfl⟩

theorem handle_of_route (nodes : Shards count) (h : route accepts y = some (g, m)) :
    ((shardedSystem D G threshold accepts count).handle nodes y).1 =
      Function.update nodes g (step (stateMachine G) (nodes g) m).1 := by
  simp only [shardedSystem, hosted, router, h, nodeSystem]

theorem handle_of_route_none (nodes : Shards count) (h : route accepts y = none) :
    ((shardedSystem D G threshold accepts count).handle nodes y).1 = nodes := by
  simp only [shardedSystem, hosted, router, h]

theorem delegate_fst (nodes : Shards count) {key : Bytes} (hkey : key ≠ [])
    (handler : Nat → Node Machine → Node Machine × Option Answer) :
    (ShardedKV.delegate nodes key handler).1 = Function.update nodes (shardFor key count)
      (handler (shardFor key count) (nodes (shardFor key count))).1 := by
  rw [ShardedKV.delegate, if_neg hkey]

theorem serve_eq_handle (nodes : Shards count) {r : Request} (haccept : accepts r = true)
    (done : Chan) :
    (ShardedKV.serve G nodes r done).1 =
      ((shardedSystem D G threshold accepts count).handle nodes (.request r done)).1 := by
  by_cases hkey : r.key = []
  · have hroute : route accepts (.request r done : Input count) = none :=
      if_neg fun h => h.2 hkey
    rw [handle_of_route_none nodes hroute]
    cases r <;> exact congrArg Prod.fst (if_pos hkey)
  · have hroute : route accepts (.request r done) =
        some (shardFor r.key count, messageOf r done) :=
      if_pos ⟨haccept, hkey⟩
    rw [handle_of_route nodes hroute]
    cases r with
    | put req =>
        refine (delegate_fst nodes hkey _).trans (congrArg _ ?_)
        rw [KVService.put, if_neg (show req.key ≠ [] from hkey)]
        rfl
    | get req =>
        refine (delegate_fst nodes hkey _).trans (congrArg _ ?_)
        rw [KVService.get, if_neg (show req.key ≠ [] from hkey)]
        rfl
    | delete req =>
        refine (delegate_fst nodes hkey _).trans (congrArg _ ?_)
        rw [KVService.delete, if_neg (show req.key ≠ [] from hkey)]
        rfl

theorem reachable_shard (hs : Reachable (shardedSystem D G threshold accepts count) s)
    (g : Fin count) :
    Reachable (nodeSystem D (stateMachine G) threshold) (shardOf accepts g s) :=
  reachable_project sound_router hs g

theorem route_of_callOf {k : Call ID (Shards count) (Input count) (Nat × Packet)}
    {j : NodeCall Machine} (h : callOf (router accepts count) g k = some j) :
    route accepts k.input = some (g, j.input) := by
  unfold callOf at h
  split at h
  · cases h
  · rename_i g' x hroute
    split at h
    · rename_i heq
      subst heq
      obtain rfl := Option.some.inj h
      exact hroute
    · cases h

theorem route_of_mem {k : NodeCall Machine} (hk : k ∈ (shardOf accepts g s).trace) :
    ∃ y, route accepts y = some (g, k.input) := by
  obtain ⟨k', -, hcall⟩ := List.mem_filterMap.mp hk
  exact ⟨k'.input, route_of_callOf hcall⟩

theorem regularNodes_shard (hD : D.Uniform) (hlimits : LimitsWrites accepts) (g : Fin count) :
    RegularNodes D (shardOf accepts g s) := by
  have hturn : ∀ k ∈ (shardOf accepts g s).trace, changesMembership k.input.input = false ∧
      readable k.input.input = true := by
    intro k hk
    obtain ⟨y, hy⟩ := route_of_mem hk
    rcases route_cases hy with ⟨r, done, -, haccept, -, -, hin⟩ | ⟨p, -, hin⟩ | ⟨-, hin⟩ <;>
      rw [hin]
    · exact ⟨by cases r <;> rfl, hlimits r done haccept⟩
    · exact ⟨rfl, rfl⟩
    · exact ⟨rfl, rfl⟩
  exact ⟨⟨hD, fun k hk => (hturn k hk).1⟩, fun k hk => (hturn k hk).2⟩

theorem shardFor_of_asks (hlimits : LimitsWrites accepts) {k : NodeCall Machine}
    (hk : k ∈ (shardOf accepts g s).trace) {w : Mutation} (hw : asks k.input = some w) :
    shardFor w.cmd.key count = g := by
  obtain ⟨y, hy⟩ := route_of_mem hk
  rcases route_cases hy with ⟨r, done, -, haccept, -, rfl, hin⟩ | ⟨p, -, hin⟩ | ⟨-, hin⟩ <;>
    rw [hin] at hw
  · have hread := hlimits r done haccept
    cases r with
    | put req =>
        obtain rfl := Option.some.inj ((asks_envelope (of_decide_eq_true hread) done).symm.trans hw)
        rfl
    | get req => cases hw
    | delete req =>
        obtain rfl := Option.some.inj ((asks_envelope (of_decide_eq_true hread) done).symm.trans hw)
        rfl
  · cases hw
  · cases hw

end Routes

/-- An operation on the shard `shard`, with its turns counted there. -/
structure ShardOperation (count : Nat) where
  shard : Fin count
  op : Operation Mutation Bytes (Option Bytes)

def onShard {count : Nat} (g : Fin count) (ops : List (ShardOperation count)) :
    List (Operation Mutation Bytes (Option Bytes)) :=
  (ops.filter fun o => o.shard = g).map ShardOperation.op

theorem map_onShard {count : Nat} (g : Fin count) (ops : List (ShardOperation count)) :
    (onShard g ops).map (ShardOperation.mk g) = ops.filter fun o => o.shard = g := by
  rw [onShard, List.map_map]
  refine (List.map_congr_left fun o ho => ?_).trans (List.map_id _)
  obtain rfl := of_decide_eq_true (List.mem_filter.mp ho).2
  rfl

theorem onShard_flatMap {count : Nat} (g : Fin count)
    (ops : Fin count → List (Operation Mutation Bytes (Option Bytes))) :
    onShard g ((List.finRange count).flatMap fun g => (ops g).map (ShardOperation.mk g)) =
      ops g := by
  have hother : ∀ l : List (Fin count), g ∉ l →
      (l.flatMap fun g => (ops g).map (ShardOperation.mk g)).filter
        (fun o => o.shard = g) = [] := by
    intro l hl
    refine List.filter_eq_nil_iff.mpr fun o ho => ?_
    obtain ⟨g', hg', hmem⟩ := List.mem_flatMap.mp ho
    obtain ⟨op, -, rfl⟩ := List.mem_map.mp hmem
    rw [decide_eq_true_eq]
    rintro rfl
    exact hl hg'
  have hself : ((ops g).map (ShardOperation.mk g)).filter (fun o => o.shard = g) =
      (ops g).map (ShardOperation.mk g) := by
    refine List.filter_eq_self.mpr fun o ho => ?_
    obtain ⟨op, -, rfl⟩ := List.mem_map.mp ho
    exact decide_eq_true rfl
  obtain ⟨l, l', hl⟩ := List.append_of_mem (List.mem_finRange g)
  have hnd := List.nodup_finRange count
  rw [hl] at hnd
  have hnot := List.nodup_middle.mp hnd
  have hgs : g ∉ l ∧ g ∉ l' := by
    have := (List.nodup_cons.mp hnot).1
    rwa [List.mem_append, not_or] at this
  rw [onShard, hl, List.flatMap_append, List.flatMap_cons, List.filter_append, List.filter_append,
    hother l hgs.1, hother l' hgs.2, hself, List.nil_append, List.append_nil, List.map_map]
  exact List.map_id _

section Histories

variable {count : Nat} [NeZero count] {D : Deployment} {G : Gob} {threshold : ID → Nat}
variable {accepts : Request → Bool} {s : ServerState count} {g : Fin count}

def callTime (accepts : Request → Bool) (s : ServerState count) (o : ShardOperation count) :
    WithTop Nat :=
  moment (router accepts count) o.shard s.trace o.op.call

def retTime (accepts : Request → Bool) (s : ServerState count) (o : ShardOperation count) :
    WithTop Nat :=
  o.op.ret.map (moment (router accepts count) o.shard s.trace)

/-- Whether the input asks for the value of a key. -/
def looksUp (key : Bytes) : Input count → Bool
  | .request (.get req) _ => req.key = key
  | _ => false

/-- The client knows the result. A read began with the request for its key. -/
structure Served (G : Gob) (accepts : Request → Bool) (s : ServerState count)
    (o : ShardOperation count) : Prop where
  completed : Completed G (shardOf accepts o.shard s).trace o.op
  asked : ∀ key answer, o.op.kind = .read key answer → ∃ k,
    s.trace[moment (router accepts count) o.shard s.trace o.op.call]? = some k ∧
      looksUp key k.input = true

def serveAny (t : Table) (o : ShardOperation count) : Option Table :=
  serve t o.op

theorem callTime_le_retTime {a b : Operation Mutation Bytes (Option Bytes)}
    (h : (a.call : WithTop Nat) ≤ b.ret) :
    callTime accepts s ⟨g, a⟩ ≤ retTime accepts s ⟨g, b⟩ := by
  unfold callTime retTime
  dsimp only
  cases hret : b.ret with
  | top => exact le_top
  | coe n =>
      rw [hret] at h
      exact WithTop.coe_le_coe.mpr (moment_mono (WithTop.coe_le_coe.mp h))

/-- The one table that the tables of the shards make up. -/
def join (tables : Fin count → Table) : Table :=
  fun key => tables (shardFor key count) key

theorem join_update (tables : Fin count → Table) (cmd : Commands.Command) :
    join (Function.update tables (shardFor cmd.key count)
      ((tables (shardFor cmd.key count)).apply cmd)) = (join tables).apply cmd := by
  obtain ⟨v, hv⟩ : ∃ v, ∀ t : Table, t.apply cmd = Function.update t cmd.key v := by
    unfold Table.apply
    cases cmd.op with
    | put => exact ⟨some cmd.value, fun _ => rfl⟩
    | delete => exact ⟨none, fun _ => rfl⟩
  rw [hv, hv]
  funext key
  unfold join
  by_cases hkey : key = cmd.key
  · rw [hkey, Function.update_self, Function.update_self, Function.update_self]
  · rw [Function.update_of_ne hkey]
    by_cases hshard : shardFor key count = shardFor cmd.key count
    · rw [hshard, Function.update_self, Function.update_of_ne hkey]
    · rw [Function.update_of_ne hshard]

theorem serveAny_join {o : ShardOperation count}
    (hwrite : ∀ w, o.op.kind = .write w → shardFor w.cmd.key count = o.shard)
    (hread : ∀ key answer, o.op.kind = .read key answer → shardFor key count = o.shard)
    (tables : Fin count → Table) :
    serveAny (join tables) o = (product ShardOperation.shard serveAny tables o).map join := by
  unfold product
  cases hkind : o.op.kind with
  | write w =>
      have hserve : ∀ t, serveAny t o = some (t.apply w.cmd) := by
        intro t
        rw [serveAny, serve, perform, hkind]
      rw [hserve, hserve, ← hwrite w hkind]
      exact congrArg some (join_update tables w.cmd).symm
  | read key answer =>
      have hserve : ∀ t, serveAny t o = if t key = answer then some t else none := by
        intro t
        rw [serveAny, serve, perform, hkind]
      rw [hserve, hserve, ← hread key answer hkind]
      change (if tables (shardFor key count) key = answer then _ else _) = _
      split
      · rw [Option.map_some, Option.map_some, Function.update_eq_self]
      · rfl

theorem shardFor_of_opens (hlimits : LimitsWrites accepts) {w : Mutation} {m : Nat}
    (h : Opens (shardOf accepts g s).trace w m) :
    shardFor w.cmd.key count = g := by
  obtain ⟨j, hj, hasks⟩ := h.turn
  exact shardFor_of_asks hlimits (List.mem_of_getElem? hj) hasks

theorem shardFor_of_served (hlimits : LimitsWrites accepts) {o : ShardOperation count}
    (h : Served G accepts s o) :
    (∀ w, o.op.kind = .write w → shardFor w.cmd.key count = o.shard) ∧
      ∀ key answer, o.op.kind = .read key answer → shardFor key count = o.shard := by
  have hdone := h.completed
  refine ⟨?_, ?_⟩
  · intro w hkind
    rw [Completed, hkind] at hdone
    exact shardFor_of_opens hlimits hdone.1
  · intro key answer hkind
    rw [Completed, hkind] at hdone
    obtain ⟨j, _, _, _, _, _, _, _, _, hj, -⟩ := hdone
    obtain ⟨k, hk, hin⟩ := h.asked key answer hkind
    obtain ⟨k', hk', hcall⟩ := getElem?_moment hj
    obtain rfl := Option.some.inj (hk.symm.trans hk')
    rcases route_cases (route_of_callOf hcall) with ⟨r, done, hy, -, -, hshard, -⟩ | ⟨p, hy, -⟩ |
      ⟨hy, -⟩ <;> rw [hy] at hin
    · cases r with
      | get req =>
          rw [← of_decide_eq_true hin]
          exact hshard.symm
      | _ => cases hin
    · cases hin
    · cases hin

theorem exists_shard_histories (hD : D.Uniform) (hlimits : LimitsWrites accepts)
    (hs : Reachable (shardedSystem D G threshold accepts count) s)
    (hover : ∀ g, ∀ k ∈ (shardOf accepts g s).trace, overtaken k.pre k.input = false)
    {ops : List (ShardOperation count)} (hnd : ∀ g, ((onShard g ops).map Operation.call).Nodup)
    (ho : ∀ g, Orderly (shardOf accepts g s).trace (onShard g ops))
    (hops : ∀ o ∈ ops, Served G accepts s o) :
    ∃ pending : Fin count → List (Operation Mutation Bytes (Option Bytes)), ∀ g,
      (∀ o ∈ pending g, Pending (shardOf accepts g s).trace o) ∧
      (∀ o ∈ onShard g ops ++ pending g, (o.call : WithTop Nat) ≤ o.ret) ∧
      Linearizable (fun o => (o.call : WithTop Nat)) Operation.ret serve (fun _ => none)
        (onShard g ops ++ pending g) := by
  have hdone : ∀ g, ∀ o ∈ onShard g ops, Completed G (shardOf accepts g s).trace o := by
    intro g o ho
    obtain ⟨o', ho', rfl⟩ := List.mem_map.mp ho
    obtain ⟨hmem, heq⟩ := List.mem_filter.mp ho'
    obtain rfl := of_decide_eq_true heq
    exact (hops o' hmem).completed
  choose pending hpending hnodup hrest using fun g => exists_history (reachable_shard hs g)
    (regularNodes_shard hD hlimits g) (hover g) (hnd g) (ho g) (hdone g)
  exact ⟨pending, fun g => ⟨hpending g, hrest g⟩⟩

/-- A deployed server, with any number of shards, is one table to its clients: whatever becomes of
processes and messages, the acknowledged writes and the reads of all keys, together with some
writes whose fate is open, happened once each, in an order that respects real time. -/
theorem sharded_store_linearizable (hD : D.Uniform) (hlimits : LimitsWrites accepts)
    (hs : Reachable (shardedSystem D G threshold accepts count) s)
    (hover : ∀ g, ∀ k ∈ (shardOf accepts g s).trace, overtaken k.pre k.input = false)
    {ops : List (ShardOperation count)} (hnd : ∀ g, ((onShard g ops).map Operation.call).Nodup)
    (ho : ∀ g, Orderly (shardOf accepts g s).trace (onShard g ops))
    (hops : ∀ o ∈ ops, Served G accepts s o) :
    ∃ pending : List (ShardOperation count),
      (∀ o ∈ pending, Pending (shardOf accepts o.shard s).trace o.op) ∧
      Linearizable (callTime accepts s) (retTime accepts s) serveAny (fun _ => none)
        (ops ++ pending) := by
  obtain ⟨pending, hpending⟩ := exists_shard_histories hD hlimits hs hover hnd ho hops
  let rest := (List.finRange count).flatMap fun g => (pending g).map (ShardOperation.mk g)
  have hrest : ∀ o ∈ rest, Pending (shardOf accepts o.shard s).trace o.op := by
    intro o ho
    obtain ⟨g, -, hg⟩ := List.mem_flatMap.mp ho
    obtain ⟨op, hop, rfl⟩ := List.mem_map.mp hg
    exact (hpending g).1 op hop
  have hfilter : ∀ g, (ops ++ rest).filter (fun o => o.shard = g) =
      (onShard g ops ++ pending g).map (ShardOperation.mk g) := by
    intro g
    rw [List.filter_append, ← map_onShard g ops, ← map_onShard g rest, onShard_flatMap,
      List.map_append]
  have hspan : ∀ o ∈ ops ++ rest, callTime accepts s o ≤ retTime accepts s o := by
    intro o ho
    have hmem : o ∈ (ops ++ rest).filter fun o' => o'.shard = o.shard :=
      List.mem_filter.mpr ⟨ho, decide_eq_true rfl⟩
    rw [hfilter] at hmem
    obtain ⟨op, hop, hmk⟩ := List.mem_map.mp hmem
    rw [← hmk]
    exact callTime_le_retTime ((hpending o.shard).2.1 op hop)
  -- shard by shard first, then the shards side by side, then as one table
  have hproduct : Linearizable (callTime accepts s) (retTime accepts s)
      (product ShardOperation.shard serveAny) (fun _ _ => none) (ops ++ rest) := by
    refine (linearizable_product hspan).mpr fun g => ?_
    rw [hfilter g]
    refine (linearizable_map (g := id) fun t o _ => ?_).mpr
      (linearizable_mono (hpending g).2.2 fun a _ b _ hle => callTime_le_retTime hle)
    rw [Option.map_id]
    rfl
  have hkeys : ∀ o ∈ ops ++ rest,
      (∀ w, o.op.kind = .write w → shardFor w.cmd.key count = o.shard) ∧
        ∀ key answer, o.op.kind = .read key answer → shardFor key count = o.shard := by
    intro o ho
    rcases List.mem_append.mp ho with ho | ho
    · exact shardFor_of_served hlimits (hops o ho)
    · obtain ⟨-, w, hkind, hopens⟩ := hrest o ho
      refine ⟨fun w' hkind' => ?_, fun key answer hkind' => ?_⟩
      · rw [hkind] at hkind'
        cases hkind'
        exact shardFor_of_opens hlimits hopens
      · rw [hkind] at hkind'
        cases hkind'
  have hjoined :
      Linearizable (callTime accepts s) (retTime accepts s) serveAny (join fun _ _ => none)
      ((ops ++ rest).map id) :=
    (linearizable_map fun tables o ho =>
      serveAny_join (hkeys o ho).1 (hkeys o ho).2 tables).mpr hproduct
  rw [List.map_id] at hjoined
  exact ⟨rest, hrest, hjoined⟩

end Histories

/-- Process 1 leads shard 0, process 2 leads shard 1. Each takes a write and then a read. -/
def writesAndReads : List (Action ID (Input 2) (Fin 2 → Nat → Nat)) :=
  [.restart 1 fun _ _ => 0, .restart 2 fun _ _ => 0, .restart 3 fun _ _ => 0, .act 1 (.tick 0),
    .act 2 (.tick 1), .deliver 0, .deliver 2, .deliver 4, .deliver 5, .deliver 6, .deliver 8,
    .deliver 10, .deliver 11, .act 1 (.request (.put ⟨[65], [7], 1, 1⟩) 7),
    .act 2 (.request (.put ⟨[66], [9], 1, 1⟩) 7), .deliver 12, .deliver 14, .deliver 16,
    .deliver 17, .act 1 (.request (.get ⟨[65]⟩) 8), .deliver 18, .deliver 20,
    .act 2 (.request (.get ⟨[66]⟩) 8), .deliver 21, .deliver 23]

def written (g : Fin 2) : Mutation where
  client := 1
  serial := 1
  cmd := if g = 0 then ⟨.put, [65], [7]⟩ else ⟨.put, [66], [9]⟩

def writing (g : Fin 2) : ShardOperation 2 :=
  ⟨g, 5, 7, .write (written g)⟩

def reading (g : Fin 2) : ShardOperation 2 :=
  ⟨g, 8, 10, .read (written g).cmd.key (some (written g).cmd.value)⟩

theorem onShard_writing_reading (g : Fin 2) :
    onShard g [writing 0, writing 1, reading 0, reading 1] = [(writing g).op, (reading g).op] := by
  fin_cases g <;> rfl

/-- The turns in which a shard takes the write on channel 7 and answers it. -/
def ShowsWrite (calls : List (NodeCall Machine)) (w : Mutation) : Prop :=
  Proposing calls w 5 ∧
  (∃ j ∈ calls[5]?, asks j.input = some w ∧ opens j.input = some 7) ∧
  (∀ x ∈ calls.zipIdx, opens x.1.input = some 7 → x.2 = 5) ∧
  ∃ k ∈ calls[7]?, .answered 7 (.ok ()) ∈ k.post.effects
  deriving Decidable

/-- The turns in which a shard takes the read on channel 8 and lets it go ahead. -/
def ShowsRead (calls : List (NodeCall Machine)) (w : Mutation) : Prop :=
  ∃ j ∈ calls[8]?, j.input = .read 8 ∧ (∀ x ∈ calls.zipIdx, x.1.input = .read 8 → x.2 = 8) ∧
    ∃ k ∈ calls[10]?, k.node = j.node ∧ k.post.effects = [.readAnswered 8 (.ok 2)] ∧
      (during (stateMachine unary) k [.readAnswered 8 (.ok 2)]).get w.cmd.key = some w.cmd.value
  deriving Decidable

/-- A transport that takes keys and values of up to 4 MiB together. -/
def upTo4MiB (r : Request) : Bool :=
  r.key.length + r.value.length ≤ 4 * 1024 * 1024

theorem limitsWrites_upTo4MiB : LimitsWrites upTo4MiB := by
  intro r done haccept
  have hlen : r.key.length + r.value.length ≤ 4 * 1024 * 1024 := of_decide_eq_true haccept
  have hmax : 4 * 1024 * 1024 + 25 ≤ maxCommandLen := by decide
  cases r with
  | get req => rfl
  | _ =>
      refine decide_eq_true ?_
      simp only [Request.key, Request.value, List.length_nil] at hlen
      simp only [envelope, Raft.Command.of, encodeCommand, Commands.length_encodeCommand,
        List.length_append, List.length_nil, Codec.LittleEndian.length_leBytes]
      omega

theorem sharded_store_linearizable_two :
    ∃ s, Reachable (shardedSystem trio unary (fun _ => 0) upTo4MiB 2) s ∧
      ∃ pending : List (ShardOperation 2),
        (∀ o ∈ pending, Pending (shardOf upTo4MiB o.shard s).trace o.op) ∧
        Linearizable (callTime upTo4MiB s) (retTime upTo4MiB s) serveAny (fun _ => none)
          ([writing 0, writing 1, reading 0, reading 1] ++ pending) := by
  obtain ⟨s, hs, hrun⟩ :=
    exists_of_run (shardedSystem trio unary (fun _ => 0) upTo4MiB 2) writesAndReads (fun s => ∀ g,
      (∀ k ∈ (shardOf upTo4MiB g s).trace, overtaken k.pre k.input = false) ∧
      ShowsWrite (shardOf upTo4MiB g s).trace (written g) ∧
      ShowsRead (shardOf upTo4MiB g s).trace (written g) ∧
      ∃ k ∈ s.trace[moment (router upTo4MiB 2) g s.trace 8]?,
        looksUp (written g).cmd.key k.input = true)
      (by decide +kernel)
  have hserved : ∀ g, Served unary upTo4MiB s (writing g) ∧
      Served unary upTo4MiB s (reading g) := by
    intro g
    obtain ⟨-, ⟨hproposing, ⟨j, hj, hasks, hopens⟩, hopened, ⟨k, hk, hok⟩⟩,
      ⟨j', hj', hin', hread, k', hk', hnode, heffects, hsm⟩, kg, hkg, hlooks⟩ := hrun g
    obtain ⟨command, hin⟩ := exists_propose hasks hopens
    have hmoment : Moment (shardOf upTo4MiB g s).trace 10 k' ([] ++ [.readAnswered 8 (.ok 2)]) :=
      ⟨hk', heffects ▸ List.prefix_refl _⟩
    refine ⟨⟨⟨⟨⟨j, hj, hasks⟩, fun _ p j w hp hw _ => (eq_of_proposing hproposing hp hw).2⟩, j, k,
      command, 7, 5, 7, hj, hin, hasks, fun _ => rfl, fun p j₁ hp hopens => hopened (j₁, p)
        (List.mem_zipIdx_iff_getElem?.mpr hp) hopens, hk, hok, rfl⟩, ?_⟩,
      ⟨⟨j', k', k', 8, 2, 10, 10, [], _, hj', hin', fun p j₁ hp _ hin₁ => hread (j₁, p)
        (List.mem_zipIdx_iff_getElem?.mpr hp) hin₁, hnode, hmoment, .turn (List.prefix_refl _),
        hmoment, hsm.symm, rfl⟩, ?_⟩⟩
    · rintro key answer ⟨⟩
    · rintro key answer ⟨⟩
      exact ⟨kg, hkg, hlooks⟩
  have horderly : ∀ g, Orderly (shardOf upTo4MiB g s).trace [(writing g).op, (reading g).op] := by
    intro g
    obtain ⟨-, ⟨hproposing, -⟩, -⟩ := hrun g
    refine orderly_of_single (w := written g) (show (1 : UInt64) ≠ 0 by decide)
      (fun j hj w hw => ?_) (List.forall_mem_cons.mpr ⟨?_, List.forall_mem_singleton.mpr ?_⟩)
    · obtain ⟨p, hp⟩ := List.mem_iff_getElem?.mp hj
      exact (eq_of_proposing hproposing hp hw).1
    · rintro w ⟨⟩
      rfl
    · rintro w ⟨⟩
  have hdone : ∀ o ∈ [writing 0, writing 1, reading 0, reading 1], Served unary upTo4MiB s o := by
    simp only [List.forall_mem_cons, List.not_mem_nil, false_implies, implies_true, and_true]
    exact ⟨(hserved 0).1, (hserved 1).1, (hserved 0).2, (hserved 1).2⟩
  obtain ⟨pending, hpending, hlin⟩ := sharded_store_linearizable uniform_trio
    limitsWrites_upTo4MiB hs (fun g => (hrun g).1)
    (fun g => by rw [onShard_writing_reading]; exact show [5, 8].Nodup by decide)
    (fun g => by rw [onShard_writing_reading]; exact horderly g) hdone
  exact ⟨s, hs, pending, hpending, hlin⟩

end RaftKV.KV.Sharding
