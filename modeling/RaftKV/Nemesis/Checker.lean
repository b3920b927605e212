import RaftKV.Distributed.Linearizability
import RaftKV.Raft.Wire

/-!
The linearizability check of a recorded history. The history is handed to an external checker,
which is a parameter here: it may run out of time, and its answers are taken to be right.
-/

namespace RaftKV.Nemesis.Checker

open Distributed.Linearizability
open Raft (Bytes)

/-- The kinds of operations; a history may hold others by mistake. -/
inductive Kind
  | put
  | get
  | delete
  | other (name : String)
  deriving DecidableEq

/-- One recorded operation. If it is `unknown`, its outcome was not observed. -/
structure Op where
  kind : Kind
  key : Bytes
  value : Bytes
  found : Bool
  output : Bytes
  unknown : Bool
  invoke : Int64
  ret : Int64
  deriving DecidableEq

structure KvInput where
  kind : Kind
  key : Bytes
  value : Bytes
  deriving DecidableEq

structure KvOutput where
  found : Bool
  value : Bytes
  deriving DecidableEq

/-- What the checker gets to see of an operation. -/
structure Operation (ι ο : Type) where
  call : Int64
  ret : Int64
  input : ι
  output : ο

/-- How a history falls into parts, and the object each part is about. -/
structure Model (σ ι ο : Type) where
  partition : List (Operation ι ο) → List (List (Operation ι ο))
  init : σ
  step : σ → ι → ο → Bool × σ

inductive CheckResult
  | ok
  | illegal
  | unknown
  deriving DecidableEq

section Porcupine

variable {σ ι ο : Type}

def Operation.calledAt (op : Operation ι ο) : Int :=
  op.call.toInt

def Operation.returnedAt (op : Operation ι ο) : Int :=
  op.ret.toInt

/-- The state after an operation, if its output fits. -/
def Model.advance (M : Model σ ι ο) (s : σ) (op : Operation ι ο) : Option σ :=
  if (M.step s op.input op.output).1 then some (M.step s op.input op.output).2 else none

/-- Every part of the history can be ordered, in keeping with real time and the model. -/
def Model.Allows (M : Model σ ι ο) (history : List (Operation ι ο)) : Prop :=
  ∀ part ∈ M.partition history,
    Linearizable Operation.calledAt Operation.returnedAt M.advance M.init part
  deriving Decidable

/-- What a checker accepts can be ordered, and what it rejects cannot. -/
structure Decides (checkOperations : Model σ ι ο → List (Operation ι ο) → CheckResult) :
    Prop where
  ok : ∀ {M history}, checkOperations M history = .ok → M.Allows history
  illegal : ∀ {M history}, checkOperations M history = .illegal → ¬ M.Allows history

end Porcupine

def byKey (history : List (Operation KvInput KvOutput)) :
    List (List (Operation KvInput KvOutput)) :=
  ((history.map fun op => op.input.key).dedup).map fun k =>
    history.filter fun op => op.input.key = k

def kvStep (st : KvOutput) (input : KvInput) (output : KvOutput) : Bool × KvOutput :=
  match input.kind with
  | .put => (true, ⟨true, input.value⟩)
  | .delete => (true, ⟨false, []⟩)
  | .get => (output.found = st.found ∧ (st.found = false ∨ output.value = st.value), st)
  | .other _ => (false, st)

def kvModel : Model KvOutput KvInput KvOutput where
  partition := byKey
  init := ⟨false, []⟩
  step := kvStep

inductive CheckError
  | unknownKind (name : String)
  | timedOut (ops : Nat)
  deriving DecidableEq

/-- The text of an error, given how a timeout and a quoted string are shown. -/
def CheckError.message (timeout : String) (quoted : String → String) : CheckError → String
  | .unknownKind name => "history contains unknown op kind " ++ quoted name
  | .timedOut ops => s!"linearizability check timed out after {timeout} ({ops} ops)"

/-- What the checker is told of an operation. An unknown put may take effect at any later
time. -/
def convert (op : Op) : Except CheckError (Operation KvInput KvOutput) :=
  match op.kind with
  | .put =>
      .ok
        { call := op.invoke
          ret := if op.unknown then Int64.maxValue else op.ret
          input := ⟨.put, op.key, op.value⟩
          output := ⟨false, []⟩ }
  | .get => .ok ⟨op.invoke, op.ret, ⟨.get, op.key, []⟩, ⟨op.found, op.output⟩⟩
  | .delete => .ok ⟨op.invoke, op.ret, ⟨.delete, op.key, []⟩, ⟨false, []⟩⟩
  | .other name => .error (.unknownKind name)

/-- The history as the checker gets it. Of the operations with an unknown outcome only the
puts are kept. -/
def toHistory : List Op → Except CheckError (List (Operation KvInput KvOutput))
  | [] => .ok []
  | op :: ops =>
      if op.unknown = true ∧ op.kind ≠ .put then toHistory ops
      else do
        let pop ← convert op
        let history ← toHistory ops
        return pop :: history

section Checks

variable (checkOperations : Model KvOutput KvInput KvOutput →
  List (Operation KvInput KvOutput) → CheckResult)

def checkLinearizability (ops : List Op) : Except CheckError Bool := do
  let history ← toHistory ops
  match checkOperations kvModel history with
  | .ok => return true
  | .illegal => return false
  | .unknown => throw (.timedOut history.length)

/-- A key whose own history is rejected, and that history. The keys come in any order. -/
def findViolatingKey (ops : List Op) (keys : List Bytes) : Option (Bytes × List Op) :=
  (keys.find? fun key =>
    checkLinearizability checkOperations (ops.filter fun op => op.key = key) = .ok false).map
    fun key => (key, ops.filter fun op => op.key = key)

end Checks

section Meaning

/-- A register and an operation on it: puts and deletes always work, a get has to see what
is there. -/
def register (s : Option Bytes) (op : Op) : Option (Option Bytes) :=
  match op.kind with
  | .put => some (some op.value)
  | .delete => some none
  | .get => if s = (if op.found then some op.output else none) then some s else none
  | .other _ => none

/-- One register for each key. -/
def store : (Bytes → Option Bytes) → Op → Option (Bytes → Option Bytes) :=
  product Op.key register

/-- The operations take effect one after the other at points of time, from their invocation
on and, if they were acknowledged, before they returned; and every get sees what is there. -/
structure Explains (m : List (Op × Int)) : Prop where
  sorted : m.Pairwise fun x y => x.2 ≤ y.2
  invoked : ∀ x ∈ m, x.1.invoke.toInt ≤ x.2
  returned : ∀ x ∈ m, x.1.unknown = false → x.2 ≤ x.1.ret.toInt
  legal : ((m.map Prod.fst).foldlM store fun _ => none).isSome

/-- The acknowledged operations and some of the unknown ones that may have taken effect
explain the history. -/
def Explained (may : Op → Bool) (ops : List Op) : Prop :=
  ∃ took, took.Sublist (ops.filter fun op => op.unknown && may op) ∧
    ∃ m, (m.map Prod.fst).Perm (ops.filter (fun op => !op.unknown) ++ took) ∧ Explains m

def isPut (op : Op) : Bool :=
  op.kind = .put

end Meaning

section Exactness

variable {checkOperations : Model KvOutput KvInput KvOutput →
  List (Operation KvInput KvOutput) → CheckResult}
variable {ops : List Op} {op : Op}

def Op.known (op : Op) : Bool :=
  match op.kind with
  | .other _ => false
  | _ => true

/-- What the checker sees of an operation of a known kind. -/
def seen (op : Op) : Operation KvInput KvOutput where
  call := op.invoke
  ret := if isPut op ∧ op.unknown then Int64.maxValue else op.ret
  input := ⟨op.kind, op.key, if isPut op then op.value else []⟩
  output := if op.kind = .get then ⟨op.found, op.output⟩ else ⟨false, []⟩

theorem convert_eq (h : op.known = true) : convert op = .ok (seen op) := by
  unfold convert seen isPut
  cases hk : op.kind with
  | other name => simp [Op.known, hk] at h
  | put | get | delete => simp

/-- The operations that are handed to the checker. -/
def given (ops : List Op) : List Op :=
  ops.filter fun op => !op.unknown || isPut op

theorem toHistory_eq (h : ∀ op ∈ ops, op.known = true) :
    toHistory ops = .ok ((given ops).map seen) := by
  induction ops with
  | nil => rfl
  | cons op ops ih =>
      have hops := ih fun o ho => h o (List.mem_cons_of_mem _ ho)
      unfold toHistory given
      by_cases hskip : op.unknown = true ∧ op.kind ≠ .put
      · rw [if_pos hskip, hops, List.filter_cons_of_neg (by simp [isPut, hskip])]
        rfl
      · rw [if_neg hskip, convert_eq (h op List.mem_cons_self), hops, List.filter_cons_of_pos]
        · rfl
        · by_cases hun : op.unknown = true
          · simp [isPut, not_not.mp fun hne => hskip ⟨hun, hne⟩]
          · simp [hun]

def opened (op : Op) : Int :=
  op.invoke.toInt

def closed (op : Op) : Int :=
  (seen op).ret.toInt

theorem mem_given (h : op ∈ given ops) :
    op ∈ ops ∧ (op.unknown = false ∨ op.unknown = true ∧ isPut op = true) := by
  obtain ⟨hmem, hgiven⟩ := List.mem_filter.mp h
  refine ⟨hmem, ?_⟩
  cases hun : op.unknown with
  | false => exact Or.inl rfl
  | true =>
      rw [hun] at hgiven
      exact Or.inr ⟨rfl, hgiven⟩

theorem allows_iff (history : List (Operation KvInput KvOutput)) :
    kvModel.Allows history ↔ ∀ key : Bytes,
      Linearizable Operation.calledAt Operation.returnedAt kvModel.advance kvModel.init
        (history.filter fun op => op.input.key = key) := by
  constructor
  · intro hall key
    by_cases hkey : key ∈ history.map fun op => op.input.key
    · exact hall _ (List.mem_map.mpr ⟨key, List.mem_dedup.mpr hkey, rfl⟩)
    · have hnone : (history.filter fun op => op.input.key = key) = [] := by
        refine List.filter_eq_nil_iff.mpr fun op hop heq => hkey ?_
        exact List.mem_map.mpr ⟨op, hop, of_decide_eq_true heq⟩
      rw [hnone]
      exact linearizable_nil
  · intro hall part hpart
    obtain ⟨key, -, rfl⟩ := List.mem_map.mp hpart
    exact hall key

theorem allows_iff_of_verdict (hcheck : Decides checkOperations)
    (h : ∀ op ∈ ops, op.known = true) {accepted : Bool}
    (hverdict : checkLinearizability checkOperations ops = .ok accepted) :
    accepted = true ↔ kvModel.Allows ((given ops).map seen) := by
  simp only [checkLinearizability, toHistory_eq h, bind, Except.bind] at hverdict
  cases hres : checkOperations kvModel ((given ops).map seen) with
  | ok =>
      rw [hres] at hverdict
      cases hverdict
      exact iff_of_true rfl (hcheck.ok hres)
  | illegal =>
      rw [hres] at hverdict
      cases hverdict
      exact iff_of_false Bool.false_ne_true (hcheck.illegal hres)
  | unknown =>
      rw [hres] at hverdict
      cases hverdict

theorem exists_violating_key (hcheck : Decides checkOperations) (h : ∀ op ∈ ops, op.known = true)
    (hrejected : checkLinearizability checkOperations ops = .ok false) {keys : List Bytes}
    (hkeys : ∀ op ∈ ops, op.key ∈ keys)
    (hanswered : ∀ key ∈ keys, ∃ accepted,
      checkLinearizability checkOperations (ops.filter fun op => op.key = key) = .ok accepted) :
    ∃ key, findViolatingKey checkOperations ops keys =
      some (key, ops.filter fun op => op.key = key) ∧
      checkLinearizability checkOperations (ops.filter fun op => op.key = key) = .ok false := by
  have hpart : ∀ key, ∀ op ∈ ops.filter (fun op => op.key = key), op.known = true :=
    fun key op hop => h op (List.mem_of_mem_filter hop)
  cases hfind : keys.find? fun key =>
      checkLinearizability checkOperations (ops.filter fun op => op.key = key) = .ok false with
  | some key =>
      have hkey := List.find?_some hfind
      refine ⟨key, ?_, of_decide_eq_true hkey⟩
      rw [findViolatingKey, hfind]
      rfl
  | none =>
      refine absurd ((allows_iff_of_verdict hcheck h hrejected).mpr ?_) Bool.false_ne_true
      refine (allows_iff _).mpr fun key => ?_
      by_cases hkey : key ∈ keys
      · obtain ⟨accepted, hverdict⟩ := hanswered key hkey
        have hne := List.find?_eq_none.mp hfind key hkey
        rw [decide_eq_true_eq, hverdict, Except.ok.injEq, Bool.not_eq_false] at hne
        have hallows := (allows_iff _).mp
          ((allows_iff_of_verdict hcheck (hpart key) hverdict).mp hne) key
        have hsame : ((given (ops.filter fun op => op.key = key)).map seen).filter
            (fun op => op.input.key = key) =
            ((given ops).map seen).filter fun op => op.input.key = key := by
          unfold given
          rw [List.filter_map, List.filter_map, List.filter_filter, List.filter_filter,
            List.filter_filter]
          congr 1
          refine List.filter_congr fun op _ => ?_
          change (decide (op.key = key) && _ && decide (op.key = key)) =
            (decide (op.key = key) && _)
          cases decide (op.key = key) <;> simp
        exact hsame ▸ hallows
      · have hnone : (((given ops).map seen).filter fun op => op.input.key = key) = [] := by
          refine List.filter_eq_nil_iff.mpr fun pop hpop heq => hkey ?_
          obtain ⟨op, hop, rfl⟩ := List.mem_map.mp hpop
          exact of_decide_eq_true heq ▸ hkeys op (mem_given hop).1
        rw [hnone]
        exact linearizable_nil

end Exactness

end RaftKV.Nemesis.Checker
