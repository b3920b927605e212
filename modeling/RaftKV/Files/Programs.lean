import RaftKV.Files.Directories

/-!
Programs that make system calls on files, the states in which they can be killed
or in which their calls can fail, and a logic to reason about both.
-/

namespace RaftKV.Files.Programs

open Files.Directories

abbrev Volume (V : Type) := V → Directory

/-- The calls that change files or can fail: creating a file that must not exist,
opening one for writing from scratch, and so on. -/
inductive Call (V : Type)
  | create (dir : V) (name : Nat)
  | reset (dir : V) (name : Nat)
  | append (dir : V) (name : Nat) (data : List UInt8)
  | truncate (dir : V) (name size : Nat)
  | rename (dir : V) (name : Nat) (dir' : V) (name' : Nat)
  | remove (dir : V) (name : Nat)
  | sync (dir : V) (name : Nat)
  | syncDir (dir : V)

/-- A program reads the volume, makes calls that succeed or fail, and returns. -/
inductive Prog (V α : Type)
  | ret (a : α)
  | call (c : Call V) (k : Bool → Prog V α)
  | look (k : Volume V → Prog V α)

namespace Prog

variable {V α β : Type}

def bind : Prog V α → (α → Prog V β) → Prog V β
  | .ret a, f => f a
  | .call c k, f => .call c fun ok => (k ok).bind f
  | .look k, f => .look fun d => (k d).bind f

instance : Monad (Prog V) where
  pure := .ret
  bind := bind

/-- Make a call and go on, or give up if it fails. -/
def attempt (c : Call V) (giveUp next : Prog V α) : Prog V α :=
  .call c fun ok => if ok then next else giveUp

/-- Remove files one after the other until a removal fails. -/
def removeAll (dir : V) : List Nat → Prog V Bool
  | [] => .ret true
  | name :: names => attempt (.remove dir name) (.ret false) (removeAll dir names)

/-- Remove files, whether or not the removals succeed. -/
def discardAll (dir : V) : List Nat → Prog V Unit
  | [] => .ret ()
  | name :: names => .call (.remove dir name) fun _ => discardAll dir names

end Prog

section Semantics

variable {V α β : Type} [DecidableEq V]

def write (d : Volume V) (dir : V) (name : Nat) (data : List UInt8) : Volume V :=
  Function.update d dir ((d dir).insert name data)

def erase (d : Volume V) (dir : V) (name : Nat) : Volume V :=
  Function.update d dir ((d dir).erase name)

@[simp]
theorem write_same (d : Volume V) (dir : V) (name : Nat) (data : List UInt8) :
    write d dir name data dir = (d dir).insert name data :=
  Function.update_self dir _ d

theorem write_of_ne {dir dir' : V} (h : dir' ≠ dir) (d : Volume V) (name : Nat)
    (data : List UInt8) : write d dir name data dir' = d dir' :=
  Function.update_of_ne h _ d

@[simp]
theorem erase_same (d : Volume V) (dir : V) (name : Nat) :
    erase d dir name dir = (d dir).erase name :=
  Function.update_self dir _ d

theorem erase_of_ne {dir dir' : V} (h : dir' ≠ dir) (d : Volume V) (name : Nat) :
    erase d dir name dir' = d dir' :=
  Function.update_of_ne h _ d

theorem write_eq_self {d : Volume V} {dir : V} {name : Nat} {b : List UInt8}
    (h : (d dir)[name]? = some b) : write d dir name b = d := by
  have hdir : (d dir).insert name b = d dir := by
    apply Std.ExtTreeMap.ext_getElem?
    intro n
    rw [Std.ExtTreeMap.getElem?_insert]
    split
    · rename_i heq
      rw [← Std.compare_eq_iff_eq.mp heq, h]
    · rfl
  rw [write, hdir, Function.update_eq_self]

/-- The effect of a call, if it can succeed. -/
def effect (d : Volume V) : Call V → Option (Volume V)
  | .create dir name =>
      match (d dir)[name]? with
      | none => some (write d dir name [])
      | some _ => none
  | .reset dir name => some (write d dir name [])
  | .append dir name data => (d dir)[name]?.map fun b => write d dir name (b ++ data)
  | .truncate dir name size => (d dir)[name]?.map fun b => write d dir name (b.take size)
  | .rename dir name dir' name' =>
      (d dir)[name]?.map fun b => write (erase d dir name) dir' name' b
  | .remove dir name => (d dir)[name]?.map fun _ => erase d dir name
  | .sync dir name => (d dir)[name]?.map fun _ => d
  | .syncDir _ => some d

/-- What a call that is interrupted or fails can leave behind: what was there, or the
first bytes of what was to be appended. -/
inductive Torn (d : Volume V) : Call V → Volume V → Prop
  | untouched (c : Call V) : Torn d c d
  | part {dir : V} {name : Nat} {data b : List UInt8} (n : Nat) (h : (d dir)[name]? = some b) :
      Torn d (.append dir name data) (write d dir name (b ++ data.take n))

/-- A run in which every call that can succeed does. -/
def run : Prog V α → Volume V → α × Volume V
  | .ret a, d => (a, d)
  | .call c k, d =>
      match effect d c with
      | some d' => run (k true) d'
      | none => run (k false) d
  | .look k, d => run (k d) d

theorem run_bind (p : Prog V α) (f : α → Prog V β) (d : Volume V) :
    run (p >>= f) d = run (f (run p d).1) (run p d).2 := by
  induction p generalizing d with
  | ret a => rfl
  | call c k ih =>
      change run (.call c fun ok => k ok >>= f) d = _
      rw [run, run]
      cases effect d c with
      | some d' => exact ih true d'
      | none => exact ih false d
  | look k ih => exact ih d d

/-- Killing such a run, or one in which calls may fail, can leave the volume `d'`. -/
inductive Killed (faults : Prop) : Prog V α → Volume V → Volume V → Prop
  | now (p : Prog V α) (d : Volume V) : Killed faults p d d
  | during {c : Call V} {k : Bool → Prog V α} {d d' : Volume V} (h : Torn d c d') :
      Killed faults (.call c k) d d'
  | done {c : Call V} {k : Bool → Prog V α} {d d' d'' : Volume V} (he : effect d c = some d')
      (h : Killed faults (k true) d' d'') : Killed faults (.call c k) d d''
  | refused {c : Call V} {k : Bool → Prog V α} {d d' : Volume V} (he : effect d c = none)
      (h : Killed faults (k false) d d') : Killed faults (.call c k) d d'
  | failed {c : Call V} {k : Bool → Prog V α} {d d' d'' : Volume V} (hf : faults)
      (ht : Torn d c d') (h : Killed faults (k false) d' d'') : Killed faults (.call c k) d d''
  | looked {k : Volume V → Prog V α} {d d' : Volume V} (h : Killed faults (k d) d d') :
      Killed faults (.look k) d d'

/-- A run to the end, in which with `faults` any call may fail. -/
inductive Exec (faults : Prop) : Prog V α → Volume V → α → Volume V → Prop
  | ret (a : α) (d : Volume V) : Exec faults (.ret a) d a d
  | done {c : Call V} {k : Bool → Prog V α} {d d' d'' : Volume V} {a : α}
      (he : effect d c = some d') (h : Exec faults (k true) d' a d'') :
      Exec faults (.call c k) d a d''
  | refused {c : Call V} {k : Bool → Prog V α} {d d' : Volume V} {a : α}
      (he : effect d c = none) (h : Exec faults (k false) d a d') : Exec faults (.call c k) d a d'
  | failed {c : Call V} {k : Bool → Prog V α} {d d' d'' : Volume V} {a : α} (hf : faults)
      (ht : Torn d c d') (h : Exec faults (k false) d' a d'') : Exec faults (.call c k) d a d''
  | looked {k : Volume V → Prog V α} {d d' : Volume V} {a : α} (h : Exec faults (k d) d a d') :
      Exec faults (.look k) d a d'

theorem exec_of_run {faults : Prop} {p : Prog V α} {d d' : Volume V} {a : α}
    (h : run p d = (a, d')) : Exec faults p d a d' := by
  induction p generalizing d with
  | ret b =>
      cases h
      exact .ret _ _
  | call c k ih =>
      rw [run] at h
      cases he : effect d c with
      | some e =>
          rw [he] at h
          exact .done he (ih true h)
      | none =>
          rw [he] at h
          exact .refused he (ih false h)
  | look k ih => exact .looked (ih d h)

/-- The program ends with `Q`, and `K` holds wherever it can be killed; with `faults` also
when calls fail that could have succeeded. -/
def Holds (faults : Prop) (Q : α → Volume V → Prop) (K : Volume V → Prop) :
    Prog V α → Volume V → Prop
  | .ret a, d => K d ∧ Q a d
  | .call c k, d =>
      (∀ d', Torn d c d' → K d' ∧ (faults → Holds faults Q K (k false) d')) ∧
        match effect d c with
        | some d' => Holds faults Q K (k true) d'
        | none => Holds faults Q K (k false) d
  | .look k, d => Holds faults Q K (k d) d

variable {faults : Prop} {Q Q' : α → Volume V → Prop} {K K' : Volume V → Prop}

theorem holds_call {c : Call V} {k : Bool → Prog V α} {d : Volume V} :
    Holds faults Q K (.call c k) d ↔
      (∀ d', Torn d c d' → K d' ∧ (faults → Holds faults Q K (k false) d')) ∧
        Holds faults Q K (k (effect d c).isSome) ((effect d c).getD d) := by
  rw [Holds]
  cases effect d c <;> rfl

theorem holds_start {p : Prog V α} {d : Volume V} (h : Holds faults Q K p d) : K d := by
  induction p generalizing d with
  | ret a => exact h.1
  | call c k ih => exact (h.1 d (.untouched c)).1
  | look k ih => exact ih d h

theorem holds_mono {p : Prog V α} {d : Volume V} (h : Holds faults Q K p d)
    (hQ : ∀ a d, K d → Q a d → Q' a d) (hK : ∀ d, K d → K' d) : Holds faults Q' K' p d := by
  induction p generalizing d with
  | ret a => exact ⟨hK d h.1, hQ a d h.1 h.2⟩
  | call c k ih =>
      obtain ⟨htorn, hnext⟩ := holds_call.mp h
      refine holds_call.mpr ⟨fun d' ht => ?_, ih _ hnext⟩
      exact ⟨hK d' (htorn d' ht).1, fun hf => ih false ((htorn d' ht).2 hf)⟩
  | look k ih => exact ih d h

theorem holds_bind {p : Prog V α} {f : α → Prog V β} {d : Volume V} {Q : β → Volume V → Prop}
    (h : Holds faults (fun a d => Holds faults Q K (f a) d) K p d) :
    Holds faults Q K (p >>= f) d := by
  induction p generalizing d with
  | ret a => exact h.2
  | call c k ih =>
      obtain ⟨htorn, hnext⟩ := holds_call.mp h
      refine holds_call.mpr ⟨fun d' ht => ?_, ih _ hnext⟩
      exact ⟨(htorn d' ht).1, fun hf => ih false ((htorn d' ht).2 hf)⟩
  | look k ih => exact ih d h

theorem holds_killed {p : Prog V α} {d d' : Volume V} (h : Holds faults Q K p d)
    (hk : Killed faults p d d') : K d' := by
  induction hk with
  | now p d => exact holds_start h
  | during ht => exact (h.1 _ ht).1
  | done he _ ih =>
      have hnext := h.2
      rw [he] at hnext
      exact ih hnext
  | refused he _ ih =>
      have hnext := h.2
      rw [he] at hnext
      exact ih hnext
  | failed hf ht _ ih => exact ih ((h.1 _ ht).2 hf)
  | looked _ ih => exact ih h

theorem holds_exec {p : Prog V α} {d d' : Volume V} {a : α} (h : Holds faults Q K p d)
    (hx : Exec faults p d a d') : Q a d' := by
  induction hx with
  | ret a d => exact h.2
  | done he _ ih =>
      have hnext := h.2
      rw [he] at hnext
      exact ih hnext
  | refused he _ ih =>
      have hnext := h.2
      rw [he] at hnext
      exact ih hnext
  | failed hf ht _ ih => exact ih ((h.1 _ ht).2 hf)
  | looked _ ih => exact ih h

theorem holds_look {k : Volume V → Prog V α} {d : Volume V} (h : Holds faults Q K (k d) d) :
    Holds faults Q K (.look k) d :=
  h

theorem holds_run {p : Prog V α} {d : Volume V} (h : Holds faults Q K p d) :
    Q (run p d).1 (run p d).2 :=
  holds_exec h (exec_of_run rfl)

theorem holds_attempt {c : Call V} {giveUp next : Prog V α} {d : Volume V}
    (htorn : ∀ d', Torn d c d' → K d' ∧ (faults → Holds faults Q K giveUp d'))
    (hdone : ∀ d', effect d c = some d' → Holds faults Q K next d')
    (hrefused : effect d c = none → Holds faults Q K giveUp d) :
    Holds faults Q K (Prog.attempt c giveUp next) d := by
  refine ⟨htorn, ?_⟩
  cases he : effect d c with
  | some d' => exact hdone d' he
  | none => exact hrefused he

theorem holds_attempt_some {c : Call V} {giveUp next : Prog V α} {d e : Volume V}
    (he : effect d c = some e)
    (htorn : ∀ d', Torn d c d' → K d' ∧ (faults → Holds faults Q K giveUp d'))
    (hnext : Holds faults Q K next e) : Holds faults Q K (Prog.attempt c giveUp next) d := by
  refine holds_attempt htorn ?_ ?_
  · intro d' he'
    rw [he] at he'
    cases he'
    exact hnext
  · intro he'
    rw [he] at he'
    cases he'

theorem holds_removeAll {dir : V} {l rest : List (Nat × List UInt8)} {d : Volume V}
    {Q : Bool → Volume V → Prop} (hlist : (d dir).toList = l ++ rest)
    (hK : ∀ d' left, left <:+ l → (d' dir).toList = left ++ rest →
      (∀ dir' ≠ dir, d' dir' = d dir') → K d')
    (hdone : ∀ d', (d' dir).toList = rest → (∀ dir' ≠ dir, d' dir' = d dir') → Q true d')
    (hfailed : faults → ∀ d' left, left <:+ l → (d' dir).toList = left ++ rest →
      (∀ dir' ≠ dir, d' dir' = d dir') → Q false d') :
    Holds faults Q K (Prog.removeAll dir (l.map Prod.fst)) d := by
  induction l generalizing d with
  | nil => exact ⟨hK d [] List.suffix_rfl hlist fun _ _ => rfl, hdone d hlist fun _ _ => rfl⟩
  | cons file l ih =>
      obtain ⟨name, b⟩ := file
      have hmem : (name, b) ∈ (d dir).toList := by
        rw [hlist]
        simp
      have hfile : (d dir)[name]? = some b := mem_toList.mp hmem
      have hstart := hK d _ List.suffix_rfl hlist fun _ _ => rfl
      have he : effect d (.remove dir name) = some (erase d dir name) := by
        rw [effect, hfile]
        rfl
      refine holds_attempt_some he ?_ ?_
      · intro d' ht
        cases ht
        exact ⟨hstart, fun hf => ⟨hstart, hfailed hf d _ List.suffix_rfl hlist fun _ _ => rfl⟩⟩
      · have hother : ∀ dir' ≠ dir, erase d dir name dir' = d dir' := fun dir' hne =>
          erase_of_ne hne d name
        refine ih ?_ ?_ ?_ ?_
        · rw [erase_same]
          exact toList_erase_head hlist
        · intro d' left hleft hl ho
          exact hK d' left (hleft.trans (List.suffix_cons _ _)) hl fun dir' hne =>
            (ho dir' hne).trans (hother dir' hne)
        · intro d' hl ho
          exact hdone d' hl fun dir' hne => (ho dir' hne).trans (hother dir' hne)
        · intro hf d' left hleft hl ho
          exact hfailed hf d' left (hleft.trans (List.suffix_cons _ _)) hl fun dir' hne =>
            (ho dir' hne).trans (hother dir' hne)

theorem holds_discardAll {dir : V} {names : List Nat} {d : Volume V}
    {Q : Unit → Volume V → Prop} (hK : ∀ d', (∀ dir' ≠ dir, d' dir' = d dir') → K d')
    (hdone : ∀ d', (∀ dir' ≠ dir, d' dir' = d dir') → Q () d') :
    Holds faults Q K (Prog.discardAll dir names) d := by
  induction names generalizing d with
  | nil => exact ⟨hK d fun _ _ => rfl, hdone d fun _ _ => rfl⟩
  | cons name names ih =>
      have hsame := ih hK hdone
      refine ⟨?_, ?_⟩
      · intro d' ht
        cases ht
        exact ⟨hK d fun _ _ => rfl, fun _ => hsame⟩
      · rw [effect]
        cases (d dir)[name]? with
        | none => exact hsame
        | some b =>
            have hother : ∀ dir' ≠ dir, erase d dir name dir' = d dir' := fun dir' hne =>
              erase_of_ne hne d name
            exact ih (fun d' ho => hK d' fun dir' hne => (ho dir' hne).trans (hother dir' hne))
              fun d' ho => hdone d' fun dir' hne => (ho dir' hne).trans (hother dir' hne)

end Semantics

end RaftKV.Files.Programs
