import RaftKV.KV.Acknowledgements
import RaftKV.KV.Agreement
import RaftKV.Safety.ClientHistories

namespace RaftKV.KV.Histories

open Distributed.Network
open Distributed.Linearizability (Linearizable)
open Raft hiding Command Response
open Raft.Cluster Raft.EventLoop
open Refinement.Projection
open Safety.Proposals hiding delivered
open Safety.Precedence Safety.Replicas
open Safety.ClientHistories hiding Wrote Completed Pending fits_wrote
open RaftKV.Store
open KV.Sessions KV.Services
open KV.Agreement (Table tableOf tableOf_applyCommand)
open KV.Acknowledgements

/-- A write in the name of a client, who numbers them. Client `0` has no session. -/
structure Mutation where
  client : UInt64
  serial : UInt64
  cmd : Commands.Command
  deriving DecidableEq

def Mutation.twin (w w' : Mutation) : Prop :=
  w'.client = w.client ∧ w'.serial = w.serial

def mutationOf (e : Entry) : Option Mutation :=
  (commandOf e).map fun p => ⟨p.1.clientID, p.1.serial, p.2⟩

def asks : Msg → Option Mutation
  | .propose command _ => mutationOf ⟨0, 0, .normal, command⟩
  | _ => none

section Attempts

variable {G : Gob} {L : List Entry} {e e' : Entry} {w w' : Mutation} {j : NodeCall Machine}
variable {done : Chan}

theorem mutationOf_eq_some : mutationOf e = some w ↔
    ∃ c, commandOf e = some (c, w.cmd) ∧ c.clientID = w.client ∧ c.serial = w.serial := by
  unfold mutationOf
  rw [Option.map_eq_some_iff]
  constructor
  · rintro ⟨⟨c, cmd⟩, hcmd, rfl⟩
    exact ⟨c, hcmd, rfl, rfl⟩
  · rintro ⟨c, hcmd, hclient, hserial⟩
    exact ⟨(c, w.cmd), hcmd, by rw [hclient, hserial]⟩

theorem carries_of_mutationOf (h : mutationOf e = some w) : Carries e w.client w.serial := by
  obtain ⟨c, hcmd, hclient, hserial⟩ := mutationOf_eq_some.mp h
  exact ⟨c, w.cmd, hcmd, hclient, hserial⟩

theorem exists_mutationOf {client serial : UInt64} (h : Carries e client serial) :
    ∃ w, mutationOf e = some w ∧ w.client = client ∧ w.serial = serial := by
  obtain ⟨c, cmd, hcmd, rfl, rfl⟩ := h
  exact ⟨⟨c.clientID, c.serial, cmd⟩, mutationOf_eq_some.mpr ⟨c, hcmd, rfl, rfl⟩, rfl, rfl⟩

theorem asks_envelope {client serial : UInt64} {cmd : Commands.Command}
    (h : (envelope client serial cmd).length ≤ maxCommandLen) (done : Chan) :
    asks (.propose (envelope client serial cmd) done) = some ⟨client, serial, cmd⟩ :=
  mutationOf_eq_some.mpr ⟨_, commandOf_envelope h, rfl, rfl⟩

theorem asks_of_takes (h : Takes j e done) : asks j.input = mutationOf e := by
  obtain ⟨term, index, type, command⟩ := e
  obtain rfl : type = .normal := h.type
  rw [h.input]
  rfl

theorem type_of_mutationOf (h : mutationOf e = some w) : e.type = .normal := by
  obtain ⟨c, hcmd, -, -⟩ := mutationOf_eq_some.mp h
  by_contra htype
  rw [commandOf, if_neg htype] at hcmd
  cases hcmd

theorem exists_mutationOf_of_tookEffect (h : TookEffect G L e) : ∃ w, mutationOf e = some w := by
  obtain ⟨c, cmd, hcmd, -⟩ := h
  exact ⟨⟨c.clientID, c.serial, cmd⟩, mutationOf_eq_some.mpr ⟨c, hcmd, rfl, rfl⟩⟩

theorem mark_lt_of_tookEffect (h : TookEffect G L e) (hw : mutationOf e = some w)
    (hclient : w.client ≠ 0) : (before G L e).mark w.client < w.serial := by
  obtain ⟨c, cmd, hcmd, hnew, -⟩ := h
  obtain ⟨c', hcmd', hclient', hserial'⟩ := mutationOf_eq_some.mp hw
  obtain ⟨rfl, -⟩ := Prod.mk.inj (Option.some.inj (hcmd'.symm.trans hcmd))
  rw [← hclient', ← hserial']
  exact hnew (hclient' ▸ hclient)

theorem eq_of_tookEffect (hL : Numbered 0 L) (he : e ∈ L) (he' : e' ∈ L) (h : TookEffect G L e)
    (h' : TookEffect G L e') (hw : mutationOf e = some w) (hw' : mutationOf e' = some w')
    (hclient : w.client ≠ 0) (htwin : w.twin w') : e = e' := by
  have hnot : ∀ {a b : Entry} {v v' : Mutation}, a ∈ L → mutationOf a = some v →
      mutationOf b = some v' → v.client ≠ 0 → v'.client = v.client → v'.serial = v.serial →
      TookEffect G L b → ¬a.index < b.index := by
    intro a b v v' ha hv hv' hne hsame hserial hb hlt
    have hle := serial_le_mark (G := G) hne (mem_take_of_numbered hL ha hlt)
      (carries_of_mutationOf hv)
    have hgt := mark_lt_of_tookEffect hb hv' (hsame ▸ hne)
    rw [hsame, hserial] at hgt
    exact UInt64.not_lt.mpr hle hgt
  refine eq_of_numbered hL he he' (Nat.le_antisymm (Nat.not_lt.mp ?_) (Nat.not_lt.mp ?_))
  · exact hnot he' hw' hw (htwin.1 ▸ hclient) htwin.1.symm htwin.2.symm h
  · exact hnot he hw hw' hclient htwin.1 htwin.2 h'

theorem image_of_not_tookEffect (hL : Numbered 0 L) {p : Nat} (he : L[p]? = some e)
    (h : ¬TookEffect G L e) :
    image (stateMachine G) (L.take (p + 1)) = image (stateMachine G) (L.take p) := by
  rw [image_take_succ he]
  rcases commandOf_cases (G := G) e with ⟨-, hfeed⟩ | ⟨c, cmd, hcmd, hc, -, hfeed⟩
  · exact hfeed _
  · by_cases hnew : c.clientID ≠ 0 → (before G L e).mark c.clientID < c.serial
    · exact absurd (tookEffect_of_admitted hL (List.mem_of_getElem? he) hcmd hnew) h
    · obtain ⟨hclient, hle⟩ := Classical.not_imp.mp hnew
      rw [hfeed]
      refine apply_of_spent e.index hc hclient (Or.inl ?_)
      have hindex := hL p e he
      rw [before, hindex, Nat.zero_add, Nat.add_sub_cancel] at hle
      exact UInt64.not_lt.mp hle

end Attempts

section Sessions

variable {κ β : Type}

/-- Turn `m` proposes the write and, in a session, is the first to do so. -/
structure Opens (calls : List (NodeCall Machine)) (w : Mutation) (m : Nat) : Prop where
  turn : ∃ j, calls[m]? = some j ∧ asks j.input = some w
  first : w.client ≠ 0 → ∀ (p : Nat) j w', calls[p]? = some j → asks j.input = some w' →
    w.twin w' → m ≤ p

/-- One of the proposals of the write, on a channel of its own, was acknowledged. -/
def Wrote (calls : List (NodeCall Machine)) (o : Operation Mutation κ β) (w : Mutation) : Prop :=
  Opens calls w o.call ∧
  ∃ (j k : NodeCall Machine) (command : RaftKV.Raft.Command) (done : Chan) (p n : Nat),
    calls[p]? = some j ∧ j.input = .propose command done ∧ asks j.input = some w ∧
    (w.client = 0 → p = o.call) ∧
    (∀ (p' : Nat) j', calls[p']? = some j' → opens j'.input = some done → p' = p) ∧
    calls[n]? = some k ∧ .answered done (.ok ()) ∈ k.post.effects ∧ o.ret = n

def Completed (G : Gob) (calls : List (NodeCall Machine))
    (o : Operation Mutation Bytes (Option Bytes)) : Prop :=
  match o.kind with
  | .write w => Wrote calls o w
  | .read key answer => ReadOff (stateMachine G) (fun key sm => sm.get key) calls o key answer

/-- A write of which its client has heard nothing yet. -/
def Pending (calls : List (NodeCall Machine)) (o : Operation Mutation κ β) : Prop :=
  o.ret = ⊤ ∧ ∃ w, o.kind = .write w ∧ Opens calls w o.call

/-- What clients with a session keep to: serials start at 1, one serial is one write, and after
the acknowledgement of a write the next ones have larger serials. -/
structure Orderly (calls : List (NodeCall Machine)) (ops : List (Operation Mutation κ β)) :
    Prop where
  positive : ∀ j ∈ calls, ∀ w, asks j.input = some w → w.client ≠ 0 → w.serial ≠ 0
  single : ∀ j ∈ calls, ∀ j' ∈ calls, ∀ w w', asks j.input = some w → asks j'.input = some w' →
    w.client ≠ 0 → w.twin w' → w' = w
  onward : ∀ o ∈ ops, ∀ w, o.kind = .write w → w.client ≠ 0 → ∀ (p : Nat) j w',
    calls[p]? = some j → asks j.input = some w' → w'.client = w.client → w.serial < w'.serial →
    o.ret < p

/-- The write in the entry was opened by turn `m`. Without a session that turn has taken the
entry. -/
structure Begins (calls : List (NodeCall Machine)) (m : Nat) (w : Mutation) (e : Entry) :
    Prop extends Opens calls w m where
  carries : mutationOf e = some w
  bare : w.client = 0 → ∃ (j : NodeCall Machine) (done : Chan), calls[m]? = some j ∧ Takes j e done
  taken : ∃ (m' : Nat) (j : NodeCall Machine) (done : Chan), m ≤ m' ∧ calls[m']? = some j ∧
    Takes j e done

def serve (t : Table) (o : Operation Mutation Bytes (Option Bytes)) : Option Table :=
  perform (fun t w => t.apply w.cmd) (fun key t => t key) t o

def tableAfter (G : Gob) (L : List Entry) : Table :=
  tableOf (image (stateMachine G) L).data

end Sessions

section Histories

variable {G : Gob} {D : Deployment} {threshold : ID → Nat} {s : NodeState Machine}
variable {L : List Entry} {e : Entry} {w : Mutation}
variable {ops : List (Operation Mutation Bytes (Option Bytes))}
variable {o : Operation Mutation Bytes (Option Bytes)}

theorem exists_opens (ho : Orderly s.trace ops) {p : Nat} {j : NodeCall Machine}
    (hj : s.trace[p]? = some j) (hasks : asks j.input = some w) (hclient : w.client ≠ 0) :
    ∃ m ≤ p, Opens s.trace w m := by
  classical
  have hex : ∃ (m : Nat) (j' : NodeCall Machine) (w' : Mutation), s.trace[m]? = some j' ∧
      asks j'.input = some w' ∧ w.twin w' :=
    ⟨p, j, w, hj, hasks, rfl, rfl⟩
  obtain ⟨j', w', hj', hasks', htwin⟩ := Nat.find_spec hex
  refine ⟨Nat.find hex, Nat.find_min' hex ⟨j, w, hj, hasks, rfl, rfl⟩, ⟨j', hj', ?_⟩, ?_⟩
  · rw [hasks', ho.single j (List.mem_of_getElem? hj) j' (List.mem_of_getElem? hj') w w' hasks
      hasks' hclient htwin]
  · intro _ q j₁ w₁ hj₁ hasks₁ htwin₁
    exact Nat.find_min' hex ⟨j₁, w₁, hj₁, hasks₁, htwin₁⟩

theorem exists_begins (hs : Reachable (nodeSystem D (stateMachine G) threshold) s)
    (ho : Orderly s.trace ops) (hL : CommittedLog s.trace L) (he : e ∈ L)
    (hw : mutationOf e = some w) : ∃ m, Begins s.trace m w e := by
  obtain ⟨k, hk, hmem, -⟩ := hL.committed e he
  obtain ⟨n, hn⟩ := List.mem_iff_getElem?.mp hk
  obtain ⟨p, j, done, -, hj, htakes⟩ :=
    exists_takes hs hn (mem_delivered.mp hmem) (type_of_mutationOf hw)
  have hasks := (asks_of_takes htakes).trans hw
  by_cases hclient : w.client = 0
  · exact ⟨p, ⟨⟨j, hj, hasks⟩, fun hne => absurd hclient hne⟩, hw, fun _ => ⟨j, done, hj, htakes⟩,
      p, j, done, le_rfl, hj, htakes⟩
  · obtain ⟨m, hle, hopens⟩ := exists_opens ho hj hasks hclient
    exact ⟨m, hopens, hw, fun hzero => absurd hzero hclient, p, j, done, hle, hj, htakes⟩

theorem attribution_mutations (hs : Reachable (nodeSystem D (stateMachine G) threshold) s)
    (hreg : RegularNodes D s) (ho : Orderly s.trace ops) (hL : CommittedLog s.trace L) :
    Attribution s.trace L (TookEffect G L) (Begins s.trace) (fun t w => t.apply w.cmd)
      (tableAfter G) where
  proposed := by
    intro m w e h
    obtain ⟨j, hj, hasks⟩ := h.turn
    cases hin : j.input with
    | propose command done => exact ⟨j, command, done, hj, hin⟩
    | _ =>
        rw [hin] at hasks
        cases hasks
  taken := fun m w e h => h.taken
  begun := by
    intro e he h
    obtain ⟨w, hw⟩ := exists_mutationOf_of_tookEffect h
    obtain ⟨m, hbegins⟩ := exists_begins hs ho hL he hw
    exact ⟨m, w, hbegins⟩
  single := by
    intro e m m' w w' h h'
    obtain rfl := Option.some.inj (h.carries.symm.trans h'.carries)
    by_cases hclient : w.client = 0
    · obtain ⟨j, done, hj, htakes⟩ := h.bare hclient
      obtain ⟨j', done', hj', htakes'⟩ := h'.bare hclient
      exact eq_of_takes hs hreg hj hj' htakes htakes'
    · obtain ⟨j, hj, hasks⟩ := h.turn
      obtain ⟨j', hj', hasks'⟩ := h'.turn
      exact Nat.le_antisymm (h.first hclient m' j' w hj' hasks' ⟨rfl, rfl⟩)
        (h'.first hclient m j w hj hasks ⟨rfl, rfl⟩)
  distinct := by
    intro e he heffect e' he' heffect' m w w' h h'
    obtain ⟨j, hj, hasks⟩ := h.turn
    obtain ⟨j', hj', hasks'⟩ := h'.turn
    obtain rfl := Option.some.inj (hj.symm.trans hj')
    obtain rfl := Option.some.inj (hasks.symm.trans hasks')
    by_cases hclient : w.client = 0
    · obtain ⟨j₁, done, hj₁, htakes⟩ := h.bare hclient
      obtain ⟨j₂, done', hj₂, htakes'⟩ := h'.bare hclient
      obtain rfl := Option.some.inj (hj₁.symm.trans hj₂)
      exact eq_of_numbered hL.numbered he he' (index_eq_of_takes htakes htakes')
    · exact eq_of_tookEffect hL.numbered he he' heffect heffect' h.carries h'.carries hclient
        ⟨rfl, rfl⟩
  update := by
    rintro p e m w he ⟨c, cmd, hcmd, -, hdata⟩ h
    obtain ⟨c', hcmd', -, -⟩ := mutationOf_eq_some.mp h.carries
    obtain ⟨-, rfl⟩ := Prod.mk.inj (Option.some.inj (hcmd.symm.trans hcmd'))
    have hindex := hL.numbered p e he
    rw [before, hindex, Nat.zero_add, Nat.add_sub_cancel] at hdata
    rw [tableAfter, hdata, tableOf_applyCommand]
    rfl
  idle := by
    intro p e he h
    rw [tableAfter, image_of_not_tookEffect hL.numbered he h]
    rfl

theorem exists_effect (hs : Reachable (nodeSystem D (stateMachine G) threshold) s)
    (hreg : RegularNodes D s) (ho : Orderly s.trace ops) (hL : CommittedLog s.trace L)
    (hops : o ∈ ops) (hkind : o.kind = .write w) {n : Nat} {k : NodeCall Machine}
    (hk : s.trace[n]? = some k)
    (hret : o.ret = n) (he : .applied e ∈ k.post.effects) (hw : mutationOf e = some w) :
    ∃ e' ∈ L, TookEffect G L e' ∧ mutationOf e' = some w ∧ e'.index ≤ e.index ∧
      (w.client = 0 → e' = e) := by
  have hmem : e ∈ L := hL.complete k (List.mem_of_getElem? hk) e (mem_delivered.mpr he)
  have hturn : ∀ a ∈ L, ∀ v, mutationOf a = some v →
      ∃ (m : Nat) (j : NodeCall Machine) (done : Chan),
      s.trace[m]? = some j ∧ Takes j a done ∧ asks j.input = some v := by
    intro a ha v hv
    obtain ⟨k', hk', hmem', -⟩ := hL.committed a ha
    obtain ⟨n', hn'⟩ := List.mem_iff_getElem?.mp hk'
    obtain ⟨m, j, done, -, hj, htakes⟩ :=
      exists_takes hs hn' (mem_delivered.mp hmem') (type_of_mutationOf hv)
    exact ⟨m, j, done, hj, htakes, (asks_of_takes htakes).trans hv⟩
  obtain ⟨m₀, j₀, done₀, hj₀, -, hasks₀⟩ := hturn e hmem w hw
  have htimely : Timely L e w.client w.serial := by
    by_cases hclient : w.client = 0
    · exact Or.inl hclient
    refine Or.inr ⟨ho.positive j₀ (List.mem_of_getElem? hj₀) w hasks₀ hclient, ?_⟩
    -- the first entry with this serial comes before any with a larger one
    classical
    have hex : ∃ i, ∃ a ∈ L, a.index = i ∧ Carries a w.client w.serial :=
      ⟨e.index, e, hmem, rfl, carries_of_mutationOf hw⟩
    obtain ⟨e₁, he₁, hindex, hcarries⟩ := Nat.find_spec hex
    have hle : e₁.index ≤ e.index :=
      hindex ▸ Nat.find_min' hex ⟨e, hmem, rfl, carries_of_mutationOf hw⟩
    refine ⟨e₁, he₁, hle, hcarries, fun e₂ he₂ hlt serial' hcarries₂ => ?_⟩
    obtain ⟨v, hv, hvclient, rfl⟩ := exists_mutationOf hcarries₂
    refine UInt64.not_le.mp fun hge => ?_
    rcases UInt64.lt_or_eq_of_le hge with hgt | heq
    · obtain ⟨m, j, done, hj, htakes, hasks⟩ := hturn e₂ he₂ v hv
      have hlate := ho.onward o hops w hkind hclient m j v hj hasks hvclient hgt
      rw [hret] at hlate
      obtain ⟨k₂, hk₂, hmem₂, -⟩ := hL.committed e₂ he₂
      have := index_lt_of_takes hs hreg hj htakes (WithTop.coe_lt_coe.mp hlate) hk he hk₂
        (mem_delivered.mp hmem₂)
      omega
    · have := Nat.find_min' hex ⟨e₂, he₂, rfl, heq ▸ hcarries₂⟩
      omega
  rcases (tookEffect_iff_timely (G := G) hL.numbered hmem
    (carries_of_mutationOf hw)).mpr htimely with
    heffect | ⟨hclient, e', he', hlt, hcarries, heffect⟩
  · exact ⟨e, hmem, heffect, hw, le_rfl, fun _ => rfl⟩
  · obtain ⟨v, hv, hclient', hserial'⟩ := exists_mutationOf hcarries
    obtain ⟨m, j, done, hj, -, hasks⟩ := hturn e' he' v hv
    obtain rfl := ho.single j₀ (List.mem_of_getElem? hj₀) j (List.mem_of_getElem? hj) w v hasks₀
      hasks hclient ⟨hclient', hserial'⟩
    exact ⟨e', he', heffect, hv, hlt.le, fun hzero => absurd hzero hclient⟩

theorem fits_wrote (hs : Reachable (nodeSystem D (stateMachine G) threshold) s)
    (hreg : RegularNodes D s) (ho : Orderly s.trace ops) (hL : CommittedLog s.trace L)
    (hops : o ∈ ops) (hkind : o.kind = .write w) (h : Wrote s.trace o w) :
    ∃ p, Fits s.trace L (TookEffect G L) (Begins s.trace) (fun key t => t key)
      (tableAfter G) o p := by
  obtain ⟨hopens, j, k, command, done, p, n, hj, hin, hasks, hbare, honly, hk, hok, hret⟩ := h
  obtain ⟨e, hcommand, htakes, he⟩ := takes_of_answered hs hreg (List.mem_of_getElem? hj)
    (List.mem_of_getElem? hk) hin (fun j' hj' hopens' => by
      obtain ⟨p', hp'⟩ := List.mem_iff_getElem?.mp hj'
      rw [honly p' j' hp' hopens', hj] at hp'
      exact (Option.some.inj hp').symm) hok
  obtain ⟨m, j', done', hm, hj', htakes'⟩ := exists_takes hs hk he htakes.type
  obtain rfl := eq_of_takes hs hreg hj' hj htakes' htakes
  have hw : mutationOf e = some w := (asks_of_takes htakes).symm.trans hasks
  have hcall : o.call ≤ m := by
    by_cases hclient : w.client = 0
    · exact (hbare hclient).ge
    · exact hopens.first hclient m j w hj hasks ⟨rfl, rfl⟩
  obtain ⟨e', he', heffect, hw', hle, hsame⟩ :=
    exists_effect hs hreg ho hL hops hkind hk hret he hw
  obtain ⟨m', hbegins⟩ := exists_begins hs ho hL he' hw'
  have hbegins' : Begins s.trace o.call w e' := by
    by_cases hclient : w.client = 0
    · obtain rfl := hsame hclient
      exact ⟨hopens, hw', fun _ => ⟨j, done, hbare hclient ▸ hj, htakes⟩, m, j, done, hcall, hj,
        htakes⟩
    · obtain ⟨j₀, hj₀, hasks₀⟩ := hopens.turn
      have heq : o.call = m' := by
        obtain ⟨j₁, hj₁, hasks₁⟩ := hbegins.turn
        exact Nat.le_antisymm (hopens.first hclient m' j₁ w hj₁ hasks₁ ⟨rfl, rfl⟩)
          (hbegins.first hclient o.call j₀ w hj₀ hasks₀ ⟨rfl, rfl⟩)
      exact heq ▸ hbegins
  refine ⟨e'.index, fits_of_write hkind ?_ (Or.inr ⟨n, k, e, hk, he, hle, hret.ge⟩) he'
    hbegins'.taken heffect hbegins'⟩
  rw [hret]
  exact WithTop.coe_le_coe.mpr (hcall.trans hm)

theorem exists_history (hs : Reachable (nodeSystem D (stateMachine G) threshold) s)
    (hreg : RegularNodes D s) (hover : ∀ k ∈ s.trace, overtaken k.pre k.input = false)
    (hnd : (ops.map Operation.call).Nodup) (ho : Orderly s.trace ops)
    (hops : ∀ o ∈ ops, Completed G s.trace o) :
    ∃ pending : List (Operation Mutation Bytes (Option Bytes)),
      (∀ o ∈ pending, Pending s.trace o) ∧ ((ops ++ pending).map Operation.call).Nodup ∧
      (∀ o ∈ ops ++ pending, (o.call : WithTop Nat) ≤ o.ret) ∧
      Linearizable (fun o => (o.call : WithTop Nat)) Operation.ret serve (fun _ => none)
        (ops ++ pending) := by
  have hlaw : Lawful (stateMachine G) := fun sm data hdata sm' => restore_snapshot G sm sm' hdata
  have hempty : ∀ sm, (stateMachine G).snapshot sm ≠ some [] :=
    fun sm h => G.encode_ne_nil _ (Option.some.inj h)
  obtain ⟨g, L, hrep, hL⟩ := exists_replicated hlaw hempty hs hreg hover
  have : Nonempty Mutation := ⟨⟨0, 0, ⟨.put, [], []⟩⟩⟩
  have hfits : ∀ o ∈ ops, ∃ p, Fits s.trace L (TookEffect G L) (Begins s.trace)
      (fun key t => t key) (tableAfter G) o p := by
    intro o hmem
    have hdone := hops o hmem
    cases hkind : o.kind with
    | write w =>
        rw [Completed, hkind] at hdone
        exact fits_wrote hs hreg ho hL hmem hkind hdone
    | read key answer =>
        rw [Completed, hkind] at hdone
        obtain ⟨p, heffective, hanswer⟩ :=
          effectiveAt_of_readOff hlaw hempty hs hreg hover hrep hL hkind hdone
        exact ⟨p, fits_of_read hkind heffective hanswer⟩
  obtain ⟨pending, hpending, hnodup, hspan, hlin⟩ :=
    exists_linearization hs hreg hL (attribution_mutations hs hreg ho hL) hnd hfits
  refine ⟨pending, fun o hmem => ?_, hnodup, hspan, ?_⟩
  · obtain ⟨hret, e, -, -, w, hkind, hbegins⟩ := hpending o hmem
    exact ⟨hret, w, hkind, hbegins.toOpens⟩
  · have hnone : tableAfter G [] = fun _ => none := by
      funext key
      exact Std.ExtTreeMap.getElem?_empty
    rw [hnone] at hlin
    exact hlin

/-- With a fixed membership and orderly sessions the replicated store is one table. However often
writes were proposed, the acknowledged ones and the reads, together with some writes whose
fate is open, happened once each, in an order that respects real time and that one table answers
alike. -/
theorem store_linearizable (hs : Reachable (nodeSystem D (stateMachine G) threshold) s)
    (hfix : FixedNodes D s) (hbound : BoundedNodes s)
    (hover : ∀ k ∈ s.trace, overtaken k.pre k.input = false)
    (hnd : (ops.map Operation.call).Nodup) (ho : Orderly s.trace ops)
    (hops : ∀ o ∈ ops, Completed G s.trace o) :
    ∃ pending : List (Operation Mutation Bytes (Option Bytes)),
      (∀ o ∈ pending, Pending s.trace o) ∧ ((ops ++ pending).map Operation.call).Nodup ∧
      Linearizable (fun o => (o.call : WithTop Nat)) Operation.ret serve (fun _ => none)
        (ops ++ pending) := by
  obtain ⟨pending, hpending, hnodup, -, hlin⟩ :=
    exists_history hs ⟨hfix, hbound⟩ hover hnd ho hops
  exact ⟨pending, hpending, hnodup, hlin⟩

theorem orderly_of_single {calls : List (NodeCall Machine)} (hserial : w.serial ≠ 0)
    (hcalls : ∀ j ∈ calls, ∀ w', asks j.input = some w' → w' = w)
    (hops : ∀ o ∈ ops, ∀ w', o.kind = .write w' → w' = w) : Orderly calls ops where
  positive := by
    intro j hj w' hw' _
    rw [hcalls j hj w' hw']
    exact hserial
  single := by
    intro j hj j' hj' w₁ w₂ hw₁ hw₂ _ _
    rw [hcalls j hj w₁ hw₁, hcalls j' hj' w₂ hw₂]
  onward := by
    intro o ho w₁ hkind _ p j w₂ hp hw₂ _ hlt
    rw [hops o ho w₁ hkind, hcalls j (List.mem_of_getElem? hp) w₂ hw₂] at hlt
    exact absurd hlt (UInt64.lt_irrefl _)

theorem exists_propose {m : Msg} {done : Chan} (hw : asks m = some w)
    (hopens : opens m = some done) :
    ∃ command, m = .propose command done := by
  cases m with
  | propose command done' =>
      obtain rfl := Option.some.inj hopens
      exact ⟨command, rfl⟩
  | _ => cases hw

/-- The turns of a trace that propose a write, propose `w`, and turn `m` is the first of them. -/
def Proposing (calls : List (NodeCall Machine)) (w : Mutation) (m : Nat) : Prop :=
  ∀ x ∈ calls.zipIdx, asks x.1.input = none ∨ asks x.1.input = some w ∧ m ≤ x.2
  deriving Decidable

theorem eq_of_proposing {calls : List (NodeCall Machine)} {w' : Mutation} {m p : Nat}
    {j : NodeCall Machine} (h : Proposing calls w m) (hp : calls[p]? = some j)
    (hw : asks j.input = some w') : w' = w ∧ m ≤ p := by
  rcases h (j, p) (List.mem_zipIdx_iff_getElem?.mpr hp) with hnone | ⟨hsome, hle⟩
  · rw [hw] at hnone
    cases hnone
  · exact ⟨Option.some.inj (hw.symm.trans hsome), hle⟩

/-- Node 1 takes a write and gets it to node 2 only, which takes over. There the client sends the
write again, is told of its success and reads. -/
def retryThenRead : List (Action ID Msg (Nat → Nat)) :=
  [.restart 1 fun _ => 0, .restart 2 fun _ => 0, .restart 3 fun _ => 0, .act 1 .tick, .deliver 0,
    .deliver 2, .deliver 3, .deliver 5, .act 1 (.propose (stored 1) 7), .deliver 6, .act 2 .tick,
    .deliver 9, .deliver 11, .deliver 12, .deliver 14, .act 2 (.propose (stored 1) 8), .deliver 15,
    .deliver 17, .act 2 (.read 9), .deliver 18, .deliver 20]

def retried : Operation Mutation Bytes (Option Bytes) where
  call := 5
  ret := 14
  kind := .write ⟨1, 1, ⟨.put, [65], [7]⟩⟩

def reread : Operation Mutation Bytes (Option Bytes) where
  call := 15
  ret := 17
  kind := .read [65] (some [7])

theorem store_linearizable_retry :
    ∃ s, Reachable (nodeSystem trio (stateMachine unary) fun _ => 0) s ∧ FixedNodes trio s ∧
      BoundedNodes s ∧
      ∃ pending : List (Operation Mutation Bytes (Option Bytes)),
        (∀ o ∈ pending, Pending s.trace o) ∧
        Linearizable (fun o => (o.call : WithTop Nat)) Operation.ret serve (fun _ => none)
          ([retried, reread] ++ pending) := by
  obtain ⟨s, hs, hcalm, hbound, hover, hproposing, ⟨j₀, hj₀, hasks₀⟩, ⟨j, hj, hin, hasks⟩, hopened,
      ⟨k, hk, hok⟩, ⟨j', hj', hnode', hin'⟩, hread, k', hk', hnode, heffects, hsm⟩ :=
    exists_of_run (nodeSystem trio (stateMachine unary) fun _ => 0) retryThenRead (fun s =>
      UnchangingNodes s ∧ BoundedNodes s ∧ (∀ k ∈ s.trace, overtaken k.pre k.input = false) ∧
      Proposing s.trace ⟨1, 1, ⟨.put, [65], [7]⟩⟩ 5 ∧
      (∃ j ∈ s.trace[5]?, asks j.input = some ⟨1, 1, ⟨.put, [65], [7]⟩⟩) ∧
      (∃ j ∈ s.trace[12]?, j.input = .propose (stored 1) 8 ∧
        asks j.input = some ⟨1, 1, ⟨.put, [65], [7]⟩⟩) ∧
      (∀ x ∈ s.trace.zipIdx, opens x.1.input = some 8 → x.2 = 12) ∧
      (∃ k ∈ s.trace[14]?, .answered 8 (.ok ()) ∈ k.post.effects) ∧
      (∃ j ∈ s.trace[15]?, j.node = 2 ∧ j.input = .read 9) ∧
      (∀ x ∈ s.trace.zipIdx, x.1.input = .read 9 → x.2 = 15) ∧
      ∃ k ∈ s.trace[17]?, k.node = 2 ∧ k.post.effects = [.readAnswered 9 (.ok 4)] ∧
        (during (stateMachine unary) k [.readAnswered 9 (.ok 4)]).get [65] = some [7])
      (by decide +kernel)
  have hwrote : Wrote s.trace retried ⟨1, 1, ⟨.put, [65], [7]⟩⟩ :=
    ⟨⟨⟨j₀, hj₀, hasks₀⟩, fun _ p j w hp hw _ => (eq_of_proposing hproposing hp hw).2⟩, j, k,
      stored 1,
      8, 12, 14, hj, hin, hasks, fun hzero => absurd hzero (by decide), fun p j₁ hp hopens =>
        hopened (j₁, p) (List.mem_zipIdx_iff_getElem?.mpr hp) hopens, hk, hok, rfl⟩
  have hmoment : Moment s.trace 17 k' ([] ++ [.readAnswered 9 (.ok 4)]) :=
    ⟨hk', heffects ▸ List.prefix_refl _⟩
  have hread : ReadOff (stateMachine unary) (fun key sm => sm.get key) s.trace reread [65]
      (some [7]) :=
    ⟨j', k', k', 9, 4, 17, 17, [], _, hj', hin', fun p j₁ hp _ hin₁ => hread (j₁, p)
      (List.mem_zipIdx_iff_getElem?.mpr hp) hin₁, hnode.trans hnode'.symm, hmoment,
      .turn (List.prefix_refl _), hmoment, hsm.symm, rfl⟩
  have hdone : ∀ o ∈ [retried, reread], Completed unary s.trace o :=
    List.forall_mem_cons.mpr ⟨hwrote, List.forall_mem_singleton.mpr hread⟩
  have horderly : Orderly s.trace [retried, reread] := by
    refine orderly_of_single (w := ⟨1, 1, ⟨.put, [65], [7]⟩⟩) (by decide) (fun j hj w hw => ?_)
      (List.forall_mem_cons.mpr ⟨?_, List.forall_mem_singleton.mpr ?_⟩)
    · obtain ⟨p, hp⟩ := List.mem_iff_getElem?.mp hj
      exact (eq_of_proposing hproposing hp hw).1
    · rintro w ⟨⟩
      rfl
    · rintro w ⟨⟩
  have hfix : FixedNodes trio s := ⟨uniform_trio, hcalm⟩
  obtain ⟨pending, hpending, -, hlin⟩ :=
    store_linearizable hs hfix hbound hover (by decide) horderly hdone
  exact ⟨s, hs, hfix, hbound, pending, hpending, hlin⟩

end Histories

end RaftKV.KV.Histories
