import RaftKV.Distributed.Linearizability
import RaftKV.Safety.Precedence
import RaftKV.Safety.Replicas

namespace RaftKV.Safety.ClientHistories

open Distributed.Network
open Distributed.Linearizability hiding Timed
open Raft Raft.Cluster Raft.EventLoop
open Refinement.Projection
open Safety.Proposals hiding delivered
open Safety.LinearizableReads Safety.Precedence Safety.Replicas

section Moments

variable {σ : Type} {S : StateMachine σ} {s : NodeState σ} {L : List Entry} {k : NodeCall σ}
variable {g : RaftKV.Refinement.Relation.Ghost} {start : Nat} {effects effects' : List Effect}

/-- The state machine of a node in the course of a turn, after the effects so far. A turn that
restores a snapshot does nothing else to it. -/
def during (S : StateMachine σ) (k : NodeCall σ) (effects : List Effect) : σ :=
  if restorations effects = [] then (delivered effects).foldl (feedEntry S) k.pre.sm else k.post.sm

theorem mem_delivered {e : Entry} : e ∈ delivered effects ↔ .applied e ∈ effects := by
  constructor
  · intro he
    obtain ⟨effect, heffect, hsome⟩ := List.mem_filterMap.mp he
    cases effect <;> cases hsome
    exact heffect
  · intro he
    exact List.mem_filterMap.mpr ⟨_, he, rfl⟩

theorem appliedAt_of_restorations (h : restorations effects = []) :
    appliedAt start effects = (delivered effects).foldl (fun _ e => e.index) start := by
  induction effects generalizing start with
  | nil => rfl
  | cons effect effects ih =>
      cases effect with
      | restored index => cases h
      | applied e => exact ih h
      | answered | readAnswered => exact ih h

theorem appliedAt_of_delivered (h : delivered effects = []) :
    appliedAt start effects = (restorations effects).foldl (fun _ index => index) start := by
  induction effects generalizing start with
  | nil => rfl
  | cons effect effects ih =>
      cases effect with
      | applied e => cases h
      | restored index => exact ih h
      | answered | readAnswered => exact ih h

theorem take_append_of_delivered (hL : Numbered 0 L) {es : List Entry} {n : Nat}
    (hn : n ≤ L.length) (hes : ∀ e ∈ es, e ∈ L)
    (hindices : es.map Entry.index = List.range' (n + 1) es.length) :
    n + es.length ≤ L.length ∧ L.take (n + es.length) = L.take n ++ es := by
  have hget : ∀ p e, es[p]? = some e → L[n + p]? = some e := by
    intro p e hp
    have hindex := congrArg (fun l => l[p]?) hindices
    have hlt := (List.getElem?_eq_some_iff.mp hp).1
    simp only [List.getElem?_map, hp, Option.map_some, List.getElem?_range' hlt] at hindex
    have hat := getElem?_of_numbered hL (hes e (List.mem_of_getElem? hp))
    have : e.index - 1 = n + p := by
      have := Option.some.inj hindex
      omega
    rwa [this] at hat
  have hle : n + es.length ≤ L.length := by
    rcases Nat.eq_zero_or_pos es.length with hzero | hpos
    · omega
    · have := hget (es.length - 1) _ (List.getElem?_eq_getElem (Nat.sub_lt hpos Nat.one_pos))
      have := (List.getElem?_eq_some_iff.mp this).1
      omega
  refine ⟨hle, ?_⟩
  rw [List.take_add]
  congr 1
  refine List.ext_getElem? fun p => ?_
  rcases Nat.lt_or_ge p es.length with hlt | hge
  · rw [List.getElem?_take, if_pos hlt, List.getElem?_drop,
      hget p _ (List.getElem?_eq_getElem hlt), List.getElem?_eq_getElem hlt]
  · rw [List.getElem?_take, if_neg (Nat.not_lt.mpr hge), List.getElem?_eq_none hge]

theorem delivered_isPrefix (h : effects <+: effects') :
    delivered effects <+: delivered effects' := by
  obtain ⟨rest, rfl⟩ := h
  rw [delivered_append]
  exact List.prefix_append _ _

theorem restorations_isPrefix (h : effects <+: effects') :
    restorations effects <+: restorations effects' := by
  obtain ⟨rest, rfl⟩ := h
  rw [restorations_append]
  exact List.prefix_append _ _

theorem map_of_isPrefix_range {es es' : List Entry} {a len : Nat} (h : es <+: es')
    (hindices : es'.map Entry.index = List.range' a len) :
    es.map Entry.index = List.range' a es.length := by
  have hpre : es.map Entry.index <+: List.range' a len := hindices ▸ h.map Entry.index
  have heq := List.prefix_iff_eq_take.mp hpre
  rw [List.length_map] at heq
  have hle : es.length ≤ len := by
    have := hpre.length_le
    rwa [List.length_map, List.length_range'] at this
  rw [heq, List.take_range'_of_length_ge hle]

theorem during_eq (h : Replicated S g s L) (hL : Numbered 0 L) (hk : k ∈ s.trace)
    (heffects : effects <+: k.post.effects) :
    appliedAt k.pre.applied effects ≤ L.length ∧
      during S k effects = image S (L.take (appliedAt k.pre.applied effects)) ∧
      ∀ effects', effects <+: effects' → effects' <+: k.post.effects →
        appliedAt k.pre.applied effects ≤ appliedAt k.pre.applied effects' := by
  obtain ⟨hpre, hle⟩ := h.starts k hk
  obtain ⟨hpost, hsm, ⟨hnone, -, hindices⟩ | ⟨hone, hnone⟩⟩ := h.turns k hk
  · have hrest : ∀ {l : List Effect}, l <+: k.post.effects → restorations l = [] := by
      intro l hl
      have := restorations_isPrefix hl
      rw [hnone] at this
      exact List.prefix_nil.mp this
    have hcursor : ∀ {l : List Effect}, l <+: k.post.effects →
        appliedAt k.pre.applied l = k.pre.applied + (delivered l).length := by
      intro l hl
      rw [appliedAt_of_restorations (hrest hl)]
      exact foldl_index (map_of_isPrefix_range (delivered_isPrefix hl) hindices)
    have hmem : ∀ e ∈ delivered effects, e ∈ L := fun e he =>
      h.complete k hk e ((delivered_isPrefix heffects).subset he)
    obtain ⟨hlen, htake⟩ := take_append_of_delivered hL hpre.applied_le hmem
      (map_of_isPrefix_range (delivered_isPrefix heffects) hindices)
    rw [hcursor heffects]
    refine ⟨hlen, ?_, fun effects' hpre' heffects' => ?_⟩
    · rw [during, if_pos (hrest heffects), htake, image, List.foldl_append, hpre.sm]
      rfl
    · rw [hcursor heffects']
      exact Nat.add_le_add_left (delivered_isPrefix hpre').length_le _
  · have hdel : ∀ {l : List Effect}, l <+: k.post.effects → delivered l = [] := by
      intro l hl
      have := delivered_isPrefix hl
      rw [hnone] at this
      exact List.prefix_nil.mp this
    have hcursor : ∀ {l : List Effect}, l <+: k.post.effects →
        restorations l = [] ∧ appliedAt k.pre.applied l = k.pre.applied ∨
          restorations l ≠ [] ∧ appliedAt k.pre.applied l = k.post.applied := by
      intro l hl
      have hpre := restorations_isPrefix hl
      rw [hone] at hpre
      rw [appliedAt_of_delivered (hdel hl)]
      rcases List.prefix_cons_iff.mp hpre with hnil | ⟨t, ht, hnil⟩
      · exact Or.inl ⟨hnil, by rw [hnil]; rfl⟩
      · rw [List.prefix_nil.mp hnil] at ht
        exact Or.inr ⟨by rw [ht]; exact List.cons_ne_nil _ _, by rw [ht]; rfl⟩
    refine ⟨?_, ?_, fun effects' hpre' heffects' => ?_⟩
    · rcases hcursor heffects with ⟨-, heq⟩ | ⟨-, heq⟩ <;> rw [heq]
      · exact hpre.applied_le
      · exact hpost
    · rcases hcursor heffects with ⟨hnil, heq⟩ | ⟨hne, heq⟩ <;> rw [heq]
      · rw [during, if_pos hnil, hdel heffects]
        exact hpre.sm
      · rw [during, if_neg hne]
        exact hsm
    · rcases hcursor heffects with ⟨-, heq⟩ | ⟨hne, heq⟩ <;> rw [heq] <;>
        rcases hcursor heffects' with ⟨hnil', heq'⟩ | ⟨-, heq'⟩ <;> rw [heq']
      · exact hle
      · have := restorations_isPrefix hpre'
        rw [hnil'] at this
        exact absurd (List.prefix_nil.mp this) hne

end Moments

section Operations

variable {σ ω κ β τ : Type}

/-- What a client asks for: a change, or a query with the answer it got. -/
inductive Kind (ω κ β : Type)
  | write (w : ω)
  | read (key : κ) (answer : β)

/-- An operation of a client. It begins with the turn that takes it from the queue, and ends with
the turn in whose course its result is known, if there is one. -/
structure Operation (ω κ β : Type) where
  call : Nat
  ret : WithTop Nat
  kind : Kind ω κ β

def Operation.writes (o : Operation ω κ β) : Bool :=
  match o.kind with
  | .write _ => true
  | .read _ _ => false

def perform [DecidableEq β] (write : τ → ω → τ) (get : κ → τ → β) (t : τ) (o : Operation ω κ β) :
    Option τ :=
  match o.kind with
  | .write w => some (write t w)
  | .read key answer => if get key t = answer then some t else none

/-- In the course of turn `n` of the run, the effects so far are `effects`. -/
structure Moment (calls : List (NodeCall σ)) (n : Nat) (k : NodeCall σ) (effects : List Effect) :
    Prop where
  turn : calls[n]? = some k
  isPrefix : effects <+: k.post.effects

/-- The moment after, in the same turn or a later turn of the same life of the node. -/
inductive Later (calls : List (NodeCall σ)) (n : Nat) (k : NodeCall σ) (effects : List Effect) :
    Nat → NodeCall σ → List Effect → Prop
  | turn {effects' : List Effect} (h : effects <+: effects') : Later calls n k effects n k effects'
  | life {k' : NodeCall σ} {effects' : List Effect} {since rest : List (NodeCall σ)}
      (hcalls : calls.drop (n + 1) = since ++ k' :: rest)
      (hlife : Lived k.node k.post since k'.pre) :
      Later calls n k effects (n + 1 + since.length) k' effects'

/-- The read was registered on a channel of its own and told there to go ahead; then the caller
queried the state machine of the node. -/
def ReadOff (S : StateMachine σ) (get : κ → σ → β) (calls : List (NodeCall σ))
    (o : Operation ω κ β) (key : κ) (answer : β) : Prop :=
  ∃ (j k k' : NodeCall σ) (ch : Chan) (index n n' : Nat) (before effects : List Effect),
    calls[o.call]? = some j ∧ j.input = .read ch ∧
    (∀ (p : Nat) j', calls[p]? = some j' → j'.node = j.node → j'.input = .read ch → p = o.call) ∧
    k.node = j.node ∧ Moment calls n k (before ++ [.readAnswered ch (.ok index)]) ∧
    Later calls n k (before ++ [.readAnswered ch (.ok index)]) n' k' effects ∧
    Moment calls n' k' effects ∧ answer = get key (during S k' effects) ∧ o.ret = n'

end Operations

section Places

variable {σ ω κ β : Type} {S : StateMachine σ} {get : κ → σ → β} {D : Deployment}
variable {threshold : ID → Nat} {s : NodeState σ} {L : List Entry} {o : Operation ω κ β}
variable {g : RaftKV.Refinement.Relation.Ghost} {p : Nat}

/-- By the end of the operation somebody has applied the log up to `p`. -/
def Reached (calls : List (NodeCall σ)) (o : Operation ω κ β) (p : Nat) : Prop :=
  p = 0 ∨ ∃ (q : Nat) (k : NodeCall σ) (f : Entry), calls[q]? = some k ∧
    .applied f ∈ k.post.effects ∧ p ≤ f.index ∧ (q : WithTop Nat) ≤ o.ret

/-- The operation may take effect at the index `p` of the committed log: a change as an entry
there that was taken in its time, a query behind all that was applied before it. -/
structure EffectiveAt (calls : List (NodeCall σ)) (L : List Entry) (o : Operation ω κ β) (p : Nat) :
    Prop where
  span : (o.call : WithTop Nat) ≤ o.ret
  reached : Reached calls o p
  write : o.writes = true → ∃ (m : Nat) (j : NodeCall σ) (e : Entry) (done : Chan),
    e ∈ L ∧ e.index = p ∧ o.call ≤ m ∧ calls[m]? = some j ∧ Takes j e done
  read : o.writes = false → ∀ q < o.call, ∀ k, calls[q]? = some k →
    ∀ f, .applied f ∈ k.post.effects → f.index ≤ p

theorem place_lt_of_effectiveAt (hs : Reachable (nodeSystem D S threshold) s)
    (hreg : RegularNodes D s) (hL : CommittedLog s.trace L) {a b : Operation ω κ β} {p q : Nat}
    (ha : EffectiveAt s.trace L a p)
    (hb : EffectiveAt s.trace L b q) (hret : b.ret < a.call) :
    q < p ∨ q = p ∧ a.writes = false := by
  cases hwrites : a.writes with
  | true =>
      obtain ⟨m, j, e, done, he, rfl, hm, hj, htakes⟩ := ha.write hwrites
      obtain ⟨k', hk', hmem, -⟩ := hL.committed e he
      rcases hb.reached with rfl | ⟨n, k, f, hk, hf, hle, hn⟩
      · obtain ⟨i, hi⟩ := List.mem_iff_getElem?.mp he
        have := hL.numbered i e hi
        exact Or.inl (by omega)
      · have hlt : n < m := (WithTop.coe_lt_coe.mp (hn.trans_lt hret)).trans_le hm
        exact Or.inl (hle.trans_lt (index_lt_of_takes hs hreg hj htakes hlt hk hf hk'
          (mem_delivered.mp hmem)))
  | false =>
      have hle : q ≤ p := by
        rcases hb.reached with rfl | ⟨n, k, f, hk, hf, hle, hn⟩
        · exact Nat.zero_le _
        · exact hle.trans
            (ha.read hwrites n (WithTop.coe_lt_coe.mp (hn.trans_lt hret)) k hk f hf)
      rcases hle.lt_or_eq with hlt | heq
      · exact Or.inl hlt
      · exact Or.inr ⟨heq, rfl⟩

theorem timed_of_turn (hs : Reachable (nodeSystem D S threshold) s) {n : Nat} {k : NodeCall σ}
    (hk : s.trace[n]? = some k) : LinearizableReads.Timed k.pre.applied k.post := by
  obtain ⟨s₀, hmade, -⟩ := exists_madeIn hs hk
  rw [show k.post = (step S k.pre k.input).1 from hmade.post]
  exact timed_step S k.pre k.input

theorem applied_le_of_lived {i : ID} {n₀ n : Node σ} {since : List (NodeCall σ)}
    (h : Lived i n₀ since n) (hsince : ∀ k ∈ since, k.pre.applied ≤ k.post.applied) :
    n₀.applied ≤ n.applied := by
  induction h with
  | start => exact le_rfl
  | own k _ _ ih =>
      exact (ih fun k' hk' => hsince k' (List.mem_append_left _ hk')).trans
        (hsince k List.mem_concat_self)
  | other k _ _ ih => exact ih fun k' hk' => hsince k' (List.mem_append_left _ hk')

theorem appliedAt_le_of_later (hs : Reachable (nodeSystem D S threshold) s)
    (h : Replicated S g s L) (hL : Numbered 0 L) {n n' : Nat} {k k' : NodeCall σ}
    {effects effects' : List Effect} (hm : Moment s.trace n k effects)
    (hlater : Later s.trace n k effects n' k' effects') (hm' : Moment s.trace n' k' effects') :
    n ≤ n' ∧ appliedAt k.pre.applied effects ≤ appliedAt k'.pre.applied effects' := by
  cases hlater with
  | turn hpre =>
      exact ⟨le_rfl, (during_eq h hL (List.mem_of_getElem? hm.turn) hm.isPrefix).2.2 _ hpre
        hm'.isPrefix⟩
  | @life _ _ since rest hcalls hlife =>
      have hk := List.mem_of_getElem? hm.turn
      have hk' := List.mem_of_getElem? hm'.turn
      refine ⟨by omega, ?_⟩
      have hlived := applied_le_of_lived hlife fun k₁ hk₁ => (h.starts k₁ (List.mem_of_mem_drop
        (hcalls ▸ List.mem_append_left _ hk₁))).2
      calc appliedAt k.pre.applied effects
          ≤ appliedAt k.pre.applied k.post.effects :=
            (during_eq h hL hk hm.isPrefix).2.2 _ hm.isPrefix (List.prefix_refl _)
        _ = k.post.applied := (timed_of_turn hs hm.turn).applied.symm
        _ ≤ k'.pre.applied := hlived
        _ ≤ appliedAt k'.pre.applied effects' :=
            (during_eq h hL hk' List.nil_prefix).2.2 _ List.nil_prefix hm'.isPrefix

theorem exists_replicated (hlaw : Lawful S) (hempty : ∀ sm, S.snapshot sm ≠ some [])
    (hs : Reachable (nodeSystem D S threshold) s) (hreg : RegularNodes D s)
    (hover : ∀ k ∈ s.trace, overtaken k.pre k.input = false) :
    ∃ g L, Replicated S g s L ∧ CommittedLog s.trace L := by
  obtain ⟨s', g, L, -, -, hrel, h⟩ := reachable_replicated hlaw hempty hs hreg hover
  exact ⟨g, L, h, numbered_of_chosenLog hrel.world.sound h.chosen, h.complete, h.committed⟩

theorem reached_of_moment (hlaw : Lawful S) (hempty : ∀ sm, S.snapshot sm ≠ some [])
    (hs : Reachable (nodeSystem D S threshold) s) (hreg : RegularNodes D s)
    (hover : ∀ k ∈ s.trace, overtaken k.pre k.input = false) {n : Nat} {k : NodeCall σ}
    {effects : List Effect} (hm : Moment s.trace n k effects) (hret : o.ret = n) :
    Reached s.trace o (appliedAt k.pre.applied effects) := by
  rcases Nat.eq_zero_or_pos (appliedAt k.pre.applied effects) with hzero | hpos
  · exact Or.inl hzero
  -- the run up to that turn has a committed log of its own, which reaches the cursor
  obtain ⟨s₀, hmade, htrace⟩ := exists_madeIn hs hm.turn
  have htake := trace_upto hmade htrace hm.turn
  have hold : ∀ k' ∈ ((nodeSystem D S threshold).call s₀ k.node k.pre k.input).trace,
      k' ∈ s.trace := fun k' hk' => List.mem_of_mem_take (htake ▸ hk')
  obtain ⟨g, L, h, hL⟩ := exists_replicated hlaw hempty
    (reachable_call hmade.reachable hmade.up hmade.enabled) (hreg.part hold)
    fun k' hk' => hover k' (hold k' hk')
  have hk : k ∈ ((nodeSystem D S threshold).call s₀ k.node k.pre k.input).trace := by
    rw [htake]
    exact List.mem_of_getElem? (i := n) (by rw [List.getElem?_take_of_lt (by omega), hm.turn])
  have hle := (during_eq h hL.numbered hk hm.isPrefix).1
  obtain ⟨e, he⟩ : ∃ e, L[appliedAt k.pre.applied effects - 1]? = some e :=
    ⟨_, List.getElem?_eq_getElem (by omega)⟩
  have hindex := hL.numbered _ e he
  obtain ⟨k', hk', hmem, -⟩ := hL.committed e (List.mem_of_getElem? he)
  rw [htake] at hk'
  obtain ⟨q, hq⟩ := List.mem_iff_getElem?.mp hk'
  have hlt : q < n + 1 := by
    have := (List.getElem?_eq_some_iff.mp hq).1
    rw [List.length_take] at this
    omega
  rw [List.getElem?_take_of_lt hlt] at hq
  refine Or.inr ⟨q, k', e, hq, mem_delivered.mp hmem, by omega, ?_⟩
  rw [hret]
  exact WithTop.coe_le_coe.mpr (Nat.lt_succ_iff.mp hlt)

theorem effectiveAt_of_readOff (hlaw : Lawful S) (hempty : ∀ sm, S.snapshot sm ≠ some [])
    (hs : Reachable (nodeSystem D S threshold) s) (hreg : RegularNodes D s)
    (hover : ∀ k ∈ s.trace, overtaken k.pre k.input = false) (hrep : Replicated S g s L)
    (hL : CommittedLog s.trace L) {key : κ} {answer : β} (hkind : o.kind = .read key answer)
    (h : ReadOff S get s.trace o key answer) :
    ∃ p, EffectiveAt s.trace L o p ∧ get key (image S (L.take p)) = answer ∧
      ∃ (j : NodeCall σ) (ch : Chan), s.trace[o.call]? = some j ∧ j.input = .read ch := by
  obtain ⟨j, k, k', ch, index, n, n', before, effects, hj, hin, honly, hnode, hm, hlater, hm',
    hanswer, hret⟩ := h
  have hmem : .readAnswered ch (.ok index) ∈ k.post.effects :=
    hm.isPrefix.subset List.mem_concat_self
  obtain ⟨m, k₀, hle, hk₀, hnode₀, hin₀, hbound⟩ := index_le_of_answered hs hreg hm.turn hmem
  obtain rfl := honly m k₀ hk₀ (hnode₀.trans hnode) hin₀
  obtain ⟨hnn, hcursor⟩ := appliedAt_le_of_later hs hrep hL.numbered hm hlater hm'
  have hindex : index ≤ appliedAt k'.pre.applied effects := by
    obtain ⟨after, hafter⟩ := hm.isPrefix
    rw [List.append_assoc] at hafter
    refine (le_of_timely (timed_of_turn hs hm.turn).timely hafter.symm).trans ?_
    refine le_trans ?_ hcursor
    exact (during_eq hrep hL.numbered (List.mem_of_getElem? hm.turn)
      ((List.prefix_append before _).trans hm.isPrefix)).2.2 _ (List.prefix_append before _)
      hm.isPrefix
  refine ⟨appliedAt k'.pre.applied effects, ⟨?_, ?_, ?_, ?_⟩, ?_, j, ch, hj, hin⟩
  · rw [hret]
    exact WithTop.coe_le_coe.mpr (hle.trans hnn)
  · exact reached_of_moment hlaw hempty hs hreg hover hm' hret
  · intro hwrites
    rw [Operation.writes, hkind] at hwrites
    cases hwrites
  · intro _ q hq k₁ hk₁ f hf
    exact (hbound q hq k₁ hk₁ f hf).trans hindex
  · rw [hanswer, (during_eq hrep hL.numbered (List.mem_of_getElem? hm'.turn) hm'.isPrefix).2.1]

end Places

section Attributions

variable {σ ω κ β τ : Type} {S : StateMachine σ} {D : Deployment} {threshold : ID → Nat}
variable {s : NodeState σ} {L : List Entry} {ops : List (Operation ω κ β)}
variable {place : Operation ω κ β → Nat} {counts : Entry → Prop} {begins : Nat → ω → Entry → Prop}
variable {write : τ → ω → τ} {get : κ → τ → β} {view : List Entry → τ}

theorem nodup_of_numbered (h : Numbered 0 L) : L.Nodup := by
  refine List.nodup_iff_getElem?_ne_getElem?.mpr fun i j hij hj heq => ?_
  have hi := h i _ (heq.trans (List.getElem?_eq_getElem hj))
  have hj' := h j _ (List.getElem?_eq_getElem hj)
  omega

theorem eq_of_numbered (h : Numbered 0 L) {e e' : Entry} (he : e ∈ L) (he' : e' ∈ L)
    (hindex : e.index = e'.index) : e = e' := by
  have := getElem?_of_numbered h he
  rw [hindex, getElem?_of_numbered h he'] at this
  exact (Option.some.inj this).symm

/-- How the committed entries that count stand for operations: `begins m w e` says that turn `m`
began the change `w` for which the entry `e` was made. What an object is after a stretch of
the log is its `view`. -/
structure Attribution (calls : List (NodeCall σ)) (L : List Entry) (counts : Entry → Prop)
    (begins : Nat → ω → Entry → Prop) (write : τ → ω → τ) (view : List Entry → τ) : Prop where
  proposed : ∀ m w e, begins m w e → ∃ (j : NodeCall σ) (command : Command) (done : Chan),
    calls[m]? = some j ∧ j.input = .propose command done
  taken : ∀ m w e, begins m w e → ∃ (m' : Nat) (j : NodeCall σ) (done : Chan), m ≤ m' ∧
    calls[m']? = some j ∧ Takes j e done
  begun : ∀ e ∈ L, counts e → ∃ m w, begins m w e
  single : ∀ e m m' w w', begins m w e → begins m' w' e → m = m'
  distinct : ∀ e ∈ L, counts e → ∀ e' ∈ L, counts e' → ∀ m w w', begins m w e →
    begins m w' e' → e = e'
  update : ∀ p e m w, L[p]? = some e → counts e → begins m w e →
    view (L.take (p + 1)) = write (view (L.take p)) w
  idle : ∀ p e, L[p]? = some e → ¬counts e → view (L.take (p + 1)) = view (L.take p)

/-- The operation has its place at the index `p`: a change as the entry there, a query with the
answer of the log up to there. -/
structure Fits (calls : List (NodeCall σ)) (L : List Entry) (counts : Entry → Prop)
    (begins : Nat → ω → Entry → Prop) (get : κ → τ → β) (view : List Entry → τ)
    (o : Operation ω κ β) (p : Nat) : Prop extends EffectiveAt calls L o p where
  entry : ∀ w, o.kind = .write w → ∃ e ∈ L, counts e ∧ e.index = p ∧ begins o.call w e
  answer : ∀ key answer, o.kind = .read key answer → get key (view (L.take p)) = answer ∧
    ∃ (j : NodeCall σ) (ch : Chan), calls[o.call]? = some j ∧ j.input = .read ch

theorem fits_of_write {o : Operation ω κ β} {e : Entry} {w : ω} (hkind : o.kind = .write w)
    (hspan : (o.call : WithTop Nat) ≤ o.ret) (hreached : Reached s.trace o e.index) (he : e ∈ L)
    (htaken : ∃ (m : Nat) (j : NodeCall σ) (done : Chan),
      o.call ≤ m ∧ s.trace[m]? = some j ∧ Takes j e done)
    (hcounts : counts e) (hbegins : begins o.call w e) :
    Fits s.trace L counts begins get view o e.index := by
  refine ⟨⟨hspan, hreached, ?_, ?_⟩, ?_, ?_⟩
  · intro _
    obtain ⟨m, j, done, hm, hj, htakes⟩ := htaken
    exact ⟨m, j, e, done, he, rfl, hm, hj, htakes⟩
  · intro hwrites
    rw [Operation.writes, hkind] at hwrites
    cases hwrites
  · intro w' hkind'
    cases hkind.symm.trans hkind'
    exact ⟨e, he, hcounts, rfl, hbegins⟩
  · intro key answer hkind'
    cases hkind.symm.trans hkind'

theorem fits_of_read {o : Operation ω κ β} {p : Nat} {key : κ} {answer : β}
    (hkind : o.kind = .read key answer) (h : EffectiveAt s.trace L o p)
    (hanswer : get key (view (L.take p)) = answer ∧
      ∃ (j : NodeCall σ) (ch : Chan), s.trace[o.call]? = some j ∧ j.input = .read ch) :
    Fits s.trace L counts begins get view o p := by
  refine ⟨h, ?_, ?_⟩
  · intro w hkind'
    cases hkind.symm.trans hkind'
  · intro key' answer' hkind'
    cases hkind.symm.trans hkind'
    exact hanswer

theorem exists_entry {p : Nat} {o : Operation ω κ β}
    (h : Fits s.trace L counts begins get view o p) (hwrites : o.writes = true) :
    ∃ w, o.kind = .write w ∧ ∃ e ∈ L, counts e ∧ e.index = p ∧ begins o.call w e := by
  cases hkind : o.kind with
  | write w => exact ⟨w, rfl, h.entry w hkind⟩
  | read key answer =>
      rw [Operation.writes, hkind] at hwrites
      cases hwrites

theorem fits_open (hL : CommittedLog s.trace L)
    (h : Attribution s.trace L counts begins write view) {o : Operation ω κ β} {e : Entry} {w : ω}
    (he : e ∈ L) (hcounts : counts e) (hret : o.ret = ⊤) (hkind : o.kind = .write w)
    (hbegins : begins o.call w e) : Fits s.trace L counts begins get view o e.index where
  span := hret ▸ le_top
  reached := by
    obtain ⟨k, hk, hmem, -⟩ := hL.committed e he
    obtain ⟨q, hq⟩ := List.mem_iff_getElem?.mp hk
    exact Or.inr ⟨q, k, e, hq, mem_delivered.mp hmem, le_rfl, hret ▸ le_top⟩
  write := by
    intro _
    obtain ⟨m, j, done, hm, hj, htakes⟩ := h.taken _ _ _ hbegins
    exact ⟨m, j, e, done, he, rfl, hm, hj, htakes⟩
  read := by
    intro hwrites
    rw [Operation.writes, hkind] at hwrites
    cases hwrites
  entry := by
    intro w' hkind'
    rw [hkind] at hkind'
    cases hkind'
    exact ⟨e, he, hcounts, rfl, hbegins⟩
  answer := by
    intro key answer hkind'
    rw [hkind] at hkind'
    cases hkind'

theorem placed_of_fits [DecidableEq β] (h : Attribution s.trace L counts begins write view)
    (hL : Numbered 0 L) (hnd : (ops.map Operation.call).Nodup)
    (hfits : ∀ o ∈ ops, Fits s.trace L counts begins get view o (place o))
    (hall : ∀ e ∈ L, counts e → ∃ o ∈ ops, ∃ w, begins o.call w e) :
    Placed (perform write get) (fun p => view (L.take p)) place Operation.writes ops where
  update := by
    intro a ha hwrites
    obtain ⟨w, hkind, e, he, hcounts, hplace, hbegins⟩ := exists_entry (hfits a ha) hwrites
    obtain ⟨i, hi⟩ := List.mem_iff_getElem?.mp he
    have hindex := hL i e hi
    have hp : place a = i + 1 := by omega
    refine ⟨by omega, ?_⟩
    rw [hp, Nat.add_sub_cancel, h.update i e _ w hi hcounts hbegins, perform, hkind]
  other := by
    intro a ha hwrites
    cases hkind : a.kind with
    | write w =>
        rw [Operation.writes, hkind] at hwrites
        cases hwrites
    | read key answer =>
        rw [perform, hkind]
        exact if_pos ((hfits a ha).answer key answer hkind).1
  single := by
    intro a ha b hb hwa hwb hplace
    obtain ⟨w, -, e, he, -, hpa, hbegins⟩ := exists_entry (hfits a ha) hwa
    obtain ⟨w', -, e', he', -, hpb, hbegins'⟩ := exists_entry (hfits b hb) hwb
    obtain rfl := eq_of_numbered hL he he' (by omega)
    exact List.inj_on_of_nodup_map hnd ha hb (h.single _ _ _ _ _ hbegins hbegins')
  idle := by
    intro p hp
    cases he : L[p]? with
    | none => simp only [List.take_add_one, he, Option.toList_none, List.append_nil]
    | some e =>
        refine h.idle p e he fun hcounts => ?_
        -- the entry at this place belongs to an operation, and that operation is here
        have hmem := List.mem_of_getElem? he
        obtain ⟨o, ho, w, hbegins⟩ := hall e hmem hcounts
        cases hkind : o.kind with
        | write w' =>
            obtain ⟨e', he', hcounts', hplace, hbegins'⟩ := (hfits o ho).entry w' hkind
            obtain rfl := h.distinct e hmem hcounts e' he' hcounts' _ _ _ hbegins hbegins'
            refine hp o ho (by rw [Operation.writes, hkind]) ?_
            have := hL p e he
            omega
        | read key answer =>
            obtain ⟨j, ch, hj, hread⟩ := ((hfits o ho).answer key answer hkind).2
            obtain ⟨j', command, done, hj', hpropose⟩ := h.proposed _ _ _ hbegins
            obtain rfl := Option.some.inj (hj.symm.trans hj')
            rw [hread] at hpropose
            cases hpropose

theorem exists_open [Nonempty ω] (h : Attribution s.trace L counts begins write view)
    (hL : Numbered 0 L) (ops : List (Operation ω κ β)) :
    ∃ pending : List (Operation ω κ β), (pending.map Operation.call).Nodup ∧
      (∀ o ∈ pending, o.call ∉ ops.map Operation.call ∧ o.ret = ⊤ ∧
        ∃ e ∈ L, counts e ∧ ∃ w, o.kind = .write w ∧ begins o.call w e) ∧
      ∀ e ∈ L, counts e → ∃ o ∈ ops ++ pending, ∃ w, begins o.call w e := by
  classical
  have hex : ∀ e, e ∈ L ∧ counts e → ∃ m w, begins m w e := fun e he => h.begun e he.1 he.2
  choose! turn change hbegins using hex
  let operation : Entry → Operation ω κ β := fun e => ⟨turn e, ⊤, .write (change e)⟩
  have hcounts : ∀ e ∈ L.filter (counts ·), e ∈ L ∧ counts e := fun e he =>
    ⟨List.mem_of_mem_filter he, of_decide_eq_true (List.mem_filter.mp he).2⟩
  refine ⟨((L.filter (counts ·)).map operation).filter fun o => o.call ∉ ops.map Operation.call,
    ?_, ?_, ?_⟩
  · refine List.Nodup.sublist (List.filter_sublist.map _) ?_
    rw [List.map_map]
    refine List.Nodup.map_on ?_ ((nodup_of_numbered hL).filter _)
    intro e he e' he' heq
    have hsame := hbegins e' (hcounts e' he')
    rw [← show turn e = turn e' from heq] at hsame
    exact h.distinct e (hcounts e he).1 (hcounts e he).2 e' (hcounts e' he').1 (hcounts e' he').2
      _ _ _ (hbegins e (hcounts e he)) hsame
  · intro o ho
    obtain ⟨hmem, hcall⟩ := List.mem_filter.mp ho
    obtain ⟨e, he, rfl⟩ := List.mem_map.mp hmem
    exact ⟨of_decide_eq_true hcall, rfl, e, (hcounts e he).1, (hcounts e he).2, _, rfl,
      hbegins e (hcounts e he)⟩
  · intro e he hc
    have hbegun := hbegins e ⟨he, hc⟩
    by_cases hcall : turn e ∈ ops.map Operation.call
    · obtain ⟨o, ho, heq⟩ := List.mem_map.mp hcall
      exact ⟨o, List.mem_append_left _ ho, change e, heq ▸ hbegun⟩
    · refine ⟨operation e, List.mem_append_right _ (List.mem_filter.mpr ⟨?_, decide_eq_true hcall⟩),
        change e, hbegun⟩
      exact List.mem_map_of_mem (List.mem_filter.mpr ⟨he, decide_eq_true hc⟩)

theorem exists_linearization [DecidableEq β] [Nonempty ω]
    (hs : Reachable (nodeSystem D S threshold) s) (hreg : RegularNodes D s)
    (hL : CommittedLog s.trace L) (h : Attribution s.trace L counts begins write view)
    (hnd : (ops.map Operation.call).Nodup)
    (hops : ∀ o ∈ ops, ∃ p, Fits s.trace L counts begins get view o p) :
    ∃ pending : List (Operation ω κ β), (∀ o ∈ pending, o.ret = ⊤ ∧
        ∃ e ∈ L, counts e ∧ ∃ w, o.kind = .write w ∧ begins o.call w e) ∧
      ((ops ++ pending).map Operation.call).Nodup ∧
      (∀ o ∈ ops ++ pending, (o.call : WithTop Nat) ≤ o.ret) ∧
      Linearizable (fun o => (o.call : WithTop Nat)) Operation.ret (perform write get) (view [])
        (ops ++ pending) := by
  obtain ⟨pending, hpnd, hpending, hall⟩ := exists_open h hL.numbered ops
  have hfits : ∀ o, o ∈ ops ++ pending → ∃ p, Fits s.trace L counts begins get view o p := by
    intro o ho
    rcases List.mem_append.mp ho with ho | ho
    · exact hops o ho
    · obtain ⟨-, hret, e, he, hcounts, w, hkind, hbegins⟩ := hpending o ho
      exact ⟨e.index, fits_open hL h he hcounts hret hkind hbegins⟩
  choose! place hplace using hfits
  have hnodup : ((ops ++ pending).map Operation.call).Nodup := by
    rw [List.map_append]
    refine List.Nodup.append hnd hpnd fun m hm hm' => ?_
    obtain ⟨o, ho, rfl⟩ := List.mem_map.mp hm'
    exact (hpending o ho).1 hm
  have hspan : ∀ o ∈ ops ++ pending, (o.call : WithTop Nat) ≤ o.ret :=
    fun o ho => (hplace o ho).span
  refine ⟨pending, fun o ho => (hpending o ho).2, hnodup, hspan, ?_⟩
  exact linearizable_of_placed (placed_of_fits h hL.numbered hnodup hplace hall)
    (List.Nodup.of_map _ hnodup) hspan
    fun a ha b hb hlt =>
      place_lt_of_effectiveAt hs hreg hL (hplace a ha).toEffectiveAt (hplace b hb).toEffectiveAt hlt

end Attributions

section Histories

variable {σ κ β : Type} {S : StateMachine σ} {get : κ → σ → β} {D : Deployment}
variable {threshold : ID → Nat} {s : NodeState σ} {L : List Entry}
variable {ops : List (Operation Command κ β)} {o : Operation Command κ β}

def carryOut (S : StateMachine σ) (sm : σ) (command : Command) : σ :=
  S.apply sm 0 command.bytes

/-- The command was proposed on a channel of its own and acknowledged there. -/
def Wrote (calls : List (NodeCall σ)) (o : Operation Command κ β) (command : Command) : Prop :=
  ∃ (j k : NodeCall σ) (done : Chan) (n : Nat),
    calls[o.call]? = some j ∧ j.input = .propose command done ∧
    (∀ (p : Nat) j', calls[p]? = some j' → opens j'.input = some done → p = o.call) ∧
    calls[n]? = some k ∧ .answered done (.ok ()) ∈ k.post.effects ∧ o.ret = n

def Completed (S : StateMachine σ) (get : κ → σ → β) (calls : List (NodeCall σ))
    (o : Operation Command κ β) : Prop :=
  match o.kind with
  | .write command => Wrote calls o command
  | .read key answer => ReadOff S get calls o key answer

def Began (calls : List (NodeCall σ)) (m : Nat) (command : Command) (e : Entry) : Prop :=
  e.command = command ∧ ∃ (j : NodeCall σ) (done : Chan), calls[m]? = some j ∧ Takes j e done

/-- A command that a leader took and of which its client has heard nothing yet. -/
def Pending (calls : List (NodeCall σ)) (o : Operation Command κ β) : Prop :=
  o.ret = ⊤ ∧ ∃ (command : Command) (e : Entry), o.kind = .write command ∧
    Began calls o.call command e

theorem index_eq_of_takes {j : NodeCall σ} {e e' : Entry} {done done' : Chan} (h : Takes j e done)
    (h' : Takes j e' done') : e.index = e'.index := by
  have hin := h.input.symm.trans h'.input
  injection hin with hcommand
  have hok := h.accepted
  rw [hcommand, h'.accepted] at hok
  exact (congrArg Prod.fst (Except.ok.inj hok)).symm

theorem image_take_succ {i : Nat} {e : Entry} (he : L[i]? = some e) :
    image S (L.take (i + 1)) = feedEntry S (image S (L.take i)) e := by
  rw [image, List.take_add_one, he, List.foldl_append]
  rfl

theorem attribution_commands (hfree : ∀ sm i j c, S.apply sm i c = S.apply sm j c)
    (hs : Reachable (nodeSystem D S threshold) s) (hreg : RegularNodes D s)
    (hL : CommittedLog s.trace L) :
    Attribution s.trace L (fun e => e.type = .normal) (Began s.trace) (carryOut S) (image S) where
  proposed := by
    rintro m command e ⟨-, j, done, hj, htakes⟩
    exact ⟨j, _, done, hj, htakes.input⟩
  taken := by
    rintro m command e ⟨-, j, done, hj, htakes⟩
    exact ⟨m, j, done, le_rfl, hj, htakes⟩
  begun := by
    intro e he htype
    obtain ⟨k, hk, hmem, -⟩ := hL.committed e he
    obtain ⟨n, hn⟩ := List.mem_iff_getElem?.mp hk
    obtain ⟨m, j, done, -, hj, htakes⟩ := exists_takes hs hn (mem_delivered.mp hmem) htype
    exact ⟨m, e.command, rfl, j, done, hj, htakes⟩
  single := by
    rintro e m m' command command' ⟨-, j, done, hj, htakes⟩ ⟨-, j', done', hj', htakes'⟩
    exact eq_of_takes hs hreg hj hj' htakes htakes'
  distinct := by
    rintro e he - e' he' - m command command' ⟨-, j, done, hj, htakes⟩ ⟨-, j', done', hj', htakes'⟩
    obtain rfl := Option.some.inj (hj.symm.trans hj')
    exact eq_of_numbered hL.numbered he he' (index_eq_of_takes htakes htakes')
  update := by
    rintro p e m command he htype ⟨rfl, -⟩
    rw [image_take_succ he, feedEntry, if_pos htype]
    exact hfree _ _ _ _
  idle := by
    intro p e he htype
    rw [image_take_succ he, feedEntry, if_neg htype]

theorem fits_wrote (hs : Reachable (nodeSystem D S threshold) s) (hreg : RegularNodes D s)
    (hL : CommittedLog s.trace L) {command : Command} (hkind : o.kind = .write command)
    (h : Wrote s.trace o command) :
    ∃ p, Fits s.trace L (fun e => e.type = .normal) (Began s.trace) get (image S) o p := by
  obtain ⟨j, k, done, n, hj, hin, honly, hk, hok, hret⟩ := h
  obtain ⟨e, hcommand, htakes, he⟩ := takes_of_answered hs hreg (List.mem_of_getElem? hj)
    (List.mem_of_getElem? hk) hin (fun j' hj' hopens => by
      obtain ⟨p, hp⟩ := List.mem_iff_getElem?.mp hj'
      rw [honly p j' hp hopens, hj] at hp
      exact (Option.some.inj hp).symm) hok
  obtain ⟨m, j', done', hm, hj', htakes'⟩ := exists_takes hs hk he htakes.type
  obtain rfl := eq_of_takes hs hreg hj' hj htakes' htakes
  have hmem := hL.complete k (List.mem_of_getElem? hk) e (mem_delivered.mpr he)
  refine ⟨e.index, fits_of_write hkind ?_ (Or.inr ⟨n, k, e, hk, he, le_rfl, hret.ge⟩) hmem
    ⟨o.call, j, done, le_rfl, hj, htakes⟩ htakes.type ⟨hcommand, j, done, hj, htakes⟩⟩
  rw [hret]
  exact WithTop.coe_le_coe.mpr hm

/-- With a fixed membership every history of clients is linearizable. The acknowledged commands
and the reads that went ahead, on whichever nodes, together with some commands whose fate is
open, can be put in an order that respects real time and that one state machine answers alike. -/
theorem histories_linearizable [DecidableEq β] (hlaw : Lawful S)
    (hempty : ∀ sm, S.snapshot sm ≠ some [])
    (hfree : ∀ sm i j c, S.apply sm i c = S.apply sm j c)
    (hs : Reachable (nodeSystem D S threshold) s) (hfix : FixedNodes D s)
    (hbound : BoundedNodes s)
    (hover : ∀ k ∈ s.trace, overtaken k.pre k.input = false)
    (hnd : (ops.map Operation.call).Nodup) (hops : ∀ o ∈ ops, Completed S get s.trace o) :
    ∃ pending : List (Operation Command κ β), (∀ o ∈ pending, Pending s.trace o) ∧
      ((ops ++ pending).map Operation.call).Nodup ∧
      Linearizable (fun o => (o.call : WithTop Nat)) Operation.ret
        (perform (carryOut S) get) S.fresh (ops ++ pending) := by
  have hreg : RegularNodes D s := ⟨hfix, hbound⟩
  obtain ⟨g, L, hrep, hL⟩ := exists_replicated hlaw hempty hs hreg hover
  have : Nonempty Command := ⟨noBytes⟩
  have hfits : ∀ o ∈ ops,
      ∃ p, Fits s.trace L (fun e => e.type = .normal) (Began s.trace) get (image S) o p := by
    intro o ho
    have hdone := hops o ho
    cases hkind : o.kind with
    | write command =>
        rw [Completed, hkind] at hdone
        exact fits_wrote hs hreg hL hkind hdone
    | read key answer =>
        rw [Completed, hkind] at hdone
        obtain ⟨p, heffective, hanswer⟩ :=
          effectiveAt_of_readOff hlaw hempty hs hreg hover hrep hL hkind hdone
        exact ⟨p, fits_of_read hkind heffective hanswer⟩
  obtain ⟨pending, hpending, hnodup, -, hlin⟩ :=
    exists_linearization hs hreg hL (attribution_commands hfree hs hreg hL) hnd hfits
  refine ⟨pending, fun o ho => ?_, hnodup, hlin⟩
  obtain ⟨hret, e, -, -, command, hkind, hbegan⟩ := hpending o ho
  exact ⟨hret, command, e, hkind, hbegan⟩

/-- Node 1 acknowledges a command with the help of node 2. Node 2 takes over and serves a read. -/
def writeThenRead : List (Action ID Msg (Nat → Nat)) :=
  [.restart 1 fun _ => 0, .restart 2 fun _ => 0, .restart 3 fun _ => 0, .act 1 .tick, .deliver 0,
    .deliver 2, .deliver 3, .deliver 5, .act 1 (.propose (oneByte 65) 7), .deliver 6, .deliver 8,
    .act 2 .tick, .deliver 9, .deliver 11, .deliver 12, .deliver 14, .act 2 (.read 8), .deliver 15,
    .deliver 17]

theorem histories_linearizable_succession :
    ∃ s, Reachable (nodeSystem trio (register [0]) fun _ => 0) s ∧ FixedNodes trio s ∧
      BoundedNodes s ∧
      ∃ pending : List (Operation Command Unit Bytes), (∀ o ∈ pending, Pending s.trace o) ∧
        Linearizable (fun o => (o.call : WithTop Nat)) Operation.ret
          (perform (carryOut (register [0])) fun _ sm => sm) (register [0]).fresh
          ([⟨5, 7, .write (oneByte 65)⟩, ⟨13, 15, .read () [65]⟩] ++ pending) := by
  obtain ⟨s, hs, hcalm, hbound, hover, ⟨j, hj, hin⟩, hopened, ⟨k, hk, hok⟩, ⟨j', hj', hnode', hin'⟩,
    hread, k', hk', hnode, heffects, hsm⟩ :=
    exists_of_run (nodeSystem trio (register [0]) fun _ => 0) writeThenRead (fun s =>
      UnchangingNodes s ∧ BoundedNodes s ∧ (∀ k ∈ s.trace, overtaken k.pre k.input = false) ∧
      (∃ j ∈ s.trace[5]?, j.input = .propose (oneByte 65) 7) ∧
      (∀ x ∈ s.trace.zipIdx, opens x.1.input = some 7 → x.2 = 5) ∧
      (∃ k ∈ s.trace[7]?, .answered 7 (.ok ()) ∈ k.post.effects) ∧
      (∃ j ∈ s.trace[13]?, j.node = 2 ∧ j.input = .read 8) ∧
      (∀ x ∈ s.trace.zipIdx, x.1.input = .read 8 → x.2 = 13) ∧
      ∃ k ∈ s.trace[15]?, k.node = 2 ∧ k.post.effects = [.readAnswered 8 (.ok 3)] ∧
        during (register [0]) k [.readAnswered 8 (.ok 3)] = [65]) (by decide +kernel)
  have hwrote :
      Wrote s.trace (⟨5, 7, .write (oneByte 65)⟩ : Operation Command Unit Bytes) (oneByte 65) :=
    ⟨j, k, 7, 7, hj, hin, fun p j₁ hp hopens => hopened (j₁, p)
      (List.mem_zipIdx_iff_getElem?.mpr hp) hopens, hk, hok, rfl⟩
  have hmoment : Moment s.trace 15 k' ([] ++ [.readAnswered 8 (.ok 3)]) :=
    ⟨hk', heffects ▸ List.prefix_refl _⟩
  have hread : ReadOff (register [0]) (fun _ sm => sm) s.trace
      (⟨13, 15, .read () [65]⟩ : Operation Command Unit Bytes) () [65] :=
    ⟨j', k', k', 8, 3, 15, 15, [], _, hj', hin', fun p j₁ hp _ hin₁ => hread (j₁, p)
      (List.mem_zipIdx_iff_getElem?.mpr hp) hin₁, hnode.trans hnode'.symm, hmoment,
      .turn (List.prefix_refl _), hmoment, hsm.symm, rfl⟩
  have hdone : ∀ o ∈ ([⟨5, 7, .write (oneByte 65)⟩, ⟨13, 15, .read () [65]⟩] :
      List (Operation Command Unit Bytes)), Completed (register [0]) (fun _ sm => sm) s.trace o :=
    List.forall_mem_cons.mpr ⟨hwrote, List.forall_mem_singleton.mpr hread⟩
  obtain ⟨pending, hpending, -, hlin⟩ := histories_linearizable (lawful_register [0])
    (fun _ h => by cases h) (fun _ _ _ _ => rfl) hs ⟨uniform_trio, hcalm⟩ hbound hover
    (by decide) hdone
  exact ⟨s, hs, ⟨uniform_trio, hcalm⟩, hbound, pending, hpending, hlin⟩

end Histories

end RaftKV.Safety.ClientHistories
