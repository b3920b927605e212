import Mathlib.Data.List.Dedup
import Mathlib.Data.List.Perm.Basic
import Mathlib.Order.Basic
import Mathlib.Tactic

/-!
Histories of operations with a call and a return. An order of them that real time allows is
one in which they can take effect at points of time between the two, and histories over
several objects can be ordered object by object.
-/

namespace RaftKV.Distributed.Linearizability

variable {α κ σ T : Type*} [LinearOrder T] (call ret : α → T)
variable {l ops : List α} {s : σ} {step : σ → α → Option σ}

/-- No operation stands behind one that was called only after it had returned. -/
def InOrder (l : List α) : Prop :=
  l.Pairwise fun a b => call a ≤ ret b

/-- Operations with points of time that do not go back, each within its operation. -/
structure Timed (m : List (α × T)) : Prop where
  sorted : m.Pairwise fun x y => x.2 ≤ y.2
  within : ∀ x ∈ m, call x.1 ≤ x.2 ∧ x.2 ≤ ret x.1

variable {call ret}

theorem inOrder_of_timed {m : List (α × T)} (h : Timed call ret m) :
    InOrder call ret (m.map Prod.fst) := by
  rw [InOrder, List.pairwise_map]
  refine h.sorted.imp_of_mem ?_
  intro x y hx hy hle
  exact (h.within x hx).1.trans (hle.trans (h.within y hy).2)

/-- Every operation takes effect as soon as it can: at the latest call so far. -/
theorem exists_timed_from (hl : InOrder call ret l)
    (hspan : ∀ a ∈ l, call a ≤ ret a) (start : T) (hstart : ∀ a ∈ l, start ≤ ret a) :
    ∃ m, m.map Prod.fst = l ∧ Timed call ret m ∧ ∀ x ∈ m, start ≤ x.2 := by
  induction l generalizing start with
  | nil => exact ⟨[], rfl, ⟨List.Pairwise.nil, by simp⟩, by simp⟩
  | cons a l ih =>
      obtain ⟨hhead, htail⟩ := List.pairwise_cons.mp hl
      have hpoint : ∀ b ∈ l, max start (call a) ≤ ret b := fun b hb =>
        max_le (hstart b (List.mem_cons_of_mem _ hb)) (hhead b hb)
      obtain ⟨m, hm, htimed, hfrom⟩ :=
        ih htail (fun b hb => hspan b (List.mem_cons_of_mem _ hb)) _ hpoint
      refine ⟨(a, max start (call a)) :: m, by rw [List.map_cons, hm], ⟨?_, ?_⟩, ?_⟩
      · exact List.pairwise_cons.mpr ⟨hfrom, htimed.sorted⟩
      · intro x hx
        rcases List.mem_cons.mp hx with rfl | hx
        · exact ⟨le_max_right _ _,
            max_le (hstart a List.mem_cons_self) (hspan a List.mem_cons_self)⟩
        · exact htimed.within x hx
      · intro x hx
        rcases List.mem_cons.mp hx with rfl | hx
        · exact le_max_left _ _
        · exact (le_max_left _ _).trans (hfrom x hx)

theorem exists_timed (hl : InOrder call ret l) (hspan : ∀ a ∈ l, call a ≤ ret a) :
    ∃ m, m.map Prod.fst = l ∧ Timed call ret m := by
  cases l with
  | nil => exact ⟨[], rfl, List.Pairwise.nil, by simp⟩
  | cons a l =>
      have hstart : ∀ b ∈ a :: l, call a ≤ ret b := by
        intro b hb
        rcases List.mem_cons.mp hb with rfl | hb
        · exact hspan b List.mem_cons_self
        · exact (List.pairwise_cons.mp hl).1 b hb
      obtain ⟨m, hm, htimed, -⟩ := exists_timed_from hl hspan (call a) hstart
      exact ⟨m, hm, htimed⟩

variable (call ret) in
/-- The operations can be ordered as real time allows, and such that an object in the state
`s` takes them one after the other. -/
def Linearizable (step : σ → α → Option σ) (s : σ) (ops : List α) : Prop :=
  ∃ l, l.Perm ops ∧ InOrder call ret l ∧ (l.foldlM step s).isSome

/-- Finitely many orders have to be tried. -/
instance decidableLinearizable {step : σ → α → Option σ} {s : σ} {ops : List α} :
    Decidable (Linearizable call ret step s ops) :=
  have : DecidablePred (InOrder call ret) := fun l => inferInstanceAs (Decidable (l.Pairwise _))
  decidable_of_iff (∃ l ∈ ops.permutations', InOrder call ret l ∧ (l.foldlM step s).isSome)
    (exists_congr fun _ => and_congr_left fun _ => List.mem_permutations')

theorem linearizable_nil :
    Linearizable call ret step s [] :=
  ⟨[], List.Perm.refl _, List.Pairwise.nil, rfl⟩

theorem linearizable_mono {T' : Type*} [LinearOrder T'] {call' ret' : α → T'}
    (h : Linearizable call ret step s ops)
    (hle : ∀ a ∈ ops, ∀ b ∈ ops, call a ≤ ret b → call' a ≤ ret' b) :
    Linearizable call' ret' step s ops := by
  obtain ⟨l, hperm, horder, hlegal⟩ := h
  refine ⟨l, hperm, horder.imp_of_mem fun ha hb => ?_, hlegal⟩
  exact hle _ (hperm.mem_iff.mp ha) _ (hperm.mem_iff.mp hb)

theorem linearizable_map {β τ : Type*} {call ret : β → T} {f : α → β} {g : τ → σ}
    {step : σ → β → Option σ} {step' : τ → α → Option τ} {t : τ}
    (hstep : ∀ t, ∀ a ∈ ops, step (g t) (f a) = (step' t a).map g) :
    Linearizable call ret step (g t) (ops.map f) ↔
      Linearizable (call ∘ f) (ret ∘ f) step' t ops := by
  have hfold : ∀ l : List α, (∀ a ∈ l, a ∈ ops) → ∀ t,
      (l.map f).foldlM step (g t) = (l.foldlM step' t).map g := by
    intro l hl
    induction l with
    | nil => exact fun _ => rfl
    | cons a l ih =>
        intro t
        rw [List.map_cons, List.foldlM_cons, List.foldlM_cons, hstep t a (hl a List.mem_cons_self)]
        cases step' t a with
        | none => rfl
        | some t' => exact ih (fun b hb => hl b (List.mem_cons_of_mem _ hb)) t'
  have horder : ∀ l : List α, InOrder call ret (l.map f) ↔ InOrder (call ∘ f) (ret ∘ f) l :=
    fun l => List.pairwise_map
  constructor
  · rintro ⟨l, hperm, hl, hlegal⟩
    obtain ⟨l', rfl, hperm'⟩ : ∃ l' : List α, l = l'.map f ∧ l'.Perm ops := by
      have := (congrFun (congrFun (List.eq_map_comp_perm f) l) ops).mpr hperm
      exact this
    rw [hfold l' (fun a ha => hperm'.mem_iff.mp ha), Option.isSome_map] at hlegal
    exact ⟨l', hperm', (horder l').mp hl, hlegal⟩
  · rintro ⟨l, hperm, hl, hlegal⟩
    refine ⟨l.map f, hperm.map f, (horder l).mpr hl, ?_⟩
    rwa [hfold l (fun a ha => hperm.mem_iff.mp ha), Option.isSome_map]

section Objects

variable [DecidableEq κ] (key : α → κ) (step : σ → α → Option σ)

/-- Objects side by side; an operation concerns the one it names. -/
def product (s : κ → σ) (a : α) : Option (κ → σ) :=
  (step (s (key a)) a).map (Function.update s (key a))

theorem foldlM_product (l : List α) (s : κ → σ) :
    (l.foldlM (product key step) s).isSome ↔
      ∀ k, ((l.filter fun a => key a = k).foldlM step (s k)).isSome := by
  induction l generalizing s with
  | nil => exact iff_of_true rfl fun _ => rfl
  | cons a l ih =>
      rw [List.foldlM_cons]
      have hskip : ∀ k, key a ≠ k →
          ((a :: l).filter fun b => key b = k) = l.filter fun b => key b = k := fun k hk => by
        rw [List.filter_cons_of_neg (by simpa using hk)]
      have htake : ((a :: l).filter fun b => key b = key a) =
          a :: l.filter fun b => key b = key a := by
        rw [List.filter_cons_of_pos (by simp)]
      cases ha : step (s (key a)) a with
      | none =>
          refine iff_of_false (by simp [product, ha]) fun h => ?_
          have := h (key a)
          rw [htake, List.foldlM_cons, ha] at this
          cases this
      | some x =>
          have hproduct : product key step s a = some (Function.update s (key a) x) := by
            rw [product, ha]
            rfl
          rw [hproduct]
          refine (ih (Function.update s (key a) x)).trans (forall_congr' fun k => ?_)
          by_cases hk : key a = k
          · subst hk
            rw [htake, List.foldlM_cons, ha, Function.update_self]
            rfl
          · rw [hskip k hk, Function.update_of_ne (Ne.symm hk)]

theorem perm_flatMap_filter (keys : List κ) (hnd : keys.Nodup) (ops : List α)
    (hops : ∀ a ∈ ops, key a ∈ keys) :
    (keys.flatMap fun k => ops.filter fun a => key a = k).Perm ops := by
  induction keys generalizing ops with
  | nil =>
      obtain rfl : ops = [] := List.eq_nil_iff_forall_not_mem.mpr fun a ha =>
        List.not_mem_nil (hops a ha)
      exact List.Perm.refl _
  | cons k keys ih =>
      obtain ⟨hk, hnd⟩ := List.nodup_cons.mp hnd
      have hrest : (keys.flatMap fun k' => ops.filter fun a => key a = k').Perm
          (ops.filter fun a => ¬ key a = k) := by
        have hparts : (keys.flatMap fun k' => ops.filter fun a => key a = k') =
            keys.flatMap fun k' =>
              (ops.filter fun a => ¬ key a = k).filter fun a => key a = k' := by
          refine List.flatMap_congr fun k' hk' => ?_
          rw [List.filter_filter]
          refine List.filter_congr fun a _ => ?_
          have hne : k' ≠ k := fun heq => hk (heq ▸ hk')
          by_cases hak : key a = k' <;> simp [hak, hne]
        rw [hparts]
        refine ih hnd _ fun a ha => ?_
        obtain ⟨hmem, hne⟩ := List.mem_filter.mp ha
        exact (List.mem_cons.mp (hops a hmem)).resolve_left (by simpa using hne)
      rw [List.flatMap_cons]
      refine (hrest.append_left _).trans ?_
      simpa only [decide_not] using List.filter_append_perm (fun a => decide (key a = k)) ops

variable {key step}

/-- Histories that can be ordered object by object can be ordered as a whole: by the points
of time at which the operations take effect. -/
theorem linearizable_product {s : κ → σ} (hspan : ∀ a ∈ ops, call a ≤ ret a) :
    Linearizable call ret (product key step) s ops ↔
      ∀ k, Linearizable call ret step (s k) (ops.filter fun a => key a = k) := by
  constructor
  · rintro ⟨l, hperm, horder, hlegal⟩ k
    exact ⟨l.filter fun a => key a = k, hperm.filter _, List.Pairwise.filter _ horder,
      (foldlM_product key step l s).mp hlegal k⟩
  · intro h
    have hpart : ∀ k, ∃ m : List (α × T), (m.map Prod.fst).Perm (ops.filter fun a => key a = k) ∧
        Timed call ret m ∧ ((m.map Prod.fst).foldlM step (s k)).isSome := by
      intro k
      obtain ⟨l, hperm, horder, hlegal⟩ := h k
      obtain ⟨m, rfl, htimed⟩ := exists_timed horder fun a ha =>
        hspan a (List.mem_of_mem_filter (hperm.mem_iff.mp ha))
      exact ⟨m, hperm, htimed, hlegal⟩
    choose m hperm htimed hlegal using hpart
    let keys := (ops.map key).dedup
    let merged := (keys.flatMap m).mergeSort fun x y => x.2 ≤ y.2
    have hops : (merged.map Prod.fst).Perm ops := by
      refine ((List.mergeSort_perm _ _).map Prod.fst).trans ?_
      rw [List.map_flatMap]
      refine (List.Perm.flatMap_left _ fun k _ => hperm k).trans ?_
      refine perm_flatMap_filter key keys (List.nodup_dedup _) ops fun a ha => ?_
      exact List.mem_dedup.mpr (List.mem_map_of_mem ha)
    have htrans : ∀ x y z : α × T, decide (x.2 ≤ y.2) = true → decide (y.2 ≤ z.2) = true →
        decide (x.2 ≤ z.2) = true := by
      intro x y z hxy hyz
      rw [decide_eq_true_eq] at *
      exact hxy.trans hyz
    have htotal : ∀ x y : α × T, (decide (x.2 ≤ y.2) || decide (y.2 ≤ x.2)) = true := by
      intro x y
      simpa using le_total x.2 y.2
    have hmerged : Timed call ret merged := by
      refine ⟨?_, fun x hx => ?_⟩
      · exact (List.pairwise_mergeSort htrans htotal _).imp fun h => of_decide_eq_true h
      · obtain ⟨k, -, hk⟩ := List.mem_flatMap.mp ((List.mergeSort_perm _ _).mem_iff.mp hx)
        exact (htimed k).within x hk
    refine ⟨merged.map Prod.fst, hops, inOrder_of_timed hmerged,
      (foldlM_product key step _ s).mpr fun k => ?_⟩
    -- The merged order has every part in its own order.
    have hkey : ∀ x ∈ m k, key x.1 = k := fun x hx => by
      have := (hperm k).mem_iff.mp (List.mem_map_of_mem hx)
      simpa using (List.mem_filter.mp this).2
    have hsub : (m k).Sublist merged := by
      refine List.sublist_mergeSort htrans htotal
        ((htimed k).sorted.imp fun h => decide_eq_true h) ?_
      by_cases hk : k ∈ keys
      · rw [List.flatMap_def]
        exact List.sublist_flatten_of_mem (List.mem_map_of_mem hk)
      · have hnone : m k = [] := List.eq_nil_iff_forall_not_mem.mpr fun x hx => by
          have := (hperm k).mem_iff.mp (List.mem_map_of_mem hx)
          refine hk (List.mem_dedup.mpr ?_)
          exact hkey x hx ▸ List.mem_map_of_mem (List.mem_of_mem_filter this)
        rw [hnone]
        exact List.nil_sublist _
    have hsame : m k = merged.filter (fun x => key x.1 = k) := by
      have hall : (m k).filter (fun x => key x.1 = k) = m k :=
        List.filter_eq_self.mpr fun x hx => decide_eq_true (hkey x hx)
      refine List.Sublist.eq_of_length (hall ▸ hsub.filter _) ?_
      have hlen := ((hops.filter fun a => key a = k).trans (hperm k).symm).length_eq
      rw [List.filter_map, List.length_map, List.length_map] at hlen
      exact hlen.symm
    have hfilter : (merged.map Prod.fst).filter (fun a => key a = k) = (m k).map Prod.fst := by
      rw [List.filter_map, hsame]
      rfl
    rw [hfilter]
    exact hlegal k

end Objects

section Places

variable {step : σ → α → Option σ} {state : ℕ → σ} {place : α → ℕ} {updates : α → Bool}
variable {ops : List α}

variable (step state place updates) in
/-- Operations with places in a sequence of states. An update leads to the state at its place,
and each place has one update at most; everything else leaves the state at its place alone. -/
structure Placed (ops : List α) : Prop where
  update : ∀ a ∈ ops, updates a = true →
    0 < place a ∧ step (state (place a - 1)) a = some (state (place a))
  other : ∀ a ∈ ops, updates a = false → step (state (place a)) a = some (state (place a))
  single : ∀ a ∈ ops, ∀ b ∈ ops, updates a = true → updates b = true → place a = place b → a = b
  idle : ∀ p, (∀ a ∈ ops, updates a = true → place a ≠ p + 1) → state (p + 1) = state p

variable (call place updates) in
/-- The operations of one place: the update first, then the others as they were called. -/
def group (ops : List α) (p : ℕ) : List α :=
  (ops.filter fun a => place a = p).filter updates ++
    ((ops.filter fun a => place a = p).filter fun a => !updates a).mergeSort
      fun a b => call a ≤ call b

theorem group_perm (p : ℕ) :
    (group call place updates ops p).Perm (ops.filter fun a => place a = p) :=
  ((List.mergeSort_perm _ _).append_left _).trans (List.filter_append_perm updates _)

theorem mem_group {p : ℕ} {a : α} :
    a ∈ group call place updates ops p ↔ a ∈ ops ∧ place a = p := by
  rw [(group_perm p).mem_iff, List.mem_filter, decide_eq_true_eq]

theorem mem_filter_place {p : ℕ} {q : α → Bool} {a : α}
    (ha : a ∈ (ops.filter fun a => place a = p).filter q) : a ∈ ops ∧ place a = p ∧ q a = true := by
  obtain ⟨hat, hq⟩ := List.mem_filter.mp ha
  obtain ⟨hops, hplace⟩ := List.mem_filter.mp hat
  exact ⟨hops, of_decide_eq_true hplace, hq⟩

theorem inOrder_group (hspan : ∀ a ∈ ops, call a ≤ ret a)
    (horder : ∀ a ∈ ops, ∀ b ∈ ops, ret b < call a →
      place b < place a ∨ place b = place a ∧ updates a = false) (p : ℕ) :
    InOrder call ret (group call place updates ops p) := by
  have hfirst : ∀ a ∈ ops, ∀ b ∈ ops, place a = p → place b = p → updates a = true →
      call a ≤ ret b := by
    intro a ha b hb hpa hpb hup
    by_contra hlt
    rcases horder a ha b hb (lt_of_not_ge hlt) with hplace | ⟨-, hno⟩
    · omega
    · exact Bool.noConfusion (hno.symm.trans hup)
  have hsorted := List.pairwise_mergeSort
    (fun (a b c : α) (hab : decide (call a ≤ call b) = true)
      (hbc : decide (call b ≤ call c) = true) =>
      decide_eq_true ((of_decide_eq_true hab).trans (of_decide_eq_true hbc)))
    (fun a b => by simpa using le_total (call a) (call b))
    ((ops.filter fun a => place a = p).filter fun a => !updates a)
  refine List.pairwise_append.mpr ⟨?_, ?_, ?_⟩
  · refine List.pairwise_of_forall_mem_list fun a ha b hb => ?_
    obtain ⟨hops, hplace, hup⟩ := mem_filter_place ha
    obtain ⟨hops', hplace', -⟩ := mem_filter_place hb
    exact hfirst a hops b hops' hplace hplace' hup
  · refine hsorted.imp_of_mem fun {a b} _ hb hle => (of_decide_eq_true hle).trans (hspan b ?_)
    exact (mem_filter_place (List.mem_mergeSort.mp hb)).1
  · intro a ha b hb
    obtain ⟨hops, hplace, hup⟩ := mem_filter_place ha
    obtain ⟨hops', hplace', -⟩ := mem_filter_place (List.mem_mergeSort.mp hb)
    exact hfirst a hops b hops' hplace hplace' hup

theorem foldlM_of_fixed (h : ∀ a ∈ l, step s a = some s) :
    l.foldlM step s = some s := by
  induction l with
  | nil => rfl
  | cons a l ih =>
      rw [List.foldlM_cons, h a List.mem_cons_self]
      exact ih fun b hb => h b (List.mem_cons_of_mem _ hb)

variable (call) in
theorem foldlM_group (h : Placed step state place updates ops) (hnd : ops.Nodup) (p : ℕ) :
    (group call place updates ops p).foldlM step (state (p - 1)) = some (state p) := by
  have hothers : (((ops.filter fun a => place a = p).filter fun a => !updates a).mergeSort
      fun a b => call a ≤ call b).foldlM step (state p) = some (state p) := by
    refine foldlM_of_fixed fun a ha => ?_
    obtain ⟨hops, rfl, hno⟩ := mem_filter_place (List.mem_mergeSort.mp ha)
    exact h.other a hops (by simpa using hno)
  have hupdates : ((ops.filter fun a => place a = p).filter updates).foldlM step (state (p - 1)) =
      some (state p) := by
    have hnd' : ((ops.filter fun a => place a = p).filter updates).Nodup :=
      (hnd.filter _).filter _
    rcases hl : (ops.filter fun a => place a = p).filter updates with _ | ⟨a, _ | ⟨b, l⟩⟩
    · cases p with
      | zero => rfl
      | succ p =>
          refine congrArg some (h.idle p fun a ha hup hplace => ?_).symm
          have : a ∈ (ops.filter fun a => place a = p + 1).filter updates := by
            simp [ha, hup, hplace]
          rw [hl] at this
          exact absurd this List.not_mem_nil
    · obtain ⟨hops, rfl, hup⟩ := mem_filter_place (hl ▸ List.mem_cons_self : a ∈ _)
      rw [List.foldlM_cons, (h.update a hops hup).2]
      rfl
    · obtain ⟨hops, hplace, hup⟩ := mem_filter_place (hl ▸ List.mem_cons_self : a ∈ _)
      obtain ⟨hops', hplace', hup'⟩ :=
        mem_filter_place (hl ▸ List.mem_cons_of_mem _ List.mem_cons_self : b ∈ _)
      rw [hl] at hnd'
      refine absurd ?_ (List.nodup_cons.mp hnd').1
      rw [h.single a hops b hops' hup hup' (hplace.trans hplace'.symm)]
      exact List.mem_cons_self
  rw [group, List.foldlM_append, hupdates]
  exact hothers

variable (call) in
theorem foldlM_groups (h : Placed step state place updates ops) (hnd : ops.Nodup) (n : ℕ) :
    ((List.range (n + 1)).flatMap (group call place updates ops)).foldlM step (state 0) =
      some (state n) := by
  induction n with
  | zero =>
      have := foldlM_group call h hnd 0
      simpa using this
  | succ n ih =>
      rw [List.range_succ, List.flatMap_append, List.foldlM_append, ih]
      simpa using foldlM_group call h hnd (n + 1)

/-- Operations can be ordered as their places are, if real time allows it. -/
theorem linearizable_of_placed (h : Placed step state place updates ops) (hnd : ops.Nodup)
    (hspan : ∀ a ∈ ops, call a ≤ ret a)
    (horder : ∀ a ∈ ops, ∀ b ∈ ops, ret b < call a →
      place b < place a ∨ place b = place a ∧ updates a = false) :
    Linearizable call ret step (state 0) ops := by
  obtain ⟨n, hn⟩ : ∃ n, ∀ a ∈ ops, place a ≤ n :=
    ⟨(ops.map place).sum, fun a ha => List.single_le_sum (fun _ _ => Nat.zero_le _) _
      (List.mem_map_of_mem ha)⟩
  refine ⟨(List.range (n + 1)).flatMap (group call place updates ops), ?_, ?_, ?_⟩
  · refine (List.Perm.flatMap_left _ fun p _ => group_perm p).trans ?_
    refine perm_flatMap_filter place _ List.nodup_range ops fun a ha => ?_
    exact List.mem_range.mpr (Nat.lt_succ_of_le (hn a ha))
  · refine List.pairwise_flatMap.mpr ⟨fun p _ => inOrder_group hspan horder p, ?_⟩
    refine List.pairwise_lt_range.imp fun {p q} hpq a ha b hb => ?_
    obtain ⟨hops, rfl⟩ := mem_group.mp ha
    obtain ⟨hops', rfl⟩ := mem_group.mp hb
    by_contra hlt
    rcases horder a hops b hops' (lt_of_not_ge hlt) with hplace | ⟨hplace, -⟩ <;> omega
  · rw [foldlM_groups call h hnd n]
    rfl

end Places

end RaftKV.Distributed.Linearizability
