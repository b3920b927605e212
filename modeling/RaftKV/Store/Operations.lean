import RaftKV.Store.Durable

namespace RaftKV.Store.Operations

open Codec.Record
open Files.Directories Files.Programs
open Raft (Bytes)
open Store.Commands Store.Segments Store.Snapshots Store.Durable

variable {b : Bytes} {s : DurableStore} {Q : Except StoreError Unit → Volume Dir → Prop} {seq : Nat}
variable {d d' : Volume Dir}

/-- Two volumes that differ in temporary files only. -/
def Same (d d' : Volume Dir) : Prop :=
  d' .wal = d .wal ∧ d' .snap = d .snap

theorem Same.refl (d : Volume Dir) : Same d d :=
  ⟨rfl, rfl⟩

theorem Same.trans {d'' : Volume Dir} (h : Same d d') (h' : Same d' d'') : Same d d'' :=
  ⟨h'.1.trans h.1, h'.2.trans h.2⟩

theorem same_write_tmp (d : Volume Dir) (name : Nat) (data : Bytes) :
    Same d (write d .tmp name data) :=
  ⟨write_of_ne (by decide) d name data, write_of_ne (by decide) d name data⟩

theorem same_erase_tmp (d : Volume Dir) (name : Nat) : Same d (erase d .tmp name) :=
  ⟨erase_of_ne (by decide) d name, erase_of_ne (by decide) d name⟩

/-- The snapshot `data` of number `seq` is in place. -/
def Installed (seq : Nat) (data : Bytes) (d d' : Volume Dir) : Prop :=
  d' .wal = d .wal ∧ d' .snap = (d .snap).insert seq data

section Programs

variable {faults : Prop} {K : Volume Dir → Prop} {d : Volume Dir}

theorem holds_cleanUp (seq : Nat)
    (hK : ∀ d', Same d d' → K d') (hQ : ∀ d', Same d d' → Q (.error .system) d') :
    Holds faults Q K (.call (.remove .tmp seq) fun _ => .ret (.error .system)) d := by
  have hsame : Holds faults Q K (.ret (.error .system)) d := ⟨hK d (.refl d), hQ d (.refl d)⟩
  refine ⟨?_, ?_⟩
  · intro d' ht
    cases ht
    exact ⟨hsame.1, fun _ => hsame⟩
  · rw [effect]
    cases (d .tmp)[seq]? with
    | none => exact hsame
    | some b =>
        exact ⟨hK _ (same_erase_tmp d seq), hQ _ (same_erase_tmp d seq)⟩

theorem holds_writeSnapshot
    {rows : List (Bytes × Bytes)}
    (hK : ∀ d', Same d d' ∨ Installed seq (encodeSnapshot seq rows) d d' → K d')
    (hdone : ∀ d', Installed seq (encodeSnapshot seq rows) d d' → Q (.ok ()) d')
    (hfailed : faults → ∀ d', Same d d' ∨ Installed seq (encodeSnapshot seq rows) d d' →
      Q (.error .system) d') :
    Holds faults Q K (writeSnapshot seq rows) d := by
  -- Giving up at a volume that differs in temporary files only.
  have hgive : faults → ∀ {d₁}, Same d d₁ →
      Holds faults Q K (.call (.remove .tmp seq) fun _ => .ret (.error .system)) d₁ :=
    fun hf d₁ hs => holds_cleanUp seq (fun d' h' => hK d' (Or.inl (hs.trans h')))
      fun d' h' => hfailed hf d' (Or.inl (hs.trans h'))
  have hs₁ := same_write_tmp d seq []
  refine holds_attempt_some (e := write d .tmp seq []) rfl ?_ ?_
  · intro d' ht
    cases ht
    have hstart := hK d (Or.inl (.refl d))
    exact ⟨hstart, fun hf => ⟨hstart, hfailed hf d (Or.inl (.refl d))⟩⟩
  have hget₁ : (write d .tmp seq [] .tmp)[seq]? = some [] := by
    rw [write_same]
    exact Std.ExtTreeMap.getElem?_insert_self
  generalize write d .tmp seq [] = d₁ at hs₁ hget₁
  have hs₂ := hs₁.trans (same_write_tmp d₁ seq (encodeSnapshot seq rows))
  refine holds_attempt_some (e := write d₁ .tmp seq (encodeSnapshot seq rows)) ?_ ?_ ?_
  · rw [effect, hget₁]
    rfl
  · intro d' ht
    cases ht with
    | untouched => exact ⟨hK _ (Or.inl hs₁), fun hf => hgive hf hs₁⟩
    | part n h =>
        exact ⟨hK _ (Or.inl (hs₁.trans (same_write_tmp _ _ _))),
          fun hf => hgive hf (hs₁.trans (same_write_tmp _ _ _))⟩
  have hget₂ : (write d₁ .tmp seq (encodeSnapshot seq rows) .tmp)[seq]? =
      some (encodeSnapshot seq rows) := by
    rw [write_same]
    exact Std.ExtTreeMap.getElem?_insert_self
  generalize write d₁ .tmp seq (encodeSnapshot seq rows) = d₂ at hs₂ hget₂
  have hwait : ∀ d', Torn d₂ (.sync .tmp seq) d' ∨ Torn d₂ (.rename .tmp seq .snap seq) d' →
      K d' ∧ (faults →
        Holds faults Q K (.call (.remove .tmp seq) fun _ => .ret (.error .system)) d') := by
    rintro d' (ht | ht) <;> cases ht <;>
      exact ⟨hK _ (Or.inl hs₂), fun hf => hgive hf hs₂⟩
  refine holds_attempt_some (e := d₂) ?_ (fun d' ht => hwait d' (Or.inl ht)) ?_
  · rw [effect, hget₂]
    rfl
  refine holds_attempt_some
    (e := write (erase d₂ .tmp seq) .snap seq (encodeSnapshot seq rows)) ?_
    (fun d' ht => hwait d' (Or.inr ht)) ?_
  · rw [effect, hget₂]
    rfl
  have hinst : Installed seq (encodeSnapshot seq rows) d
      (write (erase d₂ .tmp seq) .snap seq (encodeSnapshot seq rows)) := by
    refine ⟨?_, ?_⟩
    · rw [write_of_ne (by decide), erase_of_ne (by decide), hs₂.1]
    · rw [write_same, erase_of_ne (by decide), hs₂.2]
  generalize write (erase d₂ .tmp seq) .snap seq (encodeSnapshot seq rows) = d₃ at hinst
  refine holds_attempt_some (e := d₃) rfl ?_ ⟨hK _ (Or.inr hinst), hdone _ hinst⟩
  intro d' ht
  cases ht
  have hstill : ∀ {d'}, Same d₃ d' → Installed seq (encodeSnapshot seq rows) d d' := fun h' =>
    ⟨h'.1.trans hinst.1, h'.2.trans hinst.2⟩
  exact ⟨hK _ (Or.inr hinst), fun hf => holds_cleanUp seq (fun d' h' => hK d' (Or.inr (hstill h')))
    fun d' h' => hfailed hf d' (Or.inr (hstill h'))⟩

def Created (seq : Nat) (d d' : Volume Dir) : Prop :=
  d' .wal = (d .wal).insert seq [] ∧ d' .snap = d .snap

theorem holds_createWAL {Q : Except StoreError Wal → Volume Dir → Prop} (hd : K d)
    (hK : (d .wal)[seq]? = none → ∀ d', Created seq d d' → K d')
    (hdone : (d .wal)[seq]? = none → ∀ d', Created seq d d' →
      Q (.ok { start := seq, size := 0, failed := false, closed := false }) d')
    (hexists : (d .wal)[seq]? ≠ none → Q (.error .system) d)
    (hfailed : faults → Q (.error .system) d ∧
      ((d .wal)[seq]? = none → ∀ d', Created seq d d' → Q (.error .system) d')) :
    Holds faults Q K (createWAL seq) d := by
  refine holds_attempt ?_ ?_ ?_
  · intro d' ht
    cases ht
    exact ⟨hd, fun hf => ⟨hd, (hfailed hf).1⟩⟩
  · intro d₁ he
    rw [effect] at he
    cases hget : (d .wal)[seq]? with
    | some b =>
        rw [hget] at he
        cases he
    | none =>
        rw [hget] at he
        cases he
        have hnew : Created seq d (write d .wal seq []) :=
          ⟨write_same d .wal seq [], write_of_ne (by decide) d seq []⟩
        refine holds_attempt ?_ ?_ ?_
        · intro d' ht
          cases ht
          exact ⟨hK hget _ hnew, fun hf => ⟨hK hget _ hnew, (hfailed hf).2 hget _ hnew⟩⟩
        · intro d₂ he
          cases he
          exact ⟨hK hget _ hnew, hdone hget _ hnew⟩
        · intro he
          cases he
  · intro he
    refine ⟨hd, hexists fun hnone => ?_⟩
    rw [effect, hnone] at he
    cases he

theorem exists_drop_of_suffix {α : Type} {l left : List α} {n : Nat} (h : left <:+ l.take n) :
    ∃ m ≤ n, left ++ l.drop n = l.drop m := by
  obtain ⟨gone, hgone⟩ := h
  refine ⟨gone.length, ?_, ?_⟩
  · have hlen := congrArg List.length hgone
    rw [List.length_append, List.length_take] at hlen
    omega
  · calc left ++ l.drop n = (gone ++ left ++ l.drop n).drop gone.length := by simp
      _ = l.drop gone.length := by rw [hgone, List.take_append_drop]

theorem holds_pruneSnapshots {keep : Nat}
    (hK : ∀ d' n, n ≤ (d .snap).toList.length - keep → d' .wal = d .wal →
      (d' .snap).toList = (d .snap).toList.drop n → K d')
    (hdone : ∀ d', d' .wal = d .wal →
      (d' .snap).toList = (d .snap).toList.drop ((d .snap).toList.length - keep) → Q (.ok ()) d')
    (hfailed : faults → ∀ d' n, n ≤ (d .snap).toList.length - keep → d' .wal = d .wal →
      (d' .snap).toList = (d .snap).toList.drop n → Q (.error .system) d') :
    Holds faults Q K (pruneSnapshots keep) d := by
  have hkeys : (d .snap).keys.take ((d .snap).keys.length - keep) =
      ((d .snap).toList.take ((d .snap).toList.length - keep)).map Prod.fst := by
    rw [← Std.ExtTreeMap.map_fst_toList_eq_keys, List.length_map, List.map_take]
  have hsplit : (d .snap).toList = (d .snap).toList.take ((d .snap).toList.length - keep) ++
      (d .snap).toList.drop ((d .snap).toList.length - keep) :=
    (List.take_append_drop _ _).symm
  unfold pruneSnapshots
  change Holds faults Q K (Prog.removeAll .snap ((d .snap).keys.take _) >>= _) d
  rw [hkeys]
  refine holds_bind (holds_removeAll hsplit ?_ ?_ ?_)
  · intro d' left hl hlist hother
    obtain ⟨n, hn, hdrop⟩ := exists_drop_of_suffix hl
    exact hK d' n hn (hother .wal (by decide)) (hlist.trans hdrop)
  · intro d' hlist hother
    exact ⟨hK d' _ le_rfl (hother .wal (by decide)) hlist,
      hdone d' (hother .wal (by decide)) hlist⟩
  · intro hf d' left hl hlist hother
    obtain ⟨n, hn, hdrop⟩ := exists_drop_of_suffix hl
    exact ⟨hK d' n hn (hother .wal (by decide)) (hlist.trans hdrop),
      hfailed hf d' n hn (hother .wal (by decide)) (hlist.trans hdrop)⟩

end Programs

/-- The volumes a snapshot goes through: temporary files, the snapshot in place, the new
segment while old ones are deleted, the old snapshots while they are pruned. -/
inductive Stage (seq : Nat) (data : Bytes) (d : Volume Dir) : Volume Dir → Prop
  | begun {d' : Volume Dir} (h : Same d d') : Stage seq data d d'
  | installed {d' : Volume Dir} (h : Installed seq data d d') : Stage seq data d d'
  | rotated {d' : Volume Dir} (hnew : (d .wal)[seq + 1]? = none) (left : List (Nat × Bytes))
      (hleft : left <:+ (d .wal).toList) (hwal : (d' .wal).toList = left ++ [(seq + 1, [])])
      (hsnap : d' .snap = (d .snap).insert seq data) : Stage seq data d d'
  | pruned {d' : Volume Dir} (hnew : (d .wal)[seq + 1]? = none)
      (hwal : (d' .wal).toList = [(seq + 1, [])]) (n : Nat)
      (hn : n ≤ ((d .snap).insert seq data).toList.length - 2)
      (hsnap : (d' .snap).toList = ((d .snap).insert seq data).toList.drop n) :
      Stage seq data d d'

def rotated (s : DurableStore) : DurableStore :=
  { s with wal := { start := s.seq + 1, size := 0, failed := false, closed := false } }

/-- How a snapshot ends when no call fails for no reason of its own. -/
inductive Ends (s : DurableStore) (data : Bytes) (d : Volume Dir) :
    DurableStore × Except StoreError Unit → Volume Dir → Prop
  | failed {d' : Volume Dir} (hfailed : s.wal.failed = true) (h : Installed s.seq data d d') :
      Ends s data d (s, .error .walFailed) d'
  | occupied {d' : Volume Dir} (hfailed : s.wal.failed = false)
      (hold : (d .wal)[s.seq + 1]? ≠ none) (h : Installed s.seq data d d') :
      Ends s data d (s, .error .system) d'
  | closed {d' : Volume Dir} (hfailed : s.wal.failed = false) (hclosed : s.wal.closed = true)
      (hnew : (d .wal)[s.seq + 1]? = none)
      (hwal : (d' .wal).toList = (d .wal).toList ++ [(s.seq + 1, [])])
      (hsnap : d' .snap = (d .snap).insert s.seq data) :
      Ends s data d (rotated s, .error .closed) d'
  | done {d' : Volume Dir} (hfailed : s.wal.failed = false) (hclosed : s.wal.closed = false)
      (hnew : (d .wal)[s.seq + 1]? = none) (hwal : (d' .wal).toList = [(s.seq + 1, [])])
      (hsnap : (d' .snap).toList = ((d .snap).insert s.seq data).toList.drop
        (((d .snap).insert s.seq data).toList.length - 2)) :
      Ends s data d (rotated s, .ok ()) d'

theorem stage_of_ends {data : Bytes}
    {r : DurableStore × Except StoreError Unit} (h : Ends s data d r d') :
    Stage s.seq data d d' := by
  cases h with
  | failed _ h => exact .installed h
  | occupied _ _ h => exact .installed h
  | closed _ _ hnew hwal hsnap => exact .rotated hnew _ List.suffix_rfl hwal hsnap
  | done _ _ hnew hwal hsnap => exact .pruned hnew hwal _ le_rfl hsnap

/-- How a snapshot ends when a call of it fails: the store stays on its segment, even if the
next one has been created, or it has moved on and old files are left. -/
inductive Faulted (s : DurableStore) (data : Bytes) (d : Volume Dir) :
    DurableStore → Volume Dir → Prop
  | kept {d' : Volume Dir} (h : Same d d' ∨ Installed s.seq data d d') : Faulted s data d s d'
  | orphaned {d' : Volume Dir} (hnew : (d .wal)[s.seq + 1]? = none)
      (hwal : (d' .wal).toList = (d .wal).toList ++ [(s.seq + 1, [])])
      (hsnap : d' .snap = (d .snap).insert s.seq data) : Faulted s data d s d'
  | moved {d' : Volume Dir} (hnew : (d .wal)[s.seq + 1]? = none) (left : List (Nat × Bytes))
      (hleft : left <:+ (d .wal).toList) (hwal : (d' .wal).toList = left ++ [(s.seq + 1, [])])
      (hsnap : d' .snap = (d .snap).insert s.seq data) : Faulted s data d (rotated s) d'
  | pruned {d' : Volume Dir} (hnew : (d .wal)[s.seq + 1]? = none)
      (hwal : (d' .wal).toList = [(s.seq + 1, [])]) (n : Nat)
      (hn : n ≤ ((d .snap).insert s.seq data).toList.length - 2)
      (hsnap : (d' .snap).toList = ((d .snap).insert s.seq data).toList.drop n) :
      Faulted s data d (rotated s) d'

theorem stage_of_faulted {s' : DurableStore} {data : Bytes}
    (h : Faulted s data d s' d') : Stage s.seq data d d' := by
  cases h with
  | kept h =>
      rcases h with h | h
      · exact .begun h
      · exact .installed h
  | orphaned hnew hwal hsnap => exact .rotated hnew _ List.suffix_rfl hwal hsnap
  | moved hnew left hleft hwal hsnap => exact .rotated hnew left hleft hwal hsnap
  | pruned hnew hwal n hn hsnap => exact .pruned hnew hwal n hn hsnap

section Snapshot

variable {faults : Prop} {K : Volume Dir → Prop} {d : Volume Dir}

theorem toList_created
    (hnames : ∀ p ∈ (d .wal).toList, p.1 ≤ seq) (hnone : (d .wal)[seq]? = none)
    (h : Created seq d d') : (d' .wal).toList = (d .wal).toList ++ [(seq, [])] := by
  rw [h.1]
  refine toList_insert_new fun p hp => lt_of_le_of_ne (hnames p hp) ?_
  rintro rfl
  rw [mem_toList, hnone] at hp
  cases hp

theorem holds_trim {Q : DurableStore × Except StoreError Unit → Volume Dir → Prop}
    {l : List (Nat × Bytes)} {last : Nat × Bytes}
    (hlist : (d .wal).toList = l ++ [last])
    (hwal : ∀ d' left, left <:+ l → (d' .wal).toList = left ++ [last] → d' .snap = d .snap → K d')
    (hsnap : ∀ d' n, n ≤ (d .snap).toList.length - 2 → (d' .wal).toList = [last] →
      (d' .snap).toList = (d .snap).toList.drop n → K d')
    (hdone : ∀ d', (d' .wal).toList = [last] →
      (d' .snap).toList = (d .snap).toList.drop ((d .snap).toList.length - 2) → Q (s, .ok ()) d')
    (hfault : faults → ∀ d' err,
      (∃ left, left <:+ l ∧ (d' .wal).toList = left ++ [last] ∧ d' .snap = d .snap) ∨
      (∃ n ≤ (d .snap).toList.length - 2, (d' .wal).toList = [last] ∧
        (d' .snap).toList = (d .snap).toList.drop n) → Q (s, .error err) d') :
    Holds faults Q K (.look fun d =>
      Prog.removeAll .wal ((listSegments d).map Prod.fst).dropLast >>= fun
        | false => .ret (s, .error .system)
        | true => pruneSnapshots 2 >>= fun res => .ret (s, res)) d := by
  have hnames : ((listSegments d).map Prod.fst).dropLast = l.map Prod.fst := by
    rw [listSegments, hlist, List.map_append, List.map_singleton, List.dropLast_concat]
  change Holds faults Q K (Prog.removeAll .wal ((listSegments d).map Prod.fst).dropLast >>= _) d
  rw [hnames]
  refine holds_bind (holds_removeAll hlist ?_ ?_ ?_)
  · intro d' left hl hw ho
    exact hwal d' left hl hw (ho .snap (by decide))
  · intro d₁ hw ho
    have hsame : (d₁ .snap).toList = (d .snap).toList := by
      rw [ho .snap (by decide)]
    refine holds_bind (holds_pruneSnapshots ?_ ?_ ?_)
    · intro d' n hn hw' hs
      rw [hsame] at hn hs
      exact hsnap d' n hn (by rw [hw', hw]) hs
    · intro d' hw' hs
      rw [hsame] at hs
      exact ⟨hsnap d' _ le_rfl (by rw [hw', hw]) hs, hdone d' (by rw [hw', hw]) hs⟩
    · intro hf d' n hn hw' hs
      rw [hsame] at hn hs
      have hw'' : (d' .wal).toList = [last] := by
        rw [hw', hw]
      exact ⟨hsnap d' n hn hw'' hs, hfault hf d' _ (Or.inr ⟨n, hn, hw'', hs⟩)⟩
  · intro hf d' left hl hw ho
    exact ⟨hwal d' left hl hw (ho .snap (by decide)),
      hfault hf d' _ (Or.inl ⟨left, hl, hw, ho .snap (by decide)⟩)⟩

theorem holds_snapshot {Q : DurableStore × Except StoreError Unit → Volume Dir → Prop}
    {order : Order} (hnames : ∀ p ∈ (d .wal).toList, p.1 ≤ s.seq + 1)
    (hK : ∀ d', Stage s.seq (encodeSnapshot s.seq (order s.mem)) d d' → K d')
    (hends : ∀ r d', Ends s (encodeSnapshot s.seq (order s.mem)) d r d' → Q r d')
    (hfault : faults → ∀ s' err d', Faulted s (encodeSnapshot s.seq (order s.mem)) d s' d' →
      Q (s', .error err) d') :
    Holds faults Q K (s.snapshot order) d := by
  generalize hdata : encodeSnapshot s.seq (order s.mem) = data at hK hends hfault
  refine holds_bind (holds_writeSnapshot ?_ ?_ ?_)
  · rw [hdata]
    rintro d' (h | h)
    · exact hK d' (.begun h)
    · exact hK d' (.installed h)
  · rw [hdata]
    intro d₁ hinst
    change Holds faults Q K (s.wal.rotate (s.seq + 1) >>= _) d₁
    unfold Wal.rotate
    cases hfailed : s.wal.failed with
    | true =>
        rw [if_pos rfl]
        exact ⟨hK d₁ (.installed hinst), hends _ d₁ (.failed hfailed hinst)⟩
    | false =>
        rw [if_neg (by decide)]
        have hnames₁ : ∀ p ∈ (d₁ .wal).toList, p.1 ≤ s.seq + 1 := by
          rw [hinst.1]
          exact hnames
        have hlist : (d₁ .wal)[s.seq + 1]? = none → ∀ d', Created (s.seq + 1) d₁ d' →
            (d .wal)[s.seq + 1]? = none ∧ (d' .wal).toList = (d .wal).toList ++ [(s.seq + 1, [])] ∧
              d' .snap = (d .snap).insert s.seq data := by
          intro hnone d' hnew
          have := toList_created hnames₁ hnone hnew
          rw [hinst.1] at this hnone
          exact ⟨hnone, this, hnew.2.trans hinst.2⟩
        refine holds_bind (holds_bind (holds_createWAL (hK d₁ (.installed hinst)) ?_ ?_ ?_ ?_))
        · intro hnone d' hnew
          obtain ⟨hnone', hwal, hsnap⟩ := hlist hnone d' hnew
          exact hK d' (.rotated hnone' _ List.suffix_rfl hwal hsnap)
        · intro hnone d₂ hnew
          obtain ⟨hnone', hwal, hsnap⟩ := hlist hnone d₂ hnew
          have hstart := hK d₂ (.rotated hnone' _ List.suffix_rfl hwal hsnap)
          refine ⟨hstart, ?_⟩
          cases hclosed : s.wal.closed with
          | true => exact ⟨hstart, hends _ d₂ (.closed hfailed hclosed hnone' hwal hsnap)⟩
          | false =>
              refine holds_trim (s := rotated s) hwal ?_ ?_ ?_ ?_
              · intro d' left hl hw hs
                exact hK d' (.rotated hnone' left hl hw (hs.trans hsnap))
              · rw [hsnap]
                intro d' n hn hw hs
                exact hK d' (.pruned hnone' hw n hn hs)
              · rw [hsnap]
                intro d' hw hs
                exact hends _ d' (.done hfailed hclosed hnone' hw hs)
              · rw [hsnap]
                rintro hf d' err (⟨left, hl, hw, hs⟩ | ⟨n, hn, hw, hs⟩)
                · exact hfault hf _ err d' (.moved hnone' left hl hw hs)
                · exact hfault hf _ err d' (.pruned hnone' hw n hn hs)
        · intro hold
          have hstart := hK d₁ (.installed hinst)
          rw [hinst.1] at hold
          exact ⟨hstart, hstart, hends _ d₁ (.occupied hfailed hold hinst)⟩
        · intro hf
          have hstart := hK d₁ (.installed hinst)
          refine ⟨⟨hstart, hstart, hfault hf _ _ d₁ (.kept (Or.inr hinst))⟩, ?_⟩
          intro hnone d' hnew
          obtain ⟨hnone', hwal, hsnap⟩ := hlist hnone d' hnew
          have hd' := hK d' (.rotated hnone' _ List.suffix_rfl hwal hsnap)
          exact ⟨hd', hd', hfault hf _ _ d' (.orphaned hnone' hwal hsnap)⟩
  · rw [hdata]
    rintro hf d' (h | h)
    · exact ⟨hK d' (.begun h), hfault hf _ _ d' (.kept (Or.inl h))⟩
    · exact ⟨hK d' (.installed h), hfault hf _ _ d' (.kept (Or.inr h))⟩

end Snapshot

section Writes

variable {faults : Prop} {K : Volume Dir → Prop} {d : Volume Dir}

theorem holds_append {Q : Wal × Except StoreError Unit → Volume Dir → Prop} {w : Wal}
    {command : Bytes} (hfailed : w.failed = false) (hclosed : w.closed = false)
    (hfile : (d .wal)[w.start]? = some b)
    (hK : ∀ n, K (write d .wal w.start (b ++ (frame [] (payload seq command)).take n)))
    (hdone : Q ({ w with size := w.size + (frame [] (payload seq command)).length }, .ok ())
      (write d .wal w.start (b ++ frame [] (payload seq command))))
    (hfault : faults → ∀ n, Q ({ w with failed := true }, .error .system)
      (write d .wal w.start (b ++ (frame [] (payload seq command)).take n))) :
    Holds faults Q K (w.append seq command) d := by
  generalize hf : frame [] (payload seq command) = f at hK hdone hfault
  have hempty : write d .wal w.start (b ++ f.take 0) = d := by
    rw [List.take_zero, List.append_nil]
    exact write_eq_self hfile
  have hfull : write d .wal w.start (b ++ f.take f.length) = write d .wal w.start (b ++ f) := by
    rw [List.take_length]
  unfold Wal.append
  rw [if_neg (by rw [hfailed]; decide), if_neg (by rw [hclosed]; decide), hf]
  refine holds_attempt_some (e := write d .wal w.start (b ++ f)) ?_ ?_ ?_
  · rw [effect, hfile]
    rfl
  · intro d' ht
    cases ht with
    | untouched =>
        have hd := hK 0
        rw [hempty] at hd
        refine ⟨hd, fun hx => ⟨hd, ?_⟩⟩
        have := hfault hx 0
        rwa [hempty] at this
    | part n h =>
        rw [hfile] at h
        cases h
        exact ⟨hK n, fun hx => ⟨hK n, hfault hx n⟩⟩
  · have hwritten := hK f.length
    rw [hfull] at hwritten
    have hget : (write d .wal w.start (b ++ f) .wal)[w.start]? = some (b ++ f) := by
      rw [write_same]
      exact Std.ExtTreeMap.getElem?_insert_self
    refine holds_attempt_some (e := write d .wal w.start (b ++ f)) ?_ ?_ ⟨hwritten, hdone⟩
    · rw [effect, hget]
      rfl
    · intro d' ht
      cases ht
      refine ⟨hwritten, fun hx => ⟨hwritten, ?_⟩⟩
      have := hfault hx f.length
      rwa [hfull] at this

def logged (s : DurableStore) (cmd : Command) : DurableStore :=
  { s with
    wal := { s.wal with
      size := s.wal.size + (frame [] (payload (s.seq + 1) (encodeCommand [] cmd))).length }
    seq := s.seq + 1
    mem := (applyCommand s.mem cmd).1 }

theorem names_write {start n : Nat} {b' : Bytes}
    (hfile : (d .wal)[start]? = some b) (h : ∀ p ∈ (d .wal).toList, p.1 ≤ n) :
    ∀ p ∈ (write d .wal start b' .wal).toList, p.1 ≤ n := by
  intro p hp
  rw [mem_toList, write_same, Std.ExtTreeMap.getElem?_insert] at hp
  split at hp
  · rename_i heq
    rw [← Std.compare_eq_iff_eq.mp heq]
    exact h (start, b) (mem_toList.mpr hfile)
  · exact h p (mem_toList.mpr hp)

theorem holds_logAndApply {Q : DurableStore × Except StoreError Unit → Volume Dir → Prop}
    {cmd : Command} {order : Order}
    (hfailed : s.wal.failed = false) (hclosed : s.wal.closed = false)
    (hfile : (d .wal)[s.wal.start]? = some b) (hnames : ∀ p ∈ (d .wal).toList, p.1 ≤ s.seq + 1)
    (hK : ∀ n, K (write d .wal s.wal.start
      (b ++ (frame [] (payload (s.seq + 1) (encodeCommand [] cmd))).take n)))
    (hstage : ∀ d', Stage (s.seq + 1)
      (encodeSnapshot (s.seq + 1) (order (applyCommand s.mem cmd).1))
      (write d .wal s.wal.start (b ++ frame [] (payload (s.seq + 1) (encodeCommand [] cmd)))) d' →
      K d')
    (hlogged : Q (logged s cmd, .ok ())
      (write d .wal s.wal.start (b ++ frame [] (payload (s.seq + 1) (encodeCommand [] cmd)))))
    (hends : ∀ r d', Ends (logged s cmd)
      (encodeSnapshot (s.seq + 1) (order (applyCommand s.mem cmd).1))
      (write d .wal s.wal.start (b ++ frame [] (payload (s.seq + 1) (encodeCommand [] cmd)))) r d' →
      Q (r.1, .ok ()) d')
    (hfault : faults →
      (∀ n, Q ({ s with wal := { s.wal with failed := true } },
          .error (.during "wal append" .system)) (write d .wal s.wal.start
            (b ++ (frame [] (payload (s.seq + 1) (encodeCommand [] cmd))).take n))) ∧
      ∀ s' d', Faulted (logged s cmd)
        (encodeSnapshot (s.seq + 1) (order (applyCommand s.mem cmd).1))
        (write d .wal s.wal.start (b ++ frame [] (payload (s.seq + 1) (encodeCommand [] cmd))))
        s' d' → Q (s', .ok ()) d') :
    Holds faults Q K (s.logAndApply cmd order) d := by
  refine holds_bind (holds_append hfailed hclosed hfile hK ?_ ?_)
  · have hd := hstage _ (.begun (Same.refl _))
    refine holds_bind ?_
    change Holds faults _ K (DurableStore.maybeSnapshot (logged s cmd) order) _
    unfold DurableStore.maybeSnapshot
    split
    · exact ⟨hd, hd, hlogged⟩
    · refine holds_bind (holds_snapshot ?_ ?_ ?_ ?_)
      · intro p hp
        exact (names_write hfile hnames p hp).trans (Nat.le_succ _)
      · exact hstage
      · intro r d' hr
        have hd' := hstage d' (stage_of_ends hr)
        exact ⟨hd', hd', hends r d' hr⟩
      · intro hf s' err d' hs'
        have hd' := hstage d' (stage_of_faulted hs')
        exact ⟨hd', hd', (hfault hf).2 s' d' hs'⟩
  · intro hf n
    exact ⟨hK n, (hfault hf).1 n⟩

end Writes

section Opening

variable {faults : Prop} {K : Volume Dir → Prop} {d : Volume Dir}

theorem newestSnapshot_of_same (h : Same d d') :
    newestSnapshot d' = newestSnapshot d := by
  unfold newestSnapshot
  rw [h.2]

theorem listSegments_of_same (h : Same d d') :
    listSegments d' = listSegments d := by
  unfold listSegments
  rw [h.1]

theorem holds_loadNewestSnapshot {Q : Except StoreError (MemStore × Nat) → Volume Dir → Prop}
    (hK : ∀ d', Same d d' → K d') (hdone : ∀ d', Same d d' → Q (newestSnapshot d) d') :
    Holds faults Q K loadNewestSnapshot d := by
  unfold loadNewestSnapshot
  change Holds faults Q K (Prog.discardAll .tmp (d .tmp).keys >>= _) d
  refine holds_bind (holds_discardAll ?_ ?_)
  · intro d' ho
    exact hK d' ⟨ho .wal (by decide), ho .snap (by decide)⟩
  · intro d' ho
    have hsame : Same d d' := ⟨ho .wal (by decide), ho .snap (by decide)⟩
    refine ⟨hK d' hsame, ?_⟩
    rw [newestSnapshot_of_same hsame]
    exact hdone d' hsame

def opened (threshold : Int) (mem : MemStore) (seq start size : Nat) : DurableStore where
  mem := mem
  wal := { start := start, size := size, failed := false, closed := false }
  seq := seq
  snapshotThreshold := thresholdOf threshold

theorem holds_openStore {Q : Except StoreError DurableStore → Volume Dir → Prop} {threshold : Int}
    {mem₀ mem : MemStore} {snapSeq lastSeq validSize : Nat}
    (hsnap : newestSnapshot d = .ok (mem₀, snapSeq))
    (hreplay : replayWAL applyRecord (listSegments d) snapSeq mem₀ = .ok (mem, lastSeq, validSize))
    (hK : ∀ d', Same d d' → K d')
    (hcreate : listSegments d = [] → ∀ d', Created (lastSeq + 1) d d' →
      K d' ∧ Q (.ok (opened threshold mem lastSeq (lastSeq + 1) 0)) d')
    (htruncate : ∀ newest b, (listSegments d).getLast? = some (newest, b) → ∀ d',
      d' .wal = (d .wal).insert newest (b.take validSize) → d' .snap = d .snap →
      K d' ∧ Q (.ok (opened threshold mem lastSeq newest validSize)) d')
    (hfault : faults → ∀ err d',
      Same d d' ∨ listSegments d = [] ∧ Created (lastSeq + 1) d d' → Q (.error err) d') :
    Holds faults Q K (openStore threshold) d := by
  refine holds_bind (holds_loadNewestSnapshot hK ?_)
  rw [hsnap]
  intro d₁ hsame
  refine holds_look ?_
  rw [listSegments_of_same hsame, hreplay]
  dsimp only
  cases hlast : (listSegments d).getLast? with
  | none =>
      have hnil : listSegments d = [] := List.getLast?_eq_none_iff.mp hlast
      have hempty : (d₁ .wal)[lastSeq + 1]? = none := by
        cases hget : (d₁ .wal)[lastSeq + 1]? with
        | none => rfl
        | some b =>
            have hmem : (lastSeq + 1, b) ∈ listSegments d := by
              rw [listSegments, ← hsame.1]
              exact mem_toList.mpr hget
            rw [hnil] at hmem
            cases hmem
      have hrel : ∀ d', Created (lastSeq + 1) d₁ d' → Created (lastSeq + 1) d d' := by
        intro d' h'
        refine ⟨?_, h'.2.trans hsame.2⟩
        rw [h'.1, hsame.1]
      refine holds_bind (holds_createWAL (hK d₁ hsame) ?_ ?_ ?_ ?_)
      · intro _ d' h'
        exact (hcreate hnil d' (hrel d' h')).1
      · intro _ d' h'
        exact hcreate hnil d' (hrel d' h')
      · intro hold
        exact absurd hempty hold
      · intro hf
        refine ⟨⟨hK d₁ hsame, hfault hf _ d₁ (Or.inl hsame)⟩, fun _ d' h' => ?_⟩
        have hnew := hrel d' h'
        exact ⟨(hcreate hnil d' hnew).1, hfault hf _ d' (Or.inr ⟨hnil, hnew⟩)⟩
  | some newest =>
      obtain ⟨newest, b⟩ := newest
      have hget : (d₁ .wal)[newest]? = some b := by
        have hmem : (newest, b) ∈ (d₁ .wal).toList := by
          rw [hsame.1]
          exact List.mem_of_getLast? hlast
        exact mem_toList.mp hmem
      have hafter := htruncate newest b hlast (write d₁ .wal newest (b.take validSize))
        (by rw [write_same, hsame.1]) (by rw [write_of_ne (by decide), hsame.2])
      refine holds_attempt_some (e := write d₁ .wal newest (b.take validSize)) ?_ ?_ hafter
      · rw [effect, hget]
        rfl
      · intro d' ht
        cases ht
        exact ⟨hK d₁ hsame, fun hf => ⟨hK d₁ hsame, hfault hf _ d₁ (Or.inl hsame)⟩⟩

theorem holds_openStore_error {Q : Except StoreError DurableStore → Volume Dir → Prop}
    {threshold : Int}
    (h : (∃ err, newestSnapshot d = .error err) ∨ ∃ mem snapSeq err,
      newestSnapshot d = .ok (mem, snapSeq) ∧
      replayWAL applyRecord (listSegments d) snapSeq mem = .error err)
    (hK : ∀ d', Same d d' → K d') (hQ : ∀ err d', Same d d' → Q (.error err) d') :
    Holds faults Q K (openStore threshold) d := by
  refine holds_bind (holds_loadNewestSnapshot hK ?_)
  intro d₁ hsame
  rcases h with ⟨err, hsnap⟩ | ⟨mem, snapSeq, err, hsnap, hreplay⟩
  · rw [hsnap]
    exact ⟨hK d₁ hsame, hQ _ d₁ hsame⟩
  · rw [hsnap]
    refine holds_look ?_
    rw [listSegments_of_same hsame, hreplay]
    exact ⟨hK d₁ hsame, hQ _ d₁ hsame⟩

end Opening

end RaftKV.Store.Operations
