import RaftKV.Consensus.Commitment

namespace RaftKV.Consensus.Locality

open Consensus.Protocol Consensus.Preservation

variable {N E : Type*} {s s' : State N E} {x : N}

structure Local (x : N) (s s' : State N E) : Prop where
  log : ∀ y, y ≠ x → s'.log y = s.log y
  term : ∀ y, y ≠ x → s'.term y = s.term y
  vote : ∀ y, y ≠ x → s'.vote y = s.vote y
  acc : ∀ y, y ≠ x → s'.acc y = s.acc y
  lead : ∀ t l, s'.lead t = some l → l.node ≠ x → s.lead t = some l
  commits : ∀ cm ∈ s'.commits, cm ∉ s.commits → ∀ l, s'.lead cm.term = some l → l.node = x

theorem local_refl (x : N) (s : State N E) : Local x s s :=
  ⟨fun _ _ => rfl, fun _ _ => rfl, fun _ _ => rfl, fun _ _ => rfl, fun _ _ h _ => h,
    fun _ h hn => absurd h hn⟩

theorem local_trans {s'' : State N E} (h : Local x s s') (h' : Local x s' s'') :
    Local x s s'' where
  log := fun y hy => (h'.log y hy).trans (h.log y hy)
  term := fun y hy => (h'.term y hy).trans (h.term y hy)
  vote := fun y hy => (h'.vote y hy).trans (h.vote y hy)
  acc := fun y hy => (h'.acc y hy).trans (h.acc y hy)
  lead := fun t l hl hx => h.lead t l (h'.lead t l hl hx) hx
  commits := by
    intro cm hcm hnew l hl
    by_contra hx
    by_cases hmid : cm ∈ s'.commits
    · exact hx (h.commits cm hmid hnew l (h'.lead _ l hl hx))
    · exact hx (h'.commits cm hcm hmid l hl)

theorem local_commit {cm : Commit N} (h : ∀ l, s.lead cm.term = some l → l.node = x) :
    Local x s (s.commit cm) :=
  { local_refl x s with
    commits := by
      intro cm' hcm' hnew l hl
      obtain rfl : cm' = cm := hcm'.resolve_right hnew
      exact h l hl }

variable [DecidableEq N]

theorem set2_row {β : Type*} (f : N → Nat → β) (t : Nat) (v : β) {y : N} (hy : y ≠ x) :
    set2 f x t v y = f y := by
  funext u
  exact set2_of_ne f v fun h => hy h.1

theorem local_adopt (t : Nat) : Local x s (s.adopt x t) :=
  { local_refl x s with term := fun _ hy => Function.update_of_ne hy _ _ }

theorem local_campaign : Local x s (s.campaign x) :=
  { local_refl x s with
    term := fun _ hy => Function.update_of_ne hy _ _
    vote := fun _ hy => set2_row _ _ _ hy }

theorem local_grant (c : N) : Local x s (s.grant x c) :=
  { local_refl x s with vote := fun _ hy => set2_row _ _ _ hy }

theorem local_push (l : Lead N E) : Local l.node s (s.push l) :=
  { local_refl l.node s with
    log := fun _ hy => Function.update_of_ne hy _ _
    acc := fun _ hy => set2_row _ _ _ hy
    lead := by
      intro t l' hl' hx
      by_cases ht : t = s.term l.node
      · subst ht
        rw [push_lead_self] at hl'
        exact absurd (congrArg Lead.node (Option.some.inj hl')).symm hx
      · rwa [push_lead_of_ne s l ht] at hl'
    commits := fun _ hcm hnew => absurd hcm hnew }

theorem local_accept (l : Lead N E) (m : Nat) : Local x s (s.accept x l m) :=
  { local_refl x s with
    log := fun _ hy => accept_log_of_ne s l m hy
    acc := fun _ hy => set2_row _ _ _ hy }

end RaftKV.Consensus.Locality
