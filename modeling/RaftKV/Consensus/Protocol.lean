import RaftKV.Consensus.Quorum
import RaftKV.Consensus.Prefix

/-!
Leader-based log replication with elections and single-server configuration
changes, as a history: what every node promised in which term is never
forgotten, and nothing is said about messages, disks or compaction.
-/

namespace RaftKV.Consensus.Protocol

open Consensus.Quorum Consensus.Prefix

/-- What the protocol reads off log entries: the term that created an entry and
the configuration a log spells out. One entry changes at most one member. -/
structure Scheme (N E : Type*) [DecidableEq N] where
  term : E → Nat
  isConfig : E → Prop
  config : List E → Finset N
  config_concat : ∀ L e, ¬ isConfig e → config (L ++ [e]) = config L
  config_adjacent : ∀ L e, Adjacent (config L) (config (L ++ [e]))

/-- One leadership: the log it was elected with, who voted, and its log now. -/
structure Lead (N E : Type*) where
  node : N
  init : List E
  voters : Finset N
  log : List E

/-- One commit decision: a quorum of the configuration spelled out by the first
`confLen` entries of the leader's log stores the first `len` of them. -/
structure Commit (N : Type*) where
  term : Nat
  len : Nat
  confLen : Nat
  quorum : Finset N

structure State (N E : Type*) where
  term : N → Nat
  log : N → List E
  vote : N → Nat → Option N
  voteLog : N → Nat → List E
  candLog : N → Nat → Option (List E)
  lead : Nat → Option (Lead N E)
  acc : N → Nat → Nat
  commits : Set (Commit N)

/-- Overwrite one entry of a two-argument table. -/
def set2 {N β : Type*} [DecidableEq N] (f : N → Nat → β) (x : N) (t : Nat) (v : β) :
    N → Nat → β :=
  fun y u => if y = x ∧ u = t then v else f y u

section

variable {N E : Type*} [DecidableEq N] (S : Scheme N E)

def init : State N E where
  term := fun _ => 0
  log := fun _ => []
  vote := fun _ _ => none
  voteLog := fun _ _ => []
  candLog := fun _ _ => none
  lead := fun _ => none
  acc := fun _ _ => 0
  commits := ∅

def lastTerm (L : List E) : Nat :=
  (L.getLast?.map S.term).getD 0

/-- The election restriction: `L` is at least as complete as `V`. -/
def UpToDate (L V : List E) : Prop :=
  lastTerm S V < lastTerm S L ∨ lastTerm S L = lastTerm S V ∧ V.length ≤ L.length

def State.leadLog (s : State N E) (t : Nat) : List E :=
  ((s.lead t).map Lead.log).getD []

/-- A configuration entry may follow `log` in term `t` only if the leader has
committed in its own term, through every earlier configuration entry. -/
def ConfigGuard (s : State N E) (t : Nat) (log : List E) : Prop :=
  ∃ cm ∈ s.commits, cm.term = t ∧ cm.len ≤ log.length ∧ cm.confLen ≤ log.length ∧
    ∀ (q : Nat) (e : E), log[q]? = some e → S.isConfig e → q < cm.len

def State.adopt (s : State N E) (x : N) (t : Nat) : State N E :=
  { s with term := Function.update s.term x t }

def State.campaign (s : State N E) (x : N) : State N E :=
  { s with
    term := Function.update s.term x (s.term x + 1)
    vote := set2 s.vote x (s.term x + 1) (some x)
    voteLog := set2 s.voteLog x (s.term x + 1) (s.log x)
    candLog := set2 s.candLog x (s.term x + 1) (some (s.log x)) }

def State.grant (s : State N E) (x c : N) : State N E :=
  { s with
    vote := set2 s.vote x (s.term x) (some c)
    voteLog := set2 s.voteLog x (s.term x) (s.log x) }

/-- The leader of its current term now has the log `l.log` and stores all of it. -/
def State.push (s : State N E) (l : Lead N E) : State N E :=
  { s with
    lead := Function.update s.lead (s.term l.node) (some l)
    log := Function.update s.log l.node l.log
    acc := set2 s.acc l.node (s.term l.node) l.log.length }

def State.win (s : State N E) (c : N) (Q : Finset N) (e : E) : State N E :=
  s.push ⟨c, s.log c, Q, s.log c ++ [e]⟩

def State.extend (s : State N E) (l : Lead N E) (e : E) : State N E :=
  s.push { l with log := l.log ++ [e] }

open Classical in
/-- Take over the first `m` entries of the leader's log; a log that has them
already is left alone, whatever follows them. -/
noncomputable def adoptPrefix (L : List E) (m : Nat) (lead : List E) : List E :=
  if lead.take m <+: L then L else lead.take m

noncomputable def State.accept (s : State N E) (x : N) (l : Lead N E) (m : Nat) : State N E :=
  { s with
    log := Function.update s.log x (adoptPrefix (s.log x) m l.log)
    acc := set2 s.acc x (s.term x) (max (s.acc x (s.term x)) m) }

def State.commit (s : State N E) (cm : Commit N) : State N E :=
  { s with commits := insert cm s.commits }

/-- The moves of the protocol. A restart is no move: a node's term, votes and
log survive it, and nothing else is recorded here. -/
inductive Step : State N E → State N E → Prop
  | adopt (s : State N E) (x : N) (t : Nat) (ht : s.term x < t) : Step s (s.adopt x t)
  | campaign (s : State N E) (x : N) : Step s (s.campaign x)
  | grant (s : State N E) (x c : N) (L : List E) (hfree : s.vote x (s.term x) = none)
      (hcand : s.candLog c (s.term x) = some L) (hup : UpToDate S L (s.log x)) :
      Step s (s.grant x c)
  | win (s : State N E) (c : N) (Q : Finset N) (e : E)
      (hcand : s.candLog c (s.term c) = some (s.log c))
      (hmaj : Majority Q (S.config (s.log c)))
      (hvotes : ∀ x ∈ Q, s.vote x (s.term c) = some c)
      (hnew : ∀ l, s.lead (s.term c) = some l → l.node ≠ c)
      (hterm : S.term e = s.term c) (hconf : ¬ S.isConfig e) : Step s (s.win c Q e)
  | extend (s : State N E) (l : Lead N E) (e : E)
      (hlead : s.lead (s.term l.node) = some l) (hlog : s.log l.node = l.log)
      (hterm : S.term e = s.term l.node)
      (hconf : S.isConfig e → ConfigGuard S s (s.term l.node) l.log) :
      Step s (s.extend l e)
  | accept (s : State N E) (x : N) (l : Lead N E) (m : Nat)
      (hlead : s.lead (s.term x) = some l) (hm : m ≤ l.log.length) :
      Step s (s.accept x l m)
  | commit (s : State N E) (cm : Commit N) (l : Lead N E) (hlead : s.lead cm.term = some l)
      (hinit : l.init.length < cm.len) (hlen : cm.len ≤ l.log.length)
      (hconfLen : cm.confLen ≤ l.log.length) (hnear : cm.len ≤ cm.confLen + 1)
      (hmaj : Majority cm.quorum (S.config (l.log.take cm.confLen)))
      (hacc : ∀ x ∈ cm.quorum, cm.len ≤ s.acc x cm.term) : Step s (s.commit cm)

/-- Every prefix of `L` that ends in an entry of some term is a prefix of the log
of that term's leader. This is log matching, one log at a time. -/
def Matched (s : State N E) (L : List E) : Prop :=
  ∀ M e, M ++ [e] <+: L → ∃ l, s.lead (S.term e) = some l ∧ M ++ [e] <+: l.log

/-- `L` still has the first `k` entries of the leader of term `r`, or a leader of
a term strictly between `r` and `t` contradicts them. -/
def Kept (s : State N E) (r k : Nat) (L : List E) (t : Nat) : Prop :=
  (s.leadLog r).take k <+: L ∨
    ∃ u l, r < u ∧ u < t ∧ s.lead u = some l ∧ Conflict ((s.leadLog r).take k) l.log

structure LeadOK (s : State N E) (t : Nat) (l : Lead N E) : Prop where
  pos : 0 < t
  matched : Matched S s l.log
  sorted : l.log.Pairwise fun a b => S.term a ≤ S.term b
  init_lt : ∀ e ∈ l.init, S.term e < t
  own : ∃ e T, l.log = l.init ++ e :: T ∧ ∀ e' ∈ e :: T, S.term e' = t
  term_le : t ≤ s.term l.node
  majority : Majority l.voters (S.config l.init)
  voted : ∀ x ∈ l.voters, s.vote x t = some l.node
  upToDate : ∀ x ∈ l.voters, UpToDate S l.init (s.voteLog x t)
  kept : ∀ x ∈ l.voters, ∀ r k, r < t → k ≤ s.acc x r → Kept s r k (s.voteLog x t) t
  guarded : ∀ (p : Nat) (e : E), l.log[p]? = some e → l.init.length ≤ p → S.isConfig e →
    ConfigGuard S s t (l.log.take p)

structure CommitOK (s : State N E) (cm : Commit N) (l : Lead N E) : Prop where
  lead : s.lead cm.term = some l
  init_lt : l.init.length < cm.len
  len_le : cm.len ≤ l.log.length
  confLen_le : cm.confLen ≤ l.log.length
  near : cm.len ≤ cm.confLen + 1
  majority : Majority cm.quorum (S.config (l.log.take cm.confLen))
  acc : ∀ x ∈ cm.quorum, cm.len ≤ s.acc x cm.term

structure Inv (s : State N E) : Prop where
  lead : ∀ t l, s.lead t = some l → LeadOK S s t l
  commit : ∀ cm ∈ s.commits, ∃ l, CommitOK S s cm l
  log_matched : ∀ x, Matched S s (s.log x)
  log_le : ∀ x, ∀ e ∈ s.log x, S.term e ≤ s.term x
  acc_le : ∀ x t, s.acc x t ≤ (s.leadLog t).length
  acc_term : ∀ x t, 0 < s.acc x t → t ≤ s.term x
  kept : ∀ x r k, k ≤ s.acc x r → Kept s r k (s.log x) (s.term x + 1)
  vote_term : ∀ x t c, s.vote x t = some c → t ≤ s.term x
  vote_cand : ∀ x t c, s.vote x t = some c →
    ∃ L, s.candLog c t = some L ∧ UpToDate S L (s.voteLog x t)
  vote_matched : ∀ x t c, s.vote x t = some c → Matched S s (s.voteLog x t)
  vote_kept : ∀ x t c, s.vote x t = some c → ∀ r k, r < t → k ≤ s.acc x r →
    Kept s r k (s.voteLog x t) (t + 1)
  cand_term : ∀ c t L, s.candLog c t = some L → 0 < t ∧ t ≤ s.term c
  cand_matched : ∀ c t L, s.candLog c t = some L → Matched S s L
  cand_lt : ∀ c t L, s.candLog c t = some L → ∀ e ∈ L, S.term e < t

end

end RaftKV.Consensus.Protocol
