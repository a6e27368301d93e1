/-
# Keystone.Lib.TermLog — an abstract replicated log with terms, ballots and leader logs.

A LIBRARY module: it names nothing of any program.  Nodes `N` vote for leaders of numbered terms and
copy entries `E` (each entry carries the term `tm e` of the leader that created it) from the log of a
term's leader.  The state keeps, beside what a real node stores (`term`, `vote`, `log`), the HISTORY an
inductive argument needs: the log `llog T` of the leader of term `T`, the log `base T` it was elected
with, what each node acknowledged in which term, every ballot with the voter's log at that moment, and
the points `(T, n)` the leader of `T` committed.

* `Step P i` — the atomic actions of node `i` (nine of them).
* `Inv` — the inductive invariant.  Its one clever field is `Kept`: what a node once acknowledged is
  still in its log, UNLESS a later leader was elected without it.  The statement mentions no commit and
  no quorum of acknowledgements, so it is provable one step at a time.
* `Le` / `Frame` — what every action preserves globally, and what an action of `i` leaves alone at the
  other nodes.

The safety theorems are in `Keystone.Lib.TermLogSafety`.
-/
import Mathlib.Data.Finset.Card
import Mathlib.Data.Set.Insert
import Mathlib.Logic.Relation
import Mathlib.Tactic.Common

namespace Keystone.Lib.TermLog

open Function (update)

variable {N E : Type*}

/-! ## Parameters, states, actions. -/

/-- What the protocol is parametric in: the term an entry carries, and a family of quorums any two of
which share a member. -/
structure Params (N E : Type*) where
  tm : E → ℕ
  IsQuorum : Finset N → Prop
  inter : ∀ {Q Q' : Finset N}, IsQuorum Q → IsQuorum Q' → ∃ p, p ∈ Q ∧ p ∈ Q'

/-- A protocol state: the durable part of every node and the history of the run so far. -/
structure State (N E : Type*) where
  term : N → ℕ
  vote : N → Option N
  log : N → List E
  leader : ℕ → Option N
  base : ℕ → List E
  llog : ℕ → List E
  ack : N → ℕ → ℕ
  ballot : N → ℕ → Option (N × List E)
  cand : N → ℕ → Option (List E)
  commits : Set (ℕ × ℕ)

/-- Before anything happened. -/
def State.init : State N E where
  term := fun _ => 0
  vote := fun _ => none
  log := fun _ => []
  leader := fun _ => none
  base := fun _ => []
  llog := fun _ => []
  ack := fun _ _ => 0
  ballot := fun _ _ => none
  cand := fun _ _ => none
  commits := ∅

/-- The term of a log's last entry, zero for the empty log. -/
def lastTm (tm : E → ℕ) (l : List E) : ℕ := (l.getLast?.map tm).getD 0

/-- `l'` is at least as up to date as `l`: the test a voter makes. -/
def UpTo (tm : E → ℕ) (l l' : List E) : Prop :=
  lastTm tm l < lastTm tm l' ∨ (lastTm tm l = lastTm tm l' ∧ l.length ≤ l'.length)

namespace State

variable [DecidableEq N]

/-- Adopt a higher term, forgetting the vote. -/
def bump (a : State N E) (i : N) (t : ℕ) : State N E :=
  { a with term := update a.term i t, vote := update a.vote i none }

/-- Stand for election in the next term, voting for oneself. -/
def stand (a : State N E) (i : N) : State N E :=
  { a with
    term := update a.term i (a.term i + 1)
    vote := update a.vote i (some i)
    ballot := update a.ballot i (update (a.ballot i) (a.term i + 1) (some (i, a.log i)))
    cand := update a.cand i (update (a.cand i) (a.term i + 1) (some (a.log i))) }

/-- Vote for `c` in the current term. -/
def grant (a : State N E) (i c : N) : State N E :=
  { a with
    vote := update a.vote i (some c)
    ballot := update a.ballot i (update (a.ballot i) (a.term i) (some (c, a.log i))) }

/-- Become the leader of the current term. -/
def elect (a : State N E) (i : N) : State N E :=
  { a with
    leader := update a.leader (a.term i) (some i)
    base := update a.base (a.term i) (a.log i)
    llog := update a.llog (a.term i) (a.log i) }

/-- The leader creates entries (its own copy of them is a separate action). -/
def extend (a : State N E) (i : N) (es : List E) : State N E :=
  { a with llog := update a.llog (a.term i) (a.llog (a.term i) ++ es) }

/-- Replace a node's log. -/
def setLog (a : State N E) (i : N) (l : List E) : State N E :=
  { a with log := update a.log i l }

/-- Acknowledge the first `j` entries of the leader's log. -/
def acknowledge (a : State N E) (i : N) (j : ℕ) : State N E :=
  { a with ack := update a.ack i (update (a.ack i) (a.term i) (max j (a.ack i (a.term i)))) }

/-- Commit the first `n` entries of the leader's log. -/
def commit (a : State N E) (i : N) (n : ℕ) : State N E :=
  { a with commits := insert (a.term i, n) a.commits }

end State

/-- `(T, n)` is a point the leader of `T` may commit: an entry of its own term that a quorum has
acknowledged. -/
def Chosen (P : Params N E) (a : State N E) (T n : ℕ) : Prop :=
  1 ≤ n ∧ (∃ e, (a.llog T)[n - 1]? = some e ∧ P.tm e = T) ∧
    ∃ Q, P.IsQuorum Q ∧ ∀ p ∈ Q, n ≤ a.ack p T

/-- The atomic actions of node `i`. -/
inductive Step [DecidableEq N] (P : Params N E) (i : N) : State N E → State N E → Prop
  | bump (a : State N E) (t : ℕ) (ht : a.term i < t) : Step P i a (a.bump i t)
  | stand (a : State N E) : Step P i a (a.stand i)
  | grant (a : State N E) (c : N) (lc : List E) (hv : a.vote i = none)
      (hc : a.cand c (a.term i) = some lc) (hup : UpTo P.tm (a.log i) lc) :
      Step P i a (a.grant i c)
  | elect (a : State N E) (Q : Finset N) (hQ : P.IsQuorum Q)
      (hb : ∀ p ∈ Q, ∃ s, a.ballot p (a.term i) = some (i, s))
      (hc : a.cand i (a.term i) = some (a.log i)) (hl : a.leader (a.term i) = none) :
      Step P i a (a.elect i)
  | extend (a : State N E) (es : List E) (hl : a.leader (a.term i) = some i)
      (hes : ∀ e ∈ es, P.tm e = a.term i) : Step P i a (a.extend i es)
  -- the copied prefix reaches one past the log, or to the first entry whose term differs
  | accept (a : State N E) (j : ℕ) (hj : j < (a.llog (a.term i)).length)
      (hd : ∀ e e', (a.log i)[j]? = some e → (a.llog (a.term i))[j]? = some e' → P.tm e ≠ P.tm e') :
      Step P i a (a.setLog i ((a.llog (a.term i)).take (j + 1)))
  -- a committed prefix at least as long as the log replaces it
  | adopt (a : State N E) (T n k : ℕ) (hc : (T, n) ∈ a.commits) (hT : T ≤ a.term i) (hk : k ≤ n)
      (hl : (a.log i).length ≤ k) : Step P i a (a.setLog i ((a.llog T).take k))
  | acknowledge (a : State N E) (j : ℕ) (hj : j ≤ (a.llog (a.term i)).length)
      (hh : (a.llog (a.term i)).take j <+: a.log i) : Step P i a (a.acknowledge i j)
  | commit (a : State N E) (n : ℕ) (hl : a.leader (a.term i) = some i)
      (hn : Chosen P a (a.term i) n) : Step P i a (a.commit i n)

/-! ## The invariant. -/

/-- A well-formed log: every entry sits where its own term's leader has it, on top of the same
prefix. -/
def WF (tm : E → ℕ) (a : State N E) (l : List E) : Prop :=
  ∀ j e, l[j]? = some e → l.take (j + 1) <+: a.llog (tm e)

/-- The first `j` entries of the leader of `T` are in `l`, unless some leader of a term in `(T, U)`
was elected without them. -/
def Kept (a : State N E) (T j : ℕ) (l : List E) (U : ℕ) : Prop :=
  (a.llog T).take j <+: l ∨
    ∃ V, T < V ∧ V < U ∧ a.leader V ≠ none ∧ ¬ (a.llog T).take j <+: a.base V

/-- The inductive invariant of the protocol. -/
structure Inv (P : Params N E) (a : State N E) : Prop where
  log_wf : ∀ p, WF P.tm a (a.log p)
  llog_wf : ∀ T, WF P.tm a (a.llog T)
  cand_wf : ∀ c U l, a.cand c U = some l → WF P.tm a l
  ballot_wf : ∀ p U c s, a.ballot p U = some (c, s) → WF P.tm a s
  llog_le : ∀ T, ∀ e ∈ a.llog T, P.tm e ≤ T
  log_le : ∀ p, ∀ e ∈ a.log p, P.tm e ≤ a.term p
  cand_lt : ∀ c U l, a.cand c U = some l → ∀ e ∈ l, P.tm e < U
  cand_term : ∀ c U l, a.cand c U = some l → U ≤ a.term c
  base_llog : ∀ T, a.base T <+: a.llog T
  llog_none : ∀ T, a.leader T = none → a.llog T = []
  leader_term : ∀ T l, a.leader T = some l → T ≤ a.term l
  vote_ballot : ∀ p c, a.vote p = some c → ∃ s, a.ballot p (a.term p) = some (c, s)
  ballot_term : ∀ p U c s, a.ballot p U = some (c, s) →
    U ≤ a.term p ∧ (U = a.term p → a.vote p = some c)
  ballot_cand : ∀ p U c s, a.ballot p U = some (c, s) → ∃ l, a.cand c U = some l ∧ UpTo P.tm s l
  ballot_kept : ∀ p U c s, a.leader U = none → a.ballot p U = some (c, s) →
    ∀ T < U, ∀ j ≤ a.ack p T, Kept a T j s U
  elected : ∀ U c, a.leader U = some c → a.cand c U = some (a.base U) ∧
    ∃ Q, P.IsQuorum Q ∧ ∀ p ∈ Q, ∃ s, a.ballot p U = some (c, s) ∧
      ∀ T < U, ∀ j ≤ a.ack p T, Kept a T j s U
  ack_len : ∀ p T, a.ack p T ≤ (a.llog T).length
  ack_term : ∀ p T, 0 < a.ack p T → T ≤ a.term p
  ack_kept : ∀ p T, ∀ j ≤ a.ack p T, Kept a T j (a.log p) (a.term p + 1)
  commit_chosen : ∀ T n, (T, n) ∈ a.commits → Chosen P a T n

/-! ## Prefix arithmetic. -/

theorem take_eq_of_isPrefix {l l' : List E} (h : l <+: l') {k : ℕ} (hk : k ≤ l.length) :
    l'.take k = l.take k := by
  obtain ⟨t, rfl⟩ := h
  exact List.take_append_of_le_length hk

/-- Two prefixes of one list agree as far as the shorter one reaches. -/
theorem take_prefix_of_le {l l' L : List E} {k : ℕ} (h : l.take k <+: L) (h' : l' <+: L)
    (hk : k ≤ l'.length) : l.take k <+: l' :=
  List.prefix_of_prefix_length_le h h' (by rw [List.length_take]; omega)

theorem getElem?_of_isPrefix {l l' : List E} (h : l <+: l') {j : ℕ} {e : E} (he : l[j]? = some e) :
    l'[j]? = some e := by
  obtain ⟨t, rfl⟩ := h
  have hj : j < l.length := (List.getElem?_eq_some_iff.mp he).1
  rw [List.getElem?_append_left hj, he]

theorem getElem?_of_take_isPrefix {l l' : List E} {k j : ℕ} (h : l.take k <+: l') (hj : j < k)
    {e : E} (he : l[j]? = some e) : l'[j]? = some e :=
  getElem?_of_isPrefix h (by rw [List.getElem?_take, if_pos hj, he])

theorem length_of_getElem? {l : List E} {j : ℕ} {e : E} (h : l[j]? = some e) : j < l.length :=
  (List.getElem?_eq_some_iff.mp h).1

theorem lastTm_eq {tm : E → ℕ} {l : List E} {e : E} (h : l[l.length - 1]? = some e) :
    lastTm tm l = tm e := by
  rw [lastTm, List.getLast?_eq_getElem?, h]
  rfl

/-- A log with a positive last term, or with something below it, has a last entry. -/
theorem exists_last {l : List E} (h : 0 < l.length) : ∃ e, l[l.length - 1]? = some e :=
  ⟨l[l.length - 1], List.getElem?_eq_getElem (by omega)⟩

/-! ## Well-formed logs. -/

section WF

variable {tm : E → ℕ} {a : State N E}

/-- LOG MATCHING: two well-formed logs with entries of one term at one place agree up to there. -/
theorem WF.take_eq {l l' : List E} (h : WF tm a l) (h' : WF tm a l') {j : ℕ} {e e' : E}
    (he : l[j]? = some e) (he' : l'[j]? = some e') (ht : tm e = tm e') :
    l.take (j + 1) = l'.take (j + 1) := by
  have h1 := h j e he
  have h2 := h' j e' he'
  rw [← ht] at h2
  have hj := length_of_getElem? he
  have hj' := length_of_getElem? he'
  refine List.IsPrefix.eq_of_length (List.prefix_of_prefix_length_le h1 h2 ?_) ?_ <;>
    simp only [List.length_take] <;> omega

theorem WF.take {l : List E} (h : WF tm a l) (k : ℕ) : WF tm a (l.take k) := by
  intro j e he
  rw [List.getElem?_take] at he
  split at he
  · rw [List.take_take, Nat.min_eq_left (by omega)]
    exact h j e he
  · cases he

/-- The whole of a well-formed log is a prefix of the leader log of its last term. -/
theorem WF.prefix_last {l : List E} (h : WF tm a l) {e : E} (he : l[l.length - 1]? = some e) :
    l <+: a.llog (tm e) := by
  have hl := length_of_getElem? he
  have := h _ e he
  rwa [Nat.sub_add_cancel (by omega), List.take_length] at this

/-- Terms never decrease along a well-formed log. -/
theorem WF.mono {l : List E} (h : WF tm a l) (hle : ∀ T, ∀ e ∈ a.llog T, tm e ≤ T) {j k : ℕ}
    {e f : E} (hjk : j ≤ k) (he : l[j]? = some e) (hf : l[k]? = some f) : tm e ≤ tm f := by
  have hp := h k f hf
  have : (a.llog (tm f))[j]? = some e := getElem?_of_take_isPrefix hp (by omega) he
  exact hle _ e (List.mem_of_getElem? this)

end WF

end Keystone.Lib.TermLog
