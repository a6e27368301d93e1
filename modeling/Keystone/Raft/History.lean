/-
# Keystone.Raft.History — what the abstract replicated log says about a store, a message and a moment.

The cluster is compared with the abstract protocol of `Keystone.Lib.TermLog` through a `History`: an
abstract state that satisfies the protocol's invariant (it cannot be built otherwise), and beside it
what a read needs to be judged, the rounds leaders opened and what was committed when a read was called.

* `Dur a i s` — the log store `s` of node `i` shows the abstract log of `i`, from the snapshot point on.
  Below the snapshot point the two may differ: a follower that installs a snapshot keeps its entries
  beyond it whatever its own entry at the snapshot's index was.  `Mode.clean` is the assumption that
  this never happened.
* `Justified a i s c` — a commit index `c` is covered by the snapshot or by a committed point of the
  abstract history.
* `MsgOK b m` — every message tells the truth about the history, and goes on doing so.
* `Shown b i pos eff n s` — what holds at every moment of a step, also where a crash may cut it.

Every notion comes with its growth lemma: histories only grow, so what was true stays true.
-/
import Keystone.Lib.Majority
import Keystone.Lib.TermLogStep
import Keystone.Raft.Cluster

namespace Keystone.Raft

open Keystone.Lib
open Keystone.Lib.TermLog (Inv Le Frame Evolves lastTm WF)

variable {σ : Type}

abbrev Abstract := TermLog.State NodeID Entry

/-- The abstract protocol of a group: quorums are the majorities of its peers. -/
def Group.params (G : Group σ) : TermLog.Params NodeID Entry :=
  TermLog.Params.majority Entry.term G.peers

/-- What a run may additionally be assumed to satisfy: no snapshot was installed under entries of
another history (`clean`), no read was confirmed by an answer to an earlier leader (`fresh`). -/
structure Mode where
  clean : Prop
  fresh : Prop

/-! ## Logs and commit points. -/

/-- The entry at index `k` has term `t`; index zero has term zero. -/
def HasTerm (l : List Entry) (k t : ℕ) : Prop :=
  (k = 0 ∧ t = 0) ∨ (1 ≤ k ∧ ∃ e, l[k - 1]? = some e ∧ e.term = t)

/-- Index `k` lies at or below a point committed in a term up to `T`. -/
def Below (a : Abstract) (T k : ℕ) : Prop :=
  k = 0 ∨ ∃ U n, (U, n) ∈ a.commits ∧ U ≤ T ∧ k ≤ n

/-- The entry at index `k` is committed, in a term up to `T`, and has term `t`. -/
def Certified (a : Abstract) (T k t : ℕ) : Prop :=
  ∃ U n, (U, n) ∈ a.commits ∧ U ≤ T ∧ 1 ≤ k ∧ k ≤ n ∧ HasTerm (a.llog U) k t

/-- A snapshot point: none at all, or a committed entry. -/
def Snapped (a : Abstract) (T k t : ℕ) : Prop :=
  (k = 0 ∧ t = 0) ∨ Certified a T k t

/-- Entry `e` is committed at index `k`, in a term up to `T`. -/
def Committed (a : Abstract) (T k : ℕ) (e : Entry) : Prop :=
  ∃ U n, (U, n) ∈ a.commits ∧ U ≤ T ∧ 1 ≤ k ∧ k ≤ n ∧ (a.llog U)[k - 1]? = some e

/-- Node `p` holds the first `k` entries of the leader of `T`, or they are committed anyway: the
answer to a probe below the commit index does not look at the log. -/
def Acked (a : Abstract) (p : NodeID) (T k : ℕ) : Prop :=
  k ≤ a.ack p T ∨ Below a T k

/-- Entries carry their own index. -/
def Indexed (a : Abstract) : Prop :=
  ∀ T j e, (a.llog T)[j]? = some e → e.index = j + 1

/-! ## Stores. -/

/-- The log store of node `i` shows the abstract node. -/
structure Dur (clean : Prop) (a : Abstract) (i : NodeID) (s : MemStore) : Prop where
  term : a.term i = s.term
  vote : a.vote i = if s.vote = None then none else some s.vote
  snap_le : s.snapIdx ≤ (a.log i).length
  entries : s.entries = (a.log i).drop s.snapIdx
  last : (a.log i).length = s.snapIdx → lastTm Entry.term (a.log i) = s.snapTerm
  snap : Snapped a (a.term i) s.snapIdx s.snapTerm
  matched : clean → HasTerm (a.log i) s.snapIdx s.snapTerm

/-- A commit index of node `i`: covered by its snapshot, or by a committed point its log agrees with
beyond the snapshot. -/
def Justified (a : Abstract) (i : NodeID) (s : MemStore) (c : ℕ) : Prop :=
  c ≤ s.snapIdx ∨
    ∃ U n, (U, n) ∈ a.commits ∧ U ≤ a.term i ∧ c ≤ n ∧ c ≤ (a.log i).length ∧
      ∀ j, s.snapIdx ≤ j → j < c → (a.log i)[j]? = (a.llog U)[j]?

/-! ## Histories. -/

/-- A read round: the index it may confirm, and the terms and commit points at its start. -/
structure Round where
  index : ℕ
  terms : NodeID → ℕ
  known : Set (ℕ × ℕ)

/-- The round's index covers everything committed when it began. -/
def Round.Done (rd : Round) : Prop := ∀ U n, (U, n) ∈ rd.known → n ≤ rd.index

/-- A round of the leader of `T` covers what was known of terms up to `T`; and a point of a later term
was known only if a quorum had reached that term. -/
structure RoundOK (P : TermLog.Params NodeID Entry) (a : Abstract) (T : ℕ) (rd : Round) : Prop where
  lead : a.leader T ≠ none
  terms : ∀ p, rd.terms p ≤ a.term p
  covers : ∀ U n, (U, n) ∈ rd.known → U ≤ T → n ≤ rd.index
  quorum : ∀ U n, (U, n) ∈ rd.known → ∃ Q, P.IsQuorum Q ∧ ∀ p ∈ Q, U ≤ rd.terms p

/-- The history of a run of the group.  `rounds T id` is the read round `id` of the leader of `T`,
`epoch i id` the term node `i` opened round `id` in since its last restart, `birth i h` what was
committed when node `i` handed out the read handle `h`. -/
structure History (G : Group σ) where
  a : Abstract
  inv : Inv G.params a
  idx : Indexed a
  rounds : ℕ → ℕ → Option Round
  rounds_ok : ∀ T id rd, rounds T id = some rd → RoundOK G.params a T rd
  epoch : NodeID → ℕ → ℕ
  birth : NodeID → ℕ → Option (Set (ℕ × ℕ))
  birth_ok : ∀ i h K, birth i h = some K → K ⊆ a.commits

variable {G : Group σ}

/-- A later history of the same run. -/
structure Later (b b' : History G) : Prop where
  le : Le b.a b'.a
  rounds : ∀ T id rd, b.rounds T id = some rd → b'.rounds T id = some rd
  birth : ∀ q h K, b.birth q h = some K → b'.birth q h = some K

/-- What an operation of node `i` may do to the history. -/
structure Grow (i : NodeID) (b b' : History G) : Prop where
  evolves : Evolves G.params i b.a b'.a
  rounds : ∀ T id rd, b.rounds T id = some rd → b'.rounds T id = some rd
  rounds_frame : ∀ T id q, q ≠ i → b.a.leader T = some q → b'.rounds T id = b.rounds T id
  epoch_frame : ∀ q, q ≠ i → b'.epoch q = b.epoch q
  birth : ∀ q h K, b.birth q h = some K → b'.birth q h = some K
  birth_frame : ∀ q h, q ≠ i → b'.birth q h = b.birth q h

theorem Later.refl (b : History G) : Later b b :=
  ⟨Le.refl _, fun _ _ _ h => h, fun _ _ _ h => h⟩

theorem Later.trans {b b' b'' : History G} (h : Later b b') (h' : Later b' b'') : Later b b'' :=
  ⟨h.le.trans h'.le, fun T id rd hr => h'.rounds T id rd (h.rounds T id rd hr),
    fun q k K hK => h'.birth q k K (h.birth q k K hK)⟩

instance : IsPreorder (History G) Later where
  refl := Later.refl
  trans _ _ _ := Later.trans

theorem Grow.le {i : NodeID} {b b' : History G} (h : Grow i b b') : Le b.a b'.a :=
  h.evolves.le b.inv

theorem Grow.frame {i : NodeID} {b b' : History G} (h : Grow i b b') : Frame i b.a b'.a :=
  h.evolves.frame b.inv

theorem Grow.later {i : NodeID} {b b' : History G} (h : Grow i b b') : Later b b' :=
  ⟨h.le, h.rounds, h.birth⟩

theorem Grow.refl (i : NodeID) (b : History G) : Grow i b b :=
  ⟨.refl _ _ _, fun _ _ _ h => h, fun _ _ _ _ _ => rfl, fun _ _ => rfl, fun _ _ _ h => h,
    fun _ _ _ => rfl⟩

theorem Grow.trans {i : NodeID} {b b' b'' : History G} (h : Grow i b b') (h' : Grow i b' b'') :
    Grow i b b'' where
  evolves := h.evolves.trans h'.evolves
  rounds T id rd hr := h'.rounds T id rd (h.rounds T id rd hr)
  rounds_frame T id q hq hT :=
    (h'.rounds_frame T id q hq (h.le.leader T q hT)).trans (h.rounds_frame T id q hq hT)
  epoch_frame q hq := (h'.epoch_frame q hq).trans (h.epoch_frame q hq)
  birth q k K hK := h'.birth q k K (h.birth q k K hK)
  birth_frame q k hq := (h'.birth_frame q k hq).trans (h.birth_frame q k hq)

instance (i : NodeID) : IsPreorder (History G) (Grow i) where
  refl := Grow.refl i
  trans _ _ _ := Grow.trans

/-! ## Messages. -/

/-- An append request shows a piece of the leader's log. -/
structure AppOK (b : History G) (m : Message) : Prop where
  lead : b.a.leader m.term = some m.fromId
  prev : HasTerm (b.a.llog m.term) m.index m.logTerm
  entries : m.entries <+: (b.a.llog m.term).drop m.index
  commit : Below b.a m.term m.commit
  round : m.readID ≠ 0 → ∃ rd, b.rounds m.term m.readID = some rd

/-- The answer to a message of an earlier term: a rejection that names no index. -/
def StaleReply (m : Message) : Prop := m.reject = true ∧ m.conflictIndex = 0

/-- An append answer: what it acknowledges is held, where it points to is in the leader's log, and if
it answers the leader's own term it confirms the read round it names. -/
structure AppRespOK (b : History G) (m : Message) : Prop where
  held : m.reject = false → Acked b.a m.fromId m.term m.index
  conflict : m.reject = true → m.conflictIndex ≤ (b.a.llog m.term).length
  round : m.readID ≠ 0 → ¬ StaleReply m →
    ∃ rd, b.rounds m.term m.readID = some rd ∧ rd.terms m.fromId ≤ m.term

def BodyOK (b : History G) (m : Message) : Prop :=
  match m.type with
  | .vote =>
    ∃ l, b.a.cand m.fromId m.term = some l ∧ m.index = l.length ∧ m.logTerm = lastTm Entry.term l
  | .voteResp => m.reject = false → ∃ s, b.a.ballot m.fromId m.term = some (m.toId, s)
  | .app => AppOK b m
  | .appResp => AppRespOK b m
  | .snap => Certified b.a m.term m.index m.logTerm
  | .snapResp => m.done = true → Below b.a m.term m.index

/-- A message that tells the truth. -/
structure MsgOK (b : History G) (m : Message) : Prop where
  sender : m.fromId ∈ G.peers
  sender_ne : m.fromId ≠ None
  body : BodyOK b m

/-! ## Moments. -/

/-- Node `i` is in office in term `T`: its log lies between the one it was elected with and the one it
has announced. -/
structure InOffice (a : Abstract) (i : NodeID) (T : ℕ) : Prop where
  lead : a.leader T = some i
  base : a.base T <+: a.log i
  log : a.log i <+: a.llog T

/-- The read handle `rd` of node `i` is served at or above everything committed when it was handed
out. -/
def Current (b : History G) (i : NodeID) (rd : Read) : Prop :=
  ∀ K, b.birth i rd.handle = some K → ∀ U k, (U, k) ∈ K → k ≤ rd.index

/-- What an effect promises. -/
def EffectOK (md : Mode) (b : History G) (i : NodeID) (n : Node σ) (s : MemStore) : Effect → Prop
  | .send m => MsgOK b m
  | .append e => n.r.commit < e.index ∧ e.index = s.lastIndex
  | .apply e _ => Committed b.a n.r.term e.index e ∧ s.snapIdx < e.index
  | .finishProposal p _ err =>
    err = none → ∃ e, Committed b.a n.r.term p.index e ∧ e.type = .normal ∧ e.data = p.data ∧
      e.term = p.term
  | .finishRead rd err => err = none → rd.index ≤ n.applied ∧ (md.fresh → Current b i rd)
  | _ => True

/-- Between the write of a new term and the assignment of its state a node that steps down still
carries the old state, under its lock; every other effect shows term and state in step. -/
def Settled : Option Effect → Prop
  | some (.setState _ _) => False
  | _ => True

instance : DecidablePred Settled := fun eff => by
  unfold Settled
  split <;> infer_instance

/-- What holds at every moment of a run, on the node `i` that moves. -/
structure Shown (md : Mode) (b : History G) (i : NodeID) (pos : ℕ) (eff : Option Effect)
    (n : Node σ) (s : MemStore) : Prop where
  dur : Dur md.clean b.a i s
  term : n.r.term = s.term
  commit : Justified b.a i s n.r.commit
  pos : Justified b.a i s pos
  applied : n.applied ≤ n.r.commit
  births : ∀ h K, b.birth i h = some K → h < n.handles
  office : n.r.state = .leader → Settled eff → InOffice b.a i n.r.term
  effect : ∀ e, eff = some e → EffectOK md b i n s e

end Keystone.Raft
