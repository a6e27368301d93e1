/-
# Keystone.Raft.Invariant — what holds of a running node, and the rules to reason about its steps.

Three strengths of one statement about a node `n` with its store `s`, over a history `b`:

* `Held` — between any two effects: the store shows the abstract node, the commit index is justified,
  and what the node believes about votes, followers, transfers, proposals and reads is true;
* `Sound` — between two calls inside an operation: a leader's log is the whole of what it announced,
  and the snapshot point is at or below the commit index;
* `Resting` — between two operations: the snapshot point is at or below the applied index.

`Still j b b'` says what another node's step leaves alone at `j`; all three survive it.  The second half
gives one weakest-precondition rule for each primitive, the trace assertion `Tr`, and the rule for an
effect (`Held.shown`): every moment of a `Held` state may be shown.
-/
import Keystone.Raft.Actions

namespace Keystone.Raft

open Keystone.Lib
open Keystone.Lib.TermLog (Inv Le lastTm getElem?_of_isPrefix)

variable {σ : Type} {G : Group σ} {md : Mode} {b b' : History G} {i j : NodeID} {pos : ℕ}
  {n : Node σ} {s : MemStore}

/-! ## What a node believes. -/

/-- A pending proposal is in the log of the leader that took it. -/
def Proposed (a : Abstract) (p : Proposal) : Prop :=
  1 ≤ p.index ∧ ∃ e, (a.llog p.term)[p.index - 1]? = some e ∧ e.type = .normal ∧ e.data = p.data ∧
    e.term = p.term

/-- Read rounds and the reads that wait for them. -/
structure ReadsOK (md : Mode) (b : History G) (i : NodeID) (n : Node σ) : Prop where
  opened : ∀ id rr, n.r.reads id = some rr → id ≤ n.r.nextReadID ∧ b.epoch i id = n.r.term ∧
    ∃ rd, b.rounds n.r.term id = some rd ∧ rr.index = rd.index ∧ (∀ p ∈ rr.acks, p ∈ G.peers) ∧
      (md.fresh → ∀ p ∈ rr.acks, rd.terms p ≤ n.r.term)
  ready : ∀ x ∈ n.r.ready, x.id ≤ n.r.nextReadID ∧
    ∃ rd, b.rounds (b.epoch i x.id) x.id = some rd ∧ x.index = rd.index ∧ (md.fresh → rd.Done)
  queued : ∀ id q, n.reads.lookup id = some q → id ≤ n.r.nextReadID ∧
    ∃ rd, b.rounds (b.epoch i id) id = some rd ∧
      ∀ h ∈ q, h.handle < n.handles ∧ ∀ K, b.birth i h.handle = some K → K ⊆ rd.known
  waiting : ∀ rd ∈ n.waiting, rd.handle < n.handles ∧ (md.fresh → Current b i rd)
  asked : ∀ rd ∈ n.readQueue, rd.handle < n.handles
  births : ∀ h K, b.birth i h = some K → h < n.handles

/-- A candidate stands with its log, on the votes it was given. -/
structure Standing (b : History G) (i : NodeID) (r : Raft) : Prop where
  cand : b.a.cand i r.term = some (b.a.log i)
  votes : ∀ p, r.votes.lookup p = some true → p ∈ G.peers ∧ ∃ l, b.a.ballot p r.term = some (i, l)
  lead : b.a.leader r.term ≠ some i
  idle : ∀ id, r.reads id = none

/-- A leader's books. -/
structure Leading (b : History G) (i : NodeID) (r : Raft) : Prop where
  office : InOffice b.a i r.term
  commit_max : ∀ k, (r.term, k) ∈ b.a.commits → k ≤ r.commit
  acked : ∀ q, Acked b.a q r.term (r.matchIdx q)
  next : ∀ q ∈ G.peers, 1 ≤ r.next q ∧ r.next q ≤ (b.a.llog r.term).length + 1
  snapOut : ∀ q x, r.snapOut q = some x → Certified b.a r.term x.index x.term
  rounds : ∀ id, r.nextReadID < id → b.rounds r.term id = none

def Role (b : History G) (i : NodeID) (r : Raft) : Prop :=
  match r.state with
  | .follower => ∀ id, r.reads id = none
  | .candidate => Standing b i r
  | .leader => Leading b i r

/-- Only a leader has read rounds open. -/
theorem Role.idle {r : Raft} (h : Role b i r) (hl : r.state ≠ .leader) : ∀ id, r.reads id = none := by
  unfold Role at h
  split at h
  · exact h
  · exact h.idle
  · next hs => exact absurd hs hl

/-- Between any two effects. -/
structure Held (md : Mode) (b : History G) (i : NodeID) (pos : ℕ) (n : Node σ) (s : MemStore) :
    Prop where
  member : i ∈ G.peers ∧ i ≠ None
  dur : Dur md.clean b.a i s
  term : n.r.term = s.term
  vote : n.r.vote = s.vote
  commit : Justified b.a i s n.r.commit
  pos : Justified b.a i s pos
  applied : n.applied ≤ n.r.commit
  snapIn : ∀ x, n.r.snapIn = some x → Certified b.a (b.a.term i) x.index x.term
  pending : ∀ k p, n.pending.lookup k = some p → p.index = k ∧ Proposed b.a p
  reads : ReadsOK md b i n
  role : Role b i n.r

/-- Between two calls inside an operation. -/
structure Sound (md : Mode) (b : History G) (i : NodeID) (pos : ℕ) (n : Node σ) (s : MemStore) :
    Prop extends Held md b i pos n s where
  whole : n.r.state = .leader → b.a.log i = b.a.llog n.r.term
  snap_commit : s.snapIdx ≤ n.r.commit
  cover : s.snapIdx ≤ n.applied ∨ ∃ x, n.r.restored = some x ∧ s.snapIdx ≤ x.index
  restored : ∀ x, n.r.restored = some x → x.index ≤ n.r.commit

/-- Between two operations. -/
structure Resting (md : Mode) (b : History G) (i : NodeID) (pos : ℕ) (n : Node σ) (s : MemStore) :
    Prop extends Sound md b i pos n s where
  caught : s.snapIdx ≤ n.applied

/-! ## What another node leaves alone. -/

/-- Node `j` did not move, but for its vote. -/
structure Still (j : NodeID) (b b' : History G) : Prop where
  later : Later b b'
  term : b'.a.term j = b.a.term j
  log : b'.a.log j = b.a.log j
  leader : ∀ T, b'.a.leader T = some j → b.a.leader T = some j
  commits : ∀ T k, b.a.leader T = some j → (T, k) ∈ b'.a.commits → (T, k) ∈ b.a.commits
  rounds : ∀ T id, b.a.leader T = some j → b'.rounds T id = b.rounds T id
  epoch : b'.epoch j = b.epoch j
  birth : ∀ h, b'.birth j h = b.birth j h

theorem Grow.still (h : Grow i b b') (hj : j ≠ i) : Still j b b' where
  later := h.later
  term := h.frame.term j hj
  log := h.frame.log j hj
  leader T := h.frame.leader T j hj
  commits T k := h.frame.commits T j k hj
  rounds T id := h.rounds_frame T id j hj
  epoch := h.epoch_frame j hj
  birth k := h.birth_frame j k hj

theorem Current.still {rd : Read} (h : Current b j rd) (hs : Still j b b') : Current b' j rd := by
  intro K hK
  rw [hs.birth] at hK
  exact h K hK

theorem ReadsOK.still (h : ReadsOK md b j n) (hs : Still j b b') : ReadsOK md b' j n where
  opened id rr hr := by
    obtain ⟨hid, hep, rd, hrd, hrest⟩ := h.opened id rr hr
    exact ⟨hid, hs.epoch ▸ hep, rd, hs.later.rounds _ _ _ hrd, hrest⟩
  ready x hx := by
    obtain ⟨hid, rd, hrd, hrest⟩ := h.ready x hx
    exact ⟨hid, rd, hs.epoch ▸ hs.later.rounds _ _ _ hrd, hrest⟩
  queued id q hq := by
    obtain ⟨hid, rd, hrd, hrest⟩ := h.queued id q hq
    refine ⟨hid, rd, hs.epoch ▸ hs.later.rounds _ _ _ hrd, fun k hk => ⟨(hrest k hk).1, fun K hK => ?_⟩⟩
    rw [hs.birth] at hK
    exact (hrest k hk).2 K hK
  waiting rd hrd := ⟨(h.waiting rd hrd).1, fun hf => ((h.waiting rd hrd).2 hf).still hs⟩
  asked := h.asked
  births k K hK := h.births k K (hs.birth k ▸ hK)

theorem InOffice.of_le {a a' : Abstract} {T : ℕ} (h : InOffice a i T) (hle : Le a a')
    (hlog : a'.log i = a.log i) : InOffice a' i T where
  lead := hle.leader T i h.lead
  base := by rw [hle.base T (by rw [h.lead]; simp), hlog]; exact h.base
  log := by rw [hlog]; exact h.log.trans (hle.llog T)

theorem Standing.still {r : Raft} (h : Standing b j r) (hs : Still j b b') : Standing b' j r where
  cand := by rw [hs.log]; exact hs.later.le.cand _ _ _ h.cand
  votes p hp := by
    obtain ⟨hpeer, l, hl⟩ := h.votes p hp
    exact ⟨hpeer, l, hs.later.le.ballot _ _ _ hl⟩
  lead hl := h.lead (hs.leader _ hl)
  idle := h.idle

theorem Leading.still {r : Raft} (h : Leading b j r) (hs : Still j b b') : Leading b' j r where
  office := h.office.of_le hs.later.le hs.log
  commit_max k hk := h.commit_max k (hs.commits _ k h.office.lead hk)
  acked q := (h.acked q).of_le hs.later.le
  next q hq := by
    have := (hs.later.le.llog r.term).length_le
    have := h.next q hq
    omega
  snapOut q x hx := (h.snapOut q x hx).of_le hs.later.le
  rounds id hid := (hs.rounds _ id h.office.lead).trans (h.rounds id hid)

theorem Role.still {r : Raft} (h : Role b j r) (hs : Still j b b') : Role b' j r := by
  unfold Role at h ⊢
  split at h
  · exact h
  · exact Standing.still h hs
  · exact Leading.still h hs

theorem Proposed.of_le {a a' : Abstract} {p : Proposal} (h : Proposed a p) (hle : Le a a') :
    Proposed a' p :=
  ⟨h.1, h.2.imp fun _ he => ⟨getElem?_of_isPrefix (hle.llog _) he.1, he.2⟩⟩

theorem Held.still (h : Held md b j pos n s) (hs : Still j b b')
    (hv : b'.a.vote j = b.a.vote j) : Held md b' j pos n s :=
  { h with
    dur := h.dur.of_le hs.later.le hs.term hv hs.log
    commit := h.commit.of_le b.inv hs.later.le hs.log rfl
    pos := h.pos.of_le b.inv hs.later.le hs.log rfl
    snapIn := fun x hx => hs.term ▸ (h.snapIn x hx).of_le hs.later.le
    pending := fun k p hp => ⟨(h.pending k p hp).1, (h.pending k p hp).2.of_le hs.later.le⟩
    reads := h.reads.still hs
    role := h.role.still hs }

theorem Held.leading (h : Held md b i pos n s) (hl : n.r.state = .leader) : Leading b i n.r := by
  have := h.role
  unfold Role at this
  rwa [hl] at this

theorem Sound.still (h : Sound md b j pos n s) (hs : Still j b b')
    (hv : b'.a.vote j = b.a.vote j)
    (hllog : ∀ T, b.a.leader T = some j → b'.a.llog T = b.a.llog T) : Sound md b' j pos n s where
  toHeld := h.toHeld.still hs hv
  whole hl := by rw [hs.log, h.whole hl, hllog _ (h.toHeld.leading hl).office.lead]
  snap_commit := h.snap_commit
  cover := h.cover
  restored := h.restored

theorem Resting.still (h : Resting md b j pos n s) (hs : Still j b b')
    (hv : b'.a.vote j = b.a.vote j)
    (hllog : ∀ T, b.a.leader T = some j → b'.a.llog T = b.a.llog T) : Resting md b' j pos n s where
  toSound := h.toSound.still hs hv hllog
  caught := h.caught

/-! ## Facts a running node reads off its invariant. -/

theorem Held.term_eq (h : Held md b i pos n s) : b.a.term i = n.r.term :=
  h.dur.term.trans h.term.symm

theorem Held.commit_le (h : Held md b i pos n s) : n.r.commit ≤ (b.a.log i).length :=
  h.commit.le_length h.dur

theorem Held.below_commit (h : Held md b i pos n s) : Below b.a n.r.term n.r.commit :=
  h.term_eq ▸ h.commit.below h.dur

/-- Every moment of a held state may be shown. -/
theorem Held.shown (h : Held md b i pos n s) {e : Effect} (he : EffectOK md b i n s e) :
    Shown md b i pos (some e) n s :=
  { h with
    births := h.reads.births
    office := fun hl _ => (h.leading hl).office
    effect := fun _ he' => Option.some.inj he' ▸ he }

/-! ## Rules for the primitives. -/

section Rules

variable {α : Type} {cfg : Config} {S : Sys σ} {R : Panic → Sys σ → Prop}

theorem wp_getRaft {Q : Raft → Sys σ → Prop} : Wp getRaft Q R S ↔ Q S.node.r S := Iff.rfl

theorem wp_getStore {Q : MemStore → Sys σ → Prop} : Wp getStore Q R S ↔ Q S.store S := Iff.rfl

theorem wp_getNode {Q : Node σ → Sys σ → Prop} : Wp getNode Q R S ↔ Q S.node S := Iff.rfl

theorem wp_modifyRaft {Q : Unit → Sys σ → Prop} {f : Raft → Raft} :
    Wp (modifyRaft f) Q R S ↔ Q () { S with node := { S.node with r := f S.node.r } } := Iff.rfl

theorem wp_modifyNode {Q : Unit → Sys σ → Prop} {f : Node σ → Node σ} :
    Wp (modifyNode f) Q R S ↔ Q () { S with node := f S.node } := Iff.rfl

theorem wp_emit {Q : Unit → Sys σ → Prop} {e : Effect} :
    Wp (emit e) Q R S ↔ Q () { S with trace := S.trace ++ [⟨e, S.node, S.store⟩] } := Iff.rfl

theorem wp_send {Q : Unit → Sys σ → Prop} {m : Message} :
    Wp (send cfg m) Q R S ↔
      Wp (emit (.send { m with fromId := cfg.id, term := S.node.r.term })) Q R S := Iff.rfl

theorem wp_resetTimeout {Q : Unit → Sys σ → Prop} :
    Wp (resetTimeout cfg) Q R S ↔
      Q () { S with
        node := { S.node with
          r := { S.node.r with
            elapsed := 0
            timeout := cfg.electionTick + S.node.r.rng 0 % cfg.electionTick
            rng := fun k => S.node.r.rng (k + 1) } } } := Iff.rfl

/-- A log access inside the range does not stop the program. -/
theorem wp_termAt {Q : ℕ → Sys σ → Prop} {k t : ℕ} (h : S.store.termOf k = .ok t) :
    Wp (termAt k) Q R S ↔ Q t S := by
  simp only [termAt, wp_bind, wp_getStore, h, wp_pure]

theorem wp_lastIndexAndTerm {Q : ℕ × ℕ → Sys σ → Prop} {t : ℕ}
    (h : S.store.termOf S.store.lastIndex = .ok t) :
    Wp lastIndexAndTerm Q R S ↔ Q (S.store.lastIndex, t) S := by
  simp only [lastIndexAndTerm, wp_bind, wp_getStore, wp_termAt h, wp_pure]

theorem wp_readEntries {Q : List Entry → Sys σ → Prop} {lo hi : ℕ} {es : List Entry}
    (h : S.store.slice lo hi = .ok es) : Wp (readEntries lo hi) Q R S ↔ Q es S := by
  simp only [readEntries, wp_bind, wp_getStore, h, wp_pure]

end Rules

/-! ## The trace of an operation. -/

section Trace

variable (md i pos) (b₀ : History G)

/-- A point of a trace, justified by the history at its moment. -/
def PointOK (b : History G) (p : Point σ) : Prop := Shown md b i pos (some p.effect) p.node p.store

/-- The trace so far is linked, and the history is now `b`. -/
def Tr (b : History G) (S : Sys σ) : Prop := Linked (Grow i) (PointOK md i pos) b₀ S.trace b

/-- The program stopped, not by a refused log access, and every effect it had is justified. -/
def Stops (e : Panic) (S : Sys σ) : Prop := (∀ x, e ≠ .store x) ∧ ∃ b, Tr md i pos b₀ b S

/-- The history has grown since `b`, the trace is linked, and `J` holds. -/
def After (b : History G) (J : History G → Sys σ → Prop) (S : Sys σ) : Prop :=
  ∃ b', Grow i b b' ∧ Tr md i pos b₀ b' S ∧ J b' S

variable {md i pos b₀}

theorem After.here {b : History G} {J : History G → Sys σ → Prop} {S : Sys σ}
    (ht : Tr md i pos b₀ b S) (hJ : J b S) : After md i pos b₀ b J S :=
  ⟨b, Grow.refl i b, ht, hJ⟩

/-- What is reached after a growth is reached after the whole of it. -/
theorem After.grow {b b' : History G} {J : History G → Sys σ → Prop} {S : Sys σ}
    (hg : Grow i b b') (h : After md i pos b₀ b' J S) : After md i pos b₀ b J S := by
  obtain ⟨b'', hg', ht, hJ⟩ := h
  exact ⟨b'', hg.trans hg', ht, hJ⟩

/-- Sequencing: the second program starts where the first has left the history. -/
theorem After.bind {α β : Type} {b : History G} {x : M σ α} {f : α → M σ β} {S : Sys σ}
    {J : α → History G → Sys σ → Prop} {K : β → History G → Sys σ → Prop}
    {R : Panic → Sys σ → Prop} (hx : Wp x (fun a S' => After md i pos b₀ b (J a) S') R S)
    (hf : ∀ a b' S', Tr md i pos b₀ b' S' → J a b' S' →
      Wp (f a) (fun c S'' => After md i pos b₀ b' (K c) S'') R S') :
    Wp (x >>= f) (fun c S'' => After md i pos b₀ b (K c) S'') R S := by
  refine hx.bind fun a S' h => ?_
  obtain ⟨b', hg, ht, hJ⟩ := h
  exact (hf a b' S' ht hJ).imp fun _ _ hc => hc.grow hg

theorem Tr.grow {b b' : History G} {S : Sys σ} (h : Tr md i pos b₀ b S) (hg : Grow i b b') :
    Tr md i pos b₀ b' S :=
  Linked.tail h hg

theorem Tr.stops {b : History G} {S : Sys σ} (h : Tr md i pos b₀ b S) {e : Panic}
    (he : ∀ x, e ≠ .store x) : Stops md i pos b₀ e S :=
  ⟨he, b, h⟩

/-- An effect extends the trace by a justified point. -/
theorem Tr.emit {b : History G} {S : Sys σ} (h : Tr md i pos b₀ b S) {e : Effect}
    (hs : Shown md b i pos (some e) S.node S.store) :
    Tr md i pos b₀ b { S with trace := S.trace ++ [⟨e, S.node, S.store⟩] } :=
  Linked.snoc h hs (Grow.refl i b)

end Trace

end Keystone.Raft
