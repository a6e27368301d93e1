/-
# Keystone.Raft.Chunks — what an operation does to the snapshot transfers.

A snapshot goes to a follower in chunks: `snapOut` remembers how far the leader is, `snapIn` what the
follower has of it, and the answers carry offsets back.  Neither end names the leader or the bytes; a
transfer in is known by its index alone.  An `Archive` says what snapshot every node had at every index,
and `Ships C A S` states what one operation of a node keeps true about it:

* a transfer out is of the node's own snapshot, its offset is within the bytes, and an offset above zero
  is one the follower has reached in this term;
* a chunk on the wire is a piece of the sender's snapshot at that index;
* an answer that asks for more is within the bytes, and what its sender has taken in by then is the
  beginning of the snapshot of the leader it answers;
* a snapshot that is installed from outside is one the operation's `source` allows.

`carries` is the frame of the programs that keep all this and never slice out of range.  Most functions
are in it by what they do (`Keystone.Raft.Walks`); the lemmas here are about those that touch a transfer.
-/
import Keystone.Raft.Invariant
import Keystone.Raft.Walks

namespace Keystone.Raft

open Keystone.Lib
open Function (update)

variable {σ α : Type}

/-! ## Snapshots and their pieces. -/

/-- The snapshots the nodes have had, by index: the term of the last entry in it, and its bytes. -/
abbrev Archive := NodeID → ℕ → Option (ℕ × Bytes)

def Archive.Within (A A' : Archive) : Prop := ∀ i k x, A i k = some x → A' i k = some x

theorem Archive.Within.refl (A : Archive) : A.Within A := fun _ _ _ h => h

theorem Archive.Within.trans {A A' A'' : Archive} (h : A.Within A') (h' : A'.Within A'') :
    A.Within A'' :=
  fun i k x hx => h' i k x (h i k x hx)

/-- What was received is the beginning of the snapshot that `src` had at that index. -/
def Genuine (A : Archive) (src : NodeID) (x : SnapTransfer) : Prop :=
  ∃ d, A src x.index = some (x.term, d) ∧ x.data <+: d

/-- A transfer that is under way comes from `src`. -/
def TakesFrom (A : Archive) (src : NodeID) (r : Raft) : Prop := ∀ x, r.snapIn = some x → Genuine A src x

/-- The node has left the term `t`, or takes in chunks of `src` in it. -/
def Joins (A : Archive) (r : Raft) (t : ℕ) (src : NodeID) : Prop :=
  t < r.term ∨ t = r.term ∧ TakesFrom A src r

/-- The chunk is a piece of its sender's snapshot, and the last one if it says so. -/
def ChunkOf (A : Archive) (m : Message) : Prop :=
  ∃ d, A m.fromId m.index = some (m.logTerm, d) ∧ m.offset ≤ d.length ∧ m.data <+: d.drop m.offset ∧
    (m.done = true → d.take m.offset ++ m.data = d)

/-- The answer asks for bytes that exist. -/
def ReceiptOf (A : Archive) (m : Message) : Prop :=
  ∃ t d, A m.toId m.index = some (t, d) ∧ m.offset ≤ d.length

section Within

variable {A A' : Archive} (hA : A.Within A')
include hA

theorem Genuine.within {src : NodeID} {x : SnapTransfer} (h : Genuine A src x) : Genuine A' src x := by
  obtain ⟨d, hd, hx⟩ := h
  exact ⟨d, hA _ _ _ hd, hx⟩

theorem TakesFrom.within {src : NodeID} {r : Raft} (h : TakesFrom A src r) : TakesFrom A' src r :=
  fun x hx => (h x hx).within hA

theorem Joins.within {r : Raft} {t : ℕ} {src : NodeID} (h : Joins A r t src) : Joins A' r t src :=
  h.imp_right fun ⟨ht, h⟩ => ⟨ht, h.within hA⟩

theorem ChunkOf.within {m : Message} (h : ChunkOf A m) : ChunkOf A' m := by
  obtain ⟨d, hd, h⟩ := h
  exact ⟨d, hA _ _ _ hd, h⟩

theorem ReceiptOf.within {m : Message} (h : ReceiptOf A m) : ReceiptOf A' m := by
  obtain ⟨t, d, hd, h⟩ := h
  exact ⟨t, d, hA _ _ _ hd, h⟩

end Within

/-- A later node of the same transfer has joined what the earlier one had. -/
theorem Joins.later {A : Archive} {r r' : Raft} {t : ℕ} {src : NodeID} (h : Joins A r t src)
    (ht : r.term ≤ r'.term) (hin : r'.snapIn = r.snapIn) : Joins A r' t src := by
  rcases h with hlt | ⟨rfl, hfrom⟩
  · exact Or.inl (by omega)
  · rcases Nat.lt_or_eq_of_le ht with hlt | heq
    · exact Or.inl hlt
    · refine Or.inr ⟨heq, fun x hx => hfrom x ?_⟩
      rw [← hin]
      exact hx

/-- The chunk at the end of what was received continues it. -/
theorem ChunkOf.extends {A : Archive} {m : Message} {x : SnapTransfer} (hm : ChunkOf A m)
    (hx : Genuine A m.fromId x) (hidx : x.index = m.index) (hoff : m.offset = x.data.length) :
    x.term = m.logTerm ∧ Genuine A m.fromId { x with data := x.data ++ m.data } ∧
      (m.done = true → A m.fromId x.index = some (x.term, x.data ++ m.data)) := by
  obtain ⟨d, hd, -, hpart, hdone⟩ := hm
  obtain ⟨d', hd', hstart⟩ := hx
  rw [hidx, hd] at hd'
  obtain ⟨hterm, rfl⟩ := Prod.mk.inj (Option.some.inj hd')
  have htake : d.take m.offset = x.data := by
    rw [hoff]
    exact (List.prefix_iff_eq_take.mp hstart).symm
  refine ⟨hterm.symm, ⟨d, ?_, ?_⟩, fun h => ?_⟩
  · rw [hidx, hd, hterm]
  · have happ : x.data ++ m.data <+: d.take m.offset ++ d.drop m.offset := by
      rw [htake]
      exact (List.prefix_append_right_inj _).mpr hpart
    rwa [List.take_append_drop] at happ
  · rw [hidx, hd, hterm, ← htake, hdone h]

/-! ## The invariant of an operation. -/

/-- What an operation of a node starts from: its configuration, the archive, who leads which term,
which follower has reached the node's chunks in which term, in which term the node itself takes in whose
chunks, and what it may install. -/
structure Scene where
  cfg : Config
  archive : Archive
  lead : ℕ → Option NodeID
  reached : NodeID → ℕ → Prop
  joined : ℕ → NodeID → Prop
  source : ℕ → ℕ → Bytes → Prop
  joined_lead : ∀ t src, joined t src → lead t = some src

/-- The chunk goes out from a leader, and its offset is one the follower has reached. -/
structure SendsChunk (C : Scene) (A : Archive) (r : Raft) (m : Message) : Prop where
  leader : r.state = .leader
  sender : m.fromId = C.cfg.id
  term : m.term = r.term
  chunk : ChunkOf A m
  reached : 0 < m.offset → C.reached m.toId m.term

/-- The answer goes to the leader of its term, whose chunks the node takes in by now. -/
structure SendsReceipt (C : Scene) (A : Archive) (now : Raft) (m : Message) : Prop where
  sender : m.fromId = C.cfg.id
  receipt : ReceiptOf A m
  lead : C.lead m.term = some m.toId
  joins : Joins A now m.term m.toId

/-- A point of the trace, seen from the node as it is now. -/
def PointShips (C : Scene) (A : Archive) (now : Raft) (p : Point σ) : Prop :=
  match p.effect with
  | .send m => (m.type = .snap → SendsChunk C A p.node.r m) ∧ (m.Asks → SendsReceipt C A now m)
  | .compact k t d => C.source k t d ∨ p.node.applied = k
  | _ => True

/-- The archive has what the store holds and nothing above it, what is new in it was shown, and the trace
is in order.  This much is left when the process stops. -/
structure Logged (C : Scene) (A : Archive) (now : Raft) (s : MemStore) (trace : List (Point σ)) :
    Prop where
  within : C.archive.Within A
  frame : ∀ j, j ≠ C.cfg.id → A j = C.archive j
  stored : A C.cfg.id s.snapIdx = some (s.snapTerm, s.snap)
  above : ∀ k, s.snapIdx < k → A C.cfg.id k = none
  held : ∀ p ∈ trace, A C.cfg.id p.store.snapIdx = some (p.store.snapTerm, p.store.snap)
  known : ∀ k t d, A C.cfg.id k = some (t, d) → C.archive C.cfg.id k = some (t, d) ∨
    ∃ p ∈ trace, p.store.snapIdx = k ∧ p.store.snapTerm = t ∧ p.store.snap = d
  trace : ∀ p ∈ trace, PointShips C A now p

structure Ships (C : Scene) (A : Archive) (S : Sys σ) : Prop
    extends Logged C A S.node.r S.store S.trace where
  out : ∀ dst x, S.node.r.snapOut dst = some x → S.node.r.state = .leader ∧
    A C.cfg.id x.index = some (x.term, x.data) ∧ x.offset ≤ x.data.length ∧
    (0 < x.offset → C.reached dst S.node.r.term)
  joined : ∀ t src, C.joined t src → Joins A S.node.r t src
  cuts : ∀ before p after, S.trace = before ++ p :: after →
    ∃ A', Logged C A' p.node.r p.store (before ++ [p])

/-- The invariant, for a node in a role. -/
def Aboard (C : Scene) (Q : State → Prop) (S : Sys σ) : Prop :=
  (∃ A, Ships C A S) ∧ Q S.node.r.state

/-- The program keeps the invariant, and slices only what is there. -/
abbrev carries (C : Scene) (Q : State → Prop) : Frame Panic (Sys σ) :=
  .maintains (Aboard C Q) (· ≠ Panic.slice)

variable {C : Scene} {A A' : Archive} {Q Q' : State → Prop} {S S' : Sys σ}

theorem PointShips.later {now now' : Raft} {p : Point σ} (h : PointShips C A now p)
    (ht : now.term ≤ now'.term) (hin : now'.snapIn = now.snapIn) : PointShips C A now' p := by
  unfold PointShips at h ⊢
  split at h
  · exact ⟨h.1, fun ha => ⟨(h.2 ha).sender, (h.2 ha).receipt, (h.2 ha).lead,
      (h.2 ha).joins.later ht hin⟩⟩
  · exact h
  · trivial

theorem PointShips.within (hA : A.Within A') {now : Raft} {p : Point σ} (h : PointShips C A now p) :
    PointShips C A' now p := by
  unfold PointShips at h ⊢
  split at h
  · refine ⟨fun hm => ?_, fun ha => ?_⟩
    · have := h.1 hm
      exact ⟨this.leader, this.sender, this.term, this.chunk.within hA, this.reached⟩
    · have := h.2 ha
      exact ⟨this.sender, this.receipt.within hA, this.lead, this.joins.within hA⟩
  · exact h
  · trivial

theorem Aboard.mono (h : Aboard C Q S) (hQ : Q S.node.r.state → Q' S.node.r.state) : Aboard C Q' S :=
  ⟨h.1, hQ h.2⟩

/-- A program that keeps the invariant for every role keeps it in the role the node is in. -/
theorem carries_wp {x : M σ α} (h : (carries C Q).Holds x) (hS : Aboard C Q S) (hQ : ∀ st, Q st → Q' st) :
    Wp x (fun _ S' => Aboard C Q' S') (fun e S' => Aboard C Q' S' ∧ e ≠ Panic.slice) S :=
  (h S hS).mono (fun _ _ h => h.mono (hQ _)) fun _ _ h => ⟨h.1.mono (hQ _), h.2⟩

/-! ## Primitives. -/

/-- A change of the node that is none of the transfers'. -/
theorem Ships.modifyNode (h : Ships C A S) {n : Node σ} (hs : n.r.state = S.node.r.state)
    (ht : n.r.term = S.node.r.term) (ho : n.r.snapOut = S.node.r.snapOut)
    (hi : n.r.snapIn = S.node.r.snapIn) : Ships C A { S with node := n } :=
  { h with
    out := fun dst x hx => by
      show n.r.state = .leader ∧ _ ∧ _ ∧ (_ → C.reached dst n.r.term)
      rw [hs, ht]
      refine h.out dst x ?_
      rw [← ho]
      exact hx
    joined := fun t src hj => (h.joined t src hj).later ht.ge hi
    trace := fun p hp => (h.trace p hp).later ht.ge hi }

theorem carries_modifyNode {f : Node σ → Node σ} (hf : ∀ n, (f n).r = n.r) :
    (carries C Q).Holds (modifyNode f : M σ Unit) := by
  rintro S ⟨⟨A, h⟩, hq⟩
  refine ⟨⟨A, h.modifyNode ?_ ?_ ?_ ?_⟩, ?_⟩
  · rw [hf]
  · rw [hf]
  · rw [hf]
  · rw [hf]
  · show Q (f S.node).r.state
    rw [hf]
    exact hq

theorem carries_modifyRaft {f : Raft → Raft} (h : ∀ r, (f r).state = r.state ∧ (f r).term = r.term ∧
    (f r).snapOut = r.snapOut ∧ (f r).snapIn = r.snapIn) :
    (carries C Q).Holds (modifyRaft f : M σ Unit) := by
  rintro S ⟨⟨A, hA⟩, hq⟩
  obtain ⟨hs, ht, ho, hi⟩ := h S.node.r
  refine ⟨⟨A, hA.modifyNode hs ht ho hi⟩, ?_⟩
  show Q (f S.node.r).state
  rw [hs]
  exact hq

theorem Logged.emit {r : Raft} {s : MemStore} {trace : List (Point σ)} (h : Logged C A r s trace)
    {p : Point σ} (hs : p.store = s) (hp : PointShips C A r p) : Logged C A r s (trace ++ [p]) :=
  { h with
    held := fun q hq => by
      rcases List.mem_append.mp hq with hq | hq
      · exact h.held q hq
      · obtain rfl := List.mem_singleton.mp hq
        rw [hs]
        exact h.stored
    known := fun k t d hk => by
      refine (h.known k t d hk).imp_right ?_
      rintro ⟨q, hq, hsnap⟩
      exact ⟨q, List.mem_append_left _ hq, hsnap⟩
    trace := fun q hq => by
      rcases List.mem_append.mp hq with hq | hq
      · exact h.trace q hq
      · obtain rfl := List.mem_singleton.mp hq
        exact hp }

/-- A cut of a longer trace is a cut of the old one, or lies in what was added. -/
theorem cut_cases {trace new before after : List (Point σ)} {p : Point σ}
    (h : trace ++ new = before ++ p :: after) :
    (∃ after', trace = before ++ p :: after') ∨
      ∃ before', before = trace ++ before' ∧ new = before' ++ p :: after := by
  rcases List.append_eq_append_iff.mp h with ⟨mid, rfl, hmid⟩ | ⟨mid, rfl, hmid⟩
  · exact Or.inr ⟨mid, rfl, hmid⟩
  · cases mid with
    | nil => exact Or.inr ⟨[], by simp, by simpa using hmid.symm⟩
    | cons q mid =>
      obtain ⟨rfl, -⟩ := List.cons.inj hmid
      exact Or.inl ⟨mid, rfl⟩

theorem cut_singleton {q p : Point σ} {before after : List (Point σ)}
    (h : [q] = before ++ p :: after) : before = [] ∧ p = q := by
  cases before with
  | nil => exact ⟨rfl, (List.cons.inj h).1.symm⟩
  | cons q' before => simp at h

theorem Ships.emit (h : Ships C A S) {e : Effect}
    (he : PointShips C A S.node.r (⟨e, S.node, S.store⟩ : Point σ)) :
    Ships C A { S with trace := S.trace ++ [⟨e, S.node, S.store⟩] } where
  toLogged := h.toLogged.emit rfl he
  out := h.out
  joined := h.joined
  cuts before p after heq := by
    rcases cut_cases heq with ⟨after', hold⟩ | ⟨before', rfl, hnew⟩
    · exact h.cuts before p after' hold
    · obtain ⟨rfl, rfl⟩ := cut_singleton hnew
      rw [List.append_nil]
      exact ⟨A, h.toLogged.emit rfl he⟩

/-- An effect that is none of the transfers'. -/
def Effect.Plain : Effect → Prop
  | .send m => m.type ≠ .snap ∧ ¬ m.Asks
  | .compact _ _ _ => False
  | _ => True

theorem Effect.Plain.pointShips {e : Effect} (he : e.Plain) {now : Raft} {n : Node σ} {s : MemStore} :
    PointShips C A now (⟨e, n, s⟩ : Point σ) := by
  unfold Effect.Plain at he
  unfold PointShips
  split at he
  · exact ⟨fun hm => absurd hm he.1, fun ha => absurd ha he.2⟩
  · cases he
  · trivial

theorem carries_emit {e : Effect} (he : e.Plain) : (carries C Q).Holds (emit e : M σ Unit) := by
  rintro S ⟨⟨A, h⟩, hq⟩
  exact ⟨⟨A, h.emit he.pointShips⟩, hq⟩

theorem carries_send {cfg : Config} {m : Message} (hm : m.type ≠ .snap) (ha : ¬ m.Asks) :
    (carries C Q).Holds (send cfg m : M σ Unit) :=
  .bind holds_getRaft fun _ => carries_emit ⟨hm, ha⟩

/-- A write to the store that is no compaction. -/
theorem carries_modifyStore (f : MemStore → MemStore)
    (hf : ∀ s, (f s).snapIdx = s.snapIdx ∧ (f s).snapTerm = s.snapTerm ∧ (f s).snap = s.snap) :
    (carries C Q).Holds (modify fun S => { S with store := f S.store } : M σ Unit) := by
  rintro S ⟨⟨A, h⟩, hq⟩
  obtain ⟨hi, ht, hs⟩ := hf S.store
  refine ⟨⟨A, ⟨h.within, h.frame, ?_, ?_, h.held, h.known, h.trace⟩, h.out, h.joined, h.cuts⟩, hq⟩
  · show A C.cfg.id (f S.store).snapIdx = some ((f S.store).snapTerm, (f S.store).snap)
    rw [hi, ht, hs]
    exact h.stored
  · show ∀ k, (f S.store).snapIdx < k → _
    rw [hi]
    exact h.above

instance : Clerical (carries C Q : Frame Panic (Sys σ)) where
  note h := carries_modifyRaft fun r => ⟨congrArg Office.state (h r), congrArg Office.term (h r),
    congrArg Office.snapOut (h r), congrArg Office.snapIn (h r)⟩
  stop he := fun _ h => ⟨h, he⟩
  persist := .bind holds_getRaft fun _ =>
    .bind (carries_modifyStore (MemStore.setState · _ _) fun _ => ⟨rfl, rfl, rfl⟩) fun _ =>
      carries_emit trivial
  send h := carries_send h.type_ne.2 h.not_asks

instance : Accepts (carries C Q : Frame Panic (Sys σ)) where
  write := holds_appendStore (.bind (carries_modifyStore (·.appendOne _) fun s => by rw [s.appendOne_eq]; simp)
    fun _ => carries_emit trivial)
  commit := .bind (carries_modifyRaft fun _ => ⟨rfl, rfl, rfl, rfl⟩) fun _ => carries_emit trivial

instance {cfg : Config} : Tallies cfg (carries C Q : Frame Panic (Sys σ)) := ⟨holds_maybeCommit Accepts.commit⟩

/-! ## The sender (`sendSnapshot`, `sendChunk`). -/

/-- A transfer of the node's own snapshot, at an offset the follower has reached. -/
def OutOK (C : Scene) (A : Archive) (term : ℕ) (dst : NodeID) (x : SnapTransfer) : Prop :=
  A C.cfg.id x.index = some (x.term, x.data) ∧ x.offset ≤ x.data.length ∧
    (0 < x.offset → C.reached dst term)

/-- A leader takes up a transfer, moves it on or drops it. -/
theorem Ships.setOut (h : Ships C A S) {dst : NodeID} {y : Option SnapTransfer}
    (hl : S.node.r.state = .leader) (hy : ∀ x, y = some x → OutOK C A S.node.r.term dst x) :
    Ships C A { S with node := { S.node with
      r := { S.node.r with snapOut := update S.node.r.snapOut dst y } } } :=
  { h with
    out := fun dst' x' hx' => by
      by_cases hdst : dst' = dst
      · subst hdst
        simp only [Function.update_self] at hx'
        exact ⟨hl, hy x' hx'⟩
      · simp only [Function.update_of_ne hdst] at hx'
        exact h.out dst' x' hx'
    joined := fun t src hj => (h.joined t src hj).later le_rfl rfl
    trace := fun p hp => (h.trace p hp).later le_rfl rfl }

/-- A piece of the snapshot, from the offset on: it is there, and it goes out. -/
theorem sendChunk_carries {dst : NodeID} {x : SnapTransfer} (h : Ships C A S)
    (hl : S.node.r.state = .leader) (hx : OutOK C A S.node.r.term dst x) (hq : Q .leader) :
    Wp (sendChunk C.cfg dst x) (fun _ => Aboard C Q)
      (fun e S' => Aboard C Q S' ∧ e ≠ Panic.slice) S := by
  obtain ⟨harch, hoff, hreach⟩ := hx
  simp only [sendChunk]
  rw [wp_ite]
  refine ⟨fun hgt => absurd hgt (by omega), fun _ => ?_⟩
  rw [wp_send, wp_emit]
  refine ⟨⟨A, h.emit ⟨fun _ => ⟨hl, rfl, rfl, ?_, hreach⟩, fun ha => ?_⟩⟩, by rw [hl]; exact hq⟩
  · refine ⟨x.data, harch, hoff, List.take_prefix _ _, fun hdone => ?_⟩
    have hstop : min (x.offset + C.cfg.snapChunk) x.data.length = x.data.length := by
      simpa using hdone
    show x.data.take x.offset ++ (x.data.drop x.offset).take
      (min (x.offset + C.cfg.snapChunk) x.data.length - x.offset) = x.data
    have hrest : (x.data.drop x.offset).length ≤ x.data.length - x.offset := by rw [List.length_drop]
    rw [hstop, List.take_of_length_le hrest, List.take_append_drop]
  · cases ha.1

theorem sendSnapshot_carries {dst : NodeID} :
    (carries C (· = .leader)).Holds (sendSnapshot C.cfg dst : M σ Unit) := by
  rintro S ⟨⟨A, h⟩, hl⟩
  have hx : OutOK C A S.node.r.term dst (outgoing S.store (S.node.r.snapOut dst)) := by
    have hnew : OutOK C A S.node.r.term dst
        { index := S.store.snapIdx, term := S.store.snapTerm, data := S.store.snap } :=
      ⟨h.stored, Nat.zero_le _, fun hlt => absurd hlt (lt_irrefl 0)⟩
    unfold outgoing
    split
    · next x hout =>
      split
      · exact (h.out dst x hout).2
      · exact hnew
    · exact hnew
  simp only [sendSnapshot]
  rw [wp_bind, wp_getStore, wp_bind, wp_getRaft, wp_bind, wp_modifyRaft]
  exact sendChunk_carries (h.setOut hl fun _ heq => Option.some.inj heq ▸ hx) hl hx rfl

/-! ## Leading. -/

theorem carries_app {m : Message} (h : m.type = .app) : (carries C Q).Holds (send C.cfg m : M σ Unit) :=
  carries_send (fun ht => by cases h.symm.trans ht) fun ha => by cases h.symm.trans ha.1

instance : Leads C.cfg (carries C (· = .leader) : Frame Panic (Sys σ)) :=
  ⟨holds_sendAppend sendSnapshot_carries carries_app⟩

instance : Grows C.cfg (carries C (· = .leader) : Frame Panic (Sys σ)) :=
  ⟨holds_appendEntries Accepts.write carries_app⟩

/-- What leaders do, a node does that turns out to lead. -/
theorem carries_guarded {x : M σ α} (h : (carries C (· = .leader)).Holds x) (hS : Aboard C Q S)
    (hl : S.node.r.state = .leader) :
    Wp x (fun _ => Aboard C Q) (fun e S' => Aboard C Q S' ∧ e ≠ Panic.slice) S := by
  have hq : Q .leader := by
    rw [← hl]
    exact hS.2
  exact carries_wp h ⟨hS.1, hl⟩ (by rintro st rfl; exact hq)

theorem carries_propose {payloads : List Bytes} :
    (carries C Q).Holds (propose C.cfg payloads : M σ (Option ℕ)) := by
  intro S hS
  by_cases hl : S.node.r.state = .leader
  · exact carries_guarded holds_propose hS hl
  · simp only [propose]
    rw [wp_bind, wp_getRaft, if_pos hl]
    exact hS

/-! ## Reads and answers. -/

theorem carries_readIndex : (carries C Q).Holds (readIndex C.cfg : M σ (Except ReadError ℕ)) := by
  intro S hS
  by_cases hl : S.node.r.state = .leader
  · exact carries_guarded holds_readIndex hS hl
  · simp only [readIndex]
    rw [wp_bind, wp_getRaft, if_pos hl]
    exact hS

/-- An answer that asks for more comes from a follower that has reached the chunks of this term, and
asks for bytes that exist. -/
structure AskOK (C : Scene) (term : ℕ) (m : Message) : Prop where
  receipt : m.toId = C.cfg.id ∧ ReceiptOf C.archive m
  reached : C.reached m.fromId term

/-- The transfer moves on to the offset it is asked for, or starts again. -/
theorem handleSnapshotResp_carries {m : Message} (hS : Aboard C (· = .leader) S)
    (hm : m.done = false → m.reject = false → AskOK C S.node.r.term m) :
    Wp (handleSnapshotResp C.cfg m) (fun _ S' => Aboard C (· = .leader) S')
      (fun e S' => Aboard C (· = .leader) S' ∧ e ≠ Panic.slice) S := by
  obtain ⟨⟨A, h⟩, hl⟩ := hS
  simp only [handleSnapshotResp]
  rw [wp_bind, wp_getRaft, wp_ite]
  refine ⟨fun _ => ?_, fun hdone => ?_⟩
  · rw [wp_bind, wp_modifyRaft]
    have hrest : (carries C (· = .leader)).Holds (do
        advanceFollower m.fromId m.index
        let moved ← maybeCommit C.cfg
        if moved then broadcastAppend C.cfg else sendAppend C.cfg m.fromId 0 : M σ Unit) :=
      .bind holds_advanceFollower fun _ => .bind Tallies.tally fun _ => .ite holds_broadcastAppend Leads.app
    exact hrest _ ⟨⟨A, h.setOut hl fun x hx => by cases hx⟩, hl⟩
  · cases hout : S.node.r.snapOut m.fromId with
    | none => exact ⟨⟨A, h⟩, hl⟩
    | some x =>
      obtain ⟨-, harch, hoff, hreach⟩ := h.out _ _ hout
      rw [wp_ite]
      refine ⟨fun _ => ⟨⟨A, h⟩, hl⟩, fun hidx => ?_⟩
      have hidx : x.index = m.index := not_not.mp hidx
      rw [wp_bind, wp_modifyRaft]
      have hx : OutOK C A S.node.r.term m.fromId
          { x with offset := if m.reject then 0 else max x.offset m.offset } := by
        refine ⟨harch, ?_, ?_⟩
        · show (if m.reject then 0 else max x.offset m.offset) ≤ x.data.length
          split
          · exact Nat.zero_le _
          · next hrej =>
            obtain ⟨⟨hto, t, d, hd, hle⟩, -⟩ := hm (by simpa using hdone) (by simpa using hrej)
            have hd := h.within _ _ _ hd
            rw [hto, ← hidx, harch] at hd
            obtain ⟨-, rfl⟩ := Prod.mk.inj (Option.some.inj hd)
            exact max_le hoff hle
        · show 0 < (if m.reject then 0 else max x.offset m.offset) → _
          split
          · exact fun hlt => absurd hlt (lt_irrefl 0)
          · next hrej => exact fun _ => (hm (by simpa using hdone) (by simpa using hrej)).reached
      exact sendChunk_carries (h.setOut hl fun _ heq => Option.some.inj heq ▸ hx) hl hx rfl

/-! ## Elections. -/

/-- The point shows the node later in the same transfer, with the snapshot it has, in an effect that is
none of the transfers'. -/
structure Idle (S : Sys σ) (p : Point σ) : Prop where
  plain : p.effect.Plain
  term : S.node.r.term ≤ p.node.r.term
  snapIn : p.node.r.snapIn = S.node.r.snapIn
  store : p.store.snapIdx = S.store.snapIdx ∧ p.store.snapTerm = S.store.snapTerm ∧
    p.store.snap = S.store.snap

theorem Idle.two {p q : Point σ} (hp : Idle S p) (hq : Idle S q) : ∀ x ∈ [p] ++ [q], Idle S x := by
  intro x hx
  rcases List.mem_append.mp hx with hx | hx
  · exact List.mem_singleton.mp hx ▸ hp
  · exact List.mem_singleton.mp hx ▸ hq

theorem Ships.logged_later (h : Ships C A S) {r : Raft} {s : MemStore} {ps : List (Point σ)}
    (hterm : S.node.r.term ≤ r.term) (hin : r.snapIn = S.node.r.snapIn)
    (hstore : s.snapIdx = S.store.snapIdx ∧ s.snapTerm = S.store.snapTerm ∧ s.snap = S.store.snap)
    (hps : ∀ p ∈ ps, Idle S p) : Logged C A r s (S.trace ++ ps) where
  within := h.within
  frame := h.frame
  stored := by
    rw [hstore.1, hstore.2.1, hstore.2.2]
    exact h.stored
  above := by
    rw [hstore.1]
    exact h.above
  held p hp := by
    rcases List.mem_append.mp hp with hp | hp
    · exact h.held p hp
    · obtain ⟨hi, ht, hs⟩ := (hps p hp).store
      rw [hi, ht, hs]
      exact h.stored
  known k t d hk := by
    refine (h.known k t d hk).imp_right ?_
    rintro ⟨q, hq, hsnap⟩
    exact ⟨q, List.mem_append_left _ hq, hsnap⟩
  trace p hp := by
    rcases List.mem_append.mp hp with hp | hp
    · exact (h.trace p hp).later hterm hin
    · exact (hps p hp).plain.pointShips

/-- A node drops its transfers out and goes on, in the same or a later term. -/
theorem Ships.reset (h : Ships C A S) (hterm : S.node.r.term ≤ S'.node.r.term)
    (hout : S'.node.r.snapOut = fun _ => none) (hin : S'.node.r.snapIn = S.node.r.snapIn)
    (hstore : S'.store.snapIdx = S.store.snapIdx ∧ S'.store.snapTerm = S.store.snapTerm ∧
      S'.store.snap = S.store.snap)
    (htrace : ∃ ps, S'.trace = S.trace ++ ps ∧ ∀ p ∈ ps, Idle S p) : Ships C A S' := by
  obtain ⟨ps, hps, hidle⟩ := htrace
  refine ⟨?_, ?_, fun t src hj => (h.joined t src hj).later hterm hin, ?_⟩
  · rw [hps]
    exact h.logged_later hterm hin hstore hidle
  · intro dst x hx
    rw [hout] at hx
    cases hx
  · intro before p after heq
    rw [hps] at heq
    rcases cut_cases heq with ⟨after', hold⟩ | ⟨before', rfl, hnew⟩
    · exact h.cuts before p after' hold
    · have hp : Idle S p := hidle p (by rw [hnew]; simp)
      refine ⟨A, ?_⟩
      rw [List.append_assoc]
      refine h.logged_later hp.term hp.snapIn hp.store fun q hq => hidle q ?_
      rw [hnew]
      rcases List.mem_append.mp hq with hq | hq
      · exact List.mem_append_left _ hq
      · obtain rfl := List.mem_singleton.mp hq
        simp

theorem becomeFollower_carries {t : ℕ} {lead : NodeID} (h : Ships C A S) :
    Wp (becomeFollower C.cfg t lead)
      (fun _ S' => Ships C A S' ∧ S'.node.r.state = .follower ∧
        S'.node.r.term = max S.node.r.term t) (fun _ _ => False) S := by
  simp only [becomeFollower, wp_bind, wp_getRaft, wp_when, wp_modifyRaft, setRole, wp_emit,
    wp_resetTimeout, persistState, wp_modify]
  refine ⟨fun hlt => ⟨fun _ => ?_, fun _ => ?_⟩, fun hle => ⟨fun _ => ?_, fun _ => ?_⟩⟩
  · refine ⟨h.reset (le_of_lt hlt) rfl rfl ⟨rfl, rfl, rfl⟩ ⟨_, List.append_assoc .., ?_⟩, trivial, ?_⟩
    · exact Idle.two ⟨trivial, le_of_lt hlt, rfl, rfl, rfl, rfl⟩
        ⟨trivial, le_of_lt hlt, rfl, rfl, rfl, rfl⟩
    · exact (max_eq_right (le_of_lt hlt)).symm
  · refine ⟨h.reset (le_of_lt hlt) rfl rfl ⟨rfl, rfl, rfl⟩ ⟨_, List.append_assoc .., ?_⟩, trivial, ?_⟩
    · exact Idle.two ⟨trivial, le_of_lt hlt, rfl, rfl, rfl, rfl⟩
        ⟨trivial, le_of_lt hlt, rfl, rfl, rfl, rfl⟩
    · exact (max_eq_right (le_of_lt hlt)).symm
  · refine ⟨h.reset le_rfl rfl rfl ⟨rfl, rfl, rfl⟩ ⟨_, rfl, ?_⟩, trivial, ?_⟩
    · exact List.forall_mem_singleton.mpr ⟨trivial, le_rfl, rfl, rfl, rfl, rfl⟩
    · exact (max_eq_left (not_lt.mp hle)).symm
  · refine ⟨h.reset le_rfl rfl rfl ⟨rfl, rfl, rfl⟩ ⟨_, rfl, ?_⟩, trivial, ?_⟩
    · exact List.forall_mem_singleton.mpr ⟨trivial, le_rfl, rfl, rfl, rfl, rfl⟩
    · exact (max_eq_left (not_lt.mp hle)).symm

instance : Bows C.cfg (carries C (fun _ => True) : Frame Panic (Sys σ)) where
  down := by
    rintro _ _ S ⟨⟨A, h⟩, -⟩
    exact (becomeFollower_carries h).mono (fun _ _ h' => ⟨⟨A, h'.1⟩, trivial⟩) fun _ _ hf => hf.elim

theorem becomeLeader_carries (hS : Aboard C Q S) (hq : Q .leader) :
    Wp (becomeLeader C.cfg) (fun _ => Aboard C Q)
      (fun e S' => Aboard C Q S' ∧ e ≠ Panic.slice) S := by
  obtain ⟨⟨A, h⟩, -⟩ := hS
  simp only [becomeLeader, setRole]
  rw [wp_bind, wp_bind, wp_modifyRaft, wp_emit, wp_bind, wp_getStore, wp_bind, wp_modifyRaft]
  refine carries_guarded (.bind Grows.grow fun _ => .pure) ⟨⟨A, ?_⟩, hq⟩ rfl
  refine h.reset le_rfl rfl rfl ⟨rfl, rfl, rfl⟩ ⟨_, rfl, ?_⟩
  exact List.forall_mem_singleton.mpr ⟨trivial, le_rfl, rfl, rfl, rfl, rfl⟩

/-- Only a node that does not lead, and so has no transfer out, stands for election. -/
theorem becomeCandidate_carries (hS : Aboard C (fun _ => True) S) (hl : S.node.r.state ≠ .leader) :
    Wp (becomeCandidate C.cfg) (fun _ S' => Aboard C (fun _ => True) S')
      (fun e S' => Aboard C (fun _ => True) S' ∧ e ≠ Panic.slice) S := by
  obtain ⟨⟨A, h⟩, -⟩ := hS
  have hnone : S.node.r.snapOut = fun _ => none := by
    funext dst
    cases hout : S.node.r.snapOut dst with
    | none => rfl
    | some x => exact absurd (h.out dst x hout).1 hl
  simp only [becomeCandidate, persistState, setRole]
  rw [wp_bind, wp_modifyRaft, wp_bind, wp_bind, wp_getRaft, wp_bind, wp_modify, wp_emit, wp_bind,
    wp_bind, wp_modifyRaft, wp_emit, wp_bind, wp_modifyRaft, wp_bind, wp_resetTimeout, wp_bind,
    wp_getRaft, wp_ite]
  have hships : ∀ {S' : Sys σ}, S.node.r.term ≤ S'.node.r.term →
      S'.node.r.snapOut = S.node.r.snapOut → S'.node.r.snapIn = S.node.r.snapIn →
      (S'.store.snapIdx = S.store.snapIdx ∧ S'.store.snapTerm = S.store.snapTerm ∧
        S'.store.snap = S.store.snap) →
      (∃ ps, S'.trace = S.trace ++ ps ∧ ∀ p ∈ ps, Idle S p) → Aboard C (fun _ => True) S' :=
    fun hterm hout hin hstore htrace =>
      ⟨⟨A, h.reset hterm (hout.trans hnone) hin hstore htrace⟩, trivial⟩
  refine ⟨fun _ => becomeLeader_carries ?_ trivial, fun _ => holds_askVotes (F := carries C _) _ ?_⟩
  · exact hships (Nat.le_succ _) rfl rfl ⟨rfl, rfl, rfl⟩
      ⟨_, List.append_assoc .., Idle.two ⟨trivial, Nat.le_succ _, rfl, rfl, rfl, rfl⟩
        ⟨trivial, Nat.le_succ _, rfl, rfl, rfl, rfl⟩⟩
  · exact hships (Nat.le_succ _) rfl rfl ⟨rfl, rfl, rfl⟩
      ⟨_, List.append_assoc .., Idle.two ⟨trivial, Nat.le_succ _, rfl, rfl, rfl, rfl⟩
        ⟨trivial, Nat.le_succ _, rfl, rfl, rfl, rfl⟩⟩

theorem carries_handleVoteResp {m : Message} :
    (carries C (fun _ => True)).Holds (handleVoteResp C.cfg m : M σ Unit) := by
  refine .bind holds_getRaft fun r => .ite .pure (.bind (Clerical.note fun _ => rfl) fun _ => ?_)
  refine .bind holds_getRaft fun r => .ite ?_ (.when Bows.down)
  exact fun S hS => becomeLeader_carries hS trivial

theorem carries_tick : (carries C (fun _ => True)).Holds (tick C.cfg : M σ Unit) := by
  refine .bind (Clerical.note fun _ => rfl) fun _ S hS => ?_
  rw [wp_bind, wp_getRaft, wp_ite]
  refine ⟨fun hl => ?_, fun hl => ?_⟩
  · refine carries_guarded (.when ?_) hS hl
    exact .bind (Clerical.note fun _ => rfl) fun _ => holds_broadcastAppend
  · rw [wp_when]
    exact ⟨fun _ => becomeCandidate_carries hS hl, fun _ => hS⟩

/-! ## The receiver (`handleSnapshot`). -/

/-- A write of `snapIn` is harmless if what it holds comes from the leader of the node's term. -/
theorem Ships.setIn (h : Ships C A S) {y : Option SnapTransfer}
    (hy : ∀ src, C.lead S.node.r.term = some src → ∀ x, y = some x → Genuine A src x) :
    Ships C A { S with node := { S.node with r := { S.node.r with snapIn := y } } } := by
  have hjoins : ∀ {t src}, C.lead t = some src → Joins A S.node.r t src →
      Joins A { S.node.r with snapIn := y } t src := by
    intro t src hlead hj
    rcases hj with hlt | ⟨rfl, -⟩
    · exact Or.inl hlt
    · exact Or.inr ⟨rfl, hy src hlead⟩
  refine ⟨⟨h.within, h.frame, h.stored, h.above, h.held, h.known, ?_⟩, h.out, ?_, h.cuts⟩
  · intro p hp
    have hp := h.trace p hp
    unfold PointShips at hp ⊢
    split at hp
    · exact ⟨hp.1, fun ha => ⟨(hp.2 ha).sender, (hp.2 ha).receipt, (hp.2 ha).lead,
        hjoins (hp.2 ha).lead (hp.2 ha).joins⟩⟩
    · exact hp
    · trivial
  · intro t src hj
    exact hjoins (C.joined_lead t src hj) (h.joined t src hj)

/-- The archive with one more snapshot of a node. -/
def Archive.add (A : Archive) (i : NodeID) (k t : ℕ) (d : Bytes) : Archive :=
  update A i (update (A i) k (some (t, d)))

theorem Archive.within_add {i : NodeID} {k t : ℕ} {d : Bytes} (hk : A i k = none) :
    A.Within (A.add i k t d) := by
  intro j k' x hx
  unfold Archive.add
  by_cases hj : j = i
  · subst hj
    have hne : k' ≠ k := by
      rintro rfl
      rw [hk] at hx
      cases hx
    simpa [hne] using hx
  · simpa [hj] using hx

/-- The store takes a new snapshot, which enters the archive and is shown. -/
theorem Ships.compact (h : Ships C A S) {k t : ℕ} {d : Bytes}
    (hsrc : C.source k t d ∨ S.node.applied = k) :
    ∃ A', Ships C A' { S with
      store := S.store.compact k t d
      trace := S.trace ++ [⟨.compact k t d, S.node, S.store.compact k t d⟩] } := by
  by_cases hk : k ≤ S.store.snapIdx
  · have hsame : S.store.compact k t d = S.store := if_pos hk
    rw [hsame]
    exact ⟨A, h.emit hsrc⟩
  · have hnew : S.store.compact k t d = { S.store with
        entries := if k ≤ S.store.lastIndex then S.store.entries.drop (k - S.store.snapIdx) else []
        snapIdx := k, snapTerm := t, snap := d } := if_neg hk
    have hsnap : (S.store.compact k t d).snapIdx = k ∧ (S.store.compact k t d).snapTerm = t ∧
        (S.store.compact k t d).snap = d := by
      rw [hnew]
      exact ⟨rfl, rfl, rfl⟩
    have hA : A.Within (A.add C.cfg.id k t d) := Archive.within_add (h.above k (by omega))
    have hlogged : Logged C (A.add C.cfg.id k t d) S.node.r (S.store.compact k t d)
        (S.trace ++ [⟨.compact k t d, S.node, S.store.compact k t d⟩]) := by
      refine ⟨h.within.trans hA, ?_, ?_, ?_, ?_, ?_, ?_⟩
      · intro j hj
        rw [← h.frame j hj]
        exact Function.update_of_ne hj ..
      · rw [hsnap.1, hsnap.2.1, hsnap.2.2]
        simp [Archive.add]
      · intro j hj
        rw [hsnap.1] at hj
        have hne : j ≠ k := by omega
        simpa [Archive.add, hne] using h.above j (by omega)
      · intro p hp
        rcases List.mem_append.mp hp with hp | hp
        · exact hA _ _ _ (h.held p hp)
        · obtain rfl := List.mem_singleton.mp hp
          rw [hsnap.1, hsnap.2.1, hsnap.2.2]
          simp [Archive.add]
      · intro k' t' d' hk'
        by_cases hne : k' = k
        · subst hne
          refine Or.inr ⟨_, List.mem_append_right _ (List.mem_singleton_self _), hsnap.1, ?_⟩
          simp only [Archive.add, Function.update_self, Option.some.injEq, Prod.mk.injEq] at hk'
          rw [← hk'.1, ← hk'.2]
          exact hsnap.2
        · refine (h.known k' t' d' (by simpa [Archive.add, hne] using hk')).imp_right ?_
          rintro ⟨q, hq, hq'⟩
          exact ⟨q, List.mem_append_left _ hq, hq'⟩
      · intro p hp
        rcases List.mem_append.mp hp with hp | hp
        · exact (h.trace p hp).within hA
        · obtain rfl := List.mem_singleton.mp hp
          exact hsrc
    refine ⟨_, hlogged, ?_, fun u src hj => (h.joined u src hj).within hA, ?_⟩
    · intro dst x hx
      obtain ⟨hl, harch, hrest⟩ := h.out dst x hx
      exact ⟨hl, hA _ _ _ harch, hrest⟩
    · intro before p after heq
      rcases cut_cases heq with ⟨after', hold⟩ | ⟨before', rfl, hnew⟩
      · exact h.cuts before p after' hold
      · obtain ⟨rfl, rfl⟩ := cut_singleton hnew
        rw [List.append_nil]
        exact ⟨_, hlogged⟩

theorem carries_compactStore {k t : ℕ} {d : Bytes} (hS : Aboard C Q S)
    (hsrc : C.source k t d ∨ S.node.applied = k) :
    Wp (compactStore k t d) (fun _ => Aboard C Q)
      (fun e S' => Aboard C Q S' ∧ e ≠ Panic.slice) S := by
  obtain ⟨⟨A, h⟩, hq⟩ := hS
  simp only [compactStore]
  rw [wp_bind, wp_modify, wp_emit]
  exact ⟨h.compact hsrc, hq⟩

theorem installSnapshot_carries {src : NodeID} {x : SnapTransfer} (hS : Aboard C Q S)
    (hsrc : C.source x.index x.term x.data) :
    Wp (installSnapshot C.cfg src x) (fun _ => Aboard C Q)
      (fun e S' => Aboard C Q S' ∧ e ≠ Panic.slice) S := by
  obtain ⟨⟨A, h⟩, hq⟩ := hS
  simp only [installSnapshot]
  rw [wp_bind, wp_modifyRaft]
  have hrest : (carries C Q).Holds (do
      setCommit x.index
      modifyRaft fun r => { r with restored := some x }
      send C.cfg { type := .snapResp, toId := src, index := x.index, done := true } : M σ Unit) := by
    refine .bind Accepts.commit fun _ => .bind (carries_modifyRaft fun _ => ⟨rfl, rfl, rfl, rfl⟩) fun _ => ?_
    exact Clerical.send (Or.inl rfl)
  have hnone : Ships C A { S with node := { S.node with r := { S.node.r with snapIn := none } } } :=
    h.setIn fun _ _ x hx => by cases hx
  exact Wp.bind (carries_compactStore ⟨⟨A, hnone⟩, hq⟩ (Or.inl hsrc)) fun _ S' hS' => hrest S' hS'

/-- A chunk of the leader of its term, for which the node is ready. -/
structure TakesChunk (C : Scene) (m : Message) : Prop where
  lead : C.lead m.term = some m.fromId
  chunk : ChunkOf C.archive m
  joined : 0 < m.offset → C.joined m.term m.fromId
  source : ∀ t d, m.done = true → C.archive m.fromId m.index = some (t, d) → C.source m.index t d

/-- An answer that asks for more goes out. -/
theorem Ships.ask (h : Ships C A S) {m : Message} (hlead : C.lead S.node.r.term = some m.toId)
    (hfrom : TakesFrom A m.toId S.node.r) (hreceipt : m.reject = false → ReceiptOf A m)
    (hm : m.type = .snapResp) (hq : Q S.node.r.state) :
    Wp (send C.cfg m) (fun _ => Aboard C Q)
      (fun e S' => Aboard C Q S' ∧ e ≠ Panic.slice) S := by
  rw [wp_send, wp_emit]
  refine ⟨⟨A, h.emit ⟨fun hsnap => ?_, fun ha => ?_⟩⟩, hq⟩
  · have hsnap : m.type = .snap := hsnap
    rw [hm] at hsnap
    cases hsnap
  · exact ⟨rfl, hreceipt ha.2.2, hlead, Or.inr ⟨rfl, hfrom⟩⟩

theorem receiveChunk_carries {m : Message} (hm : TakesChunk C m) (h : Ships C A S)
    (hterm : S.node.r.term = m.term) (hfrom : TakesFrom A m.fromId S.node.r) (hq : Q S.node.r.state) :
    Wp (receiveChunk C.cfg m S.node.r.snapIn) (fun _ => Aboard C Q)
      (fun e S' => Aboard C Q S' ∧ e ≠ Panic.slice) S := by
  have hlead : C.lead S.node.r.term = some m.fromId := by
    rw [hterm]
    exact hm.lead
  have hchunk := hm.chunk.within h.within
  cases hin : S.node.r.snapIn with
  | none =>
    refine Clerical.send (F := carries C Q) ?_ S ⟨⟨A, h⟩, hq⟩
    exact Or.inr rfl
  | some x =>
    have hx := hfrom x hin
    simp only [receiveChunk]
    rw [wp_ite]
    refine ⟨fun _ => h.ask hlead hfrom (fun hrej => ?_) rfl hq, fun hplace => ?_⟩
    · -- a duplicate: the answer names the end of what is there
      have hidx : x.index = m.index := by
        by_contra hne
        simp [hne] at hrej
      obtain ⟨d, hd, hstart⟩ := hx
      refine ⟨x.term, d, by rw [← hidx]; exact hd, ?_⟩
      show (if x.index = m.index then x.data.length else 0) ≤ d.length
      rw [if_pos hidx]
      exact hstart.length_le
    · obtain ⟨hidx, hoff⟩ : x.index = m.index ∧ m.offset = x.data.length := by
        rw [not_or, not_not, not_not] at hplace
        exact hplace
      obtain ⟨-, hx', hwhole⟩ := hchunk.extends hx hidx hoff
      rw [wp_ite]
      refine ⟨fun hdone => installSnapshot_carries ⟨⟨A, h⟩, hq⟩ ?_, fun _ => ?_⟩
      · -- the archive of the sender has not moved: the whole is what it had when the chunk was sent
        obtain ⟨d, hd, -⟩ := hm.chunk
        have hsame := hwhole hdone
        rw [hidx, h.within _ _ _ hd] at hsame
        obtain ⟨hterm, hdata⟩ := Prod.mk.inj (Option.some.inj hsame)
        show C.source x.index x.term (x.data ++ m.data)
        rw [← hterm, ← hdata, hidx]
        exact hm.source _ _ hdone hd
      · rw [wp_bind, wp_modifyRaft]
        have hnew : Ships C A { S with node := { S.node with
            r := { S.node.r with snapIn := some { x with data := x.data ++ m.data } } } } := by
          refine h.setIn fun src hsrc y hy => ?_
          obtain rfl := Option.some.inj (hlead.symm.trans hsrc)
          obtain rfl := Option.some.inj hy
          exact hx'
        refine hnew.ask hlead (fun y hy => ?_) (fun _ => ?_) rfl hq
        · obtain rfl := Option.some.inj hy
          exact hx'
        · obtain ⟨d, hd, hstart⟩ := hx'
          exact ⟨x.term, d, by rw [← hidx]; exact hd, hstart.length_le⟩

theorem handleSnapshot_carries {m : Message} (hm : TakesChunk C m) (hS : Aboard C (fun _ => True) S)
    (hterm : S.node.r.term = m.term) :
    Wp (handleSnapshot C.cfg m) (fun _ S' => Aboard C (fun _ => True) S')
      (fun e S' => Aboard C (fun _ => True) S' ∧ e ≠ Panic.slice) S := by
  obtain ⟨⟨A, h⟩, -⟩ := hS
  simp only [handleSnapshot]
  rw [wp_bind, wp_getRaft, wp_bind]
  have hdown : Wp (when (S.node.r.state ≠ .follower) (becomeFollower C.cfg m.term m.fromId))
      (fun _ S₁ => Ships C A S₁ ∧ S₁.node.r.term = m.term) (fun _ _ => False) S := by
    rw [wp_when]
    refine ⟨fun _ => ?_, fun _ => ⟨h, hterm⟩⟩
    refine (becomeFollower_carries h).imp ?_
    rintro _ S₁ ⟨h₁, -, ht₁⟩
    exact ⟨h₁, by rw [ht₁, hterm, max_self]⟩
  refine hdown.mono ?_ fun _ _ hf => hf.elim
  rintro _ S₁ ⟨h₁, hterm₁⟩
  rw [wp_bind, wp_modifyRaft, wp_bind, wp_getRaft, wp_ite]
  have h₂ := h₁.modifyNode
    (n := { S₁.node with r := { S₁.node.r with lead := m.fromId, elapsed := 0 } }) rfl rfl rfl rfl
  refine ⟨fun _ => ?_, fun _ => ?_⟩
  · refine Clerical.send (F := carries C _) ?_ _ ⟨⟨A, h₂⟩, trivial⟩
    exact Or.inl rfl
  · rw [wp_ite]
    refine ⟨fun _ => ?_, fun hoff => ?_⟩
    · -- a first chunk replaces whatever was under way
      rw [wp_bind, wp_modifyRaft]
      have hfresh : Genuine A m.fromId { index := m.index, term := m.logTerm } := by
        obtain ⟨d, hd, -⟩ := hm.chunk.within h₁.within
        exact ⟨d, hd, List.nil_prefix⟩
      refine receiveChunk_carries hm (h₂.setIn (y := some { index := m.index, term := m.logTerm }) ?_)
        hterm₁ ?_ trivial
      · intro src hsrc x hx
        have hsrc : C.lead S₁.node.r.term = some src := hsrc
        rw [hterm₁, hm.lead] at hsrc
        obtain rfl := Option.some.inj hsrc
        obtain rfl := Option.some.inj hx
        exact hfresh
      · intro x hx
        obtain rfl := Option.some.inj hx
        exact hfresh
    · -- a later chunk was sent to a node that takes in the chunks of this leader
      refine receiveChunk_carries hm h₂ hterm₁ ?_ trivial
      rcases h₂.joined _ _ (hm.joined (Nat.pos_of_ne_zero hoff)) with hlt | ⟨-, hfrom⟩
      · have hlt : m.term < S₁.node.r.term := hlt
        omega
      · exact hfrom

/-! ## The calls of the driver. -/

/-- What a node knows of a message it is given. -/
structure Knows (C : Scene) (m : Message) : Prop where
  chunk : m.type = .snap → TakesChunk C m
  ask : m.Asks → AskOK C m.term m

theorem dispatch_carries {m : Message} (hm : Knows C m) (hS : Aboard C (fun _ => True) S)
    (hterm : S.node.r.term = m.term) :
    Wp (dispatch C.cfg m) (fun _ S' => Aboard C (fun _ => True) S')
      (fun e S' => Aboard C (fun _ => True) S' ∧ e ≠ Panic.slice) S := by
  unfold dispatch
  cases htype : m.type with
  | vote => exact holds_handleVote (F := carries C _) S hS
  | voteResp => exact carries_handleVoteResp S hS
  | app => exact holds_handleAppend (F := carries C _) S hS
  | appResp =>
    rw [wp_bind, wp_getRaft, wp_when]
    exact ⟨fun hl => carries_guarded holds_handleAppendResp hS hl, fun _ => hS⟩
  | snap => exact handleSnapshot_carries (hm.chunk htype) hS hterm
  | snapResp =>
    rw [wp_bind, wp_getRaft, wp_when]
    refine ⟨fun hl => ?_, fun _ => hS⟩
    refine (handleSnapshotResp_carries ⟨hS.1, hl⟩ fun hdone hrej => ?_).mono
      (fun _ _ h => h.mono fun _ => trivial) fun _ _ h => ⟨h.1.mono fun _ => trivial, h.2⟩
    rw [hterm]
    exact hm.ask ⟨htype, hdone, hrej⟩

theorem step_carries {m : Message} (hm : Knows C m) :
    (carries C (fun _ => True)).Holds (step C.cfg m : M σ Unit) := by
  rintro S ⟨⟨A, h⟩, -⟩
  simp only [step]
  rw [wp_bind, wp_getRaft, wp_ite]
  refine ⟨fun _ => holds_rejectStale (F := carries C _) S ⟨⟨A, h⟩, trivial⟩, fun hge => ?_⟩
  rw [wp_bind]
  have hdown : ∀ lead, Wp (when (m.term > S.node.r.term) (becomeFollower C.cfg m.term lead))
      (fun _ S₁ => Ships C A S₁ ∧ S₁.node.r.term = m.term) (fun _ _ => False) S := by
    intro lead
    rw [wp_when]
    refine ⟨fun hlt => ?_, fun hle => ⟨h, by omega⟩⟩
    refine (becomeFollower_carries h).imp ?_
    rintro _ S₁ ⟨h₁, -, ht₁⟩
    exact ⟨h₁, by rw [ht₁]; exact max_eq_right (le_of_lt hlt)⟩
  refine (hdown _).mono ?_ fun _ _ hf => hf.elim
  rintro _ S₁ ⟨h₁, hterm₁⟩
  exact dispatch_carries hm ⟨⟨A, h₁⟩, trivial⟩ hterm₁

instance : Moves (carries C Q : Frame Panic (Sys σ)) where
  move h := carries_modifyNode fun n => (h n).1
  fail := carries_emit trivial
  read := carries_emit trivial

instance : Settles (carries C Q : Frame Panic (Sys σ)) where
  serve h := carries_modifyNode fun n => by rw [h n]
  taken := carries_modifyRaft fun _ => ⟨rfl, rfl, rfl, rfl⟩
  restored := carries_emit trivial
  applied := carries_emit trivial
  settle := by
    intro e result
    refine .bind holds_getNode fun n => ?_
    cases n.pending.lookup e.index with
    | none => exact .pure
    | some p =>
      exact .bind (carries_modifyNode fun _ => rfl) fun _ => .ite (carries_emit trivial) (carries_emit trivial)

/-- A node compacts at the index it has applied. -/
theorem carries_maybeSnapshot {sm : StateMachine σ} :
    (carries C Q).Holds (maybeSnapshot C.cfg sm : M σ Unit) := by
  intro S hS
  simp only [maybeSnapshot]
  rw [wp_bind, wp_getNode, wp_bind, wp_getStore, wp_ite]
  refine ⟨fun _ => hS, fun _ => ?_⟩
  cases sm.snapshot S.node.sm with
  | none => exact ⟨hS, fun h => by cases h⟩
  | some data =>
    show Wp (termAt S.node.applied >>= fun t => compactStore S.node.applied t data) _ _ S
    cases ht : S.store.termOf S.node.applied with
    | ok t =>
      rw [wp_bind, wp_termAt ht]
      exact carries_compactStore hS (Or.inr rfl)
    | error e =>
      simp only [termAt, wp_bind, wp_getStore, ht, wp_throw]
      exact ⟨hS, fun h => by cases h⟩

theorem carries_advance {sm : StateMachine σ} : (carries C Q).Holds (advance C.cfg sm : M σ Unit) := by
  refine .bind holds_getRaft fun r => .bind (.when holds_failAll) fun _ => ?_
  refine .bind holds_loadRestored fun _ => .bind holds_getNode fun n => ?_
  refine .bind (holds_applyCommitted _) fun _ => .bind (holds_startReads carries_readIndex) fun _ => ?_
  exact .bind holds_collectReady fun _ => .bind holds_finishWaiting fun _ => carries_maybeSnapshot

/-- Every operation of a node keeps the transfers in order. -/
theorem operate_carries {sm : StateMachine σ} {inp : Input} (hm : ∀ m, inp = .step m → Knows C m) :
    (carries C (fun _ => True)).Holds (operate C.cfg sm inp : M σ Unit) := by
  cases inp with
  | tick => exact .bind carries_tick fun _ => carries_advance
  | step m => exact .bind (step_carries (hm m rfl)) fun _ => carries_advance
  | propose data =>
    simp only [operate]
    exact carries_modifyNode fun _ => rfl
  | readIndex =>
    simp only [operate]
    exact carries_modifyNode fun _ => rfl
  | flush =>
    exact .bind holds_getNode fun n => .bind (holds_flushProposals carries_propose _) fun _ => carries_advance

end Keystone.Raft
