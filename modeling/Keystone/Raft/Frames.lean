/-
# Keystone.Raft.Frames — what the state machine core leaves alone.

The functions of `Keystone.Raft.Core` move terms, logs and messages; the driver around them applies
entries and finishes handles.  These frames say what a call leaves alone:

* `core` — the driver's fields are as before, and no entry was applied and no handle finished;
* `passive` — moreover the node has the term, the role, the snapshot and the restore request it had;
* `calm` — the term and the role may change;
* `tenure` — a leader is still the leader of its term or has become a follower, and a follower stays one.

What they hold of is proved here for the primitives; `Keystone.Raft.Walks` has the rest.
-/
import Keystone.Raft.Invariant
import Keystone.Raft.Walks

namespace Keystone.Raft

open Keystone.Lib
open Function (update)

variable {σ α : Type} {cfg : Config} {S S' : Sys σ}

/-! ## The frames. -/

/-- Effects of the core: everything but what the driver does to the state machine and the handles. -/
def Effect.IsCore : Effect → Prop
  | .send _ | .setState _ _ | .append _ | .compact _ _ _ | .become _ | .commit _ => True
  | .apply _ _ | .restore _ | .finishProposal _ _ _ | .finishRead _ _ => False

/-- The driver's own fields are the same. -/
def SameDriver (n n' : Node σ) : Prop := n' = { n with r := n'.r }

theorem SameDriver.refl (n : Node σ) : SameDriver n n := rfl

theorem SameDriver.trans {n n' n'' : Node σ} (h : SameDriver n n') (h' : SameDriver n' n'') :
    SameDriver n n'' := by
  unfold SameDriver at h h' ⊢
  rw [h] at h'
  exact h'

/-- Only the core moved. -/
structure Core (S S' : Sys σ) : Prop where
  node : SameDriver S.node S'.node
  trace : ∃ ps, S'.trace = S.trace ++ ps ∧ ∀ p ∈ ps, p.effect.IsCore ∧ SameDriver S.node p.node

theorem Core.refl (S : Sys σ) : Core S S :=
  ⟨.refl _, [], (List.append_nil _).symm, by simp⟩

theorem Core.trans {S'' : Sys σ} (h : Core S S') (h' : Core S' S'') : Core S S'' := by
  obtain ⟨ps, hps, hall⟩ := h.trace
  obtain ⟨qs, hqs, hall'⟩ := h'.trace
  refine ⟨h.node.trans h'.node, ps ++ qs, by rw [hqs, hps, List.append_assoc], fun p hp => ?_⟩
  rcases List.mem_append.mp hp with hp | hp
  · exact hall p hp
  · exact ⟨(hall' p hp).1, h.node.trans (hall' p hp).2⟩

instance : IsPreorder (Sys σ) Core where
  refl := Core.refl
  trans _ _ _ := Core.trans

/-- The core moved, but not the node's term, role, snapshot or restore request. -/
structure Passive (S S' : Sys σ) : Prop extends Core S S' where
  state : S'.node.r.state = S.node.r.state
  term : S'.node.r.term = S.node.r.term
  restored : S'.node.r.restored = S.node.r.restored
  snapIdx : S'.store.snapIdx = S.store.snapIdx
  snap : S'.store.snap = S.store.snap

instance : IsPreorder (Sys σ) Passive where
  refl S := ⟨Core.refl S, rfl, rfl, rfl, rfl, rfl⟩
  trans _ _ _ h h' :=
    ⟨h.toCore.trans h'.toCore, h'.state.trans h.state, h'.term.trans h.term,
      h'.restored.trans h.restored, h'.snapIdx.trans h.snapIdx, h'.snap.trans h.snap⟩

/-- The snapshot and the restore request are as before. -/
structure Calm (S S' : Sys σ) : Prop extends Core S S' where
  restored : S'.node.r.restored = S.node.r.restored
  snapIdx : S'.store.snapIdx = S.store.snapIdx
  snap : S'.store.snap = S.store.snap

instance : IsPreorder (Sys σ) Calm where
  refl S := ⟨Core.refl S, rfl, rfl, rfl⟩
  trans _ _ _ h h' :=
    ⟨h.toCore.trans h'.toCore, h'.restored.trans h.restored, h'.snapIdx.trans h.snapIdx,
      h'.snap.trans h.snap⟩

/-- A passive step leaves the snapshot alone. -/
theorem Passive.calm (h : Passive S S') : Calm S S' := ⟨h.toCore, h.restored, h.snapIdx, h.snap⟩

/-- How leadership may change inside one call: a leader goes on or steps down, a follower stays. -/
structure Tenure (S S' : Sys σ) : Prop where
  leader : S.node.r.state = .leader →
    (S'.node.r.state = .leader ∧ S'.node.r.term = S.node.r.term) ∨ S'.node.r.state = .follower
  follower : S.node.r.state = .follower → S'.node.r.state = .follower

instance : IsPreorder (Sys σ) Tenure where
  refl _ := ⟨fun h => Or.inl ⟨h, rfl⟩, fun h => h⟩
  trans _ _ _ h h' := by
    refine ⟨fun hl => ?_, fun hf => h'.follower (h.follower hf)⟩
    rcases h.leader hl with ⟨hl', ht⟩ | hf
    · rw [← ht]
      exact h'.leader hl'
    · exact Or.inr (h'.follower hf)

/-- A passive step leaves the role alone. -/
theorem Passive.tenure (h : Passive S S') : Tenure S S' :=
  ⟨fun hl => Or.inl ⟨h.state.trans hl, h.term⟩, fun hf => h.state.trans hf⟩

/-! ## What keeps the node in its office. -/

abbrev passive : Frame Panic (Sys σ) := .keeps Passive

/-- Whatever happens to the state of the core is the core's. -/
theorem core_modifyRaft (f : Raft → Raft) : Keeps Core (modifyRaft f : M σ Unit) := fun S =>
  ⟨rfl, [], (List.append_nil _).symm, by simp⟩

/-- Term, role and restore request are all that `Passive` asks of the core's state. -/
theorem passive_modifyRaft {f : Raft → Raft}
    (h : ∀ r, (f r).state = r.state ∧ (f r).term = r.term ∧ (f r).restored = r.restored) :
    passive.Holds (modifyRaft f : M σ Unit) := fun S =>
  ⟨core_modifyRaft f S, (h _).1, (h _).2.1, (h _).2.2, rfl, rfl⟩

/-- An effect of the core is none of the driver. -/
theorem passive_emit {e : Effect} (he : e.IsCore) : passive.Holds (emit e : M σ Unit) := fun S => by
  refine ⟨⟨rfl, [⟨e, S.node, S.store⟩], rfl, ?_⟩, rfl, rfl, rfl, rfl, rfl⟩
  intro p hp
  obtain rfl := List.mem_singleton.mp hp
  exact ⟨he, .refl _⟩

theorem passive_send {m : Message} : passive.Holds (send cfg m : M σ Unit) :=
  .bind holds_getRaft fun _ => passive_emit trivial

/-- A write to the store that is no compaction. -/
theorem passive_modifyStore (f : MemStore → MemStore) (hi : ∀ s, (f s).snapIdx = s.snapIdx)
    (hs : ∀ s, (f s).snap = s.snap) :
    passive.Holds (modify fun S => { S with store := f S.store } : M σ Unit) := fun S =>
  ⟨⟨rfl, [], (List.append_nil _).symm, by simp⟩, rfl, rfl, rfl, hi _, hs _⟩

instance : Clerical (@passive σ) where
  note h := passive_modifyRaft fun r =>
    ⟨congrArg Office.state (h r), congrArg Office.term (h r), congrArg Office.restored (h r)⟩
  stop _ := Frame.throw_keepsOr
  persist := .bind holds_getRaft fun _ =>
    .bind (passive_modifyStore (MemStore.setState · _ _) (fun _ => rfl) fun _ => rfl) fun _ =>
      passive_emit trivial
  send _ := passive_send

instance : Accepts (@passive σ) where
  write := holds_appendStore (.bind (passive_modifyStore (·.appendOne _)
    (fun s => s.appendOne_snapIdx _) fun s => by rw [s.appendOne_eq]) fun _ => passive_emit trivial)
  commit := .bind (passive_modifyRaft fun _ => ⟨rfl, rfl, rfl⟩) fun _ => passive_emit trivial

instance : Relays cfg (@passive σ) where
  out h := passive_modifyRaft fun r => by rw [h r]; exact ⟨rfl, rfl, rfl⟩
  chunk := .ite Frame.throw_keepsOr passive_send

instance : Leads cfg (@passive σ) := ⟨holds_sendAppend holds_sendSnapshot fun _ => passive_send⟩

instance : Tallies cfg (@passive σ) := ⟨holds_maybeCommit Accepts.commit⟩

instance : Grows cfg (@passive σ) := ⟨holds_appendEntries Accepts.write fun _ => passive_send⟩

/-! ## What keeps the snapshot, and what the core does. -/

abbrev calm : Frame Panic (Sys σ) := .keeps Calm

theorem calm_of_passive : (@passive σ).Le calm := fun h => Keeps.mono h fun _ _ => Passive.calm

instance : Clerical (@calm σ) := .mono calm_of_passive

instance : Accepts (@calm σ) := .mono calm_of_passive

instance : Leads cfg (@calm σ) := ⟨calm_of_passive Leads.app⟩

instance : Grows cfg (@calm σ) := ⟨calm_of_passive Grows.grow⟩

instance : Turns (@calm σ) where
  turn h S := ⟨core_modifyRaft _ S, congrArg (·.2.1) (h _), rfl, rfl⟩
  become := calm_of_passive (passive_emit trivial)

abbrev core : Frame Panic (Sys σ) := .keeps Core

theorem core_of_calm : (@calm σ).Le core := fun h => Keeps.mono h fun _ _ h => h.toCore

theorem core_of_passive : (@passive σ).Le core := fun h => core_of_calm (calm_of_passive h)

/-- A compaction moves the store and shows an effect of the core. -/
theorem core_compactStore {k t : ℕ} {snap : Bytes} : core.Holds (compactStore k t snap : M σ Unit) := by
  refine .bind ?_ fun _ => core_of_passive (passive_emit trivial)
  intro S
  exact ⟨rfl, [], (List.append_nil _).symm, by simp⟩

instance : Clerical (@core σ) := .mono core_of_passive

instance : Accepts (@core σ) := .mono core_of_passive

instance : Bows cfg (@core σ) := .mono core_of_calm

instance : Leads cfg (@core σ) := ⟨core_of_passive Leads.app⟩

instance : Tallies cfg (@core σ) := ⟨core_of_passive Tallies.tally⟩

instance : Relays cfg (@core σ) := .mono core_of_passive

instance : Installs (@core σ) where
  receive _ := core_modifyRaft _
  compact := core_compactStore
  answer _ := core_of_passive passive_send

/-- No message makes the core apply an entry or finish a handle. -/
theorem core_step {m : Message} : core.Holds (step cfg m : M σ Unit) :=
  holds_step (core_of_calm holds_handleVoteResp)

/-! ## The restore request. -/

/-- A snapshot the driver is asked to load is the one the store holds. -/
def Loads (S : Sys σ) : Prop :=
  ∀ x, S.node.r.restored = some x → S.store.snapIdx = x.index ∧ S.store.snap = x.data

/-- Where neither the request nor the snapshot moves, the one still asks for the other. -/
theorem Calm.loads (h : Calm S S') (hS : Loads S) : Loads S' := by
  intro x hx
  rw [h.restored] at hx
  rw [h.snapIdx, h.snap]
  exact hS x hx

/-- The last chunk puts the snapshot into the store and into the request. -/
theorem loads_receiveChunk {m : Message} {inc : Option SnapTransfer} (hS : Loads S)
    (hlt : S.store.snapIdx < m.index) :
    Wp (receiveChunk cfg m inc) (fun _ => Loads) (fun _ _ => True) S := by
  have hsend : ∀ {m' : Message} {S₁ : Sys σ}, Loads S₁ →
      Wp (send cfg m') (fun _ => Loads) (fun _ _ => True) S₁ := fun {m' S₁} h₁ =>
    (passive_send S₁).mono (fun _ _ h => h.calm.loads h₁) fun _ _ _ => trivial
  cases inc with
  | none => exact hsend hS
  | some x =>
    unfold receiveChunk
    rw [wp_ite]
    refine ⟨fun _ => hsend hS, fun hplace => ?_⟩
    have hidx : x.index = m.index := by
      by_contra hne
      exact hplace (Or.inl hne)
    rw [wp_ite]
    refine ⟨fun _ => ?_, fun _ => ?_⟩
    · -- the complete snapshot goes to the store and to the driver
      simp only [installSnapshot, compactStore, setCommit, wp_bind, wp_modifyRaft, wp_modify, wp_emit]
      refine hsend fun y hy => ?_
      obtain rfl := Option.some.inj hy
      have hnot : ¬ x.index ≤ S.store.snapIdx := by omega
      simp only [MemStore.compact, hnot, if_false, and_self]
    · exact hsend hS

/-- A node that steps down is a follower with the commit index it had, in the higher of the two terms. -/
theorem becomeFollower_state {t : ℕ} {lead : NodeID} :
    Wp (becomeFollower cfg t lead)
      (fun _ S' => S'.node.r.state = .follower ∧ S'.node.r.commit = S.node.r.commit ∧
        S'.node.r.term = max t S.node.r.term) (fun _ _ => False) S := by
  simp only [becomeFollower, wp_bind, wp_getRaft, wp_when, wp_modifyRaft, setRole, wp_emit,
    wp_resetTimeout, persistState, wp_modify]
  have hterm := max_def t S.node.r.term
  grind

/-- A node that steps down is a follower, with the commit index it had. -/
theorem becomeFollower_frame {t : ℕ} {lead : NodeID} {R : Panic → Sys σ → Prop} :
    Wp (becomeFollower cfg t lead)
      (fun _ S' => Calm S S' ∧ S'.node.r.state = .follower ∧ S'.node.r.commit = S.node.r.commit)
      R S :=
  ((Bows.down (F := calm) S).and becomeFollower_state).mono (fun _ _ h => ⟨h.1, h.2.1, h.2.2.1⟩)
    fun _ _ h => h.2.elim

/-- Only a snapshot above the commit index is received, hence above the store's own. -/
theorem loads_handleSnapshot {m : Message} (hS : Loads S) (hc : S.store.snapIdx ≤ S.node.r.commit) :
    Wp (handleSnapshot cfg m) (fun _ => Loads) (fun _ _ => True) S := by
  simp only [handleSnapshot]
  rw [wp_bind, wp_getRaft, wp_bind]
  have hdown : Wp (when (S.node.r.state ≠ .follower) (becomeFollower cfg m.term m.fromId))
      (fun _ S₁ => Calm S S₁ ∧ S₁.node.r.commit = S.node.r.commit) (fun _ _ => True) S := by
    rw [wp_when]
    refine ⟨fun _ => ?_, fun _ => ⟨refl_of Calm S, rfl⟩⟩
    exact becomeFollower_frame.imp fun _ _ h => ⟨h.1, h.2.2⟩
  refine hdown.mono ?_ fun _ _ _ => trivial
  rintro _ S₁ ⟨hcalm, hcommit⟩
  have h₁ : Loads S₁ := hcalm.loads hS
  have hsnap := hcalm.snapIdx
  rw [wp_bind, wp_modifyRaft, wp_bind, wp_getRaft, wp_ite]
  refine ⟨fun _ => ?_, fun hnew => ?_⟩
  · exact (passive_send _).mono (fun _ _ h => h.calm.loads h₁) fun _ _ _ => trivial
  · -- the chunk is of a snapshot above the commit index
    have hlt : S₁.store.snapIdx < m.index := by
      have : ¬ m.index ≤ S₁.node.r.commit := hnew
      omega
    rw [wp_ite]
    refine ⟨fun _ => ?_, fun _ => loads_receiveChunk h₁ hlt⟩
    rw [wp_bind, wp_modifyRaft]
    exact loads_receiveChunk h₁ hlt

/-- After a message the restore request, if there is one, asks for the store's snapshot. -/
theorem loads_step {m : Message} (hS : Loads S) (hc : S.store.snapIdx ≤ S.node.r.commit) :
    Wp (step cfg m) (fun _ => Loads) (fun _ _ => True) S := by
  have hcalm : ∀ {x : M σ Unit} {S₁ : Sys σ}, calm.Holds x → Loads S₁ →
      Wp x (fun _ => Loads) (fun _ _ => True) S₁ := fun {x S₁} hx h₁ =>
    (hx S₁).mono (fun _ _ h => h.loads h₁) fun _ _ _ => trivial
  simp only [step]
  rw [wp_bind, wp_getRaft, wp_ite]
  refine ⟨fun _ => hcalm holds_rejectStale hS, fun _ => ?_⟩
  rw [wp_bind]
  refine Wp.imp (Q := fun _ S₁ => Loads S₁ ∧ S₁.store.snapIdx ≤ S₁.node.r.commit) ?_ ?_
  · rw [wp_when]
    refine ⟨fun _ => ?_, fun _ => ⟨hS, hc⟩⟩
    refine becomeFollower_frame.imp ?_
    rintro _ S₁ ⟨h, -, hcommit⟩
    exact ⟨h.loads hS, by rw [h.snapIdx, hcommit]; exact hc⟩
  · rintro _ S₁ ⟨h₁, hc₁⟩
    unfold dispatch
    cases m.type with
    | vote => exact hcalm holds_handleVote h₁
    | voteResp => exact hcalm holds_handleVoteResp h₁
    | app => exact hcalm holds_handleAppend h₁
    | appResp =>
      exact hcalm (calm_of_passive (.bind holds_getRaft fun r => .when holds_handleAppendResp)) h₁
    | snap => exact loads_handleSnapshot h₁ hc₁
    | snapResp =>
      exact hcalm (calm_of_passive (.bind holds_getRaft fun r => .when holds_handleSnapshotResp)) h₁

/-! ## Leadership inside one call. -/

/-- The frame of everything but counting votes. -/
abbrev tenure : Frame Panic (Sys σ) := .keeps Tenure

theorem tenure_of_passive : (@passive σ).Le tenure := fun h => Keeps.mono h fun _ _ => Passive.tenure

instance : Clerical (@tenure σ) := .mono tenure_of_passive

instance : Accepts (@tenure σ) := .mono tenure_of_passive

instance : Leads cfg (@tenure σ) := ⟨tenure_of_passive Leads.app⟩

instance : Tallies cfg (@tenure σ) := ⟨tenure_of_passive Tallies.tally⟩

instance : Relays cfg (@tenure σ) := .mono tenure_of_passive

instance : Bows cfg (@tenure σ) where
  down _ := becomeFollower_frame.imp fun _ _ h => ⟨fun _ => Or.inr h.2.1, fun _ => h.2.1⟩

instance : Installs (@tenure σ) where
  receive {f} h S := by
    have hstate : (f S.node.r).state = S.node.r.state := by rw [h]
    have hterm : (f S.node.r).term = S.node.r.term := by rw [h]
    exact ⟨fun hl => Or.inl ⟨hstate.trans hl, hterm⟩, fun hf => hstate.trans hf⟩
  compact _ := ⟨fun hl => Or.inl ⟨hl, rfl⟩, fun hf => hf⟩
  answer _ := tenure_of_passive passive_send

/-- Only a candidate counts votes. -/
theorem tenure_handleVoteResp {m : Message} : tenure.Holds (handleVoteResp cfg m : M σ Unit) := by
  intro S
  by_cases hc : S.node.r.state = .candidate
  · have hvac : ∀ S' : Sys σ, Tenure S S' := fun S' =>
      ⟨fun hl => absurd (hc.symm.trans hl) (by decide), fun hf => absurd (hc.symm.trans hf) (by decide)⟩
    exact wp_of_forall (fun _ => hvac) fun _ => hvac
  · simp only [handleVoteResp]
    rw [wp_bind, wp_getRaft, if_pos hc]
    exact refl_of Tenure S

/-- No message makes a leader of another term out of a leader, or a leader out of a follower. -/
theorem tenure_step {m : Message} : tenure.Holds (step cfg m : M σ Unit) :=
  holds_step tenure_handleVoteResp

/-- A leader's clock does not unseat it. -/
theorem tick_leader (hl : S.node.r.state = .leader) :
    Wp (tick cfg) (fun _ S' => S'.node.r.state = .leader ∧ S'.node.r.term = S.node.r.term)
      (fun _ _ => True) S := by
  simp only [tick]
  rw [wp_bind, wp_modifyRaft, wp_bind, wp_getRaft, if_pos hl, wp_when]
  refine ⟨fun _ => ?_, fun _ => ⟨hl, rfl⟩⟩
  rw [wp_bind, wp_modifyRaft]
  refine (holds_broadcastAppend (F := passive) _).mono (fun _ S' h => ?_) fun _ _ _ => trivial
  exact ⟨h.state.trans hl, h.term⟩

end Keystone.Raft
