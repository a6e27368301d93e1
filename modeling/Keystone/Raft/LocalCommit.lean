/-
# Keystone.Raft.LocalCommit — the committed part of one node's log, whatever messages it gets.

The safety results of `Keystone.Raft.Safety` are about a group whose members all run the code.  Here ONE
node is alone with its log store, and the messages it is stepped with are arbitrary: any term, any index,
any commit value, from anybody.  What the node has committed it keeps all the same:

* `SameLog` — the frame of everything that leaves the log and the commit index alone;
* `Local` — the commit index lies between the snapshot point and the last index;
* `Steady` — a step moves the commit index forward only, and changes an entry at or below it only by
  covering it with a snapshot.  One lemma a function (`*_steady`), then `steady_run` for a whole run.

The indexes of the code are `uint64`.  An acknowledgement may carry any of them, so what the leader
computes from it is computed as the code does (`succU64`).  Elsewhere the model computes with `ℕ`, which is
the same as long as no sum passes `2 ^ 64 - 1`: `Call.Fits` says of a call that what it makes the node
store still has an index, and an index behind it.  `MemStore.lastLocked` is the sum the code computes.
-/
import Keystone.Lib.Transition
import Keystone.Raft.Appending
import Keystone.Raft.Frames
import Keystone.Raft.Node

namespace Keystone.Raft

open Keystone.Lib

variable {σ α : Type} {cfg : Config} {S S' S'' : Sys σ}

/-! ## The log is left alone. -/

/-- The log and the commit index are as before. -/
structure SameLog (S S' : Sys σ) : Prop where
  commit : S'.node.r.commit = S.node.r.commit
  entries : S'.store.entries = S.store.entries
  snapIdx : S'.store.snapIdx = S.store.snapIdx
  snapTerm : S'.store.snapTerm = S.store.snapTerm

instance : IsPreorder (Sys σ) SameLog where
  refl _ := ⟨rfl, rfl, rfl, rfl⟩
  trans _ _ _ h h' :=
    ⟨h'.commit.trans h.commit, h'.entries.trans h.entries, h'.snapIdx.trans h.snapIdx,
      h'.snapTerm.trans h.snapTerm⟩

theorem SameLog.lastIndex (h : SameLog S S') : S'.store.lastIndex = S.store.lastIndex := by
  unfold MemStore.lastIndex
  rw [h.entries, h.snapIdx]

theorem SameLog.entryAt (h : SameLog S S') (i : ℕ) : S'.store.entryAt i = S.store.entryAt i := by
  unfold MemStore.entryAt
  rw [h.entries, h.snapIdx]

theorem SameLog.termOf (h : SameLog S S') (k : ℕ) : S'.store.termOf k = S.store.termOf k := by
  unfold MemStore.termOf
  rw [h.entries, h.snapIdx, h.snapTerm]

abbrev sameLog : Frame Panic (Sys σ) := .keeps SameLog

theorem sameLog_modifyRaft {f : Raft → Raft} (hc : ∀ r, (f r).commit = r.commit) :
    sameLog.Holds (modifyRaft f : M σ Unit) := fun _ => ⟨hc _, rfl, rfl, rfl⟩

theorem sameLog_send {m : Message} : sameLog.Holds (send cfg m : M σ Unit) := fun _ => ⟨rfl, rfl, rfl, rfl⟩

instance : Clerical (@sameLog σ) where
  note h := sameLog_modifyRaft fun r => congrArg Office.commit (h r)
  stop _ := Frame.throw_keepsOr
  persist := fun _ => ⟨rfl, rfl, rfl, rfl⟩
  send _ := sameLog_send

instance : Relays cfg (@sameLog σ) where
  out h := sameLog_modifyRaft fun r => by rw [h r]
  chunk := .ite Frame.throw_keepsOr sameLog_send

instance : Leads cfg (@sameLog σ) := ⟨holds_sendAppend holds_sendSnapshot fun _ => sameLog_send⟩

instance : Turns (@sameLog σ) where
  turn h := sameLog_modifyRaft fun r => congrArg (·.1) (h r)
  become := fun _ => ⟨rfl, rfl, rfl, rfl⟩

/-- A node that steps down for a term keeps its log and takes the term, if it is higher. -/
theorem becomeFollower_down {t : ℕ} {lead : NodeID} :
    Wp (becomeFollower cfg t lead)
      (fun _ S' => SameLog S S' ∧ S'.node.r.state = .follower ∧
        S'.node.r.term = max t S.node.r.term) (fun _ _ => False) S :=
  ((Bows.down (F := sameLog) S).and becomeFollower_state).mono (fun _ _ h => ⟨h.1, h.2.1, h.2.2.2⟩)
    fun _ _ h => h.2

/-! ## Steady steps. -/

/-- The commit index lies inside the log, and the index behind the last one is a machine word. -/
structure Local (S : Sys σ) : Prop where
  snap : S.store.snapIdx ≤ S.node.r.commit
  commit : S.node.r.commit ≤ S.store.lastIndex
  word : S.store.lastIndex + 1 < 2 ^ 64

/-- From a node whose commit index lies inside its log: the commit index did not move back, and an
entry at or below it is still there or is covered by the snapshot. -/
structure Steady (S S' : Sys σ) : Prop where
  inv : Local S'
  commit : S.node.r.commit ≤ S'.node.r.commit
  snapIdx : S.store.snapIdx ≤ S'.store.snapIdx
  entry : ∀ i ≤ S.node.r.commit, S'.store.entryAt i = S.store.entryAt i ∨ i ≤ S'.store.snapIdx

theorem Steady.refl (h : Local S) : Steady S S := ⟨h, le_rfl, le_rfl, fun _ _ => Or.inl rfl⟩

theorem Steady.trans (h : Steady S S') (h' : Steady S' S'') : Steady S S'' where
  inv := h'.inv
  commit := h.commit.trans h'.commit
  snapIdx := h.snapIdx.trans h'.snapIdx
  entry i hi := by
    rcases h'.entry i (hi.trans h.commit) with he' | hsnap
    · rcases h.entry i hi with he | hsnap
      · exact Or.inl (he'.trans he)
      · exact Or.inr (hsnap.trans h'.snapIdx)
    · exact Or.inr hsnap

theorem SameLog.local (h : SameLog S S') (hS : Local S) : Local S' where
  snap := by rw [h.snapIdx, h.commit]; exact hS.snap
  commit := by rw [h.lastIndex, h.commit]; exact hS.commit
  word := by rw [h.lastIndex]; exact hS.word

theorem SameLog.steady (h : SameLog S S') (hS : Local S) : Steady S S' :=
  ⟨h.local hS, h.commit.ge, h.snapIdx.ge, fun i _ => Or.inl (h.entryAt i)⟩

/-- `Steady`, as a relation between any two states. -/
def Guarded (S S' : Sys σ) : Prop := Local S → Steady S S'

instance : IsPreorder (Sys σ) Guarded where
  refl _ := Steady.refl
  trans _ _ _ h h' hS := (h hS).trans (h' (h hS).inv)

instance (R : Sys σ → Sys σ → Prop) : Absorbs R (fun _ _ => True) where
  here _ := trivial
  after _ _ := trivial

/-- A panic ends the run, and nothing is said about it. -/
abbrev guards : Frame Panic (Sys σ) := .keepsOr Guarded fun _ _ => True

theorem guards_of_sameLog : (@sameLog σ).Le guards := fun h =>
  KeepsOr.mono h (fun _ _ h => h.steady) fun _ _ _ => trivial

instance : Clerical (@guards σ) := .mono guards_of_sameLog

instance : Relays cfg (@guards σ) := .mono guards_of_sameLog

instance : Leads cfg (@guards σ) := ⟨guards_of_sameLog Leads.app⟩

theorem wp_sameLog {x : M σ α} (h : sameLog.Holds x) :
    Wp x (fun _ => SameLog S) (fun _ _ => True) S :=
  (h S).mono (fun _ _ h => h) fun _ _ _ => trivial

/-- A steady step, and then another. -/
theorem Steady.after {x : M σ α} (hs : Steady S S')
    (h : Wp x (fun _ S'' => Steady S' S'') (fun _ _ => True) S') :
    Wp x (fun _ S'' => Steady S S'') (fun _ _ => True) S' :=
  h.imp fun _ _ h' => hs.trans h'

theorem guards_after {x : M σ α} (h : guards.Holds x) (hs : Steady S S') :
    Wp x (fun _ S'' => Steady S S'') (fun _ _ => True) S' :=
  hs.after ((h S').mono (fun _ _ h' => h' hs.inv) fun _ _ h' => h')

theorem quiet_after {x : M σ α} (h : sameLog.Holds x) (hs : Steady S S') :
    Wp x (fun _ S'' => Steady S S'') (fun _ _ => True) S' :=
  guards_after (guards_of_sameLog h) hs

/-! ## Writing the log and the commit index. -/

theorem MemStore.le_lastIndex_of_termOf {s : MemStore} {k t : ℕ} (h : s.termOf k = .ok t) :
    k ≤ s.lastIndex := by
  unfold MemStore.termOf at h
  unfold MemStore.lastIndex
  split at h
  · omega
  split at h
  · cases h
  split at h
  · next e he =>
    have := (List.getElem?_eq_some_iff.mp he).1
    omega
  · cases h

theorem setCommit_steady {k : ℕ} (hS : Local S) (hk : S.node.r.commit ≤ k)
    (hlast : k ≤ S.store.lastIndex) :
    Wp (setCommit k) (fun _ => Steady S) (fun _ _ => True) S :=
  show Steady S _ from
    ⟨⟨hS.snap.trans hk, hlast, hS.word⟩, hk, le_rfl, fun _ _ => Or.inl rfl⟩

/-- The majority index is looked up before it becomes the commit index. -/
instance : Tallies cfg (@guards σ) where
  tally := by
    intro S
    unfold maybeCommit
    rw [wp_bind, wp_getRaft, wp_ite]
    refine ⟨fun _ => wp_pure.mpr Steady.refl, fun hgt => ?_⟩
    have hgt : S.node.r.commit < majorityIndex cfg S.node.r := not_le.mp hgt
    cases hterm : S.store.termOf (majorityIndex cfg S.node.r) with
    | error e =>
      rw [wp_bind, termAt, wp_bind, wp_getStore, hterm]
      trivial
    | ok t =>
      rw [wp_bind, wp_termAt hterm, wp_ite]
      refine ⟨fun _ => wp_pure.mpr Steady.refl, fun _ => ?_⟩
      exact fun hS => setCommit_steady hS hgt.le (MemStore.le_lastIndex_of_termOf hterm)

/-- The entries have the indexes behind `j`. -/
def NumberedAfter (j : ℕ) : List Entry → Prop
  | [] => True
  | e :: es => e.index = j + 1 ∧ NumberedAfter (j + 1) es

instance NumberedAfter.decide : ∀ (j : ℕ) (es : List Entry), Decidable (NumberedAfter j es)
  | _, [] => isTrue trivial
  | j, _ :: es =>
    have := NumberedAfter.decide (j + 1) es
    inferInstanceAs (Decidable (_ ∧ _))

theorem numberedAfter_stamp (last term : ℕ) (es : List Entry) : NumberedAfter last (stamp last term es) := by
  induction es generalizing last with
  | nil => trivial
  | cons e es ih => exact ⟨rfl, ih (last + 1)⟩

/-- A record behind `j` is the last entry afterwards, and everything up to `j` is as before. -/
theorem MemStore.appendOne_behind {s : MemStore} {e : Entry} {j : ℕ} (he : e.index = j + 1)
    (hsnap : s.snapIdx ≤ j) (hj : j ≤ s.lastIndex) :
    (s.appendOne e).lastIndex = j + 1 ∧ ∀ i ≤ j, (s.appendOne e).entryAt i = s.entryAt i := by
  have hnew : ¬ e.index ≤ s.snapIdx := by omega
  unfold MemStore.lastIndex at hj
  refine ⟨?_, fun i hi => ?_⟩
  · simp only [MemStore.appendOne, if_neg hnew, MemStore.lastIndex, List.length_append,
      List.length_take, List.length_singleton]
    omega
  · simp only [MemStore.appendOne, if_neg hnew, MemStore.entryAt]
    by_cases hold : i ≤ s.snapIdx
    · rw [if_pos hold, if_pos hold]
    · rw [if_neg hold, if_neg hold, List.getElem?_append_left, List.getElem?_take_of_lt]
      · omega
      · rw [List.length_take]
        omega

/-- Records behind the commit index, written one by one. -/
theorem appendRecords_steady {es : List Entry} {j : ℕ} (hS : Local S) (hc : S.node.r.commit ≤ j)
    (hj : j ≤ S.store.lastIndex) (hes : NumberedAfter j es) (hw : j + es.length + 1 < 2 ^ 64) :
    Wp (es.forM appendRecord)
      (fun _ S' => Steady S S' ∧ S'.node.r.commit = S.node.r.commit ∧
        j + es.length ≤ S'.store.lastIndex) (fun _ _ => True) S := by
  induction es generalizing S j with
  | nil => exact ⟨Steady.refl hS, rfl, hj⟩
  | cons e es ih =>
    obtain ⟨he, hes⟩ := hes
    rw [List.length_cons] at hw
    obtain ⟨hlast, hold⟩ := MemStore.appendOne_behind he (hS.snap.trans hc) hj
    rw [wp_forM_cons]
    simp only [appendRecord, wp_bind, wp_modify, wp_emit]
    have hsnap := S.store.appendOne_snapIdx e
    have hS₁ : ∀ tr, Steady S ⟨S.node, S.store.appendOne e, tr⟩ := fun tr => by
      refine ⟨⟨?_, ?_, ?_⟩, le_rfl, hsnap.ge, fun i hi => Or.inl (hold i (hi.trans hc))⟩
      · show (S.store.appendOne e).snapIdx ≤ S.node.r.commit
        rw [hsnap]
        exact hS.snap
      · show S.node.r.commit ≤ (S.store.appendOne e).lastIndex
        omega
      · show (S.store.appendOne e).lastIndex + 1 < 2 ^ 64
        omega
    refine (ih (j := j + 1) (hS₁ _).inv (hc.trans (Nat.le_succ j)) hlast.ge hes (by omega)).imp ?_
    rintro _ S₂ ⟨h₂, hcommit, hlen⟩
    refine ⟨(hS₁ _).trans h₂, hcommit, ?_⟩
    rw [List.length_cons]
    omega

theorem appendStore_steady {es : List Entry} {j : ℕ} (hS : Local S) (hc : S.node.r.commit ≤ j)
    (hj : j ≤ S.store.lastIndex) (hes : NumberedAfter j es) (hw : j + es.length + 1 < 2 ^ 64) :
    Wp (appendStore es)
      (fun _ S' => Steady S S' ∧ S'.node.r.commit = S.node.r.commit ∧
        j + es.length ≤ S'.store.lastIndex) (fun _ _ => True) S := by
  unfold appendStore
  rw [wp_bind, wp_getStore]
  cases S.store.append es with
  | ok _ => exact appendRecords_steady hS hc hj hes hw
  | error e => trivial

/-- Compaction never moves the end of the log back. -/
theorem MemStore.compact_lastIndex (s : MemStore) {k t : ℕ} {data : Bytes} (hk : s.snapIdx < k) :
    (s.compact k t data).lastIndex = max s.lastIndex k := by
  rw [MemStore.compact, if_neg (not_le.mpr hk)]
  show k + (if k ≤ s.lastIndex then s.entries.drop (k - s.snapIdx) else []).length = _
  unfold MemStore.lastIndex
  split
  · rw [List.length_drop]
    omega
  · show k = _
    omega

/-- Compaction only covers entries. -/
theorem MemStore.compact_entryAt (s : MemStore) {k t : ℕ} {data : Bytes} {i : ℕ} (hi : i ≤ s.lastIndex) :
    (s.compact k t data).entryAt i = s.entryAt i ∨ i ≤ (s.compact k t data).snapIdx := by
  unfold MemStore.compact
  split
  · exact Or.inl rfl
  · by_cases hik : i ≤ k
    · exact Or.inr hik
    · left
      have hk : k ≤ s.lastIndex := by omega
      have hsnap : ¬ i ≤ s.snapIdx := by omega
      simp only [MemStore.entryAt, if_neg hik, if_neg hsnap, if_pos hk, List.getElem?_drop]
      congr 1
      omega

/-- Local compaction at or below the commit index. -/
theorem compactStore_steady {k t : ℕ} {data : Bytes} (hS : Local S) (hk : k ≤ S.node.r.commit) :
    Wp (compactStore k t data) (fun _ => Steady S) (fun _ _ => True) S := by
  have hcommit := hS.commit
  show Steady S ⟨S.node, S.store.compact k t data, _⟩
  by_cases hold : k ≤ S.store.snapIdx
  · rw [MemStore.compact, if_pos hold]
    exact ⟨⟨hS.snap, hS.commit, hS.word⟩, le_rfl, le_rfl, fun _ _ => Or.inl rfl⟩
  · have hlast := @MemStore.compact_lastIndex S.store k t data (not_le.mp hold)
    have hsnap : (S.store.compact k t data).snapIdx = k := by rw [MemStore.compact, if_neg hold]
    rw [max_eq_left (hk.trans hcommit)] at hlast
    refine ⟨⟨hsnap.trans_le hk, hcommit.trans hlast.ge, hlast ▸ hS.word⟩, le_rfl,
      (not_le.mp hold).le.trans hsnap.ge, fun i hi => S.store.compact_entryAt (hi.trans hcommit)⟩

/-! ## Leading. -/

/-- A leader's entries go behind everything it holds. -/
theorem appendEntries_steady {es : List Entry} (hS : Local S)
    (hw : S.store.lastIndex + es.length + 1 < 2 ^ 64) :
    Wp (appendEntries cfg es) (fun _ => Steady S) (fun _ _ => True) S := by
  simp only [appendEntries]
  rw [wp_bind, wp_getRaft, wp_bind, wp_getStore]
  refine Wp.bind (wp_sameLog holds_termAt) fun t S₁ h₁ => ?_
  refine Wp.bind (wp_sameLog (holds_shipEarly (fun _ => sameLog_send) _ _)) fun early S₂ h₂ => ?_
  have hq : SameLog S S₂ := trans_of SameLog h₁ h₂
  have hwrite := appendStore_steady (hq.local hS) (j := S.store.lastIndex)
    (hq.commit.le.trans hS.commit) hq.lastIndex.ge (numberedAfter_stamp _ S.node.r.term es)
    (by rw [stamp_length]; exact hw)
  refine Wp.bind hwrite ?_
  rintro _ S₃ ⟨h₃, -, -⟩
  -- what follows the write sends and counts acknowledgements
  refine guards_after ?_ ((hq.steady hS).trans h₃)
  refine .bind (Clerical.note fun _ => rfl) fun _ => .bind (.forM fun p _ => .when Leads.app) fun _ => ?_
  exact .bind Tallies.tally fun _ => .pure

/-- So many entries fit behind the last one, with an index left behind them. -/
abbrev Room (S : Sys σ) (n : ℕ) : Prop := S.store.lastIndex + n + 1 < 2 ^ 64

theorem propose_steady {payloads : List Bytes} (hS : Local S)
    (hw : S.node.r.state = .leader → Room S payloads.length) :
    Wp (propose cfg payloads) (fun _ => Steady S) (fun _ _ => True) S := by
  simp only [propose]
  rw [wp_bind, wp_getRaft, wp_ite]
  refine ⟨fun _ => Steady.refl hS, fun hl => ?_⟩
  exact Wp.bind (appendEntries_steady hS (by rw [List.length_map]; exact hw (not_not.mp hl)))
    fun _ _ h => h

theorem becomeLeader_steady (hS : Local S) (hw : Room S 1) :
    Wp (becomeLeader cfg) (fun _ => Steady S) (fun _ _ => True) S := by
  simp only [becomeLeader]
  refine Wp.bind (wp_sameLog holds_setRole) fun _ S₁ h₁ => ?_
  rw [wp_bind, wp_getStore]
  refine Wp.bind (wp_sameLog (sameLog_modifyRaft fun _ => rfl)) fun _ S₂ h₂ => ?_
  have hq : SameLog S S₂ := trans_of SameLog h₁ h₂
  refine Wp.bind (appendEntries_steady (hq.local hS) ?_) fun _ _ h₃ => (hq.steady hS).trans h₃
  rw [hq.lastIndex]
  exact hw

/-- A candidate that wins with its own vote appends the first entry of its term. -/
theorem becomeCandidate_steady (hS : Local S) (hw : cfg.quorum ≤ 1 → Room S 1) :
    Wp (becomeCandidate cfg) (fun _ => Steady S) (fun _ _ => True) S := by
  simp only [becomeCandidate, persistState, setRole, wp_bind, wp_modifyRaft, wp_getRaft, wp_modify, wp_emit,
    wp_resetTimeout]
  refine Steady.after (SameLog.steady ⟨rfl, rfl, rfl, rfl⟩ hS) ?_
  rw [wp_ite]
  refine ⟨fun hwon => becomeLeader_steady ⟨hS.snap, hS.commit, hS.word⟩ (hw ?_),
    fun _ => quiet_after holds_askVotes (Steady.refl ⟨hS.snap, hS.commit, hS.word⟩)⟩
  exact of_decide_eq_true hwon

theorem tick_steady (hS : Local S)
    (hw : S.node.r.state ≠ .leader → S.node.r.timeout ≤ S.node.r.elapsed + 1 → cfg.quorum ≤ 1 → Room S 1) :
    Wp (tick cfg) (fun _ => Steady S) (fun _ _ => True) S := by
  simp only [tick]
  rw [wp_bind, wp_modifyRaft]
  have h₁ : SameLog S { S with node := { S.node with r := { S.node.r with
      elapsed := S.node.r.elapsed + 1 } } } := ⟨rfl, rfl, rfl, rfl⟩
  rw [wp_bind, wp_getRaft, wp_ite]
  refine ⟨fun _ => ?_, fun hl => ?_⟩
  · refine quiet_after (.when ?_) (h₁.steady hS)
    exact .bind (Clerical.note fun _ => rfl) fun _ => holds_broadcastAppend
  · rw [wp_when]
    refine ⟨fun hdue => ?_, fun _ => h₁.steady hS⟩
    exact (h₁.steady hS).after (becomeCandidate_steady (h₁.local hS) (hw hl hdue))

/-- The votes of a candidate with the one the message brings. -/
def withVote (r : Raft) (m : Message) : Raft := { r with votes := r.votes.insert m.fromId (!m.reject) }

theorem handleVoteResp_steady {m : Message} (hS : Local S)
    (hw : S.node.r.state = .candidate → countVotes cfg (withVote S.node.r m) = true → Room S 1) :
    Wp (handleVoteResp cfg m) (fun _ => Steady S) (fun _ _ => True) S := by
  simp only [handleVoteResp]
  rw [wp_bind, wp_getRaft, wp_ite]
  refine ⟨fun _ => Steady.refl hS, fun hc => ?_⟩
  rw [wp_bind, wp_modifyRaft]
  have h₁ : SameLog S { S with node := { S.node with r := withVote S.node.r m } } := ⟨rfl, rfl, rfl, rfl⟩
  rw [wp_bind, wp_getRaft, wp_ite]
  refine ⟨fun hwon => ?_, fun _ => ?_⟩
  · exact (h₁.steady hS).after (becomeLeader_steady (h₁.local hS) (hw (not_not.mp hc) hwon))
  · exact quiet_after (.when Bows.down) (h₁.steady hS)

/-! ## Following. -/

/-- Entries that are there already are skipped; the first other one is behind the commit index. -/
theorem appendConflict_steady {es : List Entry} {j : ℕ} (hS : Local S) (hc : S.node.r.commit ≤ j)
    (hj : j ≤ S.store.lastIndex) (hes : NumberedAfter j es) (hw : j + es.length + 1 < 2 ^ 64) :
    Wp (appendConflict S.store.lastIndex es)
      (fun _ S' => Steady S S' ∧ S'.node.r.commit = S.node.r.commit ∧
        j + es.length ≤ S'.store.lastIndex) (fun _ _ => True) S := by
  induction es generalizing j with
  | nil => exact ⟨Steady.refl hS, rfl, hj⟩
  | cons e es ih =>
    have hwrite := appendStore_steady hS hc hj hes hw
    obtain ⟨he, hes⟩ := hes
    simp only [appendConflict]
    rw [wp_ite]
    refine ⟨fun _ => ?_, fun hle => ?_⟩
    · rw [wp_bind, wp_pure, if_pos rfl]
      exact hwrite
    · cases hterm : S.store.termOf e.index with
      | error err =>
        rw [wp_bind, termAt, wp_bind, wp_getStore, hterm]
        trivial
      | ok t =>
        rw [wp_bind, wp_termAt hterm, wp_bind, wp_pure, wp_ite]
        refine ⟨fun _ => hwrite, fun _ => ?_⟩
        rw [List.length_cons] at hw ⊢
        have := ih (j := j + 1) (hc.trans (Nat.le_succ j)) (by omega) hes (by omega)
        rwa [show j + (es.length + 1) = j + 1 + es.length by omega]

/-- The new commit index is that of the message, cut at the last entry the message vouches for. -/
theorem handleAppend_steady {m : Message} (hS : Local S)
    (hw : S.node.r.commit ≤ m.index → S.store.termOf m.index = .ok m.logTerm →
      NumberedAfter m.index m.entries ∧ m.index + m.entries.length + 1 < 2 ^ 64) :
    Wp (handleAppend cfg m) (fun _ => Steady S) (fun _ _ => True) S := by
  simp only [handleAppend]
  rw [wp_bind, wp_getRaft]
  refine Wp.bind (wp_sameLog (.when Bows.down)) fun _ S₁ h₁ => ?_
  refine Wp.bind (wp_sameLog (sameLog_modifyRaft fun _ => rfl)) fun _ S₂ h₂ => ?_
  have hq : SameLog S S₂ := trans_of SameLog h₁ h₂
  have hS₂ := hq.local hS
  rw [wp_bind, wp_getRaft, wp_ite]
  refine ⟨fun _ => quiet_after sameLog_send (hq.steady hS), fun hprev => ?_⟩
  rw [wp_bind, wp_getStore, wp_ite]
  refine ⟨fun _ => quiet_after sameLog_send (hq.steady hS), fun hlast => ?_⟩
  cases hterm : S₂.store.termOf m.index with
  | error err =>
    rw [wp_bind, termAt, wp_bind, wp_getStore, hterm]
    trivial
  | ok t =>
    rw [wp_bind, wp_termAt hterm, wp_ite]
    refine ⟨fun _ => ?_, fun ht => ?_⟩
    · refine quiet_after ?_ (hq.steady hS)
      exact .bind (holds_firstIndexOfTerm _) fun _ => sameLog_send
    · rw [hq.termOf, not_not.mp ht] at hterm
      obtain ⟨hes, hw⟩ := hw (hq.commit ▸ not_lt.mp hprev) hterm
      refine Wp.bind (appendConflict_steady hS₂ (not_lt.mp hprev) (not_lt.mp hlast) hes hw) ?_
      rintro _ S₄ ⟨h₄, hcommit, hlen⟩
      rw [wp_bind, wp_when]
      have hS₄ : Steady S S₄ := (hq.steady hS).trans h₄
      refine ⟨fun hadv => ?_, fun _ => quiet_after sameLog_send hS₄⟩
      refine (setCommit_steady h₄.inv ?_ (by omega)).imp ?_
      · rw [hcommit]
        omega
      · exact fun _ S₅ h₅ => quiet_after sameLog_send (hS₄.trans h₅)

/-- A snapshot that is installed lies above the commit index and becomes it. -/
theorem installSnapshot_steady {src : NodeID} {x : SnapTransfer} (hS : Local S)
    (hnew : S.node.r.commit < x.index) (hw : x.index + 1 < 2 ^ 64) :
    Wp (installSnapshot cfg src x) (fun _ => Steady S) (fun _ _ => True) S := by
  simp only [installSnapshot, compactStore, setCommit, wp_bind, wp_modifyRaft, wp_modify, wp_emit]
  refine quiet_after sameLog_send ?_
  have hfresh : ¬ x.index ≤ S.store.snapIdx := by
    have := hS.snap
    omega
  have hsnap : (S.store.compact x.index x.term x.data).snapIdx = x.index := by
    rw [MemStore.compact, if_neg hfresh]
  have hlast := @MemStore.compact_lastIndex S.store x.index x.term x.data (not_le.mp hfresh)
  refine ⟨⟨hsnap.le, ?_, ?_⟩, hnew.le, ?_, fun i hi => Or.inr ?_⟩
  · show x.index ≤ (S.store.compact x.index x.term x.data).lastIndex
    rw [hlast]
    exact le_max_right _ _
  · show (S.store.compact x.index x.term x.data).lastIndex + 1 < 2 ^ 64
    have := hS.word
    omega
  · show S.store.snapIdx ≤ (S.store.compact x.index x.term x.data).snapIdx
    omega
  · show i ≤ (S.store.compact x.index x.term x.data).snapIdx
    omega

theorem receiveChunk_steady {m : Message} {inc : Option SnapTransfer} (hS : Local S)
    (hnew : S.node.r.commit < m.index) (hw : m.done = true → m.index + 1 < 2 ^ 64) :
    Wp (receiveChunk cfg m inc) (fun _ => Steady S) (fun _ _ => True) S := by
  cases inc with
  | none => exact quiet_after sameLog_send (Steady.refl hS)
  | some x =>
    unfold receiveChunk
    rw [wp_ite]
    refine ⟨fun _ => quiet_after sameLog_send (Steady.refl hS), fun hplace => ?_⟩
    have hidx : x.index = m.index := by
      by_contra hne
      exact hplace (Or.inl hne)
    rw [wp_ite]
    refine ⟨fun hd => installSnapshot_steady hS (hidx ▸ hnew) (hidx ▸ hw hd), fun _ => ?_⟩
    refine quiet_after ?_ (Steady.refl hS)
    exact .bind (sameLog_modifyRaft fun _ => rfl) fun _ => sameLog_send

theorem handleSnapshot_steady {m : Message} (hS : Local S)
    (hw : S.node.r.commit < m.index → m.done = true → m.index + 1 < 2 ^ 64) :
    Wp (handleSnapshot cfg m) (fun _ => Steady S) (fun _ _ => True) S := by
  simp only [handleSnapshot]
  rw [wp_bind, wp_getRaft]
  refine Wp.bind (wp_sameLog (.when Bows.down)) fun _ S₁ h₁ => ?_
  refine Wp.bind (wp_sameLog (sameLog_modifyRaft fun _ => rfl)) fun _ S₂ h₂ => ?_
  have hq : SameLog S S₂ := trans_of SameLog h₁ h₂
  rw [wp_bind, wp_getRaft, wp_ite]
  refine ⟨fun _ => quiet_after sameLog_send (hq.steady hS), fun hnew => ?_⟩
  have hw := hw (hq.commit ▸ not_le.mp hnew)
  rw [wp_ite]
  refine ⟨fun _ => ?_, fun _ => ?_⟩
  · refine Wp.bind (wp_sameLog (sameLog_modifyRaft fun _ => rfl)) fun _ S₃ h₃ => ?_
    have hq₃ : SameLog S S₃ := trans_of SameLog hq h₃
    exact (hq₃.steady hS).after
      (receiveChunk_steady (hq₃.local hS) (h₃.commit.trans_lt (not_le.mp hnew)) hw)
  · exact (hq.steady hS).after (receiveChunk_steady (hq.local hS) (not_le.mp hnew) hw)

/-! ## Any message. -/

/-- The entries have the `uint64` indexes behind `j`. -/
def Contiguous (j : ℕ) : List Entry → Prop
  | [] => True
  | e :: es => e.index = succU64 j ∧ Contiguous (succU64 j) es

instance Contiguous.decide : ∀ (j : ℕ) (es : List Entry), Decidable (Contiguous j es)
  | _, [] => isTrue trivial
  | j, _ :: es =>
    have := Contiguous.decide (succU64 j) es
    inferInstanceAs (Decidable (_ ∧ _))

theorem Contiguous.numberedAfter {j : ℕ} {es : List Entry} (h : Contiguous j es)
    (hw : j + es.length < 2 ^ 64) : NumberedAfter j es := by
  induction es generalizing j with
  | nil => trivial
  | cons e es ih =>
    obtain ⟨he, hes⟩ := h
    rw [List.length_cons] at hw
    have hsucc : succU64 j = j + 1 := Nat.mod_eq_of_lt (by omega)
    rw [hsucc] at he hes
    exact ⟨he, ih hes (by omega)⟩

/-- What the code's types and an append request's own shape promise about a message. -/
def Message.Shaped (m : Message) : Prop :=
  m.index < 2 ^ 64 ∧ (m.type = .app → Contiguous m.index m.entries)

instance (m : Message) : Decidable m.Shaped := inferInstanceAs (Decidable (_ ∧ (_ → _)))

/-- What a message of the present term makes the node store has an index, and one behind it. -/
def Message.Fits (cfg : Config) (S : Sys σ) (m : Message) : Prop :=
  match m.type with
  -- the vote that decides the election
  | .voteResp => S.node.r.state = .candidate → countVotes cfg (withVote S.node.r m) = true → Room S 1
  -- a request whose previous entry the node has
  | .app => S.node.r.commit ≤ m.index → S.store.termOf m.index = .ok m.logTerm →
      m.index + m.entries.length + 1 < 2 ^ 64
  -- the last chunk of a snapshot
  | .snap => S.node.r.commit < m.index → m.done = true → m.index + 1 < 2 ^ 64
  | _ => True

theorem dispatch_steady {m : Message} (hS : Local S) (hm : m.Shaped) (hw : m.Fits cfg S) :
    Wp (dispatch cfg m) (fun _ => Steady S) (fun _ _ => True) S := by
  unfold Message.Fits at hw
  unfold dispatch
  cases hty : m.type with
  | vote => exact quiet_after holds_handleVote (Steady.refl hS)
  | voteResp =>
    rw [hty] at hw
    exact handleVoteResp_steady hS hw
  | app =>
    rw [hty] at hw
    refine handleAppend_steady hS fun hc ht => ⟨(hm.2 hty).numberedAfter ?_, hw hc ht⟩
    have := hw hc ht
    omega
  | appResp =>
    exact guards_after (.bind holds_getRaft fun r => .when holds_handleAppendResp) (Steady.refl hS)
  | snap =>
    rw [hty] at hw
    exact handleSnapshot_steady hS hw
  | snapResp =>
    exact guards_after (.bind holds_getRaft fun r => .when holds_handleSnapshotResp) (Steady.refl hS)

/-- A node that a higher term has made a follower wins no election. -/
theorem Message.Fits.down {m : Message} (h : m.type ≠ .voteResp → m.Fits cfg S) (hs : SameLog S S')
    (hf : S'.node.r.state = .follower) : m.Fits cfg S' := by
  unfold Message.Fits at h ⊢
  cases hty : m.type with
  | voteResp => exact fun hc => absurd (hf.symm.trans hc) (by decide)
  | app =>
    simp only [hty] at h ⊢
    rw [hs.commit, hs.termOf]
    exact h (by decide)
  | snap =>
    simp only [hty] at h ⊢
    rw [hs.commit]
    exact h (by decide)
  | _ => trivial

theorem step_steady {m : Message} (hS : Local S) (hm : m.Shaped)
    (hw : S.node.r.term ≤ m.term → (m.type = .voteResp → m.term = S.node.r.term) → m.Fits cfg S) :
    Wp (step cfg m) (fun _ => Steady S) (fun _ _ => True) S := by
  simp only [step]
  rw [wp_bind, wp_getRaft, wp_ite]
  refine ⟨fun _ => quiet_after holds_rejectStale (Steady.refl hS), fun hge => ?_⟩
  have hw := hw (not_lt.mp hge)
  rw [wp_bind, wp_when]
  refine ⟨fun hgt => ?_, fun hle => dispatch_steady hS hm (hw fun _ => by omega)⟩
  refine becomeFollower_down.mono ?_ fun _ _ h => h.elim
  rintro _ S₁ ⟨h₁, hf, -⟩
  exact (h₁.steady hS).after
    (dispatch_steady (h₁.local hS) hm (.down (fun hne => hw fun hv => absurd hv hne) h₁ hf))

/-! ## Runs. -/

/-- `lastLocked`, the last index as the code computes it. -/
def MemStore.lastLocked (s : MemStore) : ℕ := (s.snapIdx + s.entries.length) % 2 ^ 64

/-- What is done to a node. -/
inductive Call where
  | tick
  | propose (payloads : List Bytes)
  | step (m : Message)
  | compact (index term : ℕ) (snap : Bytes)

def Call.run (cfg : Config) : Call → M σ Unit
  | .tick => Raft.tick cfg
  | .propose payloads => do
    let _ ← Raft.propose cfg payloads
    pure ()
  | .step m => Raft.step cfg m
  | .compact index term snap => compactStore index term snap

/-- One node alone; a panic ends the run. -/
def lone (cfg : Config) : Machine (Sys σ) Call Unit where
  exec S c :=
    match c.run cfg S with
    | .ok _ S' => some (S', [])
    | .error _ _ => none

/-- Append requests carry the entries behind their index, and compaction stops at the commit index. -/
def Call.Shaped (S : Sys σ) : Call → Prop
  | .step m => m.Shaped
  | .compact index _ _ => index ≤ S.node.r.commit
  | _ => True

/-- No index and no term passes the last machine word: what the call makes the node store (its own entries
as a leader, those of an append request it accepts, a snapshot it installs) has an index with one behind
it, and an election has a term. -/
def Call.Fits (cfg : Config) (S : Sys σ) : Call → Prop
  | .tick => S.node.r.state ≠ .leader → S.node.r.timeout ≤ S.node.r.elapsed + 1 →
      S.node.r.term + 1 < 2 ^ 64 ∧ (cfg.quorum ≤ 1 → Room S 1)
  | .propose payloads => S.node.r.state = .leader → Room S payloads.length
  | .step m => S.node.r.term ≤ m.term → (m.type = .voteResp → m.term = S.node.r.term) → m.Fits cfg S
  | .compact _ _ _ => True

instance (S : Sys σ) : ∀ c : Call, Decidable (c.Shaped S)
  | .tick | .propose _ => isTrue trivial
  | .step m => inferInstanceAs (Decidable m.Shaped)
  | .compact index _ _ => inferInstanceAs (Decidable (index ≤ S.node.r.commit))

instance (S : Sys σ) (m : Message) : Decidable (m.Fits cfg S) := by
  unfold Message.Fits
  split <;> infer_instance

instance (S : Sys σ) : ∀ c : Call, Decidable (c.Fits cfg S)
  | .tick => inferInstanceAs (Decidable (_ → _))
  | .propose _ => inferInstanceAs (Decidable (_ → _))
  | .step _ => inferInstanceAs (Decidable (_ → _))
  | .compact _ _ _ => isTrue trivial

theorem call_steady {c : Call} (hS : Local S) (hc : c.Shaped S) (hf : c.Fits cfg S) :
    Wp (c.run cfg) (fun _ => Steady S) (fun _ _ => True) S := by
  cases c with
  | tick => exact tick_steady hS fun hl hdue => (hf hl hdue).2
  | propose payloads => exact Wp.bind (propose_steady hS hf) fun _ _ h => h
  | step m => exact step_steady hS hc hf
  | compact index term snap => exact compactStore_steady hS hc

theorem lone_steady {c : Call} {os : List Unit} (hS : Local S) (hc : c.Shaped S ∧ c.Fits cfg S)
    (h : (lone cfg).exec S c = some (S', os)) : Steady S S' := by
  have hwp : Wp (c.run cfg) (fun _ => Steady S) (fun _ _ => True) S := call_steady hS hc.1 hc.2
  unfold Wp at hwp
  simp only [lone] at h
  split at h
  · next S₁ hrun =>
    rw [hrun] at hwp
    obtain ⟨rfl, -⟩ := Prod.mk.inj (Option.some.inj h)
    exact hwp
  · cases h

theorem steady_run {cs : List Call} {os : List Unit} (hS : Local S)
    (hc : (lone cfg).Meets (fun S c => c.Shaped S ∧ c.Fits cfg S) S cs)
    (hrun : (lone cfg).run S cs = some (S', os)) : Steady S S' :=
  Machine.run_invariant (I := Steady S)
    (fun h hC hexec => h.trans (lone_steady h.inv hC hexec)) (Steady.refl hS) hc hrun

theorem Local.lastLocked (h : Local S) : S.store.lastLocked = S.store.lastIndex :=
  Nat.mod_eq_of_lt (Nat.lt_of_succ_lt h.word)

/-- LOCAL COMMIT STABILITY.  A node is made over a log store and called in any way, with any messages.
Between two moments of the run its commit index does not move back, it never exceeds the last index, and
an entry at or below it stays what it is until a snapshot covers it, provided that nothing is stored past
the last index a machine word holds. -/
theorem commit_stable {cfg : Config} {rng : ℕ → ℕ} {S₀ S₁ S₂ : Sys σ} {cs cs' : List Call}
    {os os' : List Unit} (hnew : newRaft cfg S₀.store rng = some S₀.node.r)
    (hword : S₀.store.lastIndex + 1 < 2 ^ 64)
    (hc : (lone cfg).Meets (fun S c => c.Shaped S ∧ c.Fits cfg S) S₀ (cs ++ cs'))
    (h₁ : (lone cfg).run S₀ cs = some (S₁, os)) (h₂ : (lone cfg).run S₁ cs' = some (S₂, os')) :
    S₁.node.r.commit ≤ S₂.node.r.commit ∧
      S₂.node.r.commit ≤ S₂.store.lastLocked ∧
      ∀ i ≤ S₁.node.r.commit,
        S₂.store.entryAt i = S₁.store.entryAt i ∨ i ≤ S₂.store.snapIdx := by
  have hcommit : S₀.node.r.commit = S₀.store.snapIdx := by
    unfold newRaft at hnew
    split at hnew
    · cases hnew
    split at hnew
    · cases hnew
    rw [← Option.some.inj hnew]
  have hS₀ : Local S₀ := ⟨hcommit.ge, hcommit.trans_le (Nat.le_add_right _ _), hword⟩
  obtain ⟨hc₁, hc₂⟩ := hc.append h₁
  have hS₁ := (steady_run hS₀ hc₁ h₁).inv
  have h := steady_run hS₁ hc₂ h₂
  exact ⟨h.commit, h.inv.lastLocked ▸ h.inv.commit, h.entry⟩

/-- One of three nodes, with a clock that is always due. -/
def loneCfg : Config :=
  { id := 1, peers := [1, 2, 3], electionTick := 1, heartbeatTick := 1 }

/-- The node as it is made over an empty log store. -/
def started : Sys Unit :=
  { node :=
      { r := { term := 0, vote := None, commit := 0, timeout := 1, rng := fun _ => 0 }
        sm := ()
        applied := 0 }
    store := {} }

/-- Three entries from one leader, two of them committed. -/
def firstLeader : List Call :=
  [.step
    { type := .app, fromId := 2, term := 1, commit := 2
      entries := [{ index := 1, term := 1 }, { index := 2, term := 1 }, { index := 3, term := 1 }] }]

/-- Another leader replaces the third, and the first is compacted; then the node is elected and appends
entries of its own. -/
def secondLeader : List Call :=
  [.step
    { type := .app, fromId := 3, term := 2, index := 2, logTerm := 1, commit := 3
      entries := [{ index := 3, term := 2 }] },
    .compact 1 1 [], .tick, .step { type := .voteResp, fromId := 2, term := 3 }, .propose [[7]]]

theorem commit_stable_replaced : ∃ S₁ S₂ : Sys Unit, ∃ os os' : List Unit,
    (lone loneCfg).run started firstLeader = some (S₁, os) ∧
    (lone loneCfg).run S₁ secondLeader = some (S₂, os') ∧
    S₁.node.r.commit ≤ S₂.node.r.commit ∧
    S₂.node.r.commit ≤ S₂.store.lastLocked ∧
    ∀ i ≤ S₁.node.r.commit,
      S₂.store.entryAt i = S₁.store.entryAt i ∨ i ≤ S₂.store.snapIdx := by
  have hsome : ((lone loneCfg).run started (firstLeader ++ secondLeader)).isSome := by
    decide +kernel
  obtain ⟨⟨S₂, _⟩, hrun⟩ := Option.isSome_iff_exists.mp hsome
  obtain ⟨S₁, os, os', h₁, h₂, -⟩ := Machine.run_append hrun
  have hnew : newRaft loneCfg started.store (fun _ => 0) = some started.node.r := rfl
  exact ⟨S₁, S₂, os, os', h₁, h₂, commit_stable hnew (by decide) (by decide +kernel) h₁ h₂⟩

/-- A snapshot close to the end of the index space, an election, and two proposals of which the second
has no index. -/
def pastTheEnd : List Call :=
  [.step { type := .snap, fromId := 2, term := 1, index := 2 ^ 64 - 3, logTerm := 1, done := true },
    .tick,
    .step { type := .voteResp, fromId := 2, term := 2 },
    .propose [[1], [2]]]

/-- The last index wraps to 0, and the commit index is still that of the snapshot. -/
theorem last_index_wraps :
    newRaft loneCfg started.store (fun _ => 0) = some started.node.r ∧
    (lone loneCfg).Meets (fun S c => c.Shaped S) started pastTheEnd ∧
    ((lone loneCfg).run started pastTheEnd).map
        (fun p => (p.1.node.r.commit, p.1.store.lastLocked))
      = some (2 ^ 64 - 3, 0) :=
  ⟨rfl, by decide +kernel, by decide +kernel⟩

end Keystone.Raft
