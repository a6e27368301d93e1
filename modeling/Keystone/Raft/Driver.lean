/-
# Keystone.Raft.Driver — what an operation of a node keeps (`raft/node.go`).

The driver never touches the protocol's state on its own: it hands proposals to the core, applies what
the core has committed, and settles handles.  Three facts carry it:

* an entry it applies is committed, and no entry is passed over (`applyCommitted_spec`, which also says
  that the loop always reaches the commit index);
* a proposal that is finished without an error sits at a committed index with its own term, so the
  committed entry there is the proposal's own (`settleProposal_spec`);
* the reads handed to a round were asked for before the round began (`startReads_spec`).

`operate_spec` puts them together: every operation leads from a resting node to a resting node.
-/
import Keystone.Raft.Reading
import Keystone.Raft.Walks

namespace Keystone.Raft

open Keystone.Lib
open Keystone.Lib.TermLog (Inv Le WF)
open Function (update)

variable {σ : Type} {G : Group σ} {md : Mode} {b b' b₀ : History G} {i : NodeID} {pos : ℕ}
  {n : Node σ} {s : MemStore} {S S' : Sys σ} {m : Message}

/-! ## The driver's own fields. -/

/-- The protocol's state and the applied index are as they were. -/
theorem Sound.setNode (h : Sound md b i pos n s) (n' : Node σ) (hr : n'.r = n.r)
    (happ : n'.applied = n.applied)
    (hp : ∀ k p, n'.pending.lookup k = some p → p.index = k ∧ Proposed b.a p)
    (hR : ReadsOK md b i n') : Sound md b i pos n' s :=
  { h with
    term := by rw [hr]; exact h.term
    vote := by rw [hr]; exact h.vote
    commit := by rw [hr]; exact h.commit
    applied := by rw [hr, happ]; exact h.applied
    snapIn := by rw [hr]; exact h.snapIn
    pending := hp
    reads := hR
    role := by rw [hr]; exact h.role
    whole := by rw [hr]; exact h.whole
    snap_commit := by rw [hr]; exact h.snap_commit
    cover := by rw [hr, happ]; exact h.cover
    restored := by rw [hr]; exact h.restored }

theorem Resting.setNode (h : Resting md b i pos n s) (n' : Node σ) (hr : n'.r = n.r)
    (happ : n'.applied = n.applied)
    (hp : ∀ k p, n'.pending.lookup k = some p → p.index = k ∧ Proposed b.a p)
    (hR : ReadsOK md b i n') : Resting md b i pos n' s where
  toSound := h.toSound.setNode n' hr happ hp hR
  caught := by rw [happ]; exact h.caught

/-- The applied index moves up to an index the commit index has reached. -/
theorem Held.setApplied (h : Held md b i pos n s) (st : σ) {k : ℕ} (hk : k ≤ n.r.commit) :
    Held md b i pos { n with sm := st, applied := k } s :=
  { h with
    applied := hk
    reads := { h.reads with } }

/-- The frame of what the driver does at rest: all effects are justified by the history so far, and `P`
holds of the node and its store. -/
abbrev upright (md : Mode) (i : NodeID) (pos : ℕ) (b₀ b : History G) (P : Node σ → MemStore → Prop) :
    Frame Panic (Sys σ) :=
  .maintains (fun S => Tr md i pos b₀ b S ∧ P S.node S.store) fun _ => False

section Fail

variable {P : Node σ → MemStore → Prop} (hP : ∀ {n s}, P n s → Held md b i pos n s)

include hP

theorem upright_emit {e : Effect} (he : ∀ n s, EffectOK md b i n s e) :
    (upright md i pos b₀ b P).Holds (emit e : M σ Unit) := fun _ h =>
  ⟨h.1.emit ((hP h.2).shown (he _ _)), h.2⟩

/-- A handle finished with an error promises nothing. -/
theorem upright_failProposal (p : Proposal) :
    (upright md i pos b₀ b P).Holds (finishProposal p [] (some .notLeader) : M σ Unit) :=
  upright_emit hP fun _ _ herr => by cases herr

theorem upright_failRead (rd : Read) :
    (upright md i pos b₀ b P).Holds (finishRead rd (some .notLeader) : M σ Unit) :=
  upright_emit hP fun _ _ herr => by cases herr

end Fail

/-! ## Proposals. -/

theorem lookup_addPending {pending : AList fun _ : ℕ => Proposal} {t first k : ℕ} {p : Proposal}
    {ps : List Proposal} (h : (addPending pending t first ps).lookup k = some p) :
    pending.lookup k = some p ∨
      ∃ j q, ps[j]? = some q ∧ k = first + j ∧ p = { q with index := k, term := t } := by
  induction ps generalizing pending first with
  | nil => exact Or.inl h
  | cons q ps ih =>
    rcases ih h with h' | ⟨j, q', hq', rfl, rfl⟩
    · by_cases hk : k = first
      · subst hk
        rw [AList.lookup_insert] at h'
        exact Or.inr ⟨0, q, rfl, rfl, (Option.some.inj h').symm⟩
      · rw [AList.lookup_insert_ne hk] at h'
        exact Or.inl h'
    · exact Or.inr ⟨j + 1, q', hq', by omega, rfl⟩

/-- What was proposed in one batch stands in the leader's log, in order. -/
theorem proposed_of_stamp {a : Abstract} {l : List Entry} {T j : ℕ} {queue : List Proposal}
    {q : Proposal}
    (hllog : a.llog T = l ++ stamp l.length T ((queue.map Proposal.data).map fun d => { data := d }))
    (hq : queue[j]? = some q) :
    Proposed a { q with index := l.length + 1 + j, term := T } := by
  refine ⟨by show 1 ≤ l.length + 1 + j; omega, { data := q.data, index := l.length + j + 1, term := T },
    ?_, rfl, rfl, rfl⟩
  show (a.llog T)[l.length + 1 + j - 1]? = _
  rw [hllog, show l.length + 1 + j - 1 = l.length + j by omega,
    List.getElem?_append_right (by omega), show l.length + j - l.length = j by omega, stamp_getElem?,
    List.getElem?_map, List.getElem?_map, hq]
  rfl

theorem flushBatch_spec (ht : Tr md i pos b₀ b S) (h : Sound md b i pos S.node S.store) :
    Wp (flushBatch (G.cfg i)) (fun _ => Ends md i pos b₀ b) (Stops md i pos b₀) S := by
  simp only [flushBatch, wp_bind, wp_getNode, wp_modifyNode]
  generalize (if (G.cfg i).maxProposalBatch > 0 ∧ S.node.queue.length > (G.cfg i).maxProposalBatch then
    S.node.queue.take (G.cfg i).maxProposalBatch else S.node.queue) = queue
  have hR := h.reads
  let S₁ : Sys σ := { S with node := { S.node with queue := S.node.queue.drop queue.length } }
  have h₁ : Sound md b i pos S₁.node S₁.store := h.setNode _ rfl rfl h.pending { hR with }
  rw [wp_ite]
  refine ⟨fun _ => ?_, fun hl => ?_⟩
  · have hfail : (upright md i pos b₀ b (Sound md b i pos)).Holds
        (queue.forM fun p => finishProposal p [] (some .notLeader)) :=
      .forM fun p _ => upright_failProposal (fun h => h.toHeld) p
    exact (hfail S₁ ⟨ht, h₁⟩).mono (fun _ _ h => Ends.here h.1 h.2) fun _ _ h => h.2.elim
  · have hl : S₁.node.r.state = .leader := not_not.mp hl
    rw [wp_bind]
    refine (propose_spec (S := S₁) _ ht h₁ hl).imp ?_
    rintro first S₂ ⟨b₁, hg, ht₂, h₂, rfl, hllog, r', hn, hterm, -⟩
    simp only [wp_bind, wp_getRaft, wp_modifyNode]
    have hR₂ := h₂.reads
    refine Ends.grow hg (Ends.here ht₂ (h₂.setNode _ rfl rfl ?_ { hR₂ with }))
    intro k p hp
    rcases lookup_addPending hp with hp | ⟨j, q, hq, rfl, rfl⟩
    · exact h₂.pending k p hp
    · refine ⟨rfl, ?_⟩
      have hT : S₂.node.r.term = S₁.node.r.term := by rw [hn]; exact hterm
      rw [hT]
      exact proposed_of_stamp hllog hq

theorem flushProposals_spec (fuel : ℕ) (ht : Tr md i pos b₀ b S)
    (h : Sound md b i pos S.node S.store) :
    Wp (flushProposals (G.cfg i) fuel) (fun _ => Ends md i pos b₀ b) (Stops md i pos b₀) S := by
  induction fuel generalizing b S with
  | zero => exact wp_pure.mpr (Ends.here ht h)
  | succ fuel ih =>
    simp only [flushProposals, wp_bind, wp_getNode]
    rw [wp_when]
    refine ⟨fun _ => ?_, fun _ => Ends.here ht h⟩
    exact After.bind (flushBatch_spec ht h) fun _ b' S' ht' h' => ih ht' h'

/-! ## Failing what a node that is no leader cannot settle. -/

theorem lookup_of_erase {α : Type} {l : AList fun _ : ℕ => α} {k k' : ℕ} {v : α}
    (h : (l.erase k').lookup k = some v) : l.lookup k = some v := by
  by_cases hk : k = k'
  · subst hk
    rw [AList.lookup_erase] at h
    cases h
  · rwa [AList.lookup_erase_ne hk] at h

theorem failAll_spec (ht : Tr md i pos b₀ b S) (h : Sound md b i pos S.node S.store) :
    Wp (failAll : M σ Unit) (fun _ => Ends md i pos b₀ b) (Stops md i pos b₀) S := by
  have hmove : ∀ {f : Node σ → Node σ}, (∀ n s, Sound md b i pos n s → Sound md b i pos (f n) s) →
      (upright md i pos b₀ b (Sound md b i pos)).Holds (modifyNode f : M σ Unit) :=
    fun hf S hS => ⟨hS.1, hf _ _ hS.2⟩
  have hheld : ∀ {n s}, Sound md b i pos n s → Held md b i pos n s := fun h => h.toHeld
  have hwalk : (upright md i pos b₀ b (Sound md b i pos)).Holds (failAll : M σ Unit) := by
    -- queued proposals
    refine .bind holds_getNode fun _ => .bind (.forM fun p _ => upright_failProposal hheld p) fun _ => ?_
    refine .bind (hmove fun n s h => h.setNode _ rfl rfl h.pending { h.reads with }) fun _ => ?_
    -- pending proposals
    refine .bind (.forM fun x _ => .bind (hmove fun n s h => ?_) fun _ => upright_failProposal hheld x.2)
      fun _ => ?_
    · exact h.setNode _ rfl rfl (fun k p hp => h.pending k p (lookup_of_erase hp)) { h.reads with }
    -- queued reads
    refine .bind (.forM fun rd _ => upright_failRead hheld rd) fun _ => ?_
    refine .bind (hmove fun n s h => ?_) fun _ => ?_
    · exact h.setNode _ rfl rfl h.pending { h.reads with asked := by simp }
    -- reads that wait for a round
    refine .forM fun x _ => .bind (hmove fun n s h => ?_) fun _ => .forM fun rd _ => upright_failRead hheld rd
    exact h.setNode _ rfl rfl h.pending
      { h.reads with queued := fun id q hq => h.reads.queued id q (lookup_of_erase hq) }
  exact (hwalk S ⟨ht, h⟩).mono (fun _ _ h => Ends.here h.1 h.2) fun _ _ h => h.2.elim

/-! ## Applying. -/

theorem loadRestored_spec (sm : StateMachine σ) (ht : Tr md i pos b₀ b S)
    (h : Sound md b i pos S.node S.store) :
    Wp (loadRestored sm)
      (fun _ S' => Tr md i pos b₀ b S' ∧ Resting md b i pos S'.node S'.store) (Stops md i pos b₀)
      S := by
  simp only [loadRestored, wp_bind, wp_getNode]
  cases hres : S.node.r.restored with
  | none =>
    refine wp_pure.mpr ⟨ht, h, ?_⟩
    rcases h.cover with hc | ⟨x, hx, -⟩
    · exact hc
    · rw [hres] at hx
      cases hx
  | some x =>
    have hcover : S.store.snapIdx ≤ S.node.applied ∨ S.store.snapIdx ≤ x.index := by
      rcases h.cover with hc | ⟨y, hy, hle⟩
      · exact Or.inl hc
      · rw [hres] at hy
        exact Or.inr (Option.some.inj hy ▸ hle)
    have hx := h.restored x hres
    -- the restored snapshot is taken whether or not it is ahead of the state machine
    have htaken : ∀ st k, S.store.snapIdx ≤ k → k ≤ S.node.r.commit →
        Resting md b i pos
          { S.node with r := { S.node.r with restored := none }, sm := st, applied := k } S.store := by
      intro st k hk hkc
      have hR := h.reads
      exact
        { h with
          applied := hkc
          reads := { hR with }
          role := Role.congr h.role rfl rfl rfl rfl rfl rfl rfl rfl rfl
          cover := Or.inl hk
          restored := by simp
          caught := hk }
    simp only [wp_bind, wp_modifyRaft]
    rw [wp_when]
    refine ⟨fun hgt => ?_, fun hle => ?_⟩
    · cases sm.restore S.node.sm x.data with
      | none => exact wp_throw.mpr (Tr.stops (S := ⟨_, S.store, S.trace⟩) ht (by simp))
      | some st =>
        simp only [wp_bind, wp_modifyNode, wp_emit]
        have hr := htaken st x.index (by omega) hx
        let S₁ : Sys σ := { S with
          node := { S.node with
            r := { S.node.r with restored := none }, sm := st, applied := x.index } }
        exact ⟨Tr.emit (S := S₁) (e := .restore x.index) ht (hr.toHeld.shown trivial), hr⟩
    · exact ⟨ht, htaken S.node.sm S.node.applied (by omega) h.applied⟩

/-- A committed entry is the entry of its term at its index. -/
theorem Committed.of_term {a : Abstract} (hinv : Inv G.params a) {T k : ℕ} {e : Entry}
    (h : Committed a T k e) : (a.llog e.term)[k - 1]? = some e := by
  obtain ⟨U, c, -, -, -, -, he⟩ := h
  exact TermLog.getElem?_of_take_isPrefix (hinv.llog_wf U _ e he) (by omega) he

/-- What the applied entry leaves alone. -/
def Passed (S S' : Sys σ) : Prop := S'.store = S.store ∧ S'.node.r = S.node.r

/-- The entries up to `k` are applied. -/
abbrev Passes (md : Mode) (i : NodeID) (pos : ℕ) (b₀ b : History G) (S : Sys σ) (k : ℕ) (S' : Sys σ) : Prop :=
  Tr md i pos b₀ b S' ∧ Resting md b i pos S'.node S'.store ∧ Passed S S' ∧ S'.node.applied = k

theorem settleProposal_spec {e : Entry} {result : Bytes} (hc : Committed b.a S.node.r.term e.index e)
    (ht : Tr md i pos b₀ b S) (h : Resting md b i pos S.node S.store) :
    Wp (settleProposal e result)
      (fun _ => Passes md i pos b₀ b S S.node.applied) (Stops md i pos b₀) S := by
  simp only [settleProposal, wp_bind, wp_getNode]
  cases hp : S.node.pending.lookup e.index with
  | none => exact wp_pure.mpr ⟨ht, h, ⟨rfl, rfl⟩, rfl⟩
  | some p =>
    obtain ⟨hidx, -, e', he', htype, hdata, hterm⟩ := h.pending _ p hp
    simp only [wp_bind, wp_modifyNode]
    have hR := h.reads
    let S₁ : Sys σ := { S with node := { S.node with pending := S.node.pending.erase e.index } }
    have h₁ : Resting md b i pos S₁.node S₁.store := h.setNode _ rfl rfl
      (fun k q hq => h.pending k q (lookup_of_erase hq)) { hR with }
    rw [wp_ite]
    refine ⟨fun heq => ?_, fun _ => ?_⟩
    · -- same index and same term: the committed entry is the proposal's own
      rw [finishProposal, wp_emit]
      refine ⟨Tr.emit (S := S₁) (e := .finishProposal p result none) ht (h₁.toHeld.shown ?_), h₁,
        ⟨rfl, rfl⟩, rfl⟩
      intro _
      have hown := hc.of_term b.inv
      rw [← heq, ← hidx, he'] at hown
      obtain rfl := Option.some.inj hown
      exact ⟨e', hidx ▸ hc, htype, hdata, hterm⟩
    · rw [finishProposal, wp_emit]
      refine ⟨Tr.emit (S := S₁) (e := .finishProposal p [] (some .notLeader)) ht
        (h₁.toHeld.shown ?_), h₁, ⟨rfl, rfl⟩, rfl⟩
      intro herr
      cases herr

theorem Resting.setApplied (h : Resting md b i pos n s) (st : σ) {k : ℕ} (h1 : n.applied ≤ k)
    (h2 : k ≤ n.r.commit) : Resting md b i pos { n with sm := st, applied := k } s :=
  { h.toHeld.setApplied st h2, h with
    cover := Or.inl (h.caught.trans h1)
    caught := h.caught.trans h1 }

/-- STEP of the apply loop: the next committed entry is passed. -/
theorem applyEntry_spec (sm : StateMachine σ) {e : Entry} (hc : Committed b.a S.node.r.term e.index e)
    (hnext : e.index = S.node.applied + 1) (hle : e.index ≤ S.node.r.commit)
    (ht : Tr md i pos b₀ b S) (h : Resting md b i pos S.node S.store) :
    Wp (applyEntry sm e)
      (fun _ => Passes md i pos b₀ b S e.index) (Stops md i pos b₀) S := by
  -- with or without a call of the state machine
  have key : ∀ st result, Wp (do
        modifyNode fun n => { n with sm := st, applied := e.index }
        emit (.apply e result)
        settleProposal e result)
      (fun _ => Passes md i pos b₀ b S e.index) (Stops md i pos b₀) S := by
    intro st result
    simp only [wp_bind, wp_modifyNode, wp_emit]
    let S₁ : Sys σ := { S with node := { S.node with sm := st, applied := e.index } }
    have h₁ : Resting md b i pos S₁.node S₁.store := h.setApplied st (by omega) hle
    have hsnap : S.store.snapIdx < e.index := by
      have := h.caught
      omega
    have ht₁ := Tr.emit (S := S₁) (e := .apply e result) ht (h₁.toHeld.shown ⟨hc, hsnap⟩)
    refine (settleProposal_spec (S := ⟨S₁.node, S₁.store, _⟩) hc ht₁ h₁).imp ?_
    rintro _ S₂ ⟨ht₂, h₂, ⟨hs, hr⟩, happ⟩
    exact ⟨ht₂, h₂, ⟨hs, hr⟩, happ⟩
  simp only [applyEntry, wp_bind, wp_getNode]
  rw [wp_ite]
  exact ⟨fun _ => key _ _, fun _ => key S.node.sm []⟩

/-- A stretch of the log that follows the applied index is passed in order. -/
theorem applyEntries_spec (sm : StateMachine σ) (es : List Entry)
    (hes : ∀ j e, es[j]? = some e → e.index = S.node.applied + j + 1 ∧
      e.index ≤ S.node.r.commit ∧ Committed b.a S.node.r.term e.index e)
    (ht : Tr md i pos b₀ b S) (h : Resting md b i pos S.node S.store) :
    Wp (es.forM (applyEntry sm))
      (fun _ => Passes md i pos b₀ b S (S.node.applied + es.length)) (Stops md i pos b₀) S := by
  induction es generalizing S with
  | nil => exact wp_pure.mpr ⟨ht, h, ⟨rfl, rfl⟩, rfl⟩
  | cons e es ih =>
    obtain ⟨hidx, hle, hc⟩ := hes 0 e rfl
    have hcons : (e :: es).forM (applyEntry sm) = applyEntry sm e >>= fun _ => es.forM (applyEntry sm) :=
      rfl
    rw [hcons]
    refine Wp.bind (applyEntry_spec sm hc hidx hle ht h) ?_
    rintro _ S₁ ⟨ht₁, h₁, ⟨hs, hr⟩, happ⟩
    refine (ih ?_ ht₁ h₁).imp ?_
    · intro j e' he'
      obtain ⟨h1, h2, h3⟩ := hes (j + 1) e' he'
      rw [hr]
      exact ⟨by omega, h2, h3⟩
    · rintro _ S₂ ⟨ht₂, h₂, ⟨hs', hr'⟩, happ'⟩
      refine ⟨ht₂, h₂, ⟨hs'.trans hs, hr'.trans hr⟩, ?_⟩
      rw [happ', happ, hidx, List.length_cons]
      omega

/-- RUN of the apply loop: with one round of fuel for each entry it reaches the commit index. -/
theorem applyCommitted_spec (sm : StateMachine σ) {fuel : ℕ}
    (hfuel : S.node.r.commit ≤ S.node.applied + fuel) (ht : Tr md i pos b₀ b S)
    (h : Resting md b i pos S.node S.store) :
    Wp (applyCommitted sm fuel)
      (fun _ => Passes md i pos b₀ b S S.node.r.commit) (Stops md i pos b₀) S := by
  induction fuel generalizing S with
  | zero => exact wp_pure.mpr ⟨ht, h, ⟨rfl, rfl⟩, le_antisymm h.applied hfuel⟩
  | succ fuel ih =>
    simp only [applyCommitted, wp_bind, wp_getNode]
    rw [wp_when]
    refine ⟨fun hlt => ?_, fun hge => ⟨ht, h, ⟨rfl, rfl⟩, le_antisymm h.applied (by omega)⟩⟩
    have hlen := h.toHeld.commit_le
    have hcaught := h.caught
    let hi := min S.node.r.commit (S.node.applied + applyBatch) + 1
    have hslice := h.dur.slice hi (show S.store.snapIdx < S.node.applied + 1 by omega) (by omega)
    rw [wp_bind, wp_readEntries hslice]
    let es := ((b.a.log i).drop (S.node.applied + 1 - 1)).take (hi - (S.node.applied + 1))
    have hes : ∀ j e, es[j]? = some e → e.index = S.node.applied + j + 1 ∧
        e.index ≤ S.node.r.commit ∧ Committed b.a S.node.r.term e.index e := by
      intro j e he
      have hj : j < hi - (S.node.applied + 1) :=
        (List.getElem?_eq_some_iff.mp he).1.trans_le (List.length_take_le _ _)
      rw [List.getElem?_take_of_lt hj, List.getElem?_drop, Nat.add_sub_cancel] at he
      have hidx : e.index = S.node.applied + j + 1 := b.index_eq (b.inv.log_wf i) he
      refine ⟨hidx, by omega, ?_⟩
      rw [hidx, ← h.toHeld.term_eq]
      exact h.commit.committed (by omega) (by omega) he
    have hpos : 1 ≤ es.length := by
      simp only [es, List.length_take, List.length_drop, applyBatch, hi]
      omega
    refine Wp.bind (applyEntries_spec sm es hes ht h) ?_
    rintro _ S₁ ⟨ht₁, h₁, ⟨hs, hr⟩, happ⟩
    refine (ih ?_ ht₁ h₁).imp ?_
    · rw [hr, happ]
      omega
    · rintro _ S₂ ⟨ht₂, h₂, ⟨hs', hr'⟩, happ'⟩
      exact ⟨ht₂, h₂, ⟨hs'.trans hs, hr'.trans hr⟩, hr ▸ happ'⟩

/-! ## Reads. -/

/-- The reads handed to a new round were asked for before it began. -/
theorem startReads_spec (ht : Tr md i pos b₀ b S) (h : Resting md b i pos S.node S.store) :
    Wp (startReads (G.cfg i))
      (fun _ S' => After md i pos b₀ b (fun b' S' => Resting md b' i pos S'.node S'.store) S')
      (Stops md i pos b₀) S := by
  simp only [startReads, wp_bind, wp_getNode]
  rw [wp_ite]
  refine ⟨fun _ => wp_pure.mpr (After.here ht h), fun _ => ?_⟩
  rw [wp_bind]
  refine (readIndex_spec ht h.toSound).imp ?_
  rintro res S₁ ⟨b₁, hg, ht₁, h₁, hres⟩
  cases res with
  | error err =>
    obtain ⟨rfl, rfl⟩ := hres
    cases err with
    | leaderNotReady => exact wp_pure.mpr (After.here ht₁ h)
    | notLeader =>
      simp only [wp_bind, wp_modifyNode]
      have hR := h.reads
      let S₂ : Sys σ := { S₁ with node := { S₁.node with readQueue := [] } }
      have h₂ : Resting md b₁ i pos S₂.node S₂.store := h.setNode _ rfl rfl h.pending
        { hR with asked := by simp [S₂] }
      have hfail : (upright md i pos b₀ b₁ (Resting md b₁ i pos)).Holds
          (S₁.node.readQueue.forM fun rd => finishRead rd (some .notLeader)) :=
        .forM fun rd _ => upright_failRead (fun h => h.toHeld) rd
      exact (hfail S₂ ⟨ht₁, h₂⟩).mono (fun _ _ h => After.here h.1 h.2) fun _ _ h => h.2.elim
  | ok id =>
    obtain ⟨hid, ⟨r', hn⟩, hs, hbirth, rd, hrd, hknown⟩ := hres
    rw [wp_modifyNode]
    have h₁' : Resting md b₁ i pos S₁.node S₁.store := ⟨h₁, by rw [hn, hs]; exact h.caught⟩
    have hR := h₁.reads
    let S₂ : Sys σ := { S₁ with node := { S₁.node with
      readQueue := [], reads := S₁.node.reads.insert id S₁.node.readQueue } }
    refine (After.here (S := S₂) ht₁ ?_).grow hg
    refine h₁'.setNode _ rfl rfl h₁.pending { hR with queued := ?_, asked := by simp [S₂] }
    intro id' q hq
    by_cases hid' : id' = id
    · subst hid'
      have hq : (S₁.node.reads.insert id' S₁.node.readQueue).lookup id' = some q := hq
      rw [AList.lookup_insert] at hq
      obtain rfl := Option.some.inj hq
      refine ⟨hid, rd, hrd, fun x hx => ⟨?_, ?_⟩⟩
      · exact hR.asked x hx
      · intro K hK
        rw [hbirth] at hK
        rw [hknown]
        exact b.birth_ok i _ K hK
    · have hq : (S₁.node.reads.insert id S₁.node.readQueue).lookup id' = some q := hq
      rw [AList.lookup_insert_ne hid'] at hq
      exact hR.queued id' q hq

/-- STEP of `TakeReady`: the reads of a confirmed round are served at its index. -/
theorem ReadsOK.collect (h : ReadsOK md b i n) {x : ReadReady}
    (hx : x.id ≤ n.r.nextReadID ∧ ∃ rd, b.rounds (b.epoch i x.id) x.id = some rd ∧
      x.index = rd.index ∧ (md.fresh → rd.Done)) :
    ReadsOK md b i { n with
      waiting := n.waiting ++ ((n.reads.lookup x.id).getD []).map fun rd => { rd with index := x.index }
      reads := n.reads.erase x.id } where
  opened := h.opened
  ready := h.ready
  queued id q hq := h.queued id q (lookup_of_erase hq)
  waiting rd hrd := by
    rcases List.mem_append.mp hrd with hrd | hrd
    · exact h.waiting rd hrd
    · obtain ⟨-, round, hround, hindex, hdone⟩ := hx
      cases hq : n.reads.lookup x.id with
      | none => simp [hq] at hrd
      | some q =>
        rw [hq, Option.getD_some] at hrd
        obtain ⟨rd', hrd', rfl⟩ := List.mem_map.mp hrd
        obtain ⟨-, round', hround', hall⟩ := h.queued x.id q hq
        rw [hround] at hround'
        obtain rfl := Option.some.inj hround'
        obtain ⟨hlt, hknown⟩ := hall rd' hrd'
        refine ⟨hlt, fun hf K hK U k hk => ?_⟩
        show k ≤ x.index
        rw [hindex]
        exact hdone hf U k (hknown K hK hk)
  asked := h.asked
  births := h.births

theorem collectReady_spec {R : Panic → Sys σ → Prop} (ht : Tr md i pos b₀ b S)
    (h : Resting md b i pos S.node S.store) :
    Wp (collectReady : M σ Unit)
      (fun _ S' => Tr md i pos b₀ b S' ∧ Resting md b i pos S'.node S'.store) R S := by
  simp only [collectReady, wp_bind, wp_getRaft, wp_modifyRaft]
  have hR := h.reads
  let S₁ : Sys σ := { S with node := { S.node with r := { S.node.r with ready := [] } } }
  have hR₁ : ReadsOK md b i S₁.node :=
    { hR with ready := by simp [S₁] }
  have h₁ : Resting md b i pos S₁.node S₁.store :=
    { h with
      reads := hR₁
      role := Role.congr h.role rfl rfl rfl rfl rfl rfl rfl rfl rfl }
  -- every iteration keeps the core as it is, so the promise of a ready round stays true
  refine (wp_forM (s := S₁) (fun S' => S'.node.r = S₁.node.r ∧ Tr md i pos b₀ b S' ∧
    Resting md b i pos S'.node S'.store) ⟨rfl, ht, h₁⟩ ?_).imp fun _ _ hI => hI.2
  rintro x hx S₂ ⟨hr, ht₂, h₂⟩
  rw [wp_modifyNode]
  refine ⟨hr, ht₂, h₂.setNode _ rfl rfl h₂.pending (h₂.reads.collect ?_)⟩
  rw [hr]
  exact hR.ready x hx

theorem finishWaiting_spec {R : Panic → Sys σ → Prop} (ht : Tr md i pos b₀ b S)
    (h : Resting md b i pos S.node S.store) :
    Wp (finishWaiting : M σ Unit)
      (fun _ S' => Tr md i pos b₀ b S' ∧ Resting md b i pos S'.node S'.store) R S := by
  simp only [finishWaiting, wp_bind, wp_getNode]
  have hR := h.reads
  refine (wp_forM (fun S' => Tr md i pos b₀ b S' ∧ S'.node = S.node ∧ S'.store = S.store)
    ⟨ht, rfl, rfl⟩ ?_).imp ?_
  · rintro rd hrd S₁ ⟨ht₁, hn, hs⟩
    rw [wp_when]
    refine ⟨fun hle => ?_, fun _ => ⟨ht₁, hn, hs⟩⟩
    rw [finishRead, wp_emit]
    refine ⟨ht₁.emit ?_, hn, hs⟩
    rw [hn, hs]
    exact h.toHeld.shown fun _ => ⟨hle, (hR.waiting rd hrd).2⟩
  · rintro _ S₁ ⟨ht₁, hn, hs⟩
    rw [wp_modifyNode]
    refine ⟨ht₁, ?_⟩
    show Resting md b i pos { S₁.node with waiting := _ } S₁.store
    rw [hn, hs]
    refine h.setNode _ rfl rfl h.pending { hR with waiting := ?_ }
    intro rd hrd
    exact hR.waiting rd (List.mem_filter.mp hrd).1

/-! ## Compacting. -/

theorem subU64_of_le {x y : ℕ} (h : y ≤ x) : subU64 x y = x - y := if_pos h

/-- The log is compacted at the applied index, which is committed. -/
theorem Resting.compact (h : Resting md b i pos n s) {t : ℕ} (data : Bytes)
    (hlt : s.snapIdx < n.applied) (hterm : HasTerm (b.a.log i) n.applied t) :
    Resting md b i pos n (s.compact n.applied t data) := by
  have hlen : n.applied ≤ (b.a.log i).length := h.applied.trans h.toHeld.commit_le
  have hsnap : (s.compact n.applied t data).snapIdx = n.applied := by rw [s.compact_eq hlt]
  have hcert : Certified b.a (b.a.term i) n.applied t := by
    rcases h.commit with hc | ⟨U, k, hcm, hU, hk, -, hag⟩
    · have := h.applied
      omega
    · have happ := h.applied
      refine ⟨U, k, hcm, hU, by omega, by omega, ?_⟩
      rcases hterm with ⟨h0, -⟩ | ⟨h1, e, he, rfl⟩
      · omega
      · refine Or.inr ⟨h1, e, ?_, rfl⟩
        rw [← hag (n.applied - 1) (by omega) (by omega), he]
  have hdur : Dur md.clean b.a i (s.compact n.applied t data) := by
    refine h.dur.compact hlt hlen hcert (fun heq => ?_) fun _ => hterm
    exact HasTerm.unique (HasTerm.last _) (heq ▸ hterm)
  exact
    { h with
      dur := hdur
      term := by rw [h.term, s.compact_eq hlt]
      vote := by rw [h.vote, s.compact_eq hlt]
      commit := h.commit.compact hlt
      pos := h.pos.compact hlt
      snap_commit := by rw [hsnap]; exact h.applied
      cover := Or.inl hsnap.le
      caught := hsnap.le }

theorem maybeSnapshot_spec (sm : StateMachine σ) (ht : Tr md i pos b₀ b S)
    (h : Resting md b i pos S.node S.store) :
    Wp (maybeSnapshot (G.cfg i) sm)
      (fun _ S' => Tr md i pos b₀ b S' ∧ Resting md b i pos S'.node S'.store)
      (Stops md i pos b₀) S := by
  simp only [maybeSnapshot, wp_bind, wp_getNode, wp_getStore]
  rw [wp_ite]
  refine ⟨fun _ => wp_pure.mpr ⟨ht, h⟩, fun hgo => ?_⟩
  have hcaught := h.caught
  have hlt : S.store.snapIdx < S.node.applied := by
    push Not at hgo
    obtain ⟨h0, hge⟩ := hgo
    rw [subU64_of_le (by show S.store.snapIdx + 1 ≤ _; omega)] at hge
    have hge : (G.cfg i).snapshotThreshold ≤ S.node.applied + 1 - (S.store.snapIdx + 1) := hge
    omega
  cases sm.snapshot S.node.sm with
  | none => exact wp_throw.mpr (ht.stops (by simp))
  | some data =>
    obtain ⟨t, htm, hhas⟩ := h.dur.termOf hcaught (h.applied.trans h.toHeld.commit_le)
    rw [wp_bind, wp_termAt htm]
    simp only [compactStore, wp_bind, wp_modify, wp_emit]
    have h₁ := h.compact data hlt (hhas.2 hlt)
    let S₁ : Sys σ := { S with store := S.store.compact S.node.applied t data }
    exact ⟨Tr.emit (S := S₁) (e := .compact S.node.applied t data) ht (h₁.toHeld.shown trivial), h₁⟩

/-! ## The operations. -/

theorem advance_spec (ht : Tr md i pos b₀ b S) (h : Sound md b i pos S.node S.store) :
    Wp (advance (G.cfg i) G.sm)
      (fun _ S' => After md i pos b₀ b (fun b' S' => Resting md b' i pos S'.node S'.store) S')
      (Stops md i pos b₀) S := by
  simp only [advance]
  rw [wp_bind, wp_getRaft]
  have hfail : Wp (when (S.node.r.state ≠ .leader) (failAll : M σ Unit))
      (fun _ => Ends md i pos b₀ b) (Stops md i pos b₀) S := by
    rw [wp_when]
    exact ⟨fun _ => failAll_spec ht h, fun _ => Ends.here ht h⟩
  refine After.bind hfail fun _ b₁ S₁ ht₁ h₁ => ?_
  refine Wp.bind (loadRestored_spec G.sm ht₁ h₁) ?_
  rintro _ S₂ ⟨ht₂, h₂⟩
  rw [wp_bind, wp_getNode]
  refine Wp.bind (applyCommitted_spec G.sm (by omega) ht₂ h₂) ?_
  rintro _ S₃ ⟨ht₃, h₃, -⟩
  refine After.bind (J := fun _ b' S' => Resting md b' i pos S'.node S'.store)
    (startReads_spec ht₃ h₃) fun _ b₄ S₄ ht₄ h₄ => ?_
  refine Wp.bind (collectReady_spec ht₄ h₄) ?_
  rintro _ S₅ ⟨ht₅, h₅⟩
  refine Wp.bind (finishWaiting_spec ht₅ h₅) ?_
  rintro _ S₆ ⟨ht₆, h₆⟩
  refine (maybeSnapshot_spec G.sm ht₆ h₆).imp ?_
  rintro _ S₇ ⟨ht₇, h₇⟩
  exact After.here ht₇ h₇

/-- A read handle is handed out: what is committed now is what the read has to show. -/
def History.ask (b : History G) (i : NodeID) (h : ℕ) : History G :=
  { b with
    birth := update b.birth i (update (b.birth i) h (some b.a.commits))
    birth_ok := fun q k K hK => by
      by_cases hq : q = i
      · subst hq
        rw [Function.update_self] at hK
        by_cases hk : k = h
        · subst hk
          rw [Function.update_self] at hK
          exact (Option.some.inj hK).ge
        · rw [Function.update_of_ne hk] at hK
          exact b.birth_ok q k K hK
      · rw [Function.update_of_ne hq] at hK
        exact b.birth_ok q k K hK }

theorem History.ask_birth_self {h : ℕ} : (b.ask i h).birth i h = some b.a.commits := by
  simp [History.ask]

theorem History.ask_birth_of_ne {h k : ℕ} (hk : k ≠ h) :
    (b.ask i h).birth i k = b.birth i k := by
  simp [History.ask, Function.update_of_ne hk]

theorem History.ask_grow {h : ℕ} (hnone : b.birth i h = none) : Grow i b (b.ask i h) where
  evolves := .refl _ _ _
  rounds _ _ _ hr := hr
  rounds_frame _ _ _ _ _ := rfl
  epoch_frame _ _ := rfl
  birth q k K hK := by
    by_cases hq : q = i
    · subst hq
      have hk : k ≠ h := by
        rintro rfl
        rw [hnone] at hK
        cases hK
      rwa [History.ask_birth_of_ne hk]
    · simpa [History.ask, Function.update_of_ne hq] using hK
  birth_frame q k hq := by simp [History.ask, Function.update_of_ne hq]

theorem ReadsOK.ask (h : ReadsOK md b i n) :
    ReadsOK md (b.ask i n.handles) i
      { n with
        readQueue := n.readQueue ++ [{ handle := n.handles }], handles := n.handles + 1 } where
  opened := h.opened
  ready := h.ready
  queued id q hq := by
    obtain ⟨hid, rd, hrd, hall⟩ := h.queued id q hq
    refine ⟨hid, rd, hrd, fun x hx => ?_⟩
    obtain ⟨hlt, hknown⟩ := hall x hx
    refine ⟨by show x.handle < n.handles + 1; omega, fun K hK => hknown K ?_⟩
    rwa [History.ask_birth_of_ne (by omega)] at hK
  waiting rd hrd := by
    obtain ⟨hlt, hcur⟩ := h.waiting rd hrd
    refine ⟨by show rd.handle < n.handles + 1; omega, fun hf K hK => hcur hf K ?_⟩
    rwa [History.ask_birth_of_ne (by omega)] at hK
  asked rd hrd := by
    show rd.handle < n.handles + 1
    rcases List.mem_append.mp hrd with hrd | hrd
    · have := h.asked rd hrd
      omega
    · obtain rfl := List.mem_singleton.mp hrd
      exact Nat.lt_succ_self _
  births k K hK := by
    show k < n.handles + 1
    by_cases hk : k = n.handles
    · omega
    · rw [History.ask_birth_of_ne hk] at hK
      have := h.births k K hK
      omega

theorem ReadsOK.nextHandle (h : ReadsOK md b i n) (queue : List Proposal) :
    ReadsOK md b i { n with queue := queue, handles := n.handles + 1 } where
  opened := h.opened
  ready := h.ready
  queued id q hq := by
    obtain ⟨hid, rd, hrd, hall⟩ := h.queued id q hq
    exact ⟨hid, rd, hrd, fun x hx => ⟨(hall x hx).1.trans (Nat.lt_succ_self _), (hall x hx).2⟩⟩
  waiting rd hrd := ⟨(h.waiting rd hrd).1.trans (Nat.lt_succ_self _), (h.waiting rd hrd).2⟩
  asked rd hrd := (h.asked rd hrd).trans (Nat.lt_succ_self _)
  births k K hK := (h.births k K hK).trans (Nat.lt_succ_self _)

theorem Role.ask {r : Raft} {k : ℕ} (h : Role b i r) : Role (b.ask i k) i r := by
  unfold Role at h ⊢
  split at h
  · exact h
  · exact ⟨h.cand, h.votes, h.lead, h.idle⟩
  · exact ⟨h.office, h.commit_max, h.acked, h.next, h.snapOut, h.rounds⟩

theorem Resting.ask (h : Resting md b i pos n s) :
    Resting md (b.ask i n.handles) i pos
      { n with readQueue := n.readQueue ++ [{ handle := n.handles }], handles := n.handles + 1 }
      s :=
  { h with
    reads := h.reads.ask
    role := h.role.ask }

/-- What is assumed of an operation: a delivered message tells the truth, is meant for this node, and
meets the conditions of the mode. -/
structure InputOK (md : Mode) (b : History G) (i : NodeID) (n : Node σ) (s : MemStore)
    (inp : Input) : Prop where
  msg : ∀ m, inp = .step m → MsgOK b m ∧ m.toId = i
  clean : md.clean → ∀ m, inp = .step m → CleanInstall n s m
  fresh : md.fresh → ∀ m, inp = .step m → FreshAnswer n m

/-- Every operation of a resting node leads to a resting node, with every effect justified on the way;
if it stops the process, that is not because the log store refused an access. -/
theorem operate_spec {inp : Input} (hin : InputOK md b i S.node S.store inp)
    (ht : Tr md i pos b₀ b S) (h : Resting md b i pos S.node S.store) :
    Wp (operate (G.cfg i) G.sm inp)
      (fun _ S' => After md i pos b₀ b (fun b' S' => Resting md b' i pos S'.node S'.store ∧
        (inp = .readIndex → b'.birth i S.node.handles = some b.a.commits)) S')
      (Stops md i pos b₀) S := by
  -- the operations that end in `advance`
  have hadvance : ∀ {x : M σ Unit}, inp ≠ .readIndex →
      Wp x (fun _ => Ends md i pos b₀ b) (Stops md i pos b₀) S →
      Wp (x >>= fun _ => advance (G.cfg i) G.sm)
        (fun _ S' => After md i pos b₀ b (fun b' S' => Resting md b' i pos S'.node S'.store ∧
          (inp = .readIndex → b'.birth i S.node.handles = some b.a.commits)) S')
        (Stops md i pos b₀) S := by
    intro x hne hx
    refine After.bind hx fun _ b₁ S₁ ht₁ h₁ => ?_
    refine (advance_spec ht₁ h₁).imp ?_
    rintro _ S₂ ⟨b₂, hg₂, ht₂, h₂⟩
    exact ⟨b₂, hg₂, ht₂, h₂, fun hc => absurd hc hne⟩
  cases inp with
  | tick => exact hadvance (by simp) (tick_spec ht h.toSound)
  | step m =>
    obtain ⟨hm, hto⟩ := hin.msg m rfl
    exact hadvance (by simp) (step_spec hm hto ht h.toSound (fun hc => hin.clean hc m rfl)
      fun hf => hin.fresh hf m rfl)
  | propose data =>
    simp only [operate, wp_modifyNode]
    exact After.here (S := { S with node := _ }) ht
      ⟨h.setNode _ rfl rfl h.pending (h.reads.nextHandle _), by simp⟩
  | readIndex =>
    simp only [operate, wp_modifyNode]
    have hnone : b.birth i S.node.handles = none := by
      cases hK : b.birth i S.node.handles with
      | none => rfl
      | some K => exact absurd (h.reads.births _ K hK) (lt_irrefl _)
    exact ⟨b.ask i S.node.handles, History.ask_grow hnone, ht.grow (History.ask_grow hnone), h.ask,
      fun _ => History.ask_birth_self⟩
  | flush =>
    simp only [operate]
    rw [wp_bind, wp_getNode]
    exact hadvance (by simp) (flushProposals_spec _ ht h.toSound)

end Keystone.Raft
