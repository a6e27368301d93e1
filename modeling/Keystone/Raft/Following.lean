/-
# Keystone.Raft.Following — the follower's side: append requests and snapshots.

* `handleAppend` — where the request's previous entry matches, the store is brought into agreement with
  the leader's log (`Agree`), record by record; what is then acknowledged is either held or committed
  (`Agree.acked_or_below`), and what is committed is justified by the leader's announcement.
* `handleSnapshot` — an installed snapshot is a committed prefix.  `CleanInstall` is the condition
  under which the entries kept beyond it belong to the same history; nothing but `Mode.clean` needs it.
-/
import Keystone.Raft.Election

namespace Keystone.Raft

open Keystone.Lib
open Keystone.Lib.TermLog (Inv Le lastTm length_of_getElem?)
open Function (update)

variable {σ : Type} {G : Group σ} {md : Mode} {b b' b₀ : History G} {i : NodeID} {pos : ℕ}
  {n : Node σ} {s : MemStore} {S S' : Sys σ} {m : Message}

/-! ## True messages stay true. -/

theorem AppOK.of_later (h : AppOK b m) (hl : Later b b') : AppOK b' m where
  lead := hl.le.leader _ _ h.lead
  prev := h.prev.of_isPrefix (hl.le.llog _)
  entries := by
    obtain ⟨t, ht⟩ := hl.le.llog m.term
    rw [← ht, List.drop_append_of_le_length h.prev.le_length]
    exact h.entries.trans (List.prefix_append _ _)
  commit := h.commit.of_le hl.le
  round h0 := (h.round h0).imp fun _ hr => hl.rounds _ _ _ hr

theorem AppRespOK.of_later (h : AppRespOK b m) (hl : Later b b') : AppRespOK b' m where
  held hr := (h.held hr).of_le hl.le
  conflict hr := (h.conflict hr).trans (hl.le.llog _).length_le
  round h0 hs := (h.round h0 hs).imp fun _ hr => ⟨hl.rounds _ _ _ hr.1, hr.2⟩

theorem MsgOK.of_later (h : MsgOK b m) (hl : Later b b') : MsgOK b' m := by
  refine ⟨h.sender, h.sender_ne, ?_⟩
  have hb := h.body
  unfold BodyOK at hb ⊢
  split at hb
  · exact hb.imp fun _ hc => ⟨hl.le.cand _ _ _ hc.1, hc.2⟩
  · exact fun hr => (hb hr).imp fun _ hc => hl.le.ballot _ _ _ hc
  · exact AppOK.of_later hb hl
  · exact AppRespOK.of_later hb hl
  · exact Certified.of_le hb hl.le
  · exact fun hd => (hb hd).of_le hl.le

/-! ## Following the sender. -/

/-- What the first lines of both handlers keep. -/
structure Followed (S S' : Sys σ) : Prop where
  store : ∃ t v, S'.store = S.store.setState t v
  term : S'.node.r.term = S.node.r.term
  state : S'.node.r.state = .follower
  commit : S'.node.r.commit = S.node.r.commit
  snapIn : S'.node.r.snapIn = S.node.r.snapIn

theorem follow_spec {R : Panic → Sys σ → Prop} (ht : Tr md i pos b₀ b S)
    (h : Sound md b i pos S.node S.store) (hterm : m.term = S.node.r.term) :
    Wp (when (S.node.r.state ≠ .follower) (becomeFollower (G.cfg i) m.term m.fromId))
      (fun _ S' => After md i pos b₀ b (fun b' S' => Sound md b' i pos S'.node S'.store ∧
        Followed S S') S') R S := by
  rw [wp_when]
  refine ⟨fun _ => ?_, fun hst => ?_⟩
  · refine (becomeFollower_spec ht h hterm.ge).imp ?_
    rintro _ S' ⟨b', hg, ht', h', hd⟩
    obtain ⟨v, hv⟩ := hd.store
    exact ⟨b', hg, ht', h', ⟨⟨_, v, hv⟩, hd.term.trans hterm, hd.state, hd.commit, hd.snapIn⟩⟩
  · exact After.here ht ⟨h, ⟨⟨_, _, rfl⟩, rfl, not_not.mp hst, rfl, rfl⟩⟩

/-! ## Append requests. -/

/-- Walking back over a term stays inside the log. -/
theorem firstIndexOfTerm_spec {R : Panic → Sys σ → Prop} {t k : ℕ}
    (h : Dur md.clean b.a i S.store) (hk : k ≤ (b.a.log i).length) :
    Wp (firstIndexOfTerm t k) (fun ci S' => S' = S ∧ ci ≤ k) R S := by
  induction k with
  | zero => exact wp_pure.mpr ⟨rfl, le_rfl⟩
  | succ k ih =>
    simp only [firstIndexOfTerm, wp_bind, wp_getStore]
    rw [wp_ite]
    refine ⟨fun hgt => ?_, fun _ => wp_pure.mpr ⟨rfl, le_rfl⟩⟩
    have hgt : k + 1 > S.store.snapIdx + 1 := hgt
    obtain ⟨t', ht', -, -⟩ := h.termOf (k := k) (by omega) (by omega)
    rw [wp_bind, wp_termAt ht', wp_ite]
    refine ⟨fun _ => ?_, fun _ => wp_pure.mpr ⟨rfl, le_rfl⟩⟩
    refine (ih (by omega)).imp ?_
    rintro ci S' ⟨hS, hci⟩
    exact ⟨hS, by omega⟩

/-- Entries of the leader's log from an agreement on: skipped while they match, written from the first
one that does not. -/
theorem appendConflict_spec {R : Panic → Sys σ → Prop} {es : List Entry} {k : ℕ}
    (ht : Tr md i pos b₀ b S) (h : Held md b i pos S.node S.store)
    (hst : S.node.r.state ≠ .candidate) (hsnap : S.store.snapIdx ≤ k)
    (hag : Agree b.a i S.store (b.a.term i) k)
    (hes : ∀ j e, es[j]? = some e → (b.a.llog (b.a.term i))[k + j]? = some e) :
    Wp (appendConflict S.store.lastIndex es)
      (fun _ S' => After md i pos b₀ b (fun b' S' => Held md b' i pos S'.node S'.store ∧
        S'.node = S.node ∧ S'.store.snapIdx = S.store.snapIdx ∧
        Agree b'.a i S'.store (b'.a.term i) (k + es.length)) S') R S := by
  have hlast := h.dur.lastIndex
  induction es generalizing k with
  | nil => exact wp_pure.mpr (After.here ht ⟨h, rfl, rfl, hag⟩)
  | cons e es ih =>
    have he : (b.a.llog (b.a.term i))[k]? = some e := hes 0 e rfl
    have hidx : e.index = k + 1 := b.idx _ _ _ he
    have hwrite : (∀ f f', (b.a.log i)[k]? = some f → (b.a.llog (b.a.term i))[k]? = some f' →
        f.term ≠ f'.term) →
        Wp (appendStore (e :: es))
          (fun _ S' => After md i pos b₀ b (fun b' S' => Held md b' i pos S'.node S'.store ∧
            S'.node = S.node ∧ S'.store.snapIdx = S.store.snapIdx ∧
            Agree b'.a i S'.store (b'.a.term i) (k + (e :: es).length)) S') R S := by
      intro hd
      refine (appendStore_spec ht h hst hsnap hag hes hd).imp ?_
      rintro _ S' ⟨b', hg, ht', h', hn, hs, -, hT, hag', -⟩
      exact ⟨b', hg, ht', h', hn, hs, hT ▸ hag'⟩
    simp only [appendConflict]
    rw [wp_ite]
    refine ⟨fun hgt => ?_, fun hle => ?_⟩
    · -- beyond the end of the log
      rw [wp_bind, wp_pure, wp_ite]
      refine ⟨fun _ => hwrite ?_, fun hf => absurd rfl hf⟩
      intro f f' hf
      have := length_of_getElem? hf
      omega
    · have hag1 := hag.1
      obtain ⟨t, htm, -, hlog⟩ := h.dur.termOf (k := k + 1) (by omega) (by omega)
      have hhas := hlog (by omega)
      rw [hidx, wp_bind, wp_termAt htm, wp_bind, wp_pure, wp_ite]
      refine ⟨fun hne => ?_, fun heq => ?_⟩
      · -- an entry of another term
        refine hwrite fun f f' hf hf' hff => ?_
        rw [he] at hf'
        cases hf'
        exact of_decide_eq_true hne (hhas.unique (hff ▸ HasTerm.intro hf))
      · -- the entry is already there
        have hte : t = e.term := by simpa using heq
        refine (ih (k := k + 1) (by omega) (Agree.of_term b.inv (hte ▸ hhas) (HasTerm.intro he))
          ?_).imp ?_
        · intro j f hf
          have := hes (j + 1) f hf
          rwa [show k + (j + 1) = k + 1 + j by omega] at this
        · rintro _ S' ⟨b', hg, ht', h', hn, hs, hag'⟩
          refine ⟨b', hg, ht', h', hn, hs, ?_⟩
          rwa [List.length_cons, show k + (es.length + 1) = k + 1 + es.length by omega]

/-- A follower's commit index moves forward to a justified one. -/
theorem Sound.advanceCommit (h : Sound md b i pos n s) (hst : n.r.state = .follower) {c : ℕ}
    (hc : Justified b.a i s c) (hle : n.r.commit ≤ c) :
    Sound md b i pos { n with r := { n.r with commit := c } } s :=
  { h with
    commit := hc
    applied := h.applied.trans hle
    reads := { h.reads with }
    role := Role.of_idle hst (h.role.idle (by rw [hst]; simp))
    snap_commit := h.snap_commit.trans hle
    restored := fun x hx => (h.restored x hx).trans hle }

/-- What agrees with the leader's log may be acknowledged. -/
theorem Sound.acknowledge (h : Sound md b i pos n s) {k : ℕ}
    (hag : Agree b.a i s (b.a.term i) k) :
    ∃ b', Grow i b b' ∧ Sound md b' i pos n s ∧ Acked b'.a i n.r.term k := by
  have hT := h.toHeld.term_eq
  rcases hag.acked_or_below h.dur b.inv with hpre | hbelow
  · have hstep : TermLog.Step G.params i b.a (b.a.acknowledge i k) :=
      .acknowledge b.a k hag.2.1 hpre
    have hg : Grow i b (b.step hstep b.idx) := b.step_grow hstep b.idx
    refine ⟨b.step hstep b.idx, hg, h.still ?_ rfl fun _ _ => rfl, Or.inl ?_⟩
    · exact ⟨hg.later, rfl, rfl, fun _ h => h, fun _ _ _ h => h, fun _ _ _ => rfl, rfl, fun _ => rfl⟩
    · show k ≤ (b.a.acknowledge i k).ack i n.r.term
      rw [← hT]
      simp only [TermLog.State.acknowledge, Function.update_self]
      exact le_max_left _ _
  · exact ⟨b, Grow.refl i b, h, Or.inr (hT ▸ hbelow)⟩

/-- An answer in the leader's term confirms the round the request carried. -/
theorem AppOK.confirms (h : AppOK b m) (hT : b.a.term i = m.term) (h0 : m.readID ≠ 0) :
    ∃ rd, b.rounds m.term m.readID = some rd ∧ rd.terms i ≤ m.term := by
  obtain ⟨rd, hrd⟩ := h.round h0
  exact ⟨rd, hrd, ((b.rounds_ok _ _ rd hrd).terms i).trans_eq hT⟩

section

variable (happ : AppOK b m) (hmt : m.term = S.node.r.term) (ht : Tr md i pos b₀ b S)
  (h : Sound md b i pos S.node S.store)

include happ hmt ht h

/-- The answer to a request: it acknowledges what the node may acknowledge, or asks for entries inside the
leader's log. -/
theorem answerAppend_spec {k ct ci : ℕ} {rej : Bool}
    (hack : rej = false → Acked b.a i S.node.r.term k)
    (hci : rej = true → ci ≤ (b.a.llog m.term).length) :
    Wp (send (G.cfg i)
        { type := .appResp, toId := m.fromId, index := k, reject := rej, conflictTerm := ct
          conflictIndex := ci, readID := m.readID })
      (fun _ => Ends md i pos b₀ b) (Stops md i pos b₀) S := by
  have hconf := happ.confirms (h.toHeld.term_eq.trans hmt.symm)
  refine send_ends ht h (show AppRespOK b _ from ⟨hack, ?_, fun h0 _ => hmt ▸ hconf h0⟩)
  exact fun hr => hmt ▸ hci hr

/-- The previous entry is of another term. -/
theorem refuseAppend_spec {t : ℕ} (hle : m.index ≤ (b.a.log i).length) :
    Wp (firstIndexOfTerm t m.index >>= fun ci => send (G.cfg i)
        { type := .appResp, toId := m.fromId, reject := true, conflictTerm := t, conflictIndex := ci
          readID := m.readID })
      (fun _ => Ends md i pos b₀ b) (Stops md i pos b₀) S := by
  rw [wp_bind]
  refine Wp.imp (firstIndexOfTerm_spec h.dur hle) ?_
  rintro ci S' ⟨rfl, hci⟩
  exact answerAppend_spec happ hmt ht h (by simp) fun _ => hci.trans happ.prev.le_length

/-- The previous entry matches: the entries are written, the leader's commit index is taken over as far as
this node follows, and all of it is acknowledged. -/
theorem acceptAppend_spec (hst : S.node.r.state = .follower) (hge : S.node.r.commit ≤ m.index)
    (hag : Agree b.a i S.store (b.a.term i) m.index) :
    Wp (do
        appendConflict S.store.lastIndex m.entries
        when (m.commit > S.node.r.commit) (setCommit (min m.commit (m.index + m.entries.length)))
        send (G.cfg i) { type := .appResp, toId := m.fromId, index := m.index + m.entries.length
                         readID := m.readID })
      (fun _ => Ends md i pos b₀ b) (Stops md i pos b₀) S := by
  have hT : b.a.term i = m.term := h.toHeld.term_eq.trans hmt.symm
  rw [wp_bind]
  refine Wp.imp (appendConflict_spec ht h.toHeld (by rw [hst]; simp) (h.snap_commit.trans hge) hag ?_)
    ?_
  · intro j e he
    have := TermLog.getElem?_of_isPrefix happ.entries he
    rwa [List.getElem?_drop, ← hT] at this
  rintro _ S₁ ⟨b₁, hg₁, ht₁, h₁, hn₁, hs₁, hag₁⟩
  have hst₁ : S₁.node.r.state = .follower := by rw [hn₁]; exact hst
  have h₁' : Sound md b₁ i pos S₁.node S₁.store :=
    { toHeld := h₁
      whole := fun hl => by rw [hst₁] at hl; cases hl
      snap_commit := by rw [hs₁, hn₁]; exact h.snap_commit
      cover := by rw [hs₁, hn₁]; exact h.cover
      restored := by rw [hn₁]; exact h.restored }
  have hmt₁ : m.term = S₁.node.r.term := by rw [hn₁]; exact hmt
  have hT₁ : b₁.a.term i = m.term := h₁.term_eq.trans hmt₁.symm
  have happ₁ := happ.of_later hg₁.later
  have hanswer : ∀ S' : Sys σ, Tr md i pos b₀ b₁ S' → Sound md b₁ i pos S'.node S'.store →
      m.term = S'.node.r.term → S'.store = S₁.store →
      Wp (send (G.cfg i) { type := .appResp, toId := m.fromId, index := m.index + m.entries.length
                           readID := m.readID })
        (fun _ => Ends md i pos b₀ b) (Stops md i pos b₀) S' := by
    intro S' ht' h' hmt' hs'
    obtain ⟨b₂, hg₂, h₂, hack⟩ := h'.acknowledge (by rw [hs']; exact hag₁)
    exact (answerAppend_spec (happ₁.of_later hg₂.later) hmt' (ht'.grow hg₂) h₂ (fun _ => hack)
      (by simp)).imp (fun _ _ he => (he.grow hg₂).grow hg₁)
  rw [wp_bind, wp_when]
  refine ⟨fun hgt => ?_, fun _ => hanswer S₁ ht₁ h₁' hmt₁ rfl⟩
  simp only [setCommit, wp_bind, wp_modifyRaft, wp_emit]
  set k := min m.commit (m.index + m.entries.length)
  have hjust : Justified b₁.a i S₁.store k :=
    hag₁.justified b₁.inv (by rw [hT₁]; exact happ₁.lead) (by rw [hT₁]; exact happ₁.commit)
  have hmono : S₁.node.r.commit ≤ k := by
    rw [hn₁]
    exact le_min (Nat.le_of_lt hgt) (hge.trans (Nat.le_add_right _ _))
  have h₂ := h₁'.advanceCommit hst₁ hjust hmono
  let S₂ : Sys σ := { S₁ with node := { S₁.node with r := { S₁.node.r with commit := k } } }
  exact hanswer _ (Tr.emit (S := S₂) (e := .commit k) ht₁ (h₂.toHeld.shown trivial)) h₂ hmt₁ rfl

end

theorem handleAppend_spec (hm : MsgOK b m) (hty : m.type = .app)
    (hterm : m.term = S.node.r.term) (ht : Tr md i pos b₀ b S)
    (h : Sound md b i pos S.node S.store) :
    Wp (handleAppend (G.cfg i) m) (fun _ => Ends md i pos b₀ b) (Stops md i pos b₀) S := by
  simp only [handleAppend, wp_bind, wp_getRaft]
  refine Wp.imp (follow_spec ht h hterm) ?_
  rintro _ S₁ ⟨b₁, hg₁, ht₁, h₁, hf⟩
  have happ : AppOK b₁ m := by
    have := (hm.of_later hg₁.later).body
    rwa [BodyOK, hty] at this
  simp only [wp_modifyRaft]
  have h₂ := h₁.retime m.fromId 0 S₁.node.r.timeout S₁.node.r.rng
  let S₂ : Sys σ :=
    { S₁ with node := { S₁.node with r := { S₁.node.r with lead := m.fromId, elapsed := 0 } } }
  have ht₂ : Tr md i pos b₀ b₁ S₂ := ht₁
  have hmt : m.term = S₂.node.r.term := hterm.trans hf.term.symm
  -- every branch ends in one answer
  suffices hgoal : Wp _ (fun _ => Ends md i pos b₀ b₁) (Stops md i pos b₀) S₂ from
    hgoal.imp fun _ _ he => he.grow hg₁
  rw [wp_ite]
  refine ⟨fun _ => ?_, fun hge => ?_⟩
  · exact answerAppend_spec happ hmt ht₂ h₂ (fun _ => Or.inr h₂.toHeld.below_commit) (by simp)
  have hge : S₂.node.r.commit ≤ m.index := Nat.le_of_not_lt hge
  simp only [wp_bind, wp_getStore]
  rw [wp_ite]
  refine ⟨fun hgt => ?_, fun hle => ?_⟩
  · have hprev := happ.prev.le_length
    exact answerAppend_spec happ hmt ht₂ h₂ (by simp) fun _ => by omega
  have hle : m.index ≤ (b₁.a.log i).length := by
    rw [← h₂.dur.lastIndex]
    exact Nat.le_of_not_lt hle
  have hsnap : S₂.store.snapIdx ≤ m.index := h₂.snap_commit.trans hge
  obtain ⟨t, htm, -, hlog⟩ := h₂.dur.termOf hsnap hle
  rw [wp_bind, wp_termAt (S := S₂) htm, wp_ite]
  refine ⟨fun _ => refuseAppend_spec happ hmt ht₂ h₂ hle, fun heq => ?_⟩
  obtain rfl : t = m.logTerm := not_not.mp heq
  refine acceptAppend_spec happ hmt ht₂ h₂ hf.state hge ?_
  have hT : b₁.a.term i = m.term := h₂.toHeld.term_eq.trans hmt.symm
  rcases Nat.eq_or_lt_of_le hsnap with hEq | hlt
  · exact ⟨hle, by rw [hT]; exact happ.prev.le_length, fun j h1 h2 => by omega⟩
  · exact Agree.of_term b₁.inv (hlog hlt) (by rw [hT]; exact happ.prev)

/-! ## Snapshots. -/

/-- The condition on a step that delivers `m`: if it completes a snapshot transfer that is installed
inside the log, the node's own entry at the snapshot's index has the snapshot's term. -/
def CleanInstall (n : Node σ) (s : MemStore) (m : Message) : Prop :=
  m.type = .snap → n.r.term ≤ m.term → n.r.commit < m.index → m.done = true →
    (m.offset = 0 ∨
      ∃ x, n.r.snapIn = some x ∧ x.index = m.index ∧ m.offset = x.data.length) →
    m.index < s.lastIndex → s.termOf m.index = .ok m.logTerm

/-- Two certificates for one index name one term. -/
theorem Certified.unique {a : Abstract} (hinv : Inv G.params a) {T T' k t t' : ℕ}
    (h : Certified a T k t) (h' : Certified a T' k t') : t = t' := by
  obtain ⟨U, n, hc, -, h1, hk, ht⟩ := h
  obtain ⟨U', n', hc', -, -, hk', ht'⟩ := h'
  have hag := hinv.commit_agree hc hc' (j := k - 1) (by omega) (by omega)
  rcases ht with ⟨h0, -⟩ | ⟨-, e, he, rfl⟩
  · omega
  rcases ht' with ⟨h0, -⟩ | ⟨-, e', he', rfl⟩
  · omega
  rw [he, he'] at hag
  rw [Option.some.inj hag]

/-- The abstract side of an installed snapshot, and the store it leaves. -/
theorem install_history (h : Sound md b i pos n s) {x : SnapTransfer}
    (hgt : n.r.commit < x.index) (hcert : Certified b.a (b.a.term i) x.index x.term)
    (hclean : md.clean → x.index < (b.a.log i).length → HasTerm (b.a.log i) x.index x.term) :
    ∃ b', Grow i b b' ∧ b'.a.term i = b.a.term i ∧
      Dur md.clean b'.a i (s.compact x.index x.term x.data) ∧
      Justified b'.a i (s.compact x.index x.term x.data) pos ∧
      b'.rounds = b.rounds ∧ b'.epoch = b.epoch ∧ b'.birth = b.birth := by
  have hk : s.snapIdx < x.index := h.snap_commit.trans_lt hgt
  obtain ⟨U, m, hc, hU, h1, hkm, ht⟩ := id hcert
  rcases Nat.lt_or_ge x.index (b.a.log i).length with hlt | hge
  · -- inside the log: the entries beyond it stay
    refine ⟨b, Grow.refl i b, rfl, ?_, h.pos.compact hk, rfl, rfl, rfl⟩
    exact h.dur.compact hk hlt.le hcert (fun heq => by omega) fun hcl => hclean hcl hlt
  · have hstep : TermLog.Step G.params i b.a (b.a.setLog i ((b.a.llog U).take x.index)) :=
      .adopt b.a U m x.index hc hU hkm hge
    refine ⟨b.step hstep b.idx, b.step_grow hstep b.idx, rfl, ?_, ?_, rfl, rfl, rfl⟩
    · exact h.dur.adopt b.inv hk hge hc hU hkm ht
    · exact h.pos.adopt h.dur hk hge

theorem ReadsOK.of_history (h : ReadsOK md b i n) (hr : b'.rounds = b.rounds)
    (he : b'.epoch = b.epoch) (hb : b'.birth = b.birth) : ReadsOK md b' i n where
  opened := by rw [hr, he]; exact h.opened
  ready := by rw [hr, he]; exact h.ready
  queued := by rw [hr, he, hb]; exact h.queued
  waiting rd hrd := ⟨(h.waiting rd hrd).1, fun hf K hK => (h.waiting rd hrd).2 hf K (hb ▸ hK)⟩
  asked := h.asked
  births := by rw [hb]; exact h.births

theorem installSnapshot_spec {src : NodeID} {x : SnapTransfer} (ht : Tr md i pos b₀ b S)
    (h : Sound md b i pos S.node S.store) (hst : S.node.r.state = .follower)
    (hgt : S.node.r.commit < x.index) (hcert : Certified b.a (b.a.term i) x.index x.term)
    (hclean : md.clean → x.index < (b.a.log i).length → HasTerm (b.a.log i) x.index x.term) :
    Wp (installSnapshot (G.cfg i) src x) (fun _ => Ends md i pos b₀ b) (Stops md i pos b₀)
      S := by
  obtain ⟨b₁, hg, hT, hdur, hpos, hrounds, hepoch, hbirth⟩ := install_history h hgt hcert hclean
  have hk : S.store.snapIdx < x.index := h.snap_commit.trans_lt hgt
  have hcompact : S.store.compact x.index x.term x.data = _ := S.store.compact_eq hk
  -- the node with whatever commit index up to the snapshot's
  have hheld : ∀ r' : Raft, r'.term = S.node.r.term → r'.vote = S.node.r.vote →
      r'.state = .follower → r'.reads = S.node.r.reads → r'.ready = S.node.r.ready →
      r'.nextReadID = S.node.r.nextReadID → r'.snapIn = none → r'.commit ≤ x.index →
      S.node.r.commit ≤ r'.commit →
      Held md b₁ i pos { S.node with r := r' } (S.store.compact x.index x.term x.data) := by
    intro r' h1 h2 h3 h4 h5 h6 h7 h8 h9
    have hidle : ∀ id, r'.reads id = none := by
      rw [h4]
      exact h.role.idle (by rw [hst]; simp)
    exact
      { h with
        dur := hdur
        term := by rw [hcompact]; exact h1.trans h.term
        vote := by rw [hcompact]; exact h2.trans h.vote
        commit := by rw [hcompact]; exact Or.inl h8
        pos := hpos
        applied := h.applied.trans h9
        snapIn := fun y hy => by
          change r'.snapIn = some y at hy
          rw [h7] at hy
          cases hy
        pending := fun k p hp =>
          ⟨(h.pending k p hp).1, (h.pending k p hp).2.of_le hg.le⟩
        reads := (h.reads.of_history hrounds hepoch hbirth).close r' h5 h6 hidle
        role := Role.of_idle h3 hidle }
  simp only [installSnapshot, compactStore, setCommit, wp_bind, wp_modifyRaft, wp_modify, wp_emit]
  have hheld₁ := hheld { S.node.r with snapIn := none } rfl rfl hst rfl rfl rfl rfl hgt.le le_rfl
  have hheld₂ := hheld { S.node.r with snapIn := none, commit := x.index } rfl rfl hst rfl rfl rfl rfl
    le_rfl hgt.le
  have hheld₃ := hheld { S.node.r with snapIn := none, commit := x.index, restored := some x }
    rfl rfl hst rfl rfl rfl rfl le_rfl hgt.le
  let S₁ : Sys σ :=
    { S with
      node := { S.node with r := { S.node.r with snapIn := none } }
      store := S.store.compact x.index x.term x.data }
  have ht₁ : Tr md i pos b₀ b₁ S₁ := ht.grow hg
  have ht₂ := ht₁.emit (e := .compact x.index x.term x.data) (hheld₁.shown trivial)
  let S₂ : Sys σ :=
    { S₁ with
      node := { S.node with r := { S.node.r with snapIn := none, commit := x.index } }
      trace := S.trace ++ [⟨.compact x.index x.term x.data, S₁.node, S₁.store⟩] }
  have ht₃ := Tr.emit (S := S₂) (e := .commit x.index) ht₂ (hheld₂.shown trivial)
  let S₃ : Sys σ :=
    { S₂ with
      node := { S.node with
        r := { S.node.r with snapIn := none, commit := x.index, restored := some x } }
      trace := S₂.trace ++ [⟨.commit x.index, S₂.node, S₂.store⟩] }
  have ht₄ : Tr md i pos b₀ b₁ S₃ := ht₃
  have h₃ : Sound md b₁ i pos S₃.node S₃.store :=
    { toHeld := hheld₃
      whole := fun hl => by
        rw [show S₃.node.r.state = .follower from hst] at hl
        cases hl
      snap_commit := by
        show (S.store.compact x.index x.term x.data).snapIdx ≤ x.index
        rw [hcompact]
      cover := Or.inr ⟨x, rfl, by
        show (S.store.compact x.index x.term x.data).snapIdx ≤ x.index
        rw [hcompact]⟩
      restored := fun y hy => by
        obtain rfl : x = y := Option.some.inj hy
        exact le_rfl }
  refine (send_ends (S := S₃) ht₄ h₃ ?_).imp fun _ _ he => he.grow hg
  intro _
  have hbelow := (hcert.of_le hg.le).below
  rw [h.toHeld.term_eq] at hbelow
  exact hbelow

/-- The snapshot being received is a certified one. -/
theorem Sound.receiving (h : Sound md b i pos n s) {x : SnapTransfer}
    (hx : Certified b.a (b.a.term i) x.index x.term) :
    Sound md b i pos { n with r := { n.r with snapIn := some x } } s :=
  { h with
    snapIn := fun y hy => by
      obtain rfl : x = y := Option.some.inj hy
      exact hx
    reads := { h.reads with }
    role := h.role.congr rfl rfl rfl rfl rfl rfl rfl rfl rfl }

theorem receiveChunk_spec {inc : Option SnapTransfer} (ht : Tr md i pos b₀ b S)
    (h : Sound md b i pos S.node S.store) (hst : S.node.r.state = .follower)
    (hgt : S.node.r.commit < m.index)
    (hcert : ∀ x, inc = some x → Certified b.a (b.a.term i) x.index x.term)
    (hclean : md.clean → m.done = true →
      (∃ x, inc = some x ∧ x.index = m.index ∧ m.offset = x.data.length) →
      m.index < (b.a.log i).length → ∀ x, inc = some x → HasTerm (b.a.log i) m.index x.term) :
    Wp (receiveChunk (G.cfg i) m inc) (fun _ => Ends md i pos b₀ b) (Stops md i pos b₀) S := by
  cases inc with
  | none =>
    refine send_ends ht h ?_
    exact fun hd => by cases hd
  | some x =>
    simp only [receiveChunk]
    rw [wp_ite]
    refine ⟨fun _ => ?_, fun hok => ?_⟩
    · refine send_ends ht h ?_
      exact fun hd => by cases hd
    · rw [not_or, not_not, not_not] at hok
      obtain ⟨hidx, hoff⟩ := hok
      have hx := hcert x rfl
      rw [wp_ite]
      refine ⟨fun hdone => ?_, fun _ => ?_⟩
      · refine installSnapshot_spec ht h hst (by rw [hidx]; exact hgt) hx fun hcl hlt => ?_
        have := hclean hcl hdone ⟨x, rfl, hidx, hoff⟩ (hidx ▸ hlt) x rfl
        rwa [← hidx] at this
      · simp only [wp_bind, wp_modifyRaft]
        let x' := { x with data := x.data ++ m.data }
        let S₁ : Sys σ := { S with node := { S.node with r := { S.node.r with snapIn := some x' } } }
        refine send_ends (S := S₁) ht (h.receiving hx) ?_
        exact fun hd => by cases hd

theorem handleSnapshot_spec (hm : MsgOK b m) (hty : m.type = .snap)
    (hterm : m.term = S.node.r.term) (ht : Tr md i pos b₀ b S)
    (h : Sound md b i pos S.node S.store) (hclean : md.clean → CleanInstall S.node S.store m) :
    Wp (handleSnapshot (G.cfg i) m) (fun _ => Ends md i pos b₀ b) (Stops md i pos b₀) S := by
  simp only [handleSnapshot, wp_bind, wp_getRaft]
  refine Wp.imp (follow_spec ht h hterm) ?_
  rintro _ S₁ ⟨b₁, hg₁, ht₁, h₁, hf⟩
  have hmT : m.term = S₁.node.r.term := hterm.trans hf.term.symm
  have hcm : Certified b₁.a (b₁.a.term i) m.index m.logTerm := by
    have := (hm.of_later hg₁.later).body
    rw [BodyOK, hty] at this
    rw [h₁.toHeld.term_eq, ← hmT]
    exact this
  -- the log the step began with is the log it installs over
  have hlast : S₁.store.lastIndex = S.store.lastIndex := by
    obtain ⟨t, v, hs⟩ := hf.store
    rw [hs]
    rfl
  have htermOf : ∀ k, S₁.store.termOf k = S.store.termOf k := by
    obtain ⟨t, v, hs⟩ := hf.store
    intro k
    rw [hs]
    rfl
  have hown : md.clean → m.done = true → S₁.node.r.commit < m.index →
      (m.offset = 0 ∨ ∃ x, S.node.r.snapIn = some x ∧ x.index = m.index ∧ m.offset = x.data.length) →
      m.index < (b₁.a.log i).length → HasTerm (b₁.a.log i) m.index m.logTerm := by
    intro hcl hdone hgt hplace hlt
    have hget := hclean hcl hty hterm.ge (hf.commit ▸ hgt) hdone hplace
      (by rw [← hlast, h₁.dur.lastIndex]; exact hlt)
    have hsnap := h₁.snap_commit.trans_lt hgt
    obtain ⟨t, ht', -, hlog⟩ := h₁.dur.termOf hsnap.le hlt.le
    rw [htermOf, hget] at ht'
    cases ht'
    exact hlog hsnap
  simp only [wp_modifyRaft]
  have h₂ := h₁.retime m.fromId 0 S₁.node.r.timeout S₁.node.r.rng
  let S₂ : Sys σ :=
    { S₁ with node := { S₁.node with r := { S₁.node.r with lead := m.fromId, elapsed := 0 } } }
  have ht₂ : Tr md i pos b₀ b₁ S₂ := ht₁
  suffices hgoal : Wp _ (fun _ => Ends md i pos b₀ b₁) (Stops md i pos b₀) S₂ from
    hgoal.imp fun _ _ he => he.grow hg₁
  rw [wp_ite]
  refine ⟨fun _ => ?_, fun hgt => ?_⟩
  · refine send_ends ht₂ h₂ ?_
    exact fun _ => h₂.toHeld.below_commit
  have hgt : S₁.node.r.commit < m.index := Nat.lt_of_not_le hgt
  rw [wp_ite]
  refine ⟨fun hoff => ?_, fun hoff => ?_⟩
  · -- the first chunk starts a new transfer
    simp only [wp_bind, wp_modifyRaft]
    let fresh : SnapTransfer := { index := m.index, term := m.logTerm }
    let S₃ : Sys σ := { S₂ with node := { S₂.node with r := { S₂.node.r with snapIn := some fresh } } }
    refine receiveChunk_spec (S := S₃) ht₂ (h₂.receiving hcm) hf.state hgt ?_ ?_
    · rintro x ⟨⟩
      exact hcm
    · rintro hcl hdone - hlt x ⟨⟩
      exact hown hcl hdone hgt (Or.inl hoff) hlt
  · refine receiveChunk_spec ht₂ h₂ hf.state hgt (fun x hx => h₁.snapIn x hx) ?_
    rintro hcl hdone ⟨x, hx, hidx, hlen⟩ hlt y hy
    obtain rfl : x = y := Option.some.inj (hx.symm.trans hy)
    have hx' : S₁.node.r.snapIn = some x := hx
    have := hown hcl hdone hgt (Or.inr ⟨x, hf.snapIn ▸ hx', hidx, hlen⟩) hlt
    have heq := (h₁.snapIn x hx').unique b₁.inv (hidx ▸ hcm)
    rwa [heq]

end Keystone.Raft
