/-
# Keystone.Raft.Appending — the leader commits, and appends to its own log.

* `maybeCommit` adds a commit point to the history.  What a majority of match indexes reached is
  CHOSEN, because an acknowledgement given blindly, below an earlier commit point, cannot reach an entry
  of the leader's own term beyond its commit index (`Leading.chosen`).
* `appendRecords_spec` — one lemma for both writers of a log, the leader and a follower: records that
  continue the agreement with the leader's log are copied one by one, and a crash between two of them
  leaves a justified store.
* `appendEntries` first EXTENDS the announced log, since the early messages already carry the new
  entries, and then copies it into the leader's own.
-/
import Keystone.Raft.Replication

namespace Keystone.Raft

open Keystone.Lib
open Keystone.Lib.TermLog (Inv Le lastTm Chosen getElem?_of_isPrefix getElem?_of_take_isPrefix
  length_of_getElem?)
open Function (update)

variable {σ : Type} {G : Group σ} {md : Mode} {b b' b₀ : History G} {i : NodeID} {pos : ℕ}
  {n : Node σ} {s : MemStore} {S S' : Sys σ}

/-! ## Committing. -/

/-- The index `maybeCommit` looks at is the match index of a peer. -/
theorem majorityIndex_mem {cfg : Config} {r : Raft} (h : 0 < majorityIndex cfg r) :
    ((cfg.peers.map r.matchIdx).insertionSort (· ≥ ·))[cfg.peers.length / 2]? =
      some (majorityIndex cfg r) := by
  unfold majorityIndex Config.quorum at h ⊢
  rw [Nat.add_sub_cancel] at h ⊢
  cases hx : ((cfg.peers.map r.matchIdx).insertionSort (· ≥ ·))[cfg.peers.length / 2]? with
  | none => simp [hx] at h
  | some x => simp

theorem Leading.majority_le {r : Raft} (hL : Leading b i r) (h : 0 < majorityIndex (G.cfg i) r) :
    majorityIndex (G.cfg i) r ≤ (b.a.llog r.term).length := by
  have hmem := List.mem_of_getElem? (majorityIndex_mem h)
  rw [(List.perm_insertionSort _ _).mem_iff] at hmem
  obtain ⟨p, -, hp⟩ := List.mem_map.mp hmem
  rw [← hp]
  exact (hL.acked p).le_length b.inv hL.office.lead

/-- A majority of match indexes beyond the commit index, at an entry of the leader's own term, is a
majority of REAL acknowledgements: a blind one lies below an earlier commit point. -/
theorem Leading.chosen {r : Raft} (hL : Leading b i r) {k : ℕ} (hk : majorityIndex (G.cfg i) r = k)
    (hc : r.commit < k) (hterm : HasTerm (b.a.llog r.term) k r.term) :
    Chosen G.params b.a r.term k := by
  have hk1 : 1 ≤ k := by omega
  obtain ⟨e, he, het⟩ : ∃ e, (b.a.llog r.term)[k - 1]? = some e ∧ e.term = r.term := by
    rcases hterm with ⟨h0, _⟩ | ⟨_, h⟩
    · omega
    · exact h
  have hmid := majorityIndex_mem (show 0 < majorityIndex (G.cfg i) r by omega)
  rw [G.cfg_peers, hk] at hmid
  refine ⟨hk1, ⟨e, he, het⟩, _, majority_sorted G.nodup r.matchIdx hmid, fun p hp => ?_⟩
  have hkp : k ≤ r.matchIdx p := (Finset.mem_filter.mp hp).2
  rcases hL.acked p with hack | h0 | ⟨U, m, hcm, hU, hm⟩
  · exact hkp.trans hack
  · omega
  · exfalso
    rcases Nat.lt_or_eq_of_le hU with hlt | rfl
    · have := b.inv.commit_lt_of_own_term hcm hL.office.lead hlt he het
      omega
    · have := hL.commit_max m hcm
      omega

theorem maybeCommit_spec (ht : Tr md i pos b₀ b S) (h : Sound md b i pos S.node S.store)
    (hl : S.node.r.state = .leader) :
    Wp (maybeCommit (G.cfg i))
      (fun _ S' => After md i pos b₀ b (fun b' S' => Sound md b' i pos S'.node S'.store ∧
        b'.a.llog = b.a.llog ∧ S'.store = S.store ∧
        ∃ c, S'.node = { S.node with r := { S.node.r with commit := c } }) S')
      (Stops md i pos b₀) S := by
  have hL := h.toHeld.leading hl
  have hdone : After md i pos b₀ b (fun b' S' => Sound md b' i pos S'.node S'.store ∧
      b'.a.llog = b.a.llog ∧ S'.store = S.store ∧
      ∃ c, S'.node = { S.node with r := { S.node.r with commit := c } }) S :=
    After.here ht ⟨h, rfl, rfl, S.node.r.commit, rfl⟩
  simp only [maybeCommit, wp_bind, wp_getRaft]
  set k := majorityIndex (G.cfg i) S.node.r with hk
  rw [wp_ite]
  refine ⟨fun _ => hdone, fun hgt => ?_⟩
  have hsnap := h.snap_commit
  obtain ⟨t, hterm, hhas⟩ := h.termOf hl (k := k) (by omega) (hL.majority_le (by omega))
  rw [wp_bind, wp_termAt hterm, wp_ite]
  refine ⟨fun _ => hdone, fun heq => ?_⟩
  obtain rfl : t = S.node.r.term := not_not.mp heq
  simp only [setCommit, wp_bind, wp_modifyRaft, wp_emit, wp_pure]
  -- the abstract leader commits the same point
  have hT := h.toHeld.term_eq
  have hstep : TermLog.Step G.params i b.a (b.a.commit i k) := by
    refine .commit b.a k (by rw [hT]; exact hL.office.lead) ?_
    rw [hT]
    exact hL.chosen hk.symm (by omega) hhas
  set b₁ := b.step hstep b.idx with hb₁
  have hg : Grow i b b₁ := b.step_grow hstep b.idx
  have hle := hg.le
  have hcm : (S.node.r.term, k) ∈ b₁.a.commits := hT ▸ Set.mem_insert _ _
  have hlen : k ≤ (b.a.log i).length := by rw [h.whole hl]; exact hhas.le_length
  have h₁ : Sound md b₁ i pos { S.node with r := { S.node.r with commit := k } } S.store := by
    have hheld : Held md b₁ i pos { S.node with r := { S.node.r with commit := k } } S.store :=
      { h with
        dur := h.dur.of_le hle rfl rfl rfl
        commit := Or.inr ⟨_, k, hcm, hT.ge, le_rfl, hlen, fun j _ _ => by
          show (b.a.log i)[j]? = (b.a.llog S.node.r.term)[j]?
          rw [h.whole hl]⟩
        pos := h.pos.of_le b.inv hle rfl rfl
        applied := by
          have := h.applied
          show S.node.applied ≤ k
          omega
        snapIn := fun x hx => (h.snapIn x hx).of_le hle
        pending := fun p q hq => ⟨(h.pending p q hq).1, (h.pending p q hq).2.of_le hle⟩
        reads := { h.reads with }
        role := Role.of_leading hl
          { office := hL.office.of_le hle rfl
            commit_max := fun m hm => by
              show m ≤ k
              rcases hm with hm | hm
              · rw [(Prod.mk.inj hm).2]
              · have := hL.commit_max m hm
                omega
            acked := fun q => (hL.acked q).of_le hle
            next := hL.next
            snapOut := fun q x hx => (hL.snapOut q x hx).of_le hle
            rounds := hL.rounds } }
    exact
      { toHeld := hheld
        whole := h.whole
        snap_commit := by show S.store.snapIdx ≤ k; omega
        cover := h.cover
        restored := fun x hx => by
          have := h.restored x hx
          show x.index ≤ k
          omega }
  let S₁ : Sys σ := { S with node := { S.node with r := { S.node.r with commit := k } } }
  have ht₁ : Tr md i pos b₀ b₁ S₁ := ht.grow hg
  exact ⟨b₁, hg, ht₁.emit (h₁.toHeld.shown trivial), h₁, rfl, rfl, k, rfl⟩

/-! ## Writing records. -/

/-- A leader that copies its own announced log stays in office. -/
theorem InOffice.accept {a : Abstract} {P : TermLog.Params NodeID Entry} (hinv : Inv P a) {k : ℕ}
    (h : InOffice a i (a.term i))
    (hd : ∀ e e', (a.log i)[k]? = some e → (a.llog (a.term i))[k]? = some e' → e.term ≠ e'.term) :
    InOffice (accepted a i k) i (a.term i) where
  lead := h.lead
  base := by
    rw [accepted_log]
    have hlen : (a.log i).length ≤ k := by
      by_contra hlt
      have hg := List.getElem?_eq_getElem (l := a.log i) (i := k) (by omega)
      exact hd _ _ hg (getElem?_of_isPrefix h.log hg) rfl
    refine List.prefix_of_prefix_length_le (hinv.base_llog _) (List.take_prefix _ _) ?_
    have := h.base.length_le
    have := (hinv.base_llog (a.term i)).length_le
    rw [List.length_take]
    show (a.base (a.term i)).length ≤ _
    omega
  log := by
    rw [accepted_log]
    exact List.take_prefix _ _

/-- The abstract action of one record. -/
theorem accept_step {k : ℕ} {e : Entry} (he : (b.a.llog (b.a.term i))[k]? = some e)
    (hd : ∀ e e', (b.a.log i)[k]? = some e → (b.a.llog (b.a.term i))[k]? = some e' →
      e.term ≠ e'.term) : TermLog.Step G.params i b.a (accepted b.a i k) :=
  .accept b.a k (length_of_getElem? he) hd

theorem Held.accept {k : ℕ} {e : Entry} (h : Held md b i pos n s) (hst : n.r.state ≠ .candidate)
    (hsnap : s.snapIdx ≤ k) (hag : Agree b.a i s (b.a.term i) k)
    (he : (b.a.llog (b.a.term i))[k]? = some e)
    (hd : ∀ e e', (b.a.log i)[k]? = some e → (b.a.llog (b.a.term i))[k]? = some e' →
      e.term ≠ e'.term) :
    Held md (b.step (accept_step he hd) b.idx) i pos n (s.appendOne e) :=
  { h with
    dur := h.dur.accept b.inv hsnap hag he (b.idx _ _ _ he)
    term := by rw [MemStore.appendOne_eq]; exact h.term
    vote := by rw [MemStore.appendOne_eq]; exact h.vote
    commit := h.commit.accept b.inv hsnap he hd
    pos := h.pos.accept b.inv hsnap he hd
    reads := { h.reads with }
    role := by
      have hrole := h.role
      unfold Role at hrole ⊢
      split at hrole
      · exact hrole
      · next hc => exact absurd hc hst
      · have hoff := hrole.office
        rw [← h.term_eq] at hoff
        have hoff' := hoff.accept b.inv hd
        rw [h.term_eq] at hoff'
        exact ⟨hoff', hrole.commit_max, hrole.acked, hrole.next, hrole.snapOut, hrole.rounds⟩ }

/-- The records `es` of the leader's log have been written behind index `k`. -/
structure Wrote (md : Mode) (b : History G) (i : NodeID) (pos k : ℕ) (es : List Entry) (S : Sys σ)
    (b' : History G) (S' : Sys σ) : Prop where
  held : Held md b' i pos S'.node S'.store
  node : S'.node = S.node
  snapIdx : S'.store.snapIdx = S.store.snapIdx
  llog : b'.a.llog = b.a.llog
  term : b'.a.term i = b.a.term i
  agree : Agree b'.a i S'.store (b.a.term i) (k + es.length)
  length : es ≠ [] → (b'.a.log i).length = k + es.length
  log : es = [] → b'.a.log i = b.a.log i

section Records

variable {R : Panic → Sys σ → Prop} {es : List Entry} {k : ℕ}
  (ht : Tr md i pos b₀ b S) (h : Held md b i pos S.node S.store)
  (hst : S.node.r.state ≠ .candidate) (hsnap : S.store.snapIdx ≤ k)
  (hag : Agree b.a i S.store (b.a.term i) k)
  (hes : ∀ j e, es[j]? = some e → (b.a.llog (b.a.term i))[k + j]? = some e)
  (hd : ∀ e e', (b.a.log i)[k]? = some e → (b.a.llog (b.a.term i))[k]? = some e' → e.term ≠ e'.term)

include ht h hst hsnap hag hes hd

/-- Records that continue the agreement with the leader's log, written one by one. -/
theorem appendRecords_spec :
    Wp (es.forM appendRecord) (fun _ => After md i pos b₀ b (Wrote md b i pos k es S)) R S := by
  induction es generalizing b k S with
  | nil =>
    refine wp_pure.mpr (After.here ht ?_)
    exact ⟨h, rfl, rfl, rfl, rfl, hag, fun hne => absurd rfl hne, fun _ => rfl⟩
  | cons e es ih =>
    have he : (b.a.llog (b.a.term i))[k]? = some e := hes 0 e rfl
    have hstep := accept_step (b := b) he hd
    set b₁ := b.step hstep b.idx with hb₁
    have h₁ : Held md b₁ i pos S.node (S.store.appendOne e) := h.accept hst hsnap hag he hd
    have hg : Grow i b b₁ := b.step_grow hstep b.idx
    have hcons : (e :: es).forM appendRecord =
        ((appendRecord e : M σ Unit) >>= fun _ => es.forM appendRecord) := rfl
    rw [hcons]
    simp only [appendRecord, wp_bind, wp_modify, wp_emit]
    let S₁ : Sys σ := { S with store := S.store.appendOne e }
    have ht₁ : Tr md i pos b₀ b₁ S₁ := ht.grow hg
    have hlog : b₁.a.log i = (b.a.llog (b.a.term i)).take (k + 1) := accepted_log b.a i k
    have hlen : (b₁.a.log i).length = k + 1 := by
      have := length_of_getElem? he
      rw [hlog, List.length_take]
      omega
    have hsnap₁ : (S.store.appendOne e).snapIdx ≤ k + 1 := by
      rw [MemStore.appendOne_snapIdx]
      omega
    -- the record goes behind everything committed, and the log now ends with it
    have hidx : e.index = k + 1 := b.idx _ _ _ he
    have hcommit : S.node.r.commit ≤ k := h.commit.le_of_differs b.inv hsnap he hd
    have hpoint : EffectOK md b₁ i S.node (S.store.appendOne e) (.append e) :=
      ⟨by omega, by rw [hidx, ← hlen, h₁.dur.lastIndex]⟩
    refine (ih (k := k + 1) (ht₁.emit (h₁.shown hpoint)) h₁ hst hsnap₁ (Agree.accept he) ?_ ?_).imp ?_
    · intro j f hf
      have := hes (j + 1) f hf
      rwa [show k + (j + 1) = k + 1 + j by omega] at this
    · -- the log ends where the next record goes
      intro f f' hf
      rw [List.getElem?_eq_none hlen.le] at hf
      cases hf
    · rintro _ S' ⟨b', hg', ht', hheld, hn, hsi, hll, htm, hag', hne, hnil⟩
      refine ⟨b', hg.trans hg', ht', hheld, hn, ?_, hll, htm, ?_, fun _ => ?_, fun hc => by cases hc⟩
      · rw [hsi]
        exact MemStore.appendOne_snapIdx _ _
      · rwa [List.length_cons, show k + (es.length + 1) = k + 1 + es.length by omega]
      · rw [List.length_cons]
        by_cases hes' : es = []
        · rw [hnil hes', hlen, hes']
          rfl
        · rw [hne hes']
          omega

/-- `Append` of such records is not refused. -/
theorem appendStore_spec :
    Wp (appendStore es) (fun _ => After md i pos b₀ b (Wrote md b i pos k es S)) R S := by
  have hok : ∃ s', S.store.append es = .ok s' := by
    cases es with
    | nil => exact ⟨_, rfl⟩
    | cons e es =>
      have hidx := b.idx _ _ _ (hes 0 e rfl)
      have := hag.1
      exact ⟨_, if_neg (by rw [h.dur.lastIndex]; omega)⟩
  obtain ⟨s', hs'⟩ := hok
  simp only [appendStore, wp_bind, wp_getStore, hs']
  exact appendRecords_spec ht h hst hsnap hag hes hd

end Records

/-! ## Appending as a leader. -/

theorem stamp_length (last term : ℕ) (es : List Entry) : (stamp last term es).length = es.length := by
  induction es generalizing last with
  | nil => rfl
  | cons e es ih => simp [stamp, ih]

theorem stamp_getElem? (last term : ℕ) (es : List Entry) (j : ℕ) :
    (stamp last term es)[j]? =
      (es[j]?).map fun e => { e with index := last + j + 1, term := term } := by
  induction es generalizing last j with
  | nil => simp [stamp]
  | cons e es ih =>
    cases j with
    | zero => simp [stamp]
    | succ j =>
      simp only [stamp, List.getElem?_cons_succ, ih]
      rw [show last + 1 + j = last + (j + 1) by omega]

theorem stamp_term {last term : ℕ} {es : List Entry} {e : Entry} (he : e ∈ stamp last term es) :
    e.term = term := by
  obtain ⟨j, hj⟩ := List.getElem?_of_mem he
  rw [stamp_getElem?] at hj
  obtain ⟨f, -, rfl⟩ := Option.map_eq_some_iff.mp hj
  rfl

/-- A leader's new entries continue its announced log. -/
theorem extend_step (hL : b.a.leader (b.a.term i) = some i) (es : List Entry) :
    TermLog.Step G.params i b.a
      (b.a.extend i (stamp (b.a.llog (b.a.term i)).length (b.a.term i) es)) :=
  .extend b.a _ hL fun _ he => stamp_term he

theorem indexed_extend (b : History G) (i : NodeID) (es : List Entry) :
    Indexed (b.a.extend i (stamp (b.a.llog (b.a.term i)).length (b.a.term i) es)) := by
  intro T j e he
  by_cases hT : T = b.a.term i
  · subst hT
    simp only [TermLog.State.extend, Function.update_self] at he
    rcases Nat.lt_or_ge j (b.a.llog (b.a.term i)).length with hlt | hge
    · rw [List.getElem?_append_left hlt] at he
      exact b.idx _ _ _ he
    · rw [List.getElem?_append_right hge, stamp_getElem?] at he
      obtain ⟨f, -, rfl⟩ := Option.map_eq_some_iff.mp he
      show (b.a.llog (b.a.term i)).length + (j - (b.a.llog (b.a.term i)).length) + 1 = j + 1
      omega
  · simp only [TermLog.State.extend, Function.update_of_ne hT] at he
    exact b.idx T j e he

theorem Held.books (h : Held md b i pos n s) (hl : n.r.state = .leader) (next : NodeID → ℕ)
    (hnext : ∀ q ∈ G.peers, 1 ≤ next q ∧ next q ≤ (b.a.llog n.r.term).length + 1) :
    Held md b i pos { n with r := { n.r with next := next } } s := by
  have hL := h.leading hl
  refine h.setRaft ⟨rfl, rfl, rfl, fun _ _ h => h, rfl, rfl, rfl, rfl⟩ (Role.of_leading hl ?_)
  exact ⟨hL.office, hL.commit_max, hL.acked, hnext, hL.snapOut, hL.rounds⟩

/-- The early messages carry entries the leader has announced but not yet written. -/
theorem shipEarly_spec {R : Panic → Sys σ → Prop} {last prevTerm : ℕ} {entries : List Entry}
    {early ps : List NodeID} (ht : Tr md i pos b₀ b S) (h : Held md b i pos S.node S.store)
    (hl : S.node.r.state = .leader) (hprev : HasTerm (b.a.llog S.node.r.term) last prevTerm)
    (hent : entries <+: (b.a.llog S.node.r.term).drop last) :
    Wp (shipEarly (G.cfg i) last prevTerm entries early ps)
      (fun _ S' => Tr md i pos b₀ b S' ∧ Held md b i pos S'.node S'.store ∧ Moved S S') R S := by
  induction ps generalizing early S with
  | nil => exact wp_pure.mpr ⟨ht, h, Moved.refl S⟩
  | cons p ps ih =>
    simp only [shipEarly, wp_bind, wp_getRaft]
    rw [wp_ite]
    refine ⟨fun _ => ih ht h hl hprev hent, fun _ => ?_⟩
    have hL := h.leading hl
    have hlen := hent.length_le
    rw [List.length_drop] at hlen
    have hlast := hprev.le_length
    set next := update S.node.r.next p (last + 1 + entries.length) with hnext
    have h₁ := h.books hl next (by
      intro q hq
      by_cases hqp : q = p
      · subst hqp
        rw [hnext, Function.update_self]
        omega
      · rw [hnext, Function.update_of_ne hqp]
        exact hL.next q hq)
    let S₁ : Sys σ := { S with node := { S.node with r := { S.node.r with next := next } } }
    simp only [wp_bind, wp_modifyRaft]
    refine (send_spec (S := S₁) ht h₁ ?_).imp ?_
    · exact ⟨hL.office.lead, hprev, hent, h.below_commit, fun h0 => absurd rfl h0⟩
    · rintro _ S₂ ⟨ht₂, hn, hs⟩
      have hm : Moved S S₂ := ⟨hs, next, S.node.r.snapOut, hn⟩
      refine (ih ht₂ (by rw [hn, hs]; exact h₁) (hm.state.trans hl) (by rw [hm.term]; exact hprev)
        (by rw [hm.term]; exact hent)).imp ?_
      rintro _ S' ⟨ht', h', hm'⟩
      exact ⟨ht', h', hm.trans hm'⟩

/-- Counting its own copy, a leader has its whole announced log acknowledged. -/
theorem Sound.ownMatch (h : Held md b i pos n s) (hl : n.r.state = .leader)
    (hwhole : b.a.log i = b.a.llog n.r.term) (hsnap : s.snapIdx ≤ n.r.commit)
    (hcover : s.snapIdx ≤ n.applied ∨ ∃ x, n.r.restored = some x ∧ s.snapIdx ≤ x.index)
    (hrest : ∀ x, n.r.restored = some x → x.index ≤ n.r.commit) :
    ∃ b', Grow i b b' ∧ b'.a.llog = b.a.llog ∧
      Sound md b' i pos
        { n with r := { n.r with
          matchIdx := update n.r.matchIdx i (b.a.llog n.r.term).length } } s := by
  have hT := h.term_eq
  have hstep : TermLog.Step G.params i b.a (b.a.acknowledge i (b.a.llog n.r.term).length) := by
    refine .acknowledge b.a _ (by rw [hT]) ?_
    rw [hT, List.take_length, hwhole]
  set b₁ := b.step hstep b.idx with hb₁
  have hg : Grow i b b₁ := b.step_grow hstep b.idx
  have hstill : Still i b b₁ :=
    ⟨hg.later, rfl, rfl, fun _ h => h, fun _ _ _ h => h, fun _ _ _ => rfl, rfl, fun _ => rfl⟩
  have h₁ : Sound md b₁ i pos n s :=
    { toHeld := h.still hstill rfl
      whole := fun _ => hwhole
      snap_commit := hsnap
      cover := hcover
      restored := hrest }
  have hL := h₁.toHeld.leading hl
  refine ⟨b₁, hg, rfl,
    h₁.setRaft ⟨rfl, rfl, rfl, fun _ _ h => h, rfl, rfl, rfl, rfl⟩ (Role.of_leading hl ?_) id⟩
  refine ⟨hL.office, hL.commit_max, fun q => ?_, hL.next, hL.snapOut, hL.rounds⟩
  show Acked b₁.a q n.r.term (update n.r.matchIdx i (b.a.llog n.r.term).length q)
  by_cases hq : q = i
  · subst hq
    rw [Function.update_self]
    left
    show _ ≤ (b.a.acknowledge q (b.a.llog n.r.term).length).ack q n.r.term
    rw [← hT]
    simp only [TermLog.State.acknowledge, Function.update_self]
    exact le_max_left _ _
  · rw [Function.update_of_ne hq]
    exact hL.acked q

theorem appendEntries_spec (es : List Entry) (ht : Tr md i pos b₀ b S)
    (h : Sound md b i pos S.node S.store) (hl : S.node.r.state = .leader) :
    Wp (appendEntries (G.cfg i) es)
      (fun first S' => After md i pos b₀ b (fun b' S' => Sound md b' i pos S'.node S'.store ∧
        first = (b.a.llog S.node.r.term).length + 1 ∧
        b'.a.llog S.node.r.term = b.a.llog S.node.r.term ++
          stamp (b.a.llog S.node.r.term).length S.node.r.term es ∧
        ∃ r', S'.node = { S.node with r := r' } ∧ r'.term = S.node.r.term ∧ r'.state = .leader) S')
      (Stops md i pos b₀) S := by
  have hT := h.toHeld.term_eq
  have hlead := (h.toHeld.leading hl).office.lead
  have hlast : S.store.lastIndex = (b.a.llog S.node.r.term).length := by
    rw [h.dur.lastIndex, h.whole hl]
  set L := b.a.llog S.node.r.term with hLdef
  set entries := stamp L.length S.node.r.term es with hent
  -- announce the entries
  have hstep := extend_step (b := b) (i := i) (by rw [hT]; exact hlead) es
  set b₁ := b.step hstep (indexed_extend b i es) with hb₁
  have hg₁ : Grow i b b₁ := b.step_grow hstep _
  have hstill : Still i b b₁ :=
    ⟨hg₁.later, rfl, rfl, fun _ h => h, fun _ _ _ h => h, fun _ _ _ => rfl, rfl, fun _ => rfl⟩
  have hllog₁ : b₁.a.llog S.node.r.term = L ++ entries := by
    show (b.a.extend i (stamp (b.a.llog (b.a.term i)).length (b.a.term i) es)).llog _ = _
    rw [hT]
    simp [TermLog.State.extend, hT, ← hLdef, ← hent]
  have h₁ : Held md b₁ i pos S.node S.store := h.toHeld.still hstill rfl
  obtain ⟨prevTerm, hterm, hprev⟩ := h.termOf hl (k := L.length)
    (by rw [hLdef, ← h.whole hl]; exact h.dur.snap_le) le_rfl
  simp only [appendEntries, wp_bind, wp_getRaft, wp_getStore, hlast]
  rw [wp_termAt hterm]
  refine Wp.imp (shipEarly_spec (ht.grow hg₁) h₁ hl (by rw [hllog₁]; exact hprev.of_isPrefix ⟨_, rfl⟩)
    (by rw [hllog₁, List.drop_left])) ?_
  rintro early S₂ ⟨ht₂, h₂, hm₂⟩
  have hl₂ : S₂.node.r.state = .leader := hm₂.state.trans hl
  obtain ⟨hs₂, nx, out, hn₂⟩ := hm₂
  -- copy them
  have hT₁ : b₁.a.term i = S.node.r.term := hT
  have hlog₁ : b₁.a.log i = L := h.whole hl
  refine Wp.imp (appendStore_spec (k := L.length) ht₂ h₂ (by rw [hl₂]; simp)
    (by rw [hs₂, ← hlog₁]; exact h₁.dur.snap_le) ?_ ?_ ?_) ?_
  · rw [hT₁]
    refine ⟨by rw [hlog₁], by rw [hllog₁]; simp, fun j _ hj => ?_⟩
    rw [hlog₁, hllog₁, List.getElem?_append_left hj]
  · intro j e he
    rw [hT₁, hllog₁, List.getElem?_append_right (by omega), Nat.add_sub_cancel_left, he]
  · intro e e' he
    rw [hlog₁, List.getElem?_eq_none le_rfl] at he
    cases he
  rintro _ S₃ ⟨b₂, hg₂, ht₃, h₃, hn₃, hsnap₃, hllog₂, hT₂, hag, hne, hnil⟩
  have hl₃ : S₃.node.r.state = .leader := by rw [hn₃]; exact hl₂
  have hterm₃ : S₃.node.r.term = S.node.r.term := by rw [hn₃, hn₂]
  have hcommit₃ : S₃.node.r.commit = S.node.r.commit := by rw [hn₃, hn₂]
  have hllog₃ : b₂.a.llog S₃.node.r.term = L ++ entries := by rw [hterm₃, hllog₂, hllog₁]
  -- the leader's log is whole again
  have hwhole : b₂.a.log i = b₂.a.llog S₃.node.r.term := by
    have hoff := (h₃.leading hl₃).office
    refine hoff.log.eq_of_length ?_
    rw [hllog₃, List.length_append]
    by_cases hes : entries = []
    · rw [hnil hes, hlog₁, hes]
      rfl
    · exact hne hes
  have hsnap' : S₃.store.snapIdx = S.store.snapIdx := by rw [hsnap₃, hs₂]
  obtain ⟨b₃, hg₃, hllog₄, h₄⟩ := Sound.ownMatch h₃ hl₃ hwhole
    (by rw [hsnap', hcommit₃]; exact h.snap_commit)
    (by rw [hsnap', hn₃, hn₂]; exact h.cover)
    (by rw [hcommit₃, hn₃, hn₂]; exact h.restored)
  simp only [wp_modifyRaft]
  have hlen : L.length + entries.length = (b₂.a.llog S₃.node.r.term).length := by
    rw [hllog₃, List.length_append]
  rw [G.cfg_id, hlen]
  let S₄ : Sys σ := { S₃ with node := { S₃.node with r := { S₃.node.r with
    matchIdx := update S₃.node.r.matchIdx i (b₂.a.llog S₃.node.r.term).length } } }
  refine Wp.imp (sendAll_spec (S := S₄) 0 (ht₃.grow hg₃) h₄ hl₃ fun h0 => absurd rfl h0) ?_
  rintro _ S₅ ⟨ht₅, h₅, hm₅⟩
  refine Wp.imp (maybeCommit_spec ht₅ h₅ (hm₅.state.trans hl₃)) ?_
  rintro _ S₆ ⟨b₆, hg₆, ht₆, h₆, hllog₆, hs₆, c, hn₆⟩
  obtain ⟨hs₅, nx₅, out₅, hn₅⟩ := hm₅
  refine ⟨b₆, ((hg₁.trans hg₂).trans hg₃).trans hg₆, ht₆, h₆, rfl, ?_, S₆.node.r, ?_, ?_, ?_⟩
  · rw [hllog₆, hllog₄, ← hterm₃, hllog₃]
  · rw [hn₆, hn₅]
    show _ = ({ S.node with r := _ } : Node σ)
    simp only [S₄, hn₃, hn₂]
  · rw [hn₆, hn₅]
    exact hterm₃
  · rw [hn₆, hn₅]
    exact hl₃

end Keystone.Raft
