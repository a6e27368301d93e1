/-
# Keystone.Raft.Replication — the leader's side: what it sends, appends and commits.

One specification a function of the code: from a `Sound` leader, the function ends in a `Sound` leader
over a grown history, every message on the way is true, and no log access is refused.

* sending (`sendAppend`, `sendSnapshot`) changes next indexes and transfers only (`Moved`) and nothing
  of the history;
* `maybeCommit` adds a commit point: what a majority of match indexes reached is CHOSEN, because an
  acknowledgement given blindly, below an earlier commit point, cannot reach an entry of the leader's
  own term beyond its commit index (`Leading.chosen`);
* `appendEntries` first EXTENDS the leader's announced log — the early messages already carry it — and
  then copies it record by record into its own.
-/
import Keystone.Raft.Invariant

namespace Keystone.Raft

open Keystone.Lib
open Keystone.Lib.TermLog (Inv Le lastTm Chosen getElem?_of_isPrefix getElem?_of_take_isPrefix
  length_of_getElem?)
open Function (update)

variable {σ : Type} {G : Group σ} {md : Mode} {b b' b₀ : History G} {i : NodeID} {pos : ℕ}
  {n : Node σ} {s : MemStore} {S S' : Sys σ}

/-! ## Changes of the volatile state. -/

/-- Two states of a node that differ at most in its role and its timers. -/
structure SameCore (r r' : Raft) : Prop where
  term : r'.term = r.term
  vote : r'.vote = r.vote
  commit : r'.commit = r.commit
  reads : ∀ id rr, r'.reads id = some rr → r.reads id = some rr
  ready : r'.ready = r.ready
  nextReadID : r'.nextReadID = r.nextReadID
  snapIn : r'.snapIn = r.snapIn
  restored : r'.restored = r.restored

theorem ReadsOK.setRaft (h : ReadsOK md b i n) {r' : Raft} (hr : SameCore n.r r') :
    ReadsOK md b i { n with r := r' } where
  opened id rr hid := by
    have := h.opened id rr (hr.reads id rr hid)
    rwa [← hr.term, ← hr.nextReadID] at this
  ready x hx := by
    have := h.ready x (hr.ready ▸ hx)
    rwa [← hr.nextReadID] at this
  queued id q hq := by
    have := h.queued id q hq
    rwa [← hr.nextReadID] at this
  waiting := h.waiting
  asked := h.asked
  births := h.births

theorem Held.setRaft (h : Held md b i pos n s) {r' : Raft} (hr : SameCore n.r r')
    (hrole : Role b i r') : Held md b i pos { n with r := r' } s :=
  { h with
    term := hr.term.trans h.term
    vote := hr.vote.trans h.vote
    commit := by show Justified b.a i s r'.commit; rw [hr.commit]; exact h.commit
    applied := by show n.applied ≤ r'.commit; rw [hr.commit]; exact h.applied
    snapIn := fun x hx => h.snapIn x (hr.snapIn ▸ hx)
    reads := h.reads.setRaft hr
    role := hrole }

theorem Sound.setRaft (h : Sound md b i pos n s) {r' : Raft} (hr : SameCore n.r r')
    (hrole : Role b i r') (hlead : r'.state = .leader → n.r.state = .leader) :
    Sound md b i pos { n with r := r' } s where
  toHeld := h.toHeld.setRaft hr hrole
  whole hl := by show _ = b.a.llog r'.term; rw [hr.term]; exact h.whole (hlead hl)
  snap_commit := by show s.snapIdx ≤ r'.commit; rw [hr.commit]; exact h.snap_commit
  cover := by show _ ∨ ∃ x, r'.restored = some x ∧ _; rw [hr.restored]; exact h.cover
  restored x hx := by show _ ≤ r'.commit; rw [hr.commit]; exact h.restored x (hr.restored ▸ hx)

/-- Timers, and what `Role` does not look at. -/
theorem Role.congr {r r' : Raft} (h : Role b i r) (hst : r'.state = r.state)
    (hterm : r'.term = r.term) (hcommit : r'.commit = r.commit) (hvotes : r'.votes = r.votes)
    (hmatch : r'.matchIdx = r.matchIdx) (hnext : r'.next = r.next) (hout : r'.snapOut = r.snapOut)
    (hid : r'.nextReadID = r.nextReadID) (hreads : r'.reads = r.reads) : Role b i r' := by
  unfold Role at h ⊢
  rw [hst]
  split at h
  · rw [hreads]
    exact h
  · exact ⟨by rw [hterm]; exact h.cand, by rw [hvotes, hterm]; exact h.votes,
      by rw [hterm]; exact h.lead, by rw [hreads]; exact h.idle⟩
  · exact ⟨by rw [hterm]; exact h.office, by rw [hterm, hcommit]; exact h.commit_max,
      by rw [hterm, hmatch]; exact h.acked, by rw [hterm, hnext]; exact h.next,
      by rw [hterm, hout]; exact h.snapOut, by rw [hterm, hid]; exact h.rounds⟩

theorem Role.of_idle {r : Raft} (hst : r.state = .follower) (h : ∀ id, r.reads id = none) :
    Role b i r := by
  unfold Role
  rw [hst]
  exact h

theorem Role.of_standing {r : Raft} (hst : r.state = .candidate) (h : Standing b i r) :
    Role b i r := by
  unfold Role
  rw [hst]
  exact h

theorem Role.of_leading {r : Raft} (hst : r.state = .leader) (h : Leading b i r) : Role b i r := by
  unfold Role
  rw [hst]
  exact h

/-! ## Sending. -/

/-- A true message may be sent at any moment. -/
theorem send_spec {m : Message} {R : Panic → Sys σ → Prop} (ht : Tr md i pos b₀ b S)
    (h : Held md b i pos S.node S.store)
    (hm : BodyOK b { m with fromId := i, term := S.node.r.term }) :
    Wp (send (G.cfg i) m)
      (fun _ S' => Tr md i pos b₀ b S' ∧ S'.node = S.node ∧ S'.store = S.store) R S := by
  rw [wp_send, wp_emit, G.cfg_id]
  exact ⟨ht.emit (h.shown ⟨h.member.1, h.member.2, hm⟩), rfl, rfl⟩

/-- Only next indexes and transfers changed. -/
def Moved (S S' : Sys σ) : Prop :=
  S'.store = S.store ∧
    ∃ next out, S'.node = { S.node with r := { S.node.r with next := next, snapOut := out } }

theorem Moved.refl (S : Sys σ) : Moved S S := ⟨rfl, S.node.r.next, S.node.r.snapOut, rfl⟩

theorem Moved.trans {S'' : Sys σ} (h : Moved S S') (h' : Moved S' S'') : Moved S S'' := by
  obtain ⟨hs, nx, out, hn⟩ := h
  obtain ⟨hs', nx', out', hn'⟩ := h'
  exact ⟨hs'.trans hs, nx', out', by rw [hn', hn]⟩

theorem Moved.term (h : Moved S S') : S'.node.r.term = S.node.r.term := by
  obtain ⟨_, _, _, hn⟩ := h
  rw [hn]

theorem Moved.state (h : Moved S S') : S'.node.r.state = S.node.r.state := by
  obtain ⟨_, _, _, hn⟩ := h
  rw [hn]

/-- New next indexes inside the log, and transfers of committed snapshots. -/
theorem Sound.books (h : Sound md b i pos n s) (hl : n.r.state = .leader) (next : NodeID → ℕ)
    (out : NodeID → Option SnapTransfer)
    (hnext : ∀ q ∈ G.peers, 1 ≤ next q ∧ next q ≤ (b.a.llog n.r.term).length + 1)
    (hout : ∀ q x, out q = some x → Certified b.a n.r.term x.index x.term) :
    Sound md b i pos { n with r := { n.r with next := next, snapOut := out } } s := by
  have hL := h.toHeld.leading hl
  refine h.setRaft ⟨rfl, rfl, rfl, fun _ _ h => h, rfl, rfl, rfl, rfl⟩ (Role.of_leading hl ?_) id
  exact ⟨hL.office, hL.commit_max, hL.acked, hnext, hout, hL.rounds⟩

/-- The term a leader's store answers at an index is the one in its announced log. -/
theorem Sound.termOf (h : Sound md b i pos n s) (hl : n.r.state = .leader) {k : ℕ}
    (h1 : s.snapIdx ≤ k) (h2 : k ≤ (b.a.llog n.r.term).length) :
    ∃ t, s.termOf k = .ok t ∧ HasTerm (b.a.llog n.r.term) k t := by
  have hlead := (h.toHeld.leading hl).office.lead
  obtain ⟨t, ht, hsnap, hlog⟩ := h.dur.termOf h1 (h.whole hl ▸ h2)
  refine ⟨t, ht, ?_⟩
  rcases Nat.eq_or_lt_of_le h1 with heq | hlt
  · rw [hsnap heq.symm, ← heq]
    exact Snapped.hasTerm b.inv hlead (h.toHeld.term_eq ▸ h.dur.snap)
  · rw [← h.whole hl]
    exact hlog hlt

theorem sendChunk_spec {dst : NodeID} {x : SnapTransfer} (ht : Tr md i pos b₀ b S)
    (h : Held md b i pos S.node S.store) (hx : Certified b.a S.node.r.term x.index x.term) :
    Wp (sendChunk (G.cfg i) dst x)
      (fun _ S' => Tr md i pos b₀ b S' ∧ S'.node = S.node ∧ S'.store = S.store)
      (Stops md i pos b₀) S := by
  unfold sendChunk
  rw [wp_ite]
  refine ⟨fun _ => ?_, fun _ => ?_⟩
  · exact wp_throw.mpr (ht.stops (by simp))
  · refine send_spec ht h ?_
    exact hx

/-- What every sending function of a leader ends in. -/
def Sent (md : Mode) (i : NodeID) (pos : ℕ) (b₀ b : History G) (S S' : Sys σ) : Prop :=
  Tr md i pos b₀ b S' ∧ Sound md b i pos S'.node S'.store ∧ Moved S S'

theorem sendSnapshot_spec {dst : NodeID} (ht : Tr md i pos b₀ b S)
    (h : Sound md b i pos S.node S.store) (hl : S.node.r.state = .leader)
    (hsnap : 1 ≤ S.store.snapIdx) :
    Wp (sendSnapshot (G.cfg i) dst) (fun _ => Sent md i pos b₀ b S) (Stops md i pos b₀) S := by
  have hL := h.toHeld.leading hl
  have hcert : Certified b.a S.node.r.term S.store.snapIdx S.store.snapTerm := by
    rcases h.dur.snap with ⟨h0, _⟩ | hc
    · omega
    · exact h.toHeld.term_eq ▸ hc
  have hx : Certified b.a S.node.r.term (outgoing S.store (S.node.r.snapOut dst)).index
      (outgoing S.store (S.node.r.snapOut dst)).term := by
    unfold outgoing
    split
    · next x hx =>
      split
      · exact hL.snapOut dst x hx
      · exact hcert
    · exact hcert
  simp only [sendSnapshot, wp_bind, wp_getStore, wp_getRaft, wp_modifyRaft]
  set out := update S.node.r.snapOut dst (some (outgoing S.store (S.node.r.snapOut dst))) with hout
  have h' := h.books hl S.node.r.next out hL.next (by
    intro q x hq
    by_cases hqd : q = dst
    · subst hqd
      rw [hout, Function.update_self] at hq
      exact Option.some.inj hq ▸ hx
    · rw [hout, Function.update_of_ne hqd] at hq
      exact hL.snapOut q x hq)
  let S₁ : Sys σ := { S with node := { S.node with r := { S.node.r with snapOut := out } } }
  refine (sendChunk_spec (S := S₁) ht h'.toHeld hx).imp ?_
  rintro _ S' ⟨ht', hn, hs⟩
  exact ⟨ht', by rw [hn, hs]; exact h', hs, _, _, hn⟩

theorem fitBytes_isPrefix (limit size : ℕ) (es : List Entry) : fitBytes limit size es <+: es := by
  induction es generalizing size with
  | nil => exact List.prefix_refl _
  | cons e es ih =>
    unfold fitBytes
    split
    · exact List.nil_prefix
    · exact (List.prefix_cons_inj e).mpr (ih _)

theorem fitBatch_isPrefix (cfg : Config) (es : List Entry) : fitBatch cfg es <+: es := by
  unfold fitBatch
  split
  · exact List.nil_prefix
  · next e rest h =>
    refine List.IsPrefix.trans ?_ (List.take_prefix cfg.batch es)
    rw [h]
    exact (List.prefix_cons_inj e).mpr (fitBytes_isPrefix _ _ _)

/-- The next batch is a piece of the leader's log. -/
theorem nextBatch_spec {dst : NodeID} {next : ℕ} (hd : dst ∈ G.peers) (ht : Tr md i pos b₀ b S)
    (h : Sound md b i pos S.node S.store) (hl : S.node.r.state = .leader)
    (h1 : S.store.snapIdx < next) :
    Wp (nextBatch (G.cfg i) dst next S.store.lastIndex)
      (fun es S' => Sent md i pos b₀ b S S' ∧ es <+: (b.a.llog S.node.r.term).drop (next - 1))
      (Stops md i pos b₀) S := by
  have hL := h.toHeld.leading hl
  have hlast : S.store.lastIndex = (b.a.llog S.node.r.term).length := by
    rw [h.dur.lastIndex, h.whole hl]
  unfold nextBatch
  rw [wp_ite]
  refine ⟨fun hle => ?_, fun _ => wp_pure.mpr ⟨⟨ht, h, Moved.refl S⟩, List.nil_prefix⟩⟩
  have hslice := h.dur.slice (min (next + (G.cfg i).batch) (S.store.lastIndex + 1)) h1
    (by rw [h.dur.lastIndex]; omega)
  simp only [wp_bind, wp_readEntries hslice, wp_modifyRaft, wp_pure]
  set es := fitBatch (G.cfg i) (((b.a.log i).drop (next - 1)).take
    (min (next + (G.cfg i).batch) (S.store.lastIndex + 1) - next)) with hes
  have hpre : es <+: (b.a.llog S.node.r.term).drop (next - 1) := by
    rw [hes, h.whole hl]
    exact (fitBatch_isPrefix _ _).trans (List.take_prefix _ _)
  have hlen := hpre.length_le
  rw [List.length_drop] at hlen
  have h' := h.books hl (update S.node.r.next dst (next + es.length)) S.node.r.snapOut (by
      intro q hq
      by_cases hqd : q = dst
      · subst hqd
        rw [Function.update_self]
        omega
      · rw [Function.update_of_ne hqd]
        exact hL.next q hq) hL.snapOut
  exact ⟨⟨ht, h', rfl, _, _, rfl⟩, hpre⟩

theorem sendAppend_spec {dst : NodeID} {readID : ℕ} (hd : dst ∈ G.peers)
    (ht : Tr md i pos b₀ b S) (h : Sound md b i pos S.node S.store)
    (hl : S.node.r.state = .leader)
    (hid : readID ≠ 0 → ∃ rd, b.rounds S.node.r.term readID = some rd) :
    Wp (sendAppend (G.cfg i) dst readID) (fun _ => Sent md i pos b₀ b S) (Stops md i pos b₀)
      S := by
  have hL := h.toHeld.leading hl
  have hnext := hL.next dst hd
  have hlead := hL.office.lead
  simp only [sendAppend, wp_bind, wp_getStore, wp_getRaft]
  rw [wp_ite]
  refine ⟨fun hlt => ?_, fun hge => ?_⟩
  · have hfirst : S.node.r.next dst < S.store.snapIdx + 1 := hlt
    rw [wp_ite]
    refine ⟨fun _ => sendSnapshot_spec ht h hl (by omega), fun _ => ?_⟩
    -- the probe of a read round sits at the snapshot point
    have hterm : S.store.termOf (S.store.firstIndex - 1) = .ok S.store.snapTerm := by
      simp [MemStore.firstIndex, MemStore.termOf]
    rw [wp_bind, wp_termAt hterm]
    refine (send_spec ht h.toHeld ?_).imp ?_
    · exact ⟨hlead, Snapped.hasTerm b.inv hlead (h.toHeld.term_eq ▸ h.dur.snap), List.nil_prefix,
        h.toHeld.below_commit, hid⟩
    · rintro _ S' ⟨ht', hn, hs⟩
      exact ⟨ht', by rw [hn, hs]; exact h, hs, S.node.r.next, S.node.r.snapOut, hn⟩
  · have hfirst : ¬ S.node.r.next dst < S.store.snapIdx + 1 := hge
    obtain ⟨t, hterm, hprev⟩ := h.termOf hl (k := S.node.r.next dst - 1) (by omega) (by omega)
    rw [wp_bind, wp_termAt hterm]
    refine Wp.bind (nextBatch_spec hd ht h hl (by omega)) ?_
    rintro es S₁ ⟨⟨ht₁, h₁, hm⟩, hes⟩
    refine (send_spec ht₁ h₁.toHeld ?_).imp ?_
    · exact (show AppOK b _ from ⟨by rw [hm.term]; exact hlead, by rw [hm.term]; exact hprev,
        by rw [hm.term]; exact hes, by rw [hm.term]; exact h.toHeld.below_commit,
        by rw [hm.term]; exact hid⟩)
    · rintro _ S' ⟨ht', hn, hs⟩
      exact ⟨ht', by rw [hn, hs]; exact h₁, hm.trans ⟨hs, S₁.node.r.next, S₁.node.r.snapOut, hn⟩⟩

/-- A loop over peers that sends to some of them. -/
theorem sendAll_spec (readID : ℕ) {c : NodeID → Prop} [DecidablePred c]
    (ht : Tr md i pos b₀ b S) (h : Sound md b i pos S.node S.store)
    (hl : S.node.r.state = .leader)
    (hid : readID ≠ 0 → ∃ rd, b.rounds S.node.r.term readID = some rd) :
    Wp ((G.cfg i).peers.forM fun p => when (c p) (sendAppend (G.cfg i) p readID))
      (fun _ => Sent md i pos b₀ b S) (Stops md i pos b₀) S := by
  refine wp_forM (fun S' => Sent md i pos b₀ b S S') ⟨ht, h, Moved.refl S⟩ ?_
  rintro p hp S₁ ⟨ht₁, h₁, hm⟩
  rw [wp_when]
  refine ⟨fun _ => ?_, fun _ => ⟨ht₁, h₁, hm⟩⟩
  refine (sendAppend_spec (G.cfg_peers i ▸ hp) ht₁ h₁ (hm.state.trans hl)
    (by rw [hm.term]; exact hid)).imp ?_
  rintro _ S' ⟨ht', h', hm'⟩
  exact ⟨ht', h', hm.trans hm'⟩

theorem broadcastAppend_spec (ht : Tr md i pos b₀ b S) (h : Sound md b i pos S.node S.store)
    (hl : S.node.r.state = .leader) :
    Wp (broadcastAppend (G.cfg i)) (fun _ => Sent md i pos b₀ b S) (Stops md i pos b₀) S :=
  sendAll_spec 0 ht h hl fun h0 => absurd rfl h0

end Keystone.Raft
