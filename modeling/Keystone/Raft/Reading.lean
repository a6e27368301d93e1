/-
# Keystone.Raft.Reading — read rounds, the leader's answers, and the whole of `Step`.

A read round is recorded in the history when it is opened: its index, the terms of all nodes and all
commit points at that moment.  A confirmation by a node that answered IN THE LEADER'S TERM shows that
the node had not passed that term when the round began; a majority of such confirmations leaves no room
for a leader of a later term, so the round's index covers everything committed (`RoundOK.done`).

`FreshAnswer` is the condition this needs.  The code does not guarantee it: a node that rejects a
request of an earlier term echoes the request's read id under its own, later term, and ids start over
when a node restarts.  Only `Mode.fresh` depends on it.
-/
import Keystone.Raft.Following

namespace Keystone.Raft

open Keystone.Lib
open Keystone.Lib.TermLog (Inv Le lastTm)
open Function (update)

variable {σ : Type} {G : Group σ} {md : Mode} {b b' b₀ : History G} {i : NodeID} {pos : ℕ}
  {n : Node σ} {s : MemStore} {S S' : Sys σ} {m : Message}

/-! ## Confirming a round. -/

/-- The condition on a step that delivers `m`: a leader's open round is not confirmed by an answer to a
request of an earlier term. -/
def FreshAnswer (n : Node σ) (m : Message) : Prop :=
  m.type = .appResp → n.r.state = .leader → m.term = n.r.term → m.readID ≠ 0 →
    (n.r.reads m.readID).isSome = true → ¬ StaleReply m

/-- A majority that had not passed the leader's term when the round began. -/
theorem RoundOK.done {T : ℕ} {rd : Round} (h : RoundOK G.params b.a T rd) {Q : Finset NodeID}
    (hQ : Majority G.peers Q) (hterms : ∀ p ∈ Q, rd.terms p ≤ T) : rd.Done := by
  intro U k hk
  obtain ⟨Q', hQ', hU⟩ := h.quorum U k hk
  obtain ⟨p, hp, hp'⟩ := G.params.inter (show G.params.IsQuorum Q from hQ) hQ'
  exact h.covers U k hk ((hU p hp').trans (hterms p hp))

/-- Only read rounds changed. -/
theorem Sound.setReads (h : Sound md b i pos n s) (hl : n.r.state = .leader)
    (reads : ℕ → Option ReadRound) (ready : List ReadReady)
    (hR : ReadsOK md b i { n with r := { n.r with reads := reads, ready := ready } }) :
    Sound md b i pos { n with r := { n.r with reads := reads, ready := ready } } s := by
  have hL := h.toHeld.leading hl
  exact
    { h with
      reads := hR
      role := Role.of_leading hl
        ⟨hL.office, hL.commit_max, hL.acked, hL.next, hL.snapOut, hL.rounds⟩ }

/-- A round with one more confirmation. -/
theorem ReadsOK.confirm (h : ReadsOK md b i n) {id : ℕ} {rr : ReadRound}
    (hrr : n.r.reads id = some rr) {src : NodeID} (hsrc : src ∈ G.peers)
    (hconf : md.fresh → ∀ rd, b.rounds n.r.term id = some rd → rd.terms src ≤ n.r.term) :
    ReadsOK md b i { n with r := { n.r with
      reads := update n.r.reads id (some { rr with acks := insert src rr.acks }) } } where
  opened id' rr' hr' := by
    change update n.r.reads id _ id' = some rr' at hr'
    by_cases hid : id' = id
    · subst hid
      rw [Function.update_self] at hr'
      obtain rfl := Option.some.inj hr'
      obtain ⟨h1, h2, rd, hrd, hidx, hpeers, hterms⟩ := h.opened id' rr hrr
      refine ⟨h1, h2, rd, hrd, hidx, fun p hp => ?_, fun hf p hp => ?_⟩
      · rcases Finset.mem_insert.mp hp with rfl | hp
        · exact hsrc
        · exact hpeers p hp
      · rcases Finset.mem_insert.mp hp with rfl | hp
        · exact hconf hf rd hrd
        · exact hterms hf p hp
    · rw [Function.update_of_ne hid] at hr'
      exact h.opened id' rr' hr'
  ready := h.ready
  queued := h.queued
  waiting := h.waiting
  asked := h.asked
  births := h.births

/-- A round with a majority of confirmations is ready. -/
theorem ReadsOK.complete (h : ReadsOK md b i n) {id : ℕ} {rr : ReadRound}
    (hrr : n.r.reads id = some rr) (hcard : G.peers.length / 2 + 1 ≤ rr.acks.card) :
    ReadsOK md b i { n with r := { n.r with
      reads := update n.r.reads id none, ready := n.r.ready ++ [⟨id, rr.index⟩] } } where
  opened id' rr' hr' := by
    change update n.r.reads id none id' = some rr' at hr'
    by_cases hid : id' = id
    · subst hid
      rw [Function.update_self] at hr'
      cases hr'
    · rw [Function.update_of_ne hid] at hr'
      exact h.opened id' rr' hr'
  ready x hx := by
    rcases List.mem_append.mp hx with hx | hx
    · exact h.ready x hx
    · obtain rfl := List.mem_singleton.mp hx
      obtain ⟨h1, h2, rd, hrd, hidx, hpeers, hterms⟩ := h.opened id rr hrr
      refine ⟨h1, rd, ?_, hidx, fun hf => ?_⟩
      · show b.rounds (b.epoch i id) id = some rd
        rw [h2]
        exact hrd
      · refine (b.rounds_ok _ _ rd hrd).done ⟨fun p hp => ?_, hcard⟩ (hterms hf)
        exact List.mem_toFinset.mpr (hpeers p hp)
  queued := h.queued
  waiting := h.waiting
  asked := h.asked
  births := h.births

/-- Only read rounds changed. -/
def Confirmed (S S' : Sys σ) : Prop :=
  S'.store = S.store ∧
    ∃ reads ready, S'.node = { S.node with r := { S.node.r with reads := reads, ready := ready } }

theorem completeRead_spec {R : Panic → Sys σ → Prop} {id : ℕ} (rr : ReadRound)
    (ht : Tr md i pos b₀ b S) (h : Sound md b i pos S.node S.store)
    (hl : S.node.r.state = .leader) (hrr : S.node.r.reads id = some rr)
    (hcard : G.peers.length / 2 + 1 ≤ rr.acks.card) :
    Wp (completeRead id)
      (fun _ S' => Tr md i pos b₀ b S' ∧ Sound md b i pos S'.node S'.store ∧ Confirmed S S') R S := by
  rw [completeRead, wp_modifyRaft, hrr]
  exact ⟨ht, h.setReads hl _ _ (h.reads.complete hrr hcard), rfl, _, _, rfl⟩

theorem ackRead_spec {R : Panic → Sys σ → Prop} {id : ℕ} {src : NodeID} (hsrc : src ∈ G.peers)
    (ht : Tr md i pos b₀ b S) (h : Sound md b i pos S.node S.store)
    (hl : S.node.r.state = .leader)
    (hconf : md.fresh → (S.node.r.reads id).isSome = true →
      ∃ rd, b.rounds S.node.r.term id = some rd ∧ rd.terms src ≤ S.node.r.term) :
    Wp (ackRead (G.cfg i) id src)
      (fun _ S' => Tr md i pos b₀ b S' ∧ Sound md b i pos S'.node S'.store ∧ Confirmed S S') R S := by
  simp only [ackRead, wp_bind, wp_getRaft]
  cases hrr : S.node.r.reads id with
  | none => exact wp_pure.mpr ⟨ht, h, rfl, S.node.r.reads, S.node.r.ready, rfl⟩
  | some rr =>
    simp only [wp_bind, wp_modifyRaft]
    have hR := h.reads.confirm hrr hsrc (fun hf rd hrd => by
      obtain ⟨rd', hrd', hle⟩ := hconf hf (by rw [hrr]; rfl)
      rw [hrd] at hrd'
      exact Option.some.inj hrd' ▸ hle)
    have h₁ := h.setReads hl _ S.node.r.ready hR
    let S₁ : Sys σ :=
      { S with node := { S.node with r := { S.node.r with
        reads := update S.node.r.reads id (some { rr with acks := insert src rr.acks }) } } }
    rw [wp_when]
    refine ⟨fun hcard => ?_, fun _ => ⟨ht, h₁, rfl, _, _, rfl⟩⟩
    rw [Config.quorum, G.cfg_peers] at hcard
    refine (completeRead_spec (S := S₁) { rr with acks := insert src rr.acks } ht h₁ hl
      (Function.update_self ..) hcard).imp ?_
    rintro _ S' ⟨ht', h', hs, reads, ready, hn⟩
    exact ⟨ht', h', hs, reads, ready, hn⟩

/-! ## Opening a round. -/

/-- The round a leader opens now. -/
def History.round (b : History G) (index : ℕ) : Round :=
  { index := index, terms := b.a.term, known := b.a.commits }

theorem History.round_ok (b : History G) {T c : ℕ} (hlead : b.a.leader T = some i)
    (hterm : HasTerm (b.a.llog T) c T) (hmax : ∀ k, (T, k) ∈ b.a.commits → k ≤ c) :
    RoundOK G.params b.a T (b.round c) where
  lead := by rw [hlead]; simp
  terms _ := le_rfl
  covers U k hk hU := by
    show k ≤ c
    rcases Nat.lt_or_eq_of_le hU with hlt | rfl
    · -- an earlier term's point lies below the leader's own committed entry
      rcases hterm with ⟨-, h0⟩ | ⟨h1, e, he, het⟩
      · omega
      · have := b.inv.commit_lt_of_own_term hk hlead hlt he het
        omega
    · exact hmax k hk
  quorum U k hk := by
    obtain ⟨c', hc'⟩ := Option.ne_none_iff_exists'.mp
      (b.inv.chosen_leader (b.inv.commit_chosen U k hk))
    exact b.inv.leader_quorum_term hc'

/-- The history after node `i` opened round `id` of term `T`. -/
def History.open (b : History G) (i : NodeID) (T id : ℕ) (rd : Round)
    (hrd : RoundOK G.params b.a T rd) : History G :=
  { b with
    rounds := update b.rounds T (update (b.rounds T) id (some rd))
    rounds_ok := fun T' id' rd' h => by
      by_cases hT : T' = T
      · subst hT
        rw [Function.update_self] at h
        by_cases hid : id' = id
        · subst hid
          rw [Function.update_self] at h
          exact Option.some.inj h ▸ hrd
        · rw [Function.update_of_ne hid] at h
          exact b.rounds_ok T' id' rd' h
      · rw [Function.update_of_ne hT] at h
        exact b.rounds_ok T' id' rd' h
    epoch := update b.epoch i (update (b.epoch i) id T) }

section Open

variable {T id : ℕ} {rd : Round} {hrd : RoundOK G.params b.a T rd}

theorem History.open_rounds_self : (b.open i T id rd hrd).rounds T id = some rd := by
  simp [History.open]

theorem History.open_rounds_of_ne {T' id' : ℕ} (h : id' ≠ id) :
    (b.open i T id rd hrd).rounds T' id' = b.rounds T' id' := by
  by_cases hT : T' = T
  · subst hT
    simp [History.open, Function.update_of_ne h]
  · simp [History.open, Function.update_of_ne hT]

theorem History.open_epoch_self : (b.open i T id rd hrd).epoch i id = T := by
  simp [History.open]

theorem History.open_epoch_of_ne {id' : ℕ} (h : id' ≠ id) :
    (b.open i T id rd hrd).epoch i id' = b.epoch i id' := by
  simp [History.open, Function.update_of_ne h]

theorem History.open_grow (hlead : b.a.leader T = some i) (hnone : b.rounds T id = none) :
    Grow i b (b.open i T id rd hrd) where
  evolves := .refl _ _ _
  rounds T' id' rd' h := by
    by_cases hid : id' = id
    · subst hid
      have hT : T' ≠ T := by
        rintro rfl
        rw [hnone] at h
        cases h
      simpa [History.open, Function.update_of_ne hT] using h
    · rw [History.open_rounds_of_ne hid]
      exact h
  rounds_frame T' id' q hq hT' := by
    have hT : T' ≠ T := by
      rintro rfl
      rw [hlead] at hT'
      exact hq (Option.some.inj hT').symm
    simp [History.open, Function.update_of_ne hT]
  epoch_frame q hq := by simp [History.open, Function.update_of_ne hq]
  birth _ _ _ h := h
  birth_frame _ _ _ := rfl

end Open

/-- A leader that opens its next round. -/
theorem Sound.openRound (h : Sound md b i pos n s) (hl : n.r.state = .leader)
    (hrd : RoundOK G.params b.a n.r.term (b.round n.r.commit)) :
    Sound md (b.open i n.r.term (n.r.nextReadID + 1) (b.round n.r.commit) hrd) i pos
      { n with r := { n.r with
        nextReadID := n.r.nextReadID + 1
        reads := update n.r.reads (n.r.nextReadID + 1) (some { index := n.r.commit, acks := {i} }) } }
      s := by
  have hL := h.toHeld.leading hl
  have hT := h.toHeld.term_eq
  have hR : ReadsOK md (b.open i n.r.term (n.r.nextReadID + 1) (b.round n.r.commit) hrd) i
      { n with r := { n.r with
        nextReadID := n.r.nextReadID + 1
        reads := update n.r.reads (n.r.nextReadID + 1)
          (some { index := n.r.commit, acks := {i} }) } } :=
    { opened := fun id rr hr => by
        change update n.r.reads (n.r.nextReadID + 1) _ id = some rr at hr
        by_cases hid : id = n.r.nextReadID + 1
        · subst hid
          rw [Function.update_self] at hr
          obtain rfl := Option.some.inj hr
          refine ⟨le_rfl, History.open_epoch_self, _, History.open_rounds_self, rfl, ?_, ?_⟩
          · intro p hp
            rw [Finset.mem_singleton.mp hp]
            exact h.member.1
          · intro _ p hp
            rw [Finset.mem_singleton.mp hp]
            exact hT.le
        · rw [Function.update_of_ne hid] at hr
          obtain ⟨h1, h2, rd, h3, h4⟩ := h.reads.opened id rr hr
          refine ⟨Nat.le_succ_of_le h1, ?_, rd, ?_, h4⟩
          · rw [History.open_epoch_of_ne hid]
            exact h2
          · rw [History.open_rounds_of_ne hid]
            exact h3
      ready := fun x hx => by
        obtain ⟨h1, rd, h2, h3⟩ := h.reads.ready x hx
        have hid : x.id ≠ n.r.nextReadID + 1 := by omega
        refine ⟨Nat.le_succ_of_le h1, rd, ?_, h3⟩
        rw [History.open_epoch_of_ne hid, History.open_rounds_of_ne hid]
        exact h2
      queued := fun id q hq => by
        obtain ⟨h1, rd, h2, h3⟩ := h.reads.queued id q hq
        have hid : id ≠ n.r.nextReadID + 1 := by omega
        refine ⟨Nat.le_succ_of_le h1, rd, ?_, h3⟩
        rw [History.open_epoch_of_ne hid, History.open_rounds_of_ne hid]
        exact h2
      waiting := h.reads.waiting
      asked := h.reads.asked
      births := h.reads.births }
  exact
    { h with
      reads := hR
      role := Role.of_leading hl
        ⟨hL.office, hL.commit_max, hL.acked, hL.next, hL.snapOut, fun id hid => by
          change n.r.nextReadID + 1 < id at hid
          rw [History.open_rounds_of_ne (by omega)]
          exact hL.rounds id (by omega)⟩ }

/-- What `ReadIndex` hands to the driver: a round whose known points include all that is committed. -/
def Opened (b b' : History G) (i id : ℕ) (S S' : Sys σ) : Prop :=
  id ≤ S'.node.r.nextReadID ∧ (∃ r', S'.node = { S.node with r := r' }) ∧ S'.store = S.store ∧
    b'.birth = b.birth ∧
    ∃ rd, b'.rounds (b'.epoch i id) id = some rd ∧ rd.known = b.a.commits

theorem readIndex_spec (ht : Tr md i pos b₀ b S) (h : Sound md b i pos S.node S.store) :
    Wp (readIndex (G.cfg i))
      (fun res S' => After md i pos b₀ b (fun b' S' => Sound md b' i pos S'.node S'.store ∧
        match res with
        | .ok id => Opened b b' i id S S'
        | .error _ => b' = b ∧ S' = S) S')
      (Stops md i pos b₀) S := by
  simp only [readIndex, wp_bind, wp_getRaft]
  rw [wp_ite]
  refine ⟨fun _ => wp_pure.mpr (After.here ht ⟨h, rfl, rfl⟩), fun hl => ?_⟩
  have hl : S.node.r.state = .leader := not_not.mp hl
  have hL := h.toHeld.leading hl
  have hlead := hL.office.lead
  obtain ⟨t, htm, hhas⟩ := h.termOf hl h.snap_commit
    (by rw [← h.whole hl]; exact h.toHeld.commit_le)
  rw [wp_bind, wp_termAt htm, wp_ite]
  refine ⟨fun _ => wp_pure.mpr (After.here ht ⟨h, rfl, rfl⟩), fun heq => ?_⟩
  obtain rfl : t = S.node.r.term := not_not.mp heq
  have hrd := b.round_ok hlead hhas hL.commit_max
  simp only [wp_bind, wp_modifyRaft, G.cfg_id]
  have hg : Grow i b (b.open i S.node.r.term (S.node.r.nextReadID + 1) _ hrd) :=
    History.open_grow hlead (hL.rounds _ (Nat.lt_succ_self _))
  have h₁ := h.openRound hl hrd
  set b₁ := b.open i S.node.r.term (S.node.r.nextReadID + 1) _ hrd with hb₁
  let S₁ : Sys σ :=
    { S with node := { S.node with r := { S.node.r with
      nextReadID := S.node.r.nextReadID + 1
      reads := update S.node.r.reads (S.node.r.nextReadID + 1)
        (some { index := S.node.r.commit, acks := {i} }) } } }
  have ht₁ : Tr md i pos b₀ b₁ S₁ := ht.grow hg
  have hround : ∃ rd, b₁.rounds (b₁.epoch i (S.node.r.nextReadID + 1)) (S.node.r.nextReadID + 1) =
      some rd ∧ rd.known = b.a.commits := by
    refine ⟨b.round S.node.r.commit, ?_, rfl⟩
    rw [hb₁, History.open_epoch_self]
    exact History.open_rounds_self
  rw [wp_ite]
  refine ⟨fun hq => ?_, fun _ => ?_⟩
  · -- a group of one confirms itself
    rw [wp_bind]
    have hcard : G.peers.length / 2 + 1 ≤ ({i} : Finset NodeID).card := by
      rw [Config.quorum, G.cfg_peers] at hq
      rw [hq, Finset.card_singleton]
    refine (completeRead_spec (S := S₁) (R := Stops md i pos b₀)
      { index := S.node.r.commit, acks := {i} } ht₁ h₁ hl (Function.update_self ..) hcard).imp ?_
    rintro _ S₂ ⟨ht₂, h₂, hs, reads, ready, hn⟩
    refine wp_pure.mpr ⟨b₁, hg, ht₂, h₂, ?_, ⟨_, hn⟩, hs, rfl, hround⟩
    rw [hn]
  · rw [wp_bind]
    refine (sendAll_spec (S := S₁) (S.node.r.nextReadID + 1) ht₁ h₁ hl
      fun _ => ⟨_, History.open_rounds_self⟩).imp ?_
    rintro _ S₂ ⟨ht₂, h₂, hs, next, out, hn⟩
    refine wp_pure.mpr ⟨b₁, hg, ht₂, h₂, ?_, ⟨_, hn⟩, hs, rfl, hround⟩
    rw [hn]

/-! ## Answers to a leader. -/

theorem lastIndexOfTerm_spec {R : Panic → Sys σ → Prop} {t k : ℕ}
    (h : Dur md.clean b.a i S.store) (hk : k ≤ (b.a.log i).length) :
    Wp (lastIndexOfTerm S.store.firstIndex t k) (fun o S' => S' = S ∧ ∀ x, o = some x → x ≤ k) R
      S := by
  induction k with
  | zero => exact wp_pure.mpr ⟨rfl, fun x hx => by cases hx⟩
  | succ k ih =>
    simp only [lastIndexOfTerm]
    rw [wp_ite]
    refine ⟨fun hge => ?_, fun _ => wp_pure.mpr ⟨rfl, fun x hx => by cases hx⟩⟩
    have hge : k + 1 ≥ S.store.snapIdx + 1 := hge
    obtain ⟨t', ht', -, -⟩ := h.termOf (k := k + 1) (by omega) hk
    rw [wp_bind, wp_termAt ht', wp_ite]
    refine ⟨fun _ => wp_pure.mpr ⟨rfl, fun x hx => (Option.some.inj hx).ge⟩, fun _ => ?_⟩
    rw [wp_ite]
    refine ⟨fun _ => wp_pure.mpr ⟨rfl, fun x hx => by cases hx⟩, fun _ => ?_⟩
    refine (ih (by omega)).imp ?_
    rintro o S' ⟨hS, ho⟩
    exact ⟨hS, fun x hx => (ho x hx).trans (Nat.le_succ k)⟩

/-- Wherever a rejection sends the leader back to lies inside its log. -/
theorem backtrack_spec {R : Panic → Sys σ → Prop} (h : Sound md b i pos S.node S.store)
    (hl : S.node.r.state = .leader)
    (hc : m.conflictIndex ≤ (b.a.llog S.node.r.term).length) :
    Wp (backtrack m) (fun next S' => S' = S ∧ next ≤ (b.a.llog S.node.r.term).length + 1) R S := by
  unfold backtrack
  rw [wp_ite]
  refine ⟨fun _ => ?_, fun _ => wp_pure.mpr ⟨rfl, by omega⟩⟩
  simp only [wp_bind, wp_getStore]
  refine (lastIndexOfTerm_spec h.dur (by rw [h.dur.lastIndex])).imp ?_
  rintro o S' ⟨rfl, ho⟩
  cases o with
  | none => exact wp_pure.mpr ⟨rfl, by omega⟩
  | some x =>
    have := ho x rfl
    rw [h.dur.lastIndex, h.whole hl] at this
    exact wp_pure.mpr ⟨rfl, by omega⟩

/-- A follower's acknowledgement in the books. -/
theorem Sound.advanceFollower (h : Sound md b i pos n s) (hl : n.r.state = .leader) {src : NodeID}
    {k : ℕ} (out : NodeID → Option SnapTransfer) (hk : Acked b.a src n.r.term k)
    (hout : ∀ q x, out q = some x → n.r.snapOut q = some x) :
    Sound md b i pos
      { n with r := { n.r with
        matchIdx := if k > n.r.matchIdx src then update n.r.matchIdx src k else n.r.matchIdx
        next := if succU64 k > n.r.next src then update n.r.next src (succU64 k) else n.r.next
        snapOut := out } } s := by
  have hL := h.toHeld.leading hl
  have hlen := hk.le_length b.inv hL.office.lead
  refine h.setRaft ⟨rfl, rfl, rfl, fun _ _ h => h, rfl, rfl, rfl, rfl⟩ (Role.of_leading hl ?_) id
  refine ⟨hL.office, hL.commit_max, fun q => ?_, fun q hq => ?_,
    fun q x hx => hL.snapOut q x (hout q x hx), hL.rounds⟩
  · show Acked b.a q n.r.term
      ((if k > n.r.matchIdx src then update n.r.matchIdx src k else n.r.matchIdx) q)
    split
    · by_cases hqs : q = src
      · subst hqs
        rw [Function.update_self]
        exact hk
      · rw [Function.update_of_ne hqs]
        exact hL.acked q
    · exact hL.acked q
  · show 1 ≤ (if succU64 k > n.r.next src then update n.r.next src (succU64 k) else n.r.next) q ∧
      (if succU64 k > n.r.next src then update n.r.next src (succU64 k) else n.r.next) q ≤ _
    split
    · next hgt =>
      by_cases hqs : q = src
      · subst hqs
        rw [Function.update_self]
        show 1 ≤ succU64 k ∧ succU64 k ≤ (b.a.llog n.r.term).length + 1
        have := succU64_le k
        omega
      · rw [Function.update_of_ne hqs]
        exact hL.next q hq
    · exact hL.next q hq

/-- After new match indexes: commit what can be, and go on sending. -/
theorem commitAndSend_spec {src : NodeID} (hsrc : src ∈ G.peers) {c : Sys σ → Prop}
    [DecidablePred c] (ht : Tr md i pos b₀ b S) (h : Sound md b i pos S.node S.store)
    (hl : S.node.r.state = .leader) {k : M σ Unit}
    (hk : ∀ S', Wp k (fun _ S'' => Ends md i pos b₀ b S'') (Stops md i pos b₀) S' ↔
      ((c S' → Wp (sendAppend (G.cfg i) src 0) (fun _ S'' => Ends md i pos b₀ b S'')
        (Stops md i pos b₀) S') ∧ (¬ c S' → Ends md i pos b₀ b S'))) :
    Wp (maybeCommit (G.cfg i) >>= fun moved => if moved then broadcastAppend (G.cfg i) else k)
      (fun _ => Ends md i pos b₀ b) (Stops md i pos b₀) S := by
  rw [wp_bind]
  refine (maybeCommit_spec ht h hl).imp ?_
  rintro moved S₁ ⟨b₁, hg₁, ht₁, h₁, -, -, cm, hn⟩
  have hl₁ : S₁.node.r.state = .leader := by rw [hn]; exact hl
  have hsent : ∀ S', Sent md i pos b₀ b₁ S₁ S' → Ends md i pos b₀ b S' :=
    fun S' hS => Ends.grow hg₁ (Ends.here hS.1 hS.2.1)
  rw [wp_ite]
  refine ⟨fun _ => (broadcastAppend_spec ht₁ h₁ hl₁).mono (fun _ S' hS => hsent S' hS)
    fun _ _ he => he, fun _ => ?_⟩
  rw [hk]
  refine ⟨fun _ => ?_, fun _ => Ends.grow hg₁ (Ends.here ht₁ h₁)⟩
  exact (sendAppend_spec hsrc ht₁ h₁ hl₁ fun h0 => absurd rfl h0).imp fun _ S' hS => hsent S' hS

theorem handleAppendResp_spec (hm : MsgOK b m) (hty : m.type = .appResp)
    (hterm : m.term = S.node.r.term) (ht : Tr md i pos b₀ b S)
    (h : Sound md b i pos S.node S.store) (hl : S.node.r.state = .leader)
    (hfresh : md.fresh → FreshAnswer S.node m) :
    Wp (handleAppendResp (G.cfg i) m) (fun _ => Ends md i pos b₀ b) (Stops md i pos b₀) S := by
  have hbody : AppRespOK b m := by
    have := hm.body
    rwa [BodyOK, hty] at this
  have hack : Wp (when (m.readID ≠ 0) (ackRead (G.cfg i) m.readID m.fromId))
      (fun _ S' => Tr md i pos b₀ b S' ∧ Sound md b i pos S'.node S'.store ∧ Confirmed S S')
      (Stops md i pos b₀) S := by
    rw [wp_when]
    refine ⟨fun h0 => ackRead_spec hm.sender ht h hl fun hf hopen => ?_,
      fun _ => ⟨ht, h, rfl, S.node.r.reads, S.node.r.ready, rfl⟩⟩
    have := hbody.round h0 (hfresh hf hty hl hterm h0 hopen)
    rwa [hterm] at this
  simp only [handleAppendResp]
  rw [wp_bind]
  refine hack.imp ?_
  rintro _ S₁ ⟨ht₁, h₁, hs₁, reads, ready, hn₁⟩
  have hl₁ : S₁.node.r.state = .leader := by rw [hn₁]; exact hl
  have hterm₁ : m.term = S₁.node.r.term := by rw [hn₁]; exact hterm
  have hL₁ := h₁.toHeld.leading hl₁
  simp only [wp_bind, wp_getRaft]
  rw [wp_ite]
  refine ⟨fun _ => wp_pure.mpr (Ends.here ht₁ h₁), fun _ => ?_⟩
  rw [wp_ite]
  refine ⟨fun hrej => ?_, fun hrej => ?_⟩
  · -- a rejection moves the next index back, not below what is matched
    rw [wp_bind]
    refine (backtrack_spec h₁ hl₁ (by rw [← hterm₁]; exact hbody.conflict hrej)).imp ?_
    rintro next S' ⟨rfl, hnext⟩
    simp only [wp_bind, wp_modifyRaft]
    have hmatch := (hL₁.acked m.fromId).le_length b.inv hL₁.office.lead
    have h₂ := h₁.books hl₁
      (update S'.node.r.next m.fromId
        (if (if next ≤ S'.node.r.matchIdx m.fromId then succU64 (S'.node.r.matchIdx m.fromId) else next) < 1
          then 1
          else if next ≤ S'.node.r.matchIdx m.fromId then succU64 (S'.node.r.matchIdx m.fromId) else next))
      S'.node.r.snapOut
      (by
        intro q hq
        by_cases hqm : q = m.fromId
        · subst hqm
          rw [Function.update_self]
          have := succU64_le (S'.node.r.matchIdx m.fromId)
          split_ifs <;> omega
        · rw [Function.update_of_ne hqm]
          exact hL₁.next q hq) hL₁.snapOut
    refine (sendAppend_spec (b := b) (S := ⟨_, S'.store, S'.trace⟩) hm.sender ?_ ?_ ?_ ?_).imp ?_
    · exact ht₁
    · exact h₂
    · exact hl₁
    · exact fun h0 => absurd rfl h0
    · rintro _ S₂ ⟨ht₂, h₃, _⟩
      exact Ends.here ht₂ h₃
  · -- an acknowledgement
    have hheld := hbody.held (by simpa using hrej)
    rw [hterm₁] at hheld
    have h₂ := h₁.advanceFollower hl₁ S₁.node.r.snapOut hheld fun _ _ hx => hx
    rw [advanceFollower, wp_bind, wp_modifyRaft]
    refine commitAndSend_spec (S := ⟨_, S₁.store, S₁.trace⟩)
      (c := fun S' => S'.node.r.next m.fromId ≤ S'.store.lastIndex) hm.sender ?_ ?_ ?_ ?_
    · exact ht₁
    · exact h₂
    · exact hl₁
    · intro S'
      simp only [wp_bind, wp_getRaft, wp_getStore, wp_when]

theorem handleSnapshotResp_spec (hm : MsgOK b m) (hty : m.type = .snapResp)
    (hterm : m.term = S.node.r.term) (ht : Tr md i pos b₀ b S)
    (h : Sound md b i pos S.node S.store) (hl : S.node.r.state = .leader) :
    Wp (handleSnapshotResp (G.cfg i) m) (fun _ => Ends md i pos b₀ b) (Stops md i pos b₀)
      S := by
  have hL := h.toHeld.leading hl
  simp only [handleSnapshotResp, wp_bind, wp_getRaft]
  rw [wp_ite]
  refine ⟨fun hdone => ?_, fun _ => ?_⟩
  · have hbody := hm.body
    rw [BodyOK, hty] at hbody
    have hacked : Acked b.a m.fromId S.node.r.term m.index := Or.inr (hterm ▸ hbody hdone)
    have h₁ := h.advanceFollower hl (update S.node.r.snapOut m.fromId none) hacked (by
      intro q x hx
      by_cases hq : q = m.fromId
      · subst hq
        rw [Function.update_self] at hx
        cases hx
      · rwa [Function.update_of_ne hq] at hx)
    simp only [advanceFollower, wp_bind, wp_modifyRaft]
    rw [← wp_bind]
    refine commitAndSend_spec (S := ⟨_, S.store, S.trace⟩) (c := fun _ => True) hm.sender ?_ ?_ ?_ ?_
    · exact ht
    · exact h₁
    · exact hl
    · intro S'
      simp
  · cases hx : S.node.r.snapOut m.fromId with
    | none => exact wp_pure.mpr (Ends.here ht h)
    | some x =>
      show Wp (if x.index ≠ m.index then _ else _) _ _ _
      rw [wp_ite]
      refine ⟨fun _ => wp_pure.mpr (Ends.here ht h), fun _ => ?_⟩
      have hcert := hL.snapOut m.fromId x hx
      simp only [wp_bind, wp_modifyRaft]
      set x' : SnapTransfer := { x with offset := if m.reject then 0 else max x.offset m.offset }
      have h₁ := h.books hl S.node.r.next
        (update S.node.r.snapOut m.fromId (some x')) hL.next (by
          intro q y hy
          by_cases hq : q = m.fromId
          · subst hq
            rw [Function.update_self] at hy
            obtain rfl := Option.some.inj hy
            exact hcert
          · rw [Function.update_of_ne hq] at hy
            exact hL.snapOut q y hy)
      let S₁ : Sys σ :=
        { S with node := { S.node with r := { S.node.r with
          snapOut := update S.node.r.snapOut m.fromId (some x') } } }
      refine (sendChunk_spec (S := S₁) (x := x') ht h₁.toHeld hcert).imp ?_
      rintro _ S₂ ⟨ht₂, hn, hs⟩
      exact Ends.here ht₂ (by rw [hn, hs]; exact h₁)

/-! ## `Step`. -/

theorem rejectStale_spec {R : Panic → Sys σ → Prop} (ht : Tr md i pos b₀ b S)
    (h : Sound md b i pos S.node S.store) :
    Wp (rejectStale (G.cfg i) m) (fun _ => Ends md i pos b₀ b) R S := by
  unfold rejectStale
  split
  · refine send_ends ht h ?_
    exact fun hr => by cases hr
  · refine send_ends ht h ?_
    exact (show AppRespOK b _ from
      ⟨fun hr => (by cases hr), fun _ => Nat.zero_le _, fun _ hns => absurd ⟨rfl, rfl⟩ hns⟩)
  · refine send_ends ht h ?_
    exact fun hd => by cases hd
  · exact wp_pure.mpr (Ends.here ht h)

theorem dispatch_spec (hm : MsgOK b m) (hterm : m.term = S.node.r.term) (hto : m.toId = i)
    (ht : Tr md i pos b₀ b S) (h : Sound md b i pos S.node S.store)
    (hclean : md.clean → CleanInstall S.node S.store m)
    (hfresh : md.fresh → FreshAnswer S.node m) :
    Wp (dispatch (G.cfg i) m) (fun _ => Ends md i pos b₀ b) (Stops md i pos b₀) S := by
  unfold dispatch
  split
  · next hty => exact handleVote_spec hm hty hterm ht h
  · next hty => exact handleVoteResp_spec hm hty hterm hto ht h
  · next hty => exact handleAppend_spec hm hty hterm ht h
  · next hty =>
    rw [wp_bind, wp_getRaft, wp_when]
    exact ⟨fun hl => handleAppendResp_spec hm hty hterm ht h hl hfresh, fun _ => Ends.here ht h⟩
  · next hty => exact handleSnapshot_spec hm hty hterm ht h hclean
  · next hty =>
    rw [wp_bind, wp_getRaft, wp_when]
    exact ⟨fun hl => handleSnapshotResp_spec hm hty hterm ht h hl, fun _ => Ends.here ht h⟩

/-- `Step` of a true message: from a sound state to a sound state, with true messages and justified
effects on the way, and no refused log access. -/
theorem step_spec (hm : MsgOK b m) (hto : m.toId = i) (ht : Tr md i pos b₀ b S)
    (h : Sound md b i pos S.node S.store) (hclean : md.clean → CleanInstall S.node S.store m)
    (hfresh : md.fresh → FreshAnswer S.node m) :
    Wp (step (G.cfg i) m) (fun _ => Ends md i pos b₀ b) (Stops md i pos b₀) S := by
  simp only [step, wp_bind, wp_getRaft]
  rw [wp_ite]
  refine ⟨fun _ => rejectStale_spec ht h, fun hge => ?_⟩
  rw [wp_bind, wp_when]
  refine ⟨fun hgt => ?_, fun hle => ?_⟩
  · -- a higher term: whatever this node was, it follows now
    refine (becomeFollower_spec ht h hgt.le).imp ?_
    rintro _ S₁ ⟨b₁, hg, ht₁, h₁, hd⟩
    refine (dispatch_spec (hm.of_later hg.later) hd.term.symm hto ht₁ h₁ ?_ ?_).imp
      (fun _ _ he => he.grow hg)
    · intro hcl hty _ hc hdone hplace hlt
      obtain ⟨v, hs⟩ := hd.store
      rw [hs]
      refine hclean hcl hty hgt.le (hd.commit ▸ hc) hdone (hd.snapIn ▸ hplace) ?_
      rw [hs] at hlt
      exact hlt
    · intro _ _ hl
      rw [hd.state] at hl
      cases hl
  · exact dispatch_spec hm (by omega) hto ht h hclean hfresh

end Keystone.Raft
