/-
# Keystone.Raft.Election — terms, votes and the change of roles.

The specifications of `becomeFollower`, `becomeCandidate`, `becomeLeader`, `handleVote`,
`handleVoteResp` and `tick`.  Each matches an abstract action: adopting a term is `bump`, standing is
`stand`, a granted vote is `grant` (or nothing, when the same vote is repeated), a counted majority is
`elect`.

Two moments inside these functions are not `Held` and are shown on their own: after the new term is
written the node still carries its old role, and a new leader has not made its books yet.
-/
import Keystone.Raft.Appending

namespace Keystone.Raft

open Keystone.Lib
open Keystone.Lib.TermLog (Inv Le lastTm UpTo)
open Function (update)

variable {σ : Type} {G : Group σ} {md : Mode} {b b' b₀ : History G} {i : NodeID} {pos : ℕ}
  {n : Node σ} {s : MemStore} {S S' : Sys σ}

/-- A call ends in a sound state over a grown history. -/
def Ends (md : Mode) (i : NodeID) (pos : ℕ) (b₀ b : History G) (S' : Sys σ) : Prop :=
  After md i pos b₀ b (fun b' S' => Sound md b' i pos S'.node S'.store) S'

theorem Ends.here (ht : Tr md i pos b₀ b S) (h : Sound md b i pos S.node S.store) :
    Ends md i pos b₀ b S :=
  After.here ht h

theorem Ends.grow (hg : Grow i b b') (h : Ends md i pos b₀ b' S) : Ends md i pos b₀ b S :=
  After.grow hg h

/-- A send at the end of a call. -/
theorem send_ends {m : Message} {R : Panic → Sys σ → Prop} (ht : Tr md i pos b₀ b S)
    (h : Sound md b i pos S.node S.store)
    (hm : BodyOK b { m with fromId := i, term := S.node.r.term }) :
    Wp (send (G.cfg i) m) (fun _ => Ends md i pos b₀ b) R S := by
  refine (send_spec ht h.toHeld hm).imp ?_
  rintro _ S' ⟨ht', hn, hs⟩
  exact Ends.here ht' (by rw [hn, hs]; exact h)

/-- Timers and the known leader are looked at by no invariant. -/
theorem Sound.retime (h : Sound md b i pos n s) (lead : NodeID) (elapsed timeout : ℕ)
    (rng : ℕ → ℕ) :
    Sound md b i pos
      { n with r := { n.r with lead := lead, elapsed := elapsed, timeout := timeout, rng := rng } } s :=
  h.setRaft ⟨rfl, rfl, rfl, fun _ _ h => h, rfl, rfl, rfl, rfl⟩
    (h.role.congr rfl rfl rfl rfl rfl rfl rfl rfl rfl) id

/-! ## Becoming a follower. -/

/-- What `becomeFollower` keeps. -/
structure SteppedDown (t : ℕ) (S S' : Sys σ) : Prop where
  node : ∃ r', S'.node = { S.node with r := r' }
  store : ∃ v, S'.store = S.store.setState t v
  term : S'.node.r.term = t
  state : S'.node.r.state = .follower
  commit : S'.node.r.commit = S.node.r.commit
  snapIn : S'.node.r.snapIn = S.node.r.snapIn

/-- Reads of a node without open rounds. -/
theorem ReadsOK.close (r' : Raft) (h : ReadsOK md b i n) (hready : r'.ready = n.r.ready)
    (hid : r'.nextReadID = n.r.nextReadID) (hnone : ∀ id, r'.reads id = none) :
    ReadsOK md b i { n with r := r' } where
  opened id rr hr := by
    rw [hnone id] at hr
    cases hr
  ready x hx := by
    have := h.ready x (hready ▸ hx)
    rwa [← hid] at this
  queued id q hq := by
    have := h.queued id q hq
    rwa [← hid] at this
  waiting := h.waiting
  asked := h.asked
  births := h.births

/-- The first half: the term is adopted and made durable, the role still the old one. -/
theorem adoptTerm_spec {R : Panic → Sys σ → Prop} {t : ℕ} (ht : Tr md i pos b₀ b S)
    (h : Sound md b i pos S.node S.store) (hle : S.node.r.term ≤ t) :
    Wp (when (t > S.node.r.term) do
        modifyRaft fun r => { r with term := t, vote := None }
        persistState)
      (fun _ S' => After md i pos b₀ b (fun b' S' => Le b.a b'.a ∧ b'.a.log i = b.a.log i ∧
        ReadsOK md b' i S.node ∧ ∃ v,
          S'.node = { S.node with r := { S.node.r with term := t, vote := v } } ∧
          S'.store = S.store.setState t v ∧ Dur md.clean b'.a i S'.store) S') R S := by
  rw [wp_when]
  refine ⟨fun hgt => ?_, fun hge => ?_⟩
  · simp only [persistState, wp_bind, wp_modifyRaft, wp_getRaft, wp_modify, wp_emit]
    have hT := h.toHeld.term_eq
    have hstep : TermLog.Step G.params i b.a (b.a.bump i t) := .bump b.a t (by omega)
    set b₁ := b.step hstep b.idx with hb₁
    have hg : Grow i b b₁ := b.step_grow hstep b.idx
    have hdur : Dur md.clean b₁.a i (S.store.setState t None) :=
      h.dur.setState hg.le (Function.update_self ..) (by
        rw [if_pos rfl]
        exact Function.update_self ..) rfl
    let S₁ : Sys σ :=
      { S with
        node := { S.node with r := { S.node.r with term := t, vote := None } }
        store := S.store.setState t None }
    have ht₁ : Tr md i pos b₀ b₁ S₁ := ht.grow hg
    have hshown : Shown md b₁ i pos (some (.setState t None)) S₁.node S₁.store :=
      { dur := hdur
        term := rfl
        commit := h.commit.of_le b.inv hg.le rfl rfl
        pos := h.pos.of_le b.inv hg.le rfl rfl
        applied := h.applied
        births := h.reads.births
        office := fun _ hc => absurd hc id
        effect := fun e he => by cases he; trivial }
    exact ⟨b₁, hg, ht₁.emit hshown, hg.le, rfl,
      { h.reads with }, None, rfl, rfl, hdur⟩
  · obtain rfl : t = S.node.r.term := by omega
    refine After.here ht ⟨Le.refl _, rfl, h.reads, S.node.r.vote, rfl, ?_, h.dur⟩
    rw [h.vote, h.term]
    rfl

theorem becomeFollower_spec {R : Panic → Sys σ → Prop} {t : ℕ} {lead : NodeID}
    (ht : Tr md i pos b₀ b S) (h : Sound md b i pos S.node S.store) (hle : S.node.r.term ≤ t) :
    Wp (becomeFollower (G.cfg i) t lead)
      (fun _ S' => After md i pos b₀ b (fun b' S' => Sound md b' i pos S'.node S'.store ∧
        SteppedDown t S S') S') R S := by
  simp only [becomeFollower, wp_bind, wp_getRaft]
  refine Wp.imp (adoptTerm_spec ht h hle) ?_
  rintro _ S₁ ⟨b₁, hg, ht₁, hlea, hlog, hreads, v, hn, hs, hdur⟩
  have hcommit : Justified b₁.a i S₁.store S.node.r.commit :=
    h.commit.of_le b.inv hlea hlog (by rw [hs]; rfl)
  have hpos : Justified b₁.a i S₁.store pos := h.pos.of_le b.inv hlea hlog (by rw [hs]; rfl)
  have hterm : b₁.a.term i = t := by rw [hdur.term, hs]; rfl
  -- whatever timers it leaves, the stepped-down node is sound
  have key : ∀ r' : Raft, r'.term = t → r'.vote = v → r'.state = .follower →
      r'.commit = S.node.r.commit → r'.snapIn = S.node.r.snapIn → r'.ready = S.node.r.ready →
      r'.nextReadID = S.node.r.nextReadID → r'.restored = S.node.r.restored →
      (∀ id, r'.reads id = none) → Sound md b₁ i pos { S.node with r := r' } S₁.store := by
    intro r' h1 h2 h3 h4 h5 h6 h7 h8 h9
    have hheld : Held md b₁ i pos { S.node with r := r' } S₁.store :=
      { h with
        dur := hdur
        term := by rw [hs]; exact h1
        vote := by rw [hs]; exact h2
        commit := by show Justified b₁.a i S₁.store r'.commit; rw [h4]; exact hcommit
        pos := hpos
        applied := by show _ ≤ r'.commit; rw [h4]; exact h.applied
        snapIn := fun x hx => by
          have hx' := (h.snapIn x (h5 ▸ hx)).of_le hlea
          rw [hterm]
          exact hx'.mono (h.toHeld.term_eq ▸ hle)
        pending := fun k p hp => ⟨(h.pending k p hp).1, (h.pending k p hp).2.of_le hlea⟩
        reads := hreads.close r' h6 h7 h9
        role := Role.of_idle h3 h9 }
    have hsnap : S₁.store.snapIdx = S.store.snapIdx := by rw [hs]; rfl
    exact
      { toHeld := hheld
        whole := fun hl => by
          rw [show ({ S.node with r := r' } : Node σ).r.state = .follower from h3] at hl
          cases hl
        snap_commit := by rw [hsnap]; show _ ≤ r'.commit; rw [h4]; exact h.snap_commit
        cover := by rw [hsnap]; show _ ∨ ∃ x, r'.restored = some x ∧ _; rw [h8]; exact h.cover
        restored := fun x hx => by
          show _ ≤ r'.commit
          rw [h4]
          exact h.restored x (h8 ▸ hx) }
  -- the moment the role is dropped, with the old books still there
  have hshown : Shown md b₁ i pos (some (.become .follower))
      { S₁.node with r := { S₁.node.r with state := .follower } } S₁.store :=
    { dur := hdur
      term := by rw [hn, hs]; rfl
      commit := by rw [hn]; exact hcommit
      pos := hpos
      applied := by rw [hn]; exact h.applied
      births := by rw [hn]; exact hreads.births
      office := fun hl => by cases hl
      effect := fun e he => by cases he; trivial }
  simp only [setRole, wp_bind, wp_modifyRaft, wp_emit]
  let S₂ : Sys σ := { S₁ with node := { S₁.node with r := { S₁.node.r with state := .follower } } }
  have ht₂ := Tr.emit (S := S₂) ht₁ hshown
  rw [wp_when]
  refine ⟨fun _ => ?_, fun _ => ?_⟩
  · rw [wp_resetTimeout]
    refine ⟨b₁, hg, ht₂, ?_, ⟨⟨_, by rw [hn]⟩, ⟨v, hs⟩, by rw [hn], rfl, by rw [hn], by rw [hn]⟩⟩
    rw [hn]
    exact key _ rfl rfl rfl rfl rfl rfl rfl rfl fun _ => rfl
  · refine ⟨b₁, hg, ht₂, ?_, ⟨⟨_, by rw [hn]⟩, ⟨v, hs⟩, by rw [hn], rfl, by rw [hn], by rw [hn]⟩⟩
    rw [hn]
    exact key _ rfl rfl rfl rfl rfl rfl rfl rfl fun _ => rfl

/-! ## Becoming a leader. -/

/-- A counted majority of votes is a quorum of ballots. -/
theorem Standing.quorum {r : Raft} (h : Standing b i r) (hc : countVotes (G.cfg i) r = true) :
    ∃ Q, Majority G.peers Q ∧ ∀ p ∈ Q, ∃ l, b.a.ballot p r.term = some (i, l) := by
  have hmem : ∀ p ∈ ((r.votes.entries.filter fun v => v.2).map Sigma.fst).toFinset,
      r.votes.lookup p = some true := by
    intro p hp
    obtain ⟨⟨q, g⟩, hx, rfl⟩ := List.mem_map.mp (List.mem_toFinset.mp hp)
    obtain ⟨hx, hg⟩ := List.mem_filter.mp hx
    obtain rfl : g = true := hg
    exact AList.mem_lookup_iff.mpr hx
  refine ⟨_, ⟨fun p hp => ?_, ?_⟩, fun p hp => (h.votes p (hmem p hp)).2⟩
  · exact List.mem_toFinset.mpr (h.votes p (hmem p hp)).1
  · have hnd : ((r.votes.entries.filter fun v => v.2).map Sigma.fst).Nodup :=
      (List.filter_sublist.map Sigma.fst).nodup r.votes.nodupKeys
    rw [List.toFinset_card_of_nodup hnd, List.length_map, ← List.countP_eq_length_filter]
    have := of_decide_eq_true hc
    rwa [Config.quorum, G.cfg_peers] at this

theorem Role.standing {r : Raft} (h : Role b i r) (hst : r.state = .candidate) : Standing b i r := by
  unfold Role at h
  rwa [hst] at h

/-- A candidate with a majority is elected: nobody else leads its term. -/
theorem Standing.elect_step {r : Raft} (h : Standing b i r) (hT : b.a.term i = r.term)
    (hc : countVotes (G.cfg i) r = true) :
    b.a.leader r.term = none ∧ TermLog.Step G.params i b.a (b.a.elect i) := by
  obtain ⟨Q, hQ, hb⟩ := h.quorum hc
  have hnone : b.a.leader r.term = none := by
    by_contra hsome
    obtain ⟨c, hc⟩ := Option.ne_none_iff_exists'.mp hsome
    exact h.lead (b.inv.leader_of_quorum hQ hb hc ▸ hc)
  refine ⟨hnone, .elect b.a Q hQ ?_ ?_ ?_⟩
  · rw [hT]
    exact hb
  · rw [hT]
    exact h.cand
  · rw [hT]
    exact hnone

/-- The books of a leader that was just elected. -/
theorem leading_elect {r : Raft} (hT : b.a.term i = r.term) (hnone : b.a.leader r.term = none)
    (hstep : TermLog.Step G.params i b.a (b.a.elect i)) (hmatch : ∀ q, r.matchIdx q = 0)
    (hnext : ∀ q ∈ G.peers, r.next q = (b.a.log i).length + 1) (hout : ∀ q, r.snapOut q = none) :
    (b.step hstep (b.indexed_elect i)).a.llog r.term = b.a.log i ∧
      Leading (b.step hstep (b.indexed_elect i)) i r := by
  have hlead : (b.a.elect i).leader r.term = some i := by
    simp [TermLog.State.elect, hT]
  have hbase : (b.a.elect i).base r.term = b.a.log i := by
    simp [TermLog.State.elect, hT]
  have hllog : (b.a.elect i).llog r.term = b.a.log i := by
    simp [TermLog.State.elect, hT]
  refine ⟨hllog, ⟨⟨hlead, ?_, ?_⟩, fun k hk => ?_, fun q => ?_, fun q hq => ?_, fun q x hx => ?_,
    fun id _ => ?_⟩⟩
  · show (b.a.elect i).base r.term <+: b.a.log i
    rw [hbase]
  · show b.a.log i <+: (b.a.elect i).llog r.term
    rw [hllog]
  · exact absurd hnone (b.inv.chosen_leader (b.inv.commit_chosen _ k hk))
  · rw [hmatch q]
    exact Or.inl (Nat.zero_le _)
  · show 1 ≤ r.next q ∧ r.next q ≤ ((b.a.elect i).llog r.term).length + 1
    rw [hnext q hq, hllog]
    omega
  · rw [hout q] at hx
    cases hx
  · show b.rounds r.term id = none
    by_contra hsome
    obtain ⟨rd, hrd⟩ := Option.ne_none_iff_exists'.mp hsome
    exact (b.rounds_ok _ _ rd hrd).lead hnone

theorem becomeLeader_spec (ht : Tr md i pos b₀ b S) (h : Sound md b i pos S.node S.store)
    (hst : S.node.r.state = .candidate) (hc : countVotes (G.cfg i) S.node.r = true) :
    Wp (becomeLeader (G.cfg i)) (fun _ => Ends md i pos b₀ b) (Stops md i pos b₀) S := by
  have hT := h.toHeld.term_eq
  obtain ⟨hnone, hstep⟩ := (h.role.standing hst).elect_step hT hc
  set b₁ := b.step hstep (b.indexed_elect i) with hb₁
  have hg : Grow i b b₁ := b.step_grow hstep _
  have hdur : Dur md.clean b₁.a i S.store := h.dur.of_le hg.le rfl rfl rfl
  have hcommit := h.commit.of_le b.inv hg.le (i := i) rfl (rfl : S.store.snapIdx = _)
  have hpos := h.pos.of_le b.inv hg.le (i := i) rfl (rfl : S.store.snapIdx = _)
  simp only [becomeLeader, setRole, wp_bind, wp_modifyRaft, wp_emit, wp_getStore]
  -- the moment of taking office
  let S₁ : Sys σ := { S with node := { S.node with r := { S.node.r with state := .leader } } }
  have hoffice : InOffice b₁.a i S.node.r.term := by
    refine ⟨?_, ?_, ?_⟩
    · show (b.a.elect i).leader _ = _
      simp [TermLog.State.elect, hT]
    · show (b.a.elect i).base _ <+: b.a.log i
      simp [TermLog.State.elect, hT]
    · show b.a.log i <+: (b.a.elect i).llog _
      simp [TermLog.State.elect, hT]
  have ht₁ : Tr md i pos b₀ b₁ S₁ := ht.grow hg
  have ht₂ := ht₁.emit (e := .become .leader)
    { dur := hdur
      term := h.term
      commit := hcommit
      pos := hpos
      applied := h.applied
      births := h.reads.births
      office := fun _ _ => hoffice
      effect := fun e he => by cases he; trivial }
  -- the books
  set r' : Raft :=
    { S.node.r with
      state := .leader
      lead := (G.cfg i).id
      elapsed := 0
      next := fun p => if p ∈ (G.cfg i).peers then S.store.lastIndex + 1 else 0
      matchIdx := fun _ => 0
      reads := fun _ => none
      snapOut := fun _ => none } with hr'
  obtain ⟨hllog, hlead⟩ := leading_elect (r := r') hT hnone hstep (fun _ => rfl)
    (by
      intro q hq
      rw [hr']
      show (if q ∈ (G.cfg i).peers then S.store.lastIndex + 1 else 0) = _
      rw [G.cfg_peers, if_pos hq, h.dur.lastIndex])
    (fun _ => rfl)
  have h₂ : Sound md b₁ i pos { S.node with r := r' } S.store :=
    { h with
      dur := hdur
      commit := hcommit
      pos := hpos
      snapIn := fun x hx => (h.snapIn x hx).of_le hg.le
      pending := fun k p hp => ⟨(h.pending k p hp).1, (h.pending k p hp).2.of_le hg.le⟩
      reads := ReadsOK.close (n := S.node) _
        { h.reads with } rfl rfl fun _ => rfl
      role := Role.of_leading rfl hlead
      whole := fun _ => hllog.symm }
  let S₂ : Sys σ :=
    { S with
      node := { S.node with r := r' }
      trace := S.trace ++ [⟨.become .leader, S₁.node, S.store⟩] }
  refine Wp.imp (appendEntries_spec (S := S₂) [{ type := .noop }] ht₂ h₂ rfl) ?_
  rintro _ S₃ ⟨b₃, hg₃, ht₃, h₃, -⟩
  exact wp_pure.mpr ⟨b₃, hg.trans hg₃, ht₃, h₃⟩

theorem propose_spec (payloads : List Bytes) (ht : Tr md i pos b₀ b S)
    (h : Sound md b i pos S.node S.store) (hl : S.node.r.state = .leader) :
    Wp (propose (G.cfg i) payloads)
      (fun first S' => After md i pos b₀ b (fun b' S' => Sound md b' i pos S'.node S'.store ∧
        first = some ((b.a.llog S.node.r.term).length + 1) ∧
        b'.a.llog S.node.r.term = b.a.llog S.node.r.term ++
          stamp (b.a.llog S.node.r.term).length S.node.r.term
            (payloads.map fun p => { data := p }) ∧
        ∃ r', S'.node = { S.node with r := r' } ∧ r'.term = S.node.r.term ∧ r'.state = .leader) S')
      (Stops md i pos b₀) S := by
  simp only [propose, wp_bind, wp_getRaft]
  rw [wp_ite]
  refine ⟨fun hne => absurd hl hne, fun _ => ?_⟩
  rw [wp_bind]
  refine Wp.imp (appendEntries_spec _ ht h hl) ?_
  rintro first S' ⟨b', hg, ht', h', hfirst, hrest⟩
  exact wp_pure.mpr ⟨b', hg, ht', h', by rw [hfirst], hrest⟩

/-! ## Standing for election. -/

/-- The history after node `i` stood for election. -/
abbrev History.stand (b : History G) (i : NodeID) : History G :=
  b.step (i := i) (.stand b.a) b.idx

/-- The state a candidate stands with. -/
theorem stand_sound (h : Sound md b i pos n s) (hl : n.r.state ≠ .leader) (r' : Raft)
    (hterm : r'.term = n.r.term + 1) (hvote : r'.vote = i) (hst : r'.state = .candidate)
    (hcommit : r'.commit = n.r.commit) (hvotes : r'.votes = AList.singleton i true)
    (hreads : r'.reads = n.r.reads) (hready : r'.ready = n.r.ready)
    (hid : r'.nextReadID = n.r.nextReadID) (hin : r'.snapIn = n.r.snapIn)
    (hrest : r'.restored = n.r.restored) :
    Sound md (b.stand i) i pos { n with r := r' }
      (s.setState (n.r.term + 1) i) := by
  have hT := h.toHeld.term_eq
  have hg : Grow i b (b.stand i) := b.step_grow _ _
  have hterm' : (b.a.stand i).term i = n.r.term + 1 := by
    simp [TermLog.State.stand, hT]
  have hdur : Dur md.clean (b.a.stand i) i (s.setState (n.r.term + 1) i) :=
    h.dur.setState hg.le hterm' (by
      rw [if_neg h.member.2]
      exact Function.update_self ..) rfl
  have hidle : ∀ id, r'.reads id = none := fun id => by rw [hreads]; exact h.role.idle hl id
  have hstand : Standing (b.stand i) i r' :=
    { cand := by
        show (b.a.stand i).cand i r'.term = some (b.a.log i)
        rw [hterm]
        simp [TermLog.State.stand, hT]
      votes := fun p hp => by
        rw [hvotes] at hp
        obtain rfl : p = i := by
          have hmem := AList.mem_keys.mp (AList.lookup_isSome.mp (Option.isSome_of_mem hp))
          rw [AList.keys_singleton] at hmem
          exact List.mem_singleton.mp hmem
        refine ⟨h.member.1, b.a.log p, ?_⟩
        show (b.a.stand p).ballot p r'.term = _
        rw [hterm]
        simp [TermLog.State.stand, hT]
      lead := fun hc => by
        have hle := b.inv.leader_term r'.term i hc
        rw [hterm, hT] at hle
        omega
      idle := hidle }
  exact
    { h with
      dur := hdur
      term := hterm
      vote := hvote
      commit := by
        show Justified _ i _ r'.commit
        rw [hcommit]
        exact h.commit.of_le b.inv hg.le rfl rfl
      pos := h.pos.of_le b.inv hg.le rfl rfl
      applied := by show _ ≤ r'.commit; rw [hcommit]; exact h.applied
      snapIn := fun x hx => by
        refine ((h.snapIn x (hin ▸ hx)).of_le hg.le).mono ?_
        show b.a.term i ≤ (b.a.stand i).term i
        rw [hterm', hT]
        omega
      pending := fun k p hp => ⟨(h.pending k p hp).1, (h.pending k p hp).2.of_le hg.le⟩
      reads := ReadsOK.close (n := n) r'
        { h.reads with } hready hid hidle
      role := Role.of_standing hst hstand
      whole := fun hc => by
        rw [show ({ n with r := r' } : Node σ).r.state = .candidate from hst] at hc
        cases hc
      snap_commit := by show s.snapIdx ≤ r'.commit; rw [hcommit]; exact h.snap_commit
      cover := by show _ ∨ ∃ x, r'.restored = some x ∧ _; rw [hrest]; exact h.cover
      restored := fun x hx => by
        show _ ≤ r'.commit
        rw [hcommit]
        exact h.restored x (hrest ▸ hx) }

theorem becomeCandidate_spec (ht : Tr md i pos b₀ b S) (h : Sound md b i pos S.node S.store)
    (hl : S.node.r.state ≠ .leader) :
    Wp (becomeCandidate (G.cfg i)) (fun _ => Ends md i pos b₀ b) (Stops md i pos b₀) S := by
  simp only [becomeCandidate, persistState, setRole, wp_bind, wp_modifyRaft, wp_getRaft, wp_modify,
    wp_emit, wp_resetTimeout, G.cfg_id]
  let b₁ := b.stand i
  have hg : Grow i b b₁ := b.step_grow _ _
  -- the new term and the own vote are durable before the role changes
  have hfin := stand_sound h hl { S.node.r with
      term := S.node.r.term + 1, vote := i, state := .candidate, votes := AList.singleton i true }
    rfl rfl rfl rfl rfl rfl rfl rfl rfl rfl
  let S₁ : Sys σ :=
    { S with
      node := { S.node with r := { S.node.r with term := S.node.r.term + 1, vote := i } }
      store := S.store.setState (S.node.r.term + 1) i }
  have ht₁ : Tr md i pos b₀ b₁ S₁ := ht.grow hg
  have ht₂ := ht₁.emit (e := .setState (S.node.r.term + 1) i)
    { dur := hfin.dur
      term := rfl
      commit := hfin.commit
      pos := hfin.pos
      applied := h.applied
      births := h.reads.births
      office := fun _ hc => absurd hc id
      effect := fun e he => by cases he; trivial }
  let S₂ : Sys σ :=
    { S₁ with
      node := { S.node with r := { S.node.r with
        term := S.node.r.term + 1, vote := i, state := .candidate } }
      trace := S.trace ++ [⟨.setState (S.node.r.term + 1) i, S₁.node, S₁.store⟩] }
  have ht₃ := Tr.emit (S := S₂) (e := .become .candidate) ht₂
    { dur := hfin.dur
      term := rfl
      commit := hfin.commit
      pos := hfin.pos
      applied := h.applied
      births := h.reads.births
      office := fun hc => by cases hc
      effect := fun e he => by cases he; trivial }
  let S₃ : Sys σ :=
    { node := { S.node with r := { S.node.r with
        term := S.node.r.term + 1, vote := i, state := .candidate, lead := None
        votes := AList.singleton i true
        elapsed := 0
        timeout := (G.cfg i).electionTick + S.node.r.rng 0 % (G.cfg i).electionTick
        rng := fun k => S.node.r.rng (k + 1) } }
      store := S.store.setState (S.node.r.term + 1) i
      trace := S₂.trace ++ [⟨.become .candidate, S₂.node, S₂.store⟩] }
  have ht₄ : Tr md i pos b₀ b₁ S₃ := ht₃
  have h₃ : Sound md b₁ i pos S₃.node S₃.store :=
    stand_sound h hl _ rfl rfl rfl rfl rfl rfl rfl rfl rfl rfl
  show Wp (if countVotes (G.cfg i) S₃.node.r then becomeLeader (G.cfg i) else _) _ _ S₃
  rw [wp_ite]
  refine ⟨fun hc => ?_, fun _ => ?_⟩
  · exact (becomeLeader_spec ht₄ h₃ rfl hc).imp fun _ _ he => he.grow hg
  · rw [wp_bind, wp_lastIndexAndTerm h₃.dur.termOf_last]
    refine (wp_forM (fun S' => Tr md i pos b₀ b₁ S' ∧ S'.node = S₃.node ∧ S'.store = S₃.store)
      ⟨ht₄, rfl, rfl⟩ ?_).imp ?_
    · rintro p - S₄ ⟨ht₅, hn, hs⟩
      have h₄ : Held md b₁ i pos S₄.node S₄.store := by rw [hn, hs]; exact h₃.toHeld
      rw [wp_when]
      refine ⟨fun _ => ?_, fun _ => ⟨ht₅, hn, hs⟩⟩
      refine (send_spec ht₅ h₄ ?_).imp ?_
      · refine ⟨b₁.a.log i, ?_, ?_, rfl⟩
        · rw [hn]
          exact (h₃.role.standing rfl).cand
        · exact h₃.dur.lastIndex
      · rintro _ S₅ ⟨ht₆, hn', hs'⟩
        exact ⟨ht₆, hn'.trans hn, hs'.trans hs⟩
    · rintro _ S₄ ⟨ht₅, hn, hs⟩
      exact Ends.grow hg (Ends.here ht₅ (by rw [hn, hs]; exact h₃))

theorem tick_spec (ht : Tr md i pos b₀ b S) (h : Sound md b i pos S.node S.store) :
    Wp (tick (G.cfg i)) (fun _ => Ends md i pos b₀ b) (Stops md i pos b₀) S := by
  simp only [tick, wp_bind, wp_modifyRaft, wp_getRaft]
  have h₁ := h.retime S.node.r.lead (S.node.r.elapsed + 1) S.node.r.timeout S.node.r.rng
  let S₁ : Sys σ :=
    { S with node := { S.node with r := { S.node.r with elapsed := S.node.r.elapsed + 1 } } }
  rw [wp_ite]
  refine ⟨fun hl => ?_, fun hl => ?_⟩
  · rw [wp_when]
    refine ⟨fun _ => ?_, fun _ => Ends.here (S := S₁) ht h₁⟩
    simp only [wp_bind, wp_modifyRaft]
    have h₂ := h.retime S.node.r.lead 0 S.node.r.timeout S.node.r.rng
    let S₂ : Sys σ := { S with node := { S.node with r := { S.node.r with elapsed := 0 } } }
    refine Wp.imp (broadcastAppend_spec (S := S₂) ht h₂ hl) ?_
    rintro _ S₃ ⟨ht₃, h₃, _⟩
    exact Ends.here ht₃ h₃
  · rw [wp_when]
    exact ⟨fun _ => becomeCandidate_spec (S := S₁) ht h₁ hl, fun _ => Ends.here (S := S₁) ht h₁⟩

/-! ## Votes. -/

/-- A vote changes nothing but the vote. -/
theorem Sound.revote (h : Sound md b i pos n s) (hs : Still i b b') {v : NodeID}
    (hllog : ∀ T, b'.a.llog T = b.a.llog T)
    (hv : b'.a.vote i = if v = None then none else some v) :
    Sound md b' i pos { n with r := { n.r with vote := v } } (s.setState n.r.term v) :=
  { h with
    dur := h.dur.setState hs.later.le (hs.term.trans h.toHeld.term_eq) hv hs.log
    term := rfl
    vote := rfl
    commit := h.commit.of_le b.inv hs.later.le hs.log rfl
    pos := h.pos.of_le b.inv hs.later.le hs.log rfl
    snapIn := fun x hx => by
      rw [hs.term]
      exact (h.snapIn x hx).of_le hs.later.le
    pending := fun k p hp => ⟨(h.pending k p hp).1, (h.pending k p hp).2.of_le hs.later.le⟩
    reads :=
      have hr := h.reads.still hs
      { hr with }
    role := (h.role.still hs).congr rfl rfl rfl rfl rfl rfl rfl rfl rfl
    whole := fun hl => by
      show _ = b'.a.llog n.r.term
      rw [hs.log, h.whole hl, hllog] }

/-- The abstract side of a granted vote: a first vote is a ballot, a repeated one is on record. -/
theorem grant_history (h : Sound md b i pos n s) {c : NodeID} {lc : List Entry} (hc : c ≠ None)
    (hvote : n.r.vote = c ∨ n.r.vote = None) (hcand : b.a.cand c n.r.term = some lc)
    (hup : UpTo Entry.term (b.a.log i) lc) :
    ∃ b', Grow i b b' ∧ Still i b b' ∧ (∀ T, b'.a.llog T = b.a.llog T) ∧
      b'.a.vote i = some c ∧ ∃ l, b'.a.ballot i n.r.term = some (c, l) := by
  have hT := h.toHeld.term_eq
  rcases hvote with hv | hv
  · have hvi : b.a.vote i = some c := by
      rw [h.dur.vote, ← h.vote, hv, if_neg hc]
    obtain ⟨l, hl⟩ := b.inv.vote_ballot i c hvi
    refine ⟨b, Grow.refl i b, ?_, fun _ => rfl, hvi, l, hT ▸ hl⟩
    exact ⟨Later.refl b, rfl, rfl, fun _ h => h, fun _ _ _ h => h, fun _ _ _ => rfl, rfl, fun _ => rfl⟩
  · have hnone : b.a.vote i = none := by
      rw [h.dur.vote, ← h.vote, hv, if_pos rfl]
    have hstep : TermLog.Step G.params i b.a (b.a.grant i c) :=
      .grant b.a c lc hnone (by rw [hT]; exact hcand) hup
    have hg : Grow i b (b.step hstep b.idx) := b.step_grow hstep b.idx
    refine ⟨b.step hstep b.idx, hg, ?_, fun _ => rfl, Function.update_self .., b.a.log i, ?_⟩
    · exact ⟨hg.later, rfl, rfl, fun _ h => h, fun _ _ _ h => h, fun _ _ _ => rfl, rfl, fun _ => rfl⟩
    · show (b.a.grant i c).ballot i n.r.term = _
      simp [TermLog.State.grant, hT]

theorem handleVote_spec {m : Message} (hm : MsgOK b m) (hty : m.type = .vote)
    (hterm : m.term = S.node.r.term) (ht : Tr md i pos b₀ b S)
    (h : Sound md b i pos S.node S.store) :
    Wp (handleVote (G.cfg i) m) (fun _ => Ends md i pos b₀ b) (Stops md i pos b₀) S := by
  have hbody := hm.body
  rw [BodyOK, hty] at hbody
  obtain ⟨lc, hcand, hindex, hlogTerm⟩ := hbody
  simp only [handleVote, wp_bind, wp_getRaft]
  rw [wp_lastIndexAndTerm h.dur.termOf_last]
  show Wp (if _ then _ else _) _ _ _
  rw [wp_ite]
  refine ⟨fun _ => ?_, fun hok => ?_⟩
  · refine send_ends ht h ?_
    exact fun hrej => by cases hrej
  · rw [not_or, not_not, not_not] at hok
    obtain ⟨hcan, hup⟩ := hok
    -- the comparison the voter made is the abstract one
    have hup' : UpTo Entry.term (b.a.log i) lc := by
      rw [h.dur.lastIndex, hindex, hlogTerm] at hup
      rcases hup with hlt | ⟨heq, hge⟩
      · exact Or.inl hlt
      · exact Or.inr ⟨heq.symm, hge⟩
    obtain ⟨b₁, hg, hstill, hllog, hvote, l, hl⟩ := grant_history h hm.sender_ne
      (hcan.imp_right And.left) (hterm ▸ hcand) hup'
    simp only [persistState, wp_bind, wp_modifyRaft, wp_getRaft, wp_modify, wp_emit]
    have h₁ := h.revote hstill hllog (v := m.fromId) (by rw [if_neg hm.sender_ne]; exact hvote)
    let S₁ : Sys σ :=
      { S with
        node := { S.node with r := { S.node.r with vote := m.fromId } }
        store := S.store.setState S.node.r.term m.fromId }
    have ht₁ : Tr md i pos b₀ b₁ S₁ := ht.grow hg
    have ht₂ := ht₁.emit (e := .setState S.node.r.term m.fromId) (h₁.toHeld.shown trivial)
    have h₂ := h₁.retime S.node.r.lead 0 S.node.r.timeout S.node.r.rng
    let S₂ : Sys σ :=
      { S₁ with
        node := { S₁.node with r := { S₁.node.r with elapsed := 0 } }
        trace := S.trace ++ [⟨.setState S.node.r.term m.fromId, S₁.node, S₁.store⟩] }
    refine (send_ends (S := S₂) ht₂ h₂ ?_).imp fun _ _ he => he.grow hg
    exact fun _ => ⟨l, hl⟩

theorem handleVoteResp_spec {m : Message} (hm : MsgOK b m) (hty : m.type = .voteResp)
    (hterm : m.term = S.node.r.term) (hto : m.toId = i) (ht : Tr md i pos b₀ b S)
    (h : Sound md b i pos S.node S.store) :
    Wp (handleVoteResp (G.cfg i) m) (fun _ => Ends md i pos b₀ b) (Stops md i pos b₀) S := by
  have hbody := hm.body
  rw [BodyOK, hty] at hbody
  simp only [handleVoteResp, wp_bind, wp_getRaft]
  rw [wp_ite]
  refine ⟨fun _ => wp_pure.mpr (Ends.here ht h), fun hst => ?_⟩
  have hst : S.node.r.state = .candidate := not_not.mp hst
  have hstand := h.role.standing hst
  simp only [wp_bind, wp_modifyRaft, wp_getRaft]
  set votes := S.node.r.votes.insert m.fromId (!m.reject) with hvotes
  have h₁ : Sound md b i pos { S.node with r := { S.node.r with votes := votes } } S.store := by
    refine h.setRaft ⟨rfl, rfl, rfl, fun _ _ h => h, rfl, rfl, rfl, rfl⟩ ?_ id
    have hstand' : Standing b i { S.node.r with votes := votes } :=
      { hstand with
        votes := fun p hp => by
          change votes.lookup p = some true at hp
          by_cases hpm : p = m.fromId
          · subst hpm
            rw [hvotes, AList.lookup_insert] at hp
            have hrej : m.reject = false := by simpa using hp
            obtain ⟨l, hl⟩ := hbody hrej
            rw [hterm, hto] at hl
            exact ⟨hm.sender, l, hl⟩
          · rw [hvotes, AList.lookup_insert_ne hpm] at hp
            exact hstand.votes p hp }
    exact Role.of_standing hst hstand'
  let S₁ : Sys σ := { S with node := { S.node with r := { S.node.r with votes := votes } } }
  rw [wp_ite]
  refine ⟨fun hc => becomeLeader_spec (S := S₁) ht h₁ hst hc, fun _ => ?_⟩
  rw [wp_when]
  refine ⟨fun _ => ?_, fun _ => Ends.here (S := S₁) ht h₁⟩
  refine (becomeFollower_spec (S := S₁) ht h₁ le_rfl).imp ?_
  rintro _ S' ⟨b', hg, ht', h', -⟩
  exact ⟨b', hg, ht', h'⟩

end Keystone.Raft
