/-
# Keystone.Raft.ProbeExchange — leader and follower in lockstep until an append is accepted.

`exchange` delivers a leader's append request to a follower, the answer to the leader, the leader's next
request to the follower, and so on, each through `step`.  It is over when an append is accepted or the
leader turns to a snapshot.  `Probe` is what the leader's requests have in common and `Answer` what the
follower's answers have; `Keystone.Raft.Backtracking` says how one leads to the next.
-/
import Keystone.Raft.Backtracking

namespace Keystone.Raft

open Keystone.Lib
open Function (update)

variable {σ α : Type} {cfg cl cf : Config} {S S' : Sys σ} {l ll lf : List Entry} {s : MemStore}

/-! ## The exchange. -/

/-- The message a call sent last. -/
def lastSent (S : Sys σ) : Option Message :=
  match S.trace.getLast? with
  | some ⟨.send m, _, _⟩ => some m
  | _ => none

/-- A message is delivered, and the receiver answers. -/
def respond (cfg : Config) (S : Sys σ) (m : Message) : Option (Sys σ × Message) :=
  match step cfg m S with
  | .ok _ S' => (lastSent S').map fun m' => (S', m')
  | .error _ _ => none

inductive Outcome where
  | accepted
  | snapshot
  | unfinished
  | panicked
  deriving DecidableEq, Repr

/-- At most so many rounds of request and answer, starting with the request `m`. -/
def exchange (cl cf : Config) : ℕ → Sys σ → Sys σ → Message → Outcome
  | 0, _, _, _ => .unfinished
  | rounds + 1, L, F, m =>
    if m.type = .snap then
      .snapshot
    else
      match respond cf F m with
      | none => .panicked
      | some (F', resp) =>
        if resp.reject then
          match respond cl L resp with
          | none => .panicked
          | some (L', m') => exchange cl cf rounds L' F' m'
        else
          .accepted

theorem respond_of_wp {m : Message} {P : Sys σ → Message → Prop}
    (h : Wp (step cfg m) (fun _ S' => ∃ m', lastSent S' = some m' ∧ P S' m') (fun _ _ => False) S) :
    ∃ S' m', respond cfg S m = some (S', m') ∧ P S' m' := by
  unfold Wp at h
  unfold respond
  cases hrun : step cfg m S with
  | ok a S' =>
    rw [hrun] at h
    obtain ⟨m', hlast, hP⟩ := h
    exact ⟨S', m', by simp only [hlast, Option.map_some], hP⟩
  | error e S' =>
    rw [hrun] at h
    exact h.elim

/-! ## What a call leaves alone. -/

/-- The log, the commit index and the term are as before. -/
structure AtRest (S S' : Sys σ) : Prop extends SameLog S S' where
  term : S'.node.r.term = S.node.r.term

instance : IsPreorder (Sys σ) AtRest where
  refl S := ⟨refl_of SameLog S, rfl⟩
  trans _ _ _ h h' := ⟨trans_of SameLog h.toSameLog h'.toSameLog, h'.term.trans h.term⟩

theorem send_last {m : Message} {R : Panic → Sys σ → Prop} :
    Wp (send cfg m)
      (fun _ S' => S'.node = S.node ∧ S'.store = S.store ∧
        lastSent S' = some { m with fromId := cfg.id, term := S.node.r.term }) R S := by
  rw [wp_send, wp_emit]
  exact ⟨rfl, rfl, by simp [lastSent]⟩

/-! ## The follower's answer. -/

/-- An append request as the leader of the log `ll` makes it. -/
structure Probe (ll : List Entry) (m : Message) : Prop where
  type : m.type = .app
  index : m.index ≤ ll.length
  logTerm : m.logTerm = termIn ll m.index
  entries : NumberedAfter m.index m.entries

/-- The answer of a follower with the log `lf`. -/
structure Answer (cf : Config) (ll lf : List Entry) (m : Message) (F F' : Sys σ) (resp : Message) :
    Prop where
  type : resp.type = .appResp
  sender : resp.fromId = cf.id
  term : resp.term = m.term
  readID : resp.readID = m.readID
  newTerm : F'.node.r.term = m.term
  rejected : resp.reject = true → SameLog F F' ∧
    Rejection ll lf F.store.snapIdx m.index resp.conflictTerm resp.conflictIndex

/-- Entries behind an index the log reaches are never refused. -/
theorem appendConflict_runs {es : List Entry} {j : ℕ} (h : Shows S.store l)
    (hsnap : S.store.snapIdx ≤ j) (hj : j ≤ l.length) (hes : NumberedAfter j es) :
    Wp (appendConflict S.store.lastIndex es) (fun _ S' => S'.node = S.node) (fun _ _ => False) S := by
  induction es generalizing j with
  | nil => exact rfl
  | cons e es ih =>
    obtain ⟨he, hes⟩ := hes
    have hlast := h.lastIndex
    have hwrite : Wp (appendStore (e :: es)) (fun _ S' => S'.node = S.node) (fun _ _ => False) S := by
      have hok : ¬ (e.index > S.store.lastIndex + 1 ∨ e.index ≤ S.store.snapIdx) := by omega
      simp only [appendStore, wp_bind, wp_getStore, MemStore.append, if_neg hok]
      exact wp_forM (fun S' : Sys σ => S'.node = S.node) rfl fun e _ t ht => ht
    simp only [appendConflict]
    rw [wp_ite]
    refine ⟨fun _ => ?_, fun hle => ?_⟩
    · rw [wp_bind, wp_pure, if_pos rfl]
      exact hwrite
    · rw [wp_bind, wp_termAt (h.termOf (by omega) (by omega)), wp_bind, wp_pure, wp_ite]
      exact ⟨fun _ => hwrite, fun _ => ih (j := j + 1) (by omega) (by omega) hes⟩

/-- Under its own term a node that steps down only changes its role. -/
theorem stepDown_atRest {t : ℕ} {lead : NodeID} (ht : S.node.r.term = t) :
    Wp (when (S.node.r.state ≠ .follower) (becomeFollower cfg t lead)) (fun _ => AtRest S)
      (fun _ _ => False) S := by
  rw [wp_when]
  refine ⟨fun _ => ?_, fun _ => refl_of AtRest S⟩
  refine becomeFollower_down.imp ?_
  rintro _ S₁ ⟨hlog, -, hterm⟩
  exact ⟨hlog, by rw [hterm, ht, max_self]⟩

theorem handleAppend_answers {m : Message} (h : Shows S.store lf)
    (hag : AgreeTo ll lf S.node.r.commit) (hsnap : S.store.snapIdx ≤ S.node.r.commit)
    (hterm : S.node.r.term = m.term) (hp : Probe ll m) :
    Wp (handleAppend cf m) (fun _ S' => ∃ resp, lastSent S' = some resp ∧
      Answer cf ll lf m S S' resp) (fun _ _ => False) S := by
  simp only [handleAppend]
  rw [wp_bind, wp_getRaft]
  refine Wp.bind (stepDown_atRest hterm) fun _ S₁ h₁ => ?_
  rw [wp_bind, wp_modifyRaft, wp_bind, wp_getRaft]
  generalize hS₂ : ({ S₁ with node := { S₁.node with r := { S₁.node.r with
    lead := m.fromId, elapsed := 0 } } } : Sys σ) = S₂
  have h₂ : AtRest S S₂ := by
    rw [← hS₂]
    exact ⟨⟨h₁.commit, h₁.entries, h₁.snapIdx, h₁.snapTerm⟩, h₁.term⟩
  have hshow := h.of_sameLog h₂.toSameLog
  -- a rejection is sent from a node that has changed nothing else
  have hreject : ∀ {m' : Message}, m'.type = .appResp → m'.readID = m.readID →
      Rejection ll lf S.store.snapIdx m.index m'.conflictTerm m'.conflictIndex →
      Wp (send cf m') (fun _ S' => ∃ resp, lastSent S' = some resp ∧ Answer cf ll lf m S S' resp)
        (fun _ _ => False) S₂ := by
    intro m' hty hid hrej
    refine send_last.imp ?_
    rintro _ S₃ ⟨hn, hs, hlast⟩
    refine ⟨_, hlast, hty, rfl, h₂.term.trans hterm, hid, ?_, fun _ => ⟨⟨?_, ?_, ?_, ?_⟩, hrej⟩⟩
    · rw [hn]
      exact h₂.term.trans hterm
    · rw [hn]
      exact h₂.commit
    · rw [hs]
      exact h₂.entries
    · rw [hs]
      exact h₂.snapIdx
    · rw [hs]
      exact h₂.snapTerm
  have haccept : ∀ {m' : Message} {S₃ : Sys σ}, S₃.node.r.term = S₂.node.r.term →
      m'.type = .appResp → m'.readID = m.readID → m'.reject = false →
      Wp (send cf m') (fun _ S' => ∃ resp, lastSent S' = some resp ∧ Answer cf ll lf m S S' resp)
        (fun _ _ => False) S₃ := by
    intro m' S₃ ht hty hid hacc
    have hT : S₃.node.r.term = m.term := ht.trans (h₂.term.trans hterm)
    refine send_last.imp ?_
    rintro _ S₄ ⟨hn, -, hlast⟩
    refine ⟨_, hlast, hty, rfl, hT, hid, by rw [hn]; exact hT, fun hrej => ?_⟩
    exact absurd (hacc.symm.trans hrej) (by decide)
  rw [wp_ite]
  refine ⟨fun _ => haccept rfl rfl rfl rfl, fun hlow => ?_⟩
  have hlow : S₂.node.r.commit ≤ m.index := not_lt.mp hlow
  rw [h₂.commit] at hlow
  rw [wp_bind, wp_getStore, wp_ite]
  refine ⟨fun hgt => hreject rfl rfl (Or.inl ⟨?_, rfl, ?_⟩), fun hle => ?_⟩
  · rwa [hshow.lastIndex] at hgt
  · rw [hshow.lastIndex]
  have hlen : m.index ≤ lf.length := by
    rw [hshow.lastIndex] at hle
    exact not_lt.mp hle
  have hsnap₂ : S₂.store.snapIdx ≤ m.index := by
    rw [h₂.snapIdx]
    exact hsnap.trans hlow
  rw [wp_bind, wp_termAt (hshow.termOf hsnap₂ hlen), wp_ite]
  refine ⟨fun hne => ?_, fun _ => ?_⟩
  · -- the terms differ, so the probe is above the committed part
    rw [hp.logTerm] at hne
    have hlt : S₂.store.snapIdx < m.index := by
      refine lt_of_le_of_ne hsnap₂ fun heq => hne ?_
      rw [h₂.snapIdx] at heq
      exact (hag.termIn (by omega)).symm
    refine Wp.bind (firstIndexOfTerm_walks hshow hlt hlen rfl) ?_
    rintro ci S₃ ⟨rfl, hlo, hhi, hall⟩
    refine hreject rfl rfl (Or.inr ⟨hlen, fun heq => hne heq.symm, ?_, hhi, hall⟩)
    rwa [h₂.snapIdx] at hlo
  · refine Wp.bind (appendConflict_runs hshow hsnap₂ hlen hp.entries) fun _ S₃ hn => ?_
    rw [wp_bind, wp_when]
    refine ⟨fun _ => ?_, fun _ => haccept (by rw [hn]) rfl rfl rfl⟩
    simp only [setCommit, wp_bind, wp_modifyRaft, wp_emit]
    exact haccept (by rw [← hn]) rfl rfl rfl

/-- A request from a leader whose term is at least the follower's is answered. -/
theorem follower_answers {m : Message} (h : Shows S.store lf) (hag : AgreeTo ll lf S.node.r.commit)
    (hsnap : S.store.snapIdx ≤ S.node.r.commit) (hterm : S.node.r.term ≤ m.term) (hp : Probe ll m) :
    ∃ S' resp, respond cf S m = some (S', resp) ∧ Answer cf ll lf m S S' resp := by
  refine respond_of_wp ?_
  simp only [step]
  rw [wp_bind, wp_getRaft, wp_ite]
  refine ⟨fun hlt => by omega, fun _ => ?_⟩
  have hdown : Wp (when (m.term > S.node.r.term) (becomeFollower cf m.term
      (if m.type = .app ∨ m.type = .snap then m.fromId else None)))
      (fun _ S' => SameLog S S' ∧ S'.node.r.term = m.term) (fun _ _ => False) S := by
    rw [wp_when]
    refine ⟨fun hgt => ?_, fun hle => ⟨refl_of SameLog S, by omega⟩⟩
    refine becomeFollower_down.imp ?_
    rintro _ S₁ ⟨hlog, -, ht⟩
    exact ⟨hlog, by rw [ht]; omega⟩
  refine Wp.bind hdown ?_
  rintro _ S₁ ⟨hlog, ht⟩
  have hcase : dispatch cf m = (handleAppend cf m : M σ Unit) := by
    unfold dispatch
    rw [hp.type]
  rw [hcase]
  refine (handleAppend_answers (h.of_sameLog hlog) (hlog.commit ▸ hag)
    (by rw [hlog.commit, hlog.snapIdx]; exact hsnap) ht hp).imp ?_
  rintro _ S₂ ⟨resp, hlast, ha⟩
  refine ⟨resp, hlast, ha.type, ha.sender, ha.term, ha.readID, ha.newTerm, fun hrej => ?_⟩
  obtain ⟨hlog₂, hrej'⟩ := ha.rejected hrej
  exact ⟨trans_of SameLog hlog hlog₂, hlog.snapIdx ▸ hrej'⟩

/-! ## The leader's next request. -/

/-- Entries of a whole log carry their own indexes. -/
def SelfIndexed (l : List Entry) : Prop := ∀ k e, l[k]? = some e → e.index = k + 1

theorem SelfIndexed.follows (h : SelfIndexed l) {es : List Entry} {j : ℕ} (hp : es <+: l.drop j) :
    NumberedAfter j es := by
  induction es generalizing j with
  | nil => trivial
  | cons e es ih =>
    obtain ⟨rest, hrest⟩ := hp
    have he : l[j]? = some e := by
      have := congrArg (·[0]?) hrest
      simpa using this.symm
    refine ⟨h j e he, ih ⟨rest, ?_⟩⟩
    rw [← List.drop_drop, ← hrest]
    rfl

theorem Shows.slice (h : Shows s l) {lo hi : ℕ} (hlo : s.snapIdx < lo) (hhi : hi ≤ l.length + 1) :
    s.slice lo hi = .ok ((l.drop (lo - 1)).take (hi - lo)) := by
  unfold MemStore.slice
  rw [if_neg (by omega), h.lastIndex, if_neg (by omega), h.entries, List.drop_drop]
  congr 3
  omega

/-- The leader's side of an exchange with `dst`. -/
structure Probing (ll lf : List Entry) (dst : NodeID) (S : Sys σ) : Prop where
  log : Shows S.store ll
  state : S.node.r.state = .leader
  quiet : S.node.r.snapOut dst = none
  agreed : AgreeTo ll lf (S.node.r.matchIdx dst)

/-- The next request to `dst` is a snapshot, or a probe below the follower's next index. -/
theorem sendAppend_probes {dst : NodeID} (h : Shows S.store ll) (hidx : SelfIndexed ll)
    (hquiet : S.node.r.snapOut dst = none) (hpos : 0 < S.node.r.next dst)
    (hnext : S.node.r.next dst ≤ ll.length + 1) :
    Wp (sendAppend cl dst 0)
      (fun _ S' => ∃ m, lastSent S' = some m ∧ m.term = S.node.r.term ∧ Moved S S' ∧
        (m.type = .snap ∨
          (S'.node.r.snapOut = S.node.r.snapOut ∧ Probe ll m ∧
            m.index + 1 = S.node.r.next dst))) (fun _ _ => False) S := by
  simp only [sendAppend]
  rw [wp_bind, wp_getRaft, wp_bind, wp_getStore, wp_ite]
  refine ⟨fun _ => ?_, fun hge => ?_⟩
  · -- what the follower needs is compacted
    rw [if_pos trivial]
    simp only [sendSnapshot, wp_bind, wp_getStore, wp_getRaft, wp_modifyRaft, hquiet, outgoing,
      sendChunk]
    rw [wp_ite]
    refine ⟨fun hgt => by simp at hgt, fun _ => ?_⟩
    refine send_last.imp ?_
    rintro _ S₁ ⟨hn, hs, hlast⟩
    exact ⟨_, hlast, rfl, ⟨hs, _, _, hn⟩, Or.inl rfl⟩
  · have hge : ¬ S.node.r.next dst < S.store.snapIdx + 1 := hge
    rw [wp_bind, wp_termAt (h.termOf (k := S.node.r.next dst - 1) (by omega) (by omega))]
    have hbatch : Wp (nextBatch cl dst (S.node.r.next dst) S.store.lastIndex)
        (fun es S₁ => NumberedAfter (S.node.r.next dst - 1) es ∧ Moved S S₁ ∧
          S₁.node.r.snapOut = S.node.r.snapOut) (fun _ _ => False) S := by
      unfold nextBatch
      rw [wp_ite]
      refine ⟨fun _ => ?_, fun _ => wp_pure.mpr ⟨trivial, Moved.refl S, rfl⟩⟩
      have hslice := @Shows.slice _ _ h (S.node.r.next dst)
        (min (S.node.r.next dst + cl.batch) (S.store.lastIndex + 1)) (by omega)
        (by rw [h.lastIndex]; omega)
      rw [wp_bind, wp_readEntries hslice, wp_bind, wp_modifyRaft]
      refine wp_pure.mpr ⟨hidx.follows ?_, ⟨rfl, _, _, rfl⟩, rfl⟩
      exact (fitBatch_isPrefix _ _).trans (List.take_prefix _ _)
    refine Wp.bind hbatch ?_
    rintro es S₁ ⟨hes, hm, hout⟩
    refine send_last.imp ?_
    rintro _ S₂ ⟨hn, hs, hlast⟩
    refine ⟨_, hlast, hm.term, hm.trans ⟨hs, S₁.node.r.next, S₁.node.r.snapOut, hn⟩, Or.inr ?_⟩
    exact ⟨by rw [hn, hout], ⟨rfl, by show _ - 1 ≤ _; omega, rfl, hes⟩, by show _ - 1 + 1 = _; omega⟩

/-- A read round is confirmed or finished, and nothing else happens. -/
theorem ackRead_reads {id : ℕ} {src : NodeID} {Q : Unit → Sys σ → Prop} {R : Panic → Sys σ → Prop}
    (hQ : ∀ reads ready, Q () { S with node := { S.node with r := { S.node.r with
      reads := reads, ready := ready } } }) : Wp (ackRead cfg id src) Q R S := by
  simp only [ackRead, wp_bind, wp_getRaft]
  cases S.node.r.reads id with
  | none => exact hQ S.node.r.reads S.node.r.ready
  | some round =>
    simp only [wp_bind, wp_modifyRaft, wp_when, completeRead, Function.update_self]
    exact ⟨fun _ => hQ _ _, fun _ => hQ _ _⟩

/-- A rejection makes the leader probe further down, or send a snapshot. -/
theorem handleAppendResp_probes (resp : Message) {b p : ℕ} (hL : Probing ll lf resp.fromId S)
    (hidx : SelfIndexed ll) (hl : Rising ll) (hsrc : SameSource ll lf) (hp : p ≤ ll.length)
    (hid : resp.readID = 0) (hrej : resp.reject = true)
    (hr : Rejection ll lf b p resp.conflictTerm resp.conflictIndex) :
    Wp (handleAppendResp cl resp) (fun _ S' => ∃ m, lastSent S' = some m ∧ m.term = S.node.r.term ∧
      S'.node.r.term = S.node.r.term ∧
      (m.type = .snap ∨ (Probing ll lf resp.fromId S' ∧ Probe ll m ∧ m.index < p)))
      (fun _ _ => False) S := by
  simp only [handleAppendResp]
  rw [wp_bind, wp_when]
  refine ⟨fun hne => absurd hid hne, fun _ => ?_⟩
  rw [wp_bind, wp_getRaft, hL.quiet, if_neg (by simp), if_pos hrej]
  refine Wp.bind (backtrack_jumps hL.log hl) ?_
  rintro nb S₁ ⟨rfl, hj⟩
  have hlt := jump_lt hsrc hr hj
  have hpos := jump_pos hr hj
  -- the follower has everything up to its match index, so the rejected probe was above it
  have hmatch : S₁.node.r.matchIdx resp.fromId < p := by
    by_contra hge
    have hge := not_lt.mp hge
    rcases hr with ⟨hlen, -, -⟩ | ⟨-, hne, -, hci, hall⟩
    · have := hL.agreed.right
      omega
    · exact hne ((hL.agreed.termIn hge).trans (hall p hci le_rfl))
  generalize hnx : (if (if nb ≤ S₁.node.r.matchIdx resp.fromId
      then succU64 (S₁.node.r.matchIdx resp.fromId) else nb) < 1 then 1
      else if nb ≤ S₁.node.r.matchIdx resp.fromId
      then succU64 (S₁.node.r.matchIdx resp.fromId) else nb) = nx
  have hnx : 0 < nx ∧ nx ≤ p := by
    rw [← hnx]
    have := succU64_le (S₁.node.r.matchIdx resp.fromId)
    split_ifs <;> omega
  rw [wp_bind, wp_modifyRaft]
  let S₃ : Sys σ := { S₁ with
    node := { S₁.node with r := { S₁.node.r with next := update S₁.node.r.next resp.fromId nx } } }
  refine (sendAppend_probes (S := S₃) hL.log hidx hL.quiet ?_ ?_).imp ?_
  · show 0 < update S₁.node.r.next resp.fromId nx resp.fromId
    rw [Function.update_self]
    exact hnx.1
  · show update S₁.node.r.next resp.fromId nx resp.fromId ≤ _
    rw [Function.update_self]
    omega
  rintro _ S₂ ⟨m, hlast, hmt, hmoved, hm⟩
  refine ⟨m, hlast, hmt, hmoved.term, hm.imp_right ?_⟩
  rintro ⟨hout, hprobe, hnext⟩
  have hnext : m.index + 1 = nx := by
    rw [hnext]
    exact Function.update_self ..
  obtain ⟨hs, nx', out', hn⟩ := hmoved
  refine ⟨⟨by rw [hs]; exact hL.log, ?_, ?_, ?_⟩, hprobe, by omega⟩
  · rw [hn]
    exact hL.state
  · rw [hout]
    exact hL.quiet
  · rw [hn]
    exact hL.agreed

/-- The same for an answer that also confirms a read round. -/
theorem leader_probes {resp : Message} {b p : ℕ} (hL : Probing ll lf resp.fromId S)
    (hidx : SelfIndexed ll) (hl : Rising ll) (hsrc : SameSource ll lf) (hp : p ≤ ll.length)
    (hty : resp.type = .appResp) (hterm : resp.term = S.node.r.term) (hrej : resp.reject = true)
    (hr : Rejection ll lf b p resp.conflictTerm resp.conflictIndex) :
    ∃ S' m, respond cl S resp = some (S', m) ∧ m.term = S.node.r.term ∧
      S'.node.r.term = S.node.r.term ∧
      (m.type = .snap ∨ (Probing ll lf resp.fromId S' ∧ Probe ll m ∧ m.index < p)) := by
  refine respond_of_wp ?_
  simp only [step]
  rw [wp_bind, wp_getRaft, if_neg (by omega), wp_bind, wp_when]
  refine ⟨fun hgt => by omega, fun _ => ?_⟩
  have hcase : dispatch cl resp = ((do
      let r ← getRaft
      when (r.state = .leader) (handleAppendResp cl resp)) : M σ Unit) := by
    unfold dispatch
    rw [hty]
  rw [hcase, wp_bind, wp_getRaft, wp_when]
  refine ⟨fun _ => ?_, fun hne => absurd hL.state hne⟩
  have hsplit : handleAppendResp cl resp = ((do
      when (resp.readID ≠ 0) (ackRead cl resp.readID resp.fromId)
      handleAppendResp cl { resp with readID := 0 }) : M σ Unit) := rfl
  rw [hsplit, wp_bind, wp_when]
  refine ⟨fun _ => ackRead_reads fun reads ready => ?_, fun _ => ?_⟩
  · exact handleAppendResp_probes { resp with readID := 0 }
      ⟨hL.log, hL.state, hL.quiet, hL.agreed⟩ hidx hl hsrc hp rfl hrej hr
  · exact handleAppendResp_probes { resp with readID := 0 } hL hidx hl hsrc hp rfl hrej hr

/-! ## Rounds. -/

/-- A leader and a follower whose logs are never out of order, agree on what the follower has committed,
and are compacted at points of their own. -/
structure Facing (ll lf : List Entry) (dst : NodeID) (L F : Sys σ) : Prop where
  leader : Probing ll lf dst L
  follower : Shows F.store lf
  rising_l : Rising ll
  rising_f : Rising lf
  indexed : SelfIndexed ll
  committed : AgreeTo ll lf F.node.r.commit
  snap : F.store.snapIdx ≤ F.node.r.commit
  term : F.node.r.term ≤ L.node.r.term

/-- Every rejection moves the probe down, so the rounds are bounded by the index of the first probe. -/
theorem exchange_ends {rounds : ℕ} {L F : Sys σ} {m : Message} (h : Facing ll lf cf.id L F)
    (hsrc : SameSource ll lf) (hp : Probe ll m) (ht : m.term = L.node.r.term) (hr : m.index < rounds) :
    exchange cl cf rounds L F m = .accepted ∨ exchange cl cf rounds L F m = .snapshot := by
  induction rounds generalizing L F m with
  | zero => omega
  | succ rounds ih =>
    obtain ⟨F', resp, hdel, ha⟩ : ∃ F' resp, respond cf F m = some (F', resp) ∧
        Answer cf ll lf m F F' resp :=
      follower_answers h.follower h.committed h.snap (ht ▸ h.term) hp
    simp only [exchange, hp.type, hdel]
    rw [if_neg (by decide)]
    cases hrej : resp.reject with
    | false => exact Or.inl rfl
    | true =>
      obtain ⟨hlog, hr'⟩ := ha.rejected hrej
      have hL : Probing ll lf resp.fromId L := ha.sender.symm ▸ h.leader
      obtain ⟨L', m', hdel', hmt, hLt, hm'⟩ := @leader_probes _ cl _ _ _ _ _ _ hL h.indexed h.rising_l
        hsrc hp.index ha.type (ha.term.trans ht) hrej hr'
      have hp0 : 0 < m.index := by
        rcases hr' with ⟨hlt, -, -⟩ | ⟨-, -, hlo, hhi, -⟩ <;> omega
      simp only [hdel', if_true]
      rcases hm' with hsnap | ⟨hL', hprobe, hlt⟩
      · -- the last message is the first chunk of a snapshot
        obtain ⟨rounds, rfl⟩ : ∃ n, rounds = n + 1 := ⟨rounds - 1, by omega⟩
        right
        simp only [exchange, hsnap, if_true]
      · rw [ha.sender] at hL'
        refine ih ⟨hL', h.follower.of_sameLog hlog, h.rising_l, h.rising_f, h.indexed, ?_, ?_, ?_⟩
          hprobe (hmt.trans hLt.symm) (by omega)
        · rw [hlog.commit]
          exact h.committed
        · rw [hlog.commit, hlog.snapIdx]
          exact h.snap
        · rw [ha.newTerm, ht, hLt]

/-- The next index a leader computes from an answer, before the clamp. -/
def nextIndex (L : Sys σ) (resp : Message) : Option ℕ :=
  match backtrack resp L with
  | .ok next _ => some next
  | .error _ _ => none

/-- FAST BACKTRACKING.  Whatever probe a follower rejects, the next index computed from the answer is
below the probed one, and above every index up to which the logs agree, unless the leader has compacted
the conflicting term; and the exchange of requests and answers, with as many rounds as the next index of
the first probe, ends in an accepted append or in a snapshot. -/
theorem backtracking_exact {cl cf : Config} {ll lf : List Entry} {L F : Sys σ}
    (h : Facing ll lf cf.id L F) (hsrc : SameSource ll lf) {m : Message} (hp : Probe ll m)
    (ht : m.term = L.node.r.term) :
    (∀ F' resp, respond cf F m = some (F', resp) → resp.reject = true →
      ∃ next, nextIndex L resp = some next ∧ next < m.index + 1 ∧
        (L.store.snapTerm < resp.conflictTerm → ∀ k, AgreeTo ll lf k → k + 1 ≤ next)) ∧
    ∀ rounds ≥ m.index + 1,
      exchange cl cf rounds L F m = .accepted ∨ exchange cl cf rounds L F m = .snapshot := by
  refine ⟨fun F' resp hdel hrej => ?_, fun rounds hr => exchange_ends h hsrc hp ht hr⟩
  obtain ⟨F₁, resp₁, hdel₁, ha⟩ : ∃ F₁ resp₁, respond cf F m = some (F₁, resp₁) ∧
      Answer cf ll lf m F F₁ resp₁ :=
    follower_answers h.follower h.committed h.snap (ht ▸ h.term) hp
  rw [hdel] at hdel₁
  obtain ⟨rfl, rfl⟩ := Prod.mk.inj (Option.some.inj hdel₁)
  obtain ⟨-, hr⟩ := ha.rejected hrej
  have hwp := backtrack_jumps (m := resp) h.leader.log h.rising_l
  unfold Wp at hwp
  unfold nextIndex
  cases hrun : backtrack resp L with
  | error e S => rw [hrun] at hwp; exact hwp.elim
  | ok next S =>
    rw [hrun] at hwp
    obtain ⟨-, hj⟩ := hwp
    refine ⟨next, rfl, Nat.lt_succ_of_le (jump_lt hsrc hr hj), fun habove k hk => ?_⟩
    rw [h.leader.log.snapTerm] at habove
    exact jump_ge h.rising_l h.rising_f h.leader.log.snap hr hj habove hk

/-! ## Two pairs of logs. -/

/-- The entries of the given terms. -/
def ofTerms (ts : List ℕ) : List Entry := ts.mapIdx fun k t => { index := k + 1, term := t }

theorem selfIndexed_ofTerms (ts : List ℕ) : SelfIndexed (ofTerms ts) := by
  intro k e he
  rw [ofTerms, List.getElem?_mapIdx] at he
  obtain ⟨t, -, rfl⟩ := Option.map_eq_some_iff.mp he
  rfl

theorem sourced_of_take {src : ℕ → List Entry}
    (h : ∀ k < l.length, l.take (k + 1) <+: src (termIn l (k + 1))) : Sourced src l := by
  intro k e he
  rw [← termIn_succ he]
  exact h k (List.getElem?_eq_some_iff.mp he).1

theorem logMatching_of_take
    (h : ∀ k < ll.length, termIn ll (k + 1) = termIn lf (k + 1) → ll.take (k + 1) = lf.take (k + 1)) :
    LogMatching ll lf := by
  intro k e e' he he' ht
  refine h k (List.getElem?_eq_some_iff.mp he).1 ?_
  rw [termIn_succ he, termIn_succ he', ht]

def probeCfg (id : NodeID) : Config :=
  { id := id, peers := [1, 2, 3], electionTick := 10, heartbeatTick := 1 }

/-- Node 1 leads term 3 with the given log, compacted at an index. -/
def probeLeader (snapIdx : ℕ) (l : List Entry) : Sys Unit :=
  { node :=
      { r := { term := 3, vote := 1, state := .leader, lead := 1, commit := snapIdx, rng := fun _ => 0 }
        sm := ()
        applied := snapIdx }
    store :=
      { term := 3, vote := 1, entries := l.drop snapIdx, snapIdx := snapIdx
        snapTerm := termIn l snapIdx } }

/-- Node 2 follows with the given log, of which a part is committed. -/
def probeFollower (commit : ℕ) (l : List Entry) : Sys Unit :=
  { node := { r := { term := 2, vote := 0, commit := commit, rng := fun _ => 0 }, sm := (), applied := 0 }
    store := { term := 2, entries := l } }

def probeAt (index logTerm : ℕ) (entries : List Entry) : Message :=
  { type := .app, fromId := 1, toId := 2, term := 3, index := index, logTerm := logTerm
    entries := entries }

theorem facing_probe {snapIdx commit : ℕ} (hsnap : snapIdx ≤ ll.length) (hl : Rising ll)
    (hf : Rising lf) (hidx : SelfIndexed ll) (hc : AgreeTo ll lf commit) :
    Facing ll lf 2 (probeLeader snapIdx ll) (probeFollower commit lf) where
  leader := ⟨⟨hsnap, rfl, rfl⟩, rfl, rfl, ⟨Nat.zero_le _, Nat.zero_le _, rfl⟩⟩
  follower := ⟨Nat.zero_le _, rfl, rfl⟩
  rising_l := hl
  rising_f := hf
  indexed := hidx
  committed := hc
  snap := Nat.zero_le _
  term := show 2 ≤ 3 by decide

/-- The follower has two entries of term 2 where the leader has one of term 1 and one of term 3; the
leader is compacted behind the first entry. -/
theorem backtracking_exact_diverged :
    (∀ F' resp,
      respond (probeCfg 2) (probeFollower 1 (ofTerms [1, 2, 2])) (probeAt 3 3 []) = some (F', resp) →
      resp.reject = true →
      ∃ next, nextIndex (probeLeader 1 (ofTerms [1, 1, 3])) resp = some next ∧ next < 3 + 1 ∧
        (1 < resp.conflictTerm →
          ∀ k, AgreeTo (ofTerms [1, 1, 3]) (ofTerms [1, 2, 2]) k → k + 1 ≤ next)) ∧
    ∀ rounds ≥ 4,
      exchange (probeCfg 1) (probeCfg 2) rounds (probeLeader 1 (ofTerms [1, 1, 3]))
          (probeFollower 1 (ofTerms [1, 2, 2])) (probeAt 3 3 []) = .accepted ∨
      exchange (probeCfg 1) (probeCfg 2) rounds (probeLeader 1 (ofTerms [1, 1, 3]))
          (probeFollower 1 (ofTerms [1, 2, 2])) (probeAt 3 3 []) = .snapshot := by
  have hsrc : SameSource (ofTerms [1, 1, 3]) (ofTerms [1, 2, 2]) :=
    ⟨fun t => if t = 2 then ofTerms [1, 2, 2] else ofTerms [1, 1, 3],
      sourced_of_take (by decide), sourced_of_take (by decide)⟩
  have hface : Facing (ofTerms [1, 1, 3]) (ofTerms [1, 2, 2]) (probeCfg 2).id
      (probeLeader 1 (ofTerms [1, 1, 3])) (probeFollower 1 (ofTerms [1, 2, 2])) :=
    facing_probe (by decide) (by decide) (by decide) (selfIndexed_ofTerms _)
      ⟨by decide, by decide, by decide⟩
  exact backtracking_exact hface hsrc ⟨rfl, by decide, rfl, trivial⟩ rfl

/-- Log matching between the two logs alone does not bound the jump: the follower has an entry of term 2
at index 1, the leader its only entry of term 2 at index 2, and the rejected probe at index 1 is followed
by one at index 2. -/
theorem jump_goes_up :
    Facing (ofTerms [1, 2]) (ofTerms [2]) 2 (probeLeader 0 (ofTerms [1, 2]))
      (probeFollower 0 (ofTerms [2])) ∧
    LogMatching (ofTerms [1, 2]) (ofTerms [2]) ∧
    Probe (ofTerms [1, 2]) (probeAt 1 1 []) ∧
    ((respond (probeCfg 2) (probeFollower 0 (ofTerms [2])) (probeAt 1 1 [])).map
        fun answer => (answer.2.reject, nextIndex (probeLeader 0 (ofTerms [1, 2])) answer.2))
      = some (true, some 3) := by
  refine ⟨?_, logMatching_of_take (by decide), ⟨rfl, by decide, rfl, trivial⟩, by decide +kernel⟩
  exact facing_probe (by decide) (by decide) (by decide) (selfIndexed_ofTerms _)
    ⟨by decide, by decide, by decide⟩

end Keystone.Raft
