/-
# Keystone.Raft.Safety — the safety theorems of a Raft group.

Statements about everything a run of the machine of `Keystone.Raft.Cluster` shows: nodes at rest, and
nodes in the middle of an operation, right after each of its effects.  Messages are lost, duplicated and
reordered at will, and a process may stop after any effect and come back with nothing but its log store.

* `state_machine_safety` — what two nodes committed or applied at one index is one entry;
* `leader_completeness` — what a leader committed is in the log of every leader of a later term, and so
  is every proposal that finished without an error;
* `election_safety` — a term has one leader, and terms do not decrease.

None of them needs a condition on the run.  Those that do are in `Keystone.Raft.Conditions`.
-/
import Keystone.Raft.Refinement

namespace Keystone.Raft

open Keystone.Lib
open Keystone.Lib.TermLog (Inv Le getElem?_of_isPrefix getElem?_of_take_isPrefix)

variable {σ : Type} {G : Group σ} {md : Mode} {b b' : History G} {c : Cluster σ}
  {es : List (Event σ)} {os : List (View σ)} {v w : View σ}

/-! ## What a view says. -/

namespace View

/-- The node holds `e` at index `k`, at or below its commit index. -/
def HasCommitted (v : View σ) (k : ℕ) (e : Entry) : Prop :=
  k ≤ v.node.r.commit ∧ v.store.entryAt k = some e

/-- The node has just applied `e`, at index `k`. -/
def HasApplied (v : View σ) (k : ℕ) (e : Entry) : Prop :=
  e.index = k ∧ ∃ result, v.effect = some (.apply e result)

def Settles (v : View σ) (k : ℕ) (e : Entry) : Prop := v.HasCommitted k e ∨ v.HasApplied k e

/-- The node is in state leader of its term.  The moment right after `SetState` is left out: there the
node holds its lock between the write of a new term and the assignment of its new state. -/
def Leads (v : View σ) : Prop := v.node.r.state = .leader ∧ Settled v.effect

instance (v : View σ) : Decidable v.Leads := inferInstanceAs (Decidable (_ ∧ _))

end View

/-! ## A group of three.

Small groups to evaluate: the state machine reports the last index it has applied, timers run out at
every tick, and a node compacts its log as soon as `threshold` entries are applied. -/

def counter : StateMachine ℕ where
  apply := fun _ e => ([], e.index)
  lastApplied := id
  snapshot := fun _ => some []
  restore := fun _ _ => some 0

def trio (threshold : ℕ) : Group ℕ where
  peers := [1, 2, 3]
  nodup := by decide
  cfg := fun i =>
    { id := i, peers := [1, 2, 3], electionTick := 1, heartbeatTick := 1
      snapshotThreshold := threshold }
  cfg_id := fun _ => rfl
  cfg_peers := fun _ => rfl
  sm := counter

def boot (i : NodeID) : Event ℕ := .restart i 0 fun _ => 0

def deliver (m : Message) : Event ℕ := .op m.toId (.step m)

/-- Node 1 leads term 1 by the vote of node 2. -/
def elected : List (Event ℕ) :=
  [ boot 1, boot 2, boot 3, .op 1 .tick
  , deliver { type := .vote, fromId := 1, toId := 2, term := 1 }
  , deliver { type := .voteResp, fromId := 2, toId := 1, term := 1 } ]

/-- It has committed its first entry. -/
def settledLead : List (Event ℕ) :=
  elected ++
    [ deliver { type := .app, fromId := 1, toId := 2, term := 1
                entries := [{ index := 1, term := 1, type := .noop }] }
    , deliver { type := .appResp, fromId := 2, toId := 1, term := 1, index := 1 } ]

/-- It commits a proposal with node 2, which leads term 2 afterwards. -/
def handover : List (Event ℕ) :=
  settledLead ++
    [ .op 1 (.propose [7]), .op 1 .flush
    , deliver { type := .app, fromId := 1, toId := 2, term := 1, index := 1, logTerm := 1, commit := 1
                entries := [{ index := 2, term := 1, data := [7] }] }
    , deliver { type := .appResp, fromId := 2, toId := 1, term := 1, index := 2 }
    , deliver { type := .app, fromId := 1, toId := 2, term := 1, index := 2, logTerm := 1, commit := 2 }
    , .op 2 .tick
    , deliver { type := .vote, fromId := 2, toId := 3, term := 2, index := 2, logTerm := 1 }
    , deliver { type := .voteResp, fromId := 3, toId := 2, term := 2 } ]

theorem handover_runs : (run (trio 0) handover).isSome = true := by decide +kernel

/-- Where the run ends and what it shows. -/
def handed : Cluster ℕ × List (View ℕ) := (run (trio 0) handover).get handover_runs

theorem run_handover : run (trio 0) handover = some (handed.1, handed.2) := by
  rw [Prod.mk.eta, handed, Option.some_get]

/-! ## What a justified view says about the history. -/

theorem ViewOK.term_eq (h : ViewOK md b v) : b.a.term v.id = v.node.r.term := by
  obtain ⟨_, h⟩ := h
  exact h.dur.term.trans h.term.symm

/-- What a node settled is committed. -/
theorem ViewOK.committed (h : ViewOK md b v) {k : ℕ} {e : Entry} (hs : v.Settles k e) :
    Committed b.a v.node.r.term k e := by
  have hterm := h.term_eq
  obtain ⟨_, h⟩ := h
  rcases hs with ⟨hk, he⟩ | ⟨rfl, result, heff⟩
  · obtain ⟨hsnap, hlog⟩ := h.dur.entryAt he
    rw [← hterm]
    exact h.commit.committed hsnap hk hlog
  · exact (h.effect _ heff).1

theorem ViewOK.office (h : ViewOK md b v) (hl : v.Leads) : InOffice b.a v.id v.node.r.term := by
  obtain ⟨_, h⟩ := h
  exact h.office hl.1 hl.2

/-- Every run is justified by a history, in the mode that assumes nothing, and the cluster it leads to
is related to that history. -/
theorem run_related (hrun : run G es = some (c, os)) :
    ∃ b : History G, Linked Later (ViewOK ⟨False, False⟩) (History.init G) os b ∧
      ClusterOK ⟨False, False⟩ b c := by
  have hmeets : (machine G).Meets (StepOK ⟨False, False⟩) {} es := by
    refine (machine G).meets_mono ?_ ((machine G).meets_true {} es)
    intro c e _
    exact ⟨False.elim, False.elim⟩
  exact run_ok (ClusterOK.init _ G) hmeets hrun

theorem run_history (hrun : run G es = some (c, os)) :
    ∃ b : History G, Linked Later (ViewOK ⟨False, False⟩) (History.init G) os b := by
  obtain ⟨b, hlink, -⟩ := run_related hrun
  exact ⟨b, hlink⟩

/-- What the views of a run settle is committed in the history of the whole run. -/
theorem settled_committed (hlink : Linked Later (ViewOK md) b os b') (hv : v ∈ os) {k : ℕ} {e : Entry}
    (hs : v.Settles k e) : Committed b'.a v.node.r.term k e := by
  refine Linked.all (P := fun b v => ∀ k e, v.Settles k e → Committed b.a v.node.r.term k e) ?_ ?_
    hlink hv k e hs
  · intro b v hok k e hs
    exact hok.committed hs
  · intro b b' v hP hl k e hs
    exact (hP k e hs).of_le hl.le

/-- The leaders a run shows are the leaders of its history. -/
theorem leads_leader (hlink : Linked Later (ViewOK md) b os b') (hv : v ∈ os) (hl : v.Leads) :
    b'.a.leader v.node.r.term = some v.id := by
  refine Linked.all (P := fun b v => v.Leads → b.a.leader v.node.r.term = some v.id) ?_ ?_ hlink hv hl
  · intro b v hok hl
    exact (hok.office hl).lead
  · intro b b' v hP hlater hl
    exact hlater.le.leader _ _ (hP hl)

/-! ## State machine safety. -/

/-- STATE MACHINE SAFETY.  In every run, if two nodes have ever committed or applied an entry at the
same index, it is the same entry. -/
theorem state_machine_safety (hrun : run G es = some (c, os)) (hv : v ∈ os) (hw : w ∈ os) {k : ℕ}
    {e e' : Entry} (he : v.Settles k e) (he' : w.Settles k e') : e = e' := by
  obtain ⟨b, hlink⟩ := run_history hrun
  exact (settled_committed hlink hv he).unique b.inv (settled_committed hlink hw he')

/-- Both nodes that committed the proposal hold it. -/
theorem state_machine_safety_handover :
    ∃ v ∈ handed.2, ∃ w ∈ handed.2, v.id ≠ w.id ∧
      ∃ e e', v.Settles 2 e ∧ w.Settles 2 e' ∧ e.data = [7] ∧ e = e' := by
  have hv : (handed.2.get ⟨41, by decide +kernel⟩).Settles 2 { index := 2, term := 1, data := [7] } :=
    Or.inl ⟨by decide +kernel, by decide +kernel⟩
  have hw : (handed.2.get ⟨45, by decide +kernel⟩).Settles 2 { index := 2, term := 1, data := [7] } :=
    Or.inl ⟨by decide +kernel, by decide +kernel⟩
  exact ⟨_, List.get_mem .., _, List.get_mem .., by decide +kernel, _, _, hv, hw, rfl,
    state_machine_safety run_handover (List.get_mem ..) (List.get_mem ..) hv hw⟩

/-! ## Election safety. -/

/-- ELECTION SAFETY.  In every run a term has at most one leader, and the term of a node, in memory and
in its store, never decreases, also across restarts. -/
theorem election_safety (hrun : run G es = some (c, os)) :
    (∀ v ∈ os, ∀ w ∈ os, v.Leads → w.Leads → v.node.r.term = w.node.r.term → v.id = w.id) ∧
      os.Pairwise fun v w => v.id = w.id →
        v.node.r.term ≤ w.node.r.term ∧ v.store.term ≤ w.store.term := by
  obtain ⟨b, hlink⟩ := run_history hrun
  refine ⟨?_, ?_⟩
  · intro v hv w hw hvl hwl hterm
    have hlv := leads_leader hlink hv hvl
    have hlw := leads_leader hlink hw hwl
    rw [hterm, hlw] at hlv
    exact (Option.some.inj hlv).symm
  · refine Linked.pairwise ?_ hlink
    intro m m' v w hv hm hw hid
    have hle := hm.le.term v.id
    have hvt := hv.term_eq
    have hwt := hw.term_eq
    rw [← hid] at hwt
    obtain ⟨_, hv⟩ := hv
    obtain ⟨_, hw⟩ := hw
    rw [← hv.term, ← hw.term]
    omega

theorem election_safety_handover :
    handed.2.Pairwise fun v w => v.id = w.id →
      v.node.r.term ≤ w.node.r.term ∧ v.store.term ≤ w.store.term :=
  (election_safety run_handover).2

/-! ## Leader completeness. -/

/-- `L` is the log of the node: the entries it holds, and for what its snapshot covers, the entries
anyone in the run settled there; the snapshot point has the snapshot's term. -/
structure View.IsLog (os : List (View σ)) (v : View σ) (L : List Entry) : Prop where
  length : L.length = v.store.lastIndex
  held : ∀ k e, v.store.entryAt k = some e → L[k - 1]? = some e
  snap : HasTerm L v.store.snapIdx v.store.snapTerm
  below : ∀ k ≤ v.store.snapIdx, ∀ w ∈ os, ∀ e, w.Settles k e → L[k - 1]? = some e

/-- What is committed up to the term of a leader is in that leader's announced log. -/
theorem Committed.llog {a : Abstract} (hinv : Inv G.params a) {T k : ℕ} {e : Entry} {q : NodeID}
    (hT : a.leader T = some q) (h : Committed a T k e) : (a.llog T)[k - 1]? = some e := by
  obtain ⟨U, n, hc, hU, h1, hk, he⟩ := h
  exact getElem?_of_take_isPrefix (commits_isPrefix hinv hT hc hU) (by omega) he

/-- A committed entry at an index that is committed up to `T` is committed up to `T`. -/
theorem Committed.of_below {a : Abstract} (hinv : Inv G.params a) {T U k : ℕ} {e : Entry}
    (h : Committed a U k e) (hk : Below a T k) : Committed a T k e := by
  obtain ⟨V, n, hc, -, h1, hkn, he⟩ := h
  rcases hk with rfl | ⟨W, m, hc', hW, hkm⟩
  · omega
  · refine ⟨W, m, hc', hW, h1, hkm, ?_⟩
    rw [← hinv.commit_agree hc hc' (j := k - 1) (by omega) (by omega), he]

/-- The abstract log of a leader is its log, in the sense of the whole run. -/
theorem ViewOK.isLog (hlink : Linked Later (ViewOK md) b os b') {m : History G} (h : ViewOK md m v)
    (hm : Later m b') (hl : v.Leads) : v.IsLog os (m.a.log v.id) := by
  have hoff := h.office hl
  have hterm := h.term_eq
  obtain ⟨_, h⟩ := h
  refine ⟨h.dur.lastIndex.symm, fun k e he => (h.dur.entryAt he).2, ?_, ?_⟩
  · -- the snapshot point is committed up to this term, so it is in the leader's log
    have hsnap := h.dur.snap
    rw [hterm] at hsnap
    rcases hsnap.hasTerm m.inv hoff.lead with h0 | ⟨h1, e, he, het⟩
    · exact Or.inl h0
    · refine Or.inr ⟨h1, e, ?_, het⟩
      have hlen := h.dur.snap_le
      have hget := List.getElem?_eq_getElem (l := m.a.log v.id) (i := v.store.snapIdx - 1) (by omega)
      rw [hget, ← he, getElem?_of_isPrefix hoff.log hget]
  · intro k hk w hw e hs
    have hcm := settled_committed hlink hw hs
    have hbelow : Below b'.a v.node.r.term k := by
      rw [← hterm]
      exact (h.dur.snap.below.down hk).of_le hm.le
    have hllog := (hcm.of_below b'.inv hbelow).llog b'.inv (hm.le.leader _ _ hoff.lead)
    obtain ⟨-, -, -, -, h1, -, -⟩ := hcm
    have hlen := h.dur.snap_le
    have hget := List.getElem?_eq_getElem (l := m.a.log v.id) (i := k - 1) (by omega)
    rw [hget, ← hllog, getElem?_of_isPrefix (hoff.log.trans (hm.le.llog _)) hget]

/-- The log of a leader begins with everything committed in earlier terms. -/
theorem InOffice.carries {a a' : Abstract} {i : NodeID} {T U n : ℕ} (h : InOffice a i T)
    (hle : Le a a') (hinv : Inv G.params a') (hc : (U, n) ∈ a'.commits) (hU : U < T) :
    (a'.llog U).take n <+: a.log i := by
  have hbase := hinv.chosen_base (hinv.commit_chosen U n hc) T i (hle.leader _ _ h.lead) hU
  rw [hle.base T (by rw [h.lead]; simp)] at hbase
  exact hbase.trans h.base

/-- LEADER COMPLETENESS.  In every run, the log of a node that leads a later term has the same entries
as the log of a leader up to that leader's commit index; and the entry of a proposal that finished
without an error is in the log of every node that leads a later term. -/
theorem leader_completeness (hrun : run G es = some (c, os)) :
    (∀ v ∈ os, ∀ w ∈ os, v.Leads → w.Leads → v.node.r.term < w.node.r.term →
      ∃ L M, v.IsLog os L ∧ w.IsLog os M ∧ v.node.r.commit ≤ L.length ∧
        v.node.r.commit ≤ M.length ∧ L.take v.node.r.commit = M.take v.node.r.commit) ∧
      ∀ v ∈ os, ∀ p result, v.effect = some (.finishProposal p result none) →
        ∀ w ∈ os, w.Leads → v.node.r.term < w.node.r.term →
          ∃ M e, w.IsLog os M ∧ 1 ≤ p.index ∧ M[p.index - 1]? = some e ∧ e.data = p.data ∧
            e.term = p.term := by
  obtain ⟨b, hlink⟩ := run_history hrun
  refine ⟨?_, ?_⟩
  · intro v hv w hw hvl hwl hlt
    obtain ⟨m, -, hmv, hmb⟩ := hlink.moment hv
    obtain ⟨m', -, hmw, hmb'⟩ := hlink.moment hw
    refine ⟨_, _, hmv.isLog hlink hmb hvl, hmw.isLog hlink hmb' hwl, ?_⟩
    have hoffv := hmv.office hvl
    have hoffw := hmw.office hwl
    have htermv := hmv.term_eq
    obtain ⟨_, hmv⟩ := hmv
    have hlen := hmv.commit.le_length hmv.dur
    rcases hmv.commit.below hmv.dur with h0 | ⟨U, n, hc, hU, hn⟩
    · -- nothing is committed yet
      rw [h0]
      simp
    · rw [htermv] at hU
      have hc' := hmb.le.commits hc
      have hinM := hoffw.carries hmb'.le b.inv hc' (by omega)
      have hinL := commits_isPrefix b.inv (hmb.le.leader _ _ hoffv.lead) hc' hU
      have hlenU := b.inv.commit_len hc'
      have hMlen := hinM.length_le
      rw [List.length_take] at hMlen
      refine ⟨hlen, by omega, ?_⟩
      -- both logs start with the committed prefix of `U`
      have hM := TermLog.take_eq_of_isPrefix hinM (k := v.node.r.commit) (by
        rw [List.length_take]; omega)
      have hL := TermLog.take_eq_of_isPrefix hinL (k := v.node.r.commit) (by
        rw [List.length_take]; omega)
      have hpre := hoffv.log.trans (hmb.le.llog _)
      rw [hM, ← hL, TermLog.take_eq_of_isPrefix hpre hlen]
  · intro v hv p result heff w hw hwl hlt
    obtain ⟨m, -, hmv, hmb⟩ := hlink.moment hv
    obtain ⟨m', -, hmw, hmb'⟩ := hlink.moment hw
    obtain ⟨_, hmv⟩ := hmv
    obtain ⟨e, hcm, -, hdata, hterm⟩ := hmv.effect _ heff rfl
    obtain ⟨U, n, hc, hU, h1, hk, he⟩ := hcm.of_le hmb.le
    have hin := (hmw.office hwl).carries hmb'.le b.inv hc (by omega)
    exact ⟨_, e, hmw.isLog hlink hmb' hwl, h1, getElem?_of_take_isPrefix hin (by omega) he, hdata,
      hterm⟩

/-- The proposal is in the log of the second leader. -/
theorem leader_completeness_handover :
    ∃ w ∈ handed.2, w.id = 2 ∧ w.Leads ∧
      ∃ M e, w.IsLog handed.2 M ∧ M[1]? = some e ∧ e.data = [7] := by
  obtain ⟨M, e, hM, -, he, hdata, -⟩ := (leader_completeness run_handover).2
    (handed.2.get ⟨40, by decide +kernel⟩) (List.get_mem ..)
    { handle := 0, data := [7], term := 1, index := 2 } [] (by decide +kernel)
    (handed.2.get ⟨60, by decide +kernel⟩) (List.get_mem ..) (by decide +kernel) (by decide +kernel)
  exact ⟨_, List.get_mem .., by decide +kernel, by decide +kernel, M, e, hM, he, hdata⟩

end Keystone.Raft
