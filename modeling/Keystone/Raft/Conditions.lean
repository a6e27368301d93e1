/-
# Keystone.Raft.Conditions — log matching and linearizable reads, and when they hold.

Two properties the code aims at and does not always reach.

* LOG MATCHING.  `MemStore.Compact` and `DiskStore.dropThrough` keep whatever lies beyond the snapshot's
  index, and `handleSnapshot` does not compare the follower's own entry at that index with the
  snapshot's term.  A follower whose log diverges there keeps a suffix of another history
  (`diverged_terms_decrease`).  `log_matching` holds in every run in which no such snapshot is installed.
* LINEARIZABLE READS.  A node that rejects a request of an earlier term answers under its own term and
  echoes the request's read id; read ids start over when a node restarts.  Such an answer confirms a
  round it knows nothing of (`stale_read`).  `read_index_linearizable` holds in every run in which no
  round is confirmed that way.

Both conditions are on the state in which a message is delivered, not on what the step computes.
-/
import Mathlib.Tactic.FinCases
import Keystone.Raft.Safety

namespace Keystone.Raft

open Keystone.Lib
open Keystone.Lib.TermLog (Inv Le WF)

variable {σ : Type} {G : Group σ} {md : Mode} {b b' : History G} {c : Cluster σ} {i : NodeID}
  {es : List (Event σ)} {os : List (View σ)} {s s' : MemStore}

/-! ## Log matching. -/

/-- The stores of a run: those it ends with, and those of every moment on the way. -/
def Stores (c : Cluster σ) (os : List (View σ)) (s : MemStore) : Prop :=
  (∃ i, (c.procs i).store = s) ∨ ∃ v ∈ os, v.store = s

/-- With its snapshot point in its own history, a store is the tail of one well-formed log. -/
theorem Dur.hasTerm {a : Abstract} (h : Dur True a i s) {k t : ℕ} (ht : s.termOf k = .ok t) :
    HasTerm (a.log i) k t := by
  obtain ⟨h1, h2⟩ := MemStore.termOf_range ht
  rw [h.lastIndex] at h2
  obtain ⟨t', ht', hsnap, hlog⟩ := h.termOf h1 h2
  obtain rfl : t' = t := Except.ok.inj (ht'.symm.trans ht)
  rcases Nat.eq_or_lt_of_le h1 with heq | hlt
  · rw [hsnap heq.symm, ← heq]
    exact h.matched trivial
  · exact hlog hlt

/-- The log a store shows, as a log of the history `b`. -/
structure Traced (b : History G) (s : MemStore) (l : List Entry) : Prop where
  wf : WF Entry.term b.a l
  terms : ∀ k t, s.termOf k = .ok t → HasTerm l k t
  entries : ∀ k e, s.entryAt k = some e → 1 ≤ k ∧ l[k - 1]? = some e

theorem Dur.traced (h : Dur True b.a i s) (hl : Later b b') : Traced b' s (b.a.log i) where
  wf := (b.inv.log_wf i).of_le hl.le
  terms _ _ ht := h.hasTerm ht
  entries k e he := by
    obtain ⟨hk, he⟩ := h.entryAt he
    exact ⟨by omega, he⟩

/-- Along a log of the history, terms do not decrease. -/
theorem Traced.mono {l : List Entry} (h : Traced b s l) {j k t u : ℕ} (hjk : j ≤ k)
    (ht : s.termOf j = .ok t) (hu : s.termOf k = .ok u) : t ≤ u := by
  rcases h.terms j t ht with ⟨-, rfl⟩ | ⟨hj, e, he, rfl⟩
  · omega
  · rcases h.terms k u hu with ⟨rfl, -⟩ | ⟨-, f, hf, rfl⟩
    · omega
    · exact h.wf.mono b.inv.llog_le (by omega) he hf

/-- Two logs of the history that meet in one index and term are equal up to it. -/
theorem Traced.agree {l l' : List Entry} (h : Traced b s l) (h' : Traced b s' l') {k t : ℕ}
    (ht : s.termOf k = .ok t) (ht' : s'.termOf k = .ok t) {j : ℕ} (hj : j ≤ k) :
    (∀ u u', s.termOf j = .ok u → s'.termOf j = .ok u' → u = u') ∧
      ∀ e e', s.entryAt j = some e → s'.entryAt j = some e' → e = e' := by
  have htake : l.take k = l'.take k := by
    rcases h.terms k t ht with ⟨rfl, -⟩ | ⟨h1, e, he, rfl⟩
    · simp
    · rcases h'.terms k _ ht' with ⟨rfl, -⟩ | ⟨-, e', he', het⟩
      · omega
      · have := h.wf.take_eq h'.wf he he' het.symm
        rwa [Nat.sub_add_cancel h1] at this
  have hget : 1 ≤ j → l[j - 1]? = l'[j - 1]? := by
    intro h1
    have := congrArg (·[j - 1]?) htake
    simpa only [List.getElem?_take, if_pos (show j - 1 < k by omega)] using this
  refine ⟨?_, ?_⟩
  · intro u u' hu hu'
    rcases h.terms j u hu with ⟨rfl, rfl⟩ | ⟨h1, e, he, rfl⟩
    · rcases h'.terms 0 u' hu' with ⟨-, rfl⟩ | ⟨h1, -⟩
      · rfl
      · omega
    · rcases h'.terms j u' hu' with ⟨rfl, -⟩ | ⟨-, e', he', rfl⟩
      · omega
      · rw [hget h1, he'] at he
        rw [Option.some.inj he]
  · intro e e' he he'
    obtain ⟨h1, he⟩ := h.entries j e he
    obtain ⟨-, he'⟩ := h'.entries j e' he'
    rw [hget h1, he'] at he
    exact (Option.some.inj he).symm

/-- LOG MATCHING.  In every run that installs no snapshot under entries of another history: counting a
node's snapshot point as the entry at its index, terms never decrease along a log, and two logs that
hold an entry of the same index and term agree on everything both hold below it.  The two logs may be
of one node at two moments: what a follower keeps beyond an installed snapshot, it keeps because its own
entry at the snapshot's index had the snapshot's term. -/
theorem log_matching (hmeets : (machine G).Meets CleanStep {} es) (hrun : run G es = some (c, os)) :
    (∀ s, Stores c os s → ∀ j k t u, j ≤ k → s.termOf j = .ok t → s.termOf k = .ok u → t ≤ u) ∧
      ∀ s s', Stores c os s → Stores c os s' → ∀ k t, s.termOf k = .ok t → s'.termOf k = .ok t →
        ∀ j ≤ k, (∀ u u', s.termOf j = .ok u → s'.termOf j = .ok u' → u = u') ∧
          ∀ e e', s.entryAt j = some e → s'.entryAt j = some e' → e = e' := by
  have hC : (machine G).Meets (StepOK ⟨True, False⟩) {} es := by
    refine (machine G).meets_mono ?_ hmeets
    intro c e hclean
    exact ⟨fun _ => hclean, False.elim⟩
  obtain ⟨b, hlink, hok⟩ := run_ok (ClusterOK.init ⟨True, False⟩ G) hC hrun
  have htraced : ∀ s, Stores c os s → ∃ l, Traced b s l := by
    rintro s (⟨i, rfl⟩ | ⟨v, hv, rfl⟩)
    · exact ⟨_, (hok.procs i).dur.traced (Later.refl b)⟩
    · obtain ⟨m, -, ⟨_, hshown⟩, hlater⟩ := hlink.moment hv
      exact ⟨_, hshown.dur.traced hlater⟩
  refine ⟨?_, ?_⟩
  · intro s hs j k t u hjk ht hu
    obtain ⟨l, hl⟩ := htraced s hs
    exact hl.mono hjk ht hu
  · intro s s' hs hs' k t ht ht' j hj
    obtain ⟨l, hl⟩ := htraced s hs
    obtain ⟨l', hl'⟩ := htraced s' hs'
    exact hl.agree hl' ht ht' hj

instance {n : Node σ} {s : MemStore} {m : Message} : Decidable (CleanInstall n s m) := by
  have : Decidable (∃ x, n.r.snapIn = some x ∧ x.index = m.index ∧ m.offset = x.data.length) :=
    inferInstanceAs (Decidable (∃ x ∈ n.r.snapIn, x.index = m.index ∧ m.offset = x.data.length))
  unfold CleanInstall
  infer_instance

instance {c : Cluster σ} {e : Event σ} : Decidable (CleanStep c e) := by
  unfold CleanStep OnDelivery
  split
  next i m => exact inferInstanceAs (Decidable (∀ n ∈ (c.procs i).node, CleanInstall n (c.procs i).store m))
  next i m _ => exact inferInstanceAs (Decidable (∀ n ∈ (c.procs i).node, CleanInstall n (c.procs i).store m))
  next => infer_instance

/-- Node 1 leads term 1, and commits and compacts its first entry with node 2.  Node 3 gets the second entry
too early and refuses it, then it gets both, and then the snapshot that its refusal asked for. -/
def installedInside : List (Event ℕ) :=
  elected ++
    [ .op 1 (.propose [7]), .op 1 .flush
    , deliver { type := .app, fromId := 1, toId := 2, term := 1
                entries := [{ index := 1, term := 1, type := .noop }] }
    , deliver { type := .appResp, fromId := 2, toId := 1, term := 1, index := 1 }
    , deliver { type := .app, fromId := 1, toId := 3, term := 1, index := 1, logTerm := 1
                entries := [{ index := 2, term := 1, data := [7] }] }
    , deliver { type := .app, fromId := 1, toId := 3, term := 1
                entries := [{ index := 1, term := 1, type := .noop }] }
    , deliver { type := .app, fromId := 1, toId := 3, term := 1, index := 1, logTerm := 1
                entries := [{ index := 2, term := 1, data := [7] }] }
    , deliver { type := .appResp, fromId := 3, toId := 1, term := 1, reject := true, conflictIndex := 1 }
    , deliver { type := .snap, fromId := 1, toId := 3, term := 1, index := 1, logTerm := 1, done := true } ]

/-- Node 3 keeps its second entry behind the installed snapshot, and it is that of node 1. -/
theorem log_matching_installed :
    ∃ c os, run (trio 1) installedInside = some (c, os) ∧ (c.procs 3).store.snapIdx = 1 ∧
      ∃ e e', (c.procs 1).store.entryAt 2 = some e ∧ (c.procs 3).store.entryAt 2 = some e' ∧ e = e' := by
  have hend : (run (trio 1) installedInside).map (fun r => decide ((r.1.procs 3).store.snapIdx = 1 ∧
      (r.1.procs 1).store.entryAt 2 = some { index := 2, term := 1, data := [7] } ∧
      (r.1.procs 3).store.entryAt 2 = some { index := 2, term := 1, data := [7] } ∧
      (r.1.procs 1).store.termOf 2 = .ok 1 ∧ (r.1.procs 3).store.termOf 2 = .ok 1)) = some true := by
    decide +kernel
  obtain ⟨⟨c, os⟩, hrun, hend⟩ := Option.map_eq_some_iff.mp hend
  obtain ⟨hsnap, h1, h3, ht1, ht3⟩ := of_decide_eq_true hend
  have hclean : (machine (trio 1)).Meets CleanStep {} installedInside := by decide +kernel
  exact ⟨c, os, hrun, hsnap, _, _, h1, h3, ((log_matching hclean hrun).2 _ _ (Or.inl ⟨1, rfl⟩)
    (Or.inl ⟨3, rfl⟩) 2 1 ht1 ht3 2 (by decide)).2 _ _ h1 h3⟩

/-- Node 1 leads term 1 and keeps two entries for itself; node 3 leads term 2 without them, commits and
compacts its first entry, and sends node 1 the snapshot. -/
def diverged : List (Event ℕ) :=
  elected ++
    [ .op 1 (.propose [7]), .op 1 .flush
    , .op 3 .tick, .op 3 .tick
    , deliver { type := .vote, fromId := 3, toId := 2, term := 2 }
    , deliver { type := .voteResp, fromId := 2, toId := 3, term := 2 }
    , deliver { type := .app, fromId := 3, toId := 2, term := 2
                entries := [{ index := 1, term := 2, type := .noop }] }
    , deliver { type := .appResp, fromId := 2, toId := 3, term := 2, index := 1 }
    , deliver { type := .app, fromId := 3, toId := 1, term := 2, index := 1, logTerm := 2, commit := 1 }
    , deliver { type := .appResp, fromId := 1, toId := 3, term := 2, reject := true
                conflictTerm := 1, conflictIndex := 1 }
    , deliver { type := .snap, fromId := 3, toId := 1, term := 2, index := 1, logTerm := 2
                done := true } ]

/-- After the install node 1 holds its own entry of term 1 beyond a snapshot point of term 2. -/
theorem diverged_terms_decrease :
    ∃ c os, run (trio 1) diverged = some (c, os) ∧ ∃ s, Stores c os s ∧
      s.termOf 1 = .ok 2 ∧ s.termOf 2 = .ok 1 := by
  have hterms : (run (trio 1) diverged).map (fun r =>
      ((r.1.procs 1).store.termOf 1, (r.1.procs 1).store.termOf 2)) = some (.ok 2, .ok 1) := by
    decide +kernel
  obtain ⟨⟨c, os⟩, hrun, hterms⟩ := Option.map_eq_some_iff.mp hterms
  exact ⟨c, os, hrun, _, Or.inl ⟨1, rfl⟩, Prod.mk.inj hterms⟩

/-! ## Linearizable reads. -/

/-- Everything a node has committed is among the committed points of the history. -/
theorem ClusterOK.commit_le (h : ClusterOK md b c) {n : Node σ} (hn : (c.procs i).node = some n)
    {x : ℕ} (hx : ∀ U k, (U, k) ∈ b.a.commits → k ≤ x) : n.r.commit ≤ x := by
  obtain ⟨hr, -⟩ := (h.procs i).up n hn
  rcases hr.toHeld.below_commit with h0 | ⟨U, k, hc, -, hk⟩
  · omega
  · exact hk.trans (hx U k hc)

/-- Handing out a read handle has no effect yet. -/
theorem readIndex_shows {c' : Cluster σ} (hexec : exec G c (.op i .readIndex) = some (c', os)) :
    ∀ v ∈ os, v.effect = none := by
  simp only [exec] at hexec
  split at hexec
  · cases hexec
  · obtain ⟨-, rfl⟩ := Prod.mk.inj (Option.some.inj hexec)
    intro v hv
    obtain rfl := List.mem_singleton.mp hv
    rfl

/-- LINEARIZABLE READS.  In every run that confirms no read round by an answer to a request of an
earlier term: when the read that `Node.ReadIndex` returned at `i` finishes without an error, its index
is at least the commit index every node had when it was called, and the node has applied that index. -/
theorem read_index_linearizable {es₁ es₂ : List (Event σ)} {c₁ c₂ : Cluster σ}
    {os₁ os₂ : List (View σ)} {n : Node σ}
    (hmeets : (machine G).Meets FreshStep {} (es₁ ++ .op i .readIndex :: es₂))
    (hbefore : run G es₁ = some (c₁, os₁)) (hn : (c₁.procs i).node = some n)
    (hafter : (machine G).run c₁ (.op i .readIndex :: es₂) = some (c₂, os₂)) {v : View σ}
    (hv : v ∈ os₂) (hid : v.id = i) {rd : Read} (hrd : rd.handle = n.handles)
    (heff : v.effect = some (.finishRead rd none)) :
    (∀ j m, (c₁.procs j).node = some m → m.r.commit ≤ rd.index) ∧ rd.index ≤ v.node.applied := by
  have hC : (machine G).Meets (StepOK ⟨False, True⟩) {} (es₁ ++ .op i .readIndex :: es₂) := by
    refine (machine G).meets_mono ?_ hmeets
    intro c e hfresh
    exact ⟨False.elim, fun _ => hfresh⟩
  obtain ⟨hC₁, hC₂⟩ := hC.append hbefore
  obtain ⟨b₁, -, hok₁⟩ := run_ok (ClusterOK.init ⟨False, True⟩ G) hC₁ hbefore
  -- the call records what is committed at that moment
  obtain ⟨c', os', os'', hexec, hrest, rfl⟩ := Machine.run_cons hafter
  obtain ⟨b₂, -, hok₂, hbirth⟩ := op_ok hok₁ hC₂.1 hexec
  obtain ⟨b₃, hlink, -⟩ := run_ok hok₂ (hC₂.2 _ _ hexec) hrest
  rcases List.mem_append.mp hv with hv | hv
  · rw [readIndex_shows (G := G) hexec v hv] at heff
    cases heff
  · obtain ⟨m, hm, ⟨_, hshown⟩, -⟩ := hlink.moment hv
    obtain ⟨happ, hcur⟩ := hshown.effect _ heff rfl
    refine ⟨fun j n' hn' => hok₁.commit_le hn' ?_, happ⟩
    refine hcur trivial b₁.a.commits ?_
    rw [hid, hrd]
    exact hm.birth i n.handles _ (hbirth rfl n hn)

/-- The round is sent to node 2 and confirmed. -/
def confirmedRound : List (Event ℕ) :=
  [ .op 1 .flush
  , deliver { type := .app, fromId := 1, toId := 2, term := 1, index := 1, logTerm := 1, commit := 1
              readID := 1 }
  , deliver { type := .appResp, fromId := 2, toId := 1, term := 1, index := 1, readID := 1 } ]

/-- The handle of the read, and the view in which it finishes. -/
theorem settledRead :
    ((run (trio 0) settledLead).bind fun r =>
      ((machine (trio 0)).run r.1 (.op 1 .readIndex :: confirmedRound)).map fun r' =>
        ((r.1.procs 1).node.map Node.handles, r'.2[8]?.map fun v => (v.id, v.effect))) =
      some (some 0, some (1, some (.finishRead { handle := 0, index := 1 } none))) := by
  decide +kernel

theorem settledLead_runs : (run (trio 0) settledLead).isSome = true := by
  obtain ⟨r, hr, -⟩ := Option.bind_eq_some_iff.mp settledRead
  rw [hr]
  rfl

def beforeRead : Cluster ℕ × List (View ℕ) := (run (trio 0) settledLead).get settledLead_runs

theorem run_settledLead : run (trio 0) settledLead = some beforeRead := (Option.some_get _).symm

theorem confirmedRound_runs :
    ((machine (trio 0)).run beforeRead.1 (.op 1 .readIndex :: confirmedRound)).isSome = true := by
  obtain ⟨r, hr, hread⟩ := Option.bind_eq_some_iff.mp settledRead
  have hbefore : r = beforeRead := Option.some.inj (hr.symm.trans run_settledLead)
  obtain ⟨r', hr', -⟩ := Option.map_eq_some_iff.mp hread
  rw [← hbefore, hr']
  rfl

def afterRead : Cluster ℕ × List (View ℕ) :=
  ((machine (trio 0)).run beforeRead.1 (.op 1 .readIndex :: confirmedRound)).get confirmedRound_runs

theorem run_confirmedRound :
    (machine (trio 0)).run beforeRead.1 (.op 1 .readIndex :: confirmedRound) = some afterRead :=
  (Option.some_get _).symm

/-- A read of the settled leader sees the entry it has committed. -/
theorem read_index_linearizable_settled :
    ∃ v ∈ afterRead.2, v.effect = some (.finishRead { handle := 0, index := 1 } none) ∧
      1 ≤ v.node.applied := by
  have hfresh : (machine (trio 0)).Meets FreshStep {}
      (settledLead ++ .op 1 .readIndex :: confirmedRound) := by
    refine (machine (trio 0)).meets_of_forall ?_ {}
    intro e he c
    fin_cases he <;> first | trivial | (intro n _ _ _ _ _ _ hst; cases hst.1)
  obtain ⟨⟨c₁, os₁⟩, hr, hread⟩ := Option.bind_eq_some_iff.mp settledRead
  have hbefore : (c₁, os₁) = beforeRead := Option.some.inj (hr.symm.trans run_settledLead)
  obtain ⟨⟨c₂, os₂⟩, hr', hread⟩ := Option.map_eq_some_iff.mp hread
  have hafter : (c₂, os₂) = afterRead := by
    have hrun := run_confirmedRound
    rw [← hbefore] at hrun
    exact Option.some.inj (hr'.symm.trans hrun)
  obtain ⟨hn, hv⟩ := Prod.mk.inj hread
  obtain ⟨n, hn, hhandle⟩ := Option.map_eq_some_iff.mp hn
  obtain ⟨v, hat, hv⟩ := Option.map_eq_some_iff.mp hv
  obtain ⟨hid, heff⟩ := Prod.mk.inj hv
  have hmem := List.mem_of_getElem? hat
  rw [← hafter]
  exact ⟨v, hmem, heff,
    (read_index_linearizable hfresh hr hn hr' hmem hid hhandle.symm heff).2⟩

/-- Node 1 sends a round of term 1 to node 2, restarts and leads term 2; node 2 answers the round of
term 1 under term 2, and then leads term 3 with node 3. -/
def deposed : List (Event ℕ) :=
  settledLead ++
    [ .op 1 .readIndex, .op 1 .flush, .crash 1 .tick 0, boot 1, .op 1 .tick
    , deliver { type := .vote, fromId := 1, toId := 2, term := 2, index := 1, logTerm := 1 }
    , deliver { type := .voteResp, fromId := 2, toId := 1, term := 2 }
    , deliver { type := .app, fromId := 1, toId := 2, term := 2, index := 1, logTerm := 1
                entries := [{ index := 2, term := 2, type := .noop }] }
    , deliver { type := .appResp, fromId := 2, toId := 1, term := 2, index := 2 }
    , deliver { type := .app, fromId := 1, toId := 2, term := 1, index := 1, logTerm := 1, commit := 1
                readID := 1 }
    , .op 2 .tick
    , deliver { type := .vote, fromId := 2, toId := 3, term := 3, index := 2, logTerm := 2 }
    , deliver { type := .voteResp, fromId := 3, toId := 2, term := 3 }
    , deliver { type := .app, fromId := 2, toId := 3, term := 3, index := 2, logTerm := 2
                entries := [{ index := 3, term := 3, type := .noop }] }
    , deliver { type := .appResp, fromId := 3, toId := 2, term := 3, reject := true, conflictIndex := 1 }
    , deliver { type := .app, fromId := 2, toId := 3, term := 3
                entries := [ { index := 1, term := 1, type := .noop }
                           , { index := 2, term := 2, type := .noop }
                           , { index := 3, term := 3, type := .noop } ] }
    , deliver { type := .appResp, fromId := 3, toId := 2, term := 3, index := 3 } ]

/-- Node 1 opens its first round of term 2, which has the id of its first round of term 1. -/
def staleRound : List (Event ℕ) :=
  [ .op 1 .flush
  , deliver { type := .appResp, fromId := 2, toId := 1, term := 2, reject := true, readID := 1 } ]

/-- Node 2 had committed index 3 when the read was called; the read finishes at index 2. -/
theorem stale_read :
    ∃ c₁ os₁ c₂ os₂ n m, run (trio 0) deposed = some (c₁, os₁) ∧ (c₁.procs 1).node = some n ∧
      (c₁.procs 2).node = some m ∧
      (machine (trio 0)).run c₁ (.op 1 .readIndex :: staleRound) = some (c₂, os₂) ∧
      ∃ v ∈ os₂, v.id = 1 ∧ ∃ rd : Read, rd.handle = n.handles ∧
        v.effect = some (.finishRead rd none) ∧ rd.index < m.r.commit := by
  have hread : ((run (trio 0) deposed).bind fun r =>
      ((machine (trio 0)).run r.1 (.op 1 .readIndex :: staleRound)).map fun r' =>
        ((r.1.procs 1).node.map Node.handles, (r.1.procs 2).node.map (·.r.commit),
          r'.2[5]?.map fun v => (v.id, v.effect))) =
      some (some 1, some 3, some (1, some (.finishRead { handle := 1, index := 2 } none))) := by
    decide +kernel
  obtain ⟨⟨c₁, os₁⟩, hrun, hread⟩ := Option.bind_eq_some_iff.mp hread
  obtain ⟨⟨c₂, os₂⟩, hround, hread⟩ := Option.map_eq_some_iff.mp hread
  obtain ⟨hn, hm⟩ := Prod.mk.inj hread
  obtain ⟨hm, hv⟩ := Prod.mk.inj hm
  obtain ⟨n, hn, hhandle⟩ := Option.map_eq_some_iff.mp hn
  obtain ⟨m, hm, hcommit⟩ := Option.map_eq_some_iff.mp hm
  obtain ⟨v, hat, hv⟩ := Option.map_eq_some_iff.mp hv
  obtain ⟨hid, heff⟩ := Prod.mk.inj hv
  exact ⟨c₁, os₁, c₂, os₂, n, m, hrun, hn, hm, hround, v, List.mem_of_getElem? hat, hid,
    { handle := 1, index := 2 }, hhandle.symm, heff, hcommit.symm ▸ (by decide : 2 < 3)⟩

end Keystone.Raft
