/-
# Keystone.Raft.Refinement — every run of the group is a history of the replicated log.

`ClusterOK md b c` relates a cluster to a history: every store shows its abstract node, every node that
is up is at rest, and every message ever sent tells the truth.  `exec_ok` is the simulation step, for all
three events: a completed operation, a process that stops after any prefix of an operation's effects, and
a restart from the durable store.  `run_ok` is the run: whatever the machine shows was justified by the
history at that moment, and histories only grow.

The two conditions a run may be required to meet, `CleanStep` and `FreshStep`, are conditions on the
state in which a message is delivered; a run that meets neither is simulated just as well, in a weaker
mode.
-/
import Keystone.Raft.Driver

namespace Keystone.Raft

open Keystone.Lib
open Keystone.Lib.TermLog (Inv Le)
open Function (update)

variable {σ : Type} {G : Group σ} {md : Mode} {b b' : History G} {c c' : Cluster σ} {i j : NodeID}
  {pos : ℕ} {n : Node σ} {s : MemStore} {p : Proc σ}

/-! ## The relation. -/

structure ProcOK (md : Mode) (b : History G) (i : NodeID) (p : Proc σ) : Prop where
  dur : Dur md.clean b.a i p.store
  position : Justified b.a i p.store p.position
  births : ∀ h K, b.birth i h = some K → h < p.handles
  up : ∀ n, p.node = some n → Resting md b i p.position n p.store ∧ n.handles = p.handles

structure ClusterOK (md : Mode) (b : History G) (c : Cluster σ) : Prop where
  procs : ∀ i, ProcOK md b i (c.procs i)
  sent : ∀ m ∈ c.sent, MsgOK b m

/-- A view of a run, justified by the history at its moment. -/
def ViewOK (md : Mode) (b : History G) (v : View σ) : Prop :=
  ∃ pos, Shown md b v.id pos v.effect v.node v.store

/-- Before anything happened. -/
def History.init (G : Group σ) : History G where
  a := TermLog.State.init
  inv := Inv.init _
  idx := by simp [Indexed, TermLog.State.init]
  rounds := fun _ _ => none
  rounds_ok := by simp
  epoch := fun _ _ => 0
  birth := fun _ _ => none
  birth_ok := by simp

theorem ClusterOK.init (md : Mode) (G : Group σ) : ClusterOK md (History.init G) {} where
  procs i :=
    { dur :=
        { term := rfl
          vote := rfl
          snap_le := le_rfl
          entries := rfl
          last := fun _ => rfl
          snap := Or.inl ⟨rfl, rfl⟩
          matched := fun _ => HasTerm.zero _ }
      position := Or.inl le_rfl
      births := by simp [History.init]
      up := by simp }
  sent := by simp

/-! ## What a step of node `i` does to the others and to the messages. -/

theorem ProcOK.still (h : ProcOK md b j p) (hg : Grow i b b') (hj : j ≠ i) : ProcOK md b' j p where
  dur := h.dur.of_le hg.le (hg.frame.term j hj) (hg.frame.vote j hj) (hg.frame.log j hj)
  position := h.position.of_le b.inv hg.le (hg.frame.log j hj) rfl
  births k K hK := h.births k K (hg.birth_frame j k hj ▸ hK)
  up n hn := by
    obtain ⟨hr, hh⟩ := h.up n hn
    exact ⟨hr.still (hg.still hj) (hg.frame.vote j hj) fun T => hg.frame.llog T j hj, hh⟩

/-- The messages of a trace are true when they are sent, and stay true. -/
theorem sends_ok {ps : List (Point σ)} (h : Linked (Grow i) (PointOK md i pos) b ps b') :
    ∀ m ∈ sends ps, MsgOK b' m := by
  intro m hm
  obtain ⟨q, hq, heff⟩ := List.mem_filterMap.mp hm
  have hall : ∀ m, q.effect = .send m → MsgOK b' m := by
    refine Linked.all (P := fun b q => ∀ m, q.effect = .send m → MsgOK b m) ?_ ?_ h hq
    · intro b₁ q hok m hm
      have := hok.effect q.effect rfl
      rwa [hm] at this
    · intro b₁ b₂ q hP hg m hm
      exact (hP m hm).of_later hg.later
  cases he : q.effect with
  | send m' =>
    rw [he] at heff
    obtain rfl := Option.some.inj heff
    exact hall m' he
  | _ =>
    rw [he] at heff
    cases heff

/-- Only the process of node `i` changes, and it sends `ms`. -/
theorem ClusterOK.setProc (h : ClusterOK md b c) (hg : Grow i b b') (hp : ProcOK md b' i p)
    {ms : List Message} (hms : ∀ m ∈ ms, MsgOK b' m) :
    ClusterOK md b' { procs := update c.procs i p, sent := c.sent ++ ms } where
  procs j := by
    by_cases hj : j = i
    · subst hj
      show ProcOK md b' j (update c.procs j p j)
      rw [Function.update_self]
      exact hp
    · show ProcOK md b' j (update c.procs i p j)
      rw [Function.update_of_ne hj]
      exact (h.procs j).still hg hj
  sent m hm := by
    rcases List.mem_append.mp hm with hm | hm
    · exact (h.sent m hm).of_later hg.later
    · exact hms m hm

/-! ## The three ways a step ends. -/

/-- Between two operations a node may be shown. -/
theorem Held.shown_idle (h : Held md b i pos n s) : Shown md b i pos none n s :=
  { h with
    births := h.reads.births
    office := fun hl _ => (h.leading hl).office
    effect := fun e he => by cases he }

theorem Justified.max {a : Abstract} {k k' : ℕ} (h : Justified a i s k) (h' : Justified a i s k') :
    Justified a i s (max k k') := by
  rcases le_total k k' with hle | hle
  · rwa [max_eq_right hle]
  · rwa [max_eq_left hle]

/-- A completed operation raises the position the state machine may come back at. -/
theorem Resting.reposition (h : Resting md b i pos n s) :
    Resting md b i (max pos n.applied) n s :=
  { h with
    pos := h.pos.max (h.commit.down h.applied) }

theorem PointOK.view {q : Point σ} (h : PointOK md i pos b q) : ViewOK md b (q.view i) := ⟨pos, h⟩

theorem completed_ok {S : Sys σ} (h : ClusterOK md b c)
    (ht : Tr md i (c.procs i).position b b' S)
    (hr : Resting md b' i (c.procs i).position S.node S.store) :
    Linked Later (ViewOK md) b (completed c i S).2 b' ∧ ClusterOK md b' (completed c i S).1 := by
  have hg : Grow i b b' := Linked.grow ht
  refine ⟨?_, ?_⟩
  · have hviews : Linked Later (ViewOK md) b (S.trace.map (Point.view i)) b' :=
      Linked.mono (Point.view i) (fun hg => hg.later) (fun hok => PointOK.view hok) ht
    exact Linked.snoc hviews ⟨_, hr.toHeld.shown_idle⟩ (Later.refl b')
  · refine h.setProc hg ?_ (sends_ok ht)
    have hr' := hr.reposition
    exact
      { dur := hr.dur
        position := hr'.pos
        births := hr.reads.births
        up := by
          intro n hn
          obtain rfl := Option.some.inj hn
          exact ⟨hr', rfl⟩ }

/-- A process may stop after any of its effects: what it leaves behind is what that moment showed. -/
theorem stopped_ok {ps rest : List (Point σ)} (h : ClusterOK md b c) (hn : (c.procs i).node = some n)
    (ht : Linked (Grow i) (PointOK md i (c.procs i).position) b (ps ++ rest) b') :
    ∃ b₁, Linked Later (ViewOK md) b (stopped c i n ps).2 b₁ ∧
      ClusterOK md b₁ (stopped c i n ps).1 := by
  have hp := h.procs i
  rcases List.eq_nil_or_concat ps with rfl | ⟨pre, q, rfl⟩
  · -- nothing happened yet
    refine ⟨b, .nil (Later.refl b), h.setProc (Grow.refl i b) ?_ (by simp [sends])⟩
    exact
      { dur := hp.dur
        position := by simpa using hp.position
        births := by simpa [(hp.up n hn).2] using hp.births
        up := by simp }
  · rw [List.concat_eq_append, List.append_assoc] at ht
    obtain ⟨b₁, hpre, hq⟩ := Linked.cut ht
    have hl : Linked (Grow i) (PointOK md i (c.procs i).position) b (pre ++ [q]) b₁ :=
      .snoc hpre hq (Grow.refl i b₁)
    rw [List.concat_eq_append]
    refine ⟨b₁, ?_, h.setProc (Linked.grow hl) ?_ (sends_ok hl)⟩
    · exact Linked.mono (Point.view i) (fun hg => hg.later) (fun hok => PointOK.view hok) hl
    · have hlast : (pre ++ [q]).getLast? = some q := by simp
      simp only [hlast, Option.map_some, Option.getD_some]
      exact
        { dur := hq.dur
          position := hq.pos.max (hq.commit.down hq.applied)
          births := hq.births
          up := by simp }

/-- `NewNode` on a durable store: the commit index starts at what the store and the state machine have
made durable, and both are justified. -/
theorem newNode_ok {st : σ} {rng : ℕ → ℕ} (hp : ProcOK md b i p) (hi : i ∈ G.peers)
    (hpos : G.sm.lastApplied st ≤ p.position)
    (hn : newNode (G.cfg i) G.sm p.store st rng p.handles = some n) :
    Resting md b i p.position n p.store ∧ n.handles = p.handles := by
  unfold newNode newRaft at hn
  rw [G.cfg_id] at hn
  by_cases hid : i = None
  · simp [hid] at hn
  rw [if_neg hid] at hn
  by_cases hcfg : (G.cfg i).peers.length = 0 ∨ (G.cfg i).electionTick = 0 ∨ (G.cfg i).heartbeatTick = 0
  · rw [if_pos hcfg] at hn
    cases hn
  rw [if_neg hcfg] at hn
  -- whatever position it starts at, the new node knows nothing but its store
  have key : ∀ st' k, p.store.snapIdx ≤ k → Justified b.a i p.store k →
      Resting md b i p.position
        { r := { term := p.store.term, vote := p.store.vote, commit := max p.store.snapIdx k
                 timeout := (G.cfg i).electionTick + rng 0 % (G.cfg i).electionTick
                 rng := fun k => rng (k + 1) }
          sm := st', applied := k, handles := p.handles } p.store := by
    intro st' k hk hjust
    exact
      { member := ⟨hi, hid⟩
        dur := hp.dur
        term := rfl
        vote := rfl
        commit := Justified.max (Or.inl le_rfl) hjust
        pos := hp.position
        applied := le_max_right _ _
        snapIn := by simp
        pending := by simp
        reads := ⟨by simp, by simp, by simp, by simp, by simp, hp.births⟩
        role := fun _ => rfl
        whole := by simp
        snap_commit := le_max_left _ _
        cover := Or.inl hk
        restored := by simp
        caught := hk }
  by_cases hbehind : G.sm.lastApplied st < p.store.snapIdx
  · simp only [Option.bind_eq_bind, Option.bind_some, if_pos hbehind] at hn
    cases hres : G.sm.restore st p.store.snap with
    | none => simp [hres] at hn
    | some st' =>
      simp only [hres, Option.map_some, Option.bind_some, Option.some.injEq] at hn
      subst hn
      exact ⟨key st' _ le_rfl (Or.inl le_rfl), rfl⟩
  · simp only [Option.bind_eq_bind, Option.bind_some, if_neg hbehind, Option.some.injEq] at hn
    subst hn
    exact ⟨key st _ (by omega) (hp.position.down hpos), rfl⟩

/-! ## The simulation. -/

/-- The condition `C` on the node that is handed a message, for a step of the cluster. -/
def OnDelivery (C : Node σ → MemStore → Message → Prop) (c : Cluster σ) : Event σ → Prop
  | .op i (.step m) => ∀ n, (c.procs i).node = some n → C n (c.procs i).store m
  | .crash i (.step m) _ => ∀ n, (c.procs i).node = some n → C n (c.procs i).store m
  | _ => True

/-- No snapshot is installed under entries of another history. -/
def CleanStep (c : Cluster σ) (e : Event σ) : Prop := OnDelivery CleanInstall c e

/-- No read round is confirmed by an answer to a request of an earlier term. -/
def FreshStep (c : Cluster σ) (e : Event σ) : Prop := OnDelivery (fun n _ m => FreshAnswer n m) c e

/-- The conditions of a mode. -/
def StepOK (md : Mode) (c : Cluster σ) (e : Event σ) : Prop :=
  (md.clean → CleanStep c e) ∧ (md.fresh → FreshStep c e)

/-- A delivered message was sent, and meets the conditions of the mode. -/
theorem ClusterOK.input (h : ClusterOK md b c) (hn : (c.procs i).node = some n) {inp : Input}
    (hd : Deliverable c.sent i inp) (hC : StepOK md c (.op i inp)) :
    InputOK md b i n (c.procs i).store inp where
  msg m hm := by
    subst hm
    exact ⟨h.sent m hd.1, hd.2⟩
  clean hcl m hm := by
    subst hm
    exact hC.1 hcl n hn
  fresh hf m hm := by
    subst hm
    exact hC.2 hf n hn

/-- One operation, run to its end or to a panic. -/
theorem perform_ok (h : ClusterOK md b c) (hn : (c.procs i).node = some n) {inp : Input}
    (hin : InputOK md b i n (c.procs i).store inp) :
    match perform G c i n inp with
    | .ok _ S => ∃ b', Tr md i (c.procs i).position b b' S ∧
        Resting md b' i (c.procs i).position S.node S.store ∧
        (inp = .readIndex → b'.birth i n.handles = some b.a.commits)
    | .error _ S => ∃ b', Tr md i (c.procs i).position b b' S := by
  obtain ⟨hr, -⟩ := (h.procs i).up n hn
  have hspec := operate_spec (S := { node := n, store := (c.procs i).store }) hin
    (Linked.nil (Grow.refl i b)) hr
  unfold Wp at hspec
  unfold perform
  split at hspec
  · next S heq =>
    obtain ⟨b', -, ht, hr', hbirth⟩ := hspec
    rw [heq]
    exact ⟨b', ht, hr', hbirth⟩
  · next S heq =>
    obtain ⟨-, b', ht⟩ := hspec
    rw [heq]
    exact ⟨b', ht⟩

theorem op_ok {inp : Input} {os : List (View σ)} (h : ClusterOK md b c)
    (hC : StepOK md c (.op i inp)) (hexec : exec G c (.op i inp) = some (c', os)) :
    ∃ b', Linked Later (ViewOK md) b os b' ∧ ClusterOK md b' c' ∧
      (inp = .readIndex → ∀ n, (c.procs i).node = some n →
        b'.birth i n.handles = some b.a.commits) := by
  simp only [exec] at hexec
  split at hexec
  · cases hexec
  next n hn =>
  split at hexec
  case isFalse => cases hexec
  next hd =>
  have hperf := perform_ok h hn (h.input hn hd hC)
  split at hexec
  · next u S hres =>
    rw [hres] at hperf
    obtain ⟨b', ht, hr, hbirth⟩ := hperf
    have hok := completed_ok h ht hr
    rw [Option.some.inj hexec] at hok
    refine ⟨b', hok.1, hok.2, fun hinp n' hn' => ?_⟩
    rw [hn] at hn'
    obtain rfl := Option.some.inj hn'
    exact hbirth hinp
  · next u S hres =>
    rw [hres] at hperf
    obtain ⟨b', ht⟩ := hperf
    have ht' : Linked (Grow i) (PointOK md i (c.procs i).position) b (S.trace ++ []) b' := by
      rw [List.append_nil]
      exact ht
    have hok := stopped_ok h hn ht'
    rw [Option.some.inj hexec] at hok
    obtain ⟨b₁, hlink, hc⟩ := hok
    refine ⟨b₁, hlink, hc, fun hinp => ?_⟩
    -- handing out a read handle does not fail
    subst hinp
    cases hres

theorem crash_ok {inp : Input} {k : ℕ} {os : List (View σ)} (h : ClusterOK md b c)
    (hC : StepOK md c (.op i inp)) (hexec : exec G c (.crash i inp k) = some (c', os)) :
    ∃ b', Linked Later (ViewOK md) b os b' ∧ ClusterOK md b' c' := by
  simp only [exec] at hexec
  split at hexec
  · cases hexec
  next n hn =>
  split at hexec
  case isFalse => cases hexec
  next hd =>
  have hperf := perform_ok h hn (h.input hn hd hC)
  have hlinked : ∃ b', Linked (Grow i) (PointOK md i (c.procs i).position) b
      (effects (perform G c i n inp)) b' := by
    cases hres : perform G c i n inp with
    | ok u S =>
      rw [hres] at hperf
      obtain ⟨b', ht, -⟩ := hperf
      exact ⟨b', ht⟩
    | error u S =>
      rw [hres] at hperf
      exact hperf
  obtain ⟨b', ht⟩ := hlinked
  rw [← List.take_append_drop k (effects (perform G c i n inp))] at ht
  have hok := stopped_ok h hn ht
  rwa [Option.some.inj hexec] at hok

theorem restart_ok {st : σ} {rng : ℕ → ℕ} {os : List (View σ)} (h : ClusterOK md b c)
    (hexec : exec G c (.restart i st rng) = some (c', os)) :
    Linked Later (ViewOK md) b os b ∧ ClusterOK md b c' := by
  simp only [exec] at hexec
  split at hexec
  case isFalse => cases hexec
  next hc =>
  split at hexec
  · cases hexec
  next n hn =>
  obtain ⟨rfl, rfl⟩ := Prod.mk.inj (Option.some.inj hexec)
  have hp := h.procs i
  obtain ⟨hr, hh⟩ := newNode_ok hp hc.1 hc.2.2 hn
  refine ⟨?_, ?_⟩
  · have hnil : Linked Later (ViewOK md) b [] b := .nil (Later.refl b)
    exact hnil.snoc ⟨_, hr.toHeld.shown_idle⟩ (Later.refl b)
  · have hproc : ProcOK md b i { c.procs i with node := some n } := by
      refine ⟨hp.dur, hp.position, hp.births, ?_⟩
      intro n' hn'
      obtain rfl := Option.some.inj hn'
      exact ⟨hr, hh⟩
    have hok : ClusterOK md b
        { procs := update c.procs i { c.procs i with node := some n }, sent := c.sent ++ [] } :=
      h.setProc (Grow.refl i b) hproc (by simp)
    rwa [List.append_nil] at hok

/-- A crash inside an operation is under the same condition as the operation. -/
theorem StepOK.of_crash {inp : Input} {k : ℕ} (h : StepOK md c (.crash i inp k)) :
    StepOK md c (.op i inp) := by
  cases inp <;> exact h

/-- SIMULATION STEP.  Whatever an event shows is justified by the history as it grows, and the cluster
it leads to is related to the grown history. -/
theorem exec_ok {e : Event σ} {os : List (View σ)} (h : ClusterOK md b c) (hC : StepOK md c e)
    (hexec : exec G c e = some (c', os)) :
    ∃ b', Linked Later (ViewOK md) b os b' ∧ ClusterOK md b' c' := by
  cases e with
  | op i inp =>
    obtain ⟨b', hlink, hok, -⟩ := op_ok h hC hexec
    exact ⟨b', hlink, hok⟩
  | crash i inp k => exact crash_ok h hC.of_crash hexec
  | restart i st rng => exact ⟨b, restart_ok h hexec⟩

/-- SIMULATION.  Everything a run of the machine shows is justified by a growing history. -/
theorem run_ok {es : List (Event σ)} {os : List (View σ)} (h : ClusterOK md b c)
    (hC : (machine G).Meets (StepOK md) c es) (hrun : (machine G).run c es = some (c', os)) :
    ∃ b', Linked Later (ViewOK md) b os b' ∧ ClusterOK md b' c' := by
  refine Machine.run_linked (R := ClusterOK md) (C := StepOK md) ?_ h hC hrun
  intro b c e c' os hok hC hexec
  exact exec_ok hok hC hexec

end Keystone.Raft
