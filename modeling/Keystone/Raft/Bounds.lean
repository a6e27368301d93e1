/-
# Keystone.Raft.Bounds — no log access of a node is ever out of range.

The code panics when the log store refuses a call: `Term` and `Entries` outside the live log, `Append`
with a gap or below the snapshot.  A leader computes the indexes of such calls from numbers its
followers report, and compaction moves the lower bound while batches are on their way; that all of them
stay inside is a fact about the whole group.  It is what the simulation of `Keystone.Raft.Refinement`
proves on the way: an operation of a node at rest never stops with a refused log access, and each of its
effects is justified.
-/
import Keystone.Raft.Safety

namespace Keystone.Raft

open Keystone.Lib

variable {σ : Type} {G : Group σ} {md : Mode} {b : History G} {c : Cluster σ} {i : NodeID}
  {n : Node σ} {s : MemStore} {pos : ℕ} {es : List (Event σ)} {os : List (View σ)}

/-- The mode that assumes nothing about a run. -/
abbrev Mode.free : Mode := ⟨False, False⟩

/-- An input that can be delivered to a node of a related cluster. -/
theorem ClusterOK.inputFree (h : ClusterOK Mode.free b c) (hn : (c.procs i).node = some n)
    {inp : Input} (hd : Deliverable c.sent i inp) :
    InputOK Mode.free b i n (c.procs i).store inp :=
  h.input hn hd ⟨False.elim, False.elim⟩

/-- What a leader believes about its followers points into its own log. -/
theorem Sound.follower_le (h : Sound md b i pos n s) (hl : n.r.state = .leader) {q : NodeID}
    (hq : q ∈ G.peers) : n.r.next q - 1 ≤ s.lastIndex ∧ n.r.matchIdx q ≤ s.lastIndex := by
  have hL := h.toHeld.leading hl
  have hlast : s.lastIndex = (b.a.llog n.r.term).length := by
    rw [h.dur.lastIndex, h.whole hl]
  have hnext := hL.next q hq
  have hmatch := (hL.acked q).le_length b.inv hL.office.lead
  omega

/-- An operation of a node at rest does not stop at a refused log access. -/
theorem ClusterOK.perform_ne_refused (h : ClusterOK Mode.free b c) (hn : (c.procs i).node = some n)
    {inp : Input} (hd : Deliverable c.sent i inp) (e : StoreError) (S : Sys σ) :
    perform G c i n inp ≠ .error (.store e) S := by
  intro hstop
  have hin := h.inputFree hn hd
  obtain ⟨hr, -⟩ := (h.procs i).up n hn
  have hspec := operate_spec (S := { node := n, store := (c.procs i).store }) hin
    (Linked.nil (Grow.refl i b)) hr
  unfold perform at hstop
  unfold Wp at hspec
  rw [hstop] at hspec
  exact hspec.1 e rfl

/-- Every effect of an operation is justified at its moment, whether the operation returned or not. -/
theorem ClusterOK.effects_ok (h : ClusterOK md b c) (hn : (c.procs i).node = some n) {inp : Input}
    (hin : InputOK md b i n (c.procs i).store inp) {p : Point σ}
    (hp : p ∈ effects (perform G c i n inp)) :
    ∃ b' : History G, PointOK md i (c.procs i).position b' p := by
  have hperf := perform_ok h hn hin
  have hlinked : ∃ b', Linked (Grow i) (PointOK md i (c.procs i).position) b
      (effects (perform G c i n inp)) b' := by
    cases hres : perform G c i n inp with
    | ok u S =>
      rw [hres] at hperf
      obtain ⟨b', ht, -⟩ := hperf
      exact ⟨b', ht⟩
    | error u S =>
      rw [hres] at hperf
      exact hperf
  obtain ⟨b', ht⟩ := hlinked
  obtain ⟨b₁, -, hok, -⟩ := ht.moment hp
  exact ⟨b₁, hok⟩

/-- LOG ACCESS.  In every reachable state of a group, a leader's next and match indexes stay within its
log, and whatever operation a node carries out next, no log access of it is refused; the records it
appends lie above its commit index and each continues the log without a gap, and the entries it applies
lie above the compaction point. -/
theorem log_access_in_range (hrun : run G es = some (c, os)) (hn : (c.procs i).node = some n) :
    (n.r.state = .leader → ∀ q ∈ G.peers, n.r.next q - 1 ≤ (c.procs i).store.lastIndex ∧
      n.r.matchIdx q ≤ (c.procs i).store.lastIndex) ∧
    ∀ inp, Deliverable c.sent i inp →
      (∀ e S, perform G c i n inp ≠ .error (.store e) S) ∧
      ∀ p ∈ effects (perform G c i n inp),
        (∀ e, p.effect = .append e → p.node.r.commit < e.index ∧ e.index = p.store.lastIndex) ∧
        ∀ e result, p.effect = .apply e result → p.store.snapIdx < e.index := by
  obtain ⟨b, -, hok⟩ := run_related hrun
  obtain ⟨hr, -⟩ := (hok.procs i).up n hn
  refine ⟨fun hl q hq => hr.toSound.follower_le hl hq, fun inp hd => ⟨?_, ?_⟩⟩
  · intro e S
    exact hok.perform_ne_refused hn hd e S
  · intro p hp
    obtain ⟨b', hpoint⟩ := hok.effects_ok hn (hok.inputFree hn hd) hp
    refine ⟨fun e he => ?_, fun e result he => ?_⟩
    · exact hpoint.effect _ (congrArg some he)
    · exact (hpoint.effect _ (congrArg some he)).2

theorem handed_up : (handed.1.procs 2).node.isSome = true := by decide +kernel

/-- The second leader of the run: it assumes nothing of its followers beyond its own log. -/
theorem log_access_in_range_handover :
    ∃ n, (handed.1.procs 2).node = some n ∧ n.r.state = .leader ∧
      n.r.next 3 - 1 ≤ (handed.1.procs 2).store.lastIndex ∧
      ∀ e S, perform (trio 0) handed.1 2 n .tick ≠ .error (.store e) S := by
  have hn : (handed.1.procs 2).node = some ((handed.1.procs 2).node.get handed_up) :=
    (Option.some_get handed_up).symm
  have hl : ((handed.1.procs 2).node.get handed_up).r.state = .leader := by decide +kernel
  obtain ⟨hleader, hop⟩ := log_access_in_range run_handover hn
  exact ⟨_, hn, hl, (hleader hl 3 (by decide)).1, (hop .tick trivial).1⟩

end Keystone.Raft
