/-
# Keystone.Raft.Cluster — a group of nodes over an unreliable network, with crashes inside a step.

The machine a run is made of.  Each process of a `Group` has a durable log store and, while it is up, a
`Node`.  `sent` keeps every message ever sent: a message may be delivered any number of times, in any
order, or never.  There are three events:

* `op i inp` — node `i` carries out one operation; a panic in it stops the process;
* `crash i inp k` — node `i` crashes inside an operation, after its first `k` effects (the store writes
  and the sends among them stay); with `k = 0` this is a crash between two operations;
* `restart i st rng` — `NewNode` on the durable store, with a state machine that reports a position at
  or below what it had applied.

`exec` is a function, so a run is determined by its events and can be evaluated.
-/
import Keystone.Lib.Transition
import Keystone.Raft.Node

namespace Keystone.Raft

open Function (update)

variable {σ : Type}

/-- A group of nodes with one fixed peer list. -/
structure Group (σ : Type) where
  peers : List NodeID
  nodup : peers.Nodup
  cfg : NodeID → Config
  cfg_id : ∀ i, (cfg i).id = i
  cfg_peers : ∀ i, (cfg i).peers = peers
  sm : StateMachine σ

structure Proc (σ : Type) where
  store : MemStore := {}
  node : Option (Node σ) := none
  /-- The highest position the state machine may come back at. -/
  position : Nat := 0
  handles : Nat := 0

structure Cluster (σ : Type) where
  procs : NodeID → Proc σ := fun _ => {}
  sent : List Message := []

inductive Event (σ : Type) where
  | op (i : NodeID) (inp : Input)
  | crash (i : NodeID) (inp : Input) (k : Nat)
  | restart (i : NodeID) (st : σ) (rng : Nat → Nat)

/-- What a run shows: a node and its store right after an effect, or between two operations. -/
structure View (σ : Type) where
  id : NodeID
  effect : Option Effect := none
  node : Node σ
  store : MemStore

def Point.view (i : NodeID) (p : Point σ) : View σ := ⟨i, some p.effect, p.node, p.store⟩

/-- The messages among the effects of a trace. -/
def sends (ps : List (Point σ)) : List Message :=
  ps.filterMap fun p =>
    match p.effect with
    | .send m => some m
    | _ => none

/-- Only a message that was sent to this node can be handed to it. -/
def Deliverable (sent : List Message) (i : NodeID) : Input → Prop
  | .step m => m ∈ sent ∧ m.toId = i
  | _ => True

instance (sent : List Message) (i : NodeID) (inp : Input) : Decidable (Deliverable sent i inp) :=
  match inp with
  | .step m => inferInstanceAs (Decidable (m ∈ sent ∧ m.toId = i))
  | .tick => isTrue trivial
  | .propose _ => isTrue trivial
  | .readIndex => isTrue trivial
  | .flush => isTrue trivial

/-- A process that stopped after the effects `ps`: only its store and what it sent remain. -/
def stopped (c : Cluster σ) (i : NodeID) (n : Node σ) (ps : List (Point σ)) :
    Cluster σ × List (View σ) :=
  let p := c.procs i
  let last := ps.getLast?
  ({ procs := update c.procs i
       { store := (last.map Point.store).getD p.store
         position := max p.position ((last.map fun q => q.node.applied).getD 0)
         handles := (last.map fun q => q.node.handles).getD n.handles }
     sent := c.sent ++ sends ps },
    ps.map (Point.view i))

/-- A process that completed an operation. -/
def completed (c : Cluster σ) (i : NodeID) (s : Sys σ) : Cluster σ × List (View σ) :=
  ({ procs := update c.procs i
       { store := s.store, node := some s.node
         position := max (c.procs i).position s.node.applied
         handles := s.node.handles }
     sent := c.sent ++ sends s.trace },
    s.trace.map (Point.view i) ++ [⟨i, none, s.node, s.store⟩])

/-- Run one operation of node `i`. -/
def perform (G : Group σ) (c : Cluster σ) (i : NodeID) (n : Node σ) (inp : Input) :
    EStateM.Result Panic (Sys σ) Unit :=
  operate (G.cfg i) G.sm inp { node := n, store := (c.procs i).store }

/-- The effects an operation had, whether it returned or not. -/
def effects : EStateM.Result Panic (Sys σ) Unit → List (Point σ)
  | .ok _ s => s.trace
  | .error _ s => s.trace

def exec (G : Group σ) (c : Cluster σ) : Event σ → Option (Cluster σ × List (View σ))
  | .op i inp =>
    match (c.procs i).node with
    | none => none
    | some n =>
      if Deliverable c.sent i inp then
        match perform G c i n inp with
        | .ok _ s => some (completed c i s)
        | .error _ s => some (stopped c i n s.trace)
      else
        none
  | .crash i inp k =>
    match (c.procs i).node with
    | none => none
    | some n =>
      if Deliverable c.sent i inp then
        some (stopped c i n ((effects (perform G c i n inp)).take k))
      else
        none
  | .restart i st rng =>
    let p := c.procs i
    if i ∈ G.peers ∧ p.node.isNone ∧ G.sm.lastApplied st ≤ p.position then
      match newNode (G.cfg i) G.sm p.store st rng p.handles with
      | none => none
      | some n =>
        some
          ({ c with procs := update c.procs i { p with node := some n } },
            [⟨i, none, n, p.store⟩])
    else
      none

/-- The three ways an event goes: an operation is completed, a process stops after a first part of an
operation's effects, or a process starts. -/
theorem exec_cases {G : Group σ} {c c' : Cluster σ} {e : Event σ} {os : List (View σ)}
    (h : exec G c e = some (c', os)) :
    (∃ i inp n S, e = .op i inp ∧ (c.procs i).node = some n ∧ Deliverable c.sent i inp ∧
      perform G c i n inp = .ok () S ∧ (c', os) = completed c i S) ∨
    (∃ i inp n ps rest, (e = .op i inp ∨ ∃ k, e = .crash i inp k) ∧ (c.procs i).node = some n ∧
      Deliverable c.sent i inp ∧ effects (perform G c i n inp) = ps ++ rest ∧
      (c', os) = stopped c i n ps) ∨
    ∃ i st rng n, e = .restart i st rng ∧ i ∈ G.peers ∧ (c.procs i).node = none ∧
      G.sm.lastApplied st ≤ (c.procs i).position ∧
      newNode (G.cfg i) G.sm (c.procs i).store st rng (c.procs i).handles = some n ∧
      (c', os) = ({ c with procs := update c.procs i { c.procs i with node := some n } },
        [⟨i, none, n, (c.procs i).store⟩]) := by
  cases e with
  | op i inp =>
    simp only [exec] at h
    split at h
    · cases h
    next n hn =>
    split at h
    case isFalse => cases h
    next hd =>
    split at h
    · next u S hres => exact Or.inl ⟨i, inp, n, S, rfl, hn, hd, hres, (Option.some.inj h).symm⟩
    · next p S hres =>
      refine Or.inr (Or.inl ⟨i, inp, n, S.trace, [], Or.inl rfl, hn, hd, ?_, (Option.some.inj h).symm⟩)
      rw [hres, List.append_nil]
      rfl
  | crash i inp k =>
    simp only [exec] at h
    split at h
    · cases h
    next n hn =>
    split at h
    case isFalse => cases h
    next hd =>
    exact Or.inr (Or.inl ⟨i, inp, n, _, _, Or.inr ⟨k, rfl⟩, hn, hd, (List.take_append_drop k _).symm,
      (Option.some.inj h).symm⟩)
  | restart i st rng =>
    simp only [exec] at h
    split at h
    case isFalse => cases h
    next hc =>
    split at h
    · cases h
    next n hn =>
    obtain ⟨hi, hdown, hpos⟩ := hc
    exact Or.inr (Or.inr ⟨i, st, rng, n, rfl, hi, Option.isNone_iff_eq_none.mp hdown, hpos, hn,
      (Option.some.inj h).symm⟩)

/-- The node an event moves. -/
def Event.node : Event σ → NodeID
  | .op i _ | .crash i _ _ | .restart i _ _ => i

/-- An event shows the node it moves, and leaves the other processes alone. -/
theorem exec_frame {G : Group σ} {c c' : Cluster σ} {e : Event σ} {os : List (View σ)}
    (h : exec G c e = some (c', os)) :
    (∀ v ∈ os, v.id = e.node) ∧ ∀ j, j ≠ e.node → c'.procs j = c.procs j := by
  have hview : ∀ (i : NodeID) (ps : List (Point σ)), ∀ v ∈ ps.map (Point.view i), v.id = i := by
    intro i ps v hv
    obtain ⟨p, -, rfl⟩ := List.mem_map.mp hv
    rfl
  rcases exec_cases h with ⟨i, inp, n, S, rfl, -, -, -, heq⟩ | ⟨i, inp, n, ps, rest, hev, -, -, -, heq⟩ |
    ⟨i, st, rng, n, rfl, -, -, -, -, heq⟩
  · obtain ⟨rfl, rfl⟩ := Prod.mk.inj heq
    refine ⟨fun v hv => ?_, fun j hj => Function.update_of_ne hj _ _⟩
    rcases List.mem_append.mp hv with hv | hv
    · exact hview i _ v hv
    · rw [List.mem_singleton.mp hv]
      rfl
  · obtain ⟨rfl, rfl⟩ := Prod.mk.inj heq
    have hnode : e.node = i := by
      rcases hev with rfl | ⟨k, rfl⟩ <;> rfl
    rw [hnode]
    exact ⟨hview i ps, fun j hj => Function.update_of_ne hj _ _⟩
  · obtain ⟨rfl, rfl⟩ := Prod.mk.inj heq
    refine ⟨fun v hv => ?_, fun j hj => Function.update_of_ne hj _ _⟩
    rw [List.mem_singleton.mp hv]
    rfl

/-- What holds of every node after an event: an operation that returns, or a start, has to establish it. -/
theorem exec_nodes {G : Group σ} {c c' : Cluster σ} {e : Event σ} {os : List (View σ)}
    {P : Node σ → Prop} (hexec : exec G c e = some (c', os))
    (h : ∀ i n, (c.procs i).node = some n → P n)
    (hop : ∀ i inp n S, (c.procs i).node = some n → Deliverable c.sent i inp →
      perform G c i n inp = .ok () S → P S.node)
    (hstart : ∀ i st rng n,
      newNode (G.cfg i) G.sm (c.procs i).store st rng (c.procs i).handles = some n → P n) :
    ∀ i n, (c'.procs i).node = some n → P n := by
  intro j n hn
  rcases exec_cases hexec with ⟨i, inp, n₀, S, -, hn₀, hd, hres, heq⟩ |
    ⟨i, inp, n₀, ps, rest, -, -, -, -, heq⟩ | ⟨i, st, rng, n₀, -, -, -, -, hnew, heq⟩ <;>
  obtain ⟨rfl, rfl⟩ := Prod.mk.inj heq <;>
  rcases eq_or_ne j i with rfl | hj
  · simp only [Function.update_self, Option.some.injEq] at hn
    exact hn ▸ hop j inp n₀ S hn₀ hd hres
  · exact h j n (by simpa [hj] using hn)
  · simp at hn
  · exact h j n (by simpa [hj] using hn)
  · simp only [Function.update_self, Option.some.injEq] at hn
    exact hn ▸ hstart j st rng n₀ hnew
  · exact h j n (by simpa [hj] using hn)

/-- What a run shows of one node. -/
def viewsOf (i : NodeID) (os : List (View σ)) : List (View σ) := os.filter fun v => v.id = i

theorem viewsOf_append (i : NodeID) (os os' : List (View σ)) :
    viewsOf i (os ++ os') = viewsOf i os ++ viewsOf i os' :=
  List.filter_append ..

theorem viewsOf_self {i : NodeID} {os : List (View σ)} (h : ∀ v ∈ os, v.id = i) :
    viewsOf i os = os :=
  List.filter_eq_self.mpr fun v hv => decide_eq_true (h v hv)

theorem viewsOf_ne {i j : NodeID} {os : List (View σ)} (h : ∀ v ∈ os, v.id = j) (hj : j ≠ i) :
    viewsOf i os = [] :=
  List.filter_eq_nil_iff.mpr fun v hv => by
    rw [h v hv]
    simpa using hj

/-- The group as a machine: its runs start from empty stores with every process down. -/
def machine (G : Group σ) : Lib.Machine (Cluster σ) (Event σ) (View σ) := ⟨exec G⟩

/-- A run of the group from the start: where it leads and everything it shows. -/
def run (G : Group σ) (es : List (Event σ)) : Option (Cluster σ × List (View σ)) :=
  (machine G).run {} es

end Keystone.Raft
