/-
# Keystone.Raft.Node — the driver of one Raft node (`raft/node.go`, `raft/statemachine.go`).

`Node` owns a `Raft` and its state machine: it batches proposals, applies what is committed, settles
proposals and reads, and compacts the log.  The public operations of a node are `Node.Step`, `Tick`,
`Propose`, `ReadIndex` and `Flush`; `Run` only chooses among them, so it is not modelled, nor is the
wake-up channel.  The code's `pending` and `reads` are Go maps, whose iteration order is arbitrary; the
model iterates in insertion order, which no statement of this development looks at.

A loop of the code whose bound is not structural takes fuel.  `flushProposals` removes a proposal a
round and `applyCommitted` applies an entry a round, so the fuel they are given is the length of what
they consume.
-/
import Keystone.Raft.Core

namespace Keystone.Raft

open Keystone.Lib (when)

/-- The interface `StateMachine`.  Restoring and taking a snapshot may fail. -/
structure StateMachine (σ : Type) where
  apply : σ → Entry → Bytes × σ
  lastApplied : σ → Nat
  snapshot : σ → Option Bytes
  restore : σ → Bytes → Option σ

variable {σ : Type}

def getNode : M σ (Node σ) := do return (← get).node

/-! ## Construction. -/

/-- `New`: a follower with the durable term and vote, committed up to the snapshot.  `none` where the
code refuses the configuration. -/
def newRaft (cfg : Config) (s : MemStore) (rng : Nat → Nat) : Option Raft :=
  if cfg.id = None then
    none
  else if cfg.peers.length = 0 ∨ cfg.electionTick = 0 ∨ cfg.heartbeatTick = 0 then
    none
  else
    some
      { term := s.term, vote := s.vote, commit := s.snapIdx
        timeout := cfg.electionTick + rng 0 % cfg.electionTick
        rng := fun k => rng (k + 1) }

/-- `NewNode`: the state machine comes back at whatever position it made durable; behind the
compaction point it is rebuilt from the snapshot. -/
def newNode (cfg : Config) (sm : StateMachine σ) (s : MemStore) (st : σ) (rng : Nat → Nat)
    (handles : Nat) : Option (Node σ) := do
  let r ← newRaft cfg s rng
  let n : Node σ ←
    if sm.lastApplied st < s.snapIdx then
      (sm.restore st s.snap).map fun st' => { r := r, sm := st', applied := s.snapIdx }
    else
      some { r := r, sm := st, applied := sm.lastApplied st }
  some { n with r := { n.r with commit := max n.r.commit n.applied }, handles := handles }

/-! ## Proposals (`Propose`, `Flush`). -/

def finishProposal (p : Proposal) (result : Bytes) (err : Option Err) : M σ Unit :=
  emit (.finishProposal p result err)

def finishRead (rd : Read) (err : Option Err) : M σ Unit :=
  emit (.finishRead rd err)

/-- Proposals that were appended wait for their index to be applied. -/
def addPending (pending : AList fun _ : Nat => Proposal) (term : Nat) :
    Nat → List Proposal → AList fun _ : Nat => Proposal
  | _, [] => pending
  | index, p :: ps =>
    addPending (pending.insert index { p with index := index, term := term }) term (index + 1) ps

def flushBatch (cfg : Config) : M σ Unit := do
  let n ← getNode
  let queue :=
    if cfg.maxProposalBatch > 0 ∧ n.queue.length > cfg.maxProposalBatch then
      n.queue.take cfg.maxProposalBatch
    else
      n.queue
  modifyNode fun n => { n with queue := n.queue.drop queue.length }
  if n.r.state ≠ .leader then
    queue.forM fun p => finishProposal p [] (some .notLeader)
  else do
    match ← propose cfg (queue.map Proposal.data) with
    | none => queue.forM fun p => finishProposal p [] (some .notLeader)
    | some first => do
      let r ← getRaft
      modifyNode fun n => { n with pending := addPending n.pending r.term first queue }

def flushProposals (cfg : Config) : Nat → M σ Unit
  | 0 => pure ()
  | fuel + 1 => do
    let n ← getNode
    when (n.queue.length > 0) do
      flushBatch cfg
      flushProposals cfg fuel

/-! ## Applying (`advance`). -/

/-- Fail every proposal and read that is not confirmed yet. -/
def failAll : M σ Unit := do
  let n ← getNode
  n.queue.forM fun p => finishProposal p [] (some .notLeader)
  modifyNode fun n => { n with queue := [] }
  n.pending.entries.forM fun x => do
    modifyNode fun n => { n with pending := n.pending.erase x.1 }
    finishProposal x.2 [] (some .notLeader)
  n.readQueue.forM fun rd => finishRead rd (some .notLeader)
  modifyNode fun n => { n with readQueue := [] }
  n.reads.entries.forM fun x => do
    modifyNode fun n => { n with reads := n.reads.erase x.1 }
    x.2.forM fun rd => finishRead rd (some .notLeader)

/-- `TakeRestored` and the restore it asks for. -/
def loadRestored (sm : StateMachine σ) : M σ Unit := do
  let n ← getNode
  match n.r.restored with
  | none => pure ()
  | some x => do
    modifyRaft fun r => { r with restored := none }
    when (x.index > n.applied) do
      match sm.restore n.sm x.data with
      | none => throw .stateMachine
      | some st => do
        modifyNode fun n => { n with sm := st, applied := x.index }
        emit (.restore x.index)

/-- Settle the proposal that waits for the applied entry, if there is one. -/
def settleProposal (e : Entry) (result : Bytes) : M σ Unit := do
  let n ← getNode
  match n.pending.lookup e.index with
  | none => pure ()
  | some p => do
    modifyNode fun n => { n with pending := n.pending.erase e.index }
    if p.term = e.term then
      finishProposal p result none
    else
      finishProposal p [] (some .notLeader)

/-- Pass one committed entry: the state machine sees it if it is a `normal` one. -/
def applyEntry (sm : StateMachine σ) (e : Entry) : M σ Unit := do
  let n ← getNode
  if e.type = .normal then do
    modifyNode fun n => { n with sm := (sm.apply n.sm e).2, applied := e.index }
    emit (.apply e (sm.apply n.sm e).1)
    settleProposal e (sm.apply n.sm e).1
  else do
    modifyNode fun n => { n with applied := e.index }
    emit (.apply e [])
    settleProposal e []

/-- How many entries are read from the store per pass. -/
def applyBatch : Nat := 256

def applyCommitted (sm : StateMachine σ) : Nat → M σ Unit
  | 0 => pure ()
  | fuel + 1 => do
    let n ← getNode
    when (n.applied < n.r.commit) do
      let es ← readEntries (n.applied + 1) (min n.r.commit (n.applied + applyBatch) + 1)
      es.forM (applyEntry sm)
      applyCommitted sm fuel

/-- Open a round for the queued reads; a leader that has not committed in its term keeps them
queued. -/
def startReads (cfg : Config) : M σ Unit := do
  let n ← getNode
  if n.readQueue = [] then
    pure ()
  else do
    match ← readIndex cfg with
    | .error .leaderNotReady => pure ()
    | .error .notLeader => do
      modifyNode fun n => { n with readQueue := [] }
      n.readQueue.forM fun rd => finishRead rd (some .notLeader)
    | .ok id => modifyNode fun n => { n with readQueue := [], reads := n.reads.insert id n.readQueue }

/-- `TakeReady`: the reads of a confirmed round wait for its index. -/
def collectReady : M σ Unit := do
  let r ← getRaft
  modifyRaft fun r => { r with ready := [] }
  r.ready.forM fun rr => modifyNode fun n =>
    { n with
      waiting := n.waiting ++ ((n.reads.lookup rr.id).getD []).map fun rd =>
        { rd with index := rr.index }
      reads := n.reads.erase rr.id }

def finishWaiting : M σ Unit := do
  let n ← getNode
  n.waiting.forM fun rd => when (rd.index ≤ n.applied) (finishRead rd none)
  modifyNode fun n => { n with waiting := n.waiting.filter fun rd => ¬ rd.index ≤ n.applied }

/-- Subtraction of `uint64` values. -/
def subU64 (a b : Nat) : Nat := if b ≤ a then a - b else 2 ^ 64 - (b - a)

def maybeSnapshot (cfg : Config) (sm : StateMachine σ) : M σ Unit := do
  let n ← getNode
  let s ← getStore
  if cfg.snapshotThreshold = 0 ∨ subU64 (n.applied + 1) s.firstIndex < cfg.snapshotThreshold then
    pure ()
  else
    match sm.snapshot n.sm with
    | none => throw .stateMachine
    | some data => do
      let t ← termAt n.applied
      compactStore n.applied t data

def advance (cfg : Config) (sm : StateMachine σ) : M σ Unit := do
  let r ← getRaft
  when (r.state ≠ .leader) failAll
  loadRestored sm
  let n ← getNode
  applyCommitted sm (n.r.commit - n.applied)
  startReads cfg
  collectReady
  finishWaiting
  maybeSnapshot cfg sm

/-! ## The public operations. -/

inductive Input where
  | tick
  | step (m : Message)
  | propose (data : Bytes)
  | readIndex
  | flush
  deriving DecidableEq, Repr

/-- One call of the node's interface. -/
def operate (cfg : Config) (sm : StateMachine σ) : Input → M σ Unit
  | .tick => do
    tick cfg
    advance cfg sm
  | .step m => do
    step cfg m
    advance cfg sm
  | .propose data =>
    modifyNode fun n =>
      { n with queue := n.queue ++ [{ handle := n.handles, data := data }], handles := n.handles + 1 }
  | .readIndex =>
    modifyNode fun n =>
      { n with readQueue := n.readQueue ++ [{ handle := n.handles }], handles := n.handles + 1 }
  | .flush => do
    let n ← getNode
    flushProposals cfg n.queue.length
    advance cfg sm

end Keystone.Raft
