/-
# Keystone.Raft.Core — the Raft state machine (`raft/raft.go`, `raft/snapshot.go`).

`Raft` is the code's synchronous state machine, embedded function by function under the code's names.
A function runs in `M σ`: an `EStateM` over the whole process state `Sys` (the node, its log store, and
the trace of the current operation) that stops at a `Panic`.

Every externally visible action — a message sent, a log store record written, an entry applied, a
handle finished — and every assignment of `state` and `commit` appends a `Point` to the trace: the
action and the process state right after it.  A crash inside an operation keeps a prefix of these
points (`Keystone.Raft.Cluster`), so the trace is what a crash can cut.

The random draws of `resetTimeout` come from a stream in the state.  Go's nil maps are empty maps here:
the code writes `votes` only as a candidate and `next`, `match`, `reads`, `snapOut` only as a leader,
after it has made them.
-/
import Mathlib.Data.Finset.Card
import Mathlib.Data.List.AList
import Mathlib.Data.List.Sort
import Mathlib.Logic.Function.Basic
import Keystone.Lib.Hoare
import Keystone.Raft.Types

-- the code's own name for the state machine is `raft.Raft`
set_option linter.dupNamespace false

namespace Keystone.Raft

open Function (update)
open Keystone.Lib (when)

/-! ## State. -/

inductive State where
  | follower
  | candidate
  | leader
  deriving DecidableEq, Repr

/-- The settings of one node: `raft.Config` and the fields of `raft.NodeConfig` the driver reads. -/
structure Config where
  id : NodeID
  peers : List NodeID
  electionTick : Nat
  heartbeatTick : Nat
  maxBatch : Nat := 0
  maxBatchBytes : Nat := 0
  snapshotChunk : Nat := 0
  snapshotThreshold : Nat := 0
  maxProposalBatch : Nat := 0

namespace Config

/-- The defaults `New` puts in for settings that are not positive. -/
def batch (cfg : Config) : Nat := if cfg.maxBatch = 0 then 256 else cfg.maxBatch

def batchBytes (cfg : Config) : Nat := if cfg.maxBatchBytes = 0 then 2 ^ 20 else cfg.maxBatchBytes

def snapChunk (cfg : Config) : Nat := if cfg.snapshotChunk = 0 then 512 * 2 ^ 10 else cfg.snapshotChunk

def quorum (cfg : Config) : Nat := cfg.peers.length / 2 + 1

end Config

/-- One snapshot on its way, out or in. -/
structure SnapTransfer where
  index : Nat
  term : Nat
  data : Bytes := []
  offset : Nat := 0
  deriving DecidableEq, Repr

structure ReadRound where
  index : Nat
  acks : Finset NodeID
  deriving DecidableEq

structure ReadReady where
  id : Nat
  index : Nat
  deriving DecidableEq, Repr

structure Raft where
  term : Nat
  vote : NodeID
  state : State := .follower
  lead : NodeID := None
  commit : Nat
  votes : AList (fun _ : NodeID => Bool) := ∅
  next : NodeID → Nat := fun _ => 0
  matchIdx : NodeID → Nat := fun _ => 0
  elapsed : Nat := 0
  timeout : Nat := 0
  reads : Nat → Option ReadRound := fun _ => none
  nextReadID : Nat := 0
  ready : List ReadReady := []
  snapOut : NodeID → Option SnapTransfer := fun _ => none
  snapIn : Option SnapTransfer := none
  restored : Option SnapTransfer := none
  rng : Nat → Nat

/-- A client entry on its way through the log; `handle` is the identity of the code's pointer. -/
structure Proposal where
  handle : Nat
  data : Bytes
  term : Nat := 0
  index : Nat := 0
  deriving DecidableEq, Repr

/-- A ReadIndex request. -/
structure Read where
  handle : Nat
  index : Nat := 0
  deriving DecidableEq, Repr

/-- `raft.Node`: the driver around a `Raft` and its state machine. -/
structure Node (σ : Type) where
  r : Raft
  sm : σ
  applied : Nat
  queue : List Proposal := []
  pending : AList (fun _ : Nat => Proposal) := ∅
  readQueue : List Read := []
  reads : AList (fun _ : Nat => List Read) := ∅
  waiting : List Read := []
  handles : Nat := 0

/-- `ErrNotLeader`, the one error a finished handle can carry. -/
inductive Err where
  | notLeader
  deriving DecidableEq, Repr

/-- What a step does that a crash cannot undo, or that a reader of the run wants to see. -/
inductive Effect where
  | send (m : Message)
  | setState (term : Nat) (vote : NodeID)
  | append (e : Entry)
  | compact (index term : Nat) (snap : Bytes)
  | become (s : State)
  | commit (index : Nat)
  | apply (e : Entry) (result : Bytes)
  | restore (index : Nat)
  | finishProposal (p : Proposal) (result : Bytes) (err : Option Err)
  | finishRead (rd : Read) (err : Option Err)
  deriving DecidableEq, Repr

structure Point (σ : Type) where
  effect : Effect
  node : Node σ
  store : MemStore

/-- The state of one process inside an operation. -/
structure Sys (σ : Type) where
  node : Node σ
  store : MemStore
  trace : List (Point σ) := []

/-- Where the code stops: a refused log access, a slice out of range, a state machine error. -/
inductive Panic where
  | store (e : StoreError)
  | slice
  | stateMachine
  deriving DecidableEq, Repr

abbrev M (σ : Type) := EStateM Panic (Sys σ)

variable {σ : Type}

/-! ## Primitives. -/

def getRaft : M σ Raft := do return (← get).node.r

def getStore : M σ MemStore := do return (← get).store

def modifyRaft (f : Raft → Raft) : M σ Unit :=
  modify fun s => { s with node := { s.node with r := f s.node.r } }

def modifyNode (f : Node σ → Node σ) : M σ Unit :=
  modify fun s => { s with node := f s.node }

def emit (e : Effect) : M σ Unit :=
  modify fun s => { s with trace := s.trace ++ [⟨e, s.node, s.store⟩] }

def setRole (st : State) : M σ Unit := do
  modifyRaft fun r => { r with state := st }
  emit (.become st)

def setCommit (n : Nat) : M σ Unit := do
  modifyRaft fun r => { r with commit := n }
  emit (.commit n)

def resetTimeout (cfg : Config) : M σ Unit :=
  modifyRaft fun r =>
    { r with
      elapsed := 0
      timeout := cfg.electionTick + r.rng 0 % cfg.electionTick
      rng := fun k => r.rng (k + 1) }

def send (cfg : Config) (m : Message) : M σ Unit := do
  let r ← getRaft
  emit (.send { m with fromId := cfg.id, term := r.term })

def termAt (index : Nat) : M σ Nat := do
  match (← getStore).termOf index with
  | .ok t => pure t
  | .error e => throw (.store e)

def lastIndexAndTerm : M σ (Nat × Nat) := do
  let last := (← getStore).lastIndex
  let t ← termAt last
  pure (last, t)

/-- `store.Entries`, a refusal being a panic. -/
def readEntries (lo hi : Nat) : M σ (List Entry) := do
  match (← getStore).slice lo hi with
  | .ok es => pure es
  | .error e => throw (.store e)

def appendRecord (e : Entry) : M σ Unit := do
  modify fun s => { s with store := s.store.appendOne e }
  emit (.append e)

/-- `store.Append`, record by record as it reaches the disk; a refusal is a panic. -/
def appendStore (es : List Entry) : M σ Unit := do
  match (← getStore).append es with
  | .ok _ => es.forM appendRecord
  | .error e => throw (.store e)

def compactStore (index term : Nat) (snap : Bytes) : M σ Unit := do
  modify fun s => { s with store := s.store.compact index term snap }
  emit (.compact index term snap)

def persistState : M σ Unit := do
  let r ← getRaft
  modify fun s => { s with store := s.store.setState r.term r.vote }
  emit (.setState r.term r.vote)

/-! ## Batches and replication (`sendAppend`, `sendSnapshot`). -/

/-- The rest of a batch: entries are taken while their payloads fit. -/
def fitBytes (limit : Nat) : Nat → List Entry → List Entry
  | _, [] => []
  | size, e :: es =>
    if size + e.data.length > limit then [] else e :: fitBytes limit (size + e.data.length) es

/-- The prefix of entries one message may carry; the first entry always goes. -/
def fitBatch (cfg : Config) (es : List Entry) : List Entry :=
  match es.take cfg.batch with
  | [] => []
  | e :: rest => e :: fitBytes cfg.batchBytes e.data.length rest

def sendChunk (cfg : Config) (dst : NodeID) (x : SnapTransfer) : M σ Unit := do
  let stop := min (x.offset + cfg.snapChunk) x.data.length
  if x.offset > stop then
    throw .slice
  else
    send cfg
      { type := .snap, toId := dst, index := x.index, logTerm := x.term
        data := (x.data.drop x.offset).take (stop - x.offset)
        offset := x.offset, done := stop = x.data.length }

/-- The transfer to a follower: the one under way if it is of the present snapshot, else a new one. -/
def outgoing (s : MemStore) (x : Option SnapTransfer) : SnapTransfer :=
  match x with
  | some x =>
    if x.index = s.snapIdx then x else { index := s.snapIdx, term := s.snapTerm, data := s.snap }
  | none => { index := s.snapIdx, term := s.snapTerm, data := s.snap }

def sendSnapshot (cfg : Config) (dst : NodeID) : M σ Unit := do
  let s ← getStore
  let r ← getRaft
  let x := outgoing s (r.snapOut dst)
  modifyRaft fun r => { r with snapOut := update r.snapOut dst (some x) }
  sendChunk cfg dst x

/-- The follower's next batch; the next index moves at once. -/
def nextBatch (cfg : Config) (dst : NodeID) (next last : Nat) : M σ (List Entry) := do
  if next ≤ last then do
    let es ← readEntries next (min (next + cfg.batch) (last + 1))
    let es := fitBatch cfg es
    modifyRaft fun r => { r with next := update r.next dst (next + es.length) }
    pure es
  else
    pure []

def sendAppend (cfg : Config) (dst : NodeID) (readID : Nat) : M σ Unit := do
  let r ← getRaft
  let s ← getStore
  let next := r.next dst
  let first := s.firstIndex
  if next < first then
    if readID = 0 then
      sendSnapshot cfg dst
    else do
      let t ← termAt (first - 1)
      send cfg
        { type := .app, toId := dst, index := first - 1, logTerm := t, commit := r.commit
          readID := readID }
  else do
    let prevTerm ← termAt (next - 1)
    let es ← nextBatch cfg dst next s.lastIndex
    send cfg
      { type := .app, toId := dst, index := next - 1, logTerm := prevTerm, entries := es
        commit := r.commit, readID := readID }

def broadcastAppend (cfg : Config) : M σ Unit :=
  cfg.peers.forM fun p => when (p ≠ cfg.id) (sendAppend cfg p 0)

/-- The highest index a majority holds: `matches[quorum-1]` of the match indexes in descending
order. -/
def majorityIndex (cfg : Config) (r : Raft) : Nat :=
  (((cfg.peers.map r.matchIdx).insertionSort (· ≥ ·))[cfg.quorum - 1]?).getD 0

def maybeCommit (cfg : Config) : M σ Bool := do
  let r ← getRaft
  let n := majorityIndex cfg r
  if n ≤ r.commit then
    pure false
  else do
    let t ← termAt n
    if t ≠ r.term then
      pure false
    else do
      setCommit n
      pure true

/-! ## Leading (`appendEntries`, `becomeLeader`, `Propose`). -/

/-- Indexes and the current term for a batch that goes behind `last`. -/
def stamp (last term : Nat) : List Entry → List Entry
  | [] => []
  | e :: es => { e with index := last + 1, term := term } :: stamp (last + 1) term es

/-- Caught-up followers get the batch before the local write. -/
def shipEarly (cfg : Config) (last prevTerm : Nat) (entries : List Entry) :
    List NodeID → List NodeID → M σ (List NodeID)
  | early, [] => pure early
  | early, p :: ps => do
    let r ← getRaft
    if p = cfg.id ∨ r.next p ≠ last + 1 ∨ (fitBatch cfg entries).length ≠ entries.length then
      shipEarly cfg last prevTerm entries early ps
    else do
      modifyRaft fun r => { r with next := update r.next p (last + 1 + entries.length) }
      send cfg
        { type := .app, toId := p, index := last, logTerm := prevTerm, entries := entries
          commit := r.commit }
      shipEarly cfg last prevTerm entries (p :: early) ps

/-- Assign indexes and the current term, replicate, persist.  Leader only. -/
def appendEntries (cfg : Config) (es : List Entry) : M σ Nat := do
  let r ← getRaft
  let last := (← getStore).lastIndex
  let entries := stamp last r.term es
  let prevTerm ← termAt last
  let early ← shipEarly cfg last prevTerm entries [] cfg.peers
  appendStore entries
  modifyRaft fun r =>
    { r with matchIdx := update r.matchIdx cfg.id (last + entries.length) }
  cfg.peers.forM fun p => when (p ≠ cfg.id ∧ p ∉ early) (sendAppend cfg p 0)
  let _ ← maybeCommit cfg
  pure (last + 1)

def becomeLeader (cfg : Config) : M σ Unit := do
  setRole .leader
  let last := (← getStore).lastIndex
  modifyRaft fun r =>
    { r with
      lead := cfg.id
      elapsed := 0
      next := fun p => if p ∈ cfg.peers then last + 1 else 0
      matchIdx := fun _ => 0
      reads := fun _ => none
      snapOut := fun _ => none }
  let _ ← appendEntries cfg [{ type := .noop }]
  pure ()

/-- `Propose`: one entry per payload; `none` is `ErrNotLeader`. -/
def propose (cfg : Config) (payloads : List Bytes) : M σ (Option Nat) := do
  let r ← getRaft
  if r.state ≠ .leader then
    pure none
  else do
    let first ← appendEntries cfg (payloads.map fun p => { data := p })
    pure (some first)

/-! ## Elections. -/

def becomeFollower (cfg : Config) (term : Nat) (lead : NodeID) : M σ Unit := do
  let r ← getRaft
  when (term > r.term) do
    modifyRaft fun r => { r with term := term, vote := None }
    persistState
  setRole .follower
  modifyRaft fun r =>
    { r with
      lead := lead
      votes := ∅
      next := fun _ => 0
      matchIdx := fun _ => 0
      reads := fun _ => none
      snapOut := fun _ => none }
  when (lead ≠ None ∨ r.state ≠ .follower) (resetTimeout cfg)

def countVotes (cfg : Config) (r : Raft) : Bool :=
  r.votes.entries.countP (fun v => v.2) ≥ cfg.quorum

def becomeCandidate (cfg : Config) : M σ Unit := do
  modifyRaft fun r => { r with term := r.term + 1, vote := cfg.id }
  persistState
  setRole .candidate
  modifyRaft fun r => { r with lead := None, votes := AList.singleton cfg.id true }
  resetTimeout cfg
  let r ← getRaft
  if countVotes cfg r then
    becomeLeader cfg
  else do
    let (last, lastTerm) ← lastIndexAndTerm
    cfg.peers.forM fun p => when (p ≠ cfg.id)
      (send cfg { type := .vote, toId := p, index := last, logTerm := lastTerm })

def tick (cfg : Config) : M σ Unit := do
  modifyRaft fun r => { r with elapsed := r.elapsed + 1 }
  let r ← getRaft
  if r.state = .leader then
    when (r.elapsed ≥ cfg.heartbeatTick) do
      modifyRaft fun r => { r with elapsed := 0 }
      broadcastAppend cfg
  else
    when (r.elapsed ≥ r.timeout) (becomeCandidate cfg)

/-- Answer a message from an earlier term so the sender learns the current one. -/
def rejectStale (cfg : Config) (m : Message) : M σ Unit :=
  match m.type with
  | .vote => send cfg { type := .voteResp, toId := m.fromId, reject := true }
  | .app => send cfg { type := .appResp, toId := m.fromId, reject := true, readID := m.readID }
  | .snap => send cfg { type := .snapResp, toId := m.fromId, reject := true }
  | _ => pure ()

def handleVote (cfg : Config) (m : Message) : M σ Unit := do
  let r ← getRaft
  let (last, lastTerm) ← lastIndexAndTerm
  let canVote := r.vote = m.fromId ∨ (r.vote = None ∧ r.lead = None)
  let upToDate := m.logTerm > lastTerm ∨ (m.logTerm = lastTerm ∧ m.index ≥ last)
  if ¬ canVote ∨ ¬ upToDate then
    send cfg { type := .voteResp, toId := m.fromId, reject := true }
  else do
    modifyRaft fun r => { r with vote := m.fromId }
    persistState
    modifyRaft fun r => { r with elapsed := 0 }
    send cfg { type := .voteResp, toId := m.fromId }

def handleVoteResp (cfg : Config) (m : Message) : M σ Unit := do
  let r ← getRaft
  if r.state ≠ .candidate then
    pure ()
  else do
    modifyRaft fun r => { r with votes := r.votes.insert m.fromId (!m.reject) }
    let r ← getRaft
    if countVotes cfg r then
      becomeLeader cfg
    else
      when (r.votes.entries.countP (fun v => !v.2) ≥ cfg.quorum) (becomeFollower cfg r.term None)

/-! ## Following (`handleAppend`, `handleSnapshot`). -/

/-- Write from the first entry that is missing or of another term on. -/
def appendConflict (last : Nat) : List Entry → M σ Unit
  | [] => pure ()
  | e :: rest => do
    let differs ←
      if e.index > last then
        pure true
      else do
        let t ← termAt e.index
        pure (decide (t ≠ e.term))
    if differs then appendStore (e :: rest) else appendConflict last rest

/-- Walk back from an index over entries of a term, stopping at the compaction boundary. -/
def firstIndexOfTerm (term : Nat) : Nat → M σ Nat
  | 0 => pure 0
  | index + 1 => do
    let s ← getStore
    if index + 1 > s.firstIndex then do
      let t ← termAt index
      if t = term then firstIndexOfTerm term index else pure (index + 1)
    else
      pure (index + 1)

def handleAppend (cfg : Config) (m : Message) : M σ Unit := do
  let r ← getRaft
  when (r.state ≠ .follower) (becomeFollower cfg m.term m.fromId)
  modifyRaft fun r => { r with lead := m.fromId, elapsed := 0 }
  let r ← getRaft
  if m.index < r.commit then
    send cfg { type := .appResp, toId := m.fromId, index := r.commit, readID := m.readID }
  else do
    let last := (← getStore).lastIndex
    if m.index > last then
      send cfg
        { type := .appResp, toId := m.fromId, reject := true, conflictIndex := last + 1
          readID := m.readID }
    else do
      let t ← termAt m.index
      if t ≠ m.logTerm then do
        let ci ← firstIndexOfTerm t m.index
        send cfg
          { type := .appResp, toId := m.fromId, reject := true, conflictTerm := t
            conflictIndex := ci, readID := m.readID }
      else do
        appendConflict last m.entries
        let lastNew := m.index + m.entries.length
        when (m.commit > r.commit) (setCommit (min m.commit lastNew))
        send cfg { type := .appResp, toId := m.fromId, index := lastNew, readID := m.readID }

/-- The chunk is complete: install the snapshot and answer. -/
def installSnapshot (cfg : Config) (from' : NodeID) (x : SnapTransfer) : M σ Unit := do
  modifyRaft fun r => { r with snapIn := none }
  compactStore x.index x.term x.data
  setCommit x.index
  modifyRaft fun r => { r with restored := some x }
  send cfg { type := .snapResp, toId := from', index := x.index, done := true }

/-- Place a chunk into the transfer `inc` being received. -/
def receiveChunk (cfg : Config) (m : Message) (inc : Option SnapTransfer) : M σ Unit :=
  match inc with
  | none =>
    send cfg { type := .snapResp, toId := m.fromId, index := m.index, offset := 0, reject := true }
  | some x =>
    if x.index ≠ m.index ∨ m.offset ≠ x.data.length then
      -- either a duplicate we already have or a chunk we cannot place
      let expect := if x.index = m.index then x.data.length else 0
      send cfg
        { type := .snapResp, toId := m.fromId, index := m.index, offset := expect
          reject := x.index ≠ m.index ∨ m.offset > expect }
    else
      let x' := { x with data := x.data ++ m.data }
      if m.done then
        installSnapshot cfg m.fromId x'
      else do
        modifyRaft fun r => { r with snapIn := some x' }
        send cfg { type := .snapResp, toId := m.fromId, index := m.index, offset := x'.data.length }

def handleSnapshot (cfg : Config) (m : Message) : M σ Unit := do
  let r ← getRaft
  when (r.state ≠ .follower) (becomeFollower cfg m.term m.fromId)
  modifyRaft fun r => { r with lead := m.fromId, elapsed := 0 }
  let r ← getRaft
  if m.index ≤ r.commit then
    send cfg { type := .snapResp, toId := m.fromId, index := r.commit, done := true }
  else if m.offset = 0 then do
    let fresh : SnapTransfer := { index := m.index, term := m.logTerm }
    modifyRaft fun r => { r with snapIn := some fresh }
    receiveChunk cfg m (some fresh)
  else
    receiveChunk cfg m r.snapIn

/-! ## Reads (`ReadIndex`, `ackRead`). -/

def completeRead (id : Nat) : M σ Unit :=
  modifyRaft fun r =>
    match r.reads id with
    | some round =>
      { r with ready := r.ready ++ [⟨id, round.index⟩], reads := update r.reads id none }
    | none => r

def ackRead (cfg : Config) (id : Nat) (from' : NodeID) : M σ Unit := do
  let r ← getRaft
  match r.reads id with
  | none => pure ()
  | some round => do
    let acks := insert from' round.acks
    modifyRaft fun r => { r with reads := update r.reads id (some { round with acks := acks }) }
    when (acks.card ≥ cfg.quorum) (completeRead id)

/-- The two refusals of `ReadIndex`. -/
inductive ReadError where
  | notLeader
  | leaderNotReady
  deriving DecidableEq, Repr

def readIndex (cfg : Config) : M σ (Except ReadError Nat) := do
  let r ← getRaft
  if r.state ≠ .leader then
    pure (.error .notLeader)
  else do
    let t ← termAt r.commit
    if t ≠ r.term then
      pure (.error .leaderNotReady)
    else do
      let id := r.nextReadID + 1
      modifyRaft fun r =>
        { r with
          nextReadID := id
          reads := update r.reads id (some { index := r.commit, acks := {cfg.id} }) }
      if cfg.quorum = 1 then do
        completeRead id
        pure (.ok id)
      else do
        cfg.peers.forM fun p => when (p ≠ cfg.id) (sendAppend cfg p id)
        pure (.ok id)

/-! ## The leader's side of replication (`handleAppendResp`, `handleSnapshotResp`). -/

/-- The last index holding an entry of a term, searched from the end of the log. -/
def lastIndexOfTerm (first term : Nat) : Nat → M σ (Option Nat)
  | 0 => pure none
  | i + 1 =>
    if i + 1 ≥ first then do
      let t ← termAt (i + 1)
      if t = term then
        pure (some (i + 1))
      else if t < term then
        pure none
      else
        lastIndexOfTerm first term i
    else
      pure none

/-- Where to probe next after a rejection, before the clamp to the match index. -/
def backtrack (m : Message) : M σ Nat := do
  if m.conflictTerm > 0 then do
    let s ← getStore
    match ← lastIndexOfTerm s.firstIndex m.conflictTerm s.lastIndex with
    | some last => pure (last + 1)
    | none => pure m.conflictIndex
  else
    pure m.conflictIndex

/-- A follower acknowledged `index`, which may be any `uint64`: behind the last one comes 0. -/
def advanceFollower (from' : NodeID) (index : Nat) : M σ Unit :=
  modifyRaft fun r =>
    { r with
      matchIdx := if index > r.matchIdx from' then update r.matchIdx from' index else r.matchIdx
      next := if succU64 index > r.next from' then update r.next from' (succU64 index) else r.next }

def handleAppendResp (cfg : Config) (m : Message) : M σ Unit := do
  when (m.readID ≠ 0) (ackRead cfg m.readID m.fromId)
  let r ← getRaft
  if (r.snapOut m.fromId).isSome then
    -- a snapshot transfer paces itself
    pure ()
  else if m.reject then do
    let next ← backtrack m
    let next := if next ≤ r.matchIdx m.fromId then succU64 (r.matchIdx m.fromId) else next
    let next := if next < 1 then 1 else next
    modifyRaft fun r => { r with next := update r.next m.fromId next }
    sendAppend cfg m.fromId 0
  else do
    advanceFollower m.fromId m.index
    let moved ← maybeCommit cfg
    if moved then
      broadcastAppend cfg
    else do
      let r ← getRaft
      let s ← getStore
      when (r.next m.fromId ≤ s.lastIndex) (sendAppend cfg m.fromId 0)

def handleSnapshotResp (cfg : Config) (m : Message) : M σ Unit := do
  let r ← getRaft
  if m.done then do
    modifyRaft fun r => { r with snapOut := update r.snapOut m.fromId none }
    advanceFollower m.fromId m.index
    let moved ← maybeCommit cfg
    if moved then broadcastAppend cfg else sendAppend cfg m.fromId 0
  else
    match r.snapOut m.fromId with
    | none => pure ()
    | some x =>
      if x.index ≠ m.index then
        pure ()
      else do
        let x' := { x with offset := if m.reject then 0 else max x.offset m.offset }
        modifyRaft fun r => { r with snapOut := update r.snapOut m.fromId (some x') }
        sendChunk cfg m.fromId x'

/-- The handler of a message of the current term. -/
def dispatch (cfg : Config) (m : Message) : M σ Unit := do
  match m.type with
  | .vote => handleVote cfg m
  | .voteResp => handleVoteResp cfg m
  | .app => handleAppend cfg m
  | .appResp => when ((← getRaft).state = .leader) (handleAppendResp cfg m)
  | .snap => handleSnapshot cfg m
  | .snapResp => when ((← getRaft).state = .leader) (handleSnapshotResp cfg m)

/-- `Step` consumes one message. -/
def step (cfg : Config) (m : Message) : M σ Unit := do
  let r ← getRaft
  if m.term < r.term then
    rejectStale cfg m
  else do
    when (m.term > r.term)
      (becomeFollower cfg m.term (if m.type = .app ∨ m.type = .snap then m.fromId else None))
    dispatch cfg m

end Keystone.Raft
