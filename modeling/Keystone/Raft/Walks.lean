/-
# Keystone.Raft.Walks — one walk through the code for every frame.

A frame lemma about a function follows the function's text: the frame holds of the function because it
holds of everything the function does.  Here every function of `Keystone.Raft.Core` and of the driver is
walked through once, for an arbitrary `Frame`.  The classes say what a frame has to hold of:

* `Clerical` — the books of the node, its term and vote on disk, votes and answers;
* `Leads`, `Tallies`, `Relays`, `Grows` — the messages, the commit rule, the snapshots and the log of a
  leader;
* `Turns`, `Bows` — a change of role, and stepping down;
* `Accepts`, `Installs` — what an append request and a snapshot may do;
* `Moves`, `Settles` — the containers of the driver, and its state machine.

A frame proves its classes in the module that defines it, and has its lemmas about the functions from here.
-/
import Keystone.Raft.Node

namespace Keystone.Raft

open Keystone.Lib
open Function (update)

variable {σ α : Type} {cfg : Config} {m : Message} {F F' : Frame Panic (Sys σ)}

/-! ## The books. -/

/-- What a node answers for towards the other nodes and its driver. -/
structure Office where
  state : State
  term : ℕ
  commit : ℕ
  restored : Option SnapTransfer
  snapOut : NodeID → Option SnapTransfer
  snapIn : Option SnapTransfer

def officeOf (r : Raft) : Office := ⟨r.state, r.term, r.commit, r.restored, r.snapOut, r.snapIn⟩

/-- An answer that asks for more of a snapshot. -/
def Message.Asks (m : Message) : Prop := m.type = .snapResp ∧ m.done = false ∧ m.reject = false

instance (m : Message) : Decidable m.Asks := inferInstanceAs (Decidable (_ ∧ _ ∧ _))

/-- A message that carries neither entries nor a chunk, and asks for none. -/
def Message.Plain (m : Message) : Prop :=
  match m.type with
  | .vote | .voteResp | .appResp => True
  | .snapResp => m.done = true ∨ m.reject = true
  | .app | .snap => False

theorem Message.Plain.type_ne (h : m.Plain) : m.type ≠ .app ∧ m.type ≠ .snap := by
  unfold Message.Plain at h
  constructor
  · intro ht
    rw [ht] at h
    exact h
  · intro ht
    rw [ht] at h
    exact h

theorem Message.Plain.not_asks (h : m.Plain) : ¬ m.Asks := by
  rintro ⟨ht, hd, hr⟩
  unfold Message.Plain at h
  rw [ht, hd, hr] at h
  exact h.elim Bool.false_ne_true Bool.false_ne_true

/-- The frame allows the work of a clerk: notes outside the office, a stop, the term and vote on disk, and
plain messages. -/
class Clerical (F : Frame Panic (Sys σ)) : Prop where
  note : ∀ {f : Raft → Raft}, (∀ r, officeOf (f r) = officeOf r) → F.Holds (modifyRaft f : M σ Unit)
  stop : ∀ {α : Type} {e : Panic}, e ≠ .slice → F.Holds (throw e : M σ α)
  persist : F.Holds (persistState : M σ Unit)
  send : ∀ {cfg : Config} {m : Message}, m.Plain → F.Holds (send cfg m : M σ Unit)

theorem Clerical.mono [Clerical F] (h : F.Le F') : Clerical F' :=
  ⟨fun hf => h (note hf), fun he => h (stop he), h persist, fun hm => h (send hm)⟩

theorem holds_getRaft : F.Holds (getRaft : M σ Raft) := .bind F.holds_get fun _ => .pure

theorem holds_getStore : F.Holds (getStore : M σ MemStore) := .bind F.holds_get fun _ => .pure

theorem holds_getNode : F.Holds (getNode : M σ (Node σ)) := .bind F.holds_get fun _ => .pure

section Clerical

variable [Clerical F]

theorem holds_refuse {e : StoreError} : F.Holds (throw (.store e) : M σ α) :=
  Clerical.stop fun h => Panic.noConfusion h

theorem holds_resetTimeout : F.Holds (resetTimeout cfg : M σ Unit) := Clerical.note fun _ => rfl

theorem holds_completeRead {id : ℕ} : F.Holds (completeRead id : M σ Unit) := by
  refine Clerical.note fun r => ?_
  cases r.reads id <;> rfl

theorem holds_advanceFollower {src : NodeID} {k : ℕ} : F.Holds (advanceFollower src k : M σ Unit) :=
  Clerical.note fun _ => rfl

theorem holds_termAt {k : ℕ} : F.Holds (termAt k : M σ ℕ) := by
  refine .bind holds_getStore fun s => ?_
  cases s.termOf k with
  | ok t => exact .pure
  | error e => exact holds_refuse

theorem holds_lastIndexAndTerm : F.Holds (lastIndexAndTerm : M σ (ℕ × ℕ)) :=
  .bind holds_getStore fun _ => .bind holds_termAt fun _ => .pure

theorem holds_readEntries {lo hi : ℕ} : F.Holds (readEntries lo hi : M σ (List Entry)) := by
  refine .bind holds_getStore fun s => ?_
  cases s.slice lo hi with
  | ok es => exact .pure
  | error e => exact holds_refuse

theorem holds_appendStore (h : ∀ {e}, F.Holds (appendRecord e : M σ Unit)) {es : List Entry} :
    F.Holds (appendStore es : M σ Unit) := by
  refine .bind holds_getStore fun s => ?_
  cases s.append es with
  | ok _ => exact .forM fun _ _ => h
  | error e => exact holds_refuse

theorem holds_firstIndexOfTerm {t : ℕ} (k : ℕ) : F.Holds (firstIndexOfTerm t k : M σ ℕ) := by
  induction k with
  | zero => exact .pure
  | succ k ih =>
    refine .bind holds_getStore fun s => .ite (.bind holds_termAt fun t' => ?_) .pure
    exact .ite ih .pure

theorem holds_lastIndexOfTerm {first t : ℕ} (k : ℕ) :
    F.Holds (lastIndexOfTerm first t k : M σ (Option ℕ)) := by
  induction k with
  | zero => exact .pure
  | succ k ih => exact .ite (.bind holds_termAt fun _ => .ite .pure (.ite .pure ih)) .pure

theorem holds_backtrack : F.Holds (backtrack m : M σ ℕ) := by
  refine .ite (.bind holds_getStore fun s => .bind (holds_lastIndexOfTerm _) fun k => ?_) .pure
  cases k <;> exact .pure

theorem holds_nextBatch {dst : NodeID} {next last : ℕ} :
    F.Holds (nextBatch cfg dst next last : M σ (List Entry)) :=
  .ite (.bind holds_readEntries fun _ => .bind (Clerical.note fun _ => rfl) fun _ => .pure) .pure

theorem holds_ackRead {id : ℕ} {src : NodeID} : F.Holds (ackRead cfg id src : M σ Unit) := by
  refine .bind holds_getRaft fun r => ?_
  cases r.reads id with
  | none => exact .pure
  | some round => exact .bind (Clerical.note fun _ => rfl) fun _ => .when holds_completeRead

theorem holds_rejectStale : F.Holds (rejectStale cfg m : M σ Unit) := by
  unfold rejectStale
  split
  · exact Clerical.send trivial
  · exact Clerical.send trivial
  · exact Clerical.send (Or.inr rfl)
  · exact .pure

theorem holds_handleVote : F.Holds (handleVote cfg m : M σ Unit) := by
  refine .bind holds_getRaft fun r => .bind holds_lastIndexAndTerm fun last => ?_
  refine .ite (Clerical.send trivial) (.bind (Clerical.note fun _ => rfl) fun _ => ?_)
  refine .bind Clerical.persist fun _ => .bind (Clerical.note fun _ => rfl) fun _ => ?_
  exact Clerical.send trivial

theorem holds_askVotes : F.Holds (do
    let (last, lastTerm) ← lastIndexAndTerm
    cfg.peers.forM fun p => when (p ≠ cfg.id)
      (send cfg { type := .vote, toId := p, index := last, logTerm := lastTerm }) : M σ Unit) :=
  .bind holds_lastIndexAndTerm fun _ => .forM fun _ _ => .when (Clerical.send trivial)

end Clerical

/-! ## Leading. -/

/-- The frame allows a leader to send entries. -/
class Leads (cfg : Config) (F : Frame Panic (Sys σ)) : Prop where
  app : ∀ {dst : NodeID} {id : ℕ}, F.Holds (sendAppend cfg dst id : M σ Unit)

/-- The frame allows a leader to move its commit index. -/
class Tallies (cfg : Config) (F : Frame Panic (Sys σ)) : Prop where
  tally : F.Holds (maybeCommit cfg : M σ Bool)

/-- The frame allows a leader to send snapshots, chunk by chunk. -/
class Relays (cfg : Config) (F : Frame Panic (Sys σ)) : Prop where
  out : ∀ {f : Raft → Raft}, (∀ r, f r = { r with snapOut := (f r).snapOut }) →
    F.Holds (modifyRaft f : M σ Unit)
  chunk : ∀ {dst : NodeID} {x : SnapTransfer}, F.Holds (sendChunk cfg dst x : M σ Unit)

theorem Relays.mono [Relays cfg F] (h : F.Le F') : Relays cfg F' :=
  ⟨fun hf => h (out cfg hf), h chunk⟩

/-- The frame allows a leader to extend its log. -/
class Grows (cfg : Config) (F : Frame Panic (Sys σ)) : Prop where
  grow : ∀ {es : List Entry}, F.Holds (appendEntries cfg es : M σ ℕ)

theorem holds_sendSnapshot [Relays cfg F] {dst : NodeID} :
    F.Holds (sendSnapshot cfg dst : M σ Unit) :=
  .bind holds_getStore fun _ => .bind holds_getRaft fun _ =>
    .bind (Relays.out cfg fun _ => rfl) fun _ => Relays.chunk

/-- What `sendAppend` does, for a frame that holds of an append message. -/
theorem holds_sendAppend [Clerical F] (hsnap : ∀ {dst}, F.Holds (sendSnapshot cfg dst : M σ Unit))
    (happ : ∀ {m : Message}, m.type = .app → F.Holds (send cfg m : M σ Unit)) {dst : NodeID} {id : ℕ} :
    F.Holds (sendAppend cfg dst id : M σ Unit) := by
  refine .bind holds_getRaft fun r => .bind holds_getStore fun s => .ite (.ite hsnap ?_) ?_
  · exact .bind holds_termAt fun _ => happ rfl
  · exact .bind holds_termAt fun _ => .bind holds_nextBatch fun _ => happ rfl

theorem holds_shipEarly [Clerical F]
    (happ : ∀ {m : Message}, m.type = .app → F.Holds (send cfg m : M σ Unit)) {last prevTerm : ℕ}
    {entries : List Entry} (early ps : List NodeID) :
    F.Holds (shipEarly cfg last prevTerm entries early ps : M σ (List NodeID)) := by
  induction ps generalizing early with
  | nil => exact .pure
  | cons p ps ih =>
    refine .bind holds_getRaft fun r => .ite (ih early) ?_
    exact .bind (Clerical.note fun _ => rfl) fun _ => .bind (happ rfl) fun _ => ih (p :: early)

/-- The commit index moves by one `setCommit` at most. -/
theorem holds_maybeCommit [Clerical F] (h : ∀ {k}, F.Holds (setCommit k : M σ Unit)) :
    F.Holds (maybeCommit cfg : M σ Bool) := by
  refine .bind holds_getRaft fun r => .ite .pure (.bind holds_termAt fun t => .ite .pure ?_)
  exact .bind h fun _ => .pure

theorem holds_broadcastAppend [Leads cfg F] : F.Holds (broadcastAppend cfg : M σ Unit) :=
  .forM fun _ _ => .when Leads.app

theorem holds_propose [Grows cfg F] {payloads : List Bytes} :
    F.Holds (propose cfg payloads : M σ (Option ℕ)) :=
  .bind holds_getRaft fun _ => .ite .pure (.bind Grows.grow fun _ => .pure)

section Leads

variable [Clerical F] [Leads cfg F]

theorem holds_appendEntries [Tallies cfg F] (hwrite : ∀ {es}, F.Holds (appendStore es : M σ Unit))
    (happ : ∀ {m : Message}, m.type = .app → F.Holds (send cfg m : M σ Unit)) {es : List Entry} :
    F.Holds (appendEntries cfg es : M σ ℕ) := by
  refine .bind holds_getRaft fun r => .bind holds_getStore fun s => .bind holds_termAt fun t => ?_
  refine .bind (holds_shipEarly happ _ _) fun early => .bind hwrite fun _ => ?_
  refine .bind (Clerical.note fun _ => rfl) fun _ => .bind (.forM fun p _ => .when Leads.app) fun _ => ?_
  exact .bind Tallies.tally fun _ => .pure

theorem holds_readIndex : F.Holds (readIndex cfg : M σ (Except ReadError ℕ)) := by
  refine .bind holds_getRaft fun r => .ite .pure (.bind holds_termAt fun t => .ite .pure ?_)
  refine .bind (Clerical.note fun _ => rfl) fun _ => .ite ?_ ?_
  · exact .bind holds_completeRead fun _ => .pure
  · exact .bind (.forM fun p _ => .when Leads.app) fun _ => .pure

/-- An append answer is noted, the commit index moves, and more entries are sent. -/
theorem holds_handleAppendResp [Tallies cfg F] : F.Holds (handleAppendResp cfg m : M σ Unit) := by
  refine .bind (.when holds_ackRead) fun _ => .bind holds_getRaft fun r => .ite .pure (.ite ?_ ?_)
  · exact .bind holds_backtrack fun _ => .bind (Clerical.note fun _ => rfl) fun _ => Leads.app
  · refine .bind holds_advanceFollower fun _ => .bind Tallies.tally fun moved => ?_
    refine .ite holds_broadcastAppend (.bind holds_getRaft fun r => ?_)
    exact .bind holds_getStore fun s => .when Leads.app

theorem holds_handleSnapshotResp [Tallies cfg F] [Relays cfg F] :
    F.Holds (handleSnapshotResp cfg m : M σ Unit) := by
  refine .bind holds_getRaft fun r => .ite (.bind (Relays.out cfg fun _ => rfl) fun _ => ?_) ?_
  · refine .bind holds_advanceFollower fun _ => .bind Tallies.tally fun moved => ?_
    exact .ite holds_broadcastAppend Leads.app
  · cases r.snapOut m.fromId with
    | none => exact .pure
    | some x => exact .ite .pure (.bind (Relays.out cfg fun _ => rfl) fun _ => Relays.chunk)

end Leads

/-! ## Roles. -/

/-- What a change of role leaves alone. -/
def postOf (r : Raft) : ℕ × Option SnapTransfer × Option SnapTransfer := (r.commit, r.restored, r.snapIn)

/-- The frame allows a change of term and role. -/
class Turns (F : Frame Panic (Sys σ)) : Prop where
  turn : ∀ {f : Raft → Raft}, (∀ r, postOf (f r) = postOf r) → F.Holds (modifyRaft f : M σ Unit)
  become : ∀ {st : State}, F.Holds (emit (.become st) : M σ Unit)

/-- The frame allows a node to step down. -/
class Bows (cfg : Config) (F : Frame Panic (Sys σ)) : Prop where
  down : ∀ {t : ℕ} {lead : NodeID}, F.Holds (becomeFollower cfg t lead : M σ Unit)

theorem Bows.mono [Bows cfg F] (h : F.Le F') : Bows cfg F' := ⟨h down⟩

section Turns

variable [Clerical F] [Turns F]

omit [Clerical F] in
theorem holds_setRole {st : State} : F.Holds (setRole st : M σ Unit) :=
  .bind (Turns.turn fun _ => rfl) fun _ => Turns.become

instance : Bows cfg F where
  down := by
    refine .bind holds_getRaft fun r => ?_
    refine .bind (.when (.bind (Turns.turn fun _ => rfl) fun _ => Clerical.persist)) fun _ => ?_
    exact .bind holds_setRole fun _ => .bind (Turns.turn fun _ => rfl) fun _ => .when holds_resetTimeout

variable [Grows cfg F]

omit [Clerical F] in
theorem holds_becomeLeader : F.Holds (becomeLeader cfg : M σ Unit) :=
  .bind holds_setRole fun _ => .bind holds_getStore fun _ => .bind (Turns.turn fun _ => rfl) fun _ =>
    .bind Grows.grow fun _ => .pure

theorem holds_becomeCandidate : F.Holds (becomeCandidate cfg : M σ Unit) := by
  refine .bind (Turns.turn fun _ => rfl) fun _ => .bind Clerical.persist fun _ => ?_
  refine .bind holds_setRole fun _ => .bind (Clerical.note fun _ => rfl) fun _ => ?_
  refine .bind holds_resetTimeout fun _ => .bind holds_getRaft fun r => ?_
  exact .ite holds_becomeLeader holds_askVotes

theorem holds_handleVoteResp : F.Holds (handleVoteResp cfg m : M σ Unit) := by
  refine .bind holds_getRaft fun r => .ite .pure (.bind (Clerical.note fun _ => rfl) fun _ => ?_)
  exact .bind holds_getRaft fun r => .ite holds_becomeLeader (.when Bows.down)

/-- A leader sends heartbeats; any other node may stand for election. -/
theorem holds_tick [Leads cfg F] : F.Holds (tick cfg : M σ Unit) := by
  refine .bind (Clerical.note fun _ => rfl) fun _ => .bind holds_getRaft fun r => ?_
  refine .ite (.when (.bind (Clerical.note fun _ => rfl) fun _ => ?_)) (.when holds_becomeCandidate)
  exact holds_broadcastAppend

end Turns

/-! ## Following. -/

/-- The frame allows a follower to write its log and to move its commit index. -/
class Accepts (F : Frame Panic (Sys σ)) : Prop where
  write : ∀ {es : List Entry}, F.Holds (appendStore es : M σ Unit)
  commit : ∀ {k : ℕ}, F.Holds (setCommit k : M σ Unit)

theorem Accepts.mono [Accepts F] (h : F.Le F') : Accepts F' := ⟨h write, h commit⟩

/-- The frame allows a follower to receive a snapshot and to install it. -/
class Installs (F : Frame Panic (Sys σ)) : Prop where
  receive : ∀ {f : Raft → Raft}, (∀ r, f r = { r with snapIn := (f r).snapIn, restored := (f r).restored }) →
    F.Holds (modifyRaft f : M σ Unit)
  compact : ∀ {k t : ℕ} {d : Bytes}, F.Holds (compactStore k t d : M σ Unit)
  answer : ∀ {cfg : Config} {m : Message}, m.type = .snapResp → F.Holds (send cfg m : M σ Unit)

section Follows

variable [Clerical F] [Accepts F]

/-- The entries are skipped up to the first conflict and written from there. -/
theorem holds_appendConflict {last : ℕ} (es : List Entry) :
    F.Holds (appendConflict last es : M σ Unit) := by
  induction es with
  | nil => exact .pure
  | cons e rest ih =>
    have hwrite : ∀ differs : Bool, F.Holds
        (if differs then appendStore (e :: rest) else appendConflict last rest : M σ Unit) :=
      fun differs => .ite Accepts.write ih
    simp only [appendConflict]
    refine .ite (.bind .pure hwrite) ?_
    exact .bind holds_termAt fun t => .bind .pure hwrite

variable [Bows cfg F]

/-- An append request is refused, or written and answered. -/
theorem holds_handleAppend : F.Holds (handleAppend cfg m : M σ Unit) := by
  refine .bind holds_getRaft fun r => .bind (.when Bows.down) fun _ => ?_
  refine .bind (Clerical.note fun _ => rfl) fun _ => .bind holds_getRaft fun r => ?_
  refine .ite (Clerical.send trivial) (.bind holds_getStore fun s => .ite (Clerical.send trivial) ?_)
  refine .bind holds_termAt fun t => .ite ?_ ?_
  · exact .bind (holds_firstIndexOfTerm _) fun _ => Clerical.send trivial
  · exact .bind (holds_appendConflict _) fun _ => .bind (.when Accepts.commit) fun _ =>
      Clerical.send trivial

variable [Installs F]

omit [Clerical F] [Bows cfg F] in
theorem holds_receiveChunk {inc : Option SnapTransfer} : F.Holds (receiveChunk cfg m inc : M σ Unit) := by
  cases inc with
  | none => exact Installs.answer rfl
  | some x =>
    refine .ite (Installs.answer rfl) (.ite ?_ ?_)
    · refine .bind (Installs.receive fun _ => rfl) fun _ => .bind Installs.compact fun _ => ?_
      exact .bind Accepts.commit fun _ => .bind (Installs.receive fun _ => rfl) fun _ => Installs.answer rfl
    · exact .bind (Installs.receive fun _ => rfl) fun _ => Installs.answer rfl

/-- A chunk is answered, placed, or completes the snapshot. -/
theorem holds_handleSnapshot : F.Holds (handleSnapshot cfg m : M σ Unit) := by
  refine .bind holds_getRaft fun r => .bind (.when Bows.down) fun _ => ?_
  refine .bind (Clerical.note fun _ => rfl) fun _ => .bind holds_getRaft fun r => ?_
  refine .ite (Installs.answer rfl) (.ite ?_ holds_receiveChunk)
  exact .bind (Installs.receive fun _ => rfl) fun _ => holds_receiveChunk

/-- The handlers, one a type of message. -/
theorem holds_step [Leads cfg F] [Tallies cfg F] [Relays cfg F]
    (hvote : F.Holds (handleVoteResp cfg m : M σ Unit)) : F.Holds (step cfg m : M σ Unit) := by
  refine .bind holds_getRaft fun r => .ite holds_rejectStale (.bind (.when Bows.down) fun _ => ?_)
  unfold dispatch
  cases m.type with
  | vote => exact holds_handleVote
  | voteResp => exact hvote
  | app => exact holds_handleAppend
  | appResp => exact .bind holds_getRaft fun r => .when holds_handleAppendResp
  | snap => exact holds_handleSnapshot
  | snapResp => exact .bind holds_getRaft fun r => .when holds_handleSnapshotResp

end Follows

/-! ## The driver. -/

/-- The frame allows the driver to move handles about and to fail them. -/
class Moves (F : Frame Panic (Sys σ)) : Prop where
  move : ∀ {f : Node σ → Node σ}, (∀ n, (f n).r = n.r ∧ (f n).sm = n.sm ∧ (f n).applied = n.applied) →
    F.Holds (modifyNode f : M σ Unit)
  fail : ∀ {p : Proposal}, F.Holds (finishProposal p [] (some .notLeader) : M σ Unit)
  read : ∀ {rd : Read} {err : Option Err}, F.Holds (finishRead rd err : M σ Unit)

section Moves

variable [Moves F]

/-- A node that does not lead fails what it cannot settle. -/
theorem holds_failAll : F.Holds (failAll : M σ Unit) := by
  refine .bind holds_getNode fun n => .bind (.forM fun _ _ => Moves.fail) fun _ => ?_
  refine .bind (Moves.move fun _ => ⟨rfl, rfl, rfl⟩) fun _ => ?_
  refine .bind (.forM fun _ _ => .bind (Moves.move fun _ => ⟨rfl, rfl, rfl⟩) fun _ => Moves.fail) fun _ => ?_
  refine .bind (.forM fun _ _ => Moves.read) fun _ => ?_
  refine .bind (Moves.move fun _ => ⟨rfl, rfl, rfl⟩) fun _ => .forM fun _ _ => ?_
  exact .bind (Moves.move fun _ => ⟨rfl, rfl, rfl⟩) fun _ => .forM fun _ _ => Moves.read

/-- A batch of the queue is failed or proposed. -/
theorem holds_flushBatch (h : ∀ {ps}, F.Holds (propose cfg ps : M σ (Option ℕ))) :
    F.Holds (flushBatch cfg : M σ Unit) := by
  refine .bind holds_getNode fun n => .bind (Moves.move fun _ => ⟨rfl, rfl, rfl⟩) fun _ => ?_
  refine .ite (.forM fun _ _ => Moves.fail) (.bind h fun first => ?_)
  cases first with
  | none => exact .forM fun _ _ => Moves.fail
  | some first => exact .bind holds_getRaft fun _ => Moves.move fun _ => ⟨rfl, rfl, rfl⟩

theorem holds_flushProposals (h : ∀ {ps}, F.Holds (propose cfg ps : M σ (Option ℕ))) (fuel : ℕ) :
    F.Holds (flushProposals cfg fuel : M σ Unit) := by
  induction fuel with
  | zero => exact .pure
  | succ fuel ih =>
    exact .bind holds_getNode fun n => .when (.bind (holds_flushBatch h) fun _ => ih)

/-- The queued reads wait for a round, or fail without one. -/
theorem holds_startReads (h : F.Holds (readIndex cfg : M σ (Except ReadError ℕ))) :
    F.Holds (startReads cfg : M σ Unit) := by
  refine .bind holds_getNode fun n => .ite .pure (.bind h fun res => ?_)
  match res with
  | .error .leaderNotReady => exact .pure
  | .error .notLeader =>
    exact .bind (Moves.move fun _ => ⟨rfl, rfl, rfl⟩) fun _ => .forM fun _ _ => Moves.read
  | .ok id => exact Moves.move fun _ => ⟨rfl, rfl, rfl⟩

theorem holds_collectReady [Clerical F] : F.Holds (collectReady : M σ Unit) :=
  .bind holds_getRaft fun _ => .bind (Clerical.note fun _ => rfl) fun _ =>
    .forM fun _ _ => Moves.move fun _ => ⟨rfl, rfl, rfl⟩

theorem holds_finishWaiting : F.Holds (finishWaiting : M σ Unit) :=
  .bind holds_getNode fun _ => .bind (.forM fun _ _ => .when Moves.read) fun _ =>
    Moves.move fun _ => ⟨rfl, rfl, rfl⟩

end Moves

theorem holds_maybeSnapshot [Clerical F] {sm : StateMachine σ}
    (h : ∀ {k t d}, F.Holds (compactStore k t d : M σ Unit)) : F.Holds (maybeSnapshot cfg sm : M σ Unit) := by
  refine .bind holds_getNode fun n => .bind holds_getStore fun s => .ite .pure ?_
  cases sm.snapshot n.sm with
  | none => exact Clerical.stop fun h => Panic.noConfusion h
  | some data => exact .bind holds_termAt fun _ => h

/-- The frame allows the driver to restore and to apply, and to settle the proposals it applies. -/
class Settles (F : Frame Panic (Sys σ)) : Prop where
  serve : ∀ {f : Node σ → Node σ}, (∀ n, f n = { n with sm := (f n).sm, applied := (f n).applied }) →
    F.Holds (modifyNode f : M σ Unit)
  taken : F.Holds (modifyRaft fun r => { r with restored := none } : M σ Unit)
  restored : ∀ {k : ℕ}, F.Holds (emit (.restore k) : M σ Unit)
  applied : ∀ {e : Entry} {result : Bytes}, F.Holds (emit (.apply e result) : M σ Unit)
  settle : ∀ {e : Entry} {result : Bytes}, F.Holds (settleProposal e result : M σ Unit)

section Settles

variable {sm : StateMachine σ} [Clerical F] [Settles F]

theorem holds_loadRestored : F.Holds (loadRestored sm : M σ Unit) := by
  refine .bind holds_getNode fun n => ?_
  cases n.r.restored with
  | none => exact .pure
  | some x =>
    refine .bind Settles.taken fun _ => .when ?_
    cases sm.restore n.sm x.data with
    | none => exact Clerical.stop fun h => Panic.noConfusion h
    | some st => exact .bind (Settles.serve fun _ => rfl) fun _ => Settles.restored

omit [Clerical F] in
/-- Whatever its type, an entry moves the applied index, is shown and settled. -/
theorem holds_applyEntry {e : Entry} : F.Holds (applyEntry sm e : M σ Unit) := by
  refine .bind holds_getNode fun n => .ite ?_ ?_
  · exact .bind (Settles.serve fun _ => rfl) fun _ => .bind Settles.applied fun _ => Settles.settle
  · exact .bind (Settles.serve fun _ => rfl) fun _ => .bind Settles.applied fun _ => Settles.settle

theorem holds_applyCommitted (fuel : ℕ) : F.Holds (applyCommitted sm fuel : M σ Unit) := by
  induction fuel with
  | zero => exact .pure
  | succ fuel ih =>
    refine .bind holds_getNode fun n => .when (.bind holds_readEntries fun es => ?_)
    exact .bind (.forM fun _ _ => holds_applyEntry) fun _ => ih

end Settles

end Keystone.Raft
