/-
# Keystone.Raft.Types — entries, messages and the log store (`raft/types.go`, `raft/logstore.go`,
`raft/memstore.go`).

`MemStore` is the `LogStore` as its two implementations behave (the in-memory one line by line): the
durable term and vote, the live entries, and the snapshot point in front of them.  Indexes and terms
are `Nat`: the code's `uint64` counters only ever grow by one.  A `LogStore` method that can fail
returns an `Except`; the caller turns a failure into a panic, as the code does.
-/
import Mathlib.Algebra.Ring.Nat
import Mathlib.Tactic.Common

namespace Keystone.Raft

/-- Entry payloads and snapshots are opaque bytes. -/
abbrev Bytes := List UInt8

/-- `NodeID` identifies a member of a Raft group. -/
abbrev NodeID := Nat

/-- Zero is never a valid id; it marks the absence of a node. -/
def None : NodeID := 0

/-- The `uint64` behind `k`. -/
def succU64 (k : Nat) : Nat := (k + 1) % 2 ^ 64

theorem succU64_le (k : Nat) : succU64 k ≤ k + 1 := Nat.mod_le _ _

inductive EntryType where
  | normal
  | noop
  deriving DecidableEq, Repr

structure Entry where
  index : Nat := 0
  term : Nat := 0
  type : EntryType := .normal
  data : Bytes := []
  deriving DecidableEq, Repr

inductive MsgType where
  | vote
  | voteResp
  | app
  | appResp
  | snap
  | snapResp
  deriving DecidableEq, Repr

/-- The single wire type; which fields mean something depends on `type`. -/
structure Message where
  type : MsgType
  fromId : NodeID := None
  toId : NodeID := None
  term : Nat := 0
  index : Nat := 0
  logTerm : Nat := 0
  entries : List Entry := []
  commit : Nat := 0
  reject : Bool := false
  conflictTerm : Nat := 0
  conflictIndex : Nat := 0
  readID : Nat := 0
  data : Bytes := []
  offset : Nat := 0
  done : Bool := false
  deriving DecidableEq, Repr

/-! ## The log store. -/

/-- Why a log store call was refused. -/
inductive StoreError where
  | compacted
  | outside
  | beyondLast
  deriving DecidableEq, Repr

/-- `entries[k]` has index `snapIdx + 1 + k`. -/
structure MemStore where
  term : Nat := 0
  vote : NodeID := None
  entries : List Entry := []
  snapIdx : Nat := 0
  snapTerm : Nat := 0
  snap : Bytes := []
  deriving DecidableEq, Repr

namespace MemStore

def lastIndex (s : MemStore) : Nat := s.snapIdx + s.entries.length

def firstIndex (s : MemStore) : Nat := s.snapIdx + 1

/-- `Append`: existing entries at or after the first new index are discarded. -/
def append (s : MemStore) (es : List Entry) : Except StoreError MemStore :=
  match es with
  | [] => .ok s
  | e :: _ =>
    if e.index > s.lastIndex + 1 ∨ e.index ≤ s.snapIdx then
      .error .outside
    else
      .ok { s with entries := s.entries.take (e.index - s.snapIdx - 1) ++ es }

/-- `Entries(lo, hi)` returns the entries in `[lo, hi)`. -/
def slice (s : MemStore) (lo hi : Nat) : Except StoreError (List Entry) :=
  if lo ≤ s.snapIdx then
    .error .compacted
  else if hi > s.lastIndex + 1 then
    .error .beyondLast
  else
    .ok ((s.entries.drop (lo - s.snapIdx - 1)).take (hi - lo))

/-- `Term(index)`; the snapshot point still answers the snapshot's term. -/
def termOf (s : MemStore) (index : Nat) : Except StoreError Nat :=
  if index = s.snapIdx then
    .ok s.snapTerm
  else if index < s.snapIdx then
    .error .compacted
  else
    match s.entries[index - s.snapIdx - 1]? with
    | some e => .ok e.term
    | none => .error .beyondLast

def setState (s : MemStore) (term : Nat) (vote : NodeID) : MemStore :=
  { s with term := term, vote := vote }

/-- `Compact`: entries up to `index` go, whatever lies beyond it stays. -/
def compact (s : MemStore) (index term : Nat) (snap : Bytes) : MemStore :=
  if index ≤ s.snapIdx then
    s
  else
    { s with
      entries := if index ≤ s.lastIndex then s.entries.drop (index - s.snapIdx) else []
      snapIdx := index
      snapTerm := term
      snap := snap }

/-- The live entry at an index, if the store holds it. -/
def entryAt (s : MemStore) (index : Nat) : Option Entry :=
  if index ≤ s.snapIdx then none else s.entries[index - s.snapIdx - 1]?

/-- One record of an interrupted `Append`: what a restart finds when the write stopped after it
(`sim/logstore.go`, `apply`). -/
def appendOne (s : MemStore) (e : Entry) : MemStore :=
  if e.index ≤ s.snapIdx then
    s
  else
    { s with entries := s.entries.take (e.index - s.snapIdx - 1) ++ [e] }

end MemStore

end Keystone.Raft
