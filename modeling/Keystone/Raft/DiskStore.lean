/-
# Keystone.Raft.DiskStore — the durable log store (`raft/diskstore.go`).

A `LogStore` whose records live in WAL segments and whose snapshot lives in a file named by its index.
A call changes the store in memory and performs a list of disk actions; a crash leaves the disk after
any of them, or inside one (`Keystone.Lib.Crash`).  `openDiskStore` rebuilds the store from what is
there, and every way it can refuse is an error of the model, the slice expression that panics included.

`perform` is one call of the interface, `StoreOp` adds the crash inside a call and the reopening after it,
and `diskMachine` is the machine the runs are made of.  The code's map `segMax` is a function here, and
the minimum its loop looks for is found by going through the segment numbers in order.
-/
import Keystone.Lib.Transition
import Keystone.Raft.Types
import Keystone.Storage.Wal

namespace Keystone.Raft

open Keystone.Lib
open Keystone.Storage (Segment Wal WalAction OpenError openWAL deleteBefore)
open Function (update)

/-! ## Record payloads. -/

inductive Rec where
  | entry (e : Entry)
  | state (term : Nat) (vote : NodeID)
  | snapshot (index term : Nat)
  deriving DecidableEq, Repr

def EntryType.toByte : EntryType → UInt8
  | .normal => 0
  | .noop => 1

def EntryType.ofByte : UInt8 → Option EntryType
  | 0 => some .normal
  | 1 => some .noop
  | _ => none

def Rec.encode : Rec → Bytes
  | .entry e =>
    0x01 :: (LittleEndian.encode 8 e.index ++ LittleEndian.encode 8 e.term ++ e.type.toByte :: e.data)
  | .state term vote => 0x02 :: (LittleEndian.encode 8 term ++ LittleEndian.encode 8 vote)
  | .snapshot index term => 0x03 :: (LittleEndian.encode 8 index ++ LittleEndian.encode 8 term)

/-- Why `replay` stops.  `sliceBounds` is the panic of `s.entries[:e.Index-s.base-1]` at an index at or
below `base`; `entryType` marks a type byte no writer produces. -/
inductive ReplayError where
  | empty
  | short (record : UInt8)
  | unknown (record : UInt8)
  | entryType (byte : UInt8)
  | follows (index last : Nat)
  | belowStart (snapshot first : Nat)
  | sliceBounds
  deriving DecidableEq, Repr

def u64 (p : Bytes) (off : Nat) : Nat := LittleEndian.decode ((p.drop off).take 8)

def Rec.decodeEntry (p : Bytes) : Except ReplayError Rec :=
  if p.length < 18 then
    .error (.short 0x01)
  else
    match (p.drop 17).head?.bind EntryType.ofByte with
    | none => .error (.entryType ((p.drop 17).headD 0))
    | some type => .ok (.entry { index := u64 p 1, term := u64 p 9, type := type, data := p.drop 18 })

def Rec.decodeState (p : Bytes) : Except ReplayError Rec :=
  if p.length < 17 then .error (.short 0x02) else .ok (.state (u64 p 1) (u64 p 9))

def Rec.decodeSnapshot (p : Bytes) : Except ReplayError Rec :=
  if p.length < 17 then .error (.short 0x03) else .ok (.snapshot (u64 p 1) (u64 p 9))

def Rec.decode (p : Bytes) : Except ReplayError Rec :=
  match p.head? with
  | none => .error .empty
  | some 0x01 => Rec.decodeEntry p
  | some 0x02 => Rec.decodeState p
  | some 0x03 => Rec.decodeSnapshot p
  | some b => .error (.unknown b)

/-! ## The store. -/

/-- `entries[k]` has index `base + 1 + k`; `base` equals `snapIdx` except during a replay. -/
structure DiskStore where
  term : Nat := 0
  vote : NodeID := None
  base : Nat := 0
  entries : List Entry := []
  snapIdx : Nat := 0
  snapTerm : Nat := 0
  segMax : Nat → Option Nat := fun _ => none
  wal : Wal := ⟨0, 0⟩

namespace DiskStore

def last (s : DiskStore) : Nat := s.base + s.entries.length

/-- What the store answers through its interface, the bytes of the snapshot aside. -/
def log (s : DiskStore) : MemStore :=
  { term := s.term, vote := s.vote, entries := s.entries, snapIdx := s.snapIdx
    snapTerm := s.snapTerm }

def dropThrough (s : DiskStore) (index : Nat) : DiskStore :=
  { s with
    entries := if index ≥ s.last then [] else s.entries.drop (index - s.base)
    base := index }

/-- Append one replayed entry behind `entries`. -/
def push (s : DiskStore) (seg base : Nat) (entries : List Entry) (e : Entry) : DiskStore :=
  { s with base := base, entries := entries ++ [e], segMax := update s.segMax seg (some e.index) }

/-- `replay` of a decoded record. -/
def replayRec (seg : Nat) (s : DiskStore) : Rec → Except ReplayError DiskStore
  | .entry e =>
    if e.index ≤ s.snapIdx then
      .ok s
    else if s.entries.length = 0 ∧ e.index > s.last + 1 then
      -- the entries in between sat in segments deleted under a later snapshot
      .ok (s.push seg (e.index - 1) [] e)
    else if e.index ≤ s.last then
      if e.index ≤ s.base then
        .error .sliceBounds
      else
        .ok (s.push seg s.base (s.entries.take (e.index - s.base - 1)) e)
    else if e.index > s.last + 1 then
      .error (.follows e.index s.last)
    else
      .ok (s.push seg s.base s.entries e)
  | .state term vote => .ok { s with term := term, vote := vote }
  | .snapshot index term =>
    if index < s.base then
      .error (.belowStart index (s.base + 1))
    else
      .ok { s.dropThrough index with snapIdx := index, snapTerm := term }

def replay (seg : Nat) (s : DiskStore) (p : Bytes) : Except ReplayError DiskStore :=
  (Rec.decode p).bind (s.replayRec seg)

end DiskStore

/-! ## The directory. -/

/-- WAL segments, snapshot files by index, and temporary snapshot files by index. -/
structure Disk where
  segs : List Segment := []
  snaps : Nat → Option Bytes := fun _ => none
  tmps : Nat → Option Bytes := fun _ => none

inductive DiskAction where
  | wal (a : WalAction)
  | writeTmp (index : Nat) (data : Bytes)
  | rename (index : Nat)
  | removeSnap (index : Nat)
  deriving DecidableEq, Repr

def DiskAction.apply (d : Disk) : DiskAction → Disk
  | .wal a => { d with segs := a.apply d.segs }
  | .writeTmp index data => { d with tmps := update d.tmps index (some data) }
  | .rename index =>
    { d with snaps := update d.snaps index (d.tmps index), tmps := update d.tmps index none }
  | .removeSnap index => { d with snaps := update d.snaps index none }

def DiskAction.torn : DiskAction → Nat → Option DiskAction
  | .wal a, j => (a.torn j).map .wal
  | .writeTmp index data, j => some (.writeTmp index (data.take j))
  | _, _ => none

inductive DiskError where
  | openLog (e : OpenError ReplayError)
  | start (first snapshot : Nat)
  | snapshotMissing (index : Nat)
  | outside (index snapIdx last : Nat)
  deriving DecidableEq, Repr

/-- `OpenDiskStore`: replay, check that the log starts at the snapshot, and `removeStaleSnapshots`. -/
def openDiskStore (d : Disk) : Except DiskError (DiskStore × Disk) :=
  match openWAL DiskStore.replay d.segs {} with
  | .error e => .error (.openLog e)
  | .ok (s, segs) =>
    if s.base ≠ s.snapIdx then
      .error (.start (s.base + 1) s.snapIdx)
    else if s.snapIdx > 0 ∧ (d.snaps s.snapIdx).isNone then
      .error (.snapshotMissing s.snapIdx)
    else
      .ok
        ({ s with wal := ⟨Storage.nextNum segs - 1, 0⟩ },
          { segs := segs, snaps := fun i => if i = s.snapIdx then d.snaps i else none })

/-! ## The calls. -/

/-- `storage.WALOptions{SegmentSize: 16 << 20}`. -/
def segmentSize : Nat := 16 * 2 ^ 20

inductive StoreCall where
  | append (entries : List Entry)
  | setState (term : Nat) (vote : NodeID)
  | compact (index term : Nat) (snapshot : Bytes)
  deriving DecidableEq, Repr

namespace DiskStore

/-- One WAL append of records. -/
def writeRecs (s : DiskStore) (rs : List Rec) : DiskStore × List DiskAction :=
  let r := s.wal.append segmentSize (rs.map Rec.encode)
  ({ s with wal := r.1 }, r.2.map .wal)

def append (s : DiskStore) (entries : List Entry) :
    Except DiskError (DiskStore × List DiskAction) :=
  match entries with
  | [] => .ok (s, [])
  | e :: es =>
    if e.index > s.last + 1 ∨ e.index ≤ s.snapIdx then
      .error (.outside e.index s.snapIdx (s.last + 1))
    else
      let r := s.writeRecs ((e :: es).map .entry)
      .ok
        ({ r.1 with
            entries := s.entries.take (e.index - s.base - 1) ++ e :: es
            segMax := update s.segMax r.1.wal.seg (some ((e :: es).getLast (by simp)).index) },
          r.2)

def setState (s : DiskStore) (term : Nat) (vote : NodeID) : DiskStore × List DiskAction :=
  let r := s.writeRecs [.state term vote]
  ({ r.1 with term := term, vote := vote }, r.2)

/-- The last entry written in the segment lies beyond the snapshot. -/
def outlives (s : DiskStore) (seg : Nat) : Bool :=
  match s.segMax seg with
  | none => false
  | some max => max > s.snapIdx

/-- The first segment `deleteObsoleteSegments` keeps: the oldest one before the current that outlives
the snapshot, or the current one. -/
def keepSegment (s : DiskStore) : Nat :=
  ((List.range s.wal.seg).find? s.outlives).getD s.wal.seg

/-- `Compact`: the snapshot file, a fresh segment with the snapshot record and the state, and then the
deletions. -/
def compact (s : DiskStore) (d : Disk) (index term : Nat) (snapshot : Bytes) :
    DiskStore × List DiskAction :=
  if index ≤ s.snapIdx then
    (s, [])
  else
    let w := s.wal.rotate
    let r := { s with wal := w.1 }.writeRecs [.snapshot index term, .state s.term s.vote]
    let s' := { r.1.dropThrough index with snapIdx := index, snapTerm := term }
    let keep := s'.keepSegment
    ({ s' with segMax := fun seg => if seg < keep then none else s'.segMax seg },
      [.writeTmp index snapshot, .rename index] ++ w.2.map .wal ++ r.2 ++
        (if s.snapIdx > 0 then [.removeSnap s.snapIdx] else []) ++
        (deleteBefore keep d.segs).map .wal)

def perform (s : DiskStore) (d : Disk) : StoreCall → Except DiskError (DiskStore × List DiskAction)
  | .append entries => s.append entries
  | .setState term vote => .ok (s.setState term vote)
  | .compact index term snapshot => .ok (s.compact d index term snapshot)

end DiskStore

/-! ## Runs. -/

/-- A call that completes, or a crash inside a call, after `k` actions and part `j` of the next, and
the reopening. -/
inductive StoreOp where
  | call (c : StoreCall)
  | crash (c : StoreCall) (k j : Nat)
  deriving DecidableEq, Repr

/-- The disk that a crash inside a call leaves. -/
def crashed (d : Disk) (as : List DiskAction) (k j : Nat) : Disk :=
  crashAt DiskAction.apply DiskAction.torn d as k j

def execStore (x : DiskStore × Disk) (op : StoreOp) : Option ((DiskStore × Disk) × List Unit) :=
  match op with
  | .call c =>
    match x.1.perform x.2 c with
    | .error _ => none
    | .ok (s, as) => some ((s, as.foldl DiskAction.apply x.2), [])
  | .crash c k j =>
    match x.1.perform x.2 c with
    | .error _ => none
    | .ok (_, as) =>
      match openDiskStore (crashed x.2 as k j) with
      | .error _ => none
      | .ok x' => some (x', [])

def storeMachine : Machine (DiskStore × Disk) StoreOp Unit := ⟨execStore⟩

/-- The store of an empty directory. -/
def freshStore : DiskStore × Disk := ({ wal := ⟨1, 0⟩ }, { segs := [⟨1, []⟩] })

end Keystone.Raft
