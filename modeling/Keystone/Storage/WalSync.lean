/-
# Keystone.Storage.WalSync — the write-ahead log over files that may lose what was not synced.

`Storage.Wal` has the log's calls as they act on the page cache.  Here every file also knows how many of
its bytes are on stable storage: a crash, of the process or of the machine, keeps those, and of the rest
of the newest file any byte prefix.  A call is the list of its actions on the files, and a crash inside
it leaves the files after the first `k` of them.  Cutting off a torn tail and syncing it is one action:
before the sync the old tail may still come back, which is a crash in front of the action.
-/
import Keystone.Storage.Wal
import Keystone.Lib.Transition

namespace Keystone.Storage

open Keystone.Lib

/-! ## Files. -/

structure File where
  num : ℕ
  bytes : Bytes
  /-- How many of the bytes were synced. -/
  synced : ℕ
  deriving DecidableEq, Repr

def File.segment (f : File) : Segment := ⟨f.num, f.bytes⟩

/-- The newest file changes. -/
def onLast (f : File → File) : List File → List File
  | [] => []
  | [g] => [f g]
  | g :: gs => g :: onLast f gs

inductive FileAct where
  | create
  | write (bs : Bytes)
  | sync
  /-- The newest file is cut at `off` and synced. -/
  | settle (off : ℕ)
  | remove (num : ℕ)
  deriving DecidableEq, Repr

def FileAct.apply (fs : List File) : FileAct → List File
  | .create => fs ++ [⟨nextNum (fs.map File.segment), [], 0⟩]
  | .write bs => onLast (fun g => { g with bytes := g.bytes ++ bs }) fs
  | .sync => onLast (fun g => { g with synced := g.bytes.length }) fs
  | .settle off => onLast (fun g => ⟨g.num, g.bytes.take off, (g.bytes.take off).length⟩) fs
  | .remove num => fs.filter (·.num ≠ num)

/-- A crash: of the unsynced tail of the newest file the bytes in front of `n` are left. -/
def cut (n : ℕ) (fs : List File) : List File :=
  onLast (fun g => { g with bytes := g.bytes.take (max g.synced n) }) fs

/-! ## Calls. -/

/-- The state of the running log. -/
structure SyncedWal where
  wal : Wal
  dirty : Bool
  deriving DecidableEq, Repr

namespace SyncedWal

/-- `syncLocked`. -/
def sync (l : SyncedWal) : SyncedWal × List FileAct :=
  (⟨l.wal, false⟩, if l.dirty then [.sync] else [])

/-- `rotateLocked`: nothing unsynced is left behind. -/
def rotate (l : SyncedWal) : SyncedWal × List FileAct :=
  (⟨l.wal.rotate.1, false⟩, l.sync.2 ++ [.create])

/-- `Append`; under `SyncAlways` it ends with a sync. -/
def append (always : Bool) (segmentSize : ℕ) (l : SyncedWal) (ps : List Bytes) :
    SyncedWal × List FileAct :=
  let r := if l.wal.size ≥ segmentSize then l.rotate else (l, [])
  (⟨⟨r.1.wal.seg, r.1.wal.size + (encodeRecords ps).length⟩, !always⟩,
    r.2 ++ (.write (encodeRecords ps) :: if always then [.sync] else []))

end SyncedWal

/-- The replay function that keeps what it is given. -/
def collect (seg : ℕ) (recs : List (ℕ × Bytes)) (p : Bytes) : Except Empty (List (ℕ × Bytes)) :=
  .ok (recs ++ [(seg, p)])

/-- `OpenWAL`: what it replays, and what it does to the files. -/
def openFiles (fs : List File) : Except (OpenError Empty) (List (ℕ × Bytes) × List FileAct) :=
  match replaySegments collect (fs.map File.segment) [] with
  | .error e => .error e
  | .ok (recs, gs) =>
    let tail := match gs.getLast? with
      | none => []
      | some g => [.settle g.bytes.length]
    .ok (recs, tail ++ [.create])

/-! ## Runs. -/

inductive WalOp where
  | openLog
  | append (payloads : List Bytes)
  | rotate
  | sync
  | deleteBefore (num : ℕ)
  | close
  deriving DecidableEq, Repr

/-- A call that returns, or one that a crash cuts: after `k` actions, with the newest file cut at
`n`. -/
structure WalEvent where
  op : WalOp
  crash : Option (ℕ × ℕ) := none
  deriving DecidableEq, Repr

inductive WalObs where
  /-- `OpenWAL` reported `ErrCorrupt`. -/
  | corrupt
  /-- `OpenWAL` returned and had replayed these records. -/
  | opened (recs : List (ℕ × Bytes))
  /-- `Append` of these records, with the segment they go to, was called. -/
  | appending (recs : List (ℕ × Bytes))
  /-- `Append` returned. -/
  | appended
  /-- A segment was removed. -/
  | removed (num : ℕ)
  deriving DecidableEq, Repr

structure WalDisk where
  files : List File := []
  /-- The running log, between an `OpenWAL` and the next crash or `Close`. -/
  log : Option SyncedWal := none
  deriving DecidableEq, Repr

/-- A call in a state: its actions, the log after it, and what its call and its return show. -/
structure WalPlan where
  acts : List FileAct
  log : Option SyncedWal
  called : List WalObs := []
  returned : List WalObs := []

def WalDisk.plan (always : Bool) (segmentSize : ℕ) (d : WalDisk) (op : WalOp) : Option WalPlan :=
  match d.log, op with
  | none, .openLog =>
    match openFiles d.files with
    | .error _ => some { acts := [], log := none, returned := [.corrupt] }
    | .ok (recs, acts) =>
      some { acts, log := some ⟨⟨nextNum (d.files.map File.segment), 0⟩, false⟩, returned := [.opened recs] }
  | some l, .append ps =>
    -- an empty payload is refused before anything is written
    if [] ∈ ps then some { acts := [], log := some l }
    else
      let r := l.append always segmentSize ps
      some { acts := r.2, log := some r.1, called := [.appending (ps.map (r.1.wal.seg, ·))],
             returned := [.appended] }
  | some l, .rotate => some { acts := l.rotate.2, log := some l.rotate.1 }
  | some l, .sync => some { acts := l.sync.2, log := some l.sync.1 }
  | some l, .deleteBefore num =>
    some { acts := (d.files.filter (·.num < num)).map fun g => .remove g.num, log := some l }
  | some l, .close => some { acts := l.sync.2, log := none }
  | _, _ => none

/-- The removals among the actions that were performed. -/
def removals (acts : List FileAct) : List WalObs :=
  acts.filterMap fun
    | .remove num => some (.removed num)
    | _ => none

def syncedLog (always : Bool) (segmentSize : ℕ) : Machine WalDisk WalEvent WalObs where
  exec d e := (d.plan always segmentSize e.op).map fun plan =>
    match e.crash with
    | none =>
      (⟨plan.acts.foldl FileAct.apply d.files, plan.log⟩,
        plan.called ++ removals plan.acts ++ plan.returned)
    | some (k, n) =>
      (⟨cut n ((plan.acts.take k).foldl FileAct.apply d.files), none⟩,
        plan.called ++ removals (plan.acts.take k))

end Keystone.Storage
