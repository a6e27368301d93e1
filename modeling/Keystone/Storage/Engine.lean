/-
# Keystone.Storage.Engine — the log-structured storage engine (`storage/db.go`, `compaction.go`).

Writes go to the WAL and into a memtable; full memtables are frozen and flushed to tables; runs of tables
are compacted into one.  A reader takes the current VERSION, the tiers as they are at that moment, and a
bound on the sequence numbers, and looks at nothing else afterwards.

The model is a machine that takes one step at a time, so that the goroutines of the code interleave as
they may: a commit is appended, installed, inserted operation by operation and only then published; a
flush, a compaction or a `Restore` writes its table, stages the MANIFEST, renames it, installs the new
version and cleans up, one step each (they exclude one another, `installMu`).  A `Restore` may also come
back with an error, at any point up to the temporary MANIFEST (`Fault`).  Memtables are mutable and
shared: a version names a memtable by its WAL segment, which no two memtables have in common, and `mems`
holds what is in it now.  Tables never change.

Each step is given with the file-system actions it performs, in order; a crash leaves the directory after
any number of them, and after any byte prefix of a WAL write.  Internal keys are decoded
(`Storage.Keys`), and a table file is the list of its entries.

A trailer has 56 bits for a sequence number.  Here sequence numbers have no bound, and the model is the
engine's as long as all of them, those of restored tables included, are below `2 ^ 56`.
-/
import Mathlib.Data.List.Infix
import Keystone.Lib.Crash
import Keystone.Lib.Cursors
import Keystone.Lib.Transition
import Keystone.Storage.Keys

namespace Keystone.Storage

open Keystone.Lib
open Keystone.Lib.Tiers (Cell Cursor)
open Function (update)

/-! ## Memtables (`storage/memtable.go`). -/

/-- The skiplist is its entries in order. -/
structure Memtable where
  entries : List KeyVersion := []
  size : ℕ := 0
  maxSeq : ℕ := 0
  deriving DecidableEq, Repr

namespace Memtable

def put (m : Memtable) (seq : ℕ) (op : RawOp) : Memtable :=
  let v := if op.kind = kindPut then op.value else []
  { entries := Tiers.insert ⟨op.key, trailer seq op.kind, v⟩ m.entries
    size := m.size + (op.key.length + trailerSize + v.length + 64)
    maxSeq := if seq > m.maxSeq then seq else m.maxSeq }

/-- The operations of a batch; the `i`-th has sequence number `seq + i`. -/
def putAll (m : Memtable) : ℕ → List RawOp → Memtable
  | _, [] => m
  | seq, op :: ops => (m.put seq op).putAll (seq + 1) ops

end Memtable

/-! ## Tables and versions (`storage/version.go`). -/

structure Table where
  num : ℕ
  entries : List KeyVersion
  deriving DecidableEq, Repr

def isInput (t : Table) (inputs : List Table) : Bool := inputs.any fun u => u.num = t.num

/-- Memtables by their WAL segments, the frozen ones oldest first; tables newest first. -/
structure Version where
  mem : ℕ
  imm : List ℕ
  tables : List Table
  deriving DecidableEq, Repr

/-- What an iterator of one tier reads. -/
inductive Tier where
  | memtable (seg : ℕ)
  | table (t : Table)
  deriving DecidableEq, Repr

def Tier.entries (mems : ℕ → Memtable) : Tier → List KeyVersion
  | .memtable seg => (mems seg).entries
  | .table t => t.entries

/-- A run of tables becomes `out`, in the place of its first. -/
def replaceRun (inputs : List Table) (out : Option Table) : Bool → List Table → List Table
  | _, [] => []
  | replaced, t :: ts =>
    if isInput t inputs then
      (if replaced then [] else out.toList) ++ replaceRun inputs out true ts
    else
      t :: replaceRun inputs out replaced ts

namespace Version

def withMemtable (v : Version) (seg : ℕ) : Version := ⟨seg, v.imm ++ [v.mem], v.tables⟩

def withFlushed (v : Version) (flushed : ℕ) (t : Option Table) : Version :=
  ⟨v.mem, v.imm.filter (· ≠ flushed), t.toList ++ v.tables⟩

def withCompacted (v : Version) (inputs : List Table) (out : Option Table) : Version :=
  ⟨v.mem, v.imm, replaceRun inputs out false v.tables⟩

/-- The tiers, newest first. -/
def children (v : Version) : List Tier :=
  .memtable v.mem :: (v.imm.reverse.map .memtable ++ v.tables.map .table)

/-- `Get` on a version: the first tier that has a version of the key under the bound. -/
def get (mems : ℕ → Memtable) (v : Version) (seq : ℕ) (key : Key) : Option Bytes :=
  match v.children.findSome? fun c => Tiers.lookup key (trailer seq kindPut) (c.entries mems) with
  | none => none
  | some e => if kindOf e = kindDelete then none else some e.val

end Version

/-! ## Iterators. -/

structure DbIter where
  seq : ℕ
  stop : Option Key
  children : List (Cursor Tier Key Bytes)
  last : Key := []
  deriving DecidableEq, Repr

inductive Turn where
  | done
  | skip (it : DbIter)
  | yield (it : DbIter) (e : KeyVersion)
  deriving DecidableEq, Repr

namespace DbIter

/-- The iterator of `Scan`. -/
def seek (mems : ℕ → Memtable) (v : Version) (seq : ℕ) (start : Key) (stop : Option Key) : DbIter where
  seq := seq
  stop := stop
  children := v.children.map fun c =>
    ⟨c, (Tiers.seek start (trailer seq kindPut) (c.entries mems)).head?⟩

/-- The iterator of `Export`. -/
def seekToFirst (mems : ℕ → Memtable) (v : Version) (seq : ℕ) : DbIter where
  seq := seq
  stop := none
  children := v.children.map fun c => ⟨c, (c.entries mems).head?⟩

def pastEnd (stop : Option Key) (k : Key) : Bool :=
  match stop with
  | none => false
  | some stop => (compare stop k).isLE

/-- One turn of the loop of `Next`.  The loop of `exportIter` has the same body, without an end. -/
def turn (mems : ℕ → Memtable) (it : DbIter) : Turn :=
  match Tiers.least it.children with
  | none => .done
  | some (i, e) =>
    let moved := it.children.modify i (Cursor.advance (Tier.entries mems))
    if pastEnd it.stop e.key then
      .done
    else if seqOf e > it.seq ∨ e.key = it.last then
      .skip { it with children := moved }
    else if kindOf e = kindDelete then
      .skip { it with children := moved, last := e.key }
    else
      .yield { it with children := moved, last := e.key } e

def loop (mems : ℕ → Memtable) : ℕ → DbIter → DbIter × Option KeyVersion
  | 0, it => (it, none)
  | n + 1, it =>
    match it.turn mems with
    | .done => (it, none)
    | .skip it' => loop mems n it'
    | .yield it' e => (it', some e)

/-- No turn meets an entry twice. -/
def fuel (mems : ℕ → Memtable) (it : DbIter) : ℕ :=
  (it.children.map fun c => (c.src.entries mems).length).sum + 1

/-- `Next`: the entry the iterator stands at afterwards. -/
def next (mems : ℕ → Memtable) (it : DbIter) : DbIter × Option KeyVersion := it.loop mems (it.fuel mems)

end DbIter

/-- What `writeTableFiltered` writes: the newest version of each key, with `drop` no tombstones. -/
def tableEntries (drop : Bool) (l : List KeyVersion) : List KeyVersion :=
  (Tiers.firsts [] l).filter fun e => !(drop && kindOf e == kindDelete)

def maxSeqOf (es : List KeyVersion) : ℕ := es.foldl (fun s e => if seqOf e > s then seqOf e else s) 0

/-! ## The directory. -/

structure Manifest where
  nextNum : ℕ
  lastSeq : ℕ
  logNum : ℕ
  tables : List ℕ
  deriving DecidableEq, Repr

structure Dir where
  segs : List Segment := []
  manifest : Option Manifest := none
  /-- There is a MANIFEST.tmp. -/
  tmp : Bool := false
  /-- The table files; one that is not finished has no entries to show. -/
  files : ℕ → Option (Option (List KeyVersion)) := fun _ => none

inductive DirAction where
  | wal (a : WalAction)
  /-- The newest segment is cut at `off`. -/
  | cut (off : ℕ)
  | createTable (num : ℕ)
  | finishTable (num : ℕ) (entries : List KeyVersion)
  | removeTable (num : ℕ)
  | stage
  | unstage
  | rename (man : Manifest)
  deriving DecidableEq, Repr

/-- The newest segment loses what lies behind `off`. -/
def cutLast (off : ℕ) : List Segment → List Segment
  | [] => []
  | [g] => [{ g with bytes := g.bytes.take off }]
  | g :: gs => g :: cutLast off gs

namespace DirAction

def apply (d : Dir) : DirAction → Dir
  | .wal a => { d with segs := a.apply d.segs }
  | .cut off => { d with segs := cutLast off d.segs }
  | .createTable num => { d with files := update d.files num (some none) }
  | .finishTable num entries => { d with files := update d.files num (some (some entries)) }
  | .removeTable num => { d with files := update d.files num none }
  | .stage => { d with tmp := true }
  | .unstage => { d with tmp := false }
  | .rename man => { d with manifest := some man, tmp := false }

/-- Only a write to the WAL can stop half way. -/
def torn : DirAction → ℕ → Option DirAction
  | .wal a, j => (a.torn j).map .wal
  | _, _ => none

end DirAction

/-! ## The running engine. -/

/-- How far `commit` has come with a group of batches. -/
inductive Writer where
  | idle
  /-- `makeRoom` has returned. -/
  | ready (group : List Batch)
  /-- `Append` has returned the segment. -/
  | appended (group : List Batch) (seg : ℕ)
  /-- The operations still to be inserted; the next one has sequence number `next`. -/
  | inserting (group : List Batch) (todo : List BatchOp) (next : ℕ)
  deriving DecidableEq, Repr

/-- What the holder of `installMu` does. -/
inductive Work where
  | flush (seg : ℕ)
  | compact (inputs : List Table)
  | restore (snap : List KeyVersion)
  deriving DecidableEq, Repr

inductive Phase where
  /-- The table file is open. -/
  | writing (num : ℕ)
  /-- The table is finished; there is none if nothing survived. -/
  | written (t : Option Table)
  /-- `Restore` has rotated the WAL. -/
  | rotated (t : Option Table)
  /-- MANIFEST.tmp is written. -/
  | staged (t : Option Table) (man : Manifest)
  | renamed (t : Option Table) (man : Manifest)
  /-- The new version is installed; segments below `keep` are being deleted. -/
  | cleaning (keep : ℕ)
  deriving DecidableEq, Repr

inductive Job where
  | idle
  | busy (w : Work) (p : Phase)
  deriving DecidableEq, Repr

/-- A `Restore` runs.  Its caller must not write concurrently. -/
def Job.restoring : Job → Bool
  | .busy (.restore _) _ => true
  | _ => false

/-- A call of `Get`, `Scan` or `Export`: what `acquire` returned, and the iterator. -/
structure Reader where
  v : Version
  seq : ℕ
  iter : Option DbIter := none
  deriving DecidableEq, Repr

structure Engine where
  mems : ℕ → Memtable
  cur : Version
  seq : ℕ
  nextNum : ℕ
  flushedSeq : ℕ
  wal : Wal
  /-- A rotation failed after it had closed the segment's file: every later append and rotation fails. -/
  dead : Bool := false
  writer : Writer := .idle
  job : Job := .idle
  /-- Tables no longer in the current version, to be unlinked when their last reader is done. -/
  gone : List ℕ := []
  readers : ℕ → Option Reader := fun _ => none

/-- Where a `Restore` fails. -/
inductive Fault where
  /-- Copying the table, opening or reading it; the file is removed. -/
  | table
  /-- `Rotate`: the sync of the old segment. -/
  | sync
  /-- `Rotate`: the old segment's file is closed, and there is no new one. -/
  | close
  /-- `Rotate`: the new segment's file is there, but its directory entry could not be synced. -/
  | segment
  /-- Writing MANIFEST.tmp, which may be left behind. -/
  | manifest (tmp : Bool)
  deriving DecidableEq, Repr

inductive EngineEvent where
  -- `commit`
  | begin (group : List Batch)
  | append
  | install
  | insert
  | publish
  -- readers
  | acquire (r : ℕ)
  | get (r : ℕ) (key : Key)
  | scan (r : ℕ) (start : Key) (stop : Option Key)
  | exportFrom (r : ℕ)
  | next (r : ℕ)
  -- background work and `Restore`
  | flush
  | compact (inputs : List Table)
  | restore (snap : List KeyVersion)
  | work
  | abort (f : Fault)
  | unlink (num : ℕ)
  deriving DecidableEq, Repr

/-- What a step shows: `began` is the start of `commit`, with the first sequence number it uses, `wrote`
the return of the calls of `Write` in the group; `restored` is the moment a `Restore` takes effect,
`aborted` its return with an error. -/
inductive EngineObs where
  | began (first : ℕ) (group : List Batch)
  | wrote (group : List Batch)
  | restoring (snap : List KeyVersion)
  | restored (snap : List KeyVersion)
  | aborted
  | acquired (r : ℕ)
  | got (r : ℕ) (key : Key) (value : Option Bytes)
  | opened (r : ℕ) (start : Key) (stop : Option Key)
  | yielded (r : ℕ) (e : Option KeyVersion)
  deriving DecidableEq, Repr

/-- A step: the engine after it, what it does to the directory, and what it shows. -/
structure Effect where
  engine : Engine
  acts : List DirAction := []
  obs : List EngineObs := []

/-- `Write` queues a batch that has operations, none of them on the empty key. -/
def Batch.accepted (b : Batch) : Bool := !b.isEmpty && b.all fun op => !op.key.isEmpty

/-- The payloads of a group, from sequence number `seq` on. -/
def encodeGroup : ℕ → List Batch → List Bytes
  | _, [] => []
  | seq, b :: bs => encodeBatch seq b :: encodeGroup (seq + b.length) bs

def maxImmutables : ℕ := 2

namespace Engine

/-! ### `commit` -/

/-- The head of the queue takes the group; `makeRoom` rotates the WAL when the memtable is full, and
stalls while too many memtables are frozen. -/
def begin (limit : ℕ) (s : Engine) (group : List Batch) : Option Effect :=
  if s.writer ≠ .idle ∨ s.job.restoring = true ∨ s.dead = true ∨ group = [] ∨
      ¬ group.all Batch.accepted = true then
    none
  else if (s.mems s.cur.mem).size < limit then
    some { engine := { s with writer := .ready group }, obs := [.began (s.seq + 1) group] }
  else if s.cur.imm.length ≥ maxImmutables then
    none
  else
    some { engine := { s with wal := s.wal.rotate.1, writer := .ready group }
           acts := s.wal.rotate.2.map .wal
           obs := [.began (s.seq + 1) group] }

def append (limit : ℕ) (s : Engine) : Option Effect :=
  match s.writer with
  | .ready group =>
    let r := s.wal.append (limit * 4) (encodeGroup (s.seq + 1) group)
    some { engine := { s with wal := r.1, writer := .appended group r.1.seg }
           acts := r.2.map .wal }
  | _ => none

/-- A record in a new segment freezes the memtable. -/
def install (s : Engine) : Option Effect :=
  match s.writer with
  | .appended group seg =>
    let writer := .inserting group group.flatten (s.seq + 1)
    if seg ≠ s.cur.mem then
      some { engine := { s with
               cur := s.cur.withMemtable seg, mems := update s.mems seg {}, writer := writer } }
    else
      some { engine := { s with writer := writer } }
  | _ => none

def insert (s : Engine) : Option Effect :=
  match s.writer with
  | .inserting group (op :: todo) next =>
    some { engine := { s with
             mems := update s.mems s.cur.mem ((s.mems s.cur.mem).put next op.raw)
             writer := .inserting group todo (next + 1) } }
  | _ => none

def publish (s : Engine) : Option Effect :=
  match s.writer with
  | .inserting group [] _ =>
    some { engine := { s with seq := s.seq + group.flatten.length, writer := .idle }
           obs := [.wrote group] }
  | _ => none

/-! ### Readers -/

def acquire (s : Engine) (r : ℕ) : Effect where
  engine := { s with readers := update s.readers r (some ⟨s.cur, s.seq, none⟩) }
  obs := [.acquired r]

def get (s : Engine) (r : ℕ) (key : Key) : Option Effect :=
  (s.readers r).map fun rd =>
    { engine := s, obs := [.got r key (rd.v.get s.mems rd.seq key)] }

def setIter (s : Engine) (r : ℕ) (rd : Reader) (it : DbIter) : Engine :=
  { s with readers := update s.readers r (some { rd with iter := some it }) }

def scan (s : Engine) (r : ℕ) (start : Key) (stop : Option Key) : Option Effect :=
  (s.readers r).map fun rd =>
    { engine := s.setIter r rd (DbIter.seek s.mems rd.v rd.seq start stop)
      obs := [.opened r start stop] }

def exportFrom (s : Engine) (r : ℕ) : Option Effect :=
  (s.readers r).map fun rd =>
    { engine := s.setIter r rd (DbIter.seekToFirst s.mems rd.v rd.seq)
      obs := [.opened r [] none] }

def next (s : Engine) (r : ℕ) : Option Effect :=
  match s.readers r with
  | some ⟨v, seq, some it⟩ =>
    some { engine := s.setIter r ⟨v, seq, none⟩ (it.next s.mems).1
           obs := [.yielded r (it.next s.mems).2] }
  | _ => none

/-! ### Flush, compaction and `Restore` -/

/-- The work begins with a new table file. -/
def start (s : Engine) (w : Work) (obs : List EngineObs) : Effect where
  engine := { s with nextNum := s.nextNum + 1, job := .busy w (.writing s.nextNum) }
  acts := [.createTable s.nextNum]
  obs := obs

/-- The oldest frozen memtable. -/
def flush (s : Engine) : Option Effect :=
  match s.job, s.cur.imm with
  | .idle, seg :: _ => some (s.start (.flush seg) [])
  | _, _ => none

/-- An age-adjacent run of the current tables. -/
def compact (s : Engine) (inputs : List Table) : Option Effect :=
  if s.job = .idle ∧ inputs ≠ [] ∧ inputs <:+: s.cur.tables then some (s.start (.compact inputs) [])
  else none

def restore (s : Engine) (snap : List KeyVersion) : Option Effect :=
  if s.job = .idle ∧ s.writer = .idle then some (s.start (.restore snap) [.restoring snap]) else none

/-- The entries the work writes. -/
def entriesOf (s : Engine) : Work → List KeyVersion
  | .flush seg => tableEntries false (s.mems seg).entries
  | .compact inputs =>
    -- tombstones go only when the output becomes the oldest table
    tableEntries (inputs.getLast?.map Table.num == s.cur.tables.getLast?.map Table.num)
      (Tiers.mergeAll (inputs.map Table.entries))
  | .restore snap => snap

def oldestSegment (s : Engine) : ℕ := s.cur.imm.headD s.cur.mem

/-- The MANIFEST the work writes, with table `t`. -/
def manifestOf (s : Engine) (t : Option Table) : Work → Manifest
  | .flush seg =>
    { nextNum := s.nextNum, lastSeq := s.flushedSeq, logNum := seg + 1
      tables := (t.toList ++ s.cur.tables).map Table.num }
  | .compact inputs =>
    { nextNum := s.nextNum, lastSeq := s.flushedSeq, logNum := s.oldestSegment
      tables := (replaceRun inputs t false s.cur.tables).map Table.num }
  | .restore snap =>
    { nextNum := s.nextNum, lastSeq := maxSeqOf snap, logNum := s.wal.seg
      tables := if snap = [] then [] else t.toList.map Table.num }

/-- MANIFEST.tmp is written, from the fields as they are at that moment. -/
def stage (s : Engine) (w : Work) (t : Option Table) : Effect where
  engine := { s with job := .busy w (.staged t (s.manifestOf t w)) }
  acts := [.stage]

/-- The table is finished, or removed again because nothing survived. -/
def finish (s : Engine) (w : Work) (num : ℕ) : Effect :=
  if s.entriesOf w = [] ∧ s.job.restoring = false then
    { engine := { s with job := .busy w (.written none) }, acts := [.removeTable num] }
  else
    { engine := { s with job := .busy w (.written (some ⟨num, s.entriesOf w⟩)) }
      acts := [.finishTable num (s.entriesOf w)] }

/-- `Restore` begins a new segment and takes over the sequence numbers of its table. -/
def takeOver (s : Engine) (snap : List KeyVersion) (t : Option Table) : Effect where
  engine := { s with
    wal := s.wal.rotate.1
    seq := if maxSeqOf snap > s.seq then maxSeqOf snap else s.seq
    flushedSeq := maxSeqOf snap
    job := .busy (.restore snap) (.rotated t) }
  acts := s.wal.rotate.2.map .wal

/-- The step after the rename: the new version becomes visible. -/
def installWork (s : Engine) (t : Option Table) (man : Manifest) : Work → Effect
  | .flush seg =>
    { engine := { s with cur := s.cur.withFlushed seg t
                         job := .busy (.flush seg) (.cleaning (seg + 1)) } }
  | .compact inputs =>
    { engine := { s with cur := s.cur.withCompacted inputs t
                         gone := s.gone ++ inputs.map Table.num
                         job := .idle } }
  | .restore snap =>
    { engine := { s with cur := ⟨man.logNum, [], if snap = [] then [] else t.toList⟩
                         mems := update s.mems man.logNum {}
                         -- a table without entries is removed as well
                         gone := s.gone ++ s.cur.tables.map Table.num ++
                           (if snap = [] then t.toList.map Table.num else [])
                         job := .busy (.restore snap) (.cleaning man.logNum) }
      obs := [.restored snap] }

/-- The next step of the work. -/
def work (d : Dir) (s : Engine) : Option Effect :=
  match s.job with
  | .idle => none
  | .busy w (.writing num) =>
    some (s.finish w num)
  | .busy (.flush seg) (.written t) =>
    let flushed := if (s.mems seg).maxSeq > s.flushedSeq then (s.mems seg).maxSeq else s.flushedSeq
    some ({ s with flushedSeq := flushed }.stage (.flush seg) t)
  | .busy (.compact inputs) (.written t) => some (s.stage (.compact inputs) t)
  | .busy (.restore snap) (.written t) =>
    if s.dead = true then none else some (s.takeOver snap t)
  | .busy w (.rotated t) => some (s.stage w t)
  | .busy w (.staged t man) =>
    some { engine := { s with job := .busy w (.renamed t man) }, acts := [.rename man] }
  | .busy w (.renamed t man) => some (s.installWork t man w)
  | .busy _ (.cleaning keep) =>
    match d.segs.find? fun g => g.num < keep with
    | none => some { engine := { s with job := .idle } }
    | some g => some { engine := s, acts := [.wal (.remove g.num)] }

/-- `Restore` returns an error.  The table is left behind once it has been read, and what was changed
before the error stays changed. -/
def abort (s : Engine) (f : Fault) : Option Effect :=
  match s.job, f with
  | .busy (.restore _) (.writing num), .table =>
    some { engine := { s with job := .idle }, acts := [.removeTable num], obs := [.aborted] }
  | .busy (.restore _) (.written _), .sync =>
    some { engine := { s with job := .idle }, obs := [.aborted] }
  | .busy (.restore _) (.written _), .close =>
    some { engine := { s with job := .idle, dead := true }, obs := [.aborted] }
  | .busy (.restore _) (.written _), .segment =>
    if s.dead = true then none
    else some { engine := { s with job := .idle, dead := true }
                acts := [.wal .create], obs := [.aborted] }
  | .busy (.restore _) (.rotated _), .manifest tmp =>
    some { engine := { s with job := .idle }
           acts := if tmp then [.stage] else [], obs := [.aborted] }
  | _, _ => none

def unlink (s : Engine) (num : ℕ) : Option Effect :=
  if num ∈ s.gone then
    some { engine := { s with gone := s.gone.erase num }, acts := [.removeTable num] }
  else none

/-- One step of the running engine. -/
def step (limit : ℕ) (d : Dir) (s : Engine) : EngineEvent → Option Effect
  | .begin group => s.begin limit group
  | .append => s.append limit
  | .install => s.install
  | .insert => s.insert
  | .publish => s.publish
  | .acquire r => some (s.acquire r)
  | .get r key => s.get r key
  | .scan r start stop => s.scan r start stop
  | .exportFrom r => s.exportFrom r
  | .next r => s.next r
  | .flush => s.flush
  | .compact inputs => s.compact inputs
  | .restore snap => s.restore snap
  | .work => s.work d
  | .abort f => s.abort f
  | .unlink num => s.unlink num

end Engine

/-! ## Opening. -/

inductive EngineError where
  /-- A table the MANIFEST lists is not there, or not finished. -/
  | table (num : ℕ)
  /-- A record is not a batch. -/
  | badBatch (seg : ℕ)
  | corrupt (seg off : ℕ)
  deriving DecidableEq, Repr

/-- What the replay has gathered: the memtables, oldest first, and the sequence counter. -/
structure Recovered where
  mems : List (ℕ × Memtable) := []
  seq : ℕ
  deriving DecidableEq, Repr

/-- The memtable that gets the records of `seg`: the newest one, or a new one. -/
def putRecord (seg seq : ℕ) (ops : List RawOp) : List (ℕ × Memtable) → List (ℕ × Memtable)
  | [] => [(seg, ({} : Memtable).putAll seq ops)]
  | [(g, m)] =>
    if g = seg then [(g, m.putAll seq ops)] else [(g, m), (seg, ({} : Memtable).putAll seq ops)]
  | p :: ps => p :: putRecord seg seq ops ps

/-- The replay callback of `Open`. -/
def replayBatch (logNum seg : ℕ) (r : Recovered) (p : Bytes) : Except EngineError Recovered :=
  if seg < logNum then
    .ok r
  else
    match decodeBatch p with
    | none => .error (.badBatch seg)
    | some (seq, ops) =>
      let last := seq + ops.length - 1
      .ok { mems := putRecord seg seq ops r.mems, seq := if last > r.seq then last else r.seq }

/-- Without a MANIFEST. -/
def freshManifest : Manifest := { nextNum := 1, lastSeq := 0, logNum := 1, tables := [] }

def openTables (d : Dir) : List ℕ → Except EngineError (List Table)
  | [] => .ok []
  | num :: nums =>
    match d.files num with
    | some (some es) =>
      match openTables d nums with
      | .ok ts => .ok (⟨num, es⟩ :: ts)
      | .error e => .error e
    | _ => .error (.table num)

/-- Of the table files in the listing of the directory, those the MANIFEST does not list go, and
MANIFEST.tmp. -/
def removeStrayTables (man : Manifest) (listing : List ℕ) (d : Dir) : List DirAction :=
  (listing.filter fun num => num ∉ man.tables).map .removeTable ++ (if d.tmp then [.unstage] else [])

/-- What `Open` does to the directory, in order: stray files go, a torn tail is cut off, a new segment
begins, and the segments the MANIFEST does not need go. -/
def openActions (man : Manifest) (listing : List ℕ) (d : Dir) (cutAt : Option ℕ) : List DirAction :=
  removeStrayTables man listing d ++ cutAt.toList.map .cut ++ [.wal .create] ++
    (deleteBefore man.logNum (d.segs ++ [⟨nextNum d.segs, []⟩])).map .wal

/-- `Open`; `listing` are the table files in the directory. -/
def openEngine (d : Dir) (listing : List ℕ) : Except EngineError (Engine × List DirAction) :=
  let man := d.manifest.getD freshManifest
  match openTables d man.tables with
  | .error e => .error e
  | .ok tables =>
    match replaySegments (replayBatch man.logNum) d.segs { seq := man.lastSeq } with
    | .error (.corrupt seg off) => .error (.corrupt seg off)
    | .error (.replay e) => .error e
    | .ok (r, gs) =>
      let seg := nextNum d.segs
      .ok ({ mems := fun g => ((r.mems.find? fun p => p.1 = g).map Prod.snd).getD {}
             cur := ⟨seg, r.mems.map Prod.fst, tables⟩
             seq := r.seq
             nextNum := man.nextNum
             flushedSeq := man.lastSeq
             wal := ⟨seg, 0⟩ },
        openActions man listing d (gs.getLast?.map fun g => g.bytes.length))

/-! ## The machine. -/

structure Host where
  dir : Dir := {}
  /-- The engine, between an `Open` and the next crash or `Close`. -/
  proc : Option Engine := none

inductive HostEvent where
  | step (e : EngineEvent)
  /-- A crash inside a step, after `k` of its actions and `j` bytes of the next, if it is a write. -/
  | crash (e : EngineEvent) (k j : ℕ)
  | start (listing : List ℕ)
  /-- A crash inside `Open`. -/
  | crashStart (listing : List ℕ) (k : ℕ)
  | close
  deriving DecidableEq, Repr

inductive HostObs where
  | engine (o : EngineObs)
  | started
  /-- `Open` returned an error. -/
  | failed (e : EngineError)
  | closed
  | crashed
  deriving DecidableEq, Repr

def Dir.perform (d : Dir) (acts : List DirAction) : Dir := acts.foldl DirAction.apply d

def host (limit : ℕ) : Machine Host HostEvent HostObs where
  exec x e :=
    match x.proc, e with
    | some s, .step e =>
      (s.step limit x.dir e).map fun f =>
        (⟨x.dir.perform f.acts, some f.engine⟩, f.obs.map .engine)
    | some s, .crash e k j =>
      (s.step limit x.dir e).map fun f =>
        (⟨crashAt DirAction.apply DirAction.torn x.dir f.acts k j, none⟩, [.crashed])
    | some s, .close =>
      if s.writer = .idle ∧ s.job = .idle then some (⟨x.dir, none⟩, [.closed]) else none
    | none, .start listing =>
      match openEngine x.dir listing with
      | .ok (s, acts) => some (⟨x.dir.perform acts, some s⟩, [.started])
      | .error e => some (x, [.failed e])
    | none, .crashStart listing k =>
      match openEngine x.dir listing with
      | .ok (_, acts) =>
        some (⟨crashAt DirAction.apply DirAction.torn x.dir acts k 0, none⟩, [.crashed])
      | .error _ => some (x, [.crashed])
    | _, _ => none

end Keystone.Storage
