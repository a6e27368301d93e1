/-
# Keystone.Storage.TableRefs — who holds a table, and when its file goes (`storage/version.go`,
`table.ref`, `table.unref`).

A table is held by the versions that list it, by the iterators open on it, and by whoever made it until
it lets go.  References are taken and dropped in `newVersion`, `version.unref`, `table.iter`,
`tableIter.close`, `flush`, `compactLocked` and `Restore`, by many goroutines at once.  The machine of
this module takes one atomic operation at a time: one `t.ref()` of the loop in `newVersion`, one
`t.unref()` of the loop in `version.unref`, one `gone.Store(true)`.

* `mu` is the holder of `d.mu`: it builds a version, publishes it and drops the old one.  `acquire`
  waits for it.
* `job` is the holder of `installMu`: a flush, a compaction or a `Restore`.
* A version whose count has reached zero is taken down by `dropTable`, its tables in order.  The code
  does this in the goroutine that dropped the last reference; here that goroutine may run ahead of the
  loop, which only adds interleavings.  The same goes for the file of a table (`Lib.RefCount`).
* Iterators may be closed by anyone, at any time, and again; a job has closed its own before it goes on.

Files, sequence numbers and entries are those of `Storage.Engine`; here a table is its number.  Whether
a flush finds its memtable stale, whether a table comes out empty, and whether a write fails, is up to
the event.  The counts are unbounded.
-/
import Mathlib.Algebra.BigOperators.Group.Finset.Basic
import Keystone.Lib.RefCount
import Keystone.Lib.Transition

namespace Keystone.Storage

open Keystone.Lib
open Function (update)

/-! ## The state. -/

structure VersionRef where
  tables : List ℕ := []
  refs : ℤ := 0
  /-- The tables it holds a reference on: all of them, unless it is being built or taken down. -/
  held : List ℕ := []
  deriving DecidableEq, Repr

/-- What is done under `d.mu`; `job` says that it is done for the holder of `installMu`. -/
inductive MuHolder where
  | free
  /-- `newVersion` has these tables still to reference. -/
  | building (job : Bool) (v : ℕ) (todo : List ℕ)
  /-- `install` is about to drop the version it replaced. -/
  | dropping (job : Bool) (old : ℕ)
  deriving DecidableEq, Repr

inductive InstallTask where
  | flush
  | compact (inputs : List ℕ)
  /-- `empty`: the restored table has no entries. -/
  | restore (empty : Bool)
  deriving DecidableEq, Repr

inductive InstallPhase where
  /-- Iterators to open on these tables; after that the tables are read and the new one is written. -/
  | reading (todo : List ℕ)
  /-- The MANIFEST is written; these tables are still to be marked as gone. -/
  | marking (todo : List ℕ)
  | installing
  /-- `Restore` has published its version; the tables of the old one are still to be marked. -/
  | retiring (old : ℕ) (todo : List ℕ)
  /-- The maker's reference is to be dropped, and with `remove` the file to be removed. -/
  | releasing (remove : Bool)
  | removing
  deriving DecidableEq, Repr

/-- The holder of `installMu`. -/
structure InstallJob where
  task : InstallTask
  /-- The table it made. -/
  out : Option ℕ
  /-- The iterators it opened. -/
  iters : List ℕ
  phase : InstallPhase
  deriving DecidableEq, Repr

structure Lifetimes where
  files : ℕ → Counted
  /-- The maker of the table has not let go of it. -/
  creator : ℕ → Bool
  nextTable : ℕ
  versions : ℕ → VersionRef
  nextVersion : ℕ
  current : ℕ
  iters : List (Option ℕ) := []
  readers : List (Option ℕ) := []
  mu : MuHolder := .free
  job : Option InstallJob := none
  /-- What the compaction goroutine has picked, before it has `installMu`. -/
  picked : Option (List ℕ) := none

/-- `withCompacted`: the run of inputs becomes `out`, in the place of its first. -/
def replaceInputs (inputs : List ℕ) (out : Option ℕ) : Bool → List ℕ → List ℕ
  | _, [] => []
  | replaced, t :: ts =>
    if t ∈ inputs then
      (if replaced then [] else out.toList) ++ replaceInputs inputs out true ts
    else
      t :: replaceInputs inputs out replaced ts

/-- The tables of the version a job installs. -/
def InstallJob.tables (j : InstallJob) (cur : List ℕ) : List ℕ :=
  match j.task with
  | .flush => j.out.toList ++ cur
  | .compact inputs => replaceInputs inputs j.out false cur
  | .restore empty => if empty then [] else j.out.toList

def InstallTask.inputs : InstallTask → List ℕ
  | .compact inputs => inputs
  | _ => []

namespace Lifetimes

variable (s : Lifetimes)

/-- The tables of the current version. -/
def live : List ℕ := (s.versions s.current).tables

def setFile (t : ℕ) (o : Counted) : Lifetimes := { s with files := update s.files t o }

def setVersion (v : ℕ) (x : VersionRef) : Lifetimes := { s with versions := update s.versions v x }

def setPhase (p : InstallPhase) : Lifetimes := { s with job := s.job.map fun j => { j with phase := p } }

/-- `table.iter` -/
def iter (t : ℕ) : Lifetimes := { s.setFile t (s.files t).ref with iters := s.iters ++ [some t] }

/-- `v.refs.Add(-1)` -/
def unrefVersion (v : ℕ) : Lifetimes :=
  s.setVersion v { s.versions v with refs := (s.versions v).refs - 1 }

/-- `newVersion`, before its loop. -/
def build (job : Bool) (tables : List ℕ) : Lifetimes :=
  { s.setVersion s.nextVersion { tables := tables, refs := 1 } with
    nextVersion := s.nextVersion + 1
    mu := .building job s.nextVersion tables }

/-- `openTable` on a new file. -/
def make : Lifetimes :=
  { s.setFile s.nextTable .made with
    creator := update s.creator s.nextTable true
    nextTable := s.nextTable + 1 }

/-- `d.current = v` -/
def publish (v : ℕ) : Lifetimes := { s with current := v }

end Lifetimes

/-! ## Steps. -/

inductive LifeEvent where
  -- readers
  | acquire
  | openIter (r t : ℕ)
  | closeIter (i : ℕ)
  | release (r : ℕ)
  -- taking down a version, and the file of a table
  | dropTable (v : ℕ)
  | closeFile (t : ℕ)
  | unlinkFile (t : ℕ)
  -- under `d.mu`
  | rotate
  | refTable
  | publish
  | dropOld
  -- under `installMu`
  | flush
  | pick (inputs : List ℕ)
  | compact
  | restore (empty : Bool)
  | openNext
  | write
  | fail (remove : Bool)
  | commit
  | mark
  | install
  | dropReplaced
  | letGo
  | removeFile
  deriving DecidableEq, Repr

namespace Lifetimes

/-! ### Readers -/

def acquire (s : Lifetimes) : Option Lifetimes :=
  if s.mu = .free then
    some { s.setVersion s.current
             { s.versions s.current with refs := (s.versions s.current).refs + 1 } with
           readers := s.readers ++ [some s.current] }
  else
    none

/-- A reader opens an iterator on a table of the version it holds. -/
def openIter (s : Lifetimes) (r t : ℕ) : Option Lifetimes :=
  match s.readers[r]? with
  | some (some v) => if t ∈ (s.versions v).tables then some (s.iter t) else none
  | _ => none

/-- `tableIter.close`: the second call finds no table. -/
def closeIter (s : Lifetimes) (i : ℕ) : Option Lifetimes :=
  match s.iters[i]? with
  | some (some t) => some { s.setFile t (s.files t).unref with iters := s.iters.set i none }
  | some none => some s
  | none => none

def release (s : Lifetimes) (r : ℕ) : Option Lifetimes :=
  match s.readers[r]? with
  | some (some v) => some { s.unrefVersion v with readers := s.readers.set r none }
  | _ => none

/-- One turn of the loop in `version.unref`. -/
def dropTable (s : Lifetimes) (v : ℕ) : Option Lifetimes :=
  match (s.versions v).held with
  | t :: held =>
    if v < s.nextVersion ∧ (s.versions v).refs = 0 then
      some ((s.setVersion v { s.versions v with held := held }).setFile t (s.files t).unref)
    else
      none
  | [] => none

def closeFile (s : Lifetimes) (t : ℕ) : Option Lifetimes :=
  if 0 < (s.files t).closing then some (s.setFile t (s.files t).close) else none

def unlinkFile (s : Lifetimes) (t : ℕ) : Option Lifetimes :=
  if 0 < (s.files t).unlinking then some (s.setFile t (s.files t).unlink) else none

/-! ### Under `d.mu` -/

/-- A write found a new WAL segment: `withMemtable` has the tables there are. -/
def rotate (s : Lifetimes) : Option Lifetimes :=
  if s.mu = .free then some (s.build false s.live) else none

/-- One turn of the loop in `newVersion`. -/
def refTable (s : Lifetimes) : Option Lifetimes :=
  match s.mu with
  | .building job v (t :: todo) =>
    some { (s.setVersion v { s.versions v with held := (s.versions v).held ++ [t] }).setFile t
             (s.files t).ref with mu := .building job v todo }
  | _ => none

/-- The new version becomes the current one.  `install` goes on to drop the old one; `Restore` unlocks
first. -/
def publishBuilt (s : Lifetimes) : Option Lifetimes :=
  match s.mu with
  | .building false v [] => some { s.publish v with mu := .dropping false s.current }
  | .building true v [] =>
    match s.job with
    | some ⟨.restore _, _, _, _⟩ =>
      some { (s.publish v).setPhase (.retiring s.current s.live) with mu := .free }
    | _ => some { s.publish v with mu := .dropping true s.current }
  | _ => none

def dropOld (s : Lifetimes) : Option Lifetimes :=
  match s.mu with
  | .dropping false old => some { s.unrefVersion old with mu := .free }
  | .dropping true old => some { (s.unrefVersion old).setPhase (.releasing false) with mu := .free }
  | _ => none

/-! ### Under `installMu` -/

def flush (s : Lifetimes) : Option Lifetimes :=
  if s.job = none then some { s with job := some ⟨.flush, none, [], .reading []⟩ } else none

/-- The compaction goroutine has no other compaction under way. -/
def compacts (s : Lifetimes) : Bool :=
  match s.job with
  | some ⟨.compact _, _, _, _⟩ => true
  | _ => false

/-- `pickCompaction`, under `d.mu`. -/
def pick (s : Lifetimes) (inputs : List ℕ) : Option Lifetimes :=
  if s.picked = none ∧ s.compacts = false ∧ s.mu = .free ∧ inputs ≠ [] ∧ ∀ t ∈ inputs, t ∈ s.live then
    some { s with picked := some inputs }
  else
    none

/-- The inputs are stale if the first of them is no longer there. -/
def compact (s : Lifetimes) : Option Lifetimes :=
  match s.picked with
  | some (t :: inputs) =>
    if s.job = none ∧ s.mu = .free then
      if t ∈ s.live then
        some { s with
          job := some ⟨.compact (t :: inputs), none, [], .reading (t :: inputs)⟩, picked := none }
      else
        some { s with picked := none }
    else
      none
  | _ => none

def restore (s : Lifetimes) (empty : Bool) : Option Lifetimes :=
  if s.job = none then
    some { s.make with job := some ⟨.restore empty, some s.nextTable, [], .reading [s.nextTable]⟩ }
  else
    none

def openNext (s : Lifetimes) : Option Lifetimes :=
  match s.job with
  | some ⟨task, out, iters, .reading (t :: todo)⟩ =>
    some { s.iter t with job := some ⟨task, out, iters ++ [s.iters.length], .reading todo⟩ }
  | _ => none

/-- The iterators of the job are closed. -/
def doneReading (s : Lifetimes) (j : InstallJob) : Prop :=
  j.phase = .reading [] ∧ ∀ i ∈ j.iters, s.iters[i]? = some none

instance (s : Lifetimes) (j : InstallJob) : Decidable (s.doneReading j) :=
  inferInstanceAs (Decidable (_ ∧ _))

/-- `writeTable` has a table to return. -/
def write (s : Lifetimes) : Option Lifetimes :=
  match s.job with
  | some j =>
    if s.doneReading j ∧ j.out = none then
      some { s.make with job := some { j with out := some s.nextTable } }
    else
      none
  | none => none

/-- An error before the MANIFEST is written.  A flush and a compaction leave their table as it is. -/
def fail (s : Lifetimes) (remove : Bool) : Option Lifetimes :=
  match s.job with
  | some j =>
    if s.doneReading j then
      match j.task with
      | .restore _ => some (s.setPhase (.releasing remove))
      | _ => some { s with job := none }
    else
      none
  | none => none

/-- The MANIFEST is written. -/
def commit (s : Lifetimes) : Option Lifetimes :=
  match s.job with
  | some j => if s.doneReading j then some (s.setPhase (.marking j.task.inputs)) else none
  | none => none

/-- `t.gone.Store(true)` -/
def mark (s : Lifetimes) : Option Lifetimes :=
  match s.job with
  | some ⟨_, _, _, .marking (t :: todo)⟩ =>
    some ((s.setFile t (s.files t).mark).setPhase (.marking todo))
  | some ⟨_, _, _, .retiring old (t :: todo)⟩ =>
    some ((s.setFile t (s.files t).mark).setPhase (.retiring old todo))
  | _ => none

def install (s : Lifetimes) : Option Lifetimes :=
  match s.job with
  | some j =>
    if j.phase = .marking [] ∧ s.mu = .free then
      some ((s.build true (j.tables s.live)).setPhase .installing)
    else
      none
  | none => none

/-- `Restore` drops the version it replaced. -/
def dropReplaced (s : Lifetimes) : Option Lifetimes :=
  match s.job with
  | some ⟨.restore empty, _, _, .retiring old []⟩ =>
    some ((s.unrefVersion old).setPhase (.releasing empty))
  | _ => none

def letGo (s : Lifetimes) : Option Lifetimes :=
  match s.job with
  | some ⟨_, some t, _, .releasing remove⟩ =>
    let s' := { s.setFile t (s.files t).unref with creator := update s.creator t false }
    some (if remove then s'.setPhase .removing else { s' with job := none })
  | some ⟨_, none, _, .releasing _⟩ => some { s with job := none }
  | _ => none

def removeFile (s : Lifetimes) : Option Lifetimes :=
  match s.job with
  | some ⟨_, some t, _, .removing⟩ => some { s.setFile t (s.files t).remove with job := none }
  | _ => none

def step (s : Lifetimes) : LifeEvent → Option Lifetimes
  | .acquire => s.acquire
  | .openIter r t => s.openIter r t
  | .closeIter i => s.closeIter i
  | .release r => s.release r
  | .dropTable v => s.dropTable v
  | .closeFile t => s.closeFile t
  | .unlinkFile t => s.unlinkFile t
  | .rotate => s.rotate
  | .refTable => s.refTable
  | .publish => s.publishBuilt
  | .dropOld => s.dropOld
  | .flush => s.flush
  | .pick inputs => s.pick inputs
  | .compact => s.compact
  | .restore empty => s.restore empty
  | .openNext => s.openNext
  | .write => s.write
  | .fail remove => s.fail remove
  | .commit => s.commit
  | .mark => s.mark
  | .install => s.install
  | .dropReplaced => s.dropReplaced
  | .letGo => s.letGo
  | .removeFile => s.removeFile

/-- `Open` with `n` tables in the MANIFEST: the first version holds them all. -/
def opened (n : ℕ) : Lifetimes where
  files t := if t < n then .made else {}
  creator _ := false
  nextTable := n
  versions v := if v = 0 then ⟨List.range n, 1, List.range n⟩ else {}
  nextVersion := 1
  current := 0

end Lifetimes

def lifetimes : Machine Lifetimes LifeEvent Unit where
  exec s e := (s.step e).map fun s' => (s', [])

end Keystone.Storage
