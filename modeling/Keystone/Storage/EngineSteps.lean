/-
# Keystone.Storage.EngineSteps — every step of the engine is a step of a map with snapshots.

`Account` is what a storage engine is for: a map, and for every reader the map as it was when the reader
came.  It is kept from what the engine shows alone.  A group of batches changes the map when it is
published, all of it at once; a `Restore` replaces the map; a reader's answers come from its own map.

`Running A s done` connects the running engine to its account.  A commit that is under way has inserted the
operations `done` into the memtable, and nobody sees them yet: under the published sequence number the
current version shows the account's map, and under the number of the last insertion the map with `done`
written to it.  Each step keeps this, with one lemma for each step; `step_kept` puts them together.

Nothing here looks at the directory, so what readers see does not depend on what can be recovered.
-/
import Keystone.Storage.EngineVersions

namespace Keystone.Storage

open Keystone.Lib
open Keystone.Lib.Tiers (Cell Cursor)
open Function (update)

/-! ## The account. -/

/-- What a reader will see: the map, and what its iterator still has to yield. -/
structure Capture where
  map : KVMap
  rest : List (Key × Bytes) := []

structure Account where
  map : KVMap := ∅
  /-- The versions of keys that were committed or restored so far. -/
  cells : List KeyVersion := []
  /-- A group of batches that is being written, and its first sequence number. -/
  pending : Option (ℕ × List Batch) := none
  /-- The table of a `Restore` that has not taken effect. -/
  incoming : Option (List KeyVersion) := none
  readers : ℕ → Option Capture := fun _ => none

/-- The versions of a list of operations, the first one with sequence number `seq`. -/
def cellsFrom : ℕ → List BatchOp → List KeyVersion
  | _, [] => []
  | seq, op :: ops => cellOf seq op :: cellsFrom (seq + 1) ops

namespace Account

/-- The versions of the group that is being written. -/
def issued (A : Account) : List KeyVersion := A.pending.elim [] fun p => cellsFrom p.1 p.2.flatten

def note (A : Account) : EngineObs → Account
  | .began first group => { A with pending := some (first, group) }
  | .wrote group =>
    { A with map := A.map.write group.flatten, cells := A.cells ++ A.issued, pending := none }
  | .restoring snap => { A with incoming := some snap }
  | .restored snap => { A with map := mapOf snap, cells := A.cells ++ snap, incoming := none }
  | .aborted => { A with incoming := none }
  | .acquired r => { A with readers := update A.readers r (some ⟨A.map, []⟩) }
  | .got _ _ _ => A
  | .opened r start stop =>
    { A with readers := update A.readers r ((A.readers r).map fun c =>
        { c with rest := c.map.scan start stop }) }
  | .yielded r _ =>
    { A with readers := update A.readers r ((A.readers r).map fun c => { c with rest := c.rest.tail }) }

/-- What may be shown: a read answers from the reader's own map, and `Write` returns for the group that
is being written. -/
def Allows (A : Account) : EngineObs → Prop
  | .wrote group => ∃ first, A.pending = some (first, group)
  | .restored snap => A.incoming = some snap
  | .got r key value => ∃ c, A.readers r = some c ∧ value = c.map[key]?
  | .yielded r e => ∃ c, A.readers r = some c ∧ e.map pairOf = c.rest.head?
  | _ => True

end Account

/-! ## The invariant. -/

/-- A tier after an insertion that a reader with the bound `seq` does not see. -/
structure Outgrown (seq : ℕ) (t t' : List KeyVersion) : Prop where
  orderly : Orderly t'
  seen : cutAt seq t' = cutAt seq t
  keeps : ∀ e ∈ t, e ∈ t'

/-- What a reader holds. -/
structure ReaderOK (s : Engine) (rd : Reader) (c : Capture) : Prop where
  shows : Shows s.mems rd.v rd.seq c.map
  seq : rd.seq ≤ s.seq
  segs : ∀ g ∈ rd.v.segs, g ≤ s.cur.mem
  iter : ∀ it, rd.iter = some it → IterOK s.mems it ∧ it.seq = rd.seq ∧
    (∀ x ∈ it.children, x.src ∈ rd.v.children) ∧ (it.ahead s.mems).map pairOf = c.rest

/-- How far the commit is. -/
def WriterOK (A : Account) (s : Engine) (done : List BatchOp) : Prop :=
  match s.writer with
  | .idle => A.pending = none ∧ done = []
  | .ready group => A.pending = some (s.seq + 1, group) ∧ group.all Batch.accepted = true ∧ done = []
  | .appended group seg =>
    A.pending = some (s.seq + 1, group) ∧ group.all Batch.accepted = true ∧ done = [] ∧ seg = s.wal.seg
  | .inserting group todo next =>
    A.pending = some (s.seq + 1, group) ∧ group.all Batch.accepted = true ∧
      group.flatten = done ++ todo ∧ next = s.seq + 1 + done.length ∧ s.cur.mem = s.wal.seg

/-- The work is about the current version. -/
def Suits (s : Engine) : Work → Prop
  | .flush seg => ∃ rest, s.cur.imm = seg :: rest
  | .compact inputs => inputs ≠ [] ∧ inputs <:+: s.cur.tables
  | .restore _ => s.writer = .idle

/-- The number of a table that is not in the current version. -/
def Fresh (s : Engine) (num : ℕ) : Prop := num < s.nextNum ∧ num ∉ s.cur.tables.map Table.num

/-- The table the work has written. -/
def Made (s : Engine) (t : Option Table) : Work → Prop
  | .flush seg => Finished t (s.entriesOf (.flush seg)) ∧ ∀ u ∈ t.toList, Fresh s u.num
  | .compact inputs => Finished t (s.entriesOf (.compact inputs)) ∧ ∀ u ∈ t.toList, Fresh s u.num
  | .restore snap => ∃ num, t = some ⟨num, snap⟩ ∧ Fresh s num

/-- `Restore` has taken over the sequence numbers and begun a segment. -/
def Turned (s : Engine) : Work → Prop
  | .restore snap => s.cur.mem < s.wal.seg ∧ maxSeqOf snap ≤ s.seq
  | _ => True

def PhaseOK (s : Engine) (w : Work) : Phase → Prop
  | .writing num => Suits s w ∧ Fresh s num
  | .written t => Suits s w ∧ Made s t w
  | .rotated t => Suits s w ∧ Made s t w ∧ Turned s w ∧ ∃ snap, w = .restore snap
  | .staged t man => Suits s w ∧ Made s t w ∧ Turned s w ∧ man = s.manifestOf t w
  | .renamed t man =>
    Suits s w ∧ Made s t w ∧ Turned s w ∧ man = s.manifestOf t w ∧ ∀ snap, w = .restore snap → Orderly snap
  | .cleaning _ => True

/-- The table of a `Restore` that has not taken effect. -/
def Job.incoming : Job → Option (List KeyVersion)
  | .busy (.restore _) (.cleaning _) => none
  | .busy (.restore snap) _ => some snap
  | _ => none

def JobOK (s : Engine) : Prop :=
  match s.job with
  | .idle => True
  | .busy w p => PhaseOK s w p

/-- The running engine, the account of what it has shown, and the operations that are inserted and not
published. -/
structure Running (A : Account) (s : Engine) (done : List BatchOp) : Prop where
  shows : Shows s.mems s.cur s.seq A.map
  full : Shows s.mems s.cur (s.seq + done.length) (A.map.write done)
  below : ∀ e, s.cur.Has s.mems e → seqOf e ≤ s.seq + done.length
  frozen : ∀ g ∈ s.cur.imm, Below s.seq (s.mems g).entries
  tables : ∀ u ∈ s.cur.tables, Below s.seq u.entries
  known : ∀ e, s.cur.Has s.mems e → e ∈ A.cells ++ cellsFrom (s.seq + 1) done
  segs : s.cur.segs.Pairwise (· < ·)
  walSeg : s.cur.mem ≤ s.wal.seg
  nums : (s.cur.tables.map Table.num).Nodup
  fresh : ∀ u ∈ s.cur.tables, u.num < s.nextNum
  writer : WriterOK A s done
  job : JobOK s
  incoming : A.incoming = s.job.incoming
  readers : ∀ r rd, s.readers r = some rd → ∃ c, A.readers r = some c ∧ ReaderOK s rd c

/-- A step keeps the invariant and shows only what the account allows. -/
def Kept (A : Account) (f : Effect) : Prop :=
  (∃ done, Running (f.obs.foldl Account.note A) f.engine done) ∧
    ∀ pre o post, f.obs = pre ++ o :: post → (pre.foldl Account.note A).Allows o

variable {A : Account} {s s' : Engine} {done : List BatchOp} {f : Effect} {limit : ℕ} {d : Dir}

theorem kept_of_silent (hobs : f.obs = []) (h : ∃ done, Running A f.engine done) : Kept A f := by
  refine ⟨hobs ▸ h, fun pre o post heq => ?_⟩
  rw [hobs] at heq
  simp at heq

theorem kept_of_one {o : EngineObs} (hobs : f.obs = [o]) (h : ∃ done, Running (A.note o) f.engine done)
    (ho : A.Allows o) : Kept A f := by
  refine ⟨hobs ▸ h, fun pre o' post heq => ?_⟩
  rw [hobs] at heq
  cases pre with
  | nil =>
    obtain ⟨rfl, -⟩ := List.cons.inj heq
    exact ho
  | cons x pre => simp at heq

/-! ## What a step leaves alone. -/

theorem Outgrown.refl {t : List KeyVersion} (h : Orderly t) (seq : ℕ) : Outgrown seq t t :=
  ⟨h, rfl, fun _ he => he⟩

/-- Growth above the bound leaves what a version shows. -/
theorem Shows.outgrown {mems mems' : ℕ → Memtable} {v : Version} {seq : ℕ} {m : KVMap}
    (h : Shows mems v seq m)
    (hg : ∀ g ∈ v.segs, Outgrown seq (mems g).entries (mems' g).entries) : Shows mems' v seq m := by
  rw [shows_iff] at h ⊢
  have hcut : (v.tiers mems').map (cutAt seq) = (v.tiers mems).map (cutAt seq) := by
    unfold Version.tiers
    rw [List.map_append, List.map_append]
    congr 1
    rw [List.map_map, List.map_map]
    exact List.map_congr_left fun g hseg => (hg g (List.mem_reverse.mp hseg)).seen
  refine ⟨fun t ht => ?_, hcut ▸ h.ranked, hcut ▸ h.reads⟩
  rcases Version.mem_tiers.mp ht with ⟨g, hseg, rfl⟩ | ⟨u, hu, rfl⟩
  · exact (hg g hseg).orderly
  · exact h.orderly _ (Version.mem_tiers.mpr (.inr ⟨u, hu, rfl⟩))

theorem Shows.orderly_seg {mems : ℕ → Memtable} {v : Version} {seq g : ℕ} {m : KVMap}
    (h : Shows mems v seq m) (hg : g ∈ v.segs) : Orderly (mems g).entries :=
  (shows_iff.mp h).orderly _ (Version.mem_tiers.mpr (.inl ⟨g, hg, rfl⟩))

/-- What a step may do to the memtables that readers hold. -/
structure Onward (s s' : Engine) : Prop where
  seq : s.seq ≤ s'.seq
  mem : s.cur.mem ≤ s'.cur.mem
  mems : ∀ g ≤ s.cur.mem, s'.mems g = s.mems g ∨
    ∀ b ≤ s.seq, Outgrown b (s.mems g).entries (s'.mems g).entries

theorem mem_segs_of_child {v : Version} {g : ℕ} (h : Tier.memtable g ∈ v.children) : g ∈ v.segs := by
  unfold Version.children at h
  unfold Version.segs
  simpa [or_comm] using h

/-- What an iterator has ahead of it is what is under its bound. -/
theorem ahead_congr {mems mems' : ℕ → Memtable} {it : DbIter}
    (h : ∀ x ∈ it.children, cutAt it.seq (x.src.entries mems') = cutAt it.seq (x.src.entries mems)) :
    it.ahead mems' = it.ahead mems := by
  unfold DbIter.ahead
  rw [Tiers.pending_congr h]

theorem ReaderOK.onward {rd : Reader} {c : Capture} (h : ReaderOK s rd c) (hs : Onward s s') :
    ReaderOK s' rd c := by
  have hgrown : ∀ g ∈ rd.v.segs, Outgrown rd.seq (s.mems g).entries (s'.mems g).entries := by
    intro g hg
    rcases hs.mems g (h.segs g hg) with hsame | hgrown
    · rw [hsame]
      exact .refl (h.shows.orderly_seg hg) _
    · exact hgrown rd.seq h.seq
  refine ⟨h.shows.outgrown hgrown, h.seq.trans hs.seq, fun g hg => (h.segs g hg).trans hs.mem, ?_⟩
  intro it hit
  obtain ⟨hok, hseq, hsrc, hahead⟩ := h.iter it hit
  have htier : ∀ x ∈ it.children, Outgrown rd.seq (x.src.entries s.mems) (x.src.entries s'.mems) := by
    intro x hx
    have hin := hsrc x hx
    cases hs : x.src with
    | memtable g => exact hgrown g (mem_segs_of_child (hs ▸ hin))
    | table u =>
      have hstrict := (hok.placed x hx).1
      have hclean := hok.clean x hx
      rw [hs] at hstrict hclean
      exact .refl ⟨hstrict, hclean⟩ _
  refine ⟨⟨fun x hx => ?_, fun x hx => (htier x hx).orderly.clean⟩, hseq, hsrc, ?_⟩
  · exact ⟨(htier x hx).orderly.strict, fun e he => (htier x hx).keeps e ((hok.placed x hx).2 e he)⟩
  · have hsame : it.ahead s'.mems = it.ahead s.mems :=
      ahead_congr fun x hx => by rw [hseq, (htier x hx).seen]
    rw [hsame]
    exact hahead

/-- The readers of a step that does not look at them. -/
theorem Running.readers_onward (h : Running A s done) (hs : Onward s s') (hrd : s'.readers = s.readers) :
    ∀ r rd, s'.readers r = some rd → ∃ c, A.readers r = some c ∧ ReaderOK s' rd c := by
  intro r rd hr
  rw [hrd] at hr
  obtain ⟨c, hc, hok⟩ := h.readers r rd hr
  exact ⟨c, hc, hok.onward hs⟩

theorem Running.readers_kept (h : Running A s done) (hseq : s'.seq = s.seq) (hmem : s'.cur.mem = s.cur.mem)
    (hmems : s'.mems = s.mems) (hrd : s'.readers = s.readers) :
    ∀ r rd, s'.readers r = some rd → ∃ c, A.readers r = some c ∧ ReaderOK s' rd c :=
  h.readers_onward ⟨hseq.ge, hmem.ge, fun g _ => .inl (congrFun hmems g)⟩ hrd

/-- What the work that is under way depends on. -/
structure SameWork (s s' : Engine) : Prop where
  job : s'.job = s.job
  tables : s'.cur.tables = s.cur.tables
  nextNum : s'.nextNum = s.nextNum
  flushedSeq : s'.flushedSeq = s.flushedSeq
  imm : ∃ more, s'.cur.imm = s.cur.imm ++ more
  oldest : s'.oldestSegment = s.oldestSegment
  mems : ∀ g ∈ s.cur.imm, s'.mems g = s.mems g
  restore : s.job.incoming ≠ none →
    s'.writer = s.writer ∧ s'.wal = s.wal ∧ s'.seq = s.seq ∧ s'.cur.mem = s.cur.mem

section SameWork

variable {w : Work} {t : Option Table} (hs : SameWork s s')
  (hr : ∀ snap, w = .restore snap →
    s'.writer = s.writer ∧ s'.wal = s.wal ∧ s'.seq = s.seq ∧ s'.cur.mem = s.cur.mem)

include hs

theorem SameWork.fresh {num : ℕ} (h : Fresh s num) : Fresh s' num := by
  unfold Fresh
  rw [hs.nextNum, hs.tables]
  exact h

theorem SameWork.head {seg : ℕ} {rest : List ℕ} (h : s.cur.imm = seg :: rest) :
    (∃ rest', s'.cur.imm = seg :: rest') ∧ s'.mems seg = s.mems seg := by
  obtain ⟨more, hmore⟩ := hs.imm
  refine ⟨⟨rest ++ more, by rw [hmore, h, List.cons_append]⟩, hs.mems seg ?_⟩
  rw [h]
  exact List.mem_cons_self ..

theorem SameWork.entries (h : Suits s w) : s'.entriesOf w = s.entriesOf w := by
  cases w with
  | flush seg =>
    obtain ⟨rest, himm⟩ := h
    show tableEntries false (s'.mems seg).entries = tableEntries false (s.mems seg).entries
    rw [(hs.head himm).2]
  | compact inputs =>
    show tableEntries _ _ = tableEntries _ _
    rw [hs.tables]
  | restore snap => rfl

theorem SameWork.made (hsuits : Suits s w) (h : Made s t w) : Made s' t w := by
  cases w with
  | flush seg =>
    refine ⟨?_, fun u hu => hs.fresh (h.2 u hu)⟩
    rw [hs.entries hsuits]
    exact h.1
  | compact inputs =>
    refine ⟨?_, fun u hu => hs.fresh (h.2 u hu)⟩
    rw [hs.entries hsuits]
    exact h.1
  | restore snap =>
    obtain ⟨num, ht, hnum⟩ := h
    exact ⟨num, ht, hs.fresh hnum⟩

include hr

theorem SameWork.suits (h : Suits s w) : Suits s' w := by
  cases w with
  | flush seg =>
    obtain ⟨rest, himm⟩ := h
    exact (hs.head himm).1
  | compact inputs =>
    refine ⟨h.1, ?_⟩
    rw [hs.tables]
    exact h.2
  | restore snap => exact (hr snap rfl).1.trans h

omit hs in
theorem turned_of_same (h : Turned s w) : Turned s' w := by
  cases w with
  | flush seg => trivial
  | compact inputs => trivial
  | restore snap =>
    obtain ⟨-, hwal, hseq, hmem⟩ := hr snap rfl
    show s'.cur.mem < s'.wal.seg ∧ maxSeqOf snap ≤ s'.seq
    rw [hwal, hseq, hmem]
    exact h

theorem SameWork.manifest : s'.manifestOf t w = s.manifestOf t w := by
  unfold Engine.manifestOf
  cases w with
  | flush seg => simp only [hs.nextNum, hs.flushedSeq, hs.tables]
  | compact inputs => simp only [hs.nextNum, hs.flushedSeq, hs.tables, hs.oldest]
  | restore snap => simp only [hs.nextNum, (hr snap rfl).2.1]

theorem SameWork.phase {p : Phase} (h : PhaseOK s w p) : PhaseOK s' w p := by
  cases p with
  | writing num => exact ⟨hs.suits hr h.1, hs.fresh h.2⟩
  | written t => exact ⟨hs.suits hr h.1, hs.made h.1 h.2⟩
  | rotated t => exact ⟨hs.suits hr h.1, hs.made h.1 h.2.1, turned_of_same hr h.2.2.1, h.2.2.2⟩
  | staged t man =>
    obtain ⟨hsuits, hmade, hturned, hman⟩ := h
    exact ⟨hs.suits hr hsuits, hs.made hsuits hmade, turned_of_same hr hturned, hman.trans (hs.manifest hr).symm⟩
  | renamed t man =>
    obtain ⟨hsuits, hmade, hturned, hman, hsnap⟩ := h
    exact ⟨hs.suits hr hsuits, hs.made hsuits hmade, turned_of_same hr hturned,
      hman.trans (hs.manifest hr).symm, hsnap⟩
  | cleaning keep => trivial

end SameWork

theorem SameWork.jobOK (hs : SameWork s s') (h : JobOK s) : JobOK s' := by
  unfold JobOK at h ⊢
  rw [hs.job]
  cases hjob : s.job with
  | idle => trivial
  | busy w p =>
    rw [hjob] at h
    cases p with
    | cleaning keep => trivial
    | _ =>
      refine hs.phase (fun snap hw => hs.restore ?_) h
      rw [hjob, hw]
      exact Option.some_ne_none _

/-! ## `commit`. -/

theorem restoring_of_incoming {j : Job} (h : j.incoming ≠ none) : j.restoring = true := by
  cases j with
  | idle => exact absurd rfl h
  | busy w p =>
    cases w with
    | flush seg => exact absurd rfl h
    | compact inputs => exact absurd rfl h
    | restore snap => rfl

/-- While a commit is under way no `Restore` is. -/
theorem Running.incoming_none (h : Running A s done) (hw : s.writer ≠ .idle) : s.job.incoming = none := by
  by_contra hne
  have hjob := h.job
  unfold JobOK at hjob
  cases hj : s.job with
  | idle =>
    rw [hj] at hne
    exact hne rfl
  | busy w p =>
    rw [hj] at hne hjob
    cases w with
    | flush seg => exact hne rfl
    | compact inputs => exact hne rfl
    | restore snap =>
      cases p with
      | cleaning keep => exact hne rfl
      | _ => exact hw hjob.1

theorem Running.writer_at (h : Running A s done) {w : Writer} (hw : s.writer = w) :
    WriterOK A { s with writer := w } done := by
  subst hw
  exact h.writer

/-- A commit goes on; of the engine only the WAL and the writer change. -/
theorem Running.with_writer (h : Running A s done) {p : Option (ℕ × List Batch)} {wal : Wal} {w : Writer}
    (hnone : s.job.incoming = none) (hwal : s.wal.seg ≤ wal.seg)
    (hw : WriterOK { A with pending := p } { s with wal := wal, writer := w } done) :
    Running { A with pending := p } { s with wal := wal, writer := w } done := by
  have hsame : SameWork s { s with wal := wal, writer := w } :=
    ⟨rfl, rfl, rfl, rfl, ⟨[], (List.append_nil _).symm⟩, rfl, fun _ _ => rfl, fun hne => absurd hnone hne⟩
  exact
    { h with
      walSeg := h.walSeg.trans hwal
      writer := hw
      job := hsame.jobOK h.job
      readers := h.readers_kept rfl rfl rfl rfl }

theorem begin_kept (h : Running A s done) {group : List Batch} (hs : s.begin limit group = some f) :
    Kept A f := by
  unfold Engine.begin at hs
  split at hs
  · cases hs
  · next hpre =>
    simp only [not_or, ne_eq, not_not, Bool.not_eq_true, Bool.not_eq_false] at hpre
    obtain ⟨hw, hjob, -, -, hgroup⟩ := hpre
    obtain ⟨-, rfl⟩ := h.writer_at hw
    have hnone : s.job.incoming = none := by
      by_contra hne
      rw [restoring_of_incoming hne] at hjob
      cases hjob
    split at hs
    · obtain rfl := Option.some.inj hs
      exact kept_of_one rfl ⟨[], h.with_writer hnone (Nat.le_refl _) ⟨rfl, hgroup, rfl⟩⟩ trivial
    · split at hs
      · cases hs
      · obtain rfl := Option.some.inj hs
        exact kept_of_one rfl ⟨[], h.with_writer hnone (Nat.le_succ _) ⟨rfl, hgroup, rfl⟩⟩ trivial

theorem wal_append_seg (segmentSize : ℕ) (w : Wal) (ps : List Bytes) :
    w.seg ≤ (w.append segmentSize ps).1.seg := by
  unfold Wal.append
  dsimp only
  split
  · exact Nat.le_succ _
  · exact Nat.le_refl _

theorem append_kept (h : Running A s done) (hs : s.append limit = some f) : Kept A f := by
  unfold Engine.append at hs
  split at hs
  · next group hw =>
    obtain rfl := Option.some.inj hs
    obtain ⟨hpend, hgroup, rfl⟩ := h.writer_at hw
    have hnone := h.incoming_none (by simp [hw])
    exact kept_of_silent rfl
      ⟨[], h.with_writer (p := A.pending) hnone (wal_append_seg ..) ⟨hpend, hgroup, rfl, rfl⟩⟩
  · cases hs

theorem Running.imm_lt (h : Running A s done) : ∀ g ∈ s.cur.imm, g < s.cur.mem := fun g hg =>
  (List.pairwise_append.mp h.segs).2.2 g hg _ (List.mem_singleton_self _)

theorem Running.segs_le (h : Running A s done) : ∀ g ∈ s.cur.segs, g ≤ s.cur.mem := by
  intro g hg
  rcases List.mem_append.mp hg with hg | hg
  · exact (h.imm_lt g hg).le
  · exact (List.mem_singleton.mp hg).le

theorem mem_mem_segs (v : Version) : v.mem ∈ v.segs := List.mem_append_right _ (List.mem_singleton_self _)

theorem has_of_frozen {mems : ℕ → Memtable} {v : Version} {seg : ℕ} {e : KeyVersion} (hseg : seg ∉ v.segs)
    (he : (v.withMemtable seg).Has (update mems seg {}) e) : v.Has mems e := by
  obtain ⟨t, ht, het⟩ := he
  rw [Version.tiers_frozen hseg] at ht
  rcases List.mem_cons.mp ht with rfl | ht
  · exact absurd het List.not_mem_nil
  · exact ⟨t, ht, het⟩

/-- The memtable is frozen, and the record's segment gets a new one. -/
theorem Running.install_new (h : Running A s []) {group : List Batch} (hpend : A.pending = some (s.seq + 1, group))
    (hgroup : group.all Batch.accepted = true) (hnone : s.job.incoming = none)
    (hlt : s.cur.mem < s.wal.seg) :
    Running A { s with
      cur := s.cur.withMemtable s.wal.seg, mems := update s.mems s.wal.seg {}
      writer := .inserting group group.flatten (s.seq + 1) } [] := by
  have hnot : s.wal.seg ∉ s.cur.segs := fun hin => Nat.not_lt.mpr (h.segs_le _ hin) hlt
  have hkeep : ∀ g ≤ s.cur.mem, update s.mems s.wal.seg {} g = s.mems g := fun g hg =>
    Function.update_of_ne (Nat.ne_of_lt (hg.trans_lt hlt)) _ _
  have hsame : SameWork s { s with
      cur := s.cur.withMemtable s.wal.seg, mems := update s.mems s.wal.seg {}
      writer := .inserting group group.flatten (s.seq + 1) } := by
    refine ⟨rfl, rfl, rfl, rfl, ⟨[s.cur.mem], rfl⟩, ?_, fun g hg => ?_, fun hne => absurd hnone hne⟩
    · show (s.cur.imm ++ [s.cur.mem]).headD s.wal.seg = s.cur.imm.headD s.cur.mem
      cases s.cur.imm <;> rfl
    · exact hkeep g (h.imm_lt g hg).le
  refine
    { h with
      shows := h.shows.frozen hnot
      full := h.full.frozen hnot
      below := fun e he => h.below e (has_of_frozen hnot he)
      frozen := fun g hg => ?_
      known := fun e he => h.known e (has_of_frozen hnot he)
      segs := ?_
      walSeg := Nat.le_refl _
      writer := ⟨hpend, hgroup, rfl, rfl, rfl⟩
      job := hsame.jobOK h.job
      readers := h.readers_onward ⟨Nat.le_refl _, hlt.le, fun g hg => .inl (hkeep g hg)⟩ rfl }
  · have hg : g ∈ s.cur.segs := hg
    show Below s.seq (update s.mems s.wal.seg {} g).entries
    rw [hkeep g (h.segs_le g hg)]
    exact fun e he => h.below e (Version.has_of_seg hg he)
  · rw [Version.segs_withMemtable]
    refine List.pairwise_append.mpr ⟨h.segs, List.pairwise_singleton _ _, fun g hg x hx => ?_⟩
    rw [List.mem_singleton.mp hx]
    exact (h.segs_le g hg).trans_lt hlt

theorem install_kept (h : Running A s done) (hs : s.install = some f) : Kept A f := by
  unfold Engine.install at hs
  split at hs
  · next group seg hw =>
    dsimp only at hs
    obtain ⟨hpend, hgroup, rfl, (rfl : seg = s.wal.seg)⟩ := h.writer_at hw
    have hnone := h.incoming_none (by simp [hw])
    split at hs
    · next hne =>
      obtain rfl := Option.some.inj hs
      exact kept_of_silent rfl
        ⟨[], h.install_new hpend hgroup hnone (Nat.lt_of_le_of_ne h.walSeg (Ne.symm hne))⟩
    · next heq =>
      obtain rfl := Option.some.inj hs
      exact kept_of_silent rfl ⟨[], h.with_writer (p := A.pending) hnone (Nat.le_refl _)
        ⟨hpend, hgroup, rfl, rfl, (not_not.mp heq).symm⟩⟩
  · cases hs

theorem key_ne_nil_of_accepted {group : List Batch} {op : BatchOp} (h : group.all Batch.accepted = true)
    (hop : op ∈ group.flatten) : op.key ≠ [] := by
  obtain ⟨b, hb, hop⟩ := List.mem_flatten.mp hop
  have hacc := List.all_eq_true.mp h b hb
  unfold Batch.accepted at hacc
  rw [Bool.and_eq_true, List.all_eq_true] at hacc
  intro hnil
  have := hacc.2 op hop
  rw [hnil] at this
  cases this

theorem cellsFrom_append (seq : ℕ) (a b : List BatchOp) :
    cellsFrom seq (a ++ b) = cellsFrom seq a ++ cellsFrom (seq + a.length) b := by
  induction a generalizing seq with
  | nil => rfl
  | cons op a ih =>
    rw [List.cons_append, cellsFrom, cellsFrom, ih, List.cons_append, List.length_cons,
      Nat.add_assoc, Nat.add_comm 1]

theorem Version.tiers_cons (v : Version) (mems : ℕ → Memtable) :
    v.tiers mems = (mems v.mem).entries ::
      (v.imm.reverse.map (fun g => (mems g).entries) ++ v.tables.map Table.entries) := by
  unfold Version.tiers Version.segs
  rw [List.reverse_append, List.reverse_singleton, List.singleton_append, List.map_cons, List.cons_append]

theorem Version.tiers_update {v : Version} {mems : ℕ → Memtable} (mt : Memtable) (h : v.mem ∉ v.imm) :
    v.tiers (update mems v.mem mt) = mt.entries ::
      (v.imm.reverse.map (fun g => (mems g).entries) ++ v.tables.map Table.entries) := by
  rw [Version.tiers_cons, Function.update_self]
  have hrest : v.imm.reverse.map (fun g => (update mems v.mem mt g).entries) =
      v.imm.reverse.map fun g => (mems g).entries :=
    List.map_congr_left fun g hg => by
      rw [Function.update_of_ne (ne_of_mem_of_not_mem (List.mem_reverse.mp hg) h)]
  rw [hrest]

/-- An insertion above the bound. -/
theorem outgrown_insert {seq : ℕ} {t : List KeyVersion} {c : KeyVersion} (ht : Orderly t) (hc : Clean c)
    (hnew : ∀ x ∈ t, seqOf x < seqOf c) (hseq : seq < seqOf c) : Outgrown seq t (Tiers.insert c t) := by
  refine ⟨orderly_insert ht hc hnew, Tiers.upTo_insert_of_lt ?_ t, fun e he => Tiers.mem_insert.mpr (.inr he)⟩
  exact Nat.lt_of_not_le fun hle => Nat.not_le.mpr hseq (hc.le_trailer_iff.mp hle)

/-- One operation goes into the memtable. -/
theorem Running.insert (h : Running A s done) {group : List Batch} {op : BatchOp} {todo : List BatchOp}
    (hpend : A.pending = some (s.seq + 1, group)) (hgroup : group.all Batch.accepted = true)
    (hnone : s.job.incoming = none) (hflat : group.flatten = done ++ op :: todo)
    (hmem : s.cur.mem = s.wal.seg) :
    Running A { s with
      mems := update s.mems s.cur.mem ((s.mems s.cur.mem).put (s.seq + 1 + done.length) op.raw)
      writer := .inserting group todo (s.seq + 1 + done.length + 1) } (done ++ [op]) := by
  have hkey : op.key ≠ [] :=
    key_ne_nil_of_accepted hgroup (hflat ▸ List.mem_append_right _ (List.mem_cons_self ..))
  have hnotin : s.cur.mem ∉ s.cur.imm := fun hin => Nat.lt_irrefl _ (h.imm_lt _ hin)
  have hseq : s.seq + 1 + done.length = s.seq + done.length + 1 := by omega
  have hentries : ((s.mems s.cur.mem).put (s.seq + 1 + done.length) op.raw).entries =
      Tiers.insert (cellOf (s.seq + done.length + 1) op) (s.mems s.cur.mem).entries := by
    rw [entries_put, hseq]
  generalize (s.mems s.cur.mem).put (s.seq + 1 + done.length) op.raw = mt at hentries ⊢
  have horderly : Orderly (s.mems s.cur.mem).entries := h.shows.orderly_seg (mem_mem_segs _)
  have hnew : ∀ x ∈ (s.mems s.cur.mem).entries, seqOf x < seqOf (cellOf (s.seq + done.length + 1) op) := by
    intro x hx
    rw [seqOf_cellOf]
    exact Nat.lt_succ_of_le (h.below x (Version.has_of_seg (mem_mem_segs _) hx))
  have hgrown : ∀ b ≤ s.seq, Outgrown b (s.mems s.cur.mem).entries mt.entries := by
    intro b hb
    rw [hentries]
    refine outgrown_insert horderly (clean_cellOf _ hkey) hnew ?_
    rw [seqOf_cellOf]
    omega
  have hother : ∀ g ∈ s.cur.imm, update s.mems s.cur.mem mt g = s.mems g := fun g hg =>
    Function.update_of_ne (ne_of_mem_of_not_mem hg hnotin) _ _
  have hmems : ∀ g, update s.mems s.cur.mem mt g = s.mems g ∨
      ∀ b ≤ s.seq, Outgrown b (s.mems g).entries (update s.mems s.cur.mem mt g).entries := by
    intro g
    by_cases hg : g = s.cur.mem
    · subst hg
      rw [Function.update_self]
      exact .inr hgrown
    · exact .inl (Function.update_of_ne hg _ _)
  have hhas : ∀ e, s.cur.Has (update s.mems s.cur.mem mt) e →
      e = cellOf (s.seq + done.length + 1) op ∨ s.cur.Has s.mems e := by
    rintro e ⟨t, ht, he⟩
    rw [Version.tiers_update _ hnotin] at ht
    rcases List.mem_cons.mp ht with rfl | ht
    · rw [hentries] at he
      exact (Tiers.mem_insert.mp he).imp id fun he => Version.has_of_seg (mem_mem_segs _) he
    · refine .inr ⟨t, ?_, he⟩
      rw [Version.tiers_cons]
      exact List.mem_cons_of_mem _ ht
  have hsame : SameWork s { s with
      mems := update s.mems s.cur.mem mt
      writer := .inserting group todo (s.seq + 1 + done.length + 1) } :=
    ⟨rfl, rfl, rfl, rfl, ⟨[], (List.append_nil _).symm⟩, rfl, hother, fun hne => absurd hnone hne⟩
  refine
    { h with
      shows := h.shows.outgrown fun g hg => ?_
      full := ?_
      below := fun e he => ?_
      frozen := fun g hg => ?_
      known := fun e he => ?_
      writer := ⟨hpend, hgroup, ?_, ?_, hmem⟩
      job := hsame.jobOK h.job
      readers := h.readers_onward ⟨Nat.le_refl _, Nat.le_refl _, fun g _ => hmems g⟩ rfl }
  · rcases hmems g with heq | hgrow
    · show Outgrown _ _ (update s.mems s.cur.mem _ g).entries
      rw [heq]
      exact .refl (h.shows.orderly_seg hg) _
    · exact hgrow s.seq (Nat.le_refl _)
  · have hfull := shows_iff.mp h.full
    have hbelow : ∀ t ∈ s.cur.tiers s.mems, Below (s.seq + done.length) t := fun t ht e he =>
      h.below e ⟨t, ht, he⟩
    rw [Version.tiers_cons] at hfull hbelow
    have hput := hfull.put hbelow hkey
    rw [List.length_append, List.length_singleton, ← Nat.add_assoc, KVMap.write_append]
    refine shows_iff.mpr ?_
    show Stack _ (s.cur.tiers (update s.mems s.cur.mem _)) _
    rw [Version.tiers_update _ hnotin, hentries]
    exact hput
  · show seqOf e ≤ s.seq + (done ++ [op]).length
    rw [List.length_append, List.length_singleton]
    rcases hhas e he with rfl | he
    · rw [seqOf_cellOf]
      omega
    · have := h.below e he
      omega
  · show Below s.seq (update s.mems s.cur.mem _ g).entries
    rw [hother g hg]
    exact h.frozen g hg
  · rw [cellsFrom_append, ← List.append_assoc]
    rcases hhas e he with rfl | he
    · refine List.mem_append_right _ ?_
      rw [hseq]
      exact List.mem_cons_self ..
    · exact List.mem_append_left _ (h.known e he)
  · rw [hflat, List.append_assoc, List.singleton_append]
  · rw [List.length_append, List.length_singleton]
    exact Nat.add_assoc ..

theorem insert_kept (h : Running A s done) (hs : s.insert = some f) : Kept A f := by
  unfold Engine.insert at hs
  split at hs
  · next group op todo next hw =>
    obtain rfl := Option.some.inj hs
    obtain ⟨hpend, hgroup, hflat, (rfl : next = s.seq + 1 + done.length), hmem⟩ := h.writer_at hw
    have hnone := h.incoming_none (by simp [hw])
    exact kept_of_silent rfl ⟨done ++ [op], h.insert hpend hgroup hnone hflat hmem⟩
  · cases hs

/-- The sequence number is stored: the whole group becomes visible. -/
theorem publish_kept (h : Running A s done) (hs : s.publish = some f) : Kept A f := by
  unfold Engine.publish at hs
  split at hs
  · next group next hw =>
    obtain rfl := Option.some.inj hs
    obtain ⟨hpend, hgroup, hflat, (rfl : next = s.seq + 1 + done.length), hmem⟩ := h.writer_at hw
    rw [List.append_nil] at hflat
    have hnone := h.incoming_none (by simp [hw])
    refine kept_of_one rfl ⟨[], ?_⟩ ⟨s.seq + 1, hpend⟩
    have hsame : SameWork s { s with seq := s.seq + group.flatten.length, writer := .idle } :=
      ⟨rfl, rfl, rfl, rfl, ⟨[], (List.append_nil _).symm⟩, rfl, fun _ _ => rfl,
        fun hne => absurd hnone hne⟩
    have hissued : A.issued = cellsFrom (s.seq + 1) group.flatten := by
      unfold Account.issued
      rw [hpend]
      rfl
    have hle : s.seq ≤ s.seq + group.flatten.length := Nat.le_add_right _ _
    refine
      { h with
        shows := ?_
        full := ?_
        below := fun e he => ?_
        frozen := fun g hg => (h.frozen g hg).mono hle
        tables := fun u hu => (h.tables u hu).mono hle
        known := fun e he => ?_
        writer := ⟨rfl, rfl⟩
        job := hsame.jobOK h.job
        readers := h.readers_onward ⟨hle, Nat.le_refl _, fun _ _ => .inl rfl⟩ rfl }
    · show Shows s.mems s.cur (s.seq + group.flatten.length) (A.map.write group.flatten)
      rw [hflat]
      exact h.full
    · show Shows s.mems s.cur (s.seq + group.flatten.length) (A.map.write group.flatten)
      rw [hflat]
      exact h.full
    · show seqOf e ≤ s.seq + group.flatten.length
      rw [hflat]
      exact h.below e he
    · show e ∈ (A.cells ++ A.issued) ++ []
      rw [List.append_nil, hissued, hflat]
      exact h.known e he
  · cases hs

/-! ## Readers. -/

/-- A step that changes one reader, and nothing else. -/
theorem Running.set_reader (h : Running A s done) {r : ℕ} {rd : Reader} {c : Capture} {o : EngineObs}
    (hnote : A.note o = { A with readers := update A.readers r (some c) }) (hok : ReaderOK s rd c) :
    Running (A.note o) { s with readers := update s.readers r (some rd) } done := by
  have hsame : SameWork s { s with readers := update s.readers r (some rd) } :=
    ⟨rfl, rfl, rfl, rfl, ⟨[], (List.append_nil _).symm⟩, rfl, fun _ _ => rfl, fun _ => ⟨rfl, rfl, rfl, rfl⟩⟩
  have honward : Onward s { s with readers := update s.readers r (some rd) } :=
    ⟨Nat.le_refl _, Nat.le_refl _, fun _ _ => .inl rfl⟩
  rw [hnote]
  refine
    { h with
      job := hsame.jobOK h.job
      readers := fun q qd hq => ?_ }
  by_cases hqr : q = r
  · subst hqr
    have hq : update s.readers q (some rd) q = some qd := hq
    rw [Function.update_self] at hq
    obtain rfl := Option.some.inj hq
    exact ⟨c, Function.update_self .., hok.onward honward⟩
  · have hq : update s.readers r (some rd) q = some qd := hq
    rw [Function.update_of_ne hqr] at hq
    obtain ⟨cq, hcq, hokq⟩ := h.readers q qd hq
    exact ⟨cq, (Function.update_of_ne hqr _ _).trans hcq, hokq.onward honward⟩

theorem acquire_kept (h : Running A s done) (r : ℕ) : Kept A (s.acquire r) := by
  refine kept_of_one rfl ⟨done, h.set_reader rfl ?_⟩ trivial
  exact ⟨h.shows, Nat.le_refl _, h.segs_le, fun it hit => by cases hit⟩

theorem get_kept (h : Running A s done) {r : ℕ} {key : Key} (hs : s.get r key = some f) : Kept A f := by
  unfold Engine.get at hs
  obtain ⟨rd, hrd, rfl⟩ := Option.map_eq_some_iff.mp hs
  obtain ⟨c, hc, hok⟩ := h.readers r rd hrd
  exact kept_of_one rfl ⟨done, h⟩ ⟨c, hc, hok.shows.get key⟩

theorem note_opened {r : ℕ} {c : Capture} (hc : A.readers r = some c) (start : Key) (stop : Option Key) :
    A.note (.opened r start stop) =
      { A with readers := update A.readers r (some { c with rest := c.map.scan start stop }) } := by
  show { A with readers := update A.readers r ((A.readers r).map _) } = _
  rw [hc]
  rfl

/-- The iterator of `Scan` has the scan of the reader's map ahead of it. -/
theorem ReaderOK.opened {rd : Reader} {c : Capture} (h : ReaderOK s rd c) (start : Key) (stop : Option Key) :
    ReaderOK s { rd with iter := some (DbIter.seek s.mems rd.v rd.seq start stop) }
      { c with rest := c.map.scan start stop } := by
  refine ⟨h.shows, h.seq, h.segs, fun it hit => ?_⟩
  obtain rfl := Option.some.inj hit
  refine ⟨h.shows.placed_seek start stop, rfl, fun x hx => ?_, h.shows.scan start stop⟩
  obtain ⟨t, ht, rfl⟩ := List.mem_map.mp hx
  exact ht

theorem scan_kept (h : Running A s done) {r : ℕ} {start : Key} {stop : Option Key}
    (hs : s.scan r start stop = some f) : Kept A f := by
  unfold Engine.scan at hs
  obtain ⟨rd, hrd, rfl⟩ := Option.map_eq_some_iff.mp hs
  obtain ⟨c, hc, hok⟩ := h.readers r rd hrd
  exact kept_of_one rfl ⟨done, h.set_reader (note_opened hc start stop) (hok.opened start stop)⟩ trivial

theorem exportFrom_kept (h : Running A s done) {r : ℕ} (hs : s.exportFrom r = some f) : Kept A f := by
  unfold Engine.exportFrom at hs
  obtain ⟨rd, hrd, rfl⟩ := Option.map_eq_some_iff.mp hs
  obtain ⟨c, hc, hok⟩ := h.readers r rd hrd
  rw [hok.shows.seekToFirst]
  exact kept_of_one rfl ⟨done, h.set_reader (note_opened hc [] none) (hok.opened [] none)⟩ trivial

theorem next_kept (h : Running A s done) {r : ℕ} (hs : s.next r = some f) : Kept A f := by
  unfold Engine.next at hs
  split at hs
  · next v seq it hrd =>
    obtain rfl := Option.some.inj hs
    obtain ⟨c, hc, hok⟩ := h.readers r _ hrd
    obtain ⟨hit, hseq, hsrc, hahead⟩ := hok.iter it rfl
    obtain ⟨hhead, htail, hit', hscan⟩ := next_spec hit
    have hnote : A.note (.yielded r (it.next s.mems).2) =
        { A with readers := update A.readers r (some { c with rest := c.rest.tail }) } := by
      show { A with readers := update A.readers r ((A.readers r).map _) } = _
      rw [hc]
      rfl
    refine kept_of_one rfl ⟨done, h.set_reader hnote ⟨hok.shows, hok.seq, hok.segs, fun it' hnext => ?_⟩⟩
      ⟨c, hc, ?_⟩
    · obtain rfl := Option.some.inj hnext
      refine ⟨hit', hscan.seq.trans hseq, fun x hx => ?_, ?_⟩
      · have hx' : x.src ∈ it.children.map Cursor.src := hscan.srcs ▸ List.mem_map_of_mem hx
        obtain ⟨y, hy, heq⟩ := List.mem_map.mp hx'
        exact heq ▸ hsrc y hy
      · rw [htail, List.map_tail, hahead]
    · rw [hhead, ← List.head?_map, hahead]
  · cases hs

/-! ## Flush, compaction and `Restore`. -/

/-- A `Restore` that goes through is one of a table in order, as `Export` makes them. -/
def Engine.Sound (s : Engine) : EngineEvent → Prop
  | .work => ∀ snap t man, s.job = .busy (.restore snap) (.staged t man) → Orderly snap
  | _ => True

theorem phaseOK_job {j : Job} {w : Work} {p : Phase} (h : PhaseOK s w p) :
    PhaseOK { s with job := j } w p := by
  cases p <;> cases w <;> exact h

theorem Running.with_job (h : Running A s done) {j : Job} {b : Bool} {snap : Option (List KeyVersion)}
    (hj : JobOK { s with job := j, dead := b }) (hin : snap = j.incoming) :
    Running { A with incoming := snap } { s with job := j, dead := b } done :=
  { h with
    job := hj
    incoming := hin
    readers := h.readers_kept rfl rfl rfl rfl }

/-- The work goes on to its next phase. -/
theorem Running.with_phase (h : Running A s done) {w : Work} {p : Phase} (hp : PhaseOK s w p)
    (hin : A.incoming = (Job.busy w p).incoming) : Running A { s with job := .busy w p } done :=
  h.with_job (b := s.dead) (phaseOK_job hp) hin

theorem jobOK_of_busy {w : Work} {p : Phase} (hjob : s.job = .busy w p) (h : PhaseOK s w p) : JobOK s := by
  unfold JobOK
  rw [hjob]
  exact h

theorem Running.phase (h : Running A s done) {w : Work} {p : Phase} (hjob : s.job = .busy w p) :
    PhaseOK s w p := by
  have := h.job
  unfold JobOK at this
  rwa [hjob] at this

theorem Running.fresh_next (h : Running A s done) : Fresh { s with nextNum := s.nextNum + 1 } s.nextNum := by
  refine ⟨Nat.lt_succ_self _, fun hin => ?_⟩
  obtain ⟨u, hu, heq⟩ := List.mem_map.mp hin
  exact Nat.lt_irrefl _ (heq ▸ h.fresh u hu)

theorem Running.start (h : Running A s done) {w : Work} (hsuits : Suits s w) :
    Running { A with incoming := (Job.busy w (.writing s.nextNum)).incoming }
      { s with nextNum := s.nextNum + 1, job := .busy w (.writing s.nextNum) } done := by
  have hsuits' : Suits { s with nextNum := s.nextNum + 1, job := .busy w (.writing s.nextNum) } w := by
    cases w <;> exact hsuits
  exact
    { h with
      fresh := fun u hu => (h.fresh u hu).trans (Nat.lt_succ_self _)
      job := ⟨hsuits', h.fresh_next⟩
      incoming := rfl
      readers := h.readers_kept rfl rfl rfl rfl }

/-- Background work leaves the account as it is. -/
theorem Running.start_silent (h : Running A s done) (hjob : s.job = .idle) {w : Work} (hsuits : Suits s w)
    (hw : (Job.busy w (.writing s.nextNum)).incoming = none) : Kept A (s.start w []) := by
  have hnone : A.incoming = none := by
    rw [h.incoming, hjob]
    rfl
  refine kept_of_silent rfl ⟨done, ?_⟩
  have := h.start hsuits
  rw [hw, ← hnone] at this
  exact this

theorem flush_kept (h : Running A s done) (hs : s.flush = some f) : Kept A f := by
  unfold Engine.flush at hs
  split at hs
  · next seg rest hjob himm =>
    obtain rfl := Option.some.inj hs
    exact h.start_silent hjob ⟨rest, himm⟩ rfl
  · cases hs

theorem compact_kept (h : Running A s done) {inputs : List Table} (hs : s.compact inputs = some f) :
    Kept A f := by
  unfold Engine.compact at hs
  split at hs
  · next hpre =>
    obtain rfl := Option.some.inj hs
    exact h.start_silent hpre.1 hpre.2 rfl
  · cases hs

theorem restore_kept (h : Running A s done) {snap : List KeyVersion} (hs : s.restore snap = some f) :
    Kept A f := by
  unfold Engine.restore at hs
  split at hs
  · next hpre =>
    obtain rfl := Option.some.inj hs
    exact kept_of_one rfl ⟨done, h.start (w := .restore snap) hpre.2⟩ trivial
  · cases hs

theorem finish_kept (h : Running A s done) {w : Work} {num : ℕ} (hjob : s.job = .busy w (.writing num)) :
    Kept A (s.finish w num) := by
  obtain ⟨hsuits, hfresh⟩ := h.phase hjob
  have hin : ∀ t, A.incoming = (Job.busy w (.written t)).incoming := by
    intro t
    rw [h.incoming, hjob]
    cases w <;> rfl
  unfold Engine.finish
  split
  · next hempty =>
    refine kept_of_silent rfl ⟨done, h.with_phase ⟨hsuits, ?_⟩ (hin _)⟩
    rw [hjob] at hempty
    cases w with
    | flush seg =>
      refine ⟨?_, fun u hu => by cases hu⟩
      rw [hempty.1]
      exact finished_none
    | compact inputs =>
      refine ⟨?_, fun u hu => by cases hu⟩
      rw [hempty.1]
      exact finished_none
    | restore snap => cases hempty.2
  · next hsome =>
    refine kept_of_silent rfl ⟨done, h.with_phase ⟨hsuits, ?_⟩ (hin _)⟩
    rw [hjob] at hsome
    have hone : ∀ u ∈ (some ⟨num, s.entriesOf w⟩ : Option Table).toList, Fresh s u.num := by
      intro u hu
      obtain rfl := List.mem_singleton.mp hu
      exact hfresh
    cases w with
    | flush seg => exact ⟨finished_some fun hnil => hsome ⟨hnil, rfl⟩, hone⟩
    | compact inputs => exact ⟨finished_some fun hnil => hsome ⟨hnil, rfl⟩, hone⟩
    | restore snap => exact ⟨num, rfl, hfresh⟩

/-- The MANIFEST is written from the fields as they are. -/
theorem Running.stage (h : Running A s done) {w : Work} {t : Option Table} (hsuits : Suits s w) (hmade : Made s t w)
    (hturned : Turned s w) (hin : A.incoming = (Job.busy w (.staged t (s.manifestOf t w))).incoming) :
    Kept A (s.stage w t) :=
  kept_of_silent rfl ⟨done, h.with_phase ⟨hsuits, hmade, hturned, rfl⟩ hin⟩

theorem stage_flush_kept (h : Running A s done) {seg : ℕ} {t : Option Table} (n : ℕ)
    (hjob : s.job = .busy (.flush seg) (.written t)) :
    Kept A ({ s with flushedSeq := n }.stage (.flush seg) t) := by
  obtain ⟨hsuits, hmade⟩ := h.phase hjob
  have hlive : Running A { s with flushedSeq := n } done :=
    { h with
      job := @jobOK_of_busy { s with flushedSeq := n } _ _ hjob ⟨hsuits, hmade⟩
      readers := h.readers_kept rfl rfl rfl rfl }
  refine hlive.stage hsuits hmade trivial ?_
  rw [h.incoming, hjob]
  rfl

theorem foldl_max_ge (es : List KeyVersion) (n : ℕ) :
    n ≤ es.foldl (fun m e => if seqOf e > m then seqOf e else m) n ∧
      ∀ e ∈ es, seqOf e ≤ es.foldl (fun m e => if seqOf e > m then seqOf e else m) n := by
  induction es generalizing n with
  | nil => exact ⟨Nat.le_refl _, fun _ he => absurd he List.not_mem_nil⟩
  | cons x es ih =>
    obtain ⟨hn, hes⟩ := ih (if seqOf x > n then seqOf x else n)
    have hstep : n ≤ (if seqOf x > n then seqOf x else n) ∧
        seqOf x ≤ if seqOf x > n then seqOf x else n := by
      split <;> omega
    rw [List.foldl_cons]
    exact ⟨hstep.1.trans hn, List.forall_mem_cons.mpr ⟨hstep.2.trans hn, hes⟩⟩

theorem below_maxSeqOf (es : List KeyVersion) : Below (maxSeqOf es) es := (foldl_max_ge es 0).2

/-- A bound that nothing exceeds may be raised. -/
theorem Shows.raise {mems : ℕ → Memtable} {v : Version} {seq seq' : ℕ} {m : KVMap}
    (h : Shows mems v seq m) (hb : ∀ e, v.Has mems e → seqOf e ≤ seq) (hle : seq ≤ seq') :
    Shows mems v seq' m := by
  rw [shows_iff] at h ⊢
  exact h.raise (fun t ht e he => hb e ⟨t, ht, he⟩) fun t ht e he => (hb e ⟨t, ht, he⟩).trans hle

theorem takeOver_kept (h : Running A s done) {snap : List KeyVersion} {t : Option Table}
    (hjob : s.job = .busy (.restore snap) (.written t)) : Kept A (s.takeOver snap t) := by
  obtain ⟨hsuits, hmade⟩ := h.phase hjob
  obtain ⟨hpend, rfl⟩ := h.writer_at hsuits
  have hseq : s.seq ≤ (s.takeOver snap t).engine.seq ∧ maxSeqOf snap ≤ (s.takeOver snap t).engine.seq := by
    show s.seq ≤ (if maxSeqOf snap > s.seq then _ else _) ∧ _ ≤ if maxSeqOf snap > s.seq then _ else _
    split <;> omega
  obtain ⟨hle, hmax⟩ := hseq
  have hshows : Shows s.mems s.cur (s.takeOver snap t).engine.seq A.map := h.shows.raise h.below hle
  refine kept_of_silent rfl ⟨[], ?_⟩
  exact
    { h with
      shows := hshows
      full := hshows
      below := fun e he => (h.below e he).trans hle
      frozen := fun g hg => (h.frozen g hg).mono hle
      tables := fun u hu => (h.tables u hu).mono hle
      walSeg := h.walSeg.trans (Nat.le_succ _)
      writer := by
        unfold WriterOK
        rw [show (s.takeOver snap t).engine.writer = .idle from hsuits]
        exact ⟨hpend, rfl⟩
      job := ⟨hsuits, hmade, ⟨Nat.lt_succ_of_le h.walSeg, hmax⟩, snap, rfl⟩
      incoming := by
        rw [h.incoming, hjob]
        rfl
      readers := h.readers_onward ⟨hle, Nat.le_refl _, fun _ _ => .inl rfl⟩ rfl }

/-! ### The new version is installed. -/

/-- What the work writes is below what it reads. -/
theorem below_flushed {n seg : ℕ} (h : Below n (s.mems seg).entries) : Below n (s.entriesOf (.flush seg)) :=
  fun e he => h e (mem_of_tableEntries he)

theorem below_compacted {n : ℕ} {inputs : List Table} (h : ∀ u ∈ inputs, Below n u.entries) :
    Below n (s.entriesOf (.compact inputs)) := by
  intro e he
  obtain ⟨l, hl, he⟩ := Tiers.mem_mergeAll.mp (mem_of_tableEntries he)
  obtain ⟨x, hx, rfl⟩ := List.mem_map.mp hl
  exact h x hx e he

theorem install_flush_kept (h : Running A s done) {seg : ℕ} {t : Option Table} {man : Manifest}
    (hjob : s.job = .busy (.flush seg) (.renamed t man)) : Kept A (s.installWork t man (.flush seg)) := by
  obtain ⟨⟨rest, himm⟩, ⟨hfin, hfresh⟩, -⟩ := h.phase hjob
  have hseg : seg ∈ s.cur.imm := by
    rw [himm]
    exact List.mem_cons_self ..
  have hsegs := h.segs
  unfold Version.segs at hsegs
  rw [himm, List.cons_append] at hsegs
  have hrest : seg ∉ rest := fun hin =>
    Nat.lt_irrefl _ ((List.pairwise_cons.mp hsegs).1 seg (List.mem_append_left _ hin))
  have hbelow := h.frozen seg hseg
  have hold : s.cur.tiers s.mems = _ := Version.tiers_flushing himm
  have hnew : (s.cur.withFlushed seg t).tiers s.mems = _ := Version.tiers_withFlushed himm hrest
  have hone : Finished t (tableEntries false (Tiers.mergeAll [(s.mems seg).entries])) := by
    rw [mergeAll_singleton]
    exact hfin
  refine kept_of_silent rfl ⟨done, ?_⟩
  refine
    { h with
      shows := h.shows.replaced hold hnew hone (List.forall_mem_singleton.mpr hbelow) fun hf => by cases hf
      full := h.full.replaced hold hnew hone
        (List.forall_mem_singleton.mpr (hbelow.mono (Nat.le_add_right _ _))) fun hf => by cases hf
      below := fun e he => h.below e (Version.has_of_replaced hold hnew hone he)
      frozen := fun g hg => h.frozen g (List.mem_filter.mp hg).1
      tables := fun u hu => ?_
      known := fun e he => h.known e (Version.has_of_replaced hold hnew hone he)
      segs := ?_
      nums := ?_
      fresh := fun u hu => ?_
      job := trivial
      incoming := by
        rw [h.incoming, hjob]
        rfl
      readers := h.readers_kept rfl rfl rfl rfl }
  · rcases List.mem_append.mp (show u ∈ t.toList ++ s.cur.tables from hu) with hu | hu
    · rw [hfin.entries hu]
      exact below_flushed hbelow
    · exact h.tables u hu
  · show (s.cur.withFlushed seg t).segs.Pairwise (· < ·)
    rw [Version.segs_withFlushed himm hrest]
    exact (List.pairwise_cons.mp hsegs).2
  · show ((t.toList ++ s.cur.tables).map Table.num).Nodup
    cases t with
    | none => exact h.nums
    | some u => exact List.nodup_cons.mpr ⟨(hfresh u (List.mem_singleton_self _)).2, h.nums⟩
  · rcases List.mem_append.mp (show u ∈ t.toList ++ s.cur.tables from hu) with hu | hu
    · exact (hfresh u hu).1
    · exact h.fresh u hu

/-- Only a run that reaches the oldest table drops tombstones. -/
theorem bottom_of_last {inputs A B : List Table} (hne : inputs ≠ [])
    (hnodup : ((A ++ inputs ++ B).map Table.num).Nodup)
    (hlast : (inputs.getLast?.map Table.num == (A ++ inputs ++ B).getLast?.map Table.num) = true) : B = [] := by
  by_contra hB
  have hin : inputs.getLast? = some (inputs.getLast hne) := List.getLast?_eq_some_getLast hne
  have hout : (A ++ inputs ++ B).getLast? = some (B.getLast hB) := by
    rw [List.getLast?_append, List.getLast?_eq_some_getLast hB]
    rfl
  rw [hin, hout, Option.map_some, Option.map_some, beq_iff_eq] at hlast
  rw [List.map_append, List.nodup_append] at hnodup
  refine hnodup.2.2 (inputs.getLast hne).num ?_ (B.getLast hB).num ?_ (Option.some.inj hlast)
  · exact List.mem_map_of_mem (List.mem_append_right _ (List.getLast_mem hne))
  · exact List.mem_map_of_mem (List.getLast_mem hB)

theorem install_compact_kept (h : Running A s done) {inputs : List Table} {t : Option Table} {man : Manifest}
    (hjob : s.job = .busy (.compact inputs) (.renamed t man)) :
    Kept A (s.installWork t man (.compact inputs)) := by
  obtain ⟨⟨hne, front, back, hsplit⟩, ⟨hfin, hfresh⟩, -⟩ := h.phase hjob
  have htables : s.cur.tables = front ++ inputs ++ back := hsplit.symm
  have hold : s.cur.tiers s.mems = _ := Version.tiers_of_tables htables
  have hnew : (s.cur.withCompacted inputs t).tiers s.mems = _ :=
    Version.tiers_of_tables (Version.tables_withCompacted hne htables h.nums)
  have hbottom : (inputs.getLast?.map Table.num == s.cur.tables.getLast?.map Table.num) = true →
      back.map Table.entries = [] := by
    intro hlast
    rw [htables] at hlast
    rw [bottom_of_last hne (htables ▸ h.nums) hlast, List.map_nil]
  have hin : ∀ u ∈ inputs, u ∈ s.cur.tables := fun u hu =>
    htables ▸ List.mem_append_left _ (List.mem_append_right _ hu)
  have hbelow : ∀ u ∈ inputs, Below s.seq u.entries := fun u hu => h.tables u (hin u hu)
  have hmem : ∀ u ∈ (s.cur.withCompacted inputs t).tables, u ∈ t.toList ++ s.cur.tables := fun _ =>
    mem_replaceRun
  refine kept_of_silent rfl ⟨done, ?_⟩
  refine
    { h with
      shows := h.shows.replaced hold hnew hfin (List.forall_mem_map.mpr hbelow) hbottom
      full := h.full.replaced hold hnew hfin
        (List.forall_mem_map.mpr fun u hu => (hbelow u hu).mono (Nat.le_add_right _ _)) hbottom
      below := fun e he => h.below e (Version.has_of_replaced hold hnew hfin he)
      tables := fun u hu => ?_
      known := fun e he => h.known e (Version.has_of_replaced hold hnew hfin he)
      nums := ?_
      fresh := fun u hu => ?_
      job := trivial
      incoming := by
        rw [h.incoming, hjob]
        rfl
      readers := h.readers_kept rfl rfl rfl rfl }
  · rcases List.mem_append.mp (hmem u hu) with hu | hu
    · rw [hfin.entries hu]
      exact below_compacted hbelow
    · exact h.tables u hu
  · show ((s.cur.withCompacted inputs t).tables.map Table.num).Nodup
    rw [Version.tables_withCompacted hne htables h.nums]
    have hsub : (front ++ back).Sublist s.cur.tables :=
      htables ▸ List.Sublist.append (List.sublist_append_left ..) (List.Sublist.refl _)
    have hrest : ((front ++ back).map Table.num).Nodup := h.nums.sublist (hsub.map _)
    cases t with
    | none =>
      rw [Option.toList_none, List.append_nil]
      exact hrest
    | some u =>
      rw [Option.toList_some, List.append_assoc, List.singleton_append]
      refine (List.Perm.nodup_iff (List.Perm.map _ List.perm_middle)).mpr ?_
      exact List.nodup_cons.mpr
        ⟨fun hin => (hfresh u (List.mem_singleton_self _)).2 ((hsub.map _).subset hin), hrest⟩
  · rcases List.mem_append.mp (hmem u hu) with hu | hu
    · exact (hfresh u hu).1
    · exact h.fresh u hu

theorem install_restore_kept (h : Running A s done) {snap : List KeyVersion} {t : Option Table} {man : Manifest}
    (hjob : s.job = .busy (.restore snap) (.renamed t man)) :
    Kept A (s.installWork t man (.restore snap)) := by
  obtain ⟨hsuits, ⟨num, rfl, hfresh⟩, ⟨hlt, hmax⟩, rfl, hsnap⟩ := h.phase hjob
  obtain ⟨hpend, rfl⟩ := h.writer_at hsuits
  have horderly := hsnap snap rfl
  have hbelow : Below s.seq snap := (below_maxSeqOf snap).mono hmax
  have hus : (if snap = [] then [] else (some ⟨num, snap⟩ : Option Table).toList).map Table.entries =
      [snap].filter fun t => !t.isEmpty := by
    cases snap with
    | nil => rfl
    | cons e es => rfl
  have hshows : Shows (update s.mems s.wal.seg {})
      ⟨s.wal.seg, [], if snap = [] then [] else (some ⟨num, snap⟩ : Option Table).toList⟩ s.seq
      (mapOf snap) :=
    shows_restored (by rw [Function.update_self]) hus horderly hbelow
  have hin : ∀ u ∈ (if snap = [] then [] else (some ⟨num, snap⟩ : Option Table).toList),
      u = ⟨num, snap⟩ := by
    intro u hu
    split at hu
    · exact absurd hu List.not_mem_nil
    · exact List.mem_singleton.mp hu
  have hhas : ∀ e, Version.Has (update s.mems s.wal.seg {})
      ⟨s.wal.seg, [], if snap = [] then [] else (some ⟨num, snap⟩ : Option Table).toList⟩ e → e ∈ snap := by
    intro e he
    rcases he.cases with ⟨g, hg, he⟩ | ⟨u, hu, he⟩
    · obtain rfl := List.mem_singleton.mp (show g ∈ [s.wal.seg] from hg)
      rw [Function.update_self] at he
      exact absurd he List.not_mem_nil
    · rw [hin u hu] at he
      exact he
  have hallow : A.incoming = some snap := by
    rw [h.incoming, hjob]
    rfl
  refine kept_of_one rfl ⟨[], ?_⟩ hallow
  refine
    { shows := hshows
      full := hshows
      below := fun e he => hbelow e (hhas e he)
      frozen := fun g hg => absurd hg List.not_mem_nil
      tables := fun u hu => ?_
      known := fun e he => ?_
      segs := List.pairwise_singleton _ _
      walSeg := Nat.le_refl _
      nums := ?_
      fresh := fun u hu => ?_
      writer := by
        unfold WriterOK
        rw [show (s.installWork (some ⟨num, snap⟩) _ (.restore snap)).engine.writer = .idle from hsuits]
        exact ⟨hpend, rfl⟩
      job := trivial
      incoming := rfl
      readers := h.readers_onward ⟨Nat.le_refl _, hlt.le, fun g hg => .inl ?_⟩ rfl }
  · rw [hin u hu]
    exact hbelow
  · exact List.mem_append_left _ (List.mem_append_right _ (hhas e he))
  · show ((if snap = [] then [] else (some ⟨num, snap⟩ : Option Table).toList).map Table.num).Nodup
    split
    · exact List.nodup_nil
    · exact List.nodup_singleton _
  · rw [hin u hu]
    exact hfresh.1
  · exact Function.update_of_ne (Nat.ne_of_lt (hg.trans_lt hlt)) _ _

theorem installWork_kept (h : Running A s done) {w : Work} {t : Option Table} {man : Manifest}
    (hjob : s.job = .busy w (.renamed t man)) : Kept A (s.installWork t man w) := by
  cases w with
  | flush seg => exact install_flush_kept h hjob
  | compact inputs => exact install_compact_kept h hjob
  | restore snap => exact install_restore_kept h hjob

/-! ### All steps of the work. -/

theorem incoming_cleaning (w : Work) (keep : ℕ) : (Job.busy w (.cleaning keep)).incoming = none := by
  cases w <;> rfl

theorem work_kept (h : Running A s done) (hsound : s.Sound .work) (hs : s.work d = some f) : Kept A f := by
  unfold Engine.work at hs
  split at hs
  · cases hs
  · next w num hjob =>
    obtain rfl := Option.some.inj hs
    exact finish_kept h hjob
  · next seg t hjob =>
    obtain rfl := Option.some.inj hs
    exact stage_flush_kept h _ hjob
  · next inputs t hjob =>
    obtain rfl := Option.some.inj hs
    obtain ⟨hsuits, hmade⟩ := h.phase hjob
    refine h.stage hsuits hmade trivial ?_
    rw [h.incoming, hjob]
    rfl
  · next snap t hjob =>
    split at hs
    · cases hs
    · obtain rfl := Option.some.inj hs
      exact takeOver_kept h hjob
  · next w t hjob =>
    obtain rfl := Option.some.inj hs
    obtain ⟨hsuits, hmade, hturned, snap, rfl⟩ := h.phase hjob
    refine h.stage hsuits hmade hturned ?_
    rw [h.incoming, hjob]
    rfl
  · next w t man hjob =>
    obtain rfl := Option.some.inj hs
    obtain ⟨hsuits, hmade, hturned, hman⟩ := h.phase hjob
    have hin : A.incoming = (Job.busy w (.renamed t man)).incoming := by
      rw [h.incoming, hjob]
      cases w <;> rfl
    refine kept_of_silent rfl ⟨done, h.with_phase ⟨hsuits, hmade, hturned, hman, fun snap hw => ?_⟩ hin⟩
    exact hsound snap t man (hw ▸ hjob)
  · next w t man hjob =>
    obtain rfl := Option.some.inj hs
    exact installWork_kept h hjob
  · next w keep hjob =>
    split at hs
    · obtain rfl := Option.some.inj hs
      refine kept_of_silent rfl ⟨done, h.with_job (b := s.dead) trivial ?_⟩
      rw [h.incoming, hjob]
      exact incoming_cleaning w keep
    · obtain rfl := Option.some.inj hs
      exact kept_of_silent rfl ⟨done, h⟩

/-- After an error of `Restore` the engine shows the map it showed before. -/
theorem abort_kept (h : Running A s done) {x : Fault} (hs : s.abort x = some f) : Kept A f := by
  unfold Engine.abort at hs
  split at hs
  · obtain rfl := Option.some.inj hs
    exact kept_of_one rfl ⟨done, h.with_job trivial rfl⟩ trivial
  · obtain rfl := Option.some.inj hs
    exact kept_of_one rfl ⟨done, h.with_job trivial rfl⟩ trivial
  · obtain rfl := Option.some.inj hs
    exact kept_of_one rfl ⟨done, h.with_job trivial rfl⟩ trivial
  · split at hs
    · cases hs
    · obtain rfl := Option.some.inj hs
      exact kept_of_one rfl ⟨done, h.with_job trivial rfl⟩ trivial
  · obtain rfl := Option.some.inj hs
    exact kept_of_one rfl ⟨done, h.with_job trivial rfl⟩ trivial
  · cases hs

theorem unlink_kept (h : Running A s done) {num : ℕ} (hs : s.unlink num = some f) : Kept A f := by
  unfold Engine.unlink at hs
  split at hs
  · obtain rfl := Option.some.inj hs
    have hsame : SameWork s { s with gone := s.gone.erase num } :=
      ⟨rfl, rfl, rfl, rfl, ⟨[], (List.append_nil _).symm⟩, rfl, fun _ _ => rfl, fun _ => ⟨rfl, rfl, rfl, rfl⟩⟩
    refine kept_of_silent rfl ⟨done, ?_⟩
    exact
      { h with
        job := hsame.jobOK h.job
        readers := h.readers_kept rfl rfl rfl rfl }
  · cases hs

/-- **Every step of the engine is a step of the account.** -/
theorem step_kept (h : Running A s done) {e : EngineEvent} (hsound : s.Sound e)
    (hs : s.step limit d e = some f) : Kept A f := by
  cases e with
  | begin group => exact begin_kept h hs
  | append => exact append_kept h hs
  | install => exact install_kept h hs
  | insert => exact insert_kept h hs
  | publish => exact publish_kept h hs
  | acquire r =>
    obtain rfl := Option.some.inj hs
    exact acquire_kept h r
  | get r key => exact get_kept h hs
  | scan r start stop => exact scan_kept h hs
  | exportFrom r => exact exportFrom_kept h hs
  | next r => exact next_kept h hs
  | flush => exact flush_kept h hs
  | compact inputs => exact compact_kept h hs
  | restore snap => exact restore_kept h hs
  | work => exact work_kept h hsound hs
  | abort x => exact abort_kept h hs
  | unlink num => exact unlink_kept h hs

end Keystone.Storage
