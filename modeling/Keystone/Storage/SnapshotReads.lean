/-
# Keystone.Storage.SnapshotReads — what readers see in every run of the engine.

The step lemmas of `Storage.EngineSteps` are put together over whole runs: an engine is opened on an empty
directory, and then commits, freezes, flushes, compactions, `Restore`s (also failing ones) and any number
of readers take their steps in any order.  Each reader answers from the map as it was when it came: a
group of batches has changed that map as a whole or not at all, and an iterator yields the live pairs of
that map one after the other, whatever happens between its steps.

`Restore` is documented to take a table that `Export` made, so its entries are in order.
-/
import Keystone.Storage.EngineSteps

namespace Keystone.Storage

open Keystone.Lib
open Function (update)

variable {s : Engine} {f : Effect} {limit : ℕ} {d : Dir}

/-! ## Iterators read to their end. -/

/-- A loop over `Next`, for at most `n` turns. -/
def DbIter.drain (mems : ℕ → Memtable) : ℕ → DbIter → List KeyVersion
  | 0, _ => []
  | n + 1, it =>
    match it.next mems with
    | (_, none) => []
    | (it', some e) => e :: drain mems n it'

variable {mems : ℕ → Memtable} {v : Version} {seq n : ℕ} {m : KVMap}

theorem drain_eq {it : DbIter} (h : IterOK mems it) (hn : (it.ahead mems).length < n) :
    it.drain mems n = it.ahead mems := by
  induction n generalizing it with
  | zero => cases hn
  | succ n ih =>
    obtain ⟨hhead, htail, hok, -⟩ := next_spec h
    unfold DbIter.drain
    cases hnext : it.next mems with
    | mk it' e =>
      rw [hnext] at hhead htail hok
      cases hahead : it.ahead mems with
      | nil =>
        rw [hahead] at hhead
        obtain rfl : e = none := hhead
        rfl
      | cons x rest =>
        rw [hahead] at hhead htail hn
        obtain rfl : e = some x := hhead
        have hrest : it'.ahead mems = rest := htail
        show x :: it'.drain mems n = x :: rest
        rw [ih hok (by rw [hrest]; exact Nat.lt_of_succ_lt_succ hn), hrest]

theorem Shows.drain (h : Shows mems v seq m) (start : Key) (stop : Option Key)
    (hn : (m.scan start stop).length < n) :
    ((DbIter.seek mems v seq start stop).drain mems n).map pairOf = m.scan start stop := by
  have hscan := h.scan start stop
  rw [drain_eq (h.placed_seek start stop) (by rw [← List.length_map pairOf, hscan]; exact hn), hscan]

/-! ## What a step can do. -/

/-- The tables that `flushedSeq` accounts for, while `tables` are the current ones. -/
def Job.counted (tables : List Table) : Job → List Table
  | .busy (.restore _) (.rotated t) | .busy (.restore _) (.staged t _) | .busy (.restore _) (.renamed t _) =>
    t.toList
  | .busy _ (.staged t _) | .busy _ (.renamed t _) => t.toList ++ tables
  | _ => tables

/-- A step of `commit` or of a reader leaves the work alone. -/
structure Aside (s s' : Engine) : Prop where
  job : s'.job = s.job
  tables : s'.cur.tables = s.cur.tables
  flushedSeq : s'.flushedSeq = s.flushedSeq
  mems : ∀ g, s'.mems g = s.mems g ∨ s'.mems g = {} ∨ ∃ seq op, s'.mems g = (s.mems g).put seq op

/-- The steps, as the work sees them. -/
inductive Taken (d : Dir) (s : Engine) : EngineEvent → Engine → Prop
  | aside {e : EngineEvent} {s' : Engine} (h : Aside s s') : Taken d s e s'
  | start {e : EngineEvent} (w : Work) (obs : List EngineObs) (hjob : s.job = .idle)
      (hw : ∀ snap, w = .restore snap → e = .restore snap) : Taken d s e (s.start w obs).engine
  | work {f : Effect} (h : s.work d = some f) : Taken d s .work f.engine
  | abort {x : Fault} (b : Bool) (h : (∃ tmp, x = .manifest tmp) ∨ ∀ ts, s.job.counted ts = ts) :
    Taken d s (.abort x) { s with job := .idle, dead := b }

theorem aside_of_update {s' : Engine} (g : ℕ) (m : Memtable) (hjob : s'.job = s.job)
    (htables : s'.cur.tables = s.cur.tables) (hseq : s'.flushedSeq = s.flushedSeq)
    (hmems : s'.mems = update s.mems g m) (hm : m = {} ∨ ∃ seq op, m = (s.mems g).put seq op) :
    Aside s s' := by
  refine ⟨hjob, htables, hseq, fun g' => ?_⟩
  rw [hmems]
  by_cases hg : g' = g
  · subst hg
    rw [Function.update_self]
    exact .inr hm
  · exact .inl (Function.update_of_ne hg _ _)

/-- Every step is of one of four kinds. -/
theorem step_taken {e : EngineEvent} (hs : s.step limit d e = some f) : Taken d s e f.engine := by
  have hsame : ∀ {s' : Engine}, s'.job = s.job → s'.cur.tables = s.cur.tables →
      s'.flushedSeq = s.flushedSeq → s'.mems = s.mems → Taken d s e s' := fun hjob htables hseq hmems =>
    .aside ⟨hjob, htables, hseq, fun g => .inl (congrFun hmems g)⟩
  cases e with
  | begin group =>
    simp only [Engine.step, Engine.begin] at hs
    split_ifs at hs <;> cases hs <;> exact hsame rfl rfl rfl rfl
  | append =>
    simp only [Engine.step, Engine.append] at hs
    split at hs <;> cases hs
    exact hsame rfl rfl rfl rfl
  | install =>
    simp only [Engine.step, Engine.install] at hs
    split at hs
    · split at hs <;> cases hs
      · exact .aside (aside_of_update _ _ rfl rfl rfl rfl (.inl rfl))
      · exact hsame rfl rfl rfl rfl
    · cases hs
  | insert =>
    simp only [Engine.step, Engine.insert] at hs
    split at hs <;> cases hs
    exact .aside (aside_of_update _ _ rfl rfl rfl rfl (.inr ⟨_, _, rfl⟩))
  | publish =>
    simp only [Engine.step, Engine.publish] at hs
    split at hs <;> cases hs
    exact hsame rfl rfl rfl rfl
  | acquire r =>
    cases hs
    exact hsame rfl rfl rfl rfl
  | get r key =>
    obtain ⟨rd, -, rfl⟩ := Option.map_eq_some_iff.mp hs
    exact hsame rfl rfl rfl rfl
  | scan r start stop =>
    obtain ⟨rd, -, rfl⟩ := Option.map_eq_some_iff.mp hs
    exact hsame rfl rfl rfl rfl
  | exportFrom r =>
    obtain ⟨rd, -, rfl⟩ := Option.map_eq_some_iff.mp hs
    exact hsame rfl rfl rfl rfl
  | next r =>
    simp only [Engine.step, Engine.next] at hs
    split at hs <;> cases hs
    exact hsame rfl rfl rfl rfl
  | flush =>
    simp only [Engine.step, Engine.flush] at hs
    split at hs <;> cases hs
    next hjob _ => exact .start _ _ hjob fun _ hw => by cases hw
  | compact inputs =>
    simp only [Engine.step, Engine.compact] at hs
    split at hs <;> cases hs
    next hpre => exact .start _ _ hpre.1 fun _ hw => by cases hw
  | restore snap =>
    simp only [Engine.step, Engine.restore] at hs
    split at hs <;> cases hs
    next hpre => exact .start _ _ hpre.1 fun x hw => by rw [Work.restore.inj hw]
  | work => exact .work hs
  | abort x =>
    simp only [Engine.step, Engine.abort] at hs
    split at hs
    · next hjob =>
      cases hs
      exact .abort s.dead (.inr fun _ => by rw [hjob]; rfl)
    · next hjob =>
      cases hs
      exact .abort s.dead (.inr fun _ => by rw [hjob]; rfl)
    · next hjob =>
      cases hs
      exact .abort true (.inr fun _ => by rw [hjob]; rfl)
    · next hjob =>
      split at hs <;> cases hs
      exact .abort true (.inr fun _ => by rw [hjob]; rfl)
    · next tmp _ =>
      cases hs
      exact .abort s.dead (.inl ⟨tmp, rfl⟩)
    · cases hs
  | unlink num =>
    simp only [Engine.step, Engine.unlink] at hs
    split at hs <;> cases hs
    exact hsame rfl rfl rfl rfl

/-! ## The tables of `Restore`. -/

/-- The table of the `Restore` that runs. -/
def Job.snap : Job → Option (List KeyVersion)
  | .busy (.restore snap) _ => some snap
  | _ => none

/-- A step takes no table but the one a `Restore` is called with. -/
def SnapKept (s : Engine) (e : EngineEvent) (s' : Engine) : Prop :=
  s'.job.snap = none ∨ s'.job.snap = s.job.snap ∨ ∃ snap, e = .restore snap ∧ s'.job.snap = some snap

theorem snapKept_of_phase {e : EngineEvent} {s' : Engine} {w : Work} {p p' : Phase} (h : s.job = .busy w p)
    (h' : s'.job = .busy w p') : SnapKept s e s' := by
  refine .inr (.inl ?_)
  rw [h, h']
  cases w <;> rfl

theorem work_snapKept {e : EngineEvent} (hs : s.work d = some f) : SnapKept s e f.engine := by
  unfold Engine.work at hs
  split at hs
  · cases hs
  · next w num hjob =>
    obtain rfl := Option.some.inj hs
    unfold Engine.finish
    split
    · exact snapKept_of_phase hjob rfl
    · exact snapKept_of_phase hjob rfl
  · next seg t hjob =>
    obtain rfl := Option.some.inj hs
    exact snapKept_of_phase hjob rfl
  · next inputs t hjob =>
    obtain rfl := Option.some.inj hs
    exact snapKept_of_phase hjob rfl
  · next snap t hjob =>
    split at hs
    · cases hs
    · obtain rfl := Option.some.inj hs
      exact snapKept_of_phase hjob rfl
  · next w t hjob =>
    obtain rfl := Option.some.inj hs
    exact snapKept_of_phase hjob rfl
  · next w t man hjob =>
    obtain rfl := Option.some.inj hs
    exact snapKept_of_phase hjob rfl
  · next w t man hjob =>
    obtain rfl := Option.some.inj hs
    cases w with
    | flush seg => exact snapKept_of_phase hjob rfl
    | compact inputs => exact .inl rfl
    | restore snap => exact snapKept_of_phase hjob rfl
  · split at hs
    · obtain rfl := Option.some.inj hs
      exact .inl rfl
    · obtain rfl := Option.some.inj hs
      exact .inr (.inl rfl)

theorem step_snapKept {e : EngineEvent} (hs : s.step limit d e = some f) : SnapKept s e f.engine := by
  have htaken := step_taken hs
  generalize f.engine = s' at htaken ⊢
  cases htaken with
  | aside h => exact .inr (.inl (congrArg Job.snap h.job))
  | start w obs _ hw =>
    cases w with
    | flush seg => exact .inl rfl
    | compact inputs => exact .inl rfl
    | restore snap => exact .inr (.inr ⟨snap, hw snap rfl, rfl⟩)
  | work h => exact work_snapKept h
  | abort b _ => exact .inl rfl

/-! ## Runs. -/

/-- The account of what a host shows. -/
def Account.noteHost (A : Account) : HostObs → Account
  | .engine o => A.note o
  | _ => A

def Account.AllowsHost (A : Account) : HostObs → Prop
  | .engine o => A.Allows o
  | _ => True

/-- A host whose engine runs, with the account of what it has shown. -/
def Serves (A : Account) (x : Host) : Prop :=
  ∃ s done, x.proc = some s ∧ Running A s done ∧ ∀ snap, s.job.snap = some snap → Orderly snap

/-- A step of the engine, with the promise of the caller of `Restore`. -/
def Promises (_ : Host) (e : HostEvent) : Prop :=
  ∃ step, e = .step step ∧ ∀ snap, step = .restore snap → Orderly snap

theorem foldl_noteHost (A : Account) (os : List EngineObs) :
    (os.map HostObs.engine).foldl Account.noteHost A = os.foldl Account.note A := by
  rw [List.foldl_map]
  rfl

theorem serves_step {A : Account} {x x' : Host} {e : HostEvent} {shown : List HostObs} (h : Serves A x)
    (he : Promises x e) (hs : (host limit).exec x e = some (x', shown)) :
    Serves (shown.foldl Account.noteHost A) x' ∧
      ∀ pre o post, shown = pre ++ o :: post → (pre.foldl Account.noteHost A).AllowsHost o := by
  obtain ⟨s, done, hproc, hR, hsnap⟩ := h
  obtain ⟨e, rfl, hcall⟩ := he
  obtain ⟨dir, proc⟩ := x
  obtain rfl : proc = some s := hproc
  obtain ⟨f, hf, hx⟩ := Option.map_eq_some_iff.mp hs
  obtain ⟨rfl, rfl⟩ := Prod.mk.inj hx
  have hsound : s.Sound e := by
    cases e with
    | work =>
      intro snap t man hjob
      refine hsnap snap ?_
      rw [hjob]
      rfl
    | _ => trivial
  obtain ⟨⟨done', hR'⟩, hallows⟩ := step_kept hR hsound hf
  refine ⟨⟨f.engine, done', rfl, ?_, fun snap hjob => ?_⟩, fun pre o post hsplit => ?_⟩
  · rw [foldl_noteHost]
    exact hR'
  · rcases step_snapKept hf with hnone | hold | ⟨snap', rfl, hnew⟩
    · cases hnone.symm.trans hjob
    · exact hsnap snap (hold.symm.trans hjob)
    · cases hnew.symm.trans hjob
      exact hcall snap rfl
  · obtain ⟨pre', rest, hobs, rfl, hrest⟩ := List.map_eq_append_iff.mp hsplit
    obtain ⟨o', post', rfl, rfl, -⟩ := List.map_eq_cons_iff.mp hrest
    rw [foldl_noteHost]
    exact hallows pre' o' post' hobs

/-- The engine that `Open` makes in an empty directory. -/
theorem serves_fresh {x : Host} {shown : List HostObs}
    (hs : (host limit).exec {} (.start []) = some (x, shown)) : Serves {} x ∧ shown = [.started] := by
  obtain ⟨rfl, rfl⟩ := Prod.mk.inj (Option.some.inj hs)
  refine ⟨⟨_, [], rfl, ?_, fun snap hjob => by cases hjob⟩, rfl⟩
  have hstack : Stack 0 [[]] ∅ := stack_mapOf orderly_nil (below_nil 0)
  have hempty : ∀ e : KeyVersion, ∀ {mems : ℕ → Memtable}, (mems 1).entries = [] →
      ¬ Version.Has mems ⟨1, [], []⟩ e := by
    rintro e mems hmem ⟨t, ht, he⟩
    rw [List.mem_singleton.mp (show t ∈ [(mems 1).entries] from ht), hmem] at he
    cases he
  exact
    { shows := shows_iff.mpr hstack
      full := shows_iff.mpr hstack
      below := fun e he => absurd he (hempty e rfl)
      frozen := fun g hg => absurd hg List.not_mem_nil
      tables := fun u hu => absurd hu List.not_mem_nil
      known := fun e he => absurd he (hempty e rfl)
      segs := List.pairwise_singleton _ _
      walSeg := Nat.le_refl _
      nums := List.nodup_nil
      fresh := fun u hu => absurd hu List.not_mem_nil
      writer := ⟨rfl, rfl⟩
      job := trivial
      incoming := rfl
      readers := fun r rd hrd => by cases hrd }

/-- What holds after a run, and at each moment of it. -/
theorem serves_run {steps : List EngineEvent} {x : Host} {shown : List HostObs}
    (hrun : (host limit).run {} (.start [] :: steps.map .step) = some (x, shown))
    (hsnap : ∀ snap, .restore snap ∈ steps → Orderly snap) :
    Serves (shown.foldl Account.noteHost {}) x ∧
      ∀ pre o post, shown = pre ++ o :: post → (pre.foldl Account.noteHost {}).AllowsHost o := by
  obtain ⟨x₀, shown₀, shown₁, hstart, hrest, rfl⟩ := Machine.run_cons hrun
  obtain ⟨hserves, rfl⟩ := serves_fresh hstart
  have hmeets : (host limit).Meets Promises x₀ (steps.map .step) := by
    refine (host limit).meets_of_forall (fun e he y => ?_) x₀
    obtain ⟨step, hstep, rfl⟩ := List.mem_map.mp he
    exact ⟨step, rfl, fun snap heq => hsnap snap (heq ▸ hstep)⟩
  obtain ⟨hend, hallows⟩ := Machine.run_folded serves_step hserves hmeets hrest
  refine ⟨hend, fun pre o post hsplit => ?_⟩
  cases pre with
  | nil =>
    obtain ⟨ho, -⟩ := List.cons.inj hsplit
    rw [← ho]
    trivial
  | cons y pre =>
    obtain ⟨hy, hlater⟩ := List.cons.inj hsplit
    subst hy
    exact hallows pre o post hlater

/-- A scan opened while a batch of two operations is half inserted; the batch is published and everything
is replaced by a `Restore` before the scan goes on. -/
def scanUnderRestore : List EngineEvent :=
  [.begin [[⟨.put, [1], [10]⟩]], .append, .install, .insert, .publish,
    .begin [[⟨.put, [1], [20]⟩, ⟨.put, [2], [21]⟩]], .append, .install, .insert,
    .acquire 0, .scan 0 [] none, .insert, .publish,
    .restore [⟨[3], trailer 1 kindPut, [30]⟩], .work, .work, .work, .work, .work, .next 0, .next 0]

/-- What it shows before the scan goes on. -/
def scanUnderRestoreShown : List HostObs :=
  [.started, .engine (.began 1 [[⟨.put, [1], [10]⟩]]), .engine (.wrote [[⟨.put, [1], [10]⟩]]),
    .engine (.began 2 [[⟨.put, [1], [20]⟩, ⟨.put, [2], [21]⟩]]), .engine (.acquired 0),
    .engine (.opened 0 [] none), .engine (.wrote [[⟨.put, [1], [20]⟩, ⟨.put, [2], [21]⟩]]),
    .engine (.restoring [⟨[3], trailer 1 kindPut, [30]⟩]), .engine (.restored [⟨[3], trailer 1 kindPut, [30]⟩])]

/-- All that it shows: the scan yields the pair that was there when it came. -/
def scanUnderRestoreAll : List HostObs :=
  scanUnderRestoreShown ++ .engine (.yielded 0 (some ⟨[1], trailer 1 kindPut, [10]⟩)) ::
    [.engine (.yielded 0 none)]

theorem run_scanUnderRestore :
    ∃ x s, (host 4096).run {} (.start [] :: scanUnderRestore.map .step) = some (x, scanUnderRestoreAll) ∧
      x.proc = some s ∧ s.cur.get s.mems s.seq [3] = some [30] := by
  have hshown : ((host 4096).run {} (.start [] :: scanUnderRestore.map .step)).map
      (fun p => (p.2, p.1.proc.map fun s => s.cur.get s.mems s.seq [3])) =
        some (scanUnderRestoreAll, some (some [30])) := by decide +kernel
  obtain ⟨⟨x, shown⟩, hrun, heq⟩ := Option.map_eq_some_iff.mp hshown
  obtain ⟨rfl, hget⟩ := Prod.mk.inj heq
  obtain ⟨s, hproc, hget⟩ := Option.map_eq_some_iff.mp hget
  exact ⟨x, s, hrun, hproc, hget⟩

theorem orderly_scanUnderRestore : ∀ snap, .restore snap ∈ scanUnderRestore → Orderly snap := by
  intro snap hsnap
  have heq : snap = [⟨[3], trailer 1 kindPut, [30]⟩] := by
    simpa [scanUnderRestore] using hsnap
  rw [heq]
  exact ⟨List.pairwise_singleton _ _, List.forall_mem_singleton.mpr ⟨by decide, by decide⟩⟩

/-- THE ENGINE IS A MAP.  After any run, `Get` and a scan read to its end are those of the map that the
acknowledged groups and the `Restore`s that took effect have made, whatever is frozen, flushed, compacted,
half inserted or has failed meanwhile. -/
theorem engine_is_map (limit : ℕ) (steps : List EngineEvent) (x : Host) (shown : List HostObs)
    (hrun : (host limit).run {} (.start [] :: steps.map .step) = some (x, shown))
    (hsnap : ∀ snap, .restore snap ∈ steps → Orderly snap) :
    ∃ s m, x.proc = some s ∧ m = (shown.foldl Account.noteHost {}).map ∧
      (∀ key, s.cur.get s.mems s.seq key = m[key]?) ∧
      ∀ start stop n, (m.scan start stop).length < n →
        ((DbIter.seek s.mems s.cur s.seq start stop).drain s.mems n).map pairOf = m.scan start stop := by
  obtain ⟨s, done, hproc, hR, -⟩ := (serves_run hrun hsnap).1
  exact ⟨s, _, hproc, rfl, hR.shows.get, fun start stop n hn => hR.shows.drain start stop hn⟩

/-- After the `Restore` the engine is the map of its table. -/
theorem engine_is_map_restored :
    ∃ x s, (host 4096).run {} (.start [] :: scanUnderRestore.map .step) = some (x, scanUnderRestoreAll) ∧
      x.proc = some s ∧ s.cur.get s.mems s.seq [1] = none ∧ s.cur.get s.mems s.seq [3] = some [30] := by
  obtain ⟨x, -, hrun, -⟩ := run_scanUnderRestore
  obtain ⟨s, m, hproc, rfl, hget, -⟩ := engine_is_map 4096 _ x _ hrun orderly_scanUnderRestore
  exact ⟨x, s, hrun, hproc, (hget [1]).trans (by decide +kernel), (hget [3]).trans (by decide +kernel)⟩

/-- NOTHING IS INVENTED.  Every version of a key in a memtable or a table of the engine is one that was
committed or restored, with the value and the sequence number it had then, or belongs to the group that is
being written; only such a one can lie above the published sequence number. -/
theorem versions_were_written (limit : ℕ) (steps : List EngineEvent) (x : Host) (shown : List HostObs)
    (hrun : (host limit).run {} (.start [] :: steps.map .step) = some (x, shown))
    (hsnap : ∀ snap, .restore snap ∈ steps → Orderly snap) :
    ∃ s A, x.proc = some s ∧ A = shown.foldl Account.noteHost {} ∧
      ∀ e, s.cur.Has s.mems e → e ∈ A.cells ++ A.issued ∧ (s.seq < seqOf e → A.pending ≠ none) := by
  obtain ⟨s, done, hproc, hR, -⟩ := (serves_run hrun hsnap).1
  refine ⟨s, _, hproc, rfl, fun e he => ?_⟩
  have hknown := hR.known e he
  have hbelow := hR.below e he
  have hwriter := hR.writer
  unfold WriterOK at hwriter
  -- while nothing is being inserted, every version is below the published number
  have hidle : done = [] → e ∈ (shown.foldl Account.noteHost {}).cells ++
      (shown.foldl Account.noteHost {}).issued ∧ ¬ s.seq < seqOf e := by
    rintro rfl
    rw [cellsFrom, List.append_nil] at hknown
    exact ⟨List.mem_append_left _ hknown, Nat.not_lt.mpr hbelow⟩
  split at hwriter
  · exact ⟨(hidle hwriter.2).1, fun hlt => absurd hlt (hidle hwriter.2).2⟩
  · exact ⟨(hidle hwriter.2.2).1, fun hlt => absurd hlt (hidle hwriter.2.2).2⟩
  · exact ⟨(hidle hwriter.2.2.1).1, fun hlt => absurd hlt (hidle hwriter.2.2.1).2⟩
  · next group todo next hw =>
    obtain ⟨hpend, -, hflat, -⟩ := hwriter
    refine ⟨?_, fun _ hnone => by rw [hnone] at hpend; cases hpend⟩
    have hissued : (shown.foldl Account.noteHost {}).issued = cellsFrom (s.seq + 1) (done ++ todo) := by
      unfold Account.issued
      rw [hpend, ← hflat]
      rfl
    rw [hissued, cellsFrom_append]
    rcases List.mem_append.mp hknown with hin | hin
    · exact List.mem_append_left _ hin
    · exact List.mem_append_right _ (List.mem_append_left _ hin)

/-- At the end of that run nothing is being written. -/
theorem versions_were_written_restored :
    ∃ x s, (host 4096).run {} (.start [] :: scanUnderRestore.map .step) = some (x, scanUnderRestoreAll) ∧
      x.proc = some s ∧ ∀ e, s.cur.Has s.mems e →
        e ∈ (scanUnderRestoreAll.foldl Account.noteHost {}).cells ∧ ¬ s.seq < seqOf e := by
  obtain ⟨x, -, hrun, -⟩ := run_scanUnderRestore
  obtain ⟨s, A, hproc, rfl, hall⟩ := versions_were_written 4096 _ x _ hrun orderly_scanUnderRestore
  refine ⟨x, s, hrun, hproc, fun e he => ⟨?_, fun hlt => (hall e he).2 hlt rfl⟩⟩
  exact (List.mem_append.mp (hall e he).1).resolve_right List.not_mem_nil

end Keystone.Storage
