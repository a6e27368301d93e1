/-
# Keystone.Storage.LastSeq — the sequence number in the MANIFEST (`storage/manifest.go`).

`lastSeq` is the highest sequence number in any table the MANIFEST lists; `Open` counts on from it.  The
running engine keeps it in `flushedSeq`: a flush raises it, and `Restore` sets it to that of its own table
while the old tables are still there.  In every run in which no `Restore` fails at that point, each
MANIFEST covers its tables; after such a failure one may not (`lastSeq_after_failed_restore`).
-/
import Keystone.Storage.SnapshotReads

namespace Keystone.Storage

open Keystone.Lib

variable {A : Account} {s s' : Engine} {done : List BatchOp} {f : Effect} {limit : ℕ} {d : Dir}

/-- The sequence marks of the memtables and of the tables. -/
structure Covered (s : Engine) : Prop where
  mems : ∀ g, Below (s.mems g).maxSeq (s.mems g).entries
  tables : ∀ u ∈ s.job.counted s.cur.tables, Below s.flushedSeq u.entries

theorem below_put {m : Memtable} (h : Below m.maxSeq m.entries) (seq : ℕ) (op : RawOp) :
    Below (m.put seq op).maxSeq (m.put seq op).entries := by
  intro e he
  show seqOf e ≤ if seq > m.maxSeq then seq else m.maxSeq
  rcases Tiers.mem_insert.mp he with rfl | he
  · exact (trailer_div seq op.kind).le.trans (by split <;> omega)
  · have := h e he
    split <;> omega

theorem Covered.aside (h : Covered s) (hs : Aside s s') : Covered s' := by
  refine ⟨fun g => ?_, ?_⟩
  · rcases hs.mems g with heq | heq | ⟨seq, op, heq⟩
    · rw [heq]
      exact h.mems g
    · rw [heq]
      exact below_nil _
    · rw [heq]
      exact below_put (h.mems g) seq op
  · rw [hs.job, hs.tables, hs.flushedSeq]
    exact h.tables

/-- A step of the work that changes neither the memtables nor the mark. -/
theorem Covered.of_counted (h : Covered s) (hmems : s'.mems = s.mems) (hseq : s'.flushedSeq = s.flushedSeq)
    (heq : s'.job.counted s'.cur.tables = s.job.counted s.cur.tables) : Covered s' := by
  refine ⟨hmems ▸ h.mems, ?_⟩
  rw [heq, hseq]
  exact h.tables

/-- The tables of the version to be installed are counted. -/
theorem installed_subset {w : Work} {t : Option Table} {man : Manifest} :
    (s.installWork t man w).engine.cur.tables ⊆ (Job.busy w (.staged t man)).counted s.cur.tables := by
  intro u hu
  cases w with
  | flush seg => exact hu
  | compact inputs => exact mem_replaceRun hu
  | restore snap =>
    have hu : u ∈ if snap = [] then [] else t.toList := hu
    split at hu
    · cases hu
    · exact hu

theorem Covered.installed (h : Covered s) {w : Work} {t : Option Table} {man : Manifest}
    (hjob : s.job = .busy w (.renamed t man)) : Covered (s.installWork t man w).engine := by
  have htables := h.tables
  rw [hjob] at htables
  cases w with
  | flush seg => exact ⟨h.mems, fun u hu => htables u (installed_subset hu)⟩
  | compact inputs => exact ⟨h.mems, fun u hu => htables u (installed_subset hu)⟩
  | restore snap =>
    refine ⟨fun g => ?_, fun u hu => htables u (installed_subset hu)⟩
    show Below (Function.update s.mems man.logNum {} g).maxSeq (Function.update s.mems man.logNum {} g).entries
    by_cases hg : g = man.logNum
    · rw [hg, Function.update_self]
      exact below_nil _
    · rw [Function.update_of_ne hg]
      exact h.mems g

theorem Covered.work (h : Covered s) (hR : Running A s done) (hs : s.work d = some f) : Covered f.engine := by
  have htables := h.tables
  unfold Engine.work at hs
  split at hs
  · cases hs
  · next w num hjob =>
    obtain rfl := Option.some.inj hs
    have hkept : ∀ t, (Job.busy w (.written t)).counted s.cur.tables = s.job.counted s.cur.tables := by
      intro t
      rw [hjob]
      cases w <;> rfl
    unfold Engine.finish
    split
    · exact h.of_counted rfl rfl (hkept _)
    · exact h.of_counted rfl rfl (hkept _)
  · next seg t hjob =>
    obtain ⟨-, hmade⟩ := hR.phase hjob
    rw [hjob] at htables
    obtain rfl := Option.some.inj hs
    refine ⟨h.mems, List.forall_mem_append.mpr ⟨fun u hu => ?_, fun u hu => (htables u hu).mono ?_⟩⟩
    · rw [hmade.1.entries hu]
      refine (below_flushed (h.mems seg)).mono ?_
      show _ ≤ if (s.mems seg).maxSeq > s.flushedSeq then _ else _
      split <;> omega
    · show _ ≤ if (s.mems seg).maxSeq > s.flushedSeq then _ else _
      split <;> omega
  · next inputs t hjob =>
    obtain ⟨hsuits, hmade⟩ := hR.phase hjob
    rw [hjob] at htables
    obtain rfl := Option.some.inj hs
    refine ⟨h.mems, List.forall_mem_append.mpr ⟨fun u hu => ?_, htables⟩⟩
    rw [hmade.1.entries hu]
    exact below_compacted fun x hx => htables x (hsuits.2.subset hx)
  · next snap t hjob =>
    obtain ⟨-, num, rfl, -⟩ := hR.phase hjob
    split at hs
    · cases hs
    · obtain rfl := Option.some.inj hs
      exact ⟨h.mems, List.forall_mem_singleton.mpr (below_maxSeqOf snap)⟩
  · next w t hjob =>
    obtain ⟨-, -, -, snap, rfl⟩ := hR.phase hjob
    obtain rfl := Option.some.inj hs
    exact h.of_counted rfl rfl (by rw [hjob]; rfl)
  · next w t man hjob =>
    obtain rfl := Option.some.inj hs
    exact h.of_counted rfl rfl (by rw [hjob]; cases w <;> rfl)
  · next w t man hjob =>
    obtain rfl := Option.some.inj hs
    exact h.installed hjob
  · next w keep hjob =>
    split at hs
    · obtain rfl := Option.some.inj hs
      exact h.of_counted rfl rfl (by rw [hjob]; cases w <;> rfl)
    · obtain rfl := Option.some.inj hs
      exact h

theorem Covered.step (h : Covered s) (hR : Running A s done) {e : EngineEvent}
    (he : ∀ tmp, e ≠ .abort (.manifest tmp)) (hs : s.step limit d e = some f) : Covered f.engine := by
  have htaken := step_taken hs
  generalize f.engine = s' at htaken ⊢
  cases htaken with
  | aside haside => exact h.aside haside
  | start w obs hjob _ => exact h.of_counted rfl rfl (by rw [hjob]; cases w <;> rfl)
  | work hwork => exact h.work hR hwork
  | abort b hx =>
    rcases hx with ⟨tmp, rfl⟩ | hsame
    · exact absurd rfl (he tmp)
    · exact h.of_counted rfl rfl (hsame _).symm

/-- A host whose engine runs, with the right marks. -/
def Counts (x : Host) : Prop := ∃ A, Serves A x ∧ ∀ s, x.proc = some s → Covered s

theorem counts_step {steps : List EngineEvent} (hsnap : ∀ snap, .restore snap ∈ steps → Orderly snap)
    (hfail : ∀ tmp, .abort (.manifest tmp) ∉ steps) {x x' : Host} {e : HostEvent} {shown : List HostObs}
    (h : Counts x) (he : e ∈ steps.map .step) (hs : (host limit).exec x e = some (x', shown)) : Counts x' := by
  obtain ⟨A, hserves, hcovered⟩ := h
  obtain ⟨step, hstep, rfl⟩ := List.mem_map.mp he
  refine ⟨_, (serves_step hserves ⟨step, rfl, fun snap heq => hsnap snap (heq ▸ hstep)⟩ hs).1, ?_⟩
  obtain ⟨s, done, hproc, hR, -⟩ := hserves
  obtain ⟨dir, proc⟩ := x
  obtain rfl : proc = some s := hproc
  obtain ⟨f, hf, hx⟩ := Option.map_eq_some_iff.mp hs
  obtain ⟨rfl, -⟩ := Prod.mk.inj hx
  intro s' hs'
  obtain rfl := Option.some.inj hs'
  exact (hcovered s rfl).step hR (fun tmp heq => hfail tmp (heq ▸ hstep)) hf

/-- THE MANIFEST COVERS ITS TABLES.  In every run without a `Restore` that fails to write its MANIFEST, each
MANIFEST lists the tables of the version it is written for, and no version of a key in them has a sequence
number above `lastSeq`. -/
theorem manifest_covers_tables (limit : ℕ) (steps : List EngineEvent) (x : Host) (shown : List HostObs)
    (hrun : (host limit).run {} (.start [] :: steps.map .step) = some (x, shown))
    (hsnap : ∀ snap, .restore snap ∈ steps → Orderly snap) (hfail : ∀ tmp, .abort (.manifest tmp) ∉ steps) :
    ∃ s, x.proc = some s ∧ ∀ w t man, s.job = .busy w (.staged t man) →
      man.tables = (s.installWork t man w).engine.cur.tables.map Table.num ∧
        ∀ u ∈ (s.installWork t man w).engine.cur.tables, Below man.lastSeq u.entries := by
  obtain ⟨x₀, shown₀, shown₁, hstart, hrest, rfl⟩ := Machine.run_cons hrun
  have hfresh : Counts x₀ := by
    refine ⟨_, (serves_fresh hstart).1, fun s hs => ?_⟩
    obtain ⟨rfl, -⟩ := Prod.mk.inj (Option.some.inj hstart)
    obtain rfl := Option.some.inj hs
    exact ⟨fun _ => below_nil _, fun u hu => by cases hu⟩
  obtain ⟨A, ⟨s, done, hproc, hR, -⟩, hcovered⟩ := Machine.run_invariant (counts_step hsnap hfail) hfresh
    ((host limit).meets_of_forall (fun e he _ => he) x₀) hrest
  refine ⟨s, hproc, fun w t man hjob => ?_⟩
  have htables := (hcovered s hproc).tables
  obtain ⟨-, hmade, -, rfl⟩ := hR.phase hjob
  rw [hjob] at htables
  cases w with
  | flush seg => exact ⟨rfl, fun u hu => htables u (installed_subset hu)⟩
  | compact inputs => exact ⟨rfl, fun u hu => htables u (installed_subset hu)⟩
  | restore snap =>
    obtain ⟨num, rfl, -⟩ := hmade
    refine ⟨by by_cases hnil : snap = [] <;> simp [Engine.installWork, Engine.manifestOf, hnil], fun u hu => ?_⟩
    have hu : u ∈ [⟨num, snap⟩] := installed_subset hu
    rw [List.mem_singleton.mp hu]
    exact below_maxSeqOf snap

def restored : KeyVersion := ⟨[3], trailer 5 kindPut, [30]⟩

/-- A `Restore` goes through, and one of an empty table fails at its MANIFEST.  The next write then freezes
a memtable without entries, and the flush of it writes a MANIFEST. -/
def failedRestore : List EngineEvent :=
  .restore [restored] :: List.replicate 7 .work ++
    [.restore [], .work, .work, .abort (.manifest false),
      .begin [[⟨.put, [1], [10]⟩]], .append, .install, .flush, .work, .work]

/-- The MANIFEST of the first `Restore` covers its table. -/
theorem manifest_covers_tables_restored :
    ∃ x s man, ((host 4096).run {} (.start [] :: (failedRestore.take 4).map .step)).map Prod.fst = some x ∧
      x.proc = some s ∧ s.job = .busy (.restore [restored]) (.staged (some ⟨1, [restored]⟩) man) ∧
        Below man.lastSeq [restored] := by
  have hstaged : ((host 4096).run {} (.start [] :: (failedRestore.take 4).map .step)).map
      (fun r => r.1.proc.map Engine.job) =
        some (some (.busy (.restore [restored]) (.staged (some ⟨1, [restored]⟩) ⟨2, 5, 2, [1]⟩))) := by
    decide +kernel
  obtain ⟨⟨x, shown⟩, hrun, hx⟩ := Option.map_eq_some_iff.mp hstaged
  obtain ⟨s, hproc, hall⟩ := manifest_covers_tables 4096 _ x shown hrun (fun snap hsnap => by
    obtain rfl : snap = [restored] := by simpa [failedRestore] using hsnap
    exact ⟨List.pairwise_singleton _ _, List.forall_mem_singleton.mpr ⟨by decide, by decide⟩⟩)
    (by decide)
  obtain ⟨_, hproc', hjob⟩ := Option.map_eq_some_iff.mp hx
  cases hproc.symm.trans hproc'
  exact ⟨x, s, _, by rw [hrun]; rfl, hproc, hjob, (hall _ _ _ hjob).2 ⟨1, [restored]⟩ List.mem_cons_self⟩

/-- After the second one, a MANIFEST has `lastSeq` 0 and lists a table with sequence number 5. -/
theorem lastSeq_after_failed_restore :
    ((host 4096).run {} (.start [] :: failedRestore.map .step)).map
        (fun r => r.1.proc.map fun s => (s.job, s.cur.tables)) =
      some (some (.busy (.flush 2) (.staged none ⟨4, 0, 3, [1]⟩), [⟨1, [restored]⟩])) := by
  decide +kernel

end Keystone.Storage
