/-
# Keystone.Storage.TableLifetime — no table in use is closed, and a removed one goes exactly once.

The invariant of the machine of `Storage.TableRefs` is `LifeOK`.  It says that the counts are what they
are said to be (`Counts`, in `Storage.TableCounts`), and that what the holders of the two locks are about
to do is right: the tables a new version lists are current or were made for it, a table that leaves the
current version is marked as gone, a `Restore` that has not marked all of them yet still owns the version
that lists them, and a restored table whose file is removed by name is listed nowhere and read by nobody.

Most steps leave the versions alone (`SamePlan`), or change who is current to what without changing what
is listed (`Keeps`); only a job that publishes its version lists other tables.  A removed table without
holders has a close or an unlink pending, and these lead to one close and one unlink (`closes`).
-/
import Keystone.Storage.TableCounts

namespace Keystone.Storage

open Keystone.Lib
open Function (update)

/-! ## The plan. -/

/-- Whether the maker of a job's table still holds it. -/
def InstallPhase.holds : InstallPhase → Bool
  | .removing => false
  | _ => true

/-- Neither `d.mu` nor a version that was replaced is involved. -/
def InstallPhase.plain : InstallPhase → Bool
  | .installing | .retiring _ _ => false
  | _ => true

theorem InstallPhase.owns_of_plain {p : InstallPhase} (h : p.plain = true) (v : ℕ) :
    p.owns v = 0 := by
  cases p with
  | retiring old todo => cases h
  | _ => rfl

namespace Lifetimes

variable {s s' : Lifetimes} {t u v : ℕ} {j k : InstallJob}

/-- Before a job publishes its version, its inputs are current and no version lists its table. -/
def Unpublished (s : Lifetimes) (j : InstallJob) : Prop :=
  (∀ t ∈ j.task.inputs, t ∈ s.live) ∧ ∀ t, j.out = some t → ¬ s.Listed t

/-- No version lists the table of the job, not even one under construction, and nobody reads it. -/
def Unused (s : Lifetimes) (j : InstallJob) : Prop :=
  ∀ t, j.out = some t → (∀ v < s.nextVersion, t ∉ (s.versions v).tables) ∧ some t ∉ s.iters

/-- What holds of a job in a phase.  The table of an empty `Restore` is never listed. -/
def PhaseOK (s : Lifetimes) (j : InstallJob) : InstallPhase → Prop
  | .reading todo => s.Unpublished j ∧ (∀ t ∈ todo, t ∈ s.live ∨ j.out = some t) ∧
      ∀ b t, j.task = .restore b → j.out = some t → ∀ i, s.iters[i]? = some (some t) → i ∈ j.iters
  | .marking todo => s.Unpublished j ∧ (∀ t ∈ todo, t ∈ j.task.inputs) ∧
      (∀ t ∈ j.task.inputs, t ∈ todo ∨ (s.files t).gone = true) ∧
      (j.task = .restore true → s.Unused j)
  | .installing => ((∀ old, s.mu ≠ .dropping true old) → s.Unpublished j) ∧
      (∀ t ∈ j.task.inputs, (s.files t).gone = true) ∧ (j.task = .restore true → s.Unused j)
  | .retiring old todo => (old < s.nextVersion ∧ ¬ s.Builds old) ∧
      (∀ t ∈ todo, t ∈ (s.versions old).tables) ∧ (j.task = .restore true → s.Unused j)
  | .releasing remove => remove = true → s.Unused j
  | .removing => s.Unused j

/-- A job, its table and its phase. -/
def JobOK (s : Lifetimes) (j : InstallJob) : Prop :=
  (∀ t, j.out = some t → t < s.nextTable ∧ s.creator t = j.phase.holds) ∧ s.PhaseOK j j.phase

/-- What the holder of `d.mu` is about to do. -/
def MuOK (s : Lifetimes) : MuHolder → Prop
  | .free => True
  | .building false v _ => (s.versions v).tables = s.live
  | .building true v _ =>
    ∃ j, s.job = some j ∧ j.phase = .installing ∧ (s.versions v).tables = j.tables s.live
  | .dropping job old =>
    old < s.nextVersion ∧ (job = true → ∃ j, s.job = some j ∧ j.phase = .installing)

/-- A `Restore` has yet to mark the table. -/
def Owes (s : Lifetimes) (t : ℕ) : Prop :=
  ∃ j old todo, s.job = some j ∧ j.phase = .retiring old todo ∧ t ∈ todo

/-- The invariant. -/
structure LifeOK (s : Lifetimes) : Prop where
  counts : Counts s
  bounded : ∀ v < s.nextVersion, ∀ t ∈ (s.versions v).tables, t < s.nextTable
  mu : s.MuOK s.mu
  job : ∀ j, s.job = some j → s.JobOK j
  picked : ∀ inputs, s.picked = some inputs → s.compacts = false ∧ (∀ t ∈ inputs, s.Listed t) ∧
    ((∀ t ∈ inputs, t ∈ s.live) ∨ ∀ t ∈ inputs, t ∉ s.live)
  gone : ∀ t, (s.files t).gone = true → s.Listed t
  removed : ∀ t, s.Removed t → (s.files t).gone = true ∨ s.Owes t

theorem listed_of_live (h : Counts s) (ht : t ∈ s.live) : s.Listed t :=
  ⟨s.current, h.current, h.not_builds_current, ht⟩

theorem Unused.not_listed (h : s.Unused j) (ht : j.out = some t) : ¬ s.Listed t := by
  rintro ⟨v, hv, -, hmem⟩
  exact (h t ht).1 v hv hmem

theorem compacts_eq_false :
    s.compacts = false ↔ ∀ j, s.job = some j → ∀ inputs, j.task ≠ .compact inputs := by
  unfold compacts
  split
  · next inputs out iters phase hj =>
    exact ⟨fun h => (by cases h), fun h => absurd rfl (h _ hj inputs)⟩
  · next hnot =>
    refine ⟨fun _ j hj inputs htask => ?_, fun _ => rfl⟩
    obtain ⟨task, out, iters, phase⟩ := j
    exact hnot inputs out iters phase (hj.trans (by rw [show task = .compact inputs from htask]))

/-- While a compaction is at work nothing is picked. -/
theorem LifeOK.not_compact (h : LifeOK s) (hj : s.job = some j) {inputs : List ℕ}
    (hp : s.picked = some inputs) (ins : List ℕ) : j.task ≠ .compact ins :=
  compacts_eq_false.mp (h.picked inputs hp).1 j hj ins

/-- The holder of `d.mu` does nothing for a job that is not installing. -/
theorem MuOK.rejob {job : Option InstallJob} (h : s.MuOK s.mu)
    (hj : ∀ j, s.job = some j → j.phase ≠ .installing) :
    ({ s with job := job } : Lifetimes).MuOK s.mu := by
  revert h
  cases s.mu with
  | free => exact id
  | building forJob v todo =>
    cases forJob with
    | false => exact id
    | true =>
      rintro ⟨j, hjob, hp, -⟩
      exact absurd hp (hj j hjob)
  | dropping forJob old =>
    refine fun h => ⟨h.1, fun ht => ?_⟩
    obtain ⟨j, hjob, hp⟩ := h.2 ht
    exact absurd hp (hj j hjob)

/-! ### What the new version of a job lists -/

/-- What a compaction leaves in the list: what was in it, and the output. -/
theorem mem_replaceInputs {inputs : List ℕ} {out : Option ℕ} {b : Bool} {l : List ℕ}
    (h : t ∈ replaceInputs inputs out b l) : t ∈ l ∨ out = some t := by
  induction l generalizing b with
  | nil => cases h
  | cons u l ih =>
    simp only [replaceInputs] at h
    split at h
    · rcases List.mem_append.mp h with h | h
      · cases b with
        | false => exact Or.inr (Option.mem_toList.mp h)
        | true => cases h
      · exact (ih h).imp (List.mem_cons_of_mem u) id
    · rcases List.mem_cons.mp h with rfl | h
      · exact Or.inl (List.mem_cons_self ..)
      · exact (ih h).imp (List.mem_cons_of_mem u) id

theorem mem_replaceInputs_of_not_mem {inputs : List ℕ} {out : Option ℕ} {b : Bool} {l : List ℕ}
    (ht : t ∈ l) (hi : t ∉ inputs) : t ∈ replaceInputs inputs out b l := by
  induction l generalizing b with
  | nil => cases ht
  | cons u l ih =>
    simp only [replaceInputs]
    split
    · next hu =>
      rcases List.mem_cons.mp ht with rfl | ht
      · exact absurd hu hi
      · exact List.mem_append_right _ (ih ht)
    · rcases List.mem_cons.mp ht with rfl | ht
      · exact List.mem_cons_self ..
      · exact List.mem_cons_of_mem u (ih ht)

/-- The new version lists tables of the current one and the one that was made for it. -/
theorem mem_tables {cur : List ℕ} (h : t ∈ j.tables cur) : t ∈ cur ∨ j.out = some t := by
  unfold InstallJob.tables at h
  split at h
  · exact (List.mem_append.mp h).symm.imp id Option.mem_toList.mp
  · exact mem_replaceInputs h
  · split at h
    · cases h
    · exact Or.inr (Option.mem_toList.mp h)

/-- A flush or a compaction takes nothing out but its inputs. -/
theorem mem_tables_of_not_mem {cur : List ℕ} (hr : ∀ b, j.task ≠ .restore b)
    (ht : t ∈ cur) (hi : t ∉ j.task.inputs) : t ∈ j.tables cur := by
  unfold InstallJob.tables
  unfold InstallTask.inputs at hi
  cases hj : j.task with
  | flush => exact List.mem_append_right _ ht
  | compact inputs =>
    rw [hj] at hi
    exact mem_replaceInputs_of_not_mem ht hi
  | restore b => exact absurd hj (hr b)

/-- A restore lists its own table only, and an empty one none. -/
theorem mem_tables_restore {cur : List ℕ} {b : Bool} (hj : j.task = .restore b)
    (h : t ∈ j.tables cur) : b = false ∧ j.out = some t := by
  unfold InstallJob.tables at h
  rw [hj] at h
  cases b with
  | false => exact ⟨rfl, Option.mem_toList.mp h⟩
  | true => cases h

/-! ## Steps that list nothing new. -/

/-- The same tables are current, and the same are listed. -/
structure Keeps (s s' : Lifetimes) : Prop where
  live : s'.live = s.live
  listed : ∀ t, s'.Listed t ↔ s.Listed t
  former : ∀ v < s.nextVersion, ¬ s.Builds v →
    (v < s'.nextVersion ∧ ¬ s'.Builds v) ∧ (s'.versions v).tables = (s.versions v).tables
  within : ∀ v < s'.nextVersion, ∀ t ∈ (s'.versions v).tables,
    (∃ w < s.nextVersion, t ∈ (s.versions w).tables) ∨
      ∃ j, s.job = some j ∧ j.phase = .installing ∧ t ∈ j.tables s.live
  made : s.nextTable ≤ s'.nextTable
  marks : ∀ t, (s.files t).gone = true → (s'.files t).gone = true
  marked : ∀ t, (s'.files t).gone = true → (s.files t).gone = true ∨ s.Listed t

theorem Keeps.refl (s : Lifetimes) : Keeps s s :=
  ⟨rfl, fun _ => Iff.rfl, fun _ hv hb => ⟨⟨hv, hb⟩, rfl⟩, fun v hv _ ht => Or.inl ⟨v, hv, ht⟩, le_rfl,
    fun _ h => h, fun _ h => Or.inl h⟩

/-- What the job does next is not part of it. -/
theorem Keeps.rejob (h : Keeps s s') {job : Option InstallJob} {picked : Option (List ℕ)} :
    Keeps s { s' with job := job, picked := picked } :=
  ⟨h.live, h.listed, h.former, h.within, h.made, h.marks, h.marked⟩

/-- No iterator was opened but on a table that is listed. -/
def SameIters (s s' : Lifetimes) : Prop :=
  ∀ (t i : ℕ), s'.iters[i]? = some (some t) → s.iters[i]? = some (some t) ∨ s.Listed t

/-- The table of a job comes into use only when the job installs it. -/
theorem Keeps.unused (hK : Keeps s s') (hi : SameIters s s') (hj : s.job = some j)
    (hp : j.phase = .installing → j.task = .restore true) (h : s.Unused j) : s'.Unused j := by
  intro t ht
  refine ⟨fun v hv hmem => ?_, fun hmem => ?_⟩
  · rcases hK.within v hv t hmem with ⟨w, hw, hmem⟩ | ⟨k, hk, hpk, hmem⟩
    · exact (h t ht).1 w hw hmem
    · cases hj.symm.trans hk
      cases (mem_tables_restore (hp hpk) hmem).1
  · obtain ⟨i, hti⟩ := List.mem_iff_getElem?.mp hmem
    rcases hi t i hti with hti | hl
    · exact (h t ht).2 (List.mem_of_getElem? hti)
    · exact h.not_listed ht hl

theorem Keeps.unpublished (hK : Keeps s s') (h : s.Unpublished j) : s'.Unpublished j :=
  ⟨fun t ht => hK.live ▸ h.1 t ht, fun t ht hl => h.2 t ht ((hK.listed t).mp hl)⟩

/-- A job that does not notice the step. -/
theorem Keeps.jobOK (hK : Keeps s s') (hi : SameIters s s') (hj : s.job = some j)
    (hcr : ∀ t < s.nextTable, s'.creator t = s.creator t)
    (hmu : ∀ old, s.mu = .dropping true old → s'.mu = .dropping true old)
    (h : s.JobOK j) : s'.JobOK j := by
  obtain ⟨hmade, h⟩ := h
  have hun : (j.phase = .installing → j.task = .restore true) → s.Unused j → s'.Unused j :=
    hK.unused hi hj
  refine ⟨fun t ht => ?_, ?_⟩
  · obtain ⟨hlt, hh⟩ := hmade t ht
    exact ⟨hlt.trans_le hK.made, (hcr t hlt).trans hh⟩
  cases hp : j.phase with
  | reading todo =>
    rw [hp] at h
    obtain ⟨hpub, htodo, hreads⟩ := h
    refine ⟨hK.unpublished hpub, fun t ht => hK.live ▸ htodo t ht, fun b t hb ht i hti => ?_⟩
    rcases hi t i hti with hti | hl
    · exact hreads b t hb ht i hti
    · exact absurd hl (hpub.2 t ht)
  | marking todo =>
    rw [hp] at h hun
    obtain ⟨hpub, hsub, hmark, hu⟩ := h
    exact ⟨hK.unpublished hpub, hsub, fun t ht => (hmark t ht).imp id (hK.marks t),
      fun hr => hun (fun _ => hr) (hu hr)⟩
  | installing =>
    rw [hp] at h
    obtain ⟨hpub, hmark, hu⟩ := h
    exact ⟨fun hd => hK.unpublished (hpub fun old ho => hd old (hmu old ho)),
      fun t ht => hK.marks t (hmark t ht), fun hr => hun (fun _ => hr) (hu hr)⟩
  | retiring old todo =>
    rw [hp] at h
    obtain ⟨⟨hold, hb⟩, htodo, hu⟩ := h
    obtain ⟨hold', htab⟩ := hK.former old hold hb
    exact ⟨hold', fun t ht => htab ▸ htodo t ht, fun hr => hun (fun _ => hr) (hu hr)⟩
  | releasing remove =>
    rw [hp] at h hun
    exact fun hr => hun (fun hi => by cases hi) (h hr)
  | removing =>
    rw [hp] at h hun
    exact hun (fun hi => by cases hi) h

/-- A step that lists nothing new keeps the invariant if the two locks are right after it. -/
theorem LifeOK.change (h : LifeOK s) (hC : Counts s') (hK : Keeps s s') (hmu : s'.MuOK s'.mu)
    (hjob : ∀ j, s'.job = some j → s'.JobOK j)
    (hpick : ∀ inputs, s'.picked = some inputs → s'.compacts = false ∧
      (s.picked = some inputs ∨ ∀ t ∈ inputs, t ∈ s.live))
    (howes : ∀ t, s.Owes t → (s'.files t).gone = true ∨ s'.Owes t) : LifeOK s' where
  counts := hC
  bounded v hv t ht := by
    rcases hK.within v hv t ht with ⟨w, hw, ht⟩ | ⟨j, hj, -, ht⟩
    · exact (h.bounded w hw t ht).trans_le hK.made
    · rcases mem_tables ht with ht | ht
      · exact (h.bounded _ h.counts.current t ht).trans_le hK.made
      · exact ((h.job j hj).1 t ht).1.trans_le hK.made
  mu := hmu
  job := hjob
  picked inputs hp := by
    rw [hK.live]
    obtain ⟨hc, hp | hin⟩ := hpick inputs hp
    · obtain ⟨-, hl, hin⟩ := h.picked inputs hp
      exact ⟨hc, fun t ht => (hK.listed t).mpr (hl t ht), hin⟩
    · exact ⟨hc, fun t ht => (hK.listed t).mpr (listed_of_live h.counts (hin t ht)), Or.inl hin⟩
  gone t ht := (hK.listed t).mpr ((hK.marked t ht).elim (h.gone t) id)
  removed t ht := by
    obtain ⟨hl, hn⟩ := ht
    rw [hK.live] at hn
    rcases h.removed t ⟨(hK.listed t).mp hl, hn⟩ with hg | ho
    · exact Or.inl (hK.marks t hg)
    · exact howes t ho

/-! ### Versions and locks as they were -/

/-- The holder of `d.mu` does what it did, perhaps a turn later. -/
def SameMu (mu mu' : MuHolder) : Prop :=
  mu' = mu ∨ ∃ job v todo todo', mu = .building job v todo ∧ mu' = .building job v todo'

/-- The versions list what they did, the locks are where they were, and only tables of the current or a
former version were marked. -/
structure SamePlan (s s' : Lifetimes) : Prop where
  tables : ∀ v, (s'.versions v).tables = (s.versions v).tables
  marked : ∀ t, (s'.files t).gone = (s.files t).gone ∨ (s'.files t).gone = true ∧ s.Listed t
  made : s.nextTable ≤ s'.nextTable
  creator : ∀ t < s.nextTable, s'.creator t = s.creator t
  nextVersion : s'.nextVersion = s.nextVersion
  current : s'.current = s.current
  mu : SameMu s.mu s'.mu
  job : s'.job = s.job
  picked : s'.picked = s.picked

namespace SamePlan

theorem live (h : SamePlan s s') : s'.live = s.live := by
  unfold Lifetimes.live
  rw [h.current, h.tables]

theorem builds (h : SamePlan s s') : s'.Builds v ↔ s.Builds v := by
  unfold Builds
  rcases h.mu with heq | ⟨job', w, todo₁, todo₂, h₁, h₂⟩
  · rw [heq]
  · rw [h₁, h₂]
    constructor
    · rintro ⟨job, todo, hb⟩
      obtain ⟨rfl, rfl, -⟩ := MuHolder.building.inj hb
      exact ⟨job', todo₁, rfl⟩
    · rintro ⟨job, todo, hb⟩
      obtain ⟨rfl, rfl, -⟩ := MuHolder.building.inj hb
      exact ⟨job', todo₂, rfl⟩

theorem keeps (h : SamePlan s s') : Keeps s s' where
  live := h.live
  listed t := by simp only [Listed, h.nextVersion, h.builds, h.tables]
  former v hv hb := ⟨⟨h.nextVersion ▸ hv, fun hb' => hb (h.builds.mp hb')⟩, h.tables v⟩
  within v hv t ht := Or.inl ⟨v, h.nextVersion ▸ hv, h.tables v ▸ ht⟩
  made := h.made
  marks t ht := (h.marked t).elim (fun he => he.trans ht) And.left
  marked t ht := (h.marked t).imp (fun he => he.symm.trans ht) And.right

theorem muOK (h : SamePlan s s') (hm : s.MuOK s.mu) : s'.MuOK s'.mu := by
  have hsame : ∀ {mu}, s.MuOK mu → s'.MuOK mu := by
    intro mu hm
    cases mu with
    | free => trivial
    | building job v todo =>
      cases job with
      | false => exact (h.tables v).trans (Eq.trans hm h.live.symm)
      | true =>
        obtain ⟨j, hj, hp, ht⟩ := hm
        exact ⟨j, h.job.trans hj, hp, by rw [h.tables, h.live]; exact ht⟩
    | dropping job old =>
      simp only [MuOK, h.nextVersion, h.job]
      exact hm
  rcases h.mu with heq | ⟨job, v, todo, todo', h₁, h₂⟩
  · rw [heq]
    exact hsame hm
  · rw [h₂]
    rw [h₁] at hm
    refine hsame ?_
    cases job with
    | false => exact hm
    | true => exact hm

theorem dropping (h : SamePlan s s') {old : ℕ} (hmu : s.mu = .dropping true old) :
    s'.mu = .dropping true old := by
  rcases h.mu with heq | ⟨job', w, todo₁, todo₂, h₁, h₂⟩
  · exact heq.trans hmu
  · cases hmu.symm.trans h₁

end SamePlan

/-- A step that changes counts, marks, iterators and readers only. -/
theorem LifeOK.same (h : LifeOK s) (hC : Counts s') (hs : SamePlan s s') (hi : SameIters s s') :
    LifeOK s' := by
  refine h.change hC hs.keeps (hs.muOK h.mu) (fun j hj => ?_) (fun inputs hp => ?_) (fun t ht => Or.inr ?_)
  · have hj := hs.job ▸ hj
    exact hs.keeps.jobOK hi hj hs.creator (fun _ => hs.dropping) (h.job j hj)
  · have hp := hs.picked ▸ hp
    refine ⟨?_, Or.inl hp⟩
    unfold compacts
    rw [hs.job]
    exact (h.picked inputs hp).1
  · unfold Owes
    rw [hs.job]
    exact ht

theorem sameIters (h : s'.iters = s.iters) : SameIters s s' := fun _ _ hi => Or.inl (h ▸ hi)

/-- Everything but counts, marks, iterators and readers. -/
def rest (s : Lifetimes) :=
  (s.nextTable, s.creator, s.nextVersion, s.current, s.mu, s.job, s.picked)

theorem samePlan (hv : ∀ w, (s'.versions w).tables = (s.versions w).tables)
    (hg : ∀ t, (s'.files t).gone = (s.files t).gone ∨ (s'.files t).gone = true ∧ s.Listed t)
    (hr : s'.rest = s.rest) : SamePlan s s' := by
  obtain ⟨hnt, hcr, hnv, hc, hmu, hj, hp⟩ := (by simpa only [rest, Prod.mk.injEq] using hr)
  exact ⟨hv, hg, hnt.ge, fun t _ => congrFun hcr t, hnv, hc, Or.inl hmu, hj, hp⟩

theorem tables_setVersion {x : VersionRef} (hx : x.tables = (s.versions v).tables) (w : ℕ) :
    (update s.versions v x w).tables = (s.versions w).tables := by
  by_cases hw : w = v
  · subst hw
    rw [Function.update_self, hx]
  · rw [Function.update_of_ne hw]

theorem gone_setFile (s : Lifetimes) {o : Counted} (ho : o.gone = (s.files t).gone) (u : ℕ) :
    (update s.files t o u).gone = (s.files u).gone ∨
      (update s.files t o u).gone = true ∧ s.Listed u := by
  by_cases hu : u = t
  · subst hu
    rw [Function.update_self, ho]
    exact Or.inl rfl
  · rw [Function.update_of_ne hu]
    exact Or.inl rfl

/-- A reader takes the current version. -/
theorem LifeOK.acquire (h : LifeOK s) (hs : s.acquire = some s') : LifeOK s' := by
  have hC := h.counts.acquire hs
  unfold Lifetimes.acquire at hs
  split at hs <;> cases hs
  exact h.same hC (samePlan (tables_setVersion rfl) (fun _ => Or.inl rfl) rfl) (sameIters rfl)

/-- A reader lets go of its version. -/
theorem LifeOK.release {r : ℕ} (h : LifeOK s) (hs : s.release r = some s') : LifeOK s' := by
  have hC := h.counts.release hs
  unfold Lifetimes.release at hs
  split at hs <;> cases hs
  exact h.same hC (samePlan (tables_setVersion rfl) (fun _ => Or.inl rfl) rfl) (sameIters rfl)

/-- A version that nobody has lets go of a table. -/
theorem LifeOK.dropTable (h : LifeOK s) (hs : s.dropTable v = some s') : LifeOK s' := by
  have hC := h.counts.dropTable hs
  unfold Lifetimes.dropTable at hs
  split at hs
  case h_2 => cases hs
  split at hs <;> cases hs
  exact h.same hC (samePlan (tables_setVersion rfl) (gone_setFile s (Counted.gone_unref _)) rfl)
    (sameIters rfl)

/-- A file that nobody has is closed, -/
theorem LifeOK.closeFile (h : LifeOK s) (hs : s.closeFile t = some s') : LifeOK s' := by
  have hC := h.counts.closeFile hs
  unfold Lifetimes.closeFile at hs
  split at hs <;> cases hs
  exact h.same hC (samePlan (fun _ => rfl) (gone_setFile s (Counted.gone_close _)) rfl) (sameIters rfl)

/-- and unlinked if it was marked. -/
theorem LifeOK.unlinkFile (h : LifeOK s) (hs : s.unlinkFile t = some s') : LifeOK s' := by
  have hC := h.counts.unlinkFile hs
  unfold Lifetimes.unlinkFile at hs
  split at hs <;> cases hs
  exact h.same hC (samePlan (fun _ => rfl) (gone_setFile s (Counted.gone_unlink _)) rfl) (sameIters rfl)

theorem LifeOK.closeIter {i : ℕ} (h : LifeOK s) (hs : s.closeIter i = some s') : LifeOK s' := by
  have hC := h.counts.closeIter hs
  unfold Lifetimes.closeIter at hs
  split at hs <;> cases hs
  · refine h.same hC (samePlan (fun _ => rfl) (gone_setFile s (Counted.gone_unref _)) rfl)
      fun t k hk => Or.inl ?_
    have hk : (s.iters.set i none)[k]? = some (some t) := hk
    rw [List.getElem?_set] at hk
    split at hk
    · split at hk <;> cases hk
    · exact hk
  · exact h

/-- An iterator takes a table of the version its reader has. -/
theorem LifeOK.openIter {r : ℕ} (h : LifeOK s) (hs : s.openIter r t = some s') : LifeOK s' := by
  have hC := h.counts.openIter hs
  unfold Lifetimes.openIter at hs
  split at hs
  case h_2 => cases hs
  next v hr =>
  split at hs <;> cases hs
  next ht =>
  have hmem := List.mem_of_getElem? hr
  have hl : s.Listed t := ⟨v, h.counts.readers v hmem, h.counts.not_builds_reader hmem, ht⟩
  refine h.same hC (samePlan (fun _ => rfl) (gone_setFile s (Counted.gone_ref _)) rfl) fun u i hi => ?_
  have hi : (s.iters ++ [some t])[i]? = some (some u) := hi
  rw [List.getElem?_append] at hi
  split at hi
  · exact Or.inl hi
  · rw [List.getElem?_singleton] at hi
    split at hi <;> cases hi
    exact Or.inr hl

/-! ### Under `d.mu` -/

/-- A version that is not there yet is nobody's. -/
theorem LifeOK.owns_nextVersion (h : LifeOK s) :
    s.job.elim 0 (fun j => j.phase.owns s.nextVersion) = 0 := by
  cases hj : s.job with
  | none => rfl
  | some j =>
    have hJ := (h.job j hj).2
    show j.phase.owns s.nextVersion = 0
    cases hp : j.phase with
    | retiring old todo =>
      rw [hp] at hJ
      exact one_ne hJ.1.1.ne'
    | _ => rfl

theorem LifeOK.keeps_build (h : LifeOK s) {job : Bool} {tables : List ℕ} (hmu : s.mu = .free)
    (htab : ∀ t ∈ tables, t ∈ s.live ∨ ∃ j, s.job = some j ∧ j.phase = .installing ∧
      t ∈ j.tables s.live) : Keeps s (s.build job tables) := by
  have hsame : ∀ v < s.nextVersion, (s.build job tables).versions v = s.versions v :=
    fun v hv => Function.update_of_ne hv.ne ..
  have hnew : (s.build job tables).versions s.nextVersion = { tables := tables, refs := 1 } :=
    Function.update_self ..
  have hbuilds : ∀ v, (s.build job tables).Builds v ↔ v = s.nextVersion := by
    refine fun v => ⟨?_, fun hv => ⟨job, tables, by rw [hv]; rfl⟩⟩
    rintro ⟨job', todo, hb⟩
    have hb : MuHolder.building job s.nextVersion tables = .building job' v todo := hb
    exact (MuHolder.building.inj hb).2.1.symm
  refine ⟨?_, fun t => ⟨?_, ?_⟩, fun v hv _ => ⟨⟨Nat.lt_succ_of_lt hv, ?_⟩, ?_⟩, fun v hv t ht => ?_, le_rfl,
    fun _ ht => ht, fun _ ht => Or.inl ht⟩
  · unfold live
    rw [show (s.build job tables).current = s.current from rfl, hsame _ h.counts.current]
  · rintro ⟨v, hv, hb, ht⟩
    have hv : v < s.nextVersion := by
      have : v < s.nextVersion + 1 := hv
      have : v ≠ s.nextVersion := fun he => hb ((hbuilds v).mpr he)
      omega
    rw [hsame v hv] at ht
    exact ⟨v, hv, fun ⟨_, _, hb⟩ => (by cases hmu.symm.trans hb), ht⟩
  · rintro ⟨v, hv, -, ht⟩
    refine ⟨v, Nat.lt_succ_of_lt hv, fun hb => ?_, by rw [hsame v hv]; exact ht⟩
    exact hv.ne ((hbuilds v).mp hb)
  · exact fun hb => hv.ne ((hbuilds v).mp hb)
  · rw [hsame v hv]
  · rcases Nat.lt_succ_iff_lt_or_eq.mp hv with hv | rfl
    · rw [hsame v hv] at ht
      exact Or.inl ⟨v, hv, ht⟩
    · rw [hnew] at ht
      exact (htab t ht).imp (fun hl => ⟨s.current, h.counts.current, hl⟩) id

/-- `newVersion` starts: nothing is listed before the version is published. -/
theorem LifeOK.build (h : LifeOK s) {job : Bool} {tables : List ℕ} (hmu : s.mu = .free)
    (htab : if job then ∃ j, s.job = some j ∧ j.phase = .installing ∧ tables = j.tables s.live
      else tables = s.live) : LifeOK (s.build job tables) := by
  have hK : Keeps s (s.build job tables) := by
    refine h.keeps_build hmu fun t ht => ?_
    cases job with
    | false => exact Or.inl (htab ▸ ht)
    | true =>
      obtain ⟨j, hj, hp, rfl⟩ := htab
      exact Or.inr ⟨j, hj, hp, ht⟩
  have hnew : ((s.build job tables).versions s.nextVersion).tables = tables := by
    show (update s.versions s.nextVersion _ s.nextVersion).tables = tables
    rw [Function.update_self]
  refine h.change (h.counts.build hmu h.owns_nextVersion) hK ?_ (fun j hj => ?_) (fun inputs hp => ?_)
    fun t ht => Or.inr ht
  · show (s.build job tables).MuOK (.building job s.nextVersion tables)
    cases job with
    | false => exact hnew.trans (Eq.trans htab hK.live.symm)
    | true =>
      obtain ⟨j, hj, hp, rfl⟩ := htab
      exact ⟨j, hj, hp, by rw [hnew, hK.live]⟩
  · refine hK.jobOK (sameIters rfl) hj (fun _ _ => rfl) (fun old ho => ?_) (h.job j hj)
    cases hmu.symm.trans ho
  · exact ⟨(h.picked inputs hp).1, Or.inl hp⟩

theorem LifeOK.rotate (h : LifeOK s) (hs : s.rotate = some s') : LifeOK s' := by
  unfold Lifetimes.rotate at hs
  split at hs <;> cases hs
  next hmu => exact h.build hmu rfl

theorem LifeOK.refTable (h : LifeOK s) (hs : s.refTable = some s') : LifeOK s' := by
  unfold Lifetimes.refTable at hs
  split at hs <;> cases hs
  next job v t todo hmu =>
  obtain ⟨-, -, hsplit⟩ := h.counts.built _ _ _ hmu
  have ht : t ∈ (s.versions v).tables := by
    rw [← hsplit]
    exact List.mem_append_right _ (List.mem_cons_self ..)
  have hm := h.mu
  rw [hmu] at hm
  -- a table that is referenced is current, or held by its maker
  have hpos : 0 < s.holders t := by
    cases job with
    | false =>
      rw [show (s.versions v).tables = s.live from hm] at ht
      exact h.counts.live_pos ht
    | true =>
      obtain ⟨j, hj, hp, htables⟩ := hm
      rw [htables] at ht
      rcases mem_tables ht with ht | hout
      · exact h.counts.live_pos ht
      · have hcr := ((h.job j hj).1 t hout).2
        rw [hp] at hcr
        exact holders_pos_of_creator hcr
  exact h.same (h.counts.refTable hmu hpos)
    ⟨tables_setVersion rfl, gone_setFile s (Counted.gone_ref _), le_rfl, fun _ _ => rfl, rfl, rfl,
      Or.inr ⟨_, _, _, _, hmu, rfl⟩, rfl, rfl⟩ (sameIters rfl)

/-! ## Publishing. -/

/-- The current version moves to `v`, and no version is under construction any more. -/
structure Publishes (s s' : Lifetimes) (v : ℕ) : Prop where
  versions : s'.versions = s.versions
  nextVersion : s'.nextVersion = s.nextVersion
  files : s'.files = s.files
  nextTable : s'.nextTable = s.nextTable
  current : s'.current = v
  free : ∀ w, ¬ s'.Builds w

namespace Publishes

theorem live (h : Publishes s s' v) : s'.live = (s.versions v).tables := by
  unfold Lifetimes.live
  rw [h.versions, h.current]

theorem listed (h : Publishes s s' v) {job : Bool} {todo : List ℕ} (hmu : s.mu = .building job v todo)
    (hv : v < s.nextVersion) : s'.Listed t ↔ s.Listed t ∨ t ∈ (s.versions v).tables := by
  unfold Lifetimes.Listed
  simp only [h.versions, h.nextVersion]
  constructor
  · rintro ⟨w, hw, -, ht⟩
    by_cases hwv : w = v
    · exact Or.inr (hwv ▸ ht)
    · refine Or.inl ⟨w, hw, ?_, ht⟩
      rintro ⟨job', todo', hb⟩
      rw [hmu] at hb
      exact hwv (MuHolder.building.inj hb).2.1.symm
  · rintro (⟨w, hw, -, ht⟩ | ht)
    · exact ⟨w, hw, h.free w, ht⟩
    · exact ⟨v, hv, h.free v, ht⟩

end Publishes

/-- A write publishes the tables there were. -/
theorem LifeOK.publishRotate (h : LifeOK s) {todo : List ℕ} (hmu : s.mu = .building false v todo)
    (hC : Counts { s.publish v with mu := .dropping false s.current }) :
    LifeOK { s.publish v with mu := .dropping false s.current } := by
  have hs : Publishes s { s.publish v with mu := .dropping false s.current } v :=
    ⟨rfl, rfl, rfl, rfl, rfl, fun w ⟨_, _, hb⟩ => by cases hb⟩
  have htables := h.mu
  rw [hmu] at htables
  have hK : Keeps s { s.publish v with mu := .dropping false s.current } := by
    refine ⟨hs.live.trans htables, fun t => ?_, fun w hw _ => ⟨⟨hw, hs.free w⟩, rfl⟩,
      fun w hw t ht => Or.inl ⟨w, hw, ht⟩, le_rfl, fun _ ht => ht, fun _ ht => Or.inl ht⟩
    rw [hs.listed hmu (h.counts.built _ _ _ hmu).1, show (s.versions v).tables = s.live from htables]
    exact ⟨fun ht => ht.elim id (listed_of_live h.counts), Or.inl⟩
  refine h.change hC hK ⟨h.counts.current, fun hj => by cases hj⟩ (fun j hj => ?_) (fun inputs hp => ?_)
    fun t ht => Or.inr ht
  · refine hK.jobOK (sameIters rfl) hj (fun _ _ => rfl) (fun old ho => ?_) (h.job j hj)
    cases hmu.symm.trans ho
  · exact ⟨(h.picked inputs hp).1, Or.inl hp⟩

/-- A job publishes its version.  The tables it takes out are marked, or it has still to mark them. -/
theorem LifeOK.publishJob (h : LifeOK s) (hC : Counts s') (hs : Publishes s s' v)
    (hmu : s.mu = .building true v []) (hj : s.job = some j)
    (hmu' : s'.MuOK s'.mu) (hjob : ∀ j, s'.job = some j → s'.JobOK j) (hpick : s'.picked = s.picked)
    (hcomp : s.compacts = false → s'.compacts = false)
    (hkept : s.compacts = false → (∀ t ∈ s.live, t ∈ j.tables s.live) ∨
      ∀ t ∈ j.tables s.live, j.out = some t)
    (hout : ∀ t ∈ s.live, t ∉ j.tables s.live → (s.files t).gone = true ∨ s'.Owes t) : LifeOK s' := by
  have hv := (h.counts.built _ _ _ hmu).1
  have hm := h.mu
  rw [hmu] at hm
  obtain ⟨j', hj', hp, htables⟩ := hm
  cases hj.symm.trans hj'
  have hJ := (h.job j hj).2
  rw [hp] at hJ
  have hnew := (hJ.1 fun old ho => by cases hmu.symm.trans ho).2
  have hlisted : ∀ t, s.Listed t → s'.Listed t := fun t ht => (hs.listed hmu hv).mpr (Or.inl ht)
  refine ⟨hC, fun w hw t ht => ?_, hmu', hjob, fun inputs hp' => ?_, fun t ht => ?_, fun t ht => ?_⟩
  · rw [hs.nextTable]
    rw [hs.versions] at ht
    exact h.bounded w (hs.nextVersion ▸ hw) t ht
  · obtain ⟨hc, hl, hin⟩ := h.picked inputs (hpick ▸ hp')
    refine ⟨hcomp hc, fun t ht => hlisted t (hl t ht), ?_⟩
    rw [hs.live, htables]
    -- no compaction is at work: nothing went, or everything did
    rcases hkept hc with hkept | hkept
    · refine hin.imp (fun hin t ht => hkept t (hin t ht)) fun hin t ht hmem => ?_
      rcases mem_tables hmem with hmem | hmem
      · exact hin t ht hmem
      · exact hnew t hmem (hl t ht)
    · exact Or.inr fun t ht hmem => hnew t (hkept t hmem) (hl t ht)
  · rw [hs.files] at ht
    exact hlisted t (h.gone t ht)
  · obtain ⟨hl, hn⟩ := ht
    rw [hs.live, htables] at hn
    rw [hs.files]
    rcases (hs.listed hmu hv).mp hl with hl | hl
    · by_cases hcur : t ∈ s.live
      · exact hout t hcur hn
      · refine (h.removed t ⟨hl, hcur⟩).imp id fun ho => ?_
        obtain ⟨j', old, todo, hj', hp', -⟩ := ho
        cases hj.symm.trans hj'
        cases hp.symm.trans hp'
    · exact absurd (htables ▸ hl) hn

theorem setPhase_eq (hj : s.job = some j) (p : InstallPhase) :
    s.setPhase p = { s with job := some { j with phase := p } } := by
  unfold setPhase
  rw [hj]
  rfl

theorem Unused.congr (h : s.Unused j) (hv : s'.versions = s.versions)
    (hn : s'.nextVersion = s.nextVersion) (hi : s'.iters = s.iters) (ho : k.out = j.out) :
    s'.Unused k := by
  unfold Unused
  rw [hv, hn, hi, ho]
  exact h

/-- A flush or a compaction publishes its version: what it took out is marked already. -/
theorem LifeOK.publishInstall (h : LifeOK s) (hmu : s.mu = .building true v []) (hj : s.job = some j)
    (hr : ∀ b, j.task ≠ .restore b)
    (hC : Counts { s.publish v with mu := .dropping true s.current }) :
    LifeOK { s.publish v with mu := .dropping true s.current } := by
  have hm := h.mu
  rw [hmu] at hm
  obtain ⟨j', hj', hp, -⟩ := hm
  cases hj.symm.trans hj'
  obtain ⟨hmade, hJ⟩ := h.job j hj
  refine h.publishJob hC ⟨rfl, rfl, rfl, rfl, rfl, fun w ⟨_, _, hb⟩ => by cases hb⟩ hmu hj
    ⟨h.counts.current, fun _ => ⟨j, hj, hp⟩⟩ (fun k hk => ?_) rfl id (fun hc => Or.inl fun t ht => ?_)
    fun t ht hn => Or.inl ?_
  · cases hj.symm.trans hk
    refine ⟨hmade, ?_⟩
    rw [hp] at hJ ⊢
    exact ⟨fun hd => absurd rfl (hd s.current), hJ.2.1, fun hb => absurd hb (hr true)⟩
  · refine mem_tables_of_not_mem hr ht ?_
    have hnot := compacts_eq_false.mp hc j hj
    cases htask : j.task with
    | compact inputs => exact absurd htask (hnot inputs)
    | _ => exact List.not_mem_nil
  · rw [hp] at hJ
    by_contra hg
    exact hn (mem_tables_of_not_mem hr ht fun hi => hg (hJ.2.1 t hi))

/-- A `Restore` publishes its version: what it took out is what it has still to mark. -/
theorem LifeOK.publishRestore (h : LifeOK s) (hmu : s.mu = .building true v []) {b : Bool}
    (hj : s.job = some j) (hr : j.task = .restore b)
    (hC : Counts { s.publish v with
      mu := .free, job := some { j with phase := .retiring s.current s.live } }) :
    LifeOK { s.publish v with
      mu := .free, job := some { j with phase := .retiring s.current s.live } } := by
  have hm := h.mu
  rw [hmu] at hm
  obtain ⟨j', hj', hp, -⟩ := hm
  cases hj.symm.trans hj'
  obtain ⟨hmade, hJ⟩ := h.job j hj
  rw [hp] at hJ hmade
  refine h.publishJob hC ⟨rfl, rfl, rfl, rfl, rfl, fun w ⟨_, _, hb⟩ => by cases hb⟩ hmu hj trivial
    (fun k hk => ?_) rfl (fun _ => ?_) (fun _ => Or.inr fun t ht => (mem_tables_restore hr ht).2)
    fun t ht _ => Or.inr ⟨_, _, _, rfl, rfl, ht⟩
  · cases hk
    exact ⟨hmade, ⟨h.counts.current, fun ⟨_, _, hb⟩ => by cases hb⟩, fun _ ht => ht, hJ.2.2⟩
  · refine compacts_eq_false.mpr fun k hk inputs hb => ?_
    cases hk
    cases hr.symm.trans hb

/-- The reference on the version that was current goes from the database to a lock. -/
theorem LifeOK.counts_publish (h : LifeOK s) {job : Bool} {mu : MuHolder} {job' : Option InstallJob}
    (hmu : s.mu = .building job v [])
    (hown : ∀ w, mu.owns w + job'.elim 0 (fun j => j.phase.owns w) =
      one w s.current + s.job.elim 0 fun j => j.phase.owns w)
    (hfree : ∀ job w todo, mu ≠ .building job w todo) :
    Counts { s.publish v with mu := mu, job := job' } := by
  refine h.counts.publish hmu rfl rfl h.counts.ledger rfl rfl (fun w => ?_)
    fun w ⟨_, _, hb⟩ => hfree _ _ _ hb
  have hsum := hown w
  have hold : s.mu.owns w = one w v := by rw [hmu]; rfl
  simp only [owners, Lifetimes.publish]
  omega

/-- The version that was built becomes the current one. -/
theorem LifeOK.publish (h : LifeOK s) (hs : s.publishBuilt = some s') : LifeOK s' := by
  unfold Lifetimes.publishBuilt at hs
  split at hs
  · next v hmu =>
    cases hs
    exact h.publishRotate hmu (h.counts_publish hmu (fun _ => rfl) (fun _ _ _ hb => by cases hb))
  · next v hmu =>
    have hm := h.mu
    rw [hmu] at hm
    obtain ⟨j, hj, hp, -⟩ := hm
    split at hs <;> cases hs
    · next b out iters phase hj' =>
      cases hj'.symm.trans hj
      have hset : (s.publish v).setPhase (.retiring s.current s.live) =
          { s.publish v with job := some ⟨.restore b, out, iters, .retiring s.current s.live⟩ } :=
        setPhase_eq (s := s.publish v) hj _
      rw [hset]
      refine h.publishRestore hmu hj rfl (h.counts_publish hmu (fun w => ?_) fun _ _ _ hb => by cases hb)
      rw [hj, show phase = .installing from hp]
      exact Nat.add_comm _ _
    · next hnot =>
      refine h.publishInstall hmu hj (fun b hb => ?_)
        (h.counts_publish hmu (fun _ => rfl) fun _ _ _ hb => by cases hb)
      obtain ⟨task, out, iters, phase⟩ := j
      cases (hb : task = .restore b)
      exact hnot b out iters phase hj
  · cases hs

/-- `install` has dropped the old version and unlocks. -/
theorem LifeOK.unlock (h : LifeOK s) {job : Bool} {old : ℕ} {job' : Option InstallJob}
    (hmu : s.mu = .dropping job old)
    (hown : ∀ v, job'.elim 0 (fun j => j.phase.owns v) = s.job.elim 0 fun j => j.phase.owns v)
    (hjob : ∀ k, job' = some k → (s.job = some k ∧ job = false) ∨
      ∃ j, s.job = some j ∧ j.phase = .installing ∧ k = { j with phase := .releasing false }) :
    LifeOK { s.unrefVersion old with mu := .free, job := job' } := by
  have hm := h.mu
  rw [hmu] at hm
  have hfree : ∀ v, ¬ s.Builds v := by
    rintro v ⟨_, _, hb⟩
    cases hmu.symm.trans hb
  have hC : Counts { s.unrefVersion old with mu := .free, job := job' } := by
    refine h.counts.reown (d := -1) hm.1 ?_ rfl ⟨rfl, rfl, rfl, rfl⟩ rfl rfl (fun w => ?_)
      (fun w hb => absurd hb (hfree w)) (fun job' w todo hb => (by cases hb)) h.counts.readers
    · simp only [owners, hmu, MuHolder.owns, one_self]
      omega
    · simp only [owners, unrefVersion, setVersion, hmu, MuHolder.owns, hown]
      by_cases hw : w = old
      · rw [if_pos hw, hw, one_self]
        omega
      · rw [if_neg hw, one_ne hw]
        omega
  have htables : ∀ v, ((s.unrefVersion old).versions v).tables = (s.versions v).tables :=
    tables_setVersion rfl
  have hK : Keeps s { s.unrefVersion old with mu := .free, job := job' } := by
    have hfree' : ∀ v, ¬ ({ s.unrefVersion old with mu := .free, job := job' } : Lifetimes).Builds v := by
      rintro v ⟨_, _, hb⟩
      cases hb
    refine ⟨htables s.current, fun t => ⟨?_, ?_⟩, fun v hv _ => ⟨⟨hv, hfree' v⟩, htables v⟩,
      fun v hv t ht => Or.inl ⟨v, hv, htables v ▸ ht⟩, le_rfl, fun _ ht => ht, fun _ ht => Or.inl ht⟩
    · rintro ⟨v, hv, -, ht⟩
      exact ⟨v, hv, hfree v, htables v ▸ ht⟩
    · rintro ⟨v, hv, -, ht⟩
      exact ⟨v, hv, hfree' v, (htables v).symm ▸ ht⟩
  refine h.change hC hK trivial (fun k hk => ?_) (fun inputs hp => ⟨?_, Or.inl hp⟩) fun t ht => Or.inr ?_
  · rcases hjob k hk with ⟨hk', rfl⟩ | ⟨j, hj, hp, rfl⟩
    · refine hK.jobOK (sameIters rfl) hk' (fun _ _ => rfl) (fun old' ho => ?_) (h.job k hk')
      cases hmu.symm.trans ho
    · have hmade := (h.job j hj).1
      rw [hp] at hmade
      exact ⟨hmade, fun hr => by cases hr⟩
  · have hc := (h.picked inputs hp).1
    refine compacts_eq_false.mpr fun k hk => ?_
    rcases hjob k hk with ⟨hk', -⟩ | ⟨j, hj, -, rfl⟩
    · exact compacts_eq_false.mp hc k hk'
    · exact compacts_eq_false.mp hc j hj
  · obtain ⟨j, old', todo, hj, hp, hmem⟩ := ht
    -- a job that owes marks owns a version, so it is the same job after the step
    have hsame := hown old'
    rw [hj, Option.elim_some, hp, InstallPhase.owns, one_self] at hsame
    cases hk : job' with
    | none =>
      rw [hk] at hsame
      cases hsame
    | some k =>
      rcases hjob k hk with ⟨hk', -⟩ | ⟨j', hj', hp', -⟩
      · exact ⟨k, old', todo, rfl, by cases hj.symm.trans hk'; exact hp, hmem⟩
      · cases hj.symm.trans hj'
        cases hp.symm.trans hp'

theorem LifeOK.dropOld (h : LifeOK s) (hs : s.dropOld = some s') : LifeOK s' := by
  unfold Lifetimes.dropOld at hs
  split at hs
  · next old hmu =>
    cases hs
    exact h.unlock hmu (fun _ => rfl) fun k hk => Or.inl ⟨hk, rfl⟩
  · next old hmu =>
    have hm := h.mu
    rw [hmu] at hm
    obtain ⟨j, hj, hp⟩ := hm.2 rfl
    have hset : (s.unrefVersion old).setPhase (.releasing false) =
        { s.unrefVersion old with job := some { j with phase := .releasing false } } :=
      setPhase_eq (s := s.unrefVersion old) hj _
    rw [hset] at hs
    cases hs
    refine h.unlock hmu (fun v => ?_) fun k hk => ?_
    · rw [hj, Option.elim_some, Option.elim_some, hp]
      rfl
    · cases hk
      exact Or.inr ⟨j, hj, hp, rfl⟩
  · cases hs

/-! ## Under `installMu`. -/

/-- A job starts, goes on or ends, and no version is involved. -/
theorem LifeOK.rejob (h : LifeOK s) {job : Option InstallJob} {picked : Option (List ℕ)}
    (hold : ∀ j, s.job = some j → j.phase.plain = true)
    (hnew : ∀ k, job = some k → (∀ v, k.phase.owns v = 0) ∧ s.JobOK k)
    (hpick : ∀ inputs, picked = some inputs →
      (∀ k, job = some k → ∀ ins, k.task ≠ .compact ins) ∧
        (s.picked = some inputs ∨ ∀ t ∈ inputs, t ∈ s.live)) :
    LifeOK { s with job := job, picked := picked } := by
  have howns : ∀ v, s.job.elim 0 (fun j => j.phase.owns v) = 0 := fun v => by
    cases hj : s.job with
    | none => rfl
    | some j => exact InstallPhase.owns_of_plain (hold j hj) v
  have howns' : ∀ v, job.elim 0 (fun j => j.phase.owns v) = 0 := fun v => by
    cases hk : job with
    | none => rfl
    | some k => exact (hnew k hk).1 v
  refine h.change (h.counts.rejob fun v => (howns' v).trans (howns v).symm) (Keeps.refl s).rejob
    (h.mu.rejob fun j hj hp => (by cases hp ▸ hold j hj)) (fun k hk => (hnew k hk).2)
    (fun inputs hp => ⟨compacts_eq_false.mpr (hpick inputs hp).1, (hpick inputs hp).2⟩) fun t ht => ?_
  · obtain ⟨j, old, todo, hj, hp, -⟩ := ht
    cases hp ▸ hold j hj

/-- The job goes on. -/
theorem LifeOK.rephase (h : LifeOK s) (hj : s.job = some j) (hp : j.phase.plain = true)
    (htask : k.task = j.task) (hown : ∀ v, k.phase.owns v = 0) (hk : s.JobOK k) :
    LifeOK { s with job := some k } := by
  refine h.rejob (fun j' hj' => ?_) (fun k' hk' => ?_) fun inputs hpick => ⟨fun k' hk' => ?_, Or.inl hpick⟩
  · cases hj.symm.trans hj'
    exact hp
  · cases hk'
    exact ⟨hown, hk⟩
  · cases hk'
    rw [htask]
    exact h.not_compact hj hpick

/-- The job ends. -/
theorem LifeOK.endJob (h : LifeOK s) (hj : s.job = some j) (hp : j.phase.plain = true) :
    LifeOK { s with job := none } := by
  refine h.rejob (fun j' hj' => ?_) (fun k hk => (by cases hk)) fun inputs hpick =>
    ⟨fun k hk => (by cases hk), Or.inl hpick⟩
  cases hj.symm.trans hj'
  exact hp

theorem LifeOK.flush (h : LifeOK s) (hs : s.flush = some s') : LifeOK s' := by
  unfold Lifetimes.flush at hs
  split at hs <;> cases hs
  next hjob =>
  refine h.rejob (fun j hj => (by cases hjob.symm.trans hj)) (fun k hk => ?_)
    fun inputs hp => ⟨fun k hk ins hb => ?_, Or.inl hp⟩
  · cases hk
    exact ⟨fun _ => rfl, fun t ht => (by cases ht), ⟨fun t ht => (by cases ht), fun t ht => (by cases ht)⟩,
      fun t ht => (by cases ht), fun b t hb => (by cases hb)⟩
  · cases hk
    cases hb

theorem LifeOK.pick {inputs : List ℕ} (h : LifeOK s) (hs : s.pick inputs = some s') : LifeOK s' := by
  unfold Lifetimes.pick at hs
  split at hs <;> cases hs
  next hc =>
  obtain ⟨-, hcomp, -, -, hin⟩ := hc
  refine h.change (h.counts.rejob fun _ => rfl) (Keeps.refl s).rejob ?_ h.job (fun inputs' hi => ?_)
    fun t ht => Or.inr ht
  · exact h.mu
  · cases hi
    exact ⟨hcomp, Or.inr hin⟩

theorem LifeOK.compact (h : LifeOK s) (hs : s.compact = some s') : LifeOK s' := by
  unfold Lifetimes.compact at hs
  split at hs
  case h_2 => cases hs
  next t inputs hpick =>
  split at hs
  case isFalse => cases hs
  next hc =>
  obtain ⟨hjob, -⟩ := hc
  have hidle : ∀ j, s.job = some j → j.phase.plain = true := fun j hj => by cases hjob.symm.trans hj
  split at hs <;> cases hs
  · next hhead =>
    -- the first input is there, so no `Restore` came in between, and all of them are there
    have hin : ∀ u ∈ t :: inputs, u ∈ s.live := by
      obtain ⟨-, -, hin | hout⟩ := h.picked _ hpick
      · exact hin
      · exact absurd hhead (hout t (List.mem_cons_self ..))
    refine h.rejob hidle (fun k hk => ?_) fun _ hp => by cases hp
    cases hk
    exact ⟨fun _ => rfl, fun t ht => (by cases ht), ⟨hin, fun t ht => (by cases ht)⟩,
      fun u hu => Or.inl (hin u hu), fun b t hb => (by cases hb)⟩
  · exact h.rejob hidle (fun k hk => by cases hjob.symm.trans hk) fun _ hp => by cases hp

theorem LifeOK.make (h : LifeOK s) : LifeOK s.make := by
  have hfresh := (h.counts.ledger.fresh s.nextTable le_rfl).2
  refine h.same (h.counts.make fun _ => rfl) ⟨fun _ => rfl, gone_setFile s (by rw [hfresh]; rfl),
    Nat.le_succ _, fun t ht => Function.update_of_ne ht.ne .., rfl, rfl, Or.inl rfl, rfl, rfl⟩ (sameIters rfl)

/-- A new table is listed nowhere and read by nobody. -/
theorem LifeOK.fresh (h : LifeOK s) :
    ¬ s.make.Listed s.nextTable ∧ ∀ i : ℕ, s.iters[i]? ≠ some (some s.nextTable) := by
  refine ⟨?_, fun i hi => ?_⟩
  · rintro ⟨v, hv, -, ht⟩
    exact (h.bounded v hv _ ht).false
  · have hpos := holders_pos_of_iter (s := s) (List.mem_of_getElem? hi)
    have h0 := (h.counts.ledger.fresh s.nextTable le_rfl).1
    omega

/-- A job that has just made its table. -/
theorem LifeOK.made (h : LifeOK s) {task : InstallTask} {iters todo : List ℕ}
    (hin : ∀ t ∈ task.inputs, t ∈ s.live) (htodo : ∀ t ∈ todo, t = s.nextTable) :
    s.make.JobOK ⟨task, some s.nextTable, iters, .reading todo⟩ := by
  obtain ⟨hlist, hiter⟩ := h.fresh
  refine ⟨fun t ht => ?_, ⟨hin, fun t ht => ?_⟩, fun t ht => Or.inr ?_, fun b t _ ht i hi => ?_⟩
  · cases ht
    exact ⟨Nat.lt_succ_self _, Function.update_self ..⟩
  · cases ht
    exact hlist
  · rw [htodo t ht]
  · cases ht
    exact absurd hi (hiter i)

theorem LifeOK.restore {b : Bool} (h : LifeOK s) (hs : s.restore b = some s') : LifeOK s' := by
  unfold Lifetimes.restore at hs
  split at hs <;> cases hs
  next hjob =>
  refine h.make.rejob (fun j hj => (by cases hjob.symm.trans hj)) (fun k hk => ?_)
    fun inputs hp => ⟨fun k hk ins hb => ?_, Or.inl hp⟩
  · cases hk
    exact ⟨fun _ => rfl, h.made (fun t ht => by cases ht) fun t ht => List.mem_singleton.mp ht⟩
  · cases hk
    cases hb

theorem LifeOK.write (h : LifeOK s) (hs : s.write = some s') : LifeOK s' := by
  unfold Lifetimes.write at hs
  split at hs
  case h_2 => cases hs
  next j hj =>
  split at hs <;> cases hs
  next hc =>
  obtain ⟨⟨hp, -⟩, -⟩ := hc
  obtain ⟨task, out, iters, phase⟩ := j
  cases (hp : phase = .reading [])
  obtain ⟨-, hpub, -⟩ := h.job _ hj
  exact h.make.rephase hj rfl rfl (fun _ => rfl) (h.made hpub.1 fun t ht => by cases ht)

theorem LifeOK.openNext (h : LifeOK s) (hs : s.openNext = some s') : LifeOK s' := by
  unfold Lifetimes.openNext at hs
  split at hs <;> cases hs
  next task out iters t todo hj =>
  obtain ⟨hmade, hpub, htodo, hreads⟩ := h.job _ hj
  have hpos : 0 < s.holders t := by
    rcases htodo t (List.mem_cons_self ..) with ht | ht
    · exact h.counts.live_pos ht
    · exact holders_pos_of_creator (hmade t ht).2
  have hs : SamePlan s (s.iter t) :=
    samePlan (fun _ => rfl) (gone_setFile s (Counted.gone_ref _)) rfl
  refine h.change ((h.counts.iter hpos).rejob fun v => ?_) hs.keeps.rejob ?_ (fun k hk => ?_)
    (fun inputs hp => ⟨compacts_eq_false.mpr fun k hk => ?_, Or.inl hp⟩) fun u hu => ?_
  · show _ = s.job.elim 0 fun j => j.phase.owns v
    rw [hj]
    rfl
  · refine MuOK.rejob (s := s.iter t) (hs.muOK h.mu) fun j hj' hp => ?_
    cases hj.symm.trans hj'
    cases hp
  · cases hk
    refine ⟨hmade, hpub, fun u hu => htodo u (List.mem_cons_of_mem t hu), fun b u hb hu i hi => ?_⟩
    show i ∈ iters ++ [s.iters.length]
    have hi : (s.iters ++ [some t])[i]? = some (some u) := hi
    by_cases hlt : i < s.iters.length
    · rw [List.getElem?_append_left hlt] at hi
      exact List.mem_append_left _ (hreads b u hb hu i hi)
    · have := (List.getElem?_eq_some_iff.mp hi).1
      rw [List.length_append, List.length_singleton] at this
      exact List.mem_append_right _ (List.mem_singleton.mpr (by omega))
  · cases hk
    exact h.not_compact (j := ⟨task, out, iters, .reading (t :: todo)⟩) hj hp
  · obtain ⟨j, old, todo, hj', hp, -⟩ := hu
    cases hj.symm.trans hj'
    cases hp

/-- A `Restore` owns the version it replaced until it has marked its tables. -/
theorem owners_retiring {task : InstallTask} {out : Option ℕ} {iters todo : List ℕ} {old : ℕ}
    (hj : s.job = some ⟨task, out, iters, .retiring old todo⟩) : 0 < s.owners old := by
  simp only [owners, hj, Option.elim_some, InstallPhase.owns, one_self]
  omega

/-- A `Restore` that has read its table to the end: nobody lists it and nobody reads it. -/
theorem LifeOK.unused (h : LifeOK s) (hj : s.job = some j) (hd : s.doneReading j) {b : Bool}
    (hb : j.task = .restore b) : s.Unused j := by
  intro t ht
  obtain ⟨hp, hclosed⟩ := hd
  have hJ := (h.job j hj).2
  rw [hp] at hJ
  obtain ⟨hpub, -, hreads⟩ := hJ
  refine ⟨fun v hv hmem => ?_, fun hmem => ?_⟩
  · by_cases hbv : s.Builds v
    · -- a version under construction lists what the current one does
      obtain ⟨job, todo, hmu⟩ := hbv
      have hm := h.mu
      rw [hmu] at hm
      cases job with
      | false => exact hpub.2 t ht (listed_of_live h.counts (Eq.mp (congrArg (t ∈ ·) hm) hmem))
      | true =>
        obtain ⟨j', hj', hp', -⟩ := hm
        cases hj.symm.trans hj'
        cases hp.symm.trans hp'
    · exact hpub.2 t ht ⟨v, hv, hbv, hmem⟩
  · obtain ⟨i, hi⟩ := List.mem_iff_getElem?.mp hmem
    cases hi.symm.trans (hclosed i (hreads b t hb ht i hi))

theorem LifeOK.fail {remove : Bool} (h : LifeOK s) (hs : s.fail remove = some s') : LifeOK s' := by
  unfold Lifetimes.fail at hs
  split at hs
  case h_2 => cases hs
  next j hj =>
  split at hs
  case isFalse => cases hs
  next hd =>
  have hp : j.phase.plain = true := by rw [hd.1]; rfl
  split at hs <;> cases hs
  · next b htask =>
    have hmade := (h.job j hj).1
    rw [hd.1] at hmade
    rw [setPhase_eq hj]
    exact h.rephase hj hp rfl (fun _ => rfl) ⟨hmade, fun _ => (h.unused hj hd htask).congr rfl rfl rfl rfl⟩
  · exact h.endJob hj hp

theorem LifeOK.commit (h : LifeOK s) (hs : s.commit = some s') : LifeOK s' := by
  unfold Lifetimes.commit at hs
  split at hs
  case h_2 => cases hs
  next j hj =>
  split at hs <;> cases hs
  next hd =>
  obtain ⟨hmade, hJ⟩ := h.job j hj
  rw [hd.1] at hmade hJ
  rw [setPhase_eq hj]
  exact h.rephase hj (by rw [hd.1]; rfl) rfl (fun _ => rfl)
    ⟨hmade, hJ.1, fun _ ht => ht, fun _ ht => Or.inl ht, h.unused hj hd⟩

/-- A table that a version with an owner lists is marked. -/
theorem LifeOK.marked (h : LifeOK s) (hpos : 0 < s.holders t) (hl : s.Listed t) :
    LifeOK (s.setFile t (s.files t).mark) := by
  have hlt := h.counts.ledger.lt_of_pos hpos
  refine h.same (h.counts.touch hlt ((h.counts.ledger.lives t hlt).mark hpos))
    (samePlan (fun _ => rfl) (fun u => ?_) rfl) (sameIters rfl)
  show (update s.files t (s.files t).mark u).gone = (s.files u).gone ∨ _
  by_cases hut : u = t
  · refine Or.inr ⟨?_, hut ▸ hl⟩
    show (update s.files t (s.files t).mark u).gone = true
    rw [hut, Function.update_self, Counted.gone_mark]
  · rw [Function.update_of_ne hut]
    exact Or.inl rfl

theorem gone_marked (s : Lifetimes) (t : ℕ) : ((s.setFile t (s.files t).mark).files t).gone = true := by
  show (update s.files t (s.files t).mark t).gone = true
  rw [Function.update_self, Counted.gone_mark]

/-- Replaced tables are marked for removal. -/
theorem LifeOK.mark (h : LifeOK s) (hs : s.mark = some s') : LifeOK s' := by
  unfold Lifetimes.mark at hs
  split at hs <;> cases hs
  · next task out iters t todo hj =>
    obtain ⟨-, hpub, hsub, -⟩ := h.job _ hj
    have hlive : t ∈ s.live := hpub.1 t (hsub t (List.mem_cons_self ..))
    have h' := h.marked (h.counts.live_pos hlive) (listed_of_live h.counts hlive)
    obtain ⟨hmade, hpub, hsub, hmark, hu⟩ := h'.job _ hj
    rw [setPhase_eq (s := s.setFile t (s.files t).mark) hj]
    refine h'.rephase hj rfl rfl (fun _ => rfl)
      ⟨hmade, hpub, fun u hu => hsub u (List.mem_cons_of_mem t hu), fun u hu => ?_, hu⟩
    rcases hmark u hu with hmem | hg
    · rcases List.mem_cons.mp hmem with rfl | hmem
      · exact Or.inr (gone_marked s u)
      · exact Or.inl hmem
    · exact Or.inr hg
  · next task out iters old t todo hj =>
    obtain ⟨-, ⟨hold, hnb⟩, htodo, -⟩ := h.job _ hj
    have ht : t ∈ (s.versions old).tables := htodo t (List.mem_cons_self ..)
    have h' := h.marked (h.counts.holders_pos hold (owners_retiring hj) hnb ht) ⟨old, hold, hnb, ht⟩
    obtain ⟨hmade, hold, htodo, hu⟩ := h'.job _ hj
    rw [setPhase_eq (s := s.setFile t (s.files t).mark) hj]
    refine h'.change (h'.counts.rejob fun v => ?_) (Keeps.refl _).rejob ?_ (fun k hk => ?_)
      (fun inputs hp => ⟨compacts_eq_false.mpr fun k hk => ?_, Or.inl hp⟩) fun u hu => ?_
    · show _ = s.job.elim 0 fun j => j.phase.owns v
      rw [hj]
      rfl
    · refine h'.mu.rejob fun j hj' hp => ?_
      cases hj.symm.trans hj'
      cases hp
    · cases hk
      exact ⟨hmade, hold, fun u hu => htodo u (List.mem_cons_of_mem t hu), hu⟩
    · cases hk
      exact h'.not_compact (j := ⟨task, out, iters, .retiring old (t :: todo)⟩) hj hp
    · obtain ⟨j, old', todo', hj', hp, hmem⟩ := hu
      cases hj.symm.trans hj'
      cases hp
      rcases List.mem_cons.mp hmem with rfl | hmem
      · exact Or.inl (gone_marked s u)
      · exact Or.inr ⟨_, old, todo, rfl, rfl, hmem⟩

theorem LifeOK.install (h : LifeOK s) (hs : s.install = some s') : LifeOK s' := by
  unfold Lifetimes.install at hs
  split at hs
  case h_2 => cases hs
  next j hj =>
  split at hs <;> cases hs
  next hc =>
  obtain ⟨hp, hmu⟩ := hc
  obtain ⟨hmade, hJ⟩ := h.job j hj
  rw [hp] at hmade hJ
  obtain ⟨hpub, -, hmark, hu⟩ := hJ
  have h' : LifeOK (s.setPhase .installing) := by
    rw [setPhase_eq hj]
    refine h.rephase hj (by rw [hp]; rfl) rfl (fun _ => rfl) ⟨hmade, fun _ => hpub, fun t ht => ?_, hu⟩
    exact (hmark t ht).resolve_left List.not_mem_nil
  have heq : (s.build true (j.tables s.live)).setPhase .installing =
      (s.setPhase .installing).build true (j.tables s.live) := rfl
  rw [heq]
  refine h'.build hmu ⟨{ j with phase := .installing }, ?_, rfl, rfl⟩
  rw [setPhase_eq hj]

theorem LifeOK.dropReplaced (h : LifeOK s) (hs : s.dropReplaced = some s') : LifeOK s' := by
  unfold Lifetimes.dropReplaced at hs
  split at hs
  case h_2 => cases hs
  next b out iters old hj =>
  have hset : (s.unrefVersion old).setPhase (.releasing b) =
      { s.unrefVersion old with job := some ⟨.restore b, out, iters, .releasing b⟩ } :=
    setPhase_eq (s := s.unrefVersion old) hj _
  rw [hset] at hs
  cases hs
  obtain ⟨hmade, ⟨hold, hnb⟩, -, hu⟩ := h.job _ hj
  have hs : SamePlan s (s.unrefVersion old) :=
    samePlan (tables_setVersion rfl) (fun _ => Or.inl rfl) rfl
  refine h.change ?_ hs.keeps.rejob ?_ (fun k hk => ?_)
    (fun inputs hp => ⟨compacts_eq_false.mpr fun k hk => ?_, Or.inl hp⟩) fun u hu => ?_
  · refine h.counts.reown (d := -1) hold (owners_retiring hj) rfl ⟨rfl, rfl, rfl, rfl⟩ rfl rfl (fun w => ?_)
      (fun _ hb => hb) (fun job w todo hb => ⟨hb, ?_⟩) h.counts.readers
    · simp only [owners, unrefVersion, setVersion, hj, Option.elim_some, InstallPhase.owns]
      by_cases hw : w = old
      · rw [if_pos hw, hw, one_self]
        omega
      · rw [if_neg hw, one_ne hw]
        omega
    · rintro rfl
      exact hnb ⟨job, todo, hb⟩
  · refine MuOK.rejob (s := s.unrefVersion old) (hs.muOK h.mu) fun j hj' hp => ?_
    cases hj.symm.trans hj'
    cases hp
  · cases hk
    refine ⟨hmade, fun hb => ?_⟩
    exact (hs.keeps.unused (sameIters rfl) hj (fun hi => by cases hi) (hu (by rw [hb]))).congr rfl rfl rfl rfl
  · cases hk
    exact fun _ hb => by cases hb
  · obtain ⟨j, old', todo', hj', hp, hmem⟩ := hu
    cases hj.symm.trans hj'
    cases hp
    cases hmem

/-- The maker lets go; with `removing` the file is removed next. -/
theorem LifeOK.released (h : LifeOK s) {remove : Bool} (hj : s.job = some j)
    (hp : j.phase = .releasing remove) (ht : j.out = some t) {job : Option InstallJob}
    (hjob : job = none ∨ (remove = true ∧ job = some { j with phase := .removing })) :
    LifeOK { s.setFile t (s.files t).unref with creator := update s.creator t false, job := job } := by
  obtain ⟨hmade, hJ⟩ := h.job j hj
  rw [hp] at hmade hJ
  have hown : ∀ v, job.elim 0 (fun j => j.phase.owns v) = s.job.elim 0 fun j => j.phase.owns v := by
    intro v
    rw [hj, Option.elim_some, hp]
    rcases hjob with rfl | ⟨-, rfl⟩
    · rfl
    · rfl
  have hs : SamePlan s (s.setFile t (s.files t).unref) :=
    samePlan (fun _ => rfl) (gone_setFile s (Counted.gone_unref _)) rfl
  have hK := hs.keeps
  refine h.change ((h.counts.letGo (hmade t ht).2).rejob hown)
    ⟨hK.live, hK.listed, hK.former, hK.within, hK.made, hK.marks, hK.marked⟩ ?_ (fun k hk => ?_)
    (fun inputs hpick => ⟨compacts_eq_false.mpr fun k hk => ?_, Or.inl hpick⟩) fun u hu => ?_
  · refine MuOK.rejob (s := s.setFile t (s.files t).unref) (hs.muOK h.mu) fun j' hj' hp' => ?_
    cases hj.symm.trans hj'
    cases hp.symm.trans hp'
  · have hk : job = some k := hk
    rcases hjob with rfl | ⟨rfl, rfl⟩
    · cases hk
    · cases hk
      refine ⟨fun u hu => ?_, (hJ rfl).congr rfl rfl rfl rfl⟩
      cases ht.symm.trans hu
      exact ⟨(hmade t ht).1, Function.update_self ..⟩
  · have hk : job = some k := hk
    rcases hjob with rfl | ⟨-, rfl⟩
    · cases hk
    · cases hk
      exact h.not_compact (j := j) hj hpick
  · obtain ⟨j', old, todo, hj', hp', -⟩ := hu
    cases hj.symm.trans hj'
    cases hp.symm.trans hp'

theorem LifeOK.letGo (h : LifeOK s) (hs : s.letGo = some s') : LifeOK s' := by
  unfold Lifetimes.letGo at hs
  split at hs <;> cases hs
  · next task t iters remove hj =>
    cases remove with
    | true =>
      have hset : ({ s.setFile t (s.files t).unref with
          creator := update s.creator t false } : Lifetimes).setPhase .removing = _ :=
        setPhase_eq (s := { s.setFile t (s.files t).unref with creator := update s.creator t false }) hj _
      rw [if_pos rfl, hset]
      exact h.released hj rfl rfl (Or.inr ⟨rfl, rfl⟩)
    | false => exact h.released hj rfl rfl (Or.inl rfl)
  · next hj => exact h.endJob hj rfl

theorem LifeOK.removeFile (h : LifeOK s) (hs : s.removeFile = some s') : LifeOK s' := by
  unfold Lifetimes.removeFile at hs
  split at hs <;> cases hs
  next task t iters hj =>
  obtain ⟨hmade, hu⟩ := h.job _ hj
  obtain ⟨hlt, hcr⟩ := hmade t rfl
  obtain ⟨hlist, hiter⟩ := hu t rfl
  have h0 : s.holders t = 0 := by
    have hsum : ∑ v ∈ Finset.range s.nextVersion, (s.versions v).held.count t = 0 := by
      refine Finset.sum_eq_zero fun v hv => List.count_eq_zero.mpr fun hmem => ?_
      have hv := Finset.mem_range.mp hv
      exact hlist v hv (h.counts.part v hv t hmem)
    unfold holders
    rw [hsum, List.count_eq_zero.mpr hiter, hcr]
    rfl
  have hgone : (s.files t).gone = false := by
    by_contra hne
    exact hu.not_listed rfl (h.gone t (by simpa using hne))
  have h' : LifeOK (s.setFile t (s.files t).remove) :=
    h.same (h.counts.touch hlt ((h.counts.ledger.lives t hlt).remove h0 hgone))
      (samePlan (fun _ => rfl) (gone_setFile s (Counted.gone_remove _)) rfl) (sameIters rfl)
  exact h'.endJob hj rfl

/-- STEP. -/
theorem LifeOK.step (h : LifeOK s) {e : LifeEvent} (hs : s.step e = some s') : LifeOK s' := by
  cases e with
  | acquire => exact h.acquire hs
  | openIter r t => exact h.openIter hs
  | closeIter i => exact h.closeIter hs
  | release r => exact h.release hs
  | dropTable v => exact h.dropTable hs
  | closeFile t => exact h.closeFile hs
  | unlinkFile t => exact h.unlinkFile hs
  | rotate => exact h.rotate hs
  | refTable => exact h.refTable hs
  | publish => exact h.publish hs
  | dropOld => exact h.dropOld hs
  | flush => exact h.flush hs
  | pick inputs => exact h.pick hs
  | compact => exact h.compact hs
  | restore b => exact h.restore hs
  | openNext => exact h.openNext hs
  | write => exact h.write hs
  | fail remove => exact h.fail hs
  | commit => exact h.commit hs
  | mark => exact h.mark hs
  | install => exact h.install hs
  | dropReplaced => exact h.dropReplaced hs
  | letGo => exact h.letGo hs
  | removeFile => exact h.removeFile hs

/-! ## Whole runs. -/

theorem opened_ok (n : ℕ) : LifeOK (opened n) := by
  have hver : (opened n).versions 0 = ⟨List.range n, 1, List.range n⟩ := rfl
  have hzero : ∀ v < (opened n).nextVersion, v = 0 := fun v hv => Nat.lt_one_iff.mp hv
  have hfiles : ∀ t, (opened n).files t = if t < n then .made else {} := fun _ => rfl
  have hholders : ∀ t, (opened n).holders t = if t < n then 1 else 0 := by
    intro t
    have hsum : (opened n).holders t = ((opened n).versions 0).held.count t := by
      show ∑ v ∈ Finset.range 1, ((opened n).versions v).held.count t + 0 + 0 = _
      rw [Finset.sum_range_one, add_zero, add_zero]
    rw [hsum, hver]
    split
    · next ht => exact List.count_eq_one_of_mem List.nodup_range (List.mem_range.mpr ht)
    · next ht => exact List.count_eq_zero.mpr fun hmem => ht (List.mem_range.mp hmem)
  refine ⟨⟨⟨fun t ht => ?_, fun t ht => ?_⟩, fun v hv => ?_, fun v hv _ _ => ?_, fun v hv t ht => ?_,
    fun _ _ _ hmu => (by cases hmu), fun _ hr => (by cases hr), Nat.zero_lt_one⟩, fun v hv t ht => ?_, trivial,
    fun _ hj => (by cases hj), fun _ hp => (by cases hp), fun t ht => ?_, fun t ht => ?_⟩
  · have ht : t < n := ht
    rw [hholders, hfiles, if_pos ht, if_pos ht]
    exact Counted.lives_made
  · have ht : ¬ t < n := not_lt.mpr ht
    rw [hholders, hfiles, if_neg ht, if_neg ht]
    exact ⟨rfl, rfl⟩
  · obtain rfl := hzero v hv
    rfl
  · rw [hzero v hv, hver]
  · rw [hzero v hv, hver] at ht ⊢
    exact ht
  · rw [hzero v hv, hver] at ht
    exact List.mem_range.mp ht
  · rw [hfiles] at ht
    split at ht <;> cases ht
  · obtain ⟨⟨v, hv, -, hmem⟩, hlive⟩ := ht
    rw [hzero v hv] at hmem
    exact absurd hmem hlive

/-- RUN. -/
theorem run_ok {n : ℕ} {es : List LifeEvent} {os : List Unit}
    (hrun : lifetimes.run (opened n) es = some (s, os)) : LifeOK s := by
  refine Machine.run_invariant (C := fun _ _ => True) (fun {s e s' os} hI _ hs => ?_) (opened_ok n)
    (Machine.meets_true _ _ _) hrun
  obtain ⟨s'', hs', heq⟩ := Option.map_eq_some_iff.mp hs
  obtain ⟨rfl, -⟩ := Prod.mk.inj heq
  exact hI.step hs'

/-- A file that somebody has is open and on disk. -/
theorem Counts.intact (h : Counts s) (hpos : 0 < s.holders t) : (s.files t).Intact :=
  (h.ledger.lives t (h.ledger.lt_of_pos hpos)).held hpos

/-- A `Restore` that has yet to mark the table owns the version that lists it, so a table without
holders that left the current version was marked before its last holder went. -/
theorem LifeOK.lives_removed (h : LifeOK s) (hr : s.Removed t) (h0 : s.holders t = 0) :
    (s.files t).Lives 0 ∧ (s.files t).gone = true := by
  obtain ⟨v, hv, -, hmem⟩ := hr.1
  refine ⟨h0 ▸ h.counts.ledger.lives t (h.bounded v hv t hmem), ?_⟩
  refine (h.removed t hr).resolve_right ?_
  rintro ⟨⟨task, out, iters, phase⟩, old, todo, hj, hp, hmem⟩
  cases (hp : phase = .retiring old todo)
  obtain ⟨-, ⟨hold, hnb⟩, htab, -⟩ := h.job _ hj
  have := h.counts.holders_pos hold (owners_retiring hj) hnb (htab t hmem)
  omega

/-- The pending close can be made, and then the unlink; both have then been made once. -/
theorem closes (hL : (s.files t).Lives 0) (hg : (s.files t).gone = true) :
    ∃ es s', es <:+ [.closeFile t, .unlinkFile t] ∧ lifetimes.run s es = some (s', []) ∧
      (s'.files t).closed = 1 ∧ (s'.files t).unlinked = 1 := by
  rcases hL.closes hg with ⟨hc, hu, h⟩ | ⟨hu, h⟩ | h
  · refine ⟨_, (s.setFile t (s.files t).close).setFile t (s.files t).close.unlink, List.suffix_rfl, ?_, ?_⟩
    · simp only [Machine.run, lifetimes, step, closeFile, unlinkFile, setFile, hc, if_true, Option.map_some,
        Function.update_self, hu, List.append_nil]
    · simp only [setFile, Function.update_self]
      exact h
  · refine ⟨[.unlinkFile t], s.setFile t (s.files t).unlink, ⟨[.closeFile t], rfl⟩, ?_, ?_⟩
    · simp only [Machine.run, lifetimes, step, unlinkFile, hu, if_true, Option.map_some, List.append_nil]
    · simp only [setFile, Function.update_self]
      exact h
  · exact ⟨[], s, List.nil_suffix, rfl, h⟩

end Lifetimes

/-- However readers, iterators, flushes, compactions and `Restore`s interleave: a table's reference count
is its number of holders, where a version with references holds all its tables once it is built; no table
of a version that a reader holds, and none that an iterator is open on, has been closed or unlinked; and
the file of a table that a compaction or a `Restore` removed is untouched while the table has a holder.
After that one caller has closed it or is about to, and the same caller has unlinked it or is about to;
nothing keeps it from doing so, and then the file has been closed once and unlinked once. -/
theorem table_lifetime {n : ℕ} {es : List LifeEvent} {s : Lifetimes} {os : List Unit}
    (hrun : lifetimes.run (Lifetimes.opened n) es = some (s, os)) :
    (∀ t, (s.files t).refs = s.holders t) ∧
      (∀ v < s.nextVersion, 0 < (s.versions v).refs → ¬ s.Builds v →
        (s.versions v).held = (s.versions v).tables) ∧
      (∀ v t, some v ∈ s.readers → t ∈ (s.versions v).tables → (s.files t).Intact) ∧
      (∀ t, some t ∈ s.iters → (s.files t).Intact) ∧
      ∀ t, s.Removed t →
        (0 < s.holders t → (s.files t).Intact) ∧
          (s.holders t = 0 → (s.files t).closing + (s.files t).closed = 1 ∧
            (s.files t).closing + (s.files t).unlinking + (s.files t).unlinked = 1 ∧
            (0 < (s.files t).closing → (s.step (.closeFile t)).isSome) ∧
            (0 < (s.files t).unlinking → (s.step (.unlinkFile t)).isSome) ∧
            ∃ es' s', es' <:+ [.closeFile t, .unlinkFile t] ∧ lifetimes.run s es' = some (s', []) ∧
              (s'.files t).closed = 1 ∧ (s'.files t).unlinked = 1) := by
  have h := Lifetimes.run_ok hrun
  refine ⟨fun t => ?_, fun v hv hpos hb => ?_, fun v t hr ht => ?_, fun t ht => ?_,
    fun t hr => ⟨h.counts.intact, fun h0 => ?_⟩⟩
  · by_cases ht : t < s.nextTable
    · exact (h.counts.ledger.lives t ht).refs
    · obtain ⟨h0, hf⟩ := h.counts.ledger.fresh t (not_lt.mp ht)
      rw [h0, hf]
      rfl
  · refine h.counts.whole v hv ?_ hb
    rw [h.counts.refs v hv] at hpos
    exact_mod_cast hpos
  · exact h.counts.intact (h.counts.reader_pos hr ht)
  · exact h.counts.intact (Lifetimes.holders_pos_of_iter ht)
  · obtain ⟨hL, hg⟩ := h.lives_removed hr h0
    refine ⟨hL.closed rfl, hL.unlinked rfl hg, fun hc => ?_, fun hu => ?_, Lifetimes.closes hL hg⟩
    · simp only [Lifetimes.step, Lifetimes.closeFile, if_pos hc, Option.isSome_some]
    · simp only [Lifetimes.step, Lifetimes.unlinkFile, if_pos hu, Option.isSome_some]

/-- Two tables are compacted while a reader holds the version that lists them; then another reader comes
and the first one goes. -/
def readDuringCompaction : List LifeEvent :=
  [.acquire, .pick [0, 1], .compact, .openNext, .openNext, .closeIter 0, .closeIter 1, .closeIter 1, .write,
    .commit, .mark, .mark, .install, .refTable, .publish, .dropOld, .letGo, .acquire, .release 0,
    .dropTable 0, .dropTable 0]

/-- The first of the two tables has no holder any more, and its file is closed and unlinked once; the
table the second reader holds is untouched. -/
theorem table_lifetime_reader : ∃ s os,
    lifetimes.run (Lifetimes.opened 2) readDuringCompaction = some (s, os) ∧
      (some 1 ∈ s.readers ∧ 2 ∈ (s.versions 1).tables ∧ (s.files 2).Intact) ∧
      s.Removed 0 ∧ s.holders 0 = 0 ∧ (s.files 0).closing = 1 ∧
      ∃ es s', lifetimes.run s es = some (s', []) ∧
        (s'.files 0).closed = 1 ∧ (s'.files 0).unlinked = 1 := by
  have hend : (lifetimes.run (Lifetimes.opened 2) readDuringCompaction).map (fun p => decide
      (p.1.readers = [none, some 1] ∧ (p.1.versions 1).tables = [2] ∧ p.1.nextVersion = 2 ∧
        (p.1.versions 0).tables = [0, 1] ∧ p.1.mu = .free ∧ p.1.live = [2] ∧ p.1.holders 0 = 0 ∧
        (p.1.files 0).closing = 1)) = some true := by
    decide +kernel
  obtain ⟨⟨s, os⟩, hrun, heq⟩ := Option.map_eq_some_iff.mp hend
  obtain ⟨hr, ht, hn, hold, hmu, hlive, h0, hc⟩ := of_decide_eq_true heq
  have hreader : some 1 ∈ s.readers := by
    rw [hr]
    decide
  have htable : 2 ∈ (s.versions 1).tables := by
    rw [ht]
    decide
  have hremoved : s.Removed 0 := by
    refine ⟨⟨0, by rw [hn]; decide, fun ⟨_, _, hb⟩ => (by cases hmu.symm.trans hb), ?_⟩, ?_⟩
    · rw [hold]
      decide
    · rw [hlive]
      decide
  obtain ⟨-, -, hread, -, hgo⟩ := table_lifetime hrun
  obtain ⟨es, s', -, hrun', hend'⟩ := ((hgo 0 hremoved).2 h0).2.2.2.2
  exact ⟨s, os, hrun, ⟨hreader, htable, hread 1 2 hreader htable⟩, hremoved, h0, hc, es, s', hrun', hend'⟩

end Keystone.Storage
