/-
# Keystone.Storage.TableCounts — a table's reference count is its number of holders.

`Counts` is the first part of the invariant of the machine of `Storage.TableRefs`: a table's count is
its number of holders, a version's its number of owners, and a version that has an owner, unless it is
still being built, holds a reference on each of its tables.  Each operation moves one holder or one
owner; what it needs for that is that the table or the version it starts from has one.
-/
import Mathlib.Algebra.Order.BigOperators.Group.Finset
import Mathlib.Tactic.NormNum
import Keystone.Storage.TableRefs

namespace Keystone.Storage

open Keystone.Lib
open Function (update)

/-! ## Owners and holders. -/

/-- One for the version in question. -/
def one (v w : ℕ) : ℕ := if v = w then 1 else 0

@[simp] theorem one_self (v : ℕ) : one v v = 1 := if_pos rfl

theorem one_ne {v w : ℕ} (h : v ≠ w) : one v w = 0 := if_neg h

/-- The reference on a version that the holder of `d.mu` owns. -/
def MuHolder.owns : MuHolder → ℕ → ℕ
  | .free, _ => 0
  | .building _ w _, v => one v w
  | .dropping _ old, v => one v old

/-- The one that a `Restore` owns until it has marked the tables. -/
def InstallPhase.owns : InstallPhase → ℕ → ℕ
  | .retiring old _, v => one v old
  | _, _ => 0

namespace Lifetimes

variable {s s' : Lifetimes} {t u v : ℕ}

/-- The owners of a version: the database, if it is the current one, readers, and the two locks. -/
def owners (s : Lifetimes) (v : ℕ) : ℕ :=
  one v s.current + s.readers.count (some v) + s.mu.owns v + s.job.elim 0 (fun j => j.phase.owns v)

/-- The holders of a table: versions, open iterators, and its maker. -/
def holders (s : Lifetimes) (t : ℕ) : ℕ :=
  (∑ v ∈ Finset.range s.nextVersion, (s.versions v).held.count t) + s.iters.count (some t) +
    (s.creator t).toNat

/-- The version is under construction. -/
def Builds (s : Lifetimes) (v : ℕ) : Prop := ∃ job todo, s.mu = .building job v todo

/-- A version that is or was the current one lists the table. -/
def Listed (s : Lifetimes) (t : ℕ) : Prop :=
  ∃ v < s.nextVersion, ¬ s.Builds v ∧ t ∈ (s.versions v).tables

/-- A compaction or a `Restore` took the table out of the current version. -/
def Removed (s : Lifetimes) (t : ℕ) : Prop := s.Listed t ∧ t ∉ s.live

/-! ## The counts. -/

structure Counts (s : Lifetimes) : Prop where
  ledger : Ledger s.files s.nextTable s.holders
  refs : ∀ v < s.nextVersion, (s.versions v).refs = s.owners v
  whole : ∀ v < s.nextVersion, 0 < s.owners v → ¬ s.Builds v →
    (s.versions v).held = (s.versions v).tables
  part : ∀ v < s.nextVersion, ∀ t ∈ (s.versions v).held, t ∈ (s.versions v).tables
  built : ∀ job v todo, s.mu = .building job v todo →
    v < s.nextVersion ∧ s.owners v = 1 ∧ (s.versions v).held ++ todo = (s.versions v).tables
  readers : ∀ v, some v ∈ s.readers → v < s.nextVersion
  current : s.current < s.nextVersion

theorem holders_pos_of_held (hv : v < s.nextVersion) (ht : t ∈ (s.versions v).held) :
    0 < s.holders t := by
  have hsum : (s.versions v).held.count t ≤
      ∑ w ∈ Finset.range s.nextVersion, (s.versions w).held.count t :=
    Finset.single_le_sum (f := fun w => (s.versions w).held.count t) (fun _ _ => Nat.zero_le _)
      (Finset.mem_range.mpr hv)
  have hpos : 0 < (s.versions v).held.count t := List.count_pos_iff.mpr ht
  unfold holders
  omega

/-- A version with an owner holds its tables. -/
theorem Counts.holders_pos (h : Counts s) (hv : v < s.nextVersion) (hown : 0 < s.owners v)
    (hb : ¬ s.Builds v) (ht : t ∈ (s.versions v).tables) : 0 < s.holders t :=
  holders_pos_of_held hv (by rw [h.whole v hv hown hb]; exact ht)

theorem owners_current (s : Lifetimes) : 0 < s.owners s.current := by
  unfold owners
  rw [one_self]
  omega

/-- The version under construction has one owner, so it is nobody else's. -/
theorem Counts.not_builds_current (h : Counts s) : ¬ s.Builds s.current := by
  rintro ⟨job, todo, hmu⟩
  obtain ⟨-, hown, -⟩ := h.built _ _ _ hmu
  unfold owners at hown
  rw [one_self, hmu, MuHolder.owns, one_self] at hown
  omega

theorem Counts.live_pos (h : Counts s) (ht : t ∈ s.live) : 0 < s.holders t :=
  h.holders_pos h.current (owners_current s) h.not_builds_current ht

/-- The version a reader holds is not under construction. -/
theorem Counts.not_builds_reader (h : Counts s) (hr : some v ∈ s.readers) : ¬ s.Builds v := by
  rintro ⟨job, todo, hmu⟩
  obtain ⟨-, hown, -⟩ := h.built _ _ _ hmu
  have hcount : 0 < s.readers.count (some v) := List.count_pos_iff.mpr hr
  unfold owners at hown
  rw [hmu, MuHolder.owns, one_self] at hown
  omega

theorem owners_reader (hr : some v ∈ s.readers) : 0 < s.owners v := by
  have hcount : 0 < s.readers.count (some v) := List.count_pos_iff.mpr hr
  unfold owners
  omega

theorem Counts.reader_pos (h : Counts s) (hr : some v ∈ s.readers)
    (ht : t ∈ (s.versions v).tables) : 0 < s.holders t :=
  h.holders_pos (h.readers v hr) (owners_reader hr) (h.not_builds_reader hr) ht

theorem holders_pos_of_iter (h : some t ∈ s.iters) : 0 < s.holders t := by
  have hcount : 0 < s.iters.count (some t) := List.count_pos_iff.mpr h
  unfold holders
  omega

theorem holders_pos_of_creator (h : s.creator t = true) : 0 < s.holders t := by
  unfold holders
  rw [h, Bool.toNat_true]
  omega

/-- Nothing happened to the versions or to who owns them. -/
theorem Counts.sameVersions (h : Counts s) (hl : Ledger s'.files s'.nextTable s'.holders)
    (hv : s'.versions = s.versions) (hn : s'.nextVersion = s.nextVersion) (hmu : s'.mu = s.mu)
    (hr : s'.readers = s.readers) (hc : s'.current = s.current)
    (ho : ∀ v, s'.owners v = s.owners v) : Counts s' where
  ledger := hl
  refs v hlt := by rw [hv, ho]; exact h.refs v (hn ▸ hlt)
  whole v hlt hpos hb := by
    rw [hv]
    refine h.whole v (hn ▸ hlt) (ho v ▸ hpos) fun hb' => hb ?_
    unfold Builds
    rw [hmu]
    exact hb'
  part v hlt := by rw [hv]; exact h.part v (hn ▸ hlt)
  built job v todo hm := by rw [hv, hn, ho]; exact h.built job v todo (hmu ▸ hm)
  readers v hr' := by rw [hn]; exact h.readers v (hr ▸ hr')
  current := by rw [hc, hn]; exact h.current

/-! ### How holders change -/

theorem holders_iter (s : Lifetimes) (t : ℕ) :
    (s.iter t).holders = update s.holders t (s.holders t + 1) := by
  funext u
  by_cases hu : u = t
  · subst hu
    rw [Function.update_self]
    simp only [holders, iter, setFile, List.count_append, List.count_singleton_self]
    omega
  · rw [Function.update_of_ne hu]
    have hne : (some t == some u) = false := by simpa using fun h => hu h.symm
    simp only [holders, iter, setFile, List.count_append, List.count_singleton, hne, Bool.false_eq_true,
      if_false, Nat.add_zero]

theorem count_set_none {l : List (Option ℕ)} {i : ℕ} (h : l[i]? = some (some t)) :
    l.count (some t) = (l.set i none).count (some t) + 1 ∧
      ∀ u ≠ t, (l.set i none).count (some u) = l.count (some u) := by
  obtain ⟨hi, hget⟩ := List.getElem?_eq_some_iff.mp h
  have hpos : 0 < l.count (some t) := List.count_pos_iff.mpr (List.mem_of_getElem? h)
  refine ⟨?_, fun u hu => ?_⟩
  · rw [List.count_set hi, hget]
    simp
    omega
  · rw [List.count_set hi, hget]
    have hne : (some t == some u) = false := by simpa using fun h => hu h.symm
    simp [hne]

/-- The sum over the versions when one of them changes. -/
theorem sum_update {n : ℕ} (hv : v < n) (vs : ℕ → VersionRef) (x : VersionRef) (t : ℕ) :
    (∑ w ∈ Finset.range n, (update vs v x w).held.count t) + (vs v).held.count t =
      (∑ w ∈ Finset.range n, (vs w).held.count t) + x.held.count t := by
  have hmem : v ∈ Finset.range n := Finset.mem_range.mpr hv
  rw [← Finset.add_sum_erase _ _ hmem, ← Finset.add_sum_erase _ (fun w => (vs w).held.count t) hmem]
  have hrest : ∑ w ∈ (Finset.range n).erase v, (update vs v x w).held.count t =
      ∑ w ∈ (Finset.range n).erase v, (vs w).held.count t := by
    refine Finset.sum_congr rfl fun w hw => ?_
    rw [Function.update_of_ne (Finset.ne_of_mem_erase hw)]
  rw [hrest, Function.update_self]
  omega

theorem holders_congr (hv : ∀ v, (s'.versions v).held = (s.versions v).held)
    (hn : s'.nextVersion = s.nextVersion) (hi : s'.iters = s.iters) (hc : s'.creator = s.creator) :
    s'.holders = s.holders := by
  funext t
  simp only [holders, hv, hn, hi, hc]

theorem holders_closeIter {i : ℕ} (h : s.iters[i]? = some (some t)) {n : ℕ}
    (hn : s.holders t = n + 1) :
    ({ s.setFile t (s.files t).unref with iters := s.iters.set i none } : Lifetimes).holders =
      update s.holders t n := by
  obtain ⟨hself, hother⟩ := count_set_none h
  funext u
  by_cases hu : u = t
  · subst hu
    rw [Function.update_self]
    simp only [holders, setFile] at hn ⊢
    omega
  · rw [Function.update_of_ne hu]
    simp only [holders, setFile, hother u hu]

/-- One version comes to hold, or to drop, a table. -/
theorem holders_setVersion (hv : v < s.nextVersion) (x : VersionRef) (o : Counted) (t u : ℕ) :
    ((s.setVersion v x).setFile t o).holders u + (s.versions v).held.count u =
      s.holders u + x.held.count u := by
  have := sum_update hv s.versions x u
  simp only [holders, setFile, setVersion]
  omega

theorem holders_build (s : Lifetimes) (job : Bool) (tables : List ℕ) :
    (s.build job tables).holders = s.holders := by
  funext t
  simp only [holders, build, setVersion, Finset.sum_range_succ, Function.update_self, List.count_nil,
    Nat.add_zero]
  congr 2
  refine Finset.sum_congr rfl fun w hw => ?_
  rw [Function.update_of_ne (Finset.mem_range.mp hw).ne]

theorem holders_make (h : Ledger s.files s.nextTable s.holders) :
    s.make.holders = update s.holders s.nextTable 1 := by
  have h0 := (h.fresh s.nextTable le_rfl).1
  funext u
  by_cases hu : u = s.nextTable
  · subst hu
    rw [Function.update_self]
    simp only [holders, make, setFile, Function.update_self, Bool.toNat_true] at h0 ⊢
    omega
  · rw [Function.update_of_ne hu]
    simp only [holders, make, setFile, Function.update_of_ne hu]

/-! ### Reading -/

theorem Counts.iter (h : Counts s) (ht : 0 < s.holders t) : Counts (s.iter t) := by
  refine h.sameVersions ?_ rfl rfl rfl rfl rfl fun _ => rfl
  rw [holders_iter]
  exact h.ledger.ref ht

theorem Counts.openIter {r : ℕ} (h : Counts s) (hs : s.openIter r t = some s') : Counts s' := by
  unfold Lifetimes.openIter at hs
  split at hs
  case h_2 => cases hs
  next v hr =>
  split at hs <;> cases hs
  next ht => exact h.iter (h.reader_pos (List.mem_of_getElem? hr) ht)

theorem Counts.closeIter {i : ℕ} (h : Counts s) (hs : s.closeIter i = some s') : Counts s' := by
  unfold Lifetimes.closeIter at hs
  split at hs <;> cases hs
  · next t hi =>
    have hpos := holders_pos_of_iter (s := s) (List.mem_of_getElem? hi)
    obtain ⟨n, hn⟩ := Nat.exists_eq_succ_of_ne_zero hpos.ne'
    refine h.sameVersions ?_ rfl rfl rfl rfl rfl fun _ => rfl
    rw [holders_closeIter hi hn]
    exact h.ledger.unref hn
  · exact h

/-- A reference on a version is taken or dropped, and an owner comes or goes with it. -/
theorem Counts.reown (h : Counts s) {d : ℤ} (hv : v < s.nextVersion) (hpos : 0 < s.owners v)
    (hver : s'.versions = update s.versions v { s.versions v with refs := (s.versions v).refs + d })
    (hfiles : s'.files = s.files ∧ s'.nextTable = s.nextTable ∧ s'.iters = s.iters ∧
      s'.creator = s.creator)
    (hn : s'.nextVersion = s.nextVersion) (hc : s'.current = s.current)
    (hown : ∀ w, (s'.owners w : ℤ) = s.owners w + if w = v then d else 0)
    (hb : ∀ w, s.Builds w → s'.Builds w)
    (hb' : ∀ job w todo, s'.mu = .building job w todo → s.mu = .building job w todo ∧ w ≠ v)
    (hr : ∀ w, some w ∈ s'.readers → w < s.nextVersion) : Counts s' := by
  have hother : ∀ w, w ≠ v → s'.versions w = s.versions w := fun w hw => by
    rw [hver, Function.update_of_ne hw]
  have hself : s'.versions v = { s.versions v with refs := (s.versions v).refs + d } := by
    rw [hver, Function.update_self]
  have hsame : ∀ w, (s'.versions w).held = (s.versions w).held ∧
      (s'.versions w).tables = (s.versions w).tables := fun w => by
    by_cases hw : w = v
    · rw [hw, hself]
      exact ⟨rfl, rfl⟩
    · rw [hother w hw]
      exact ⟨rfl, rfl⟩
  have hheld := fun w => (hsame w).1
  have htables := fun w => (hsame w).2
  obtain ⟨hf, ht, hi, hcr⟩ := hfiles
  refine ⟨?_, fun w hw => ?_, fun w hw hpos' hbw => ?_, fun w hw => ?_, fun job w todo hmu => ?_, ?_, ?_⟩
  · rw [hf, ht, holders_congr hheld hn hi hcr]
    exact h.ledger
  · rw [hown]
    by_cases hwv : w = v
    · rw [if_pos hwv, hwv, hself, h.refs v hv]
    · rw [if_neg hwv, hother w hwv, h.refs w (hn ▸ hw), add_zero]
  · rw [hheld, htables]
    refine h.whole w (hn ▸ hw) ?_ fun hbs => hbw (hb w hbs)
    by_cases hwv : w = v
    · rw [hwv]
      exact hpos
    · have := hown w
      rw [if_neg hwv] at this
      omega
  · rw [hheld, htables]
    exact h.part w (hn ▸ hw)
  · obtain ⟨hmu', hwv⟩ := hb' job w todo hmu
    obtain ⟨hlt, hone, hsplit⟩ := h.built job w todo hmu'
    have := hown w
    rw [if_neg hwv] at this
    exact ⟨hn ▸ hlt, by omega, by rw [hheld, htables]; exact hsplit⟩
  · rw [hn]
    exact hr
  · rw [hc, hn]
    exact h.current

theorem Counts.acquire (h : Counts s) (hs : s.acquire = some s') : Counts s' := by
  unfold Lifetimes.acquire at hs
  split at hs <;> cases hs
  next hmu =>
  refine h.reown (d := 1) h.current (owners_current s) rfl ⟨rfl, rfl, rfl, rfl⟩ rfl rfl ?_ ?_ ?_ ?_
  · intro w
    by_cases hw : w = s.current
    · subst hw
      simp only [owners, setVersion, List.count_append, List.count_singleton_self, if_true]
      omega
    · have hne : (some s.current == some w) = false := by simpa using fun h => hw h.symm
      simp only [owners, setVersion, List.count_append, List.count_singleton, hne, if_neg hw,
        Bool.false_eq_true, if_false, add_zero]
  · rintro w ⟨job, todo, hb⟩
    cases hmu.symm.trans hb
  · intro job w todo hb
    cases hmu.symm.trans hb
  · intro w hw
    rcases List.mem_append.mp hw with hw | hw
    · exact h.readers w hw
    · obtain rfl := Option.some.inj (List.mem_singleton.mp hw)
      exact h.current

theorem Counts.release {r : ℕ} (h : Counts s) (hs : s.release r = some s') : Counts s' := by
  unfold Lifetimes.release at hs
  split at hs <;> cases hs
  next v hr =>
  have hmem := List.mem_of_getElem? hr
  obtain ⟨hself, hother⟩ := count_set_none hr
  have hcount : 0 < s.readers.count (some v) := List.count_pos_iff.mpr hmem
  refine h.reown (d := -1) (h.readers v hmem) (by unfold owners; omega) rfl ⟨rfl, rfl, rfl, rfl⟩ rfl
    rfl ?_ (fun _ hb => hb) ?_ ?_
  · intro w
    by_cases hw : w = v
    · subst hw
      simp only [owners, unrefVersion, setVersion, if_true]
      omega
    · simp only [owners, unrefVersion, setVersion, hother w hw, if_neg hw, add_zero]
  · intro job w todo hb
    refine ⟨hb, ?_⟩
    rintro rfl
    exact h.not_builds_reader hmem ⟨job, todo, hb⟩
  · intro w hw
    obtain ⟨i, hi⟩ := List.mem_iff_getElem?.mp hw
    rw [List.getElem?_set] at hi
    split at hi
    · split at hi <;> cases hi
    · exact h.readers w (List.mem_of_getElem? hi)

/-- One version comes to hold, or to drop, a table: it has no owner, or it is under construction. -/
theorem Counts.hold (h : Counts s) {held : List ℕ} {o : Counted} {n : ℕ} {mu : MuHolder}
    (hv : v < s.nextVersion)
    (hl : Ledger (update s.files t o) s.nextTable (update s.holders t n))
    (hself : n + (s.versions v).held.count t = s.holders t + held.count t)
    (hother : ∀ u ≠ t, held.count u = (s.versions v).held.count u)
    (hpart : ∀ u ∈ held, u ∈ (s.versions v).tables) (hmu : ∀ w, mu.owns w = s.mu.owns w)
    (hown : s.owners v = 0 ∨ ∃ job todo, mu = .building job v todo)
    (hbuilt : ∀ job w todo, mu = .building job w todo → (w ≠ v ∧ s.mu = .building job w todo) ∨
      (w = v ∧ s.owners v = 1 ∧ held ++ todo = (s.versions v).tables))
    (hb : ∀ w ≠ v, s.Builds w → ∃ job todo, mu = .building job w todo) :
    Counts { (s.setVersion v { s.versions v with held := held }).setFile t o with mu := mu } := by
  have hsame : ∀ w, w ≠ v → update s.versions v { s.versions v with held := held } w = s.versions w :=
    fun w hw => Function.update_of_ne hw ..
  have hlist : ({ (s.setVersion v { s.versions v with held := held }).setFile t o with
      mu := mu } : Lifetimes).holders = update s.holders t n := by
    funext u
    have hsum : _ + (s.versions v).held.count u = _ + held.count u :=
      holders_setVersion hv { s.versions v with held := held } o t u
    show ((s.setVersion v _).setFile t o).holders u = _
    by_cases hu : u = t
    · subst hu
      rw [Function.update_self]
      omega
    · rw [Function.update_of_ne hu]
      rw [hother u hu] at hsum
      omega
  have howners : ∀ w, ({ (s.setVersion v { s.versions v with held := held }).setFile t o with
      mu := mu } : Lifetimes).owners w = s.owners w := fun w => by
    simp only [owners, setFile, setVersion, hmu]
  refine ⟨?_, fun w hw => ?_, fun w hw hpos hbw => ?_, fun w hw u hu => ?_, fun job w todo hmu' => ?_,
    h.readers, h.current⟩
  · rw [hlist]
    exact hl
  · rw [howners]
    show (update s.versions v _ w).refs = _
    by_cases hwv : w = v
    · subst hwv
      rw [Function.update_self]
      exact h.refs w hw
    · rw [hsame w hwv]
      exact h.refs w hw
  · rw [howners] at hpos
    have hwv : w ≠ v := by
      rintro rfl
      rcases hown with h0 | hb
      · omega
      · exact hbw hb
    show (update s.versions v _ w).held = (update s.versions v _ w).tables
    rw [hsame w hwv]
    exact h.whole w hw hpos fun hb' => hbw (hb w hwv hb')
  · have hu : u ∈ (update s.versions v { s.versions v with held := held } w).held := hu
    show u ∈ (update s.versions v _ w).tables
    by_cases hwv : w = v
    · subst hwv
      rw [Function.update_self] at hu ⊢
      exact hpart u hu
    · rw [hsame w hwv] at hu ⊢
      exact h.part w hw u hu
  · rw [howners]
    show _ ∧ _ ∧ (update s.versions v _ w).held ++ todo = (update s.versions v _ w).tables
    rcases hbuilt job w todo hmu' with ⟨hwv, hs⟩ | ⟨rfl, hone, hsplit⟩
    · rw [hsame w hwv]
      exact h.built job w todo hs
    · rw [Function.update_self]
      exact ⟨hv, hone, hsplit⟩

/-- The loop of a version that nobody owns. -/
theorem Counts.dropTable (h : Counts s) (hs : s.dropTable v = some s') : Counts s' := by
  unfold Lifetimes.dropTable at hs
  split at hs
  case h_2 => cases hs
  next t held hheld =>
  split at hs <;> cases hs
  next hc =>
  obtain ⟨hv, hrefs⟩ := hc
  have hown : s.owners v = 0 := by
    have := h.refs v hv
    omega
  have hpos : 0 < s.holders t := holders_pos_of_held hv (by rw [hheld]; exact List.mem_cons_self ..)
  obtain ⟨n, hn⟩ := Nat.exists_eq_succ_of_ne_zero hpos.ne'
  refine h.hold hv (h.ledger.unref hn) ?_ (fun u hu => ?_) (fun u hu => ?_)
    (fun w => (rfl : s.mu.owns w = s.mu.owns w)) (Or.inl hown)
    (fun job w todo hmu => Or.inl ⟨?_, hmu⟩) fun _ _ hb => hb
  · rw [hheld, List.count_cons_self]
    omega
  · rw [hheld, List.count_cons_of_ne fun h => hu h.symm]
  · exact h.part v hv u (by rw [hheld]; exact List.mem_cons_of_mem _ hu)
  · rintro rfl
    have := (h.built _ _ _ hmu).2.1
    omega

/-- Something is done to a table, and its holders stay. -/
theorem Counts.touch (h : Counts s) {o : Counted} (ht : t < s.nextTable)
    (ho : o.Lives (s.holders t)) : Counts (s.setFile t o) :=
  h.sameVersions (h.ledger.touch ht ho) rfl rfl rfl rfl rfl fun _ => rfl

theorem Counts.lives_of_ne (h : Counts s) (hne : s.files t ≠ {}) :
    t < s.nextTable ∧ (s.files t).Lives (s.holders t) :=
  ⟨h.ledger.lt_of_ne hne, h.ledger.lives t (h.ledger.lt_of_ne hne)⟩

theorem Counts.closeFile (h : Counts s) (hs : s.closeFile t = some s') : Counts s' := by
  unfold Lifetimes.closeFile at hs
  split at hs <;> cases hs
  next hc =>
  obtain ⟨ht, hl⟩ := h.lives_of_ne (t := t) (by intro h0; rw [h0] at hc; cases hc)
  exact h.touch ht (hl.close hc)

theorem Counts.unlinkFile (h : Counts s) (hs : s.unlinkFile t = some s') : Counts s' := by
  unfold Lifetimes.unlinkFile at hs
  split at hs <;> cases hs
  next hc =>
  obtain ⟨ht, hl⟩ := h.lives_of_ne (t := t) (by intro h0; rw [h0] at hc; cases hc)
  exact h.touch ht (hl.unlink hc)

/-! ### Under the locks -/

/-- A job goes on, and owns what it did. -/
theorem Counts.rejob (h : Counts s) {job : Option InstallJob} {picked : Option (List ℕ)}
    (hj : ∀ v, job.elim 0 (fun j => j.phase.owns v) = s.job.elim 0 fun j => j.phase.owns v) :
    Counts { s with job := job, picked := picked } := by
  refine h.sameVersions h.ledger rfl rfl rfl rfl rfl fun v => ?_
  simp only [owners, hj]

theorem Counts.build (h : Counts s) {job : Bool} {tables : List ℕ} (hmu : s.mu = .free)
    (hj : s.job.elim 0 (fun j => j.phase.owns s.nextVersion) = 0) : Counts (s.build job tables) := by
  have hsame : ∀ w < s.nextVersion,
      (s.build job tables).versions w = s.versions w ∧ (s.build job tables).owners w = s.owners w := by
    intro w hw
    refine ⟨Function.update_of_ne hw.ne .., ?_⟩
    simp only [owners, Lifetimes.build, setVersion, hmu, MuHolder.owns, one_ne hw.ne]
  have hnew : (s.build job tables).versions s.nextVersion = { tables := tables, refs := 1 } :=
    Function.update_self ..
  have hone : (s.build job tables).owners s.nextVersion = 1 := by
    have hread : s.readers.count (some s.nextVersion) = 0 :=
      List.count_eq_zero.mpr fun hmem => (h.readers _ hmem).false
    simp only [owners, Lifetimes.build, setVersion, MuHolder.owns, one_self, hread, hj,
      one_ne h.current.ne']
  refine ⟨?_, fun w hw => ?_, fun w hw hpos hb => ?_, fun w hw u hu => ?_, fun job' w todo hmu' => ?_,
    fun w hw => (h.readers w hw).trans (Nat.lt_succ_self _), h.current.trans (Nat.lt_succ_self _)⟩
  · rw [holders_build]
    exact h.ledger
  · rcases Nat.lt_succ_iff_lt_or_eq.mp hw with hw | rfl
    · rw [(hsame w hw).1, (hsame w hw).2]
      exact h.refs w hw
    · rw [hnew, hone]
      rfl
  · rcases Nat.lt_succ_iff_lt_or_eq.mp hw with hw | rfl
    · rw [(hsame w hw).1]
      rw [(hsame w hw).2] at hpos
      refine h.whole w hw hpos ?_
      rintro ⟨job', todo, hb'⟩
      rw [hmu] at hb'
      cases hb'
    · exact absurd ⟨job, tables, rfl⟩ hb
  · rcases Nat.lt_succ_iff_lt_or_eq.mp hw with hw | rfl
    · rw [(hsame w hw).1] at hu ⊢
      exact h.part w hw u hu
    · rw [hnew] at hu
      cases hu
  · have heq : MuHolder.building job s.nextVersion tables = .building job' w todo := hmu'
    obtain ⟨-, rfl, rfl⟩ := MuHolder.building.inj heq
    exact ⟨Nat.lt_succ_self _, hone, by rw [hnew]; rfl⟩

theorem Counts.refTable {job : Bool} {todo : List ℕ} (h : Counts s)
    (hmu : s.mu = .building job v (t :: todo)) (hpos : 0 < s.holders t) :
    Counts { (s.setVersion v { s.versions v with held := (s.versions v).held ++ [t] }).setFile t
      (s.files t).ref with mu := .building job v todo } := by
  obtain ⟨hv, hone, hsplit⟩ := h.built _ _ _ hmu
  rw [List.append_cons] at hsplit
  refine h.hold hv (h.ledger.ref hpos) ?_ (fun u hu => ?_) (fun u hu => ?_) (fun w => ?_)
    (Or.inr ⟨job, todo, rfl⟩) (fun job' w todo' hb => Or.inr ?_) fun w hw hb => ?_
  · rw [List.count_append, List.count_singleton_self]
    omega
  · rw [List.count_append, List.count_singleton, if_neg (by simpa using fun h => hu h.symm), add_zero]
  · rw [← hsplit]
    exact List.mem_append_left _ hu
  · rw [hmu]
    rfl
  · obtain ⟨-, rfl, rfl⟩ := MuHolder.building.inj hb
    exact ⟨rfl, hone, hsplit⟩
  · obtain ⟨job', todo', hb⟩ := hb
    rw [hmu] at hb
    exact absurd (MuHolder.building.inj hb).2.1.symm hw

/-- A version that holds all its tables becomes the current one; the old one changes owners. -/
theorem Counts.publish (h : Counts s) {job : Bool} (hmu : s.mu = .building job v [])
    (hv : s'.versions = s.versions) (hn : s'.nextVersion = s.nextVersion)
    (hl : Ledger s'.files s'.nextTable s'.holders) (hr : s'.readers = s.readers)
    (hc : s'.current = v) (ho : ∀ w, s'.owners w = s.owners w) (hfree : ∀ w, ¬ s'.Builds w) :
    Counts s' := by
  obtain ⟨hlt, -, hsplit⟩ := h.built _ _ _ hmu
  refine ⟨hl, fun w hw => ?_, fun w hw hpos _ => ?_, fun w hw => ?_, fun job' w todo hmu' => ?_, ?_, ?_⟩
  · rw [hv, ho]
    exact h.refs w (hn ▸ hw)
  · rw [hv]
    by_cases hwv : w = v
    · rw [hwv, ← hsplit, List.append_nil]
    · refine h.whole w (hn ▸ hw) (ho w ▸ hpos) ?_
      rintro ⟨job', todo, hb⟩
      rw [hmu] at hb
      exact hwv (MuHolder.building.inj hb).2.1.symm
  · rw [hv]
    exact h.part w (hn ▸ hw)
  · exact absurd ⟨job', todo, hmu'⟩ (hfree w)
  · rw [hr, hn]
    exact h.readers
  · rw [hc, hn]
    exact hlt

theorem Counts.make (h : Counts s) {job : Option InstallJob}
    (hj : ∀ v, job.elim 0 (fun j => j.phase.owns v) = s.job.elim 0 fun j => j.phase.owns v) :
    Counts { s.make with job := job } := by
  refine h.sameVersions ?_ rfl rfl rfl rfl rfl fun v => ?_
  · show Ledger (update s.files s.nextTable .made) (s.nextTable + 1) s.make.holders
    rw [holders_make h.ledger]
    exact h.ledger.make
  · simp only [owners, Lifetimes.make, setFile, hj]

theorem Counts.letGo (h : Counts s) (hc : s.creator t = true) :
    Counts { s.setFile t (s.files t).unref with creator := update s.creator t false } := by
  obtain ⟨n, hn⟩ := Nat.exists_eq_succ_of_ne_zero (holders_pos_of_creator hc).ne'
  refine h.sameVersions ?_ rfl rfl rfl rfl rfl fun _ => rfl
  have hlist : ({ s.setFile t (s.files t).unref with
      creator := update s.creator t false } : Lifetimes).holders = update s.holders t n := by
    funext u
    by_cases hu : u = t
    · subst hu
      rw [Function.update_self]
      simp only [holders, setFile, Function.update_self, hc, Bool.toNat_true, Bool.toNat_false] at hn ⊢
      omega
    · rw [Function.update_of_ne hu]
      simp only [holders, setFile, Function.update_of_ne hu]
  rw [hlist]
  exact h.ledger.unref hn

end Lifetimes

end Keystone.Storage
