/-
# Keystone.Raft.DiskRecovery — a crashed `DiskStore` reopens with the log it had.

EVERY crash point of a call leaves a durable directory, of the log before the call, after it, or for an
`Append` of a prefix of its entries.  `Compact` alone can break this, through the segments it deletes:
the records that stay have to be replayable from an empty store, however many deletions it got to.

`CompactOK` is that condition, on the state in front of the call.  The main theorem says that a call
recovers at all of its crash points EXACTLY when it meets the condition; `third_compact_unreadable` is a
run of five successful calls after which the store does not open any more.
-/
import Keystone.Raft.DiskDurable

namespace Keystone.Raft

open Keystone.Lib
open Keystone.Storage (Wal WalAction deleteBefore encodeRecords)
open Function (update)

/-! ## The condition on `Compact`. -/

/-- How many segments `Compact` deletes. -/
def DiskStore.deletions (s : DiskStore) (d : Disk) (index : ℕ) : ℕ :=
  (deleteBefore { s with snapIdx := index, wal := s.wal.rotate.1 }.keepSegment d.segs).length

/-- However many of its deletions `Compact` gets to, the records of the segments that stay can be
replayed. -/
def CompactOK (s : DiskStore) (d : Disk) : StoreCall → Prop
  | .compact index _ _ =>
    s.snapIdx < index →
      ∀ k < s.deletions d index, Replayable (recordsIn (d.segs.drop (k + 1)))
  | _ => True

instance CompactOK.decide (s : DiskStore) (d : Disk) : DecidablePred (CompactOK s d)
  | .append _ => isTrue trivial
  | .setState _ _ => isTrue trivial
  | .compact index _ _ => inferInstanceAs (Decidable (s.snapIdx < index →
      ∀ k < s.deletions d index, Replayable (recordsIn (d.segs.drop (k + 1)))))

/-! ## `Compact`. -/

/-- A crash between the deletions of the oldest segments. -/
theorem crashed_removes {first t : ℕ} {h : List (List Rec)} {d : Disk} (hd : d.segs = files first h)
    (ht : t ≤ h.length) (k j : ℕ) :
    crashed d ((((files first h).take t).map fun g => WalAction.remove g.num).map .wal) k j =
      { d with segs := files (first + min k t) (h.drop (min k t)) } := by
  induction t generalizing first h d k with
  | zero =>
    simp only [List.take_zero, List.map_nil, Nat.min_zero, List.drop_zero, Nat.add_zero, ← hd]
    rfl
  | succ t ih =>
    cases h with
    | nil => simp at ht
    | cons rs h =>
      cases k with
      | zero =>
        simp only [Nat.zero_min, List.drop_zero, Nat.add_zero]
        show d = _
        rw [← hd]
      | succ k =>
        have happly : DiskAction.apply d (.wal (.remove first)) =
            { d with segs := files (first + 1) h } := by
          rw [DiskAction.apply, WalAction.apply, hd, files_filter_ne]
        have := ih (h := h) (d := { d with segs := files (first + 1) h }) rfl (by simpa using ht) k
        rw [Nat.succ_min_succ, List.drop_succ_cons]
        rw [Nat.add_right_comm, Nat.add_assoc] at this
        rw [← this, ← happly]
        rfl

/-- Segments in front of the kept ones end at or below the snapshot. -/
theorem le_of_lt_keepSegment {s : DiskStore} {n max : ℕ} (h : n < s.keepSegment)
    (hmax : s.segMax n = some max) : max ≤ s.snapIdx := by
  have hnot : s.outlives n = false := by
    rw [DiskStore.keepSegment] at h
    cases hfind : (List.range s.wal.seg).find? s.outlives with
    | none =>
      rw [hfind] at h
      simpa using List.find?_range_eq_none.mp hfind n h
    | some i =>
      rw [hfind] at h
      simpa using (List.find?_range_eq_some.mp hfind).2.2 n h
  rw [DiskStore.outlives, hmax] at hnot
  simpa using hnot

theorem keepSegment_le (s : DiskStore) : s.keepSegment ≤ s.wal.seg := by
  rw [DiskStore.keepSegment]
  cases hfind : (List.range s.wal.seg).find? s.outlives with
  | none => exact le_rfl
  | some i => exact (List.mem_range.mp (List.find?_range_eq_some.mp hfind).2.1).le

/-- The segment `Compact` keeps from. -/
def DiskStore.keep (s : DiskStore) (index : ℕ) : ℕ :=
  { s with snapIdx := index, wal := s.wal.rotate.1 }.keepSegment

/-- The records `Compact` writes. -/
def DiskStore.compactRecs (s : DiskStore) (index term : ℕ) : List Rec :=
  [.snapshot index term, .state s.term s.vote]

/-- `Compact`, with its choices written out. -/
theorem compact_eq {s : DiskStore} {d : Disk} {index term : ℕ} {snapshot : Bytes}
    (h : s.snapIdx < index) (hbase : s.base = s.snapIdx) :
    s.compact d index term snapshot =
      ({ s with
          entries := s.entries.drop (index - s.base), base := index, snapIdx := index
          snapTerm := term
          segMax := fun seg => if seg < s.keep index then none else s.segMax seg
          wal := ⟨s.wal.seg + 1,
            (encodeRecords ((s.compactRecs index term).map Rec.encode)).length⟩ },
        [.writeTmp index snapshot, .rename index, .wal .create,
          .wal (.write (encodeRecords ((s.compactRecs index term).map Rec.encode)))] ++
          ((if s.snapIdx > 0 then [.removeSnap s.snapIdx] else []) ++
            (deleteBefore (s.keep index) d.segs).map .wal)) := by
  have hsize : ¬(0 ≥ segmentSize) := by decide
  have hle : s.base ≤ index := hbase.trans_le h.le
  have hdrop : ∀ w : Wal, ({ s with wal := w } : DiskStore).dropThrough index =
      { s with wal := w, entries := s.entries.drop (index - s.base), base := index } :=
    fun w => DiskStore.dropThrough_of_le hle
  rw [DiskStore.compact, if_neg (Nat.not_le.mpr h)]
  simp only [writeRecs_eq, Wal.rotate, if_neg hsize, hdrop, Nat.zero_add]
  rfl

theorem compact_log {s : DiskStore} {index : ℕ} (h : s.snapIdx < index) (hbase : s.base = s.snapIdx)
    (d : Disk) (term : ℕ) (snapshot : Bytes) :
    (s.compact d index term snapshot).1.log = s.log.compact index term [] := by
  have hlt : s.log.snapIdx < index := h
  rw [compact_eq h hbase, MemStore.compact_of_lt hlt]
  simp only [DiskStore.log, hbase]

/-- The disk in front of the deletions. -/
theorem deletions_eq {first : ℕ} {kept : List (List Rec)} {s : DiskStore} {d : Disk}
    (h : Running first kept s d) (index : ℕ) :
    s.deletions d index = s.keep index - first ∧ s.deletions d index ≤ kept.length ∧
      deleteBefore (s.keep index) d.segs =
        ((files first kept).take (s.deletions d index)).map fun g => .remove g.num := by
  have hkeep : s.keep index ≤ first + kept.length := by
    rw [← h.seg]
    exact keepSegment_le { s with snapIdx := index, wal := s.wal.rotate.1 }
  have hdel : deleteBefore (s.keep index) d.segs =
      ((files first kept).take (s.keep index - first)).map fun g => .remove g.num := by
    rw [deleteBefore, h.segs, files_filter_lt]
  have hlen : s.deletions d index = s.keep index - first := by
    show (deleteBefore (s.keep index) d.segs).length = _
    rw [hdel, List.length_map, List.length_take, length_files, Nat.min_eq_left (by omega)]
  refine ⟨hlen, by omega, by rw [hdel, hlen]⟩

/-- Every kept record, behind what the deleted ones left: the log those left reached no further than the
new snapshot. -/
theorem deleted_live {first : ℕ} {kept : List (List Rec)} {s : DiskStore} {d : Disk}
    (h : Running first kept s d) {index : ℕ} (hindex : s.snapIdx < index) {k : ℕ}
    (hk : k ≤ s.deletions d index) :
    ∃ m₁, m₁.lastIndex ≤ index ∧ Runs m₁ ((tagged (first + k) (kept.drop k)).map Prod.snd) s.log := by
  obtain ⟨hdel, hle, -⟩ := deletions_eq h index
  obtain ⟨m₀, hm₀, hlive⟩ := h.live
  have hsplit := tagged_split first (hk.trans hle)
  rw [← tagged_snd first, hsplit, List.map_append] at hlive
  obtain ⟨m₁, h₁, h₂⟩ := hlive.split
  have hs : s.log.snapIdx < index := hindex
  refine ⟨m₁, h₁.lastIndex_le (hm₀.trans hs.le) (h₂.snapIdx_le.trans hs.le) ?_, h₂⟩
  intro x hx v hv
  have hxlt : x.1 < first + k := by
    have := (tagged_bounds hx).2
    rw [List.length_take] at this
    omega
  -- what the whole log says about a deleted segment is what its own records say
  have hmax : s.segMax x.1 = some v := by
    rw [h.segMax, hsplit, maxes_append_left, hv]
    intro y hy
    have := (tagged_bounds hy).1
    omega
  exact le_of_lt_keepSegment (s := { s with snapIdx := index, wal := s.wal.rotate.1 })
    (show x.1 < s.keep index by have := (tagged_bounds hx).1; omega) hmax

theorem compactRecs_encodable {first : ℕ} {kept : List (List Rec)} {s : DiskStore} {d : Disk}
    (h : Running first kept s d) {index term : ℕ} (hc : (Rec.snapshot index term).Encodable) :
    ∀ r ∈ s.compactRecs index term, r.Encodable :=
  List.forall_mem_cons.mpr ⟨hc, List.forall_mem_singleton.mpr h.state⟩

theorem compactRecs_runs {s : DiskStore} {index : ℕ} (h : s.snapIdx < index) (term : ℕ) :
    Runs s.log (s.compactRecs index term) (s.log.compact index term []) := by
  refine ⟨h, trivial, ?_⟩
  have hlt : s.log.snapIdx < index := h
  rw [Rec.apply, Rec.apply, MemStore.compact_of_lt hlt]
  rfl

/-- The snapshot file is in place. -/
def withSnapshot (d : Disk) (index : ℕ) (snapshot : Bytes) : Disk :=
  { d with snaps := update d.snaps index (some snapshot), tmps := update d.tmps index none }

theorem rename_writeTmp (d : Disk) (index : ℕ) (snapshot : Bytes) :
    DiskAction.apply (DiskAction.apply d (.writeTmp index snapshot)) (.rename index) =
      withSnapshot d index snapshot := by
  simp [DiskAction.apply, withSnapshot]

/-- What `Compact` does before it removes anything. -/
def compactActs (s : DiskStore) (index term : ℕ) (snapshot : Bytes) : List DiskAction :=
  [.writeTmp index snapshot, .rename index, .wal .create,
    .wal (.write (encodeRecords ((s.compactRecs index term).map Rec.encode)))]

/-- A crash before that is done leaves the log before `Compact` or the log after it. -/
theorem crashed_compactActs {first : ℕ} {kept : List (List Rec)} {s : DiskStore} {d : Disk}
    (h : Running first kept s d) {index term : ℕ} (hindex : s.snapIdx < index)
    (hc : (Rec.snapshot index term).Encodable) (snapshot : Bytes) {k : ℕ} (hk : k < 4) (j : ℕ) :
    ∃ kept' m, Durable first kept' m (crashed d (compactActs s index term snapshot) k j) ∧
      (m = s.log ∨ m = s.log.compact index term []) := by
  have hold : ∀ d' : Disk, d'.segs = d.segs → d'.snaps s.snapIdx = d.snaps s.snapIdx →
      Durable first kept s.log d' := by
    intro d' hsegs hsnaps
    refine ⟨.of_files h.kept_ne (hsegs.trans h.segs), h.encodable, h.rebuilds, h.live, h.state, ?_⟩
    intro hpos
    have hsnaps : d'.snaps s.log.snapIdx = d.snaps s.log.snapIdx := hsnaps
    rw [hsnaps]
    exact h.snap hpos
  have hne : s.snapIdx ≠ index := hindex.ne
  match k, hk with
  | 0, _ => exact ⟨kept, s.log, hold _ rfl rfl, Or.inl rfl⟩
  | 1, _ => exact ⟨kept, s.log, hold _ rfl rfl, Or.inl rfl⟩
  | 2, _ =>
    refine ⟨kept, s.log, hold _ rfl ?_, Or.inl rfl⟩
    exact Function.update_of_ne hne ..
  | 3, _ =>
    have hcrash : crashed d (compactActs s index term snapshot) 3 j =
        crashed { withSnapshot d index snapshot with segs := files first (kept ++ [[]]) }
          [.wal (.write (encodeRecords ((s.compactRecs index term).map Rec.encode)))] 0 j := by
      rw [← apply_create (d := withSnapshot d index snapshot) h.kept_ne h.segs, ← rename_writeTmp,
        crashed, crashed, compactActs, crashAt_cons_succ, crashAt_cons_succ, crashAt_cons_succ]
    have henc := compactRecs_encodable h hc
    obtain ⟨n, hn, hdisk, hsnaps, -⟩ := crashed_write
      (d := { withSnapshot d index snapshot with segs := files first (kept ++ [[]]) }) rfl henc 0 j
    rw [← hcrash] at hdisk hsnaps
    have hgrown : Grown kept ((s.compactRecs index term).take n)
        (kept ++ [[] ++ (s.compactRecs index term).take n]) :=
      ⟨kept, [], Or.inr ⟨rfl, rfl⟩, rfl⟩
    have hgrow : ∀ m, Runs s.log ((s.compactRecs index term).take n) m →
        (0 < m.snapIdx → ((withSnapshot d index snapshot).snaps m.snapIdx).isSome) →
          Durable first (kept ++ [[] ++ (s.compactRecs index term).take n]) m
            (crashed d (compactActs s index term snapshot) 3 j) := by
      intro m hrun hsnap
      refine h.toDurable.grow hgrown hrun (fun r hr => henc r (List.mem_of_mem_take hr)) hdisk ?_
      rw [hsnaps]
      exact hsnap
    have hlt : s.log.snapIdx < index := hindex
    have hnew : ((withSnapshot d index snapshot).snaps (s.log.compact index term []).snapIdx).isSome := by
      simp [MemStore.compact_of_lt hlt, withSnapshot]
    have hold : 0 < s.log.snapIdx → ((withSnapshot d index snapshot).snaps s.log.snapIdx).isSome := by
      intro hpos
      have : (withSnapshot d index snapshot).snaps s.log.snapIdx = d.snaps s.log.snapIdx :=
        Function.update_of_ne hne ..
      rw [this]
      exact h.snap hpos
    have hn : n ≤ 2 := hn
    obtain rfl | rfl | rfl : n = 0 ∨ n = 1 ∨ n = 2 := by omega
    · exact ⟨_, s.log, hgrow _ rfl hold, Or.inl rfl⟩
    · exact ⟨_, _, hgrow _ ⟨hindex, rfl⟩ fun _ => hnew, Or.inr rfl⟩
    · exact ⟨_, _, hgrow _ (compactRecs_runs hindex term) fun _ => hnew, Or.inr rfl⟩

theorem foldl_compactActs {first : ℕ} {kept : List (List Rec)} {s : DiskStore} {d : Disk}
    (h : Running first kept s d) (index term : ℕ) (snapshot : Bytes) :
    (compactActs s index term snapshot).foldl DiskAction.apply d =
      { withSnapshot d index snapshot with
        segs := files first (kept ++ [s.compactRecs index term]) } := by
  rw [compactActs, List.foldl_cons, List.foldl_cons, List.foldl_cons, List.foldl_cons, List.foldl_nil,
    rename_writeTmp, apply_create (d := withSnapshot d index snapshot) h.kept_ne h.segs,
    apply_write (h := kept) [] rfl]
  rfl

/-- How many deletions a crash after `k` actions of `Compact` has seen. -/
def DiskStore.deleted (s : DiskStore) (d : Disk) (index k : ℕ) : ℕ :=
  min (k - 4 - (if s.snapIdx > 0 then 1 else 0)) (s.deletions d index)

/-- A crash behind the write: the new snapshot stands, and some of the oldest segments are gone. -/
theorem crashed_compact {first : ℕ} {kept : List (List Rec)} {s : DiskStore} {d : Disk}
    (h : Running first kept s d) {index : ℕ} (hindex : s.snapIdx < index) (term : ℕ)
    (snapshot : Bytes) {k : ℕ} (hk : 4 ≤ k) (j : ℕ) :
    (crashed d (s.compact d index term snapshot).2 k j).segs =
        files (first + s.deleted d index k)
          (kept.drop (s.deleted d index k) ++ [s.compactRecs index term]) ∧
      ((crashed d (s.compact d index term snapshot).2 k j).snaps index).isSome := by
  obtain ⟨-, hle, hdel⟩ := deletions_eq h index
  have hne : index ≠ s.snapIdx := hindex.ne'
  have htake : (files first kept).take (s.deletions d index) =
      (files first (kept ++ [s.compactRecs index term])).take (s.deletions d index) := by
    rw [files_append, List.take_append_of_le_length (by rw [length_files]; exact hle)]
  have hsnap : ((withSnapshot d index snapshot).snaps index).isSome := by simp [withSnapshot]
  have hacts : (s.compact d index term snapshot).2 = compactActs s index term snapshot ++
      ((if s.snapIdx > 0 then [.removeSnap s.snapIdx] else []) ++
        (deleteBefore (s.keep index) d.segs).map .wal) := by
    rw [compact_eq hindex h.base]
    rfl
  have hdrop : ∀ i ≤ s.deletions d index, (kept ++ [s.compactRecs index term]).drop i =
      kept.drop i ++ [s.compactRecs index term] :=
    fun i hi => List.drop_append_of_le_length (hi.trans hle)
  have hlen : (compactActs s index term snapshot).length = 4 := rfl
  rw [hacts, crashed, crashAt_append, hlen, if_neg (Nat.not_lt.mpr hk), foldl_compactActs h, hdel,
    htake, DiskStore.deleted]
  have hlong : s.deletions d index ≤ (kept ++ [s.compactRecs index term]).length := by
    rw [List.length_append]
    omega
  split
  · -- the old snapshot's file goes first
    cases hk4 : k - 4 with
    | zero =>
      simp only [Nat.zero_sub, Nat.zero_min, List.drop_zero, Nat.add_zero]
      exact ⟨rfl, hsnap⟩
    | succ i =>
      have := crashed_removes (d := DiskAction.apply
        { withSnapshot d index snapshot with
          segs := files first (kept ++ [s.compactRecs index term]) } (.removeSnap s.snapIdx)) rfl
        hlong i j
      rw [crashed] at this
      rw [List.singleton_append, crashAt, this, hdrop _ (Nat.min_le_right ..)]
      refine ⟨rfl, ?_⟩
      show (update (withSnapshot d index snapshot).snaps s.snapIdx none index).isSome
      rw [Function.update_of_ne hne]
      exact hsnap
  · have := crashed_removes (d := { withSnapshot d index snapshot with
        segs := files first (kept ++ [s.compactRecs index term]) }) rfl hlong (k - 4) j
    rw [crashed] at this
    rw [List.nil_append, this, hdrop _ (Nat.min_le_right ..)]
    exact ⟨rfl, hsnap⟩

/-- However many segments are gone, what is left rebuilds the compacted log. -/
theorem durable_compacted {first : ℕ} {kept : List (List Rec)} {s : DiskStore} {d d' : Disk}
    (h : Running first kept s d) {index term : ℕ} (hindex : s.snapIdx < index)
    (hc : (Rec.snapshot index term).Encodable) {i : ℕ} (hi : i ≤ s.deletions d index)
    (hok : ∀ k < s.deletions d index, Replayable (recordsIn (d.segs.drop (k + 1))))
    (hsegs : d'.segs = files (first + i) (kept.drop i ++ [s.compactRecs index term]))
    (hsnap : (d'.snaps index).isSome) :
    Durable (first + i) (kept.drop i ++ [s.compactRecs index term]) (s.log.compact index term [])
      d' := by
  have hlt : s.log.snapIdx < index := hindex
  have henc : AllEncodable (kept.drop i) := fun rs hrs => h.encodable rs (List.mem_of_mem_drop hrs)
  obtain ⟨m₁, hm₁, hrun⟩ := deleted_live h hindex hi
  have hgrown : Grown (kept.drop i) (s.compactRecs index term)
      (kept.drop i ++ [s.compactRecs index term]) :=
    ⟨kept.drop i, [], Or.inr ⟨rfl, rfl⟩, rfl⟩
  refine ⟨.of_files (by simp) hsegs, hgrown.encodable henc (compactRecs_encodable h hc), ?_, ?_, ?_, ?_⟩
  · cases i with
    | zero =>
      rw [hgrown.tagged]
      apply h.rebuilds.append
      simpa [Function.comp_def] using compactRecs_runs hindex term
    | succ i =>
      rw [hgrown.tagged]
      refine rebuilds_suffix hm₁ hrun hlt ?_ _ term
      have := hok i hi
      rwa [h.segs, files_drop, recordsIn_files henc, ← tagged_snd (first + (i + 1))] at this
  · refine ⟨m₁, ?_, ?_⟩
    · rw [MemStore.compact_of_lt hlt]
      exact hm₁
    · rw [tagged_snd] at hrun
      rw [hgrown.flatten]
      exact hrun.append (compactRecs_runs hindex term)
  · rw [MemStore.compact_of_lt hlt]
    exact h.state
  · rw [MemStore.compact_of_lt hlt]
    exact fun _ => hsnap

theorem length_compact {s : DiskStore} {index : ℕ} (h : s.snapIdx < index)
    (hbase : s.base = s.snapIdx) (d : Disk) (term : ℕ) (snapshot : Bytes) :
    (s.compact d index term snapshot).2.length =
      4 + (if s.snapIdx > 0 then 1 else 0) + s.deletions d index := by
  rw [compact_eq h hbase]
  simp only [List.length_append, List.length_map, apply_ite List.length, List.length_cons,
    List.length_nil]
  rw [← Nat.add_assoc]
  rfl

theorem compact_crash {first : ℕ} {kept : List (List Rec)} {s : DiskStore} {d : Disk}
    (h : Running first kept s d) {index term : ℕ} {snapshot : Bytes}
    (hc : (Rec.snapshot index term).Encodable) (hok : CompactOK s d (.compact index term snapshot))
    (k j : ℕ) :
    ∃ first' kept' m,
      Durable first' kept' m (crashed d (s.compact d index term snapshot).2 k j) ∧
        Recovers (.compact index term snapshot) s (s.compact d index term snapshot).1
          ((s.compact d index term snapshot).2.length ≤ k) m := by
  by_cases hindex : s.snapIdx < index
  · have hlog := compact_log hindex h.base d term snapshot
    have hlen := length_compact hindex h.base d term snapshot
    by_cases hk : k < 4
    · have hcrash : crashed d (s.compact d index term snapshot).2 k j =
          crashed d (compactActs s index term snapshot) k j := by
        rw [compact_eq hindex h.base]
        exact crashAt_append.trans (if_pos hk)
      obtain ⟨kept', m, hd, hm⟩ := crashed_compactActs h hindex hc snapshot hk j
      rw [← hcrash] at hd
      refine ⟨first, kept', m, hd, fun hdone => ?_, ?_⟩
      · omega
      · rw [hlog]
        exact hm
    · obtain ⟨hsegs, hsnap⟩ := crashed_compact h hindex term snapshot (Nat.not_lt.mp hk) j
      have hd := durable_compacted h hindex hc (Nat.min_le_right ..) (hok hindex) hsegs hsnap
      exact ⟨_, _, _, hd, fun _ => hlog.symm, Or.inr hlog.symm⟩
  · have hnoop : s.compact d index term snapshot = (s, []) := if_pos (Nat.not_lt.mp hindex)
    rw [hnoop]
    exact ⟨first, kept, s.log, h.toDurable, fun _ => rfl, Or.inl rfl⟩

/-- What `deleteObsoleteSegments` leaves of `segMax` is what the kept segments say. -/
theorem segMax_compacted {first : ℕ} {kept : List (List Rec)} {s : DiskStore} {d : Disk}
    (h : Running first kept s d) (index : ℕ) :
    (fun seg => if seg < s.keep index then none else s.segMax seg) =
      maxes (tagged (first + s.deletions d index) (kept.drop (s.deletions d index))) := by
  obtain ⟨hkeep, hle, -⟩ := deletions_eq h index
  funext n
  by_cases hn : n < s.keep index
  · rw [if_pos hn, maxes, foldl_noteMax_of_not_mem]
    intro x hx
    have := (tagged_bounds hx).1
    omega
  · rw [if_neg hn, h.segMax, tagged_split first hle, maxes_append_right]
    intro x hx
    have := tagged_bounds hx
    rw [List.length_take] at this
    omega

theorem compact_running {first : ℕ} {kept : List (List Rec)} {s : DiskStore} {d : Disk}
    (h : Running first kept s d) {index term : ℕ} {snapshot : Bytes}
    (hc : (Rec.snapshot index term).Encodable)
    (hok : CompactOK s d (.compact index term snapshot)) :
    ∃ first' kept', Running first' kept' (s.compact d index term snapshot).1
      ((s.compact d index term snapshot).2.foldl DiskAction.apply d) := by
  by_cases hindex : s.snapIdx < index
  · have hlog := compact_log hindex h.base d term snapshot
    have hlen := length_compact hindex h.base d term snapshot
    obtain ⟨hkeep, hle, -⟩ := deletions_eq h index
    obtain ⟨hsegs, hsnap⟩ := crashed_compact h hindex term snapshot
      (k := (s.compact d index term snapshot).2.length) (by omega) 0
    rw [crashed, crashAt_of_length_le le_rfl] at hsegs hsnap
    have hdel : s.deleted d index (s.compact d index term snapshot).2.length =
        s.deletions d index := by
      rw [DiskStore.deleted, hlen]
      omega
    rw [hdel] at hsegs
    have hd := durable_compacted h hindex hc le_rfl (hok hindex) hsegs hsnap
    rw [← hlog] at hd
    refine ⟨_, _, hd, hsegs, ?_, ?_, ?_⟩
    · have := h.seg
      rw [compact_eq hindex h.base]
      simp only [List.length_append, List.length_drop, List.length_singleton]
      omega
    · rw [compact_eq hindex h.base]
    · rw [compact_eq hindex h.base, segMax_compacted h index]
      rw [tagged_append, maxes_append]
      rfl
  · have hnoop : s.compact d index term snapshot = (s, []) := if_pos (Nat.not_lt.mp hindex)
    rw [hnoop]
    exact ⟨first, kept, h⟩

/-! ## Runs. -/

/-- A store and a directory that belong together. -/
def StoreOK (x : DiskStore × Disk) : Prop := ∃ first kept, Running first kept x.1 x.2

/-- EVERY crash point of a call leaves a directory that opens, with the log the call may leave. -/
theorem perform_recovers {s s' : DiskStore} {d : Disk} {c : StoreCall} {as : List DiskAction}
    (h : StoreOK (s, d)) (hc : c.Encodable) (hok : CompactOK s d c)
    (hp : s.perform d c = .ok (s', as)) (k j : ℕ) :
    ∃ s'' d'', openDiskStore (crashed d as k j) = .ok (s'', d'') ∧
      Recovers c s s' (as.length ≤ k) s''.log ∧ StoreOK (s'', d'') := by
  obtain ⟨first, kept, h⟩ := h
  have hdurable : ∃ first' kept' m, Durable first' kept' m (crashed d as k j) ∧
      Recovers c s s' (as.length ≤ k) m := by
    cases c with
    | append es => exact ⟨first, append_crash h hc hp k j⟩
    | setState term vote =>
      cases hp
      exact ⟨first, setState_crash h hc k j⟩
    | compact index term snapshot =>
      obtain ⟨rfl, rfl⟩ := Prod.ext_iff.mp (Except.ok.inj hp)
      exact compact_crash h hc hok k j
  obtain ⟨first', kept', m, hd, hm⟩ := hdurable
  obtain ⟨s'', d'', hopen, rfl, hrunning⟩ := hd.opens
  exact ⟨s'', d'', hopen, hm, first', _, hrunning⟩

theorem perform_storeOK {s s' : DiskStore} {d : Disk} {c : StoreCall} {as : List DiskAction}
    (h : StoreOK (s, d)) (hc : c.Encodable) (hok : CompactOK s d c)
    (hp : s.perform d c = .ok (s', as)) : StoreOK (s', as.foldl DiskAction.apply d) := by
  obtain ⟨first, kept, h⟩ := h
  cases c with
  | append es => exact ⟨first, append_running h hc hp⟩
  | setState term vote =>
    cases hp
    exact ⟨first, setState_running h hc⟩
  | compact index term snapshot =>
    obtain ⟨rfl, rfl⟩ := Prod.ext_iff.mp (Except.ok.inj hp)
    exact compact_running h hc hok

/-- A crash point between two deletions at which the kept records cannot be replayed. -/
theorem compact_stuck {first : ℕ} {kept : List (List Rec)} {s : DiskStore} {d : Disk}
    (h : Running first kept s d) {index term : ℕ} (snapshot : Bytes)
    (hc : (Rec.snapshot index term).Encodable) (hindex : s.snapIdx < index) {i : ℕ}
    (hi : i < s.deletions d index) (hbad : ¬Replayable (recordsIn (d.segs.drop (i + 1)))) :
    ∃ k e, openDiskStore (crashed d (s.compact d index term snapshot).2 k 0) = .error e := by
  have henc : AllEncodable (kept.drop (i + 1)) :=
    fun rs hrs => h.encodable rs (List.mem_of_mem_drop hrs)
  have hgrown : Grown (kept.drop (i + 1)) (s.compactRecs index term)
      (kept.drop (i + 1) ++ [s.compactRecs index term]) :=
    ⟨kept.drop (i + 1), [], Or.inr ⟨rfl, rfl⟩, rfl⟩
  have hk : s.deleted d index (4 + (if s.snapIdx > 0 then 1 else 0) + (i + 1)) = i + 1 := by
    rw [DiskStore.deleted]
    omega
  obtain ⟨hsegs, -⟩ := crashed_compact h hindex term snapshot
    (k := 4 + (if s.snapIdx > 0 then 1 else 0) + (i + 1)) (by omega) 0
  rw [hk] at hsegs
  refine ⟨_, OnDisk.fails (.of_files (by simp) hsegs)
    (hgrown.encodable henc (compactRecs_encodable h hc)) ?_⟩
  obtain ⟨m₁, hm₁, hrun⟩ := deleted_live h hindex hi
  rw [hgrown.tagged]
  apply suffix_stuck hm₁ hrun hindex
  rwa [h.segs, files_drop, recordsIn_files henc, ← tagged_snd (first + (i + 1))] at hbad

theorem freshStore_ok : StoreOK freshStore := by
  refine ⟨1, [[]], ⟨.of_files (by simp) rfl, by simp [AllEncodable], ⟨{}, rfl, rfl, rfl, rfl⟩,
    ⟨{}, le_rfl, rfl⟩, by decide, fun h => absurd h (lt_irrefl 0)⟩, rfl, rfl, rfl, rfl⟩

def StoreOp.theCall : StoreOp → StoreCall
  | .call c => c
  | .crash c _ _ => c

/-- A step whose call can be encoded and meets the condition. -/
def StoreOp.OK (x : DiskStore × Disk) (op : StoreOp) : Prop :=
  op.theCall.Encodable ∧ CompactOK x.1 x.2 op.theCall

instance StoreOp.OK.decide (x : DiskStore × Disk) (op : StoreOp) : Decidable (op.OK x) :=
  inferInstanceAs (Decidable (op.theCall.Encodable ∧ CompactOK x.1 x.2 op.theCall))

theorem execStore_ok {x x' : DiskStore × Disk} {op : StoreOp} {os : List Unit} (h : StoreOK x)
    (hop : op.OK x) (hexec : storeMachine.exec x op = some (x', os)) : StoreOK x' := by
  obtain ⟨s, d⟩ := x
  have hexec : execStore (s, d) op = some (x', os) := hexec
  cases op with
  | call c =>
    rw [execStore] at hexec
    split at hexec
    · cases hexec
    · next s' as hp =>
      cases hexec
      exact perform_storeOK h hop.1 hop.2 hp
  | crash c k j =>
    rw [execStore] at hexec
    split at hexec
    · cases hexec
    · next s' as hp =>
      obtain ⟨s'', d'', hopen, -, hok⟩ := perform_recovers h hop.1 hop.2 hp k j
      rw [hopen] at hexec
      cases hexec
      exact hok

/-- RECOVERY.  After any run whose calls meet the condition, the next call recovers at each of its crash
points, inside a write or between two deletions, if and only if it meets the condition as well. -/
theorem disk_store_recovery {ops : List StoreOp} {s s' : DiskStore} {d : Disk} {os : List Unit}
    (hrun : storeMachine.run freshStore ops = some ((s, d), os))
    (hmeets : storeMachine.Meets (fun x op => op.OK x) freshStore ops) {c : StoreCall}
    {as : List DiskAction} (hc : c.Encodable) (hcall : s.perform d c = .ok (s', as)) :
    (∀ k j, ∃ s'' d'', openDiskStore (crashed d as k j) = .ok (s'', d'') ∧
      Recovers c s s' (as.length ≤ k) s''.log) ↔ CompactOK s d c := by
  have hOK : StoreOK (s, d) := Machine.run_invariant execStore_ok freshStore_ok hmeets hrun
  refine ⟨fun hall => ?_, fun hok k j => ?_⟩
  · cases c with
    | append es => trivial
    | setState term vote => trivial
    | compact index term snapshot =>
      intro hindex i hi
      by_contra hbad
      obtain ⟨rfl, rfl⟩ := Prod.ext_iff.mp (Except.ok.inj hcall)
      obtain ⟨first, kept, h⟩ := hOK
      obtain ⟨k, e, he⟩ := compact_stuck h snapshot hc hindex hi hbad
      obtain ⟨s'', d'', hopen, -⟩ := hall k 0
      rw [he] at hopen
      cases hopen
  · obtain ⟨s'', d'', hopen, hrec, -⟩ := perform_recovers hOK hc hok hcall k j
    exact ⟨s'', d'', hopen, hrec⟩

/-! ## A run that meets the condition, and one that does not. -/

def entryAt (index : ℕ) : Entry := { index := index, term := 1 }

/-- Three entries and a snapshot of two of them. -/
def compactedOnce : List StoreOp :=
  [.call (.append [entryAt 1, entryAt 2, entryAt 3]), .call (.compact 2 1 [7])]

theorem compactedOnce_runs : (storeMachine.run freshStore compactedOnce).isSome = true := by
  decide +kernel

def onceCompacted : (DiskStore × Disk) × List Unit :=
  (storeMachine.run freshStore compactedOnce).get compactedOnce_runs

/-- A second snapshot deletes both older segments, and every crash point of it recovers. -/
theorem disk_store_recovery_second_compact :
    ∃ s d s' as, storeMachine.run freshStore compactedOnce = some ((s, d), onceCompacted.2) ∧
      s.perform d (.compact 3 1 [8]) = .ok (s', as) ∧ s.deletions d 3 = 2 ∧
      ∀ k j, ∃ s'' d'', openDiskStore (crashed d as k j) = .ok (s'', d'') ∧
        Recovers (.compact 3 1 [8]) s s' (as.length ≤ k) s''.log := by
  have hrun : storeMachine.run freshStore compactedOnce =
      some ((onceCompacted.1.1, onceCompacted.1.2), onceCompacted.2) := by
    rw [Prod.mk.eta, onceCompacted, Option.some_get]
  refine ⟨_, _, _, _, hrun, rfl, by decide +kernel, ?_⟩
  apply (disk_store_recovery hrun ?_ ?_ rfl).mpr
  · decide +kernel
  · decide +kernel
  · decide +kernel

/-- Three snapshots: the record of the second comes behind an entry it does not cover, and the third
deletes the entries in front of both. -/
def compactedThrice : List StoreOp :=
  [.call (.append [entryAt 1, entryAt 2, entryAt 3]), .call (.compact 1 1 []),
    .call (.append [entryAt 4]), .call (.compact 2 1 []), .call (.compact 3 1 [])]

theorem compactedThrice_runs : (storeMachine.run freshStore compactedThrice).isSome = true := by
  decide +kernel

def thriceCompacted : (DiskStore × Disk) × List Unit :=
  (storeMachine.run freshStore compactedThrice).get compactedThrice_runs

/-- The error a directory opens with, if it does not open. -/
def openError (d : Disk) : Option DiskError :=
  match openDiskStore d with
  | .error e => some e
  | .ok _ => none

theorem openDiskStore_of_openError {d : Disk} {e : DiskError} (h : openError d = some e) :
    openDiskStore d = .error e := by
  rw [openError] at h
  split at h
  · next he => rw [he, Option.some.inj h]
  · cases h

/-- Every call succeeds, and the store does not open again. -/
theorem third_compact_unreadable :
    ∃ s d, storeMachine.run freshStore compactedThrice = some ((s, d), thriceCompacted.2) ∧
      openDiskStore d = .error (.openLog (.replay (.belowStart 2 4))) := by
  refine ⟨thriceCompacted.1.1, thriceCompacted.1.2, ?_, openDiskStore_of_openError ?_⟩
  · rw [Prod.mk.eta, thriceCompacted, Option.some_get]
  · decide +kernel

end Keystone.Raft
