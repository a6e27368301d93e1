/-
# Keystone.Raft.DiskDurable — what a directory promises, and the calls that only append.

`Durable` says what the directory promises about a log: the complete records on it rebuild that log, and
the records that were deleted reached no further than its snapshot.  Opening a durable directory gives
the log back (`Durable.opens`).  `Running` ties a store in memory to such a directory.

`Append` and `SetState` are one WAL append each, and a crash inside it leaves a prefix of its records
(`crashed_writeRecs`): a prefix of the entries, or all or nothing of the state.
-/
import Keystone.Raft.DiskSegments
import Mathlib.Data.List.Chain

namespace Keystone.Raft

open Keystone.Lib
open Keystone.Storage (Wal WalAction openWAL Fits encodeRecords writeLast writeLast_append nextNum)
open Function (update)

/-! ## What the directory promises. -/

/-- The records on disk rebuild the log `m`, and the ones that are gone reached no further than its
snapshot. -/
structure Durable (first : ℕ) (kept : List (List Rec)) (m : MemStore) (d : Disk) : Prop where
  onDisk : OnDisk first kept d
  encodable : AllEncodable kept
  rebuilds : Rebuilds (tagged first kept) m
  live : ∃ m₀, m₀.lastIndex ≤ m.snapIdx ∧ Runs m₀ kept.flatten m
  state : (Rec.state m.term m.vote).Encodable
  snap : 0 < m.snapIdx → (d.snaps m.snapIdx).isSome

/-- A running store agrees with its directory. -/
structure Running (first : ℕ) (kept : List (List Rec)) (s : DiskStore) (d : Disk) : Prop extends
    Durable first kept s.log d where
  segs : d.segs = files first kept
  seg : s.wal.seg + 1 = first + kept.length
  base : s.base = s.snapIdx
  segMax : s.segMax = maxes (tagged first kept)

/-- A durable log is what `OpenDiskStore` returns. -/
theorem Durable.opens {first : ℕ} {kept : List (List Rec)} {m : MemStore} {d : Disk}
    (h : Durable first kept m d) :
    ∃ s' d', openDiskStore d = .ok (s', d') ∧ s'.log = m ∧ Running first (kept ++ [[]]) s' d' := by
  obtain ⟨P, hP, rfl, hbase, hmax⟩ := h.rebuilds
  have hne : kept ≠ [] := by
    obtain ⟨h', last, _, rfl, -, -⟩ := h.onDisk
    simp
  have hreplay := replaySegments_onDisk (f := DiskStore.replay) (g := fun n s r => s.replayRec n r)
    (fun r hr n s => DiskStore.replay_encode hr n s) h.onDisk h.encodable {}
  have hP : (tagged first kept).foldlM (fun s x => s.replayRec x.1 x.2) ({} : DiskStore) = .ok P := hP
  rw [hP] at hreplay
  have hopen : openWAL DiskStore.replay d.segs {} =
      .ok (P, files first kept ++ [⟨first + kept.length, []⟩]) := by
    rw [openWAL, hreplay]
    simp only [nextNum_files hne]
  have hsnap : ¬(P.snapIdx > 0 ∧ (d.snaps P.snapIdx).isNone) := by
    rintro ⟨hpos, hnone⟩
    have := h.snap hpos
    simp [DiskStore.log, Option.isNone_iff_eq_none.mp hnone] at this
  have hfiles : files first kept ++ [⟨first + kept.length, []⟩] = files first (kept ++ [[]]) := by
    rw [files_append]
    rfl
  have htag : tagged first (kept ++ [[]]) = tagged first kept := by
    rw [tagged_append]
    exact List.append_nil _
  have hnum : nextNum (files first (kept ++ [[]])) - 1 = first + kept.length := by
    rw [← hfiles, nextNum_append, Nat.add_sub_cancel]
  refine ⟨{ P with wal := ⟨first + kept.length, 0⟩ },
    { segs := files first (kept ++ [[]]), snaps := fun i => if i = P.snapIdx then d.snaps i else none },
    ?_, rfl, ?_⟩
  · rw [openDiskStore, hopen]
    simp only [hfiles, hnum, if_neg (not_not.mpr hbase), if_neg hsnap]
  · refine ⟨⟨.of_files (by simp) rfl, ?_, ?_, ?_, h.state, ?_⟩, rfl, ?_, hbase, ?_⟩
    · intro rs hrs
      rcases List.mem_append.mp hrs with hrs | hrs
      · exact h.encodable rs hrs
      · obtain rfl := List.mem_singleton.mp hrs
        simp
    · rw [htag]
      exact h.rebuilds
    · rw [List.flatten_append, List.flatten_singleton, List.append_nil]
      exact h.live
    · intro hpos
      simpa [DiskStore.log] using h.snap hpos
    · simp
      omega
    · rw [htag]
      exact hmax

theorem OnDisk.fails {first : ℕ} {kept : List (List Rec)} {d : Disk} (hd : OnDisk first kept d)
    (henc : AllEncodable kept) (h : ∃ e, replayAll {} (tagged first kept) = .error e) :
    ∃ e, openDiskStore d = .error e := by
  obtain ⟨e, he⟩ := h
  have he : (tagged first kept).foldlM (fun s x => s.replayRec x.1 x.2) ({} : DiskStore) = .error e :=
    he
  have hreplay := replaySegments_onDisk (f := DiskStore.replay) (g := fun n s r => s.replayRec n r)
    (fun r hr n s => DiskStore.replay_encode hr n s) hd henc {}
  rw [he] at hreplay
  have hopen : openWAL DiskStore.replay d.segs {} = .error (.replay e) := by
    rw [openWAL, hreplay]
  exact ⟨.openLog (.replay e), by rw [openDiskStore, hopen]⟩

/-! ## Appending records. -/

/-- Records were added to the newest segment, or to a new one. -/
def Grown (kept : List (List Rec)) (rs : List Rec) (kept' : List (List Rec)) : Prop :=
  ∃ h last, (kept = h ++ [last] ∨ kept = h ∧ last = []) ∧ kept' = h ++ [last ++ rs]

theorem Grown.flatten {kept kept' : List (List Rec)} {rs : List Rec} (h : Grown kept rs kept') :
    kept'.flatten = kept.flatten ++ rs := by
  obtain ⟨h, last, rfl | ⟨rfl, rfl⟩, rfl⟩ := h <;> simp

theorem Grown.tagged {kept kept' : List (List Rec)} {rs : List Rec} (h : Grown kept rs kept')
    (first : ℕ) :
    tagged first kept' = tagged first kept ++ rs.map (Prod.mk (first + kept'.length - 1)) := by
  obtain ⟨h, last, hk, rfl⟩ := h
  have hlen : first + (h ++ [last ++ rs]).length - 1 = first + h.length := by
    rw [List.length_append, List.length_singleton]
    omega
  rw [hlen, tagged_append]
  rcases hk with rfl | ⟨rfl, rfl⟩
  · rw [tagged_append]
    simp [Raft.tagged]
  · simp [Raft.tagged]

theorem Grown.encodable {kept kept' : List (List Rec)} {rs : List Rec} (h : Grown kept rs kept')
    (hk : AllEncodable kept) (hrs : ∀ r ∈ rs, r.Encodable) : AllEncodable kept' := by
  obtain ⟨h, last, hcase, rfl⟩ := h
  have hh : AllEncodable h ∧ ∀ r ∈ last, r.Encodable := by
    rcases hcase with rfl | ⟨rfl, rfl⟩
    · exact ⟨fun rs hrs => hk rs (by simp [hrs]), hk last (by simp)⟩
    · exact ⟨hk, by simp⟩
  intro xs hxs
  rcases List.mem_append.mp hxs with hxs | hxs
  · exact hh.1 xs hxs
  · obtain rfl := List.mem_singleton.mp hxs
    exact fun r hr => (List.mem_append.mp hr).elim (hh.2 r) (hrs r)

/-- A durable log stays durable when valid records are added to it. -/
theorem Durable.grow {first : ℕ} {kept kept' : List (List Rec)} {m m' : MemStore} {d d' : Disk}
    {rs : List Rec} (h : Durable first kept m d) (hg : Grown kept rs kept') (hrun : Runs m rs m')
    (henc : ∀ r ∈ rs, r.Encodable) (hd : OnDisk first kept' d')
    (hsnap : 0 < m'.snapIdx → (d'.snaps m'.snapIdx).isSome) : Durable first kept' m' d' := by
  refine ⟨hd, hg.encodable h.encodable henc, ?_, ?_, hrun.state henc h.state, hsnap⟩
  · rw [hg.tagged]
    apply h.rebuilds.append
    simpa [Function.comp_def] using hrun
  · obtain ⟨m₀, hm₀, hlive⟩ := h.live
    refine ⟨m₀, hm₀.trans hrun.snapIdx_le, ?_⟩
    rw [hg.flatten]
    exact hlive.append hrun

/-- A crash in one write to the newest segment. -/
theorem crashed_write {first : ℕ} {h : List (List Rec)} {last rs : List Rec} {d : Disk}
    (hd : d.segs = files first (h ++ [last])) (henc : ∀ r ∈ rs, r.Encodable) (k j : ℕ) :
    ∃ n ≤ rs.length,
      OnDisk first (h ++ [last ++ rs.take n])
        (crashed d [.wal (.write (encodeRecords (rs.map Rec.encode)))] k j) ∧
      (crashed d [.wal (.write (encodeRecords (rs.map Rec.encode)))] k j).snaps = d.snaps ∧
      (1 ≤ k → n = rs.length) := by
  have hsegs : d.segs = files first h ++ [⟨first + h.length, encodeRecords (last.map Rec.encode)⟩] := by
    rw [hd, files_append]
    rfl
  have hfits : ∀ p ∈ rs.map Rec.encode, Fits p := by
    intro p hp
    obtain ⟨r, hr, rfl⟩ := List.mem_map.mp hp
    exact Rec.fits (henc r hr)
  -- a complete write is the write of all its bytes
  obtain ⟨b, hb, hcrash⟩ : ∃ b, (1 ≤ k → (encodeRecords (rs.map Rec.encode)).length ≤ b) ∧
      crashed d [.wal (.write (encodeRecords (rs.map Rec.encode)))] k j =
        { d with segs := writeLast ((encodeRecords (rs.map Rec.encode)).take b) d.segs } := by
    cases k with
    | zero => exact ⟨j, by omega, rfl⟩
    | succ k => exact ⟨_, fun _ => le_rfl, by rw [List.take_length]; rfl⟩
  obtain ⟨n, hn, hholds, hall⟩ := Storage.holds_take hfits b
  rw [List.length_map] at hn hall
  refine ⟨n, hn, ?_, by rw [hcrash], fun hk => hall (hb hk)⟩
  rw [hcrash, hsegs, writeLast_append]
  refine ⟨h, last ++ rs.take n, _, rfl, rfl, ?_⟩
  rw [List.map_append, List.map_take]
  exact hholds.append

/-- The actions of one WAL append. -/
theorem writeRecs_eq (s : DiskStore) (rs : List Rec) :
    s.writeRecs rs =
      if s.wal.size ≥ segmentSize then
        ({ s with wal := ⟨s.wal.seg + 1, (encodeRecords (rs.map Rec.encode)).length⟩ },
          [.wal .create, .wal (.write (encodeRecords (rs.map Rec.encode)))])
      else
        ({ s with wal := ⟨s.wal.seg, s.wal.size + (encodeRecords (rs.map Rec.encode)).length⟩ },
          [.wal (.write (encodeRecords (rs.map Rec.encode)))]) := by
  rw [DiskStore.writeRecs, Wal.append]
  split
  · simp [Wal.rotate]
  · simp

theorem apply_create {first : ℕ} {kept : List (List Rec)} {d : Disk} (hne : kept ≠ [])
    (hd : d.segs = files first kept) :
    DiskAction.apply d (.wal .create) = { d with segs := files first (kept ++ [[]]) } := by
  rw [DiskAction.apply, WalAction.apply, hd, nextNum_files hne, files_append]
  rfl

theorem Running.kept_ne {first : ℕ} {kept : List (List Rec)} {s : DiskStore} {d : Disk}
    (h : Running first kept s d) : kept ≠ [] := by
  obtain ⟨h', last, _, rfl, -, -⟩ := h.onDisk
  simp

/-- EVERY crash point of a WAL append leaves a prefix of its records. -/
theorem crashed_writeRecs {first : ℕ} {kept : List (List Rec)} {s : DiskStore} {d : Disk}
    (h : Running first kept s d) {rs : List Rec} (henc : ∀ r ∈ rs, r.Encodable) (k j : ℕ) :
    ∃ n ≤ rs.length, ∃ kept', Grown kept (rs.take n) kept' ∧
      OnDisk first kept' (crashed d (s.writeRecs rs).2 k j) ∧
      (crashed d (s.writeRecs rs).2 k j).snaps = d.snaps ∧
      ((s.writeRecs rs).2.length ≤ k → n = rs.length) := by
  obtain ⟨h', last, _, hk, -, -⟩ := h.onDisk
  rw [writeRecs_eq]
  split
  · cases k with
    | zero => exact ⟨0, Nat.zero_le _, kept, ⟨h', last, Or.inl hk, by simpa using hk⟩, h.onDisk, rfl, by simp⟩
    | succ k =>
      have hcrash : crashed d [.wal .create, .wal (.write (encodeRecords (rs.map Rec.encode)))] (k + 1) j =
          crashed { d with segs := files first (kept ++ [[]]) }
            [.wal (.write (encodeRecords (rs.map Rec.encode)))] k j := by
        rw [← apply_create h.kept_ne h.segs]
        rfl
      obtain ⟨n, hn, hdisk, hsnaps, hall⟩ := crashed_write
        (d := { d with segs := files first (kept ++ [[]]) }) rfl henc k j
      simp only [hcrash]
      exact ⟨n, hn, _, ⟨kept, [], Or.inr ⟨rfl, rfl⟩, rfl⟩, hdisk, hsnaps, fun hk => hall (by simpa using hk)⟩
  · obtain ⟨n, hn, hdisk, hsnaps, hall⟩ := crashed_write (h.segs.trans (by rw [hk])) henc k j
    exact ⟨n, hn, _, ⟨h', last, Or.inl hk, rfl⟩, hdisk, hsnaps, fun hk => hall (by simpa using hk)⟩

theorem apply_write {first : ℕ} {h : List (List Rec)} {d : Disk} (last : List Rec)
    (hd : d.segs = files first (h ++ [last])) (rs : List Rec) :
    DiskAction.apply d (.wal (.write (encodeRecords (rs.map Rec.encode)))) =
      { d with segs := files first (h ++ [last ++ rs]) } := by
  rw [files_append] at hd ⊢
  have hd : d.segs =
    files first h ++ [⟨first + h.length, encodeRecords (last.map Rec.encode)⟩] := hd
  rw [DiskAction.apply, WalAction.apply, hd, writeLast_append, ← Storage.encodeRecords_append,
    ← List.map_append]
  rfl

/-- A complete WAL append. -/
theorem foldl_writeRecs {first : ℕ} {kept : List (List Rec)} {s : DiskStore} {d : Disk}
    (h : Running first kept s d) (rs : List Rec) :
    ∃ kept', Grown kept rs kept' ∧
      ((s.writeRecs rs).2.foldl DiskAction.apply d) = { d with segs := files first kept' } ∧
      (s.writeRecs rs).1.wal.seg + 1 = first + kept'.length := by
  obtain ⟨h', last, _, hk, -, -⟩ := h.onDisk
  have hseg := h.seg
  rw [writeRecs_eq]
  split
  · refine ⟨_, ⟨kept, [], Or.inr ⟨rfl, rfl⟩, rfl⟩, ?_, ?_⟩
    · simp only [List.foldl_cons, List.foldl_nil, apply_create h.kept_ne h.segs]
      exact apply_write (h := kept) [] rfl rs
    · simp only [List.length_append, List.length_singleton]
      omega
  · refine ⟨_, ⟨h', last, Or.inl hk, rfl⟩, ?_, ?_⟩
    · exact apply_write last (h.segs.trans (by rw [hk])) rs
    · rw [hk] at hseg
      simpa using hseg

/-- A store that has appended valid records runs on. -/
theorem Running.grow {first : ℕ} {kept kept' : List (List Rec)} {s s' : DiskStore} {d : Disk}
    {rs : List Rec} (h : Running first kept s d) (hg : Grown kept rs kept')
    (hrun : Runs s.log rs s'.log) (henc : ∀ r ∈ rs, r.Encodable) (hsnap : s'.snapIdx = s.snapIdx)
    (hseg : s'.wal.seg + 1 = first + kept'.length) (hbase : s'.base = s'.snapIdx)
    (hmax : s'.segMax = (rs.map (Prod.mk s'.wal.seg)).foldl noteMax s.segMax) :
    Running first kept' s' { d with segs := files first kept' } := by
  have hne : kept' ≠ [] := by
    obtain ⟨h', last, -, rfl⟩ := hg
    simp
  refine ⟨h.toDurable.grow hg hrun henc (.of_files hne rfl) fun hpos => ?_, rfl, hseg, hbase, ?_⟩
  · have hsame : s'.log.snapIdx = s.log.snapIdx := hsnap
    rw [hsame] at hpos ⊢
    exact h.snap hpos
  · rw [hg.tagged, maxes_append, hmax, h.segMax, ← hseg, Nat.add_sub_cancel]

/-! ## `Append` and `SetState`. -/

/-- Arguments of a call that its records can carry, and entries that follow each other. -/
def StoreCall.Encodable : StoreCall → Prop
  | .append es => Consecutive es ∧ ∀ e ∈ es, (Rec.entry e).Encodable
  | .setState term vote => (Rec.state term vote).Encodable
  | .compact index term _ => (Rec.snapshot index term).Encodable

instance StoreCall.Encodable.decide : DecidablePred StoreCall.Encodable
  | .append es => inferInstanceAs (Decidable
      ((es.IsChain fun e e' => e'.index = e.index + 1) ∧ ∀ e ∈ es, (Rec.entry e).Encodable))
  | .setState term vote => inferInstanceAs (Decidable (Rec.state term vote).Encodable)
  | .compact index term _ => inferInstanceAs (Decidable (Rec.snapshot index term).Encodable)

/-- What a crash may leave of a call: an `Append` may have taken effect for a prefix of its entries,
the other calls wholly or not at all; a completed call has taken effect. -/
def Recovers (c : StoreCall) (s s' : DiskStore) (done : Prop) (m : MemStore) : Prop :=
  (done → m = s'.log) ∧
    match c with
    | .append es => ∃ n, s.log.append (es.take n) = .ok m
    | _ => m = s.log ∨ m = s'.log

theorem append_log {s s' : DiskStore} {es : List Entry} {as : List DiskAction}
    (hbase : s.base = s.snapIdx) (h : s.append es = .ok (s', as)) :
    s.log.append es = .ok s'.log ∧ s'.base = s'.snapIdx ∧ s'.snapIdx = s.snapIdx ∧
      (es = [] ∧ s' = s ∧ as = [] ∨
        s'.wal = (s.writeRecs (es.map .entry)).1.wal ∧ as = (s.writeRecs (es.map .entry)).2 ∧
        s'.segMax = ((es.map Rec.entry).map (Prod.mk s'.wal.seg)).foldl noteMax s.segMax) := by
  cases es with
  | nil =>
    obtain ⟨rfl, rfl⟩ := Prod.mk.inj (Except.ok.inj h)
    exact ⟨rfl, hbase, rfl, Or.inl ⟨rfl, rfl, rfl⟩⟩
  | cons e es =>
    rw [DiskStore.append] at h
    split at h
    · cases h
    · next hin =>
      obtain ⟨rfl, rfl⟩ := Prod.mk.inj (Except.ok.inj h)
      refine ⟨?_, hbase, rfl, Or.inr ⟨rfl, rfl, ?_⟩⟩
      · have hlast : s.log.lastIndex = s.last := by
          rw [DiskStore.last, hbase]
          rfl
        have hin' : ¬(e.index > s.log.lastIndex + 1 ∨ e.index ≤ s.log.snapIdx) := by rwa [hlast]
        rw [MemStore.append, if_neg hin']
        simp only [DiskStore.log, hbase]
        rfl
      · -- the last of the entries decides
        have hfold : ∀ (es : List Entry) (e : Entry) (n : ℕ) (f : ℕ → Option ℕ),
            (((e :: es).map Rec.entry).map (Prod.mk n)).foldl noteMax f =
              update f n (some ((e :: es).getLast (by simp)).index) := by
          intro es
          induction es with
          | nil => exact fun _ _ _ => rfl
          | cons e' es ih =>
            intro e n f
            refine (ih e' n (noteMax f (n, .entry e))).trans ?_
            simp [noteMax]
        exact (hfold es e _ s.segMax).symm

theorem append_crash {first : ℕ} {kept : List (List Rec)} {s s' : DiskStore} {d : Disk}
    (h : Running first kept s d) {es : List Entry} {as : List DiskAction}
    (hc : (StoreCall.append es).Encodable) (hp : s.append es = .ok (s', as)) (k j : ℕ) :
    ∃ kept' m, Durable first kept' m (crashed d as k j) ∧
      Recovers (.append es) s s' (as.length ≤ k) m := by
  obtain ⟨hlog, -, -, ⟨rfl, rfl, rfl⟩ | ⟨-, rfl, -⟩⟩ := append_log h.base hp
  · exact ⟨kept, s'.log, h.toDurable, fun _ => rfl, 0, rfl⟩
  · have henc : ∀ r ∈ es.map Rec.entry, r.Encodable := by
      intro r hr
      obtain ⟨e, he, rfl⟩ := List.mem_map.mp hr
      exact hc.2 e he
    obtain ⟨n, -, kept', hg, hdisk, hsnaps, hall⟩ := crashed_writeRecs h henc k j
    obtain ⟨m, hm⟩ := append_take hlog n
    have hrun := runs_append (List.IsChain.take hc.1 n) hm
    have hsn : m.snapIdx = s.log.snapIdx := by
      revert hm
      cases es.take n with
      | nil => exact fun hm => by cases hm; rfl
      | cons e es =>
        rw [MemStore.append]
        split
        · exact fun hm => by cases hm
        · exact fun hm => by cases hm; rfl
    refine ⟨kept', m, h.toDurable.grow hg (by rwa [← List.map_take]) ?_ hdisk ?_, ?_, n, hm⟩
    · exact fun r hr => henc r (List.mem_of_mem_take hr)
    · rw [hsn, hsnaps]
      exact h.snap
    · intro hdone
      rw [hall hdone, List.length_map, List.take_length, hlog] at hm
      exact (Except.ok.inj hm).symm

theorem append_running {first : ℕ} {kept : List (List Rec)} {s s' : DiskStore} {d : Disk}
    (h : Running first kept s d) {es : List Entry} {as : List DiskAction}
    (hc : (StoreCall.append es).Encodable) (hp : s.append es = .ok (s', as)) :
    ∃ kept', Running first kept' s' (as.foldl DiskAction.apply d) := by
  obtain ⟨hlog, hbase, hsnap, ⟨rfl, rfl, rfl⟩ | ⟨hwal, rfl, hmax⟩⟩ := append_log h.base hp
  · exact ⟨kept, h⟩
  · have henc : ∀ r ∈ es.map Rec.entry, r.Encodable := by
      intro r hr
      obtain ⟨e, he, rfl⟩ := List.mem_map.mp hr
      exact hc.2 e he
    obtain ⟨kept', hg, hdisk, hseg⟩ := foldl_writeRecs h (es.map .entry)
    rw [← hwal] at hseg
    rw [hdisk]
    exact ⟨kept', h.grow hg (runs_append hc.1 hlog) henc hsnap hseg hbase hmax⟩

theorem setState_crash {first : ℕ} {kept : List (List Rec)} {s : DiskStore} {d : Disk}
    (h : Running first kept s d) {term : ℕ} {vote : NodeID}
    (hc : (StoreCall.setState term vote).Encodable) (k j : ℕ) :
    ∃ kept' m, Durable first kept' m (crashed d (s.setState term vote).2 k j) ∧
      Recovers (.setState term vote) s (s.setState term vote).1
        ((s.setState term vote).2.length ≤ k) m := by
  have henc : ∀ r ∈ [Rec.state term vote], r.Encodable := List.forall_mem_singleton.mpr hc
  obtain ⟨n, hn, kept', hg, hdisk, hsnaps, hall⟩ := crashed_writeRecs h henc k j
  have hsnap : 0 < s.snapIdx →
      ((crashed d (s.writeRecs [.state term vote]).2 k j).snaps s.snapIdx).isSome := by
    rw [hsnaps]
    exact h.snap
  obtain rfl | rfl : n = 0 ∨ n = 1 := by
    rw [List.length_singleton] at hn
    omega
  · refine ⟨kept', s.log, h.toDurable.grow hg rfl (by simp) hdisk hsnap, fun hdone => ?_, Or.inl rfl⟩
    exact absurd (hall hdone) (by simp)
  · exact ⟨kept', s.log.setState term vote, h.toDurable.grow hg ⟨trivial, rfl⟩ henc hdisk hsnap,
      fun _ => rfl, Or.inr rfl⟩

theorem setState_running {first : ℕ} {kept : List (List Rec)} {s : DiskStore} {d : Disk}
    (h : Running first kept s d) {term : ℕ} {vote : NodeID}
    (hc : (StoreCall.setState term vote).Encodable) :
    ∃ kept', Running first kept' (s.setState term vote).1
      ((s.setState term vote).2.foldl DiskAction.apply d) := by
  obtain ⟨kept', hg, hdisk, hseg⟩ := foldl_writeRecs h [.state term vote]
  have hdisk : (s.setState term vote).2.foldl DiskAction.apply d =
    { d with segs := files first kept' } := hdisk
  rw [hdisk]
  exact ⟨kept', h.grow hg ⟨trivial, rfl⟩ (List.forall_mem_singleton.mpr hc) rfl hseg h.base rfl⟩

end Keystone.Raft
