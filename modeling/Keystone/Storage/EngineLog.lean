/-
# Keystone.Storage.EngineLog — the WAL of the engine, and what `Open` reads back from it.

The engine's log is, for every segment, the list of its records: a batch each, with the sequence number
of its first operation.  `WalHolds` says that the segment files are exactly that; `WalLeft` says the same
of files that a crash has left, where the newest may end in a torn record.  `WalLeft.replay` is the replay
of `Open`: for every segment it still needs, the memtable of its records.

Put together (`replay_torn_group`): a crash inside the one write of a commit, after any number of bytes,
leaves some of the batches of the group, from the first on, each of them whole.
-/
import Keystone.Storage.Engine

namespace Keystone.Storage

open Keystone.Lib
open Function (update)

/-! ## Records and memtables. -/

/-- A batch in the WAL, and the sequence number of its first operation. -/
structure Record where
  seq : ℕ
  batch : Batch
  deriving DecidableEq, Repr

def Record.payload (r : Record) : Bytes := encodeBatch r.seq r.batch

/-- The records of the segments. -/
abbrev Log := ℕ → List Record

def Memtable.putRecord (mt : Memtable) (r : Record) : Memtable := mt.putAll r.seq (r.batch.map BatchOp.raw)

/-- The memtable of a segment. -/
def memtableOf (rs : List Record) : Memtable := rs.foldl Memtable.putRecord {}

/-- The records of a group of batches. -/
def groupRecords : ℕ → List Batch → List Record
  | _, [] => []
  | seq, b :: bs => ⟨seq, b⟩ :: groupRecords (seq + b.length) bs

theorem encodeGroup_eq (seq : ℕ) (group : List Batch) :
    encodeGroup seq group = (groupRecords seq group).map Record.payload := by
  induction group generalizing seq with
  | nil => rfl
  | cons b bs ih =>
    rw [encodeGroup, groupRecords, List.map_cons, ih]
    rfl

theorem putAll_append (mt : Memtable) (seq : ℕ) (a b : List RawOp) :
    mt.putAll seq (a ++ b) = (mt.putAll seq a).putAll (seq + a.length) b := by
  induction a generalizing mt seq with
  | nil => rfl
  | cons op a ih =>
    rw [List.cons_append, Memtable.putAll, Memtable.putAll, ih, List.length_cons, Nat.add_assoc,
      Nat.add_comm 1]

theorem foldl_groupRecords (mt : Memtable) (seq : ℕ) (group : List Batch) :
    (groupRecords seq group).foldl Memtable.putRecord mt = mt.putAll seq (group.flatten.map BatchOp.raw) := by
  induction group generalizing mt seq with
  | nil => rfl
  | cons b bs ih =>
    rw [groupRecords, List.foldl_cons, ih, List.flatten_cons, List.map_append, putAll_append,
      List.length_map]
    rfl

theorem memtableOf_append_group (rs : List Record) (seq : ℕ) (group : List Batch) :
    memtableOf (rs ++ groupRecords seq group) =
      (memtableOf rs).putAll seq (group.flatten.map BatchOp.raw) := by
  unfold memtableOf
  rw [List.foldl_append, foldl_groupRecords]

/-! ## The segment files. -/

/-- The bytes of a list of records. -/
def bytesOf (rs : List Record) : Bytes := encodeRecords (rs.map Record.payload)

/-- The segment files hold the log, and nothing else. -/
structure WalHolds (gs : List Segment) (log : Log) : Prop where
  ascending : (gs.map Segment.num).Pairwise (· < ·)
  bytes : ∀ g ∈ gs, g.bytes = bytesOf (log g.num)
  absent : ∀ n, n ∉ gs.map Segment.num → log n = []

variable {gs : List Segment} {log : Log}

/-- Only the newest segment has its number. -/
theorem ne_last_num {init : List Segment} {g : Segment}
    (h : ((init ++ [g]).map Segment.num).Pairwise (· < ·)) : ∀ x ∈ init, x.num ≠ g.num := by
  intro x hx heq
  rw [List.map_append] at h
  have := (List.pairwise_append.mp h).2.2 _ (List.mem_map_of_mem hx) g.num (List.mem_singleton_self _)
  omega

/-! ## What a crash leaves of them. -/

/-- As `WalHolds`, but the newest segment may end in a torn record. -/
structure WalLeft (gs : List Segment) (log : Log) : Prop where
  ascending : (gs.map Segment.num).Pairwise (· < ·)
  older : ∀ g ∈ gs.dropLast, g.bytes = bytesOf (log g.num)
  newest : ∀ g ∈ gs.getLast?, Holds g.bytes ((log g.num).map Record.payload)
  absent : ∀ n, n ∉ gs.map Segment.num → log n = []

/-- A record that can be read back: its length has four bytes, and the sequence number of each of its
operations has room in a trailer. -/
abbrev Record.Fits (r : Record) : Prop := r.payload.length < 2 ^ 32 ∧ r.seq + r.batch.length ≤ 2 ^ 56

/-- Every record of the log can be read back. -/
def LogFits (log : Log) : Prop := ∀ n, ∀ r ∈ log n, r.Fits

theorem payload_ne_nil (r : Record) : r.payload ≠ [] := by
  intro hnil
  have := congrArg List.length hnil
  unfold Record.payload encodeBatch at this
  simp only [List.length_append, LittleEndian.length_encode, List.length_nil] at this
  omega

theorem Record.Fits.payload {r : Record} (h : r.Fits) : Storage.Fits r.payload := ⟨payload_ne_nil r, h.1⟩

/-- A write that stopped anywhere leaves the first records of it. -/
theorem WalHolds.torn {init : List Segment} {g : Segment} (h : WalHolds (init ++ [g]) log)
    {rs : List Record} (hrs : ∀ r ∈ rs, r.Fits) (j : ℕ) :
    ∃ k ≤ rs.length, WalLeft (WalAction.apply (init ++ [g]) (.write ((bytesOf rs).take j)))
      (update log g.num (log g.num ++ rs.take k)) := by
  have hfits : ∀ p ∈ rs.map Record.payload, Storage.Fits p := by
    intro p hp
    obtain ⟨r, hr, rfl⟩ := List.mem_map.mp hp
    exact (hrs r hr).payload
  obtain ⟨k, hk, hholds, -⟩ := holds_take hfits j
  rw [List.length_map] at hk
  rw [← List.map_take] at hholds
  refine ⟨k, hk, ?_⟩
  have happ : WalAction.apply (init ++ [g]) (.write ((bytesOf rs).take j)) =
      init ++ [{ g with bytes := g.bytes ++ (bytesOf rs).take j }] := writeLast_append ..
  have hnums : (init ++ [{ g with bytes := g.bytes ++ (bytesOf rs).take j }]).map Segment.num =
      (init ++ [g]).map Segment.num := by
    rw [List.map_append, List.map_append]
    rfl
  rw [happ]
  refine ⟨hnums ▸ h.ascending, fun x hx => ?_, fun x hx => ?_, fun n hn => ?_⟩
  · rw [List.dropLast_concat] at hx
    rw [Function.update_of_ne (ne_last_num h.ascending x hx)]
    exact h.bytes x (List.mem_append_left _ hx)
  · rw [List.getLast?_concat] at hx
    obtain rfl := Option.some.inj hx
    show Holds (g.bytes ++ _) ((update log g.num _ g.num).map Record.payload)
    rw [Function.update_self, List.map_append, h.bytes g (List.mem_append_right _ (List.mem_singleton_self _))]
    exact hholds.append
  · rw [hnums] at hn
    have hne : n ≠ g.num := by
      rintro rfl
      exact hn (List.mem_map_of_mem (List.mem_append_right _ (List.mem_singleton_self _)))
    rw [Function.update_of_ne hne]
    exact h.absent n hn

/-! ## Reading them back. -/

/-- The sequence number of the last operation. -/
def Record.last (r : Record) : ℕ := r.seq + r.batch.length - 1

/-- What the replay of one record does. -/
def Recovered.add (seg : ℕ) (R : Recovered) (r : Record) : Recovered where
  mems := putRecord seg r.seq (r.batch.map BatchOp.raw) R.mems
  seq := if r.last > R.seq then r.last else R.seq

/-- The sequence counter after the replay of records. -/
def replaySeq (seq : ℕ) (rs : List Record) : ℕ := rs.foldl (fun s r => if r.last > s then r.last else s) seq

theorem replaySeq_append (seq : ℕ) (rs rs' : List Record) :
    replaySeq seq (rs ++ rs') = replaySeq (replaySeq seq rs) rs' := List.foldl_append

variable {logNum seg : ℕ}

theorem replayBatch_payload {r : Record} (hr : r.Fits) (hseg : logNum ≤ seg) (R : Recovered) :
    replayBatch logNum seg R r.payload = .ok (R.add seg r) := by
  have hseq : r.seq < 2 ^ 64 := by
    have := hr.2
    omega
  unfold replayBatch Record.payload
  rw [if_neg (Nat.not_lt.mpr hseg), decodeBatch_encode hseq hr.1]
  simp only [List.length_map]
  rfl

theorem foldlM_records {rs : List Record} (hrs : ∀ r ∈ rs, r.Fits) (hseg : logNum ≤ seg) (R : Recovered) :
    (rs.map Record.payload).foldlM (replayBatch logNum seg) R = .ok (rs.foldl (Recovered.add seg) R) := by
  induction rs generalizing R with
  | nil => rfl
  | cons r rs ih =>
    obtain ⟨hr, hrs⟩ := List.forall_mem_cons.mp hrs
    rw [List.map_cons, List.foldlM_cons, replayBatch_payload hr hseg]
    exact ih hrs _

/-- Segments below the MANIFEST's log number are passed over. -/
theorem foldlM_skipped (ps : List Bytes) (hseg : seg < logNum) (R : Recovered) :
    ps.foldlM (replayBatch logNum seg) R = .ok R := by
  induction ps with
  | nil => rfl
  | cons p ps ih =>
    have hskip : replayBatch logNum seg R p = .ok R := if_pos hseg
    rw [List.foldlM_cons, hskip]
    exact ih

theorem putRecord_append (seq : ℕ) (ops : List RawOp) (ps : List (ℕ × Memtable)) (p : ℕ × Memtable) :
    putRecord seg seq ops (ps ++ [p]) = ps ++ putRecord seg seq ops [p] := by
  induction ps with
  | nil => rfl
  | cons q ps ih =>
    cases ps with
    | nil => exact congrArg (q :: ·) ih
    | cons r ps => exact congrArg (q :: ·) ih

theorem putRecord_same (seq : ℕ) (ops : List RawOp) (ps : List (ℕ × Memtable)) (m : Memtable) :
    putRecord seg seq ops (ps ++ [(seg, m)]) = ps ++ [(seg, m.putAll seq ops)] :=
  (putRecord_append ..).trans (congrArg (ps ++ ·) (if_pos rfl))

theorem putRecord_new (seq : ℕ) (ops : List RawOp) {ps : List (ℕ × Memtable)}
    (h : ∀ p ∈ ps, p.1 ≠ seg) : putRecord seg seq ops ps = ps ++ [(seg, ({} : Memtable).putAll seq ops)] := by
  rcases List.eq_nil_or_concat ps with rfl | ⟨init, p, rfl⟩
  · rfl
  · rw [List.concat_eq_append] at h ⊢
    rw [putRecord_append, List.append_assoc]
    exact congrArg (init ++ ·) (if_neg (h p (by simp)))

/-- Further records of a segment that has its memtable. -/
theorem add_records_same (rs : List Record) (ps : List (ℕ × Memtable)) (m : Memtable) (seq : ℕ) :
    rs.foldl (Recovered.add seg) ⟨ps ++ [(seg, m)], seq⟩ =
      ⟨ps ++ [(seg, rs.foldl Memtable.putRecord m)], replaySeq seq rs⟩ := by
  induction rs generalizing m seq with
  | nil => rfl
  | cons r rs ih =>
    have hadd : Recovered.add seg ⟨ps ++ [(seg, m)], seq⟩ r =
        ⟨ps ++ [(seg, m.putRecord r)], if r.last > seq then r.last else seq⟩ := by
      unfold Recovered.add
      rw [putRecord_same]
      rfl
    rw [List.foldl_cons, hadd, ih]
    rfl

/-- A segment with records becomes the newest memtable. -/
theorem add_records (rs : List Record) {R : Recovered} (h : ∀ p ∈ R.mems, p.1 ≠ seg) :
    rs.foldl (Recovered.add seg) R =
      ⟨R.mems ++ (if rs = [] then [] else [(seg, memtableOf rs)]), replaySeq R.seq rs⟩ := by
  cases rs with
  | nil => simp [replaySeq]
  | cons r rs =>
    have hadd : R.add seg r =
        ⟨R.mems ++ [(seg, ({} : Memtable).putRecord r)], if r.last > R.seq then r.last else R.seq⟩ := by
      unfold Recovered.add
      rw [putRecord_new _ _ h]
      rfl
    rw [List.foldl_cons, hadd, add_records_same, if_neg (List.cons_ne_nil _ _)]
    rfl

/-- The segments that are replayed into memtables. -/
def neededSegs (logNum : ℕ) (log : Log) (ns : List ℕ) : List ℕ := ns.filter fun n => logNum ≤ n ∧ log n ≠ []

/-- The records that are replayed. -/
def neededRecords (logNum : ℕ) (log : Log) (ns : List ℕ) : List Record :=
  (ns.filter (logNum ≤ ·)).flatMap log

def contentsOf (log : Log) (ns : List ℕ) : Contents := ns.map fun n => (n, (log n).map Record.payload)

theorem foldContents_log (logNum : ℕ) (hlog : LogFits log) {ns : List ℕ} (hns : ns.Nodup) {R : Recovered}
    (hnew : ∀ p ∈ R.mems, p.1 ∉ ns) :
    foldContents (replayBatch logNum) (contentsOf log ns) R =
      .ok ⟨R.mems ++ (neededSegs logNum log ns).map (fun n => (n, memtableOf (log n))),
        replaySeq R.seq (neededRecords logNum log ns)⟩ := by
  induction ns generalizing R with
  | nil => simp [contentsOf, foldContents, neededSegs, neededRecords, replaySeq, pure, Except.pure]
  | cons n ns ih =>
    obtain ⟨hn, hns⟩ := List.nodup_cons.mp hns
    have hcons : contentsOf log (n :: ns) = (n, (log n).map Record.payload) :: contentsOf log ns := rfl
    rw [hcons, foldContents_cons]
    by_cases hle : logNum ≤ n
    · have hfresh : ∀ p ∈ R.mems, p.1 ≠ n := fun p hp heq => hnew p hp (heq ▸ List.mem_cons_self)
      have hnew' : ∀ p ∈ R.mems ++ (if log n = [] then [] else [(n, memtableOf (log n))]), p.1 ∉ ns := by
        intro p hp
        rcases List.mem_append.mp hp with hp | hp
        · exact fun hin => hnew p hp (List.mem_cons_of_mem _ hin)
        · split at hp
          · exact absurd hp List.not_mem_nil
          · rw [List.mem_singleton.mp hp]
            exact hn
      rw [foldlM_records (hlog n) hle, add_records _ hfresh]
      show foldContents (replayBatch logNum) (contentsOf log ns) _ = _
      rw [ih hns hnew']
      unfold neededSegs neededRecords
      by_cases hempty : log n = []
      · simp [hle, hempty, replaySeq]
      · simp [hle, hempty, replaySeq_append]
    · rw [foldlM_skipped _ (Nat.not_le.mp hle)]
      show foldContents (replayBatch logNum) (contentsOf log ns) R = _
      rw [ih hns fun p hp hin => hnew p hp (List.mem_cons_of_mem _ hin)]
      unfold neededSegs neededRecords
      simp [hle]

/-- The files after `Open` has cut off a torn tail. -/
def cutTo (log : Log) (gs : List Segment) : List Segment :=
  gs.map fun g => ⟨g.num, bytesOf (log g.num)⟩

theorem cutTo_nums : (cutTo log gs).map Segment.num = gs.map Segment.num := by
  unfold cutTo
  rw [List.map_map]
  rfl

theorem WalLeft.cutTo_holds (h : WalLeft gs log) : WalHolds (cutTo log gs) log := by
  refine ⟨?_, fun g hg => ?_, fun n hn => ?_⟩
  · rw [cutTo_nums]
    exact h.ascending
  · obtain ⟨x, -, rfl⟩ := List.mem_map.mp hg
    rfl
  · rw [cutTo_nums] at hn
    exact h.absent n hn

/-- Older segments are complete, so only the newest is changed. -/
theorem WalLeft.older_eq {init : List Segment} {g : Segment} (h : WalLeft (init ++ [g]) log) :
    cutTo log init = init := by
  unfold cutTo
  refine (List.map_congr_left fun x hx => ?_).trans (List.map_id _)
  have hbytes := h.older x (by rwa [List.dropLast_concat])
  exact Segment.mk.injEq .. |>.mpr ⟨rfl, hbytes.symm⟩

/-- READING BACK what a crash has left: every segment that is needed and has records becomes a memtable,
and the torn tail goes. -/
theorem WalLeft.replay (h : WalLeft gs log) (hlog : LogFits log) (logNum lastSeq : ℕ) :
    replaySegments (replayBatch logNum) gs { seq := lastSeq } =
      .ok (⟨(neededSegs logNum log (gs.map Segment.num)).map (fun n => (n, memtableOf (log n))),
        replaySeq lastSeq (neededRecords logNum log (gs.map Segment.num))⟩, cutTo log gs) := by
  have hnodup : (gs.map Segment.num).Nodup := h.ascending.imp Nat.ne_of_lt
  have hfold := foldContents_log (R := { seq := lastSeq }) logNum hlog hnodup
    fun p hp => absurd hp List.not_mem_nil
  have hfits : ∀ n, ∀ p ∈ (log n).map Record.payload, Storage.Fits p := by
    intro n p hp
    obtain ⟨r, hr, rfl⟩ := List.mem_map.mp hp
    exact (hlog n r hr).payload
  rcases List.eq_nil_or_concat gs with rfl | ⟨init, g, rfl⟩
  · rfl
  · rw [List.concat_eq_append] at *
    have hinit : (contentsOf log (init.map Segment.num)).map segmentOf = init := by
      unfold contentsOf
      rw [List.map_map, List.map_map]
      exact h.older_eq
    have hholds := h.newest g (List.getLast?_concat)
    have hcs : ∀ c ∈ contentsOf log (init.map Segment.num), ∀ p ∈ c.2, Storage.Fits p := by
      intro c hc
      obtain ⟨n, -, rfl⟩ := List.mem_map.mp hc
      exact hfits n
    have hread := replaySegments_of_records (f := replayBatch logNum) (n := g.num) hcs (hfits g.num) hholds
      { seq := lastSeq }
    have hall : contentsOf log (init.map Segment.num) ++ [(g.num, (log g.num).map Record.payload)] =
        contentsOf log ((init ++ [g]).map Segment.num) := by
      unfold contentsOf
      rw [List.map_append, List.map_append]
      rfl
    rw [hinit, hall, hfold] at hread
    rw [hread]
    have hcut : (contentsOf log ((init ++ [g]).map Segment.num)).map segmentOf = cutTo log (init ++ [g]) := by
      unfold contentsOf cutTo
      rw [List.map_map, List.map_map]
      rfl
    rw [← hcut]
    rfl

/-! ## A commit that a crash cut short. -/

theorem groupRecords_take (seq : ℕ) (group : List Batch) (k : ℕ) :
    (groupRecords seq group).take k = groupRecords seq (group.take k) := by
  induction group generalizing seq k with
  | nil => rw [List.take_nil, groupRecords, List.take_nil]
  | cons b bs ih =>
    cases k with
    | zero => rfl
    | succ k =>
      rw [groupRecords, List.take_succ_cons, ih, List.take_succ_cons, groupRecords]

theorem length_groupRecords (seq : ℕ) (group : List Batch) : (groupRecords seq group).length = group.length := by
  induction group generalizing seq with
  | nil => rfl
  | cons b bs ih => rw [groupRecords, List.length_cons, ih, List.length_cons]

/-- WHOLE BATCHES.  The write of a group stops after `j` bytes.  Then `Open` reads back what the log held
before and the first `k` batches of the group, no part of another one: the memtable of the newest segment
has exactly their operations on top, with the sequence numbers they were committed with, and the torn tail
is gone from the file. -/
theorem replay_torn_group {init : List Segment} {g : Segment} (h : WalHolds (init ++ [g]) log) (hlog : LogFits log)
    (seq : ℕ) (group : List Batch) (hgroup : ∀ r ∈ groupRecords seq group, r.Fits) (j logNum lastSeq : ℕ) :
    ∃ gs, gs = WalAction.apply (init ++ [g]) (.write ((encodeRecords (encodeGroup seq group)).take j)) ∧
      ∃ k ≤ group.length, ∃ log', log' = update log g.num (log g.num ++ groupRecords seq (group.take k)) ∧
        replaySegments (replayBatch logNum) gs { seq := lastSeq } =
          .ok (⟨(neededSegs logNum log' (gs.map Segment.num)).map (fun n => (n, memtableOf (log' n))),
            replaySeq lastSeq (neededRecords logNum log' (gs.map Segment.num))⟩, cutTo log' gs) ∧
        WalHolds (cutTo log' gs) log' ∧
        memtableOf (log' g.num) =
          (memtableOf (log g.num)).putAll seq ((group.take k).flatten.map BatchOp.raw) := by
  have hbytes : encodeRecords (encodeGroup seq group) = bytesOf (groupRecords seq group) :=
    congrArg encodeRecords (encodeGroup_eq ..)
  obtain ⟨k, hk, hleft⟩ := h.torn hgroup j
  rw [length_groupRecords] at hk
  rw [groupRecords_take, ← hbytes] at hleft
  have hfits : LogFits (update log g.num (log g.num ++ groupRecords seq (group.take k))) := by
    intro n r hr
    by_cases hn : n = g.num
    · rw [hn, Function.update_self] at hr
      rcases List.mem_append.mp hr with hr | hr
      · exact hlog _ r hr
      · rw [← groupRecords_take] at hr
        exact hgroup r (List.mem_of_mem_take hr)
    · rw [Function.update_of_ne hn] at hr
      exact hlog n r hr
  refine ⟨_, rfl, k, hk, _, rfl, hleft.replay hfits logNum lastSeq, hleft.cutTo_holds, ?_⟩
  rw [Function.update_self, memtableOf_append_group]

/-- A group of two batches, cut in its second record. -/
theorem replay_torn_group_second :
    ∃ k ≤ 2, ∃ R gs, replaySegments (replayBatch 1) (WalAction.apply [⟨1, []⟩] (.write
      ((encodeRecords (encodeGroup 1 [[⟨.put, [1], [10]⟩], [⟨.put, [2], [20]⟩]])).take 30))) { seq := 0 } =
        .ok (R, gs) ∧ WalHolds gs (update (fun _ => []) 1
          (groupRecords 1 ([[⟨.put, [1], [10]⟩], [⟨.put, [2], [20]⟩]].take k))) := by
  have hwal : WalHolds ([] ++ [(⟨1, []⟩ : Segment)]) fun _ => [] :=
    ⟨List.pairwise_singleton _ _, List.forall_mem_singleton.mpr rfl, fun _ _ => rfl⟩
  obtain ⟨gs, rfl, k, hk, log', rfl, hreplay, hholds, -⟩ :=
    replay_torn_group hwal (fun _ _ hr => absurd hr List.not_mem_nil) 1
      [[⟨.put, [1], [10]⟩], [⟨.put, [2], [20]⟩]] (by decide +kernel) 30 1 0
  exact ⟨k, hk, _, _, hreplay, hholds⟩

end Keystone.Storage
