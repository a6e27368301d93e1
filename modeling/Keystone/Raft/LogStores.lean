/-
# Keystone.Raft.LogStores — the two log stores answer alike.

`MemStore` backs the tests and the simulator, `DiskStore` the server.  Here both are put behind the
interface of `raft/logstore.go`, every method of it, and driven by one list of calls.  Neither is compared
with the other directly: a third store, `AbsLog`, is a snapshot point and a partial map from indexes to
entries, with no array and no offsets, and each store is shown to answer exactly as it does
(`mem_simulates`, `disk_simulates`).

The arrays of the two stores differ in one number only: `MemStore` counts from the snapshot index,
`DiskStore` from `base`.  `LogArray` has both, and a store's own definitions are the shared ones at its
own numbers.  The sums `last + 1` and `snapIdx + 1` are those of `uint64`, which wrap behind the last
index there is; a last index itself is the index of an entry or of a snapshot and does not.
-/
import Keystone.Raft.DiskRecovery
import Keystone.Raft.LocalCommit

namespace Keystone.Raft

open Keystone.Lib
open Keystone.Storage (WalAction)
open Function (update)

/-! ## Calls and answers. -/

inductive LogCall where
  | append (entries : List Entry)
  | entries (lo hi : ℕ)
  | term (index : ℕ)
  | firstIndex
  | lastIndex
  | setState (term : ℕ) (vote : NodeID)
  | state
  | compact (index term : ℕ) (snapshot : Bytes)
  | snapshot
  deriving DecidableEq, Repr

/-- Why a call is refused, with the numbers its message carries.  `panic` is a slice out of range. -/
inductive Refusal where
  | compacted
  | outside (first snapIdx next : ℕ)
  | beyond (lo hi last : ℕ)
  | termBeyond (index last : ℕ)
  | readSnapshot (index : ℕ)
  | panic
  deriving DecidableEq, Repr

inductive LogAnswer where
  | done
  | entries (es : List Entry)
  | term (t : ℕ)
  | index (i : ℕ)
  | state (term : ℕ) (vote : NodeID)
  | snapshot (index term : ℕ) (data : Bytes)
  | refused (r : Refusal)
  deriving DecidableEq, Repr

/-- The calls a user of the interface makes: contiguous entries, an interval that is not reversed, and
numbers that are machine words. -/
def LogCall.Valid : LogCall → Prop
  | .append es => es.IsChain (fun e e' => e'.index = e.index + 1) ∧ ∀ e ∈ es, e.index < 2 ^ 64
  | .entries lo hi => lo ≤ hi ∧ hi < 2 ^ 64
  | .term index => index < 2 ^ 64
  | .compact index _ _ => index < 2 ^ 64
  | _ => True

/-! ## The array of a store. -/

/-- `entries[k]` has index `base + 1 + k`, and indexes up to `snapIdx` are compacted. -/
structure LogArray where
  base : ℕ
  snapIdx : ℕ
  snapTerm : ℕ
  entries : List Entry

namespace LogArray

def last (a : LogArray) : ℕ := a.base + a.entries.length

/-- The array after `Append` of a list that is not empty, with the first index `first`. -/
def append (a : LogArray) (first : ℕ) (es : List Entry) : Except Refusal (List Entry) :=
  if first > succU64 a.last ∨ first ≤ a.snapIdx then
    .error (.outside first a.snapIdx (succU64 a.last))
  else if first ≤ a.base then
    .error .panic
  else
    .ok (a.entries.take (first - a.base - 1) ++ es)

def slice (a : LogArray) (lo hi : ℕ) : LogAnswer :=
  if lo ≤ a.snapIdx then
    .refused .compacted
  else if hi > succU64 a.last then
    .refused (.beyond lo hi a.last)
  else if lo ≤ a.base ∨ hi < lo then
    .refused .panic
  else
    .entries ((a.entries.drop (lo - a.base - 1)).take (hi - lo))

def term (a : LogArray) (index : ℕ) : LogAnswer :=
  if index = a.snapIdx then
    .term a.snapTerm
  else if index < a.snapIdx then
    .refused .compacted
  else if index > a.last then
    .refused (.termBeyond index a.last)
  else
    match a.entries[index - a.base - 1]? with
    | some e => .term e.term
    | none => .refused .panic

end LogArray

/-! ## The two stores. -/

namespace MemStore

def array (s : MemStore) : LogArray := ⟨s.snapIdx, s.snapIdx, s.snapTerm, s.entries⟩

def serve (s : MemStore) : LogCall → MemStore × LogAnswer
  | .append [] => (s, .done)
  | .append (e :: es) =>
    match s.array.append e.index (e :: es) with
    | .ok entries => ({ s with entries := entries }, .done)
    | .error r => (s, .refused r)
  | .entries lo hi => (s, s.array.slice lo hi)
  | .term index => (s, s.array.term index)
  | .firstIndex => (s, .index (succU64 s.snapIdx))
  | .lastIndex => (s, .index s.array.last)
  | .setState term vote => (s.setState term vote, .done)
  | .state => (s, .state s.term s.vote)
  | .compact index term snapshot => (s.compact index term snapshot, .done)
  | .snapshot => (s, .snapshot s.snapIdx s.snapTerm s.snap)

end MemStore

namespace DiskStore

def array (s : DiskStore) : LogArray := ⟨s.base, s.snapIdx, s.snapTerm, s.entries⟩

/-- The records written by an `Append` that passed its check. -/
def store (x : DiskStore × Disk) (entries : List Entry) (e : Entry) (es : List Entry) :
    DiskStore × Disk :=
  let r := x.1.writeRecs ((e :: es).map .entry)
  ({ r.1 with
      entries := entries
      segMax := update x.1.segMax r.1.wal.seg (some ((e :: es).getLast (List.cons_ne_nil e es)).index) },
    r.2.foldl DiskAction.apply x.2)

def serve (x : DiskStore × Disk) : LogCall → (DiskStore × Disk) × LogAnswer
  | .append [] => (x, .done)
  | .append (e :: es) =>
    match x.1.array.append e.index (e :: es) with
    | .ok entries => (store x entries e es, .done)
    | .error r => (x, .refused r)
  | .entries lo hi => (x, x.1.array.slice lo hi)
  | .term index => (x, x.1.array.term index)
  | .firstIndex => (x, .index (succU64 x.1.snapIdx))
  | .lastIndex => (x, .index x.1.array.last)
  | .setState term vote =>
    (((x.1.setState term vote).1, (x.1.setState term vote).2.foldl DiskAction.apply x.2), .done)
  | .state => (x, .state x.1.term x.1.vote)
  | .compact index term snapshot =>
    (((x.1.compact x.2 index term snapshot).1,
      (x.1.compact x.2 index term snapshot).2.foldl DiskAction.apply x.2), .done)
  | .snapshot =>
    if x.1.snapIdx = 0 then
      (x, .snapshot 0 0 [])
    else
      match x.2.snaps x.1.snapIdx with
      | some data => (x, .snapshot x.1.snapIdx x.1.snapTerm data)
      | none => (x, .refused (.readSnapshot x.1.snapIdx))

end DiskStore

/-! ## The abstract log. -/

/-- A snapshot point and the live entries behind it. -/
structure AbsLog where
  term : ℕ := 0
  vote : NodeID := None
  snapIdx : ℕ := 0
  snapTerm : ℕ := 0
  snap : Bytes := []
  last : ℕ := 0
  live : ℕ → Option Entry := fun _ => none

namespace AbsLog

/-- The entries behind `first - 1` are replaced. -/
def append (a : AbsLog) (first : ℕ) (es : List Entry) : AbsLog :=
  { a with
    last := first - 1 + es.length
    live := fun i => if i < first then a.live i else es[i - first]? }

def compact (a : AbsLog) (index term : ℕ) (snapshot : Bytes) : AbsLog :=
  { a with
    snapIdx := index
    snapTerm := term
    snap := snapshot
    last := max a.last index
    live := fun i => if i ≤ index then none else a.live i }

/-- The live entries of an interval, in order. -/
def slice (a : AbsLog) (lo hi : ℕ) : LogAnswer :=
  if lo ≤ a.snapIdx then
    .refused .compacted
  else if hi > succU64 a.last then
    .refused (.beyond lo hi a.last)
  else
    .entries ((List.range' lo (hi - lo)).filterMap a.live)

/-- The snapshot point still answers the snapshot's term. -/
def termAt (a : AbsLog) (index : ℕ) : LogAnswer :=
  if index = a.snapIdx then
    .term a.snapTerm
  else if index < a.snapIdx then
    .refused .compacted
  else
    match a.live index with
    | some e => .term e.term
    | none => .refused (.termBeyond index a.last)

def serve (a : AbsLog) : LogCall → AbsLog × LogAnswer
  | .append [] => (a, .done)
  | .append (e :: es) =>
    if e.index > succU64 a.last ∨ e.index ≤ a.snapIdx then
      (a, .refused (.outside e.index a.snapIdx (succU64 a.last)))
    else
      (a.append e.index (e :: es), .done)
  | .entries lo hi => (a, a.slice lo hi)
  | .term index => (a, a.termAt index)
  | .firstIndex => (a, .index (succU64 a.snapIdx))
  | .lastIndex => (a, .index a.last)
  | .setState term vote => ({ a with term := term, vote := vote }, .done)
  | .state => (a, .state a.term a.vote)
  | .compact index term snapshot =>
    if index ≤ a.snapIdx then (a, .done) else (a.compact index term snapshot, .done)
  | .snapshot => (a, .snapshot a.snapIdx a.snapTerm a.snap)

end AbsLog

/-! ## An array against the abstract log. -/

/-- The array, counted from the snapshot point, holds the live entries. -/
structure Holds (r : LogArray) (a : AbsLog) : Prop where
  base : r.base = r.snapIdx
  snapIdx : a.snapIdx = r.snapIdx
  snapTerm : a.snapTerm = r.snapTerm
  last : a.last = r.last
  live : ∀ i, a.live i = if i ≤ r.snapIdx then none else r.entries[i - r.snapIdx - 1]?

namespace Holds

variable {r : LogArray} {a : AbsLog}

/-- Exactly the indexes between the snapshot point and the end are live. -/
theorem isSome_live (h : Holds r a) (i : ℕ) : (a.live i).isSome ↔ a.snapIdx < i ∧ i ≤ a.last := by
  rw [h.live, h.snapIdx, h.last, LogArray.last, h.base]
  split
  · next hle => simp [hle]
  · next hgt =>
    rw [Option.isSome_iff_ne_none, ne_eq, List.getElem?_eq_none_iff]
    omega

/-- `Append` cuts the array and the map at the same index. -/
theorem append (h : Holds r a) {first : ℕ} {es : List Entry}
    (hin : ¬(first > succU64 r.last ∨ first ≤ r.snapIdx)) :
    ∃ entries, r.append first es = .ok entries ∧
      Holds { r with entries := entries } (a.append first es) := by
  have hnext := succU64_le r.last
  have hlast : r.last = r.snapIdx + r.entries.length := by rw [LogArray.last, h.base]
  have hlen : (r.entries.take (first - r.base - 1)).length = first - r.snapIdx - 1 := by
    rw [List.length_take, h.base]
    omega
  refine ⟨r.entries.take (first - r.base - 1) ++ es, ?_, h.base, h.snapIdx, h.snapTerm, ?_, ?_⟩
  · rw [LogArray.append, if_neg hin, if_neg (by rw [h.base]; omega)]
  · show first - 1 + es.length = r.base + (r.entries.take (first - r.base - 1) ++ es).length
    rw [List.length_append, hlen, h.base]
    omega
  · intro i
    show (if i < first then a.live i else es[i - first]?) = if i ≤ r.snapIdx then none else
      (r.entries.take (first - r.base - 1) ++ es)[i - r.snapIdx - 1]?
    by_cases hsnap : i ≤ r.snapIdx
    · rw [if_pos (by omega), if_pos hsnap, h.live, if_pos hsnap]
    · rw [if_neg hsnap]
      by_cases hi : i < first
      · rw [if_pos hi, h.live, if_neg hsnap, List.getElem?_append_left (by rw [hlen]; omega),
          List.getElem?_take_of_lt (by rw [h.base]; omega)]
      · rw [if_neg hi, List.getElem?_append_right (by rw [hlen]; omega), hlen]
        congr 1
        omega

/-- `Append` is accepted or refused by both, with one message. -/
theorem serve_append (h : Holds r a) (e : Entry) (es : List Entry) :
    (∃ entries, r.append e.index (e :: es) = .ok entries ∧
      a.serve (.append (e :: es)) = (a.append e.index (e :: es), .done) ∧
      Holds { r with entries := entries } (a.append e.index (e :: es))) ∨
    ∃ why, r.append e.index (e :: es) = .error why ∧
      a.serve (.append (e :: es)) = (a, .refused why) := by
  by_cases hout : e.index > succU64 r.last ∨ e.index ≤ r.snapIdx
  · right
    rw [LogArray.append, if_pos hout]
    rw [← h.last, ← h.snapIdx] at hout ⊢
    exact ⟨_, rfl, if_pos hout⟩
  · obtain ⟨entries, happ, hr⟩ := @append _ _ h e.index (e :: es) hout
    rw [← h.last, ← h.snapIdx] at hout
    exact Or.inl ⟨entries, happ, if_neg hout, hr⟩

/-- `Compact` drops what the snapshot covers. -/
theorem compact (h : Holds r a) {index term : ℕ} {snapshot : Bytes} (hi : r.snapIdx < index) :
    Holds ⟨index, index, term, r.entries.drop (index - r.snapIdx)⟩ (a.compact index term snapshot) := by
  refine ⟨rfl, rfl, rfl, ?_, fun i => ?_⟩
  · show max a.last index = index + (r.entries.drop (index - r.snapIdx)).length
    rw [h.last, LogArray.last, h.base, List.length_drop]
    omega
  · show (if i ≤ index then none else a.live i) = if i ≤ index then none else
      (r.entries.drop (index - r.snapIdx))[i - index - 1]?
    split
    · rfl
    · rw [h.live, if_neg (by omega), List.getElem?_drop]
      congr 1
      omega

/-- A piece of the array is the live entries of an interval. -/
theorem drop_take (h : Holds r a) {lo n : ℕ} (hlo : r.snapIdx < lo) (hn : lo + n ≤ r.last + 1) :
    (r.entries.drop (lo - r.snapIdx - 1)).take n = (List.range' lo n).filterMap a.live := by
  induction n generalizing lo with
  | zero => simp
  | succ n ih =>
    have hlast : r.last = r.snapIdx + r.entries.length := by rw [LogArray.last, h.base]
    have hk : lo - r.snapIdx - 1 < r.entries.length := by omega
    have hlive : a.live lo = some r.entries[lo - r.snapIdx - 1] := by
      rw [h.live, if_neg (by omega), List.getElem?_eq_getElem hk]
    rw [List.drop_eq_getElem_cons hk, List.take_succ_cons, List.range'_succ,
      List.filterMap_cons_some hlive, ← ih (by omega) (by omega)]
    congr 3
    omega

theorem slice (h : Holds r a) {lo hi : ℕ} (hle : lo ≤ hi) :
    r.slice lo hi = a.slice lo hi := by
  unfold LogArray.slice AbsLog.slice
  rw [h.snapIdx, h.last]
  by_cases hlo : lo ≤ r.snapIdx
  · rw [if_pos hlo, if_pos hlo]
  · rw [if_neg hlo, if_neg hlo]
    by_cases hhi : hi > succU64 r.last
    · rw [if_pos hhi, if_pos hhi]
    · have hnext := succU64_le r.last
      rw [if_neg hhi, if_neg hhi, if_neg (by rw [h.base]; omega), h.base,
        h.drop_take (by omega) (by omega)]

theorem term (h : Holds r a) (index : ℕ) : r.term index = a.termAt index := by
  unfold LogArray.term AbsLog.termAt
  rw [h.snapIdx, h.snapTerm]
  by_cases heq : index = r.snapIdx
  · rw [if_pos heq, if_pos heq]
  · rw [if_neg heq, if_neg heq]
    by_cases hlt : index < r.snapIdx
    · rw [if_pos hlt, if_pos hlt]
    · have hlive := h.live index
      rw [if_neg (by omega)] at hlive
      have hlast : r.last = r.snapIdx + r.entries.length := by rw [LogArray.last, h.base]
      rw [if_neg hlt, if_neg hlt, hlive, h.last, h.base]
      by_cases hgt : index > r.last
      · rw [if_pos hgt, List.getElem?_eq_none (by omega)]
      · rw [if_neg hgt, List.getElem?_eq_getElem (by omega)]

end Holds

/-! ## The stores against the abstract log. -/

/-- A server of calls, as a machine that shows its answers. -/
def server {S : Type} (serve : S → LogCall → S × LogAnswer) : Machine S LogCall LogAnswer where
  exec s c := some ((serve s c).1, [(serve s c).2])

/-- Two servers that answer a call alike and stay related. -/
theorem server_step {S S' : Type} {R : S → S' → Prop} {f : S → LogCall → S × LogAnswer}
    {g : S' → LogCall → S' × LogAnswer} {s : S} {s' : S'} {c : LogCall}
    (hans : (f s c).2 = (g s' c).2) (hR : R (f s c).1 (g s' c).1) :
    ∃ t t' os, (server f).exec s c = some (t, os) ∧ (server g).exec s' c = some (t', os) ∧ R t t' :=
  ⟨_, _, _, rfl, by rw [hans]; rfl, hR⟩

structure MemHolds (s : MemStore) (a : AbsLog) : Prop where
  term : s.term = a.term
  vote : s.vote = a.vote
  snap : s.snap = a.snap
  array : Holds s.array a

theorem MemStore.compact_array {s : MemStore} {index term : ℕ} {snapshot : Bytes}
    (h : s.snapIdx < index) :
    (s.compact index term snapshot).array =
      ⟨index, index, term, s.entries.drop (index - s.snapIdx)⟩ := by
  rw [MemStore.compact_of_lt h]
  rfl

theorem mem_simulates {s : MemStore} {a : AbsLog} {c : LogCall} (h : MemHolds s a) (hc : c.Valid) :
    (s.serve c).2 = (a.serve c).2 ∧ MemHolds (s.serve c).1 (a.serve c).1 := by
  have hr := h.array
  have hsnap : a.snapIdx = s.snapIdx := hr.snapIdx
  cases c with
  | append es =>
    cases es with
    | nil => exact ⟨rfl, h⟩
    | cons e es =>
      rcases hr.serve_append e es with ⟨entries, happ, hserve, hr'⟩ | ⟨why, happ, hserve⟩
      · rw [hserve, MemStore.serve, happ]
        exact ⟨rfl, h.term, h.vote, h.snap, hr'⟩
      · rw [hserve, MemStore.serve, happ]
        exact ⟨rfl, h⟩
  | entries lo hi => exact ⟨hr.slice hc.1, h⟩
  | term index => exact ⟨hr.term index, h⟩
  | firstIndex => exact ⟨congrArg (fun k => LogAnswer.index (succU64 k)) hsnap.symm, h⟩
  | lastIndex => exact ⟨congrArg LogAnswer.index hr.last.symm, h⟩
  | setState term vote =>
    exact ⟨rfl, rfl, rfl, h.snap, hr.base, hr.snapIdx, hr.snapTerm, hr.last, hr.live⟩
  | state => exact ⟨congrArg₂ LogAnswer.state h.term h.vote, h⟩
  | compact index term snapshot =>
    simp only [MemStore.serve, AbsLog.serve, hsnap]
    by_cases hold : index ≤ s.snapIdx
    · rw [if_pos hold, MemStore.compact, if_pos hold]
      exact ⟨rfl, h⟩
    · have hnew : s.snapIdx < index := not_le.mp hold
      have harray := @MemStore.compact_array s index term snapshot hnew
      have hr' : Holds _ (a.compact index term snapshot) := hr.compact hnew
      rw [if_neg hold]
      rw [MemStore.compact_of_lt hnew] at harray ⊢
      exact ⟨rfl, h.term, h.vote, rfl, harray ▸ hr'⟩
  | snapshot =>
    have hterm : a.snapTerm = s.snapTerm := hr.snapTerm
    refine ⟨?_, h⟩
    show LogAnswer.snapshot s.snapIdx s.snapTerm s.snap = .snapshot a.snapIdx a.snapTerm a.snap
    rw [hsnap, hterm, h.snap]

/-! ## The disk store. -/

/-- WAL actions leave the snapshot files alone. -/
theorem foldl_wal_snaps (as : List WalAction) (d : Disk) :
    ((as.map DiskAction.wal).foldl DiskAction.apply d).snaps = d.snaps := by
  induction as generalizing d with
  | nil => rfl
  | cons x as ih => exact (ih _).trans rfl

structure DiskHolds (x : DiskStore × Disk) (a : AbsLog) : Prop where
  term : x.1.term = a.term
  vote : x.1.vote = a.vote
  array : Holds x.1.array a
  none : a.snapIdx = 0 → a.snapTerm = 0 ∧ a.snap = []
  file : a.snapIdx ≠ 0 → x.2.snaps a.snapIdx = some a.snap

theorem DiskHolds.of_wal {x : DiskStore × Disk} {a a' : AbsLog} (h : DiskHolds x a) {s : DiskStore}
    (as : List WalAction) (hterm : s.term = a'.term) (hvote : s.vote = a'.vote)
    (harray : Holds s.array a') (hidx : a'.snapIdx = a.snapIdx) (ht : a'.snapTerm = a.snapTerm)
    (hs : a'.snap = a.snap) :
    DiskHolds (s, (as.map DiskAction.wal).foldl DiskAction.apply x.2) a' where
  term := hterm
  vote := hvote
  array := harray
  none := by rw [hidx, ht, hs]; exact h.none
  file := by
    rw [hidx, hs]
    show a.snapIdx ≠ 0 → ((as.map DiskAction.wal).foldl DiskAction.apply x.2).snaps a.snapIdx = _
    rw [foldl_wal_snaps]
    exact h.file

/-- After `Compact` the snapshot file has the bytes it was given. -/
theorem compact_snaps {s : DiskStore} {d : Disk} {index term : ℕ} {snapshot : Bytes}
    (h : s.snapIdx < index) :
    ((s.compact d index term snapshot).2.foldl DiskAction.apply d).snaps index = some snapshot := by
  rw [DiskStore.compact, if_neg (not_le.mpr h)]
  simp only [DiskStore.writeRecs, List.foldl_append, List.foldl_cons, List.foldl_nil]
  rw [foldl_wal_snaps]
  have hne : index ≠ s.snapIdx := h.ne'
  split
  · simp only [List.foldl_cons, List.foldl_nil, DiskAction.apply, Function.update_of_ne hne,
      foldl_wal_snaps, Function.update_self]
  · simp only [List.foldl_nil, foldl_wal_snaps, DiskAction.apply, Function.update_self]

theorem disk_simulates {x : DiskStore × Disk} {a : AbsLog} {c : LogCall} (h : DiskHolds x a)
    (hc : c.Valid) :
    (DiskStore.serve x c).2 = (a.serve c).2 ∧ DiskHolds (DiskStore.serve x c).1 (a.serve c).1 := by
  have hr := h.array
  have hsnap : a.snapIdx = x.1.snapIdx := hr.snapIdx
  cases c with
  | append es =>
    cases es with
    | nil => exact ⟨rfl, h⟩
    | cons e es =>
      rcases hr.serve_append e es with ⟨entries, happ, hserve, hr'⟩ | ⟨why, happ, hserve⟩
      · rw [hserve, DiskStore.serve, happ]
        exact ⟨rfl, h.of_wal _ h.term h.vote hr' rfl rfl rfl⟩
      · rw [hserve, DiskStore.serve, happ]
        exact ⟨rfl, h⟩
  | entries lo hi => exact ⟨hr.slice hc.1, h⟩
  | term index => exact ⟨hr.term index, h⟩
  | firstIndex => exact ⟨congrArg (fun k => LogAnswer.index (succU64 k)) hsnap.symm, h⟩
  | lastIndex => exact ⟨congrArg LogAnswer.index hr.last.symm, h⟩
  | setState term vote =>
    refine ⟨rfl, h.of_wal _ rfl rfl ?_ rfl rfl rfl⟩
    exact ⟨hr.base, hr.snapIdx, hr.snapTerm, hr.last, hr.live⟩
  | state => exact ⟨congrArg₂ LogAnswer.state h.term h.vote, h⟩
  | compact index term snapshot =>
    simp only [DiskStore.serve, AbsLog.serve, hsnap]
    by_cases hold : index ≤ x.1.snapIdx
    · rw [if_pos hold, DiskStore.compact, if_pos hold]
      exact ⟨rfl, h⟩
    · have hnew : x.1.snapIdx < index := not_le.mp hold
      have hpos : index ≠ 0 := by omega
      rw [if_neg hold]
      refine ⟨rfl, ?_, ?_, ?_, fun h0 => absurd h0 hpos, fun _ => compact_snaps hnew⟩
      · rw [compact_eq hnew hr.base]; exact h.term
      · rw [compact_eq hnew hr.base]; exact h.vote
      · have hbase : x.1.base = x.1.snapIdx := hr.base
        rw [compact_eq hnew hbase]
        show Holds ⟨index, index, term, x.1.entries.drop (index - x.1.base)⟩ _
        rw [hbase]
        exact hr.compact hnew
  | snapshot =>
    have hterm : a.snapTerm = x.1.snapTerm := hr.snapTerm
    unfold DiskStore.serve AbsLog.serve
    dsimp only
    by_cases h0 : x.1.snapIdx = 0
    · obtain ⟨ht, hs⟩ := h.none (hsnap.trans h0)
      rw [if_pos h0, ht, hs, hsnap, h0]
      exact ⟨rfl, h⟩
    · have hfile := h.file (hsnap ▸ h0)
      rw [hsnap] at hfile
      rw [if_neg h0, hfile, hsnap, hterm]
      exact ⟨rfl, h⟩

/-! ## Every sequence of calls. -/

theorem memHolds_init : MemHolds {} {} :=
  ⟨rfl, rfl, rfl, rfl, rfl, rfl, rfl, fun i => by simp [MemStore.array]⟩

theorem diskHolds_init : DiskHolds freshStore {} :=
  ⟨rfl, rfl, ⟨rfl, rfl, rfl, rfl, fun i => by simp [DiskStore.array, freshStore]⟩,
    fun _ => ⟨rfl, rfl⟩, fun h => absurd rfl h⟩

/-- The live entries of the abstract log are those behind its snapshot, and the snapshot's index
answers the snapshot's term. -/
theorem Holds.window {r : LogArray} {a : AbsLog} (h : Holds r a) :
    (∀ i, (a.live i).isSome ↔ a.snapIdx < i ∧ i ≤ a.last) ∧
      a.termAt a.snapIdx = .term a.snapTerm :=
  ⟨h.isSome_live, if_pos rfl⟩

/-- One list of calls to a fresh `MemStore`, a fresh `DiskStore` and an empty abstract log: all three
give the same answers, and the log at the end is live from its snapshot's index on. -/
theorem stores_agree {cs : List LogCall} (hcs : ∀ c ∈ cs, c.Valid) :
    ∃ m d a os, (server MemStore.serve).run {} cs = some (m, os) ∧
      (server DiskStore.serve).run freshStore cs = some (d, os) ∧
      (server AbsLog.serve).run {} cs = some (a, os) ∧
      (∀ i, (a.live i).isSome ↔ a.snapIdx < i ∧ i ≤ a.last) ∧
      a.termAt a.snapIdx = .term a.snapTerm := by
  obtain ⟨m, a, os, hm, ha, hmem⟩ := Machine.run_bisim (R := MemHolds) (C := LogCall.Valid)
    (fun h hc => server_step (mem_simulates h hc).1 (mem_simulates h hc).2) memHolds_init hcs
  obtain ⟨d, a', os', hd, ha', -⟩ := Machine.run_bisim (R := DiskHolds) (C := LogCall.Valid)
    (fun h hc => server_step (disk_simulates h hc).1 (disk_simulates h hc).2) diskHolds_init hcs
  -- The abstract run is one run: both simulations end in the same log and show the same answers.
  obtain ⟨rfl, rfl⟩ : a = a' ∧ os = os' := Prod.mk.inj (Option.some.inj (ha.symm.trans ha'))
  exact ⟨m, d, a, os, hm, hd, ha, hmem.array.window⟩

/-- Appends, one of them truncating, compactions inside the log and behind its end, and refusals. -/
def storeCalls : List LogCall :=
  [.append [⟨1, 1, .normal, []⟩, ⟨2, 1, .normal, []⟩, ⟨3, 1, .normal, []⟩], .setState 2 1,
    .append [⟨3, 2, .normal, []⟩], .compact 2 1 [7], .entries 2 4, .entries 3 4, .term 2,
    .compact 9 3 [8], .append [⟨11, 3, .normal, []⟩], .snapshot, .lastIndex]

theorem stores_agree_truncated :
    ((server AbsLog.serve).run {} storeCalls).map Prod.snd =
        some [.done, .done, .done, .done, .refused .compacted, .entries [⟨3, 2, .normal, []⟩],
          .term 1, .done, .refused (.outside 11 9 10), .snapshot 9 3 [8], .index 9] ∧
      ∃ m d a os, (server MemStore.serve).run {} storeCalls = some (m, os) ∧
        (server DiskStore.serve).run freshStore storeCalls = some (d, os) ∧
        (server AbsLog.serve).run {} storeCalls = some (a, os) ∧
        (∀ i, (a.live i).isSome ↔ a.snapIdx < i ∧ i ≤ a.last) ∧
        a.termAt a.snapIdx = .term a.snapTerm :=
  ⟨by decide +kernel, stores_agree (by simp [storeCalls, LogCall.Valid])⟩

end Keystone.Raft
