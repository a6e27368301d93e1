/-
# Keystone.Raft.DiskReplay — what replaying records rebuilds.

The records a store ever wrote, in order, describe its log: `Runs m rs m'` is the abstract reading of
them, one `MemStore` operation a record.  Replaying ALL of them rebuilds that log (`Rebuilds`).  After a
compaction the oldest segments are gone, and a replay starts in the middle:

* `Lag B m P` — where a replay `P` of a suffix stands against the log `m` those records describe: it has
  seen no entry yet, or it holds the tail of the log from its own start on.  Such a replay is not
  caught up, but a snapshot at `B` will make it so (`Lag.compacted`);
* `Replayable` — the records on which that works: once the first entry is seen, nothing reaches below
  it before a snapshot has moved the start.  `Lag.run` and `Lag.stuck` say that this is EXACT.
-/
import Keystone.Raft.DiskStore
import Mathlib.Data.List.Induction

namespace Keystone.Raft

open Keystone.Lib
open Keystone.Storage (Fits)
open Function (update)

/-! ## The codec. -/

/-- What a record can carry: 64-bit numbers, and a payload whose length fits the header. -/
def Rec.Encodable : Rec → Prop
  | .entry e => e.index + 1 < 2 ^ 64 ∧ e.term < 2 ^ 64 ∧ e.data.length + 18 < 2 ^ 32
  | .state term vote => term < 2 ^ 64 ∧ vote < 2 ^ 64
  | .snapshot index term => index + 1 < 2 ^ 64 ∧ term < 2 ^ 64

instance Rec.Encodable.decide : DecidablePred Rec.Encodable
  | .entry e => inferInstanceAs
      (Decidable (e.index + 1 < 2 ^ 64 ∧ e.term < 2 ^ 64 ∧ e.data.length + 18 < 2 ^ 32))
  | .state term vote => inferInstanceAs (Decidable (term < 2 ^ 64 ∧ vote < 2 ^ 64))
  | .snapshot index term => inferInstanceAs (Decidable (index + 1 < 2 ^ 64 ∧ term < 2 ^ 64))

theorem u64_encode {n : ℕ} (h : n < 2 ^ 64) (pre rest : Bytes) :
    u64 (pre ++ (LittleEndian.encode 8 n ++ rest)) pre.length = n := by
  rw [u64, List.drop_left, List.take_left' (LittleEndian.length_encode ..)]
  exact LittleEndian.decode_encode_of_lt (by omega)

theorem u64_first {a : ℕ} (h : a < 2 ^ 64) (b : UInt8) (rest : Bytes) :
    u64 (b :: (LittleEndian.encode 8 a ++ rest)) 1 = a :=
  u64_encode h [b] rest

theorem u64_second {c : ℕ} (h : c < 2 ^ 64) (b : UInt8) (a : ℕ) (rest : Bytes) :
    u64 (b :: (LittleEndian.encode 8 a ++ (LittleEndian.encode 8 c ++ rest))) 9 = c := by
  have := u64_encode h (b :: LittleEndian.encode 8 a) rest
  simpa using this

theorem EntryType.ofByte_toByte (t : EntryType) : EntryType.ofByte t.toByte = some t := by
  cases t <;> rfl

/-- ROUND TRIP: a record that was written is read back as it was. -/
theorem Rec.decode_encode {r : Rec} (h : r.Encodable) : Rec.decode r.encode = .ok r := by
  cases r with
  | entry e =>
    obtain ⟨hi, ht, -⟩ := h
    have henc : (Rec.entry e).encode = 0x01 :: (LittleEndian.encode 8 e.index ++
        (LittleEndian.encode 8 e.term ++ e.type.toByte :: e.data)) := by
      simp [Rec.encode]
    have hlen : ¬(Rec.entry e).encode.length < 18 := by
      simp [henc]
      omega
    have hdrop : (Rec.entry e).encode.drop 17 = e.type.toByte :: e.data := by
      simp [henc, List.drop_append]
    have hdata : (Rec.entry e).encode.drop 18 = e.data := by
      rw [show (18 : ℕ) = 17 + 1 from rfl, ← List.drop_drop, hdrop]
      rfl
    have hindex : u64 (Rec.entry e).encode 1 = e.index := by
      rw [henc, u64_first (Nat.lt_of_succ_lt hi)]
    have hterm : u64 (Rec.entry e).encode 9 = e.term := by
      rw [henc, u64_second ht]
    show Rec.decodeEntry (Rec.entry e).encode = _
    rw [Rec.decodeEntry, if_neg hlen]
    simp only [hdrop, hdata, hindex, hterm, List.head?_cons, Option.bind_some,
      EntryType.ofByte_toByte]
  | state term vote =>
    have hterm : u64 (Rec.state term vote).encode 1 = term := u64_first h.1 ..
    have hvote : u64 (Rec.state term vote).encode 9 = vote := by
      simpa [Rec.encode] using u64_second h.2 0x02 term []
    show Rec.decodeState (Rec.state term vote).encode = _
    rw [Rec.decodeState, if_neg (by simp [Rec.encode]), hterm, hvote]
  | snapshot index term =>
    have hindex : u64 (Rec.snapshot index term).encode 1 = index :=
      u64_first (Nat.lt_of_succ_lt h.1) ..
    have hterm : u64 (Rec.snapshot index term).encode 9 = term := by
      simpa [Rec.encode] using u64_second h.2 0x03 index []
    show Rec.decodeSnapshot (Rec.snapshot index term).encode = _
    rw [Rec.decodeSnapshot, if_neg (by simp [Rec.encode]), hindex, hterm]

theorem Rec.fits {r : Rec} (h : r.Encodable) : Fits r.encode := by
  cases r with
  | entry e =>
    obtain ⟨-, -, hd⟩ := h
    refine ⟨by simp [Rec.encode], ?_⟩
    simp only [Rec.encode, List.length_cons, List.length_append, LittleEndian.length_encode]
    omega
  | state term vote => exact ⟨by simp [Rec.encode], by simp [Rec.encode]⟩
  | snapshot index term => exact ⟨by simp [Rec.encode], by simp [Rec.encode]⟩

theorem DiskStore.replay_encode {r : Rec} (h : r.Encodable) (seg : ℕ) (s : DiskStore) :
    DiskStore.replay seg s r.encode = s.replayRec seg r := by
  rw [DiskStore.replay, Rec.decode_encode h]
  rfl

/-! ## The log that records describe. -/

/-- A record as the abstract log takes it. -/
def Rec.apply (m : MemStore) : Rec → MemStore
  | .entry e => m.appendOne e
  | .state term vote => m.setState term vote
  | .snapshot index term => m.compact index term []

/-- A record the store may write at this log. -/
def Rec.Valid (m : MemStore) : Rec → Prop
  | .entry e => m.snapIdx < e.index ∧ e.index ≤ m.lastIndex + 1
  | .state _ _ => True
  | .snapshot index _ => m.snapIdx < index

/-- The records lead from one log to the other. -/
def Runs (m : MemStore) : List Rec → MemStore → Prop
  | [], m' => m = m'
  | r :: rs, m' => r.Valid m ∧ Runs (r.apply m) rs m'

theorem MemStore.appendOne_of_lt {m : MemStore} {e : Entry} (h : m.snapIdx < e.index) :
    m.appendOne e = { m with entries := m.entries.take (e.index - m.snapIdx - 1) ++ [e] } :=
  if_neg (Nat.not_le.mpr h)

theorem MemStore.compact_of_lt {m : MemStore} {index : ℕ} (h : m.snapIdx < index) (term : ℕ)
    (snap : Bytes) :
    m.compact index term snap =
      { m with
        entries := m.entries.drop (index - m.snapIdx), snapIdx := index, snapTerm := term
        snap := snap } := by
  rw [MemStore.compact, if_neg (Nat.not_le.mpr h)]
  split
  · rfl
  · next hle =>
    rw [MemStore.lastIndex] at hle
    rw [List.drop_of_length_le (by omega)]

theorem DiskStore.dropThrough_of_le {s : DiskStore} {index : ℕ} (h : s.base ≤ index) :
    s.dropThrough index =
      { s with entries := s.entries.drop (index - s.base), base := index } := by
  rw [DiskStore.dropThrough]
  split
  · next hle =>
    rw [DiskStore.last] at hle
    rw [List.drop_of_length_le (by omega)]
  · rfl

/-- An entry above the start and next to the log is pushed behind what it leaves standing. -/
theorem DiskStore.replayRec_entry {s : DiskStore} {e : Entry} (hsnap : s.snapIdx < e.index)
    (hbase : s.base < e.index) (hlast : e.index ≤ s.last + 1) (n : ℕ) :
    s.replayRec n (.entry e) =
      .ok (s.push n s.base (s.entries.take (e.index - s.base - 1)) e) := by
  rw [DiskStore.replayRec, if_neg (Nat.not_le.mpr hsnap), if_neg (by omega)]
  by_cases hle : e.index ≤ s.last
  · rw [if_pos hle, if_neg (Nat.not_le.mpr hbase)]
  · rw [if_neg hle, if_neg (by omega)]
    rw [DiskStore.last] at hle
    rw [List.take_of_length_le (by omega)]

theorem DiskStore.replayRec_snapshot {s : DiskStore} {index : ℕ} (h : s.base ≤ index) (n term : ℕ) :
    s.replayRec n (.snapshot index term) =
      .ok { s with
        entries := s.entries.drop (index - s.base), base := index, snapIdx := index
        snapTerm := term } := by
  rw [DiskStore.replayRec, if_neg (Nat.not_lt.mpr h), DiskStore.dropThrough_of_le h]

theorem Runs.append {m m₁ m₂ : MemStore} {rs rs' : List Rec} (h : Runs m rs m₁)
    (h' : Runs m₁ rs' m₂) : Runs m (rs ++ rs') m₂ := by
  induction rs generalizing m with
  | nil =>
    obtain rfl : m = m₁ := h
    exact h'
  | cons r rs ih => exact ⟨h.1, ih h.2⟩

theorem Runs.split {m m₂ : MemStore} {rs rs' : List Rec} (h : Runs m (rs ++ rs') m₂) :
    ∃ m₁, Runs m rs m₁ ∧ Runs m₁ rs' m₂ := by
  induction rs generalizing m with
  | nil => exact ⟨m, rfl, h⟩
  | cons r rs ih =>
    obtain ⟨m₁, h₁, h₂⟩ := ih h.2
    exact ⟨m₁, ⟨h.1, h₁⟩, h₂⟩

theorem Rec.lastIndex_apply {m : MemStore} {r : Rec} (h : r.Valid m) :
    (r.apply m).lastIndex =
      match r with
      | .entry e => e.index
      | .state _ _ => m.lastIndex
      | .snapshot index _ => max m.lastIndex index := by
  cases r with
  | entry e =>
    obtain ⟨h₁, h₂⟩ := h
    simp only [MemStore.lastIndex] at h₂
    simp only [Rec.apply, MemStore.appendOne_of_lt h₁, MemStore.lastIndex, List.length_append,
      List.length_take, List.length_singleton]
    omega
  | state term vote => rfl
  | snapshot index term =>
    have h : m.snapIdx < index := h
    simp only [Rec.apply, MemStore.compact_of_lt h, MemStore.lastIndex, List.length_drop]
    omega

theorem Rec.snapIdx_apply {m : MemStore} {r : Rec} (h : r.Valid m) :
    (r.apply m).snapIdx =
      match r with
      | .snapshot index _ => index
      | _ => m.snapIdx := by
  cases r with
  | entry e => rw [Rec.apply, MemStore.appendOne_of_lt h.1]
  | state term vote => rfl
  | snapshot index term => rw [Rec.apply, MemStore.compact_of_lt h]

theorem Runs.snapIdx_le {m m' : MemStore} {rs : List Rec} (h : Runs m rs m') :
    m.snapIdx ≤ m'.snapIdx := by
  induction rs generalizing m with
  | nil =>
    obtain rfl : m = m' := h
    exact le_rfl
  | cons r rs ih =>
    refine le_trans ?_ (ih h.2)
    rw [Rec.snapIdx_apply h.1]
    cases r with
    | snapshot index term => exact h.1.le
    | _ => exact le_rfl

/-- Term and vote stay within what a state record can carry. -/
theorem Runs.state {m m' : MemStore} {rs : List Rec} (h : Runs m rs m')
    (hrs : ∀ r ∈ rs, r.Encodable) (hm : (Rec.state m.term m.vote).Encodable) :
    (Rec.state m'.term m'.vote).Encodable := by
  induction rs generalizing m with
  | nil =>
    obtain rfl : m = m' := h
    exact hm
  | cons r rs ih =>
    obtain ⟨hr, hrs⟩ := List.forall_mem_cons.mp hrs
    apply ih h.2 hrs
    cases r with
    | entry e =>
      rw [Rec.apply, MemStore.appendOne_of_lt h.1.1]
      exact hm
    | state term vote => exact hr
    | snapshot index term =>
      rw [Rec.apply, MemStore.compact_of_lt h.1]
      exact hm

/-- Entries that follow each other, as the callers of `Append` pass them. -/
def Consecutive (es : List Entry) : Prop := es.IsChain fun e e' => e'.index = e.index + 1

/-- An append of consecutive entries is the run of its records. -/
theorem runs_append {m m' : MemStore} {es : List Entry} (hes : Consecutive es)
    (h : m.append es = .ok m') : Runs m (es.map .entry) m' := by
  induction es generalizing m with
  | nil =>
    cases h
    rfl
  | cons e es ih =>
    rw [MemStore.append] at h
    split at h
    · cases h
    · next hin =>
      have hm' := Except.ok.inj h
      rw [not_or, not_lt, not_le] at hin
      refine ⟨⟨hin.2, hin.1⟩, ?_⟩
      cases es with
      | nil =>
        rw [← hm', Rec.apply, MemStore.appendOne_of_lt hin.2]
        rfl
      | cons e' es =>
        obtain ⟨hnext, hes⟩ := List.isChain_cons_cons.mp hes
        have hlast : (m.appendOne e).lastIndex = e.index :=
          Rec.lastIndex_apply (r := .entry e) ⟨hin.2, hin.1⟩
        have hsnap : (m.appendOne e).snapIdx = m.snapIdx :=
          Rec.snapIdx_apply (r := .entry e) ⟨hin.2, hin.1⟩
        apply ih hes
        rw [MemStore.append, Rec.apply, if_neg (by rw [hlast, hsnap]; omega), ← hm']
        rw [MemStore.appendOne_of_lt hin.2]
        have hlen : (m.entries.take (e.index - m.snapIdx - 1) ++ [e]).length ≤
            e'.index - m.snapIdx - 1 := by
          simp only [List.length_append, List.length_take, List.length_singleton]
          omega
        rw [List.take_of_length_le hlen, List.append_assoc]
        rfl

/-- Of consecutive entries every prefix could have been appended alone. -/
theorem append_take {m m' : MemStore} {es : List Entry} (h : m.append es = .ok m') (n : ℕ) :
    ∃ m₁, m.append (es.take n) = .ok m₁ := by
  cases es with
  | nil => exact ⟨m', by simpa using h⟩
  | cons e es =>
    cases n with
    | zero => exact ⟨m, rfl⟩
    | succ n =>
      rw [MemStore.append] at h
      split at h
      · cases h
      · next hin => exact ⟨_, by rw [List.take_succ_cons, MemStore.append, if_neg hin]⟩

/-! ## Replaying tagged records. -/

/-- A record and the segment it is in. -/
abbrev Tagged := ℕ × Rec

def replayAll (P : DiskStore) (xs : List Tagged) : Except ReplayError DiskStore :=
  xs.foldlM (fun P x => P.replayRec x.1 x.2) P

@[simp]
theorem replayAll_nil (P : DiskStore) : replayAll P [] = .ok P := rfl

theorem replayAll_cons (P : DiskStore) (x : Tagged) (xs : List Tagged) :
    replayAll P (x :: xs) = (P.replayRec x.1 x.2).bind fun P => replayAll P xs :=
  List.foldlM_cons

theorem replayAll_append (P : DiskStore) (xs ys : List Tagged) :
    replayAll P (xs ++ ys) = (replayAll P xs).bind fun P => replayAll P ys :=
  List.foldlM_append

/-- What one record adds to `segMax`. -/
def noteMax (f : ℕ → Option ℕ) : Tagged → ℕ → Option ℕ
  | (n, .entry e) => update f n (some e.index)
  | (_, .state _ _) => f
  | (_, .snapshot _ _) => f

/-- The last entry index written in each segment. -/
def maxes (xs : List Tagged) : ℕ → Option ℕ := xs.foldl noteMax fun _ => none

theorem maxes_append (xs ys : List Tagged) : maxes (xs ++ ys) = ys.foldl noteMax (maxes xs) :=
  List.foldl_append

theorem foldl_noteMax_of_not_mem {n : ℕ} {xs : List Tagged} (h : ∀ x ∈ xs, x.1 ≠ n)
    (f : ℕ → Option ℕ) : xs.foldl noteMax f n = f n := by
  induction xs generalizing f with
  | nil => rfl
  | cons x xs ih =>
    obtain ⟨hx, hxs⟩ := List.forall_mem_cons.mp h
    rw [List.foldl_cons, ih hxs]
    obtain ⟨k, r⟩ := x
    cases r with
    | entry e => exact Function.update_of_ne hx.symm _ _
    | _ => rfl

theorem maxes_append_left {n : ℕ} {xs ys : List Tagged} (h : ∀ y ∈ ys, y.1 ≠ n) :
    maxes (xs ++ ys) n = maxes xs n := by
  rw [maxes_append, foldl_noteMax_of_not_mem h]

/-- A segment's last entry does not depend on what other segments hold. -/
theorem foldl_noteMax_congr {n : ℕ} {f g : ℕ → Option ℕ} (h : f n = g n) (xs : List Tagged) :
    xs.foldl noteMax f n = xs.foldl noteMax g n := by
  induction xs generalizing f g with
  | nil => exact h
  | cons x xs ih =>
    apply ih
    obtain ⟨k, r⟩ := x
    cases r with
    | entry e =>
      by_cases hk : n = k
      · simp [noteMax, hk]
      · simp [noteMax, hk, h]
    | _ => exact h

theorem maxes_append_right {n : ℕ} {xs ys : List Tagged} (h : ∀ x ∈ xs, x.1 ≠ n) :
    maxes (xs ++ ys) n = maxes ys n := by
  rw [maxes_append]
  exact foldl_noteMax_congr (foldl_noteMax_of_not_mem h _) ys

/-- How far the log reaches is told by the last entries of the segments. -/
theorem Runs.lastIndex_le {m m' : MemStore} {B : ℕ} {xs : List Tagged}
    (h : Runs m (xs.map Prod.snd) m') (hm : m.lastIndex ≤ B) (hm' : m'.snapIdx ≤ B)
    (hmax : ∀ x ∈ xs, ∀ k, maxes xs x.1 = some k → k ≤ B) : m'.lastIndex ≤ B := by
  induction xs using List.reverseRecOn generalizing m' with
  | nil =>
    obtain rfl : m = m' := h
    exact hm
  | append_singleton xs x ih =>
    rw [List.map_append] at h
    obtain ⟨m₁, h₁, hvalid, rfl⟩ := h.split
    have hmem : x ∈ xs ++ [x] := by simp
    rw [Rec.lastIndex_apply hvalid]
    rw [Rec.snapIdx_apply hvalid] at hm'
    obtain ⟨n, r⟩ := x
    cases r with
    | entry e =>
      refine hmax _ hmem _ ?_
      rw [maxes_append]
      exact Function.update_self ..
    | state term vote =>
      have hsame : maxes (xs ++ [(n, .state term vote)]) = maxes xs := by
        rw [maxes_append]
        rfl
      exact ih h₁ hm' fun y hy k hk => hmax y (List.mem_append_left _ hy) k (by rw [hsame, hk])
    | snapshot index term =>
      have hsame : maxes (xs ++ [(n, .snapshot index term)]) = maxes xs := by
        rw [maxes_append]
        rfl
      have hlt : m₁.snapIdx < index := hvalid
      have := ih h₁ (hlt.le.trans hm') fun y hy k hk =>
        hmax y (List.mem_append_left _ hy) k (by rw [hsame, hk])
      exact max_le this hm'

/-! ## Replays that have seen everything. -/

/-- The records rebuild the log `m`. -/
def Rebuilds (xs : List Tagged) (m : MemStore) : Prop :=
  ∃ P : DiskStore, replayAll {} xs = .ok P ∧ P.log = m ∧ P.base = P.snapIdx ∧ P.segMax = maxes xs

/-- One more record on a replay that is caught up. -/
theorem replayRec_caughtUp {P : DiskStore} (hbase : P.base = P.snapIdx) {x : Tagged}
    (hvalid : x.2.Valid P.log) :
    ∃ P', P.replayRec x.1 x.2 = .ok P' ∧ P'.log = x.2.apply P.log ∧ P'.base = P'.snapIdx ∧
      P'.segMax = noteMax P.segMax x := by
  obtain ⟨n, r⟩ := x
  cases r with
  | entry e =>
    obtain ⟨hlow, hhigh⟩ := hvalid
    have hlast : e.index ≤ P.last + 1 := by
      rw [DiskStore.last, hbase]
      exact hhigh
    refine ⟨_, DiskStore.replayRec_entry hlow (hbase.trans_lt hlow) hlast n, ?_, hbase, rfl⟩
    rw [Rec.apply, MemStore.appendOne_of_lt hlow]
    simp only [DiskStore.log, DiskStore.push, hbase]
  | state term vote => exact ⟨_, rfl, rfl, hbase, rfl⟩
  | snapshot index term =>
    have hlt : P.snapIdx < index := hvalid
    refine ⟨_, DiskStore.replayRec_snapshot (hbase.trans_le hlt.le) n term, ?_, rfl, rfl⟩
    rw [Rec.apply, MemStore.compact_of_lt hlt]
    simp only [DiskStore.log, hbase]

theorem Rebuilds.append {xs ys : List Tagged} {m m' : MemStore} (h : Rebuilds xs m)
    (hys : Runs m (ys.map Prod.snd) m') : Rebuilds (xs ++ ys) m' := by
  induction ys generalizing xs m with
  | nil =>
    obtain rfl : m = m' := hys
    rwa [List.append_nil]
  | cons y ys ih =>
    obtain ⟨P, hP, rfl, hbase, hmax⟩ := h
    obtain ⟨P', hP', hlog, hbase', hmax'⟩ := replayRec_caughtUp hbase hys.1
    rw [List.append_cons]
    refine ih ⟨P', ?_, hlog, hbase', ?_⟩ hys.2
    · rw [replayAll_append, hP]
      simp only [Except.bind, replayAll_cons, hP', replayAll_nil]
    · rw [hmax', hmax, maxes_append]
      rfl

/-! ## Replays that start in the middle. -/

/-- Nothing reaches below `first` before a snapshot moves the start of the log. -/
def StaysAbove (first : ℕ) : List Rec → Prop
  | [] => True
  | .entry e :: rs => first ≤ e.index ∧ StaysAbove first rs
  | .state _ _ :: rs => StaysAbove first rs
  | .snapshot index _ :: _ => first ≤ index + 1

/-- The records of the kept segments can be replayed from an empty store. -/
def Replayable : List Rec → Prop
  | [] => True
  | .entry e :: rs => StaysAbove e.index rs
  | .state _ _ :: rs => Replayable rs
  | .snapshot _ _ :: rs => Replayable rs

instance StaysAbove.decide (first : ℕ) : DecidablePred (StaysAbove first)
  | [] => isTrue trivial
  | .entry e :: rs =>
    have := StaysAbove.decide first rs
    inferInstanceAs (Decidable (first ≤ e.index ∧ StaysAbove first rs))
  | .state _ _ :: rs => StaysAbove.decide first rs
  | .snapshot index _ :: _ => inferInstanceAs (Decidable (first ≤ index + 1))

instance Replayable.decide : DecidablePred Replayable
  | [] => isTrue trivial
  | .entry e :: rs => StaysAbove.decide e.index rs
  | .state _ _ :: rs => Replayable.decide rs
  | .snapshot _ _ :: rs => Replayable.decide rs

/-- No entry seen yet; the log the records belong to reaches no further than `B`. -/
structure Empty (B : ℕ) (m : MemStore) (P : DiskStore) : Prop where
  entries : P.entries = []
  base : P.base = P.snapIdx
  snapIdx : P.snapIdx ≤ m.snapIdx
  bound : m.lastIndex ≤ B

/-- The tail of the log, from the replay's own start on. -/
structure Tail (B : ℕ) (m : MemStore) (P : DiskStore) : Prop where
  above : m.snapIdx ≤ P.base
  bound : P.base ≤ B
  within : P.base ≤ m.lastIndex
  entries : P.entries = m.entries.drop (P.base - m.snapIdx)
  snapIdx : P.snapIdx ≤ m.snapIdx

theorem Tail.last {B : ℕ} {m : MemStore} {P : DiskStore} (h : Tail B m P) : P.last = m.lastIndex := by
  have h₁ := h.above
  have h₂ := h.within
  simp only [MemStore.lastIndex] at h₂
  rw [DiskStore.last, h.entries, List.length_drop, MemStore.lastIndex]
  omega

/-- The first entry a replay sees becomes its start. -/
theorem Empty.entry {B : ℕ} {m : MemStore} {P : DiskStore} (h : Empty B m P) {e : Entry}
    (hvalid : (Rec.entry e).Valid m) (n : ℕ) :
    ∃ P', P.replayRec n (.entry e) = .ok P' ∧ Tail B (Rec.apply m (.entry e)) P' ∧
      P'.base + 1 = e.index ∧ P'.segMax = noteMax P.segMax (n, .entry e) := by
  obtain ⟨hlow, hhigh⟩ := hvalid
  have hb := h.bound
  have hs := h.snapIdx
  have hlast : P.last = P.snapIdx := by
    rw [DiskStore.last, h.entries, h.base]
    rfl
  have hlen : P.entries.length = 0 := by rw [h.entries, List.length_nil]
  refine ⟨P.push n (e.index - 1) [] e, ?_, ?_, Nat.sub_add_cancel (by omega), rfl⟩
  · by_cases hgap : e.index > P.last + 1
    · rw [DiskStore.replayRec, if_neg (by omega), if_pos ⟨hlen, hgap⟩]
    · have hbase : P.base = e.index - 1 := by
        rw [h.base]
        omega
      rw [DiskStore.replayRec_entry (by omega) (by omega) (by omega), h.entries, List.take_nil,
        hbase]
  · have hl := Rec.lastIndex_apply (r := .entry e) ⟨hlow, hhigh⟩
    have hsn := Rec.snapIdx_apply (r := .entry e) ⟨hlow, hhigh⟩
    refine ⟨hsn.trans_le (Nat.le_sub_one_of_lt hlow), ?_, hl.ge.trans' (Nat.sub_le ..), ?_,
      hsn.ge.trans' hs⟩
    · exact (Nat.sub_le_of_le_add hhigh).trans hb
    · rw [MemStore.lastIndex] at hhigh
      rw [Rec.apply, MemStore.appendOne_of_lt hlow]
      simp only [DiskStore.push, List.nil_append]
      rw [List.drop_left']
      rw [List.length_take]
      omega

theorem Empty.state {B : ℕ} {m : MemStore} {P : DiskStore} (h : Empty B m P) (term : ℕ)
    (vote : NodeID) : Empty B (m.setState term vote) { P with term := term, vote := vote } :=
  ⟨h.entries, h.base, h.snapIdx, h.bound⟩

theorem Empty.snapshot {B : ℕ} {m : MemStore} {P : DiskStore} (h : Empty B m P) {index : ℕ}
    (hvalid : m.snapIdx < index) (hB : index ≤ B) (n term : ℕ) :
    ∃ P', P.replayRec n (.snapshot index term) = .ok P' ∧ Empty B (m.compact index term []) P' ∧
      P'.segMax = P.segMax := by
  have hbase : P.base ≤ index := by
    rw [h.base]
    exact h.snapIdx.trans hvalid.le
  have hl := Rec.lastIndex_apply (m := m) (r := .snapshot index term) hvalid
  have hsn := Rec.snapIdx_apply (m := m) (r := .snapshot index term) hvalid
  refine ⟨_, DiskStore.replayRec_snapshot hbase n term, ⟨?_, rfl, hsn.ge, ?_⟩, rfl⟩
  · rw [h.entries]
    exact List.drop_nil
  · exact hl.trans_le (max_le h.bound hB)

/-- Behind its start a replay follows the log. -/
theorem Tail.entry {B : ℕ} {m : MemStore} {P : DiskStore} (h : Tail B m P) {e : Entry}
    (hvalid : (Rec.entry e).Valid m) (habove : P.base < e.index) (n : ℕ) :
    ∃ P', P.replayRec n (.entry e) = .ok P' ∧ Tail B (Rec.apply m (.entry e)) P' ∧
      P'.base = P.base ∧ P'.segMax = noteMax P.segMax (n, .entry e) := by
  obtain ⟨hlow, hhigh⟩ := hvalid
  have ha := h.above
  have hl := Rec.lastIndex_apply (r := .entry e) ⟨hlow, hhigh⟩
  have hsn := Rec.snapIdx_apply (r := .entry e) ⟨hlow, hhigh⟩
  have hlast : e.index ≤ P.last + 1 := by
    rw [h.last]
    exact hhigh
  refine ⟨_, DiskStore.replayRec_entry (h.snapIdx.trans_lt hlow) habove hlast n, ?_, rfl, rfl⟩
  refine ⟨hsn.trans_le ha, h.bound, hl.ge.trans' habove.le, ?_, hsn.ge.trans' h.snapIdx⟩
  rw [MemStore.lastIndex] at hhigh
  rw [Rec.apply, MemStore.appendOne_of_lt hlow]
  simp only [DiskStore.push]
  rw [List.drop_append_of_le_length (by rw [List.length_take]; omega), h.entries, List.drop_take]
  congr 2
  omega

theorem Tail.entry_below {B : ℕ} {m : MemStore} {P : DiskStore} (h : Tail B m P) {e : Entry}
    (hvalid : (Rec.entry e).Valid m) (hbelow : e.index ≤ P.base) (n : ℕ) :
    P.replayRec n (.entry e) = .error .sliceBounds := by
  have hsnap : P.snapIdx < e.index := h.snapIdx.trans_lt hvalid.1
  have hlast : P.base ≤ P.last := Nat.le_add_right ..
  rw [DiskStore.replayRec, if_neg (Nat.not_le.mpr hsnap), if_neg (by omega), if_pos (by omega),
    if_pos hbelow]

theorem Tail.state {B : ℕ} {m : MemStore} {P : DiskStore} (h : Tail B m P) (term : ℕ)
    (vote : NodeID) : Tail B (m.setState term vote) { P with term := term, vote := vote } :=
  ⟨h.above, h.bound, h.within, h.entries, h.snapIdx⟩

/-- A snapshot at or above its start lets a replay catch up. -/
theorem Tail.snapshot {B : ℕ} {m : MemStore} {P : DiskStore} (h : Tail B m P) {index : ℕ}
    (hvalid : m.snapIdx < index) (habove : P.base ≤ index) (hB : index ≤ B) (n term : ℕ) :
    ∃ P', P.replayRec n (.snapshot index term) = .ok P' ∧ Tail B (m.compact index term []) P' ∧
      P'.base = index ∧ P'.segMax = P.segMax := by
  have hl := Rec.lastIndex_apply (m := m) (r := .snapshot index term) hvalid
  have hsn := Rec.snapIdx_apply (m := m) (r := .snapshot index term) hvalid
  have ha := h.above
  refine ⟨_, DiskStore.replayRec_snapshot habove n term, ⟨hsn.le, hB, ?_, ?_, hsn.ge⟩, rfl, rfl⟩
  · exact hl.ge.trans' (le_max_right ..)
  · rw [MemStore.compact_of_lt hvalid]
    simp only [h.entries, Nat.sub_self, List.drop_drop]
    congr 1
    omega

/-! ### Whole runs of records. -/

/-- The first replayed record, and the rest. -/
theorem replayAll_of_head {P P₁ : DiskStore} {x : Tagged} {xs : List Tagged}
    (h : P.replayRec x.1 x.2 = .ok P₁) (hmax : P₁.segMax = noteMax P.segMax x) {R : DiskStore → Prop}
    (hrest : ∃ P', replayAll P₁ xs = .ok P' ∧ R P' ∧ P'.segMax = xs.foldl noteMax P₁.segMax) :
    ∃ P', replayAll P (x :: xs) = .ok P' ∧ R P' ∧ P'.segMax = (x :: xs).foldl noteMax P.segMax := by
  obtain ⟨P', hP', hR, hmax'⟩ := hrest
  refine ⟨P', ?_, hR, by rw [hmax', hmax, List.foldl_cons]⟩
  rw [replayAll_cons, h]
  exact hP'

/-- While nothing reaches below its start, or once the start is the snapshot, a replay keeps the tail. -/
theorem Tail.run {B : ℕ} {m m' : MemStore} {P : DiskStore} {xs : List Tagged} (h : Tail B m P)
    (hrun : Runs m (xs.map Prod.snd) m') (hB : m'.snapIdx ≤ B)
    (hsafe : P.base = m.snapIdx ∨ StaysAbove (P.base + 1) (xs.map Prod.snd)) :
    ∃ P', replayAll P xs = .ok P' ∧ Tail B m' P' ∧ P'.segMax = xs.foldl noteMax P.segMax := by
  induction xs generalizing m P with
  | nil =>
    obtain rfl : m = m' := hrun
    exact ⟨P, rfl, h, rfl⟩
  | cons x xs ih =>
    obtain ⟨n, r⟩ := x
    obtain ⟨hvalid, hrest⟩ := hrun
    have hsn := Rec.snapIdx_apply hvalid
    cases r with
    | entry e =>
      have habove : P.base < e.index := hsafe.elim (fun hb => hb.trans_lt hvalid.1) fun hs => hs.1
      obtain ⟨P₁, hP₁, hT, hbase, hmax⟩ := h.entry hvalid habove n
      refine replayAll_of_head hP₁ hmax (ih hT hrest ?_)
      rw [hbase, hsn]
      exact hsafe.imp id fun hs => hs.2
    | state term vote => exact ih (h.state term vote) hrest hsafe
    | snapshot index term =>
      have hindex : index ≤ B := (hsn.ge.trans hrest.snapIdx_le).trans hB
      have hlt : m.snapIdx < index := hvalid
      have habove : P.base ≤ index :=
        hsafe.elim (fun hb => hb.trans_le hlt.le) fun hs => Nat.le_of_succ_le_succ hs
      obtain ⟨P₁, hP₁, hT, hbase, hmax⟩ := h.snapshot hlt habove hindex n term
      exact replayAll_of_head hP₁ hmax (ih hT hrest (Or.inl (hbase.trans hsn.symm)))

/-- From an empty store, replayable records lead to the tail of their log, or are entries to none. -/
theorem Empty.run {B : ℕ} {m m' : MemStore} {P : DiskStore} {xs : List Tagged} (h : Empty B m P)
    (hrun : Runs m (xs.map Prod.snd) m') (hB : m'.snapIdx ≤ B)
    (hsafe : Replayable (xs.map Prod.snd)) :
    ∃ P', replayAll P xs = .ok P' ∧ (Empty B m' P' ∨ Tail B m' P') ∧
      P'.segMax = xs.foldl noteMax P.segMax := by
  induction xs generalizing m P with
  | nil =>
    obtain rfl : m = m' := hrun
    exact ⟨P, rfl, Or.inl h, rfl⟩
  | cons x xs ih =>
    obtain ⟨n, r⟩ := x
    obtain ⟨hvalid, hrest⟩ := hrun
    cases r with
    | entry e =>
      obtain ⟨P₁, hP₁, hT, hbase, hmax⟩ := h.entry hvalid n
      have hsafe : StaysAbove e.index (xs.map Prod.snd) := hsafe
      obtain ⟨P', hP', hT', hmax'⟩ := hT.run hrest hB (Or.inr (by rwa [hbase]))
      exact replayAll_of_head hP₁ hmax ⟨P', hP', Or.inr hT', hmax'⟩
    | state term vote => exact ih (h.state term vote) hrest hsafe
    | snapshot index term =>
      have hsn := Rec.snapIdx_apply hvalid
      have hindex : index ≤ B := (hsn.ge.trans hrest.snapIdx_le).trans hB
      obtain ⟨P₁, hP₁, hE, hmax⟩ := h.snapshot hvalid hindex n term
      exact replayAll_of_head hP₁ hmax (ih hE hrest hsafe)

theorem replayAll_cons_error {P P₁ : DiskStore} {x : Tagged} {xs : List Tagged}
    (h : P.replayRec x.1 x.2 = .ok P₁) (hrest : ∃ e, replayAll P₁ xs = .error e) :
    ∃ e, replayAll P (x :: xs) = .error e := by
  obtain ⟨e, he⟩ := hrest
  refine ⟨e, ?_⟩
  rw [replayAll_cons, h]
  exact he

theorem replayAll_head_error {P : DiskStore} {x : Tagged} {e : ReplayError}
    (h : P.replayRec x.1 x.2 = .error e) (xs : List Tagged) :
    ∃ e, replayAll P (x :: xs) = .error e := by
  refine ⟨e, ?_⟩
  rw [replayAll_cons, h]
  rfl

/-- A record that reaches below the start stops the replay. -/
theorem Tail.stuck {B : ℕ} {m m' : MemStore} {P : DiskStore} {xs : List Tagged} (h : Tail B m P)
    (hrun : Runs m (xs.map Prod.snd) m') (hbad : ¬StaysAbove (P.base + 1) (xs.map Prod.snd)) :
    ∃ e, replayAll P xs = .error e := by
  induction xs generalizing m P with
  | nil => exact absurd trivial hbad
  | cons x xs ih =>
    obtain ⟨n, r⟩ := x
    obtain ⟨hvalid, hrest⟩ := hrun
    cases r with
    | entry e =>
      by_cases habove : P.base < e.index
      · obtain ⟨P₁, hP₁, hT, hbase, -⟩ := h.entry hvalid habove n
        refine replayAll_cons_error hP₁ (ih hT hrest ?_)
        rw [hbase]
        exact fun hs => hbad ⟨habove, hs⟩
      · exact replayAll_head_error (h.entry_below hvalid (Nat.not_lt.mp habove) n) xs
    | state term vote => exact replayAll_cons_error rfl (ih (h.state term vote) hrest hbad)
    | snapshot index term =>
      have hlt : index < P.base := by
        have : ¬P.base + 1 ≤ index + 1 := hbad
        omega
      have hstop : P.replayRec n (.snapshot index term) = .error (.belowStart index (P.base + 1)) :=
        if_pos hlt
      exact replayAll_head_error hstop xs

theorem Empty.stuck {B : ℕ} {m m' : MemStore} {P : DiskStore} {xs : List Tagged} (h : Empty B m P)
    (hrun : Runs m (xs.map Prod.snd) m') (hB : m'.snapIdx ≤ B)
    (hbad : ¬Replayable (xs.map Prod.snd)) : ∃ e, replayAll P xs = .error e := by
  induction xs generalizing m P with
  | nil => exact absurd trivial hbad
  | cons x xs ih =>
    obtain ⟨n, r⟩ := x
    obtain ⟨hvalid, hrest⟩ := hrun
    cases r with
    | entry e =>
      obtain ⟨P₁, hP₁, hT, hbase, -⟩ := h.entry hvalid n
      have hbad : ¬StaysAbove e.index (xs.map Prod.snd) := hbad
      exact replayAll_cons_error hP₁ (hT.stuck hrest (by rwa [hbase]))
    | state term vote => exact replayAll_cons_error rfl (ih (h.state term vote) hrest hbad)
    | snapshot index term =>
      have hsn := Rec.snapIdx_apply hvalid
      have hindex : index ≤ B := (hsn.ge.trans hrest.snapIdx_le).trans hB
      obtain ⟨P₁, hP₁, hE, -⟩ := h.snapshot hvalid hindex n term
      exact replayAll_cons_error hP₁ (ih hE hrest hbad)

/-- The store `OpenDiskStore` starts from has seen nothing of any log. -/
theorem empty_start {B : ℕ} {m : MemStore} (h : m.lastIndex ≤ B) : Empty B m {} :=
  ⟨rfl, rfl, Nat.zero_le _, h⟩

/-- What `Compact` writes makes every replay that stands against its log catch up. -/
theorem replay_compact {B : ℕ} {m : MemStore} {P : DiskStore} (h : Empty B m P ∨ Tail B m P)
    (hB : m.snapIdx < B) (n term : ℕ) :
    ∃ P', replayAll P [(n, .snapshot B term), (n, .state m.term m.vote)] = .ok P' ∧
      P'.log = m.compact B term [] ∧ P'.base = P'.snapIdx ∧ P'.segMax = P.segMax := by
  have hcut : P.base ≤ B ∧ P.entries.drop (B - P.base) = m.entries.drop (B - m.snapIdx) := by
    rcases h with h | h
    · have hbase := h.base
      have hs := h.snapIdx
      have hb := h.bound
      rw [MemStore.lastIndex] at hb
      refine ⟨by omega, ?_⟩
      rw [h.entries, List.drop_nil, List.drop_of_length_le (by omega)]
    · have ha := h.above
      have hb := h.bound
      refine ⟨hb, ?_⟩
      rw [h.entries, List.drop_drop]
      congr 1
      omega
  refine ⟨{ P with
      entries := P.entries.drop (B - P.base), base := B, snapIdx := B, snapTerm := term
      term := m.term, vote := m.vote }, ?_, ?_, rfl, rfl⟩
  · rw [replayAll_cons, DiskStore.replayRec_snapshot hcut.1]
    rfl
  · rw [MemStore.compact_of_lt hB]
    simp only [DiskStore.log, hcut.2]

/-- A SUFFIX of the records, with the ones `Compact` writes behind it, rebuilds the compacted log. -/
theorem rebuilds_suffix {B : ℕ} {m₀ m : MemStore} {xs : List Tagged} (hm₀ : m₀.lastIndex ≤ B)
    (hrun : Runs m₀ (xs.map Prod.snd) m) (hB : m.snapIdx < B) (h : Replayable (xs.map Prod.snd))
    (n term : ℕ) :
    Rebuilds (xs ++ [(n, .snapshot B term), (n, .state m.term m.vote)]) (m.compact B term []) := by
  obtain ⟨P, hP, hstage, hmax⟩ := (empty_start hm₀).run hrun hB.le h
  obtain ⟨P', hP', hlog, hbase, hmax'⟩ := replay_compact hstage hB n term
  refine ⟨P', ?_, hlog, hbase, ?_⟩
  · rw [replayAll_append, hP]
    exact hP'
  · rw [hmax', hmax, maxes_append]
    rfl

theorem suffix_stuck {B : ℕ} {m₀ m : MemStore} {xs ys : List Tagged} (hm₀ : m₀.lastIndex ≤ B)
    (hrun : Runs m₀ (xs.map Prod.snd) m) (hB : m.snapIdx < B)
    (h : ¬Replayable (xs.map Prod.snd)) : ∃ e, replayAll {} (xs ++ ys) = .error e := by
  obtain ⟨e, he⟩ := (empty_start hm₀).stuck hrun hB.le h
  refine ⟨e, ?_⟩
  rw [replayAll_append, he]
  rfl

end Keystone.Raft
