/-
# Keystone.Raft.DiskSegments — the records of consecutively numbered segments.

`files` are the segment files that hold given records, `tagged` are the same records with their segment
numbers, which is what a replay sees.  A directory holds records when its files do, up to a torn record
at the end (`OnDisk`); replaying the directory is then replaying the records (`replaySegments_onDisk`),
for any callback, so that reading them out (`recordsIn`) and rebuilding the store are one lemma.
-/
import Keystone.Raft.DiskReplay

namespace Keystone.Raft

open Keystone.Lib
open Keystone.Storage (Segment replaySegments Holds Fits Contents segmentOf foldContents encodeRecords
  writeLast nextNum)

/-! ## Segments of records. -/

/-- The records of consecutive segments, encoded. -/
def numbered (first : ℕ) : List (List Rec) → Contents
  | [] => []
  | rs :: h => (first, rs.map Rec.encode) :: numbered (first + 1) h

def files (first : ℕ) (h : List (List Rec)) : List Segment := (numbered first h).map segmentOf

/-- The records of consecutive segments, each with its segment. -/
def tagged (first : ℕ) : List (List Rec) → List Tagged
  | [] => []
  | rs :: h => rs.map (Prod.mk first) ++ tagged (first + 1) h

def AllEncodable (h : List (List Rec)) : Prop := ∀ rs ∈ h, ∀ r ∈ rs, r.Encodable

theorem numbered_append (first : ℕ) (h h' : List (List Rec)) :
    numbered first (h ++ h') = numbered first h ++ numbered (first + h.length) h' := by
  induction h generalizing first with
  | nil => rfl
  | cons rs h ih =>
    simp only [List.cons_append, numbered, ih, List.length_cons]
    rw [Nat.add_right_comm, Nat.add_assoc]

theorem files_append (first : ℕ) (h h' : List (List Rec)) :
    files first (h ++ h') = files first h ++ files (first + h.length) h' := by
  rw [files, numbered_append, List.map_append]
  rfl

theorem tagged_append (first : ℕ) (h h' : List (List Rec)) :
    tagged first (h ++ h') = tagged first h ++ tagged (first + h.length) h' := by
  induction h generalizing first with
  | nil => rfl
  | cons rs h ih =>
    simp only [List.cons_append, tagged, ih, List.length_cons, List.append_assoc]
    rw [Nat.add_right_comm, Nat.add_assoc]

@[simp]
theorem length_files (first : ℕ) (h : List (List Rec)) : (files first h).length = h.length := by
  induction h generalizing first with
  | nil => rfl
  | cons rs h ih =>
    have := ih (first + 1)
    simpa [files, numbered] using this

@[simp]
theorem tagged_snd (first : ℕ) (h : List (List Rec)) : (tagged first h).map Prod.snd = h.flatten := by
  induction h generalizing first with
  | nil => rfl
  | cons rs h ih => simp [tagged, ih, Function.comp_def]

theorem tagged_bounds {first : ℕ} {h : List (List Rec)} {x : Tagged} (hx : x ∈ tagged first h) :
    first ≤ x.1 ∧ x.1 < first + h.length := by
  induction h generalizing first with
  | nil => simp [tagged] at hx
  | cons rs h ih =>
    rw [List.length_cons]
    rcases List.mem_append.mp hx with hx | hx
    · obtain ⟨r, -, rfl⟩ := List.mem_map.mp hx
      simp
    · have := ih hx
      omega

theorem tagged_split (first : ℕ) {k : ℕ} {h : List (List Rec)} (hk : k ≤ h.length) :
    tagged first h = tagged first (h.take k) ++ tagged (first + k) (h.drop k) := by
  conv_lhs => rw [← List.take_append_drop k h]
  rw [tagged_append, List.length_take, Nat.min_eq_left hk]

theorem files_drop (first k : ℕ) (h : List (List Rec)) :
    (files first h).drop k = files (first + k) (h.drop k) := by
  induction h generalizing first k with
  | nil => simp [files, numbered]
  | cons rs h ih =>
    cases k with
    | zero => rfl
    | succ k =>
      have := ih (first + 1) k
      rw [Nat.add_right_comm, Nat.add_assoc] at this
      exact this

/-- Consecutive segments below a number are the first ones. -/
theorem files_filter_lt (first keep : ℕ) (h : List (List Rec)) :
    (files first h).filter (·.num < keep) = (files first h).take (keep - first) := by
  induction h generalizing first with
  | nil => simp [files, numbered]
  | cons rs h ih =>
    have hcons : files first (rs :: h) =
      ⟨first, encodeRecords (rs.map Rec.encode)⟩ :: files (first + 1) h := rfl
    rw [hcons]
    by_cases hlt : first < keep
    · obtain ⟨t, ht⟩ : ∃ t, keep - first = t + 1 := ⟨keep - first - 1, by omega⟩
      rw [List.filter_cons_of_pos (by simpa using hlt), ih, ht, List.take_succ_cons]
      congr 2
      omega
    · rw [List.filter_cons_of_neg (by simpa using hlt), ih,
        show keep - first = 0 by omega, show keep - (first + 1) = 0 by omega]
      rfl

theorem files_filter_ne (first : ℕ) (rs : List Rec) (h : List (List Rec)) :
    (files first (rs :: h)).filter (·.num ≠ first) = files (first + 1) h := by
  have hcons : files first (rs :: h) =
    ⟨first, encodeRecords (rs.map Rec.encode)⟩ :: files (first + 1) h := rfl
  have hne : ∀ n, first < n → (files n h).filter (·.num ≠ first) = files n h := by
    intro n hn
    induction h generalizing n with
    | nil => rfl
    | cons rs h ih =>
      have hcons : files n (rs :: h) =
        ⟨n, encodeRecords (rs.map Rec.encode)⟩ :: files (n + 1) h := rfl
      rw [hcons, List.filter_cons_of_pos (by simp; omega), ih rfl (n + 1) (by omega)]
  rw [hcons, List.filter_cons_of_neg (by simp), hne _ (Nat.lt_succ_self _)]

theorem nextNum_append (gs : List Segment) (g : Segment) : nextNum (gs ++ [g]) = g.num + 1 := by
  simp [nextNum]

theorem nextNum_files {first : ℕ} {h : List (List Rec)} (hne : h ≠ []) :
    nextNum (files first h) = first + h.length := by
  obtain ⟨h', rs, rfl⟩ := List.eq_nil_or_concat h |>.resolve_left hne
  rw [List.concat_eq_append, files_append]
  show nextNum (files first h' ++ [⟨first + h'.length, _⟩]) = _
  rw [nextNum_append, List.length_append]
  rfl

/-! ## Reading the directory. -/

/-- The directory holds exactly these records, and perhaps a torn one behind them. -/
def OnDisk (first : ℕ) (kept : List (List Rec)) (d : Disk) : Prop :=
  ∃ h last bs, kept = h ++ [last] ∧ d.segs = files first h ++ [⟨first + h.length, bs⟩] ∧
    Holds bs (last.map Rec.encode)

theorem OnDisk.of_files {first : ℕ} {kept : List (List Rec)} {d : Disk} (hne : kept ≠ [])
    (h : d.segs = files first kept) : OnDisk first kept d := by
  obtain ⟨h', rs, rfl⟩ := List.eq_nil_or_concat kept |>.resolve_left hne
  rw [List.concat_eq_append] at h ⊢
  refine ⟨h', rs, encodeRecords (rs.map Rec.encode), rfl, ?_, .of_eq rfl⟩
  rw [h, files_append]
  rfl

theorem fits_numbered {h : List (List Rec)} (henc : AllEncodable h) (first : ℕ) :
    ∀ c ∈ numbered first h, ∀ p ∈ c.2, Fits p := by
  induction h generalizing first with
  | nil => simp [numbered]
  | cons rs h ih =>
    obtain ⟨hrs, hh⟩ := List.forall_mem_cons.mp henc
    refine List.forall_mem_cons.mpr ⟨fun p hp => ?_, ih hh (first + 1)⟩
    obtain ⟨r, hr, rfl⟩ := List.mem_map.mp hp
    exact Rec.fits (hrs r hr)

section Fold

variable {S : Type} {f : ℕ → S → Bytes → Except ReplayError S} {g : ℕ → S → Rec → Except ReplayError S}

/-- A callback that reads encoded records is a callback on records. -/
theorem foldContents_numbered (hfg : ∀ r : Rec, r.Encodable → ∀ n s, f n s r.encode = g n s r)
    {h : List (List Rec)} (henc : AllEncodable h) (first : ℕ) (s : S) :
    foldContents f (numbered first h) s = (tagged first h).foldlM (fun s x => g x.1 s x.2) s := by
  have hseg : ∀ (n : ℕ) (rs : List Rec), (∀ r ∈ rs, r.Encodable) → ∀ s,
      (rs.map Rec.encode).foldlM (f n) s = (rs.map (Prod.mk n)).foldlM (fun s x => g x.1 s x.2) s := by
    intro n rs hrs
    induction rs with
    | nil => exact fun s => rfl
    | cons r rs ih =>
      obtain ⟨hr, hrs⟩ := List.forall_mem_cons.mp hrs
      intro s
      simp only [List.map_cons, List.foldlM_cons, hfg r hr]
      congr 1
      exact funext (ih hrs)
  induction h generalizing first s with
  | nil => rfl
  | cons rs h ih =>
    obtain ⟨hrs, hh⟩ := List.forall_mem_cons.mp henc
    rw [numbered, Storage.foldContents_cons, hseg first rs hrs, tagged, List.foldlM_append]
    congr 1
    exact funext (ih hh (first + 1))

/-- Replaying a directory is replaying the records it holds. -/
theorem replaySegments_onDisk (hfg : ∀ r : Rec, r.Encodable → ∀ n s, f n s r.encode = g n s r)
    {first : ℕ} {kept : List (List Rec)} {d : Disk} (hd : OnDisk first kept d)
    (henc : AllEncodable kept) (s : S) :
    replaySegments f d.segs s =
      match (tagged first kept).foldlM (fun s x => g x.1 s x.2) s with
      | .error e => .error (.replay e)
      | .ok s' => .ok (s', files first kept) := by
  obtain ⟨h, last, bs, rfl, hsegs, hbs⟩ := hd
  have hlast : ∀ p ∈ last.map Rec.encode, Fits p := by
    intro p hp
    obtain ⟨r, hr, rfl⟩ := List.mem_map.mp hp
    exact Rec.fits (henc last (by simp) r hr)
  have hh : AllEncodable h := fun rs hrs => henc rs (List.mem_append_left _ hrs)
  have hnum : numbered first h ++ [(first + h.length, last.map Rec.encode)] =
      numbered first (h ++ [last]) := by
    rw [numbered_append]
    rfl
  rw [hsegs, files, Storage.replaySegments_of_records (fits_numbered hh first) hlast hbs, hnum,
    foldContents_numbered hfg henc]
  cases (tagged first (h ++ [last])).foldlM (fun s x => g x.1 s x.2) s with
  | error e => rfl
  | ok s' => rfl

end Fold

def collect (_ : ℕ) (rs : List Rec) (p : Bytes) : Except ReplayError (List Rec) :=
  (Rec.decode p).map fun r => rs ++ [r]

/-- The records in some segments. -/
def recordsIn (gs : List Segment) : List Rec :=
  match replaySegments collect gs [] with
  | .error _ => []
  | .ok (rs, _) => rs

theorem recordsIn_files {h : List (List Rec)} (henc : AllEncodable h) (first : ℕ) :
    recordsIn (files first h) = h.flatten := by
  by_cases hne : h = []
  · subst hne
    rfl
  have hcollect : ∀ r : Rec, r.Encodable → ∀ n rs, collect n rs r.encode = .ok (rs ++ [r]) := by
    intro r hr n rs
    rw [collect, Rec.decode_encode hr]
    rfl
  have hfold : ∀ (xs : List Tagged) (acc : List Rec),
      xs.foldlM (fun rs x => (Except.ok (rs ++ [x.2]) : Except ReplayError (List Rec))) acc =
        .ok (acc ++ xs.map Prod.snd) := by
    intro xs
    induction xs with
    | nil =>
      intro acc
      simp
      rfl
    | cons x xs ih =>
      intro acc
      rw [List.foldlM_cons]
      refine (ih (acc ++ [x.2])).trans ?_
      simp
  have := replaySegments_onDisk (d := { segs := files first h }) hcollect
    (OnDisk.of_files hne rfl) henc []
  rw [recordsIn, this, hfold, tagged_snd]
  rfl

end Keystone.Raft
