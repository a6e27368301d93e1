/-
# Keystone.Storage.TableFiles — the engine's tables and their files.

In `Storage.Engine` a table is the list of its decoded entries, and a reader looks for a key with
`Tiers.lookup` and iterates from `Tiers.seek` on.  The code reads bytes.  `table_file` says that the two are
the same: the file that is written of an orderly table opens, and its `get` and `seek` answer with the cells
that `lookup` and `seek` of the list give.  Sequence numbers are below `2 ^ 56`, and the filter is one that
can be built (`Storage.TableRoundTrip`).
-/
import Keystone.Storage.EngineVersions
import Keystone.Storage.TableRoundTrip

namespace Keystone.Storage

open Keystone.Lib
open Keystone.Lib.Slices (Checked)

variable {crc : Bytes → UInt32} {blockSize : ℤ} {t : List KeyVersion} {key : Key} {seq : ℕ}

/-- A version as the entry of a table file. -/
def fileEntry (e : KeyVersion) : Bytes × Bytes := (internalKeyOf e, e.val)

/-- What `table.get` makes of the version it finds: the value, `found` and `deleted`. -/
def answerOf : Option KeyVersion → Bytes × Bool × Bool
  | none => ([], false, false)
  | some e => if kindOf e = kindDelete then ([], true, true) else (e.val, true, false)

theorem ver_lt {e : KeyVersion} (h : seqOf e < 2 ^ 56) : e.ver < 2 ^ 64 := by
  unfold seqOf at h
  omega

/-- The test of the binary search is the order of the cells. -/
theorem below_fileEntry {e : KeyVersion} (he : seqOf e < 2 ^ 56) (hseq : seq < 2 ^ 56) :
    BlockIter.below (makeInternalKey key seq kindPut) (fileEntry e) = e.before key (trailer seq kindPut) := by
  unfold BlockIter.below fileEntry
  rw [makeInternalKey_eq key seq kindPut [], compareInternalKey_eq (ver_lt he) (trailer_lt hseq)]
  unfold Tiers.Cell.cmp Tiers.Cell.before
  cases (compare e.key key).then (compare (trailer seq kindPut) e.ver) <;> rfl

theorem dropWhile_below (ht : ∀ e ∈ t, seqOf e < 2 ^ 56) (hseq : seq < 2 ^ 56) :
    (t.map fileEntry).dropWhile (BlockIter.below (makeInternalKey key seq kindPut)) =
      (Tiers.seek key (trailer seq kindPut) t).map fileEntry := by
  unfold Tiers.seek
  induction t with
  | nil => rfl
  | cons e t ih =>
    obtain ⟨he, ht⟩ := List.forall_mem_cons.mp ht
    rw [List.map_cons, List.dropWhile_cons, List.dropWhile_cons, below_fileEntry he hseq]
    split
    · exact ih ht
    · rfl

/-- The first cell from the target on decides, in the file and in the list. -/
theorem found_fileEntry (ht : ∀ e ∈ t, seqOf e < 2 ^ 56) :
    TableFile.found key ((Tiers.seek key (trailer seq kindPut) t).map fileEntry) =
      answerOf (Tiers.lookup key (trailer seq kindPut) t) := by
  have hsub : ∀ e ∈ Tiers.seek key (trailer seq kindPut) t, e.ver < 2 ^ 64 := fun e he =>
    ver_lt (ht e ((List.dropWhile_sublist _).subset he))
  unfold Tiers.lookup
  cases hs : Tiers.seek key (trailer seq kindPut) t with
  | nil => rfl
  | cons e l =>
    rw [hs] at hsub
    have hsplit := splitInternalKey_internalKeyOf (hsub e List.mem_cons_self)
    rw [List.map_cons, TableFile.found, show (fileEntry e).1 = internalKeyOf e from rfl, hsplit]
    by_cases hk : e.key = key
    · simp [hk, answerOf, fileEntry]
    · simp [hk, answerOf]

/-- The entries of an orderly table are what a table file is written of. -/
theorem Orderly.fileEntries (h : Orderly t) (ht : ∀ e ∈ t, seqOf e < 2 ^ 56) :
    (∀ kv ∈ t.map fileEntry, InternalKey kv.1) ∧ SortedKeys (t.map fileEntry) := by
  refine ⟨List.forall_mem_map.mpr fun e he => ⟨?_, ?_⟩, List.pairwise_map.mpr ?_⟩
  · rw [show (fileEntry e).1 = internalKeyOf e from rfl, internalKeyOf, List.length_append,
      BigEndian.length_encode]
    omega
  · rw [show (fileEntry e).1 = internalKeyOf e from rfl, splitInternalKey_internalKeyOf (ver_lt (ht e he))]
    unfold kindOf
    rcases Nat.le_one_iff_eq_zero_or_eq_one.mp (h.clean e he).kind with h0 | h1
    · exact .inl (by rw [h0]; rfl)
    · exact .inr (by rw [h1]; rfl)
  · refine h.strict.imp_of_mem fun {a b} ha hb hab => ?_
    exact (compareInternalKey_eq (ver_lt (ht a ha)) (ver_lt (ht b hb))).trans hab

/-- An open file reads as the list of cells. -/
structure ReadsCells (crc : Bytes → UInt32) (f : TableFile) (t : List KeyVersion) : Prop where
  scan : Runs crc f (·.seekToFirst crc) (t.map fileEntry) true
  seek : ∀ key seq, seq < 2 ^ 56 → Runs crc f (·.seek crc (makeInternalKey key seq kindPut))
    ((Tiers.seek key (trailer seq kindPut) t).map fileEntry) true
  get : ∀ key seq, seq < 2 ^ 56 →
    f.get crc key seq = Checked.done (.ok (answerOf (Tiers.lookup key (trailer seq kindPut) t)))

theorem ReadsBack.cells {f : TableFile} (h : ReadsBack crc f (t.map fileEntry)) (ht : Orderly t)
    (hseqs : ∀ e ∈ t, seqOf e < 2 ^ 56) : ReadsCells crc f t where
  scan := h.scan
  seek key seq hseq := by
    rw [← dropWhile_below hseqs hseq]
    exact h.seek _ (TableFile.length_makeInternalKey key seq kindPut)
  get key seq hseq := by
    obtain ⟨hkeys, hsorted⟩ := ht.fileEntries hseqs
    obtain ⟨hfound, hnone⟩ := @found_newest (t.map fileEntry) key seq hkeys hsorted hseq
    rw [← found_fileEntry hseqs, ← dropWhile_below hseqs hseq]
    by_cases hnew : ∃ kv, Newest (t.map fileEntry) key seq kv
    · obtain ⟨kv, hnew⟩ := hnew
      rw [hfound kv hnew]
      exact (h.get key seq hseq).1 kv hnew
    · have hno : ∀ kv, ¬ Newest (t.map fileEntry) key seq kv := fun kv hkv => hnew ⟨kv, hkv⟩
      rw [hnone hno]
      exact (h.get key seq hseq).2 hno

/-- THE FILE OF A TABLE.  An orderly table of the engine, in blocks below 4 GiB of a file that fits in memory
and with a filter that can be built, is written, opens, and reads as its cells. -/
theorem table_file (ht : Orderly t) (hseqs : ∀ e ∈ t, seqOf e < 2 ^ 56)
    (hblocks : ∀ b ∈ tableBlocks blockSize (t.map fileEntry), b.length < 2 ^ 32)
    (hlen : ∀ bytes tableMeta, writeTable crc blockSize (t.map fileEntry) = some (bytes, tableMeta) →
      bytes.length < 2 ^ 63)
    (hbits : bloomBytes t.length % 2 ^ 29 ≠ 0) :
    ∃ bytes tableMeta f, writeTable crc blockSize (t.map fileEntry) = some (bytes, tableMeta) ∧
      openTableBytes crc bytes = .ok f ∧ ReadsCells crc f t := by
  obtain ⟨hkeys, hsorted⟩ := ht.fileEntries hseqs
  obtain ⟨bytes, tableMeta, f, hwrite, hopen, hreads⟩ :=
    roundTrip_of_bits hkeys hsorted hblocks hlen (by rw [List.length_map]; exact hbits)
  exact ⟨bytes, tableMeta, f, hwrite, hopen, hreads.cells ht hseqs⟩

/-- Two versions of one key, and another key that was deleted. -/
def smallTable : List KeyVersion :=
  [⟨[1], trailer 3 kindPut, [7]⟩, ⟨[1], trailer 1 kindPut, [5]⟩, ⟨[2], trailer 2 kindDelete, []⟩]

theorem table_file_small :
    ∃ bytes tableMeta f, writeTable checksum 4096 (smallTable.map fileEntry) = some (bytes, tableMeta) ∧
      openTableBytes checksum bytes = .ok f ∧ ReadsCells checksum f smallTable := by
  have horderly : Orderly smallTable := by
    refine ⟨by unfold Tiers.Strict; decide, fun e he => ⟨?_, ?_⟩⟩
    · exact (by decide : ∀ e ∈ smallTable, e.key ≠ []) e he
    · exact (by decide : ∀ e ∈ smallTable, e.ver % 256 ≤ 1) e he
  have hshort : Short (smallTable.map fileEntry) := by unfold Short; decide
  exact table_file horderly (by decide) (@tableBlocks_short checksum _ hshort (by decide)).1
    (fun _ _ => length_writeTable_short hshort (by decide)) (by decide)

end Keystone.Storage
