/-
# Keystone.Storage.TableRoundTrip — what is written into a table is read from it, if its filter is built.

A table gives back its entries from the start, from a target on, and the newest version of a single key
(`ReadsBack`).  The one thing that can go wrong is the filter: `table_round_trip` says that a table is read
back exactly if the filter's number of bits is not a multiple of 2^32.  The smallest table for which it is
has 429496729 entries (`denseTable`).
-/
import Keystone.Storage.TableFormat

namespace Keystone.Storage

open Keystone.Lib
open Keystone.Lib.Slices (Checked)

variable {crc : Bytes → UInt32} {blockSize : ℤ}

/-! ## Reading it back. -/

/-- A key with a trailer, of a version that is a put or a deletion. -/
structure InternalKey (ik : Bytes) : Prop where
  length : trailerSize ≤ ik.length
  kind : (splitInternalKey ik).2.2 = kindDelete ∨ (splitInternalKey ik).2.2 = kindPut

/-- The newest version of `key` with a sequence number up to `seq`. -/
structure Newest (kvs : List (Bytes × Bytes)) (key : Bytes) (seq : ℕ) (kv : Bytes × Bytes) : Prop where
  mem : kv ∈ kvs
  user : (splitInternalKey kv.1).1 = key
  visible : (splitInternalKey kv.1).2.1 ≤ seq
  newest : ∀ kv' ∈ kvs, (splitInternalKey kv'.1).1 = key → (splitInternalKey kv'.1).2.1 ≤ seq →
    trailerOf kv'.1 ≤ trailerOf kv.1

/-- What `get` returns of a version: the value, `found` and `deleted`. -/
def answer (kv : Bytes × Bytes) : Bytes × Bool × Bool :=
  if (splitInternalKey kv.1).2.2 = kindDelete then ([], true, true) else (kv.2, true, false)

/-- The table gives back its entries: all of them, those from a target on, and the newest version of each
key. -/
structure ReadsBack (crc : Bytes → UInt32) (t : TableFile) (kvs : List (Bytes × Bytes)) : Prop where
  scan : Runs crc t (·.seekToFirst crc) kvs true
  seek : ∀ target : Bytes, trailerSize ≤ target.length →
    Runs crc t (·.seek crc target) (kvs.dropWhile (BlockIter.below target)) true
  get : ∀ key seq, seq < 2 ^ 56 →
    (∀ kv, Newest kvs key seq kv → t.get crc key seq = Checked.done (.ok (answer kv))) ∧
      ((∀ kv, ¬ Newest kvs key seq kv) → t.get crc key seq = Checked.done (.ok ([], false, false)))

/-- Writing a table and opening it again. -/
def RoundTrip (crc : Bytes → UInt32) (blockSize : ℤ) (kvs : List (Bytes × Bytes)) : Prop :=
  ∃ bytes tableMeta t, writeTable crc blockSize kvs = some (bytes, tableMeta) ∧
    openTableBytes crc bytes = .ok t ∧ ReadsBack crc t kvs

theorem compare_self_key (k : Bytes) : compare k k = .eq := Std.ReflCmp.compare_self

/-- A version of the key is not below the target of its `get` exactly if it may be seen. -/
theorem below_target {kv : Bytes × Bytes} {key : Bytes} {seq : ℕ} (hk : InternalKey kv.1)
    (hseq : seq < 2 ^ 56) :
    BlockIter.below (makeInternalKey key seq kindPut) kv = false ↔
      compare (userKey kv.1) key = .gt ∨ (userKey kv.1 = key ∧ trailerOf kv.1 / 256 ≤ seq) := by
  have huser : userKey (makeInternalKey key seq kindPut) = key :=
    userKey_internalKeyOf ⟨key, trailer seq kindPut, []⟩
  have htrailer : trailerOf (makeInternalKey key seq kindPut) = trailer seq kindPut :=
    @trailerOf_internalKeyOf ⟨key, trailer seq kindPut, []⟩ (trailer_lt hseq)
  have hkind : trailerOf kv.1 % 256 ≤ 1 := by
    have hlt : trailerOf kv.1 % 256 < 256 := Nat.mod_lt _ (by decide)
    have hof : (UInt8.ofNat (trailerOf kv.1 % 256)).toNat = trailerOf kv.1 % 256 := by
      rw [UInt8.toNat_ofNat']
      omega
    rcases hk.kind with h | h
    · have : UInt8.ofNat (trailerOf kv.1 % 256) = 0 := h
      rw [this] at hof
      exact hof ▸ Nat.zero_le 1
    · have : UInt8.ofNat (trailerOf kv.1 % 256) = 1 := h
      rw [this] at hof
      exact hof ▸ Nat.le_refl 1
  have htr : trailer seq kindPut = seq * 256 + 1 := rfl
  unfold BlockIter.below compareInternalKey
  rw [huser, htrailer, htr]
  cases hcmp : compare (userKey kv.1) key with
  | lt =>
    have hne : userKey kv.1 ≠ key := by
      intro h
      rw [h, compare_self_key] at hcmp
      cases hcmp
    simp [hne]
  | gt => simp
  | eq =>
    have heq : userKey kv.1 = key := Std.LawfulEqCmp.eq_of_compare hcmp
    simp only [Ordering.eq_then, beq_eq_false_iff_ne, ne_eq, Nat.compare_eq_lt]
    constructor
    · intro h
      exact .inr ⟨heq, by omega⟩
    · rintro (h | ⟨-, h⟩)
      · cases h
      · omega

/-- The first entry that is not below the target of a `get` is the newest version of its key, or there is
none. -/
theorem found_newest {kvs : List (Bytes × Bytes)} {key : Bytes} {seq : ℕ}
    (hkeys : ∀ kv ∈ kvs, InternalKey kv.1) (hs : SortedKeys kvs) (hseq : seq < 2 ^ 56) :
    (∀ kv, Newest kvs key seq kv → TableFile.found key
      (kvs.dropWhile (BlockIter.below (makeInternalKey key seq kindPut))) = answer kv) ∧
    ((∀ kv, ¬ Newest kvs key seq kv) → TableFile.found key
      (kvs.dropWhile (BlockIter.below (makeInternalKey key seq kindPut))) = ([], false, false)) := by
  -- a version that may be seen is not below the target, so it is not in front of it
  have hafter : ∀ kv ∈ kvs, userKey kv.1 = key → trailerOf kv.1 / 256 ≤ seq →
      kv ∈ kvs.dropWhile (BlockIter.below (makeInternalKey key seq kindPut)) := by
    intro kv hkv huser hvis
    have hnot := (below_target (hkeys kv hkv) hseq).mpr (.inr ⟨huser, hvis⟩)
    rw [← List.takeWhile_append_dropWhile (p := BlockIter.below (makeInternalKey key seq kindPut)) (l := kvs)]
      at hkv
    rcases List.mem_append.mp hkv with hfront | hback
    · rw [List.mem_takeWhile_imp hfront] at hnot
      cases hnot
    · exact hback
  have hs' : SortedKeys (kvs.dropWhile (BlockIter.below (makeInternalKey key seq kindPut))) :=
    hs.sublist (List.dropWhile_sublist _)
  cases hes : kvs.dropWhile (BlockIter.below (makeInternalKey key seq kindPut)) with
  | nil =>
    rw [hes] at hafter
    exact ⟨fun kv h => absurd (hafter kv h.mem h.user h.visible) List.not_mem_nil, fun _ => rfl⟩
  | cons e es =>
    rw [hes] at hafter hs'
    obtain ⟨hlt, -⟩ := List.pairwise_cons.mp hs'
    have hmem : e ∈ kvs := by
      have : e ∈ kvs.dropWhile (BlockIter.below (makeInternalKey key seq kindPut)) := by
        rw [hes]
        exact List.mem_cons_self
      exact (List.dropWhile_sublist _).subset this
    have hhead : BlockIter.below (makeInternalKey key seq kindPut) e = false := by
      have := List.head?_dropWhile_not (BlockIter.below (makeInternalKey key seq kindPut)) kvs
      rw [hes] at this
      simpa using this
    rcases (below_target (hkeys e hmem) hseq).mp hhead with hgt | ⟨huser, hvis⟩
    · -- the key has no version that may be seen
      have hnone : ∀ kv, ¬ Newest kvs key seq kv := by
        intro kv h
        have hcmp : compare (userKey e.1) (userKey kv.1) = .gt := by
          rw [show userKey kv.1 = key from h.user]
          exact hgt
        rcases List.mem_cons.mp (hafter kv h.mem h.user h.visible) with rfl | hkv
        · rw [compare_self_key] at hcmp
          cases hcmp
        · have := hlt kv hkv
          rw [compareInternalKey, hcmp] at this
          cases this
      refine ⟨fun kv h => absurd h (hnone kv), fun _ => ?_⟩
      have hne : (splitInternalKey e.1).1 ≠ key := by
        intro h
        rw [show userKey e.1 = key from h, compare_self_key] at hgt
        cases hgt
      rw [TableFile.found, if_pos hne]
    · -- the versions behind it are older
      have hold : ∀ kv ∈ es, userKey kv.1 = key → trailerOf kv.1 < trailerOf e.1 := by
        intro kv hkv hk
        have := hlt kv hkv
        rw [compareInternalKey, huser, hk, compare_self_key, Ordering.eq_then,
          Nat.compare_eq_lt] at this
        exact this
      have hnewest : Newest kvs key seq e := by
        refine ⟨hmem, huser, hvis, fun kv hkv hk hv => ?_⟩
        rcases List.mem_cons.mp (hafter kv hkv hk hv) with rfl | hin
        · exact Nat.le_refl _
        · exact (hold kv hin hk).le
      refine ⟨fun kv h => ?_, fun h => absurd hnewest (h e)⟩
      have hkv : kv = e := by
        rcases List.mem_cons.mp (hafter kv h.mem h.user h.visible) with rfl | hin
        · rfl
        · have hle := h.newest e hmem huser hvis
          have := hold kv hin h.user
          omega
      have huser' : (splitInternalKey e.1).1 = key := huser
      rw [hkv, TableFile.found, if_neg (not_not.mpr huser')]
      rfl

theorem mem_tableBlocks_data {kvs g : List (Bytes × Bytes)} (h : g ∈ groupsOf blockSize kvs) :
    blockBytes g ∈ tableBlocks blockSize kvs :=
  List.mem_append_left _ (List.mem_map_of_mem h)

theorem mem_tableBlocks_index (blockSize : ℤ) (kvs : List (Bytes × Bytes)) :
    indexBytes blockSize kvs ∈ tableBlocks blockSize kvs :=
  List.mem_append_right _ (List.mem_singleton_self _)

theorem length_fileBytes (crc : Bytes → UInt32) (blockSize : ℤ) (kvs : List (Bytes × Bytes))
    (bloom : Bytes) : (fileBytes crc blockSize kvs bloom).length =
      (sealedAll crc (groupsOf blockSize kvs)).length + (indexBytes blockSize kvs).length + 4 +
        bloom.length + 4 + footerSize := by
  unfold fileBytes
  simp only [List.length_append, length_sealed, length_footer]
  omega

/-- The file is opened with the index and the filter that were written. -/
theorem openTableBytes_fileBytes {kvs : List (Bytes × Bytes)} {bloom : Bytes}
    (hlen : (fileBytes crc blockSize kvs bloom).length < 2 ^ 63) :
    openTableBytes crc (fileBytes crc blockSize kvs bloom) =
      .ok ⟨fileBytes crc blockSize kvs bloom, indexBytes blockSize kvs, bloom⟩ := by
  rw [length_fileBytes] at hlen
  refine openTableBytes_footer ⟨?_, ?_⟩ ⟨?_, ?_⟩ ?_ ?_
  · show (sealedAll crc (groupsOf blockSize kvs)).length < _
    omega
  · show (indexBytes blockSize kvs).length < _
    omega
  · show (sealedAll crc (groupsOf blockSize kvs)).length + (indexBytes blockSize kvs).length + 4 < _
    omega
  · show bloom.length < _
    omega
  · rw [List.append_assoc, List.append_assoc, ← List.append_assoc]
    exact readBlock_sealed _ _ _
  · have hoff : (sealedAll crc (groupsOf blockSize kvs)).length + (indexBytes blockSize kvs).length + 4 =
        (sealedAll crc (groupsOf blockSize kvs) ++ sealed crc (indexBytes blockSize kvs)).length := by
      rw [List.length_append, length_sealed, Nat.add_assoc]
    rw [hoff]
    exact readBlock_sealed _ _ _

/-- A table that was written reads back. -/
theorem readsBack_fileBytes {kvs : List (Bytes × Bytes)} {bloom : Bytes}
    (hkeys : ∀ kv ∈ kvs, InternalKey kv.1) (hs : SortedKeys kvs)
    (hblocks : ∀ b ∈ tableBlocks blockSize kvs, b.length < 2 ^ 32)
    (hlen : (fileBytes crc blockSize kvs bloom).length < 2 ^ 63)
    (hbits : bloom.length = 1 + bloomBytes kvs.length) (hbloom : bloomBytes kvs.length % 2 ^ 29 ≠ 0)
    (hhit : ∀ kv ∈ kvs, mayContain bloom (userKey kv.1) = some true) :
    ReadsBack crc ⟨fileBytes crc blockSize kvs bloom, indexBytes blockSize kvs, bloom⟩ kvs := by
  have hflat : (groupsOf blockSize kvs).flatten = kvs := flatten_cutBlocks blockSize [] kvs
  have hmem : ∀ g ∈ groupsOf blockSize kvs, ∀ kv ∈ g, kv ∈ kvs := by
    intro g hg kv hkv
    rw [← hflat]
    exact List.mem_flatten.mpr ⟨g, hg, hkv⟩
  have hne : ∀ g ∈ groupsOf blockSize kvs, g ≠ [] := cutBlocks_ne_nil
  have hs' : SortedKeys (groupsOf blockSize kvs).flatten := by
    rw [hflat]
    exact hs
  have hleads : Leads crc (fileBytes crc blockSize kvs bloom) (indexFrom 0 (groupsOf blockSize kvs))
      (groupsOf blockSize kvs) := by
    have hsplit : fileBytes crc blockSize kvs bloom = [] ++ sealedAll crc (groupsOf blockSize kvs) ++
        (sealed crc (indexBytes blockSize kvs) ++ sealed crc bloom ++ TableWriter.footer
          ⟨(sealedAll crc (groupsOf blockSize kvs)).length, (indexBytes blockSize kvs).length⟩
          ⟨(sealedAll crc (groupsOf blockSize kvs)).length + (indexBytes blockSize kvs).length + 4,
            bloom.length⟩) := by
      unfold fileBytes
      simp only [List.append_assoc, List.nil_append]
    rw [hsplit] at hlen ⊢
    exact leads_indexFrom hlen (fun g hg => hblocks _ (mem_tableBlocks_data hg))
      fun g hg kv hkv => (hkeys kv (hmem g hg kv hkv)).length
  have hindexKeys := hleads.keys hne fun g hg kv hkv => (hkeys kv (hmem g hg kv hkv)).length
  obtain ⟨idx, hidx, hholds⟩ := blockBytes_holds
    (hblocks _ (mem_tableBlocks_index blockSize kvs)) hindexKeys
  have hidx : newBlockIter (indexBytes blockSize kvs) = Checked.done (.ok idx) := hidx
  have hfile : (indexBytes blockSize kvs).length ≤ (fileBytes crc blockSize kvs bloom).length := by
    rw [length_fileBytes]
    omega
  have hsane : Sane crc ⟨fileBytes crc blockSize kvs bloom, indexBytes blockSize kvs, bloom⟩ := by
    refine ⟨.inr (.inr ?_), fun idx' hidx' r hr => ?_⟩
    · show (bloom.length - 1) % 2 ^ 29 ≠ 0
      rw [hbits, Nat.add_sub_cancel_left]
      exact hbloom
    · obtain rfl := Except.ok.inj (Option.some.inj (hidx.symm.trans hidx'))
      rcases List.mem_cons.mp hr with rfl | hr
      · exact ⟨_, hholds.start, hleads.tame⟩
      · obtain ⟨i, hi⟩ := List.mem_iff_getElem?.mp hr
        obtain ⟨n, hw, -⟩ := hholds.restart i r hi
        exact ⟨_, hw, fun e he => hleads.tame e (List.mem_of_mem_drop he)⟩
  have hsorted := hleads.sorted hne hs'
  -- what a seek leads to
  have hseek : ∀ {target : Bytes} {ies es : List (Bytes × Bytes)} {ok : Bool},
      SeekFinds target idx ies true →
      Enters crc (fileBytes crc blockSize kvs bloom) (SeekFinds target) ies es ok →
        es = kvs.dropWhile (BlockIter.below target) ∧ ok = true := by
    intro target ies es ok hfrom hent
    obtain ⟨rfl, -⟩ := hholds.fromRestart hsorted hfrom.1
    obtain ⟨gs', hleads', hin, heq⟩ := hleads.dropWhile hne hs'
    have hsgs : ∀ g ∈ gs', SortedKeys g := fun g hg => (List.pairwise_flatten.mp hs').1 g (hin g hg)
    obtain ⟨hok, hes⟩ := hleads'.enters hsgs hent
    rw [hflat] at heq
    exact ⟨hes.trans heq.symm, hok⟩
  refine ⟨?_, fun target ht => ?_, fun key seq hseq => ?_⟩
  · obtain ⟨ies, es, ok, hw, hreads, hruns⟩ := TableFile.runs_seekToFirst hsane hlen hfile hidx
    obtain ⟨rfl, -⟩ := hw.unique hholds.start
    obtain ⟨rfl, rfl⟩ := hreads.unique hleads.reads
    rwa [hflat] at hruns
  · obtain ⟨ies, es, ok, hfrom, hent, hruns⟩ := TableFile.runs_seek hsane hlen hfile hidx ht
    obtain ⟨rfl, rfl⟩ := hseek hfrom hent
    exact hruns
  · rcases hsane.get hlen hfile key seq with
      ⟨hmiss, hget⟩ | ⟨e, herr, -⟩ | ⟨idx', ies, es, ok, hidx', hfrom, hent, hget⟩
    · -- no version of the key is in the table
      refine ⟨fun kv h => ?_, fun _ => hget⟩
      have := hhit kv h.mem
      rw [show userKey kv.1 = key from h.user] at this
      cases this.symm.trans hmiss
    · cases hidx.symm.trans herr
    · obtain rfl := Except.ok.inj (Option.some.inj (hidx.symm.trans hidx'))
      obtain ⟨rfl, rfl⟩ := hseek hfrom hent
      obtain ⟨hfound, hnone⟩ := @found_newest kvs key seq hkeys hs hseq
      rcases hget with ⟨-, hfalse, -⟩ | ⟨-, hget⟩
      · cases hfalse
      · exact ⟨fun kv h => by rw [hget, hfound kv h], fun h => by rw [hget, hnone h]⟩

/-- With a filter that can be built the table is written and read back. -/
theorem roundTrip_of_bits {kvs : List (Bytes × Bytes)} (hkeys : ∀ kv ∈ kvs, InternalKey kv.1)
    (hs : SortedKeys kvs) (hblocks : ∀ b ∈ tableBlocks blockSize kvs, b.length < 2 ^ 32)
    (hlen : ∀ bytes tableMeta, writeTable crc blockSize kvs = some (bytes, tableMeta) →
      bytes.length < 2 ^ 63) (hmod : bloomBytes kvs.length % 2 ^ 29 ≠ 0) : RoundTrip crc blockSize kvs := by
  have hw := writeTable_eq crc blockSize kvs
  obtain ⟨bloom, hbuild, hbits, hhit⟩ := @mayContain_buildBloom (kvs.map fun kv => userKey kv.1)
    (by rw [List.length_map]; exact hmod)
  rw [List.length_map] at hbits
  rw [hbuild] at hw
  obtain ⟨⟨bytes, tableMeta⟩, hwrite, hbytes⟩ := Option.map_eq_some_iff.mp hw
  obtain rfl : bytes = fileBytes crc blockSize kvs bloom := hbytes
  have hshort := hlen _ _ hwrite
  exact ⟨_, tableMeta, _, hwrite, openTableBytes_fileBytes hshort,
    readsBack_fileBytes hkeys hs hblocks hshort hbits hmod fun kv hkv =>
      hhit _ (List.mem_map_of_mem hkv)⟩

/-- **Round trip.**  Entries with internal keys in strict order, in blocks below 4 GiB of a file that fits
in memory, are read back from the table that was written of them, exactly if the filter has a number of
bytes that is not a multiple of 2^29. -/
theorem table_round_trip {kvs : List (Bytes × Bytes)} (hkeys : ∀ kv ∈ kvs, InternalKey kv.1)
    (hs : SortedKeys kvs) (hblocks : ∀ b ∈ tableBlocks blockSize kvs, b.length < 2 ^ 32)
    (hlen : ∀ bytes tableMeta, writeTable crc blockSize kvs = some (bytes, tableMeta) →
      bytes.length < 2 ^ 63) :
    RoundTrip crc blockSize kvs ↔ bloomBytes kvs.length % 2 ^ 29 ≠ 0 := by
  refine ⟨?_, roundTrip_of_bits hkeys hs hblocks hlen⟩
  rintro ⟨bytes, tableMeta, t, hwrite, -, -⟩ hmod
  have hw := writeTable_eq crc blockSize kvs
  rw [hwrite, buildBloom_panics (by rw [List.length_map]; exact hmod)] at hw
  cases hw

/-! ## How large a table gets. -/

theorem length_encode_le {n k : ℕ} (hk : 0 < k) (h : n < 128 ^ k) : (Uvarint.encode n).length ≤ k := by
  induction k generalizing n with
  | zero => omega
  | succ k ih =>
    rw [Uvarint.encode]
    split
    · exact hk
    · next hbig =>
      rw [Nat.pow_succ] at h
      have hpos : 0 < k := by
        by_contra h0
        obtain rfl : k = 0 := by omega
        omega
      rw [List.length_cons]
      exact Nat.succ_le_succ (ih hpos (Nat.div_lt_of_lt_mul (by omega)))

theorem BlockBuilder.length_finish (b : BlockBuilder) : b.finish.length = b.size := by
  rw [BlockBuilder.finish, BlockBuilder.size, List.length_append, List.length_append,
    length_flatMap_encode, LittleEndian.length_encode]

/-- An entry of short strings takes one byte for each length, and perhaps a restart point. -/
theorem BlockBuilder.size_add_le (b : BlockBuilder) {k v : Bytes} (hk : k.length < 128) (hv : v.length < 128) :
    (b.add k v).size ≤ b.size + (7 + k.length + v.length) := by
  have hs := sharedAt_le b.count b.lastKey k
  have h₁ := @length_encode_le (sharedAt b.count b.lastKey k) 1 (by decide) (by omega)
  have h₂ := @length_encode_le (k.length - sharedAt b.count b.lastKey k) 1 (by decide) (by omega)
  have h₃ := @length_encode_le v.length 1 (by decide) (by omega)
  rw [BlockBuilder.add_eq]
  simp only [BlockBuilder.size, List.length_append, encodeEntry, List.length_drop]
  split
  · rw [List.length_singleton]
    omega
  · rw [List.length_nil]
    omega

/-- Keys and values of at most a hundred bytes. -/
def Short (kvs : List (Bytes × Bytes)) : Prop := ∀ kv ∈ kvs, kv.1.length ≤ 100 ∧ kv.2.length ≤ 100

theorem BlockBuilder.size_addAll_le (b : BlockBuilder) {c : ℕ} {kvs : List (Bytes × Bytes)}
    (h : ∀ kv ∈ kvs, kv.1.length < 128 ∧ kv.2.length < 128 ∧ 7 + kv.1.length + kv.2.length ≤ c) :
    (b.addAll kvs).size ≤ b.size + c * kvs.length := by
  induction kvs generalizing b with
  | nil => exact Nat.le_refl _
  | cons kv kvs ih =>
    obtain ⟨⟨hk, hv, hc⟩, hkvs⟩ := List.forall_mem_cons.mp h
    have hadd := b.size_add_le hk hv
    have hrest := ih (b.add kv.1 kv.2) hkvs
    have hfold : b.addAll (kv :: kvs) = (b.add kv.1 kv.2).addAll kvs := rfl
    rw [hfold, List.length_cons, Nat.mul_succ]
    omega

theorem length_blockBytes (g : List (Bytes × Bytes)) :
    (blockBytes g).length = (BlockBuilder.addAll {} g).size := BlockBuilder.length_finish _

theorem size_snoc_le {cur : List (Bytes × Bytes)} {kv : Bytes × Bytes} (hk : kv.1.length ≤ 100)
    (hv : kv.2.length ≤ 100) :
    (BlockBuilder.addAll {} (cur ++ [kv])).size ≤ (BlockBuilder.addAll {} cur).size + 207 := by
  have hadd := (BlockBuilder.addAll {} cur).size_add_le (k := kv.1) (v := kv.2) (by omega) (by omega)
  rw [BlockBuilder.addAll_append]
  exact hadd.trans (by omega)

/-- A block is written as soon as it has grown to its size. -/
theorem size_cutBlocks {cur kvs : List (Bytes × Bytes)} (h : Short kvs)
    (hcur : (BlockBuilder.addAll {} cur).size < 4096) :
    ∀ g ∈ cutBlocks 4096 cur kvs, (BlockBuilder.addAll {} g).size < 4303 := by
  induction kvs generalizing cur with
  | nil =>
    unfold cutBlocks
    split
    · exact fun _ hg => absurd hg List.not_mem_nil
    · exact fun g hg => List.mem_singleton.mp hg ▸ (by omega)
  | cons kv kvs ih =>
    obtain ⟨⟨hk, hv⟩, hkvs⟩ := List.forall_mem_cons.mp h
    have hsize := @size_snoc_le cur kv hk hv
    unfold cutBlocks
    split
    · exact List.forall_mem_cons.mpr ⟨by omega, ih hkvs (by decide)⟩
    · next hsmall => exact ih hkvs (by omega)

/-- A block that was written had many entries, so there are not many blocks. -/
theorem length_cutBlocks {cur kvs : List (Bytes × Bytes)} (h : Short (cur ++ kvs)) :
    4092 * (cutBlocks 4096 cur kvs).length ≤ 207 * (cur ++ kvs).length + 4092 := by
  induction kvs generalizing cur with
  | nil =>
    unfold cutBlocks
    split
    · exact Nat.zero_le _
    · rw [List.length_singleton]
      omega
  | cons kv kvs ih =>
    have happ : cur ++ kv :: kvs = (cur ++ [kv]) ++ kvs := by simp
    rw [happ] at h ⊢
    unfold cutBlocks
    split
    · next hsize =>
      have hrest := @ih [] fun kv hkv => h kv (List.mem_append_right _ hkv)
      have hfull := @BlockBuilder.size_addAll_le {} 207 (cur ++ [kv]) fun x hx => by
        have := h x (List.mem_append_left _ hx)
        omega
      have hnew : (BlockBuilder.size {}) = 4 := rfl
      rw [List.nil_append] at hrest
      rw [List.length_cons, List.length_append]
      omega
    · exact ih h

/-- The index entries of blocks at places below 2^64. -/
theorem indexFrom_short {off : ℕ} {gs : List (List (Bytes × Bytes))}
    (hoff : off + (sealedAll crc gs).length < 2 ^ 64) (hne : ∀ g ∈ gs, g ≠ []) (h : ∀ g ∈ gs, Short g) :
    ∀ e ∈ indexFrom off gs, e.1.length ≤ 100 ∧ e.2.length ≤ 20 := by
  induction gs generalizing off with
  | nil => exact fun _ he => absurd he List.not_mem_nil
  | cons g gs ih =>
    obtain ⟨hg, hgs⟩ := List.forall_mem_cons.mp hne
    obtain ⟨hshort, hshorts⟩ := List.forall_mem_cons.mp h
    rw [length_sealedAll_cons] at hoff
    obtain ⟨kv, hkv, hlast⟩ := lastKeyOf_mem hg
    have h₁ := @length_encode_le off 10 (by decide) (by omega)
    have h₂ := @length_encode_le (blockBytes g).length 10 (by decide) (by omega)
    refine List.forall_mem_cons.mpr ⟨⟨?_, ?_⟩, ih (by omega) hgs hshorts⟩
    · show (lastKeyOf [] g).length ≤ 100
      rw [hlast]
      exact (hshort kv hkv).1
    · show (Uvarint.encode off ++ Uvarint.encode (blockBytes g).length).length ≤ 20
      rw [List.length_append]
      omega

theorem length_sealedAll_le {gs : List (List (Bytes × Bytes))} (h : ∀ g ∈ gs, (blockBytes g).length < 4303) :
    (sealedAll crc gs).length ≤ 4307 * gs.length := by
  induction gs with
  | nil => exact Nat.zero_le _
  | cons g gs ih =>
    obtain ⟨hg, hgs⟩ := List.forall_mem_cons.mp h
    have := ih hgs
    rw [length_sealedAll_cons, List.length_cons]
    omega

/-- Short entries, not more than 429496729 of them, in blocks of 4096 bytes: no block comes near 4 GiB. -/
theorem tableBlocks_short {kvs : List (Bytes × Bytes)} (h : Short kvs) (hn : kvs.length ≤ 429496729) :
    (∀ b ∈ tableBlocks 4096 kvs, b.length < 2 ^ 32) ∧
      (sealedAll crc (groupsOf 4096 kvs)).length < 2 ^ 40 := by
  have hdata : ∀ g ∈ groupsOf 4096 kvs, (blockBytes g).length < 4303 := by
    intro g hg
    rw [length_blockBytes]
    exact size_cutBlocks h (by decide) g hg
  have hcount : 4092 * (groupsOf 4096 kvs).length ≤ 207 * kvs.length + 4092 := @length_cutBlocks [] kvs h
  have hsealed : (sealedAll crc (groupsOf 4096 kvs)).length ≤ 4307 * (groupsOf 4096 kvs).length :=
    length_sealedAll_le hdata
  have hgroup : ∀ g ∈ groupsOf 4096 kvs, Short g := by
    intro g hg kv hkv
    have hflat : (groupsOf 4096 kvs).flatten = kvs := flatten_cutBlocks 4096 [] kvs
    refine h kv ?_
    rw [← hflat]
    exact List.mem_flatten.mpr ⟨g, hg, hkv⟩
  have hplaces : 0 + (sealedAll crc (groupsOf 4096 kvs)).length < 2 ^ 64 := by omega
  have hindex := indexFrom_short hplaces (fun g hg => cutBlocks_ne_nil g hg) hgroup
  have hlen : (indexFrom 0 (groupsOf 4096 kvs)).length = (groupsOf 4096 kvs).length := by
    generalize groupsOf 4096 kvs = gs
    generalize 0 = off
    induction gs generalizing off with
    | nil => rfl
    | cons g gs ih => rw [indexFrom, List.length_cons, List.length_cons, ih]
  refine ⟨fun b hb => ?_, by omega⟩
  rcases List.mem_append.mp hb with hb | hb
  · obtain ⟨g, hg, rfl⟩ := List.mem_map.mp hb
    have := hdata g hg
    omega
  · have hsize := @BlockBuilder.size_addAll_le {} 127 (indexFrom 0 (groupsOf 4096 kvs)) fun e he => by
      have := hindex e he
      omega
    have hnew : (BlockBuilder.size {}) = 4 := rfl
    rw [List.mem_singleton.mp hb, indexBytes, length_blockBytes]
    omega

/-- With one entry less the filter can be built, and the file fits in memory. -/
theorem length_writeTable_short {kvs : List (Bytes × Bytes)} (h : Short kvs) (hn : kvs.length < 429496729)
    {bytes : Bytes} {tableMeta : TableMeta} (hwrite : writeTable crc 4096 kvs = some (bytes, tableMeta)) :
    bytes.length < 2 ^ 63 := by
  obtain ⟨hblocks, hsealed⟩ := @tableBlocks_short crc kvs h (by omega)
  have hbloom : 0 < bloomBytes kvs.length ∧ bloomBytes kvs.length < 2 ^ 29 := by
    unfold bloomBytes bloomBitsPerKey
    split <;> omega
  obtain ⟨bloom, hbuild, hbits, -⟩ := @mayContain_buildBloom (kvs.map fun kv => userKey kv.1)
    (by rw [List.length_map]; omega)
  rw [List.length_map] at hbits
  have hw := writeTable_eq crc 4096 kvs
  rw [hwrite, hbuild] at hw
  have hfile : bytes = fileBytes crc 4096 kvs bloom := Option.some.inj hw
  have hindex := hblocks _ (mem_tableBlocks_index 4096 kvs)
  have hfooter : footerSize = 40 := rfl
  rw [hfile, length_fileBytes]
  omega

/-! ## A table that is read back, and one that is not. -/

/-- Versions of the empty key, newest first. -/
def versions (n : ℕ) : List (Bytes × Bytes) :=
  (List.range n).map fun i => (makeInternalKey [] (n - i) kindPut, [])

theorem length_versions (n : ℕ) : (versions n).length = n := by simp [versions]

theorem versions_short (n : ℕ) : Short (versions n) := by
  intro kv hkv
  obtain ⟨i, -, rfl⟩ := List.mem_map.mp hkv
  simp [makeInternalKey, trailerSize]

theorem trailerOf_version {seq : ℕ} (h : seq < 2 ^ 56) :
    trailerOf (makeInternalKey [] seq kindPut) = seq * 256 + 1 :=
  @trailerOf_internalKeyOf ⟨[], trailer seq kindPut, []⟩ (trailer_lt h)

theorem versions_keys {n : ℕ} (hn : n < 2 ^ 56) : ∀ kv ∈ versions n, InternalKey kv.1 := by
  intro kv hkv
  obtain ⟨i, -, rfl⟩ := List.mem_map.mp hkv
  refine ⟨TableFile.length_makeInternalKey _ _ _, .inr ?_⟩
  show UInt8.ofNat (trailerOf (makeInternalKey [] (n - i) kindPut) % 256) = kindPut
  rw [trailerOf_version (by omega), show ((n - i) * 256 + 1) % 256 = 1 by omega]
  rfl

theorem versions_sorted {n : ℕ} (hn : n < 2 ^ 56) : SortedKeys (versions n) := by
  refine List.pairwise_map.mpr (List.pairwise_lt_range.imp_of_mem fun {i j} hi hj hij => ?_)
  have hi := List.mem_range.mp hi
  have hj := List.mem_range.mp hj
  have huser : ∀ seq, userKey (makeInternalKey [] seq kindPut) = [] := fun seq =>
    userKey_internalKeyOf ⟨[], trailer seq kindPut, []⟩
  unfold compareInternalKey
  rw [huser, huser, trailerOf_version (by omega), trailerOf_version (by omega), compare_self_key,
    Ordering.eq_then, Nat.compare_eq_lt]
  omega

theorem table_round_trip_versions : RoundTrip checksum 4096 (versions 20) := by
  obtain ⟨hblocks, -⟩ := @tableBlocks_short checksum (versions 20) (versions_short 20)
    (by rw [length_versions]; decide)
  refine (table_round_trip (versions_keys (by decide)) (versions_sorted (by decide)) hblocks ?_).mpr ?_
  · exact fun _ _ => length_writeTable_short (versions_short 20) (by rw [length_versions]; decide)
  · rw [length_versions]
    decide

/-- As many entries as make the filter 2^29 bytes long. -/
def denseTable : List (Bytes × Bytes) := versions 429496729

theorem table_round_trip_dense :
    (∀ kv ∈ denseTable, InternalKey kv.1) ∧ SortedKeys denseTable ∧
      (∀ b ∈ tableBlocks 4096 denseTable, b.length < 2 ^ 32) ∧ writeTable checksum 4096 denseTable = none ∧
      ¬ RoundTrip checksum 4096 denseTable := by
  have hnone : writeTable checksum 4096 denseTable = none := by
    have hw := writeTable_eq checksum 4096 denseTable
    rw [buildBloom_panics (by rw [List.length_map, denseTable, length_versions]; decide)] at hw
    exact Option.map_eq_none_iff.mp hw
  refine ⟨versions_keys (by decide), versions_sorted (by decide),
    (@tableBlocks_short checksum denseTable (versions_short _) (by rw [denseTable, length_versions])).1, hnone,
    ?_⟩
  rintro ⟨bytes, tableMeta, t, hwrite, -⟩
  rw [hnone] at hwrite
  cases hwrite

end Keystone.Storage
