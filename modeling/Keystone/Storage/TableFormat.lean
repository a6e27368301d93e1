/-
# Keystone.Storage.TableFormat — a table that was written is read back.

`cutBlocks` is how the writer cuts the entries into blocks, and `indexFrom` the index entries it writes for
them.  `Writing` is what holds while a table is written; at its end the file is the sealed blocks, the
sealed index, the sealed filter and the footer (`writeTable_eq`).  Each index entry then leads to a block
that holds its group (`Leads`), so reading the table, from the start or from a target, is reading the
groups one after another.
-/
import Keystone.Storage.BlockFormat

namespace Keystone.Storage

open Keystone.Lib
open Keystone.Lib.Slices (Checked)

variable {crc : Bytes → UInt32} {blockSize : ℤ}

/-! ## What is written. -/

/-- The groups of entries that become data blocks, where `cur` is in the block under construction. -/
def cutBlocks (blockSize : ℤ) : List (Bytes × Bytes) → List (Bytes × Bytes) → List (List (Bytes × Bytes))
  | cur, [] => if cur = [] then [] else [cur]
  | cur, kv :: kvs =>
    if ((BlockBuilder.addAll {} (cur ++ [kv])).size : ℤ) ≥ blockSize then
      (cur ++ [kv]) :: cutBlocks blockSize [] kvs
    else
      cutBlocks blockSize (cur ++ [kv]) kvs

theorem flatten_cutBlocks (blockSize : ℤ) (cur kvs : List (Bytes × Bytes)) :
    (cutBlocks blockSize cur kvs).flatten = cur ++ kvs := by
  induction kvs generalizing cur with
  | nil =>
    unfold cutBlocks
    split
    · next h => rw [h]; rfl
    · simp
  | cons kv kvs ih =>
    unfold cutBlocks
    split
    · rw [List.flatten_cons, ih, List.nil_append, List.append_assoc, List.singleton_append]
    · rw [ih, List.append_assoc, List.singleton_append]

theorem cutBlocks_ne_nil {cur kvs : List (Bytes × Bytes)} :
    ∀ g ∈ cutBlocks blockSize cur kvs, g ≠ [] := by
  induction kvs generalizing cur with
  | nil =>
    unfold cutBlocks
    split
    · exact fun _ h => absurd h List.not_mem_nil
    · next hne => exact fun g hg => List.mem_singleton.mp hg ▸ hne
  | cons kv kvs ih =>
    unfold cutBlocks
    split
    · exact List.forall_mem_cons.mpr ⟨by simp, ih⟩
    · exact ih

/-- The index entries of blocks that begin at `off`. -/
def indexFrom : ℕ → List (List (Bytes × Bytes)) → List (Bytes × Bytes)
  | _, [] => []
  | off, g :: gs =>
    (lastKeyOf [] g, (BlockHandle.mk off (blockBytes g).length).encode) ::
      indexFrom (off + (blockBytes g).length + 4) gs

/-- The data blocks with their checksums. -/
def sealedAll (crc : Bytes → UInt32) (gs : List (List (Bytes × Bytes))) : Bytes :=
  gs.flatMap fun g => sealed crc (blockBytes g)

theorem length_sealed (b : Bytes) : (sealed crc b).length = b.length + 4 := by
  rw [sealed, List.length_append, LittleEndian.length_encode]

theorem length_sealedAll_cons (g : List (Bytes × Bytes)) (gs : List (List (Bytes × Bytes))) :
    (sealedAll crc (g :: gs)).length = (blockBytes g).length + 4 + (sealedAll crc gs).length := by
  rw [sealedAll, List.flatMap_cons, List.length_append, length_sealed]
  rfl

theorem indexFrom_append (crc : Bytes → UInt32) (off : ℕ) (gs gs' : List (List (Bytes × Bytes))) :
    indexFrom off (gs ++ gs') = indexFrom off gs ++ indexFrom (off + (sealedAll crc gs).length) gs' := by
  induction gs generalizing off with
  | nil => rfl
  | cons g gs ih =>
    rw [List.cons_append, indexFrom, indexFrom, ih, List.cons_append, length_sealedAll_cons,
      ← Nat.add_assoc, ← Nat.add_assoc]

/-- The writer has written the blocks of `gs` and has `cur` in the block under construction. -/
structure Writing (crc : Bytes → UInt32) (blockSize : ℤ) (w : TableWriter)
    (gs : List (List (Bytes × Bytes))) (cur : List (Bytes × Bytes)) : Prop where
  blockSize : w.blockSize = blockSize
  out : w.out = sealedAll crc gs
  off : w.off = (sealedAll crc gs).length
  data : w.data = BlockBuilder.addAll {} cur
  index : w.addIndex.index = BlockBuilder.addAll {} (indexFrom 0 gs)
  bloomKeys : w.bloomKeys = (gs.flatten ++ cur).map fun kv => userKey kv.1
  idle : w.pending = true → cur = []
  lastKey : cur ≠ [] → w.lastKey = lastKeyOf [] cur

theorem writing_new (crc : Bytes → UInt32) (blockSize : ℤ) :
    Writing crc blockSize (newWriter blockSize) [] [] where
  blockSize := rfl
  out := rfl
  off := rfl
  data := rfl
  index := rfl
  bloomKeys := rfl
  idle _ := rfl
  lastKey h := absurd rfl h

theorem empty_addAll {cur : List (Bytes × Bytes)} :
    (BlockBuilder.addAll {} cur).empty = true ↔ cur = [] := by
  rw [BlockBuilder.addAll_eq]
  unfold BlockBuilder.empty
  simp

namespace Writing

variable {w : TableWriter} {gs : List (List (Bytes × Bytes))} {cur : List (Bytes × Bytes)}

theorem addIndex_of_idle (h : w.pending = false) : w.addIndex = w := by
  unfold TableWriter.addIndex
  rw [if_neg (by simp [h])]

/-- A block that has grown to its size is written; its index entry waits. -/
theorem flush (h : Writing crc blockSize w gs cur) (hp : w.pending = false) (hcur : cur ≠ []) :
    Writing crc blockSize (w.flushBlock crc) (gs ++ [cur]) [] := by
  have hne : ¬ w.data.empty = true := by
    rw [h.data, empty_addAll]
    exact hcur
  have hflush : w.flushBlock crc = { (w.writeBlock crc w.data.finish).1 with
      data := {}, handle := (w.writeBlock crc w.data.finish).2, pending := true } := if_neg hne
  have hidx := h.index
  rw [addIndex_of_idle hp] at hidx
  have hblock : w.data.finish = blockBytes cur := by rw [h.data]; rfl
  have hout : sealedAll crc (gs ++ [cur]) = sealedAll crc gs ++ sealed crc (blockBytes cur) := by
    simp [sealedAll]
  rw [hflush]
  refine ⟨h.blockSize, ?_, ?_, rfl, ?_, ?_, fun _ => rfl, fun hne => absurd rfl hne⟩
  · show w.out ++ sealed crc w.data.finish = _
    rw [hout, h.out, hblock]
  · show w.off + w.data.finish.length + 4 = _
    rw [hout, h.off, hblock, List.length_append, length_sealed, Nat.add_assoc]
  · show w.index.add w.lastKey (BlockHandle.mk w.off w.data.finish.length).encode = _
    rw [indexFrom_append crc, BlockBuilder.addAll_append, ← hidx, h.lastKey hcur, h.off, hblock, Nat.zero_add]
    rfl
  · show w.bloomKeys = _
    rw [h.bloomKeys]
    simp

theorem lastKeyOf_snoc (last : Bytes) (kvs : List (Bytes × Bytes)) (kv : Bytes × Bytes) :
    lastKeyOf last (kvs ++ [kv]) = kv.1 := by
  simp [lastKeyOf]

/-- An entry before the size is looked at. -/
def grown (w : TableWriter) (kv : Bytes × Bytes) : TableWriter :=
  { w.addIndex with
    data := w.addIndex.data.add kv.1 kv.2
    lastKey := kv.1
    bloomKeys := w.addIndex.bloomKeys ++ [userKey kv.1]
    tableMeta := { w.addIndex.tableMeta with
      smallest := if w.addIndex.tableMeta.count = 0 then kv.1 else w.addIndex.tableMeta.smallest
      count := w.addIndex.tableMeta.count + 1 } }

theorem addIndex_pending (w : TableWriter) : w.addIndex.pending = false := by
  unfold TableWriter.addIndex
  split
  · rfl
  · next h => simpa using h

theorem addIndex_same (w : TableWriter) : w.addIndex.blockSize = w.blockSize ∧ w.addIndex.out = w.out ∧
    w.addIndex.off = w.off ∧ w.addIndex.data = w.data ∧ w.addIndex.bloomKeys = w.bloomKeys := by
  unfold TableWriter.addIndex
  split <;> exact ⟨rfl, rfl, rfl, rfl, rfl⟩

theorem grow (h : Writing crc blockSize w gs cur) (kv : Bytes × Bytes) :
    Writing crc blockSize (grown w kv) gs (cur ++ [kv]) := by
  obtain ⟨hsize, hout, hoff, hdata, hbloom⟩ := addIndex_same w
  have hp : (grown w kv).pending = false := addIndex_pending w
  refine ⟨hsize.trans h.blockSize, hout.trans h.out, hoff.trans h.off, ?_, ?_, ?_, ?_, ?_⟩
  · show w.addIndex.data.add kv.1 kv.2 = _
    rw [hdata, h.data, BlockBuilder.addAll_append]
    rfl
  · rw [addIndex_of_idle hp]
    exact h.index
  · show w.addIndex.bloomKeys ++ [userKey kv.1] = _
    rw [hbloom, h.bloomKeys]
    simp
  · intro hpend
    rw [hp] at hpend
    cases hpend
  · intro _
    rw [lastKeyOf_snoc]
    rfl

/-- Adding an entry: the block under construction grows, and is written if it is large enough. -/
theorem add (h : Writing crc blockSize w gs cur) (kv : Bytes × Bytes) :
    if ((BlockBuilder.addAll {} (cur ++ [kv])).size : ℤ) ≥ blockSize then
      Writing crc blockSize (w.add crc kv.1 kv.2) (gs ++ [cur ++ [kv]]) []
    else
      Writing crc blockSize (w.add crc kv.1 kv.2) gs (cur ++ [kv]) := by
  have hg := h.grow kv
  have hadd : w.add crc kv.1 kv.2 =
      if ((grown w kv).data.size : ℤ) ≥ (grown w kv).blockSize then (grown w kv).flushBlock crc
      else grown w kv := rfl
  rw [hadd, hg.data, hg.blockSize]
  split
  · exact hg.flush (addIndex_pending w) (by simp)
  · exact hg

/-- A whole run of entries, and the last block. -/
theorem addAll (h : Writing crc blockSize w gs cur) (kvs : List (Bytes × Bytes)) :
    Writing crc blockSize ((kvs.foldl (fun w kv => w.add crc kv.1 kv.2) w).flushBlock crc)
      (gs ++ cutBlocks blockSize cur kvs) [] := by
  induction kvs generalizing w gs cur with
  | nil =>
    unfold cutBlocks
    by_cases hcur : cur = []
    · have hflush : w.flushBlock crc = w := if_pos (by rw [h.data, hcur]; rfl)
      rw [if_pos hcur, List.append_nil, List.foldl_nil, hflush, ← hcur]
      exact h
    · rw [if_neg hcur]
      refine h.flush ?_ hcur
      cases hp : w.pending with
      | false => rfl
      | true => exact absurd (h.idle hp) hcur
  | cons kv kvs ih =>
    have hadd := h.add kv
    unfold cutBlocks
    split at hadd
    · next hsize =>
      have hrest := ih hadd
      rw [List.append_assoc, List.singleton_append] at hrest
      rw [if_pos hsize]
      exact hrest
    · next hsize =>
      rw [if_neg hsize]
      exact ih hadd

end Writing

/-- The groups of a table, and its index block. -/
def groupsOf (blockSize : ℤ) (kvs : List (Bytes × Bytes)) : List (List (Bytes × Bytes)) :=
  cutBlocks blockSize [] kvs

def indexBytes (blockSize : ℤ) (kvs : List (Bytes × Bytes)) : Bytes :=
  blockBytes (indexFrom 0 (groupsOf blockSize kvs))

/-- The data blocks and the index block of a table. -/
def tableBlocks (blockSize : ℤ) (kvs : List (Bytes × Bytes)) : List Bytes :=
  (groupsOf blockSize kvs).map blockBytes ++ [indexBytes blockSize kvs]

/-- The file of a table with this filter. -/
def fileBytes (crc : Bytes → UInt32) (blockSize : ℤ) (kvs : List (Bytes × Bytes)) (bloom : Bytes) : Bytes :=
  sealedAll crc (groupsOf blockSize kvs) ++ sealed crc (indexBytes blockSize kvs) ++ sealed crc bloom ++
    TableWriter.footer
      ⟨(sealedAll crc (groupsOf blockSize kvs)).length, (indexBytes blockSize kvs).length⟩
      ⟨(sealedAll crc (groupsOf blockSize kvs)).length + (indexBytes blockSize kvs).length + 4,
        bloom.length⟩

/-- What the writer writes. -/
theorem writeTable_eq (crc : Bytes → UInt32) (blockSize : ℤ) (kvs : List (Bytes × Bytes)) :
    (writeTable crc blockSize kvs).map Prod.fst =
      (buildBloom (kvs.map fun kv => userKey kv.1)).map (fileBytes crc blockSize kvs) := by
  have hw := (writing_new crc blockSize).addAll kvs
  rw [List.nil_append] at hw
  unfold writeTable TableWriter.finish
  generalize (kvs.foldl (fun w kv => w.add crc kv.1 kv.2) (newWriter blockSize)).flushBlock crc = w at hw
  obtain ⟨-, hout, hoff, -, hbloom⟩ := Writing.addIndex_same w
  have hkeys : w.addIndex.bloomKeys = kvs.map fun kv => userKey kv.1 := by
    rw [hbloom, hw.bloomKeys, flatten_cutBlocks]
    simp
  have hindex : w.addIndex.index.finish = indexBytes blockSize kvs := by
    rw [hw.index]
    rfl
  have hout' : w.addIndex.out = sealedAll crc (groupsOf blockSize kvs) := hout.trans hw.out
  have hoff' : w.addIndex.off = (sealedAll crc (groupsOf blockSize kvs)).length := hoff.trans hw.off
  simp only [TableWriter.writeBlock, hkeys, hindex, hout', hoff', Option.bind_eq_bind]
  cases buildBloom (kvs.map fun kv => userKey kv.1) with
  | none => rfl
  | some bloom => rfl

/-! ## Opening it. -/

/-- A sealed block is read at its place. -/
theorem readBlock_sealed (pre b post : Bytes) :
    readBlock crc (pre ++ sealed crc b ++ post) ⟨pre.length, b.length⟩ = .ok b := by
  have hlen : (pre ++ sealed crc b ++ post).length = pre.length + b.length + 4 + post.length := by
    rw [List.length_append, List.length_append, length_sealed]
    omega
  have hblock : ((pre ++ sealed crc b ++ post).drop pre.length).take b.length = b := by
    rw [List.append_assoc, List.drop_left, sealed, List.append_assoc, List.take_left]
  have hsum : ((pre ++ sealed crc b ++ post).drop (pre.length + b.length)).take 4 =
      LittleEndian.encode 4 (crc b).toNat := by
    rw [List.append_assoc, ← List.drop_drop, List.drop_left, sealed, List.append_assoc, List.drop_left,
      List.take_left' (LittleEndian.length_encode 4 _)]
  have hcrc : LittleEndian.decode (LittleEndian.encode 4 (crc b).toNat) = (crc b).toNat :=
    LittleEndian.decode_encode_of_lt (by have := (crc b).toNat_lt; omega)
  unfold readBlock
  dsimp only
  rw [if_neg (by omega), if_neg (by omega), hblock, hsum, hcrc, if_neg (not_not.mpr rfl)]

theorem length_footer (i b : BlockHandle) : (TableWriter.footer i b).length = footerSize := by
  simp [TableWriter.footer, footerSize]

theorem footerWord_append (pre : Bytes) (i b : BlockHandle) (j w : ℕ) :
    footerWord (pre ++ TableWriter.footer i b) j w =
      LittleEndian.decode (((TableWriter.footer i b).drop j).take w) := by
  unfold footerWord
  rw [List.length_append, length_footer, Nat.add_sub_cancel, ← List.drop_drop, List.drop_left]

/-- The footer leads to the index and the filter. -/
theorem openTableBytes_footer {pre index bloom : Bytes} {i b : BlockHandle}
    (hi : i.offset < 2 ^ 64 ∧ i.size < 2 ^ 64) (hb : b.offset < 2 ^ 64 ∧ b.size < 2 ^ 64)
    (hindex : readBlock crc (pre ++ TableWriter.footer i b) i = .ok index)
    (hbloom : readBlock crc (pre ++ TableWriter.footer i b) b = .ok bloom) :
    openTableBytes crc (pre ++ TableWriter.footer i b) =
      .ok ⟨pre ++ TableWriter.footer i b, index, bloom⟩ := by
  obtain ⟨ioff, isize⟩ := i
  obtain ⟨boff, bsize⟩ := b
  -- a field is read where the fields in front of it end
  have hword : ∀ (front back : Bytes) (w n : ℕ),
      TableWriter.footer ⟨ioff, isize⟩ ⟨boff, bsize⟩ = front ++ (LittleEndian.encode w n ++ back) →
        n < 256 ^ w →
          footerWord (pre ++ TableWriter.footer ⟨ioff, isize⟩ ⟨boff, bsize⟩) front.length w = n := by
    intro front back w n hsplit hn
    rw [footerWord_append, hsplit, List.drop_left, List.take_left' (LittleEndian.length_encode w n),
      LittleEndian.decode_encode_of_lt hn]
  have hioff : footerWord _ 0 8 = ioff := hword [] _ 8 ioff
    (by simp only [TableWriter.footer, List.append_assoc]; rfl) (by have := hi.1; omega)
  have hisize : footerWord _ 8 8 = isize := hword (LittleEndian.encode 8 ioff) _ 8 isize
    (by simp only [TableWriter.footer, List.append_assoc]; rfl) (by have := hi.2; omega)
  have hboff : footerWord _ 16 8 = boff :=
    hword (LittleEndian.encode 8 ioff ++ LittleEndian.encode 8 isize) _ 8 boff
    (by simp only [TableWriter.footer, List.append_assoc]; rfl) (by have := hb.1; omega)
  have hbsize : footerWord _ 24 8 = bsize := hword (LittleEndian.encode 8 ioff ++
    LittleEndian.encode 8 isize ++ LittleEndian.encode 8 boff) _ 8 bsize
    (by simp only [TableWriter.footer, List.append_assoc]; rfl) (by have := hb.2; omega)
  have hversion : footerWord _ 32 4 = tableVersion := hword (LittleEndian.encode 8 ioff ++
    LittleEndian.encode 8 isize ++ LittleEndian.encode 8 boff ++ LittleEndian.encode 8 bsize) _ 4 tableVersion
    (by simp only [TableWriter.footer, List.append_assoc]; rfl) (by decide)
  have hmagic : footerWord _ 36 4 = tableMagic := hword (LittleEndian.encode 8 ioff ++
    LittleEndian.encode 8 isize ++ LittleEndian.encode 8 boff ++ LittleEndian.encode 8 bsize ++
    LittleEndian.encode 4 tableVersion) [] 4 tableMagic
    (by simp only [TableWriter.footer, List.append_nil]) (by decide)
  unfold openTableBytes
  rw [if_neg (by rw [List.length_append, length_footer]; omega), hmagic, if_neg (not_not.mpr rfl), hversion,
    if_neg (not_not.mpr rfl), hioff, hisize, hboff, hbsize, hindex, hbloom]
  rfl

theorem decodeHandle_encode {h : BlockHandle} (ho : h.offset < 2 ^ 64) (hs : h.size < 2 ^ 64) :
    decodeHandle h.encode = some (h, true) := by
  have hread : ∀ n < 2 ^ 64, ∀ rest, (Uvarint.read (Uvarint.encode n ++ rest)).1 = n ∧
      ∃ c : ℕ, (Uvarint.read (Uvarint.encode n ++ rest)).2 = c ∧ 0 < c ∧
        (Uvarint.encode n ++ rest).drop c = rest := by
    intro n hn rest
    have hdec := Uvarint.decode_encode hn rest
    rw [Uvarint.decode_eq] at hdec
    split at hdec
    · cases hdec
    · next hpos =>
      obtain ⟨c, hc, hcpos, -⟩ := read_count (not_le.mp hpos)
      obtain ⟨hval, hdrop⟩ := Prod.mk.inj (Option.some.inj hdec)
      rw [hc, Int.toNat_natCast] at hdrop
      exact ⟨hval, c, hc, hcpos, hdrop⟩
  obtain ⟨hval, c, hc, hcpos, hdrop⟩ := hread h.offset ho (Uvarint.encode h.size)
  obtain ⟨hval', c', hc', hcpos', -⟩ := hread h.size hs []
  rw [List.append_nil] at hval' hc'
  have hle : c ≤ (Uvarint.encode h.offset ++ Uvarint.encode h.size).length := by
    obtain ⟨m, hm, -, hfit⟩ := read_count (d := Uvarint.encode h.offset ++ Uvarint.encode h.size) (by omega)
    omega
  unfold decodeHandle BlockHandle.encode
  simp only [hc, Slices.sliceFrom_nat hle, Option.bind_eq_bind, Option.bind_some, hdrop, hval, hval', hc']
  simp [hcpos, hcpos']

/-! ## The blocks behind the index. -/

/-- Each index entry has the last key of its group and leads to a block that holds it. -/
def Leads (crc : Bytes → UInt32) (bytes : Bytes) (ies : List (Bytes × Bytes))
    (gs : List (List (Bytes × Bytes))) : Prop :=
  List.Forall₂ (fun e g => e.1 = lastKeyOf [] g ∧
    ∃ b, leadsTo crc bytes e.2 = some (.ok b) ∧ BlockHolds b g) ies gs

theorem leads_indexFrom {pre post : Bytes} {gs : List (List (Bytes × Bytes))}
    (hlen : (pre ++ sealedAll crc gs ++ post).length < 2 ^ 63)
    (hblocks : ∀ g ∈ gs, (blockBytes g).length < 2 ^ 32)
    (hkeys : ∀ g ∈ gs, ∀ kv ∈ g, trailerSize ≤ kv.1.length) :
    Leads crc (pre ++ sealedAll crc gs ++ post) (indexFrom pre.length gs) gs := by
  induction gs generalizing pre with
  | nil => exact .nil
  | cons g gs ih =>
    obtain ⟨hg, hgs⟩ := List.forall_mem_cons.mp hblocks
    obtain ⟨hkg, hkgs⟩ := List.forall_mem_cons.mp hkeys
    have hfile : pre ++ sealedAll crc (g :: gs) ++ post =
        pre ++ sealed crc (blockBytes g) ++ sealedAll crc gs ++ post := by
      simp [sealedAll]
    have hpre : (pre ++ sealed crc (blockBytes g)).length = pre.length + (blockBytes g).length + 4 := by
      rw [List.length_append, length_sealed, Nat.add_assoc]
    rw [hfile] at hlen ⊢
    obtain ⟨b, hb, hholds⟩ := blockBytes_holds hg hkg
    have hread : readBlock crc (pre ++ sealed crc (blockBytes g) ++ sealedAll crc gs ++ post)
        ⟨pre.length, (blockBytes g).length⟩ = .ok (blockBytes g) := by
      rw [List.append_assoc]
      exact readBlock_sealed pre (blockBytes g) _
    have hshort : pre.length < 2 ^ 63 := by
      rw [List.length_append, List.length_append, hpre] at hlen
      omega
    refine .cons ⟨rfl, b, ?_, hholds⟩ ?_
    · unfold leadsTo
      dsimp only
      rw [decodeHandle_encode (by show pre.length < _; omega) (by show (blockBytes g).length < _; omega),
        Option.bind_some, if_pos rfl, hread]
      exact hb
    · rw [← hpre]
      exact ih hlen hgs hkgs

theorem Leads.reads {bytes : Bytes} {ies : List (Bytes × Bytes)} {gs : List (List (Bytes × Bytes))}
    (h : Leads crc bytes ies gs) : Reads crc bytes ies gs.flatten true := by
  induction h with
  | nil => exact .nil
  | cons he _ ih =>
    obtain ⟨-, b, hb, hholds⟩ := he
    exact .block hb hholds.start ih

/-- What the index leads to is determined by it. -/
theorem Reads.unique {bytes : Bytes} {ies es es' : List (Bytes × Bytes)} {ok ok' : Bool}
    (h : Reads crc bytes ies es ok) (h' : Reads crc bytes ies es' ok') : es = es' ∧ ok = ok' := by
  induction h generalizing es' ok' with
  | nil =>
    cases h'
    exact ⟨rfl, rfl⟩
  | unreadable hl =>
    cases h' with
    | unreadable _ => exact ⟨rfl, rfl⟩
    | broken hl' _ => cases hl.symm.trans hl'
    | block hl' _ _ => cases hl.symm.trans hl'
  | broken hl hw =>
    cases h' with
    | unreadable hl' => cases hl.symm.trans hl'
    | broken hl' hw' =>
      obtain rfl := Except.ok.inj (Option.some.inj (hl.symm.trans hl'))
      exact ⟨(hw.unique hw').1, rfl⟩
    | block hl' hw' _ =>
      obtain rfl := Except.ok.inj (Option.some.inj (hl.symm.trans hl'))
      cases (hw.unique hw').2
  | block hl hw _ ih =>
    cases h' with
    | unreadable hl' => cases hl.symm.trans hl'
    | broken hl' hw' =>
      obtain rfl := Except.ok.inj (Option.some.inj (hl.symm.trans hl'))
      cases (hw.unique hw').2
    | block hl' hw' hrest' =>
      obtain rfl := Except.ok.inj (Option.some.inj (hl.symm.trans hl'))
      obtain ⟨rfl, -⟩ := hw.unique hw'
      obtain ⟨rfl, rfl⟩ := ih hrest'
      exact ⟨rfl, rfl⟩

/-- Entering the first block at a target. -/
theorem Leads.enters {bytes target : Bytes} {ies es : List (Bytes × Bytes)}
    {gs : List (List (Bytes × Bytes))} {ok : Bool} (h : Leads crc bytes ies gs)
    (hs : ∀ g ∈ gs, SortedKeys g) (hent : Enters crc bytes (SeekFinds target) ies es ok) :
    ok = true ∧ es = gs.head?.elim [] (fun g => g.dropWhile (BlockIter.below target)) ++ gs.tail.flatten := by
  cases h with
  | nil =>
    cases hent
    exact ⟨rfl, rfl⟩
  | @cons e g ies gs he hrest =>
    obtain ⟨-, b, hb, hholds⟩ := he
    have hg := hs g List.mem_cons_self
    cases hent with
    | unreadable hl => cases hb.symm.trans hl
    | broken hl hf =>
      obtain rfl := Except.ok.inj (Option.some.inj (hb.symm.trans hl))
      cases (hholds.fromRestart hg hf.1).2
    | block hl hf hreads =>
      obtain rfl := Except.ok.inj (Option.some.inj (hb.symm.trans hl))
      obtain ⟨rfl, -⟩ := hholds.fromRestart hg hf.1
      obtain ⟨rfl, rfl⟩ := Leads.reads hrest |>.unique hreads
      exact ⟨rfl, rfl⟩

/-! ## Order. -/

theorem lastKeyOf_mem {g : List (Bytes × Bytes)} (h : g ≠ []) : ∃ kv ∈ g, lastKeyOf [] g = kv.1 := by
  refine ⟨g.getLast h, List.getLast_mem h, ?_⟩
  unfold lastKeyOf
  rw [List.getLast?_eq_some_getLast h]
  rfl

/-- If the last key of a group is below a target, all of them are. -/
theorem below_of_last {target : Bytes} {g : List (Bytes × Bytes)} (hs : SortedKeys g) (hne : g ≠ [])
    (h : compareInternalKey (lastKeyOf [] g) target = .lt) :
    ∀ kv ∈ g, BlockIter.below target kv = true := by
  have hlast : lastKeyOf [] g = (g.getLast hne).1 := by
    unfold lastKeyOf
    rw [List.getLast?_eq_some_getLast hne]
    rfl
  rw [hlast] at h
  have hbelow : BlockIter.below target (g.getLast hne) = true := by
    simp [BlockIter.below, h]
  have hsplit : g.dropLast ++ [g.getLast hne] = g := List.dropLast_concat_getLast hne
  intro kv hkv
  have hs' := hs
  unfold SortedKeys at hs'
  rw [← hsplit] at hkv hs'
  rcases List.mem_append.mp hkv with hkv | hkv
  · exact below_of_lt ((List.pairwise_append.mp hs').2.2 kv hkv _ (List.mem_singleton_self _)) hbelow
  · rw [List.mem_singleton.mp hkv]
    exact hbelow

/-- Seeking a target in the index, and then in the block it leads to, is seeking it in the entries. -/
theorem Leads.dropWhile {bytes target : Bytes} {ies : List (Bytes × Bytes)}
    {gs : List (List (Bytes × Bytes))} (h : Leads crc bytes ies gs) (hne : ∀ g ∈ gs, g ≠ [])
    (hs : SortedKeys gs.flatten) :
    ∃ gs', Leads crc bytes (ies.dropWhile (BlockIter.below target)) gs' ∧ (∀ g ∈ gs', g ∈ gs) ∧
      gs.flatten.dropWhile (BlockIter.below target) =
        gs'.head?.elim [] (fun g => g.dropWhile (BlockIter.below target)) ++ gs'.tail.flatten := by
  induction h with
  | nil => exact ⟨[], .nil, fun _ h => h, rfl⟩
  | @cons e g ies gs he hrest ih =>
    obtain ⟨hg, hgs⟩ := List.forall_mem_cons.mp hne
    rw [List.flatten_cons] at hs
    obtain ⟨hsg, hsgs, -⟩ := List.pairwise_append.mp hs
    by_cases hlt : compareInternalKey (lastKeyOf [] g) target = .lt
    · have hall := below_of_last hsg hg hlt
      obtain ⟨gs', hleads, hmem, heq⟩ := ih hgs hsgs
      refine ⟨gs', ?_, fun x hx => List.mem_cons_of_mem g (hmem x hx), ?_⟩
      · rw [List.dropWhile_cons_of_pos (by simp [BlockIter.below, he.1, hlt])]
        exact hleads
      · rw [List.flatten_cons, dropWhile_append_of_all hall, heq]
    · obtain ⟨kv, hkv, hlast⟩ := lastKeyOf_mem hg
      rw [hlast] at hlt
      have hsome : ¬ (g.dropWhile (BlockIter.below target)).isEmpty = true := by
        rw [List.isEmpty_iff, List.dropWhile_eq_nil_iff]
        intro hall
        have := hall kv hkv
        simp [BlockIter.below, hlt] at this
      refine ⟨g :: gs, ?_, fun _ h => h, ?_⟩
      · rw [List.dropWhile_cons_of_neg (by simp [BlockIter.below, he.1, hlast, hlt])]
        exact .cons he hrest
      · rw [List.flatten_cons, List.dropWhile_append, if_neg hsome]
        rfl

theorem Leads.sorted {bytes : Bytes} {ies : List (Bytes × Bytes)} {gs : List (List (Bytes × Bytes))}
    (h : Leads crc bytes ies gs) (hne : ∀ g ∈ gs, g ≠ []) (hs : SortedKeys gs.flatten) : SortedKeys ies := by
  induction h with
  | nil => exact .nil
  | @cons e g ies gs he hrest ih =>
    obtain ⟨hg, hgs⟩ := List.forall_mem_cons.mp hne
    rw [List.flatten_cons] at hs
    obtain ⟨-, hsgs, hcross⟩ := List.pairwise_append.mp hs
    refine List.pairwise_cons.mpr ⟨fun e' he' => ?_, ih hgs hsgs⟩
    obtain ⟨g', hg', hfirst⟩ : ∃ g' ∈ gs, e'.1 = lastKeyOf [] g' := by
      clear ih hs hcross hsgs hne
      induction hrest with
      | nil => cases he'
      | @cons e'' g'' ies gs h'' _ ih =>
        rcases List.mem_cons.mp he' with rfl | he'
        · exact ⟨g'', List.mem_cons_self, h''.1⟩
        · obtain ⟨g', hg', hfirst⟩ := ih (fun g hg => hgs g (List.mem_cons_of_mem _ hg)) he'
          exact ⟨g', List.mem_cons_of_mem _ hg', hfirst⟩
    obtain ⟨kv, hkv, hlast⟩ := lastKeyOf_mem hg
    obtain ⟨kv', hkv', hlast'⟩ := lastKeyOf_mem (hgs g' hg')
    rw [he.1, hfirst, hlast, hlast']
    exact hcross kv hkv kv' (List.mem_flatten.mpr ⟨g', hg', hkv'⟩)

/-- An index key is one of its group. -/
theorem Leads.keys {bytes : Bytes} {ies : List (Bytes × Bytes)} {gs : List (List (Bytes × Bytes))}
    (h : Leads crc bytes ies gs) (hne : ∀ g ∈ gs, g ≠ [])
    (hkeys : ∀ g ∈ gs, ∀ kv ∈ g, trailerSize ≤ kv.1.length) :
    ∀ e ∈ ies, trailerSize ≤ e.1.length := by
  induction h with
  | nil => exact fun _ h => absurd h List.not_mem_nil
  | @cons e g ies gs he _ ih =>
    obtain ⟨hg, hgs⟩ := List.forall_mem_cons.mp hne
    obtain ⟨hkg, hkgs⟩ := List.forall_mem_cons.mp hkeys
    obtain ⟨kv, hkv, hlast⟩ := lastKeyOf_mem hg
    refine List.forall_mem_cons.mpr ⟨?_, ih hgs hkgs⟩
    rw [he.1, hlast]
    exact hkg kv hkv

theorem Leads.tame {bytes : Bytes} {ies : List (Bytes × Bytes)} {gs : List (List (Bytes × Bytes))}
    (h : Leads crc bytes ies gs) : ∀ e ∈ ies, TameEntry crc bytes e := by
  induction h with
  | nil => exact fun _ h => absurd h List.not_mem_nil
  | @cons e g ies gs he _ ih =>
    obtain ⟨-, b, hb, hholds⟩ := he
    refine List.forall_mem_cons.mpr ⟨⟨?_, fun b' hb' => ?_⟩, ih⟩
    · -- a handle that leads somewhere was decoded
      by_contra hneg
      have hnone : decodeHandle e.2 = none := by
        unfold decodeHandle
        dsimp only
        rw [show Slices.sliceFrom e.2 (Uvarint.read e.2).2 = none from Slices.slice_of_not (by omega)]
        rfl
      unfold leadsTo at hb
      rw [hnone] at hb
      cases hb
    · obtain rfl := Except.ok.inj (Option.some.inj (hb.symm.trans hb'))
      exact hholds.tame

end Keystone.Storage
