/-
# Keystone.Storage.SSTable — table files (`storage/sstable.go`).

A table is its data blocks, an index block with the last key and the place of each data block, a filter
over the user keys, and a footer with the places of the last two; each block is followed by its checksum.
The writer cuts a block when it has grown to the block size; the index entry of a block is written when
the next key comes, or at the end.

The checksum is a parameter.  Reading is modelled with its panics (`none`): of a slice out of range, of a
key too short for its trailer, and of a division by zero in the filter.  Writing fails only in
`buildBloom`.  A table is read from memory here, so reads do not fail.
-/
import Keystone.Storage.Block
import Keystone.Storage.Bloom
import Keystone.Storage.ManifestCodec

namespace Keystone.Storage

open Keystone.Lib
open Keystone.Lib.Slices (Checked sliceFrom)

/-! ## Places. -/

structure BlockHandle where
  offset : ℕ
  size : ℕ
  deriving DecidableEq, Repr

def BlockHandle.encode (h : BlockHandle) : Bytes := Uvarint.encode h.offset ++ Uvarint.encode h.size

def decodeHandle (b : Bytes) : Option (BlockHandle × Bool) := do
  let off := Uvarint.read b
  let rest ← sliceFrom b off.2
  let size := Uvarint.read rest
  some (⟨off.1, size.1⟩, 0 < off.2 ∧ 0 < size.2)

def footerSize : ℕ := 40

def tableMagic : ℕ := 0x4b455953

def tableVersion : ℕ := 1

/-! ## Writing. -/

structure TableWriter where
  /-- What has gone to the file. -/
  out : Bytes := []
  off : ℕ := 0
  blockSize : ℤ
  data : BlockBuilder := {}
  index : BlockBuilder := {}
  bloomKeys : List Bytes := []
  tableMeta : TableMeta := ⟨0, 0, 0, [], []⟩
  pending : Bool := false
  lastKey : Bytes := []
  handle : BlockHandle := ⟨0, 0⟩
  deriving DecidableEq, Repr

/-- `newStreamWriter` -/
def newWriter (blockSize : ℤ) : TableWriter := { blockSize := blockSize }

section Checksum

variable (crc : Bytes → UInt32)

/-- A block and its checksum. -/
def sealed (b : Bytes) : Bytes := b ++ LittleEndian.encode 4 (crc b).toNat

namespace TableWriter

def writeBlock (w : TableWriter) (b : Bytes) : TableWriter × BlockHandle :=
  ({ w with out := w.out ++ sealed crc b, off := w.off + b.length + 4 }, ⟨w.off, b.length⟩)

def flushBlock (w : TableWriter) : TableWriter :=
  if w.data.empty then
    w
  else
    let r := w.writeBlock crc w.data.finish
    { r.1 with data := {}, handle := r.2, pending := true }

/-- The index entry of the last block. -/
def addIndex (w : TableWriter) : TableWriter :=
  if w.pending then { w with index := w.index.add w.lastKey w.handle.encode, pending := false } else w

def add (w : TableWriter) (ik value : Bytes) : TableWriter :=
  let w := w.addIndex
  let w := { w with
    data := w.data.add ik value
    lastKey := ik
    bloomKeys := w.bloomKeys ++ [userKey ik]
    tableMeta := { w.tableMeta with
      smallest := if w.tableMeta.count = 0 then ik else w.tableMeta.smallest
      count := w.tableMeta.count + 1 } }
  if (w.data.size : ℤ) ≥ w.blockSize then w.flushBlock crc else w

def footer (index bloom : BlockHandle) : Bytes :=
  LittleEndian.encode 8 index.offset ++ LittleEndian.encode 8 index.size ++
    LittleEndian.encode 8 bloom.offset ++ LittleEndian.encode 8 bloom.size ++
    LittleEndian.encode 4 tableVersion ++ LittleEndian.encode 4 tableMagic

/-- The file and what is recorded about it; `none` if the filter cannot be built. -/
def finish (w : TableWriter) : Option (Bytes × TableMeta) := do
  let w := (w.flushBlock crc).addIndex
  let i := w.writeBlock crc w.index.finish
  let bloom ← buildBloom i.1.bloomKeys
  let b := i.1.writeBlock crc bloom
  some (b.1.out ++ footer i.2 b.2,
    { b.1.tableMeta with size := UInt64.ofNat (b.1.off + footerSize), largest := b.1.lastKey })

end TableWriter

/-- A whole table.  Its keys have trailers. -/
def writeTable (blockSize : ℤ) (kvs : List (Bytes × Bytes)) : Option (Bytes × TableMeta) :=
  (kvs.foldl (fun w kv => w.add crc kv.1 kv.2) (newWriter blockSize)).finish crc

/-! ## Opening. -/

/-- An open table. -/
structure TableFile where
  bytes : Bytes
  index : Bytes
  bloom : Bytes
  deriving DecidableEq, Repr

/-- `table.readBlock`: a read past the end is `io.EOF`. -/
def readBlock (bytes : Bytes) (h : BlockHandle) : Except TableError Bytes :=
  if h.offset > bytes.length ∨ h.size > bytes.length - h.offset then
    .error .badTable
  else if bytes.length < h.offset + h.size + 4 then
    .error .badTable
  else
    let block := (bytes.drop h.offset).take h.size
    if (crc block).toNat ≠ LittleEndian.decode ((bytes.drop (h.offset + h.size)).take 4) then
      .error (.corrupt h.offset)
    else
      .ok block

/-- The `w` bytes of the footer at `i`, as a number. -/
def footerWord (bytes : Bytes) (i w : ℕ) : ℕ :=
  LittleEndian.decode ((bytes.drop (bytes.length - footerSize + i)).take w)

/-- `openTableBytes` -/
def openTableBytes (bytes : Bytes) : Except TableError TableFile :=
  if bytes.length < footerSize then
    .error .badTable
  else if footerWord bytes 36 4 ≠ tableMagic then
    .error .badTable
  else if footerWord bytes 32 4 ≠ tableVersion then
    .error (.version (footerWord bytes 32 4))
  else do
    let index ← readBlock crc bytes ⟨footerWord bytes 0 8, footerWord bytes 8 8⟩
    let bloom ← readBlock crc bytes ⟨footerWord bytes 16 8, footerWord bytes 24 8⟩
    .ok ⟨bytes, index, bloom⟩

/-! ## Iterating. -/

/-- `index` is `nil` if the index block could not be taken apart, `block` before the first data block
and behind the last. -/
structure TableIter where
  t : TableFile
  index : Option BlockIter
  block : Option BlockIter := none
  err : Option TableError := none
  deriving DecidableEq, Repr

/-- `table.iter` -/
def TableFile.iter (t : TableFile) : Option TableIter :=
  (ExceptT.run (newBlockIter t.index)).map fun
    | .error e => { t := t, index := none, err := some e }
    | .ok index => { t := t, index := some index }

namespace TableIter

def loadBlock (it : TableIter) : Option (TableIter × Bool) :=
  if it.err ≠ none then
    some ({ it with block := none }, false)
  else do
    let index ← it.index
    if index.valid then
      match ← decodeHandle index.v with
      | (_, false) => some ({ it with err := some .badTable }, false)
      | (h, true) =>
        match readBlock crc it.t.bytes h with
        | .error e => some ({ it with err := some e }, false)
        | .ok data =>
          match ← ExceptT.run (newBlockIter data) with
          | .error e => some ({ it with block := none, err := some e }, false)
          | .ok block => some ({ it with block := some block, err := none }, true)
    else
      some ({ it with block := none }, false)

/-- `if it.loadBlock()`, and then `place` moves to an entry of the block. -/
def loadAnd (it : TableIter) (place : BlockIter → Option BlockIter) : Option (TableIter × Bool) := do
  let r ← it.loadBlock crc
  if r.2 then
    let block ← r.1.block
    let block' ← place block
    some ({ r.1 with block := some block' }, true)
  else
    some r

/-- The loop of `skipExhausted`, with fuel for the bytes of the index. -/
def skipLoop : ℕ → TableIter → Option TableIter
  | 0, _ => none
  | fuel + 1, it =>
    match it.block with
    | none => some it
    | some block =>
      if block.valid ∨ it.err ≠ none then
        some it
      else if block.err ≠ none then
        some { it with err := block.err }
      else do
        let index ← it.index
        let index' ← index.next
        let r ← loadAnd crc { it with index := some index' } BlockIter.seekToFirst
        if r.2 then skipLoop fuel r.1 else some r.1

def skipExhausted (it : TableIter) : Option TableIter := skipLoop crc (it.t.index.length + 1) it

/-- What `seekToFirst` and `seek` do: `place` moves to an entry of the index, and then of the block it
leads to. -/
def enter (it : TableIter) (place : BlockIter → Option BlockIter) : Option TableIter :=
  if it.err ≠ none then
    some it
  else do
    let index ← it.index
    let index' ← place index
    let r ← loadAnd crc { it with index := some index' } place
    if r.2 then skipExhausted crc r.1 else some r.1

def seekToFirst (it : TableIter) : Option TableIter := it.enter crc BlockIter.seekToFirst

def seek (it : TableIter) (target : Bytes) : Option TableIter := it.enter crc (·.seek target)

def valid (it : TableIter) : Bool := it.err = none ∧ (it.block.elim false BlockIter.valid)

def next (it : TableIter) : Option TableIter := do
  let block ← it.block
  let block' ← block.next
  skipExhausted crc { it with block := some block' }

def key (it : TableIter) : Option Bytes := it.block.map BlockIter.k

def value (it : TableIter) : Option Bytes := it.block.map BlockIter.v

/-- `close` returns the error of the iteration. -/
def close (it : TableIter) : Option TableError := it.err

end TableIter

/-- `table.get`: the value, `found` and `deleted`. -/
def TableFile.get (t : TableFile) (key : Bytes) (seq : ℕ) : Checked TableError (Bytes × Bool × Bool) := do
  let hit ← Checked.run (mayContain t.bloom key)
  if hit then
    let it ← Checked.run t.iter
    let it ← Checked.run (it.seek crc (makeInternalKey key seq kindPut))
    if it.valid then
      let ik ← Checked.run it.key
      let value ← Checked.run it.value
      if ik.length < trailerSize then
        Checked.run none
      else if (splitInternalKey ik).1 ≠ key then
        pure ([], false, false)
      else if (splitInternalKey ik).2.2 = kindDelete then
        pure ([], true, true)
      else
        pure (value, true, false)
    else
      match it.close with
      | some e => throw e
      | none => pure ([], false, false)
  else
    pure ([], false, false)

end Checksum

end Keystone.Storage
