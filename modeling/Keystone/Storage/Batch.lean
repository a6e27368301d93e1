/-
# Keystone.Storage.Batch — batches as WAL payloads (`storage/batch.go`).

A payload is the sequence number of the first operation, the number of operations, and each operation as
its kind, key and value, the two byte strings behind their lengths.  `decodeBatch` reads it back; the kind
of an operation it reads is whatever byte stands there.

`readBatch` is the code with every slice it takes; `decodeBatch` is what it returns.  They agree on every
payload (`readBatch_eq`), so no payload makes the code slice out of range.
-/
import Keystone.Lib.Slices
import Keystone.Storage.KVMap
import Keystone.Storage.Wal

namespace Keystone.Storage

open Keystone.Lib
open Keystone.Lib.Slices (Checked takeBytes takeBytes_append)

def Kind.byte : Kind → UInt8
  | .delete => 0
  | .put => 1

def encodeOp (op : BatchOp) : Bytes :=
  op.kind.byte :: (Uvarint.encode op.key.length ++ op.key ++
    (Uvarint.encode op.value.length ++ op.value))

/-- `Batch.encode`; `seq` and the count keep their low 64 and 32 bits. -/
def encodeBatch (seq : ℕ) (b : Batch) : Bytes :=
  LittleEndian.encode 8 seq ++ LittleEndian.encode 4 b.length ++ b.flatMap encodeOp

/-- An operation as a record has it. -/
structure RawOp where
  kind : UInt8
  key : Key
  value : Bytes
  deriving DecidableEq, Repr

def BatchOp.raw (op : BatchOp) : RawOp := ⟨op.kind.byte, op.key, op.value⟩

/-- The loop of `decodeBatch`, over the operations still to come. -/
def decodeOps : ℕ → Bytes → Option (List RawOp)
  | 0, _ => some []
  | _ + 1, [] => none
  | n + 1, kind :: p =>
    match takeBytes p with
    | none => none
    | some (key, p') =>
      match takeBytes p' with
      | none => none
      | some (value, p'') => (decodeOps n p'').map (⟨kind, key, value⟩ :: ·)

/-- The first sequence number and the operations; `none` is `errBadBatch`. -/
def decodeBatch (p : Bytes) : Option (ℕ × List RawOp) :=
  if p.length < 12 then
    none
  else
    (decodeOps (LittleEndian.decode ((p.drop 8).take 4)) (p.drop 12)).map fun ops =>
      (LittleEndian.decode (p.take 8), ops)

/-! ## Reading a batch back. -/

def RawOp.encode (op : RawOp) : Bytes :=
  op.kind :: (Uvarint.encode op.key.length ++ op.key ++ (Uvarint.encode op.value.length ++ op.value))

/-- `Batch.encode` of operations of any kind. -/
def encodeRaw (seq : ℕ) (ops : List RawOp) : Bytes :=
  LittleEndian.encode 8 seq ++ LittleEndian.encode 4 ops.length ++ ops.flatMap RawOp.encode

theorem encodeBatch_eq (seq : ℕ) (b : Batch) : encodeBatch seq b = encodeRaw seq (b.map BatchOp.raw) := by
  rw [encodeBatch, encodeRaw, List.length_map, List.flatMap_map]
  rfl

theorem decodeOps_encode {ops : List RawOp}
    (h : ∀ op ∈ ops, op.key.length < 2 ^ 64 ∧ op.value.length < 2 ^ 64) :
    decodeOps ops.length (ops.flatMap RawOp.encode) = some ops := by
  induction ops with
  | nil => rfl
  | cons op ops ih =>
    obtain ⟨⟨hkey, hvalue⟩, hops⟩ := List.forall_mem_cons.mp h
    have hop : (op :: ops).flatMap RawOp.encode =
        op.kind :: (Uvarint.encode op.key.length ++ op.key ++
          (Uvarint.encode op.value.length ++ op.value ++ ops.flatMap RawOp.encode)) := by
      simp [RawOp.encode]
    rw [hop, List.length_cons, decodeOps, takeBytes_append hkey]
    dsimp only
    rw [takeBytes_append hvalue]
    dsimp only
    rw [ih hops]
    rfl

/-- A payload is longer than anything it carries. -/
theorem length_encodeRaw {seq : ℕ} {ops : List RawOp} :
    ops.length ≤ (encodeRaw seq ops).length ∧
      ∀ op ∈ ops, op.key.length + op.value.length ≤ (encodeRaw seq ops).length := by
  have hops : ops.length ≤ (ops.flatMap RawOp.encode).length ∧
      ∀ op ∈ ops, op.key.length + op.value.length ≤ (ops.flatMap RawOp.encode).length := by
    induction ops with
    | nil => simp
    | cons op ops ih =>
      have hop : op.key.length + op.value.length + 1 ≤ op.encode.length := by
        simp only [RawOp.encode, List.length_cons, List.length_append]
        omega
      rw [List.flatMap_cons, List.length_append, List.length_cons, List.forall_mem_cons]
      refine ⟨by omega, by omega, fun x hx => ?_⟩
      have := ih.2 x hx
      omega
  rw [encodeRaw, List.length_append]
  exact ⟨by omega, fun op hop => (hops.2 op hop).trans (Nat.le_add_left _ _)⟩

/-- Operations whose payload fits in memory are read back. -/
theorem decodeBatch_encodeRaw {seq : ℕ} {ops : List RawOp} (hseq : seq < 2 ^ 64)
    (hcount : ops.length < 2 ^ 32) (h : (encodeRaw seq ops).length < 2 ^ 64) :
    decodeBatch (encodeRaw seq ops) = some (seq, ops) := by
  have hlen : ¬ (encodeRaw seq ops).length < 12 := by
    simp [encodeRaw]
    omega
  have h8 : (encodeRaw seq ops).take 8 = LittleEndian.encode 8 seq := by simp [encodeRaw]
  have h12 : ((encodeRaw seq ops).drop 8).take 4 = LittleEndian.encode 4 ops.length := by
    simp [encodeRaw]
  have hrest : (encodeRaw seq ops).drop 12 = ops.flatMap RawOp.encode := by
    simp [encodeRaw, List.drop_append]
  have hread : decodeOps ops.length (ops.flatMap RawOp.encode) = some ops := by
    refine decodeOps_encode fun op hop => ?_
    have := (@length_encodeRaw seq ops).2 op hop
    omega
  unfold decodeBatch
  rw [if_neg hlen, h8, h12, hrest, LittleEndian.decode_encode_of_lt (by omega : seq < 256 ^ 8),
    LittleEndian.decode_encode_of_lt (by omega : ops.length < 256 ^ 4), hread]
  rfl

theorem length_encodeBatch {seq : ℕ} {b : Batch} : b.length ≤ (encodeBatch seq b).length := by
  have h := (@length_encodeRaw seq (b.map BatchOp.raw)).1
  rwa [← encodeBatch_eq, List.length_map] at h

/-- A batch whose payload a WAL record can carry is read back. -/
theorem decodeBatch_encode {seq : ℕ} {b : Batch} (hseq : seq < 2 ^ 64)
    (h : (encodeBatch seq b).length < 2 ^ 32) :
    decodeBatch (encodeBatch seq b) = some (seq, b.map BatchOp.raw) := by
  have hcount := @length_encodeBatch seq b
  rw [encodeBatch_eq] at h hcount ⊢
  refine decodeBatch_encodeRaw hseq ?_ (by omega)
  rw [List.length_map]
  omega

/-- What is read from a payload takes no more bytes when it is written again. -/
theorem decodeOps_length {n : ℕ} {p : Bytes} {ops : List RawOp} (h : decodeOps n p = some ops) :
    ops.length = n ∧ (ops.flatMap RawOp.encode).length ≤ p.length := by
  induction n generalizing p ops with
  | zero =>
    obtain rfl : [] = ops := Option.some.inj h
    exact ⟨rfl, Nat.zero_le _⟩
  | succ n ih =>
    cases p with
    | nil => cases h
    | cons kind p =>
      rw [decodeOps] at h
      cases hkey : takeBytes p with
      | none =>
        rw [hkey] at h
        cases h
      | some r =>
        obtain ⟨key, p'⟩ := r
        rw [hkey] at h
        dsimp only at h
        cases hvalue : takeBytes p' with
        | none =>
          rw [hvalue] at h
          cases h
        | some r =>
          obtain ⟨value, p''⟩ := r
          rw [hvalue] at h
          obtain ⟨ops', hops', rfl⟩ := Option.map_eq_some_iff.mp h
          obtain ⟨hcount, hlen⟩ := ih hops'
          have hkeyLen := Slices.takeBytes_length hkey
          have hvalueLen := Slices.takeBytes_length hvalue
          rw [List.length_cons, hcount, List.flatMap_cons, List.length_append]
          simp only [RawOp.encode, List.length_cons, List.length_append]
          exact ⟨trivial, by omega⟩

theorem decodeBatch_length {p : Bytes} {seq : ℕ} {ops : List RawOp}
    (h : decodeBatch p = some (seq, ops)) :
    seq < 2 ^ 64 ∧ ops.length < 2 ^ 32 ∧ (encodeRaw seq ops).length ≤ p.length := by
  unfold decodeBatch at h
  split at h
  · cases h
  · next hlen =>
    obtain ⟨ops', hops, heq⟩ := Option.map_eq_some_iff.mp h
    obtain ⟨rfl, rfl⟩ := Prod.mk.inj heq
    obtain ⟨hcount, hbytes⟩ := decodeOps_length hops
    have hseq := LittleEndian.decode_lt (p.take 8)
    have hword := LittleEndian.decode_lt ((p.drop 8).take 4)
    rw [List.length_take, Nat.min_eq_left (by omega)] at hseq
    rw [List.length_take, List.length_drop, Nat.min_eq_left (by omega), ← hcount] at hword
    refine ⟨hseq, hword, ?_⟩
    rw [List.length_drop] at hbytes
    simp only [encodeRaw, List.length_append, LittleEndian.length_encode]
    omega

/-! ## Every slice in range. -/

/-- `errBadBatch`. -/
inductive BatchError where
  | bad
  deriving DecidableEq, Repr

def BatchError.message : BatchError → String
  | .bad => "storage: malformed batch record"

/-- The loop of `decodeBatch` with its slices. -/
def readOps : ℕ → Bytes → Checked BatchError (List RawOp)
  | 0, _ => pure []
  | n + 1, p => do
    if p.length < 1 then
      throw .bad
    else
      let kind ← Checked.run (Slices.index p 0)
      let p ← Checked.run (Slices.sliceFrom p 1)
      let (key, p) ← Slices.readBytes BatchError.bad p
      let (value, p) ← Slices.readBytes BatchError.bad p
      let ops ← readOps n p
      pure (⟨kind, key, value⟩ :: ops)

/-- `decodeBatch` with its slices. -/
def readBatch (p : Bytes) : Checked BatchError (ℕ × List RawOp) := do
  if p.length < 12 then
    throw .bad
  else
    let seq ← Checked.run (Slices.word 8 p)
    let count ← Checked.run ((Slices.sliceFrom p 8).bind (Slices.word 4))
    let p ← Checked.run (Slices.sliceFrom p 12)
    let ops ← readOps count p
    pure (seq, ops)

theorem readOps_eq (n : ℕ) {p : Bytes} (h : p.length < 2 ^ 63) :
    readOps n p = Checked.done ((decodeOps n p).elim (.error .bad) .ok) := by
  induction n generalizing p with
  | zero => rfl
  | succ n ih =>
    cases p with
    | nil => rfl
    | cons kind p =>
      have hp : p.length < 2 ^ 63 := Nat.lt_of_succ_lt h
      have htail : Slices.sliceFrom (kind :: p) 1 = some p :=
        @Slices.sliceFrom_nat _ (kind :: p) 1 (by simp)
      rw [readOps, if_neg (by simp), Slices.index_cons_zero, htail]
      simp only [Checked.run_some, Checked.done_ok_bind]
      rw [Slices.readBytes_eq _ hp, decodeOps]
      cases hkey : takeBytes p with
      | none => rfl
      | some r =>
        obtain ⟨key, p'⟩ := r
        have hp' : p'.length < 2 ^ 63 := by
          have := Slices.takeBytes_length hkey
          omega
        simp only [Option.elim_some, Checked.done_ok_bind]
        rw [Slices.readBytes_eq _ hp']
        cases hvalue : takeBytes p' with
        | none => rfl
        | some r =>
          obtain ⟨value, p''⟩ := r
          have hp'' : p''.length < 2 ^ 63 := by
            have := Slices.takeBytes_length hvalue
            omega
          simp only [Option.elim_some, Checked.done_ok_bind]
          rw [ih hp'']
          cases decodeOps n p'' <;> rfl

/-- On a payload that fits in memory the code does not panic and returns what `decodeBatch` says. -/
theorem readBatch_eq {p : Bytes} (h : p.length < 2 ^ 63) :
    readBatch p = Checked.done ((decodeBatch p).elim (.error .bad) .ok) := by
  unfold readBatch decodeBatch
  by_cases hlen : p.length < 12
  · rw [if_pos hlen, if_pos hlen]
    rfl
  · have hcount : Slices.sliceFrom p 8 = some (p.drop 8) := @Slices.sliceFrom_nat _ p 8 (by omega)
    have hrest : Slices.sliceFrom p 12 = some (p.drop 12) := @Slices.sliceFrom_nat _ p 12 (by omega)
    rw [if_neg hlen, if_neg hlen, Slices.word_of_le (by omega), hcount, hrest, Option.bind_some,
      Slices.word_of_le (by rw [List.length_drop]; omega)]
    simp only [Checked.run_some, Checked.done_ok_bind]
    rw [readOps_eq _ (by rw [List.length_drop]; omega)]
    cases decodeOps (LittleEndian.decode ((p.drop 8).take 4)) (p.drop 12) <;> rfl

/-- **Batch records.**  A batch is read back as it was written; any payload is refused, or read as
operations that, written again, are read as the same operations.  No payload makes the code slice out of
range. -/
theorem batch_codec :
    (∀ (seq : ℕ) (b : Batch), seq < 2 ^ 64 → b.length < 2 ^ 32 → (encodeBatch seq b).length < 2 ^ 63 →
      readBatch (encodeBatch seq b) = Checked.done (.ok (seq, b.map BatchOp.raw))) ∧
    ∀ p : Bytes, p.length < 2 ^ 63 →
      readBatch p = Checked.done (.error .bad) ∨
        ∃ seq ops, readBatch p = Checked.done (.ok (seq, ops)) ∧
          readBatch (encodeRaw seq ops) = Checked.done (.ok (seq, ops)) := by
  constructor
  · intro seq b hseq hcount hlen
    rw [readBatch_eq hlen, encodeBatch_eq, decodeBatch_encodeRaw hseq]
    · rfl
    · rw [List.length_map]
      exact hcount
    · rw [encodeBatch_eq] at hlen
      omega
  · intro p hp
    cases hread : decodeBatch p with
    | none =>
      left
      rw [readBatch_eq hp, hread]
      rfl
    | some r =>
      right
      obtain ⟨seq, ops⟩ := r
      obtain ⟨hseq, hcount, hlen⟩ := decodeBatch_length hread
      refine ⟨seq, ops, ?_, ?_⟩
      · rw [readBatch_eq hp, hread]
        rfl
      · rw [readBatch_eq (by omega), decodeBatch_encodeRaw hseq hcount (by omega)]
        rfl

/-- A put and a delete, and eleven bytes that are no record. -/
theorem batch_codec_put_delete :
    readBatch (encodeBatch 7 [putOp [1] [2, 3], deleteOp [4]]) =
        Checked.done (.ok (7, [⟨1, [1], [2, 3]⟩, ⟨0, [4], []⟩])) ∧
      (readBatch (List.replicate 11 0) = Checked.done (.error .bad) ∨
        ∃ seq ops, readBatch (List.replicate 11 0) = Checked.done (.ok (seq, ops)) ∧
          readBatch (encodeRaw seq ops) = Checked.done (.ok (seq, ops))) :=
  ⟨batch_codec.1 7 [putOp [1] [2, 3], deleteOp [4]] (by decide) (by decide)
      (by simp [encodeBatch, encodeOp, Uvarint.encode, putOp, deleteOp]),
    batch_codec.2 (List.replicate 11 0) (by decide)⟩

end Keystone.Storage
