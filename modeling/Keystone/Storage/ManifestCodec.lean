/-
# Keystone.Storage.ManifestCodec — the bytes of the MANIFEST (`storage/manifest.go`).

A fixed header, as many table records as the header says, and a checksum over all of it.  The reader checks
the checksum, the version, and then each length as it comes to it; a table count or a key length that
promises more than is there is `errBadManifest`.  The checksum is any function of the bytes.

`decodeManifest` is the code with every slice it takes.  `readMeta_encode` and `readMeta_total` are its two
sides for one table record: what was written is read back, and nothing at all makes it slice out of range.
-/
import Keystone.Lib.Slices
import Keystone.Storage.Wal

namespace Keystone.Storage

open Keystone.Lib
open Keystone.Lib.Slices (Checked)

structure TableMeta where
  num : UInt64
  size : UInt64
  count : UInt64
  smallest : Bytes
  largest : Bytes
  deriving DecidableEq, Repr

/-- The `manifest` as its file has it; the engine's `Manifest` keeps only the tables' numbers. -/
structure ManifestFile where
  nextNum : UInt64
  lastSeq : UInt64
  logNum : UInt64
  tables : List TableMeta
  deriving DecidableEq, Repr

def manifestVersion : ℕ := 1

inductive ManifestError where
  | bad
  | corrupt
  | version (v : ℕ)
  deriving DecidableEq, Repr

def ManifestError.message : ManifestError → String
  | .bad => "storage: malformed manifest"
  | .corrupt => "manifest: wal: corrupt record"
  | .version v => "manifest: unsupported version " ++ toString v

/-! ## Writing. -/

def TableMeta.encode (t : TableMeta) : Bytes :=
  LittleEndian.encode 8 t.num.toNat ++ LittleEndian.encode 8 t.size.toNat ++
    LittleEndian.encode 8 t.count.toNat ++
    (Uvarint.encode t.smallest.length ++ t.smallest ++ (Uvarint.encode t.largest.length ++ t.largest))

/-- What the checksum covers; the count keeps its low 32 bits. -/
def ManifestFile.body (m : ManifestFile) : Bytes :=
  LittleEndian.encode 4 manifestVersion ++ LittleEndian.encode 8 m.nextNum.toNat ++
    LittleEndian.encode 8 m.lastSeq.toNat ++ LittleEndian.encode 8 m.logNum.toNat ++
    LittleEndian.encode 4 m.tables.length ++ m.tables.flatMap TableMeta.encode

/-- `manifest.encode`. -/
def ManifestFile.encode (checksum : Bytes → UInt32) (m : ManifestFile) : Bytes :=
  m.body ++ LittleEndian.encode 4 (checksum m.body).toNat

/-! ## Reading. -/

/-- `binary.LittleEndian.Uint64(p[i:])`. -/
def uint64At (p : Bytes) (i : ℤ) : Checked ManifestError UInt64 :=
  Checked.run (((Slices.sliceFrom p i).bind (Slices.word 8)).map UInt64.ofNat)

/-- One turn of the loop: a table record, and what follows it. -/
def readMeta (p : Bytes) : Checked ManifestError (TableMeta × Bytes) := do
  if p.length < 24 then
    throw .bad
  else
    let num ← uint64At p 0
    let size ← uint64At p 8
    let count ← uint64At p 16
    let p ← Checked.run (Slices.sliceFrom p 24)
    let (smallest, p) ← Slices.readBytes ManifestError.bad p
    let (largest, p) ← Slices.readBytes ManifestError.bad p
    pure (⟨num, size, count, smallest, largest⟩, p)

def readMetas : ℕ → Bytes → Checked ManifestError (List TableMeta)
  | 0, _ => pure []
  | n + 1, p => do
    let (t, p) ← readMeta p
    let ts ← readMetas n p
    pure (t :: ts)

def decodeManifest (checksum : Bytes → UInt32) (b : Bytes) : Checked ManifestError ManifestFile := do
  if b.length < 36 then
    throw .bad
  else
    let body ← Checked.run (Slices.slice b 0 (b.length - 4))
    let sum ← Checked.run ((Slices.sliceFrom b (b.length - 4)).bind (Slices.word 4))
    if (checksum body).toNat ≠ sum then
      throw .corrupt
    else
      let v ← Checked.run (Slices.word 4 body)
      if v ≠ manifestVersion then
        throw (.version v)
      else
        let nextNum ← uint64At body 4
        let lastSeq ← uint64At body 12
        let logNum ← uint64At body 20
        let n ← Checked.run ((Slices.sliceFrom body 28).bind (Slices.word 4))
        let p ← Checked.run (Slices.sliceFrom body 32)
        let tables ← readMetas n p
        pure ⟨nextNum, lastSeq, logNum, tables⟩

/-! ## One table record. -/

theorem uint64At_nat {p : Bytes} {i : ℕ} (h : i + 8 ≤ p.length) :
    uint64At p i = Checked.done (.ok (UInt64.ofNat (LittleEndian.decode ((p.drop i).take 8)))) := by
  unfold uint64At
  rw [Slices.sliceFrom_nat (by omega), Option.bind_some,
    Slices.word_of_le (by rw [List.length_drop]; omega)]
  rfl

/-- A number written at a place is read there. -/
theorem uint64At_encode {p q : Bytes} (x : UInt64) (rest : Bytes)
    (h : p = q ++ (LittleEndian.encode 8 x.toNat ++ rest)) :
    uint64At p q.length = Checked.done (.ok x) := by
  subst h
  rw [uint64At_nat (by simp), List.drop_left, List.take_left' (LittleEndian.length_encode 8 _),
    LittleEndian.decode_encode_of_lt (by have := x.toNat_lt; omega), UInt64.ofNat_toNat]

/-- A record is read or refused, and what follows it is shorter; no slice is out of range. -/
theorem readMeta_total {p : Bytes} (h : p.length < 2 ^ 63) :
    readMeta p = Checked.done (.error .bad) ∨
      ∃ t rest, readMeta p = Checked.done (.ok (t, rest)) ∧ rest.length ≤ p.length := by
  unfold readMeta
  by_cases hlen : p.length < 24
  · rw [if_pos hlen]
    exact .inl rfl
  · have hrest : Slices.sliceFrom p 24 = some (p.drop 24) := @Slices.sliceFrom_nat _ p 24 (by omega)
    have hdrop : (p.drop 24).length < 2 ^ 63 := by
      rw [List.length_drop]
      omega
    have h0 := @uint64At_nat p 0 (by omega)
    have h8 := @uint64At_nat p 8 (by omega)
    have h16 := @uint64At_nat p 16 (by omega)
    simp only [Nat.cast_ofNat, Nat.cast_zero] at h0 h8 h16
    rw [if_neg hlen, h0, h8, h16, hrest]
    simp only [Checked.run_some, Checked.done_ok_bind]
    rw [Slices.readBytes_eq _ hdrop]
    cases hsmall : Slices.takeBytes (p.drop 24) with
    | none => exact .inl rfl
    | some r =>
      obtain ⟨smallest, p'⟩ := r
      have hp' := Slices.takeBytes_length hsmall
      rw [List.length_drop] at hp' hdrop
      simp only [Option.elim_some, Checked.done_ok_bind]
      rw [Slices.readBytes_eq _ (by omega)]
      cases hlarge : Slices.takeBytes p' with
      | none => exact .inl rfl
      | some r =>
        obtain ⟨largest, p''⟩ := r
        have hp'' := Slices.takeBytes_length hlarge
        refine .inr ⟨_, p'', rfl, ?_⟩
        omega

/-- A record that was written is read back. -/
theorem readMeta_encode (t : TableMeta) (rest : Bytes) (h : (t.encode ++ rest).length < 2 ^ 63) :
    readMeta (t.encode ++ rest) = Checked.done (.ok (t, rest)) := by
  have hlen : 24 ≤ (t.encode ++ rest).length := by
    simp only [TableMeta.encode, List.length_append, LittleEndian.length_encode]
    omega
  have hfit : t.smallest.length < 2 ^ 63 ∧ t.largest.length < 2 ^ 63 := by
    simp only [TableMeta.encode, List.length_append] at h
    omega
  have hnum : uint64At (t.encode ++ rest) 0 = Checked.done (.ok t.num) :=
    @uint64At_encode _ [] t.num _ (by simp only [TableMeta.encode, List.append_assoc]; rfl)
  have hsize : uint64At (t.encode ++ rest) 8 = Checked.done (.ok t.size) :=
    @uint64At_encode _ (LittleEndian.encode 8 t.num.toNat) t.size _
      (by simp only [TableMeta.encode, List.append_assoc]; rfl)
  have hcount : uint64At (t.encode ++ rest) 16 = Checked.done (.ok t.count) :=
    @uint64At_encode _ (LittleEndian.encode 8 t.num.toNat ++ LittleEndian.encode 8 t.size.toNat) t.count _
      (by simp only [TableMeta.encode, List.append_assoc]; rfl)
  have hkeys : (t.encode ++ rest).drop 24 =
      Uvarint.encode t.smallest.length ++ t.smallest ++
        (Uvarint.encode t.largest.length ++ t.largest ++ rest) := by
    have hsplit : t.encode ++ rest =
        (LittleEndian.encode 8 t.num.toNat ++ LittleEndian.encode 8 t.size.toNat ++
          LittleEndian.encode 8 t.count.toNat) ++
        (Uvarint.encode t.smallest.length ++ t.smallest ++
          (Uvarint.encode t.largest.length ++ t.largest ++ rest)) := by
      simp only [TableMeta.encode, List.append_assoc]
    rw [hsplit, List.drop_left' (by simp)]
  have hdrop : Slices.sliceFrom (t.encode ++ rest) 24 = some ((t.encode ++ rest).drop 24) :=
    @Slices.sliceFrom_nat _ _ 24 hlen
  have hdropLen : ((t.encode ++ rest).drop 24).length < 2 ^ 63 := by
    rw [List.length_drop]
    omega
  unfold readMeta
  rw [if_neg (by omega), hnum, hsize, hcount, hdrop]
  simp only [Checked.run_some, Checked.done_ok_bind]
  rw [Slices.readBytes_eq _ hdropLen, hkeys, Slices.takeBytes_append (by omega)]
  rw [hkeys] at hdropLen
  simp only [Option.elim_some, Checked.done_ok_bind]
  rw [Slices.readBytes_eq _ (by rw [List.length_append] at hdropLen; omega),
    Slices.takeBytes_append (by omega)]
  rfl

/-! ## The whole file. -/

theorem readMetas_total (n : ℕ) {p : Bytes} (h : p.length < 2 ^ 63) :
    ∃ r, readMetas n p = Checked.done r := by
  induction n generalizing p with
  | zero => exact ⟨_, rfl⟩
  | succ n ih =>
    unfold readMetas
    rcases readMeta_total h with hbad | ⟨t, rest, hread, hlen⟩
    · exact ⟨.error .bad, by rw [hbad]; rfl⟩
    · obtain ⟨r, hr⟩ := @ih rest (by omega)
      rw [hread]
      simp only [Checked.done_ok_bind]
      rw [hr]
      cases r with
      | error e => exact ⟨_, rfl⟩
      | ok ts => exact ⟨_, rfl⟩

theorem readMetas_encode (ts : List TableMeta) (h : (ts.flatMap TableMeta.encode).length < 2 ^ 63) :
    readMetas ts.length (ts.flatMap TableMeta.encode) = Checked.done (.ok ts) := by
  induction ts with
  | nil => rfl
  | cons t ts ih =>
    rw [List.flatMap_cons] at h ⊢
    rw [List.length_cons, readMetas, readMeta_encode t _ h]
    simp only [Checked.done_ok_bind]
    rw [ih (by rw [List.length_append] at h; omega)]
    rfl

theorem decodeManifest_total (checksum : Bytes → UInt32) {b : Bytes} (h : b.length < 2 ^ 63) :
    ∃ r, decodeManifest checksum b = Checked.done r := by
  unfold decodeManifest
  by_cases hlen : b.length < 36
  · rw [if_pos hlen]
    exact ⟨_, rfl⟩
  have hbody : Slices.slice b 0 ((b.length : ℤ) - 4) = some (b.take (b.length - 4)) := by
    rw [show (b.length : ℤ) - 4 = (b.length - 4 : ℕ) by omega]
    exact Slices.slice_nat (Nat.zero_le _) (by omega)
  have hsum : Slices.sliceFrom b ((b.length : ℤ) - 4) = some (b.drop (b.length - 4)) := by
    rw [show (b.length : ℤ) - 4 = (b.length - 4 : ℕ) by omega]
    exact Slices.sliceFrom_nat (by omega)
  rw [if_neg hlen, hbody, hsum, Option.bind_some, Slices.word_of_le (by rw [List.length_drop]; omega)]
  simp only [Checked.run_some, Checked.done_ok_bind]
  -- from here on only the body matters, and it has the 32 bytes of the header
  generalize hb : b.take (b.length - 4) = body
  have hlow : 32 ≤ body.length := by
    rw [← hb, List.length_take]
    omega
  have hhigh : body.length < 2 ^ 63 := by
    rw [← hb, List.length_take]
    omega
  split
  · exact ⟨_, rfl⟩
  · rw [Slices.word_of_le (by omega)]
    simp only [Checked.run_some, Checked.done_ok_bind]
    split
    · exact ⟨_, rfl⟩
    · have h4 := @uint64At_nat body 4 (by omega)
      have h12 := @uint64At_nat body 12 (by omega)
      have h20 := @uint64At_nat body 20 (by omega)
      have h28 : Slices.sliceFrom body 28 = some (body.drop 28) := @Slices.sliceFrom_nat _ body 28 (by omega)
      have h32 : Slices.sliceFrom body 32 = some (body.drop 32) := @Slices.sliceFrom_nat _ body 32 (by omega)
      simp only [Nat.cast_ofNat] at h4 h12 h20
      rw [h4, h12, h20, h28, h32, Option.bind_some,
        Slices.word_of_le (by rw [List.length_drop]; omega)]
      simp only [Checked.run_some, Checked.done_ok_bind]
      obtain ⟨r, hr⟩ := @readMetas_total (LittleEndian.decode ((body.drop 28).take 4)) (body.drop 32)
        (by rw [List.length_drop]; omega)
      rw [hr]
      cases r with
      | error e => exact ⟨_, rfl⟩
      | ok ts => exact ⟨_, rfl⟩

theorem decodeManifest_encode (checksum : Bytes → UInt32) {m : ManifestFile}
    (hcount : m.tables.length < 2 ^ 32) (hlen : (m.encode checksum).length < 2 ^ 63) :
    decodeManifest checksum (m.encode checksum) = Checked.done (.ok m) := by
  have htotal : (m.encode checksum).length = m.body.length + 4 := by
    simp only [ManifestFile.encode, List.length_append, LittleEndian.length_encode]
  have hbodyLen : m.body.length = 32 + (m.tables.flatMap TableMeta.encode).length := by
    simp only [ManifestFile.body, List.length_append, LittleEndian.length_encode]
  have hbody : Slices.slice (m.encode checksum) 0 (((m.encode checksum).length : ℤ) - 4) =
      some m.body := by
    rw [htotal, show ((m.body.length + 4 : ℕ) : ℤ) - 4 = (m.body.length : ℕ) by omega]
    refine (Slices.slice_nat (Nat.zero_le _) (by omega)).trans ?_
    rw [List.drop_zero, ManifestFile.encode, List.take_left]
  have hsum : Slices.sliceFrom (m.encode checksum) (((m.encode checksum).length : ℤ) - 4) =
      some (LittleEndian.encode 4 (checksum m.body).toNat) := by
    rw [htotal, show ((m.body.length + 4 : ℕ) : ℤ) - 4 = (m.body.length : ℕ) by omega,
      Slices.sliceFrom_nat (by omega), ManifestFile.encode, List.drop_left]
  have hword : ∀ n, n < 2 ^ 32 →
      Slices.word 4 (LittleEndian.encode 4 n) = some n := by
    intro n hn
    rw [Slices.word_of_le (by simp), List.take_of_length_le (by simp),
      LittleEndian.decode_encode_of_lt (by omega)]
  have hversion : Slices.word 4 m.body = some manifestVersion := by
    rw [Slices.word_of_le (by omega)]
    simp only [ManifestFile.body, List.append_assoc]
    rw [List.take_left' (LittleEndian.length_encode 4 _), LittleEndian.decode_encode_of_lt (by decide)]
  have hnext : uint64At m.body 4 = Checked.done (.ok m.nextNum) :=
    @uint64At_encode _ (LittleEndian.encode 4 manifestVersion) m.nextNum _
      (by simp only [ManifestFile.body, List.append_assoc]; rfl)
  have hlast : uint64At m.body 12 = Checked.done (.ok m.lastSeq) :=
    @uint64At_encode _
      (LittleEndian.encode 4 manifestVersion ++ LittleEndian.encode 8 m.nextNum.toNat) m.lastSeq _
      (by simp only [ManifestFile.body, List.append_assoc]; rfl)
  have hlog : uint64At m.body 20 = Checked.done (.ok m.logNum) :=
    @uint64At_encode _
      (LittleEndian.encode 4 manifestVersion ++ LittleEndian.encode 8 m.nextNum.toNat ++
        LittleEndian.encode 8 m.lastSeq.toNat) m.logNum _
      (by simp only [ManifestFile.body, List.append_assoc]; rfl)
  have htables : m.body.drop 32 = m.tables.flatMap TableMeta.encode := by
    rw [ManifestFile.body, List.drop_left' (by simp)]
  have hntables : (Slices.sliceFrom m.body 28).bind (Slices.word 4) = some m.tables.length := by
    have hdrop : m.body.drop 28 =
        LittleEndian.encode 4 m.tables.length ++ m.tables.flatMap TableMeta.encode := by
      rw [ManifestFile.body, List.append_assoc, List.drop_left' (by simp)]
    have h28 : Slices.sliceFrom m.body 28 = some (m.body.drop 28) :=
      @Slices.sliceFrom_nat _ m.body 28 (by omega)
    rw [h28, Option.bind_some, Slices.word_of_le (by rw [List.length_drop]; omega), hdrop,
      List.take_left' (LittleEndian.length_encode 4 _), LittleEndian.decode_encode_of_lt (by omega)]
  have h32 : Slices.sliceFrom m.body 32 = some (m.body.drop 32) :=
    @Slices.sliceFrom_nat _ m.body 32 (by omega)
  unfold decodeManifest
  rw [if_neg (by omega), hbody, hsum, Option.bind_some,
    hword _ (by have := (checksum m.body).toNat_lt; omega)]
  simp only [Checked.run_some, Checked.done_ok_bind]
  rw [if_neg (by simp), hversion]
  simp only [Checked.run_some, Checked.done_ok_bind]
  rw [if_neg (by simp), hnext, hlast, hlog, hntables, h32, htables]
  simp only [Checked.run_some, Checked.done_ok_bind]
  rw [readMetas_encode _ (by omega)]
  rfl

/-- **The MANIFEST's bytes.**  Under any checksum a manifest is read back as it was written, its tables in
their order, and any bytes at all are read or refused without a slice out of range. -/
theorem manifest_codec (checksum : Bytes → UInt32) :
    (∀ m : ManifestFile, m.tables.length < 2 ^ 32 → (m.encode checksum).length < 2 ^ 63 →
      decodeManifest checksum (m.encode checksum) = Checked.done (.ok m)) ∧
    ∀ b : Bytes, b.length < 2 ^ 63 → ∃ r, decodeManifest checksum b = Checked.done r := by
  constructor
  · intro m hcount hlen
    exact decodeManifest_encode checksum hcount hlen
  · intro b hb
    exact decodeManifest_total checksum hb

/-- A manifest with one table, and a file that is empty. -/
theorem manifest_codec_one_table :
    decodeManifest (fun _ => 5) (ManifestFile.encode (fun _ => 5) ⟨3, 9, 2, [⟨1, 70, 1, [7], []⟩]⟩) =
        Checked.done (.ok ⟨3, 9, 2, [⟨1, 70, 1, [7], []⟩]⟩) ∧
      ∃ r, decodeManifest (fun _ => 5) [] = Checked.done r :=
  ⟨(manifest_codec fun _ => 5).1 ⟨3, 9, 2, [⟨1, 70, 1, [7], []⟩]⟩ (by decide)
      (by simp [ManifestFile.encode, ManifestFile.body, TableMeta.encode, Uvarint.encode]),
    (manifest_codec fun _ => 5).2 [] (by decide)⟩

end Keystone.Storage
