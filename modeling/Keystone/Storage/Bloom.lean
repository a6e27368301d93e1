/-
# Keystone.Storage.Bloom — the filter over a table's user keys (`storage/bloom.go`).

A filter is a byte with the number of probes and an array of bits; each key sets, and is looked up by,
the bits its two hashes lead to.  Positions are taken modulo the number of bits as a 32-bit word, which is
zero for an array of a multiple of 2^29 bytes: the code then divides by zero (`none`).  Otherwise a key
the filter was built from is always found (`mayContain_buildBloom`), also when the number of bits does not
fit its word.
-/
import Keystone.Lib.LittleEndian
import Keystone.Lib.Slices
import Keystone.Storage.Wal

namespace Keystone.Storage

open Keystone.Lib

def bloomBitsPerKey : ℕ := 10

def bloomProbes : ℕ := 7

/-! ## MurmurHash64A. -/

def murmurMul : UInt64 := 0xc6a4a7935bd1e995

/-- The loop over whole words. -/
def hashWords : ℕ → Bytes → UInt64 → UInt64
  | 0, _, h => h
  | n + 1, data, h =>
    let k := UInt64.ofNat (LittleEndian.decode (data.take 8)) * murmurMul
    let k := (k ^^^ (k >>> 47)) * murmurMul
    hashWords n (data.drop 8) ((h ^^^ k) * murmurMul)

def hash64 (data : Bytes) (seed : UInt64) : UInt64 :=
  let h := hashWords (data.length / 8) data (seed ^^^ (UInt64.ofNat data.length * murmurMul))
  -- what is left is read as a word padded with zeros
  let rest := data.drop (8 * (data.length / 8))
  let h := if rest = [] then h else (h ^^^ UInt64.ofNat (LittleEndian.decode rest)) * murmurMul
  let h := (h ^^^ (h >>> 47)) * murmurMul
  h ^^^ (h >>> 47)

def bloomHashes (key : Bytes) : UInt32 × UInt32 :=
  let h := hash64 key 0x9ae16a3b2f90404f
  (h.toUInt32, (h >>> 32).toUInt32 ||| 1)

/-! ## The filter. -/

/-- `(h1 + i*h2) % nbits`; division by zero panics. -/
def probeAt (nbits : UInt32) (key : Bytes) (i : ℕ) : Option ℕ :=
  if nbits = 0 then none
  else some (((bloomHashes key).1 + UInt32.ofNat i * (bloomHashes key).2) % nbits).toNat

/-- `1 << (pos % 8)` -/
def bitMask (pos : ℕ) : UInt8 := 1 <<< UInt8.ofNat (pos % 8)

/-- `bits[pos/8] |= 1 << (pos % 8)` -/
def setBit (bits : Bytes) (pos : ℕ) : Option Bytes :=
  if pos / 8 < bits.length then some (bits.modify (pos / 8) (· ||| bitMask pos)) else none

/-- The loop over the probes of one key. -/
def setProbes (nbits : UInt32) (key : Bytes) (is : List ℕ) (bits : Bytes) : Option Bytes :=
  is.foldlM (fun bits i => (probeAt nbits key i).bind (setBit bits)) bits

def bloomBytes (keys : ℕ) : ℕ :=
  ((if keys * bloomBitsPerKey < 64 then 64 else keys * bloomBitsPerKey) + 7) / 8

def buildBloom (keys : List Bytes) : Option Bytes :=
  let nbytes := bloomBytes keys.length
  let bits := keys.foldlM (fun bits k =>
    setProbes (UInt32.ofNat (nbytes * 8)) k (List.range bloomProbes) bits) (List.replicate nbytes 0)
  bits.map (UInt8.ofNat bloomProbes :: ·)

/-- The loop of `mayContain`. -/
def testProbes (nbits : UInt32) (key bits : Bytes) : List ℕ → Option Bool
  | [] => some true
  | i :: is => do
    let pos ← probeAt nbits key i
    let b ← bits[pos / 8]?
    if b &&& bitMask pos = 0 then some false else testProbes nbits key bits is

def mayContain (f key : Bytes) : Option Bool :=
  match f with
  | probes :: b :: bits =>
    testProbes (UInt32.ofNat ((b :: bits).length * 8)) key (b :: bits) (List.range probes.toNat)
  | _ => some true

/-! ## A key that was put in is found. -/

/-- The bit at `pos` is set. -/
def BitSet (bits : Bytes) (pos : ℕ) : Prop := ∃ b, bits[pos / 8]? = some b ∧ b &&& bitMask pos ≠ 0

theorem bitMask_ne_zero (pos : ℕ) : bitMask pos ≠ 0 := by
  have h : ∀ j : Fin 8, (1 : UInt8) <<< UInt8.ofNat j.val ≠ 0 := by decide
  exact h ⟨pos % 8, Nat.mod_lt _ (by decide)⟩

theorem or_and_ne_zero_left {a b m : UInt8} (h : a &&& m ≠ 0) : (a ||| b) &&& m ≠ 0 := by
  intro h0
  refine h ?_
  rw [← UInt8.toBitVec_inj] at h0 ⊢
  simp only [UInt8.toBitVec_and, UInt8.toBitVec_or] at h0 ⊢
  ext i hi
  have := congrArg (·.getLsbD i) h0
  simp at this ⊢
  tauto

theorem or_and_ne_zero_right {a m : UInt8} (h : m ≠ 0) : (a ||| m) &&& m ≠ 0 := by
  rw [UInt8.or_comm]
  refine or_and_ne_zero_left ?_
  rw [UInt8.and_self]
  exact h

/-- Setting a bit sets it and clears none. -/
theorem setBit_spec {bits bits' : Bytes} {pos : ℕ} (h : setBit bits pos = some bits') :
    bits'.length = bits.length ∧ BitSet bits' pos ∧ ∀ p, BitSet bits p → BitSet bits' p := by
  unfold setBit at h
  split at h
  case isFalse => cases h
  next hlt =>
  obtain rfl := Option.some.inj h
  refine ⟨List.length_modify .., ?_, fun p ⟨b, hb, hne⟩ => ?_⟩
  · refine ⟨bits[pos / 8] ||| bitMask pos, ?_, or_and_ne_zero_right (bitMask_ne_zero pos)⟩
    simp [List.getElem?_eq_getElem hlt]
  · by_cases hp : pos / 8 = p / 8
    · refine ⟨b ||| bitMask pos, ?_, or_and_ne_zero_left hne⟩
      simp [hp, hb]
    · refine ⟨b, ?_, hne⟩
      simp [hp, hb]

/-- The positions a key leads to are set. -/
def KeySet (nbits : UInt32) (bits : Bytes) (key : Bytes) : Prop :=
  ∀ i < bloomProbes, ∃ pos, probeAt nbits key i = some pos ∧ BitSet bits pos

theorem probeAt_spec {nbits : UInt32} (h : nbits ≠ 0) (key : Bytes) (i : ℕ) :
    ∃ pos, probeAt nbits key i = some pos ∧ pos < nbits.toNat := by
  have hpos : 0 < nbits.toNat := by
    have hne : nbits.toNat ≠ 0 := fun h0 => h (UInt32.toNat_inj.mp h0)
    omega
  refine ⟨_, if_neg h, ?_⟩
  rw [UInt32.toNat_mod]
  exact Nat.mod_lt _ hpos

theorem setProbes_spec {nbits : UInt32} (h : nbits ≠ 0) (key : Bytes) (is : List ℕ) {bits : Bytes}
    (hlen : nbits.toNat ≤ 8 * bits.length) :
    ∃ bits', setProbes nbits key is bits = some bits' ∧ bits'.length = bits.length ∧
      (∀ i ∈ is, ∃ pos, probeAt nbits key i = some pos ∧ BitSet bits' pos) ∧
      ∀ p, BitSet bits p → BitSet bits' p := by
  induction is generalizing bits with
  | nil => exact ⟨bits, rfl, rfl, fun _ hi => absurd hi List.not_mem_nil, fun _ hp => hp⟩
  | cons i is ih =>
    obtain ⟨pos, hpos, hlt⟩ := probeAt_spec h key i
    obtain ⟨bits₁, hset⟩ : ∃ bits₁, setBit bits pos = some bits₁ := ⟨_, if_pos (by omega)⟩
    obtain ⟨hlen₁, hbit, hkeep⟩ := setBit_spec hset
    obtain ⟨bits', hrest, hlen', hall, hkeep'⟩ := ih (show nbits.toNat ≤ 8 * bits₁.length by omega)
    refine ⟨bits', ?_, by omega, ?_, fun p hp => hkeep' p (hkeep p hp)⟩
    · unfold setProbes at hrest ⊢
      rw [List.foldlM_cons, hpos, Option.bind_some, hset]
      exact hrest
    · rintro j (_ | ⟨_, hj⟩)
      · exact ⟨pos, hpos, hkeep' pos hbit⟩
      · exact hall j hj

theorem buildLoop_spec {nbits : UInt32} (h : nbits ≠ 0) (keys : List Bytes) {bits : Bytes}
    (hlen : nbits.toNat ≤ 8 * bits.length) :
    ∃ bits', keys.foldlM (fun bits k => setProbes nbits k (List.range bloomProbes) bits) bits =
        some bits' ∧ bits'.length = bits.length ∧ (∀ k ∈ keys, KeySet nbits bits' k) ∧
      ∀ p, BitSet bits p → BitSet bits' p := by
  induction keys generalizing bits with
  | nil => exact ⟨bits, rfl, rfl, fun _ hk => absurd hk List.not_mem_nil, fun _ hp => hp⟩
  | cons k keys ih =>
    obtain ⟨bits₁, hset, hlen₁, hk, hkeep⟩ := setProbes_spec h k (List.range bloomProbes) hlen
    obtain ⟨bits', hrest, hlen', hall, hkeep'⟩ := ih (show nbits.toNat ≤ 8 * bits₁.length by omega)
    refine ⟨bits', ?_, by omega, ?_, fun p hp => hkeep' p (hkeep p hp)⟩
    · rw [List.foldlM_cons, hset]
      exact hrest
    · rintro x (_ | ⟨_, hx⟩)
      · intro i hi
        obtain ⟨pos, hpos, hbit⟩ := hk i (List.mem_range.mpr hi)
        exact ⟨pos, hpos, hkeep' pos hbit⟩
      · exact hall x hx

theorem testProbes_of_set {nbits : UInt32} {key bits : Bytes} {is : List ℕ}
    (h : ∀ i ∈ is, ∃ pos, probeAt nbits key i = some pos ∧ BitSet bits pos) :
    testProbes nbits key bits is = some true := by
  induction is with
  | nil => rfl
  | cons i is ih =>
    obtain ⟨⟨pos, hpos, b, hb, hne⟩, his⟩ := List.forall_mem_cons.mp h
    simp only [testProbes, hpos, hb, Option.bind_eq_bind, Option.bind_some, if_neg hne]
    exact ih his

/-- Without division by zero a lookup has an answer. -/
theorem testProbes_total {nbits : UInt32} (h : nbits ≠ 0) (key : Bytes) {bits : Bytes}
    (hlen : nbits.toNat ≤ 8 * bits.length) (is : List ℕ) : ∃ b, testProbes nbits key bits is = some b := by
  induction is with
  | nil => exact ⟨true, rfl⟩
  | cons i is ih =>
    obtain ⟨pos, hpos, hlt⟩ := probeAt_spec h key i
    have hb : bits[pos / 8]? = some bits[pos / 8] := List.getElem?_eq_getElem (by omega)
    simp only [testProbes, hpos, hb, Option.bind_eq_bind, Option.bind_some]
    split
    · exact ⟨false, rfl⟩
    · exact ih

theorem bloomBytes_ge (n : ℕ) : 8 ≤ bloomBytes n := by
  unfold bloomBytes
  split <;> omega

theorem ofNat_toNat_le (n : ℕ) : (UInt32.ofNat (n * 8)).toNat ≤ 8 * n := by
  rw [UInt32.toNat_ofNat']
  have := Nat.mod_le (n * 8) (2 ^ 32)
  omega

/-- The number of bits, as a 32-bit word, is zero. -/
theorem ofNat_eq_zero {n : ℕ} : UInt32.ofNat (n * 8) = 0 ↔ n % 2 ^ 29 = 0 := by
  rw [← UInt32.toNat_inj, UInt32.toNat_ofNat']
  show n * 8 % 2 ^ 32 = 0 ↔ _
  omega

/-- **No key is hidden.**  A filter whose number of bits is not a multiple of 2^32 is built, and it
contains every key it was built from. -/
theorem mayContain_buildBloom {keys : List Bytes} (h : bloomBytes keys.length % 2 ^ 29 ≠ 0) :
    ∃ f, buildBloom keys = some f ∧ f.length = 1 + bloomBytes keys.length ∧
      ∀ k ∈ keys, mayContain f k = some true := by
  have hne : UInt32.ofNat (bloomBytes keys.length * 8) ≠ 0 := fun h0 => h (ofNat_eq_zero.mp h0)
  have hroom : (UInt32.ofNat (bloomBytes keys.length * 8)).toNat ≤
      8 * (List.replicate (bloomBytes keys.length) (0 : UInt8)).length := by
    rw [List.length_replicate]
    exact ofNat_toNat_le _
  obtain ⟨bits, hbits, hlen, hall, -⟩ := buildLoop_spec hne keys hroom
  rw [List.length_replicate] at hlen
  have hge := bloomBytes_ge keys.length
  refine ⟨UInt8.ofNat bloomProbes :: bits, ?_, by rw [List.length_cons]; omega, fun k hk => ?_⟩
  · unfold buildBloom
    dsimp only
    rw [hbits]
    rfl
  · cases bits with
    | nil =>
      rw [List.length_nil] at hlen
      omega
    | cons b bits =>
      show testProbes (UInt32.ofNat ((b :: bits).length * 8)) k (b :: bits) (List.range bloomProbes) = _
      rw [hlen]
      refine testProbes_of_set fun i hi => ?_
      exact hall k hk i (List.mem_range.mp hi)

/-- With a multiple of 2^29 bytes the first key makes the code divide by zero. -/
theorem buildBloom_panics {keys : List Bytes} (h : bloomBytes keys.length % 2 ^ 29 = 0) :
    buildBloom keys = none := by
  cases keys with
  | nil => exact absurd h (by decide)
  | cons k keys =>
    unfold buildBloom
    dsimp only
    rw [ofNat_eq_zero.mpr h, List.foldlM_cons]
    have hnone : ∀ bits, setProbes 0 k (List.range bloomProbes) bits = none := fun _ => rfl
    rw [hnone]
    rfl

end Keystone.Storage
