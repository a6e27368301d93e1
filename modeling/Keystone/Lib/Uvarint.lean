/-
# Keystone.Lib.Uvarint — unsigned numbers in base 128, least significant digits first.

The encoding of `encoding/binary`: seven bits a byte, the high bit of a byte set when another follows.
Reading stops at ten bytes, of which the last may carry one bit, so that what is read is a 64-bit word.
-/
import Mathlib.Algebra.Ring.Nat
import Mathlib.Tactic.Common

namespace Keystone.Lib.Uvarint

/-- `binary.AppendUvarint`. -/
def encode (n : ℕ) : List UInt8 :=
  if n < 128 then [UInt8.ofNat n] else UInt8.ofNat (n % 128 + 128) :: encode (n / 128)
termination_by n
decreasing_by omega

/-- `binary.Uvarint` from byte `i` on: the number, and the bytes behind it. -/
def decodeFrom (i : ℕ) : List UInt8 → Option (ℕ × List UInt8)
  | [] => none
  | b :: bs =>
    if i = 10 then
      none
    else if b.toNat < 128 then
      if i = 9 ∧ b.toNat > 1 then none else some (b.toNat, bs)
    else
      (decodeFrom (i + 1) bs).map fun r => (b.toNat % 128 + 128 * r.1, r.2)

def decode (bs : List UInt8) : Option (ℕ × List UInt8) := decodeFrom 0 bs

/-- The digits from the `i`-th on leave room for `64 - 7 * i` bits. -/
theorem decodeFrom_encode {i n : ℕ} (hi : i ≤ 9) (hn : n < 2 ^ (64 - 7 * i)) (rest : List UInt8) :
    decodeFrom i (encode n ++ rest) = some (n, rest) := by
  induction n using Nat.strongRecOn generalizing i with
  | ind n ih =>
    have h10 : i ≠ 10 := by omega
    rw [encode]
    split
    next hlt =>
      have hbyte : (UInt8.ofNat n).toNat = n := by
        rw [UInt8.toNat_ofNat']
        omega
      have hlast : ¬ (i = 9 ∧ n > 1) := by
        rintro ⟨rfl, h1⟩
        omega
      simp only [List.singleton_append, decodeFrom, if_neg h10, hbyte, if_pos hlt, if_neg hlast]
    next hge =>
      have hbyte : (UInt8.ofNat (n % 128 + 128)).toNat = n % 128 + 128 := by
        rw [UInt8.toNat_ofNat']
        omega
      have hi' : i < 9 := by
        by_contra h9
        obtain rfl : i = 9 := by omega
        omega
      have hdiv : n / 128 < 2 ^ (64 - 7 * (i + 1)) := by
        have hsplit : 2 ^ (64 - 7 * i) = 2 ^ (64 - 7 * (i + 1)) * 128 := by
          rw [show (128 : ℕ) = 2 ^ 7 from rfl, ← Nat.pow_add]
          congr 1
          omega
        exact Nat.div_lt_of_lt_mul (by rw [Nat.mul_comm, ← hsplit]; exact hn)
      have hrec := ih (n / 128) (by omega) (by omega) hdiv
      simp only [List.cons_append, decodeFrom, if_neg h10, hbyte,
        if_neg (by omega : ¬ n % 128 + 128 < 128), hrec, Option.map_some, Option.some.injEq,
        Prod.mk.injEq, and_true]
      omega

theorem decode_encode {n : ℕ} (hn : n < 2 ^ 64) (rest : List UInt8) :
    decode (encode n ++ rest) = some (n, rest) := decodeFrom_encode (by omega) (by simpa using hn) rest

/-! ## The number of bytes read.

`binary.Uvarint` also returns how many bytes it read: `0` when the bytes end inside a number, and the
negated count when the number has more than 64 bits. -/

/-- `binary.Uvarint` from byte `i` on. -/
def readFrom (i : ℕ) : List UInt8 → ℕ × ℤ
  | [] => (0, 0)
  | b :: bs =>
    if i = 10 then
      (0, -(i + 1))
    else if b.toNat < 128 then
      if i = 9 ∧ b.toNat > 1 then (0, -(i + 1)) else (b.toNat, i + 1)
    else if (readFrom (i + 1) bs).2 ≤ 0 then
      (0, (readFrom (i + 1) bs).2)
    else
      (b.toNat % 128 + 128 * (readFrom (i + 1) bs).1, (readFrom (i + 1) bs).2)

def read (bs : List UInt8) : ℕ × ℤ := readFrom 0 bs

/-- A count above zero counts the bytes before byte `i`, and no more bytes than there are. -/
theorem readFrom_bounds {i : ℕ} {bs : List UInt8} (h : ¬ (readFrom i bs).2 ≤ 0) :
    (i : ℤ) < (readFrom i bs).2 ∧ (readFrom i bs).2 ≤ i + bs.length := by
  induction bs generalizing i with
  | nil => exact absurd (Int.le_refl 0) h
  | cons b bs ih =>
    unfold readFrom at h ⊢
    by_cases h10 : i = 10
    · rw [if_pos h10] at h
      omega
    rw [if_neg h10] at h ⊢
    by_cases hb : b.toNat < 128
    · rw [if_pos hb] at h ⊢
      by_cases h9 : i = 9 ∧ b.toNat > 1
      · rw [if_pos h9] at h
        omega
      · rw [if_neg h9, List.length_cons]
        omega
    · rw [if_neg hb] at h ⊢
      by_cases hneg : (readFrom (i + 1) bs).2 ≤ 0
      · rw [if_pos hneg] at h
        exact absurd hneg h
      · rw [if_neg hneg, List.length_cons]
        have := ih hneg
        omega

/-- A count above zero says where the bytes behind the number begin. -/
theorem decodeFrom_eq (i : ℕ) (bs : List UInt8) :
    decodeFrom i bs =
      if (readFrom i bs).2 ≤ 0 then none
      else some ((readFrom i bs).1, bs.drop ((readFrom i bs).2.toNat - i)) := by
  induction bs generalizing i with
  | nil => rfl
  | cons b bs ih =>
    unfold decodeFrom readFrom
    by_cases h10 : i = 10
    · simp [h10]
    by_cases hb : b.toNat < 128
    · by_cases h9 : i = 9 ∧ b.toNat > 1
      · rw [if_neg h10, if_pos hb, if_pos h9, if_neg h10, if_pos hb, if_pos h9, if_pos (by omega)]
      · rw [if_neg h10, if_pos hb, if_neg h9, if_neg h10, if_pos hb, if_neg h9, if_neg (by omega)]
        simp
    · rw [if_neg h10, if_neg hb, if_neg h10, if_neg hb, ih (i + 1)]
      by_cases hneg : (readFrom (i + 1) bs).2 ≤ 0
      · simp [hneg]
      · rw [if_neg hneg, if_neg hneg, if_neg hneg]
        have hcount := (readFrom_bounds hneg).1
        obtain ⟨k, hk⟩ : ∃ k, (readFrom (i + 1) bs).2.toNat - i = k + 1 :=
          ⟨(readFrom (i + 1) bs).2.toNat - (i + 1), by omega⟩
        have hk' : (readFrom (i + 1) bs).2.toNat - (i + 1) = k := by omega
        simp [hk, hk']

/-- There is no eleventh byte. -/
theorem readFrom_ten (bs : List UInt8) : (readFrom 10 bs).2 ≤ 0 := by
  cases bs with
  | nil => exact Int.le_refl 0
  | cons b bs =>
    rw [readFrom, if_pos rfl]
    decide

/-- What is read fits in the bits that byte `i` and those behind it may carry. -/
theorem readFrom_lt {i : ℕ} (hi : i ≤ 9) (bs : List UInt8) : (readFrom i bs).1 < 2 ^ (64 - 7 * i) := by
  induction bs generalizing i with
  | nil => exact Nat.two_pow_pos _
  | cons b bs ih =>
    unfold readFrom
    rw [if_neg (by omega)]
    by_cases hb : b.toNat < 128
    · rw [if_pos hb]
      by_cases h9 : i = 9 ∧ b.toNat > 1
      · rw [if_pos h9]
        exact Nat.two_pow_pos _
      · rw [if_neg h9]
        by_cases hlast : i = 9
        · subst hlast
          have hbit : b.toNat ≤ 1 := Nat.not_lt.mp fun h => h9 ⟨rfl, h⟩
          show b.toNat < 2 ^ (64 - 7 * 9)
          omega
        · have hroom : 2 ^ 7 ≤ 2 ^ (64 - 7 * i) := Nat.pow_le_pow_right (by omega) (by omega)
          show b.toNat < 2 ^ (64 - 7 * i)
          omega
    · rw [if_neg hb]
      by_cases hneg : (readFrom (i + 1) bs).2 ≤ 0
      · rw [if_pos hneg]
        exact Nat.two_pow_pos _
      · rw [if_neg hneg]
        by_cases hlast : i = 9
        · -- a tenth byte that says another follows
          subst hlast
          exact absurd (readFrom_ten bs) hneg
        · have hrec := ih (by omega : i + 1 ≤ 9)
          have hsplit : 2 ^ (64 - 7 * i) = 2 ^ (64 - 7 * (i + 1)) * 128 := by
            rw [show (128 : ℕ) = 2 ^ 7 from rfl, ← Nat.pow_add]
            congr 1
            omega
          show b.toNat % 128 + 128 * (readFrom (i + 1) bs).1 < 2 ^ (64 - 7 * i)
          omega

theorem read_lt (bs : List UInt8) : (read bs).1 < 2 ^ 64 := readFrom_lt (by omega) bs

/-- `encode` takes no more bytes than the number was read from. -/
theorem length_encode_readFrom {i : ℕ} {bs : List UInt8} (h : ¬ (readFrom i bs).2 ≤ 0) :
    ((encode (readFrom i bs).1).length : ℤ) + i ≤ (readFrom i bs).2 := by
  induction bs generalizing i with
  | nil => exact absurd (Int.le_refl 0) h
  | cons b bs ih =>
    have hbounds := (readFrom_bounds h).1
    unfold readFrom at h hbounds ⊢
    by_cases h10 : i = 10
    · rw [if_pos h10] at h
      omega
    rw [if_neg h10] at h hbounds ⊢
    by_cases hb : b.toNat < 128
    · rw [if_pos hb] at h ⊢
      by_cases h9 : i = 9 ∧ b.toNat > 1
      · rw [if_pos h9] at h
        omega
      · rw [if_neg h9, encode, if_pos hb, List.length_singleton]
        omega
    · rw [if_neg hb] at h hbounds ⊢
      by_cases hneg : (readFrom (i + 1) bs).2 ≤ 0
      · rw [if_pos hneg] at h
        exact absurd hneg h
      · rw [if_neg hneg] at hbounds ⊢
        have hrec := ih hneg
        dsimp only at hbounds ⊢
        rw [encode]
        split
        · rw [List.length_singleton]
          omega
        · rw [List.length_cons, show (b.toNat % 128 + 128 * (readFrom (i + 1) bs).1) / 128 =
            (readFrom (i + 1) bs).1 by omega]
          omega

theorem decode_eq (bs : List UInt8) :
    decode bs =
      if (read bs).2 ≤ 0 then none else some ((read bs).1, bs.drop (read bs).2.toNat) :=
  decodeFrom_eq 0 bs

end Keystone.Lib.Uvarint
