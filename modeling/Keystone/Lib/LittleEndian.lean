/-
# Keystone.Lib.LittleEndian — fixed-width unsigned numbers as bytes, least significant first.

`encode w n` takes the `w` low bytes of `n`, so a number that does not fit loses its high part;
`decode` reads any number of bytes.  `decode_encode` is the round trip with exactly that loss.
-/
import Mathlib.Tactic.Ring

namespace Keystone.Lib.LittleEndian

/-- The `w` low bytes of `n`. -/
def encode : ℕ → ℕ → List UInt8
  | 0, _ => []
  | w + 1, n => UInt8.ofNat (n % 256) :: encode w (n / 256)

def decode : List UInt8 → ℕ
  | [] => 0
  | b :: bs => b.toNat + 256 * decode bs

@[simp]
theorem length_encode (w n : ℕ) : (encode w n).length = w := by
  induction w generalizing n with
  | zero => rfl
  | succ w ih => simp [encode, ih]

theorem decode_encode (w n : ℕ) : decode (encode w n) = n % 256 ^ w := by
  induction w generalizing n with
  | zero => simp [encode, decode, Nat.mod_one]
  | succ w ih =>
    have hbyte : (UInt8.ofNat (n % 256)).toNat = n % 256 := by
      rw [UInt8.toNat_ofNat']
      omega
    have hpow : 256 ^ (w + 1) = 256 * 256 ^ w := by ring
    rw [encode, decode, ih, hbyte, hpow, Nat.mod_mul]

/-- Nothing is lost of a number that fits. -/
theorem decode_encode_of_lt {w n : ℕ} (h : n < 256 ^ w) : decode (encode w n) = n := by
  rw [decode_encode, Nat.mod_eq_of_lt h]

theorem decode_lt (bs : List UInt8) : decode bs < 256 ^ bs.length := by
  induction bs with
  | nil => decide
  | cons b bs ih =>
    have hbyte := b.toNat_lt
    rw [decode, List.length_cons, Nat.pow_succ]
    omega

end Keystone.Lib.LittleEndian
