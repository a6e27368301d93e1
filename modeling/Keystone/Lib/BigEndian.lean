/-
# Keystone.Lib.BigEndian — fixed-width unsigned numbers as bytes, most significant first.

The bytes of `Keystone.Lib.LittleEndian` the other way round, with the round trip for machine words.
-/
import Keystone.Lib.LittleEndian

namespace Keystone.Lib.BigEndian

/-- The `w` low bytes of `n`, highest first. -/
def encode (w n : ℕ) : List UInt8 := (LittleEndian.encode w n).reverse

def decode (bs : List UInt8) : ℕ := LittleEndian.decode bs.reverse

@[simp]
theorem length_encode (w n : ℕ) : (encode w n).length = w := by simp [encode]

theorem decode_encode (w n : ℕ) : decode (encode w n) = n % 256 ^ w := by
  unfold decode encode
  rw [List.reverse_reverse, LittleEndian.decode_encode]

/-- `binary.BigEndian.PutUint64`. -/
def putUint64 (n : UInt64) : List UInt8 := encode 8 n.toNat

/-- `binary.BigEndian.Uint64` of the first eight bytes; it panics on fewer. -/
def uint64 (bs : List UInt8) : Option UInt64 :=
  if bs.length < 8 then none else some (UInt64.ofNat (decode (bs.take 8)))

@[simp]
theorem length_putUint64 (n : UInt64) : (putUint64 n).length = 8 := length_encode ..

@[simp]
theorem uint64_putUint64 (n : UInt64) (rest : List UInt8) :
    uint64 (putUint64 n ++ rest) = some n := by
  have hlen : ¬(putUint64 n ++ rest).length < 8 := by simp
  have htake : (putUint64 n ++ rest).take 8 = putUint64 n := by
    rw [List.take_append_of_le_length (by simp), List.take_of_length_le (by simp)]
  have hfit : n.toNat < 256 ^ 8 := by
    have := n.toNat_lt
    omega
  unfold uint64
  rw [if_neg hlen, htake, putUint64, decode_encode, Nat.mod_eq_of_lt hfit, UInt64.ofNat_toNat]

theorem putUint64_injective {n m : UInt64} (h : putUint64 n = putUint64 m) : n = m := by
  have := uint64_putUint64 n []
  rw [h, uint64_putUint64] at this
  exact (Option.some.inj this).symm

end Keystone.Lib.BigEndian
