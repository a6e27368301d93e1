/-
# Keystone.Lib.Decimal — numbers as decimal digits, with leading zeros, and back.

`digits` writes a number, `padded` fills it up with zeros in front, `parse` reads digits.  Leading zeros
do not change what is read, so `parse` inverts both.
-/
import Mathlib.Tactic.Common

namespace Keystone.Lib.Decimal

/-- The digits of `n`, highest first; the fuel bounds how many there can be. -/
def digitsAux : ℕ → ℕ → List ℕ
  | 0, _ => []
  | fuel + 1, n => if n < 10 then [n] else digitsAux fuel (n / 10) ++ [n % 10]

def digits (n : ℕ) : List ℕ := digitsAux (n + 1) n

/-- At least `w` digits. -/
def padded (w n : ℕ) : List ℕ := List.replicate (w - (digits n).length) 0 ++ digits n

def parse (ds : List ℕ) : ℕ := ds.foldl (fun n d => 10 * n + d) 0

theorem parse_digitsAux {fuel n : ℕ} (h : n < fuel) : parse (digitsAux fuel n) = n := by
  induction fuel generalizing n with
  | zero => omega
  | succ fuel ih =>
    unfold digitsAux
    split
    · simp [parse]
    · have hlt : n / 10 < fuel := by omega
      have hrec := ih hlt
      unfold parse at hrec ⊢
      rw [List.foldl_append, hrec]
      simp only [List.foldl_cons, List.foldl_nil]
      omega

@[simp]
theorem parse_padded (w n : ℕ) : parse (padded w n) = n := by
  have hzeros : ∀ k, (List.replicate k 0).foldl (fun n d => 10 * n + d) 0 = 0 := by
    intro k
    induction k with
    | zero => rfl
    | succ k ih => simpa [List.replicate_succ] using ih
  unfold padded parse
  rw [List.foldl_append, hzeros]
  exact parse_digitsAux (Nat.lt_succ_self n)

theorem digitsAux_lt {fuel n d : ℕ} (h : d ∈ digitsAux fuel n) : d < 10 := by
  induction fuel generalizing n with
  | zero => simp [digitsAux] at h
  | succ fuel ih =>
    unfold digitsAux at h
    split at h
    · have : d = n := by simpa using h
      omega
    · rcases List.mem_append.mp h with h | h
      · exact ih h
      · have : d = n % 10 := by simpa using h
        omega

theorem padded_lt {w n d : ℕ} (h : d ∈ padded w n) : d < 10 := by
  rcases List.mem_append.mp h with h | h
  · have : d = 0 := List.eq_of_mem_replicate h
    omega
  · exact digitsAux_lt h

end Keystone.Lib.Decimal
