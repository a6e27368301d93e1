/-
# Keystone.Lib.Search — binary search for the first index at which a test succeeds (`sort.Search`).

A LIBRARY module.  The test may itself fail (`none`, a panic of the code that runs it).  Whatever the
test is, the search ends between an index at which it fails and one at which it succeeds
(`search_spec`); that the test is monotone is only needed to call the latter the first.
-/
import Mathlib.Tactic.Common

namespace Keystone.Lib.Search

/-- The search between `i` and `j`, with fuel for the indices between them. -/
def searchIn (f : ℕ → Option Bool) : ℕ → ℕ → ℕ → Option ℕ
  | 0, i, _ => some i
  | fuel + 1, i, j =>
    if i < j then
      match f ((i + j) / 2) with
      | none => none
      | some false => searchIn f fuel ((i + j) / 2 + 1) j
      | some true => searchIn f fuel i ((i + j) / 2)
    else
      some i

def search (f : ℕ → Option Bool) (n : ℕ) : Option ℕ := searchIn f n 0 n

variable {f : ℕ → Option Bool} {n : ℕ}

/-- The test fails below the window and succeeds at its end, or the window reaches the end. -/
theorem searchIn_spec (hf : ∀ k < n, ∃ b, f k = some b) {fuel i j : ℕ} (hfuel : j ≤ i + fuel)
    (hij : i ≤ j) (hj : j ≤ n) (hlow : i = 0 ∨ f (i - 1) = some false)
    (hhigh : j = n ∨ f j = some true) :
    ∃ k ≤ n, searchIn f fuel i j = some k ∧ (k = 0 ∨ f (k - 1) = some false) ∧
      (k = n ∨ f k = some true) := by
  induction fuel generalizing i j with
  | zero =>
    obtain rfl : i = j := by omega
    exact ⟨i, hj, rfl, hlow, hhigh⟩
  | succ fuel ih =>
    unfold searchIn
    by_cases hlt : i < j
    · rw [if_pos hlt]
      obtain ⟨b, hb⟩ := hf ((i + j) / 2) (by omega)
      rw [hb]
      cases b with
      | false => exact ih (by omega) (by omega) hj (.inr (by simpa using hb)) hhigh
      | true => exact ih (by omega) (by omega) (by omega) hlow (.inr hb)
    · rw [if_neg hlt]
      obtain rfl : i = j := by omega
      exact ⟨i, hj, rfl, hlow, hhigh⟩

theorem search_spec (hf : ∀ k < n, ∃ b, f k = some b) :
    ∃ k ≤ n, search f n = some k ∧ (k = 0 ∨ f (k - 1) = some false) ∧ (k = n ∨ f k = some true) :=
  searchIn_spec hf (by omega) (Nat.zero_le n) (Nat.le_refl n) (.inl rfl) (.inl rfl)

end Keystone.Lib.Search
