/-
# Keystone.Lib.Crash — a process that stops inside a list of disk actions.

An operation is a list of actions, applied to a disk one after the other.  A crash leaves the disk after
the first `k` of them, and of the next one the part `torn a j` may have been performed: nothing at all
for an atomic action, the first `j` bytes of a write.  `crashAt` computes that disk, so a crash point is
data and a run with crashes can be evaluated.
-/
import Mathlib.Tactic.Common

namespace Keystone.Lib

section Crash

variable {D A : Type*} (apply : D → A → D) (torn : A → ℕ → Option A)

/-- The disk a crash leaves after `k` actions and part `j` of the next one. -/
def crashAt (d : D) : List A → ℕ → ℕ → D
  | [], _, _ => d
  | a :: _, 0, j =>
    match torn a j with
    | none => d
    | some a' => apply d a'
  | a :: as, k + 1, j => crashAt (apply d a) as k j

variable {apply torn}

theorem crashAt_cons_succ (d : D) (a : A) (as : List A) (k j : ℕ) :
    crashAt apply torn d (a :: as) (k + 1) j = crashAt apply torn (apply d a) as k j := rfl

/-- A crash in a longer list is a crash in its first part, or in the rest after all of it. -/
theorem crashAt_append {d : D} {as bs : List A} {k j : ℕ} :
    crashAt apply torn d (as ++ bs) k j =
      if k < as.length then crashAt apply torn d as k j
      else crashAt apply torn (as.foldl apply d) bs (k - as.length) j := by
  induction as generalizing d k with
  | nil => simp
  | cons a as ih =>
    cases k with
    | zero => simp [crashAt]
    | succ k => simp [crashAt, ih]

/-- After all its actions an operation is complete. -/
theorem crashAt_of_length_le {d : D} {as : List A} {k j : ℕ} (h : as.length ≤ k) :
    crashAt apply torn d as k j = as.foldl apply d := by
  induction as generalizing d k with
  | nil => simp [crashAt]
  | cons a as ih =>
    cases k with
    | zero => simp at h
    | succ k =>
      rw [crashAt, List.foldl_cons]
      exact ih (by simpa using h)

end Crash

end Keystone.Lib
