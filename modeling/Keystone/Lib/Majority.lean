/-
# Keystone.Lib.Majority — majorities of a list of members, and how a program finds one.

A LIBRARY module.  `Majority members Q` is what the textbook says; two majorities share a member
(`Majority.inter`).  Programs find a majority in two ways, and each has its lemma: counting the members
with a property (`majority_filter`), and reading the middle of a sorted list of per-member values
(`majority_sorted`).
-/
import Mathlib.Data.Finset.Card
import Mathlib.Data.List.Sort
import Keystone.Lib.TermLog

namespace Keystone.Lib

variable {N : Type*} [DecidableEq N]

/-- More than half of the members. -/
def Majority (members : List N) (Q : Finset N) : Prop :=
  Q ⊆ members.toFinset ∧ members.length / 2 + 1 ≤ Q.card

theorem Majority.inter {members : List N} {Q Q' : Finset N} (h : Majority members Q)
    (h' : Majority members Q') : ∃ p, p ∈ Q ∧ p ∈ Q' := by
  have hlen := List.toFinset_card_le members
  obtain ⟨p, hp⟩ := Finset.inter_nonempty_of_card_lt_card_add_card h.1 h'.1
    (by have := h.2; have := h'.2; omega)
  exact ⟨p, Finset.mem_inter.mp hp⟩

/-- The protocol parameters of a group whose quorums are the majorities of its members. -/
def TermLog.Params.majority {E : Type*} (tm : E → ℕ) (members : List N) : TermLog.Params N E where
  tm := tm
  IsQuorum := Majority members
  inter := Majority.inter

/-- COUNTING: enough distinct members with a property form a majority. -/
theorem majority_filter {members : List N} (hnd : members.Nodup) (P : N → Prop) [DecidablePred P]
    (h : members.length / 2 + 1 ≤ members.countP (fun p => decide (P p))) :
    Majority members (members.toFinset.filter P) := by
  refine ⟨Finset.filter_subset _ _, ?_⟩
  have : members.toFinset.filter P = (members.filter (fun p => decide (P p))).toFinset := by
    ext p
    simp
  rw [this, List.toFinset_card_of_nodup (hnd.filter _), ← List.countP_eq_length_filter]
  exact h

/-- In a list sorted in descending order, `k + 1` values are at least the one at place `k`. -/
theorem le_countP_of_sorted {l : List ℕ} {k x : ℕ}
    (h : (l.insertionSort (· ≥ ·))[k]? = some x) : k + 1 ≤ l.countP (fun y => decide (x ≤ y)) := by
  set s := l.insertionSort (· ≥ ·) with hs
  have hsorted : s.Pairwise (· ≥ ·) := List.pairwise_insertionSort _ l
  have hperm : s.Perm l := List.perm_insertionSort _ l
  have hk : k < s.length := (List.getElem?_eq_some_iff.mp h).1
  rw [← hperm.countP_eq]
  have hall : ∀ y ∈ s.take (k + 1), decide (x ≤ y) = true := by
    intro y hy
    obtain ⟨j, hj, rfl⟩ := List.getElem_of_mem hy
    rw [List.length_take] at hj
    rw [List.getElem_take, decide_eq_true_eq, ← (List.getElem?_eq_some_iff.mp h).2]
    rcases Nat.lt_or_eq_of_le (show j ≤ k by omega) with hlt | rfl
    · exact List.pairwise_iff_getElem.mp hsorted j k _ hk hlt
    · exact le_rfl
  calc k + 1 = (s.take (k + 1)).length := by rw [List.length_take]; omega
    _ = (s.take (k + 1)).countP (fun y => decide (x ≤ y)) := (List.countP_eq_length.mpr hall).symm
    _ ≤ s.countP (fun y => decide (x ≤ y)) := (List.take_sublist _ _).countP_le

/-- SORTING: the members whose value reaches the middle of the sorted values form a majority. -/
theorem majority_sorted {members : List N} (hnd : members.Nodup) (f : N → ℕ) {x : ℕ}
    (h : ((members.map f).insertionSort (· ≥ ·))[members.length / 2]? = some x) :
    Majority members (members.toFinset.filter fun p => x ≤ f p) := by
  refine majority_filter hnd _ ?_
  have := le_countP_of_sorted h
  rwa [List.countP_map] at this

end Keystone.Lib
