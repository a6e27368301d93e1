/-
# Keystone.Lib.HeapOrder — the heap order of a list, and what the operations of a heap promise.

A LIBRARY module.  A binary heap keeps in a list, at every position but the first, an element that is not
less than the one at the parent position `(i - 1) / 2`.  Then nothing is less than the first element
(`Ordered.head_le`).

`Heap` is the contract of the operations that establish and restore the order.  The element at the first
position may have changed before `fix` and `pop` are called, so these may rely only on the pairs that do not
touch it (`OrderedBelow`); `pop` removes it whatever it compares to.  A sorted list is a heap, so there is a
`Heap` (`sorting`).
-/
import Mathlib.Data.List.Basic
import Mathlib.Tactic.Common

namespace Keystone.Lib.HeapOrder

universe u

variable {ι : Type u}

/-- What an order must be for a heap to keep it. -/
structure Weak (less : ι → ι → Bool) : Prop where
  asymm : ∀ {a b}, less a b = true → less b a = false
  trans : ∀ {a b c}, less a b = false → less b c = false → less a c = false

theorem Weak.irrefl {less : ι → ι → Bool} (hw : Weak less) (a : ι) : less a a = false := by
  cases h : less a a with
  | false => rfl
  | true => exact (hw.asymm h).symm.trans h |>.symm

def Ordered (less : ι → ι → Bool) (h : List ι) : Prop :=
  ∀ i, 0 < i → ∀ a ∈ h[i]?, ∀ b ∈ h[(i - 1) / 2]?, less a b = false

/-- The pairs that do not touch the first position are in order. -/
def OrderedBelow (less : ι → ι → Bool) (h : List ι) : Prop :=
  ∀ i, 0 < (i - 1) / 2 → ∀ a ∈ h[i]?, ∀ b ∈ h[(i - 1) / 2]?, less a b = false

/-- Nothing in the heap is less than what stands first. -/
theorem Ordered.head_le {less : ι → ι → Bool} (hw : Weak less) {r : ι} {t : List ι}
    (h : Ordered less (r :: t)) : ∀ a ∈ r :: t, less a r = false := by
  have hindex : ∀ (i : ℕ) (a : ι), (r :: t)[i]? = some a → less a r = false := by
    intro i
    -- along the parents up to the first position
    induction i using Nat.strongRecOn with
    | ind i ih =>
      intro a ha
      by_cases hi : i = 0
      · subst hi
        obtain rfl : r = a := Option.some.inj ha
        exact hw.irrefl r
      · have hlen : i < (r :: t).length := by
          by_contra hge
          rw [List.getElem?_eq_none (Nat.not_lt.mp hge)] at ha
          cases ha
        have hparent : (i - 1) / 2 < i := by omega
        have hp : (r :: t)[(i - 1) / 2]? = some ((r :: t)[(i - 1) / 2]) :=
          List.getElem?_eq_getElem (by omega)
        exact hw.trans (h i (Nat.pos_of_ne_zero hi) a ha _ hp) (ih _ hparent _ hp)
  intro a ha
  obtain ⟨i, hi, rfl⟩ := List.mem_iff_getElem.mp ha
  exact hindex i _ (List.getElem?_eq_getElem hi)

/-- A list in order is a heap. -/
theorem ordered_of_pairwise {less : ι → ι → Bool} {h : List ι}
    (hs : h.Pairwise fun a b => less b a = false) : Ordered less h := by
  intro i hi a ha b hb
  obtain ⟨hia, rfl⟩ := List.getElem?_eq_some_iff.mp ha
  obtain ⟨hib, rfl⟩ := List.getElem?_eq_some_iff.mp hb
  exact List.pairwise_iff_getElem.mp hs _ _ hib hia (by omega)

/-- The operations of a heap. -/
structure Heap (ι : Type u) where
  init : (ι → ι → Bool) → List ι → List ι
  fix : (ι → ι → Bool) → List ι → List ι
  pop : (ι → ι → Bool) → List ι → List ι
  init_perm : ∀ less h, (init less h).Perm h
  init_ordered : ∀ {less} (h), Weak less → Ordered less (init less h)
  fix_perm : ∀ less h, (fix less h).Perm h
  fix_ordered : ∀ {less h}, Weak less → OrderedBelow less h → Ordered less (fix less h)
  pop_perm : ∀ less r t, (pop less (r :: t)).Perm t
  pop_ordered : ∀ {less r t}, Weak less → OrderedBelow less (r :: t) → Ordered less (pop less (r :: t))

theorem ordered_mergeSort {less : ι → ι → Bool} (hw : Weak less) (h : List ι) :
    Ordered less (h.mergeSort fun a b => !less b a) := by
  refine ordered_of_pairwise ?_
  have hs : (h.mergeSort fun a b => !less b a).Pairwise fun a b => (!less b a) = true := by
    refine List.pairwise_mergeSort ?_ ?_ h
    · intro a b c hab hbc
      simp only [Bool.not_eq_true'] at hab hbc ⊢
      exact hw.trans hbc hab
    · intro a b
      cases hab : less b a with
      | false => rfl
      | true => simp [hw.asymm hab]
  exact hs.imp fun hab => by simpa using hab

/-- The operations may sort. -/
def sorting (ι : Type u) : Heap ι where
  init less h := h.mergeSort fun a b => !less b a
  fix less h := h.mergeSort fun a b => !less b a
  pop less h := h.tail.mergeSort fun a b => !less b a
  init_perm _ _ := List.mergeSort_perm _ _
  init_ordered h hw := ordered_mergeSort hw h
  fix_perm _ _ := List.mergeSort_perm _ _
  fix_ordered hw _ := ordered_mergeSort hw _
  pop_perm _ _ _ := List.mergeSort_perm _ _
  pop_ordered hw _ := ordered_mergeSort hw _

end Keystone.Lib.HeapOrder
