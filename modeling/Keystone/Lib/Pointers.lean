/-
# Keystone.Lib.Pointers — singly linked lists behind a head.

A LIBRARY module.  Cells are named by an arbitrary type `ι`; a list hangs from a `head` that is no cell.
`load x` is the pointer at `x`: `none` when there is no such pointer to read, `some none` when it is nil.
`Path load x c` says that following the pointers from `x` one meets exactly the cells `c`.

`path_insert` is the one thing that ever happens to such a list here: a new cell, whose own pointer is set
already, is put behind a cell by ONE store, the store into that cell.
-/
import Mathlib.Data.List.Basic
import Mathlib.Tactic.Common

namespace Keystone.Lib.Pointers

universe u

variable {ι : Type u}

inductive Ref (ι : Type u) where
  | head
  | node (i : ι)
  deriving DecidableEq, Repr

/-- The cells met from `x` on. -/
def Path (load : Ref ι → Option (Option ι)) : Ref ι → List ι → Prop
  | x, [] => load x = some none
  | x, i :: c => load x = some (some i) ∧ Path load (.node i) c

/-- Where one stands after the cells `c`, coming from `x`. -/
def last : Ref ι → List ι → Ref ι
  | x, [] => x
  | _, i :: c => last (.node i) c

theorem last_append (x : Ref ι) (a b : List ι) : last x (a ++ b) = last (last x a) b := by
  induction a generalizing x with
  | nil => rfl
  | cons i a ih => exact ih (.node i)

theorem last_mem (x : Ref ι) (c : List ι) : last x c = x ∨ ∃ i ∈ c, last x c = .node i := by
  induction c generalizing x with
  | nil => exact .inl rfl
  | cons i c ih =>
    rcases ih (.node i) with h | ⟨j, hj, h⟩
    · exact .inr ⟨i, List.mem_cons_self .., h⟩
    · exact .inr ⟨j, List.mem_cons_of_mem _ hj, h⟩

/-- The last of some of the cells is reached after a first part of all of them. -/
theorem exists_split_of_sublist (x : Ref ι) {c' c : List ι} (h : c'.Sublist c) :
    ∃ p q, c = p ++ q ∧ last x p = last x c' := by
  induction h generalizing x with
  | slnil => exact ⟨[], [], rfl, rfl⟩
  | @cons c₁ c₂ i _ ih =>
    cases c₁ with
    | nil => exact ⟨[], i :: c₂, rfl, rfl⟩
    | cons j c₁ =>
      -- the part is not empty, so that it does not matter where it begins
      obtain ⟨p, q, rfl, hlast⟩ := ih (.node i)
      exact ⟨i :: p, q, rfl, hlast⟩
  | cons_cons i _ ih =>
    obtain ⟨p, q, rfl, hlast⟩ := ih (.node i)
    exact ⟨i :: p, q, rfl, hlast⟩

variable {load load' : Ref ι → Option (Option ι)}

theorem Path.load_eq {x : Ref ι} {c : List ι} (h : Path load x c) : load x = some c.head? := by
  cases c with
  | nil => exact h
  | cons i c => exact h.1

theorem Path.after {x : Ref ι} {a b : List ι} (h : Path load x (a ++ b)) : Path load (last x a) b := by
  induction a generalizing x with
  | nil => exact h
  | cons i a ih => exact ih h.2

/-- A path depends on the pointers of its own cells only. -/
theorem Path.congr {x : Ref ι} {c : List ι} (h : Path load x c) (hx : load' x = load x)
    (hc : ∀ i ∈ c, load' (.node i) = load (.node i)) : Path load' x c := by
  induction c generalizing x with
  | nil => exact hx.trans h
  | cons i c ih =>
    rw [List.forall_mem_cons] at hc
    exact ⟨hx.trans h.1, ih h.2 hc.1 hc.2⟩

/-- A new cell behind the cells `a`. -/
theorem path_insert {x : Ref ι} {a b : List ι} {i : ι} (h : Path load x (a ++ b))
    (hnew : load' (.node i) = some b.head?) (hstore : load' (last x a) = some (some i))
    (hother : ∀ y, y ≠ last x a → y ≠ .node i → load' y = load y)
    (hx : ∀ j ∈ a ++ b, x ≠ .node j) (hnodup : (a ++ b).Nodup) (hi : i ∉ a ++ b) (hxi : x ≠ .node i) :
    Path load' x (a ++ i :: b) := by
  induction a generalizing x with
  | nil =>
    refine ⟨hstore, ?_⟩
    cases b with
    | nil => exact hnew
    | cons j b =>
      refine ⟨hnew, h.2.congr ?_ fun k hk => ?_⟩
      · exact hother _ (Ne.symm (hx j (List.mem_cons_self ..)))
          fun e => hi (Ref.node.inj e ▸ List.mem_cons_self ..)
      · exact hother _ (Ne.symm (hx k (List.mem_cons_of_mem _ hk)))
          fun e => hi (Ref.node.inj e ▸ List.mem_cons_of_mem _ hk)
  | cons j a ih =>
    rw [List.cons_append, List.nodup_cons] at hnodup
    have hlast : x ≠ last x (j :: a) := by
      rcases last_mem (Ref.node j) a with heq | ⟨k, hk, heq⟩
      · show x ≠ last (.node j) a
        rw [heq]
        exact hx j (List.mem_cons_self ..)
      · show x ≠ last (.node j) a
        rw [heq]
        exact hx k (List.mem_cons_of_mem _ (List.mem_append_left _ hk))
    refine ⟨(hother x hlast hxi).trans h.1, ih h.2 hstore hother ?_ hnodup.2 ?_ ?_⟩
    · rintro k hk e
      exact hnodup.1 (Ref.node.inj e ▸ hk)
    · exact fun hmem => hi (List.mem_cons_of_mem _ hmem)
    · exact fun e => hi (Ref.node.inj e ▸ List.mem_cons_self ..)

end Keystone.Lib.Pointers
