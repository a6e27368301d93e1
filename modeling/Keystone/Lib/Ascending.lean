/-
# Keystone.Lib.Ascending — lists of pairs in strictly ascending order of their keys.

A LIBRARY module, over any ordered type of keys.  Such a list is determined by its members
(`Ascending.ext`), an initial segment of it is a part that nothing else lies in front of
(`Ascending.isPrefix`), and the first `n` members lie below everything that `n` members lie below
(`Ascending.take_lt`).  A sorted list is one if no key comes twice (`ascending_of_sorted`).
-/
import Mathlib.Data.List.Nodup
import Mathlib.Data.List.Perm.Subperm
import Mathlib.Tactic.Common

namespace Keystone.Lib

universe u v

variable {κ : Type u} {α : Type v} [Ord κ]

/-- Pairs in strictly ascending order of their keys. -/
def Ascending (l : List (κ × α)) : Prop := l.Pairwise fun p q => compare p.1 q.1 = .lt

instance (l : List (κ × α)) : Decidable (Ascending l) := by
  unfold Ascending
  infer_instance

theorem ascending_cons {p : κ × α} {l : List (κ × α)} :
    Ascending (p :: l) ↔ (∀ q ∈ l, compare p.1 q.1 = .lt) ∧ Ascending l := List.pairwise_cons

theorem ascending_append {l l' : List (κ × α)} :
    Ascending (l ++ l') ↔
      Ascending l ∧ Ascending l' ∧ ∀ p ∈ l, ∀ q ∈ l', compare p.1 q.1 = .lt :=
  List.pairwise_append

theorem Ascending.sublist {l l' : List (κ × α)} (h : Ascending l) (hsub : l'.Sublist l) :
    Ascending l' := List.Pairwise.sublist hsub h

/-- A sorted list in which no key comes twice. -/
theorem ascending_of_sorted [Std.LawfulEqOrd κ] {l : List (κ × α)}
    (h : l.Pairwise fun p q => (compare p.1 q.1).isLE = true) (hkeys : (l.map Prod.fst).Nodup) :
    Ascending l := by
  refine List.Pairwise.imp₂ (fun p q hle hne => ?_) h (List.pairwise_map.mp hkeys)
  cases hc : compare p.1 q.1 with
  | lt => rfl
  | eq => exact absurd (Std.LawfulEqCmp.compare_eq_iff_eq.mp hc) hne
  | gt => simp [hc] at hle

variable [Std.TransOrd κ]

theorem Ascending.nodup {l : List (κ × α)} (h : Ascending l) : l.Nodup := by
  refine List.Pairwise.imp ?_ h
  rintro p q hlt rfl
  simp at hlt

theorem Ascending.nodup_keys {l : List (κ × α)} (h : Ascending l) : (l.map Prod.fst).Nodup := by
  refine List.pairwise_map.mpr (List.Pairwise.imp ?_ h)
  rintro p q hlt heq
  simp [heq] at hlt

/-- The members determine the list. -/
theorem Ascending.ext {l l' : List (κ × α)} (hl : Ascending l) (hl' : Ascending l')
    (h : ∀ p, p ∈ l ↔ p ∈ l') : l = l' := by
  have hperm := (List.perm_ext_iff_of_nodup hl.nodup hl'.nodup).mpr h
  refine List.Perm.eq_of_pairwise (fun p q _ _ hpq hqp => ?_) hl hl' hperm
  have := Std.TransCmp.lt_trans hpq hqp
  simp at this

/-- A part that nothing else lies in front of is an initial segment. -/
theorem Ascending.isPrefix {l u : List (κ × α)} (hl : Ascending l) (hu : Ascending u)
    (hsub : ∀ p ∈ l, p ∈ u) (hlow : ∀ p ∈ l, ∀ q ∈ u, q ∉ l → compare p.1 q.1 = .lt) : l <+: u := by
  classical
  refine ⟨u.filter fun q => q ∉ l, Ascending.ext ?_ hu fun p => ?_⟩
  · refine ascending_append.mpr ⟨hl, hu.sublist List.filter_sublist, fun p hp q hq => ?_⟩
    obtain ⟨hq, hql⟩ := List.mem_filter.mp hq
    exact hlow p hp q hq (of_decide_eq_true hql)
  · rw [List.mem_append, List.mem_filter]
    by_cases hp : p ∈ l
    · simp [hp, hsub p hp]
    · simp [hp]

/-- What lies above `n` members lies above the first `n`. -/
theorem Ascending.take_lt {m s : List (κ × α)} {k : κ} (hm : Ascending m) (hs : s.Nodup)
    (hsub : ∀ p ∈ s, p ∈ m) (hlt : ∀ p ∈ s, compare p.1 k = .lt) {p : κ × α}
    (hp : p ∈ m.take s.length) : compare p.1 k = .lt := by
  by_contra hge
  obtain ⟨i, hi, rfl⟩ := List.mem_iff_getElem.mp hp
  rw [List.length_take] at hi
  have him : i < m.length := by omega
  -- all of `s` would lie in front of place `i`, which is too early for that many
  have hfront : s ⊆ m.take i := by
    intro q hq
    have hsplit := hm
    rw [← List.take_append_drop i m, ascending_append] at hsplit
    have hmem := hsub q hq
    rw [← List.take_append_drop i m, List.mem_append] at hmem
    rcases hmem with hmem | hmem
    · exact hmem
    · refine absurd ?_ hge
      rw [List.getElem_take]
      rw [List.drop_eq_getElem_cons him, List.mem_cons] at hmem
      rcases hmem with rfl | hmem
      · exact hlt _ hq
      · have hafter := hsplit.2.1
        rw [List.drop_eq_getElem_cons him, ascending_cons] at hafter
        exact Std.TransCmp.lt_trans (hafter.1 q hmem) (hlt q hq)
  have := (List.subperm_of_subset hs hfront).length_le
  rw [List.length_take] at this
  omega

end Keystone.Lib
