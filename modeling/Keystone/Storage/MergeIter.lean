/-
# Keystone.Storage.MergeIter — the merging iterator (`storage/merge.go`).

`mergeIter` holds its children and a heap of those that are not exhausted.  The heap compares the keys the
children stand at, which move under it: after a step of the child at the top, only the top is out of place,
and the heap is fixed there; a child that is exhausted is popped.

An iterator is a state with the methods of `internalIter`, and what it will still yield is a list
(`Yields`), with the error it has when it is closed at the end.  The children are any iterators, `n` of them,
and `container/heap` is anything that keeps the contract of `Lib.HeapOrder`.  `mergeIter_merges` is the
result: the merge yields what its children yield, in order, ties in the order of the children, and an error
of a child is not lost.
-/
import Mathlib.Algebra.BigOperators.Fin
import Mathlib.Algebra.Order.BigOperators.Group.Finset
import Keystone.Lib.HeapOrder
import Keystone.Storage.Keys

namespace Keystone.Storage

open Keystone.Lib
open Keystone.Lib.HeapOrder (Heap)
open Function (update)

variable {σ ε : Type} {n : ℕ}

/-- `internalIter`: what its methods make of the state of an iterator. -/
structure InternalIter (σ ε : Type) where
  seekToFirst : σ → σ
  seek : Bytes → σ → σ
  valid : σ → Bool
  next : σ → σ
  key : σ → Bytes
  value : σ → Bytes
  close : σ → σ × Option ε

/-- What an iterator yields until it is exhausted, and what `close` returns then. -/
inductive Yields (it : InternalIter σ ε) : σ → List (Bytes × Bytes) → Option ε → Prop
  | done {s : σ} (h : it.valid s = false) : Yields it s [] (it.close s).2
  | entry {s : σ} {l : List (Bytes × Bytes)} {err : Option ε} (h : it.valid s = true)
      (hl : Yields it (it.next s) l err) : Yields it s ((it.key s, it.value s) :: l) err

/-- The items of the heap are the numbers of their children. -/
structure MergeIter (n : ℕ) (σ ε : Type) where
  children : Fin n → σ
  h : List (Fin n)
  err : Option ε

/-- `Less`, at the places where the children stand. -/
def mergeLess (it : InternalIter σ ε) (children : Fin n → σ) (i j : Fin n) : Bool :=
  let c := compareInternalKey (it.key (children i)) (it.key (children j))
  if c ≠ .eq then c = .lt else i < j

namespace MergeIter

variable (heap : Heap (Fin n)) (it : InternalIter σ ε) (m : MergeIter n σ ε)

def rebuild : MergeIter n σ ε :=
  { m with
    h := heap.init (mergeLess it m.children)
      ((List.finRange n).filter fun i => it.valid (m.children i)) }

def next : MergeIter n σ ε :=
  match m.h with
  | [] => m
  | top :: _ =>
    let children := update m.children top (it.next (m.children top))
    { m with
      children := children
      h := if it.valid (children top) then heap.fix (mergeLess it children) m.h
        else heap.pop (mergeLess it children) m.h }

/-- Every child is closed; the first error stays. -/
def close : MergeIter n σ ε × Option ε :=
  let err := m.err.or ((List.finRange n).findSome? fun i => (it.close (m.children i)).2)
  ({ m with children := fun i => (it.close (m.children i)).1, err := err }, err)

end MergeIter

/-- The merge is an iterator again. -/
def mergeIter (heap : Heap (Fin n)) (it : InternalIter σ ε) : InternalIter (MergeIter n σ ε) ε where
  seekToFirst m := MergeIter.rebuild heap it { m with children := fun i => it.seekToFirst (m.children i) }
  seek t m := MergeIter.rebuild heap it { m with children := fun i => it.seek t (m.children i) }
  valid m := !m.h.isEmpty && m.err.isNone
  next m := MergeIter.next heap it m
  key m := (m.h.head?.map fun top => it.key (m.children top)).getD []
  value m := (m.h.head?.map fun top => it.value (m.children top)).getD []
  close m := MergeIter.close it m

/-! ## The order of the heap. -/

theorem mergeLess_eq_false {it : InternalIter σ ε} {children : Fin n → σ} {i j : Fin n} :
    mergeLess it children i j = false ↔
      compareInternalKey (it.key (children j)) (it.key (children i)) = .lt ∨
        compareInternalKey (it.key (children j)) (it.key (children i)) = .eq ∧ j ≤ i := by
  have hswap : compareInternalKey (it.key (children i)) (it.key (children j)) =
      (compareInternalKey (it.key (children j)) (it.key (children i))).swap := Std.OrientedCmp.eq_swap
  unfold mergeLess
  rw [hswap]
  cases compareInternalKey (it.key (children j)) (it.key (children i)) <;> simp

theorem weak_mergeLess (it : InternalIter σ ε) (children : Fin n → σ) :
    HeapOrder.Weak (mergeLess it children) := by
  constructor
  · intro i j hij
    rw [mergeLess_eq_false]
    unfold mergeLess at hij
    cases hc : compareInternalKey (it.key (children i)) (it.key (children j)) with
    | lt => exact .inl rfl
    | eq =>
      rw [hc] at hij
      simp only [ne_eq, not_true_eq_false, if_false, decide_eq_true_eq] at hij
      exact .inr ⟨rfl, Fin.le_of_lt hij⟩
    | gt =>
      rw [hc] at hij
      simp at hij
  · intro i j k hij hjk
    rw [mergeLess_eq_false] at hij hjk ⊢
    rcases hij with hij | ⟨hij, hle⟩ <;> rcases hjk with hjk | ⟨hjk, hle'⟩
    · exact .inl (Std.TransCmp.lt_trans hjk hij)
    · exact .inl (Std.TransCmp.lt_of_eq_of_lt hjk hij)
    · exact .inl (Std.TransCmp.lt_of_lt_of_eq hjk hij)
    · exact .inr ⟨Std.TransCmp.eq_trans hjk hij, Fin.le_trans hle' hle⟩

/-! ## What is left to merge. -/

/-- A list of entries in order; equal keys are allowed. -/
def KeysSorted (l : List (Bytes × Bytes)) : Prop :=
  l.Pairwise fun a b => (compareInternalKey a.1 b.1).isLE = true

/-- `out` is the merge of the lists, each entry with the number of its child: the entries of a child are
those of its list in their order, and they stand by key, equal keys by child. -/
structure Merged (ls : Fin n → List (Bytes × Bytes)) (out : List (Fin n × Bytes × Bytes)) : Prop where
  parts : ∀ i, (out.filter fun x => x.1 = i).map Prod.snd = ls i
  sorted : out.Pairwise fun x y =>
    compareInternalKey x.2.1 y.2.1 = .lt ∨ compareInternalKey x.2.1 y.2.1 = .eq ∧ x.1 ≤ y.1

/-- The heap holds, in its order, the children that are not exhausted. -/
structure MergeOK (it : InternalIter σ ε) (m : MergeIter n σ ε) (ls : Fin n → List (Bytes × Bytes))
    (errs : Fin n → Option ε) : Prop where
  each : ∀ i, Yields it (m.children i) (ls i) (errs i)
  sorted : ∀ i, KeysSorted (ls i)
  mem : ∀ i, i ∈ m.h ↔ ls i ≠ []
  nodup : m.h.Nodup
  ordered : HeapOrder.Ordered (mergeLess it m.children) m.h
  err : m.err = none

section Children

variable {it : InternalIter σ ε} {s : σ} {l : List (Bytes × Bytes)} {err : Option ε}

theorem Yields.valid_iff (h : Yields it s l err) : it.valid s = true ↔ l ≠ [] := by
  cases h with
  | done h => simp [h]
  | entry h _ => simp [h]

theorem Yields.head {e : Bytes × Bytes} (h : Yields it s (e :: l) err) :
    e = (it.key s, it.value s) ∧ Yields it (it.next s) l err := by
  cases h with
  | entry _ hl => exact ⟨rfl, hl⟩

theorem Yields.closed (h : Yields it s [] err) : err = (it.close s).2 := by
  cases h with
  | done _ => rfl

end Children

variable {heap : Heap (Fin n)} {it : InternalIter σ ε} {m : MergeIter n σ ε}
  {ls : Fin n → List (Bytes × Bytes)} {errs : Fin n → Option ε}

/-- The heap that `rebuild` makes. -/
theorem rebuild_ok (heach : ∀ i, Yields it (m.children i) (ls i) (errs i))
    (hsorted : ∀ i, KeysSorted (ls i)) (herr : m.err = none) :
    MergeOK it (m.rebuild heap it) ls errs := by
  have hperm := heap.init_perm (mergeLess it m.children)
    ((List.finRange n).filter fun i => it.valid (m.children i))
  refine ⟨heach, hsorted, fun i => ?_, ?_, ?_, herr⟩
  · show i ∈ heap.init _ _ ↔ _
    rw [hperm.mem_iff, List.mem_filter, (heach i).valid_iff]
    simp
  · exact hperm.nodup_iff.mpr ((List.nodup_finRange n).filter _)
  · exact heap.init_ordered _ (weak_mergeLess it m.children)

/-- The child at the top stands at a first entry that no other child's is before. -/
theorem MergeOK.top_first {top : Fin n} {t : List (Fin n)} (h : MergeOK it m ls errs)
    (hh : m.h = top :: t) :
    ∃ rest, ls top = (it.key (m.children top), it.value (m.children top)) :: rest ∧
      ∀ i, ∀ x ∈ update ls top rest i,
        compareInternalKey (it.key (m.children top)) x.1 = .lt ∨
          compareInternalKey (it.key (m.children top)) x.1 = .eq ∧ top ≤ i := by
  have htop : ls top ≠ [] := (h.mem top).mp (hh ▸ List.mem_cons_self ..)
  obtain ⟨e, rest, hls⟩ := List.exists_cons_of_ne_nil htop
  obtain ⟨he, -⟩ := (hls ▸ h.each top).head
  have hord := h.ordered
  rw [hh] at hord
  have hleast := hord.head_le (weak_mergeLess it m.children)
  refine ⟨rest, he ▸ hls, fun i x hx => ?_⟩
  by_cases hi : i = top
  · -- behind the first entry in the same child
    subst hi
    rw [Function.update_self] at hx
    have hle := (List.pairwise_cons.mp (hls ▸ h.sorted i)).1 x hx
    rw [he] at hle
    rcases Ordering.isLE_iff_eq_lt_or_eq_eq.mp hle with hlt | heq
    · exact .inl hlt
    · exact .inr ⟨heq, Fin.le_refl i⟩
  · rw [Function.update_of_ne hi] at hx
    obtain ⟨y, ys, hy⟩ := List.exists_cons_of_ne_nil (List.ne_nil_of_mem hx)
    obtain ⟨hkey, -⟩ := (hy ▸ h.each i).head
    have hmem : i ∈ top :: t := hh ▸ (h.mem i).mpr (List.ne_nil_of_mem hx)
    have hyx : (compareInternalKey (it.key (m.children i)) x.1).isLE = true := by
      rw [hy] at hx
      rcases List.mem_cons.mp hx with rfl | hx
      · have hself : compareInternalKey (it.key (m.children i)) (it.key (m.children i)) = .eq :=
          Std.ReflCmp.compare_self
        rw [hkey, hself]
        rfl
      · have hle := (List.pairwise_cons.mp (hy ▸ h.sorted i)).1 x hx
        rwa [hkey] at hle
    rcases mergeLess_eq_false.mp (hleast i hmem) with hlt | ⟨heq, hle⟩
    · exact .inl (Std.TransCmp.lt_of_lt_of_isLE hlt hyx)
    · rcases Ordering.isLE_iff_eq_lt_or_eq_eq.mp hyx with hlt | heq'
      · exact .inl (Std.TransCmp.lt_of_eq_of_lt heq hlt)
      · exact .inr ⟨Std.TransCmp.eq_trans heq heq', hle⟩

/-- A step of the top child leaves the pairs below the top in order. -/
theorem MergeOK.below_top {top : Fin n} {t : List (Fin n)} (h : MergeOK it m ls errs)
    (hh : m.h = top :: t) (s : σ) :
    HeapOrder.OrderedBelow (mergeLess it (update m.children top s)) (top :: t) := by
  intro i hi a ha b hb
  have hnodup := h.nodup
  rw [hh] at hnodup
  have hne : ∀ j x, 0 < j → (top :: t)[j]? = some x → x ≠ top := by
    intro j x hj hx
    obtain ⟨k, rfl⟩ : ∃ k, j = k + 1 := ⟨j - 1, by omega⟩
    rw [List.getElem?_cons_succ] at hx
    rintro rfl
    exact (List.nodup_cons.mp hnodup).1 (List.mem_of_getElem? hx)
  have hless : mergeLess it (update m.children top s) a b = mergeLess it m.children a b := by
    unfold mergeLess
    rw [Function.update_of_ne (hne i a (by omega) ha),
      Function.update_of_ne (hne ((i - 1) / 2) b hi hb)]
  rw [hless]
  have hord := h.ordered
  rw [hh] at hord
  exact hord i (by omega) a ha b hb

/-- `next` takes the first entry of the top child, and no other. -/
theorem MergeOK.next {top : Fin n} {t : List (Fin n)} {rest : List (Bytes × Bytes)}
    (h : MergeOK it m ls errs) (hh : m.h = top :: t)
    (hls : ls top = (it.key (m.children top), it.value (m.children top)) :: rest) :
    MergeOK it (m.next heap it) (update ls top rest) errs := by
  have hrest : Yields it (it.next (m.children top)) rest (errs top) := (hls ▸ h.each top).head.2
  have hbelow := h.below_top hh (it.next (m.children top))
  have hweak := weak_mergeLess it (update m.children top (it.next (m.children top)))
  have hnodup := h.nodup
  rw [hh] at hnodup
  have heach : ∀ i, Yields it (update m.children top (it.next (m.children top)) i)
      (update ls top rest i) (errs i) := by
    intro i
    by_cases hi : i = top
    · subst hi
      rw [Function.update_self, Function.update_self]
      exact hrest
    · rw [Function.update_of_ne hi, Function.update_of_ne hi]
      exact h.each i
  have hsorted : ∀ i, KeysSorted (update ls top rest i) := by
    intro i
    by_cases hi : i = top
    · subst hi
      rw [Function.update_self]
      exact (List.pairwise_cons.mp (hls ▸ h.sorted i)).2
    · rw [Function.update_of_ne hi]
      exact h.sorted i
  have hmem : ∀ i, i ∈ t ↔ i ≠ top ∧ ls i ≠ [] := by
    intro i
    have hi := h.mem i
    rw [hh, List.mem_cons] at hi
    constructor
    · intro hit
      refine ⟨?_, hi.mp (.inr hit)⟩
      rintro rfl
      exact (List.nodup_cons.mp hnodup).1 hit
    · rintro ⟨hne, hlsi⟩
      exact (hi.mpr hlsi).resolve_left hne
  unfold MergeIter.next
  rw [hh]
  dsimp only
  rw [Function.update_self]
  by_cases hvalid : it.valid (it.next (m.children top)) = true
  · rw [if_pos hvalid]
    have hperm := heap.fix_perm
      (mergeLess it (update m.children top (it.next (m.children top)))) (top :: t)
    refine ⟨heach, hsorted, fun i => ?_, hperm.nodup_iff.mpr hnodup, heap.fix_ordered hweak hbelow, h.err⟩
    show i ∈ heap.fix _ _ ↔ _
    rw [hperm.mem_iff, List.mem_cons, hmem]
    by_cases hi : i = top
    · subst hi
      rw [Function.update_self]
      exact ⟨fun _ => hrest.valid_iff.mp hvalid, fun _ => .inl rfl⟩
    · rw [Function.update_of_ne hi]
      simp [hi]
  · rw [if_neg hvalid]
    have hperm := heap.pop_perm
      (mergeLess it (update m.children top (it.next (m.children top)))) top t
    refine ⟨heach, hsorted, fun i => ?_, hperm.nodup_iff.mpr (List.nodup_cons.mp hnodup).2,
      heap.pop_ordered hweak hbelow, h.err⟩
    show i ∈ heap.pop _ _ ↔ _
    rw [hperm.mem_iff, hmem]
    by_cases hi : i = top
    · subst hi
      rw [Function.update_self]
      have hnil : rest = [] := by
        by_contra hne
        exact hvalid (hrest.valid_iff.mpr hne)
      simp [hnil]
    · rw [Function.update_of_ne hi]
      simp [hi]

/-- An entry that comes before everything else may be put in front of a merge. -/
theorem Merged.cons {top : Fin n} {e : Bytes × Bytes} {rest : List (Bytes × Bytes)}
    {out : List (Fin n × Bytes × Bytes)} (h : Merged (update ls top rest) out)
    (hls : ls top = e :: rest)
    (hfirst : ∀ i, ∀ x ∈ update ls top rest i,
      compareInternalKey e.1 x.1 = .lt ∨ compareInternalKey e.1 x.1 = .eq ∧ top ≤ i) :
    Merged ls ((top, e) :: out) := by
  refine ⟨fun i => ?_, List.pairwise_cons.mpr ⟨fun x hx => ?_, h.sorted⟩⟩
  · have hpart := h.parts i
    by_cases hi : i = top
    · subst hi
      rw [Function.update_self] at hpart
      rw [List.filter_cons_of_pos (by simp), List.map_cons, hpart, hls]
    · rw [Function.update_of_ne hi] at hpart
      rw [List.filter_cons_of_neg (by simpa using Ne.symm hi), hpart]
  · refine hfirst x.1 x.2 ?_
    rw [← h.parts x.1]
    exact List.mem_map.mpr ⟨x, List.mem_filter.mpr ⟨hx, by simp⟩, rfl⟩

/-- From a heap in order the merge yields the merge of what is left of the children. -/
theorem MergeOK.yields (h : MergeOK it m ls errs) :
    ∃ out err, Yields (mergeIter heap it) m (out.map Prod.snd) err ∧ Merged ls out ∧
      (err ≠ none ↔ ∃ i, errs i ≠ none) := by
  -- by induction on the number of entries that are left
  induction hlen : ∑ i, (ls i).length using Nat.strong_induction_on generalizing m ls with
  | _ len ih =>
    cases hh : m.h with
    | nil =>
      have hnil : ∀ i, ls i = [] := by
        intro i
        by_contra hne
        have := (h.mem i).mpr hne
        rw [hh] at this
        cases this
      have hvalid : (mergeIter heap it).valid m = false := by
        show (!m.h.isEmpty && m.err.isNone) = false
        rw [hh]
        rfl
      refine ⟨[], _, Yields.done hvalid, ⟨fun i => (hnil i).symm, List.Pairwise.nil⟩, ?_⟩
      have hclose : ((mergeIter heap it).close m).2 =
          (List.finRange n).findSome? fun i => errs i := by
        show m.err.or _ = _
        rw [h.err, Option.none_or]
        congr 1
        funext i
        exact ((hnil i) ▸ h.each i).closed.symm
      rw [hclose, ne_eq, List.findSome?_eq_none_iff]
      simp
    | cons top t =>
      obtain ⟨rest, hls, hfirst⟩ := h.top_first hh
      have hlt : ∑ i, (update ls top rest i).length < len := by
        rw [← hlen]
        refine Finset.sum_lt_sum (fun i _ => ?_) ⟨top, Finset.mem_univ _, ?_⟩
        · by_cases hi : i = top
          · subst hi
            rw [Function.update_self, hls, List.length_cons]
            exact Nat.le_succ _
          · rw [Function.update_of_ne hi]
        · rw [Function.update_self, hls, List.length_cons]
          exact Nat.lt_succ_self _
      obtain ⟨out, err, hyields, hmerged, herr⟩ := ih _ hlt (h.next hh hls) rfl
      refine ⟨(top, it.key (m.children top), it.value (m.children top)) :: out, err, ?_,
        hmerged.cons hls hfirst, herr⟩
      have hvalid : (mergeIter heap it).valid m = true := by
        show (!m.h.isEmpty && m.err.isNone) = true
        rw [hh, h.err]
        rfl
      have hkey : (mergeIter heap it).key m = it.key (m.children top) := by
        show (m.h.head?.map _).getD [] = _
        rw [hh]
        rfl
      have hvalue : (mergeIter heap it).value m = it.value (m.children top) := by
        show (m.h.head?.map _).getD [] = _
        rw [hh]
        rfl
      rw [List.map_cons, ← hkey, ← hvalue]
      exact Yields.entry hvalid hyields

/-- Wherever the merge stands, closing it returns an error if closing a child does. -/
theorem close_error {i : Fin n} (h : (it.close (m.children i)).2 ≠ none) :
    ((mergeIter heap it).close m).2 ≠ none := by
  intro hnone
  have hor : m.err = none ∧ ((List.finRange n).findSome? fun i => (it.close (m.children i)).2) = none :=
    Option.or_eq_none_iff.mp hnone
  exact h (List.findSome?_eq_none_iff.mp hor.2 i (List.mem_finRange i))

/-- **Merging.**  After `seekToFirst` or `seek` the merge of sorted iterators yields what they yield, each
entry once, by key and equal keys by child, and at the end `close` returns an error exactly if one of them
has ended with an error; before the end too, an error of a child is returned. -/
theorem mergeIter_merges (heap : Heap (Fin n)) (it : InternalIter σ ε) (m : MergeIter n σ ε)
    (herr : m.err = none) (entries : Fin n → List (Bytes × Bytes)) (errs : Fin n → Option ε)
    (hsorted : ∀ i, KeysSorted (entries i)) :
    ((∀ i, Yields it (it.seekToFirst (m.children i)) (entries i) (errs i)) →
      ∃ out err, Yields (mergeIter heap it) ((mergeIter heap it).seekToFirst m) (out.map Prod.snd) err ∧
        Merged entries out ∧ (err ≠ none ↔ ∃ i, errs i ≠ none)) ∧
    (∀ t, (∀ i, Yields it (it.seek t (m.children i))
        ((entries i).filter fun e => (compareInternalKey t e.1).isLE) (errs i)) →
      ∃ out err, Yields (mergeIter heap it) ((mergeIter heap it).seek t m) (out.map Prod.snd) err ∧
        Merged (fun i => (entries i).filter fun e => (compareInternalKey t e.1).isLE) out ∧
        (err ≠ none ↔ ∃ i, errs i ≠ none)) ∧
    ∀ m' : MergeIter n σ ε, (∃ i, (it.close (m'.children i)).2 ≠ none) →
      ((mergeIter heap it).close m').2 ≠ none := by
  refine ⟨?_, ?_, fun m' ⟨i, hi⟩ => close_error hi⟩
  · intro heach
    exact (@rebuild_ok _ _ _ heap it { m with children := fun i => it.seekToFirst (m.children i) } _ _
      heach hsorted herr).yields
  · intro t heach
    exact (@rebuild_ok _ _ _ heap it { m with children := fun i => it.seek t (m.children i) } _ _
      heach (fun i => (hsorted i).filter _) herr).yields

/-! ## Iterators over lists. -/

/-- A list, what is left of it, and the error at its end. -/
structure Walk (ε : Type) where
  all : List (Bytes × Bytes)
  rest : List (Bytes × Bytes) := []
  err : Option ε := none

def walkIter : InternalIter (Walk ε) ε where
  seekToFirst w := { w with rest := w.all }
  seek t w := { w with rest := w.all.filter fun e => (compareInternalKey t e.1).isLE }
  valid w := !w.rest.isEmpty
  next w := { w with rest := w.rest.tail }
  key w := (w.rest.head?.map Prod.fst).getD []
  value w := (w.rest.head?.map Prod.snd).getD []
  close w := (w, w.err)

theorem yields_walk (all rest : List (Bytes × Bytes)) (err : Option ε) :
    Yields walkIter ⟨all, rest, err⟩ rest err := by
  induction rest with
  | nil => exact Yields.done rfl
  | cons e rest ih => exact Yields.entry rfl ih

/-- Two children that share a key; the second ends with an error. -/
def tied : Fin 2 → Walk String
  | 0 => { all := [(makeInternalKey [1] 5 1, [50]), (makeInternalKey [2] 3 1, [30])] }
  | 1 => { all := [(makeInternalKey [1] 5 1, [51])], err := some "sstable: malformed block" }

theorem tied_sorted : ∀ i : Fin 2, KeysSorted (tied i).all := by
  unfold KeysSorted
  decide

theorem mergeIter_merges_tied :
    ∃ out err, Yields (mergeIter (HeapOrder.sorting (Fin 2)) walkIter)
        ((mergeIter (HeapOrder.sorting (Fin 2)) walkIter).seekToFirst ⟨tied, [], none⟩)
        (out.map Prod.snd) err ∧
      Merged (fun i => (tied i).all) out ∧ (err ≠ none ↔ ∃ i, (tied i).err ≠ none) :=
  (mergeIter_merges (HeapOrder.sorting (Fin 2)) walkIter ⟨tied, [], none⟩ rfl (fun i => (tied i).all)
    (fun i => (tied i).err) tied_sorted).1 fun i => yields_walk (tied i).all (tied i).all (tied i).err

end Keystone.Storage
