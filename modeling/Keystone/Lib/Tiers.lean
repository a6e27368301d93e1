/-
# Keystone.Lib.Tiers — versioned cells in sorted tiers.

The mathematics of a log-structured store, over any ordered type of keys.  A cell is one version of a
key; a tier is a list of cells with the keys ascending and the versions of one key descending, so
that the newest version of a key is the first cell a search meets.  A store is a stack of tiers,
newest first, and reads the first tier that has the key.

Everything is stated through one function, `top k l`, the first cell of `k` in `l`: a bounded search,
an ordered insertion, a merge of tiers and the removal of older versions are each described by what
they do to it.  Ties between equal versions are part of the description: the left list of a merge
wins them (`newer`), so nothing here asks for the versions to be distinct.
-/
import Mathlib.Tactic.Common

namespace Keystone.Lib.Tiers

universe u v

/-- One version of a key. -/
structure Cell (κ : Type u) (α : Type v) where
  key : κ
  ver : ℕ
  val : α
  deriving DecidableEq, Repr

variable {κ : Type u} {α : Type v}

section Order
variable [Ord κ]

/-- Keys ascend, and the versions of one key descend. -/
def Cell.cmp (a b : Cell κ α) : Ordering := (compare a.key b.key).then (compare b.ver a.ver)

def Cell.le (a b : Cell κ α) : Bool := (a.cmp b).isLE

/-- The cell stands before version `v` of key `k`. -/
def Cell.before (k : κ) (v : ℕ) (c : Cell κ α) : Bool :=
  ((compare c.key k).then (compare v c.ver)).isLT

/-- A tier: keys ascending, versions of one key descending, equal cells allowed. -/
abbrev Sorted (l : List (Cell κ α)) : Prop := l.Pairwise fun a b => a.le b = true

/-- Ordered insertion, before the cells that compare equal. -/
def insert (c : Cell κ α) : List (Cell κ α) → List (Cell κ α)
  | [] => [c]
  | x :: l => if (x.cmp c).isLT then x :: insert c l else c :: x :: l

/-- The merge of a stack of tiers: among equal cells the newer tier's comes first. -/
def mergeAll (tiers : List (List (Cell κ α))) : List (Cell κ α) :=
  tiers.foldr (fun t r => t.merge r Cell.le) []

/-- The cells from version `v` of `k` on. -/
def seek (k : κ) (v : ℕ) (l : List (Cell κ α)) : List (Cell κ α) := l.dropWhile (Cell.before k v)

end Order

/-- The cells no newer than `v`. -/
def upTo (v : ℕ) (l : List (Cell κ α)) : List (Cell κ α) := l.filter fun c => c.ver ≤ v

theorem mem_upTo {v : ℕ} {c : Cell κ α} {l : List (Cell κ α)} :
    c ∈ upTo v l ↔ c ∈ l ∧ c.ver ≤ v := by
  simp [upTo]

theorem upTo_of_le {v : ℕ} {l : List (Cell κ α)} (h : ∀ c ∈ l, c.ver ≤ v) : upTo v l = l :=
  List.filter_eq_self.mpr fun c hc => decide_eq_true (h c hc)

/-- The newer of two cells; the left one wins a tie. -/
def newer : Option (Cell κ α) → Option (Cell κ α) → Option (Cell κ α)
  | none, b => b
  | some a, none => some a
  | some a, some b => if a.ver < b.ver then some b else some a

@[simp]
theorem newer_none_left (b : Option (Cell κ α)) : newer none b = b := rfl

@[simp]
theorem newer_none_right (a : Option (Cell κ α)) : newer a none = a := by cases a <;> rfl

theorem newer_eq_or {a b : Option (Cell κ α)} (h : ∀ c ∈ a, ∀ x ∈ b, x.ver ≤ c.ver) :
    newer a b = a.or b := by
  cases a with
  | none => rfl
  | some c =>
    cases b with
    | none => rfl
    | some x => simp [newer, Nat.not_lt.mpr (h c rfl x rfl)]

/-- No older tier has a newer version of a key. -/
def Ranked (tiers : List (List (Cell κ α))) : Prop :=
  tiers.Pairwise fun a b => ∀ c ∈ a, ∀ x ∈ b, c.key = x.key → x.ver ≤ c.ver

/-- A ranked stack stays ranked when tiers lose cells. -/
theorem ranked_map {f : List (Cell κ α) → List (Cell κ α)} (hf : ∀ t, ∀ c ∈ f t, c ∈ t)
    {ts : List (List (Cell κ α))} (h : Ranked ts) : Ranked (ts.map f) :=
  List.pairwise_map.mpr (h.imp fun hab c hc x hx => hab c (hf _ c hc) x (hf _ x hx))

/-- A run of tiers may be replaced by one that has no other cells. -/
theorem ranked_replace {as run bs : List (List (Cell κ α))} {out : List (Cell κ α)}
    (h : Ranked (as ++ run ++ bs)) (hout : ∀ c ∈ out, ∃ t ∈ run, c ∈ t) :
    Ranked (as ++ out :: bs) := by
  unfold Ranked at h ⊢
  obtain ⟨hfront, hbs, hcross⟩ := List.pairwise_append.mp h
  obtain ⟨has, -, harun⟩ := List.pairwise_append.mp hfront
  refine List.pairwise_append.mpr ⟨has, List.pairwise_cons.mpr ⟨fun b hb c hc => ?_, hbs⟩, ?_⟩
  · obtain ⟨t, ht, hct⟩ := hout c hc
    exact hcross t (List.mem_append_right _ ht) b hb c hct
  · intro a ha b hb c hc x hx
    rcases List.mem_cons.mp hb with rfl | hb
    · obtain ⟨t, ht, hxt⟩ := hout x hx
      exact harun a ha t ht c hc x hxt
    · exact hcross a (List.mem_append_left _ ha) b hb c hc x hx

section Lookup
variable [DecidableEq κ]

/-- The first cell of key `k`. -/
def top (k : κ) (l : List (Cell κ α)) : Option (Cell κ α) := l.find? fun c => c.key = k

/-- The first cell of key `k` in the newest tier that has one. -/
def topOf (k : κ) (tiers : List (List (Cell κ α))) : Option (Cell κ α) := tiers.findSome? (top k)

/-- The newest cell of `k` that is no newer than `v`, found by seeking. -/
def lookup [Ord κ] (k : κ) (v : ℕ) (l : List (Cell κ α)) : Option (Cell κ α) :=
  match seek k v l with
  | [] => none
  | c :: _ => if c.key = k then some c else none

/-- The first cell of every run of equal keys; cells of key `last` are skipped at the start. -/
def firsts (last : κ) : List (Cell κ α) → List (Cell κ α)
  | [] => []
  | c :: l => if c.key = last then firsts last l else c :: firsts c.key l

@[simp]
theorem top_nil (k : κ) : top k ([] : List (Cell κ α)) = none := rfl

theorem top_cons (k : κ) (c : Cell κ α) (l : List (Cell κ α)) :
    top k (c :: l) = if c.key = k then some c else top k l := by
  unfold top
  by_cases h : c.key = k <;> simp [h]

theorem top_key {k : κ} {l : List (Cell κ α)} {c : Cell κ α} (h : top k l = some c) : c.key = k := by
  simpa using List.find?_some h

theorem top_mem {k : κ} {l : List (Cell κ α)} {c : Cell κ α} (h : top k l = some c) : c ∈ l :=
  List.mem_of_find?_eq_some h

theorem top_eq_none {k : κ} {l : List (Cell κ α)} : top k l = none ↔ ∀ c ∈ l, c.key ≠ k := by
  simp [top]

@[simp]
theorem topOf_nil (k : κ) : topOf k ([] : List (List (Cell κ α))) = none := rfl

theorem topOf_cons (k : κ) (t : List (Cell κ α)) (ts : List (List (Cell κ α))) :
    topOf k (t :: ts) = (top k t).or (topOf k ts) := by
  unfold topOf
  rw [List.findSome?_cons]
  cases top k t <;> rfl

theorem topOf_append (k : κ) (as bs : List (List (Cell κ α))) :
    topOf k (as ++ bs) = (topOf k as).or (topOf k bs) := List.findSome?_append

theorem topOf_eq_none {k : κ} {ts : List (List (Cell κ α))} :
    topOf k ts = none ↔ ∀ t ∈ ts, ∀ c ∈ t, c.key ≠ k := by
  simp only [topOf, List.findSome?_eq_none_iff, top_eq_none]

theorem topOf_mem {k : κ} {ts : List (List (Cell κ α))} {c : Cell κ α} (h : topOf k ts = some c) :
    c.key = k ∧ ∃ t ∈ ts, c ∈ t := by
  obtain ⟨t, ht, hc⟩ := List.exists_of_findSome?_eq_some h
  exact ⟨top_key hc, t, ht, top_mem hc⟩

/-- Empty tiers are never read. -/
theorem topOf_filter_nonempty (k : κ) (ts : List (List (Cell κ α))) :
    topOf k (ts.filter fun t => !t.isEmpty) = topOf k ts := by
  induction ts with
  | nil => rfl
  | cons t ts ih => cases t <;> simp [topOf_cons, ih]

theorem firsts_sublist (last : κ) (l : List (Cell κ α)) : (firsts last l).Sublist l := by
  induction l generalizing last with
  | nil => exact .slnil
  | cons c l ih =>
    rw [firsts]
    split
    · exact (ih last).cons c
    · exact (ih c.key).cons_cons c

end Lookup

/-! ## The order of cells -/

section Laws
variable [Ord κ]

theorem sorted_cons {c : Cell κ α} {l : List (Cell κ α)} :
    Sorted (c :: l) ↔ (∀ x ∈ l, c.le x = true) ∧ Sorted l := List.pairwise_cons

theorem sorted_upTo (v : ℕ) {l : List (Cell κ α)} (h : Sorted l) : Sorted (upTo v l) :=
  List.Pairwise.filter _ h

/-- A cell above the bound comes and goes unseen. -/
theorem upTo_insert_of_lt {v : ℕ} {c : Cell κ α} (h : v < c.ver) (l : List (Cell κ α)) :
    upTo v (insert c l) = upTo v l := by
  have hc : ¬ c.ver ≤ v := Nat.not_le.mpr h
  induction l with
  | nil => simp [insert, upTo, hc]
  | cons x l ih =>
    unfold insert
    split
    · unfold upTo at ih ⊢
      rw [List.filter_cons, List.filter_cons, ih]
    · simp [upTo, hc]

theorem mergeAll_cons (t : List (Cell κ α)) (ts : List (List (Cell κ α))) :
    mergeAll (t :: ts) = t.merge (mergeAll ts) Cell.le := rfl

theorem mem_mergeAll {ts : List (List (Cell κ α))} {c : Cell κ α} :
    c ∈ mergeAll ts ↔ ∃ t ∈ ts, c ∈ t := by
  induction ts with
  | nil => simp [mergeAll]
  | cons t ts ih =>
    rw [mergeAll_cons, List.mem_merge, ih]
    simp

section Eq
variable [Std.LawfulEqOrd κ]

theorem le_iff {a b : Cell κ α} :
    a.le b = true ↔ compare a.key b.key = .lt ∨ a.key = b.key ∧ b.ver ≤ a.ver := by
  unfold Cell.le Cell.cmp
  cases h : compare a.key b.key with
  | lt => simp
  | gt =>
    have : a.key ≠ b.key := fun e => by simp [e] at h
    simp [this]
  | eq => simp [Std.LawfulEqCmp.compare_eq_iff_eq.mp h, Nat.isLE_compare]

theorem before_iff {k : κ} {v : ℕ} {c : Cell κ α} :
    c.before k v = true ↔ compare c.key k = .lt ∨ c.key = k ∧ v < c.ver := by
  unfold Cell.before
  cases h : compare c.key k with
  | lt => simp
  | gt =>
    have : c.key ≠ k := fun e => by simp [e] at h
    simp [this]
  | eq => simp [Std.LawfulEqCmp.compare_eq_iff_eq.mp h, Nat.compare_eq_lt]

theorem lt_of_isLE_of_ne {a b : κ} (h : (compare a b).isLE = true) (hne : a ≠ b) :
    compare a b = .lt := by
  cases hc : compare a b with
  | lt => rfl
  | eq => exact absurd (Std.LawfulEqCmp.compare_eq_iff_eq.mp hc) hne
  | gt => simp [hc] at h

theorem key_isLE_of_le {a b : Cell κ α} (h : a.le b = true) : (compare a.key b.key).isLE = true := by
  rcases le_iff.mp h with h | ⟨e, -⟩
  · simp [h]
  · simp [e]

variable [DecidableEq κ]

theorem top_of_strict {l : List (Cell κ α)} (h : l.Pairwise fun a b => compare a.key b.key = .lt)
    {c : Cell κ α} (hc : c ∈ l) : top c.key l = some c := by
  induction l with
  | nil => cases hc
  | cons x l ih =>
    rw [List.pairwise_cons] at h
    rw [top_cons]
    rcases List.mem_cons.mp hc with rfl | hc
    · simp
    · have hne : x.key ≠ c.key := fun e => by
        have := h.1 c hc
        rw [e] at this
        simp at this
      rw [if_neg hne, ih h.2 hc]

/-- In a list with one cell a key, filtering the list is filtering what is read. -/
theorem top_filter_of_strict (k : κ) (p : Cell κ α → Bool) {l : List (Cell κ α)}
    (h : l.Pairwise fun a b => compare a.key b.key = .lt) :
    top k (l.filter p) = (top k l).filter p := by
  cases htop : top k l with
  | none =>
    rw [top_eq_none] at htop
    exact top_eq_none.mpr fun c hc => htop c (List.mem_filter.mp hc).1
  | some c =>
    have hck := top_key htop
    cases hp : p c with
    | true =>
      have hmem : c ∈ l.filter p := List.mem_filter.mpr ⟨top_mem htop, hp⟩
      rw [← hck, top_of_strict (h.filter p) hmem]
      simp [Option.filter, hp]
    | false =>
      have hnone : top k (l.filter p) = none := top_eq_none.mpr fun x hx e => by
        obtain ⟨hx, hpx⟩ := List.mem_filter.mp hx
        have := top_of_strict h hx
        rw [e, htop] at this
        cases this
        simp [hp] at hpx
      simp [hnone, Option.filter, hp]

/-- Cutting a tier at a bound on the keys keeps what is read below the bound. -/
theorem top_takeWhile (k : κ) {p : κ → Bool}
    (hp : ∀ a b, (compare a b).isLE = true → p b = true → p a = true) {l : List (Cell κ α)}
    (hl : Sorted l) :
    top k (l.takeWhile fun c => p c.key) = if p k = true then top k l else none := by
  induction l with
  | nil => simp
  | cons c l ih =>
    rw [sorted_cons] at hl
    by_cases hc : p c.key = true
    · rw [List.takeWhile_cons, if_pos hc, top_cons, top_cons, ih hl.2]
      by_cases hk : c.key = k
      · simp [hk, hk ▸ hc]
      · simp [hk]
    · rw [List.takeWhile_cons, if_neg hc, top_nil]
      split
      next hpk =>
        refine (top_eq_none.mpr fun x hx e => hc (hp c.key k ?_ hpk)).symm
        rcases List.mem_cons.mp hx with rfl | hx
        · simp [e]
        · exact e ▸ key_isLE_of_le (hl.1 x hx)
      next => rfl

end Eq

variable [Std.TransOrd κ]

theorem cmp_swap (a x : Cell κ α) : (a.cmp x).swap = x.cmp a := by
  simp only [Cell.cmp, Ordering.swap_then]
  rw [← Std.OrientedCmp.eq_swap, ← Std.OrientedCmp.eq_swap]

/-- Inserting one cell is merging it in from a newer tier. -/
theorem insert_eq_merge (c : Cell κ α) (l : List (Cell κ α)) : insert c l = [c].merge l Cell.le := by
  induction l with
  | nil => simp [insert]
  | cons x l ih =>
    have hle : c.le x = !(x.cmp c).isLT := by
      rw [Cell.le, ← cmp_swap]
      cases x.cmp c <;> rfl
    rw [insert, List.cons_merge_cons, hle, ih]
    cases (x.cmp c).isLT <;> simp

theorem mem_insert {c x : Cell κ α} {l : List (Cell κ α)} : x ∈ insert c l ↔ x = c ∨ x ∈ l := by
  rw [insert_eq_merge, List.mem_merge, List.mem_singleton]

variable [Std.LawfulEqOrd κ]

theorem le_trans (a b c : Cell κ α) (h : a.le b = true) (h' : b.le c = true) : a.le c = true := by
  rw [le_iff] at *
  rcases h with h | ⟨e, h⟩ <;> rcases h' with h' | ⟨e', h'⟩
  · exact .inl (Std.TransCmp.lt_trans h h')
  · exact .inl (e' ▸ h)
  · exact .inl (e ▸ h')
  · exact .inr ⟨e.trans e', Nat.le_trans h' h⟩

theorem le_total (a b : Cell κ α) : (a.le b || b.le a) = true := by
  rw [Bool.or_eq_true, le_iff, le_iff]
  cases h : compare a.key b.key with
  | lt => exact .inl (.inl rfl)
  | gt => exact .inr (.inl (Std.OrientedCmp.gt_iff_lt.mp h))
  | eq =>
    have e := Std.LawfulEqCmp.compare_eq_iff_eq.mp h
    rcases Nat.le_total b.ver a.ver with hv | hv
    · exact .inl (.inr ⟨e, hv⟩)
    · exact .inr (.inr ⟨e.symm, hv⟩)

theorem sorted_merge {a b : List (Cell κ α)} (ha : Sorted a) (hb : Sorted b) :
    Sorted (a.merge b Cell.le) :=
  List.pairwise_merge le_trans le_total a b ha hb

theorem sorted_mergeAll {ts : List (List (Cell κ α))} (h : ∀ t ∈ ts, Sorted t) :
    Sorted (mergeAll ts) := by
  induction ts with
  | nil => exact List.Pairwise.nil
  | cons t ts ih =>
    rw [List.forall_mem_cons] at h
    exact sorted_merge h.1 (ih h.2)

/-- What stands before a cell that is before a point is before the point. -/
theorem before_of_le {k : κ} {v : ℕ} {a b : Cell κ α} (h : a.le b = true)
    (hb : b.before k v = true) : a.before k v = true := by
  rw [le_iff] at h
  rw [before_iff] at hb ⊢
  rcases h with h | ⟨e, hv⟩ <;> rcases hb with hb | ⟨e', hb⟩
  · exact .inl (Std.TransCmp.lt_trans h hb)
  · exact .inl (e' ▸ h)
  · exact .inl (e ▸ hb)
  · exact .inr ⟨e.trans e', Nat.lt_of_lt_of_le hb hv⟩

/-- A search that stands at another key has passed `k`: nothing behind has it. -/
theorem key_ne_of_passed {k : κ} {v : ℕ} {c x : Cell κ α} (hb : ¬ c.before k v = true) (hk : c.key ≠ k)
    (hle : (compare c.key x.key).isLE = true) : x.key ≠ k := by
  rintro rfl
  have hgt : compare x.key c.key = .lt := by
    cases h : compare c.key x.key with
    | lt => exact absurd (before_iff.mpr (.inl h)) hb
    | eq => exact absurd (Std.LawfulEqCmp.compare_eq_iff_eq.mp h) hk
    | gt => exact Std.OrientedCmp.gt_iff_lt.mp h
  simpa using Std.TransCmp.lt_of_lt_of_isLE hgt hle

/-- Seeking under the bound is seeking, and forgetting what lies above the bound. -/
theorem upTo_seek (k : κ) (v w : ℕ) {l : List (Cell κ α)} (hl : Sorted l) :
    upTo w (seek k v l) = seek k v (upTo w l) := by
  induction l with
  | nil => rfl
  | cons c l ih =>
    have htail := (sorted_cons.mp hl).2
    by_cases hb : c.before k v = true
    · have hseek : seek k v (c :: l) = seek k v l := by simp [seek, hb]
      rw [hseek, ih htail]
      by_cases hc : c.ver ≤ w
      · simp [upTo, seek, hc, hb]
      · simp [upTo, hc]
    · have hseek : seek k v (c :: l) = c :: l := by simp [seek, hb]
      rw [hseek]
      -- nothing behind `c` is before the point either
      have hnone : ∀ x ∈ upTo w (c :: l), ¬ x.before k v = true := by
        intro x hx hxb
        rcases List.mem_cons.mp (mem_upTo.mp hx).1 with rfl | hx
        · exact hb hxb
        · exact hb (before_of_le ((sorted_cons.mp hl).1 x hx) hxb)
      unfold seek
      cases hup : upTo w (c :: l) with
      | nil => rfl
      | cons x r =>
        rw [hup] at hnone
        rw [List.dropWhile_cons_of_neg (hnone x (List.mem_cons_self ..))]

variable [DecidableEq κ]

/-! ## What the operations do to `top` -/

/-- A merge has the newer of the two first cells, the left one in a tie. -/
theorem top_merge (k : κ) {a b : List (Cell κ α)} (ha : Sorted a) (hb : Sorted b) :
    top k (a.merge b Cell.le) = newer (top k a) (top k b) := by
  induction a generalizing b with
  | nil => simp
  | cons x a iha =>
    induction b with
    | nil => simp
    | cons y b ihb =>
      rw [sorted_cons] at ha hb
      rw [List.cons_merge_cons]
      split
      next hxy =>
        -- `x` comes first: it is the answer for its own key, and nothing in `y :: b` is newer
        rw [top_cons, top_cons k x a, iha ha.2 (sorted_cons.mpr hb)]
        split
        next hk =>
          cases htop : top k (y :: b) with
          | none => simp
          | some c =>
            have hc := top_mem htop
            have hle : x.le c = true := by
              rcases List.mem_cons.mp hc with rfl | hc
              · exact hxy
              · exact le_trans _ _ _ hxy (hb.1 c hc)
            rcases le_iff.mp hle with hlt | ⟨-, hv⟩
            · rw [hk, top_key htop] at hlt
              simp at hlt
            · simp [newer, Nat.not_lt.mpr hv]
        next => rfl
      next hxy =>
        have hyx : y.le x = true := by simpa [hxy] using le_total x y
        rw [top_cons, top_cons k y b, ihb hb.2]
        split
        next hk =>
          -- `y` comes first, so every cell of `y`'s key in `x :: a` is strictly older
          cases htop : top k (x :: a) with
          | none => simp
          | some c =>
            have hxc : x.le c = true := by
              rcases List.mem_cons.mp (top_mem htop) with rfl | hc
              · simpa using le_total c c
              · exact ha.1 c hc
            have hv : c.ver < y.ver := by
              by_contra hge
              refine hxy (le_trans _ _ _ hxc (le_iff.mpr (.inr ⟨?_, Nat.not_lt.mp hge⟩)))
              rw [top_key htop, hk]
            simp [newer, hv]
        next => rfl

theorem top_insert (k : κ) (c : Cell κ α) {l : List (Cell κ α)} (h : Sorted l) :
    top k (insert c l) = newer (top k [c]) (top k l) := by
  rw [insert_eq_merge, top_merge k (List.pairwise_singleton _ _) h]

/-- A cell that no cell of its key is newer than becomes the first of its key. -/
theorem top_insert_of_newest (k : κ) {c : Cell κ α} {l : List (Cell κ α)} (h : Sorted l)
    (hc : ∀ x ∈ l, x.key = c.key → x.ver ≤ c.ver) :
    top k (insert c l) = if c.key = k then some c else top k l := by
  rw [top_insert k c h, top_cons, top_nil]
  split
  next hk =>
    cases htop : top k l with
    | none => rfl
    | some x =>
      have := hc x (top_mem htop) ((top_key htop).trans hk.symm)
      simp [newer, Nat.not_lt.mpr this]
  next => rfl

/-- A search bounded by a version no cell exceeds finds the first cell of its key. -/
theorem lookup_eq_top (k : κ) {v : ℕ} {l : List (Cell κ α)} (hl : Sorted l)
    (hv : ∀ c ∈ l, c.ver ≤ v) : lookup k v l = top k l := by
  induction l with
  | nil => rfl
  | cons c l ih =>
    rw [sorted_cons] at hl
    rw [List.forall_mem_cons] at hv
    have hskip : ¬ (c.key = k ∧ v < c.ver) := fun h => Nat.not_lt.mpr hv.1 h.2
    by_cases hb : c.before k v = true
    · have hne : c.key ≠ k := by
        rcases before_iff.mp hb with h | h
        · exact fun e => by simp [e] at h
        · exact absurd h hskip
      have hseek : lookup k v (c :: l) = lookup k v l := by simp [lookup, seek, hb]
      rw [hseek, ih hl.2 hv.2, top_cons, if_neg hne]
    · have hseek : lookup k v (c :: l) = if c.key = k then some c else none := by
        simp [lookup, seek, hb]
      rw [hseek, top_cons]
      split
      · rfl
      next hne =>
        exact (top_eq_none.mpr fun x hx => key_ne_of_passed hb hne (key_isLE_of_le (hl.1 x hx))).symm

/-- Seeking to a key with a version no cell exceeds drops exactly the keys below it. -/
theorem top_seek (k start : κ) {v : ℕ} {l : List (Cell κ α)} (hl : Sorted l)
    (hv : ∀ c ∈ l, c.ver ≤ v) :
    top k (seek start v l) = if (compare start k).isLE = true then top k l else none := by
  induction l with
  | nil => simp [seek]
  | cons c l ih =>
    rw [sorted_cons] at hl
    rw [List.forall_mem_cons] at hv
    by_cases hb : c.before start v = true
    · have hlt : compare c.key start = .lt := by
        rcases before_iff.mp hb with h | h
        · exact h
        · exact absurd h.2 (Nat.not_lt.mpr hv.1)
      have hseek : seek start v (c :: l) = seek start v l := by simp [seek, hb]
      rw [hseek, ih hl.2 hv.2, top_cons]
      split
      next hk =>
        have hne : c.key ≠ k := fun e => by
          rw [e, ← Std.OrientedCmp.gt_iff_lt] at hlt
          simp [hlt] at hk
        rw [if_neg hne]
      next => rfl
    · have hseek : seek start v (c :: l) = c :: l := by simp [seek, hb]
      rw [hseek]
      split
      next => rfl
      next hk =>
        have hstart : (compare start c.key).isLE = true := by
          rw [before_iff, not_or, ← Std.OrientedCmp.gt_iff_lt] at hb
          exact Ordering.isLE_iff_ne_gt.mpr hb.1
        refine top_eq_none.mpr fun x hx e => hk ?_
        rcases List.mem_cons.mp hx with rfl | hx
        · exact e ▸ hstart
        · exact e ▸ Std.TransCmp.isLE_trans hstart (key_isLE_of_le (hl.1 x hx))

/-- A bounded search reads what lies under the bound. -/
theorem lookup_eq_top_upTo (k : κ) (v : ℕ) {l : List (Cell κ α)} (hl : Sorted l) :
    lookup k v l = top k (upTo v l) := by
  have hbound : ∀ c ∈ upTo v l, c.ver ≤ v := fun c hc => (mem_upTo.mp hc).2
  rw [← lookup_eq_top k (sorted_upTo v hl) hbound]
  unfold lookup
  rw [← upTo_seek k v v hl]
  have hsought : Sorted (seek k v l) := List.Pairwise.sublist (List.dropWhile_sublist _) hl
  cases hseek : seek k v l with
  | nil => rfl
  | cons c r =>
    have hnb : ¬ c.before k v = true := by
      intro hb
      have hhead := List.head?_dropWhile_not (Cell.before k v) l
      rw [show l.dropWhile (Cell.before k v) = c :: r from hseek] at hhead
      simp [hb] at hhead
    rw [hseek] at hsought
    by_cases hk : c.key = k
    · have hc : c.ver ≤ v := Nat.not_lt.mp fun hlt => hnb (before_iff.mpr (.inr ⟨hk, hlt⟩))
      simp [upTo, hc, hk]
    · simp only [if_neg hk]
      cases hup : upTo v (c :: r) with
      | nil => rfl
      | cons x xs =>
        have hx : x ∈ c :: r := (mem_upTo.mp (hup ▸ List.mem_cons_self ..)).1
        have hle : (compare c.key x.key).isLE = true := by
          rcases List.mem_cons.mp hx with rfl | hx
          · simp
          · exact key_isLE_of_le ((sorted_cons.mp hsought).1 x hx)
        simp [key_ne_of_passed hnb hk hle]

/-! ## Stacks of tiers -/

/-- Searching the tiers one after the other, each under the bound. -/
theorem findSome?_lookup (k : κ) (v : ℕ) {ts : List (List (Cell κ α))} (hs : ∀ t ∈ ts, Sorted t) :
    ts.findSome? (lookup k v) = topOf k (ts.map (upTo v)) := by
  induction ts with
  | nil => rfl
  | cons t ts ih =>
    rw [List.forall_mem_cons] at hs
    rw [List.findSome?_cons, List.map_cons, topOf_cons, lookup_eq_top_upTo k v hs.1, ih hs.2]
    cases top k (upTo v t) <;> rfl

/-- Seeking in every tier drops exactly the keys below. -/
theorem topOf_seek (k start : κ) {v : ℕ} {ts : List (List (Cell κ α))} (hs : ∀ t ∈ ts, Sorted t)
    (hv : ∀ t ∈ ts, ∀ c ∈ t, c.ver ≤ v) :
    topOf k (ts.map (seek start v)) =
      if (compare start k).isLE = true then topOf k ts else none := by
  induction ts with
  | nil => simp
  | cons t ts ih =>
    rw [List.forall_mem_cons] at hs hv
    rw [List.map_cons, topOf_cons, topOf_cons, top_seek k start hs.1 hv.1, ih hs.2 hv.2]
    split <;> rfl

/-- Reading the merge of a ranked stack is reading the stack. -/
theorem top_mergeAll (k : κ) {ts : List (List (Cell κ α))} (hs : ∀ t ∈ ts, Sorted t)
    (hr : Ranked ts) : top k (mergeAll ts) = topOf k ts := by
  induction ts with
  | nil => rfl
  | cons t ts ih =>
    rw [List.forall_mem_cons] at hs
    unfold Ranked at hr
    rw [List.pairwise_cons] at hr
    rw [mergeAll_cons, top_merge k hs.1 (sorted_mergeAll hs.2), ih hs.2 hr.2, topOf_cons]
    refine newer_eq_or fun c hc x hx => ?_
    obtain ⟨hxk, u, hu, hxu⟩ := topOf_mem hx
    exact hr.1 u hu c (top_mem hc) x hxu ((top_key hc).trans hxk.symm)

/-- Dropping the older versions leaves every first cell, but for the key skipped at the start. -/
theorem top_firsts (k : κ) {last : κ} {l : List (Cell κ α)} (hl : Sorted l)
    (hlast : ∀ c ∈ l, (compare last c.key).isLE = true) :
    top k (firsts last l) = if k = last then none else top k l := by
  induction l generalizing last with
  | nil => simp [firsts]
  | cons c l ih =>
    rw [sorted_cons] at hl
    rw [List.forall_mem_cons] at hlast
    rw [firsts]
    split
    next hc =>
      rw [ih hl.2 hlast.2, top_cons]
      by_cases hk : k = last
      · simp [hk]
      · have hck : c.key ≠ k := fun e => hk (e.symm.trans hc)
        simp [hk, hck]
    next hc =>
      rw [top_cons, top_cons, ih hl.2 fun x hx => key_isLE_of_le (hl.1 x hx)]
      by_cases hck : c.key = k
      · have : k ≠ last := fun e => hc (hck.trans e)
        simp [hck, this]
      · by_cases hk : k = last
        · -- `last` lies below `c`, hence below all of `l`
          have hlt : compare last c.key = .lt := lt_of_isLE_of_ne hlast.1 (Ne.symm hc)
          have hnone : top k l = none := top_eq_none.mpr fun x hx e => by
            have := Std.TransCmp.lt_of_lt_of_isLE hlt (key_isLE_of_le (hl.1 x hx))
            rw [e, hk] at this
            simp at this
          rw [if_neg hck, if_pos hk, hnone, ite_self]
        · have : k ≠ c.key := Ne.symm hck
          simp [hck, hk, this]

/-- One cell a key is left, in ascending order. -/
theorem firsts_strict {last : κ} {l : List (Cell κ α)} (hl : Sorted l)
    (hlast : ∀ c ∈ l, (compare last c.key).isLE = true) :
    (firsts last l).Pairwise (fun a b => compare a.key b.key = .lt) ∧
      ∀ c ∈ firsts last l, compare last c.key = .lt := by
  induction l generalizing last with
  | nil => exact ⟨List.Pairwise.nil, fun _ h => by cases h⟩
  | cons c l ih =>
    rw [sorted_cons] at hl
    rw [List.forall_mem_cons] at hlast
    rw [firsts]
    split
    · exact ih hl.2 hlast.2
    next hc =>
      obtain ⟨hp, hlt⟩ := ih hl.2 fun x hx => key_isLE_of_le (hl.1 x hx)
      have hlc : compare last c.key = .lt := lt_of_isLE_of_ne hlast.1 (Ne.symm hc)
      refine ⟨List.pairwise_cons.mpr ⟨hlt, hp⟩, ?_⟩
      rw [List.forall_mem_cons]
      exact ⟨hlc, fun x hx => Std.TransCmp.lt_trans hlc (hlt x hx)⟩

/-- Replacing a run of tiers by its merge without older versions changes nothing that is read. -/
theorem topOf_merged (k : κ) {last : κ} (as : List (List (Cell κ α))) {run : List (List (Cell κ α))}
    (bs : List (List (Cell κ α))) (hs : ∀ t ∈ run, Sorted t) (hr : Ranked run)
    (hlast : ∀ t ∈ run, ∀ c ∈ t, compare last c.key = .lt) :
    topOf k (as ++ firsts last (mergeAll run) :: bs) = topOf k (as ++ run ++ bs) := by
  have hrun : top k (firsts last (mergeAll run)) = topOf k run := by
    rw [top_firsts k (sorted_mergeAll hs), top_mergeAll k hs hr]
    · split
      next hk =>
        refine (topOf_eq_none.mpr fun t ht c hc e => ?_).symm
        have := hlast t ht c hc
        rw [e, hk] at this
        simp at this
      next => rfl
    · intro c hc
      obtain ⟨t, ht, hct⟩ := mem_mergeAll.mp hc
      simp [hlast t ht c hct]
  rw [List.append_assoc, topOf_append, topOf_append, topOf_append, topOf_cons, hrun]

/-- If nothing lies below the run, cells that hide what is under them may go as well. -/
theorem topOf_merged_bottom (k : κ) (p : Cell κ α → Bool) {last : κ}
    (as : List (List (Cell κ α))) {run : List (List (Cell κ α))} (hs : ∀ t ∈ run, Sorted t)
    (hr : Ranked run) (hlast : ∀ t ∈ run, ∀ c ∈ t, compare last c.key = .lt) :
    (topOf k (as ++ [(firsts last (mergeAll run)).filter p])).filter p =
      (topOf k (as ++ run)).filter p := by
  have hmerged := topOf_merged k as [] hs hr hlast
  rw [List.append_nil] at hmerged
  rw [← hmerged, topOf_append, topOf_append, topOf_cons, topOf_cons]
  have hlow : ∀ c ∈ mergeAll run, (compare last c.key).isLE = true := fun c hc => by
    obtain ⟨t, ht, hct⟩ := mem_mergeAll.mp hc
    simp [hlast t ht c hct]
  have hstrict := (firsts_strict (sorted_mergeAll hs) hlow).1
  rw [top_filter_of_strict k p hstrict]
  cases topOf k as with
  | some c => rfl
  | none => simp

end Laws

end Keystone.Lib.Tiers
