/-
# Keystone.Lib.Cursors — a merging iterator over tiers that grow under it.

A merging iterator holds one cursor for each tier and always moves the one whose cell stands first; of
equal cells the cursor listed first is moved first.  A cursor is a cell of its tier, not a copy of the
tier: moving it reads the tier as it is at that moment, so cells that were inserted behind it since are
met and cells inserted in front of it are not.

A reader with a bound on the versions does not see the difference.  `pending b` is what it has in front of
it: the merge of what is left of every tier, without the cells above the bound.  Growth above the bound
leaves it as it is (`pending_congr`), a cell above the bound is passed over (`pending_hidden`), and any
other cell is its head (`pending_visible`).
-/
import Mathlib.Algebra.Ring.Nat
import Keystone.Lib.Tiers

namespace Keystone.Lib.Tiers

universe u v w

/-- A place in the tier `src`: at a cell, or behind the last one. -/
structure Cursor (ι : Type w) (κ : Type u) (α : Type v) where
  src : ι
  pos : Option (Cell κ α)
  deriving DecidableEq, Repr

variable {ι : Type w} {κ : Type u} {α : Type v} [Ord κ]

/-- A tier in which no two cells compare equal. -/
abbrev Strict (l : List (Cell κ α)) : Prop := l.Pairwise fun a b => a.cmp b = .lt

/-- The first of the cells the cursors stand at, and which cursor that is. -/
def least : List (Cursor ι κ α) → Option (ℕ × Cell κ α)
  | [] => none
  | c :: cs =>
    match c.pos, least cs with
    | none, none => none
    | none, some (i, x) => some (i + 1, x)
    | some e, none => some (0, e)
    | some e, some (i, x) => if e.le x then some (0, e) else some (i + 1, x)

section Reading

variable (content : ι → List (Cell κ α))

/-- The next cell of the tier, as the tier is now. -/
def Cursor.advance (c : Cursor ι κ α) : Cursor ι κ α :=
  match c.pos with
  | none => c
  | some e => { c with pos := (content c.src).find? fun x => (e.cmp x).isLT }

/-- What the cursor has not passed yet. -/
def Cursor.rest (c : Cursor ι κ α) : List (Cell κ α) :=
  match c.pos with
  | none => []
  | some e => (content c.src).filter fun x => e.le x

/-- A cursor stands at a cell of its tier. -/
def Cursor.Placed (c : Cursor ι κ α) : Prop := Strict (content c.src) ∧ ∀ e ∈ c.pos, e ∈ content c.src

/-- How many cells the cursors have not passed yet. -/
def left (cs : List (Cursor ι κ α)) : ℕ := (cs.map fun c => (c.rest content).length).sum

/-- What is left of all tiers, in order, under the bound `b`. -/
def pending (b : ℕ) (cs : List (Cursor ι κ α)) : List (Cell κ α) :=
  mergeAll (cs.map fun c => upTo b (c.rest content))

theorem pending_cons (b : ℕ) (c : Cursor ι κ α) (cs : List (Cursor ι κ α)) :
    pending content b (c :: cs) = (upTo b (c.rest content)).merge (pending content b cs) Cell.le := rfl

end Reading

variable {content content' : ι → List (Cell κ α)} {c : Cursor ι κ α} {cs : List (Cursor ι κ α)}
  {b i : ℕ} {e : Cell κ α}

/-- Growth above the bound is not seen. -/
theorem pending_congr (h : ∀ c ∈ cs, upTo b (content' c.src) = upTo b (content c.src)) :
    pending content' b cs = pending content b cs := by
  unfold pending
  congr 1
  refine List.map_congr_left fun c hc => ?_
  unfold Cursor.rest
  cases c.pos with
  | none => rfl
  | some e =>
    have hcomm : ∀ l : List (Cell κ α),
        upTo b (l.filter fun x => e.le x) = (upTo b l).filter fun x => e.le x := by
      intro l
      unfold upTo
      rw [List.filter_filter, List.filter_filter]
      simp only [Bool.and_comm]
    rw [hcomm, hcomm, h c hc]

theorem least_eq_none (h : least cs = none) : ∀ c ∈ cs, c.pos = none := by
  induction cs with
  | nil => simp
  | cons c cs ih =>
    unfold least at h
    split at h
    · next hpos hleast => exact List.forall_mem_cons.mpr ⟨hpos, ih hleast⟩
    · cases h
    · cases h
    · split at h <;> cases h

/-- The first cursor is the least, or the least of the others is. -/
theorem least_cons (h : least (c :: cs) = some (i, e)) :
    (i = 0 ∧ c.pos = some e ∧ ∀ x ∈ least cs, e.le x.2 = true) ∨
      ∃ j, i = j + 1 ∧ least cs = some (j, e) ∧ ∀ a ∈ c.pos, ¬ a.le e = true := by
  unfold least at h
  split at h
  · cases h
  · next hpos hleast =>
    cases h
    exact .inr ⟨_, rfl, hleast, by simp [hpos]⟩
  · next hpos hleast =>
    cases h
    exact .inl ⟨rfl, hpos, by simp [hleast]⟩
  · next hpos hleast =>
    split at h <;> cases h
    · next hle => exact .inl ⟨rfl, hpos, by simpa [hleast] using hle⟩
    · next hle => exact .inr ⟨_, rfl, hleast, by simpa [hpos] using hle⟩

theorem least_mem (h : least cs = some (i, e)) : ∃ c ∈ cs, c.pos = some e := by
  induction cs generalizing i with
  | nil => cases h
  | cons c cs ih =>
    rcases least_cons h with ⟨-, hpos, -⟩ | ⟨j, -, hleast, -⟩
    · exact ⟨c, List.mem_cons_self .., hpos⟩
    · obtain ⟨c₀, hc₀, hpos⟩ := ih hleast
      exact ⟨c₀, List.mem_cons_of_mem _ hc₀, hpos⟩

theorem pending_of_least_eq_none (h : least cs = none) : pending content b cs = [] := by
  have hnone := least_eq_none h
  refine List.eq_nil_iff_forall_not_mem.mpr fun x hx => ?_
  obtain ⟨t, ht, hx⟩ := mem_mergeAll.mp hx
  obtain ⟨c, hc, rfl⟩ := List.mem_map.mp ht
  simp [Cursor.rest, hnone c hc, upTo] at hx

theorem le_rest (hpos : c.pos = some e) : ∀ x ∈ c.rest content, e.le x = true := by
  intro x hx
  simp only [Cursor.rest, hpos] at hx
  exact (List.mem_filter.mp hx).2

theorem le_of_lt {a x : Cell κ α} (h : a.cmp x = .lt) : a.le x = true := by simp [Cell.le, h]

theorem sorted_of_strictly {l : List (Cell κ α)} (h : Strict l) : Sorted l := h.imp le_of_lt

theorem merge_cons_left {x : Cell κ α} {l r : List (Cell κ α)} (h : ∀ y ∈ r, x.le y = true) :
    (x :: l).merge r Cell.le = x :: l.merge r Cell.le := by
  cases r with
  | nil => simp
  | cons y r => rw [List.cons_merge_cons, if_pos (h y (List.mem_cons_self ..))]

theorem src_advance (c : Cursor ι κ α) : (c.advance content).src = c.src := by
  unfold Cursor.advance
  cases c.pos <;> rfl

theorem map_src_modify (cs : List (Cursor ι κ α)) (i : ℕ) :
    (cs.modify i (Cursor.advance content)).map Cursor.src = cs.map Cursor.src := by
  induction cs generalizing i with
  | nil => cases i <;> rfl
  | cons c cs ih =>
    cases i with
    | zero => rw [List.modify_zero_cons, List.map_cons, List.map_cons, src_advance]
    | succ i => rw [List.modify_succ_cons, List.map_cons, List.map_cons, ih]

theorem placed_advance (hc : c.Placed content) : (c.advance content).Placed content := by
  refine ⟨(src_advance c).symm ▸ hc.1, ?_⟩
  rw [src_advance]
  unfold Cursor.advance
  cases hpos : c.pos with
  | none => exact fun e he => hc.2 e (hpos ▸ he)
  | some e =>
    intro x hx
    exact List.mem_of_find?_eq_some hx

theorem placed_modify (hcs : ∀ c ∈ cs, c.Placed content) (i : ℕ) :
    ∀ c ∈ cs.modify i (Cursor.advance content), c.Placed content := by
  intro c hc
  obtain ⟨j, hj⟩ := List.mem_iff_getElem?.mp hc
  rw [List.getElem?_modify] at hj
  cases hget : cs[j]? with
  | none => simp [hget] at hj
  | some c₀ =>
    have hc₀ := hcs c₀ (List.mem_of_getElem? hget)
    simp only [hget, Option.map_eq_map, Option.map_some, Option.some.injEq] at hj
    rw [← hj]
    split
    · exact placed_advance hc₀
    · exact hc₀

theorem left_le (cs : List (Cursor ι κ α)) :
    left content cs ≤ (cs.map fun c => (content c.src).length).sum := by
  induction cs with
  | nil => exact Nat.le_refl _
  | cons c cs ih =>
    have hrest : (c.rest content).length ≤ (content c.src).length := by
      unfold Cursor.rest
      cases c.pos with
      | none => exact Nat.zero_le _
      | some e => exact List.length_filter_le ..
    unfold left at ih ⊢
    rw [List.map_cons, List.sum_cons, List.map_cons, List.sum_cons]
    exact Nat.add_le_add hrest ih

section Order

variable [Std.TransOrd κ]

theorem cmp_self (a : Cell κ α) : a.cmp a = .eq := by simp [Cell.cmp]

theorem le_refl (a : Cell κ α) : a.le a = true := by simp [Cell.le, cmp_self]

theorem le_iff_not_lt {a x : Cell κ α} : a.le x = true ↔ x.cmp a ≠ .lt := by
  rw [Cell.le, ← cmp_swap a x]
  cases a.cmp x <;> simp

theorem merge_cons_right {x : Cell κ α} {l r : List (Cell κ α)} (h : ∀ y ∈ l, x.cmp y = .lt) :
    l.merge (x :: r) Cell.le = x :: l.merge r Cell.le := by
  cases l with
  | nil => simp
  | cons y l =>
    have hle : ¬ y.le x = true := fun hyx => le_iff_not_lt.mp hyx (h y (List.mem_cons_self ..))
    rw [List.cons_merge_cons, if_neg hle]

/-- From a cell of a tier on: the cell, and what is behind it. -/
theorem filter_le_split {l r : List (Cell κ α)} (h : Strict (l ++ e :: r)) :
    ((l ++ e :: r).filter fun x => e.le x) = e :: r := by
  obtain ⟨-, hr, hcross⟩ := List.pairwise_append.mp h
  have hfront : ∀ x ∈ l, ¬ e.le x = true := fun x hx hle =>
    le_iff_not_lt.mp hle (hcross x hx e (List.mem_cons_self ..))
  have hback : ∀ x ∈ e :: r, e.le x = true := by
    intro x hx
    rcases List.mem_cons.mp hx with rfl | hx
    · exact le_refl x
    · exact le_of_lt ((List.pairwise_cons.mp hr).1 x hx)
  rw [List.filter_append, List.filter_eq_nil_iff.mpr hfront, List.filter_eq_self.mpr hback,
    List.nil_append]

/-- The rest of a tier begins at the first cell that is left. -/
theorem rest_head {l r : List (Cell κ α)} {src : ι} (h : content src = l ++ r)
    (hs : Strict (content src)) : (Cursor.mk src r.head?).rest content = r := by
  cases r with
  | nil => rfl
  | cons e r =>
    show ((content src).filter fun x => e.le x) = e :: r
    rw [h] at hs ⊢
    exact filter_le_split hs

/-- What is behind a cell begins at the next cell. -/
theorem rest_advance (hc : c.Placed content) (hpos : c.pos = some e) :
    c.rest content = e :: (c.advance content).rest content := by
  obtain ⟨l, r, hsplit⟩ := List.append_of_mem (hc.2 e hpos)
  have hstrict := hc.1
  rw [hsplit] at hstrict
  have hrest : c.rest content = e :: r := by
    unfold Cursor.rest
    simp only [hpos, hsplit]
    exact filter_le_split hstrict
  obtain ⟨-, hr, hcross⟩ := List.pairwise_append.mp hstrict
  -- the next cell is the first of `r`: nothing in front of `e` is behind it
  have hnext : (content c.src).find? (fun x => (e.cmp x).isLT) = r.head? := by
    have hl : l.find? (fun x => (e.cmp x).isLT) = none := by
      refine List.find?_eq_none.mpr fun x hx => ?_
      rw [← cmp_swap, hcross x hx e (List.mem_cons_self ..)]
      decide
    rw [hsplit, List.find?_append, hl, Option.none_or, List.find?_cons_of_neg (by simp [cmp_self])]
    cases r with
    | nil => rfl
    | cons y r =>
      have hey : e.cmp y = .lt := (List.pairwise_cons.mp hr).1 y (List.mem_cons_self ..)
      simp [hey]
  have hadv : c.advance content = ⟨c.src, r.head?⟩ := by
    unfold Cursor.advance
    simp only [hpos, hnext]
  rw [hrest, hadv, rest_head (l := l ++ [e]) (by simpa using hsplit) hc.1]

/-- Moving the least cursor passes one cell. -/
theorem left_step (hcs : ∀ c ∈ cs, c.Placed content) (h : least cs = some (i, e)) :
    left content cs = left content (cs.modify i (Cursor.advance content)) + 1 := by
  induction cs generalizing i e with
  | nil => cases h
  | cons c cs ih =>
    obtain ⟨hc, hcs⟩ := List.forall_mem_cons.mp hcs
    rcases least_cons h with ⟨rfl, hpos, -⟩ | ⟨j, rfl, hleast, -⟩
    · simp only [left, List.modify_zero_cons, List.map_cons, List.sum_cons, rest_advance hc hpos,
        List.length_cons]
      omega
    · have := ih hcs hleast
      simp only [left, List.modify_succ_cons, List.map_cons, List.sum_cons] at this ⊢
      omega

variable [Std.LawfulEqOrd κ]

theorem lt_of_lt_of_le {a x y : Cell κ α} (h : a.cmp x = .lt) (h' : x.le y = true) :
    a.cmp y = .lt := by
  by_contra hn
  have hya : y.le a = true := le_iff_not_lt.mpr hn
  exact le_iff_not_lt.mp (le_trans x y a h' hya) h

/-- A tier stays strict when a cell comes in that compares equal to none. -/
theorem strict_insert {c : Cell κ α} {l : List (Cell κ α)} (h : Strict l)
    (hne : ∀ x ∈ l, x.cmp c ≠ .eq) : Strict (insert c l) := by
  induction l with
  | nil => exact List.pairwise_singleton _ _
  | cons x l ih =>
    obtain ⟨hx, hl⟩ := List.pairwise_cons.mp h
    obtain ⟨hxc, hlc⟩ := List.forall_mem_cons.mp hne
    unfold insert
    split
    · next hlt =>
      refine List.pairwise_cons.mpr ⟨fun y hy => ?_, ih hl hlc⟩
      rcases mem_insert.mp hy with rfl | hy
      · exact Ordering.isLT_iff_eq_lt.mp hlt
      · exact hx y hy
    · next hge =>
      have hcx : c.cmp x = .lt := by
        rw [← cmp_swap x c]
        cases hcmp : x.cmp c with
        | lt => simp [hcmp] at hge
        | eq => exact absurd hcmp hxc
        | gt => rfl
      refine List.pairwise_cons.mpr ⟨fun y hy => ?_, h⟩
      rcases List.mem_cons.mp hy with rfl | hy
      · exact hcx
      · exact lt_of_lt_of_le hcx (le_of_lt (hx y hy))

theorem lt_rest (h : ∀ a ∈ c.pos, ¬ a.le e = true) : ∀ x ∈ c.rest content, e.cmp x = .lt := by
  intro x hx
  cases hpos : c.pos with
  | none => simp [Cursor.rest, hpos] at hx
  | some a =>
    have hea : e.cmp a = .lt := by
      by_contra hn
      exact h a hpos (le_iff_not_lt.mpr hn)
    exact lt_of_lt_of_le hea (le_rest hpos x hx)

/-- Every cell in front of the cursors stands behind the least one, or is it. -/
theorem least_le (h : least cs = some (i, e)) : ∀ x ∈ pending content b cs, e.le x = true := by
  induction cs generalizing i e with
  | nil => cases h
  | cons c cs ih =>
    intro x hx
    rw [pending_cons, List.mem_merge, mem_upTo] at hx
    rcases least_cons h with ⟨-, hpos, hle⟩ | ⟨j, -, hleast, hlt⟩
    · rcases hx with hx | hx
      · exact le_rest hpos x hx.1
      · cases hleast : least cs with
        | none =>
          rw [pending_of_least_eq_none hleast] at hx
          cases hx
        | some y => exact le_trans e y.2 x (hle y hleast) (ih hleast x hx)
    · rcases hx with hx | hx
      · exact le_of_lt (lt_rest hlt x hx.1)
      · exact ih hleast x hx

/-- Moving the least cursor over its cell. -/
theorem pending_step (hcs : ∀ c ∈ cs, c.Placed content) (h : least cs = some (i, e)) :
    pending content b cs =
      (if e.ver ≤ b then [e] else []) ++ pending content b (cs.modify i (Cursor.advance content)) := by
  induction cs generalizing i with
  | nil => cases h
  | cons c cs ih =>
    obtain ⟨hc, hcs⟩ := List.forall_mem_cons.mp hcs
    have hle : ∀ x ∈ pending content b (c :: cs), e.le x = true := least_le h
    rw [pending_cons] at hle ⊢
    rcases least_cons h with ⟨rfl, hpos, -⟩ | ⟨j, rfl, hleast, hlt⟩
    · rw [List.modify_zero_cons, pending_cons, rest_advance hc hpos]
      by_cases he : e.ver ≤ b
      · have hup : ∀ l : List (Cell κ α), upTo b (e :: l) = e :: upTo b l := fun l => by
          simp [upTo, he]
        rw [hup, merge_cons_left, if_pos he, List.singleton_append]
        intro y hy
        exact hle y (List.mem_merge.mpr (.inr hy))
      · have hup : ∀ l : List (Cell κ α), upTo b (e :: l) = upTo b l := fun l => by
          simp [upTo, he]
        rw [hup, if_neg he, List.nil_append]
    · rw [List.modify_succ_cons, pending_cons, ih hcs hleast]
      by_cases he : e.ver ≤ b
      · rw [if_pos he, List.singleton_append, List.singleton_append, merge_cons_right]
        exact fun x hx => lt_rest hlt x (mem_upTo.mp hx).1
      · rw [if_neg he, List.nil_append, List.nil_append]

/-- A cell above the bound is passed over. -/
theorem pending_hidden (hcs : ∀ c ∈ cs, c.Placed content) (h : least cs = some (i, e))
    (he : b < e.ver) :
    pending content b (cs.modify i (Cursor.advance content)) = pending content b cs := by
  rw [pending_step hcs h, if_neg (Nat.not_le.mpr he), List.nil_append]

/-- Any other cell is the head of what is pending. -/
theorem pending_visible (hcs : ∀ c ∈ cs, c.Placed content) (h : least cs = some (i, e))
    (he : e.ver ≤ b) :
    pending content b cs = e :: pending content b (cs.modify i (Cursor.advance content)) := by
  rw [pending_step hcs h, if_pos he, List.singleton_append]

end Order

end Keystone.Lib.Tiers
