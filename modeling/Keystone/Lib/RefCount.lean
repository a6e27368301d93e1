/-
# Keystone.Lib.RefCount — an object with a reference count that is closed when the count reaches zero.

A LIBRARY module: it names nothing of the repository.  A `Counted` object is a file behind a reference
count.  Whoever takes the count to zero closes the file and then, if the object was marked as gone by
then, unlinks it.  Between these the object has a caller on the way: `closing` and `unlinking` count
the callers that have seen the zero, or have closed the file, and have not come further yet.  So an
object that is closed twice can be told from one that is closed once.

`Lives n o` is what holds of an object with `n` holders.  Taking a reference needs a holder; with that,
every operation leads from `Lives` to `Lives`.  `Ledger` says it of all objects made so far, which are
numbered, with the number of holders of each.
-/
import Mathlib.Algebra.Ring.Int.Defs
import Mathlib.Logic.Function.Basic
import Mathlib.Tactic.Common

namespace Keystone.Lib

structure Counted where
  refs : ℤ := 0
  gone : Bool := false
  /-- Callers that saw the count reach zero and have not closed the file yet. -/
  closing : ℕ := 0
  closed : ℕ := 0
  /-- Callers that closed the file and have not looked at `gone` yet. -/
  unlinking : ℕ := 0
  unlinked : ℕ := 0
  deriving DecidableEq, Repr

namespace Counted

/-- An object as it is made: its maker holds it. -/
def made : Counted := { refs := 1 }

def ref (o : Counted) : Counted := { o with refs := o.refs + 1 }

def unref (o : Counted) : Counted :=
  if o.refs - 1 = 0 then { o with refs := o.refs - 1, closing := o.closing + 1 }
  else { o with refs := o.refs - 1 }

def mark (o : Counted) : Counted := { o with gone := true }

def close (o : Counted) : Counted :=
  { o with closing := o.closing - 1, closed := o.closed + 1, unlinking := o.unlinking + 1 }

def unlink (o : Counted) : Counted :=
  { o with
    unlinking := o.unlinking - 1
    unlinked := if o.gone then o.unlinked + 1 else o.unlinked }

/-- The file is unlinked by its name. -/
def remove (o : Counted) : Counted := { o with unlinked := o.unlinked + 1 }

/-- Nobody has closed or unlinked the file, or is about to. -/
structure Intact (o : Counted) : Prop where
  closing : o.closing = 0
  closed : o.closed = 0
  unlinking : o.unlinking = 0
  unlinked : o.unlinked = 0

/-- An object with `n` holders. -/
structure Lives (n : ℕ) (o : Counted) : Prop where
  refs : o.refs = n
  held : 0 < n → o.Intact
  closed : n = 0 → o.closing + o.closed = 1
  unlinked : n = 0 → o.gone → o.closing + o.unlinking + o.unlinked = 1

variable {n : ℕ} {o : Counted}

theorem lives_made : Lives 1 made where
  refs := rfl
  held _ := ⟨rfl, rfl, rfl, rfl⟩
  closed h := by cases h
  unlinked h := by cases h

theorem Lives.ref (h : Lives n o) (hn : 0 < n) : Lives (n + 1) o.ref where
  refs := by
    show o.refs + 1 = _
    rw [h.refs]
    rfl
  held _ := ⟨(h.held hn).closing, (h.held hn).closed, (h.held hn).unlinking, (h.held hn).unlinked⟩
  closed h0 := by cases h0
  unlinked h0 := by cases h0

/-- The last holder is the one that closes. -/
theorem Lives.unref (h : Lives (n + 1) o) : Lives n o.unref := by
  have hrefs : o.refs - 1 = n := by
    rw [h.refs]
    push_cast
    omega
  obtain ⟨h1, h2, h3, h4⟩ := h.held (Nat.succ_pos n)
  unfold Counted.unref
  split
  · next h0 =>
    have hn : n = 0 := by omega
    refine ⟨hrefs, fun hpos => by omega, fun _ => ?_, fun _ _ => ?_⟩
    · show o.closing + 1 + o.closed = 1
      omega
    · show o.closing + 1 + o.unlinking + o.unlinked = 1
      omega
  · next hpos =>
    have hn : n ≠ 0 := by omega
    exact ⟨hrefs, fun _ => ⟨h1, h2, h3, h4⟩, fun h0 => absurd h0 hn, fun h0 => absurd h0 hn⟩

theorem Lives.mark (h : Lives n o) (hn : 0 < n) : Lives n o.mark where
  refs := h.refs
  held hpos := ⟨(h.held hpos).closing, (h.held hpos).closed, (h.held hpos).unlinking,
    (h.held hpos).unlinked⟩
  closed h0 := by omega
  unlinked h0 := by omega

/-- A caller that has to close the file finds no holder. -/
theorem Lives.of_closing (h : Lives n o) (hc : 0 < o.closing) : n = 0 := by
  by_contra hn
  have := (h.held (Nat.pos_of_ne_zero hn)).closing
  omega

theorem Lives.of_unlinking (h : Lives n o) (hu : 0 < o.unlinking) : n = 0 := by
  by_contra hn
  have := (h.held (Nat.pos_of_ne_zero hn)).unlinking
  omega

theorem Lives.close (h : Lives n o) (hc : 0 < o.closing) : Lives n o.close := by
  have hn := h.of_closing hc
  refine ⟨h.refs, fun hpos => by omega, fun _ => ?_, fun _ hg => ?_⟩
  · have := h.closed hn
    show o.closing - 1 + (o.closed + 1) = 1
    omega
  · have := h.unlinked hn hg
    show o.closing - 1 + (o.unlinking + 1) + o.unlinked = 1
    omega

theorem Lives.unlink (h : Lives n o) (hu : 0 < o.unlinking) : Lives n o.unlink := by
  have hn := h.of_unlinking hu
  refine ⟨h.refs, fun hpos => by omega, h.closed, fun _ hg => ?_⟩
  have hg : o.gone = true := hg
  have := h.unlinked hn hg
  show o.closing + (o.unlinking - 1) + (if o.gone then o.unlinked + 1 else o.unlinked) = 1
  rw [if_pos hg]
  omega

/-- Only an object that was never marked may be unlinked by name. -/
theorem Lives.remove (h : Lives n o) (hn : n = 0) (hg : o.gone = false) : Lives n o.remove := by
  refine ⟨h.refs, fun hpos => by omega, h.closed, fun _ hg' => ?_⟩
  have hg' : o.gone = true := hg'
  rw [hg] at hg'
  cases hg'

/-- A marked object without holders: closing it and unlinking it, as far as they are pending, is done
once each. -/
theorem Lives.closes (h : Lives 0 o) (hg : o.gone = true) :
    (0 < o.closing ∧ 0 < o.close.unlinking ∧ o.close.unlink.closed = 1 ∧ o.close.unlink.unlinked = 1) ∨
      (0 < o.unlinking ∧ o.unlink.closed = 1 ∧ o.unlink.unlinked = 1) ∨
      o.closed = 1 ∧ o.unlinked = 1 := by
  have hc := h.closed rfl
  have hu := h.unlinked rfl hg
  simp only [Counted.close, Counted.unlink, hg, if_true]
  omega

@[simp] theorem gone_ref (o : Counted) : o.ref.gone = o.gone := rfl

@[simp] theorem gone_unref (o : Counted) : o.unref.gone = o.gone := by
  unfold Counted.unref
  split <;> rfl

@[simp] theorem gone_close (o : Counted) : o.close.gone = o.gone := rfl

@[simp] theorem gone_unlink (o : Counted) : o.unlink.gone = o.gone := rfl

@[simp] theorem gone_remove (o : Counted) : o.remove.gone = o.gone := rfl

@[simp] theorem gone_mark (o : Counted) : o.mark.gone = true := rfl

end Counted

/-! ## Many objects. -/

open Function (update)

/-- The first `made` objects have the holders they are said to have; no other object has any. -/
structure Ledger (files : ℕ → Counted) (made : ℕ) (holders : ℕ → ℕ) : Prop where
  lives : ∀ t < made, (files t).Lives (holders t)
  fresh : ∀ t, made ≤ t → holders t = 0 ∧ files t = {}

namespace Ledger

variable {files : ℕ → Counted} {made t n : ℕ} {holders : ℕ → ℕ}

theorem lt_of_pos (h : Ledger files made holders) (hn : 0 < holders t) : t < made := by
  by_contra hle
  have := (h.fresh t (not_lt.mp hle)).1
  omega

/-- One object changes, together with its number of holders. -/
theorem set (h : Ledger files made holders) (ht : t < made) {o : Counted} (ho : o.Lives n) :
    Ledger (update files t o) made (update holders t n) := by
  refine ⟨fun u hu => ?_, fun u hu => ?_⟩
  · by_cases hut : u = t
    · subst hut
      rw [Function.update_self, Function.update_self]
      exact ho
    · rw [Function.update_of_ne hut, Function.update_of_ne hut]
      exact h.lives u hu
  · have hut : u ≠ t := by omega
    rw [Function.update_of_ne hut, Function.update_of_ne hut]
    exact h.fresh u hu

theorem ref (h : Ledger files made holders) (hn : 0 < holders t) :
    Ledger (update files t (files t).ref) made (update holders t (holders t + 1)) :=
  h.set (h.lt_of_pos hn) ((h.lives t (h.lt_of_pos hn)).ref hn)

theorem unref (h : Ledger files made holders) (hn : holders t = n + 1) :
    Ledger (update files t (files t).unref) made (update holders t n) := by
  have ht : t < made := h.lt_of_pos (by omega)
  refine h.set ht ?_
  have := h.lives t ht
  rw [hn] at this
  exact this.unref

/-- The object changes and its holders stay. -/
theorem touch (h : Ledger files made holders) (ht : t < made) {o : Counted}
    (ho : o.Lives (holders t)) : Ledger (update files t o) made holders := by
  have := h.set ht ho
  rwa [Function.update_eq_self] at this

theorem make (h : Ledger files made holders) :
    Ledger (update files made .made) (made + 1) (update holders made 1) := by
  refine ⟨fun u hu => ?_, fun u hu => ?_⟩
  · by_cases hut : u = made
    · subst hut
      rw [Function.update_self, Function.update_self]
      exact Counted.lives_made
    · rw [Function.update_of_ne hut, Function.update_of_ne hut]
      exact h.lives u (by omega)
  · have hut : u ≠ made := by omega
    rw [Function.update_of_ne hut, Function.update_of_ne hut]
    exact h.fresh u (by omega)

/-- An object that is about to be closed or unlinked has been made. -/
theorem lt_of_ne (h : Ledger files made holders) (ho : files t ≠ {}) : t < made := by
  by_contra hle
  exact ho (h.fresh t (not_lt.mp hle)).2

end Ledger

end Keystone.Lib
