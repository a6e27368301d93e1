/-
# Keystone.Lib.Hoare — weakest preconditions for stateful programs that may stop.

A LIBRARY module: a program is an `EStateM ε σ α` of the core library, which from a state either returns
a value and a state or stops with an error and the state it stopped in.  `Wp x Q R s` says what holds
after running `x` from `s`: `Q` if it returned, `R` if it stopped.  There is one rule a constructor
(`wp_pure`, `wp_bind`, …), a rule of consequence (`Wp.mono`), and an invariant rule for loops over a
list (`wp_forM`); a caller uses a callee's specification through `Wp.bind`.

`Keeps R x` says that every run of `x`, returned or stopped, relates its two states by the preorder `R`:
the form of a frame lemma.  `Maintains I E x` says that `x` keeps the invariant `I` of a state and stops
only for the reasons `E` allows.  Both are closed under the constructors of a program; what they share is
a `Frame`, and a fact about a program that only follows its text is proved once, for every frame.
-/
import Mathlib.Order.Defs.Unbundled
import Mathlib.Tactic.Common

namespace Keystone.Lib

variable {ε σ α β : Type}

/-- Run `x` only if `c` holds. -/
def when (c : Prop) [Decidable c] (x : EStateM ε σ Unit) : EStateM ε σ Unit :=
  if c then x else pure ()

/-- What holds after `x`: `Q` on return, `R` when it stopped with an error. -/
def Wp (x : EStateM ε σ α) (Q : α → σ → Prop) (R : ε → σ → Prop) (s : σ) : Prop :=
  match x s with
  | .ok a s' => Q a s'
  | .error e s' => R e s'

section Rules

variable {Q Q' : α → σ → Prop} {R R' : ε → σ → Prop} {s : σ}

theorem wp_pure {a : α} : Wp (pure a : EStateM ε σ α) Q R s ↔ Q a s := Iff.rfl

theorem wp_bind {x : EStateM ε σ β} {f : β → EStateM ε σ α} :
    Wp (x >>= f) Q R s ↔ Wp x (fun b s' => Wp (f b) Q R s') R s := by
  unfold Wp
  show (match EStateM.bind x f s with | .ok a s' => Q a s' | .error e s' => R e s') ↔ _
  unfold EStateM.bind
  cases x s <;> exact Iff.rfl

theorem wp_modify {Q : Unit → σ → Prop} {f : σ → σ} :
    Wp (modify f : EStateM ε σ Unit) Q R s ↔ Q () (f s) := Iff.rfl

theorem wp_throw {e : ε} : Wp (throw e : EStateM ε σ α) Q R s ↔ R e s := Iff.rfl

theorem wp_ite {c : Prop} [Decidable c] {x y : EStateM ε σ α} :
    Wp (if c then x else y) Q R s ↔ (c → Wp x Q R s) ∧ (¬ c → Wp y Q R s) := by
  by_cases hc : c <;> simp [hc]

theorem wp_when {Q : Unit → σ → Prop} {c : Prop} [Decidable c] {x : EStateM ε σ Unit} :
    Wp (when c x) Q R s ↔ (c → Wp x Q R s) ∧ (¬ c → Q () s) := by
  unfold when
  rw [wp_ite, wp_pure]

/-- The rule of consequence. -/
theorem Wp.mono {x : EStateM ε σ α} (h : Wp x Q R s) (hQ : ∀ a s', Q a s' → Q' a s')
    (hR : ∀ e s', R e s' → R' e s') : Wp x Q' R' s := by
  unfold Wp at h ⊢
  cases hx : x s with
  | ok a s' => rw [hx] at h; exact hQ a s' h
  | error e s' => rw [hx] at h; exact hR e s' h

theorem Wp.imp {x : EStateM ε σ α} (h : Wp x Q R s) (hQ : ∀ a s', Q a s' → Q' a s') : Wp x Q' R s :=
  h.mono hQ fun _ _ he => he

/-- Sequencing with the specification of the first program. -/
theorem Wp.bind {Q : β → σ → Prop} {Q' : α → σ → Prop} {x : EStateM ε σ β}
    {f : β → EStateM ε σ α} (h : Wp x Q R s) (hf : ∀ b s', Q b s' → Wp (f b) Q' R s') :
    Wp (x >>= f) Q' R s :=
  wp_bind.mpr (h.imp hf)

/-- One round of a loop. -/
theorem wp_forM_cons {γ : Type} {Q : Unit → σ → Prop} {c : γ} {l : List γ}
    {f : γ → EStateM ε σ Unit} :
    Wp ((c :: l).forM f) Q R s ↔ Wp (f c) (fun _ t => Wp (l.forM f) Q R t) R s :=
  wp_bind

/-- The loop rule: what every iteration preserves holds after the loop. -/
theorem wp_forM {γ : Type} (I : σ → Prop) {l : List γ} {f : γ → EStateM ε σ Unit}
    (hs : I s) (hf : ∀ c ∈ l, ∀ t, I t → Wp (f c) (fun _ t' => I t') R t) :
    Wp (l.forM f) (fun _ t => I t) R s := by
  induction l generalizing s with
  | nil => exact hs
  | cons c l ih =>
    rw [wp_forM_cons]
    refine (hf c (List.mem_cons_self ..) s hs).imp fun _ t ht => ?_
    exact ih ht fun d hd => hf d (List.mem_cons_of_mem c hd)

/-- Two specifications of one program. -/
theorem Wp.and {x : EStateM ε σ α} (h : Wp x Q R s) (h' : Wp x Q' R' s) :
    Wp x (fun a t => Q a t ∧ Q' a t) (fun e t => R e t ∧ R' e t) s := by
  unfold Wp at h h' ⊢
  cases hx : x s with
  | ok a t => rw [hx] at h h'; exact ⟨h, h'⟩
  | error e t => rw [hx] at h h'; exact ⟨h, h'⟩

theorem wp_of_forall {x : EStateM ε σ α} (hQ : ∀ a t, Q a t) (hR : ∀ e t, R e t) : Wp x Q R s := by
  unfold Wp
  cases x s with
  | ok a t => exact hQ a t
  | error e t => exact hR e t

end Rules

/-! ## Frame lemmas and invariants. -/

/-- The final state of `x` is related to its first: by `R` if `x` returned, by `E` if it stopped. -/
def KeepsOr (R E : σ → σ → Prop) (x : EStateM ε σ α) : Prop :=
  ∀ s, Wp x (fun _ t => R s t) (fun _ t => E s t) s

/-- However `x` ends, its final state is related to its first. -/
abbrev Keeps (R : σ → σ → Prop) (x : EStateM ε σ α) : Prop := KeepsOr R R x

/-- `x` keeps `I` however it ends, and stops only for a reason that `E` allows. -/
def Maintains (I : σ → Prop) (E : ε → Prop) (x : EStateM ε σ α) : Prop :=
  ∀ s, I s → Wp x (fun _ t => I t) (fun e t => I t ∧ E e) s

/-- What a program that stops may have done before it, `R` may have come in front of. -/
class Absorbs (R E : σ → σ → Prop) : Prop where
  here : ∀ s, E s s
  after : ∀ {s t u}, R s t → E t u → E s u

instance (R : σ → σ → Prop) [IsPreorder σ R] : Absorbs R R where
  here := refl_of R
  after := trans_of R

section Consequence

variable {R R' E E' : σ → σ → Prop} {x : EStateM ε σ α}

theorem KeepsOr.mono (h : KeepsOr R E x) (hR : ∀ s t, R s t → R' s t)
    (hE : ∀ s t, E s t → E' s t) : KeepsOr R' E' x :=
  fun s => (h s).mono (fun _ t => hR s t) fun _ t => hE s t

/-- A weaker frame lemma. -/
theorem Keeps.mono (h : Keeps R x) (hR : ∀ s t, R s t → R' s t) : Keeps R' x :=
  KeepsOr.mono h hR hR

end Consequence

/-! ## Frames. -/

/-- A property of programs that a program put together from others has if they have it. -/
structure Frame (ε σ : Type) where
  Holds : ∀ {α : Type}, EStateM ε σ α → Prop
  holds_pure : ∀ {α : Type} {a : α}, Holds (pure a : EStateM ε σ α)
  holds_get : Holds (get : EStateM ε σ σ)
  holds_bind : ∀ {α β : Type} {x : EStateM ε σ β} {f : β → EStateM ε σ α},
    Holds x → (∀ b, Holds (f b)) → Holds (x >>= f)

/-- What keeps the first frame keeps the second. -/
def Frame.Le (F F' : Frame ε σ) : Prop := ∀ {α : Type} {x : EStateM ε σ α}, F.Holds x → F'.Holds x

namespace Frame.Holds

variable {F : Frame ε σ}

protected theorem pure {a : α} : F.Holds (pure a : EStateM ε σ α) := F.holds_pure

protected theorem bind {x : EStateM ε σ β} {f : β → EStateM ε σ α} (hx : F.Holds x)
    (hf : ∀ b, F.Holds (f b)) : F.Holds (x >>= f) :=
  F.holds_bind hx hf

protected theorem ite {c : Prop} [Decidable c] {x y : EStateM ε σ α} (hx : F.Holds x)
    (hy : F.Holds y) : F.Holds (if c then x else y) := by
  split
  · exact hx
  · exact hy

protected theorem when {c : Prop} [Decidable c] {x : EStateM ε σ Unit} (hx : F.Holds x) :
    F.Holds (when c x) :=
  .ite hx .pure

protected theorem forM {γ : Type} {l : List γ} {f : γ → EStateM ε σ Unit}
    (hf : ∀ c ∈ l, F.Holds (f c)) : F.Holds (l.forM f) := by
  induction l with
  | nil => exact .pure
  | cons c l ih =>
    have hcons : (c :: l).forM f = f c >>= fun _ => l.forM f := rfl
    rw [hcons]
    exact .bind (hf c (List.mem_cons_self ..)) fun _ => ih fun d hd => hf d (List.mem_cons_of_mem c hd)

end Frame.Holds

/-- The frame lemmas about a preorder. -/
abbrev Frame.keepsOr (R E : σ → σ → Prop) [IsPreorder σ R] [Absorbs R E] : Frame ε σ where
  Holds x := KeepsOr R E x
  holds_pure := fun s => refl_of R s
  holds_get := fun s => refl_of R s
  holds_bind hx hf := fun s => by
    refine wp_bind.mpr ((hx s).imp (fun b t hst => ?_))
    exact (hf b t).mono (fun _ _ htu => trans_of R hst htu) fun _ _ htu => Absorbs.after hst htu

abbrev Frame.keeps (R : σ → σ → Prop) [IsPreorder σ R] : Frame ε σ := .keepsOr R R

/-- A program that stops has done nothing. -/
theorem Frame.throw_keepsOr {R E : σ → σ → Prop} [IsPreorder σ R] [Absorbs R E] {e : ε} :
    (Frame.keepsOr R E).Holds (throw e : EStateM ε σ α) :=
  fun s => Absorbs.here R s

/-- The frame lemmas about an invariant. -/
abbrev Frame.maintains (I : σ → Prop) (E : ε → Prop) : Frame ε σ where
  Holds x := Maintains I E x
  holds_pure := fun _ h => h
  holds_get := fun _ h => h
  holds_bind hx hf := fun s hs => Wp.bind (hx s hs) fun b t ht => hf b t ht

end Keystone.Lib
