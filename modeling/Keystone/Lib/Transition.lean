/-
# Keystone.Lib.Transition — machines with observations, their runs, and simulation by a growing history.

A LIBRARY module.  A `Machine` takes an event in a state, or refuses it, and shows a list of
observations on the way.  What is proved about a machine is proved through a HISTORY of an arbitrary
type `γ` that the program does not have:

* `Linked Grow OK g os g'` — the history grows from `g` to `g'` while the observations `os` are made,
  each of them justified (`OK`) by the history at its own moment;
* `Machine.run_linked` — if one event can be followed by some growth of the history, a whole run can;
* `Linked.all`, `Linked.pairwise` — what a linked list of observations satisfies: everything a history
  justifies for good, and everything that holds between a moment and any later one.
-/
import Mathlib.Tactic.Common
import Mathlib.Data.List.Basic
import Mathlib.Order.Defs.Unbundled

namespace Keystone.Lib

variable {γ S E O : Type*}

/-! ## Linked observations. -/

/-- The history grows from `g` to `g'` while the observations are made. -/
inductive Linked (Grow : γ → γ → Prop) (OK : γ → O → Prop) (g : γ) : List O → γ → Prop
  | nil {g' : γ} (h : Grow g g') : Linked Grow OK g [] g'
  | snoc {os : List O} {o : O} {g' g'' : γ} (h : Linked Grow OK g os g') (ho : OK g' o)
      (hg : Grow g' g'') : Linked Grow OK g (os ++ [o]) g''

namespace Linked

variable {Grow : γ → γ → Prop} {OK : γ → O → Prop} {g g' g'' : γ} {os os' : List O} {o : O}

section Trans

variable [IsTrans γ Grow]

theorem grow (h : Linked Grow OK g os g') : Grow g g' := by
  induction h with
  | nil h => exact h
  | snoc _ _ hg ih => exact trans_of Grow ih hg

theorem tail (h : Linked Grow OK g os g') (hg : Grow g' g'') : Linked Grow OK g os g'' := by
  cases h with
  | nil h => exact .nil (trans_of Grow h hg)
  | snoc h ho hg' => exact .snoc h ho (trans_of Grow hg' hg)

theorem append (h : Linked Grow OK g os g') (h' : Linked Grow OK g' os' g'') :
    Linked Grow OK g (os ++ os') g'' := by
  induction h' with
  | nil hg => simpa using h.tail hg
  | snoc _ ho hg ih =>
    rw [← List.append_assoc]
    exact .snoc ih ho hg

/-- Every observation was justified at a moment between the two ends. -/
theorem moment (h : Linked Grow OK g os g') (ho : o ∈ os) :
    ∃ m, Grow g m ∧ OK m o ∧ Grow m g' := by
  induction h with
  | nil _ => simp at ho
  | snoc hl hok hg ih =>
    rcases List.mem_append.mp ho with ho | ho
    · obtain ⟨m, hm, hmo, hm'⟩ := ih ho
      exact ⟨m, hm, hmo, trans_of Grow hm' hg⟩
    · obtain rfl := List.mem_singleton.mp ho
      exact ⟨_, hl.grow, hok, hg⟩

/-- What the history justifies for good holds of every observation at the end. -/
theorem all {P : γ → O → Prop} (hP : ∀ {m o}, OK m o → P m o)
    (hgrow : ∀ {m m' o}, P m o → Grow m m' → P m' o) (h : Linked Grow OK g os g') (ho : o ∈ os) :
    P g' o := by
  obtain ⟨m, _, hmo, hm⟩ := h.moment ho
  exact hgrow (hP hmo) hm

/-- What holds between a justified moment and any later justified one holds pairwise. -/
theorem pairwise {P : O → O → Prop} (hP : ∀ {m m' o o'}, OK m o → Grow m m' → OK m' o' → P o o')
    (h : Linked Grow OK g os g') : os.Pairwise P := by
  induction h with
  | nil _ => exact List.Pairwise.nil
  | snoc hl hok hg ih =>
    refine List.pairwise_append.mpr ⟨ih, List.pairwise_singleton _ _, fun o ho o' ho' => ?_⟩
    obtain rfl := List.mem_singleton.mp ho'
    obtain ⟨m, _, hmo, hm⟩ := hl.moment ho
    exact hP hmo hm hok

end Trans

/-- A linked list of observations may be cut anywhere. -/
theorem cut (h : Linked Grow OK g (os ++ o :: os') g') :
    ∃ m, Linked Grow OK g os m ∧ OK m o := by
  generalize hl : os ++ o :: os' = l at h
  induction h generalizing os' with
  | nil _ => simp at hl
  | snoc hl' hok hg ih =>
    rcases List.eq_nil_or_concat os' with rfl | ⟨l, b, rfl⟩
    · obtain ⟨rfl, hx⟩ := List.append_inj' hl rfl
      cases hx
      exact ⟨_, hl', hok⟩
    · rw [List.concat_eq_append, ← List.cons_append, ← List.append_assoc] at hl
      obtain ⟨hx, -⟩ := List.append_inj' hl rfl
      exact ih hx

theorem mono {Grow' : γ → γ → Prop} {O' : Type*} {OK' : γ → O' → Prop} (f : O → O')
    (hg : ∀ {a b}, Grow a b → Grow' a b) (hok : ∀ {m o}, OK m o → OK' m (f o))
    (h : Linked Grow OK g os g') : Linked Grow' OK' g (os.map f) g' := by
  induction h with
  | nil h => exact .nil (hg h)
  | snoc _ ho hgr ih =>
    rw [List.map_append]
    exact .snoc ih (hok ho) (hg hgr)

end Linked

/-! ## Machines and runs. -/

/-- A deterministic machine: an event is refused, or leads to a state and shows observations. -/
structure Machine (S E O : Type*) where
  exec : S → E → Option (S × List O)

namespace Machine

variable (m : Machine S E O)

/-- A run of events; `none` if one of them was refused. -/
def run (s : S) : List E → Option (S × List O)
  | [] => some (s, [])
  | e :: es =>
    match m.exec s e with
    | none => none
    | some (s', os) =>
      match run s' es with
      | none => none
      | some (s'', os') => some (s'', os ++ os')

/-- Every event of the run meets a condition on the state it is taken in. -/
def Meets (C : S → E → Prop) (s : S) : List E → Prop
  | [] => True
  | e :: es => C s e ∧ ∀ s' os, m.exec s e = some (s', os) → Meets C s' es

theorem meets_true (s : S) (es : List E) : m.Meets (fun _ _ => True) s es := by
  induction es generalizing s with
  | nil => trivial
  | cons e es ih => exact ⟨trivial, fun s' _ _ => ih s'⟩

theorem meets_mono {C C' : S → E → Prop} (h : ∀ s e, C s e → C' s e) {s : S} {es : List E}
    (hC : m.Meets C s es) : m.Meets C' s es := by
  induction es generalizing s with
  | nil => trivial
  | cons e es ih => exact ⟨h s e hC.1, fun s' os hexec => ih (hC.2 s' os hexec)⟩

/-- A condition that does not look at the state. -/
theorem meets_of_forall {C : S → E → Prop} {es : List E} (h : ∀ e ∈ es, ∀ s, C s e) (s : S) :
    m.Meets C s es := by
  induction es generalizing s with
  | nil => trivial
  | cons e es ih =>
    exact ⟨h e (List.mem_cons_self ..) s, fun s' _ _ => ih (fun e he => h e (List.mem_cons_of_mem _ he)) s'⟩

/-- Whether a run meets a decidable condition can be evaluated. -/
instance Meets.decide {C : S → E → Prop} [∀ s e, Decidable (C s e)] :
    ∀ (s : S) (es : List E), Decidable (m.Meets C s es)
  | _, [] => isTrue trivial
  | s, e :: es =>
    match h : m.exec s e with
    | none => decidable_of_iff (C s e) (by simp [Meets, h])
    | some (s', os) =>
      have := Meets.decide (C := C) s' es
      decidable_of_iff (C s e ∧ m.Meets C s' es) (by simp [Meets, h])

variable {m}

/-- The first step of a run, and the rest. -/
theorem run_cons {s s'' : S} {e : E} {es : List E} {os : List O}
    (h : m.run s (e :: es) = some (s'', os)) :
    ∃ s' os₁ os₂, m.exec s e = some (s', os₁) ∧ m.run s' es = some (s'', os₂) ∧ os = os₁ ++ os₂ := by
  unfold run at h
  split at h
  · cases h
  · next s' os₁ hexec =>
    split at h
    · cases h
    · next s₂ os₂ hrest =>
      obtain ⟨rfl, rfl⟩ := Prod.mk.inj (Option.some.inj h)
      exact ⟨s', os₁, os₂, hexec, hrest, rfl⟩

/-- A run of two lists of events is two runs. -/
theorem run_append {s s'' : S} {es es' : List E} {os : List O}
    (h : m.run s (es ++ es') = some (s'', os)) :
    ∃ s' os₁ os₂, m.run s es = some (s', os₁) ∧ m.run s' es' = some (s'', os₂) ∧ os = os₁ ++ os₂ := by
  induction es generalizing s os with
  | nil => exact ⟨s, [], os, rfl, h, rfl⟩
  | cons e es ih =>
    obtain ⟨s₁, os₁, os₂, hexec, hrest, rfl⟩ := run_cons h
    obtain ⟨s', os₃, os₄, hrun, hrun', rfl⟩ := ih hrest
    refine ⟨s', os₁ ++ os₃, os₄, ?_, hrun', (List.append_assoc ..).symm⟩
    simp only [run, hexec, hrun]

/-- A condition on a run is a condition on its two parts. -/
theorem Meets.append {C : S → E → Prop} {s s' : S} {es es' : List E} {os : List O}
    (h : m.Meets C s (es ++ es')) (hrun : m.run s es = some (s', os)) :
    m.Meets C s es ∧ m.Meets C s' es' := by
  induction es generalizing s os with
  | nil =>
    obtain ⟨rfl, rfl⟩ := Prod.mk.inj (Option.some.inj hrun)
    exact ⟨trivial, h⟩
  | cons e es ih =>
    obtain ⟨s₁, os₁, os₂, hexec, hrest, rfl⟩ := run_cons hrun
    refine ⟨⟨h.1, fun s₂ os₃ hexec' => ?_⟩, (ih (h.2 s₁ os₁ hexec) hrest).2⟩
    rw [hexec] at hexec'
    obtain ⟨rfl, rfl⟩ := Prod.mk.inj (Option.some.inj hexec')
    exact (ih (h.2 _ _ hexec) hrest).1

/-- What every event keeps between the state, all events before and all that was shown, a run keeps. -/
theorem run_history {R : S → List E → List O → Prop} {C : S → E → Prop}
    (hstep : ∀ {s e s' past shown os}, R s past shown → C s e → m.exec s e = some (s', os) →
      R s' (past ++ [e]) (shown ++ os))
    {s s' : S} {es : List E} {os : List O} (hR : R s [] []) (hC : m.Meets C s es)
    (hrun : m.run s es = some (s', os)) : R s' es os := by
  suffices hgen : ∀ past shown, R s past shown → R s' (past ++ es) (shown ++ os) from hgen [] [] hR
  clear hR
  induction es generalizing s os with
  | nil =>
    intro past shown hR
    obtain ⟨rfl, rfl⟩ := Prod.mk.inj (Option.some.inj hrun)
    rwa [List.append_nil, List.append_nil]
  | cons e es ih =>
    intro past shown hR
    obtain ⟨s₁, os₁, os₂, hexec, hrest, rfl⟩ := run_cons hrun
    have hrec := ih (hC.2 _ _ hexec) hrest _ _ (hstep hR hC.1 hexec)
    rwa [List.append_assoc, List.append_assoc] at hrec

/-- What every event keeps, a run keeps. -/
theorem run_invariant {I : S → Prop} {C : S → E → Prop}
    (hstep : ∀ {s e s' os}, I s → C s e → m.exec s e = some (s', os) → I s')
    {s s' : S} {es : List E} {os : List O} (hI : I s) (hC : m.Meets C s es)
    (hrun : m.run s es = some (s', os)) : I s' :=
  run_history (R := fun s _ _ => I s) hstep hI hC hrun

/-- What every event keeps and shows, a run keeps and shows. -/
theorem run_observes {I : S → Prop} {C : S → E → Prop} {P : O → Prop}
    (hstep : ∀ {s e s' os}, I s → C s e → m.exec s e = some (s', os) → I s' ∧ ∀ o ∈ os, P o)
    {s s' : S} {es : List E} {os : List O} (hI : I s) (hC : m.Meets C s es)
    (hrun : m.run s es = some (s', os)) : I s' ∧ ∀ o ∈ os, P o := by
  refine run_history (R := fun s _ shown => I s ∧ ∀ o ∈ shown, P o) ?_ ⟨hI, by simp⟩ hC hrun
  rintro s e s' past shown os ⟨hI, hP⟩ hC hexec
  obtain ⟨hI', hP'⟩ := hstep hI hC hexec
  exact ⟨hI', List.forall_mem_append.mpr ⟨hP, hP'⟩⟩

/-- A history that is computed from the observations: what every event keeps between history and state,
and what it shows at each moment of the history, holds for a run. -/
theorem run_folded {note : γ → O → γ} {R : γ → S → Prop} {OK : γ → O → Prop} {C : S → E → Prop}
    (hstep : ∀ {g s e s' os}, R g s → C s e → m.exec s e = some (s', os) →
      R (os.foldl note g) s' ∧ ∀ pre o post, os = pre ++ o :: post → OK (pre.foldl note g) o)
    {g : γ} {s s' : S} {es : List E} {os : List O} (hR : R g s) (hC : m.Meets C s es)
    (hrun : m.run s es = some (s', os)) :
    R (os.foldl note g) s' ∧ ∀ pre o post, os = pre ++ o :: post → OK (pre.foldl note g) o := by
  induction es generalizing g s os with
  | nil =>
    obtain ⟨rfl, rfl⟩ := Prod.mk.inj (Option.some.inj hrun)
    exact ⟨hR, fun pre o post h => by simp at h⟩
  | cons e es ih =>
    obtain ⟨s₁, os₁, os₂, hexec, hrest, rfl⟩ := run_cons hrun
    obtain ⟨hR₁, hOK₁⟩ := hstep hR hC.1 hexec
    obtain ⟨hR₂, hOK₂⟩ := ih hR₁ (hC.2 _ _ hexec) hrest
    refine ⟨by rw [List.foldl_append]; exact hR₂, fun pre o post h => ?_⟩
    -- the observation belongs to the first event or to a later one
    rcases List.append_eq_append_iff.mp h with ⟨mid, rfl, hmid⟩ | ⟨mid, hmid, hpost⟩
    · rw [List.foldl_append]
      exact hOK₂ mid o post hmid
    · cases mid with
      | nil =>
        rw [List.append_nil] at hmid
        subst hmid
        exact hOK₂ [] o post hpost.symm
      | cons o' mid =>
        obtain ⟨rfl, -⟩ := List.cons.inj hpost
        exact hOK₁ pre o mid hmid

/-- SIMULATION: if every single event can be followed by a growth of the history that justifies what
it shows, then so can a whole run. -/
theorem run_linked {Grow : γ → γ → Prop} {OK : γ → O → Prop} {R : γ → S → Prop}
    {C : S → E → Prop} [IsPreorder γ Grow]
    (hstep : ∀ {g s e s' os}, R g s → C s e → m.exec s e = some (s', os) →
      ∃ g', Linked Grow OK g os g' ∧ R g' s')
    {g : γ} {s s' : S} {es : List E} {os : List O} (hR : R g s) (hC : m.Meets C s es)
    (hrun : m.run s es = some (s', os)) : ∃ g', Linked Grow OK g os g' ∧ R g' s' := by
  induction es generalizing g s os with
  | nil =>
    obtain ⟨rfl, rfl⟩ := Prod.mk.inj (Option.some.inj hrun)
    exact ⟨g, .nil (refl_of Grow g), hR⟩
  | cons e es ih =>
    obtain ⟨s₁, os₁, os₂, hexec, hrest, rfl⟩ := run_cons hrun
    obtain ⟨g₁, hl₁, hR₁⟩ := hstep hR hC.1 hexec
    obtain ⟨g₂, hl₂, hR₂⟩ := ih hR₁ (hC.2 _ _ hexec) hrest
    exact ⟨g₂, hl₁.append hl₂, hR₂⟩

/-- BISIMULATION: two machines that take every event from related states, show the same and stay
related, show the same in a whole run. -/
theorem run_bisim {S' : Type*} {m' : Machine S' E O} {R : S → S' → Prop} {C : E → Prop}
    (hstep : ∀ {s s' e}, R s s' → C e →
      ∃ t t' os, m.exec s e = some (t, os) ∧ m'.exec s' e = some (t', os) ∧ R t t')
    {s : S} {s' : S'} {es : List E} (hR : R s s') (hC : ∀ e ∈ es, C e) :
    ∃ t t' os, m.run s es = some (t, os) ∧ m'.run s' es = some (t', os) ∧ R t t' := by
  induction es generalizing s s' with
  | nil => exact ⟨s, s', [], rfl, rfl, hR⟩
  | cons e es ih =>
    obtain ⟨t, t', os, h, h', hR₁⟩ := hstep hR (hC e (List.mem_cons_self ..))
    obtain ⟨u, u', os', hrun, hrun', hR₂⟩ := ih hR₁ fun e he => hC e (List.mem_cons_of_mem _ he)
    exact ⟨u, u', os ++ os', by simp only [run, h, hrun], by simp only [run, h', hrun'], hR₂⟩

end Machine

end Keystone.Lib
