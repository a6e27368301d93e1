/-
# Keystone.Storage.Compaction — which tables a compaction merges (`storage/compaction.go`).

`pickCompaction` looks at the tables in age order.  It first cuts the list into groups: a group begins at a
table and goes on as long as the tables are within a factor of two of THAT table; the next group begins
where it ends.  A group of at least `minRun` tables is picked, the longest and oldest one.  If there is
none and there are more than `maxTables` tables, the cheapest window of `minRun` tables is.

What is picked is always a run of adjacent tables, and there is a pick while there are too many tables, so
merging comes to an end with at most `maxTables` of them (`PickOK.settles`).  But a run of similar tables is
not always found: a group that began earlier may end inside it.  `Lead` is the chain of tables at which the
groups begin; the similar tables are found exactly if one of these begins a long enough group
(`pickCompaction_meets`).
-/
import Mathlib.Tactic.Common
import Mathlib.Algebra.Ring.Nat

namespace Keystone.Storage

variable {τ : Type} (size : τ → UInt64)

def minRun : ℕ := 4

def maxTables : ℕ := 10

/-- Within a factor of two; the products keep their low 64 bits. -/
def similarSize (a b : UInt64) : Bool := b ≤ 2 * a && a ≤ 2 * b

/-- The tables behind `t` that belong to its group. -/
def groupOf (t : τ) (ts : List τ) : List τ := ts.takeWhile fun u => similarSize (size t) (size u)

/-- The tables behind the group of `t`. -/
def afterGroup (t : τ) (ts : List τ) : List τ := ts.dropWhile fun u => similarSize (size t) (size u)

/-- The first loop of `pickCompaction`, with fuel for the tables that are left.  The empty list is `nil`:
no group is empty. -/
def bestGroup : ℕ → List τ → List τ → List τ
  | 0, _, best => best
  | _ + 1, [], best => best
  | n + 1, t :: ts, best =>
    let group := t :: groupOf size t ts
    bestGroup n (afterGroup size t ts)
      (if group.length ≥ minRun ∧ group.length ≥ best.length then group else best)

/-- The sum of the sizes, in 64 bits. -/
def sumSizes (w : List τ) : UInt64 := w.foldl (fun sum t => sum + size t) 0

/-- The second loop. -/
def cheapestWindow : List τ → List τ → UInt64 → List τ
  | [], best, _ => best
  | t :: ts, best, bestSum =>
    let window := (t :: ts).take minRun
    if window.length < minRun then
      best
    else if best = [] ∨ sumSizes size window < bestSum then
      cheapestWindow ts window (sumSizes size window)
    else
      cheapestWindow ts best bestSum

def pickCompaction (tables : List τ) : List τ :=
  let best := bestGroup size tables.length tables []
  if best ≠ [] ∨ tables.length ≤ maxTables then best else cheapestWindow size tables [] 0

/-! ## The groups. -/

/-- A group begins at the head of `l`. -/
inductive Lead : List τ → List τ → Prop
  | here (l : List τ) : Lead l l
  | later {t : τ} {ts l : List τ} (h : Lead (afterGroup size t ts) l) : Lead (t :: ts) l

variable {size}

theorem Lead.suffix {tables l : List τ} (h : Lead size tables l) : l <:+ tables := by
  induction h with
  | here l => exact List.suffix_refl l
  | later _ ih =>
    exact (ih.trans (List.dropWhile_suffix _)).trans (List.suffix_cons _ _)

/-- What the first loop returns is what it began with, or a group that is long enough. -/
theorem bestGroup_cases (n : ℕ) (tables best : List τ) :
    bestGroup size n tables best = best ∨
      ∃ t ts, Lead size tables (t :: ts) ∧ minRun ≤ (t :: groupOf size t ts).length ∧
        bestGroup size n tables best = t :: groupOf size t ts := by
  induction n generalizing tables best with
  | zero => exact .inl rfl
  | succ n ih =>
    cases tables with
    | nil => exact .inl rfl
    | cons t ts =>
      rw [bestGroup]
      split
      next hlong =>
        rcases ih (afterGroup size t ts) (t :: groupOf size t ts) with heq | ⟨u, us, hlead, hlen, heq⟩
        · exact .inr ⟨t, ts, .here _, hlong.1, heq⟩
        · exact .inr ⟨u, us, .later hlead, hlen, heq⟩
      next =>
        rcases ih (afterGroup size t ts) best with heq | ⟨u, us, hlead, hlen, heq⟩
        · exact .inl heq
        · exact .inr ⟨u, us, .later hlead, hlen, heq⟩

/-- A pick is not given up. -/
theorem bestGroup_ne_nil_of_best {n : ℕ} {tables best : List τ} (h : best ≠ []) :
    bestGroup size n tables best ≠ [] := by
  rcases bestGroup_cases n tables best with heq | ⟨t, ts, -, -, heq⟩
  · rw [heq]
    exact h
  · rw [heq]
    exact List.cons_ne_nil _ _

/-- The first loop comes to every group. -/
theorem bestGroup_ne_nil {n : ℕ} {tables best : List τ} {t : τ} {ts : List τ}
    (hn : tables.length ≤ n) (hlead : Lead size tables (t :: ts))
    (hlen : minRun ≤ (t :: groupOf size t ts).length) : bestGroup size n tables best ≠ [] := by
  induction n generalizing tables best with
  | zero =>
    rw [List.length_eq_zero_iff.mp (Nat.le_zero.mp hn)] at hlead
    cases hlead
  | succ n ih =>
    cases hlead with
    | here =>
      rw [bestGroup]
      by_cases hbest : (t :: groupOf size t ts).length ≥ best.length
      · rw [if_pos ⟨hlen, hbest⟩]
        exact bestGroup_ne_nil_of_best (List.cons_ne_nil _ _)
      · rw [if_neg fun h => hbest h.2]
        refine bestGroup_ne_nil_of_best ?_
        rintro rfl
        exact hbest (Nat.zero_le _)
    | later h =>
      rw [bestGroup]
      refine ih ?_ h
      exact Nat.le_trans (List.dropWhile_suffix _).length_le (Nat.le_of_succ_le_succ hn)

theorem group_run_of (t : τ) (ts : List τ) : t :: groupOf size t ts <+: t :: ts :=
  List.cons_prefix_cons.mpr ⟨rfl, List.takeWhile_prefix _⟩

/-! ## The cheapest window. -/

theorem cheapestWindow_cases (tables best : List τ) (bestSum : UInt64) :
    cheapestWindow size tables best bestSum = best ∨
      cheapestWindow size tables best bestSum <:+: tables ∧
        (cheapestWindow size tables best bestSum).length = minRun := by
  induction tables generalizing best bestSum with
  | nil => exact .inl rfl
  | cons t ts ih =>
    rw [cheapestWindow]
    split
    · exact .inl rfl
    next hlen =>
      have hfull : ((t :: ts).take minRun).length = minRun :=
        Nat.le_antisymm (List.length_take_le _ _) (Nat.not_lt.mp hlen)
      split
      · rcases ih ((t :: ts).take minRun) (sumSizes size ((t :: ts).take minRun)) with heq | ⟨hin, hl⟩
        · rw [heq]
          exact .inr ⟨(List.take_prefix _ _).isInfix, hfull⟩
        · exact .inr ⟨hin.trans (List.suffix_cons t ts).isInfix, hl⟩
      · rcases ih best bestSum with heq | ⟨hin, hl⟩
        · exact .inl heq
        · exact .inr ⟨hin.trans (List.suffix_cons t ts).isInfix, hl⟩

theorem cheapestWindow_ne_nil {tables : List τ} (h : minRun ≤ tables.length) (bestSum : UInt64) :
    cheapestWindow size tables [] bestSum ≠ [] := by
  cases tables with
  | nil => cases h
  | cons t ts =>
    have hfull : ((t :: ts).take minRun).length = minRun := by
      rw [List.length_take, Nat.min_eq_left h]
    rw [cheapestWindow]
    rw [if_neg (by omega), if_pos (.inl rfl)]
    intro hnil
    rcases @cheapestWindow_cases _ size ts ((t :: ts).take minRun)
      (sumSizes size ((t :: ts).take minRun)) with heq | ⟨-, hl⟩
    · rw [hnil] at heq
      rw [← heq] at hfull
      cases hfull
    · rw [hnil] at hl
      cases hl

/-! ## What is picked. -/

/-- Nothing, or a run of at least four adjacent tables. -/
theorem pickCompaction_run (tables : List τ) :
    pickCompaction size tables = [] ∨
      pickCompaction size tables <:+: tables ∧ minRun ≤ (pickCompaction size tables).length := by
  unfold pickCompaction
  dsimp only
  split
  · rcases @bestGroup_cases _ size tables.length tables [] with heq | ⟨t, ts, hlead, hlen, heq⟩
    · exact .inl heq
    · rw [heq]
      exact .inr ⟨(group_run_of t ts).isInfix.trans hlead.suffix.isInfix, hlen⟩
  · rcases @cheapestWindow_cases _ size tables [] 0 with heq | ⟨hin, hl⟩
    · exact .inl heq
    · exact .inr ⟨hin, Nat.le_of_eq hl.symm⟩

theorem pickCompaction_of_crowded {tables : List τ} (h : maxTables < tables.length) :
    pickCompaction size tables ≠ [] := by
  unfold pickCompaction
  dsimp only
  split
  next hor =>
    rcases hor with hbest | hle
    · exact hbest
    · exact absurd h (Nat.not_lt.mpr hle)
  next =>
    refine cheapestWindow_ne_nil ?_ 0
    have h10 : maxTables = 10 := rfl
    have h4 : minRun = 4 := rfl
    omega

/-- Among few tables there is a pick exactly if a group is long enough. -/
theorem pickCompaction_ne_nil_iff {tables : List τ} (h : tables.length ≤ maxTables) :
    pickCompaction size tables ≠ [] ↔
      ∃ t ts, Lead size tables (t :: ts) ∧ minRun ≤ (t :: groupOf size t ts).length := by
  have hpick : pickCompaction size tables = bestGroup size tables.length tables [] := by
    unfold pickCompaction
    dsimp only
    rw [if_pos (.inr h)]
  rw [hpick]
  constructor
  · intro hne
    rcases @bestGroup_cases _ size tables.length tables [] with heq | ⟨t, ts, hlead, hlen, -⟩
    · exact absurd heq hne
    · exact ⟨t, ts, hlead, hlen⟩
  · rintro ⟨t, ts, hlead, hlen⟩
    exact bestGroup_ne_nil (Nat.le_refl _) hlead hlen

/-! ## Merging again and again. -/

variable (size)

/-- A round: the picked run becomes at most one table, of any size. -/
def Round (tables tables' : List τ) : Prop :=
  pickCompaction size tables ≠ [] ∧
    ∃ newer older merged, tables = newer ++ pickCompaction size tables ++ older ∧
      merged.length ≤ 1 ∧ tables' = newer ++ merged ++ older

/-- Rounds, as long as something is picked. -/
def Rounds (f : ℕ → List τ) : Prop :=
  ∀ n, Round size (f n) (f (n + 1)) ∨ pickCompaction size (f n) = [] ∧ f (n + 1) = f n

variable {size}

theorem Round.length_lt {tables tables' : List τ} (h : Round size tables tables') :
    tables'.length < tables.length := by
  obtain ⟨hne, newer, older, merged, heq, hmerged, rfl⟩ := h
  rcases @pickCompaction_run _ size tables with hnil | ⟨-, hlen⟩
  · exact absurd hnil hne
  · have htotal := congrArg List.length heq
    have h4 : minRun = 4 := rfl
    simp only [List.length_append] at htotal ⊢
    omega

theorem Rounds.settle {f : ℕ → List τ} (h : Rounds size f) :
    ∃ n, pickCompaction size (f n) = [] ∧ (f n).length ≤ maxTables := by
  -- by induction on the number of tables: a round leaves fewer of them
  induction hlen : (f 0).length using Nat.strong_induction_on generalizing f with
  | _ len ih =>
    by_cases hnil : pickCompaction size (f 0) = []
    · exact ⟨0, hnil, Nat.not_lt.mp fun hlt => pickCompaction_of_crowded hlt hnil⟩
    · rcases h 0 with hround | ⟨hnil', -⟩
      · obtain ⟨n, hn⟩ := ih (f 1).length (hlen ▸ hround.length_lt) (f := fun n => f (n + 1))
          (fun n => h (n + 1)) rfl
        exact ⟨n + 1, hn⟩
      · exact absurd hnil' hnil

/-! ## When similar tables are found. -/

variable (size)

/-- Four adjacent tables, every two of them within a factor of two. -/
def SimilarRun (tables : List τ) : Prop :=
  ∃ w, w <:+: tables ∧ w.length = minRun ∧ ∀ a ∈ w, ∀ b ∈ w, (size a).toNat ≤ 2 * (size b).toNat

/-- The groups begin at the first table and each behind the group before it; in one of them three tables
within a factor of two follow the first. -/
def LongGroup (tables : List τ) : Prop :=
  ∃ t ts, Lead size tables (t :: ts) ∧ 3 ≤ (groupOf size t ts).length

/-- What picking is to do. -/
structure PickOK (tables : List τ) : Prop where
  run : pickCompaction size tables = [] ∨
    pickCompaction size tables <:+: tables ∧ minRun ≤ (pickCompaction size tables).length
  crowded : maxTables < tables.length → pickCompaction size tables ≠ []
  similar : SimilarRun size tables → pickCompaction size tables ≠ []
  settles : ∀ f, f 0 = tables → Rounds size f →
    ∃ n, pickCompaction size (f n) = [] ∧ (f n).length ≤ maxTables

/-- **Picking.**  It is as it should be exactly if there are more than ten tables, or no four adjacent ones
are similar, or the groups do not cut them apart. -/
theorem pickCompaction_meets (tables : List τ) :
    PickOK size tables ↔
      maxTables < tables.length ∨ ¬ SimilarRun size tables ∨ LongGroup size tables := by
  have hlong : LongGroup size tables ↔
      ∃ t ts, Lead size tables (t :: ts) ∧ minRun ≤ (t :: groupOf size t ts).length := by
    unfold LongGroup
    simp only [List.length_cons, minRun, Nat.succ_le_succ_iff]
  constructor
  · intro h
    by_cases hfew : tables.length ≤ maxTables
    · by_cases hsim : SimilarRun size tables
      · exact .inr (.inr (hlong.mpr ((pickCompaction_ne_nil_iff hfew).mp (h.similar hsim))))
      · exact .inr (.inl hsim)
    · exact .inl (Nat.not_le.mp hfew)
  · intro h
    refine ⟨pickCompaction_run tables, pickCompaction_of_crowded, fun hsim => ?_,
      fun f _ hf => hf.settle⟩
    by_cases hfew : tables.length ≤ maxTables
    · rcases h with hmany | hnone | hgroup
      · exact absurd hmany (Nat.not_lt.mpr hfew)
      · exact absurd hsim hnone
      · exact (pickCompaction_ne_nil_iff hfew).mpr (hlong.mp hgroup)
    · exact pickCompaction_of_crowded (Nat.not_le.mp hfew)

/-- The group of the first table takes two of the four similar ones with it. -/
theorem pickCompaction_cuts_run :
    ¬ PickOK id ([6000, 10000, 10000, 15000, 15000] : List UInt64) := by
  intro h
  refine h.similar ⟨[10000, 10000, 15000, 15000], ⟨[6000], [], rfl⟩, rfl, fun a ha b hb => ?_⟩ ?_
  · have hall : ([10000, 10000, 15000, 15000] : List UInt64).all (fun a =>
        ([10000, 10000, 15000, 15000] : List UInt64).all fun b => a.toNat ≤ 2 * b.toNat) = true := by
      decide
    exact of_decide_eq_true (List.all_eq_true.mp (List.all_eq_true.mp hall a ha) b hb)
  · decide

end Keystone.Storage
