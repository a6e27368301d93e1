/-
# Keystone.Storage.Skiplist — the skip list of a memtable (`storage/skiplist.go`).

Nodes are never removed or changed, except that pointers into a new node are stored, one level at a time,
from the bottom up.  The model has the nodes on a heap, by the order of their insertion, and an insert takes
several steps: it finds the predecessors, raises the height and builds the node, and then each store is a
step of its own.  Readers run between any two of them, so what is proved holds in all these states.

The invariant (`SkipInv`) has one list of nodes, `base`, the walk along the bottom, and says of every level
that its walk is those nodes of `base` that reach it.  A node that is being linked reaches the levels stored
so far.  From that all levels are sorted, each is a subsequence of the one below, and the search that
descends from level to level ends before the first node that is not below its target (`SkipInv.seek_eq`).
-/
import Mathlib.Data.List.Perm.Subperm
import Mathlib.Data.List.TakeWhile
import Keystone.Lib.Pointers
import Keystone.Lib.Transition
import Keystone.Storage.Keys

namespace Keystone.Storage

open Keystone.Lib
open Keystone.Lib.Pointers (Ref Path last)

def maxHeight : ℕ := 12

def branching : UInt64 := 4

structure SkipNode where
  key : Bytes
  value : Bytes
  next : List (Option ℕ)
  deriving DecidableEq, Repr

/-- Where the one goroutine that inserts is: the node it links, the predecessors it found, and the level of
the next store. -/
inductive Inserting where
  | idle
  | linking (id : ℕ) (prev : List (Ref ℕ)) (level : ℕ)
  deriving DecidableEq, Repr

structure Skiplist where
  head : List (Option ℕ)
  nodes : List SkipNode
  height : ℕ
  writer : Inserting := .idle
  deriving DecidableEq, Repr

def newSkiplist : Skiplist where
  head := List.replicate maxHeight none
  nodes := []
  height := 1

/-- The loop of `randomHeight`, with fuel for the levels above `h`. -/
def drawHeight : ℕ → ℕ → UInt64 → ℕ × UInt64
  | 0, h, seed => (h, seed)
  | n + 1, h, seed =>
    let seed := seed ^^^ (seed <<< 13)
    let seed := seed ^^^ (seed >>> 7)
    let seed := seed ^^^ (seed <<< 17)
    if seed % branching ≠ 0 then (h, seed) else drawHeight n (h + 1) seed

/-- The height of the next tower, and the next seed. -/
def randomHeight (seed : UInt64) : ℕ × UInt64 := drawHeight (maxHeight - 1) 1 seed

theorem drawHeight_bounds (n h : ℕ) (seed : UInt64) :
    h ≤ (drawHeight n h seed).1 ∧ (drawHeight n h seed).1 ≤ h + n := by
  induction n generalizing h seed with
  | zero => exact ⟨Nat.le_refl _, Nat.le_refl _⟩
  | succ n ih =>
    unfold drawHeight
    dsimp only
    split
    · exact ⟨Nat.le_refl _, Nat.le_add_right ..⟩
    · have := ih (h + 1)
        (((seed ^^^ (seed <<< 13)) ^^^ ((seed ^^^ (seed <<< 13)) >>> 7)) ^^^
          (((seed ^^^ (seed <<< 13)) ^^^ ((seed ^^^ (seed <<< 13)) >>> 7)) <<< 17))
      omega

theorem randomHeight_bounds (seed : UInt64) :
    1 ≤ (randomHeight seed).1 ∧ (randomHeight seed).1 ≤ maxHeight :=
  drawHeight_bounds (maxHeight - 1) 1 seed

namespace Skiplist

/-! ## Reading. -/

/-- `x.next[level].Load()`; `none` when the tower of `x` is not that high. -/
def load (s : Skiplist) (level : ℕ) : Ref ℕ → Option (Option ℕ)
  | .head => s.head[level]?
  | .node i => (s.nodes[i]?).bind fun n => n.next[level]?

/-- The inner loop of `insert` and `seek`, with fuel for the nodes of a level. -/
def walk (s : Skiplist) (level : ℕ) (target : Bytes) : ℕ → Ref ℕ → Option (Ref ℕ)
  | 0, x => some x
  | n + 1, x => do
    match ← s.load level x with
    | none => some x
    | some i =>
      let next ← s.nodes[i]?
      if compareInternalKey next.key target = .lt then s.walk level target n (.node i) else some x

/-- The outer loop, over the levels below `level`: where it stands at the end of each, the lowest first. -/
def findPrev (s : Skiplist) (target : Bytes) : ℕ → Ref ℕ → Option (List (Ref ℕ))
  | 0, _ => some []
  | level + 1, x => do
    let x ← s.walk level target (s.nodes.length + 1) x
    let below ← s.findPrev target level x
    some (below ++ [x])

/-- The first node that is not below `target`, or nil. -/
def seek (s : Skiplist) (target : Bytes) : Option (Option ℕ) := do
  let prev ← s.findPrev target s.height .head
  s.load 0 (prev.headD .head)

/-! ## Inserting. -/

/-- `prev[level].next[level].Store(n)`. -/
def store (s : Skiplist) (level : ℕ) (x : Ref ℕ) (n : ℕ) : Option Skiplist :=
  match x with
  | .head => if level < s.head.length then some { s with head := s.head.set level (some n) } else none
  | .node i =>
    match s.nodes[i]? with
    | none => none
    | some nd =>
      if level < nd.next.length then
        some { s with nodes := s.nodes.set i { nd with next := nd.next.set level (some n) } }
      else
        none

/-- The height is raised and the node is built; nothing points to it yet. -/
def build (s : Skiplist) (key value : Bytes) (next : List (Option ℕ)) (prev : List (Ref ℕ)) : Skiplist where
  head := s.head
  nodes := s.nodes ++ [⟨key, value, next⟩]
  height := if next.length > s.height then next.length else s.height
  writer := .linking s.nodes.length prev 0

/-- `insert` up to the first store that publishes the node; `h` is the height that was drawn. -/
def beginInsert (s : Skiplist) (key value : Bytes) (h : ℕ) : Option Skiplist := do
  let prev ← s.findPrev key s.height .head
  -- levels raised above the current height begin at the head
  let prev := prev ++ List.replicate (h - s.height) .head
  let next ← (List.range h).mapM fun level => (prev[level]?).bind (s.load level)
  some (s.build key value next prev)

/-- One turn of the last loop of `insert`. -/
def link (s : Skiplist) (id : ℕ) (prev : List (Ref ℕ)) (level : ℕ) :
    Option (Skiplist × List (Bytes × Bytes)) := do
  let x ← prev[level]?
  let s ← s.store level x id
  let n ← s.nodes[id]?
  some ({ s with writer := if level + 1 < n.next.length then .linking id prev (level + 1) else .idle },
    if level = 0 then [(n.key, n.value)] else [])

end Skiplist

inductive SkiplistEvent where
  /-- An insert begins; `h` is what `randomHeight` returns. -/
  | insert (key value : Bytes) (h : ℕ)
  | link
  deriving DecidableEq, Repr

/-- The pairs of the inserts, in their order. -/
def inserted (es : List SkiplistEvent) : List (Bytes × Bytes) :=
  es.flatMap fun e => match e with
    | .insert key value _ => [(key, value)]
    | .link => []

/-- One goroutine inserts.  A pair is shown when its node is linked at the bottom. -/
def skiplist : Machine Skiplist SkiplistEvent (Bytes × Bytes) where
  exec s e :=
    match s.writer, e with
    | .idle, .insert key value h =>
      if 1 ≤ h ∧ h ≤ maxHeight then (s.beginInsert key value h).map fun s => (s, []) else none
    | .linking id prev level, .link => s.link id prev level
    | _, _ => none

/-! ## The invariant. -/

namespace Skiplist

def keyOf (s : Skiplist) (i : ℕ) : Bytes := ((s.nodes[i]?).map SkipNode.key).getD []

def pairOf (s : Skiplist) (i : ℕ) : Bytes × Bytes :=
  ((s.nodes[i]?).map fun n => (n.key, n.value)).getD ([], [])

/-- The height of the node's tower. -/
def tower (s : Skiplist) (i : ℕ) : ℕ := ((s.nodes[i]?).map fun n => n.next.length).getD 0

/-- The levels at which the node is linked are those below. -/
def reach (s : Skiplist) (i : ℕ) : ℕ :=
  match s.writer with
  | .idle => s.tower i
  | .linking id _ level => if i = id then level else s.tower i

/-- The nodes of the list that are linked at `level`. -/
def onLevel (s : Skiplist) (level : ℕ) (l : List ℕ) : List ℕ := l.filter fun i => level < s.reach i

/-- By key, and among equal keys the later insert first. -/
def Before (s : Skiplist) (i j : ℕ) : Prop :=
  compareInternalKey (s.keyOf i) (s.keyOf j) = .lt ∨
    compareInternalKey (s.keyOf i) (s.keyOf j) = .eq ∧ j < i

end Skiplist

/-- The insert of `id` has come to `level`: it knows, for every level that is left, where the node goes. -/
structure Linking (s : Skiplist) (base : List ℕ) (id : ℕ) (prev : List (Ref ℕ)) (level : ℕ) : Prop where
  newest : id + 1 = s.nodes.length
  level_lt : level < s.tower id
  tower_le : s.tower id ≤ s.height
  place : ∃ a b, base = (if level = 0 then a ++ b else a ++ id :: b) ∧
    (∀ i ∈ a, compareInternalKey (s.keyOf i) (s.keyOf id) = .lt) ∧
    (∀ i ∈ b, compareInternalKey (s.keyOf i) (s.keyOf id) ≠ .lt) ∧
    ∀ l, level ≤ l → l < s.tower id →
      prev[l]? = some (last .head (s.onLevel l a)) ∧
        s.load l (.node id) = some (s.onLevel l b).head?

structure SkipInv (s : Skiplist) (base : List ℕ) : Prop where
  head : s.head.length = maxHeight
  height : 1 ≤ s.height ∧ s.height ≤ maxHeight
  mem : ∀ i, i ∈ base ↔ i < s.nodes.length ∧ 0 < s.reach i
  tower_pos : ∀ i < s.nodes.length, 0 < s.tower i
  nodup : base.Nodup
  order : base.Pairwise s.Before
  reach_le : ∀ i, s.reach i ≤ s.height
  paths : ∀ l < maxHeight, Path (s.load l) .head (s.onLevel l base)
  linking : ∀ id prev level, s.writer = .linking id prev level → Linking s base id prev level

section Levels

variable {s : Skiplist} {base : List ℕ}

theorem Skiplist.reach_idle (hw : s.writer = .idle) (i : ℕ) : s.reach i = s.tower i := by
  unfold Skiplist.reach
  rw [hw]

theorem Skiplist.reach_linking {id level : ℕ} {prev : List (Ref ℕ)}
    (hw : s.writer = .linking id prev level) (i : ℕ) :
    s.reach i = if i = id then level else s.tower i := by
  unfold Skiplist.reach
  rw [hw]

theorem Skiplist.reach_le_tower (h : ∀ id prev level, s.writer = .linking id prev level →
    level ≤ s.tower id) (i : ℕ) : s.reach i ≤ s.tower i := by
  cases hw : s.writer with
  | idle => exact Nat.le_of_eq (Skiplist.reach_idle hw i)
  | linking id prev level =>
    rw [Skiplist.reach_linking hw]
    split
    next hi => exact hi ▸ h id prev level hw
    next => exact Nat.le_refl _

theorem Skiplist.mem_onLevel {l i : ℕ} {c : List ℕ} : i ∈ s.onLevel l c ↔ i ∈ c ∧ l < s.reach i := by
  simp [Skiplist.onLevel]

theorem Skiplist.onLevel_append (l : ℕ) (a b : List ℕ) :
    s.onLevel l (a ++ b) = s.onLevel l a ++ s.onLevel l b := List.filter_append ..

/-- A level has no node that the level below has not. -/
theorem Skiplist.onLevel_succ_sublist (l : ℕ) (c : List ℕ) :
    (s.onLevel (l + 1) c).Sublist (s.onLevel l c) := by
  have hsub : s.onLevel (l + 1) c = (s.onLevel l c).filter fun i => l + 1 < s.reach i := by
    unfold Skiplist.onLevel
    rw [List.filter_filter]
    refine List.filter_congr fun i _ => ?_
    by_cases hi : l + 1 < s.reach i
    · simp [hi, Nat.lt_of_succ_lt hi]
    · simp [hi]
  rw [hsub]
  exact List.filter_sublist

theorem SkipInv.onLevel_zero (h : SkipInv s base) {c : List ℕ} (hc : ∀ i ∈ c, i ∈ base) :
    s.onLevel 0 c = c :=
  List.filter_eq_self.mpr fun i hi => by simpa using ((h.mem i).mp (hc i hi)).2

theorem SkipInv.onLevel_height (h : SkipInv s base) (c : List ℕ) : s.onLevel s.height c = [] :=
  List.filter_eq_nil_iff.mpr fun i _ => by simpa using h.reach_le i

theorem SkipInv.length_le (h : SkipInv s base) : base.length ≤ s.nodes.length := by
  have hsub : base ⊆ List.range s.nodes.length := fun i hi =>
    List.mem_range.mpr ((h.mem i).mp hi).1
  have := (h.nodup.subperm hsub).length_le
  rwa [List.length_range] at this

theorem SkipInv.reach_le_tower (h : SkipInv s base) (i : ℕ) : s.reach i ≤ s.tower i :=
  Skiplist.reach_le_tower (fun id prev level hw => Nat.le_of_lt (h.linking id prev level hw).level_lt) i

/-- The nodes below a target come first. -/
theorem SkipInv.split (h : SkipInv s base) (target : Bytes) :
    ∃ a b, base = a ++ b ∧ (∀ i ∈ a, compareInternalKey (s.keyOf i) target = .lt) ∧
      (∀ i ∈ b, compareInternalKey (s.keyOf i) target ≠ .lt) := by
  refine ⟨base.takeWhile fun i => compareInternalKey (s.keyOf i) target = .lt,
    base.dropWhile fun i => compareInternalKey (s.keyOf i) target = .lt,
    List.takeWhile_append_dropWhile.symm, fun i hi => ?_, ?_⟩
  · simpa using List.mem_takeWhile_imp hi
  · have hord : (base.dropWhile fun i => compareInternalKey (s.keyOf i) target = .lt).Pairwise s.Before :=
      h.order.sublist (List.dropWhile_sublist _)
    have hhead := List.head?_dropWhile_not (fun i => decide (compareInternalKey (s.keyOf i) target = .lt)) base
    cases hd : base.dropWhile fun i => compareInternalKey (s.keyOf i) target = .lt with
    | nil => exact fun i hi => by cases hi
    | cons j l =>
      rw [hd] at hord hhead
      have hj : compareInternalKey (s.keyOf j) target ≠ .lt := by simpa using hhead
      intro i hi
      rcases List.mem_cons.mp hi with rfl | hi
      · exact hj
      · intro hlt
        refine hj ?_
        rcases (List.pairwise_cons.mp hord).1 i hi with hji | ⟨hji, -⟩
        · exact Std.TransCmp.lt_trans hji hlt
        · exact Std.TransCmp.lt_of_eq_of_lt hji hlt

end Levels

/-! ## The search. -/

section Search

variable {s : Skiplist} {base : List ℕ} {target : Bytes}

theorem Skiplist.nodes_getElem? {i : ℕ} (hi : i < s.nodes.length) :
    ∃ n, s.nodes[i]? = some n ∧ n.key = s.keyOf i ∧ n.next.length = s.tower i ∧
      (n.key, n.value) = s.pairOf i := by
  refine ⟨s.nodes[i], List.getElem?_eq_getElem hi, ?_, ?_, ?_⟩
  · simp [Skiplist.keyOf, List.getElem?_eq_getElem hi]
  · simp [Skiplist.tower, List.getElem?_eq_getElem hi]
  · simp [Skiplist.pairOf, List.getElem?_eq_getElem hi]

/-- On one level the search stops behind the nodes that are below the target. -/
theorem Skiplist.walk_eq {l : ℕ} {x : Ref ℕ} {a b : List ℕ} {fuel : ℕ}
    (hpath : Path (s.load l) x (a ++ b)) (hnodes : ∀ i ∈ a ++ b, i < s.nodes.length)
    (ha : ∀ i ∈ a, compareInternalKey (s.keyOf i) target = .lt)
    (hb : ∀ i ∈ b, compareInternalKey (s.keyOf i) target ≠ .lt) (hfuel : a.length < fuel) :
    s.walk l target fuel x = some (last x a) := by
  induction a generalizing x fuel with
  | nil =>
    obtain ⟨n, rfl⟩ : ∃ n, fuel = n + 1 := ⟨fuel - 1, by simp at hfuel; omega⟩
    rw [Skiplist.walk, hpath.load_eq]
    cases b with
    | nil => rfl
    | cons i b =>
      obtain ⟨nd, hnd, hkey, -⟩ := s.nodes_getElem? (hnodes i (List.mem_cons_self ..))
      have hge := hb i (List.mem_cons_self ..)
      rw [← hkey] at hge
      simp [hnd, hge, last]
  | cons i a ih =>
    obtain ⟨n, rfl⟩ : ∃ n, fuel = n + 1 := ⟨fuel - 1, by simp at hfuel; omega⟩
    rw [List.cons_append, List.forall_mem_cons] at hnodes
    rw [List.forall_mem_cons] at ha
    obtain ⟨nd, hnd, hkey, -⟩ := s.nodes_getElem? hnodes.1
    have hlt := ha.1
    rw [← hkey] at hlt
    have hrec := ih hpath.2 hnodes.2 ha.2 (by simpa using hfuel)
    rw [Skiplist.walk, hpath.load_eq]
    simp [hnd, hlt, hrec, last]

/-- The search from level to level, coming from the level above. -/
theorem SkipInv.findPrev_eq (h : SkipInv s base) {a b : List ℕ} (hbase : base = a ++ b)
    (ha : ∀ i ∈ a, compareInternalKey (s.keyOf i) target = .lt)
    (hb : ∀ i ∈ b, compareInternalKey (s.keyOf i) target ≠ .lt) {top : ℕ} (htop : top ≤ maxHeight) :
    ∃ prev, s.findPrev target top (last .head (s.onLevel top a)) = some prev ∧ prev.length = top ∧
      ∀ l < top, prev[l]? = some (last .head (s.onLevel l a)) := by
  induction top with
  | zero => exact ⟨[], rfl, rfl, fun l hl => absurd hl (Nat.not_lt_zero l)⟩
  | succ top ih =>
    obtain ⟨prev, hprev, hlen, hall⟩ := ih (by omega)
    -- the last node of the level above is on this level too
    obtain ⟨p, q, hpq, hlast⟩ :=
      Pointers.exists_split_of_sublist Ref.head (s.onLevel_succ_sublist top a)
    have hpath := h.paths top (by omega)
    rw [hbase, Skiplist.onLevel_append, hpq, List.append_assoc] at hpath
    have hmem : ∀ i ∈ p ++ q, i ∈ a := fun i hi => (Skiplist.mem_onLevel.mp (hpq ▸ hi)).1
    have hwalk : s.walk top target (s.nodes.length + 1) (last .head p) =
        some (last (last .head p) q) := by
      refine Skiplist.walk_eq hpath.after ?_ ?_ ?_ ?_
      · intro i hi
        have hbasei : i ∈ base := by
          rw [hbase]
          rcases List.mem_append.mp hi with hi | hi
          · exact List.mem_append_left _ (hmem i (List.mem_append_right _ hi))
          · exact List.mem_append_right _ (Skiplist.mem_onLevel.mp hi).1
        exact ((h.mem i).mp hbasei).1
      · exact fun i hi => ha i (hmem i (List.mem_append_right _ hi))
      · exact fun i hi => hb i (Skiplist.mem_onLevel.mp hi).1
      · have hq : q.length ≤ a.length := by
          have hle := (List.filter_sublist (l := a) (p := fun i => decide (top < s.reach i))).length_le
          have hpqlen := congrArg List.length hpq
          rw [List.length_append] at hpqlen
          unfold Skiplist.onLevel at hpqlen
          omega
        have hle := h.length_le
        rw [hbase, List.length_append] at hle
        omega
    rw [← Pointers.last_append, ← hpq] at hwalk
    refine ⟨prev ++ [last .head (s.onLevel top a)], ?_, by simp [hlen], fun l hl => ?_⟩
    · rw [Skiplist.findPrev, ← hlast, hwalk]
      simp [hprev]
    · rcases Nat.lt_succ_iff_lt_or_eq.mp hl with hl | rfl
      · rw [List.getElem?_append_left (by omega)]
        exact hall l hl
      · rw [List.getElem?_append_right (by omega), hlen, Nat.sub_self]
        rfl

/-- The search of `insert`: it begins at the head, on the highest level. -/
theorem SkipInv.findPrev_height (h : SkipInv s base) {a b : List ℕ} (hbase : base = a ++ b)
    (ha : ∀ i ∈ a, compareInternalKey (s.keyOf i) target = .lt)
    (hb : ∀ i ∈ b, compareInternalKey (s.keyOf i) target ≠ .lt) :
    ∃ prev, s.findPrev target s.height .head = some prev ∧ prev.length = s.height ∧
      ∀ l < s.height, prev[l]? = some (last .head (s.onLevel l a)) := by
  have hprev := h.findPrev_eq hbase ha hb h.height.2
  rwa [h.onLevel_height a] at hprev

/-- `seek` returns the first node of the walk along the bottom that is not below the target. -/
theorem SkipInv.seek_eq (h : SkipInv s base) (target : Bytes) :
    s.seek target =
      some (base.find? fun i => (compareInternalKey target (s.keyOf i)).isLE) := by
  obtain ⟨a, b, hbase, ha, hb⟩ := h.split target
  obtain ⟨prev, hprev, hlen, hall⟩ := h.findPrev_height hbase ha hb
  have hfirst : prev.headD .head = last .head a := by
    have h0 := hall 0 h.height.1
    rw [h.onLevel_zero fun i hi => hbase ▸ List.mem_append_left _ hi] at h0
    cases prev with
    | nil => cases h0
    | cons x prev => exact Option.some.inj h0
  have hpath := h.paths 0 (by decide)
  rw [h.onLevel_zero fun i hi => hi, hbase] at hpath
  have hle : ∀ i, (compareInternalKey target (s.keyOf i)).isLE = true ↔
      compareInternalKey (s.keyOf i) target ≠ .lt := by
    intro i
    have hswap : compareInternalKey target (s.keyOf i) =
        (compareInternalKey (s.keyOf i) target).swap := Std.OrientedCmp.eq_swap
    rw [hswap]
    cases compareInternalKey (s.keyOf i) target <;> simp
  have hfind : (base.find? fun i => (compareInternalKey target (s.keyOf i)).isLE) = b.head? := by
    rw [hbase, List.find?_append]
    have hnone : (a.find? fun i => (compareInternalKey target (s.keyOf i)).isLE) = none :=
      List.find?_eq_none.mpr fun i hi hlei => (hle i).mp hlei (ha i hi)
    rw [hnone, Option.none_or]
    cases b with
    | nil => rfl
    | cons i b => exact List.find?_cons_of_pos ((hle i).mpr (hb i (List.mem_cons_self ..)))
  unfold Skiplist.seek
  rw [hprev, Option.bind_eq_bind, Option.bind_some, hfirst, hpath.after.load_eq, hfind]

end Search

/-! ## The steps of an insert. -/

theorem mapM_eq_some_map {α β : Type} {f : α → Option β} {g : α → β} {l : List α}
    (h : ∀ x ∈ l, f x = some (g x)) : l.mapM f = some (l.map g) := by
  induction l with
  | nil => rfl
  | cons x l ih =>
    rw [List.forall_mem_cons] at h
    rw [List.mapM_cons, h.1, ih h.2]
    rfl

/-- What one store leaves as it was, and what it does not. -/
structure Stored (s s₁ : Skiplist) (level : ℕ) (x : Ref ℕ) (n : ℕ) : Prop where
  head : s₁.head.length = s.head.length
  nodes : s₁.nodes.length = s.nodes.length
  height : s₁.height = s.height
  keyOf : ∀ i, s₁.keyOf i = s.keyOf i
  pairOf : ∀ i, s₁.pairOf i = s.pairOf i
  tower : ∀ i, s₁.tower i = s.tower i
  here : s₁.load level x = some (some n)
  other : ∀ l y, l ≠ level ∨ y ≠ x → s₁.load l y = s.load l y

theorem Skiplist.store_spec {s : Skiplist} {level : ℕ} {x : Ref ℕ} {v : Option ℕ} (n : ℕ)
    (hx : s.load level x = some v) : ∃ s₁, s.store level x n = some s₁ ∧ Stored s s₁ level x n := by
  cases x with
  | head =>
    have hlen : level < s.head.length := (List.getElem?_eq_some_iff.mp hx).1
    refine ⟨_, if_pos hlen, ⟨by simp, rfl, rfl, fun _ => rfl, fun _ => rfl, fun _ => rfl, ?_, ?_⟩⟩
    · simp [Skiplist.load, hlen]
    · intro l y hne
      cases y with
      | head =>
        have hl : level ≠ l := Ne.symm (hne.resolve_right fun h => h rfl)
        simp [Skiplist.load, List.getElem?_set_ne hl]
      | node i => rfl
  | node i =>
    obtain ⟨nd, hnd, hnext⟩ := Option.bind_eq_some_iff.mp hx
    have hi : i < s.nodes.length := (List.getElem?_eq_some_iff.mp hnd).1
    have hlen : level < nd.next.length := (List.getElem?_eq_some_iff.mp hnext).1
    have hget : ∀ j, (s.nodes.set i { nd with next := nd.next.set level (some n) })[j]? =
        if j = i then some { nd with next := nd.next.set level (some n) } else s.nodes[j]? := by
      intro j
      by_cases hj : j = i
      · subst hj
        simp [hi]
      · rw [if_neg hj, List.getElem?_set_ne (Ne.symm hj)]
    have hstore : s.store level (.node i) n =
        some { s with nodes := s.nodes.set i { nd with next := nd.next.set level (some n) } } := by
      unfold Skiplist.store
      dsimp only
      rw [hnd]
      exact if_pos hlen
    refine ⟨_, hstore, ⟨rfl, by simp, rfl, ?_, ?_, ?_, ?_, ?_⟩⟩
    · intro j
      unfold Skiplist.keyOf
      dsimp only
      rw [hget]
      by_cases hj : j = i
      · simp [hj, hnd]
      · rw [if_neg hj]
    · intro j
      unfold Skiplist.pairOf
      dsimp only
      rw [hget]
      by_cases hj : j = i
      · simp [hj, hnd]
      · rw [if_neg hj]
    · intro j
      unfold Skiplist.tower
      dsimp only
      rw [hget]
      by_cases hj : j = i
      · simp [hj, hnd]
      · rw [if_neg hj]
    · show ((s.nodes.set i _)[i]?).bind _ = _
      rw [hget, if_pos rfl]
      simp [hlen]
    · intro l y hne
      cases y with
      | head => rfl
      | node j =>
        show ((s.nodes.set i _)[j]?).bind _ = (s.nodes[j]?).bind _
        rw [hget]
        by_cases hj : j = i
        · subst hj
          have hl : level ≠ l := Ne.symm (hne.resolve_right fun h => h rfl)
          simp [hnd, List.getElem?_set_ne hl]
        · rw [if_neg hj]

section Steps

variable {s : Skiplist} {base : List ℕ}

/-! ### Building the node -/

section Build

variable {key value : Bytes} {next : List (Option ℕ)} {prev : List (Ref ℕ)} {i : ℕ}

theorem Skiplist.build_old (hi : i < s.nodes.length) :
    (s.build key value next prev).nodes[i]? = s.nodes[i]? := List.getElem?_append_left hi

theorem Skiplist.build_new :
    (s.build key value next prev).nodes[s.nodes.length]? = some ⟨key, value, next⟩ := by
  simp [Skiplist.build]

theorem Skiplist.keyOf_build (hi : i < s.nodes.length) :
    (s.build key value next prev).keyOf i = s.keyOf i := by
  unfold Skiplist.keyOf
  rw [Skiplist.build_old hi]

theorem Skiplist.keyOf_build_new : (s.build key value next prev).keyOf s.nodes.length = key := by
  simp [Skiplist.keyOf, Skiplist.build_new]

theorem Skiplist.tower_build (hi : i ≠ s.nodes.length) :
    (s.build key value next prev).tower i = s.tower i := by
  have hlen : (s.build key value next prev).nodes.length = s.nodes.length + 1 := by simp [Skiplist.build]
  unfold Skiplist.tower
  by_cases hlt : i < s.nodes.length
  · rw [Skiplist.build_old hlt]
  · rw [List.getElem?_eq_none (by omega), List.getElem?_eq_none (by omega)]

theorem Skiplist.tower_build_new :
    (s.build key value next prev).tower s.nodes.length = next.length := by
  simp [Skiplist.tower, Skiplist.build_new]

/-- The new node reaches no level, as before it was there. -/
theorem Skiplist.reach_build (hidle : s.writer = .idle) :
    (s.build key value next prev).reach = s.reach := by
  funext i
  show (if i = s.nodes.length then 0 else (s.build key value next prev).tower i) = s.reach i
  rw [Skiplist.reach_idle hidle]
  by_cases hi : i = s.nodes.length
  · rw [if_pos hi, hi]
    simp [Skiplist.tower]
  · rw [if_neg hi, Skiplist.tower_build hi]

theorem Skiplist.load_build (l : ℕ) (hi : i < s.nodes.length) :
    (s.build key value next prev).load l (.node i) = s.load l (.node i) := by
  show ((s.build key value next prev).nodes[i]?).bind _ = (s.nodes[i]?).bind _
  rw [Skiplist.build_old hi]

theorem Skiplist.load_build_new (l : ℕ) :
    (s.build key value next prev).load l (.node s.nodes.length) = next[l]? := by
  show ((s.build key value next prev).nodes[s.nodes.length]?).bind _ = _
  rw [Skiplist.build_new]
  rfl

end Build

/-- Building the node changes nothing that a reader sees. -/
theorem SkipInv.build (h : SkipInv s base) (hidle : s.writer = .idle) {key value : Bytes}
    {next : List (Option ℕ)} {prev : List (Ref ℕ)} (hpos : 1 ≤ next.length)
    (hmax : next.length ≤ maxHeight) {a b : List ℕ} (hbase : base = a ++ b)
    (ha : ∀ i ∈ a, compareInternalKey (s.keyOf i) key = .lt)
    (hb : ∀ i ∈ b, compareInternalKey (s.keyOf i) key ≠ .lt)
    (hplace : ∀ l < next.length,
      prev[l]? = some (last .head (s.onLevel l a)) ∧ next[l]? = some (s.onLevel l b).head?) :
    SkipInv (s.build key value next prev) base := by
  have hreach := @Skiplist.reach_build s key value next prev hidle
  have hlevel : ∀ l c, (s.build key value next prev).onLevel l c = s.onLevel l c := fun l c => by
    unfold Skiplist.onLevel
    rw [hreach]
  have hnodes : (s.build key value next prev).nodes.length = s.nodes.length + 1 := by
    simp [Skiplist.build]
  have hmem : ∀ i ∈ base, i < s.nodes.length := fun i hi => ((h.mem i).mp hi).1
  have hheight : s.height ≤ (s.build key value next prev).height ∧
      next.length ≤ (s.build key value next prev).height ∧
      (s.build key value next prev).height ≤ maxHeight := by
    have := h.height.2
    unfold Skiplist.build
    dsimp only
    split <;> omega
  refine ⟨h.head, ⟨Nat.le_trans h.height.1 hheight.1, hheight.2.2⟩, ?_, ?_, h.nodup, ?_, ?_, ?_, ?_⟩
  · intro i
    rw [h.mem i, hreach, hnodes]
    refine ⟨fun hi => ⟨by omega, hi.2⟩, fun hi => ⟨?_, hi.2⟩⟩
    by_contra hge
    have hzero := h.reach_le_tower i
    rw [Skiplist.tower, List.getElem?_eq_none (Nat.not_lt.mp hge)] at hzero
    simp only [Option.map_none, Option.getD_none] at hzero
    omega
  · intro i hi
    by_cases hlast : i = s.nodes.length
    · rw [hlast, Skiplist.tower_build_new]
      exact hpos
    · rw [Skiplist.tower_build hlast]
      exact h.tower_pos i (by omega)
  · refine h.order.imp_of_mem fun {i j} hi hj hij => ?_
    unfold Skiplist.Before at hij ⊢
    rw [Skiplist.keyOf_build (hmem i hi), Skiplist.keyOf_build (hmem j hj)]
    exact hij
  · intro i
    rw [hreach]
    exact Nat.le_trans (h.reach_le i) hheight.1
  · intro l hl
    rw [hlevel]
    refine (h.paths l hl).congr rfl fun i hi => ?_
    exact Skiplist.load_build l (hmem i (Skiplist.mem_onLevel.mp hi).1)
  · intro id prev₀ level hw
    obtain ⟨rfl, rfl, rfl⟩ := Inserting.linking.inj hw
    refine ⟨hnodes.symm, ?_, ?_, a, b, hbase, fun i hi => ?_, fun i hi => ?_, fun l _ hl => ?_⟩
    · rw [Skiplist.tower_build_new]
      exact hpos
    · rw [Skiplist.tower_build_new]
      exact hheight.2.1
    · rw [Skiplist.keyOf_build_new,
        Skiplist.keyOf_build (hmem i (hbase ▸ List.mem_append_left _ hi))]
      exact ha i hi
    · rw [Skiplist.keyOf_build_new,
        Skiplist.keyOf_build (hmem i (hbase ▸ List.mem_append_right _ hi))]
      exact hb i hi
    · rw [Skiplist.tower_build_new] at hl
      rw [hlevel, hlevel, Skiplist.load_build_new]
      exact hplace l hl

/-- An insert finds its place and builds its node. -/
theorem SkipInv.beginInsert (h : SkipInv s base) (hidle : s.writer = .idle) (key value : Bytes) {ht : ℕ}
    (h1 : 1 ≤ ht) (h12 : ht ≤ maxHeight) :
    ∃ next prev, s.beginInsert key value ht = some (s.build key value next prev) ∧
      SkipInv (s.build key value next prev) base := by
  obtain ⟨a, b, hbase, ha, hb⟩ := h.split key
  obtain ⟨prev, hprev, hlen, hall⟩ := h.findPrev_height hbase ha hb
  have hfront : ∀ l < ht, (prev ++ List.replicate (ht - s.height) Ref.head)[l]? =
      some (last .head (s.onLevel l a)) := by
    intro l hl
    by_cases hlow : l < s.height
    · rw [List.getElem?_append_left (by omega)]
      exact hall l hlow
    · -- no node reaches a level above the height
      have hempty : s.onLevel l a = [] := List.filter_eq_nil_iff.mpr fun i _ => by
        have := h.reach_le i
        simp only [decide_eq_true_eq]
        omega
      rw [List.getElem?_append_right (by omega), hempty, List.getElem?_replicate, if_pos (by omega)]
      rfl
  have hload : ∀ l ∈ List.range ht,
      ((prev ++ List.replicate (ht - s.height) Ref.head)[l]?).bind (s.load l) =
        some (s.onLevel l b).head? := by
    intro l hl
    rw [List.mem_range] at hl
    have hpath := h.paths l (by omega)
    rw [hbase, Skiplist.onLevel_append] at hpath
    rw [hfront l hl, Option.bind_some, hpath.after.load_eq]
  refine ⟨(List.range ht).map fun l => (s.onLevel l b).head?,
    prev ++ List.replicate (ht - s.height) Ref.head, ?_, ?_⟩
  · unfold Skiplist.beginInsert
    rw [hprev, Option.bind_eq_bind, Option.bind_some]
    dsimp only
    rw [mapM_eq_some_map hload]
    rfl
  · refine h.build hidle (by simpa using h1) (by simpa using h12) hbase ha hb fun l hl => ?_
    rw [List.length_map, List.length_range] at hl
    exact ⟨hfront l hl, by simp [hl]⟩

/-! ### One store -/

/-- What a store and the move to the next level make of the list. -/
structure NodeLinked (s s' : Skiplist) (level : ℕ) (x : Ref ℕ) (id : ℕ) : Prop where
  stored : Stored s s' level x id
  reach : ∀ i, s'.reach i = if i = id then level + 1 else s.reach i
  writer : ∀ id' prev' level', s'.writer = .linking id' prev' level' →
    ∃ prev, s.writer = .linking id prev level ∧ id' = id ∧ prev' = prev ∧ level' = level + 1 ∧
      level + 1 < s.tower id

theorem SkipInv.link_eq (h : SkipInv s base) {id level : ℕ} {prev : List (Ref ℕ)}
    (hw : s.writer = .linking id prev level) :
    ∃ s' x, prev[level]? = some x ∧ NodeLinked s s' level x id ∧
      s.link id prev level = some (s', if level = 0 then [s.pairOf id] else []) := by
  have hl := h.linking id prev level hw
  obtain ⟨a, b, hbase, -, -, hplace⟩ := hl.place
  obtain ⟨hx, -⟩ := hplace level (Nat.le_refl _) hl.level_lt
  have hlevel : level < maxHeight :=
    Nat.lt_of_lt_of_le hl.level_lt (Nat.le_trans hl.tower_le h.height.2)
  -- the predecessor's tower is high enough
  have hload : ∃ v, s.load level (last .head (s.onLevel level a)) = some v := by
    have hpath := h.paths level hlevel
    have hsplit : ∃ c, s.onLevel level base = s.onLevel level a ++ c := by
      rw [hbase]
      split <;> exact ⟨_, Skiplist.onLevel_append ..⟩
    obtain ⟨c, hc⟩ := hsplit
    rw [hc] at hpath
    exact ⟨_, hpath.after.load_eq⟩
  obtain ⟨v, hv⟩ := hload
  obtain ⟨s₁, hs₁, hstored⟩ := Skiplist.store_spec id hv
  have hid : id < s₁.nodes.length := by
    have := hl.newest
    have := hstored.nodes
    omega
  obtain ⟨n, hn, -, htower, hpair⟩ := s₁.nodes_getElem? hid
  rw [hstored.tower] at htower
  rw [hstored.pairOf] at hpair
  generalize hs' : ({ s₁ with
    writer := if level + 1 < n.next.length then .linking id prev (level + 1) else .idle } :
      Skiplist) = s'
  have hwriter : s'.writer =
      if level + 1 < s.tower id then .linking id prev (level + 1) else .idle := by
    rw [← hs', ← htower]
  have hstored' : Stored s s' level (last .head (s.onLevel level a)) id := by
    rw [← hs']
    exact ⟨hstored.head, hstored.nodes, hstored.height, hstored.keyOf, hstored.pairOf, hstored.tower,
      hstored.here, hstored.other⟩
  refine ⟨s', _, hx, ⟨hstored', fun i => ?_, fun id' prev' level' hw' => ?_⟩, ?_⟩
  · rw [Skiplist.reach_linking hw]
    by_cases hmore : level + 1 < s.tower id
    · rw [if_pos hmore] at hwriter
      rw [Skiplist.reach_linking hwriter, hstored'.tower]
      split <;> rfl
    · rw [if_neg hmore] at hwriter
      rw [Skiplist.reach_idle hwriter, hstored'.tower]
      split
      next hi =>
        have := hl.level_lt
        rw [hi]
        omega
      next => rfl
  · rw [hwriter] at hw'
    split at hw'
    next hmore =>
      obtain ⟨rfl, rfl, rfl⟩ := Inserting.linking.inj hw'
      exact ⟨_, hw, rfl, rfl, rfl, hmore⟩
    next => cases hw'
  · unfold Skiplist.link
    simp only [hx, hs₁, hn, Option.bind_eq_bind, Option.bind_some]
    rw [hpair, hs']

section Link

variable {s' : Skiplist} {a b : List ℕ} {id level l : ℕ} {prev : List (Ref ℕ)}

/-- The node stands between `a` and `b`, and in neither. -/
theorem SkipInv.between (h : SkipInv s base) (hw : s.writer = .linking id prev level)
    (hbase : base = if level = 0 then a ++ b else a ++ id :: b) :
    id ∉ a ++ b ∧ (a ++ b).Nodup ∧ (a ++ b).Sublist base := by
  have hnodup := h.nodup
  by_cases h0 : level = 0
  · rw [if_pos h0] at hbase
    refine ⟨fun hid => ?_, hbase ▸ hnodup, by rw [hbase]⟩
    have hreach := ((h.mem id).mp (hbase ▸ hid)).2
    rw [Skiplist.reach_linking hw, if_pos rfl] at hreach
    omega
  · rw [if_neg h0] at hbase
    rw [hbase, List.perm_middle.nodup_iff, List.nodup_cons] at hnodup
    refine ⟨hnodup.1, hnodup.2, ?_⟩
    rw [hbase]
    exact (List.sublist_cons_self ..).append_left a

/-- The walk along a level before the store. -/
theorem Skiplist.onLevel_linking (hw : s.writer = .linking id prev level)
    (hbase : base = if level = 0 then a ++ b else a ++ id :: b) (l : ℕ) :
    s.onLevel l base = s.onLevel l a ++ ((if l < level then [id] else []) ++ s.onLevel l b) := by
  rw [hbase]
  split
  next h0 => rw [Skiplist.onLevel_append, h0, if_neg (Nat.not_lt_zero l), List.nil_append]
  next =>
    rw [Skiplist.onLevel_append]
    unfold Skiplist.onLevel
    rw [List.filter_cons, Skiplist.reach_linking hw, if_pos rfl]
    by_cases hl : l < level <;> simp [hl]

/-- The store changes the reach of its own node only. -/
theorem NodeLinked.onLevel_eq {x : Ref ℕ} (hn : NodeLinked s s' level x id) {c : List ℕ} (hc : id ∉ c)
    (l : ℕ) : s'.onLevel l c = s.onLevel l c := by
  refine List.filter_congr fun i hi => ?_
  rw [hn.reach, if_neg fun e : i = id => hc (e ▸ hi)]

/-- The walk along a level after the store. -/
theorem NodeLinked.onLevel_between {x : Ref ℕ} (hn : NodeLinked s s' level x id) (hid : id ∉ a ++ b)
    (l : ℕ) : s'.onLevel l (a ++ id :: b) =
      s.onLevel l a ++ ((if l < level + 1 then [id] else []) ++ s.onLevel l b) := by
  rw [Skiplist.onLevel_append, hn.onLevel_eq (fun hmem => hid (List.mem_append_left _ hmem)),
    ← hn.onLevel_eq (fun hmem => hid (List.mem_append_right _ hmem))]
  unfold Skiplist.onLevel
  rw [List.filter_cons, hn.reach, if_pos rfl]
  by_cases hl : l < level + 1 <;> simp [hl]

/-- Only nodes that are not below the new one stand behind it, and they are older. -/
theorem SkipInv.order_between (h : SkipInv s base) (hnewest : id + 1 = s.nodes.length)
    (hid : id ∉ a ++ b) (hsub : (a ++ b).Sublist base)
    (ha : ∀ i ∈ a, compareInternalKey (s.keyOf i) (s.keyOf id) = .lt)
    (hb : ∀ i ∈ b, compareInternalKey (s.keyOf i) (s.keyOf id) ≠ .lt) :
    (a ++ id :: b).Pairwise s.Before := by
  rw [List.pairwise_append, List.pairwise_cons]
  obtain ⟨hpa, hpb, hab⟩ := List.pairwise_append.mp (h.order.sublist hsub)
  refine ⟨hpa, ⟨fun i hi => ?_, hpb⟩, fun i hi j hj => ?_⟩
  · have hswap : compareInternalKey (s.keyOf id) (s.keyOf i) =
        (compareInternalKey (s.keyOf i) (s.keyOf id)).swap := Std.OrientedCmp.eq_swap
    have hlt : i < id := by
      have hlen := ((h.mem i).mp (hsub.subset (List.mem_append_right _ hi))).1
      have hne : i ≠ id := fun e => hid (List.mem_append_right _ (e ▸ hi))
      omega
    have hge := hb i hi
    unfold Skiplist.Before
    rw [hswap]
    cases hc : compareInternalKey (s.keyOf i) (s.keyOf id) with
    | lt => exact absurd hc hge
    | eq => exact .inr ⟨rfl, hlt⟩
    | gt => exact .inl rfl
  · rcases List.mem_cons.mp hj with rfl | hj
    · exact .inl (ha i hi)
    · exact hab i hi j hj

/-- On the other levels nothing is stored. -/
theorem Stored.path_other {x : Ref ℕ} (hst : Stored s s' level x id) (hne : l ≠ level) {c : List ℕ}
    (hpath : Path (s.load l) .head c) : Path (s'.load l) .head c :=
  hpath.congr (hst.other l _ (.inl hne)) fun _ _ => hst.other l _ (.inl hne)

/-- On its own level the store puts the node behind those that are below it. -/
theorem Stored.path_here (hst : Stored s s' level (last .head (s.onLevel level a)) id)
    (hid : id ∉ a ++ b) (hnodup : (a ++ b).Nodup)
    (hnext : s.load level (.node id) = some (s.onLevel level b).head?)
    (hpath : Path (s.load level) .head (s.onLevel level a ++ s.onLevel level b)) :
    Path (s'.load level) .head (s.onLevel level a ++ id :: s.onLevel level b) := by
  have hnode : s'.load level (.node id) = some (s.onLevel level b).head? := by
    refine (hst.other level (.node id) (.inr ?_)).trans hnext
    rcases Pointers.last_mem Ref.head (s.onLevel level a) with heq | ⟨j, hj, heq⟩
    · rw [heq]
      exact fun e => by cases e
    · rw [heq]
      intro e
      exact hid (List.mem_append_left _ (Ref.node.inj e ▸ (Skiplist.mem_onLevel.mp hj).1))
  refine Pointers.path_insert hpath hnode hst.here (fun y hy _ => hst.other level y (.inr hy)) ?_ ?_ ?_ ?_
  · exact fun j _ e => by cases e
  · rw [← Skiplist.onLevel_append]
    exact hnodup.filter _
  · rw [← Skiplist.onLevel_append]
    exact fun hmem => hid (Skiplist.mem_onLevel.mp hmem).1
  · exact fun e => by cases e

/-- The levels that are left keep their places. -/
theorem Linking.next {x : Ref ℕ} (hl : Linking s base id prev level) (hn : NodeLinked s s' level x id)
    (hid : id ∉ a ++ b) (hmore : level + 1 < s.tower id)
    (ha : ∀ i ∈ a, compareInternalKey (s.keyOf i) (s.keyOf id) = .lt)
    (hb : ∀ i ∈ b, compareInternalKey (s.keyOf i) (s.keyOf id) ≠ .lt)
    (hplace : ∀ l, level ≤ l → l < s.tower id → prev[l]? = some (last .head (s.onLevel l a)) ∧
      s.load l (.node id) = some (s.onLevel l b).head?) :
    Linking s' (a ++ id :: b) id prev (level + 1) := by
  have hst := hn.stored
  refine ⟨hst.nodes ▸ hl.newest, by rw [hst.tower]; exact hmore,
    by rw [hst.tower, hst.height]; exact hl.tower_le, a, b, by rw [if_neg (Nat.succ_ne_zero _)], ?_, ?_, ?_⟩
  · intro i hi
    rw [hst.keyOf, hst.keyOf]
    exact ha i hi
  · intro i hi
    rw [hst.keyOf, hst.keyOf]
    exact hb i hi
  · intro l hge hlt
    rw [hst.tower] at hlt
    rw [hn.onLevel_eq (fun hmem => hid (List.mem_append_left _ hmem)),
      hn.onLevel_eq (fun hmem => hid (List.mem_append_right _ hmem)), hst.other l _ (.inl (by omega))]
    exact hplace l (by omega) hlt

/-- A store links the node on one more level; the first one makes it part of the walk. -/
theorem SkipInv.link (h : SkipInv s base) (hw : s.writer = .linking id prev level) :
    ∃ s' base', s.link id prev level = some (s', if level = 0 then [s.pairOf id] else []) ∧
      SkipInv s' base' ∧ (∀ i, s'.pairOf i = s.pairOf i) ∧ s'.nodes.length = s.nodes.length ∧
      base'.length = base.length + (if level = 0 then 1 else 0) := by
  obtain ⟨s', x, hx, hn, hlink⟩ := h.link_eq hw
  have hl := h.linking id prev level hw
  obtain ⟨a, b, hbase, ha, hb, hplace⟩ := hl.place
  have hst := hn.stored
  obtain rfl : x = last .head (s.onLevel level a) :=
    Option.some.inj (hx.symm.trans (hplace level (Nat.le_refl _) hl.level_lt).1)
  obtain ⟨hid, hnodup, hsub⟩ := h.between hw hbase
  refine ⟨s', a ++ id :: b, hlink, ⟨hst.head.trans h.head, hst.height ▸ h.height, ?_, ?_, ?_, ?_, ?_, ?_, ?_⟩,
    hst.pairOf, hst.nodes, ?_⟩
  · intro i
    rw [hn.reach, hst.nodes]
    by_cases hi : i = id
    · have := hl.newest
      simp only [hi, List.mem_append, List.mem_cons, true_or, or_true, if_true, true_iff]
      omega
    · have hmem : i ∈ a ++ id :: b ↔ i ∈ base := by
        rw [hbase]
        split <;> simp [hi]
      rw [if_neg hi, hmem, h.mem i]
  · intro i hi
    rw [hst.tower]
    exact h.tower_pos i (hst.nodes ▸ hi)
  · rw [List.perm_middle.nodup_iff, List.nodup_cons]
    exact ⟨hid, hnodup⟩
  · have hBefore : s'.Before = s.Before := by
      funext i j
      unfold Skiplist.Before
      rw [hst.keyOf, hst.keyOf]
    rw [hBefore]
    exact h.order_between hl.newest hid hsub ha hb
  · intro i
    rw [hn.reach, hst.height]
    split
    · exact Nat.le_trans hl.level_lt hl.tower_le
    · exact h.reach_le i
  · intro l hlt
    have hpath := h.paths l hlt
    rw [Skiplist.onLevel_linking hw hbase] at hpath
    rw [hn.onLevel_between hid]
    by_cases hhere : l = level
    · subst hhere
      rw [if_neg (Nat.lt_irrefl l), List.nil_append] at hpath
      rw [if_pos (Nat.lt_succ_self l)]
      exact hst.path_here hid hnodup (hplace l (Nat.le_refl _) hl.level_lt).2 hpath
    · have hiff : l < level + 1 ↔ l < level := by omega
      simp only [hiff]
      exact hst.path_other hhere hpath
  · intro id' prev' level' hw'
    obtain ⟨prev₀, hw₀, rfl, rfl, rfl, hmore⟩ := hn.writer id' prev' level' hw'
    obtain ⟨-, rfl, -⟩ := Inserting.linking.inj (hw.symm.trans hw₀)
    exact hl.next hn hid hmore ha hb hplace
  · rw [hbase]
    split
    · simp
      omega
    · simp

end Link

end Steps

/-! ## Whole runs. -/

/-- The nodes are the pairs inserted, in the order of their inserts, and those shown are the pairs linked. -/
def Shown (s : Skiplist) (base : List ℕ) (ins os : List (Bytes × Bytes)) : Prop :=
  ins = (List.range s.nodes.length).map s.pairOf ∧ os = (List.range base.length).map s.pairOf

/-- The walk along the bottom meets every node but one that is not linked yet. -/
theorem SkipInv.perm_range {s : Skiplist} {base : List ℕ} (h : SkipInv s base) :
    base.Perm (List.range base.length) ∧
      (∀ id prev, s.writer = .linking id prev 0 → base.length = id) ∧
      ((∀ id prev, s.writer ≠ .linking id prev 0) → base.length = s.nodes.length) := by
  have hall : ∀ n, (∀ i, i ∈ base ↔ i < n) → base.Perm (List.range base.length) ∧ base.length = n := by
    intro n hn
    have hperm : base.Perm (List.range n) :=
      (List.perm_ext_iff_of_nodup h.nodup List.nodup_range).mpr fun i => by rw [hn i, List.mem_range]
    have hlen : base.length = n := by
      have := hperm.length_eq
      rwa [List.length_range] at this
    exact ⟨hlen ▸ hperm, hlen⟩
  by_cases hw : ∃ id prev, s.writer = .linking id prev 0
  · obtain ⟨id, prev, hw⟩ := hw
    obtain ⟨hperm, hlen⟩ := hall id fun i => by
      have hnewest := (h.linking id prev 0 hw).newest
      rw [h.mem i, Skiplist.reach_linking hw]
      split
      next hi => omega
      next hi =>
        have htower := h.tower_pos i
        omega
    refine ⟨hperm, fun id' prev' hw' => ?_, fun hno => absurd hw (hno id prev)⟩
    obtain ⟨rfl, -, -⟩ := Inserting.linking.inj (hw.symm.trans hw')
    exact hlen
  · have hno : ∀ id prev, s.writer ≠ .linking id prev 0 := fun id prev hw' => hw ⟨id, prev, hw'⟩
    have hreach : ∀ i < s.nodes.length, 0 < s.reach i := by
      intro i hi
      cases hw' : s.writer with
      | idle => exact (Skiplist.reach_idle hw' i).symm ▸ h.tower_pos i hi
      | linking id prev level =>
        rw [Skiplist.reach_linking hw']
        split
        · exact Nat.pos_of_ne_zero fun h0 => hno id prev (h0 ▸ hw')
        · exact h.tower_pos i hi
    obtain ⟨hperm, hlen⟩ := hall s.nodes.length fun i => by
      rw [h.mem i]
      exact ⟨fun hmem => hmem.1, fun hlt => ⟨hlt, hreach i hlt⟩⟩
    exact ⟨hperm, fun id prev hw' => absurd hw' (hno id prev), fun _ => hlen⟩

theorem skipInv_new : SkipInv newSkiplist [] := by
  refine ⟨rfl, by decide, fun i => ?_, ?_, List.nodup_nil, List.Pairwise.nil, fun i => Nat.zero_le _,
    fun l hl => ?_, ?_⟩
  · simp [newSkiplist]
  · intro i hi
    cases hi
  · show (List.replicate maxHeight none)[l]? = some none
    rw [List.getElem?_replicate, if_pos hl]
  · intro id prev level hw
    cases hw

/-- One step keeps the invariant, builds the node of the pair it inserts and shows the pair it links. -/
theorem skiplist_step {s s' : Skiplist} {e : SkiplistEvent} {ins shown os : List (Bytes × Bytes)}
    {base : List ℕ} (h : SkipInv s base) (hshown : Shown s base ins shown)
    (hexec : skiplist.exec s e = some (s', os)) :
    ∃ base', SkipInv s' base' ∧ Shown s' base' (ins ++ inserted [e]) (shown ++ os) := by
  obtain ⟨hins, hshown⟩ := hshown
  unfold skiplist at hexec
  dsimp only at hexec
  cases hw : s.writer with
  | idle =>
    cases e with
    | link =>
      rw [hw] at hexec
      cases hexec
    | insert key value ht =>
      rw [hw] at hexec
      dsimp only at hexec
      split at hexec
      next hht =>
        obtain ⟨next, prev, hbegin, hinv⟩ := h.beginInsert hw key value hht.1 hht.2
        rw [hbegin] at hexec
        obtain ⟨rfl, rfl⟩ := Prod.mk.inj (Option.some.inj hexec)
        have hold : ∀ n ≤ s.nodes.length,
            (List.range n).map (s.build key value next prev).pairOf = (List.range n).map s.pairOf := by
          refine fun n hn => List.map_congr_left fun i hi => ?_
          unfold Skiplist.pairOf
          rw [Skiplist.build_old (Nat.lt_of_lt_of_le (List.mem_range.mp hi) hn)]
        have hnew : (s.build key value next prev).pairOf s.nodes.length = (key, value) := by
          simp [Skiplist.pairOf, Skiplist.build_new]
        have hnodes : (s.build key value next prev).nodes.length = s.nodes.length + 1 := by
          simp [Skiplist.build]
        refine ⟨base, hinv, ?_, ?_⟩
        · rw [hnodes, List.range_succ, List.map_append, hold _ (Nat.le_refl _), hins, List.map_singleton,
            hnew]
          rfl
        · rw [List.append_nil, hshown, hold _ h.length_le]
      next => cases hexec
  | linking id prev level =>
    cases e with
    | insert key value ht =>
      rw [hw] at hexec
      cases hexec
    | link =>
      rw [hw] at hexec
      obtain ⟨s₁, base', hlink, hinv, hpair, hnodes, hlen⟩ := h.link hw
      obtain ⟨rfl, rfl⟩ := Prod.mk.inj (Option.some.inj (hlink.symm.trans hexec))
      have hmap : ∀ n, (List.range n).map s₁.pairOf = (List.range n).map s.pairOf := fun n =>
        List.map_congr_left fun i _ => hpair i
      refine ⟨base', hinv, ?_, ?_⟩
      · rw [hmap, hnodes, hins]
        exact List.append_nil _
      · rw [hmap, hlen, hshown]
        by_cases h0 : level = 0
        · subst h0
          rw [if_pos rfl, if_pos rfl, List.range_succ, List.map_append, h.perm_range.2.1 id prev hw]
          rfl
        · rw [if_neg h0, if_neg h0, List.append_nil, Nat.add_zero]

/-- What a skip list is after the pairs `os` have been linked at the bottom; `level l` is the walk along
level `l`, node `i` being the `i`-th insert. -/
structure SkiplistOK (s : Skiplist) (os : List (Bytes × Bytes)) (level : ℕ → List ℕ) : Prop where
  walk : ∀ l < maxHeight, Path (s.load l) .head (level l)
  sorted : ∀ l < maxHeight,
    (level l).Pairwise fun i j => (compareInternalKey (s.keyOf i) (s.keyOf j)).isLE = true
  sub : ∀ l, l + 1 < maxHeight → (level (l + 1)).Sublist (level l)
  nodes : ∀ i < os.length, os[i]? = some (s.pairOf i)
  pairs : ((level 0).map s.pairOf).Perm os
  later_first : (level 0).Pairwise s.Before
  seek : ∀ target,
    s.seek target = some ((level 0).find? fun i => (compareInternalKey target (s.keyOf i)).isLE)
  /-- No step that is due fails for want of a pointer. -/
  goes_on : (s.writer = .idle → ∀ key value h, 1 ≤ h → h ≤ maxHeight →
      (skiplist.exec s (.insert key value h)).isSome = true) ∧
    (s.writer ≠ .idle → (skiplist.exec s .link).isSome = true)

theorem SkipInv.ok {s : Skiplist} {base : List ℕ} {ins os : List (Bytes × Bytes)} (h : SkipInv s base)
    (hall : Shown s base ins os) : SkiplistOK s os fun l => s.onLevel l base := by
  have hzero : s.onLevel 0 base = base := h.onLevel_zero fun i hi => hi
  have hshown := hall.2
  refine ⟨h.paths, fun l _ => ?_, fun l _ => s.onLevel_succ_sublist l base, fun i hi => ?_, ?_, ?_,
    fun target => ?_, fun hw key value ht h1 h12 => ?_, fun hw => ?_⟩
  · refine (h.order.sublist List.filter_sublist).imp fun {i j} hij => ?_
    rcases hij with hlt | ⟨heq, -⟩
    · rw [hlt]
      rfl
    · rw [heq]
      rfl
  · rw [hshown, List.length_map, List.length_range] at hi
    rw [hshown, List.getElem?_map, List.getElem?_range hi]
    rfl
  · show ((s.onLevel 0 base).map s.pairOf).Perm os
    rw [hzero, hshown]
    exact h.perm_range.1.map _
  · show (s.onLevel 0 base).Pairwise s.Before
    rw [hzero]
    exact h.order
  · show s.seek target = some ((s.onLevel 0 base).find? _)
    rw [hzero]
    exact h.seek_eq target
  · obtain ⟨next, prev, hbegin, -⟩ := h.beginInsert hw key value h1 h12
    unfold skiplist
    dsimp only
    rw [hw]
    dsimp only
    rw [if_pos ⟨h1, h12⟩, hbegin]
    rfl
  · cases hw' : s.writer with
    | idle => exact absurd hw' hw
    | linking id prev level =>
      obtain ⟨s', base', hlink, -⟩ := h.link hw'
      unfold skiplist
      dsimp only
      rw [hw']
      dsimp only
      rw [hlink]
      rfl

/-- **The skip list.**  In every state of every run, between the stores of an insert too, the pairs linked
so far are the first of those inserted, and all of them unless the last one is not linked at the bottom yet;
all levels are sorted and each is a subsequence of the one below, the bottom holds the pairs linked so far,
a later insert of an equal key first, and `seek` finds the first node that is not below its target. -/
theorem skiplist_sorted {es : List SkiplistEvent} {s : Skiplist} {os : List (Bytes × Bytes)}
    (hrun : skiplist.run newSkiplist es = some (s, os)) :
    os = (inserted es).take os.length ∧
      ((∀ id prev, s.writer ≠ .linking id prev 0) → os = inserted es) ∧
      ∃ level, SkiplistOK s os level := by
  have hstep : ∀ {s e s' past shown os}, (∃ base, SkipInv s base ∧ Shown s base (inserted past) shown) →
      True → skiplist.exec s e = some (s', os) →
      ∃ base, SkipInv s' base ∧ Shown s' base (inserted (past ++ [e])) (shown ++ os) := by
    rintro s e s' past shown os ⟨base, hinv, hshown⟩ - hexec
    unfold inserted
    rw [List.flatMap_append]
    exact skiplist_step hinv hshown hexec
  obtain ⟨base, hinv, hins, hos⟩ := Machine.run_history
    (R := fun s past shown => ∃ base, SkipInv s base ∧ Shown s base (inserted past) shown)
    (C := fun _ _ => True) hstep ⟨[], skipInv_new, rfl, rfl⟩ (Machine.meets_true _ _ _) hrun
  refine ⟨?_, fun hno => ?_, _, hinv.ok ⟨hins, hos⟩⟩
  · have hlen : os.length = base.length := by rw [hos, List.length_map, List.length_range]
    rw [hins, hlen, ← List.map_take, List.take_range, Nat.min_eq_left hinv.length_le, hos]
  · rw [hos, hins, hinv.perm_range.2.2 hno]

/-- Two inserts of one key; the second is linked at the bottom and not yet above. -/
def twoInserts : List SkiplistEvent :=
  [.insert (makeInternalKey [7] 1 1) [1] 2, .link, .link, .insert (makeInternalKey [7] 1 1) [2] 3, .link]

theorem skiplist_sorted_half_linked :
    ∃ s os, skiplist.run newSkiplist twoInserts = some (s, os) ∧
      os = [(makeInternalKey [7] 1 1, [1]), (makeInternalKey [7] 1 1, [2])] ∧
      s.writer = .linking 1 [.head, .head, .head] 1 ∧
      os = (inserted twoInserts).take os.length ∧
      ((∀ id prev, s.writer ≠ .linking id prev 0) → os = inserted twoInserts) ∧
      ∃ level, SkiplistOK s os level := by
  have hsome : (skiplist.run newSkiplist twoInserts).map (fun p => (p.2, p.1.writer)) =
      some ([(makeInternalKey [7] 1 1, [1]), (makeInternalKey [7] 1 1, [2])],
        .linking 1 [.head, .head, .head] 1) := by decide +kernel
  obtain ⟨⟨s, os⟩, hrun, hshown⟩ := Option.map_eq_some_iff.mp hsome
  obtain ⟨hos, hwriter⟩ := Prod.mk.inj hshown
  exact ⟨s, os, hrun, hos, hwriter, skiplist_sorted hrun⟩

end Keystone.Storage
