/-
# Keystone.Shard.RoutedScan — a scan over all groups.

A router sends the request to every group as it is, puts the answers together, sorts them by key and
cuts the list at the limit again.  Every group has cut its own part before, by count and by bytes.  A cut
by count does no harm: a group that has cut off something has returned as many pairs below it as the
whole result may hold.  A cut by bytes leaves a hole when another group returns a key above what was left
out (`bytes_leave_hole`), unless the limit cuts that key off again.  `Level` says that there is no hole, and
exactly then the result is an initial segment of all pairs; exactly if every page is, paging from one result
to the next visits every pair once (`routed_scan_no_holes`).
-/
import Keystone.Kv.Scans
import Mathlib.Data.List.Pairwise
import Mathlib.Data.List.Sort

namespace Keystone.Shard

open Keystone.Lib
open Keystone.Kv (Bytes StateMachine userKey)
open Keystone.Storage (KVMap putOp)

/-- `sort.Slice` by key.  It says nothing about the order of pairs with equal keys. -/
structure Sorter where
  sort : List (Bytes × Bytes) → List (Bytes × Bytes)
  perm : ∀ l, (sort l).Perm l
  sorted : ∀ l, (sort l).Pairwise fun p q => (compare p.1 q.1).isLE = true

/-- The fields of a `ScanRequest` that a scan depends on. -/
structure ScanRequest where
  start : Bytes := []
  stop : Bytes := []
  limit : Nat := 0
  maxBytes : Nat := 0
  deriving DecidableEq, Repr

/-- What one group answers. -/
def ScanRequest.part (req : ScanRequest) (s : StateMachine) : List (Bytes × Bytes) :=
  s.scan req.start req.stop req.limit req.maxBytes

/-- `Router.Scan` without a group, when every group answers. -/
def routerScan (σ : Sorter) (req : ScanRequest) (groups : List StateMachine) : List (Bytes × Bytes) :=
  let merged := σ.sort (groups.flatMap req.part)
  if req.limit > 0 ∧ merged.length > req.limit then merged.take req.limit else merged

/-- A caller that pages: from the last key it was given, with a zero byte behind it, until nothing
comes. -/
def pages (σ : Sorter) (req : ScanRequest) (groups : List StateMachine) :
    Nat → Bytes → List (List (Bytes × Bytes))
  | 0, _ => []
  | fuel + 1, start =>
    let page := routerScan σ { req with start := start } groups
    match page.getLast? with
    | none => []
    | some p => page :: pages σ req groups fuel (p.1 ++ [0])

/-! ## What a scan should return. -/

/-- All pairs of the groups with a key in the span, in ascending order. -/
structure Listing (groups : List StateMachine) (start stop : Bytes) (all : List (Bytes × Bytes)) :
    Prop where
  ascending : Ascending all
  mem : ∀ k v, (k, v) ∈ all ↔
    (∃ s ∈ groups, s.get k = some v) ∧ StateMachine.inSpan start stop k = true

/-- No key is in two groups. -/
def Apart (groups : List StateMachine) : Prop :=
  groups.Pairwise fun s t => ∀ k, s.get k = none ∨ t.get k = none

/-- What the byte bound alone keeps out of a group's part is above everything the groups return, or above
as much of it as the limit lets through. -/
def Level (req : ScanRequest) (groups : List StateMachine) : Prop :=
  ∀ s ∈ groups, ∀ q ∈ { req with maxBytes := 0 }.part s, q ∉ req.part s →
    (∀ t ∈ groups, ∀ p ∈ req.part t, compare p.1 q.1 = .lt) ∨
      (0 < req.limit ∧
        req.limit ≤ ((groups.flatMap req.part).filter fun p => compare p.1 q.1 = .lt).length)

instance (req : ScanRequest) (groups : List StateMachine) : Decidable (Level req groups) := by
  unfold Level
  infer_instance

/-- The same for every page a caller gets. -/
def PagesLevel (σ : Sorter) (req : ScanRequest) (groups : List StateMachine) : Nat → Bytes → Prop
  | 0, _ => True
  | fuel + 1, start =>
    Level { req with start := start } groups ∧
      ∀ p ∈ (routerScan σ { req with start := start } groups).getLast?,
        PagesLevel σ req groups fuel (p.1 ++ [0])

/-- Without a byte bound nothing is kept out by it. -/
theorem level_of_no_bytes {req : ScanRequest} (h : req.maxBytes = 0) (groups : List StateMachine) :
    Level req groups := by
  intro s _ q hq hnot
  obtain ⟨start, stop, limit, maxBytes⟩ := req
  obtain rfl : maxBytes = 0 := h
  exact absurd hq hnot

theorem pagesLevel_of_no_bytes {req : ScanRequest} (h : req.maxBytes = 0) (σ : Sorter)
    (groups : List StateMachine) (fuel : Nat) (start : Bytes) :
    PagesLevel σ req groups fuel start := by
  induction fuel generalizing start with
  | zero => trivial
  | succ fuel ih => exact ⟨level_of_no_bytes (by exact h) groups, fun p _ => ih (p.1 ++ [0])⟩

/-! ## The merged parts. -/

section Merged
variable {σ : Sorter} {req : ScanRequest} {groups : List StateMachine} {all : List (Bytes × Bytes)}

theorem mem_merged {p : Bytes × Bytes} :
    p ∈ σ.sort (groups.flatMap req.part) ↔ ∃ s ∈ groups, p ∈ req.part s := by
  rw [(σ.perm _).mem_iff, List.mem_flatMap]

theorem get_of_part {s : StateMachine} {p : Bytes × Bytes} (hp : p ∈ req.part s) :
    s.get p.1 = some p.2 ∧ StateMachine.inSpan req.start req.stop p.1 = true :=
  StateMachine.mem_range.mp ((StateMachine.scan_range_initial ..).subset hp)

theorem part_ascending (req : ScanRequest) (s : StateMachine) : Ascending (req.part s) :=
  StateMachine.scan_ascending ..

/-- Parts without a common key merge into an ascending list. -/
theorem merged_ascending
    (h : groups.Pairwise fun s t => ∀ p ∈ req.part s, ∀ q ∈ req.part t, p.1 ≠ q.1) :
    Ascending (σ.sort (groups.flatMap req.part)) := by
  refine ascending_of_sorted (σ.sorted _) (((σ.perm _).map _).nodup_iff.mpr ?_)
  rw [List.map_flatMap, List.nodup_flatMap]
  refine ⟨fun s _ => (part_ascending req s).nodup_keys, List.Pairwise.imp ?_ h⟩
  intro s t hst k hs ht
  obtain ⟨p, hp, rfl⟩ := List.mem_map.mp hs
  obtain ⟨q, hq, heq⟩ := List.mem_map.mp ht
  exact hst p hp q hq heq.symm

theorem Apart.merged (h : Apart groups) : Ascending (σ.sort (groups.flatMap req.part)) := by
  refine merged_ascending (List.Pairwise.imp ?_ h)
  intro s t hst p hp q hq heq
  have hs := (get_of_part hp).1
  have ht := (get_of_part hq).1
  rcases hst p.1 with hnone | hnone
  · simp [hnone] at hs
  · rw [← heq] at ht
    simp [hnone] at ht

/-- The cut at the limit. -/
theorem routerScan_eq : routerScan σ req groups =
    if req.limit = 0 then σ.sort (groups.flatMap req.part)
    else (σ.sort (groups.flatMap req.part)).take req.limit := by
  unfold routerScan
  dsimp only
  by_cases hlimit : req.limit = 0
  · simp [hlimit]
  · rw [if_neg hlimit]
    split
    · rfl
    · rw [List.take_of_length_le (by omega)]

theorem routerScan_initial : routerScan σ req groups <+: σ.sort (groups.flatMap req.part) := by
  rw [routerScan_eq]
  split
  · exact List.prefix_refl _
  · exact List.take_prefix ..

/-- A pair that only the byte bound keeps out lies above the whole result. -/
theorem Level.lt (happart : Apart groups) (hlevel : Level req groups) {s : StateMachine}
    (hs : s ∈ groups) {q : Bytes × Bytes} (hq : q ∈ { req with maxBytes := 0 }.part s)
    (hnot : q ∉ req.part s) {p : Bytes × Bytes} (hp : p ∈ routerScan σ req groups) :
    compare p.1 q.1 = .lt := by
  have hmerged : Ascending (σ.sort (groups.flatMap req.part)) := happart.merged
  rcases hlevel s hs q hq hnot with hall | ⟨hpos, hmany⟩
  · obtain ⟨t, ht, hpt⟩ := mem_merged.mp (routerScan_initial.subset hp)
    exact hall t ht p hpt
  · rw [routerScan_eq, if_neg (Nat.ne_of_gt hpos)] at hp
    have hnodup : (groups.flatMap req.part).Nodup := (σ.perm _).nodup_iff.mp hmerged.nodup
    refine hmerged.take_lt (hnodup.filter _) (fun d hd => ?_) (fun d hd => ?_)
      (List.take_subset_take_left _ hmany hp)
    · exact (σ.perm _).mem_iff.mpr (List.mem_filter.mp hd).1
    · exact of_decide_eq_true (List.mem_filter.mp hd).2

/-- A pair of the span that no part has lies above the whole result. -/
theorem lt_of_left_out (happart : Apart groups) (hlevel : Level req groups) {s : StateMachine}
    (hs : s ∈ groups) {q : Bytes × Bytes} (hq : q ∈ s.range req.start req.stop)
    (hnot : q ∉ req.part s) {p : Bytes × Bytes} (hp : p ∈ routerScan σ req groups) :
    compare p.1 q.1 = .lt := by
  by_cases hq₀ : q ∈ { req with maxBytes := 0 }.part s
  · exact hlevel.lt happart hs hq₀ hnot hp
  · -- the limit cut it off: `s` has `limit` pairs below it
    have hlimit : req.limit ≠ 0 := by
      intro hzero
      refine hq₀ ?_
      change q ∈ s.scan req.start req.stop req.limit 0
      rw [hzero, StateMachine.scan_unbounded]
      exact hq
    have hpart₀ : { req with maxBytes := 0 }.part s = (s.range req.start req.stop).take req.limit :=
      StateMachine.scan_limit hlimit
    have hsplit := s.range_ascending req.start req.stop
    rw [← List.take_append_drop req.limit (s.range req.start req.stop)] at hq hsplit
    rw [← hpart₀] at hq hsplit
    have hdrop := (List.mem_append.mp hq).resolve_left hq₀
    have hbelow : ∀ d ∈ { req with maxBytes := 0 }.part s, compare d.1 q.1 = .lt :=
      fun d hd => (ascending_append.mp hsplit).2.2 d hd q hdrop
    by_cases hsame : req.part s = { req with maxBytes := 0 }.part s
    · rw [routerScan_eq, if_neg hlimit] at hp
      have hlength : (req.part s).length = req.limit := by
        have := List.length_pos_of_mem hdrop
        rw [List.length_drop] at this
        rw [hsame, hpart₀, List.length_take]
        omega
      rw [← hlength] at hp
      refine happart.merged.take_lt (part_ascending req s).nodup ?_ ?_ hp
      · exact fun d hd => mem_merged.mpr ⟨s, hs, hd⟩
      · rw [hsame]
        exact hbelow
    · -- the bytes cut off something before the limit did
      obtain ⟨d, hd, hdnot⟩ : ∃ d ∈ { req with maxBytes := 0 }.part s, d ∉ req.part s := by
        by_contra hall
        push Not at hall
        have hpre : req.part s <+: { req with maxBytes := 0 }.part s :=
          StateMachine.scan_bytes_initial ..
        exact hsame (Ascending.ext (part_ascending _ s) (part_ascending _ s)
          fun x => ⟨fun hx => hpre.subset hx, hall x⟩)
      exact Std.TransCmp.lt_trans (hlevel.lt happart hs hd hdnot hp) (hbelow d hd)

/-- What one group keeps out, no other returns. -/
theorem Apart.not_mem_merged (h : Apart groups) {s : StateMachine} (hs : s ∈ groups) {q : Bytes × Bytes}
    (hq : q ∈ s.range req.start req.stop) (hnot : q ∉ req.part s) :
    q ∉ σ.sort (groups.flatMap req.part) := by
  intro hin
  obtain ⟨t, ht, hqt⟩ := mem_merged.mp hin
  have hne : s ≠ t := fun heq => hnot (heq ▸ hqt)
  have hsym : Std.Symm fun s t : StateMachine => ∀ k, s.get k = none ∨ t.get k = none :=
    ⟨fun _ _ hst k => (hst k).symm⟩
  have hsget := (StateMachine.mem_range.mp hq).1
  have htget := (get_of_part hqt).1
  rcases h.forall hs ht hne q.1 with hnone | hnone
  · cases hnone.symm.trans hsget
  · cases hnone.symm.trans htget

/-- ONE PAGE is an initial segment exactly if the byte bound leaves no hole. -/
theorem routerScan_isPrefix_iff (happart : Apart groups) (hall : Listing groups req.start req.stop all) :
    routerScan σ req groups <+: all ↔ Level req groups := by
  have hmerged : Ascending (σ.sort (groups.flatMap req.part)) := happart.merged
  refine ⟨fun hpre s hs q hq₀ hnot => ?_, fun hlevel => ?_⟩
  · have hq : q ∈ s.range req.start req.stop := (StateMachine.scan_range_initial ..).subset hq₀
    obtain ⟨rest, hrest⟩ := hpre
    have hqall : q ∈ all := (hall.mem q.1 q.2).mpr ⟨⟨s, hs, (StateMachine.mem_range.mp hq).1⟩,
      (StateMachine.mem_range.mp hq).2⟩
    -- the pair is not in the result, so it stands behind it
    have hbelow : ∀ p ∈ routerScan σ req groups, compare p.1 q.1 = .lt := by
      intro p hp
      have hsplit := hall.ascending
      rw [← hrest] at hqall hsplit
      refine (ascending_append.mp hsplit).2.2 p hp q ((List.mem_append.mp hqall).resolve_left fun hin => ?_)
      exact happart.not_mem_merged hs hq hnot (routerScan_initial.subset hin)
    by_cases hcut : req.limit = 0 ∨ (σ.sort (groups.flatMap req.part)).length ≤ req.limit
    · left
      have hfull : routerScan σ req groups = σ.sort (groups.flatMap req.part) := by
        rw [routerScan_eq]
        split
        · rfl
        · next hlimit => exact List.take_of_length_le (hcut.resolve_left hlimit)
      intro t ht p hp
      refine hbelow p ?_
      rw [hfull]
      exact mem_merged.mpr ⟨t, ht, hp⟩
    · right
      push Not at hcut
      have hlen : (routerScan σ req groups).length = req.limit := by
        rw [routerScan_eq, if_neg hcut.1, List.length_take, Nat.min_eq_left (Nat.le_of_lt hcut.2)]
      refine ⟨Nat.pos_of_ne_zero hcut.1, ?_⟩
      rw [← hlen]
      refine ((hmerged.sublist routerScan_initial.sublist).nodup.subperm fun p hp => ?_).length_le
      refine List.mem_filter.mpr ⟨(σ.perm _).mem_iff.mp (routerScan_initial.subset hp), ?_⟩
      exact decide_eq_true (hbelow p hp)
  · refine (hmerged.sublist routerScan_initial.sublist).isPrefix hall.ascending ?_ ?_
    · rintro ⟨k, v⟩ hp
      obtain ⟨s, hs, hpart⟩ := mem_merged.mp (routerScan_initial.subset hp)
      obtain ⟨hget, hspan⟩ := get_of_part hpart
      exact (hall.mem k v).mpr ⟨⟨s, hs, hget⟩, hspan⟩
    · rintro p hp ⟨k, v⟩ hq hout
      by_cases hin : (k, v) ∈ σ.sort (groups.flatMap req.part)
      · -- cut off by the limit after the merge
        obtain ⟨rest, hrest⟩ : routerScan σ req groups <+: _ := routerScan_initial
        rw [← hrest] at hin hmerged
        exact (ascending_append.mp hmerged).2.2 p hp _ ((List.mem_append.mp hin).resolve_left hout)
      · obtain ⟨⟨s, hs, hget⟩, hspan⟩ := (hall.mem k v).mp hq
        exact lt_of_left_out happart hlevel hs (StateMachine.mem_range.mpr ⟨hget, hspan⟩)
          (fun hpart => hin (mem_merged.mpr ⟨s, hs, hpart⟩)) hp

/-- A page comes back empty only if there is nothing. -/
theorem listing_nil_of_empty (hall : Listing groups req.start req.stop all)
    (h : routerScan σ req groups = []) : all = [] := by
  have hmerged : σ.sort (groups.flatMap req.part) = [] := by
    rw [routerScan_eq] at h
    split at h
    · exact h
    · next hlimit => exact (List.take_eq_nil_iff.mp h).resolve_left hlimit
  refine List.eq_nil_iff_forall_not_mem.mpr fun p hp => ?_
  obtain ⟨k, v⟩ := p
  obtain ⟨⟨s, hs, hget⟩, hspan⟩ := (hall.mem k v).mp hp
  have hpart : req.part s = [] := by
    refine List.eq_nil_iff_forall_not_mem.mpr fun q hq => ?_
    have hin : q ∈ σ.sort (groups.flatMap req.part) := mem_merged.mpr ⟨s, hs, hq⟩
    rw [hmerged] at hin
    simp at hin
  have := StateMachine.mem_range.mpr ⟨hget, hspan⟩
  rw [StateMachine.range_eq_nil_of_scan hpart] at this
  simp at this

/-- What is left behind a page is what a scan from the next start is about. -/
theorem Listing.rest {start stop : Bytes} {page rest : List (Bytes × Bytes)} {p : Bytes × Bytes}
    (hall : Listing groups start stop (page ++ rest)) (hp : page.getLast? = some p) :
    Listing groups (p.1 ++ [0]) stop rest := by
  obtain ⟨init, rfl⟩ := List.getLast?_eq_some_iff.mp hp
  have hsplit := ascending_append.mp hall.ascending
  refine ⟨hsplit.2.1, fun k v => ?_⟩
  have hmem := hall.mem k v
  have hpspan := ((hall.mem p.1 p.2).mp (by simp)).2
  unfold StateMachine.inSpan at hmem hpspan ⊢
  rw [Bool.and_eq_true, StateMachine.succ_isLE_iff]
  rw [Bool.and_eq_true] at hmem hpspan
  constructor
  · intro hkv
    obtain ⟨hheld, -, hstop⟩ := hmem.mp (List.mem_append_right _ hkv)
    exact ⟨hheld, hsplit.2.2 p (by simp) (k, v) hkv, hstop⟩
  · rintro ⟨hheld, hlt, hstop⟩
    have hin := hmem.mpr ⟨hheld, Std.TransCmp.isLE_trans hpspan.1 (by simp [hlt]), hstop⟩
    refine (List.mem_append.mp hin).resolve_left fun hpage => ?_
    -- a pair of the page is not above its last one
    have hle : (compare k p.1).isLE = true := by
      rcases List.mem_append.mp hpage with hinit | hlast
      · have := (ascending_append.mp hsplit.1).2.2 (k, v) hinit p (by simp)
        simp [this]
      · rw [← List.mem_singleton.mp hlast]
        exact Std.ReflCmp.isLE_rfl
    have := Std.TransCmp.lt_of_lt_of_isLE hlt hle
    simp at this

/-- PAGING visits every pair, in order, exactly if no page has a hole. -/
theorem pages_flatten_iff (happart : Apart groups) {fuel : Nat} {start : Bytes}
    (hall : Listing groups start req.stop all) (hfuel : all.length < fuel) :
    (pages σ req groups fuel start).flatten = all ↔ PagesLevel σ req groups fuel start := by
  induction fuel generalizing start all with
  | zero => simp at hfuel
  | succ fuel ih =>
    have hpage : routerScan σ { req with start := start } groups <+: all ↔ _ :=
      routerScan_isPrefix_iff happart hall
    unfold pages PagesLevel
    rw [← hpage]
    dsimp only
    cases hlast : (routerScan σ { req with start := start } groups).getLast? with
    | none =>
      have hnil := List.getLast?_eq_none_iff.mp hlast
      rw [listing_nil_of_empty hall hnil, hnil]
      simp
    | some p =>
      have hpos : 0 < (routerScan σ { req with start := start } groups).length := by
        obtain ⟨init, hinit⟩ := List.getLast?_eq_some_iff.mp hlast
        simp [hinit]
      -- behind a page that is an initial segment, the rest of the pages are the rest of the pairs
      have hrest : ∀ rest, routerScan σ { req with start := start } groups ++ rest = all →
          ((pages σ req groups fuel (p.1 ++ [0])).flatten = rest ↔
            PagesLevel σ req groups fuel (p.1 ++ [0])) := by
        rintro rest rfl
        rw [List.length_append] at hfuel
        exact ih (hall.rest hlast) (by omega)
      rw [List.flatten_cons]
      constructor
      · intro heq
        refine ⟨⟨_, heq⟩, fun q hq => ?_⟩
        obtain rfl := Option.some.inj hq
        exact (hrest _ heq).mp rfl
      · rintro ⟨⟨rest, heq⟩, hnext⟩
        rw [(hrest rest heq).mpr (hnext p rfl), heq]

/-- Without bounds the groups return everything between them. -/
theorem listing_of_unbounded (happart : Apart groups) (hlimit : req.limit = 0)
    (hbytes : req.maxBytes = 0) :
    Listing groups req.start req.stop (σ.sort (groups.flatMap req.part)) := by
  refine ⟨happart.merged, fun k v => ?_⟩
  have hpart : ∀ s : StateMachine, req.part s = s.range req.start req.stop := by
    intro s
    unfold ScanRequest.part
    rw [hlimit, hbytes, StateMachine.scan_unbounded]
  rw [mem_merged]
  simp only [hpart, StateMachine.mem_range]
  constructor
  · rintro ⟨s, hs, hget, hspan⟩
    exact ⟨⟨s, hs, hget⟩, hspan⟩
  · rintro ⟨⟨s, hs, hget⟩, hspan⟩
    exact ⟨s, hs, hget, hspan⟩

theorem Listing.unique {start stop : Bytes} {all' : List (Bytes × Bytes)}
    (h : Listing groups start stop all) (h' : Listing groups start stop all') : all = all' :=
  h.ascending.ext h'.ascending fun p => (h.mem p.1 p.2).trans (h'.mem p.1 p.2).symm

end Merged

/-- NO HOLES.  Let no key be in two groups, and let `all` be the pairs of all groups in the span, in
ascending order.  The routed scan returns an initial segment of `all` exactly if what the byte bound keeps
out of a group's part is above all that is returned, and it returns all of it without bounds.  The pages of a
caller that goes on behind the last key are together `all` exactly if that is so on every page. -/
theorem routed_scan_no_holes (σ : Sorter) (req : ScanRequest) (groups : List StateMachine)
    (happart : Apart groups) :
    ∃ all, Listing groups req.start req.stop all ∧
      (routerScan σ req groups <+: all ↔ Level req groups) ∧
      (req.limit = 0 → req.maxBytes = 0 → routerScan σ req groups = all) ∧
      ∀ fuel, all.length < fuel →
        ((pages σ req groups fuel req.start).flatten = all ↔ PagesLevel σ req groups fuel req.start) := by
  have hall : Listing groups req.start req.stop
      (σ.sort (groups.flatMap { req with limit := 0, maxBytes := 0 }.part)) :=
    @listing_of_unbounded σ { req with limit := 0, maxBytes := 0 } groups happart rfl rfl
  refine ⟨_, hall, routerScan_isPrefix_iff happart hall, fun hlimit hbytes => ?_,
    fun fuel hfuel => pages_flatten_iff happart hall hfuel⟩
  rw [routerScan_eq, if_pos hlimit]
  exact (listing_of_unbounded happart hlimit hbytes).unique hall

/-! ## Two sample groups. -/

/-- A group that holds these pairs. -/
def holding (kvs : List (Bytes × Bytes)) : StateMachine :=
  { db := (∅ : KVMap).write (kvs.map fun p => putOp (userKey p.1) p.2) }

/-- One group has `a` and `b`, the other one `c`. -/
def sampleGroups : List StateMachine :=
  [holding [([0x61], [1]), ([0x62], [2])], holding [([0x63], [3])]]

theorem apart_sampleGroups : Apart sampleGroups := by
  refine List.pairwise_pair.mpr fun k => ?_
  by_cases hk : k = [0x63]
  · subst hk
    left
    decide +kernel
  · right
    simp [holding, StateMachine.get, userKey, Ne.symm hk]

/-- A HOLE.  With a byte bound of 1 the first group returns `a` alone and the second one `c`.  The result
has `a` and `c`, and `b` is missing. -/
theorem bytes_leave_hole :
    Apart sampleGroups ∧ (∃ s ∈ sampleGroups, s.get [0x62] = some [2]) ∧
      ∀ σ : Sorter, ([0x63], [3]) ∈ routerScan σ { maxBytes := 1 } sampleGroups ∧
        ∀ v, ([0x62], v) ∉ routerScan σ { maxBytes := 1 } sampleGroups := by
  have hparts : sampleGroups.flatMap (ScanRequest.part { maxBytes := 1 }) =
      [([0x61], [1]), ([0x63], [3])] := by decide +kernel
  refine ⟨apart_sampleGroups, by decide +kernel, fun σ => ⟨?_, fun v => ?_⟩⟩
  · rw [routerScan_eq, if_pos rfl, hparts, (σ.perm _).mem_iff]
    simp
  · rw [routerScan_eq, if_pos rfl, hparts, (σ.perm _).mem_iff]
    simp

/-- Sorting by insertion. -/
def insertionSorter : Sorter where
  sort := List.insertionSort fun p q => (compare p.1 q.1).isLE = true
  perm := List.perm_insertionSort _
  sorted l := by
    have : Std.Total fun p q : Bytes × Bytes => (compare p.1 q.1).isLE = true := ⟨fun p q => by
      cases h : compare p.1 q.1 with
      | lt => exact .inl rfl
      | eq => exact .inl rfl
      | gt => exact .inr (by simp [Std.OrientedCmp.gt_iff_lt.mp h])⟩
    have : IsTrans (Bytes × Bytes) fun p q => (compare p.1 q.1).isLE = true :=
      ⟨fun _ _ _ => Std.TransCmp.isLE_trans⟩
    exact List.pairwise_insertionSort _ l

/-- One group has a large `a` and `c`, the other one `b` and `d`. -/
def spreadGroups : List StateMachine :=
  [holding [([0x61], List.replicate 9 1), ([0x63], [3])], holding [([0x62], [2]), ([0x64], [4])]]

theorem apart_spreadGroups : Apart spreadGroups := by
  refine List.pairwise_pair.mpr fun k => ?_
  by_cases hk : k = [0x61] ∨ k = [0x63]
  · right
    rcases hk with rfl | rfl <;> decide +kernel
  · left
    push Not at hk
    simp [holding, StateMachine.get, userKey, Ne.symm hk.1, Ne.symm hk.2]

/-- Two pairs a page.  The byte bound keeps `c` out of the first page and another group returns `d`; the
limit cuts that off again. -/
theorem routed_scan_no_holes_two_by_two :
    ∃ all, Listing spreadGroups [] [] all ∧
      routerScan insertionSorter { limit := 2, maxBytes := 10 } spreadGroups =
        [([0x61], List.replicate 9 1), ([0x62], [2])] ∧
      routerScan insertionSorter { limit := 2, maxBytes := 10 } spreadGroups <+: all ∧
      (pages insertionSorter { limit := 2, maxBytes := 10 } spreadGroups 5 []).flatten = all := by
  have hpage : routerScan insertionSorter { limit := 2, maxBytes := 10 } spreadGroups =
      [([0x61], List.replicate 9 1), ([0x62], [2])] := by decide +kernel
  have hlevels : PagesLevel insertionSorter { limit := 2, maxBytes := 10 } spreadGroups 5 [] := by
    have hnext : routerScan insertionSorter { start := [0x62, 0], limit := 2, maxBytes := 10 } spreadGroups =
        [([0x63], [3]), ([0x64], [4])] := by decide +kernel
    have hend : routerScan insertionSorter { start := [0x64, 0], limit := 2, maxBytes := 10 } spreadGroups =
        [] := by decide +kernel
    refine ⟨by decide +kernel, fun p hp => ?_⟩
    rw [hpage] at hp
    obtain rfl : ([0x62], [2]) = p := Option.some.inj hp
    refine ⟨by decide +kernel, fun p hp => ?_⟩
    obtain rfl : ([0x64], [4]) = p := Option.some.inj ((congrArg List.getLast? hnext).symm.trans hp)
    refine ⟨by decide +kernel, fun p hp => ?_⟩
    cases (congrArg List.getLast? hend).symm.trans hp
  obtain ⟨all, hall, hiff, -, hpages⟩ := routed_scan_no_holes insertionSorter
    { limit := 2, maxBytes := 10 } spreadGroups apart_spreadGroups
  obtain ⟨all', hall', -, hfull, -⟩ := routed_scan_no_holes insertionSorter {} spreadGroups apart_spreadGroups
  have hlen : all.length < 5 := by
    rw [hall.unique hall', ← hfull rfl rfl]
    decide +kernel
  exact ⟨all, hall, hpage, hiff.mpr (by decide +kernel), (hpages 5 hlen).mpr hlevels⟩

end Keystone.Shard
