/-
# Keystone.Kv.Scans — what a scan of one group returns.

The pairs of a key range, in order, are `range`; they are what the engine holds under user keys
(`mem_range`).  A scan returns an initial segment of them: all of them without bounds, the first `limit`
of them with a limit alone, and never nothing while there is something.
-/
import Keystone.Kv.Effects
import Keystone.Lib.Ascending

namespace Keystone.Kv.StateMachine

open Keystone.Lib
open Keystone.Storage (KVMap)

variable {s : StateMachine} {start stop : Bytes} {limit maxBytes : Nat}

/-- The keys from `start` on and below `stop`; an empty `stop` is no bound. -/
def inSpan (start stop k : Bytes) : Bool :=
  (compare start k).isLE && (stop.isEmpty || (compare k stop).isLT)

/-- Where a scan of the engine ends. -/
def scanEnd (stop : Bytes) : Bytes := if stop.length > 0 then userKey stop else [prefixKey + 1]

/-- The pairs of a range of user keys, in order. -/
def range (s : StateMachine) (start stop : Bytes) : List (Bytes × Bytes) :=
  (s.db.scan (userKey start) (some (scanEnd stop))).map fun p => (p.1.drop 1, p.2)

theorem inRange_userKey (k : Bytes) :
    KVMap.inRange (userKey start) (some (scanEnd stop)) (userKey k) = inSpan start stop k := by
  unfold KVMap.inRange inSpan scanEnd
  rw [compare_userKey]
  cases stop with
  | nil =>
    have hlt : compare (userKey k) [prefixKey + 1] = .lt := rfl
    simp [hlt]
  | cons b bs => simp [compare_userKey]

/-- What a scan of the engine meets is under a user key. -/
theorem userKey_of_scan {p : Bytes × Bytes}
    (hp : p ∈ s.db.scan (userKey start) (some (scanEnd stop))) : ∃ k, p.1 = userKey k := by
  obtain ⟨key, v⟩ := p
  have hrange := (KVMap.mem_scan.mp hp).2
  refine userKey_of_inRange (?_ : KVMap.inRange (userKey start) _ _ = true)
  unfold KVMap.inRange at hrange ⊢
  obtain ⟨hlow, hhigh⟩ := Bool.and_eq_true_iff.mp hrange
  refine Bool.and_eq_true_iff.mpr ⟨hlow, ?_⟩
  dsimp only at hhigh ⊢
  by_cases hstop : stop.length > 0
  · -- the end of the user keys is above every user key
    have hlt : compare (userKey stop) [prefixKey + 1] = .lt := rfl
    rw [scanEnd, if_pos hstop, Ordering.isLT_iff_eq_lt] at hhigh
    rw [Ordering.isLT_iff_eq_lt]
    exact Std.TransCmp.lt_trans hhigh hlt
  · rw [scanEnd, if_neg hstop] at hhigh
    exact hhigh

theorem mem_range {k v : Bytes} :
    (k, v) ∈ s.range start stop ↔ s.get k = some v ∧ inSpan start stop k = true := by
  unfold range
  rw [List.mem_map]
  constructor
  · rintro ⟨p, hp, heq⟩
    obtain ⟨key, hkey⟩ := userKey_of_scan hp
    obtain ⟨rfl, rfl⟩ := Prod.mk.inj heq
    obtain ⟨pk, pv⟩ := p
    obtain rfl : pk = userKey key := hkey
    obtain ⟨hget, hrange⟩ := KVMap.mem_scan.mp hp
    rw [inRange_userKey] at hrange
    exact ⟨hget, hrange⟩
  · rintro ⟨hget, hspan⟩
    refine ⟨(userKey k, v), KVMap.mem_scan.mpr ⟨hget, ?_⟩, rfl⟩
    rw [inRange_userKey]
    exact hspan

theorem range_ascending (s : StateMachine) (start stop : Bytes) : Ascending (s.range start stop) := by
  unfold range Ascending
  refine List.pairwise_map.mpr (List.Pairwise.imp_of_mem (fun {p q} hp hq hlt => ?_)
    (s.db.scan_sorted _ _))
  obtain ⟨k, hk⟩ := userKey_of_scan hp
  obtain ⟨k', hk'⟩ := userKey_of_scan hq
  rw [hk, hk', compare_userKey] at hlt
  rw [hk, hk']
  exact hlt

/-! ## The loop. -/

/-- Without a byte bound the loop takes the pairs up to the limit. -/
theorem scanLoop_limit (l : List (Bytes × Bytes)) (count size : Nat) :
    scanLoop limit 0 l count size =
      (if limit = 0 then l else l.take (limit - count)).map fun p => (p.1.drop 1, p.2) := by
  induction l generalizing count size with
  | nil => cases limit <;> simp [scanLoop]
  | cons p l ih =>
    obtain ⟨k, v⟩ := p
    unfold scanLoop
    by_cases hfull : limit > 0 ∧ count ≥ limit
    · have hzero : limit - count = 0 := by omega
      have hlimit : limit ≠ 0 := by omega
      simp [hfull, hlimit, hzero]
    · have hbytes : ∀ n : Nat, ¬(0 > 0 ∧ n ≥ 0) := fun n h => absurd h.1 (Nat.lt_irrefl 0)
      rw [if_neg hfull]
      dsimp only
      rw [if_neg (hbytes _), ih]
      split
      · rfl
      · have hsucc : limit - count = limit - (count + 1) + 1 := by omega
        rw [hsucc, List.take_succ_cons, List.map_cons]

/-- A byte bound only ends the loop earlier, and never before the first pair. -/
theorem scanLoop_bytes (l : List (Bytes × Bytes)) (count size : Nat) :
    scanLoop limit maxBytes l count size <+: scanLoop limit 0 l count size ∧
      (scanLoop limit maxBytes l count size = [] → scanLoop limit 0 l count size = []) := by
  induction l generalizing count size with
  | nil => exact ⟨List.prefix_refl _, id⟩
  | cons p l ih =>
    obtain ⟨k, v⟩ := p
    unfold scanLoop
    split
    · exact ⟨List.prefix_refl _, id⟩
    · refine ⟨?_, fun h => by cases h⟩
      rw [List.prefix_cons_inj, if_neg (by simp : ¬(0 > 0 ∧ _))]
      split
      · exact List.nil_prefix
      · exact (ih _ _).1

/-! ## Scans. -/

theorem scan_eq_loop : s.scan start stop limit maxBytes =
    scanLoop limit maxBytes (s.db.scan (userKey start) (some (scanEnd stop))) 0 0 := rfl

theorem scan_unbounded (s : StateMachine) (start stop : Bytes) :
    s.scan start stop 0 0 = s.range start stop := by
  rw [scan_eq_loop, scanLoop_limit]
  rfl

theorem scan_limit (hlimit : limit ≠ 0) :
    s.scan start stop limit 0 = (s.range start stop).take limit := by
  rw [scan_eq_loop, scanLoop_limit, if_neg hlimit, range, List.map_take]
  rfl

theorem scan_bytes_initial (s : StateMachine) (start stop : Bytes) (limit maxBytes : Nat) :
    s.scan start stop limit maxBytes <+: s.scan start stop limit 0 := (scanLoop_bytes _ _ _).1

theorem scan_limit_initial (s : StateMachine) (start stop : Bytes) (limit : Nat) :
    s.scan start stop limit 0 <+: s.range start stop := by
  by_cases hlimit : limit = 0
  · have hall : s.scan start stop limit 0 = s.range start stop := by rw [hlimit, scan_unbounded]
    exact hall ▸ List.prefix_refl _
  · rw [scan_limit hlimit]
    exact List.take_prefix ..

theorem scan_range_initial (s : StateMachine) (start stop : Bytes) (limit maxBytes : Nat) :
    s.scan start stop limit maxBytes <+: s.range start stop :=
  (scan_bytes_initial s start stop limit maxBytes).trans (scan_limit_initial s start stop limit)

theorem scan_ascending (s : StateMachine) (start stop : Bytes) (limit maxBytes : Nat) :
    Ascending (s.scan start stop limit maxBytes) :=
  (s.range_ascending start stop).sublist (scan_range_initial s start stop limit maxBytes).sublist

/-- A scan of a range with something in it returns something. -/
theorem range_eq_nil_of_scan (h : s.scan start stop limit maxBytes = []) :
    s.range start stop = [] := by
  have hnil := (scanLoop_bytes _ _ _).2 h
  change s.scan start stop limit 0 = [] at hnil
  by_cases hlimit : limit = 0
  · rw [hlimit, scan_unbounded] at hnil
    exact hnil
  · rw [scan_limit hlimit, List.take_eq_nil_iff] at hnil
    exact hnil.resolve_left hlimit

/-! ## The next page. -/

/-- A key with a zero byte behind it comes right after the key. -/
theorem succ_isLE_iff (a b : Bytes) : (compare (a ++ [0]) b).isLE = true ↔ compare a b = .lt := by
  induction a generalizing b with
  | nil =>
    cases b with
    | nil => simp
    | cons x bs =>
      have hle : compare (0 : UInt8) x ≠ .gt := fun h =>
        absurd (Std.compare_eq_gt.mp h) (UInt8.not_lt.mpr (UInt8.le_iff_toNat_le.mpr (Nat.zero_le _)))
      rw [List.nil_append, List.compare_cons_cons]
      cases h : compare (0 : UInt8) x with
      | lt => simp
      | eq => cases bs <;> simp
      | gt => exact absurd h hle
  | cons x a ih =>
    cases b with
    | nil => simp
    | cons y b =>
      rw [List.cons_append, List.compare_cons_cons, List.compare_cons_cons]
      cases compare x y with
      | lt => simp
      | gt => simp
      | eq => exact ih b

end Keystone.Kv.StateMachine
