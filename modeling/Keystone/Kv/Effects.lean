/-
# Keystone.Kv.Effects — what a command makes of the keys and the shard states.

The spec lemmas of `Apply` that results about groups use: a client's command acts on the user keys as on
a map (`get_client`) and leaves the shard states; the commands of a shard move do to the keys and the
state of their shard what their names say; and a page of `Scan` holds every key up to its last one
(`mem_scan_page`).
-/
import Keystone.Kv.Sessions

namespace Keystone.Kv

open Keystone.Lib
open Keystone.Storage (KVMap Batch BatchOp putOp deleteOp)
open Function (update)

namespace StateMachine

variable {c : Codec} {s : StateMachine} {cmd : Command} {index : UInt64}

theorem userKey_injective {k k' : Bytes} (h : userKey k = userKey k') : k = k' := (List.cons.inj h).2

/-! ## The batch of a command and the user keys. -/

theorem get_of_cached {result : Bytes} (h : s.cached cmd = some result) (key : Bytes) :
    (s.applyCommand c cmd index).1.get key = s.get key := by
  rw [applyCommand_of_cached h]
  simp [get, (userKey_ne_appliedKey key).symm]

theorem shards_of_cached {result : Bytes} (h : s.cached cmd = some result) :
    (s.applyCommand c cmd index).1.shards = s.shards := by
  rw [applyCommand_of_cached h]

/-- A command that is run touches user keys only through its own part of the batch. -/
theorem get_of_run (h : s.cached cmd = none) (key : Bytes) :
    (s.applyCommand c cmd index).1.get key =
      (s.db.write (s.execute cmd.op index).batch)[userKey key]? := by
  unfold applyCommand
  rw [h]
  unfold get
  dsimp only
  rw [KVMap.write_append, KVMap.write_append]
  have hmark : ∀ op ∈ [putOp appliedKey (BigEndian.putUint64 index)], op.key ≠ userKey key := by
    intro op hop
    rw [List.mem_singleton.mp hop]
    exact (userKey_ne_appliedKey key).symm
  have hsession : ∀ op ∈ sessionOps cmd (s.execute cmd.op index).res
      (c.marshal (s.execute cmd.op index).res), op.key ≠ userKey key := by
    intro op hop
    unfold sessionOps at hop
    rcases List.mem_append.mp hop with hop | hop
    · split at hop
      · rw [List.mem_singleton.mp hop]
        exact (userKey_ne_sessionKey key _).symm
      · simp at hop
    · split at hop
      · rw [List.mem_singleton.mp hop]
        exact (userKey_ne_sessionKey key _).symm
      · simp at hop
  rw [KVMap.getElem?_write_of_not_mem hmark, KVMap.getElem?_write_of_not_mem hsession]

theorem shards_of_run (h : s.cached cmd = none) :
    (s.applyCommand c cmd index).1.shards = (s.execute cmd.op index).shards := by
  unfold applyCommand
  rw [h]

/-- A command without a session is always run. -/
theorem cached_of_no_client (h : cmd.clientId = 0) : s.cached cmd = none := by
  unfold cached
  split
  · rfl
  · simp [h]

/-- What a command that is run does does not depend on whose it is. -/
theorem get_anonymous (h : s.cached cmd = none) (key : Bytes) :
    (s.applyCommand c cmd index).1.get key = (s.applyCommand c ⟨0, 0, cmd.op⟩ index).1.get key := by
  have hnone : s.cached ⟨0, 0, cmd.op⟩ = none := cached_of_no_client rfl
  rw [get_of_run h, get_of_run hnone]

theorem shards_anonymous (h : s.cached cmd = none) :
    (s.applyCommand c cmd index).1.shards = (s.applyCommand c ⟨0, 0, cmd.op⟩ index).1.shards := by
  have hnone : s.cached ⟨0, 0, cmd.op⟩ = none := cached_of_no_client rfl
  rw [shards_of_run h, shards_of_run hnone]

/-! ## Client commands. -/

/-- The key a client's command is about. -/
def clientKey : Op → Option Bytes
  | .put key _ | .delete key | .cas key _ _ | .get key => some key
  | _ => none

def isWrite : Op → Bool
  | .put _ _ | .delete _ | .cas _ _ _ => true
  | _ => false

/-- What an executed command with this result writes into a map from keys to values. -/
def written (m : Bytes → Option Bytes) (op : Op) (res : Result) : Bytes → Option Bytes :=
  match op with
  | .put key value => update m key (some value)
  | .delete key => update m key none
  | .cas key _ value => if res.success then update m key (some value) else m
  | _ => m

theorem written_of_ne {m : Bytes → Option Bytes} {op : Op} {res : Result} {key k : Bytes}
    (hkey : clientKey op = some key) (hk : k ≠ key) : written m op res k = m k := by
  unfold written
  cases op with
  | put key' value =>
    cases hkey
    exact Function.update_of_ne hk ..
  | delete key' =>
    cases hkey
    exact Function.update_of_ne hk ..
  | cas key' expected value =>
    cases hkey
    dsimp only
    split
    · exact Function.update_of_ne hk ..
    · rfl
  | _ => rfl

/-- The same write on two maps that agree at a key. -/
theorem written_congr {m m' : Bytes → Option Bytes} (op : Op) (res : Result) {k : Bytes}
    (h : m k = m' k) : written m op res k = written m' op res k := by
  unfold written
  cases op with
  | put key value => by_cases hk : k = key <;> simp [update, hk, h]
  | delete key => by_cases hk : k = key <;> simp [update, hk, h]
  | cas key expected value =>
    dsimp only
    split
    · by_cases hk : k = key <;> simp [update, hk, h]
    · exact h
  | _ => exact h

/-- What an executed command reads, as its result shows it. -/
def ReadsFrom (m : Bytes → Option Bytes) (op : Op) (res : Result) : Prop :=
  match op with
  | .get key | .cas key _ _ => res.found = (m key).isSome ∧ res.value = (m key).getD []
  | _ => True

theorem get_put (key value k : Bytes) :
    (s.db.write [putOp (userKey key) value])[userKey k]? = update s.get key (some value) k := by
  by_cases hk : k = key
  · subst hk
    simp
  · have hne : userKey key ≠ userKey k := fun h => hk (userKey_injective h).symm
    simp [hk, hne, get]

theorem get_delete (key k : Bytes) :
    (s.db.write [deleteOp (userKey key)])[userKey k]? = update s.get key none k := by
  by_cases hk : k = key
  · subst hk
    simp
  · have hne : userKey key ≠ userKey k := fun h => hk (userKey_injective h).symm
    simp [hk, hne, get]

/-- An executed client command is an operation on the map of user keys. -/
theorem get_client {key : Bytes} (hkey : clientKey cmd.op = some key) (hcached : s.cached cmd = none)
    (hmoving : s.refuses cmd.op = false) (k : Bytes) :
    (s.applyCommand c cmd index).1.get k = written s.get cmd.op (s.execute cmd.op index).res k := by
  rw [get_of_run hcached]
  cases hop : cmd.op with
  | put key' value =>
    have hw : s.writable key' = true := by simpa [refuses, hop] using hmoving
    simp only [execute, hw, if_true, written]
    exact get_put key' value k
  | delete key' =>
    have hw : s.writable key' = true := by simpa [refuses, hop] using hmoving
    simp only [execute, hw, if_true, written]
    exact get_delete key' k
  | cas key' expected value =>
    have hw : s.writable key' = true := by simpa [refuses, hop] using hmoving
    simp only [execute, hw, if_true, written]
    split
    · exact get_put key' value k
    · rfl
  | get key' =>
    have hr : s.readable key' = true := by simpa [refuses, hop] using hmoving
    simp only [execute, hr, if_true, written]
    rfl
  | _ => simp [hop, clientKey] at hkey

/-- A refused command changes no key. -/
theorem get_of_refused (hcached : s.cached cmd = none) (hmoving : s.refuses cmd.op = true)
    (k : Bytes) : (s.applyCommand c cmd index).1.get k = s.get k := by
  rw [get_of_run hcached]
  cases hop : cmd.op with
  | put key' value =>
    have hw : s.writable key' = false := by simpa [refuses, hop] using hmoving
    simp [execute, hw, moving, get]
  | delete key' =>
    have hw : s.writable key' = false := by simpa [refuses, hop] using hmoving
    simp [execute, hw, moving, get]
  | cas key' expected value =>
    have hw : s.writable key' = false := by simpa [refuses, hop] using hmoving
    simp [execute, hw, moving, get]
  | get key' =>
    have hr : s.readable key' = false := by simpa [refuses, hop] using hmoving
    simp [execute, hr, moving, get]
  | _ => simp [hop, refuses] at hmoving

/-- Client commands leave the shard states. -/
theorem shards_client {key : Bytes} (hkey : clientKey cmd.op = some key) :
    (s.applyCommand c cmd index).1.shards = s.shards := by
  cases hcached : s.cached cmd with
  | some result => exact shards_of_cached hcached
  | none =>
    rw [shards_of_run hcached]
    cases hop : cmd.op with
    | put key' value => cases hw : s.writable key' <;> simp [execute, hw, moving]
    | delete key' => cases hw : s.writable key' <;> simp [execute, hw, moving]
    | cas key' expected value => cases hw : s.writable key' <;> simp [execute, hw, moving]
    | get key' => cases hr : s.readable key' <;> simp [execute, hr, moving]
    | _ => simp [hop, clientKey] at hkey

/-- The result of an executed command shows the map it ran on. -/
theorem readsFrom_client {op : Op} (hmoving : s.refuses op = false) :
    ReadsFrom s.get op (s.execute op index).res := by
  unfold ReadsFrom
  cases op with
  | cas key expected value =>
    have hw : s.writable key = true := by simpa [refuses] using hmoving
    simp [execute, hw]
  | get key =>
    have hr : s.readable key = true := by simpa [refuses] using hmoving
    simp [execute, hr]
  | _ => trivial

/-! ## The commands of a shard move. -/

section Admin

variable (n : Nat)

theorem get_freeze (k : Bytes) : (s.applyCommand c ⟨0, 0, .freeze n⟩ index).1.get k = s.get k := by
  rw [get_of_run (cached_of_no_client rfl)]
  dsimp only [execute]
  split
  · rfl
  · refine KVMap.getElem?_write_of_not_mem fun op hop => ?_
    rw [List.mem_singleton.mp hop]
    exact (userKey_ne_shardKey k n).symm

theorem shards_freeze : (s.applyCommand c ⟨0, 0, .freeze n⟩ index).1.shards =
    if s.shardState n = .shardGone then s.shards else update s.shards n (some .shardFrozen) := by
  rw [shards_of_run (cached_of_no_client rfl)]
  dsimp only [execute]
  split <;> rfl

theorem shards_purge : (s.applyCommand c ⟨0, 0, .purge n⟩ index).1.shards =
    update s.shards n (some .shardGone) := by
  rw [shards_of_run (cached_of_no_client rfl)]
  rfl

/-- The keys `Purge` finds are those of its shard. -/
theorem userKey_mem_shardKeys (k : Bytes) :
    userKey k ∈ s.shardKeys n ↔ s.get k ≠ none ∧ shardOf k = n := by
  have hrange : KVMap.inRange [prefixKey] (some [prefixKey + 1]) (userKey k) = true := by
    cases k <;> rfl
  unfold shardKeys
  rw [List.mem_filter, List.mem_map]
  constructor
  · rintro ⟨⟨⟨key, v⟩, hmem, rfl⟩, hshard⟩
    refine ⟨?_, by simpa [userKey] using hshard⟩
    unfold get
    rw [(KVMap.mem_scan.mp hmem).1]
    simp
  · rintro ⟨hget, hshard⟩
    obtain ⟨v, hv⟩ := Option.ne_none_iff_exists'.mp hget
    exact ⟨⟨(userKey k, v), KVMap.mem_scan.mpr ⟨hv, hrange⟩, rfl⟩, by simpa [userKey] using hshard⟩

theorem get_purge (k : Bytes) : (s.applyCommand c ⟨0, 0, .purge n⟩ index).1.get k =
    if shardOf k = n then none else s.get k := by
  have hshard : ∀ op ∈ [putOp (shardKey n) [ShardState.shardGone.toByte]], op.key ≠ userKey k := by
    intro op hop
    rw [List.mem_singleton.mp hop]
    exact (userKey_ne_shardKey k n).symm
  rw [get_of_run (cached_of_no_client rfl)]
  dsimp only [execute, Effect.setShard]
  rw [KVMap.write_append, KVMap.getElem?_write_of_not_mem hshard, KVMap.getElem?_write_deletes]
  by_cases hk : shardOf k = n
  · cases hget : s.get k with
    | none =>
      have : s.db[userKey k]? = none := hget
      simp [this]
    | some v =>
      have hmem : userKey k ∈ s.shardKeys n := (userKey_mem_shardKeys n k).mpr ⟨by simp [hget], hk⟩
      rw [if_pos hmem, if_pos hk]
  · have hmem : userKey k ∉ s.shardKeys n := fun h => hk ((userKey_mem_shardKeys n k).mp h).2
    rw [if_neg hmem, if_neg hk]
    rfl

/-- The shard is held here to the end: an import is refused. -/
def complete (s : StateMachine) (n : Nat) : Bool :=
  s.shards n = some .shardOpen ∨ s.shards n = some .shardFrozen

variable (kvs : List (Bytes × Bytes)) (last : Bool)

theorem execute_import_of_complete (h : s.complete n = true) :
    s.execute (.importOp n kvs last) index = { shards := s.shards } := by
  unfold complete at h
  unfold execute
  rcases of_decide_eq_true h with h | h <;> simp [h]

theorem execute_import_of_not (h : s.complete n = false) :
    s.execute (.importOp n kvs last) index =
      if last then
        ({ res := { success := true }, batch := kvs.map fun p => putOp (userKey p.1) p.2,
           shards := s.shards } : Effect).setShard n .shardOpen
      else
        { res := { success := true }, batch := kvs.map fun p => putOp (userKey p.1) p.2,
          shards := s.shards } := by
  have hn := of_decide_eq_false h
  unfold execute
  cases hs : s.shards n with
  | none => simp only [hs]
  | some state =>
    cases state with
    | shardOpen => exact absurd (Or.inl hs) hn
    | shardFrozen => exact absurd (Or.inr hs) hn
    | shardGone => simp only [hs]

theorem success_import :
    (s.execute (.importOp n kvs last) index).res.success = !s.complete n := by
  cases h : s.complete n with
  | true => rw [execute_import_of_complete n kvs last h]; rfl
  | false =>
    rw [execute_import_of_not n kvs last h]
    cases last <;> rfl

theorem shards_import : (s.applyCommand c ⟨0, 0, .importOp n kvs last⟩ index).1.shards =
    if s.complete n = false ∧ last = true then update s.shards n (some .shardOpen) else s.shards := by
  rw [shards_of_run (cached_of_no_client rfl)]
  cases h : s.complete n with
  | true => rw [execute_import_of_complete n kvs last h]; simp
  | false =>
    rw [execute_import_of_not n kvs last h]
    cases last <;> simp [Effect.setShard]

theorem get_import_of_complete (h : s.complete n = true) (k : Bytes) :
    (s.applyCommand c ⟨0, 0, .importOp n kvs last⟩ index).1.get k = s.get k := by
  rw [get_of_run (cached_of_no_client rfl), execute_import_of_complete n kvs last h]
  rfl

/-- Puts of pairs, one after the other. -/
theorem get_puts (db : KVMap) (k : Bytes) :
    (∃ v, (k, v) ∈ kvs ∧ (db.write (kvs.map fun p => putOp (userKey p.1) p.2))[userKey k]? = some v) ∨
    ((∀ v, (k, v) ∉ kvs) ∧
      (db.write (kvs.map fun p => putOp (userKey p.1) p.2))[userKey k]? = db[userKey k]?) := by
  induction kvs generalizing db with
  | nil => exact .inr ⟨by simp, rfl⟩
  | cons p kvs ih =>
    obtain ⟨key, value⟩ := p
    rw [List.map_cons, KVMap.write_cons]
    rcases ih (db.applyOp (putOp (userKey key) value)) with ⟨v, hv, hget⟩ | ⟨hnot, hget⟩
    · exact .inl ⟨v, List.mem_cons_of_mem _ hv, hget⟩
    · by_cases hk : k = key
      · subst hk
        exact .inl ⟨value, List.mem_cons_self .., by rw [hget]; simp⟩
      · have hne : userKey key ≠ userKey k := fun h => hk (userKey_injective h).symm
        refine .inr ⟨fun v hv => ?_, by rw [hget]; simp [hne]⟩
        rcases List.mem_cons.mp hv with heq | hv
        · exact hk (Prod.mk.inj heq).1
        · exact hnot v hv

/-- An import that lands puts its pairs and leaves the other keys. -/
theorem get_import_of_not (h : s.complete n = false) (k : Bytes) :
    (∃ v, (k, v) ∈ kvs ∧ (s.applyCommand c ⟨0, 0, .importOp n kvs last⟩ index).1.get k = some v) ∨
    ((∀ v, (k, v) ∉ kvs) ∧
      (s.applyCommand c ⟨0, 0, .importOp n kvs last⟩ index).1.get k = s.get k) := by
  rw [get_of_run (cached_of_no_client rfl), execute_import_of_not n kvs last h]
  cases last with
  | false => exact get_puts kvs s.db k
  | true =>
    have hshard : ∀ op ∈ [putOp (shardKey n) [ShardState.shardOpen.toByte]], op.key ≠ userKey k := by
      intro op hop
      rw [List.mem_singleton.mp hop]
      exact (userKey_ne_shardKey k n).symm
    simp only [if_true, Effect.setShard, KVMap.write_append, KVMap.getElem?_write_of_not_mem hshard]
    exact get_puts kvs s.db k

end Admin

/-! ## Pages of a scan. -/

theorem compare_userKey (a b : Bytes) : compare (userKey a) (userKey b) = compare a b := by
  unfold userKey
  rw [List.compare_cons_cons]
  rfl

/-- What lies in the range of a scan is a user key. -/
theorem userKey_of_inRange {start k : Bytes}
    (h : KVMap.inRange (userKey start) (some [prefixKey + 1]) k = true) : ∃ key, k = userKey key := by
  unfold KVMap.inRange at h
  obtain ⟨hlow, hhigh⟩ := Bool.and_eq_true_iff.mp h
  cases k with
  | nil => exact (Bool.false_ne_true hlow).elim
  | cons b bs =>
    have hb : b = prefixKey := by
      simp only [userKey, List.compare_cons_cons] at hlow hhigh
      have hle : prefixKey ≤ b := by
        by_contra hlt
        have : compare prefixKey b = .gt := Std.compare_eq_gt.mpr (UInt8.not_le.mp hlt)
        simp [this] at hlow
      have hlt : b ≤ prefixKey := by
        by_contra hlt
        have hlt := UInt8.not_le.mp hlt
        by_cases heq : b = prefixKey + 1
        · subst heq
          cases bs <;> simp at hhigh
        · have hgt : compare b (prefixKey + 1) = .gt := by
            refine Std.compare_eq_gt.mpr ?_
            rw [UInt8.lt_iff_toNat_lt] at hlt ⊢
            have hne : b.toNat ≠ (prefixKey + 1).toNat := fun h => heq (UInt8.toNat_inj.mp h)
            have : (prefixKey + 1).toNat = prefixKey.toNat + 1 := by decide
            omega
          simp [hgt] at hhigh
      exact UInt8.le_antisymm hlt hle
    exact ⟨bs, by rw [hb, userKey]⟩

/-- The loop of `scan` returns the first pairs of its range, at least one if there is one. -/
theorem scanLoop_eq_take (limit maxBytes : Nat) (l : List (Bytes × Bytes)) (count size : Nat) :
    ∃ n, scanLoop limit maxBytes l count size = (l.take n).map (fun p => (p.1.drop 1, p.2)) ∧
      (count < limit → l ≠ [] → 0 < n) := by
  induction l generalizing count size with
  | nil => exact ⟨0, rfl, fun _ h => absurd rfl h⟩
  | cons p l ih =>
    obtain ⟨k, v⟩ := p
    unfold scanLoop
    split
    · next hfull => exact ⟨0, rfl, fun hlt => absurd hfull.2 (by omega)⟩
    · dsimp only
      split
      · exact ⟨1, rfl, fun _ _ => Nat.one_pos⟩
      · obtain ⟨n, hn, -⟩ := ih (count + 1) (size + (k.length - 1 + v.length))
        exact ⟨n + 1, by rw [hn]; rfl, fun _ _ => n.succ_pos⟩

/-- A PAGE.  It holds pairs of the map from `start` on, none is skipped up to its last key, and it is
empty only at the end. -/
theorem scan_page (start : Bytes) {limit : Nat} (maxBytes : Nat) (hlimit : 0 < limit) :
    (∀ k v, (k, v) ∈ s.scan start [] limit maxBytes → s.get k = some v) ∧
    (s.scan start [] limit maxBytes = [] → ∀ k, (compare start k).isLE → s.get k = none) ∧
    (∀ p, (s.scan start [] limit maxBytes).getLast? = some p → ∀ k v, (compare start k).isLE →
      (compare k p.1).isLE → s.get k = some v → (k, v) ∈ s.scan start [] limit maxBytes) := by
  unfold scan
  simp only [List.length_nil, gt_iff_lt, Nat.lt_irrefl, if_false]
  generalize hL : s.db.scan (userKey start) (some [prefixKey + 1]) = L
  have hmem : ∀ k v, (userKey k, v) ∈ L ↔ s.get k = some v ∧ (compare start k).isLE := by
    intro k v
    rw [← hL, KVMap.mem_scan]
    unfold KVMap.inRange get
    rw [compare_userKey]
    have : (compare (userKey k) [prefixKey + 1]) = .lt := rfl
    simp [this]
  have huser : ∀ p ∈ L, ∃ k, p.1 = userKey k := by
    intro p hp
    rw [← hL] at hp
    exact userKey_of_inRange (KVMap.mem_scan.mp hp).2
  have hsorted : L.Pairwise fun p q => compare p.1 q.1 = .lt := hL ▸ s.db.scan_sorted _ _
  obtain ⟨n, hpage, hpos⟩ := scanLoop_eq_take limit maxBytes L 0 0
  rw [hpage]
  refine ⟨?_, ?_, ?_⟩
  · intro k v hk
    obtain ⟨p, hp, heq⟩ := List.mem_map.mp hk
    obtain ⟨key, hkey⟩ := huser p (List.mem_of_mem_take hp)
    obtain ⟨rfl, rfl⟩ := Prod.mk.inj heq
    rw [hkey]
    refine ((hmem key p.2).mp ?_).1
    rw [← hkey]
    exact List.mem_of_mem_take hp
  · intro hnil k hle
    have hL' : L = [] := by
      by_contra hne
      have := hpos hlimit hne
      rcases List.take_eq_nil_iff.mp (List.map_eq_nil_iff.mp hnil) with h | h
      · omega
      · exact hne h
    cases hget : s.get k with
    | none => rfl
    | some v =>
      have := (hmem k v).mpr ⟨hget, hle⟩
      rw [hL'] at this
      simp at this
  · intro p hp k v hstart hle hget
    rw [List.getLast?_map] at hp
    obtain ⟨q, hq, rfl⟩ := Option.map_eq_some_iff.mp hp
    have hqmem : q ∈ L.take n := List.mem_of_getLast? hq
    obtain ⟨key, hkey⟩ := huser q (List.mem_of_mem_take hqmem)
    have hk : (userKey k, v) ∈ L := (hmem k v).mpr ⟨hget, hstart⟩
    rw [← List.take_append_drop n L] at hk hsorted
    rcases List.mem_append.mp hk with hk | hk
    · exact List.mem_map.mpr ⟨_, hk, rfl⟩
    · -- behind the page: above its last key
      have hlt := (List.pairwise_append.mp hsorted).2.2 q hqmem _ hk
      rw [hkey] at hlt hle
      rw [compare_userKey] at hlt
      have hswap : compare k key = (compare key k).swap := Std.OrientedCmp.eq_swap
      change (compare k key).isLE = true at hle
      rw [hswap, hlt] at hle
      cases hle

end StateMachine

end Keystone.Kv
