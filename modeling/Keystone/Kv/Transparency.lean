/-
# Keystone.Kv.Transparency — a state machine is what its engine says it is.

The applied index, the sessions and the shard states are held twice, in memory and in the engine.
`Loaded` says that the two agree and that the engine holds nothing else in the places `load` reads; it
is kept by every branch of `Apply`, so that `load` of the engine is the machine itself
(`Loaded.load_eq`).  A restart and a snapshot carried into another machine are therefore invisible.
-/
import Keystone.Kv.StateMachine

namespace Keystone.Kv

open Keystone.Lib
open Keystone.Storage (KVMap Batch BatchOp putOp deleteOp)
open Function (update)

/-! ## Rows of the engine. -/

/-- What the state machine ever puts into its engine. -/
inductive Row : Bytes → Bytes → Prop
  | user (key value : Bytes) : Row (userKey key) value
  | session (id seq : UInt64) (result : Bytes) : Row (sessionKey id) (encodeSession seq result)
  | applied (index : UInt64) : Row appliedKey (BigEndian.putUint64 index)
  | shard (n : Nat) (state : ShardState) : Row (shardKey n) [state.toByte]

def Rows (db : KVMap) : Prop := ∀ k v, db[k]? = some v → Row k v

theorem sessionKey_injective {id id' : UInt64} (h : sessionKey id = sessionKey id') : id = id' :=
  BigEndian.putUint64_injective (List.cons.inj h).2

theorem sessionKey_ne_shardKey (id : UInt64) (n : Nat) : sessionKey id ≠ shardKey n := by
  intro h
  have : prefixSession = prefixMeta := (List.cons.inj h).1
  exact absurd this (by decide)

theorem userKey_ne_sessionKey (key : Bytes) (id : UInt64) : userKey key ≠ sessionKey id := by
  intro h
  have : prefixKey = prefixSession := (List.cons.inj h).1
  exact absurd this (by decide)

theorem userKey_ne_shardKey (key : Bytes) (n : Nat) : userKey key ≠ shardKey n := by
  intro h
  have : prefixKey = prefixMeta := (List.cons.inj h).1
  exact absurd this (by decide)

theorem userKey_ne_appliedKey (key : Bytes) : userKey key ≠ appliedKey := by
  intro h
  have : prefixKey = prefixMeta := (List.cons.inj h).1
  exact absurd this (by decide)

theorem appliedKey_ne_sessionKey (id : UInt64) : appliedKey ≠ sessionKey id := by
  intro h
  have : prefixMeta = prefixSession := (List.cons.inj h).1
  exact absurd this (by decide)

theorem appliedKey_ne_shardKey (n : Nat) : appliedKey ≠ shardKey n := by
  intro h
  have : (0x61 : UInt8) = 0x73 := (List.cons.inj (List.cons.inj h).2).1
  exact absurd this (by decide)

theorem decodeSession_encodeSession (seq : UInt64) (result : Bytes) :
    decodeSession (encodeSession seq result) = some ⟨seq, result⟩ := by
  unfold decodeSession encodeSession
  rw [BigEndian.uint64_putUint64, List.drop_left' (BigEndian.length_putUint64 seq)]
  rfl

@[simp]
theorem ShardState.ofByte_toByte (state : ShardState) : ShardState.ofByte state.toByte = state := by
  cases state <;> rfl

theorem digitByte_toNat {d : Nat} (h : d < 10) : (digitByte d).toNat - 48 = d := by
  unfold digitByte
  rw [UInt8.toNat_ofNat']
  omega

theorem digitByte_isDigit {d : Nat} (h : d < 10) :
    (decide (48 ≤ digitByte d) && decide (digitByte d < 58)) = true := by
  unfold digitByte
  have h48 : (48 : UInt8) ≤ UInt8.ofNat (48 + d) := by
    rw [UInt8.le_iff_toNat_le, UInt8.toNat_ofNat']
    change 48 ≤ _
    omega
  have h58 : UInt8.ofNat (48 + d) < 58 := by
    rw [UInt8.lt_iff_toNat_lt, UInt8.toNat_ofNat']
    change _ < 58
    omega
  rw [decide_eq_true h48, decide_eq_true h58]
  rfl

/-- The number of a shard is read back from its key. -/
theorem scanDecimal_shardKey (n : Nat) : scanDecimal ((shardKey n).drop shardSpace.length) = n := by
  have hall : ∀ b ∈ (Decimal.padded 2 n).map digitByte, (48 ≤ b && b < 58) = true := by
    intro b hb
    obtain ⟨d, hd, rfl⟩ := List.mem_map.mp hb
    exact digitByte_isDigit (Decimal.padded_lt hd)
  have hback : ((Decimal.padded 2 n).map digitByte).map (fun b => b.toNat - 48) =
      Decimal.padded 2 n := by
    rw [List.map_map]
    refine (List.map_congr_left fun d hd => ?_).trans (List.map_id _)
    exact digitByte_toNat (Decimal.padded_lt hd)
  unfold scanDecimal shardKey
  have htake : ((Decimal.padded 2 n).map digitByte).takeWhile (fun b => 48 ≤ b && b < 58) =
      (Decimal.padded 2 n).map digitByte := by
    simpa using @List.takeWhile_append_of_pos _ _ _ [] hall
  rw [List.drop_left, htake, hback, Decimal.parse_padded]

theorem shardKey_injective {n m : Nat} (h : shardKey n = shardKey m) : n = m := by
  rw [← scanDecimal_shardKey n, h, scanDecimal_shardKey]

/-! ## What the engine says. -/

def appliedOf (db : KVMap) : UInt64 := ((db[appliedKey]?).bind BigEndian.uint64).getD 0

def sessionsOf (db : KVMap) (id : UInt64) : Option Session :=
  (db[sessionKey id]?).bind decodeSession

def shardsOf (db : KVMap) (n : Nat) : Option ShardState :=
  (db[shardKey n]?).bind fun v => v.head?.map .ofByte

/-- Memory and engine agree. -/
structure Loaded (s : StateMachine) : Prop where
  rows : Rows s.db
  applied : s.applied = appliedOf s.db
  sessions : s.sessions = sessionsOf s.db
  shards : s.shards = shardsOf s.db

section Fold

variable {ι ν : Type} [DecidableEq ι] {key : ι → Bytes} {dec : Bytes → Option ν}
  {step : (ι → Option ν) → Bytes × Bytes → Option (ι → Option ν)}

/-- Reading rows back one by one into a map gives each row under its own id. -/
theorem foldlM_rows (hkey : ∀ {i j}, key i = key j → i = j)
    (hstep : ∀ f i v x, dec v = some x → step f (key i, v) = some (update f i (some x)))
    {l : List (Bytes × Bytes)} (hl : ∀ p ∈ l, ∃ i x, p.1 = key i ∧ dec p.2 = some x)
    (hdistinct : l.Pairwise fun p q => p.1 ≠ q.1) (f : ι → Option ν) :
    ∃ g, l.foldlM step f = some g ∧ (∀ i v, (key i, v) ∈ l → g i = dec v) ∧
      ∀ i, (∀ v, (key i, v) ∉ l) → g i = f i := by
  induction l generalizing f with
  | nil => exact ⟨f, rfl, by simp, fun _ _ => rfl⟩
  | cons p l ih =>
    obtain ⟨⟨i, x, hp, hx⟩, hrest⟩ := List.forall_mem_cons.mp hl
    obtain ⟨hne, hrestDistinct⟩ := List.pairwise_cons.mp hdistinct
    obtain ⟨k, v⟩ := p
    obtain rfl : k = key i := hp
    obtain ⟨g, hg, hin, hout⟩ := ih hrest hrestDistinct (update f i (some x))
    refine ⟨g, ?_, ?_, ?_⟩
    · rw [List.foldlM_cons, hstep f i v x hx]
      exact hg
    · intro j w hjw
      rcases List.mem_cons.mp hjw with heq | hmem
      · obtain ⟨hj, rfl⟩ := Prod.mk.inj heq
        obtain rfl := hkey hj
        rw [hout j fun w' hw' => hne _ hw' rfl, Function.update_self, ← hx]
      · exact hin j w hmem
    · intro j hj
      have hji : j ≠ i := by
        rintro rfl
        exact hj v (List.mem_cons_self ..)
      rw [hout j fun w hw => hj w (List.mem_cons_of_mem _ hw), Function.update_of_ne hji]

end Fold

/-! ## Loading. -/

theorem inRange_session (id : UInt64) :
    KVMap.inRange [prefixSession] (some [prefixSession + 1]) (sessionKey id) = true := by
  unfold sessionKey
  cases BigEndian.putUint64 id <;> rfl

theorem inRange_shard (n : Nat) :
    KVMap.inRange shardSpace (some shardSpaceEnd) (shardKey n) = true := by
  unfold shardKey
  cases (Decimal.padded 2 n).map digitByte <;> rfl

/-- Only session rows lie where `load` looks for sessions. -/
theorem Row.session_of_inRange {k v : Bytes} (h : Row k v)
    (hr : KVMap.inRange [prefixSession] (some [prefixSession + 1]) k = true) :
    ∃ id sess, k = sessionKey id ∧ decodeSession v = some sess := by
  cases h with
  | user key value => exact (Bool.false_ne_true hr).elim
  | session id seq result => exact ⟨id, _, rfl, decodeSession_encodeSession seq result⟩
  | applied index => exact (Bool.false_ne_true hr).elim
  | shard n state => exact (Bool.false_ne_true hr).elim

theorem Row.shard_of_inRange {k v : Bytes} (h : Row k v)
    (hr : KVMap.inRange shardSpace (some shardSpaceEnd) k = true) :
    ∃ n state, k = shardKey n ∧ v.head?.map ShardState.ofByte = some state := by
  cases h with
  | user key value => exact (Bool.false_ne_true hr).elim
  | session id seq result => exact (Bool.false_ne_true hr).elim
  | applied index => exact (Bool.false_ne_true hr).elim
  | shard n state => exact ⟨n, state, rfl, by simp⟩

theorem Row.applied_of_key {v : Bytes} (h : Row appliedKey v) :
    ∃ index, v = BigEndian.putUint64 index := by
  generalize hk : appliedKey = k at h
  cases h with
  | user key value => exact absurd hk.symm (userKey_ne_appliedKey key)
  | session id seq result => exact absurd hk (appliedKey_ne_sessionKey id)
  | applied index => exact ⟨index, rfl⟩
  | shard n state => exact absurd hk (appliedKey_ne_shardKey n)

theorem scan_distinct (db : KVMap) (start : Bytes) (stop : Option Bytes) :
    (db.scan start stop).Pairwise fun p q => p.1 ≠ q.1 := by
  refine (db.scan_sorted start stop).imp ?_
  intro p q hlt heq
  rw [heq, Std.ReflOrd.compare_self] at hlt
  cases hlt

/-- A map read back from a range of rows. -/
theorem rows_of_scan {ι ν : Type} {key : ι → Bytes} (dec : Bytes → Option ν) {db : KVMap}
    {start : Bytes} {stop : Option Bytes} (hin : ∀ i, KVMap.inRange start stop (key i) = true)
    {g : ι → Option ν} (hmem : ∀ i v, (key i, v) ∈ db.scan start stop → g i = dec v)
    (hnot : ∀ i, (∀ v, (key i, v) ∉ db.scan start stop) → g i = none) :
    g = fun i => (db[key i]?).bind dec := by
  funext i
  cases hv : db[key i]? with
  | none =>
    refine hnot i fun v hmem => ?_
    rw [KVMap.mem_scan, hv] at hmem
    exact absurd hmem.1 (by simp)
  | some v => exact hmem i v (KVMap.mem_scan.mpr ⟨hv, hin i⟩)

theorem load_sessions {db : KVMap} (h : Rows db) :
    (db.scan [prefixSession] (some [prefixSession + 1])).foldlM StateMachine.loadSession
      (fun _ => none) = some (sessionsOf db) := by
  have hstep : ∀ (f : UInt64 → Option Session) id v sess, decodeSession v = some sess →
      StateMachine.loadSession f (sessionKey id, v) = some (update f id (some sess)) := by
    intro f id v sess hv
    have hid : BigEndian.uint64 ((sessionKey id).drop 1) = some id := by
      simpa [sessionKey] using BigEndian.uint64_putUint64 id []
    unfold StateMachine.loadSession
    rw [hid, hv]
    rfl
  obtain ⟨g, hg, hmem, hnot⟩ := foldlM_rows sessionKey_injective hstep
    (l := db.scan [prefixSession] (some [prefixSession + 1]))
    (fun p hp => (h p.1 p.2 (KVMap.mem_scan.mp hp).1).session_of_inRange (KVMap.mem_scan.mp hp).2)
    (scan_distinct ..) fun _ => none
  rw [hg, rows_of_scan decodeSession inRange_session hmem hnot]
  rfl

theorem load_shards {db : KVMap} (h : Rows db) :
    (db.scan shardSpace (some shardSpaceEnd)).foldlM StateMachine.loadShard (fun _ => none) =
      some (shardsOf db) := by
  have hstep : ∀ (f : Nat → Option ShardState) n v state, v.head?.map ShardState.ofByte = some state →
      StateMachine.loadShard f (shardKey n, v) = some (update f n (some state)) := by
    intro f n v state hv
    obtain ⟨b, hb, rfl⟩ := Option.map_eq_some_iff.mp hv
    simp [StateMachine.loadShard, scanDecimal_shardKey, hb]
  obtain ⟨g, hg, hmem, hnot⟩ := foldlM_rows shardKey_injective hstep
    (l := db.scan shardSpace (some shardSpaceEnd))
    (fun p hp => (h p.1 p.2 (KVMap.mem_scan.mp hp).1).shard_of_inRange (KVMap.mem_scan.mp hp).2)
    (scan_distinct ..) fun _ => none
  rw [hg, rows_of_scan (fun v => v.head?.map .ofByte) inRange_shard hmem hnot]
  rfl

/-- LOADING gives back the machine, all of it. -/
theorem Loaded.load_eq {s : StateMachine} (h : Loaded s) : StateMachine.load s.db = some s := by
  have happlied := h.applied
  unfold appliedOf at happlied
  unfold StateMachine.load
  simp only [load_sessions h.rows, load_shards h.rows, Option.bind_eq_bind, Option.bind_some,
    Option.pure_def, ← h.sessions, ← h.shards]
  cases hv : s.db[appliedKey]? with
  | none =>
    rw [hv] at happlied
    cases s
    cases happlied
    rfl
  | some v =>
    obtain ⟨index, rfl⟩ := (h.rows _ _ hv).applied_of_key
    have hindex : BigEndian.uint64 (BigEndian.putUint64 index) = some index := by
      simpa using BigEndian.uint64_putUint64 index []
    rw [hv, Option.bind_some, hindex] at happlied
    cases s
    cases happlied
    simp [hindex]

/-! ## What each kind of op does to the two copies. -/

theorem rows_put {db : KVMap} (h : Rows db) {k v : Bytes} (hrow : Row k v) :
    Rows (db.write [putOp k v]) := by
  intro k' v' hk'
  rw [KVMap.write_cons, KVMap.write_nil, KVMap.getElem?_put] at hk'
  split at hk'
  · next heq =>
    obtain rfl := heq
    exact Option.some.inj hk' ▸ hrow
  · exact h k' v' hk'

namespace Loaded

variable {s : StateMachine} (h : Loaded s)

include h

/-- Ops on user keys leave the rest of the engine alone. -/
theorem write_user {batch : Batch} (hb : ∀ op ∈ batch, ∃ key, op.key = userKey key) :
    Loaded { s with db := s.db.write batch } := by
  have hkeep : ∀ k, (∀ key, userKey key ≠ k) → (s.db.write batch)[k]? = s.db[k]? := by
    intro k hk
    refine KVMap.getElem?_write_of_not_mem fun op hop heq => ?_
    obtain ⟨key, hkey⟩ := hb op hop
    exact hk key (hkey.symm.trans heq)
  refine ⟨?_, ?_, ?_, ?_⟩
  · intro k v hv
    by_cases hk : ∃ key, userKey key = k
    · obtain ⟨key, rfl⟩ := hk
      exact .user key v
    · exact h.rows k v (hkeep k (not_exists.mp hk) ▸ hv)
  · rw [h.applied, appliedOf, appliedOf, hkeep _ userKey_ne_appliedKey]
  · funext id
    rw [h.sessions, sessionsOf, sessionsOf, hkeep _ fun key => userKey_ne_sessionKey key id]
  · funext n
    rw [h.shards, shardsOf, shardsOf, hkeep _ fun key => userKey_ne_shardKey key n]

theorem set_shard (n : Nat) (state : ShardState) :
    Loaded { s with
      db := s.db.write [putOp (shardKey n) [state.toByte]]
      shards := update s.shards n (some state) } := by
  refine ⟨rows_put h.rows (.shard n state), ?_, ?_, ?_⟩
  · simp [h.applied, appliedOf, KVMap.getElem?_put, (appliedKey_ne_shardKey n).symm]
  · funext id
    simp [h.sessions, sessionsOf, KVMap.getElem?_put, (sessionKey_ne_shardKey id n).symm]
  · funext m
    by_cases hm : m = n
    · subst hm
      simp [shardsOf, KVMap.getElem?_put]
    · have hne : shardKey n ≠ shardKey m := fun heq => hm (shardKey_injective heq).symm
      simp [h.shards, shardsOf, KVMap.getElem?_put, hm, hne]

theorem set_session (id seq : UInt64) (result : Bytes) :
    Loaded { s with
      db := s.db.write [putOp (sessionKey id) (encodeSession seq result)]
      sessions := update s.sessions id (some ⟨seq, result⟩) } := by
  refine ⟨rows_put h.rows (.session id seq result), ?_, ?_, ?_⟩
  · simp [h.applied, appliedOf, KVMap.getElem?_put, (appliedKey_ne_sessionKey id).symm]
  · funext id'
    by_cases hid : id' = id
    · subst hid
      simp [sessionsOf, KVMap.getElem?_put, decodeSession_encodeSession]
    · have hne : sessionKey id ≠ sessionKey id' := fun heq => hid (sessionKey_injective heq).symm
      simp [h.sessions, sessionsOf, KVMap.getElem?_put, hid, hne]
  · funext n
    simp [h.shards, shardsOf, KVMap.getElem?_put, sessionKey_ne_shardKey id n]

theorem set_applied (index : UInt64) :
    Loaded { s with
      db := s.db.write [putOp appliedKey (BigEndian.putUint64 index)]
      applied := index } := by
  have hindex : BigEndian.uint64 (BigEndian.putUint64 index) = some index := by
    simpa using BigEndian.uint64_putUint64 index []
  refine ⟨rows_put h.rows (.applied index), ?_, ?_, ?_⟩
  · simp [appliedOf, KVMap.getElem?_put, hindex]
  · funext id
    simp [h.sessions, sessionsOf, KVMap.getElem?_put, appliedKey_ne_sessionKey id]
  · funext n
    simp [h.shards, shardsOf, KVMap.getElem?_put, appliedKey_ne_shardKey n]

end Loaded

/-! ## `Apply` keeps the copies in step. -/

namespace StateMachine

/-- The machine with the effect of a command, before its session and its index are recorded. -/
def after (s : StateMachine) (x : Effect) : StateMachine :=
  { s with db := s.db.write x.batch, shards := x.shards }

theorem loaded_setShard {s : StateMachine} {x : Effect} (h : Loaded (s.after x)) (n : Nat)
    (state : ShardState) : Loaded (s.after (x.setShard n state)) := by
  have := h.set_shard n state
  unfold after Effect.setShard
  rw [KVMap.write_append]
  exact this

theorem loaded_user {s : StateMachine} (h : Loaded s) (res : Result) {batch : Batch}
    (hb : ∀ op ∈ batch, ∃ key, op.key = userKey key) : Loaded (s.after ⟨res, batch, s.shards⟩) :=
  h.write_user hb

/-- The keys `Purge` deletes are user keys. -/
theorem mem_shardKeys {s : StateMachine} (h : Rows s.db) {n : Nat} {k : Bytes}
    (hk : k ∈ s.shardKeys n) : ∃ key, k = userKey key := by
  unfold shardKeys at hk
  obtain ⟨hk, -⟩ := List.mem_filter.mp hk
  obtain ⟨⟨k, v⟩, hp, rfl⟩ := List.mem_map.mp hk
  obtain ⟨hv, hr⟩ := KVMap.mem_scan.mp hp
  cases h k v hv with
  | user key value => exact ⟨key, rfl⟩
  | session id seq result => exact (Bool.false_ne_true hr).elim
  | applied index => exact (Bool.false_ne_true hr).elim
  | shard n state => exact (Bool.false_ne_true hr).elim

theorem loaded_execute {s : StateMachine} (h : Loaded s) (op : Op) (index : UInt64) :
    Loaded (s.after (s.execute op index)) := by
  have hquiet : ∀ res, Loaded (s.after ⟨res, [], s.shards⟩) := fun res =>
    loaded_user h res (by simp)
  have hone : ∀ res op key, op.key = userKey key → Loaded (s.after ⟨res, [op], s.shards⟩) := by
    intro res op key hkey
    refine loaded_user h res fun op' hop => ⟨key, ?_⟩
    rw [List.mem_singleton.mp hop, hkey]
  unfold execute
  cases op with
  | none => exact hquiet _
  | register => exact hquiet _
  | put key value =>
    dsimp only
    split
    · exact hone _ _ key rfl
    · exact hquiet _
  | delete key =>
    dsimp only
    split
    · exact hone _ _ key rfl
    · exact hquiet _
  | cas key expected value =>
    dsimp only
    split
    · split
      · exact hone _ _ key rfl
      · exact hquiet _
    · exact hquiet _
  | get key =>
    dsimp only
    split
    · exact hquiet _
    · exact hquiet _
  | scan start stop limit maxBytes => exact hquiet _
  | freeze n =>
    dsimp only
    split
    · exact hquiet _
    · exact loaded_setShard (hquiet _) n _
  | importOp n kvs last =>
    have himport : Loaded (s.after
        ⟨{ success := true }, kvs.map fun p => putOp (userKey p.1) p.2, s.shards⟩) := by
      refine loaded_user h _ fun op hop => ?_
      obtain ⟨p, -, rfl⟩ := List.mem_map.mp hop
      exact ⟨p.1, rfl⟩
    dsimp only
    split
    · exact hquiet _
    · exact hquiet _
    · split
      · exact loaded_setShard himport n _
      · exact himport
  | purge n =>
    refine loaded_setShard (loaded_user h _ fun op hop => ?_) n _
    obtain ⟨k, hk, rfl⟩ := List.mem_map.mp hop
    exact mem_shardKeys h.rows hk

theorem loaded_sessions {s : StateMachine} (h : Loaded s) (cmd : Command) (res : Result)
    (result : Bytes) :
    Loaded { s with
      db := s.db.write (sessionOps cmd res result)
      sessions := setSessions s.sessions cmd res result } := by
  unfold sessionOps setSessions
  rw [KVMap.write_append]
  -- the row of the client first, then the one a Register opens
  have hown : Loaded { s with
      db := s.db.write (if cmd.clientId ≠ 0 then
        [putOp (sessionKey cmd.clientId) (encodeSession cmd.seq result)] else [])
      sessions := if cmd.clientId ≠ 0 then
        update s.sessions cmd.clientId (some ⟨cmd.seq, result⟩) else s.sessions } := by
    split
    · exact h.set_session cmd.clientId cmd.seq result
    · exact h
  by_cases hissued : res.clientId ≠ 0
  · simp only [if_pos hissued]
    exact hown.set_session res.clientId 0 []
  · simp only [if_neg hissued]
    exact hown

/-- STEP.  Whatever the command, memory and engine agree afterwards. -/
theorem loaded_applyCommand {s : StateMachine} (h : Loaded s) (c : Codec) (cmd : Command)
    (index : UInt64) : Loaded (s.applyCommand c cmd index).1 := by
  unfold applyCommand
  split
  · exact h.set_applied index
  · have := (loaded_sessions (loaded_execute h cmd.op index) cmd (s.execute cmd.op index).res
      (c.marshal (s.execute cmd.op index).res)).set_applied index
    dsimp only
    rw [KVMap.write_append, KVMap.write_append]
    exact this

theorem loaded_apply {s s' : StateMachine} {c : Codec} {e : Entry} {result : Bytes} (h : Loaded s)
    (happly : s.apply c e = some (s', result)) : Loaded s' := by
  unfold apply at happly
  obtain ⟨cmd, -, heq⟩ := Option.map_eq_some_iff.mp happly
  have := loaded_applyCommand h c cmd e.index
  rw [heq] at this
  exact this

theorem loaded_empty : Loaded {} := by
  refine ⟨?_, rfl, rfl, rfl⟩
  intro k v hv
  simp at hv

/-! ## Whole logs. -/

/-- Everything a client can ask of a machine outside the log. -/
structure View where
  lastApplied : UInt64
  get : Bytes → Option (Option Bytes)
  scan : (start stop : Bytes) → (limit maxBytes : Nat) → List (Bytes × Bytes)

def view (s : StateMachine) : View := ⟨s.applied, s.getRead, s.scan⟩

/-- A log applied entry by entry: the machine it ends in, and after each entry its result and what
could be asked then. -/
def applyAll (c : Codec) : StateMachine → List Entry → Option (StateMachine × List (Bytes × View))
  | s, [] => some (s, [])
  | s, e :: es => do
    let (s', result) ← s.apply c e
    let (s'', answers) ← applyAll c s' es
    return (s'', (result, s'.view) :: answers)

/-- `es₁`, then `again` turns the machine into another one, then `es₂`. -/
def applyInterrupted (c : Codec) (s : StateMachine) (es₁ es₂ : List Entry)
    (again : StateMachine → Option StateMachine) : Option (StateMachine × List (Bytes × View)) := do
  let (s₁, answers₁) ← applyAll c s es₁
  let s₁' ← again s₁
  let (s₂, answers₂) ← applyAll c s₁' es₂
  return (s₂, answers₁ ++ answers₂)

theorem loaded_applyAll {c : Codec} {es : List Entry} {s s' : StateMachine}
    {answers : List (Bytes × View)} (h : Loaded s) (hall : applyAll c s es = some (s', answers)) :
    Loaded s' := by
  induction es generalizing s answers with
  | nil =>
    obtain ⟨rfl, -⟩ := Prod.mk.inj (Option.some.inj hall)
    exact h
  | cons e es ih =>
    simp only [applyAll, Option.bind_eq_bind, Option.bind_eq_some_iff] at hall
    obtain ⟨⟨s₁, result⟩, happly, ⟨s₂, rest⟩, hrest, heq⟩ := hall
    obtain ⟨rfl, -⟩ := Prod.mk.inj (Option.some.inj heq)
    exact ih (loaded_apply h happly) hrest

theorem applyAll_append (c : Codec) (s : StateMachine) (es₁ es₂ : List Entry) :
    applyAll c s (es₁ ++ es₂) = applyInterrupted c s es₁ es₂ some := by
  induction es₁ generalizing s with
  | nil => simp [applyAll, applyInterrupted]
  | cons e es ih =>
    simp only [List.cons_append, applyAll, applyInterrupted, ih, Option.bind_eq_bind,
      Option.bind_assoc, Option.pure_def, Option.bind_some, List.cons_append]

/-- An interruption that gives a loaded machine back is not seen. -/
theorem applyInterrupted_of_again {c : Codec} {s : StateMachine} (h : Loaded s)
    (es₁ es₂ : List Entry) {again : StateMachine → Option StateMachine}
    (hagain : ∀ s', Loaded s' → again s' = some s') :
    applyInterrupted c s es₁ es₂ again = applyAll c s (es₁ ++ es₂) := by
  rw [applyAll_append]
  unfold applyInterrupted
  cases hall : applyAll c s es₁ with
  | none => rfl
  | some p =>
    obtain ⟨s₁, answers⟩ := p
    simp [hagain s₁ (loaded_applyAll h hall)]

theorem restore_snapshot {s : StateMachine} (h : Loaded s) (t : StateMachine) :
    t.restore s.snapshot = some s := h.load_eq

/-- A replica that got to the end of a log by some mixture of replay, restarts and snapshots of other
replicas. -/
inductive Reaches (c : Codec) : List Entry → StateMachine → Prop
  | start : Reaches c [] {}
  | apply {log : List Entry} {s s' : StateMachine} {e : Entry} {result : Bytes} :
      Reaches c log s → s.apply c e = some (s', result) → Reaches c (log ++ [e]) s'
  | reload {log : List Entry} {s s' : StateMachine} :
      Reaches c log s → load s.db = some s' → Reaches c log s'
  | restore {log log' : List Entry} {s t t' : StateMachine} :
      Reaches c log s → Reaches c log' t → t.restore s.snapshot = some t' → Reaches c log t'

/-- RUN.  Every mixture ends where the plain replay of the log does. -/
theorem Reaches.applyAll_eq {c : Codec} {log : List Entry} {s : StateMachine}
    (h : Reaches c log s) : ∃ answers, applyAll c {} log = some (s, answers) := by
  induction h with
  | start => exact ⟨[], rfl⟩
  | @apply log s s' e result _ happly ih =>
    obtain ⟨answers, ih⟩ := ih
    refine ⟨answers ++ [(result, s'.view)], ?_⟩
    rw [applyAll_append]
    simp [applyInterrupted, ih, applyAll, happly]
  | reload _ hload ih =>
    obtain ⟨answers, ih⟩ := ih
    rw [(loaded_applyAll loaded_empty ih).load_eq] at hload
    exact ⟨answers, Option.some.inj hload ▸ ih⟩
  | restore _ _ hrestore ih _ =>
    obtain ⟨answers, ih⟩ := ih
    rw [restore_snapshot (loaded_applyAll loaded_empty ih)] at hrestore
    exact ⟨answers, Option.some.inj hrestore ▸ ih⟩

/-- TRANSPARENCY.  After `es₁`, a restart or a snapshot restored into any machine `t` changes nothing of
what `es₂` answers, entry by entry, nor of what can be read after each entry; and two replicas at the
end of one log, however they got there, answer every question alike. -/
theorem restart_snapshot_transparent (c : Codec) (es₁ es₂ : List Entry) (t : StateMachine) :
    applyInterrupted c {} es₁ es₂ (fun s => load s.db) = applyAll c {} (es₁ ++ es₂) ∧
    applyInterrupted c {} es₁ es₂ (fun s => t.restore s.snapshot) = applyAll c {} (es₁ ++ es₂) ∧
    ∀ s s', Reaches c es₁ s → Reaches c es₁ s' → s.view = s'.view := by
  refine ⟨?_, ?_, ?_⟩
  · exact applyInterrupted_of_again loaded_empty es₁ es₂ fun s h => h.load_eq
  · exact applyInterrupted_of_again loaded_empty es₁ es₂ fun s h => h.load_eq
  · intro s s' hs hs'
    obtain ⟨answers, h⟩ := hs.applyAll_eq
    obtain ⟨answers', h'⟩ := hs'.applyAll_eq
    rw [h] at h'
    rw [(Prod.mk.inj (Option.some.inj h')).1]

/-- A Register and a Put with the session it issued, replayed by one replica and carried to another by a
snapshot after the first entry. -/
theorem restart_snapshot_transparent_register_put :
    let c := tableCodec [⟨0, 0, .register⟩, ⟨1, 1, .put [0x61] [0x62]⟩]
    ∃ s s', Reaches c [⟨1, [0]⟩, ⟨2, [1]⟩] s ∧ Reaches c [⟨1, [0]⟩, ⟨2, [1]⟩] s' ∧
      s.view = s'.view ∧ s.getRead [0x61] = some (some [0x62]) := by
  intro c
  have hfirst : Reaches c [⟨1, [0]⟩] (applyCommand c {} ⟨0, 0, .register⟩ 1).1 :=
    .apply .start rfl
  have hcarried : Reaches c [⟨1, [0]⟩] (applyCommand c {} ⟨0, 0, .register⟩ 1).1 :=
    .restore hfirst .start (restore_snapshot (loaded_applyCommand loaded_empty ..) _)
  have hput : ∀ s, Reaches c [⟨1, [0]⟩] s → Reaches c [⟨1, [0]⟩, ⟨2, [1]⟩]
      (applyCommand c s ⟨1, 1, .put [0x61] [0x62]⟩ 2).1 := fun s h => .apply h rfl
  refine ⟨_, _, hput _ hfirst, hput _ hcarried, ?_, by decide +kernel⟩
  exact (restart_snapshot_transparent c _ [] {}).2.2 _ _ (hput _ hfirst) (hput _ hcarried)

end StateMachine

end Keystone.Kv
