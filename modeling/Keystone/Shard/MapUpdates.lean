/-
# Keystone.Shard.MapUpdates — which updates of the shard map survive.

`MoveShard` builds its new map from the map its own `reload` decoded, and the bytes it expects to replace
from the router's shared cache.  Where the two belong together, every compare-and-swap it ever sends asks
for a change of its own shard only (`CasOK`), and then it does not matter when and how often the meta
group applies it.  Where another process refreshed the cache in between, the swap takes that process's
update back (`mark_erased`).
-/
import Keystone.Shard.Router
import Keystone.Lib.BigEndian

namespace Keystone.Shard

open Keystone.Lib
open Keystone.Kv (Bytes)
open Function (update)

/-! ## Reading maps. -/

def Balanced (m : ShardMap) : Prop := m.moving.length = m.groups.length

namespace MapCodec

variable {c : MapCodec}

theorem balanced_of_read {raw : Bytes} {m : ShardMap} (h : c.read raw = some m) : Balanced m := by
  unfold read at h
  obtain ⟨sm, -, rfl⟩ := Option.map_eq_some_iff.mp h
  unfold Balanced
  split
  · simp
  · next hlen => exact not_not.mp hlen

theorem read_marshal {m : ShardMap} (h : Balanced m) : c.read (c.marshal m) = some m := by
  unfold read
  unfold Balanced at h
  rw [c.unmarshal_marshal]
  simp [h]

end MapCodec

/-! ## What a swap may ask for. -/

/-- The change of one swap of a move. -/
def Turns (mv : Move) (m m' : ShardMap) : Swap → Prop
  | .mark => m.moving[mv.shard]? = some 0 ∧
      m' = { m with moving := m.moving.set mv.shard mv.group }
  | .flip => m.moving[mv.shard]? = some mv.group ∧
      m' = ⟨m.groups.set mv.shard mv.group, m.moving.set mv.shard 0⟩

/-- Two maps agree on every shard but `s`. -/
def AgreeBut (s : Nat) (m m' : ShardMap) : Prop :=
  ∀ t, t ≠ s → m'.groups[t]? = m.groups[t]? ∧ m'.moving[t]? = m.moving[t]?

theorem Turns.agreeBut {mv : Move} {m m' : ShardMap} {swap : Swap} (h : Turns mv m m' swap) :
    AgreeBut mv.shard m m' := by
  intro t ht
  cases swap with
  | mark =>
    obtain ⟨-, rfl⟩ := h
    exact ⟨rfl, List.getElem?_set_ne ht.symm⟩
  | flip =>
    obtain ⟨-, rfl⟩ := h
    exact ⟨List.getElem?_set_ne ht.symm, List.getElem?_set_ne ht.symm⟩

/-- A mark goes away only in the flip of its own move. -/
theorem Turns.cleared {mv : Move} {m m' : ShardMap} {swap : Swap} (h : Turns mv m m' swap) {t : Nat}
    {g : UInt64} (hmark : m.moving[t]? = some g) (hg : g ≠ 0) (hclear : m'.moving[t]? = some 0) :
    swap = .flip ∧ t = mv.shard ∧ g = mv.group := by
  have ht : t = mv.shard := by
    by_contra hne
    rw [(h.agreeBut t hne).2, hmark] at hclear
    exact hg (Option.some.inj hclear)
  subst ht
  cases swap with
  | mark =>
    rw [h.1] at hmark
    exact absurd (Option.some.inj hmark).symm hg
  | flip =>
    rw [h.1] at hmark
    exact ⟨rfl, rfl, (Option.some.inj hmark).symm⟩

/-- A compare-and-swap that changes no more than it should, whenever it is applied. -/
def CasOK (c : MapCodec) (cas : Cas) : Prop :=
  ∀ old, cas.expected = some old → ∃ mv swap m m', cas.origin = some (mv, swap) ∧
    c.read old = some m ∧ c.read cas.data = some m' ∧ Turns mv m m' swap

/-! ## The invariant. -/

/-- What a process knows about the maps it holds. -/
def PcOK (c : MapCodec) : Pc → Prop
  | .fetched _ _ raw m | .loaded _ raw m => c.read raw = some m
  | .swapping mv m cas .mark => cas.data = c.marshal m ∧ Balanced m ∧
      m.moving[mv.shard]? = some mv.group
  | .swapped mv m data .mark => data = c.marshal m ∧ Balanced m ∧ m.moving[mv.shard]? = some mv.group
  | .marked mv m marked => c.read marked = some m ∧ m.moving[mv.shard]? = some mv.group
  | _ => True

structure MapsOK (c : MapCodec) (w : World) : Prop where
  pcs : ∀ p, PcOK c (w.pc p)
  sent : ∀ cas ∈ w.sent, CasOK c cas

/-- `MoveShard` goes on with this map: the shard is elsewhere, and marked for no other group. -/
def Move.GoesOn (mv : Move) (m : ShardMap) : Prop :=
  m.groups[mv.shard]? ≠ some mv.group ∧
    (m.moving[mv.shard]? = some 0 ∨ m.moving[mv.shard]? = some mv.group)

instance (mv : Move) (m : ShardMap) : Decidable (mv.GoesOn m) := by
  unfold Move.GoesOn
  infer_instance

/-- The condition: when `MoveShard` reads the cache, it still holds the bytes its own map came from. -/
def CacheIsOwn (w : World) : Action → Prop
  | .pick p =>
    match w.pc p with
    | .loaded mv raw m => mv.GoesOn m → w.raw mv.router = raw
    | _ => True
  | _ => True

instance (w : World) (a : Action) : Decidable (CacheIsOwn w a) := by
  unfold CacheIsOwn
  split
  · split <;> infer_instance
  · infer_instance

namespace MapsOK

variable {c : MapCodec} {w : World} (h : MapsOK c w)

include h

/-- A process moves on; the caches do not matter. -/
theorem goto (p : Nat) (pc : Pc) (hpc : PcOK c pc) (raw : Nat → Bytes) :
    MapsOK c { w.goto p pc with raw := raw } := by
  refine ⟨fun q => ?_, h.sent⟩
  unfold World.goto
  by_cases hq : q = p
  · subst hq
    simpa using hpc
  · simpa [Function.update_of_ne hq] using h.pcs q

theorem send (p : Nat) (pc : Pc) {cas : Cas} (hpc : PcOK c pc) (hcas : CasOK c cas) :
    MapsOK c { w.goto p pc with sent := w.sent ++ [cas] } := by
  refine ⟨(h.goto p pc hpc w.raw).pcs, fun cas' hcas' => ?_⟩
  rcases List.mem_append.mp hcas' with hold | hnew
  · exact h.sent cas' hold
  · exact List.mem_singleton.mp hnew ▸ hcas

/-- `swapMap` from a map that was read from the expected bytes. -/
theorem swapMap {p : Nat} {mv : Move} {swap : Swap} {expected : Bytes} {m m' : ShardMap}
    (hread : c.read expected = some m) (hturns : Turns mv m m' swap) (hbalanced : Balanced m')
    (hmark : swap = .mark → m'.moving[mv.shard]? = some mv.group) :
    MapsOK c (w.swapMap c p mv swap expected m') := by
  refine h.send p _ ?_ ?_
  · cases swap with
    | mark => exact ⟨rfl, hbalanced, hmark rfl⟩
    | flip => trivial
  · intro old hold
    have hexpected : expected = old := by
      unfold expectedOf at hold
      split at hold
      · cases hold
      · exact Option.some.inj hold
    subst hexpected
    exact ⟨mv, swap, m, m', rfl, hread, MapCodec.read_marshal hbalanced, hturns⟩

theorem pick {p : Nat} {mv : Move} {raw : Bytes} {m : ShardMap} {w' : World}
    (hread : c.read raw = some m) (hcache : mv.GoesOn m → w.raw mv.router = raw)
    (hpick : w.pick c p mv m = some w') : MapsOK c w' := by
  unfold World.pick at hpick
  simp only [Option.bind_eq_bind, Option.bind_eq_some_iff] at hpick
  obtain ⟨src, hsrc, mark, hmark, hpick⟩ := hpick
  split at hpick
  · exact Option.some.inj hpick ▸ h.goto p .idle trivial w.raw
  next helsewhere =>
  split at hpick
  · exact Option.some.inj hpick ▸ h.goto p .idle trivial w.raw
  · next hother =>
    have hgoes : mv.GoesOn m := by
      refine ⟨fun hthere => helsewhere (Option.some.inj (hsrc.symm.trans hthere)), ?_⟩
      rw [hmark]
      by_cases hzero : mark = 0
      · exact .inl (congrArg some hzero)
      · exact .inr (congrArg some (not_not.mp fun hne => hother ⟨hzero, hne⟩))
    rw [hcache hgoes] at hpick
    split at hpick
    · next hzero =>
      subst hzero
      obtain ⟨hlt, -⟩ := List.getElem?_eq_some_iff.mp hmark
      refine Option.some.inj hpick ▸ h.swapMap hread ⟨hmark, rfl⟩ ?_ fun _ => ?_
      · have := MapCodec.balanced_of_read hread
        unfold Balanced at this ⊢
        simpa using this
      · exact List.getElem?_set_self hlt
    · next hnonzero =>
      have hgroup : mark = mv.group := by
        by_contra hne
        exact hother ⟨hnonzero, hne⟩
      subst hgroup
      exact Option.some.inj hpick ▸ h.goto p (.marked mv m _) ⟨hread, hmark⟩ w.raw

theorem carry {p : Nat} {mv : Move} {m : ShardMap} {marked : Bytes} (hread : c.read marked = some m)
    (hmark : m.moving[mv.shard]? = some mv.group) :
    MapsOK c (w.swapMap c p mv .flip marked
      ⟨m.groups.set mv.shard mv.group, m.moving.set mv.shard 0⟩) := by
  refine h.swapMap hread ⟨hmark, rfl⟩ ?_ (by simp)
  have := MapCodec.balanced_of_read hread
  unfold Balanced at this ⊢
  simpa using this

/-- Applying a compare-and-swap changes what is stored as the request says. -/
theorem applyCas (cas : Cas) :
    MapsOK c (w.applyCas cas).1 ∧ ∀ x ∈ (w.applyCas cas).2, ∀ old, x.old = some old →
      x.cas = cas ∧ cas.expected = some old := by
  unfold World.applyCas
  split
  · next hholds =>
    refine ⟨⟨h.pcs, h.sent⟩, fun x hx old hold => ?_⟩
    obtain rfl := List.mem_singleton.mp hx
    refine ⟨rfl, ?_⟩
    have hstored : w.stored = some old := hold
    unfold Kv.StateMachine.casHolds at hholds
    rw [hstored] at hholds
    split at hholds
    · next heq => cases heq
    · next e v hexp heq =>
      cases heq
      rw [hexp, of_decide_eq_true hholds]
    · cases hholds
  · exact ⟨h, by simp⟩

end MapsOK

/-- What a successful swap did to the stored map. -/
def SwapOK (c : MapCodec) (x : Swapped) : Prop :=
  ∀ old, x.old = some old → ∃ mv swap m m', x.cas.origin = some (mv, swap) ∧
    c.read old = some m ∧ c.read x.cas.data = some m' ∧ Turns mv m m' swap

/-- STEP.  Every action keeps the invariant, and every swap it shows was one of a single shard. -/
theorem mapsOK_exec {c : MapCodec} {config : Nat → List UInt64} {w w' : World} {a : Action}
    {xs : List Swapped} (h : MapsOK c w) (hC : CacheIsOwn w a)
    (hexec : (routers c config).exec w a = some (w', xs)) :
    MapsOK c w' ∧ ∀ x ∈ xs, SwapOK c x := by
  -- all actions but `apply` show nothing
  have quiet : ∀ {w₁ : World}, MapsOK c w₁ → some (w₁, []) = some (w', xs) →
      MapsOK c w' ∧ ∀ x ∈ xs, SwapOK c x := by
    intro w₁ h₁ heq
    obtain ⟨rfl, rfl⟩ := Prod.mk.inj (Option.some.inj heq)
    exact ⟨h₁, by simp⟩
  cases a with
  | reload p router =>
    simp only [routers] at hexec
    split at hexec
    · exact quiet (h.goto p (.reading router none) trivial w.raw) hexec
    · cases hexec
  | moveShard p mv =>
    simp only [routers] at hexec
    split at hexec
    · split at hexec
      · exact quiet (h.goto p (.reading mv.router (some mv)) trivial w.raw) hexec
      · cases hexec
    · cases hexec
  | get p =>
    simp only [routers] at hexec
    split at hexec
    · next router next hpc =>
      split at hexec
      · next raw hstored =>
        split at hexec
        · next m hread => exact quiet (h.goto p (.fetched router next raw m) hread w.raw) hexec
        · exact quiet (h.goto p .idle trivial w.raw) hexec
      · refine quiet (h.send p (.seeding router next) trivial ?_) hexec
        intro old hold
        cases hold
    · cases hexec
  | install p =>
    have hpcs := h.pcs p
    simp only [routers] at hexec
    split at hexec
    · next router next raw m hpc =>
      rw [hpc] at hpcs
      cases next with
      | none => exact quiet (h.goto p .idle trivial _) hexec
      | some mv => exact quiet (h.goto p (.loaded mv raw m) hpcs _) hexec
    · cases hexec
  | pick p =>
    have hpcs := h.pcs p
    simp only [routers, CacheIsOwn] at hexec hC
    split at hexec
    · next mv raw m hpc =>
      rw [hpc] at hpcs hC
      obtain ⟨w₁, hpick, heq⟩ := Option.map_eq_some_iff.mp hexec
      exact quiet (h.pick hpcs hC hpick) (congrArg some heq)
    · cases hexec
  | apply i =>
    obtain ⟨cas, hcas, heq⟩ := Option.map_eq_some_iff.mp hexec
    have hok := h.sent cas (List.mem_of_getElem? hcas)
    obtain ⟨h', hxs⟩ := h.applyCas cas
    rw [heq] at h' hxs
    refine ⟨h', fun x hx old hold => ?_⟩
    obtain ⟨rfl, hexpected⟩ := hxs x hx old hold
    exact hok old hexpected
  | answer p success =>
    have hpcs := h.pcs p
    simp only [routers] at hexec
    split at hexec
    · next router next hpc => exact quiet (h.goto p (.reading router next) trivial w.raw) hexec
    · next mv m cas swap hpc =>
      rw [hpc] at hpcs
      split at hexec
      · split at hexec
        · refine quiet (h.goto p (.swapped mv m cas.data swap) ?_ w.raw) hexec
          cases swap with
          | mark => exact hpcs
          | flip => trivial
        · cases hexec
      · exact quiet (h.goto p .idle trivial w.raw) hexec
    · cases hexec
  | cache p =>
    have hpcs := h.pcs p
    simp only [routers] at hexec
    split at hexec
    · next mv m data swap hpc =>
      rw [hpc] at hpcs
      cases swap with
      | mark =>
        obtain ⟨rfl, hbalanced, hmark⟩ := hpcs
        exact quiet (h.goto p (.marked mv m _) ⟨MapCodec.read_marshal hbalanced, hmark⟩ _) hexec
      | flip => exact quiet (h.goto p .idle trivial _) hexec
    · cases hexec
  | carry p =>
    have hpcs := h.pcs p
    simp only [routers] at hexec
    split at hexec
    · next mv m marked hpc =>
      rw [hpc] at hpcs
      exact quiet (h.carry hpcs.1 hpcs.2) hexec
    · cases hexec
  | stop p => exact quiet (h.goto p .idle trivial w.raw) hexec

theorem mapsOK_init (c : MapCodec) : MapsOK c {} := ⟨fun _ => trivial, by simp⟩

/-- NO LOST UPDATE.  In every run in which `MoveShard` always finds its own bytes in the cache, a
compare-and-swap that replaces a stored map is one of `MoveShard`, it changes nothing outside the shard
its run is moving, and if it takes a mark away then it is the flip of that same move. -/
theorem shard_map_updates_kept (c : MapCodec) (config : Nat → List UInt64) (actions : List Action)
    (w : World) (swaps : List Swapped)
    (hrun : (routers c config).run {} actions = some (w, swaps))
    (hmeets : (routers c config).Meets CacheIsOwn {} actions) :
    ∀ x ∈ swaps, ∀ old, x.old = some old → ∃ mv swap m m',
      x.cas.origin = some (mv, swap) ∧ c.read old = some m ∧ c.read x.cas.data = some m' ∧
      AgreeBut mv.shard m m' ∧
      ∀ t g, m.moving[t]? = some g → g ≠ 0 → m'.moving[t]? = some 0 →
        swap = .flip ∧ t = mv.shard ∧ g = mv.group := by
  intro x hx old hold
  obtain ⟨-, hswaps⟩ := Machine.run_observes mapsOK_exec (mapsOK_init c) hmeets hrun
  obtain ⟨mv, swap, m, m', horigin, hm, hm', hturns⟩ := hswaps x hx old hold
  exact ⟨mv, swap, m, m', horigin, hm, hm', hturns.agreeBut, fun t g => hturns.cleared⟩

/-! ## A run that loses an update. -/

/-- One field of a record: its number, then the value. -/
def field (tag : UInt8) (n : UInt64) : Bytes := tag :: BigEndian.putUint64 n

/-- A plain wire format for maps, as unpacked repeated fields. -/
def recordMarshal (m : ShardMap) : Bytes :=
  (m.groups.flatMap (field 1)) ++ m.moving.flatMap (field 2)

def recordUnmarshal : Nat → Bytes → Option ShardMap
  | _, [] => some ⟨[], []⟩
  | 0, _ :: _ => none
  | fuel + 1, tag :: rest => do
    let n ← BigEndian.uint64 rest
    let m ← recordUnmarshal fuel (rest.drop 8)
    return if tag = 1 then ⟨n :: m.groups, m.moving⟩ else ⟨m.groups, n :: m.moving⟩

theorem recordUnmarshal_field {fuel : Nat} {rest : Bytes} {m : ShardMap}
    (h : recordUnmarshal fuel rest = some m) (tag : UInt8) (n : UInt64) :
    recordUnmarshal (fuel + 1) (field tag n ++ rest) =
      some (if tag = 1 then ⟨n :: m.groups, m.moving⟩ else ⟨m.groups, n :: m.moving⟩) := by
  have hdrop : (BigEndian.putUint64 n ++ rest).drop 8 = rest :=
    List.drop_left' (BigEndian.length_putUint64 n)
  simp [field, recordUnmarshal, hdrop, h]

theorem recordUnmarshal_marshal (m : ShardMap) :
    recordUnmarshal (m.groups.length + m.moving.length) (recordMarshal m) = some m := by
  obtain ⟨groups, moving⟩ := m
  unfold recordMarshal
  induction groups with
  | nil =>
    induction moving with
    | nil => rfl
    | cons n moving ih =>
      have := recordUnmarshal_field ih 2 n
      simpa [Nat.add_assoc] using this
  | cons n groups ih =>
    have := recordUnmarshal_field ih 1 n
    simpa [Nat.add_right_comm] using this

theorem recordUnmarshal_mono {fuel fuel' : Nat} {bs : Bytes} {m : ShardMap} (hle : fuel ≤ fuel')
    (h : recordUnmarshal fuel bs = some m) : recordUnmarshal fuel' bs = some m := by
  induction fuel generalizing fuel' bs m with
  | zero =>
    cases bs with
    | nil => cases fuel' <;> exact h
    | cons tag rest => cases h
  | succ fuel ih =>
    cases bs with
    | nil => cases fuel' <;> exact h
    | cons tag rest =>
      obtain ⟨fuel', rfl⟩ := Nat.exists_eq_add_of_le' (show 1 ≤ fuel' by omega)
      simp only [recordUnmarshal, Option.bind_eq_bind, Option.bind_eq_some_iff] at h ⊢
      obtain ⟨n, hn, m', hm', heq⟩ := h
      exact ⟨n, hn, m', ih (by omega) hm', heq⟩

theorem length_flatMap_field (tag : UInt8) (ns : List UInt64) :
    (ns.flatMap (field tag)).length = 9 * ns.length := by
  induction ns with
  | nil => rfl
  | cons n ns ih =>
    rw [List.flatMap_cons, List.length_append, ih, field, List.length_cons,
      BigEndian.length_putUint64, List.length_cons]
    omega

def recordCodec : MapCodec where
  marshal := recordMarshal
  unmarshal bs := recordUnmarshal bs.length bs
  unmarshal_marshal m := by
    refine recordUnmarshal_mono ?_ (recordUnmarshal_marshal m)
    unfold recordMarshal
    rw [List.length_append, length_flatMap_field, length_flatMap_field]
    omega

/-- Groups 2 and 3 on every router; process 0 moves shard 0 to group 3, process 1 shard 2. -/
def twoMoves : List Action :=
  [.reload 0 0, .get 0, .apply 0, .answer 0 true, .get 0, .install 0,
    -- the run for shard 0 has its map
    .moveShard 0 ⟨0, 0, 3⟩, .get 0, .install 0,
    -- the run for shard 2 marks its move and refreshes the cache
    .moveShard 1 ⟨0, 2, 3⟩, .get 1, .install 1, .pick 1, .apply 1, .answer 1 true, .cache 1,
    -- the run for shard 0 reads the cache, and its swap goes through
    .pick 0, .apply 2]

/-- The mark of a shard in a stored map. -/
def markOf (raw : Bytes) (s : Nat) : Option UInt64 := (recordCodec.read raw).bind fun m => m.moving[s]?

/-- MARK ERASED.  The three swaps of the run and the mark of shard 2 before and after each: the last one,
which marks the move of shard 0, takes away the mark of shard 2. -/
theorem mark_erased :
    ((routers recordCodec fun _ => [2, 3]).run {} twoMoves).map (fun (_, swaps) =>
      swaps.map fun x => (x.cas.origin, x.old.bind (markOf · 2), markOf x.cas.data 2)) =
    some [(none, none, some 0), (some (⟨0, 2, 3⟩, .mark), some 0, some 3),
      (some (⟨0, 0, 3⟩, .mark), some 3, some 0)] := by
  decide +kernel

/-- A whole move of shard 0, and the mark of shard 2 by another router.  Shard 1 is in its group already;
that run finds another map in the cache and has no use for it. -/
def moveAndMark : List Action :=
  [.reload 0 0, .get 0, .apply 0, .answer 0 true, .get 0, .install 0,
    .moveShard 0 ⟨0, 0, 3⟩, .get 0, .install 0, .moveShard 2 ⟨0, 1, 3⟩, .get 2, .install 2,
    .pick 0, .apply 1, .answer 0 true, .cache 0, .pick 2, .carry 0,
    .apply 2, .moveShard 1 ⟨1, 2, 3⟩, .get 1, .install 1, .pick 1, .apply 1, .apply 3]

theorem moveAndMark_runs :
    ((routers recordCodec fun _ => [2, 3]).run {} moveAndMark).isSome = true := by decide +kernel

def moveAndMarkEnd : World × List Swapped :=
  ((routers recordCodec fun _ => [2, 3]).run {} moveAndMark).get moveAndMark_runs

theorem run_moveAndMark : (routers recordCodec fun _ => [2, 3]).run {} moveAndMark =
    some (moveAndMarkEnd.1, moveAndMarkEnd.2) := by
  rw [Prod.mk.eta, moveAndMarkEnd, Option.some_get]

/-- That run meets the condition, and its swaps keep to their shards. -/
theorem shard_map_updates_kept_move_and_mark :
    moveAndMarkEnd.2.length = 4 ∧ ∀ x ∈ moveAndMarkEnd.2, ∀ old, x.old = some old →
      ∃ mv swap m m', x.cas.origin = some (mv, swap) ∧ recordCodec.read old = some m ∧
        recordCodec.read x.cas.data = some m' ∧ AgreeBut mv.shard m m' := by
  refine ⟨by decide +kernel, ?_⟩
  intro x hx old hold
  obtain ⟨mv, swap, m, m', horigin, hm, hm', hagree, -⟩ :=
    shard_map_updates_kept recordCodec (fun _ => [2, 3]) moveAndMark _ _ run_moveAndMark
      (by decide +kernel) x hx old hold
  exact ⟨mv, swap, m, m', horigin, hm, hm', hagree⟩

end Keystone.Shard
