/-
# Keystone.Shard.Router — routers, the stored shard map, and the steps of `MoveShard`.

Any number of processes (periodic reloads, reloads of `forward`, runs of `MoveShard`) work on any number
of routers.  A router's cached copy `raw` of the stored bytes is shared by its processes.  Every access
to shared state is a step of its own: the `Get` of a reload, the update of the cache that follows it, the
read of the cache in `MoveShard`, and each compare-and-swap, which the meta group may apply any number of
times once it was sent, since the client retries it.
-/
import Keystone.Kv.StateMachine
import Keystone.Lib.Transition

namespace Keystone.Shard

open Keystone.Lib
open Keystone.Kv (Bytes)
open Function (update)

/-! ## The shard map. -/

structure ShardMap where
  groups : List UInt64
  moving : List UInt64
  deriving DecidableEq, Repr

/-- `proto.Marshal` and `proto.Unmarshal` of a `ShardMap`. -/
structure MapCodec where
  marshal : ShardMap → Bytes
  unmarshal : Bytes → Option ShardMap
  unmarshal_marshal : ∀ m, unmarshal (marshal m) = some m

def shards : Nat := 16

/-- `DefaultMap`: shards dealt round-robin over the groups. -/
def defaultMap (groups : List UInt64) : ShardMap where
  groups := (List.range shards).map fun i => groups.getD (i % groups.length) 0
  moving := List.replicate shards 0

/-- The map `reload` makes of stored bytes; a list of marks of another length is replaced. -/
def MapCodec.read (c : MapCodec) (raw : Bytes) : Option ShardMap :=
  (c.unmarshal raw).map fun sm =>
    if sm.moving.length ≠ sm.groups.length then
      { sm with moving := List.replicate sm.groups.length 0 }
    else sm

/-! ## Processes. -/

/-- A run of `MoveShard` on a router. -/
structure Move where
  router : Nat
  shard : Nat
  group : UInt64
  deriving DecidableEq, Repr

/-- Which of its two swaps of the map a move is at. -/
inductive Swap where
  | mark
  | flip
  deriving DecidableEq, Repr

/-- A compare-and-swap of the map key; without an expected value it wants the key to be absent. -/
structure Cas where
  origin : Option (Move × Swap)
  expected : Option Bytes
  data : Bytes
  deriving DecidableEq, Repr

/-- Where a process is.  `next` is the move that called `reload`, if one did. -/
inductive Pc where
  | idle
  /-- In `reload`, before the `Get`. -/
  | reading (router : Nat) (next : Option Move)
  /-- In `reload`: there is no map yet, and the `Cas` of the default map is under way. -/
  | seeding (router : Nat) (next : Option Move)
  /-- In `reload`: the `Get` was answered with `raw`, decoded into `m`. -/
  | fetched (router : Nat) (next : Option Move) (raw : Bytes) (m : ShardMap)
  /-- `reload` returned `m`, which it decoded from `raw`. -/
  | loaded (mv : Move) (raw : Bytes) (m : ShardMap)
  /-- In `swapMap` with the new map `m`. -/
  | swapping (mv : Move) (m : ShardMap) (cas : Cas) (swap : Swap)
  /-- In `swapMap`: the swap succeeded and the cache is to be updated. -/
  | swapped (mv : Move) (m : ShardMap) (data : Bytes) (swap : Swap)
  /-- The stored map `marked` names the move; freeze, copy and purge. -/
  | marked (mv : Move) (m : ShardMap) (marked : Bytes)
  deriving DecidableEq, Repr

structure World where
  /-- The map key in the meta group. -/
  stored : Option Bytes := none
  /-- `r.raw` of each router. -/
  raw : Nat → Bytes := fun _ => []
  pc : Nat → Pc := fun _ => .idle
  /-- Every compare-and-swap that was ever sent, and those that were applied with success. -/
  sent : List Cas := []
  won : List Cas := []

inductive Action where
  | reload (p router : Nat)
  | moveShard (p : Nat) (mv : Move)
  | get (p : Nat)
  | install (p : Nat)
  | pick (p : Nat)
  /-- The meta group applies the `i`-th compare-and-swap that was sent, for the first time or again. -/
  | apply (i : Nat)
  /-- The client of the process gets an answer: `Success` or not. -/
  | answer (p : Nat) (success : Bool)
  | cache (p : Nat)
  | carry (p : Nat)
  /-- An error, a timeout or a crash ends what the process was doing. -/
  | stop (p : Nat)
  deriving DecidableEq, Repr

/-- A compare-and-swap that replaced the stored value `old`. -/
structure Swapped where
  cas : Cas
  old : Option Bytes
  deriving DecidableEq, Repr

/-- `Expected` as it travels: no bytes are the absent field. -/
def expectedOf (raw : Bytes) : Option Bytes := if raw = [] then none else some raw

namespace World

def goto (w : World) (p : Nat) (pc : Pc) : World := { w with pc := update w.pc p pc }

/-- `swapMap` up to the point where its request is sent. -/
def swapMap (c : MapCodec) (w : World) (p : Nat) (mv : Move) (swap : Swap) (expected : Bytes)
    (m : ShardMap) : World :=
  let cas : Cas := ⟨some (mv, swap), expectedOf expected, c.marshal m⟩
  { w.goto p (.swapping mv m cas swap) with sent := w.sent ++ [cas] }

/-- `MoveShard` from the return of `reload` up to the mark; `none` is an index out of range. -/
def pick (c : MapCodec) (w : World) (p : Nat) (mv : Move) (m : ShardMap) : Option World := do
  let src ← m.groups[mv.shard]?
  let mark ← m.moving[mv.shard]?
  if src = mv.group then
    return w.goto p .idle
  else if mark ≠ 0 ∧ mark ≠ mv.group then
    return w.goto p .idle
  else
    let marked := w.raw mv.router
    if mark = 0 then
      return w.swapMap c p mv .mark marked { m with moving := m.moving.set mv.shard mv.group }
    else
      return w.goto p (.marked mv m marked)

/-- The meta group's `Cas`. -/
def applyCas (w : World) (cas : Cas) : World × List Swapped :=
  if Kv.StateMachine.casHolds cas.expected w.stored then
    ({ w with stored := some cas.data, won := w.won ++ [cas] }, [⟨cas, w.stored⟩])
  else
    (w, [])

end World

/-- The routers of a cluster; `config` are the groups each of them knows. -/
def routers (c : MapCodec) (config : Nat → List UInt64) : Machine World Action Swapped where
  exec w
    | .reload p router =>
      match w.pc p with
      | .idle => some (w.goto p (.reading router none), [])
      | _ => none
    | .moveShard p mv =>
      match w.pc p with
      | .idle =>
        if mv.shard < shards ∧ mv.group ∈ config mv.router then
          some (w.goto p (.reading mv.router (some mv)), [])
        else none
      | _ => none
    | .get p =>
      match w.pc p with
      | .reading router next =>
        match w.stored with
        | some raw =>
          match c.read raw with
          | some m => some (w.goto p (.fetched router next raw m), [])
          | none => some (w.goto p .idle, [])
        | none =>
          some ({ w.goto p (.seeding router next) with
            sent := w.sent ++ [⟨none, none, c.marshal (defaultMap (config router))⟩] }, [])
      | _ => none
    | .install p =>
      match w.pc p with
      | .fetched router next raw m =>
        let pc := match next with
          | some mv => .loaded mv raw m
          | none => .idle
        some ({ w.goto p pc with raw := update w.raw router raw }, [])
      | _ => none
    | .pick p =>
      match w.pc p with
      | .loaded mv _ m => (w.pick c p mv m).map (·, [])
      | _ => none
    | .apply i => w.sent[i]?.map w.applyCas
    | .answer p success =>
      match w.pc p with
      | .seeding router next => some (w.goto p (.reading router next), [])
      | .swapping mv m cas swap =>
        if success then
          if cas ∈ w.won then some (w.goto p (.swapped mv m cas.data swap), []) else none
        else some (w.goto p .idle, [])
      | _ => none
    | .cache p =>
      match w.pc p with
      | .swapped mv m data swap =>
        let pc := match swap with
          | .mark => .marked mv m data
          | .flip => .idle
        some ({ w.goto p pc with raw := update w.raw mv.router data }, [])
      | _ => none
    | .carry p =>
      match w.pc p with
      | .marked mv m marked =>
        some (w.swapMap c p mv .flip marked
          ⟨m.groups.set mv.shard mv.group, m.moving.set mv.shard 0⟩, [])
      | _ => none
    | .stop p => some (w.goto p .idle, [])

end Keystone.Shard
