/-
# Keystone.Kv.StateMachine — the replicated state machine (`kv/statemachine.go`).

Commands are applied one after the other to an engine, which is the map of `Keystone.Storage.KVMap`
here.  Beside the user's keys the engine holds the sessions, the shard states and the applied index;
the same three are kept in memory, and `load` reads them back.  Go's maps are functions, since the code
never ranges over them.

The wire format of commands and results is generated code of another package: `Codec` takes the two
functions of it that `Apply` calls.  A snapshot is the contents of the engine.
-/
import Keystone.Lib.BigEndian
import Keystone.Lib.Decimal
import Keystone.Storage.KVMap

namespace Keystone.Kv

open Keystone.Lib
open Keystone.Storage (KVMap Batch putOp deleteOp)
open Function (update)

abbrev Bytes := List UInt8

/-! ## Shards (`internal/keyhash`). -/

/-- `fnv.New64a`. -/
def fnv64a (key : Bytes) : UInt64 :=
  key.foldl (fun h b => (h ^^^ b.toUInt64) * 1099511628211) 14695981039346656037

/-- `ShardOf`: the avalanched hash, cut into 16 equal ranges. -/
def shardOf (key : Bytes) : Nat :=
  let h := fnv64a key
  let h := (h ^^^ (h >>> 33)) * 0xff51afd7ed558ccd
  let h := (h ^^^ (h >>> 33)) * 0xc4ceb9fe1a85ec53
  let h := h ^^^ (h >>> 33)
  h.toNat / (2 ^ 64 / 16)

/-! ## Commands and results. -/

inductive Op where
  | none
  | register
  | put (key value : Bytes)
  | delete (key : Bytes)
  | cas (key : Bytes) (expected : Option Bytes) (value : Bytes)
  | get (key : Bytes)
  | scan (start stop : Bytes) (limit maxBytes : Nat)
  | freeze (shard : Nat)
  | importOp (shard : Nat) (kvs : List (Bytes × Bytes)) (last : Bool)
  | purge (shard : Nat)
  deriving DecidableEq, Repr

structure Command where
  clientId : UInt64 := 0
  seq : UInt64 := 0
  op : Op := .none
  deriving DecidableEq, Repr

structure Result where
  found : Bool := false
  value : Bytes := []
  success : Bool := false
  clientId : UInt64 := 0
  kvs : List (Bytes × Bytes) := []
  moving : Bool := false
  deriving DecidableEq, Repr

/-- `proto.Unmarshal` into a `Command` and `proto.Marshal` of a `Result`. -/
structure Codec where
  unmarshal : Bytes → Option Command
  marshal : Result → Bytes

/-- A codec for a log over finitely many commands: a command travels as its number, and of a result the
flags, the issued id and the value. -/
def tableCodec (table : List Command) : Codec where
  unmarshal data := data.head?.bind fun b => table[b.toNat]?
  marshal res :=
    [res.found.toUInt8, res.success.toUInt8, res.moving.toUInt8, res.clientId.toUInt8] ++ res.value

/-! ## Keys in the engine. -/

def prefixKey : UInt8 := 0x6b      -- 'k'
def prefixSession : UInt8 := 0x73  -- 's'
def prefixMeta : UInt8 := 0x6d     -- 'm'

def userKey (key : Bytes) : Bytes := prefixKey :: key

def sessionKey (id : UInt64) : Bytes := prefixSession :: BigEndian.putUint64 id

/-- "mapplied" -/
def appliedKey : Bytes := [prefixMeta, 0x61, 0x70, 0x70, 0x6c, 0x69, 0x65, 0x64]

/-- "mshard/" -/
def shardSpace : Bytes := [prefixMeta, 0x73, 0x68, 0x61, 0x72, 0x64, 0x2f]

/-- `"mshard0"`, behind every shard key. -/
def shardSpaceEnd : Bytes := [prefixMeta, 0x73, 0x68, 0x61, 0x72, 0x64, 0x30]

def digitByte (d : Nat) : UInt8 := UInt8.ofNat (48 + d)

/-- `fmt.Sprintf("mshard/%02d", shard)`. -/
def shardKey (shard : Nat) : Bytes := shardSpace ++ (Decimal.padded 2 shard).map digitByte

/-- `fmt.Sscanf(.., "%d", ..)`: the digits in front. -/
def scanDecimal (bs : Bytes) : Nat :=
  Decimal.parse ((bs.takeWhile fun b => 48 ≤ b && b < 58).map fun b => b.toNat - 48)

/-! ## State. -/

structure Session where
  seq : UInt64 := 0
  result : Bytes := []
  deriving DecidableEq, Repr

inductive ShardState where
  | shardOpen
  | shardFrozen
  | shardGone
  deriving DecidableEq, Repr

def ShardState.toByte : ShardState → UInt8
  | .shardOpen => 0
  | .shardFrozen => 1
  | .shardGone => 2

/-- Every byte that is neither open nor gone acts as frozen: no writes, but reads. -/
def ShardState.ofByte (b : UInt8) : ShardState :=
  if b = 0 then .shardOpen else if b = 2 then .shardGone else .shardFrozen

def encodeSession (seq : UInt64) (result : Bytes) : Bytes := BigEndian.putUint64 seq ++ result

def decodeSession (v : Bytes) : Option Session :=
  (BigEndian.uint64 v).map fun seq => ⟨seq, v.drop 8⟩

structure StateMachine where
  db : KVMap := ∅
  applied : UInt64 := 0
  sessions : UInt64 → Option Session := fun _ => none
  shards : Nat → Option ShardState := fun _ => none

namespace StateMachine

/-- What `s.shards[shard]` reads: a shard this group has never heard of is open. -/
def shardState (s : StateMachine) (shard : Nat) : ShardState := (s.shards shard).getD .shardOpen

def writable (s : StateMachine) (key : Bytes) : Bool := s.shardState (shardOf key) = .shardOpen

def readable (s : StateMachine) (key : Bytes) : Bool := s.shardState (shardOf key) ≠ .shardGone

/-! ## `load`. -/

/-- One session row read back; `none` is the panic of a row shorter than its header. -/
def loadSession (sessions : UInt64 → Option Session) (p : Bytes × Bytes) :
    Option (UInt64 → Option Session) := do
  let id ← BigEndian.uint64 (p.1.drop 1)
  let sess ← decodeSession p.2
  return update sessions id (some sess)

def loadShard (shards : Nat → Option ShardState) (p : Bytes × Bytes) :
    Option (Nat → Option ShardState) := do
  let b ← p.2.head?
  return update shards (scanDecimal (p.1.drop shardSpace.length)) (some (.ofByte b))

/-- `load`, and with it `NewStateMachine`. -/
def load (db : KVMap) : Option StateMachine := do
  let applied ← match db[appliedKey]? with
    | some v => BigEndian.uint64 v
    | none => some 0
  let sessions ← (db.scan [prefixSession] (some [prefixSession + 1])).foldlM loadSession fun _ => none
  let shards ← (db.scan shardSpace (some shardSpaceEnd)).foldlM loadShard fun _ => none
  return { db, applied, sessions, shards }

/-! ## Reads. -/

def get (s : StateMachine) (key : Bytes) : Option Bytes := s.db[userKey key]?

/-- The loop of `scan` over the pairs of the range: at most `limit` of them, and the one that reaches
`maxBytes` is the last. -/
def scanLoop (limit maxBytes : Nat) : List (Bytes × Bytes) → Nat → Nat → List (Bytes × Bytes)
  | [], _, _ => []
  | (k, v) :: rest, count, size =>
    if limit > 0 ∧ count ≥ limit then
      []
    else
      let size := size + ((k.length - 1) + v.length)
      (k.drop 1, v) ::
        if maxBytes > 0 ∧ size ≥ maxBytes then [] else scanLoop limit maxBytes rest (count + 1) size

def scan (s : StateMachine) (start stop : Bytes) (limit maxBytes : Nat) : List (Bytes × Bytes) :=
  let hi := if stop.length > 0 then userKey stop else [prefixKey + 1]
  scanLoop limit maxBytes (s.db.scan (userKey start) (some hi)) 0 0

/-- `Get`, a read outside the log; `none` is `ErrMoving`. -/
def getRead (s : StateMachine) (key : Bytes) : Option (Option Bytes) :=
  if s.readable key then some (s.get key) else none

/-! ## `Apply`. -/

/-- What executing a command produces: its result, its part of the batch, and the shard states it set. -/
structure Effect where
  res : Result := {}
  batch : Batch := []
  shards : Nat → Option ShardState

/-- `setShard`. -/
def Effect.setShard (x : Effect) (shard : Nat) (state : ShardState) : Effect :=
  { x with
    batch := x.batch ++ [putOp (shardKey shard) [state.toByte]]
    shards := update x.shards shard (some state) }

def moving (s : StateMachine) : Effect := { res := { moving := true }, shards := s.shards }

/-- The keys of a shard, as `Purge` finds them. -/
def shardKeys (s : StateMachine) (shard : Nat) : List Bytes :=
  ((s.db.scan [prefixKey] (some [prefixKey + 1])).map Prod.fst).filter fun k =>
    shardOf (k.drop 1) = shard

def casHolds (expected : Option Bytes) (cur : Option Bytes) : Bool :=
  match expected, cur with
  | none, none => true
  | some e, some v => v = e
  | _, _ => false

def execute (s : StateMachine) (op : Op) (index : UInt64) : Effect :=
  match op with
  | .none => { shards := s.shards }
  | .register => { res := { clientId := index }, shards := s.shards }
  | .put key value =>
    if s.writable key then
      { res := { success := true }, batch := [putOp (userKey key) value], shards := s.shards }
    else
      s.moving
  | .delete key =>
    if s.writable key then
      { res := { success := true }, batch := [deleteOp (userKey key)], shards := s.shards }
    else
      s.moving
  | .cas key expected value =>
    if s.writable key then
      let cur := s.get key
      let success := casHolds expected cur
      { res := { found := cur.isSome, value := cur.getD [], success := success }
        batch := if success then [putOp (userKey key) value] else []
        shards := s.shards }
    else
      s.moving
  | .get key =>
    if s.readable key then
      { res := { found := (s.get key).isSome, value := (s.get key).getD [] }, shards := s.shards }
    else
      s.moving
  | .scan start stop limit maxBytes =>
    { res := { kvs := s.scan start stop limit maxBytes }, shards := s.shards }
  | .freeze shard =>
    let x : Effect := { res := { success := true }, shards := s.shards }
    -- gone has to stay gone: the keys of a frozen shard would be read, and they are deleted
    if s.shardState shard = .shardGone then x else x.setShard shard .shardFrozen
  | .importOp shard kvs last =>
    match s.shards shard with
    | some .shardOpen | some .shardFrozen => { shards := s.shards }
    | _ =>
      let x : Effect :=
        { res := { success := true }, batch := kvs.map fun p => putOp (userKey p.1) p.2
          shards := s.shards }
      if last then x.setShard shard .shardOpen else x
  | .purge shard =>
    let x : Effect :=
      { res := { success := true }, batch := (s.shardKeys shard).map deleteOp, shards := s.shards }
    x.setShard shard .shardGone

/-- The answer of the session table to a command it has seen. -/
def cached (s : StateMachine) (cmd : Command) : Option Bytes :=
  match s.sessions cmd.clientId with
  | none => none
  | some sess => if cmd.clientId ≠ 0 ∧ cmd.seq ≤ sess.seq then some sess.result else none

/-- The session rows an executed command writes: its own, and the one it issues. -/
def sessionOps (cmd : Command) (res : Result) (result : Bytes) : Batch :=
  (if cmd.clientId ≠ 0 then [putOp (sessionKey cmd.clientId) (encodeSession cmd.seq result)] else []) ++
    (if res.clientId ≠ 0 then [putOp (sessionKey res.clientId) (encodeSession 0 [])] else [])

def setSessions (sessions : UInt64 → Option Session) (cmd : Command) (res : Result) (result : Bytes) :
    UInt64 → Option Session :=
  let sessions :=
    if cmd.clientId ≠ 0 then update sessions cmd.clientId (some ⟨cmd.seq, result⟩) else sessions
  if res.clientId ≠ 0 then update sessions res.clientId (some {}) else sessions

/-- `Apply` of a decoded command. -/
def applyCommand (c : Codec) (s : StateMachine) (cmd : Command) (index : UInt64) :
    StateMachine × Bytes :=
  let mark := [putOp appliedKey (BigEndian.putUint64 index)]
  match s.cached cmd with
  | some result => ({ s with db := s.db.write mark, applied := index }, result)
  | none =>
    let x := s.execute cmd.op index
    let result := c.marshal x.res
    ({ db := s.db.write (x.batch ++ sessionOps cmd x.res result ++ mark)
       applied := index
       sessions := setSessions s.sessions cmd x.res result
       shards := x.shards },
      result)

end StateMachine

/-- A committed entry as the state machine gets it. -/
structure Entry where
  index : UInt64
  data : Bytes
  deriving DecidableEq, Repr

/-- `Apply`; an entry that is not a command panics. -/
def StateMachine.apply (c : Codec) (s : StateMachine) (e : Entry) : Option (StateMachine × Bytes) :=
  (c.unmarshal e.data).map fun cmd => s.applyCommand c cmd e.index

/-- `Restore` of a snapshot, whatever the machine held before. -/
def StateMachine.restore (_ : StateMachine) (snapshot : KVMap) : Option StateMachine :=
  StateMachine.load snapshot

/-- `Snapshot`: the engine's contents, exported. -/
def StateMachine.snapshot (s : StateMachine) : KVMap := s.db

end Keystone.Kv
