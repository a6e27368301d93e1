/-
# Keystone.Shard.Transfer — one shard moving from one group to another.

The two groups are whole state machines.  Any number of movers run `MoveShard` for the same move, each of
them stopping anywhere and beginning again; a request of theirs, once sent, may be applied by its group
any number of times, early or late.  Clients reach the source with the old map entry at any time, and
the destination with the new one, which exists from the moment a mover writes it into its copy of the
map, after its purge was answered.
-/
import Keystone.Kv.Effects

namespace Keystone.Shard

open Keystone.Lib
open Keystone.Kv (Bytes Codec Command Op Result StateMachine shardOf)
open Function (update)

inductive Side where
  | source
  | dest
  deriving DecidableEq, Repr

/-- What a mover asks of a group. -/
inductive Request where
  | freeze
  | importChunk (kvs : List (Bytes × Bytes)) (last : Bool)
  | purge
  deriving DecidableEq, Repr

namespace Request

def side : Request → Side
  | .importChunk _ _ => .dest
  | _ => .source

def op (n : Nat) : Request → Op
  | .freeze => .freeze n
  | .importChunk kvs last => .importOp n kvs last
  | .purge => .purge n

end Request

/-- Where a mover is in `MoveShard` and `copyShard`. -/
inductive Mover where
  | idle
  | freezing
  /-- `page` is what is left of the page at hand, `start` where the next page begins. -/
  | copying (start : Bytes) (page chunk : List (Bytes × Bytes))
  | importing (start : Bytes) (page kvs : List (Bytes × Bytes)) (last : Bool)
  | purging
  deriving DecidableEq, Repr

/-- A client command that a group executed: it ran, it was not refused, and no session answered it. -/
structure Executed where
  side : Side
  op : Op
  result : Result
  deriving DecidableEq, Repr

structure Transfer where
  source : StateMachine
  dest : StateMachine
  mover : Nat → Mover := fun _ => .idle
  /-- Every request that was sent, and each application of one with its `Success`. -/
  sent : List Request := []
  answered : List (Request × Bool) := []
  /-- Some copy of the map names the destination. -/
  flipped : Bool := false

inductive Happening where
  | begin (p : Nat)
  | apply (i : Nat) (index : UInt64)
  | answer (p : Nat) (success : Bool)
  | scan (p : Nat) (index : UInt64)
  | take (p : Nat)
  | client (side : Side) (cmd : Command) (index : UInt64)
  | stop (p : Nat)
  deriving DecidableEq, Repr

def importChunk : Nat := 1000

def maxRequestBytes : Nat := 2 ^ 20

def chunkBytes (chunk : List (Bytes × Bytes)) : Nat :=
  (chunk.map fun p => p.1.length + p.2.length).sum

/-- `copyShard` flushes its chunk before it takes the pair. -/
def full (chunk : List (Bytes × Bytes)) (pair : Bytes × Bytes) : Bool :=
  chunk.length ≥ importChunk ∨
    (chunk.length > 0 ∧ chunkBytes chunk + (pair.1.length + pair.2.length) > maxRequestBytes)

namespace Transfer

def group (w : Transfer) : Side → StateMachine
  | .source => w.source
  | .dest => w.dest

def setGroup (w : Transfer) (side : Side) (s : StateMachine) : Transfer :=
  match side with
  | .source => { w with source := s }
  | .dest => { w with dest := s }

def goto (w : Transfer) (p : Nat) (m : Mover) : Transfer := { w with mover := update w.mover p m }

def send (w : Transfer) (p : Nat) (q : Request) (m : Mover) : Transfer :=
  { w.goto p m with sent := w.sent ++ [q] }

/-- What a group executes of a client command. -/
def observe (side : Side) (s : StateMachine) (cmd : Command) (index : UInt64) : List Executed :=
  if s.cached cmd = none ∧ s.refuses cmd.op = false then
    [⟨side, cmd.op, (s.execute cmd.op index).res⟩]
  else []

/-- The next page of the source: from `start` to the end of the key space. -/
def scanPage (c : Codec) (w : Transfer) (p : Nat) (index : UInt64) (start : Bytes)
    (chunk : List (Bytes × Bytes)) : Transfer :=
  let cmd : Command := ⟨0, 0, .scan start [] importChunk maxRequestBytes⟩
  let page := (w.source.execute cmd.op index).res.kvs
  let w := { w with source := (w.source.applyCommand c cmd index).1 }
  match page.getLast? with
  | none => w.send p (.importChunk chunk true) (.importing start [] chunk true)
  | some pair => w.goto p (.copying (pair.1 ++ [0]) page chunk)

def takePair (n : Nat) (w : Transfer) (p : Nat) (start : Bytes) (pair : Bytes × Bytes)
    (page chunk : List (Bytes × Bytes)) : Transfer :=
  if shardOf pair.1 ≠ n then
    w.goto p (.copying start page chunk)
  else if full chunk pair then
    w.send p (.importChunk chunk false) (.importing start (pair :: page) chunk false)
  else
    w.goto p (.copying start page (chunk ++ [pair]))

/-- The mover goes on with an answer to the request it waits for. -/
def goOn (w : Transfer) (p : Nat) (success : Bool) : Option Transfer :=
  match w.mover p with
  | .freezing =>
    if (.freeze, success) ∈ w.answered then some (w.goto p (.copying [] [] [])) else none
  | .importing start page kvs last =>
    if (.importChunk kvs last, success) ∈ w.answered then
      -- a refused chunk means that the destination holds the shard: the copy is complete
      if last ∨ success = false then some (w.send p .purge .purging)
      else some (w.goto p (.copying start page []))
    else none
  | .purging =>
    if (.purge, success) ∈ w.answered then some { w.goto p .idle with flipped := true } else none
  | _ => none

end Transfer

/-- The move of shard `n`. -/
def transfer (c : Codec) (n : Nat) : Machine Transfer Happening Executed where
  exec w
    | .begin p =>
      match w.mover p with
      | .idle => some (w.send p .freeze .freezing, [])
      | _ => none
    | .apply i index =>
      w.sent[i]?.map fun q =>
        let s := w.group q.side
        ({ w.setGroup q.side (s.applyCommand c ⟨0, 0, q.op n⟩ index).1 with
            answered := w.answered ++ [(q, (s.execute (q.op n) index).res.success)] }, [])
    | .answer p success => (w.goOn p success).map (·, [])
    | .scan p index =>
      match w.mover p with
      | .copying start [] chunk => some (w.scanPage c p index start chunk, [])
      | _ => none
    | .take p =>
      match w.mover p with
      | .copying start (pair :: page) chunk => some (w.takePair n p start pair page chunk, [])
      | _ => none
    | .client side cmd index =>
      match StateMachine.clientKey cmd.op with
      | none => none
      | some key =>
        -- only the new map entry leads a key of the shard to the destination
        if side = .dest ∧ shardOf key = n ∧ w.flipped = false then none
        else
          some (w.setGroup side ((w.group side).applyCommand c cmd index).1,
            Transfer.observe side (w.group side) cmd index)
    | .stop p => some (w.goto p .idle, [])

/-- The last executed write of every key, from the contents before the move on. -/
def lastWrite (truth : Bytes → Option Bytes) (os : List Executed) : Bytes → Option Bytes :=
  os.foldl (fun t o => StateMachine.written t o.op o.result) truth

/-- Before the move: the source holds the shard, and the destination knows nothing of it. -/
structure Start (n : Nat) (source dest : StateMachine) : Prop where
  holds : source.shards n ≠ some .shardGone
  unknown : dest.shards n = none ∨ dest.shards n = some .shardGone
  empty : ∀ key, shardOf key = n → dest.get key = none

/-- The destination has applied a last import. -/
def Landed (w : Transfer) : Prop := ∃ kvs, (Request.importChunk kvs true, true) ∈ w.answered

end Keystone.Shard
