/-
# Keystone.Storage.KVMap — what a `storage.DB` is for: a map from keys to values.

The abstract layer of the storage engine.  A batch is a list of operations, applied in order; a scan
lists the pairs of a key range in ascending order (`bytes.Compare` is the lexicographic order of the
bytes).  The engine is proved against this map, and the replicated state machine runs on it.
-/
import Mathlib.Tactic.Common

namespace Keystone.Storage

abbrev Key := List UInt8

abbrev KVMap := Std.ExtTreeMap Key (List UInt8)

/-- `keyKind`. -/
inductive Kind where
  | delete
  | put
  deriving DecidableEq, Repr

/-- One operation of a `Batch`. -/
structure BatchOp where
  kind : Kind
  key : Key
  value : List UInt8
  deriving DecidableEq, Repr

abbrev Batch := List BatchOp

/-- `Batch.Put`. -/
def putOp (key : Key) (value : List UInt8) : BatchOp := ⟨.put, key, value⟩

/-- `Batch.Delete`. -/
def deleteOp (key : Key) : BatchOp := ⟨.delete, key, []⟩

namespace KVMap

def applyOp (m : KVMap) (op : BatchOp) : KVMap :=
  match op.kind with
  | .put => m.insert op.key op.value
  | .delete => m.erase op.key

/-- `Write`: the operations take effect in the order of the batch. -/
def write (m : KVMap) (b : Batch) : KVMap := b.foldl applyOp m

/-- The keys of `[start, stop)`; without `stop` there is no upper bound. -/
def inRange (start : Key) (stop : Option Key) (k : Key) : Bool :=
  (compare start k).isLE &&
    match stop with
    | none => true
    | some stop => (compare k stop).isLT

/-- `Scan`. -/
def scan (m : KVMap) (start : Key) (stop : Option Key) : List (Key × List UInt8) :=
  m.toList.filter fun p => inRange start stop p.1

@[simp]
theorem write_nil (m : KVMap) : m.write [] = m := rfl

@[simp]
theorem write_cons (m : KVMap) (op : BatchOp) (b : Batch) :
    m.write (op :: b) = (m.applyOp op).write b := rfl

theorem write_append (m : KVMap) (b b' : Batch) : m.write (b ++ b') = (m.write b).write b' :=
  List.foldl_append

/-- What one operation makes of a key. -/
theorem getElem?_applyOp (m : KVMap) (op : BatchOp) (k : Key) :
    (m.applyOp op)[k]? =
      if op.key = k then (match op.kind with | .put => some op.value | .delete => none)
      else m[k]? := by
  obtain ⟨kind, key, value⟩ := op
  cases kind with
  | put => simp [applyOp, Std.ExtTreeMap.getElem?_insert]
  | delete => simp [applyOp, Std.ExtTreeMap.getElem?_erase]

@[simp]
theorem getElem?_put (m : KVMap) (key : Key) (value : List UInt8) (k : Key) :
    (m.applyOp (putOp key value))[k]? = if key = k then some value else m[k]? :=
  getElem?_applyOp ..

@[simp]
theorem getElem?_delete (m : KVMap) (key k : Key) :
    (m.applyOp (deleteOp key))[k]? = if key = k then none else m[k]? :=
  getElem?_applyOp ..

/-- A batch leaves the keys it does not name. -/
theorem getElem?_write_of_not_mem {m : KVMap} {b : Batch} {k : Key} (h : ∀ op ∈ b, op.key ≠ k) :
    (m.write b)[k]? = m[k]? := by
  induction b generalizing m with
  | nil => rfl
  | cons op b ih =>
    obtain ⟨hop, hb⟩ := List.forall_mem_cons.mp h
    rw [write_cons, ih hb, getElem?_applyOp, if_neg hop]

/-- Deleting keys, one after the other. -/
theorem getElem?_write_deletes (m : KVMap) (keys : List Key) (k : Key) :
    (m.write (keys.map deleteOp))[k]? = if k ∈ keys then none else m[k]? := by
  induction keys generalizing m with
  | nil => rfl
  | cons key keys ih =>
    rw [List.map_cons, write_cons, ih, getElem?_delete]
    by_cases hk : k ∈ keys
    · simp [hk]
    · by_cases hkey : key = k
      · simp [hkey]
      · simp [hk, hkey, Ne.symm hkey]

theorem mem_scan {m : KVMap} {start : Key} {stop : Option Key} {k : Key} {v : List UInt8} :
    (k, v) ∈ m.scan start stop ↔ m[k]? = some v ∧ inRange start stop k = true := by
  rw [scan, List.mem_filter, Std.ExtTreeMap.mem_toList_iff_getElem?_eq_some]

/-- A scan lists its keys in strictly ascending order. -/
theorem scan_sorted (m : KVMap) (start : Key) (stop : Option Key) :
    (m.scan start stop).Pairwise fun p q => compare p.1 q.1 = .lt :=
  Std.ExtTreeMap.ordered_keys_toList.filter _

end KVMap

end Keystone.Storage
