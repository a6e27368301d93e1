/-
# Keystone.Storage.Keys — internal keys (`storage/key.go`).

An internal key is a user key and a trailer of eight bytes, the sequence number and the kind of one
version of the key.  `KeyVersion` is such a version with its value, decoded: a cell of
`Keystone.Lib.Tiers` whose version number is the trailer.  `compareInternalKey_eq` says that the order of
cells is the order the code compares the bytes in, as long as trailers are 64-bit words.
-/
import Keystone.Lib.BigEndian
import Keystone.Lib.Tiers
import Keystone.Storage.Batch

namespace Keystone.Storage

open Keystone.Lib
open Keystone.Lib.Tiers (Cell)

def kindDelete : UInt8 := 0

def kindPut : UInt8 := 1

/-- `seq<<8 | kind`. -/
def trailer (seq : ℕ) (kind : UInt8) : ℕ := seq * 256 + kind.toNat

def trailerSize : ℕ := 8

/-- `PutUint64` keeps the low 64 bits of the trailer. -/
def makeInternalKey (user : Bytes) (seq : ℕ) (kind : UInt8) : Bytes :=
  user ++ BigEndian.encode trailerSize (trailer seq kind)

def userKey (ik : Bytes) : Bytes := ik.take (ik.length - trailerSize)

def trailerOf (ik : Bytes) : ℕ := BigEndian.decode (ik.drop (ik.length - trailerSize))

def splitInternalKey (ik : Bytes) : Bytes × ℕ × UInt8 :=
  (userKey ik, trailerOf ik / 256, UInt8.ofNat (trailerOf ik % 256))

def compareInternalKey (a b : Bytes) : Ordering :=
  (compare (userKey a) (userKey b)).then (compare (trailerOf b) (trailerOf a))

/-- User keys ascending, then trailers descending: a total preorder. -/
instance transCmp_compareInternalKey : Std.TransCmp compareInternalKey :=
  inferInstanceAs (Std.TransCmp (compareLex (compareOn userKey) fun a b => compareOn trailerOf b a))

/-- One version of a user key, with its value. -/
abbrev KeyVersion := Cell Key Bytes

def seqOf (e : KeyVersion) : ℕ := e.ver / 256

def kindOf (e : KeyVersion) : UInt8 := UInt8.ofNat (e.ver % 256)

def internalKeyOf (e : KeyVersion) : Bytes := e.key ++ BigEndian.encode trailerSize e.ver

/-! ## Trailers. -/

theorem trailer_div (seq : ℕ) (kind : UInt8) : trailer seq kind / 256 = seq := by
  have := kind.toNat_lt
  unfold trailer
  omega

theorem trailer_kind (seq : ℕ) (kind : UInt8) : UInt8.ofNat (trailer seq kind % 256) = kind := by
  have := kind.toNat_lt
  have hmod : trailer seq kind % 256 = kind.toNat := by
    unfold trailer
    omega
  rw [hmod, UInt8.ofNat_toNat]

theorem trailer_lt {seq : ℕ} (h : seq < 2 ^ 56) : trailer seq kindPut < 2 ^ 64 := by
  have : kindPut.toNat = 1 := rfl
  unfold trailer
  omega

theorem userKey_internalKeyOf (e : KeyVersion) : userKey (internalKeyOf e) = e.key := by
  simp [userKey, internalKeyOf]

theorem trailerOf_internalKeyOf {e : KeyVersion} (h : e.ver < 2 ^ 64) :
    trailerOf (internalKeyOf e) = e.ver := by
  have hfit : e.ver < 256 ^ trailerSize := by
    unfold trailerSize
    omega
  have hdrop : (internalKeyOf e).drop ((internalKeyOf e).length - trailerSize) =
      BigEndian.encode trailerSize e.ver := by
    simp [internalKeyOf]
  rw [trailerOf, hdrop, BigEndian.decode_encode, Nat.mod_eq_of_lt hfit]

/-- The bytes the code builds are the cell's. -/
theorem makeInternalKey_eq (user : Bytes) (seq : ℕ) (kind : UInt8) (value : Bytes) :
    makeInternalKey user seq kind =
      internalKeyOf ⟨user, trailer seq kind, value⟩ := rfl

theorem splitInternalKey_internalKeyOf {e : KeyVersion} (h : e.ver < 2 ^ 64) :
    splitInternalKey (internalKeyOf e) = (e.key, seqOf e, kindOf e) := by
  rw [splitInternalKey, userKey_internalKeyOf, trailerOf_internalKeyOf h]
  rfl

/-- Comparing the bytes is comparing the cells. -/
theorem compareInternalKey_eq {a b : KeyVersion} (ha : a.ver < 2 ^ 64) (hb : b.ver < 2 ^ 64) :
    compareInternalKey (internalKeyOf a) (internalKeyOf b) = a.cmp b := by
  unfold compareInternalKey Cell.cmp
  rw [userKey_internalKeyOf, userKey_internalKeyOf, trailerOf_internalKeyOf ha, trailerOf_internalKeyOf hb]

end Keystone.Storage
