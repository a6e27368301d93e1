/-
# Keystone.Storage.Block — blocks of sorted entries (`storage/block.go`).

A block is a run of entries, the offsets of its restart points, and their number.  An entry names how many
bytes of its key it shares with the key before it; a restart point, one entry in sixteen, shares none.

The iterator is modelled with every slice it takes: `none` is a run-time panic, and `decodeAt` returns
`some none` for an entry it refuses.  Lengths are read as 64-bit words and added as `int`s, as the code
adds them.  `readEntry` is what the bytes say when lengths are just numbers; `decodeAt_eq` says that the
code reads that, or refuses, except at the headers called `Wild`, where it panics.
-/
import Keystone.Lib.Search
import Keystone.Lib.Slices
import Keystone.Storage.Keys

namespace Keystone.Storage

open Keystone.Lib
open Keystone.Lib.Slices (Checked intOf addInt slice sliceFrom word)

/-! ## Building a block. -/

def restartInterval : ℕ := 16

structure BlockBuilder where
  buf : Bytes := []
  restarts : List ℕ := []
  lastKey : Bytes := []
  count : ℕ := 0
  deriving DecidableEq, Repr

/-- How many bytes two keys begin with together. -/
def sharedLen : Bytes → Bytes → ℕ
  | a :: as, b :: bs => if a = b then sharedLen as bs + 1 else 0
  | _, _ => 0

/-- The bytes of an entry. -/
def encodeEntry (shared : ℕ) (key value : Bytes) : Bytes :=
  Uvarint.encode shared ++ Uvarint.encode (key.length - shared) ++ Uvarint.encode value.length ++
    key.drop shared ++ value

namespace BlockBuilder

def add (b : BlockBuilder) (key value : Bytes) : BlockBuilder :=
  if b.count % restartInterval = 0 then
    { buf := b.buf ++ encodeEntry 0 key value
      restarts := b.restarts ++ [b.buf.length % 2 ^ 32]
      lastKey := key
      count := b.count + 1 }
  else
    { buf := b.buf ++ encodeEntry (sharedLen key b.lastKey) key value
      restarts := b.restarts
      lastKey := key
      count := b.count + 1 }

def size (b : BlockBuilder) : ℕ := b.buf.length + 4 * b.restarts.length + 4

def empty (b : BlockBuilder) : Bool := b.count = 0

def finish (b : BlockBuilder) : Bytes :=
  b.buf ++ b.restarts.flatMap (LittleEndian.encode 4) ++ LittleEndian.encode 4 b.restarts.length

end BlockBuilder

/-! ## Reading a block. -/

/-- `errBadBlock`, `errBadTable`, a version this code does not know, and a block whose checksum is
wrong. -/
inductive TableError where
  | badBlock
  | badTable
  | version (v : ℕ)
  | corrupt (offset : ℕ)
  deriving DecidableEq, Repr

structure BlockIter where
  data : Bytes
  restarts : List ℕ
  off : ℤ := -1
  nextOff : ℤ := 0
  k : Bytes := []
  v : Bytes := []
  err : Option TableError := none
  deriving DecidableEq, Repr

/-- `compareInternalKey`, which slices both keys. -/
def compareChecked (a b : Bytes) : Option Ordering :=
  if trailerSize ≤ a.length ∧ trailerSize ≤ b.length then some (compareInternalKey a b) else none

/-- A restart offset as the block has it. -/
def restartAt (block : Bytes) (stop : ℤ) (i : ℕ) : Checked TableError ℕ := do
  let r ← Checked.run ((sliceFrom block (stop + 4 * i)).bind (word 4))
  if (r : ℤ) > stop then throw .badBlock else pure r

def newBlockIter (block : Bytes) : Checked TableError BlockIter :=
  if block.length < 4 then
    throw .badBlock
  else do
    let n ← Checked.run ((sliceFrom block (block.length - 4)).bind (word 4))
    let stop : ℤ := block.length - 4 - 4 * n
    if stop < 0 then
      throw .badBlock
    else
      let restarts ← (List.range n).mapM (restartAt block stop)
      let data ← Checked.run (slice block 0 stop)
      pure { data := data, restarts := restarts }

/-- The entry at `off`: its key, its value and its length; `some none` if it is refused. -/
def decodeAt (data : Bytes) (off : ℤ) (prev : Bytes) : Option (Option (Bytes × Bytes × ℤ)) := do
  let d ← sliceFrom data off
  let shared := Uvarint.read d
  let d1 ← sliceFrom d shared.2
  let unshared := Uvarint.read d1
  let d2 ← sliceFrom d (shared.2 + unshared.2)
  let vlen := Uvarint.read d2
  let hdr := shared.2 + unshared.2 + vlen.2
  let keyEnd := addInt hdr (intOf unshared.1)
  let stop := addInt keyEnd (intOf vlen.1)
  if shared.2 ≤ 0 ∨ unshared.2 ≤ 0 ∨ vlen.2 ≤ 0 ∨ intOf shared.1 > prev.length ∨ stop > d.length then
    some none
  else
    let front ← slice prev 0 shared.1
    let rest ← slice d hdr keyEnd
    let value ← slice d keyEnd stop
    some (some (front ++ rest, value, stop))

namespace BlockIter

def valid (it : BlockIter) : Bool := 0 ≤ it.off ∧ it.err = none

def next (it : BlockIter) : Option BlockIter :=
  if it.nextOff ≥ it.data.length then
    some { it with off := -1 }
  else
    match decodeAt it.data it.nextOff it.k with
    | none => none
    | some none => some { it with off := -1, err := some .badBlock }
    | some (some (k, v, n)) =>
      some { it with off := it.nextOff, k := k, v := v, nextOff := it.nextOff + n }

def seekToFirst (it : BlockIter) : Option BlockIter := next { it with k := [], nextOff := 0 }

/-- The test of the binary search: the restart point is refused, or its key is not below `target`. -/
def reaches (it : BlockIter) (target : Bytes) (i : ℕ) : Option Bool := do
  let r ← it.restarts[i]?
  match ← decodeAt it.data r [] with
  | none => some true
  | some (k, _, _) => (compareChecked k target).map fun c => c != .lt

/-- The loop behind the binary search, with fuel for the bytes of the block. -/
def skipBelow (target : Bytes) : ℕ → BlockIter → Option BlockIter
  | 0, _ => none
  | fuel + 1, it =>
    if it.valid then
      match compareChecked it.k target with
      | none => none
      | some .lt => it.next.bind (skipBelow target fuel)
      | some _ => some it
    else
      some it

def seek (it : BlockIter) (target : Bytes) : Option BlockIter := do
  let i ← Search.search (it.reaches target) it.restarts.length
  if it.restarts = [] then
    some { it with off := -1 }
  else
    let r ← it.restarts[i - 1]?
    let it' ← next { it with k := [], nextOff := r }
    skipBelow target (it.data.length + 1) it'

end BlockIter

/-! ## What the bytes of an entry say. -/

/-- An entry, with lengths as numbers: its key, its value and its length. -/
def readEntry (d prev : Bytes) : Option (Bytes × Bytes × ℕ) :=
  match Uvarint.decode d with
  | none => none
  | some (shared, d1) =>
    match Uvarint.decode d1 with
    | none => none
    | some (unshared, d2) =>
      match Uvarint.decode d2 with
      | none => none
      | some (vlen, body) =>
        if shared ≤ prev.length ∧ unshared + vlen ≤ body.length then
          some (prev.take shared ++ body.take unshared, (body.drop unshared).take vlen,
            d.length - body.length + unshared + vlen)
        else
          none

/-- A header the code panics at: its first number has more than 64 bits; or its second has, and the
(negative) count of its bytes is more than the first number took; or the lengths are too large and the
test for that, in 64-bit arithmetic, does not say so. -/
def Wild (d prev : Bytes) : Prop :=
  let shared := Uvarint.read d
  let unshared := Uvarint.read (d.drop shared.2.toNat)
  let vlen := Uvarint.read (d.drop (shared.2 + unshared.2).toNat)
  let hdr := shared.2 + unshared.2 + vlen.2
  shared.2 < 0 ∨ shared.2 + unshared.2 < 0 ∨
    (0 < shared.2 ∧ 0 < unshared.2 ∧ 0 < vlen.2) ∧
      (intOf shared.1 ≤ prev.length ∧
        addInt (addInt hdr (intOf unshared.1)) (intOf vlen.1) ≤ d.length) ∧
      ¬ (shared.1 ≤ prev.length ∧ hdr + unshared.1 + vlen.1 ≤ d.length)

instance (d prev : Bytes) : Decidable (Wild d prev) := by
  unfold Wild
  infer_instance

/-- A count above zero is a number of bytes that are there. -/
theorem read_count {d : Bytes} (h : 0 < (Uvarint.read d).2) :
    ∃ n : ℕ, (Uvarint.read d).2 = n ∧ 0 < n ∧ n ≤ d.length := by
  have hbounds := @Uvarint.readFrom_bounds 0 d (not_le.mpr h)
  have heq : Uvarint.readFrom 0 d = Uvarint.read d := rfl
  rw [heq] at hbounds
  exact ⟨(Uvarint.read d).2.toNat, by omega, by omega, by omega⟩

theorem decode_of_count {d : Bytes} {n : ℕ} (h : (Uvarint.read d).2 = n) (hn : 0 < n) :
    Uvarint.decode d = some ((Uvarint.read d).1, d.drop n) := by
  rw [Uvarint.decode_eq, if_neg (by omega), h, Int.toNat_natCast]

theorem decode_of_nonpos {d : Bytes} (h : (Uvarint.read d).2 ≤ 0) : Uvarint.decode d = none := by
  rw [Uvarint.decode_eq, if_pos h]

/-- The three numbers of a header, if they are all there. -/
theorem readEntry_of_counts {d prev : Bytes} {n₁ n₂ n₃ : ℕ} (h₁ : (Uvarint.read d).2 = n₁)
    (h₂ : (Uvarint.read (d.drop n₁)).2 = n₂) (h₃ : (Uvarint.read (d.drop (n₁ + n₂))).2 = n₃)
    (hn₁ : 0 < n₁) (hn₂ : 0 < n₂) (hn₃ : 0 < n₃) (hlen : n₁ + n₂ + n₃ ≤ d.length) :
    readEntry d prev =
      let shared := (Uvarint.read d).1
      let unshared := (Uvarint.read (d.drop n₁)).1
      let vlen := (Uvarint.read (d.drop (n₁ + n₂))).1
      if shared ≤ prev.length ∧ n₁ + n₂ + n₃ + unshared + vlen ≤ d.length then
        some (prev.take shared ++ (d.drop (n₁ + n₂ + n₃)).take unshared,
          (d.drop (n₁ + n₂ + n₃ + unshared)).take vlen, n₁ + n₂ + n₃ + unshared + vlen)
      else
        none := by
  unfold readEntry
  rw [decode_of_count h₁ hn₁]
  dsimp only
  rw [decode_of_count h₂ hn₂]
  dsimp only
  rw [List.drop_drop, decode_of_count h₃ hn₃]
  dsimp only
  rw [List.drop_drop, List.drop_drop, List.length_drop]
  have hiff : (Uvarint.read (d.drop n₁)).1 + (Uvarint.read (d.drop (n₁ + n₂))).1 ≤
        d.length - (n₁ + n₂ + n₃) ↔
      n₁ + n₂ + n₃ + (Uvarint.read (d.drop n₁)).1 + (Uvarint.read (d.drop (n₁ + n₂))).1 ≤ d.length := by
    omega
  rw [show d.length - (d.length - (n₁ + n₂ + n₃)) = n₁ + n₂ + n₃ by omega]
  exact if_congr (and_congr_right fun _ => hiff) rfl rfl

/-- The outcome of `decodeAt` as a reading of the bytes. -/
def outcome (r : Option (Bytes × Bytes × ℕ)) : Option (Bytes × Bytes × ℤ) :=
  r.map fun e => (e.1, e.2.1, (e.2.2 : ℤ))

/-- All three numbers are there. -/
theorem decodeAt_of_counts {data prev : Bytes} {off n₁ n₂ n₃ : ℕ} (hlen : data.length < 2 ^ 63)
    (hoff : off ≤ data.length) (h₁ : (Uvarint.read (data.drop off)).2 = n₁)
    (h₂ : (Uvarint.read ((data.drop off).drop n₁)).2 = n₂)
    (h₃ : (Uvarint.read ((data.drop off).drop (n₁ + n₂))).2 = n₃)
    (hn₁ : 0 < n₁) (hn₂ : 0 < n₂) (hn₃ : 0 < n₃) (hfit : n₁ + n₂ + n₃ ≤ (data.drop off).length) :
    decodeAt data off prev =
      if Wild (data.drop off) prev then none else some (outcome (readEntry (data.drop off) prev)) := by
  have hd : (data.drop off).length < 2 ^ 63 := by
    rw [List.length_drop]
    omega
  rw [readEntry_of_counts h₁ h₂ h₃ hn₁ hn₂ hn₃ hfit]
  unfold decodeAt Wild
  rw [Slices.sliceFrom_nat hoff]
  generalize data.drop off = d at *
  have hu := Uvarint.read_lt (d.drop n₁)
  have hw := Uvarint.read_lt (d.drop (n₁ + n₂))
  simp only [Option.bind_eq_bind, Option.bind_some, h₁]
  rw [Slices.sliceFrom_nat (by omega), Option.bind_some, Int.toNat_natCast, h₂, ← Nat.cast_add,
    Slices.sliceFrom_nat (by omega), Option.bind_some, Int.toNat_natCast, h₃, ← Nat.cast_add]
  generalize hs : (Uvarint.read d).1 = sh at *
  generalize (Uvarint.read (d.drop n₁)).1 = u at *
  generalize (Uvarint.read (d.drop (n₁ + n₂))).1 = w at *
  have hsh := Slices.intOf_le_of_le (hs ▸ Uvarint.read_lt d) (n := prev.length)
  have hsums := Slices.sums_in_order hu hw hfit hd
  have hvals (h : n₁ + n₂ + n₃ + u + w ≤ d.length) := Slices.sums_of_le hd h
  generalize intOf sh = i at *
  generalize addInt (addInt (n₁ + n₂ + n₃ : ℕ) (intOf u)) (intOf w) = c at *
  generalize addInt (n₁ + n₂ + n₃ : ℕ) (intOf u) = a at *
  clear hd hlen hu hw
  by_cases htest : i ≤ prev.length ∧ c ≤ d.length
  · rw [if_neg (by omega)]
    by_cases htrue : sh ≤ prev.length ∧ n₁ + n₂ + n₃ + u + w ≤ d.length
    · obtain ⟨rfl, rfl⟩ := hvals htrue.2
      rw [if_neg (by omega), if_pos htrue,
        show (0 : ℤ) = ((0 : ℕ) : ℤ) from rfl, Slices.slice_nat (by omega) htrue.1,
        Slices.slice_nat (by omega) (by omega), Slices.slice_nat (by omega) (by omega)]
      simp only [Option.bind_some, outcome, Option.map_some, List.drop_zero]
      rw [List.drop_take, List.drop_take, Nat.add_sub_cancel_left, Nat.add_sub_cancel_left]
    · rw [if_pos (by omega)]
      by_cases hsh' : sh ≤ prev.length
      · -- the sums are not in order: one of the two slices of the entry panics
        have hnot : ¬ (((n₁ + n₂ + n₃ : ℕ) : ℤ) ≤ a ∧ a ≤ c) :=
          fun h => htrue ⟨hsh', hsums.mp ⟨h.1, h.2, htest.2⟩⟩
        rw [show (0 : ℤ) = ((0 : ℕ) : ℤ) from rfl, Slices.slice_nat (by omega) hsh', Option.bind_some]
        by_cases hord : ((n₁ + n₂ + n₃ : ℕ) : ℤ) ≤ a
        · rw [Slices.slice_of_not (s := d) (i := a) (by omega)]
          simp
        · rw [Slices.slice_of_not (s := d) (i := (n₁ + n₂ + n₃ : ℕ)) (by omega)]
          rfl
      · rw [Slices.slice_of_not (s := prev) (by omega)]
        rfl
  · rw [if_pos (by omega), if_neg (by omega), if_neg]
    · rfl
    · exact fun h => htest ⟨hsh h.1, (hsums.mpr h.2).2.2⟩

/-- **Reading an entry.**  The code panics exactly at a wild header; at every other it returns what the
bytes say, or refuses what they do not say. -/
theorem decodeAt_eq {data : Bytes} {off : ℕ} (hlen : data.length < 2 ^ 63) (hoff : off ≤ data.length)
    (prev : Bytes) :
    decodeAt data off prev =
      if Wild (data.drop off) prev then none else some (outcome (readEntry (data.drop off) prev)) := by
  rcases lt_trichotomy (Uvarint.read (data.drop off)).2 0 with hneg | hzero | hpos
  · -- the first number has more than 64 bits
    have hwild : Wild (data.drop off) prev := .inl hneg
    rw [if_pos hwild]
    unfold decodeAt
    rw [Slices.sliceFrom_nat hoff]
    simp only [Option.bind_eq_bind, Option.bind_some]
    rw [show sliceFrom (data.drop off) (Uvarint.read (data.drop off)).2 = none from
      Slices.slice_of_not (by omega)]
    rfl
  · -- the bytes end inside the first number, which is then read twice more
    have hread : readEntry (data.drop off) prev = none := by
      unfold readEntry
      rw [decode_of_nonpos (by omega)]
    have hwild : ¬ Wild (data.drop off) prev := by
      unfold Wild
      simp only [hzero, Int.toNat_zero, List.drop_zero]
      omega
    rw [if_neg hwild, hread]
    unfold decodeAt
    rw [Slices.sliceFrom_nat hoff]
    simp only [Option.bind_eq_bind, Option.bind_some, hzero]
    rw [show (0 : ℤ) = ((0 : ℕ) : ℤ) from rfl, Slices.sliceFrom_nat (Nat.zero_le _), Option.bind_some,
      List.drop_zero, hzero, show ((0 : ℕ) : ℤ) + 0 = ((0 : ℕ) : ℤ) from rfl,
      Slices.sliceFrom_nat (Nat.zero_le _), Option.bind_some, if_pos (.inl (Int.le_refl 0))]
    rfl
  · obtain ⟨n₁, h₁, hn₁, hfit₁⟩ := read_count hpos
    by_cases hpos₂ : 0 < (Uvarint.read ((data.drop off).drop n₁)).2
    · obtain ⟨n₂, h₂, hn₂, hfit₂⟩ := read_count hpos₂
      rw [List.length_drop] at hfit₂
      by_cases hpos₃ : 0 < (Uvarint.read ((data.drop off).drop (n₁ + n₂))).2
      · obtain ⟨n₃, h₃, hn₃, hfit₃⟩ := read_count hpos₃
        rw [List.length_drop] at hfit₃
        exact decodeAt_of_counts hlen hoff h₁ h₂ h₃ hn₁ hn₂ hn₃ (by omega)
      · -- the third number is refused, whatever the count of its bytes is
        have hread : readEntry (data.drop off) prev = none := by
          unfold readEntry
          rw [decode_of_count h₁ hn₁]
          dsimp only
          rw [decode_of_count h₂ hn₂]
          dsimp only
          rw [List.drop_drop, decode_of_nonpos (by omega)]
        have hwild : ¬ Wild (data.drop off) prev := by
          unfold Wild
          simp only [h₁, Int.toNat_natCast, h₂]
          rw [← Nat.cast_add, Int.toNat_natCast]
          omega
        rw [if_neg hwild, hread]
        unfold decodeAt
        rw [Slices.sliceFrom_nat hoff]
        simp only [Option.bind_eq_bind, Option.bind_some, h₁]
        rw [Slices.sliceFrom_nat (by omega), Option.bind_some, h₂, ← Nat.cast_add,
          Slices.sliceFrom_nat (by omega), Option.bind_some, if_pos (by omega)]
        rfl
    · have hread : readEntry (data.drop off) prev = none := by
        unfold readEntry
        rw [decode_of_count h₁ hn₁]
        dsimp only
        rw [decode_of_nonpos (by omega)]
      rw [hread]
      unfold decodeAt Wild
      rw [Slices.sliceFrom_nat hoff]
      simp only [Option.bind_eq_bind, Option.bind_some, h₁, Int.toNat_natCast]
      rw [Slices.sliceFrom_nat (by omega), Option.bind_some]
      by_cases hback : (n₁ : ℤ) + (Uvarint.read ((data.drop off).drop n₁)).2 < 0
      · rw [if_pos (.inr (.inl hback)),
          show sliceFrom (data.drop off) (n₁ + (Uvarint.read ((data.drop off).drop n₁)).2) = none from
            Slices.slice_of_not (by omega)]
        rfl
      · obtain ⟨m, hm⟩ : ∃ m : ℕ, (n₁ : ℤ) + (Uvarint.read ((data.drop off).drop n₁)).2 = m :=
          ⟨_, (Int.toNat_of_nonneg (not_lt.mp hback)).symm⟩
        rw [hm, Slices.sliceFrom_nat (by omega), Option.bind_some, if_pos (by omega), if_neg (by omega)]
        rfl

end Keystone.Storage
