/-
# Keystone.Lib.Slices — slices with their bounds checks, and 64-bit ints.

A LIBRARY module.  Code that slices a byte string it does not trust has three outcomes: a value, an error
it returns, and a run-time panic when a bound is out of range.  `Checked ε` is the monad of such code: an
`ExceptT ε` for the errors over an `Option` whose `none` is the panic.

Lengths come out of the bytes as 64-bit words and are used as `int`s, so `intOf` keeps the sign such a
conversion may give them and `addInt` wraps around.  Below `2 ^ 63` both are what they look like
(`intOf_of_lt`, `addInt_of_lt`), and a slice between two bounds in order is the piece of the list
(`slice_nat`).
-/
import Keystone.Lib.LittleEndian
import Keystone.Lib.Uvarint

namespace Keystone.Lib.Slices

/-- A computation that may return an error of type `ε`, or panic. -/
abbrev Checked (ε : Type*) := ExceptT ε Option

namespace Checked

variable {ε α β : Type}

/-- A computation that did not panic. -/
def done (r : Except ε α) : Checked ε α := some r

/-- An operation that panics or returns. -/
def run (o : Option α) : Checked ε α := o.map Except.ok

@[simp]
theorem run_some (a : α) : run (some a) = (done (.ok a) : Checked ε α) := rfl

@[simp]
theorem done_ok_bind (a : α) (f : α → Checked ε β) : (done (.ok a) >>= f) = f a := rfl

@[simp]
theorem done_error_bind (e : ε) (f : α → Checked ε β) : (done (.error e) >>= f) = done (.error e) := rfl

@[simp]
theorem throw_eq (e : ε) : (throw e : Checked ε α) = done (.error e) := rfl

@[simp]
theorem pure_eq (a : α) : (pure a : Checked ε α) = done (.ok a) := rfl

theorem done_inj {r r' : Except ε α} : (done r : Checked ε α) = done r' ↔ r = r' :=
  ⟨fun h => Option.some.inj h, fun h => congrArg done h⟩

end Checked

/-! ## Ints. -/

/-- `int(n)` of a 64-bit word. -/
def intOf (n : ℕ) : ℤ := (n : ℤ).bmod (2 ^ 64)

/-- `uint64(i)`. -/
def wordOf (i : ℤ) : ℕ := (i % 2 ^ 64).toNat

/-- The sum of two `int`s. -/
def addInt (i j : ℤ) : ℤ := (i + j).bmod (2 ^ 64)

theorem intOf_of_lt {n : ℕ} (h : n < 2 ^ 63) : intOf n = n := by
  unfold intOf
  rw [Int.bmod_eq_of_le] <;> omega

theorem wordOf_of_lt {n : ℕ} (h : n < 2 ^ 64) : wordOf n = n := by
  unfold wordOf
  omega

theorem addInt_of_lt {i j : ℕ} (h : i + j < 2 ^ 63) : addInt i j = (i + j : ℕ) := by
  unfold addInt
  rw [Int.bmod_eq_of_le] <;> omega

theorem intOf_neg {n : ℕ} (h : 2 ^ 63 ≤ n) (hn : n < 2 ^ 64) : intOf n = (n : ℤ) - 2 ^ 64 := by
  unfold intOf
  rw [Int.bmod_def]
  omega

theorem addInt_wrap {i j : ℤ} (h : 2 ^ 63 ≤ i + j) (hn : i + j < 2 ^ 64) :
    addInt i j = i + j - 2 ^ 64 := by
  unfold addInt
  rw [Int.bmod_def]
  omega

theorem addInt_of_bounds {i j : ℤ} (h : -2 ^ 63 ≤ i + j) (hn : i + j < 2 ^ 63) :
    addInt i j = i + j := by
  unfold addInt
  rw [Int.bmod_def]
  omega

/-- Two lengths behind a header: the 64-bit sums are in order, and end within the bytes, only if the
numbers do. -/
theorem sums_in_order {hdr u w len : ℕ} (hu : u < 2 ^ 64) (hw : w < 2 ^ 64) (hhdr : hdr ≤ len)
    (hlen : len < 2 ^ 63) :
    ((hdr : ℤ) ≤ addInt hdr (intOf u) ∧ addInt hdr (intOf u) ≤ addInt (addInt hdr (intOf u)) (intOf w) ∧
      addInt (addInt hdr (intOf u)) (intOf w) ≤ len) ↔ hdr + u + w ≤ len := by
  by_cases hu' : u < 2 ^ 63
  · rw [intOf_of_lt hu']
    by_cases hsum : hdr + u < 2 ^ 63
    · rw [addInt_of_lt hsum]
      by_cases hw' : w < 2 ^ 63
      · rw [intOf_of_lt hw']
        by_cases hall : hdr + u + w < 2 ^ 63
        · rw [addInt_of_lt hall]
          omega
        · rw [addInt_wrap (by omega) (by omega)]
          omega
      · rw [intOf_neg (by omega) hw, addInt_of_bounds (by omega) (by omega)]
        omega
    · rw [addInt_wrap (by omega) (by omega)]
      omega
  · rw [intOf_neg (by omega) hu, addInt_of_bounds (i := hdr) (by omega) (by omega)]
    omega

theorem sums_of_le {hdr u w len : ℕ} (hlen : len < 2 ^ 63) (h : hdr + u + w ≤ len) :
    addInt hdr (intOf u) = (hdr + u : ℕ) ∧
      addInt (addInt hdr (intOf u)) (intOf w) = (hdr + u + w : ℕ) := by
  have hkey : addInt hdr (intOf u) = (hdr + u : ℕ) := by
    rw [intOf_of_lt (by omega), addInt_of_lt (by omega)]
  refine ⟨hkey, ?_⟩
  rw [hkey, intOf_of_lt (by omega), addInt_of_lt (by omega)]

theorem intOf_le_of_le {m n : ℕ} (hm : m < 2 ^ 64) (h : m ≤ n) : intOf m ≤ n := by
  by_cases hbig : m < 2 ^ 63
  · rw [intOf_of_lt hbig]
    omega
  · rw [intOf_neg (by omega) hm]
    omega

/-! ## Slices. -/

variable {α : Type}

/-- `s[i:j]`. -/
def slice (s : List α) (i j : ℤ) : Option (List α) :=
  if 0 ≤ i ∧ i ≤ j ∧ j ≤ s.length then some ((s.take j.toNat).drop i.toNat) else none

/-- `s[i:]`. -/
def sliceFrom (s : List α) (i : ℤ) : Option (List α) := slice s i s.length

/-- `s[i]`. -/
def index (s : List α) (i : ℤ) : Option α := if 0 ≤ i then s[i.toNat]? else none

/-- `binary.LittleEndian.Uint32(s)` and `Uint64(s)`, of `w` bytes. -/
def word (w : ℕ) (s : List UInt8) : Option ℕ :=
  if w ≤ s.length then some (LittleEndian.decode (s.take w)) else none

theorem word_of_le {w : ℕ} {s : List UInt8} (h : w ≤ s.length) :
    word w s = some (LittleEndian.decode (s.take w)) := if_pos h

theorem slice_nat {s : List α} {i j : ℕ} (hij : i ≤ j) (hj : j ≤ s.length) :
    slice s i j = some ((s.take j).drop i) := by
  unfold slice
  rw [if_pos ⟨by omega, by omega, by omega⟩]
  simp

theorem sliceFrom_nat {s : List α} {i : ℕ} (h : i ≤ s.length) : sliceFrom s i = some (s.drop i) := by
  unfold sliceFrom
  rw [slice_nat h (Nat.le_refl _), List.take_length]

theorem slice_of_not {s : List α} {i j : ℤ} (h : ¬ (0 ≤ i ∧ i ≤ j ∧ j ≤ s.length)) :
    slice s i j = none := if_neg h

theorem index_cons_zero (a : α) (s : List α) : index (a :: s) 0 = some a := rfl

/-! ## A byte string behind its length. -/

/-- `l, k := binary.Uvarint(p)`, then `p[k:k+int(l)]` and `p[k+int(l):]`, if the length is there and is
not too large. -/
def readBytes {ε : Type} (bad : ε) (p : List UInt8) : Checked ε (List UInt8 × List UInt8) := do
  let l := (Uvarint.read p).1
  let k := (Uvarint.read p).2
  if k ≤ 0 ∨ wordOf (p.length - k) < l then
    throw bad
  else
    let out ← Checked.run (slice p k (addInt k (intOf l)))
    let rest ← Checked.run (sliceFrom p (addInt k (intOf l)))
    pure (out, rest)

/-- What `readBytes` reads, if there is no panic. -/
def takeBytes (p : List UInt8) : Option (List UInt8 × List UInt8) :=
  match Uvarint.decode p with
  | none => none
  | some (n, r) => if r.length < n then none else some (r.take n, r.drop n)

/-- The two tests keep every bound of a string that fits in memory in range. -/
theorem readBytes_eq {ε : Type} (bad : ε) {p : List UInt8} (h : p.length < 2 ^ 63) :
    readBytes bad p =
      Checked.done ((takeBytes p).elim (.error bad) .ok) := by
  unfold readBytes takeBytes
  rw [Uvarint.decode_eq]
  by_cases hneg : (Uvarint.read p).2 ≤ 0
  · rw [if_pos hneg, if_pos (.inl hneg)]
    rfl
  · obtain ⟨hpos, hle⟩ := Uvarint.readFrom_bounds hneg
    obtain ⟨k, hk⟩ : ∃ k : ℕ, (Uvarint.read p).2 = k := ⟨(Uvarint.read p).2.toNat, by omega⟩
    have hlen : k ≤ p.length := by
      rw [show (Uvarint.readFrom 0 p).2 = k from hk] at hle
      omega
    have hrest : wordOf ((p.length : ℤ) - k) = p.length - k := by
      rw [show (p.length : ℤ) - k = (p.length - k : ℕ) by omega, wordOf_of_lt (by omega)]
    rw [if_neg hneg, hk]
    dsimp only
    rw [hrest, Int.toNat_natCast, List.length_drop]
    by_cases hbig : p.length - k < (Uvarint.read p).1
    · rw [if_pos (.inr hbig), if_pos hbig]
      rfl
    · rw [if_neg (by omega), if_neg hbig, intOf_of_lt (by omega), addInt_of_lt (by omega),
        slice_nat (by omega) (by omega), sliceFrom_nat (by omega)]
      simp only [Checked.run_some, Checked.done_ok_bind, Checked.pure_eq]
      rw [List.drop_take, List.drop_drop, Nat.add_sub_cancel_left]
      rfl

/-- A string read is no longer than what it was read from; writing it again takes no more bytes. -/
theorem takeBytes_length {p bs rest : List UInt8} (h : takeBytes p = some (bs, rest)) :
    (Uvarint.encode bs.length).length + bs.length + rest.length ≤ p.length := by
  unfold takeBytes at h
  rw [Uvarint.decode_eq] at h
  by_cases hneg : (Uvarint.read p).2 ≤ 0
  · rw [if_pos hneg] at h
    cases h
  · rw [if_neg hneg] at h
    dsimp only at h
    split at h
    · cases h
    · next hlt =>
      obtain ⟨rfl, rfl⟩ := Prod.mk.inj (Option.some.inj h)
      obtain ⟨-, hle⟩ := Uvarint.readFrom_bounds hneg
      have henc := Uvarint.length_encode_readFrom hneg
      rw [show Uvarint.readFrom 0 p = Uvarint.read p from rfl] at hle henc
      rw [List.length_take, List.length_drop, List.length_drop, List.length_drop] at *
      rw [Nat.min_eq_left (Nat.not_lt.mp hlt)]
      omega

theorem takeBytes_append {bs : List UInt8} (h : bs.length < 2 ^ 64) (rest : List UInt8) :
    takeBytes (Uvarint.encode bs.length ++ bs ++ rest) = some (bs, rest) := by
  unfold takeBytes
  rw [List.append_assoc, Uvarint.decode_encode h]
  simp

end Keystone.Lib.Slices
