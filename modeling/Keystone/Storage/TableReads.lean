/-
# Keystone.Storage.TableReads — reading a table of any bytes.

`Reads bytes ies es ok` is what the data blocks behind the index entries `ies` hold: all their entries, or
those in front of the first block that cannot be opened and the first entry that does not decode.
`Enters` is the same with another way into the first block, as `seek` has it.  On a `Sane` table, whose
bytes have nothing the code panics at and whose index decodes, the iterator goes from entry to entry of
exactly these and then reports whether there was a fault (`TableFile.runs_seekToFirst`,
`TableFile.runs_seek`).  A table need not be well formed to be sane: its blocks may be missing, corrupt or
malformed.
-/
import Keystone.Storage.BlockReads
import Keystone.Storage.SSTable

namespace Keystone.Storage

open Keystone.Lib
open Keystone.Lib.Slices (Checked)

variable {crc : Bytes → UInt32}

/-! ## The block behind an index entry. -/

/-- The block an index entry leads to: a place, the bytes there, and their two parts. -/
def leadsTo (crc : Bytes → UInt32) (bytes v : Bytes) : Option (Except TableError BlockIter) :=
  (decodeHandle v).bind fun p =>
    if p.2 then
      match readBlock crc bytes p.1 with
      | .error e => some (.error e)
      | .ok data => newBlockIter data
    else
      some (.error .badTable)

theorem decodeHandle_total {v : Bytes} (h : 0 ≤ (Uvarint.read v).2) : ∃ p, decodeHandle v = some p := by
  unfold decodeHandle
  obtain ⟨n, hn⟩ : ∃ n : ℕ, (Uvarint.read v).2 = n := ⟨_, (Int.toNat_of_nonneg h).symm⟩
  have hle : n ≤ v.length := by
    by_cases hpos : 0 < (Uvarint.read v).2
    · obtain ⟨m, hm, -, hfit⟩ := read_count hpos
      omega
    · omega
  simp only [hn, Slices.sliceFrom_nat hle, Option.bind_eq_bind, Option.bind_some]
  exact ⟨_, rfl⟩

theorem readBlock_mem {bytes data : Bytes} {h : BlockHandle} (hr : readBlock crc bytes h = .ok data) :
    data.length ≤ bytes.length := by
  unfold readBlock at hr
  split at hr
  · cases hr
  split at hr
  · cases hr
  dsimp only at hr
  split at hr
  · cases hr
  · obtain rfl := Except.ok.inj hr
    rw [List.length_take, List.length_drop]
    omega

theorem leadsTo_total (crc : Bytes → UInt32) (bytes : Bytes) {v : Bytes} (h : 0 ≤ (Uvarint.read v).2) :
    ∃ r, leadsTo crc bytes v = some r := by
  obtain ⟨⟨p, ok⟩, hp⟩ := decodeHandle_total h
  unfold leadsTo
  rw [hp, Option.bind_some]
  cases ok with
  | false => exact ⟨.error .badTable, if_neg Bool.false_ne_true⟩
  | true =>
    rw [if_pos rfl]
    cases readBlock crc bytes p with
    | error e => exact ⟨.error e, rfl⟩
    | ok data =>
      obtain ⟨r, hr, -⟩ := newBlockIter_total data
      exact ⟨r, hr⟩

/-- A block that opens is a part of the file, ready to be read. -/
theorem leadsTo_ok {bytes v : Bytes} {b : BlockIter} (h : leadsTo crc bytes v = some (.ok b)) :
    b.data.length ≤ bytes.length ∧ b.err = none ∧ ∀ r ∈ b.restarts, r ≤ b.data.length := by
  unfold leadsTo at h
  obtain ⟨⟨p, ok⟩, -, h⟩ := Option.bind_eq_some_iff.mp h
  split at h
  · split at h
    · cases h
    · next data hdata =>
      obtain ⟨r, hr, hsplits⟩ := newBlockIter_total data
      rw [hr] at h
      obtain rfl := Option.some.inj h
      have hs := hsplits b rfl
      exact ⟨hs.data.length_le.trans (readBlock_mem hdata), hs.err, hs.restarts⟩
  · cases h

/-! ## What the data blocks hold. -/

/-- The entries of the blocks behind the index entries, and whether all of them could be read. -/
inductive Reads (crc : Bytes → UInt32) (bytes : Bytes) :
    List (Bytes × Bytes) → List (Bytes × Bytes) → Bool → Prop
  | nil : Reads crc bytes [] [] true
  | unreadable {e : Bytes × Bytes} {ies : List (Bytes × Bytes)} {err : TableError}
      (h : leadsTo crc bytes e.2 = some (.error err)) : Reads crc bytes (e :: ies) [] false
  | broken {e : Bytes × Bytes} {ies es : List (Bytes × Bytes)} {b : BlockIter}
      (h : leadsTo crc bytes e.2 = some (.ok b)) (hw : BlockWalk b.data 0 [] es false) :
      Reads crc bytes (e :: ies) es false
  | block {e : Bytes × Bytes} {ies es es' : List (Bytes × Bytes)} {b : BlockIter} {ok : Bool}
      (h : leadsTo crc bytes e.2 = some (.ok b)) (hw : BlockWalk b.data 0 [] es true)
      (hrest : Reads crc bytes ies es' ok) : Reads crc bytes (e :: ies) (es ++ es') ok

/-- The same, where the first block is entered another way. -/
inductive Enters (crc : Bytes → UInt32) (bytes : Bytes)
    (first : BlockIter → List (Bytes × Bytes) → Bool → Prop) :
    List (Bytes × Bytes) → List (Bytes × Bytes) → Bool → Prop
  | nil : Enters crc bytes first [] [] true
  | unreadable {e : Bytes × Bytes} {ies : List (Bytes × Bytes)} {err : TableError}
      (h : leadsTo crc bytes e.2 = some (.error err)) : Enters crc bytes first (e :: ies) [] false
  | broken {e : Bytes × Bytes} {ies es : List (Bytes × Bytes)} {b : BlockIter}
      (h : leadsTo crc bytes e.2 = some (.ok b)) (hf : first b es false) :
      Enters crc bytes first (e :: ies) es false
  | block {e : Bytes × Bytes} {ies es es' : List (Bytes × Bytes)} {b : BlockIter} {ok : Bool}
      (h : leadsTo crc bytes e.2 = some (.ok b)) (hf : first b es true)
      (hrest : Reads crc bytes ies es' ok) : Enters crc bytes first (e :: ies) (es ++ es') ok

/-- From the first entry of a block. -/
def FromStart (b : BlockIter) (es : List (Bytes × Bytes)) (ok : Bool) : Prop := BlockWalk b.data 0 [] es ok

/-- From the first entry not below `target` behind some restart point; without restart points there is
none. -/
def FromRestart (target : Bytes) (b : BlockIter) (es : List (Bytes × Bytes)) (ok : Bool) : Prop :=
  (b.restarts = [] ∧ es = [] ∧ ok = true) ∨
    ∃ i r all, b.restarts[i]? = some r ∧ BlockWalk b.data r [] all ok ∧
      (i = 0 ∨ ∃ e ∈ all.head?, BlockIter.below target e = true) ∧
      es = all.dropWhile (BlockIter.below target)

/-- Reading on from the start of every block is one way to enter the first. -/
theorem Reads.enters {bytes : Bytes} {ies es : List (Bytes × Bytes)} {ok : Bool}
    (h : Reads crc bytes ies es ok) : Enters crc bytes FromStart ies es ok := by
  cases h with
  | nil => exact .nil
  | unreadable h => exact .unreadable h
  | broken h hw => exact .broken h hw
  | block h hw hrest => exact .block h hw hrest

/-- An index entry the code does not panic at: the first number of its handle has no more than 64 bits,
and the block it leads to, if it opens, is tame. -/
structure TameEntry (crc : Bytes → UInt32) (bytes : Bytes) (e : Bytes × Bytes) : Prop where
  handle : 0 ≤ (Uvarint.read e.2).2
  block : ∀ b, leadsTo crc bytes e.2 = some (.ok b) → TameBlock b

theorem reads_exists {bytes : Bytes} {ies : List (Bytes × Bytes)}
    (h : ∀ e ∈ ies, TameEntry crc bytes e) : ∃ es ok, Reads crc bytes ies es ok := by
  induction ies with
  | nil => exact ⟨[], true, .nil⟩
  | cons e ies ih =>
    obtain ⟨he, hies⟩ := List.forall_mem_cons.mp h
    obtain ⟨r, hr⟩ := leadsTo_total crc bytes he.handle
    cases r with
    | error err => exact ⟨[], false, .unreadable hr⟩
    | ok b =>
      obtain ⟨es, ok, hw⟩ := he.block b hr 0 List.mem_cons_self
      obtain ⟨es', ok', hrest⟩ := ih hies
      cases ok with
      | false => exact ⟨es, false, .broken hr hw⟩
      | true => exact ⟨es ++ es', ok', .block hr hw hrest⟩

/-- There is a way on, if there is a way into every block. -/
theorem enters_exists {bytes : Bytes} {first : BlockIter → List (Bytes × Bytes) → Bool → Prop}
    {ies : List (Bytes × Bytes)} (h : ∀ e ∈ ies, TameEntry crc bytes e)
    (hf : ∀ e ∈ ies.head?, ∀ b, leadsTo crc bytes e.2 = some (.ok b) → ∃ es ok, first b es ok) :
    ∃ es ok, Enters crc bytes first ies es ok := by
  cases ies with
  | nil => exact ⟨[], true, .nil⟩
  | cons e ies =>
    obtain ⟨he, hies⟩ := List.forall_mem_cons.mp h
    obtain ⟨r, hr⟩ := leadsTo_total crc bytes he.handle
    cases r with
    | error err => exact ⟨[], false, .unreadable hr⟩
    | ok b =>
      obtain ⟨es, ok, hb⟩ := hf e rfl b hr
      obtain ⟨es', ok', hrest⟩ := reads_exists hies
      cases ok with
      | false => exact ⟨es, false, .broken hr hb⟩
      | true => exact ⟨es ++ es', ok', .block hr hb hrest⟩

/-! ## The iterator. -/

namespace TableIter

variable {it it' : TableIter} {idx : BlockIter} {es : List (Bytes × Bytes)} {ok : Bool}

/-- What the index still leads to. -/
def Ahead (crc : Bytes → UInt32) (t : TableFile) (idx : BlockIter) (ies es : List (Bytes × Bytes))
    (ok : Bool) : Prop :=
  idx.err = none ∧ idx.data.length ≤ t.index.length ∧ t.index.length ≤ t.bytes.length ∧
    (∃ n : ℕ, idx.nextOff = n ∧ BlockWalk idx.data n idx.k ies true) ∧ Reads crc t.bytes ies es ok

/-- The block holds the first of `es`, which its rest and the blocks behind it hold together. -/
def Ready (crc : Bytes → UInt32) (it : TableIter) (ies es : List (Bytes × Bytes)) (ok : Bool) : Prop :=
  it.err = none ∧ ∃ idx b es₁ es₂ ok₁, it.index = some idx ∧ it.block = some b ∧ b.At es₁ ok₁ ∧
    b.data.length ≤ it.t.bytes.length ∧ es = es₁ ++ es₂ ∧
    ((ok₁ = false ∧ ok = false ∧ es₂ = []) ∨ (ok₁ = true ∧ Ahead crc it.t idx ies es₂ ok))

/-- The iterator stands at the first of `es`, or behind the last entry. -/
def At (crc : Bytes → UInt32) (it : TableIter) (es : List (Bytes × Bytes)) (ok : Bool) : Prop :=
  (it.valid = true ∧ es ≠ [] ∧ ∃ ies, it.Ready crc ies es ok) ∨
    (it.valid = false ∧ es = [] ∧ (it.err = none ↔ ok = true))

theorem loadBlock_of_ok {b : BlockIter} (herr : it.err = none) (hidx : it.index = some idx)
    (hv : idx.valid = true) (h : leadsTo crc it.t.bytes idx.v = some (.ok b)) :
    it.loadBlock crc = some ({ it with block := some b, err := none }, true) := by
  unfold leadsTo at h
  obtain ⟨⟨p, ok⟩, hp, h⟩ := Option.bind_eq_some_iff.mp h
  unfold TableIter.loadBlock
  rw [if_neg (not_not.mpr herr)]
  simp only [hidx, Option.bind_eq_bind, Option.bind_some, if_pos hv, hp]
  cases ok with
  | false => cases h
  | true =>
    rw [if_pos rfl] at h
    dsimp only at h ⊢
    cases hr : readBlock crc it.t.bytes p with
    | error e =>
      rw [hr] at h
      cases h
    | ok data =>
      rw [hr] at h
      dsimp only at h ⊢
      rw [show ExceptT.run (newBlockIter data) = some (.ok b) from h]
      rfl

theorem loadBlock_of_error {e : TableError} (herr : it.err = none) (hidx : it.index = some idx)
    (hv : idx.valid = true) (h : leadsTo crc it.t.bytes idx.v = some (.error e)) :
    ∃ it', it.loadBlock crc = some (it', false) ∧ it'.err = some e ∧ it'.t = it.t := by
  unfold leadsTo at h
  obtain ⟨⟨p, ok⟩, hp, h⟩ := Option.bind_eq_some_iff.mp h
  unfold TableIter.loadBlock
  rw [if_neg (not_not.mpr herr)]
  simp only [hidx, Option.bind_eq_bind, Option.bind_some, if_pos hv, hp]
  cases ok with
  | false =>
    rw [if_neg Bool.false_ne_true] at h
    obtain rfl := Except.error.inj (Option.some.inj h)
    exact ⟨_, rfl, rfl, rfl⟩
  | true =>
    rw [if_pos rfl] at h
    dsimp only at h ⊢
    cases hr : readBlock crc it.t.bytes p with
    | error e' =>
      rw [hr] at h
      obtain rfl := Except.error.inj (Option.some.inj h)
      exact ⟨_, rfl, rfl, rfl⟩
    | ok data =>
      rw [hr] at h
      dsimp only at h ⊢
      rw [show ExceptT.run (newBlockIter data) = some (.error e) from h]
      exact ⟨_, rfl, rfl, rfl⟩

/-- Behind the last index entry there is no block. -/
theorem loadBlock_of_end (herr : it.err = none) (hidx : it.index = some idx) (hv : idx.valid = false) :
    it.loadBlock crc = some ({ it with block := none }, false) := by
  unfold TableIter.loadBlock
  rw [if_neg (not_not.mpr herr)]
  simp [hidx, hv]

theorem valid_of_err {e : TableError} (h : it.err = some e) : it.valid = false := by
  simp [TableIter.valid, h]

theorem valid_of_none (h : it.block = none) : it.valid = false := by
  simp [TableIter.valid, h]

theorem at_of_err {e : TableError} (h : it.err = some e) : it.At crc [] false :=
  .inr ⟨valid_of_err h, rfl, by simp [h]⟩

/-- After a move of the index: its entry is loaded and entered, or there is none. -/
theorem loadAnd_at {place : BlockIter → Option BlockIter}
    {first : BlockIter → List (Bytes × Bytes) → Bool → Prop} {ies : List (Bytes × Bytes)}
    (hlen : it.t.bytes.length < 2 ^ 63) (herr : it.err = none) (hidx : it.index = some idx)
    (hdata : idx.data.length ≤ it.t.index.length) (hfile : it.t.index.length ≤ it.t.bytes.length)
    (hat : idx.At ies true) (hent : Enters crc it.t.bytes first ies es ok)
    (hplace : ∀ b es ok, b.data.length < 2 ^ 63 → b.err = none → (∀ r ∈ b.restarts, r ≤ b.data.length) →
      first b es ok → ∃ b', place b = some b' ∧ b'.At es ok ∧ BlockIter.Moved b b') :
    ∃ r, it.loadAnd crc place = some r ∧ r.1.t = it.t ∧
      (r.2 = false → r.1.At crc es ok) ∧
      (r.2 = true → ies ≠ [] ∧ r.1.Ready crc ies.tail es ok) := by
  unfold TableIter.loadAnd
  cases hent with
  | nil =>
    have hend := hat.valid_nil
    rw [loadBlock_of_end herr hidx hend]
    refine ⟨({ it with block := none }, false), rfl, rfl, fun _ => .inr ⟨valid_of_none rfl, rfl, ?_⟩,
      fun h => by cases h⟩
    simp [herr]
  | @unreadable e ies err h =>
    have hv := hat.valid_cons
    obtain ⟨-, -, -, hval, -⟩ := hat
    obtain ⟨it', hload, herr', ht⟩ := loadBlock_of_error herr hidx hv (by rw [hval]; exact h)
    rw [hload]
    exact ⟨(it', false), rfl, ht, fun _ => at_of_err herr', fun h => by cases h⟩
  | @broken e ies es b h hf =>
    have hv := hat.valid_cons
    obtain ⟨-, -, -, hval, -⟩ := hat
    obtain ⟨hblen, hberr, hres⟩ := leadsTo_ok h
    obtain ⟨b', hb', hat', hmoved⟩ := hplace b es false (by omega) hberr hres hf
    rw [loadBlock_of_ok herr hidx hv (by rw [hval]; exact h)]
    refine ⟨({ it with block := some b', err := none }, true), ?_, rfl, fun h => (by cases h), fun _ =>
      ⟨List.cons_ne_nil _ _, rfl, idx, b', es, [], false, hidx, rfl, hat', ?_, (List.append_nil es).symm,
        .inl ⟨rfl, rfl, rfl⟩⟩⟩
    · simp [hb']
    · rw [hmoved.data]
      exact hblen
  | @block e ies es es' b _ h hf hrest =>
    have hv := hat.valid_cons
    obtain ⟨-, hierr, -, hval, hwalk⟩ := hat
    obtain ⟨hblen, hberr, hres⟩ := leadsTo_ok h
    obtain ⟨b', hb', hat', hmoved⟩ := hplace b es true (by omega) hberr hres hf
    rw [loadBlock_of_ok herr hidx hv (by rw [hval]; exact h)]
    refine ⟨({ it with block := some b', err := none }, true), ?_, rfl, fun h => (by cases h), fun _ =>
      ⟨List.cons_ne_nil _ _, rfl, idx, b', es, es', true, hidx, rfl, hat', ?_, rfl,
        .inr ⟨rfl, hierr, hdata, hfile, hwalk, hrest⟩⟩⟩
    · simp [hb']
    · rw [hmoved.data]
      exact hblen

theorem place_first (b : BlockIter) (es : List (Bytes × Bytes)) (ok : Bool)
    (hlen : b.data.length < 2 ^ 63) (herr : b.err = none) (_ : ∀ r ∈ b.restarts, r ≤ b.data.length)
    (h : FromStart b es ok) : ∃ b', b.seekToFirst = some b' ∧ b'.At es ok ∧ BlockIter.Moved b b' :=
  BlockIter.seekToFirst_at hlen herr h

/-- `skipExhausted` goes on to the next entry, over as many blocks as have none. -/
theorem skipLoop_at {ies : List (Bytes × Bytes)} {fuel : ℕ} (hlen : it.t.bytes.length < 2 ^ 63)
    (h : it.Ready crc ies es ok) (hfuel : ies.length < fuel) :
    ∃ it', skipLoop crc fuel it = some it' ∧ it'.At crc es ok ∧ it'.t = it.t := by
  -- one index entry a turn
  induction fuel generalizing it ies es with
  | zero => omega
  | succ fuel ih =>
    have hready := h
    obtain ⟨herr, idx, b, es₁, es₂, ok₁, hidx, hblock, hb, hbytes, rfl, hgo⟩ := h
    unfold skipLoop
    rw [hblock]
    dsimp only
    cases es₁ with
    | cons e es₁ =>
      have hbv := hb.valid_cons
      have hv : it.valid = true := by
        simp [TableIter.valid, herr, hblock, hbv]
      rw [if_pos (.inl hbv)]
      exact ⟨it, rfl, .inl ⟨hv, by simp, ies, hready⟩, rfl⟩
    | nil =>
      have hbv := hb.valid_nil
      obtain ⟨-, hberr⟩ := hb
      rw [if_neg (by simp [herr, hbv])]
      rcases hgo with ⟨rfl, rfl, rfl⟩ | ⟨rfl, hahead⟩
      · -- the entry the block ends in does not decode
        rw [if_neg Bool.false_ne_true] at hberr
        rw [if_pos (by rw [hberr]; simp)]
        exact ⟨_, rfl, at_of_err hberr, rfl⟩
      · rw [if_pos rfl] at hberr
        obtain ⟨hierr, hdata, hfile, ⟨n, hn, hw⟩, hreads⟩ := hahead
        obtain ⟨idx', hnext, hat, hmoved⟩ := BlockIter.next_at (by omega) hierr hn hw
        rw [if_neg (by rw [hberr]; simp), hidx]
        simp only [Option.bind_eq_bind, Option.bind_some, hnext]
        obtain ⟨r, hr, ht, hstop, hon⟩ : ∃ r, loadAnd crc { it with index := some idx' }
            BlockIter.seekToFirst = some r ∧ _ :=
          loadAnd_at hlen herr rfl (by rw [hmoved.data]; exact hdata) hfile hat hreads.enters place_first
        rw [← hblock, hr, Option.bind_some, List.nil_append]
        cases hr2 : r.2 with
        | false => exact ⟨r.1, if_neg Bool.false_ne_true, hstop hr2, ht⟩
        | true =>
          obtain ⟨hne, hready⟩ := hon hr2
          have hpos := List.length_pos_iff.mpr hne
          obtain ⟨it', hskip, hat', ht'⟩ := ih (by rw [ht]; exact hlen) hready (by
            rw [List.length_tail]
            omega)
          exact ⟨it', hskip, hat', ht'.trans ht⟩

theorem Ahead.entries_le {ies : List (Bytes × Bytes)} {t : TableFile} (h : Ahead crc t idx ies es ok) :
    ies.length ≤ t.index.length := by
  obtain ⟨-, hdata, -, ⟨n, -, hw⟩, -⟩ := h
  have := hw.length_le
  omega

theorem skipExhausted_at {ies : List (Bytes × Bytes)} (hlen : it.t.bytes.length < 2 ^ 63)
    (h : it.Ready crc ies es ok) :
    ∃ it', it.skipExhausted crc = some it' ∧ it'.At crc es ok ∧ it'.t = it.t := by
  obtain ⟨herr, idx, b, es₁, es₂, ok₁, hidx, hblock, hb, hbytes, hes, hgo⟩ := h
  rcases hgo with ⟨h1, h2, h3⟩ | ⟨h1, hahead⟩
  · -- the index is not looked at again
    have hready : it.Ready crc [] es ok :=
      ⟨herr, idx, b, es₁, es₂, ok₁, hidx, hblock, hb, hbytes, hes, .inl ⟨h1, h2, h3⟩⟩
    exact skipLoop_at hlen hready (Nat.succ_pos _)
  · have hready : it.Ready crc ies es ok :=
      ⟨herr, idx, b, es₁, es₂, ok₁, hidx, hblock, hb, hbytes, hes, .inr ⟨h1, hahead⟩⟩
    exact skipLoop_at hlen hready (Nat.lt_succ_of_le hahead.entries_le)

/-- `next` goes to the entry behind. -/
theorem At.next {e : Bytes × Bytes} (hlen : it.t.bytes.length < 2 ^ 63) (h : it.At crc (e :: es) ok) :
    it.key = some e.1 ∧ it.value = some e.2 ∧
      ∃ it', it.next crc = some it' ∧ it'.At crc es ok ∧ it'.t = it.t := by
  rcases h with ⟨hv, -, ies, hready⟩ | ⟨-, hnil, -⟩
  case inr => cases hnil
  obtain ⟨herr, idx, b, es₁, es₂, ok₁, hidx, hblock, hb, hbytes, hes, hgo⟩ := hready
  cases es₁ with
  | nil =>
    have hbv := hb.valid_nil
    simp [TableIter.valid, hblock, hbv] at hv
  | cons e' es₁ =>
    obtain ⟨rfl, rfl⟩ := List.cons.inj hes
    have hb' := hb
    obtain ⟨-, -, hk, hval, -⟩ := hb'
    refine ⟨by simp [key, hblock, hk], by simp [value, hblock, hval], ?_⟩
    obtain ⟨b', hnext, hat, hmoved⟩ := hb.next (by omega)
    have hready : Ready crc { it with block := some b' } ies (es₁ ++ es₂) ok :=
      ⟨herr, idx, b', es₁, es₂, ok₁, hidx, rfl, hat, by rw [hmoved.data]; exact hbytes, rfl, hgo⟩
    obtain ⟨it', hskip, hat', ht⟩ := skipExhausted_at (by exact hlen) hready
    refine ⟨it', ?_, hat', ht⟩
    unfold TableIter.next
    simp only [hblock, Option.bind_eq_bind, Option.bind_some, hnext]
    exact hskip

theorem At.valid {es : List (Bytes × Bytes)} (h : it.At crc es ok) : it.valid = !es.isEmpty := by
  rcases h with ⟨hv, hne, -⟩ | ⟨hv, rfl, -⟩
  · rw [hv]
    simpa using hne
  · exact hv

/-- `next` until the iterator is exhausted: the entries on the way, and where it ends. -/
inductive Drains (crc : Bytes → UInt32) : TableIter → List (Bytes × Bytes) → TableIter → Prop
  | exhausted {it : TableIter} (h : it.valid = false) : Drains crc it [] it
  | next {it it' it'' : TableIter} {k v : Bytes} {es : List (Bytes × Bytes)} (h : it.valid = true)
      (hk : it.key = some k) (hv : it.value = some v) (hn : it.next crc = some it')
      (hrest : Drains crc it' es it'') : Drains crc it ((k, v) :: es) it''

/-- From a place the iterator comes to the end, and closing it tells whether there was a fault. -/
theorem At.drains (hlen : it.t.bytes.length < 2 ^ 63) (h : it.At crc es ok) :
    ∃ it', Drains crc it es it' ∧ (it'.close = none ↔ ok = true) := by
  induction es generalizing it with
  | nil =>
    rcases h with ⟨-, hne, -⟩ | ⟨hv, -, hend⟩
    · exact absurd rfl hne
    · exact ⟨it, .exhausted hv, hend⟩
  | cons e es ih =>
    obtain ⟨hk, hv, it', hnext, hat, ht⟩ := h.next hlen
    obtain ⟨it'', hdrains, hend⟩ := ih (by rw [ht]; exact hlen) hat
    exact ⟨it'', .next (by rw [h.valid]; rfl) hk hv hnext hdrains, hend⟩

/-- `seekToFirst` and `seek`, where `place` finds what `first` says. -/
theorem enter_at {place : BlockIter → Option BlockIter}
    {first : BlockIter → List (Bytes × Bytes) → Bool → Prop} {ies : List (Bytes × Bytes)}
    (hlen : it.t.bytes.length < 2 ^ 63) (herr : it.err = none) (hidx : it.index = some idx)
    (hsplit : Splits it.t.index idx) (hfile : it.t.index.length ≤ it.t.bytes.length)
    (hfirst : first idx ies true) (hent : Enters crc it.t.bytes first ies es ok)
    (hplace : ∀ b es ok, b.data.length < 2 ^ 63 → b.err = none → (∀ r ∈ b.restarts, r ≤ b.data.length) →
      first b es ok → ∃ b', place b = some b' ∧ b'.At es ok ∧ BlockIter.Moved b b') :
    ∃ it', it.enter crc place = some it' ∧ it'.At crc es ok ∧ it'.t = it.t := by
  have hdata := hsplit.data.length_le
  obtain ⟨idx', hidx', hat, hmoved⟩ :=
    hplace idx ies true (by omega) hsplit.err hsplit.restarts hfirst
  obtain ⟨r, hr, ht, hstop, hon⟩ : ∃ r, loadAnd crc { it with index := some idx' } place = some r ∧ _ :=
    loadAnd_at hlen herr rfl (by rw [hmoved.data]; exact hdata) hfile hat hent hplace
  unfold TableIter.enter
  rw [if_neg (not_not.mpr herr)]
  simp only [hidx, Option.bind_eq_bind, Option.bind_some, hidx', hr]
  cases hr2 : r.2 with
  | false => exact ⟨r.1, if_neg Bool.false_ne_true, hstop hr2, ht⟩
  | true =>
    obtain ⟨it', hskip, hat', ht'⟩ := skipExhausted_at (by rw [ht]; exact hlen) (hon hr2).2
    exact ⟨it', hskip, hat', ht'.trans ht⟩

end TableIter

/-! ## Sane tables. -/

/-- What `seek` finds in a block. -/
def SeekFinds (target : Bytes) (b : BlockIter) (es : List (Bytes × Bytes)) (ok : Bool) : Prop :=
  FromRestart target b es ok ∧ ∃ b', b.seek target = some b' ∧ b'.At es ok ∧ BlockIter.Moved b b'

theorem seekFinds {target : Bytes} (ht : trailerSize ≤ target.length) {b : BlockIter}
    (hlen : b.data.length < 2 ^ 63) (herr : b.err = none) (hres : ∀ r ∈ b.restarts, r ≤ b.data.length)
    (htame : TameBlock b) : ∃ es ok, SeekFinds target b es ok := by
  by_cases hne : b.restarts = []
  · refine ⟨[], true, .inl ⟨hne, rfl, rfl⟩, _, BlockIter.seek_of_nil hne, ⟨rfl, herr⟩, ⟨rfl, rfl⟩⟩
  · obtain ⟨i, r, es, ok, hi, hw, hlow, hseek⟩ := BlockIter.seek_at ht hlen herr hres htame hne
    exact ⟨_, ok, .inr ⟨i, r, es, hi, hw, hlow, rfl⟩, hseek⟩

theorem SeekFinds.unique {target : Bytes} {b : BlockIter} {es es' : List (Bytes × Bytes)} {ok ok' : Bool}
    (h : SeekFinds target b es ok) (h' : SeekFinds target b es' ok') : es = es' ∧ ok = ok' := by
  obtain ⟨-, b₁, hseek, hat, -⟩ := h
  obtain ⟨-, b₂, hseek', hat', -⟩ := h'
  obtain rfl := Option.some.inj (hseek.symm.trans hseek')
  exact hat.unique hat'

/-- A table whose bytes have nothing the code panics at, and whose index decodes.

* The filter's bits are not a multiple of 2^32 of them, unless there is nothing to look up.
* The entries of the index, from its start and from each of its restart points, all decode: no header is
  wild, every key has a trailer, and so on to the end.
* No index entry's handle begins with a number of more than 64 bits.
* In every data block an index entry leads to, no header is wild and no key lacks its trailer, again from
  its start and from each restart point.  Its entries may end in one that does not decode. -/
structure Sane (crc : Bytes → UInt32) (t : TableFile) : Prop where
  bloom : t.bloom.length < 2 ∨ t.bloom.headD 0 = 0 ∨ (t.bloom.length - 1) % 2 ^ 29 ≠ 0
  index : ∀ idx, newBlockIter t.index = Checked.done (.ok idx) → ∀ r ∈ 0 :: idx.restarts,
    ∃ ies, BlockWalk idx.data r [] ies true ∧ ∀ e ∈ ies, TameEntry crc t.bytes e

/-- The iterator is opened, moved by `op`, and read to its end: it gives `es`, and closing it gives an
error exactly if not `ok`. -/
def Runs (crc : Bytes → UInt32) (t : TableFile) (op : TableIter → Option TableIter)
    (es : List (Bytes × Bytes)) (ok : Bool) : Prop :=
  ∃ it it' it'', t.iter = some it ∧ op it = some it' ∧ TableIter.Drains crc it' es it'' ∧
    (it''.close = none ↔ ok = true)

namespace TableFile

variable {t : TableFile}

theorem iter_of_ok {idx : BlockIter} (h : newBlockIter t.index = Checked.done (.ok idx)) :
    t.iter = some { t := t, index := some idx } := by
  unfold TableFile.iter
  rw [show ExceptT.run (newBlockIter t.index) = some (.ok idx) from h]
  rfl

theorem iter_of_error {e : TableError} (h : newBlockIter t.index = Checked.done (.error e)) :
    t.iter = some { t := t, index := none, err := some e } := by
  unfold TableFile.iter
  rw [show ExceptT.run (newBlockIter t.index) = some (.error e) from h]
  rfl

theorem splits_of_ok {idx : BlockIter} (h : newBlockIter t.index = Checked.done (.ok idx)) :
    Splits t.index idx := by
  obtain ⟨r, hr, hsplits⟩ := newBlockIter_total t.index
  rw [hr, Checked.done_inj] at h
  exact hsplits idx h

theorem runs_seekToFirst {idx : BlockIter} (hsane : Sane crc t) (hlen : t.bytes.length < 2 ^ 63)
    (hfile : t.index.length ≤ t.bytes.length) (h : newBlockIter t.index = Checked.done (.ok idx)) :
    ∃ ies es ok, BlockWalk idx.data 0 [] ies true ∧ Reads crc t.bytes ies es ok ∧
      Runs crc t (·.seekToFirst crc) es ok := by
  obtain ⟨ies, hw, htame⟩ := hsane.index idx h 0 List.mem_cons_self
  obtain ⟨es, ok, hreads⟩ := reads_exists htame
  obtain ⟨it', henter, hat, ht⟩ : ∃ it', TableIter.enter crc { t := t, index := some idx }
      BlockIter.seekToFirst = some it' ∧ _ :=
    TableIter.enter_at hlen rfl rfl (splits_of_ok h) hfile hw hreads.enters TableIter.place_first
  obtain ⟨it'', hdrains, hend⟩ := hat.drains (by rw [ht]; exact hlen)
  exact ⟨ies, es, ok, hw, hreads, _, it', it'', iter_of_ok h, henter, hdrains, hend⟩

/-- Where `seek` leads, and what is read from there. -/
theorem seek_at {idx : BlockIter} (hsane : Sane crc t) (hlen : t.bytes.length < 2 ^ 63)
    (hfile : t.index.length ≤ t.bytes.length) (h : newBlockIter t.index = Checked.done (.ok idx))
    {target : Bytes} (ht : trailerSize ≤ target.length) :
    ∃ ies es ok, SeekFinds target idx ies true ∧ Enters crc t.bytes (SeekFinds target) ies es ok ∧
      ∃ it', TableIter.seek crc { t := t, index := some idx } target = some it' ∧ it'.At crc es ok ∧
        it'.t = t := by
  have hsplit := splits_of_ok h
  have hdata := hsplit.data.length_le
  have htame : TameBlock idx := fun r hr => by
    obtain ⟨ies, hw, -⟩ := hsane.index idx h r hr
    exact ⟨ies, true, hw⟩
  obtain ⟨ies, ok₁, hfound⟩ := seekFinds ht (by omega) hsplit.err hsplit.restarts htame
  obtain ⟨rfl, hent⟩ : ok₁ = true ∧ ∀ e ∈ ies, TameEntry crc t.bytes e := by
    rcases hfound.1 with ⟨-, rfl, rfl⟩ | ⟨i, r, all, hi, hw, -, rfl⟩
    · exact ⟨rfl, fun _ he => absurd he List.not_mem_nil⟩
    · obtain ⟨all', hw', hall⟩ := hsane.index idx h r (List.mem_cons_of_mem 0 (List.mem_of_getElem? hi))
      obtain ⟨rfl, rfl⟩ := hw.unique hw'
      exact ⟨rfl, fun e he => hall e ((List.dropWhile_sublist _).subset he)⟩
  obtain ⟨es, ok, henters⟩ : ∃ es ok, Enters crc t.bytes (SeekFinds target) ies es ok := by
    refine enters_exists hent fun e he b hb => ?_
    obtain ⟨hblen, hberr, hres⟩ := leadsTo_ok hb
    exact seekFinds ht (by omega) hberr hres ((hent e (List.mem_of_mem_head? he)).block b hb)
  obtain ⟨it', henter, hat, ht'⟩ : ∃ it', TableIter.enter crc { t := t, index := some idx }
      (·.seek target) = some it' ∧ _ :=
    TableIter.enter_at hlen rfl rfl hsplit hfile hfound henters fun b es ok _ _ _ hb => hb.2
  exact ⟨ies, es, ok, hfound, henters, it', henter, hat, ht'⟩

theorem runs_seek {idx : BlockIter} (hsane : Sane crc t) (hlen : t.bytes.length < 2 ^ 63)
    (hfile : t.index.length ≤ t.bytes.length) (h : newBlockIter t.index = Checked.done (.ok idx))
    {target : Bytes} (ht : trailerSize ≤ target.length) :
    ∃ ies es ok, SeekFinds target idx ies true ∧ Enters crc t.bytes (SeekFinds target) ies es ok ∧
      Runs crc t (·.seek crc target) es ok := by
  obtain ⟨ies, es, ok, hfrom, hent, it', hseek, hat, ht'⟩ := seek_at hsane hlen hfile h ht
  obtain ⟨it'', hdrains, hend⟩ := hat.drains (by rw [ht']; exact hlen)
  exact ⟨ies, es, ok, hfrom, hent, _, it', it'', iter_of_ok h, hseek, hdrains, hend⟩

/-! ### Single keys -/

/-- What `get` makes of the entries from its target on. -/
def found (key : Bytes) : List (Bytes × Bytes) → Bytes × Bool × Bool
  | [] => ([], false, false)
  | e :: _ =>
    if (splitInternalKey e.1).1 ≠ key then ([], false, false)
    else if (splitInternalKey e.1).2.2 = kindDelete then ([], true, true)
    else (e.2, true, false)

/-- A sane filter has an answer. -/
theorem mayContain_total (hsane : Sane crc t) (key : Bytes) : ∃ hit, mayContain t.bloom key = some hit := by
  unfold mayContain
  have hbloom := hsane.bloom
  split
  · next probes b bits heq =>
    rw [heq] at hbloom
    rcases hbloom with hshort | hzero | hbits
    · rw [List.length_cons, List.length_cons] at hshort
      omega
    · rw [show probes = 0 from hzero]
      exact ⟨true, rfl⟩
    · refine testProbes_total (fun h0 => hbits ?_) key (ofNat_toNat_le _) _
      exact ofNat_eq_zero.mp h0
  · exact ⟨true, rfl⟩

theorem length_makeInternalKey (key : Bytes) (seq : ℕ) (kind : UInt8) :
    trailerSize ≤ (makeInternalKey key seq kind).length := by
  rw [makeInternalKey, List.length_append, BigEndian.length_encode]
  omega

/-- Once the filter lets a key through, `get` is the first entry that `seek` finds. -/
theorem get_of_hit {key : Bytes} {seq : ℕ} {it it' : TableIter} {es : List (Bytes × Bytes)} {ok : Bool}
    (hhit : mayContain t.bloom key = some true) (hit : t.iter = some it)
    (hseek : it.seek crc (makeInternalKey key seq kindPut) = some it') (hlen : it'.t.bytes.length < 2 ^ 63)
    (hat : it'.At crc es ok) (hkeys : ∀ e ∈ es.head?, trailerSize ≤ e.1.length) :
    (es = [] ∧ ok = false ∧ ∃ e, t.get crc key seq = Checked.done (.error e)) ∨
      ((es = [] → ok = true) ∧ t.get crc key seq = Checked.done (.ok (found key es))) := by
  unfold TableFile.get
  simp only [hhit, Checked.run_some, Checked.done_ok_bind, if_pos, hit, hseek]
  rw [hat.valid]
  cases es with
  | nil =>
    rcases hat with ⟨-, hne, -⟩ | ⟨-, -, hend⟩
    · exact absurd rfl hne
    · rw [if_neg (by simp)]
      cases herr : it'.err with
      | none =>
        right
        refine ⟨fun _ => hend.mp herr, ?_⟩
        rw [show it'.close = none from herr]
        rfl
      | some e =>
        left
        refine ⟨rfl, ?_, e, ?_⟩
        · cases ok with
          | false => rfl
          | true =>
            rw [hend.mpr rfl] at herr
            cases herr
        · rw [show it'.close = some e from herr]
          rfl
  | cons e es =>
    have hcons : (!(e :: es).isEmpty) = true := rfl
    obtain ⟨hk, hv, -⟩ := hat.next hlen
    have hlong : ¬ e.1.length < trailerSize := Nat.not_lt.mpr (hkeys e rfl)
    right
    refine ⟨fun h => (by cases h), ?_⟩
    rw [if_pos hcons, hk, hv]
    simp only [Checked.run_some, Checked.done_ok_bind, if_neg hlong, found]
    split
    · rfl
    · split <;> rfl

end TableFile

/-- Every key that is read has its trailer. -/
theorem Reads.keys {bytes : Bytes} {ies es : List (Bytes × Bytes)} {ok : Bool}
    (h : Reads crc bytes ies es ok) : ∀ e ∈ es, trailerSize ≤ e.1.length := by
  induction h with
  | nil => exact fun _ he => absurd he List.not_mem_nil
  | unreadable _ => exact fun _ he => absurd he List.not_mem_nil
  | broken _ hw => exact hw.keys
  | block _ hw _ ih =>
    intro e he
    rcases List.mem_append.mp he with he | he
    · exact hw.keys e he
    · exact ih e he

theorem FromRestart.keys {target : Bytes} {b : BlockIter} {es : List (Bytes × Bytes)} {ok : Bool}
    (h : FromRestart target b es ok) : ∀ e ∈ es, trailerSize ≤ e.1.length := by
  rcases h with ⟨-, rfl, -⟩ | ⟨i, r, all, -, hw, -, rfl⟩
  · exact fun _ he => absurd he List.not_mem_nil
  · exact fun e he => hw.keys e ((List.dropWhile_sublist _).subset he)

theorem Enters.keys {bytes target : Bytes} {ies es : List (Bytes × Bytes)} {ok : Bool}
    (h : Enters crc bytes (SeekFinds target) ies es ok) : ∀ e ∈ es, trailerSize ≤ e.1.length := by
  cases h with
  | nil => exact fun _ he => absurd he List.not_mem_nil
  | unreadable _ => exact fun _ he => absurd he List.not_mem_nil
  | broken _ hf => exact hf.1.keys
  | block _ hf hrest =>
    intro e he
    rcases List.mem_append.mp he with he | he
    · exact hf.1.keys e he
    · exact hrest.keys e he

/-- `get`: the filter knows nothing of the key, the index cannot be taken apart, or the first entry that
`seek` finds decides. -/
def GetReads (crc : Bytes → UInt32) (t : TableFile) (key : Bytes) (seq : ℕ) : Prop :=
  (mayContain t.bloom key = some false ∧ t.get crc key seq = Checked.done (.ok ([], false, false))) ∨
    (∃ e, newBlockIter t.index = Checked.done (.error e) ∧
      t.get crc key seq = Checked.done (.error e)) ∨
    ∃ idx ies es ok, newBlockIter t.index = Checked.done (.ok idx) ∧
      SeekFinds (makeInternalKey key seq kindPut) idx ies true ∧
      Enters crc t.bytes (SeekFinds (makeInternalKey key seq kindPut)) ies es ok ∧
      ((es = [] ∧ ok = false ∧ ∃ e, t.get crc key seq = Checked.done (.error e)) ∨
        ((es = [] → ok = true) ∧ t.get crc key seq = Checked.done (.ok (TableFile.found key es))))

theorem Sane.get {t : TableFile} (hsane : Sane crc t) (hlen : t.bytes.length < 2 ^ 63)
    (hfile : t.index.length ≤ t.bytes.length) (key : Bytes) (seq : ℕ) : GetReads crc t key seq := by
  obtain ⟨hit, hhit⟩ := TableFile.mayContain_total hsane key
  cases hit with
  | false =>
    left
    refine ⟨hhit, ?_⟩
    unfold TableFile.get
    rw [hhit]
    rfl
  | true =>
    right
    obtain ⟨r, hr, -⟩ := newBlockIter_total t.index
    cases r with
    | error e =>
      left
      refine ⟨e, hr, ?_⟩
      unfold TableFile.get
      rw [hhit, TableFile.iter_of_error hr]
      rfl
    | ok idx =>
      right
      obtain ⟨ies, es, ok, hfrom, hent, it', hseek, hat, ht⟩ :=
        TableFile.seek_at hsane hlen hfile hr (TableFile.length_makeInternalKey key seq kindPut)
      refine ⟨idx, ies, es, ok, hr, hfrom, hent, ?_⟩
      exact TableFile.get_of_hit hhit (TableFile.iter_of_ok hr) hseek (by rw [ht]; exact hlen) hat
        fun e he => hent.keys e (List.mem_of_mem_head? he)

end Keystone.Storage
