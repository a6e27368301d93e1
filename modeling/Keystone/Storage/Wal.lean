/-
# Keystone.Storage.Wal — the write-ahead log (`storage/wal.go`).

Segment files of framed records: length, CRC-32C, payload.  A segment is only ever appended to; opening
the log replays every record in order, cuts a torn record off the end of the newest segment, reports
damage anywhere else, and starts a fresh segment.

The files are a list in ascending order of their numbers, as `listSegments` returns them.  Writes reach
the page cache, which a process crash leaves alone, so syncing does not show here.  The main lemmas say
what a file written record by record looks like to `replaySegment`: every complete record, and then the
end of the file or a torn record (`Holds`), for EVERY byte prefix of a write (`holds_take`).
-/
import Keystone.Lib.Crash
import Keystone.Lib.LittleEndian

namespace Keystone.Storage

open Keystone.Lib

abbrev Bytes := List UInt8

/-! ## CRC-32C (`crc32.Checksum` with the Castagnoli table). -/

def crcBit (c : UInt32) : UInt32 :=
  if c &&& 1 = 1 then (c >>> 1) ^^^ 0x82f63b78 else c >>> 1

def crcByte (c : UInt32) (b : UInt8) : UInt32 :=
  crcBit (crcBit (crcBit (crcBit (crcBit (crcBit (crcBit (crcBit (c ^^^ b.toUInt32))))))))

def checksum (p : Bytes) : UInt32 := (p.foldl crcByte 0xffffffff) ^^^ 0xffffffff

/-! ## Records. -/

def recordHeader : Nat := 8

/-- `uint32(len(p))` keeps the low 32 bits of the length. -/
def encodeRecord (p : Bytes) : Bytes :=
  LittleEndian.encode 4 p.length ++ LittleEndian.encode 4 (checksum p).toNat ++ p

def encodeRecords (ps : List Bytes) : Bytes := ps.flatMap encodeRecord

/-- What the next bytes of a segment are. -/
inductive Head where
  | done
  | torn
  | record (payload rest : Bytes)
  deriving DecidableEq, Repr

/-- One turn of the loop of `replaySegment`. -/
def scanHead (bs : Bytes) : Head :=
  if bs = [] then
    .done
  else if bs.length < recordHeader then
    .torn
  else
    let length := LittleEndian.decode (bs.take 4)
    let crc := LittleEndian.decode ((bs.drop 4).take 4)
    let body := bs.drop recordHeader
    if length = 0 then
      .torn
    else if body.length < length then
      .torn
    else if (checksum (body.take length)).toNat ≠ crc then
      .torn
    else
      .record (body.take length) (body.drop length)

/-! ## Segments and replay. -/

structure Segment where
  num : Nat
  bytes : Bytes
  deriving DecidableEq, Repr

/-- Why a log does not open: a damaged record, at an offset of an older segment, or the callback
refused a record. -/
inductive OpenError (ε : Type) where
  | corrupt (seg off : Nat)
  | replay (e : ε)
  deriving DecidableEq, Repr

section Replay

variable {S ε : Type} (f : Nat → S → Bytes → Except ε S)

/-- `replaySegment`: the state after all complete records, and how many bytes they take.  Every turn of
the loop consumes a byte at least, so the length of the segment is fuel enough. -/
def replaySegment (seg : Nat) (last : Bool) : Nat → Nat → Bytes → S → Except (OpenError ε) (S × Nat)
  | 0, off, _, s => .ok (s, off)
  | fuel + 1, off, bs, s =>
    match scanHead bs with
    | .done => .ok (s, off)
    | .torn => if last then .ok (s, off) else .error (.corrupt seg off)
    | .record p rest =>
      match f seg s p with
      | .error e => .error (.replay e)
      | .ok s' => replaySegment seg last fuel (off + recordHeader + p.length) rest s'

/-- The loop of `OpenWAL` over the segments; a torn tail of the newest one is cut off. -/
def replaySegments : List Segment → S → Except (OpenError ε) (S × List Segment)
  | [], s => .ok (s, [])
  | g :: gs, s =>
    match replaySegment f g.num gs.isEmpty (g.bytes.length + 1) 0 g.bytes s with
    | .error e => .error e
    | .ok (s', off) =>
      match replaySegments gs s' with
      | .error e => .error e
      | .ok (s'', gs') => .ok (s'', { g with bytes := g.bytes.take off } :: gs')

/-- The number of the next segment. -/
def nextNum (gs : List Segment) : Nat :=
  match gs.getLast? with
  | none => 1
  | some g => g.num + 1

/-- `OpenWAL`: replay, then a fresh segment for new appends. -/
def openWAL (gs : List Segment) (s : S) : Except (OpenError ε) (S × List Segment) :=
  match replaySegments f gs s with
  | .error e => .error e
  | .ok (s', gs') => .ok (s', gs' ++ [⟨nextNum gs', []⟩])

end Replay

/-! ## What the running log does to its files. -/

inductive WalAction where
  | create
  | write (bs : Bytes)
  | remove (num : Nat)
  deriving DecidableEq, Repr

/-- A write goes to the newest segment. -/
def writeLast (bs : Bytes) : List Segment → List Segment
  | [] => []
  | [g] => [{ g with bytes := g.bytes ++ bs }]
  | g :: gs => g :: writeLast bs gs

theorem writeLast_append (gs : List Segment) (g : Segment) (bs : Bytes) :
    writeLast bs (gs ++ [g]) = gs ++ [{ g with bytes := g.bytes ++ bs }] := by
  induction gs with
  | nil => rfl
  | cons g' gs ih =>
    cases gs with
    | nil => rfl
    | cons g'' gs => exact congrArg (g' :: ·) ih

def WalAction.apply (gs : List Segment) : WalAction → List Segment
  | .create => gs ++ [⟨nextNum gs, []⟩]
  | .write bs => writeLast bs gs
  | .remove num => gs.filter (·.num ≠ num)

/-- A write may stop after any byte. -/
def WalAction.torn : WalAction → Nat → Option WalAction
  | .write bs, j => some (.write (bs.take j))
  | _, _ => none

/-- The state of the running log that decides when it rotates. -/
structure Wal where
  seg : Nat
  size : Nat
  deriving DecidableEq, Repr

/-- `rotateLocked`. -/
def Wal.rotate (w : Wal) : Wal × List WalAction := (⟨w.seg + 1, 0⟩, [.create])

/-- `Append` of payloads, one write for all of them; a full segment is closed first. -/
def Wal.append (segmentSize : Nat) (w : Wal) (ps : List Bytes) : Wal × List WalAction :=
  let r := if w.size ≥ segmentSize then w.rotate else (w, [])
  (⟨r.1.seg, r.1.size + (encodeRecords ps).length⟩, r.2 ++ [.write (encodeRecords ps)])

/-- `DeleteBefore`: the segments numbered below `num` go, oldest first. -/
def deleteBefore (num : Nat) (gs : List Segment) : List WalAction :=
  (gs.filter (·.num < num)).map fun g => .remove g.num

/-! ## Reading back what was written. -/

/-- A payload that a record can carry. -/
def Fits (p : Bytes) : Prop := p ≠ [] ∧ p.length < 2 ^ 32

@[simp]
theorem encodeRecords_nil : encodeRecords [] = [] := rfl

@[simp]
theorem encodeRecords_cons (p : Bytes) (ps : List Bytes) :
    encodeRecords (p :: ps) = encodeRecord p ++ encodeRecords ps := rfl

theorem encodeRecords_append (ps qs : List Bytes) :
    encodeRecords (ps ++ qs) = encodeRecords ps ++ encodeRecords qs :=
  List.flatMap_append

theorem length_encodeRecord (p : Bytes) : (encodeRecord p).length = recordHeader + p.length := by
  simp [encodeRecord, recordHeader]
  omega

/-- A complete record is read back. -/
theorem scanHead_record {p : Bytes} (h : Fits p) (rest : Bytes) :
    scanHead (encodeRecord p ++ rest) = .record p rest := by
  have h4 : (encodeRecord p ++ rest).take 4 = LittleEndian.encode 4 p.length := by
    simp [encodeRecord]
  have h8 : ((encodeRecord p ++ rest).drop 4).take 4 =
      LittleEndian.encode 4 (checksum p).toNat := by
    simp [encodeRecord]
  have hbody : (encodeRecord p ++ rest).drop recordHeader = p ++ rest := by
    simp [encodeRecord, recordHeader, List.drop_append]
  have hlen : LittleEndian.decode (LittleEndian.encode 4 p.length) = p.length :=
    LittleEndian.decode_encode_of_lt (by have := h.2; omega)
  have hcrc : LittleEndian.decode (LittleEndian.encode 4 (checksum p).toNat) = (checksum p).toNat :=
    LittleEndian.decode_encode_of_lt (by have := (checksum p).toNat_lt; omega)
  have hp : p.length ≠ 0 := by
    have := h.1
    simpa using this
  have hbs := length_encodeRecord p
  unfold scanHead
  rw [if_neg (by intro hnil; simp [encodeRecord, h.1] at hnil),
    if_neg (by rw [List.length_append, hbs, recordHeader]; omega)]
  simp only [h4, h8, hbody, hlen, hcrc]
  rw [if_neg hp, if_neg (by simp), if_neg (by simp)]
  simp

/-- A record that was written in part is recognized as torn. -/
theorem scanHead_take {p : Bytes} (h : Fits p) {k : ℕ} (h0 : 0 < k)
    (hk : k < (encodeRecord p).length) : scanHead ((encodeRecord p).take k) = .torn := by
  have hlen := length_encodeRecord p
  have htake : ((encodeRecord p).take k).length = k := by
    rw [List.length_take]
    omega
  unfold scanHead
  rw [if_neg (by rintro hnil; rw [hnil] at htake; simp at htake; omega)]
  by_cases h8 : k < recordHeader
  · rw [if_pos (by rw [htake]; exact h8)]
  · rw [if_neg (by rw [htake]; exact h8)]
    have h8 : 8 ≤ k := by simpa [recordHeader] using h8
    have h4 : ((encodeRecord p).take k).take 4 = LittleEndian.encode 4 p.length := by
      rw [List.take_take, min_eq_left (by omega)]
      simp [encodeRecord]
    have hdec : LittleEndian.decode (LittleEndian.encode 4 p.length) = p.length :=
      LittleEndian.decode_encode_of_lt (by have := h.2; omega)
    have hp : p.length ≠ 0 := by
      have := h.1
      simpa using this
    simp only [h4, hdec]
    rw [if_neg hp, if_pos (by rw [List.length_drop, htake, recordHeader]; rw [recordHeader] at hlen; omega)]

/-- The file holds the records `ps`, and behind them nothing or a torn record. -/
def Holds (bs : Bytes) (ps : List Bytes) : Prop :=
  ∃ t, bs = encodeRecords ps ++ t ∧ (t = [] ∨ scanHead t = .torn)

theorem Holds.of_eq {bs : Bytes} {ps : List Bytes} (h : bs = encodeRecords ps) : Holds bs ps :=
  ⟨[], by simpa using h, Or.inl rfl⟩

/-- Any byte prefix of a write holds a prefix of its records; all of it holds all of them. -/
theorem holds_take {ps : List Bytes} (hps : ∀ p ∈ ps, Fits p) (k : ℕ) :
    ∃ j ≤ ps.length, Holds ((encodeRecords ps).take k) (ps.take j) ∧
      ((encodeRecords ps).length ≤ k → j = ps.length) := by
  induction ps generalizing k with
  | nil => exact ⟨0, le_rfl, .of_eq (by simp), fun _ => rfl⟩
  | cons p ps ih =>
    obtain ⟨hp, hps⟩ := List.forall_mem_cons.mp hps
    have hlen := length_encodeRecord p
    rcases Nat.lt_or_ge k (encodeRecord p).length with hlt | hge
    · -- the write stopped inside its first record
      refine ⟨0, Nat.zero_le _, ⟨(encodeRecord p).take k, ?_, ?_⟩, fun hall => ?_⟩
      · simp [List.take_append_of_le_length hlt.le]
      · rcases Nat.eq_zero_or_pos k with rfl | h0
        · exact Or.inl rfl
        · exact Or.inr (scanHead_take hp h0 hlt)
      · rw [encodeRecords_cons, List.length_append] at hall
        omega
    · obtain ⟨j, hj, ⟨t, ht, htorn⟩, hall⟩ := ih hps (k - (encodeRecord p).length)
      refine ⟨j + 1, by simpa using hj, ⟨t, ?_, htorn⟩, fun h => ?_⟩
      · rw [List.take_succ_cons, encodeRecords_cons, encodeRecords_cons, List.take_append,
          List.take_of_length_le hge, ht, List.append_assoc]
      · rw [encodeRecords_cons, List.length_append] at h
        rw [hall (by omega), List.length_cons]

/-- Behind complete records a write extends what the file holds. -/
theorem Holds.append {bs : Bytes} {ps qs : List Bytes} (h : Holds bs qs) :
    Holds (encodeRecords ps ++ bs) (ps ++ qs) := by
  obtain ⟨t, rfl, ht⟩ := h
  exact ⟨t, by rw [encodeRecords_append, List.append_assoc], ht⟩

theorem length_le_encodeRecords (ps : List Bytes) : ps.length ≤ (encodeRecords ps).length := by
  induction ps with
  | nil => simp
  | cons p ps ih =>
    rw [encodeRecords_cons, List.length_append, length_encodeRecord, List.length_cons, recordHeader]
    omega

section Replay

variable {S ε : Type} {f : ℕ → S → Bytes → Except ε S}

/-- The result of a replay of records. -/
def replayed (n : ℕ) : Except ε S → Except (OpenError ε) (S × ℕ)
  | .error e => .error (.replay e)
  | .ok s => .ok (s, n)

theorem replaySegment_of_records (seg : ℕ) (last : Bool) {ps : List Bytes} {t : Bytes}
    (hps : ∀ p ∈ ps, Fits p) (ht : t = [] ∨ (scanHead t = .torn ∧ last = true)) {fuel : ℕ}
    (hfuel : ps.length < fuel) (off : ℕ) (s : S) :
    replaySegment f seg last fuel off (encodeRecords ps ++ t) s =
      replayed (off + (encodeRecords ps).length) (ps.foldlM (f seg) s) := by
  induction ps generalizing fuel off s with
  | nil =>
    cases fuel with
    | zero => simp at hfuel
    | succ fuel =>
      rcases ht with rfl | ⟨ht, hlast⟩
      · rfl
      · rw [encodeRecords_nil, List.nil_append, replaySegment, ht, if_pos hlast]
        rfl
  | cons p ps ih =>
    obtain ⟨hp, hps⟩ := List.forall_mem_cons.mp hps
    cases fuel with
    | zero => simp at hfuel
    | succ fuel =>
      rw [encodeRecords_cons, List.append_assoc, replaySegment, scanHead_record hp, List.foldlM_cons]
      cases hf : f seg s p with
      | error e =>
        simp only [hf]
        rfl
      | ok s' =>
        simp only [hf]
        show replaySegment f seg last fuel (off + recordHeader + p.length) _ s' =
          replayed _ (ps.foldlM (f seg) s')
        rw [ih hps (by simpa using hfuel), List.length_append, length_encodeRecord]
        congr 1
        omega

/-- The records of the segments, by segment number. -/
abbrev Contents := List (ℕ × List Bytes)

def segmentOf (c : ℕ × List Bytes) : Segment := ⟨c.1, encodeRecords c.2⟩

/-- Replaying the records of one segment after the other. -/
def foldContents (f : ℕ → S → Bytes → Except ε S) (cs : Contents) (s : S) : Except ε S :=
  cs.foldlM (fun s c => c.2.foldlM (f c.1) s) s

theorem foldContents_cons (c : ℕ × List Bytes) (cs : Contents) (s : S) :
    foldContents f (c :: cs) s = (c.2.foldlM (f c.1) s).bind (foldContents f cs) :=
  List.foldlM_cons

/-- OPENING a log whose older segments are complete and whose newest one may end in a torn record
replays exactly the complete records, and leaves exactly them in the files. -/
theorem replaySegments_of_records {cs : Contents} {n : ℕ} {bs : Bytes} {ps : List Bytes}
    (hcs : ∀ c ∈ cs, ∀ p ∈ c.2, Fits p) (hps : ∀ p ∈ ps, Fits p) (h : Holds bs ps) (s : S) :
    replaySegments f (cs.map segmentOf ++ [⟨n, bs⟩]) s =
      match foldContents f (cs ++ [(n, ps)]) s with
      | .error e => .error (.replay e)
      | .ok s' => .ok (s', (cs ++ [(n, ps)]).map segmentOf) := by
  induction cs generalizing s with
  | nil =>
    obtain ⟨t, rfl, ht⟩ := h
    have hfuel : ps.length < (encodeRecords ps ++ t).length + 1 := by
      have := length_le_encodeRecords ps
      rw [List.length_append]
      omega
    have hseg := replaySegment_of_records (f := f) n true hps
      (ht.imp id fun ht => ⟨ht, rfl⟩) hfuel 0 s
    simp only [List.map_nil, List.nil_append, replaySegments, List.isEmpty_nil, hseg, foldContents,
      List.foldlM_cons, List.foldlM_nil]
    cases ps.foldlM (f n) s with
    | error e => rfl
    | ok s' =>
      simp only [replayed, Nat.zero_add, List.take_left]
      rfl
  | cons c cs ih =>
    obtain ⟨hc, hcs⟩ := List.forall_mem_cons.mp hcs
    have hfuel : c.2.length < (encodeRecords c.2).length + 1 := by
      have := length_le_encodeRecords c.2
      omega
    have hseg := replaySegment_of_records (f := f) c.1 false (t := []) hc (Or.inl rfl) hfuel 0 s
    rw [List.append_nil] at hseg
    have hempty : (cs.map segmentOf ++ [(⟨n, bs⟩ : Segment)]).isEmpty = false := by simp
    rw [List.map_cons, List.cons_append, replaySegments, hempty]
    rw [List.cons_append, foldContents_cons]
    simp only [segmentOf, hseg]
    cases c.2.foldlM (f c.1) s with
    | error e => rfl
    | ok s' =>
      simp only [replayed, Nat.zero_add, List.take_length, Except.bind]
      rw [ih hcs s']
      cases foldContents f (cs ++ [(n, ps)]) s' with
      | error e => rfl
      | ok s'' => rfl

end Replay

end Keystone.Storage
