/-
# Keystone.Storage.MemDB — the engine in one memtable (`storage/memdb.go`), and tables between engines.

`memDB` keeps everything in one memtable and shares the snapshot format with the disk engine.  What the two
owe each other is the map: `memDB_is_map` says that after any writes and `Restore`s its `Get` and `Scan` are
those of the plain map, and `export_to_memory` that a table the disk engine exports, in any state of any
run, makes a `memDB` answer as that engine does, however its own sequence numbers compare, and that later
writes count from there.

The disk engine refuses an empty key and `memDB` does not look; everything here is for keys that are not
empty (an iterator takes the empty key for the one it has just seen and passes over it).  Sequence numbers,
those of restored tables included, are below `2 ^ 56` (`Storage.Engine`).
-/
import Keystone.Storage.SnapshotReads

namespace Keystone.Storage

open Keystone.Lib

variable {mems : ℕ → Memtable} {v : Version} {seq n : ℕ} {m : KVMap}

/-! ## Tables that `Export` makes. -/

/-- One version of each key, in order, and no tombstones. -/
structure Exported (t : List KeyVersion) : Prop where
  ascending : t.Pairwise fun a b => compare a.key b.key = .lt
  clean : ∀ e ∈ t, Clean e
  live : ∀ e ∈ t, kindOf e = kindPut

theorem Exported.orderly {t : List KeyVersion} (h : Exported t) : Orderly t := ⟨strict_of_keys h.ascending, h.clean⟩

theorem Clean.put_of_live {e : KeyVersion} (h : Clean e) (hlive : kindOf e ≠ kindDelete) : kindOf e = kindPut := by
  have hkind := h.kind
  unfold kindOf kindDelete at hlive
  unfold kindOf kindPut
  rcases Nat.le_one_iff_eq_zero_or_eq_one.mp hkind with h0 | h1
  · rw [h0] at hlive
    exact absurd rfl hlive
  · rw [h1]
    rfl

/-- The table of `Export`: the iterator's entries, up to its end. -/
def exportTable (mems : ℕ → Memtable) (v : Version) (seq n : ℕ) : List KeyVersion :=
  (DbIter.seekToFirst mems v seq).drain mems n

theorem exported_of_shows (h : Shows mems v seq m) (hn : (m.scan [] none).length < n) :
    Exported (exportTable mems v seq n) ∧ (exportTable mems v seq n).map pairOf = m.scan [] none := by
  have hpairs : (exportTable mems v seq n).map pairOf = m.scan [] none := by
    unfold exportTable
    rw [h.seekToFirst]
    exact h.drain [] none hn
  have hahead : exportTable mems v seq n = (DbIter.seek mems v seq [] none).ahead mems := by
    unfold exportTable
    rw [h.seekToFirst]
    refine drain_eq (h.placed_seek [] none) ?_
    rw [← List.length_map pairOf, h.scan]
    exact hn
  have hmem : ∀ e ∈ exportTable mems v seq n, Clean e ∧ kindOf e ≠ kindDelete := by
    intro e he
    rw [hahead] at he
    unfold DbIter.ahead at he
    rw [listing_eq] at he
    obtain ⟨he, hlive⟩ := List.mem_filter.mp he
    have hin : e ∈ Tiers.pending (Tier.entries mems) (trailer seq kindPut)
        (DbIter.seek mems v seq [] none).children :=
      (List.takeWhile_sublist _).subset ((Tiers.firsts_sublist _ _).subset he)
    exact ⟨h.clean_pending [] none hin, of_decide_eq_true hlive⟩
  refine ⟨⟨?_, fun e he => (hmem e he).1, fun e he => (hmem e he).1.put_of_live (hmem e he).2⟩, hpairs⟩
  have hsorted := m.scan_sorted [] none
  rw [← hpairs] at hsorted
  exact List.pairwise_map.mp hsorted

/-- A table with the pairs of a map is the map. -/
theorem Exported.mapOf_eq {t : List KeyVersion} (h : Exported t) (hpairs : t.map pairOf = m.scan [] none) :
    mapOf t = m := by
  have hall : ∀ k x, (k, x) ∈ t.map pairOf ↔ m[k]? = some x := by
    intro k x
    rw [hpairs, KVMap.mem_scan]
    refine and_iff_left ?_
    unfold KVMap.inRange
    cases k <;> rfl
  have hvalue : ∀ e ∈ t, valueOf e = some e.val := by
    intro e he
    unfold valueOf
    rw [if_neg]
    rw [h.live e he]
    decide
  refine Std.ExtTreeMap.ext_getElem? fun k => ?_
  rw [getElem?_mapOf]
  cases htop : Tiers.top k t with
  | none =>
    cases hm : m[k]? with
    | none => rfl
    | some x =>
      obtain ⟨e, he, hpair⟩ := List.mem_map.mp ((hall k x).mpr hm)
      obtain ⟨rfl, -⟩ := Prod.mk.inj hpair
      rw [Tiers.top_of_strict h.ascending he] at htop
      cases htop
  | some e =>
    have he := Tiers.top_mem htop
    obtain rfl := Tiers.top_key htop
    rw [Option.bind_some, hvalue e he]
    exact ((hall e.key e.val).mp (List.mem_map_of_mem he)).symm

/-! ## `memDB`. -/

structure MemDB where
  mem : Memtable := {}
  seq : ℕ := 0
  closed : Bool := false
  deriving DecidableEq, Repr

/-- The value, or `some none` for a tombstone. -/
def Memtable.get (m : Memtable) (key : Key) (seq : ℕ) : Option (Option Bytes) :=
  (Tiers.lookup key (trailer seq kindPut) m.entries).map fun e =>
    if kindOf e = kindDelete then none else some e.val

namespace MemDB

/-- The version of one memtable and nothing else. -/
def version : Version := ⟨0, [], []⟩

/-- `none` is `ErrClosed`, `some none` is `ErrNotFound`. -/
def get (d : MemDB) (key : Key) : Option (Option Bytes) :=
  if d.closed then none else some (d.mem.get key d.seq).join

def writeOp (d : MemDB) (op : BatchOp) : MemDB :=
  { d with seq := d.seq + 1, mem := d.mem.put (d.seq + 1) op.raw }

def write (d : MemDB) (b : Batch) : Option MemDB := if d.closed then none else some (b.foldl writeOp d)

def scan (d : MemDB) (start : Key) (stop : Option Key) : Option DbIter :=
  if d.closed then none else some (DbIter.seek (fun _ => d.mem) version d.seq start stop)

/-- The entries of the table go into a new memtable; the counter never goes down. -/
def restore (d : MemDB) (snap : List KeyVersion) : MemDB :=
  { d with
    mem := snap.foldl (fun m e => m.put (seqOf e) ⟨kindOf e, e.key, e.val⟩) {}
    seq := if maxSeqOf snap > d.seq then maxSeqOf snap else d.seq }

end MemDB

/-! ### It is a map. -/

/-- What is done to a `memDB`. -/
inductive MemOp where
  | write (b : Batch)
  | restore (snap : List KeyVersion)
  deriving DecidableEq, Repr

def MemDB.apply (d : MemDB) : MemOp → MemDB
  | .write b => (d.write b).getD d
  | .restore snap => d.restore snap

/-- The same on the plain map. -/
def KVMap.applyMem (m : KVMap) : MemOp → KVMap
  | .write b => m.write b
  | .restore snap => mapOf snap

def MemOp.OK : MemOp → Prop
  | .write b => ∀ op ∈ b, op.key ≠ []
  | .restore snap => Exported snap

structure MemOK (m : KVMap) (d : MemDB) : Prop where
  stack : Stack d.seq [d.mem.entries] m
  below : Below d.seq d.mem.entries
  running : d.closed = false

variable {d : MemDB}

theorem MemOK.writeOp (h : MemOK m d) {op : BatchOp} (hop : op.key ≠ []) : MemOK (m.applyOp op) (d.writeOp op) := by
  refine ⟨h.stack.put (List.forall_mem_singleton.mpr h.below) hop, fun e he => ?_, h.running⟩
  rcases Tiers.mem_insert.mp (show e ∈ Tiers.insert (cellOf (d.seq + 1) op) d.mem.entries from he) with rfl | he
  · exact (seqOf_cellOf _ _).le
  · exact (h.below e he).trans (Nat.le_succ _)

theorem MemOK.write (h : MemOK m d) {b : Batch} (hb : ∀ op ∈ b, op.key ≠ []) :
    MemOK (m.write b) (b.foldl MemDB.writeOp d) := by
  induction b generalizing m d with
  | nil => exact h
  | cons op b ih =>
    obtain ⟨hop, hb⟩ := List.forall_mem_cons.mp hb
    exact ih (h.writeOp hop) hb

/-- A cell after all others is inserted at the end. -/
theorem insert_last {c : KeyVersion} {l : List KeyVersion} (h : ∀ x ∈ l, x.cmp c = .lt) :
    Tiers.insert c l = l ++ [c] := by
  induction l with
  | nil => rfl
  | cons x l ih =>
    obtain ⟨hx, hl⟩ := List.forall_mem_cons.mp h
    unfold Tiers.insert
    rw [if_pos (by rw [hx]; rfl), ih hl]
    rfl

/-- An entry of an exported table goes into the memtable as it is. -/
theorem entries_put_exported {e : KeyVersion} (hlive : kindOf e = kindPut) (mt : Memtable) :
    (mt.put (seqOf e) ⟨kindOf e, e.key, e.val⟩).entries = Tiers.insert e mt.entries := by
  have hver : trailer (seqOf e) (kindOf e) = e.ver := by
    unfold trailer seqOf kindOf
    rw [UInt8.toNat_ofNat', Nat.mod_mod_of_dvd _ (by decide)]
    omega
  unfold Memtable.put
  rw [hver]
  show Tiers.insert ⟨e.key, e.ver, if kindOf e = kindPut then e.val else []⟩ mt.entries = _
  rw [if_pos hlive]

theorem entries_restored {snap : List KeyVersion} (hlive : ∀ e ∈ snap, kindOf e = kindPut) (mt : Memtable)
    (hstrict : Tiers.Strict (mt.entries ++ snap)) :
    (snap.foldl (fun m e => m.put (seqOf e) ⟨kindOf e, e.key, e.val⟩) mt).entries = mt.entries ++ snap := by
  induction snap generalizing mt with
  | nil => exact (List.append_nil _).symm
  | cons e snap ih =>
    obtain ⟨he, hlive⟩ := List.forall_mem_cons.mp hlive
    have hlast : Tiers.insert e mt.entries = mt.entries ++ [e] :=
      insert_last fun x hx => (List.pairwise_append.mp hstrict).2.2 x hx e List.mem_cons_self
    have hput := (entries_put_exported he mt).trans hlast
    rw [List.foldl_cons, ih hlive _ (by rw [hput, List.append_assoc]; exact hstrict), hput, List.append_assoc]
    rfl

theorem MemOK.restore (h : MemOK m d) {snap : List KeyVersion} (hsnap : Exported snap) :
    MemOK (mapOf snap) (d.restore snap) := by
  have hentries : (d.restore snap).mem.entries = snap := entries_restored hsnap.live {} hsnap.orderly.strict
  have hbelow : Below (d.restore snap).seq snap := by
    refine (below_maxSeqOf snap).mono ?_
    show maxSeqOf snap ≤ if maxSeqOf snap > d.seq then maxSeqOf snap else d.seq
    split <;> omega
  refine ⟨?_, ?_, h.running⟩
  · rw [hentries]
    exact stack_mapOf hsnap.orderly hbelow
  · rw [hentries]
    exact hbelow

theorem MemOK.apply (h : MemOK m d) {op : MemOp} (hop : op.OK) : MemOK (m.applyMem op) (d.apply op) := by
  cases op with
  | write b =>
    show MemOK _ ((if d.closed then none else some (b.foldl MemDB.writeOp d)).getD d)
    rw [h.running]
    exact h.write hop
  | restore snap => exact h.restore hop

theorem MemOK.run (h : MemOK m d) {ops : List MemOp} (hops : ∀ op ∈ ops, op.OK) :
    MemOK (ops.foldl KVMap.applyMem m) (ops.foldl MemDB.apply d) := by
  induction ops generalizing m d with
  | nil => exact h
  | cons op ops ih =>
    obtain ⟨hop, hops⟩ := List.forall_mem_cons.mp hops
    exact ih (h.apply hop) hops

theorem memOK_new : MemOK ∅ {} := ⟨stack_mapOf orderly_nil (below_nil 0), below_nil 0, rfl⟩

theorem MemOK.shows (h : MemOK m d) : Shows (fun _ => d.mem) MemDB.version d.seq m := shows_iff.mpr h.stack

theorem MemOK.get (h : MemOK m d) (key : Key) : d.get key = some (m[key]?) := by
  have hget := h.shows.get key
  unfold MemDB.get Memtable.get
  rw [h.running, ← hget]
  show some _ = some _
  unfold Version.get
  simp only [MemDB.version, Version.children, List.reverse_nil, List.map_nil, List.append_nil,
    List.findSome?_cons, List.findSome?_nil, Tier.entries]
  cases Tiers.lookup key (trailer d.seq kindPut) d.mem.entries with
  | none => rfl
  | some e => by_cases hdel : kindOf e = kindDelete <;> simp [hdel]

/-- THE MEMORY ENGINE IS A MAP: after any writes and `Restore`s, `Get` and a scan read to its end are those
of the plain map. -/
theorem memDB_is_map (ops : List MemOp) (hops : ∀ op ∈ ops, op.OK) :
    (∀ key, (ops.foldl MemDB.apply {}).get key = some ((ops.foldl KVMap.applyMem ∅)[key]?)) ∧
      ∀ start stop n, ((ops.foldl KVMap.applyMem ∅).scan start stop).length < n →
        ((ops.foldl MemDB.apply {}).scan start stop).map
            (fun it => (it.drain (fun _ => (ops.foldl MemDB.apply {}).mem) n).map pairOf) =
          some ((ops.foldl KVMap.applyMem ∅).scan start stop) := by
  have h := memOK_new.run hops
  refine ⟨h.get, fun start stop n hn => ?_⟩
  unfold MemDB.scan
  rw [h.running]
  exact congrArg some (h.shows.drain start stop hn)

/-- A table with a higher sequence number replaces what there was; the next write goes on top. -/
def restoredBetween : List MemOp :=
  [.write [⟨.put, [1], [10]⟩], .restore [⟨[2], trailer 5 kindPut, [20]⟩, ⟨[3], trailer 4 kindPut, [30]⟩],
    .write [⟨.delete, [3], []⟩]]

theorem memDB_is_map_restored :
    (restoredBetween.foldl MemDB.apply {}).get [1] = some none ∧
      (restoredBetween.foldl MemDB.apply {}).get [2] = some (some [20]) ∧
      (restoredBetween.foldl MemDB.apply {}).get [3] = some none := by
  have hops : ∀ op ∈ restoredBetween, op.OK := by
    have hexported : Exported [⟨[2], trailer 5 kindPut, [20]⟩, ⟨[3], trailer 4 kindPut, [30]⟩] :=
      ⟨List.pairwise_pair.mpr (by decide),
        List.forall_mem_cons.mpr ⟨⟨by decide, by decide⟩, List.forall_mem_singleton.mpr ⟨by decide, by decide⟩⟩,
        by decide⟩
    simp [restoredBetween, MemOp.OK, hexported]
  have hget := (memDB_is_map restoredBetween hops).1
  exact ⟨(hget [1]).trans (by decide +kernel), (hget [2]).trans (by decide +kernel),
    (hget [3]).trans (by decide +kernel)⟩

/-- FROM THE DISK ENGINE TO MEMORY.  A `memDB` with any past takes over a table that the disk engine exports
in any state of any run.  It then answers as that engine does, and after further writes as its map with
them. -/
theorem export_to_memory (limit : ℕ) (steps : List EngineEvent) (x : Host) (shown : List HostObs)
    (hrun : (host limit).run {} (.start [] :: steps.map .step) = some (x, shown))
    (hsnap : ∀ snap, .restore snap ∈ steps → Orderly snap) (before after : List MemOp)
    (hbefore : ∀ op ∈ before, op.OK) (hafter : ∀ op ∈ after, op.OK) :
    ∃ s m, x.proc = some s ∧ (∀ key, s.cur.get s.mems s.seq key = m[key]?) ∧
      ∀ n, (m.scan [] none).length < n → ∀ key,
        (after.foldl MemDB.apply ((before.foldl MemDB.apply {}).restore
          (exportTable s.mems s.cur s.seq n))).get key = some ((after.foldl KVMap.applyMem m)[key]?) := by
  obtain ⟨s, done, hproc, hR, -⟩ := (serves_run hrun hsnap).1
  refine ⟨s, _, hproc, hR.shows.get, fun n hn key => ?_⟩
  obtain ⟨hexported, hpairs⟩ := exported_of_shows hR.shows hn
  have hrestored := (memOK_new.run hbefore).restore hexported
  rw [hexported.mapOf_eq hpairs] at hrestored
  exact (hrestored.run hafter).get key

/-- The exported table replaces what the memory engine had: it answers as the exporting engine does. -/
theorem export_to_memory_restored :
    ∃ x s n, (host 4096).run {} (.start [] :: scanUnderRestore.map .step) = some (x, scanUnderRestoreAll) ∧
      x.proc = some s ∧ s.cur.get s.mems s.seq [3] = some [30] ∧ ∀ key,
        (([MemOp.write [⟨.put, [9], [9]⟩]].foldl MemDB.apply {}).restore
          (exportTable s.mems s.cur s.seq n)).get key = some (s.cur.get s.mems s.seq key) := by
  obtain ⟨x, s, hrun, hproc, hthree⟩ := run_scanUnderRestore
  obtain ⟨s', m, hproc', hm, hget⟩ := export_to_memory 4096 _ x _ hrun orderly_scanUnderRestore
    [.write [⟨.put, [9], [9]⟩]] [] (by simp [MemOp.OK]) (by simp)
  obtain rfl := Option.some.inj (hproc.symm.trans hproc')
  refine ⟨x, s, (m.scan [] none).length + 1, hrun, hproc, hthree, fun key => ?_⟩
  rw [hm key]
  exact hget _ (Nat.lt_succ_self _) key

end Keystone.Storage
