/-
# Keystone.Storage.WalDurability — what the write-ahead log gives back after any crashes.

The observations of a run say what was appended and what has to survive (`Ledger`).  A running log holds
complete records in every file, with all but the newest file synced to the end (`Live`); a crash leaves a
byte prefix of the newest file that includes its synced records (`Down`).  Each action of a call keeps
one or the other, so each crash point of a call does.
-/
import Keystone.Storage.WalSync

namespace Keystone.Storage

open Keystone.Lib

/-! ## What has to come back. -/

/-- The records appended so far, and those of them that must not be lost. -/
structure Ledger where
  log : List (ℕ × Bytes) := []
  sure : List (ℕ × Bytes) := []

/-- An `OpenWAL` that returned starts the ledger anew with what it replayed; under `SyncAlways` an
`Append` that returned makes everything sure; a removed segment is forgotten. -/
def Ledger.note (always : Bool) (g : Ledger) : WalObs → Ledger
  | .corrupt => g
  | .opened recs => ⟨recs, recs⟩
  | .appending recs => ⟨g.log ++ recs, g.sure⟩
  | .appended => if always then ⟨g.log, g.log⟩ else g
  | .removed num => ⟨g.log.filter (·.1 ≠ num), g.sure.filter (·.1 ≠ num)⟩

/-- What an observation promises, given the ledger before it. -/
def Promised (g : Ledger) : WalObs → Prop
  | .corrupt => False
  | .opened recs => g.sure <+: recs ∧ recs <+: g.log
  | _ => True

/-- The calls the log is meant for: payloads that fit a record, and no removal of the newest segment. -/
def Allowed (d : WalDisk) (e : WalEvent) : Prop :=
  match e.op with
  | .append ps => ∀ p ∈ ps, p.length < 2 ^ 32
  | .deleteBefore num => ∀ l ∈ d.log, num ≤ l.wal.seg
  | _ => True

instance (d : WalDisk) (e : WalEvent) : Decidable (Allowed d e) := by
  unfold Allowed
  split <;> infer_instance

/-! ## Files of complete records. -/

/-- The records of segments with the segments' numbers. -/
def recordsOf (cs : Contents) : List (ℕ × Bytes) := cs.flatMap fun c => c.2.map (c.1, ·)

@[simp]
theorem recordsOf_nil : recordsOf [] = [] := rfl

theorem recordsOf_snoc (cs : Contents) (n : ℕ) (ps : List Bytes) :
    recordsOf (cs ++ [(n, ps)]) = recordsOf cs ++ ps.map (n, ·) := by
  simp [recordsOf]

/-- A file that will not change any more. -/
def old (c : ℕ × List Bytes) : File := ⟨c.1, encodeRecords c.2, (encodeRecords c.2).length⟩

theorem segment_old (cs : Contents) : (cs.map old).map File.segment = cs.map segmentOf := by
  simp [old, File.segment, segmentOf]

@[simp]
theorem onLast_append (f : File → File) (fs : List File) (g : File) :
    onLast f (fs ++ [g]) = fs ++ [f g] := by
  induction fs with
  | nil => rfl
  | cons h fs ih =>
    cases fs with
    | nil => rfl
    | cons h' fs =>
      rw [List.cons_append, List.cons_append, onLast, ← List.cons_append, ih]
      · rfl
      · simp

theorem nextNum_files_append (fs : List File) (g : File) :
    nextNum ((fs ++ [g]).map File.segment) = g.num + 1 := by
  simp [nextNum, File.segment]

/-- The files of a log: old ones, and a newest one with the records `ps`, of which `k` bytes are there
and the records `qs` are synced. -/
structure FilesOf (fs : List File) (cs : Contents) (n : ℕ) (ps qs : List Bytes) (k : ℕ) : Prop where
  files : fs = cs.map old ++ [⟨n, (encodeRecords ps).take k, (encodeRecords qs).length⟩]
  synced : qs <+: ps
  there : (encodeRecords qs).length ≤ k
  oldFits : ∀ c ∈ cs, ∀ p ∈ c.2, Fits p
  fits : ∀ p ∈ ps, Fits p

/-- Nothing of the newest file is missing. -/
def Live (fs : List File) (cs : Contents) (n : ℕ) (ps qs : List Bytes) : Prop :=
  FilesOf fs cs n ps qs (encodeRecords ps).length

/-- What a crash leaves.  The ledger may know of more records: of calls that did not get to write
them. -/
inductive Down (g : Ledger) : List File → Prop
  | nothing (h : g.sure = []) : Down g []
  | files {fs : List File} {cs : Contents} {n : ℕ} {ps qs : List Bytes} {k : ℕ}
      {more : List (ℕ × Bytes)} (hfiles : FilesOf fs cs n ps qs k)
      (hlog : g.log = recordsOf cs ++ ps.map (n, ·) ++ more)
      (hsure : g.sure <+: recordsOf cs ++ qs.map (n, ·)) : Down g fs

theorem encodeRecords_isPrefix {ps qs : List Bytes} (h : qs <+: ps) :
    encodeRecords qs <+: encodeRecords ps := by
  obtain ⟨rs, rfl⟩ := h
  exact ⟨encodeRecords rs, (encodeRecords_append qs rs).symm⟩

section Live

variable {fs : List File} {cs : Contents} {n : ℕ} {ps qs : List Bytes}

theorem Live.files_eq (h : Live fs cs n ps qs) :
    fs = cs.map old ++ [⟨n, encodeRecords ps, (encodeRecords qs).length⟩] := by
  have := h.files
  rwa [List.take_length] at this

theorem live_of (hfiles : fs = cs.map old ++ [⟨n, encodeRecords ps, (encodeRecords qs).length⟩])
    (hsynced : qs <+: ps) (hold : ∀ c ∈ cs, ∀ p ∈ c.2, Fits p) (hfits : ∀ p ∈ ps, Fits p) :
    Live fs cs n ps qs :=
  ⟨by rw [List.take_length]; exact hfiles, hsynced, (encodeRecords_isPrefix hsynced).length_le, hold,
    hfits⟩

theorem Live.sync (h : Live fs cs n ps qs) : Live (FileAct.sync.apply fs) cs n ps ps := by
  refine live_of ?_ (List.prefix_refl ps) h.oldFits h.fits
  rw [h.files_eq]
  exact onLast_append ..

theorem Live.write (h : Live fs cs n ps qs) {rs : List Bytes} (hrs : ∀ p ∈ rs, Fits p) :
    Live ((FileAct.write (encodeRecords rs)).apply fs) cs n (ps ++ rs) qs := by
  refine live_of ?_ (h.synced.trans (List.prefix_append ps rs)) h.oldFits ?_
  · rw [h.files_eq, encodeRecords_append]
    exact onLast_append ..
  · intro p hp
    rcases List.mem_append.mp hp with hp | hp
    · exact h.fits p hp
    · exact hrs p hp

/-- A new file makes the newest one an old one, which has to be synced to its end. -/
theorem Live.create (h : Live fs cs n ps ps) :
    Live (FileAct.create.apply fs) (cs ++ [(n, ps)]) (n + 1) [] [] := by
  refine live_of ?_ (List.prefix_refl _) ?_ (by simp)
  · rw [h.files_eq]
    unfold FileAct.apply
    rw [nextNum_files_append]
    simp [old]
  · intro c hc
    rcases List.mem_append.mp hc with hc | hc
    · exact h.oldFits c hc
    · rw [List.mem_singleton.mp hc]
      exact h.fits

theorem Live.down {g : Ledger} {more : List (ℕ × Bytes)} (h : Live fs cs n ps qs)
    (hlog : g.log = recordsOf cs ++ ps.map (n, ·) ++ more)
    (hsure : g.sure <+: recordsOf cs ++ qs.map (n, ·)) : Down g fs :=
  .files h hlog hsure

end Live

/-- A crash takes nothing away that counts. -/
theorem Down.cut {g : Ledger} {fs : List File} (h : Down g fs) (m : ℕ) : Down g (cut m fs) := by
  cases h with
  | nothing h => exact .nothing h
  | @files _ cs n ps qs k more hfiles hlog hsure =>
    refine .files (k := min (max (encodeRecords qs).length m) k) ?_ hlog hsure
    refine ⟨?_, hfiles.synced, ?_, hfiles.oldFits, hfiles.fits⟩
    · rw [hfiles.files]
      unfold Storage.cut
      rw [onLast_append, List.take_take]
    · have := hfiles.there
      omega

/-! ## Every crash point of a call. -/

/-- `P` holds before, between and after the actions. -/
def Throughout (P : List File → Prop) (fs : List File) : List FileAct → Prop
  | [] => P fs
  | a :: as => P fs ∧ Throughout P (a.apply fs) as

theorem Throughout.take {P : List File → Prop} {fs : List File} {acts : List FileAct}
    (h : Throughout P fs acts) (k : ℕ) : P ((acts.take k).foldl FileAct.apply fs) := by
  induction acts generalizing fs k with
  | nil =>
    rw [List.take_nil]
    exact h
  | cons a acts ih =>
    cases k with
    | zero => exact h.1
    | succ k => exact ih h.2 k

theorem Throughout.append {P : List File → Prop} {fs : List File} {as bs : List FileAct}
    (ha : Throughout P fs as) (hb : Throughout P (as.foldl FileAct.apply fs) bs) :
    Throughout P fs (as ++ bs) := by
  induction as generalizing fs with
  | nil => exact hb
  | cons a as ih => exact ⟨ha.1, ih ha.2 hb⟩

/-- The running log. -/
structure Up (g : Ledger) (fs : List File) (l : SyncedWal) (cs : Contents) (ps qs : List Bytes) :
    Prop where
  live : Live fs cs l.wal.seg ps qs
  clean : l.dirty = false → qs = ps
  log : g.log = recordsOf cs ++ ps.map (l.wal.seg, ·)
  sure : g.sure <+: recordsOf cs ++ qs.map (l.wal.seg, ·)

section Calls

variable {fs : List File} {cs : Contents} {n : ℕ} {ps qs : List Bytes} {g : Ledger}
  {more : List (ℕ × Bytes)} {l : SyncedWal}

theorem sure_synced (hsynced : qs <+: ps) (hsure : g.sure <+: recordsOf cs ++ qs.map (n, ·)) :
    g.sure <+: recordsOf cs ++ ps.map (n, ·) := by
  refine hsure.trans ?_
  rw [List.prefix_append_right_inj]
  exact hsynced.map _

/-- `syncLocked`, with more records on their way. -/
theorem sync_steps (hlive : Live fs cs n ps qs) (hclean : l.dirty = false → qs = ps)
    (hlog : g.log = recordsOf cs ++ ps.map (n, ·) ++ more)
    (hsure : g.sure <+: recordsOf cs ++ qs.map (n, ·)) :
    Throughout (Down g) fs l.sync.2 ∧ Live (l.sync.2.foldl FileAct.apply fs) cs n ps ps := by
  unfold SyncedWal.sync
  cases hd : l.dirty with
  | false =>
    obtain rfl := hclean hd
    exact ⟨hlive.down hlog hsure, hlive⟩
  | true =>
    have hsync := hlive.sync
    exact ⟨⟨hlive.down hlog hsure, hsync.down hlog (sure_synced hlive.synced hsure)⟩, hsync⟩

theorem rotate_steps (hlive : Live fs cs n ps qs) (hclean : l.dirty = false → qs = ps)
    (hlog : g.log = recordsOf cs ++ ps.map (n, ·) ++ more)
    (hsure : g.sure <+: recordsOf cs ++ qs.map (n, ·)) :
    Throughout (Down g) fs l.rotate.2 ∧
      Live (l.rotate.2.foldl FileAct.apply fs) (cs ++ [(n, ps)]) (n + 1) [] [] := by
  obtain ⟨hdown, hsynced⟩ := sync_steps hlive hclean hlog hsure
  have hcreate := hsynced.create
  have hsure' : g.sure <+: recordsOf (cs ++ [(n, ps)]) ++ [].map (n + 1, ·) := by
    rw [recordsOf_snoc, List.map_nil, List.append_nil]
    exact sure_synced hlive.synced hsure
  have hlog' : g.log = recordsOf (cs ++ [(n, ps)]) ++ [].map (n + 1, ·) ++ more := by
    rw [recordsOf_snoc, List.map_nil, List.append_nil, hlog]
  unfold SyncedWal.rotate
  refine ⟨hdown.append ⟨hsynced.down hlog (sure_synced hlive.synced hsure),
    hcreate.down hlog' hsure'⟩, ?_⟩
  rw [List.foldl_append]
  exact hcreate

/-- The write of an `Append` whose records are all that is on its way. -/
theorem write_steps (always : Bool) {rs : List Bytes} (hrs : ∀ p ∈ rs, Fits p)
    (hlive : Live fs cs n ps qs) (hlog : g.log = recordsOf cs ++ (ps ++ rs).map (n, ·))
    (hsure : g.sure <+: recordsOf cs ++ qs.map (n, ·)) :
    Throughout (Down g) fs (.write (encodeRecords rs) :: if always then [.sync] else []) ∧
      Live ((FileAct.write (encodeRecords rs) :: if always then [.sync] else []).foldl
        FileAct.apply fs) cs n (ps ++ rs) (if always then ps ++ rs else qs) := by
  have hwrite := hlive.write hrs
  have hpending : g.log = recordsOf cs ++ ps.map (n, ·) ++ rs.map (n, ·) := by
    rw [hlog, List.map_append, List.append_assoc]
  have hbefore : Down g fs := hlive.down hpending hsure
  have hafter : g.log = recordsOf cs ++ (ps ++ rs).map (n, ·) ++ [] := by rw [hlog, List.append_nil]
  cases always with
  | false => exact ⟨⟨hbefore, hwrite.down hafter hsure⟩, hwrite⟩
  | true =>
    have hsync := hwrite.sync
    exact ⟨⟨hbefore, hwrite.down hafter hsure,
      hsync.down hafter (sure_synced hwrite.synced hsure)⟩, hsync⟩

/-- `Append`: all its crash points, and its end. -/
theorem append_steps (always : Bool) (segmentSize : ℕ) {rs : List Bytes} (hrs : ∀ p ∈ rs, Fits p)
    (h : Up g fs l cs ps qs) :
    let r := l.append always segmentSize rs
    let g' : Ledger := ⟨g.log ++ rs.map (r.1.wal.seg, ·), g.sure⟩
    Throughout (Down g') fs r.2 ∧
      ∃ cs' ps' qs', Up (if always then ⟨g'.log, g'.log⟩ else g') (r.2.foldl FileAct.apply fs) r.1
        cs' ps' qs' := by
  intro r g'
  by_cases hsize : l.wal.size ≥ segmentSize
  · -- a full segment: rotate, then write into the new one
    have hr : r = (⟨⟨l.wal.seg + 1, (encodeRecords rs).length⟩, !always⟩,
        l.rotate.2 ++ (.write (encodeRecords rs) :: if always then [.sync] else [])) := by
      show l.append always segmentSize rs = _
      unfold SyncedWal.append
      rw [if_pos hsize]
      simp [SyncedWal.rotate, Wal.rotate]
    have hseg : r.1.wal.seg = l.wal.seg + 1 := by rw [hr]
    have hlog : g'.log = recordsOf cs ++ ps.map (l.wal.seg, ·) ++ rs.map (l.wal.seg + 1, ·) := by
      show g.log ++ rs.map (r.1.wal.seg, ·) = _
      rw [h.log, hseg]
    obtain ⟨hdown, hlive⟩ := rotate_steps (g := g') h.live h.clean hlog h.sure
    have hlog' : g'.log = recordsOf (cs ++ [(l.wal.seg, ps)]) ++ ([] ++ rs).map (l.wal.seg + 1, ·) := by
      rw [recordsOf_snoc, hlog, List.nil_append]
    have hsure' : g'.sure <+: recordsOf (cs ++ [(l.wal.seg, ps)]) ++ [].map (l.wal.seg + 1, ·) := by
      rw [recordsOf_snoc, List.map_nil, List.append_nil]
      exact sure_synced h.live.synced h.sure
    obtain ⟨hdown', hlive'⟩ := write_steps always hrs hlive hlog' hsure'
    refine ⟨by rw [hr]; exact hdown.append hdown', cs ++ [(l.wal.seg, ps)], [] ++ rs,
      if always then [] ++ rs else [], ?_⟩
    rw [hr, List.foldl_append]
    cases always with
    | false => exact ⟨hlive', by simp, hlog', hsure'⟩
    | true => exact ⟨hlive', fun _ => rfl, hlog', hlog' ▸ List.prefix_refl _⟩
  · have hr : r = (⟨⟨l.wal.seg, l.wal.size + (encodeRecords rs).length⟩, !always⟩,
        .write (encodeRecords rs) :: if always then [.sync] else []) := by
      show l.append always segmentSize rs = _
      unfold SyncedWal.append
      rw [if_neg hsize]
      simp
    have hseg : r.1.wal.seg = l.wal.seg := by rw [hr]
    have hlog : g'.log = recordsOf cs ++ (ps ++ rs).map (l.wal.seg, ·) := by
      show g.log ++ rs.map (r.1.wal.seg, ·) = _
      rw [h.log, hseg, List.map_append, List.append_assoc]
    obtain ⟨hdown, hlive⟩ := write_steps (g := g') always hrs h.live hlog h.sure
    refine ⟨by rw [hr]; exact hdown, cs, ps ++ rs, if always then ps ++ rs else qs, ?_⟩
    rw [hr]
    cases always with
    | false => exact ⟨hlive, by simp, hlog, h.sure⟩
    | true => exact ⟨hlive, fun _ => rfl, hlog, hlog ▸ List.prefix_refl _⟩

/-! ## Removing segments. -/

theorem filter_tagged_of_ne {n m : ℕ} (h : n ≠ m) (ps : List Bytes) :
    (ps.map (n, ·)).filter (fun r : ℕ × Bytes => r.1 ≠ m) = ps.map (n, ·) := by
  refine List.filter_eq_self.mpr fun r hr => ?_
  obtain ⟨p, -, rfl⟩ := List.mem_map.mp hr
  simpa using h

theorem filter_tagged_self (m : ℕ) (ps : List Bytes) :
    (ps.map (m, ·)).filter (fun r : ℕ × Bytes => r.1 ≠ m) = [] := by
  refine List.filter_eq_nil_iff.mpr fun r hr => ?_
  obtain ⟨p, -, rfl⟩ := List.mem_map.mp hr
  simp

theorem recordsOf_filter (cs : Contents) (m : ℕ) :
    recordsOf (cs.filter (·.1 ≠ m)) = (recordsOf cs).filter (·.1 ≠ m) := by
  induction cs with
  | nil => rfl
  | cons c cs ih =>
    show recordsOf ((c :: cs).filter _) = ((c.2.map (c.1, ·)) ++ recordsOf cs).filter _
    rw [List.filter_append, ← ih]
    by_cases hne : c.1 = m
    · subst hne
      rw [List.filter_cons_of_neg (by simp), filter_tagged_self, List.nil_append]
    · rw [List.filter_cons_of_pos (by simpa using hne), filter_tagged_of_ne hne]
      rfl

theorem Up.remove (h : Up g fs l cs ps qs) {m : ℕ} (hm : m ≠ l.wal.seg) (always : Bool) :
    Up (g.note always (.removed m)) ((FileAct.remove m).apply fs) l (cs.filter (·.1 ≠ m)) ps qs := by
  refine ⟨live_of ?_ h.live.synced (fun c hc => h.live.oldFits c (List.mem_of_mem_filter hc))
    h.live.fits, h.clean, ?_, ?_⟩
  · rw [h.live.files_eq]
    show List.filter _ (cs.map old ++ [_]) = _
    rw [List.filter_append, List.filter_map, List.filter_cons_of_pos (by simpa using hm.symm)]
    rfl
  · show g.log.filter _ = _
    rw [h.log, List.filter_append, filter_tagged_of_ne hm.symm, recordsOf_filter]
  · show g.sure.filter _ <+: _
    rw [recordsOf_filter, ← filter_tagged_of_ne hm.symm qs, ← List.filter_append]
    exact h.sure.filter _

/-- The removals of a `DeleteBefore`, or the first of them. -/
theorem removes_up (always : Bool) (nums : List ℕ) (hnums : ∀ m ∈ nums, m ≠ l.wal.seg)
    (h : Up g fs l cs ps qs) :
    ∃ cs', Up ((removals (nums.map .remove)).foldl (Ledger.note always) g)
      ((nums.map FileAct.remove).foldl FileAct.apply fs) l cs' ps qs := by
  induction nums generalizing g fs cs with
  | nil => exact ⟨cs, h⟩
  | cons m nums ih =>
    obtain ⟨hm, hnums⟩ := List.forall_mem_cons.mp hnums
    exact ih hnums (h.remove hm always)

end Calls

/-! ## Opening. -/

theorem foldlM_collect (n : ℕ) (ps : List Bytes) (recs : List (ℕ × Bytes)) :
    ps.foldlM (collect n) recs = .ok (recs ++ ps.map (n, ·)) := by
  induction ps generalizing recs with
  | nil =>
    rw [List.map_nil, List.append_nil]
    rfl
  | cons p ps ih =>
    rw [List.foldlM_cons]
    show ps.foldlM (collect n) (recs ++ [(n, p)]) = _
    rw [ih, List.map_cons, List.append_assoc]
    rfl

theorem foldContents_collect (cs : Contents) (recs : List (ℕ × Bytes)) :
    foldContents collect cs recs = .ok (recs ++ recordsOf cs) := by
  induction cs generalizing recs with
  | nil =>
    rw [recordsOf_nil, List.append_nil]
    rfl
  | cons c cs ih =>
    rw [foldContents_cons, foldlM_collect]
    show foldContents collect cs _ = _
    rw [ih, List.append_assoc]
    rfl

/-- The complete records of a cut file: all that were synced, and a prefix of what was written. -/
theorem FilesOf.holds {fs : List File} {cs : Contents} {n : ℕ} {ps qs : List Bytes} {k : ℕ}
    (h : FilesOf fs cs n ps qs k) :
    ∃ ps', qs <+: ps' ∧ ps' <+: ps ∧ Holds ((encodeRecords ps).take k) ps' := by
  obtain ⟨rs, rfl⟩ := h.synced
  have hrs : ∀ p ∈ rs, Fits p := fun p hp => h.fits p (List.mem_append_right _ hp)
  obtain ⟨j, -, hholds, -⟩ := holds_take hrs (k - (encodeRecords qs).length)
  refine ⟨qs ++ rs.take j, List.prefix_append .., ?_, ?_⟩
  · rw [List.prefix_append_right_inj]
    exact List.take_prefix j rs
  · rw [encodeRecords_append, List.take_append, List.take_of_length_le h.there]
    exact hholds.append

/-- `OpenWAL` after any crash: what it replays, its crash points, and the running log. -/
theorem open_steps {g : Ledger} {fs : List File} (h : Down g fs) :
    ∃ recs acts, openFiles fs = .ok (recs, acts) ∧ g.sure <+: recs ∧ recs <+: g.log ∧
      Throughout (Down g) fs acts ∧ removals acts = [] ∧
      ∃ cs ps qs, Up ⟨recs, recs⟩ (acts.foldl FileAct.apply fs)
        ⟨⟨nextNum (fs.map File.segment), 0⟩, false⟩ cs ps qs := by
  cases h with
  | nothing hsure =>
    have hlive : Live (FileAct.create.apply []) [] 1 [] [] :=
      live_of rfl (List.prefix_refl _) (by simp) (by simp)
    refine ⟨[], [.create], rfl, ?_, List.nil_prefix, ⟨.nothing hsure, ?_⟩, rfl, [], [], [], ?_⟩
    · exact hsure ▸ List.nil_prefix
    · have hall : g.log = recordsOf [] ++ [].map (1, ·) ++ g.log := rfl
      refine hlive.down hall ?_
      rw [hsure]
      exact List.nil_prefix
    · exact ⟨hlive, fun _ => rfl, rfl, List.prefix_refl _⟩
  | @files _ cs n ps qs k more hfiles hlog hsure =>
    obtain ⟨ps', hqs, hps, hholds⟩ := hfiles.holds
    have hfits' : ∀ p ∈ ps', Fits p := fun p hp => hfiles.fits p (hps.subset hp)
    obtain ⟨rest, hrest⟩ := hps
    -- the replay
    have hreplay := replaySegments_of_records (f := collect) hfiles.oldFits hfits' hholds (n := n) []
    rw [foldContents_collect, List.nil_append] at hreplay
    have hsegments : fs.map File.segment =
        cs.map segmentOf ++ [⟨n, (encodeRecords ps).take k⟩] := by
      rw [hfiles.files, List.map_append, segment_old]
      rfl
    have hopen : openFiles fs = .ok (recordsOf (cs ++ [(n, ps')]),
        [.settle (encodeRecords ps').length, .create]) := by
      unfold openFiles
      rw [hsegments, hreplay]
      simp [segmentOf]
    -- the settled file holds the complete records and nothing else
    have hsettled : Live ((FileAct.settle (encodeRecords ps').length).apply fs) cs n ps' ps' := by
      refine live_of ?_ (List.prefix_refl _) hfiles.oldFits hfits'
      obtain ⟨t, ht, -⟩ := hholds
      rw [hfiles.files]
      show onLast _ _ = _
      rw [onLast_append, ht, List.take_left]
    have hlog' : g.log = recordsOf cs ++ ps'.map (n, ·) ++ (rest.map (n, ·) ++ more) := by
      rw [hlog, ← hrest, List.map_append, List.append_assoc, List.append_assoc, List.append_assoc]
    have hsure' : g.sure <+: recordsOf cs ++ ps'.map (n, ·) := sure_synced hqs hsure
    have hcreated := hsettled.create
    have hsnoc := recordsOf_snoc cs n ps'
    refine ⟨_, _, hopen, ?_, ?_, ⟨.files hfiles hlog hsure, hsettled.down hlog' hsure', ?_⟩, rfl,
      cs ++ [(n, ps')], [], [], ?_⟩
    · rw [hsnoc]
      exact hsure'
    · rw [hsnoc, hlog']
      exact List.prefix_append ..
    · have hall : g.log = recordsOf (cs ++ [(n, ps')]) ++ [].map (n + 1, ·) ++
          (rest.map (n, ·) ++ more) := by
        rw [hsnoc, List.map_nil, List.append_nil, hlog']
      refine hcreated.down hall ?_
      rw [hsnoc, List.map_nil, List.append_nil]
      exact hsure'
    · have hnum : nextNum (fs.map File.segment) = n + 1 := by
        rw [hfiles.files]
        exact nextNum_files_append ..
      rw [hnum]
      exact ⟨hcreated, fun _ => rfl, by simp, by simp⟩

/-! ## Whole runs. -/

/-- The state of the log against its ledger. -/
def WalOK (g : Ledger) (d : WalDisk) : Prop :=
  match d.log with
  | none => Down g d.files
  | some l => ∃ cs ps qs, Up g d.files l cs ps qs

theorem Up.down {g : Ledger} {fs : List File} {l : SyncedWal} {cs : Contents} {ps qs : List Bytes}
    (h : Up g fs l cs ps qs) : Down g fs :=
  h.live.down (by rw [h.log, List.append_nil]) h.sure

theorem removals_sync (l : SyncedWal) : removals l.sync.2 = [] := by
  unfold SyncedWal.sync
  cases l.dirty <;> rfl

theorem removals_append (as bs : List FileAct) :
    removals (as ++ bs) = removals as ++ removals bs := List.filterMap_append

theorem removals_rotate (l : SyncedWal) : removals l.rotate.2 = [] := by
  unfold SyncedWal.rotate
  rw [removals_append, removals_sync]
  rfl

theorem removals_appendCall (always : Bool) (segmentSize : ℕ) (l : SyncedWal) (ps : List Bytes) :
    removals (l.append always segmentSize ps).2 = [] := by
  unfold SyncedWal.append
  dsimp only
  rw [removals_append]
  split
  · rw [removals_rotate]
    cases always <;> rfl
  · cases always <;> rfl

theorem removals_take {acts : List FileAct} (h : removals acts = []) (k : ℕ) :
    removals (acts.take k) = [] := by
  have := removals_append (acts.take k) (acts.drop k)
  rw [List.take_append_drop, h] at this
  exact (List.append_eq_nil_iff.mp this.symm).1

/-- Observations that promise nothing by themselves. -/
def Silent : WalObs → Prop
  | .appending _ | .appended | .removed _ => True
  | _ => False

theorem Silent.promised {o : WalObs} (h : Silent o) (g : Ledger) : Promised g o := by
  cases o with
  | corrupt => exact h.elim
  | opened recs => exact h.elim
  | _ => trivial

theorem silent_removals {acts : List FileAct} {o : WalObs} (h : o ∈ removals acts) : Silent o := by
  obtain ⟨a, -, ha⟩ := List.mem_filterMap.mp h
  cases a with
  | remove num =>
    cases ha
    trivial
  | _ => cases ha

/-- What has to be shown of a call: every crash point leaves something to open, its end is a good state,
and its return keeps its promise. -/
structure PlanOK (always : Bool) (g : Ledger) (d : WalDisk) (plan : WalPlan) : Prop where
  silent : ∀ o ∈ plan.called, Silent o
  crash : ∀ k, Down ((plan.called ++ removals (plan.acts.take k)).foldl (Ledger.note always) g)
    ((plan.acts.take k).foldl FileAct.apply d.files)
  done : WalOK ((plan.called ++ removals plan.acts ++ plan.returned).foldl (Ledger.note always) g)
    ⟨plan.acts.foldl FileAct.apply d.files, plan.log⟩
  promise : ∀ pre o post, plan.returned = pre ++ o :: post →
    Promised ((plan.called ++ removals plan.acts ++ pre).foldl (Ledger.note always) g) o

/-- A call without removals and observations. -/
theorem PlanOK.of_steps {always : Bool} {g : Ledger} {d : WalDisk} {acts : List FileAct}
    {log : Option SyncedWal} (hdown : Throughout (Down g) d.files acts) (hremovals : removals acts = [])
    (hdone : WalOK g ⟨acts.foldl FileAct.apply d.files, log⟩) :
    PlanOK always g d { acts, log } := by
  refine ⟨by simp, fun k => ?_, ?_, by simp⟩
  · rw [removals_take hremovals]
    exact hdown.take k
  · rw [hremovals]
    exact hdone

theorem planOK_open {always : Bool} {g : Ledger} {d : WalDisk} {segmentSize : ℕ} {plan : WalPlan}
    (h : WalOK g d) (hlog : d.log = none) (hplan : d.plan always segmentSize .openLog = some plan) :
    PlanOK always g d plan := by
  unfold WalOK at h
  rw [hlog] at h
  obtain ⟨recs, acts, hopen, hsure, hprefix, hdown, hremovals, cs, ps, qs, hup⟩ := open_steps h
  unfold WalDisk.plan at hplan
  simp only [hlog, hopen] at hplan
  obtain rfl := Option.some.inj hplan
  refine ⟨by simp, fun k => ?_, ?_, ?_⟩
  · rw [removals_take hremovals]
    exact hdown.take k
  · rw [hremovals]
    exact ⟨cs, ps, qs, hup⟩
  · intro pre o post heq
    obtain ⟨rfl, ho⟩ : pre = [] ∧ o = .opened recs := by
      cases pre with
      | nil => exact ⟨rfl, (List.cons.inj heq).1.symm⟩
      | cons o' pre => simp at heq
    subst ho
    rw [hremovals]
    exact ⟨hsure, hprefix⟩

theorem planOK_append {always : Bool} {g : Ledger} {d : WalDisk} {segmentSize : ℕ} {plan : WalPlan}
    {l : SyncedWal} {rs : List Bytes} {cs : Contents} {ps qs : List Bytes} (h : Up g d.files l cs ps qs)
    (hlog : d.log = some l) (hlen : ∀ p ∈ rs, p.length < 2 ^ 32)
    (hplan : d.plan always segmentSize (.append rs) = some plan) : PlanOK always g d plan := by
  unfold WalDisk.plan at hplan
  simp only [hlog] at hplan
  split at hplan
  · obtain rfl := Option.some.inj hplan
    exact .of_steps h.down rfl ⟨cs, ps, qs, h⟩
  · next hempty =>
    obtain rfl := Option.some.inj hplan
    have hfits : ∀ p ∈ rs, Fits p := by
      intro p hp
      refine ⟨?_, hlen p hp⟩
      rintro rfl
      exact hempty hp
    obtain ⟨hdown, hup⟩ := append_steps always segmentSize hfits h
    have hremovals := removals_appendCall always segmentSize l rs
    refine ⟨?_, fun k => ?_, ?_, ?_⟩
    · intro o ho
      rw [List.mem_singleton.mp ho]
      trivial
    · rw [removals_take hremovals, List.append_nil]
      exact hdown.take k
    · rw [hremovals, List.append_nil]
      exact hup
    · intro pre o post heq
      have ho : o ∈ pre ++ o :: post := by simp
      rw [← heq] at ho
      rw [List.mem_singleton.mp ho]
      trivial

theorem planOK_delete {always : Bool} {g : Ledger} {d : WalDisk} {l : SyncedWal} {num : ℕ}
    {cs : Contents} {ps qs : List Bytes} (h : Up g d.files l cs ps qs) (hnum : num ≤ l.wal.seg) :
    PlanOK always g d
      { acts := (d.files.filter (·.num < num)).map fun f => .remove f.num, log := some l } := by
  -- the newest segment is not among the removed ones
  have hne : ∀ m ∈ (d.files.filter (·.num < num)).map File.num, m ≠ l.wal.seg := by
    intro m hm
    obtain ⟨f, hf, rfl⟩ := List.mem_map.mp hm
    have := of_decide_eq_true (List.mem_filter.mp hf).2
    omega
  have hacts : ((d.files.filter (·.num < num)).map fun f => FileAct.remove f.num) =
      ((d.files.filter (·.num < num)).map File.num).map .remove := by
    rw [List.map_map]
    rfl
  rw [hacts]
  generalize (d.files.filter (·.num < num)).map File.num = nums at hne
  refine ⟨by simp, fun k => ?_, ?_, by simp⟩
  · obtain ⟨cs', hup⟩ :=
      removes_up always (nums.take k) (fun m hm => hne m (List.mem_of_mem_take hm)) h
    rw [List.map_take] at hup
    exact hup.down
  · obtain ⟨cs', hup⟩ := removes_up always nums hne h
    rw [List.append_nil]
    exact ⟨cs', ps, qs, hup⟩

/-- STEP.  Every call is planned well. -/
theorem planOK {always : Bool} {segmentSize : ℕ} {g : Ledger} {d : WalDisk} {e : WalEvent}
    {plan : WalPlan} (h : WalOK g d) (hallowed : Allowed d e)
    (hplan : d.plan always segmentSize e.op = some plan) : PlanOK always g d plan := by
  unfold Allowed at hallowed
  cases hlog : d.log with
  | none =>
    cases hop : e.op with
    | openLog =>
      rw [hop] at hplan
      exact planOK_open h hlog hplan
    | _ => simp [hop, WalDisk.plan, hlog] at hplan
  | some l =>
    have hup := h
    unfold WalOK at hup
    rw [hlog] at hup
    obtain ⟨cs, ps, qs, hup⟩ := hup
    have hlog' : g.log = recordsOf cs ++ ps.map (l.wal.seg, ·) ++ [] := by
      rw [hup.log, List.append_nil]
    cases hop : e.op with
    | openLog => simp [hop, WalDisk.plan, hlog] at hplan
    | append rs =>
      rw [hop] at hplan hallowed
      exact planOK_append hup hlog hallowed hplan
    | rotate =>
      simp only [hop, WalDisk.plan, hlog] at hplan
      obtain rfl := Option.some.inj hplan
      obtain ⟨hdown, hlive⟩ := rotate_steps hup.live hup.clean hlog' hup.sure
      refine .of_steps hdown (removals_rotate l) ⟨_, _, _, hlive, fun _ => rfl, ?_, ?_⟩
      · rw [recordsOf_snoc, List.map_nil, List.append_nil, hup.log]
      · rw [recordsOf_snoc, List.map_nil, List.append_nil]
        exact sure_synced hup.live.synced hup.sure
    | sync =>
      simp only [hop, WalDisk.plan, hlog] at hplan
      obtain rfl := Option.some.inj hplan
      obtain ⟨hdown, hlive⟩ := sync_steps hup.live hup.clean hlog' hup.sure
      exact .of_steps hdown (removals_sync l)
        ⟨_, _, _, hlive, fun _ => rfl, hup.log, sure_synced hup.live.synced hup.sure⟩
    | deleteBefore num =>
      simp only [hop, WalDisk.plan, hlog] at hplan
      obtain rfl := Option.some.inj hplan
      rw [hop] at hallowed
      exact planOK_delete hup (hallowed l (by rw [hlog]; rfl))
    | close =>
      simp only [hop, WalDisk.plan, hlog] at hplan
      obtain rfl := Option.some.inj hplan
      obtain ⟨hdown, hlive⟩ := sync_steps hup.live hup.clean hlog' hup.sure
      exact .of_steps hdown (removals_sync l)
        (hlive.down hlog' (sure_synced hup.live.synced hup.sure))

theorem walOK_exec {always : Bool} {segmentSize : ℕ} {g : Ledger} {d d' : WalDisk} {e : WalEvent}
    {os : List WalObs} (h : WalOK g d) (hallowed : Allowed d e)
    (hexec : (syncedLog always segmentSize).exec d e = some (d', os)) :
    WalOK (os.foldl (Ledger.note always) g) d' ∧ ∀ pre o post, os = pre ++ o :: post →
      Promised (pre.foldl (Ledger.note always) g) o := by
  obtain ⟨plan, hplan, heq⟩ := Option.map_eq_some_iff.mp hexec
  have hok := planOK h hallowed hplan
  split at heq
  · obtain ⟨rfl, rfl⟩ := Prod.mk.inj heq
    refine ⟨hok.done, fun pre o post hsplit => ?_⟩
    -- the observation belongs to the call or to its return
    rcases List.append_eq_append_iff.mp hsplit with ⟨mid, rfl, hmid⟩ | ⟨mid, hmid, hpost⟩
    · exact hok.promise mid o post hmid
    · cases mid with
      | nil =>
        rw [List.append_nil] at hmid
        subst hmid
        simpa using hok.promise [] o post hpost.symm
      | cons o' mid =>
        obtain ⟨rfl, -⟩ := List.cons.inj hpost
        have ho : o ∈ plan.called ++ removals plan.acts := by
          rw [hmid]
          simp
        rcases List.mem_append.mp ho with ho | ho
        · exact (hok.silent o ho).promised _
        · exact (silent_removals ho).promised _
  · next k n _ =>
    obtain ⟨rfl, rfl⟩ := Prod.mk.inj heq
    refine ⟨(hok.crash k).cut n, fun pre o post hsplit => ?_⟩
    have ho : o ∈ plan.called ++ removals (plan.acts.take k) := by
      rw [hsplit]
      simp
    rcases List.mem_append.mp ho with ho | ho
    · exact (hok.silent o ho).promised _
    · exact (silent_removals ho).promised _

/-- Between two openings without an append or a removal, nothing changes. -/
theorem ledger_unchanged {always : Bool} {g : Ledger} {recs : List (ℕ × Bytes)} {mid : List WalObs}
    (hg : g = ⟨recs, recs⟩) (hquiet : ∀ o ∈ mid, (∀ rs, o ≠ .appending rs) ∧ ∀ num, o ≠ .removed num)
    (hpromised : ∀ pre o post, mid = pre ++ o :: post → Promised (pre.foldl (Ledger.note always) g) o) :
    mid.foldl (Ledger.note always) g = ⟨recs, recs⟩ := by
  induction mid generalizing g with
  | nil => exact hg
  | cons o mid ih =>
    obtain ⟨ho, hquiet⟩ := List.forall_mem_cons.mp hquiet
    have hfirst : Promised g o := hpromised [] o mid rfl
    refine ih ?_ hquiet fun pre o' post hsplit => hpromised (o :: pre) o' post (by rw [hsplit]; rfl)
    subst hg
    cases o with
    | corrupt => exact hfirst.elim
    | opened recs' =>
      obtain rfl : recs' = recs := (hfirst.2.eq_of_length (le_antisymm hfirst.2.length_le
        hfirst.1.length_le))
      rfl
    | appending rs => exact absurd rfl (ho.1 rs)
    | appended => cases always <;> rfl
    | removed num => exact absurd rfl (ho.2 num)

/-- WAL DURABILITY.  In every run of calls and crashes, no `OpenWAL` reports damage, and each one that
returns has replayed, with their segment numbers, a prefix of the records appended to the segments that
are left, which includes everything an earlier `OpenWAL` returned and, under `SyncAlways`, everything
whose `Append` returned.  Opening again with no append and no removal in between replays the same. -/
theorem wal_durability (always : Bool) (segmentSize : ℕ) (events : List WalEvent) (d : WalDisk)
    (os : List WalObs) (hrun : (syncedLog always segmentSize).run {} events = some (d, os))
    (hallowed : (syncedLog always segmentSize).Meets Allowed {} events) :
    .corrupt ∉ os ∧
    (∀ pre recs post, os = pre ++ .opened recs :: post →
      (pre.foldl (Ledger.note always) {}).sure <+: recs ∧
      recs <+: (pre.foldl (Ledger.note always) {}).log) ∧
    ∀ pre recs mid recs' post, os = pre ++ .opened recs :: (mid ++ .opened recs' :: post) →
      (∀ o ∈ mid, (∀ rs, o ≠ .appending rs) ∧ ∀ num, o ≠ .removed num) → recs' = recs := by
  obtain ⟨-, hpromised⟩ := Machine.run_folded walOK_exec (show WalOK {} {} from .nothing rfl)
    hallowed hrun
  refine ⟨?_, fun pre recs post => hpromised pre (.opened recs) post, ?_⟩
  · intro hcorrupt
    obtain ⟨pre, post, hsplit⟩ := List.append_of_mem hcorrupt
    exact hpromised pre .corrupt post hsplit
  · intro pre recs mid recs' post hsplit hquiet
    have hopened : (pre ++ [WalObs.opened recs]).foldl (Ledger.note always) {} = ⟨recs, recs⟩ := by
      rw [List.foldl_append]
      rfl
    have hmid := ledger_unchanged hopened hquiet fun pre' o post' hsplit' => by
      rw [← List.foldl_append]
      refine hpromised (pre ++ [WalObs.opened recs] ++ pre') o (post' ++ .opened recs' :: post) ?_
      rw [hsplit, hsplit']
      simp
    have hlast := hpromised (pre ++ .opened recs :: mid) (.opened recs') post (by rw [hsplit]; simp)
    have hledger : (pre ++ .opened recs :: mid).foldl (Ledger.note always) {} = ⟨recs, recs⟩ := by
      rw [List.append_cons, List.foldl_append]
      exact hmid
    rw [hledger] at hlast
    exact hlast.2.eq_of_length (le_antisymm hlast.2.length_le hlast.1.length_le)

/-- Two appends, a rotation, a third append that a power loss cuts inside its second record, two
openings, of which a crash cuts the first, and a removal. -/
def tornAppend : List WalEvent :=
  [⟨.openLog, none⟩, ⟨.append [[1], [2, 3]], none⟩, ⟨.rotate, none⟩, ⟨.append [[4]], none⟩,
    ⟨.append [[5], [6, 7]], some (1, 22)⟩, ⟨.openLog, some (1, 0)⟩, ⟨.openLog, none⟩,
    ⟨.deleteBefore 2, none⟩, ⟨.close, none⟩, ⟨.openLog, none⟩]

theorem tornAppend_runs : ((syncedLog true 64).run {} tornAppend).isSome = true := by decide +kernel

def tornAppendEnd : WalDisk × List WalObs := ((syncedLog true 64).run {} tornAppend).get tornAppend_runs

theorem run_tornAppend :
    (syncedLog true 64).run {} tornAppend = some (tornAppendEnd.1, tornAppendEnd.2) := by
  rw [Prod.mk.eta, tornAppendEnd, Option.some_get]

/-- The second opening replays the acknowledged records and the first record of the cut append. -/
theorem wal_durability_torn_append :
    .corrupt ∉ tornAppendEnd.2 ∧
    tornAppendEnd.2[6]? = some (.opened [(1, [1]), (1, [2, 3]), (2, [4]), (2, [5])]) ∧
    tornAppendEnd.2[8]? = some (.opened [(2, [4]), (2, [5])]) := by
  refine ⟨?_, by decide +kernel, by decide +kernel⟩
  exact (wal_durability true 64 tornAppend _ _ run_tornAppend (by decide +kernel)).1

end Keystone.Storage
