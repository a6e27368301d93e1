/-
# Keystone.Storage.EngineVersions — what becomes of the map when the tiers change.

A stack of tiers, read up to a sequence number, is a map (`Stack`).  The engine changes the stack in few
ways, and this module says once for each what it does to the map.  A new version at the top is a write
(`Stack.put`); a run of tiers replaced by one table without older versions changes nothing
(`Stack.replace`, for the flush of a memtable and for a compaction); tiers without entries do not matter
(`Stack.of_nonempty`); a bound above all sequence numbers may be any such bound (`Stack.raise`).

The second half reads these as facts about the versions of the engine: `withMemtable`, `withFlushed`,
`withCompacted` and the version a `Restore` makes.
-/
import Keystone.Storage.EngineReads

namespace Keystone.Storage

open Keystone.Lib
open Keystone.Lib.Tiers (Cell Cursor)
open Function (update)

/-! ## Stacks of tiers. -/

/-- What a reader with the bound `seq` sees of a tier. -/
abbrev cutAt (seq : ℕ) (t : List KeyVersion) : List KeyVersion := Tiers.upTo (trailer seq kindPut) t

/-- A tier as the engine makes them. -/
structure Orderly (t : List KeyVersion) : Prop where
  strict : Tiers.Strict t
  clean : ∀ e ∈ t, Clean e

/-- No version of the tier is above the bound. -/
def Below (seq : ℕ) (t : List KeyVersion) : Prop := ∀ e ∈ t, seqOf e ≤ seq

/-- The tiers, newest first, are the map `m` to a reader with the bound `seq`. -/
structure Stack (seq : ℕ) (ts : List (List KeyVersion)) (m : KVMap) : Prop where
  orderly : ∀ t ∈ ts, Orderly t
  ranked : Tiers.Ranked (ts.map (cutAt seq))
  reads : ∀ k, (Tiers.topOf k (ts.map (cutAt seq))).bind valueOf = m[k]?

variable {seq seq' : ℕ} {t : List KeyVersion} {ts as run bs : List (List KeyVersion)} {m : KVMap}

theorem orderly_nil : Orderly [] :=
  ⟨List.Pairwise.nil, fun _ he => absurd he List.not_mem_nil⟩

theorem below_nil (seq : ℕ) : Below seq [] := fun _ he => absurd he List.not_mem_nil

theorem Below.mono (h : Below seq t) (hle : seq ≤ seq') : Below seq' t := fun e he => (h e he).trans hle

/-- A bound above everything cuts nothing off. -/
theorem cutAt_of_below (ht : Orderly t) (h : Below seq t) : cutAt seq t = t :=
  Tiers.upTo_of_le fun e he => (ht.clean e he).le_trailer_iff.mpr (h e he)

theorem map_cutAt_of_below (ho : ∀ t ∈ ts, Orderly t) (h : ∀ t ∈ ts, Below seq t) :
    ts.map (cutAt seq) = ts := by
  refine (List.map_congr_left fun t ht => ?_).trans (List.map_id ts)
  exact cutAt_of_below (ho t ht) (h t ht)

/-- Under a bound that nothing exceeds, the stack is read as it is. -/
theorem stack_of_below (ho : ∀ t ∈ ts, Orderly t) (hb : ∀ t ∈ ts, Below seq t) (hr : Tiers.Ranked ts)
    (hreads : ∀ k, (Tiers.topOf k ts).bind valueOf = m[k]?) : Stack seq ts m := by
  have hcut := map_cutAt_of_below ho hb
  exact ⟨ho, hcut.symm ▸ hr, hcut.symm ▸ hreads⟩

/-- The bound may move where nothing lies between. -/
theorem Stack.raise (h : Stack seq ts m) (hb : ∀ t ∈ ts, Below seq t) (hb' : ∀ t ∈ ts, Below seq' t) :
    Stack seq' ts m := by
  have hcut := map_cutAt_of_below h.orderly hb
  refine stack_of_below h.orderly hb' ?_ ?_
  · rw [← hcut]
    exact h.ranked
  · rw [← hcut]
    exact h.reads

/-! ### Tiers without entries. -/

/-- Tiers without entries do not matter for the order of the others, -/
theorem ranked_filter_nonempty {us : List (List KeyVersion)} :
    Tiers.Ranked (us.filter fun t => !t.isEmpty) ↔ Tiers.Ranked us := by
  unfold Tiers.Ranked
  rw [List.pairwise_filter]
  constructor
  · intro h
    refine h.imp fun {a b} hab c hc x hx => ?_
    have ha : (!a.isEmpty) = true := by simp [List.ne_nil_of_mem hc]
    have hb : (!b.isEmpty) = true := by simp [List.ne_nil_of_mem hx]
    exact hab ha hb c hc x hx
  · exact fun h => h.imp fun hab _ _ => hab

/-- and cutting at a bound makes no tier out of one. -/
theorem filter_cutAt (seq : ℕ) (ts : List (List KeyVersion)) :
    (ts.map (cutAt seq)).filter (fun t => !t.isEmpty) =
      ((ts.filter fun t => !t.isEmpty).map (cutAt seq)).filter fun t => !t.isEmpty := by
  induction ts with
  | nil => rfl
  | cons t ts ih =>
    cases t with
    | nil => exact ih
    | cons e t =>
      rw [List.filter_cons_of_pos (p := fun t : List KeyVersion => !t.isEmpty) rfl, List.map_cons,
        List.map_cons, List.filter_cons, List.filter_cons, ih]

/-- Two stacks with the same tiers that have entries are the same map. -/
theorem Stack.of_nonempty {us : List (List KeyVersion)} (h : Stack seq ts m)
    (heq : (us.filter fun t => !t.isEmpty) = ts.filter fun t => !t.isEmpty) : Stack seq us m := by
  have hcut : (us.map (cutAt seq)).filter (fun t => !t.isEmpty) =
      (ts.map (cutAt seq)).filter fun t => !t.isEmpty := by
    rw [filter_cutAt, heq, ← filter_cutAt]
  refine ⟨fun t ht => ?_, ?_, fun k => ?_⟩
  · cases t with
    | nil => exact orderly_nil
    | cons e t =>
      have hmem : (e :: t) ∈ us.filter fun t => !t.isEmpty := List.mem_filter.mpr ⟨ht, rfl⟩
      rw [heq] at hmem
      exact h.orderly _ (List.mem_filter.mp hmem).1
  · rw [← ranked_filter_nonempty, hcut, ranked_filter_nonempty]
    exact h.ranked
  · rw [← Tiers.topOf_filter_nonempty, hcut, Tiers.topOf_filter_nonempty]
    exact h.reads k

/-- A new memtable is empty. -/
theorem Stack.cons_nil (h : Stack seq ts m) : Stack seq ([] :: ts) m := h.of_nonempty rfl

/-! ### A run of tiers becomes one table. -/

theorem nil_lt_key {e : KeyVersion} (h : Clean e) : compare ([] : Key) e.key = .lt := by
  cases hkey : e.key with
  | nil => exact absurd hkey h.key
  | cons a l => rfl

/-- A table has no entry that its inputs do not have. -/
theorem mem_of_tableEntries {drop : Bool} {l : List KeyVersion} {e : KeyVersion}
    (h : e ∈ tableEntries drop l) : e ∈ l :=
  (Tiers.firsts_sublist [] l).subset (List.mem_filter.mp h).1

theorem strict_of_keys {l : List KeyVersion} (h : l.Pairwise fun a b => compare a.key b.key = .lt) :
    Tiers.Strict l := h.imp fun hab => by
  unfold Cell.cmp
  rw [hab]
  rfl

/-- A table has one version of each key, in ascending order. -/
theorem tableEntries_ascending (drop : Bool) (ho : ∀ t ∈ run, Orderly t) :
    (tableEntries drop (Tiers.mergeAll run)).Pairwise fun a b => compare a.key b.key = .lt := by
  have hsorted := Tiers.sorted_mergeAll fun t ht => Tiers.sorted_of_strictly (ho t ht).strict
  exact (Tiers.firsts_strict hsorted fun e _ => nil_isLE e.key).1.filter _

/-- A compaction of tables in order writes a table in order. -/
theorem tableEntries_orderly (drop : Bool) (ho : ∀ t ∈ run, Orderly t) :
    Orderly (tableEntries drop (Tiers.mergeAll run)) := by
  refine ⟨strict_of_keys (tableEntries_ascending drop ho), fun e he => ?_⟩
  obtain ⟨t, ht, het⟩ := Tiers.mem_mergeAll.mp (mem_of_tableEntries he)
  exact (ho t ht).clean e het

theorem bind_valueOf_filter (o : Option KeyVersion) :
    (o.filter fun e => !(kindOf e == kindDelete)).bind valueOf = o.bind valueOf := by
  cases o with
  | none => rfl
  | some e =>
    by_cases hdel : kindOf e = kindDelete
    · simp [Option.filter, valueOf, hdel]
    · simp [Option.filter, hdel]

/-- A run of tiers under the bound may become one table of their newest versions; tombstones may go if
nothing is below. -/
theorem Stack.replace (h : Stack seq (as ++ run ++ bs) m) (hrun : ∀ t ∈ run, Below seq t) (drop : Bool)
    (hdrop : drop = true → bs = []) :
    Stack seq (as ++ tableEntries drop (Tiers.mergeAll run) :: bs) m := by
  have horun : ∀ t ∈ run, Orderly t := fun t ht =>
    h.orderly t (List.mem_append_left _ (List.mem_append_right _ ht))
  have hin : ∀ e ∈ tableEntries drop (Tiers.mergeAll run), ∃ t ∈ run, e ∈ t := fun e he =>
    Tiers.mem_mergeAll.mp (mem_of_tableEntries he)
  have hout := tableEntries_orderly drop horun
  have hbelow : Below seq (tableEntries drop (Tiers.mergeAll run)) := by
    intro e he
    obtain ⟨t, ht, het⟩ := hin e he
    exact hrun t ht e het
  have hold : (as ++ run ++ bs).map (cutAt seq) = as.map (cutAt seq) ++ run ++ bs.map (cutAt seq) := by
    rw [List.map_append, List.map_append, map_cutAt_of_below horun hrun]
  have hnew : (as ++ tableEntries drop (Tiers.mergeAll run) :: bs).map (cutAt seq) =
      as.map (cutAt seq) ++ tableEntries drop (Tiers.mergeAll run) :: bs.map (cutAt seq) := by
    rw [List.map_append, List.map_cons, cutAt_of_below hout hbelow]
  have hranked := h.ranked
  have hreads := h.reads
  rw [hold] at hranked hreads
  have hrankedRun : Tiers.Ranked run :=
    (List.pairwise_append.mp (List.pairwise_append.mp hranked).1).2.1
  have hsorted : ∀ t ∈ run, Tiers.Sorted t := fun t ht => Tiers.sorted_of_strictly (horun t ht).strict
  have hkeys : ∀ t ∈ run, ∀ e ∈ t, compare ([] : Key) e.key = .lt := fun t ht e he =>
    nil_lt_key ((horun t ht).clean e he)
  refine ⟨fun t ht => ?_, ?_, fun k => ?_⟩
  · rcases List.mem_append.mp ht with ht | ht
    · exact h.orderly t (List.mem_append_left _ (List.mem_append_left _ ht))
    · rcases List.mem_cons.mp ht with rfl | ht
      · exact hout
      · exact h.orderly t (List.mem_append_right _ ht)
  · rw [hnew]
    exact Tiers.ranked_replace hranked hin
  · rw [hnew, ← hreads k]
    cases drop with
    | false =>
      have hplain : tableEntries false (Tiers.mergeAll run) = Tiers.firsts [] (Tiers.mergeAll run) :=
        List.filter_eq_self.mpr fun _ _ => rfl
      rw [hplain, Tiers.topOf_merged k _ _ hsorted hrankedRun hkeys]
    | true =>
      rw [hdrop rfl, List.map_nil, List.append_nil, ← bind_valueOf_filter, ← bind_valueOf_filter
        (Tiers.topOf k (as.map (cutAt seq) ++ run))]
      exact congrArg (·.bind valueOf) (Tiers.topOf_merged_bottom k _ _ hsorted hrankedRun hkeys)

/-! ### A new version at the top. -/

/-- The version that operation `op` makes with sequence number `seq`. -/
def cellOf (seq : ℕ) (op : BatchOp) : KeyVersion :=
  ⟨op.key, trailer seq op.raw.kind, if op.raw.kind = kindPut then op.raw.value else []⟩

theorem entries_put (mt : Memtable) (seq : ℕ) (op : BatchOp) :
    (mt.put seq op.raw).entries = Tiers.insert (cellOf seq op) mt.entries := rfl

theorem seqOf_cellOf (seq : ℕ) (op : BatchOp) : seqOf (cellOf seq op) = seq := trailer_div _ _

theorem clean_cellOf (seq : ℕ) {op : BatchOp} (h : op.key ≠ []) : Clean (cellOf seq op) :=
  clean_of_op h seq _

/-- A put shows its value, a delete none. -/
theorem valueOf_cellOf (seq : ℕ) (op : BatchOp) :
    valueOf (cellOf seq op) = if op.kind = .put then some op.value else none := by
  obtain ⟨kind, key, value⟩ := op
  have hkind : kindOf (cellOf seq ⟨kind, key, value⟩) = kind.byte := trailer_kind _ _
  unfold valueOf
  rw [hkind]
  cases kind <;> rfl

/-- What a write does to the map is what its version shows. -/
theorem getElem?_applyOp_cell (m : KVMap) (seq : ℕ) (op : BatchOp) (k : Key) :
    (m.applyOp op)[k]? = if op.key = k then valueOf (cellOf seq op) else m[k]? := by
  rw [KVMap.getElem?_applyOp, valueOf_cellOf]
  cases op.kind <;> rfl

theorem cmp_ne_eq_of_seq {x c : KeyVersion} (h : seqOf x < seqOf c) : x.cmp c ≠ .eq := by
  intro heq
  have hver : x.ver = c.ver := by
    unfold Cell.cmp at heq
    rw [Ordering.then_eq_eq] at heq
    exact (Nat.compare_eq_eq.mp heq.2).symm
  unfold seqOf at h
  rw [hver] at h
  exact Nat.lt_irrefl _ h

/-- A newer version fits into an ordered memtable. -/
theorem orderly_insert {c : KeyVersion} (ht : Orderly t) (hc : Clean c) (h : ∀ x ∈ t, seqOf x < seqOf c) :
    Orderly (Tiers.insert c t) := by
  refine ⟨Tiers.strict_insert ht.strict fun x hx => cmp_ne_eq_of_seq (h x hx), fun e he => ?_⟩
  rcases Tiers.mem_insert.mp he with rfl | he
  · exact hc
  · exact ht.clean e he

theorem ver_le_of_seq_lt {x c : KeyVersion} (h : seqOf x < seqOf c) : x.ver ≤ c.ver := by
  unfold seqOf at h
  omega

/-- The next version on top of everything is a write. -/
theorem Stack.put {op : BatchOp} (h : Stack seq (t :: ts) m) (hb : ∀ u ∈ t :: ts, Below seq u)
    (hkey : op.key ≠ []) :
    Stack (seq + 1) (Tiers.insert (cellOf (seq + 1) op) t :: ts) (m.applyOp op) := by
  have hcut := map_cutAt_of_below h.orderly hb
  have hranked := h.ranked
  have hreads := h.reads
  rw [hcut] at hranked hreads
  obtain ⟨hbt, hbs⟩ := List.forall_mem_cons.mp hb
  obtain ⟨hot, hos⟩ := List.forall_mem_cons.mp h.orderly
  have hnew : ∀ u ∈ t :: ts, ∀ x ∈ u, seqOf x < seqOf (cellOf (seq + 1) op) := by
    intro u hu x hx
    rw [seqOf_cellOf]
    exact Nat.lt_succ_of_le (hb u hu x hx)
  obtain ⟨hnewt, hnews⟩ := List.forall_mem_cons.mp hnew
  refine stack_of_below ?_ ?_ ?_ fun k => ?_
  · exact List.forall_mem_cons.mpr ⟨orderly_insert hot (clean_cellOf _ hkey) hnewt, hos⟩
  · refine List.forall_mem_cons.mpr ⟨fun e he => ?_, fun u hu => (hbs u hu).mono (Nat.le_succ _)⟩
    rcases Tiers.mem_insert.mp he with rfl | he
    · exact (seqOf_cellOf _ _).le
    · exact (hbt e he).trans (Nat.le_succ _)
  · obtain ⟨hfirst, hrest⟩ := List.pairwise_cons.mp hranked
    refine List.pairwise_cons.mpr ⟨fun u hu c hc x hx hk => ?_, hrest⟩
    rcases Tiers.mem_insert.mp hc with rfl | hc
    · exact ver_le_of_seq_lt (hnews u hu x hx)
    · exact hfirst u hu c hc x hx hk
  · rw [getElem?_applyOp_cell m (seq + 1), ← hreads k, Tiers.topOf_cons, Tiers.topOf_cons,
      Tiers.top_insert_of_newest k (Tiers.sorted_of_strictly hot.strict)
        fun x hx _ => ver_le_of_seq_lt (hnewt x hx)]
    by_cases hk : op.key = k
    · have hcell : (cellOf (seq + 1) op).key = k := hk
      rw [if_pos hcell, if_pos hk]
      rfl
    · have hcell : (cellOf (seq + 1) op).key ≠ k := hk
      rw [if_neg hcell, if_neg hk]

/-! ### One table. -/

/-- The map of a table: the first version of a key decides. -/
def mapOf (l : List KeyVersion) : KVMap :=
  l.foldr (fun e m => if kindOf e = kindDelete then m.erase e.key else m.insert e.key e.val) ∅

/-- The first version of a key is its value in the map. -/
theorem getElem?_mapOf (l : List KeyVersion) (k : Key) :
    (mapOf l)[k]? = (Tiers.top k l).bind valueOf := by
  induction l with
  | nil => exact Std.ExtTreeMap.getElem?_empty
  | cons e l ih =>
    have hcons : mapOf (e :: l) =
        if kindOf e = kindDelete then (mapOf l).erase e.key else (mapOf l).insert e.key e.val := rfl
    rw [hcons, Tiers.top_cons]
    by_cases hdel : kindOf e = kindDelete
    · rw [if_pos hdel, Std.ExtTreeMap.getElem?_erase]
      by_cases hk : e.key = k
      · simp [hk, valueOf, hdel]
      · simp [hk, ih]
    · rw [if_neg hdel, Std.ExtTreeMap.getElem?_insert]
      by_cases hk : e.key = k
      · simp [hk, valueOf, hdel]
      · simp [hk, ih]

/-- One table in order is its map. -/
theorem stack_mapOf (ht : Orderly t) (hb : Below seq t) : Stack seq [t] (mapOf t) := by
  refine stack_of_below ?_ ?_ (List.pairwise_singleton _ _) fun k => ?_
  · exact List.forall_mem_singleton.mpr ht
  · exact List.forall_mem_singleton.mpr hb
  · rw [getElem?_mapOf, Tiers.topOf_cons, Tiers.topOf_nil, Option.or_none]

/-! ## Versions of the engine. -/

/-- The memtables of a version, by their segments, oldest first. -/
def Version.segs (v : Version) : List ℕ := v.imm ++ [v.mem]

/-- The tiers of a version, newest first: its memtables, then its tables. -/
def Version.tiers (mems : ℕ → Memtable) (v : Version) : List (List KeyVersion) :=
  v.segs.reverse.map (fun g => (mems g).entries) ++ v.tables.map Table.entries

variable {mems mems' : ℕ → Memtable} {v : Version}

/-- They are what an iterator over the version merges. -/
theorem Version.map_children (mems : ℕ → Memtable) (v : Version) :
    v.children.map (Tier.entries mems) = v.tiers mems := by
  unfold Version.children Version.tiers Version.segs
  rw [List.reverse_append, List.reverse_singleton, List.singleton_append, List.map_cons, List.map_cons,
    List.map_append, List.map_map, List.map_map, List.cons_append]
  rfl

theorem Version.mem_tiers {t : List KeyVersion} :
    t ∈ v.tiers mems ↔ (∃ g ∈ v.segs, (mems g).entries = t) ∨ ∃ u ∈ v.tables, u.entries = t := by
  unfold Version.tiers
  rw [List.mem_append, List.mem_map, List.mem_map]
  simp only [List.mem_reverse]

/-- A version shows a map if its tiers are one. -/
theorem shows_iff : Shows mems v seq m ↔ Stack seq (v.tiers mems) m := by
  have hseen : v.seen mems seq = (v.tiers mems).map (cutAt seq) := by
    rw [← Version.map_children, List.map_map]
    rfl
  constructor
  · intro h
    refine ⟨fun t ht => ?_, hseen ▸ h.ranked, hseen ▸ h.reads⟩
    rw [← Version.map_children] at ht
    obtain ⟨c, hc, rfl⟩ := List.mem_map.mp ht
    exact ⟨h.strict c hc, h.clean c hc⟩
  · intro h
    have horderly : ∀ c ∈ v.children, Orderly (c.entries mems) := fun c hc =>
      h.orderly _ (Version.map_children mems v ▸ List.mem_map_of_mem hc)
    exact ⟨fun c hc => (horderly c hc).strict, fun c hc => (horderly c hc).clean, hseen ▸ h.ranked,
      hseen ▸ h.reads⟩

/-- A version reads its own memtables only. -/
theorem Version.tiers_congr (h : ∀ g ∈ v.segs, mems' g = mems g) : v.tiers mems' = v.tiers mems := by
  unfold Version.tiers
  congr 1
  exact List.map_congr_left fun g hg => by rw [h g (List.mem_reverse.mp hg)]

/-- The versions of keys that a version of the engine has. -/
def Version.Has (mems : ℕ → Memtable) (v : Version) (e : KeyVersion) : Prop := ∃ t ∈ v.tiers mems, e ∈ t

theorem Version.has_of_seg {g : ℕ} {e : KeyVersion} (hg : g ∈ v.segs) (he : e ∈ (mems g).entries) :
    v.Has mems e := ⟨_, Version.mem_tiers.mpr (.inl ⟨g, hg, rfl⟩), he⟩

theorem Version.Has.cases {e : KeyVersion} (h : v.Has mems e) :
    (∃ g ∈ v.segs, e ∈ (mems g).entries) ∨ ∃ u ∈ v.tables, e ∈ u.entries := by
  obtain ⟨t, ht, he⟩ := h
  rcases Version.mem_tiers.mp ht with ⟨g, hg, rfl⟩ | ⟨u, hu, rfl⟩
  · exact .inl ⟨g, hg, he⟩
  · exact .inr ⟨u, hu, he⟩

/-! ### A new memtable. -/

theorem Version.segs_withMemtable (v : Version) (seg : ℕ) : (v.withMemtable seg).segs = v.segs ++ [seg] := rfl

/-- A fresh memtable in front, all else as before. -/
theorem Version.tiers_frozen {seg : ℕ} (hseg : seg ∉ v.segs) :
    (v.withMemtable seg).tiers (update mems seg {}) = [] :: v.tiers mems := by
  have hold : v.tiers (update mems seg {}) = v.tiers mems :=
    Version.tiers_congr fun g hg => Function.update_of_ne (ne_of_mem_of_not_mem hg hseg) _ _
  rw [← hold]
  unfold Version.tiers
  rw [Version.segs_withMemtable, List.reverse_append, List.reverse_singleton, List.singleton_append,
    List.map_cons, List.cons_append, Function.update_self]
  rfl

/-- Freezing the memtable changes nothing a reader sees. -/
theorem Shows.frozen {seg : ℕ} (h : Shows mems v seq m) (hseg : seg ∉ v.segs) :
    Shows (update mems seg {}) (v.withMemtable seg) seq m := by
  rw [shows_iff] at h ⊢
  rw [Version.tiers_frozen hseg]
  exact h.cons_nil

/-! ### Another version with a run of tiers in one table. -/

/-- The table of the entries `es`; there is none if there are no entries. -/
def Finished (t : Option Table) (es : List KeyVersion) : Prop :=
  t.toList.map Table.entries = [es].filter fun t => !t.isEmpty

theorem finished_none : Finished none [] := rfl

theorem finished_some {u : Table} (h : u.entries ≠ []) : Finished (some u) u.entries := by
  cases hes : u.entries with
  | nil => exact absurd hes h
  | cons e es =>
    show [u.entries] = [e :: es]
    rw [hes]

theorem Finished.entries {t : Option Table} {es : List KeyVersion} (h : Finished t es) {u : Table}
    (hu : u ∈ t.toList) : u.entries = es := by
  have hmem : u.entries ∈ t.toList.map Table.entries := List.mem_map_of_mem hu
  rw [show t.toList.map Table.entries = _ from h] at hmem
  exact List.mem_singleton.mp (List.mem_filter.mp hmem).1

/-- The table takes the place of its entries. -/
theorem Stack.finished {es : List KeyVersion} {t : Option Table} (h : Stack seq (as ++ es :: bs) m)
    (ht : Finished t es) : Stack seq (as ++ t.toList.map Table.entries ++ bs) m := by
  refine h.of_nonempty ?_
  have hself : (t.toList.map Table.entries).filter (fun t => !t.isEmpty) = [es].filter fun t => !t.isEmpty := by
    rw [show t.toList.map Table.entries = _ from ht, List.filter_filter]
    simp only [Bool.and_self]
  rw [List.filter_append, List.filter_append, hself, List.append_assoc, ← List.filter_append,
    ← List.filter_append, List.singleton_append]

theorem mergeAll_singleton (t : List KeyVersion) : Tiers.mergeAll [t] = t := List.merge_right t

section Replaced

variable {v' : Version} {drop : Bool} {t : Option Table} (hold : v.tiers mems = as ++ run ++ bs)
  (hnew : v'.tiers mems = as ++ t.toList.map Table.entries ++ bs)
  (ht : Finished t (tableEntries drop (Tiers.mergeAll run)))

include hold hnew ht

/-- A table in place of the run it was written from changes nothing a reader sees. -/
theorem Shows.replaced (h : Shows mems v seq m) (hrun : ∀ t ∈ run, Below seq t) (hdrop : drop = true → bs = []) :
    Shows mems v' seq m := by
  rw [shows_iff] at h ⊢
  rw [hold] at h
  rw [hnew]
  exact (h.replace hrun drop hdrop).finished ht

/-- And it brings no new version of a key. -/
theorem Version.has_of_replaced {e : KeyVersion} (he : v'.Has mems e) : v.Has mems e := by
  obtain ⟨x, hx, he⟩ := he
  rw [hnew] at hx
  unfold Version.Has
  rw [hold]
  rcases List.mem_append.mp hx with hx | hx
  · rcases List.mem_append.mp hx with hx | hx
    · exact ⟨x, List.mem_append_left _ (List.mem_append_left _ hx), he⟩
    · obtain ⟨u, hu, rfl⟩ := List.mem_map.mp hx
      rw [ht.entries hu] at he
      obtain ⟨y, hy, he⟩ := Tiers.mem_mergeAll.mp (mem_of_tableEntries he)
      exact ⟨y, List.mem_append_left _ (List.mem_append_right _ hy), he⟩
  · exact ⟨x, List.mem_append_right _ hx, he⟩

end Replaced

/-! ### A flush. -/

theorem Version.segs_withFlushed {seg : ℕ} {rest : List ℕ} {t : Option Table} (himm : v.imm = seg :: rest)
    (hrest : seg ∉ rest) : (v.withFlushed seg t).segs = rest ++ [v.mem] := by
  have hkeep : rest.filter (· ≠ seg) = rest :=
    List.filter_eq_self.mpr fun g hg => decide_eq_true fun heq => hrest (heq ▸ hg)
  show v.imm.filter (· ≠ seg) ++ [v.mem] = _
  rw [himm, List.filter_cons_of_neg (by simp), hkeep]

theorem Version.tiers_flushing {seg : ℕ} {rest : List ℕ} (himm : v.imm = seg :: rest) :
    v.tiers mems = (rest ++ [v.mem]).reverse.map (fun g => (mems g).entries) ++ [(mems seg).entries] ++
      v.tables.map Table.entries := by
  unfold Version.tiers Version.segs
  rw [himm, List.cons_append, List.reverse_cons, List.map_append]
  rfl

/-- A flush puts a table in the place of the oldest memtable. -/
theorem Version.tiers_withFlushed {seg : ℕ} {rest : List ℕ} {t : Option Table} (himm : v.imm = seg :: rest)
    (hrest : seg ∉ rest) : (v.withFlushed seg t).tiers mems =
      (rest ++ [v.mem]).reverse.map (fun g => (mems g).entries) ++ t.toList.map Table.entries ++
        v.tables.map Table.entries := by
  unfold Version.tiers
  rw [Version.segs_withFlushed himm hrest]
  show _ ++ (t.toList ++ v.tables).map Table.entries = _
  rw [List.map_append, List.append_assoc]

/-! ### A compaction. -/

theorem isInput_iff {u : Table} {inputs : List Table} :
    isInput u inputs = true ↔ u.num ∈ inputs.map Table.num := by
  unfold isInput
  rw [List.any_eq_true, List.mem_map]
  simp only [decide_eq_true_eq]

/-- Tables that are no inputs stay. -/
theorem replaceRun_of_none {inputs : List Table} {out : Option Table} {b : Bool} {us : List Table}
    (h : ∀ u ∈ us, u.num ∉ inputs.map Table.num) : replaceRun inputs out b us = us := by
  induction us with
  | nil => rfl
  | cons u us ih =>
    obtain ⟨hu, hus⟩ := List.forall_mem_cons.mp h
    rw [replaceRun, if_neg (fun hin => hu (isInput_iff.mp hin)), ih hus]

/-- The inputs, one after another, make room for the output. -/
theorem replaceRun_of_all {inputs : List Table} {out : Option Table} {us B : List Table}
    (h : ∀ u ∈ us, u.num ∈ inputs.map Table.num) :
    replaceRun inputs out true (us ++ B) = replaceRun inputs out true B := by
  induction us with
  | nil => rfl
  | cons u us ih =>
    obtain ⟨hu, hus⟩ := List.forall_mem_cons.mp h
    rw [List.cons_append, replaceRun, if_pos (isInput_iff.mpr hu), if_pos rfl, List.nil_append, ih hus]

/-- The run is replaced by `out`, and nothing else changes. -/
theorem replaceRun_eq {inputs A B : List Table} (out : Option Table) (hne : inputs ≠ [])
    (hnodup : ((A ++ inputs ++ B).map Table.num).Nodup) :
    replaceRun inputs out false (A ++ inputs ++ B) = A ++ out.toList ++ B := by
  rw [List.map_append, List.map_append, List.nodup_append, List.nodup_append] at hnodup
  obtain ⟨⟨-, -, hA⟩, -, hB⟩ := hnodup
  have hBin : ∀ u ∈ B, u.num ∉ inputs.map Table.num := fun u hu hin =>
    hB _ (List.mem_append_right _ hin) _ (List.mem_map_of_mem hu) rfl
  clear hB
  induction A with
  | nil =>
    obtain ⟨u, us, rfl⟩ := List.exists_cons_of_ne_nil hne
    have hself : ∀ x ∈ us, x.num ∈ (u :: us).map Table.num := fun x hx =>
      List.mem_map_of_mem (List.mem_cons_of_mem _ hx)
    rw [List.nil_append, List.nil_append, List.cons_append, replaceRun,
      if_pos (isInput_iff.mpr (List.mem_map_of_mem (List.mem_cons_self ..))), replaceRun_of_all hself,
      replaceRun_of_none hBin]
    rfl
  | cons a A ih =>
    have ha : a.num ∉ inputs.map Table.num := fun hin =>
      hA a.num (List.mem_map_of_mem (List.mem_cons_self ..)) _ hin rfl
    rw [List.cons_append, List.cons_append, replaceRun, if_neg (fun hin => ha (isInput_iff.mp hin)),
      ih fun x hx y hy => hA x (List.mem_cons_of_mem _ hx) y hy]
    rfl

/-- A compaction puts one table in the place of its inputs. -/
theorem Version.tables_withCompacted {inputs A B : List Table} {t : Option Table} (hne : inputs ≠ [])
    (htables : v.tables = A ++ inputs ++ B) (hnodup : (v.tables.map Table.num).Nodup) :
    (v.withCompacted inputs t).tables = A ++ t.toList ++ B := by
  rw [htables] at hnodup
  show replaceRun inputs t false v.tables = _
  rw [htables, replaceRun_eq t hne hnodup]

theorem Version.tiers_of_tables {us A R B : List Table} (h : us = A ++ R ++ B) :
    Version.tiers mems ⟨v.mem, v.imm, us⟩ =
      (v.segs.reverse.map (fun g => (mems g).entries) ++ A.map Table.entries) ++ R.map Table.entries ++
        B.map Table.entries := by
  unfold Version.tiers
  rw [h, List.map_append, List.map_append]
  simp only [List.append_assoc]
  rfl

theorem mem_replaceRun {inputs us : List Table} {t : Option Table} {u : Table} {b : Bool}
    (hu : u ∈ replaceRun inputs t b us) : u ∈ t.toList ++ us := by
  induction us generalizing b with
  | nil => cases hu
  | cons x us ih =>
    unfold replaceRun at hu
    grind

/-! ### A restored table. -/

/-- A restored table with an empty memtable is the map of the table. -/
theorem shows_restored {snap : List KeyVersion} {g : ℕ} {us : List Table} (hmem : (mems g).entries = [])
    (hus : us.map Table.entries = [snap].filter fun t => !t.isEmpty) (ho : Orderly snap)
    (hb : Below seq snap) : Shows mems ⟨g, [], us⟩ seq (mapOf snap) := by
  rw [shows_iff]
  refine (stack_mapOf ho hb).of_nonempty ?_
  show (([g].reverse.map fun g => (mems g).entries) ++ us.map Table.entries).filter _ = _
  rw [hus]
  simp [hmem]

end Keystone.Storage
