/-
# Keystone.Storage.EngineReads — what a version shows under a bound.

`Shows` says that a version, read up to a sequence number, is a map: every tier is in order, no older tier
has a newer version of a key, and the newest version of a key, if it is a value, is the map's.  From it
follow the two ways of reading.  `Get` stops at the first tier that has the key (`Shows.get`).  `Scan`
merges the tiers; `ahead` is what its iterator will still yield, `Next` takes the head of that list and
leaves the tail (`next_spec`), and at the beginning the list is the map's scan (`Shows.scan`).
-/
import Keystone.Lib.Ascending
import Keystone.Storage.Engine

namespace Keystone.Storage

open Keystone.Lib
open Keystone.Lib.Tiers (Cell Cursor)

/-! ## Versions of keys. -/

/-- A version that a write made: a value or a tombstone, of a key that is not empty. -/
structure Clean (e : KeyVersion) : Prop where
  key : e.key ≠ []
  kind : e.ver % 256 ≤ 1

def valueOf (e : KeyVersion) : Option Bytes := if kindOf e = kindDelete then none else some e.val

/-- The pair a scan shows for a version. -/
def pairOf (e : KeyVersion) : Key × Bytes := (e.key, e.val)

/-- A bound on the trailers is a bound on the sequence numbers. -/
theorem Clean.le_trailer_iff {e : KeyVersion} (h : Clean e) {seq : ℕ} :
    e.ver ≤ trailer seq kindPut ↔ seqOf e ≤ seq := by
  have := h.kind
  have hput : kindPut.toNat = 1 := rfl
  unfold trailer seqOf
  rw [hput]
  omega

theorem clean_of_op {op : BatchOp} (h : op.key ≠ []) (seq : ℕ) (v : Bytes) :
    Clean ⟨op.key, trailer seq op.raw.kind, v⟩ := by
  refine ⟨h, ?_⟩
  have hkind : op.raw.kind.toNat ≤ 1 := by
    show op.kind.byte.toNat ≤ 1
    cases op.kind <;> decide
  show trailer seq op.raw.kind % 256 ≤ 1
  unfold trailer
  omega

/-! ## What a version shows. -/

/-- The tiers under the bound, newest first. -/
def Version.seen (mems : ℕ → Memtable) (v : Version) (seq : ℕ) : List (List KeyVersion) :=
  v.children.map fun c => Tiers.upTo (trailer seq kindPut) (c.entries mems)

structure Shows (mems : ℕ → Memtable) (v : Version) (seq : ℕ) (m : KVMap) : Prop where
  strict : ∀ c ∈ v.children, Tiers.Strict (c.entries mems)
  clean : ∀ c ∈ v.children, ∀ e ∈ c.entries mems, Clean e
  ranked : Tiers.Ranked (v.seen mems seq)
  reads : ∀ k, (Tiers.topOf k (v.seen mems seq)).bind valueOf = m[k]?

variable {mems : ℕ → Memtable} {v : Version} {seq : ℕ} {m : KVMap}

theorem Shows.sorted (h : Shows mems v seq m) : ∀ t ∈ v.seen mems seq, Tiers.Sorted t := by
  intro t ht
  obtain ⟨c, hc, rfl⟩ := List.mem_map.mp ht
  exact Tiers.sorted_upTo _ (Tiers.sorted_of_strictly (h.strict c hc))

/-- `Get` answers as the map does. -/
theorem Shows.get (h : Shows mems v seq m) (key : Key) : v.get mems seq key = m[key]? := by
  have htop : (v.children.findSome? fun c =>
      Tiers.lookup key (trailer seq kindPut) (c.entries mems)) =
      Tiers.topOf key (v.seen mems seq) := by
    have hs : ∀ t ∈ v.children.map (Tier.entries mems), Tiers.Sorted t := by
      intro t ht
      obtain ⟨c, hc, rfl⟩ := List.mem_map.mp ht
      exact Tiers.sorted_of_strictly (h.strict c hc)
    have hfind := Tiers.findSome?_lookup key (trailer seq kindPut) hs
    rw [List.findSome?_map, List.map_map] at hfind
    exact hfind
  rw [← h.reads key, Version.get, htop]
  cases Tiers.topOf key (v.seen mems seq) <;> rfl

/-! ## The loop of `Next`. -/

/-- What the loop makes of the versions in front of it. -/
def listing (stop : Option Key) : Key → List KeyVersion → List KeyVersion
  | _, [] => []
  | last, e :: l =>
    if DbIter.pastEnd stop e.key then
      []
    else if e.key = last then
      listing stop last l
    else if kindOf e = kindDelete then
      listing stop e.key l
    else
      e :: listing stop e.key l

/-- What the iterator will still yield. -/
def DbIter.ahead (mems : ℕ → Memtable) (it : DbIter) : List KeyVersion :=
  listing it.stop it.last
    (Tiers.pending (Tier.entries mems) (trailer it.seq kindPut) it.children)

structure IterOK (mems : ℕ → Memtable) (it : DbIter) : Prop where
  placed : ∀ c ∈ it.children, c.Placed (Tier.entries mems)
  clean : ∀ c ∈ it.children, ∀ e ∈ c.src.entries mems, Clean e

/-- The iterator after a turn reads the same tiers under the same bound. -/
structure SameScan (it it' : DbIter) : Prop where
  seq : it'.seq = it.seq
  srcs : it'.children.map Cursor.src = it.children.map Cursor.src

theorem SameScan.refl (it : DbIter) : SameScan it it := ⟨rfl, rfl⟩

theorem SameScan.trans {it it' it'' : DbIter} (h : SameScan it it') (h' : SameScan it' it'') :
    SameScan it it'' := ⟨h'.seq.trans h.seq, h'.srcs.trans h.srcs⟩

theorem IterOK.of_sameScan {it it' : DbIter} (h : IterOK mems it) (hs : SameScan it it')
    (hplaced : ∀ c ∈ it'.children, c.Placed (Tier.entries mems)) : IterOK mems it' := by
  refine ⟨hplaced, fun c hc => ?_⟩
  have hsrc : c.src ∈ it.children.map Cursor.src := hs.srcs ▸ List.mem_map_of_mem hc
  obtain ⟨c₀, hc₀, heq⟩ := List.mem_map.mp hsrc
  exact heq ▸ h.clean c₀ hc₀

theorem pastEnd_of_le {stop : Option Key} {a b : Key} (hle : (compare a b).isLE = true)
    (h : DbIter.pastEnd stop a = true) : DbIter.pastEnd stop b = true := by
  cases stop with
  | none => exact h
  | some stop => exact Std.TransCmp.isLE_trans h hle

/-- A turn ends the loop at the end of the list, or does what `listing` does. -/
def TurnOK (mems : ℕ → Memtable) (it : DbIter) : Turn → Prop
  | .done => it.ahead mems = []
  | .skip it' =>
    it'.ahead mems = it.ahead mems ∧ IterOK mems it' ∧ SameScan it it' ∧
      Tiers.left (Tier.entries mems) it.children = Tiers.left (Tier.entries mems) it'.children + 1
  | .yield it' e =>
    it.ahead mems = e :: it'.ahead mems ∧ IterOK mems it' ∧ SameScan it it'

theorem turn_spec {it : DbIter} (h : IterOK mems it) : TurnOK mems it (it.turn mems) := by
  unfold DbIter.turn
  cases hleast : Tiers.least it.children with
  | none =>
    show it.ahead mems = []
    unfold DbIter.ahead
    rw [Tiers.pending_of_least_eq_none hleast]
    rfl
  | some x =>
    obtain ⟨i, e⟩ := x
    dsimp only
    have hplaced := Tiers.placed_modify h.placed i
    have hleft := Tiers.left_step h.placed hleast
    have hsrcs : (it.children.modify i (Cursor.advance (Tier.entries mems))).map Cursor.src =
        it.children.map Cursor.src := Tiers.map_src_modify ..
    have hok : ∀ last, IterOK mems
        { it with
          children := it.children.modify i (Cursor.advance (Tier.entries mems)), last := last } :=
      fun last => h.of_sameScan ⟨rfl, hsrcs⟩ hplaced
    have hclean : Clean e := by
      obtain ⟨c, hc, hpos⟩ := Tiers.least_mem hleast
      exact h.clean c hc e ((h.placed c hc).2 e hpos)
    by_cases hend : DbIter.pastEnd it.stop e.key = true
    · rw [if_pos hend]
      show it.ahead mems = []
      unfold DbIter.ahead
      -- everything that is left stands at or behind `e`
      have hle : ∀ x ∈ Tiers.pending (Tier.entries mems) (trailer it.seq kindPut) it.children,
          e.le x = true := Tiers.least_le hleast
      cases hpend : Tiers.pending (Tier.entries mems) (trailer it.seq kindPut) it.children with
      | nil => rfl
      | cons x l =>
        rw [hpend] at hle
        have hx := Tiers.key_isLE_of_le (hle x (List.mem_cons_self ..))
        rw [listing, if_pos (pastEnd_of_le hx hend)]
    · rw [if_neg hend]
      by_cases hseq : seqOf e > it.seq
      · -- newer than the snapshot
        rw [if_pos (Or.inl hseq)]
        refine ⟨?_, hok it.last, ⟨rfl, hsrcs⟩, hleft⟩
        unfold DbIter.ahead
        dsimp only
        rw [Tiers.pending_hidden h.placed hleast]
        exact Nat.lt_of_not_le fun hv => Nat.not_le.mpr hseq (hclean.le_trailer_iff.mp hv)
      · have hahead : it.ahead mems = listing it.stop it.last (e :: _) := congrArg (listing it.stop it.last)
          (Tiers.pending_visible h.placed hleast (hclean.le_trailer_iff.mpr (Nat.not_lt.mp hseq)))
        by_cases hlast : e.key = it.last
        · rw [if_pos (Or.inr hlast)]
          refine ⟨?_, hok it.last, ⟨rfl, hsrcs⟩, hleft⟩
          rw [hahead, listing, if_neg hend, if_pos hlast]
          rfl
        · rw [if_neg (not_or.mpr ⟨hseq, hlast⟩)]
          by_cases hdel : kindOf e = kindDelete
          · rw [if_pos hdel]
            refine ⟨?_, hok e.key, ⟨rfl, hsrcs⟩, hleft⟩
            rw [hahead, listing, if_neg hend, if_neg hlast, if_pos hdel]
            rfl
          · rw [if_neg hdel]
            refine ⟨?_, hok e.key, ⟨rfl, hsrcs⟩⟩
            rw [hahead, listing, if_neg hend, if_neg hlast, if_neg hdel]
            rfl

/-- With fuel for what is left, the loop takes the head of what is ahead. -/
theorem loop_spec {it : DbIter} {n : ℕ} (h : IterOK mems it)
    (hn : Tiers.left (Tier.entries mems) it.children < n) :
    (it.loop mems n).2 = (it.ahead mems).head? ∧ (it.loop mems n).1.ahead mems = (it.ahead mems).tail ∧
      IterOK mems (it.loop mems n).1 ∧ SameScan it (it.loop mems n).1 := by
  induction n generalizing it with
  | zero => omega
  | succ n ih =>
    have hturn := turn_spec h
    unfold DbIter.loop
    cases ht : it.turn mems with
    | done =>
      rw [ht] at hturn
      have hnil : it.ahead mems = [] := hturn
      exact ⟨by rw [hnil]; rfl, by rw [hnil]; rfl, h, .refl it⟩
    | skip it' =>
      rw [ht] at hturn
      obtain ⟨hahead, hok, hsame, hleft⟩ := hturn
      have hrec := ih hok (by omega)
      rw [hahead] at hrec
      exact ⟨hrec.1, hrec.2.1, hrec.2.2.1, hsame.trans hrec.2.2.2⟩
    | yield it' e =>
      rw [ht] at hturn
      obtain ⟨hahead, hok, hsame⟩ := hturn
      exact ⟨by rw [hahead]; rfl, by rw [hahead]; rfl, hok, hsame⟩

/-- `Next` yields the head of what is ahead and leaves the rest. -/
theorem next_spec {it : DbIter} (h : IterOK mems it) :
    (it.next mems).2 = (it.ahead mems).head? ∧ (it.next mems).1.ahead mems = (it.ahead mems).tail ∧
      IterOK mems (it.next mems).1 ∧ SameScan it (it.next mems).1 :=
  loop_spec h (Nat.lt_succ_of_le (Tiers.left_le _))

/-! ## A whole scan. -/

theorem listing_eq (stop : Option Key) (last : Key) (l : List KeyVersion) :
    listing stop last l =
      (Tiers.firsts last (l.takeWhile fun e => !DbIter.pastEnd stop e.key)).filter
        fun e => kindOf e ≠ kindDelete := by
  induction l generalizing last with
  | nil => rfl
  | cons e l ih =>
    unfold listing
    by_cases hend : DbIter.pastEnd stop e.key = true
    · simp [hend, Tiers.firsts]
    · rw [if_neg hend, List.takeWhile_cons_of_pos (by simp [hend]), Tiers.firsts]
      by_cases hlast : e.key = last
      · rw [if_pos hlast, if_pos hlast, ih]
      · rw [if_neg hlast, if_neg hlast]
        by_cases hdel : kindOf e = kindDelete
        · rw [if_pos hdel, ih, List.filter_cons_of_neg (by simp [hdel])]
        · rw [if_neg hdel, ih, List.filter_cons_of_pos (by simp [hdel])]

theorem nil_isLE (k : Key) : (compare ([] : Key) k).isLE = true := by
  cases k <;> rfl

theorem inRange_iff {start : Key} {stop : Option Key} {k : Key} :
    KVMap.inRange start stop k = true ↔
      (compare start k).isLE = true ∧ DbIter.pastEnd stop k = false := by
  unfold KVMap.inRange DbIter.pastEnd
  cases stop with
  | none => simp
  | some stop =>
    simp only [Bool.and_eq_true]
    refine and_congr_right fun _ => ?_
    have hswap : compare k stop = (compare stop k).swap := Std.OrientedCmp.eq_swap
    rw [hswap]
    cases compare stop k <;> simp

/-- A sorted list whose first versions are those of a map lists the map's pairs. -/
theorem listing_scan {l : List KeyVersion} {start : Key} {stop : Option Key} (hl : Tiers.Sorted l)
    (hkeys : ∀ e ∈ l, e.key ≠ [])
    (htop : ∀ k, (Tiers.top k l).bind valueOf = if (compare start k).isLE = true then m[k]? else none) :
    (listing stop [] l).map pairOf = m.scan start stop := by
  have hcut : Tiers.Sorted (l.takeWhile fun e => !DbIter.pastEnd stop e.key) :=
    List.Pairwise.sublist (List.takeWhile_sublist _) hl
  have hlow : ∀ c ∈ l.takeWhile (fun e => !DbIter.pastEnd stop e.key),
      (compare [] c.key).isLE = true := fun c _ => nil_isLE c.key
  have hasc : (Tiers.firsts [] (l.takeWhile fun e => !DbIter.pastEnd stop e.key)).Pairwise
      fun a b => compare a.key b.key = .lt := (Tiers.firsts_strict hcut hlow).1
  have hread : ∀ k, Tiers.top k (listing stop [] l) =
      if DbIter.pastEnd stop k = true ∨ k = [] then none
      else (Tiers.top k l).filter fun e => kindOf e ≠ kindDelete := by
    intro k
    rw [listing_eq, Tiers.top_filter_of_strict k _ hasc, Tiers.top_firsts k hcut hlow,
      Tiers.top_takeWhile k (p := fun k => !DbIter.pastEnd stop k) ?_ hl]
    · by_cases hk : k = []
      · simp [hk]
      · by_cases hend : DbIter.pastEnd stop k = true <;> simp [hk, hend]
    · intro a b hle hb
      by_contra ha
      have := pastEnd_of_le hle (by simpa using ha)
      simp [this] at hb
  have hstrict : (listing stop [] l).Pairwise fun a b => compare a.key b.key = .lt := by
    rw [listing_eq]
    exact hasc.filter _
  refine Ascending.ext (List.pairwise_map.mpr hstrict) (m.scan_sorted start stop) fun p => ?_
  obtain ⟨k, x⟩ := p
  rw [KVMap.mem_scan, inRange_iff]
  constructor
  · intro hmem
    obtain ⟨e, he, hpair⟩ := List.mem_map.mp hmem
    obtain ⟨rfl, rfl⟩ := Prod.mk.inj hpair
    have hfirst := Tiers.top_of_strict hstrict he
    rw [hread] at hfirst
    split at hfirst
    · cases hfirst
    · next hin =>
      obtain ⟨htop', hlive⟩ := Option.filter_eq_some_iff.mp hfirst
      have hval := htop e.key
      rw [htop'] at hval
      have hvalue : valueOf e = some e.val := if_neg (of_decide_eq_true hlive)
      rw [Option.bind_some, hvalue] at hval
      split at hval
      · next hle => exact ⟨hval.symm, hle, by simpa using (not_or.mp hin).1⟩
      · cases hval
  · rintro ⟨hm, hle, hend⟩
    have hval := htop k
    rw [if_pos hle, hm] at hval
    obtain ⟨e, he, hvalue⟩ := Option.bind_eq_some_iff.mp hval
    have hlive : kindOf e ≠ kindDelete := by
      intro hdel
      rw [valueOf, if_pos hdel] at hvalue
      cases hvalue
    rw [valueOf, if_neg hlive] at hvalue
    have hkey := Tiers.top_key he
    have hne : k ≠ [] := hkey ▸ hkeys e (Tiers.top_mem he)
    have hfirst : Tiers.top k (listing stop [] l) = some e := by
      rw [hread, if_neg (not_or.mpr ⟨by simp [hend], hne⟩), he]
      simp [hlive]
    refine List.mem_map.mpr ⟨e, Tiers.top_mem hfirst, ?_⟩
    rw [pairOf, hkey, Option.some.inj hvalue]

section Opening

variable (start : Key) (stop : Option Key)

theorem Shows.placed_seek (h : Shows mems v seq m) :
    IterOK mems (DbIter.seek mems v seq start stop) := by
  refine ⟨fun c hc => ?_, fun c hc => ?_⟩ <;> obtain ⟨t, ht, rfl⟩ := List.mem_map.mp hc
  · refine ⟨h.strict t ht, fun e he => ?_⟩
    exact (List.dropWhile_sublist _).subset (List.mem_of_head? he)
  · exact h.clean t ht

/-- In front of the iterator of `Scan` is the merge of the tiers, each from `start` on. -/
theorem Shows.pending_seek (h : Shows mems v seq m) :
    Tiers.pending (Tier.entries mems) (trailer seq kindPut)
        (DbIter.seek mems v seq start stop).children =
      Tiers.mergeAll ((v.seen mems seq).map (Tiers.seek start (trailer seq kindPut))) := by
  unfold Tiers.pending DbIter.seek Version.seen
  rw [List.map_map, List.map_map]
  congr 1
  refine List.map_congr_left fun c hc => ?_
  have hstrict := h.strict c hc
  have hsplit : c.entries mems =
      (c.entries mems).takeWhile (Cell.before start (trailer seq kindPut)) ++
        Tiers.seek start (trailer seq kindPut) (c.entries mems) :=
    List.takeWhile_append_dropWhile.symm
  show Tiers.upTo _ (Cursor.rest (Tier.entries mems) ⟨c, _⟩) = Tiers.seek _ _ (Tiers.upTo _ _)
  rw [Tiers.rest_head hsplit hstrict, Tiers.upTo_seek _ _ _ (Tiers.sorted_of_strictly hstrict)]

theorem Shows.clean_pending (h : Shows mems v seq m) {e : KeyVersion}
    (he : e ∈ Tiers.pending (Tier.entries mems) (trailer seq kindPut)
      (DbIter.seek mems v seq start stop).children) : Clean e := by
  rw [h.pending_seek] at he
  obtain ⟨t, ht, he⟩ := Tiers.mem_mergeAll.mp he
  obtain ⟨u, hu, rfl⟩ := List.mem_map.mp ht
  obtain ⟨c, hc, rfl⟩ := List.mem_map.mp hu
  exact h.clean c hc e (Tiers.mem_upTo.mp ((List.dropWhile_sublist _).subset he)).1

/-- `Scan` has the map's pairs in front of it. -/
theorem Shows.scan (h : Shows mems v seq m) :
    ((DbIter.seek mems v seq start stop).ahead mems).map pairOf = m.scan start stop := by
  have hsought : ∀ t ∈ (v.seen mems seq).map (Tiers.seek start (trailer seq kindPut)),
      Tiers.Sorted t := by
    intro t ht
    obtain ⟨u, hu, rfl⟩ := List.mem_map.mp ht
    exact List.Pairwise.sublist (List.dropWhile_sublist _) (h.sorted u hu)
  have hranked : Tiers.Ranked ((v.seen mems seq).map (Tiers.seek start (trailer seq kindPut))) :=
    Tiers.ranked_map (fun t c hc => (List.dropWhile_sublist _).subset hc) h.ranked
  have hbound : ∀ t ∈ v.seen mems seq, ∀ e ∈ t, e.ver ≤ trailer seq kindPut := by
    intro t ht e he
    obtain ⟨c, hc, rfl⟩ := List.mem_map.mp ht
    exact (Tiers.mem_upTo.mp he).2
  unfold DbIter.ahead
  show (listing stop [] (Tiers.pending _ (trailer seq kindPut) _)).map pairOf = _
  have hkeys := fun e he => (h.clean_pending start stop (e := e) he).key
  rw [h.pending_seek] at hkeys ⊢
  refine listing_scan (Tiers.sorted_mergeAll hsought) hkeys fun k => ?_
  rw [Tiers.top_mergeAll k hsought hranked, Tiers.topOf_seek k start h.sorted hbound, ← h.reads k]
  split <;> rfl

/-- `Export` begins where a scan of everything begins. -/
theorem Shows.seekToFirst (h : Shows mems v seq m) :
    DbIter.seekToFirst mems v seq = DbIter.seek mems v seq [] none := by
  unfold DbIter.seekToFirst DbIter.seek
  congr 1
  refine List.map_congr_left fun c hc => ?_
  have hall : Tiers.seek [] (trailer seq kindPut) (c.entries mems) = c.entries mems := by
    unfold Tiers.seek
    cases hes : c.entries mems with
    | nil => rfl
    | cons e l =>
      refine List.dropWhile_cons_of_neg fun hb => ?_
      have hkey := (h.clean c hc e (hes ▸ List.mem_cons_self ..)).key
      rcases Tiers.before_iff.mp hb with hlt | ⟨hnil, -⟩
      · have := nil_isLE e.key
        rw [← Std.OrientedCmp.gt_iff_lt] at hlt
        simp [hlt] at this
      · exact hkey hnil
  rw [hall]

end Opening

end Keystone.Storage
