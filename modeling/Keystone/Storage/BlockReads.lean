/-
# Keystone.Storage.BlockReads — what an iterator over a block comes to.

`BlockWalk data off prev es ok` reads the entries of a block one after another, from `off` on, with `prev` as
the key before: these are `es`, and then the bytes end (`ok`) or an entry does not decode.  There is such
a walk exactly if no header on the way is wild and every key has room for its trailer.  From a place that
has a walk, the iterator does what the walk says: `next` goes from entry to entry and reports the one
that does not decode (`next_at`), and `seek` starts the walk at a restart point and skips the entries
below the target (`seek_at`).
-/
import Mathlib.Data.List.TakeWhile
import Keystone.Storage.Block

namespace Keystone.Storage

open Keystone.Lib
open Keystone.Lib.Slices (Checked slice sliceFrom word)

/-! ## A block's two parts. -/

/-- What `newBlockIter` makes of a block it accepts. -/
structure Splits (block : Bytes) (it : BlockIter) : Prop where
  data : it.data <+: block
  restarts : ∀ r ∈ it.restarts, r ≤ it.data.length
  off : it.off = -1
  nextOff : it.nextOff = 0
  k : it.k = []
  err : it.err = none

theorem restartAt_eq {block : Bytes} {stop i n : ℕ} (hi : i < n) (hlen : stop + 4 * n + 4 = block.length) :
    restartAt block stop i = Checked.done
      (if LittleEndian.decode ((block.drop (stop + 4 * i)).take 4) ≤ stop then
        .ok (LittleEndian.decode ((block.drop (stop + 4 * i)).take 4)) else .error .badBlock) := by
  unfold restartAt
  rw [show ((stop : ℕ) : ℤ) + 4 * (i : ℤ) = ((stop + 4 * i : ℕ) : ℤ) by omega,
    Slices.sliceFrom_nat (by omega), Option.bind_some,
    Slices.word_of_le (by rw [List.length_drop]; omega)]
  simp only [Checked.run_some, Checked.done_ok_bind]
  split
  · next hgt =>
    rw [if_neg (by omega)]
    rfl
  · next hle =>
    rw [if_pos (by omega)]
    rfl

/-- A loop that may return early, over operations that do not panic. -/
theorem mapM_done {α β ε : Type} {f : α → Checked ε β} {g : α → Except ε β} {l : List α}
    (h : ∀ a ∈ l, f a = Checked.done (g a)) : l.mapM f = Checked.done (l.mapM g) := by
  induction l with
  | nil => rfl
  | cons a l ih =>
    rw [List.mapM_cons, List.mapM_cons, h a List.mem_cons_self, ih fun b hb => h b (List.mem_cons_of_mem a hb)]
    cases g a with
    | error e => rfl
    | ok b => cases List.mapM g l <;> rfl

theorem forall_of_mapM {α β ε : Type} {g : α → Except ε β} {p : β → Prop} {l : List α} {out : List β}
    (hg : ∀ a ∈ l, ∀ b, g a = .ok b → p b) (h : l.mapM g = .ok out) : ∀ b ∈ out, p b := by
  induction l generalizing out with
  | nil =>
    obtain rfl := Except.ok.inj h
    exact fun _ hb => absurd hb List.not_mem_nil
  | cons a l ih =>
    rw [List.mapM_cons] at h
    cases hga : g a with
    | error e =>
      rw [hga] at h
      cases h
    | ok b =>
      cases hrest : l.mapM g with
      | error e =>
        rw [hga, hrest] at h
        cases h
      | ok bs =>
        rw [hga, hrest] at h
        obtain rfl := Except.ok.inj h
        rintro x (_ | ⟨_, hx⟩)
        · exact hg a List.mem_cons_self b hga
        · exact ih (fun a ha => hg a (List.mem_cons_of_mem _ ha)) hrest x hx

/-- Taking a block apart does not panic. -/
theorem newBlockIter_total (block : Bytes) :
    ∃ r, newBlockIter block = Checked.done r ∧ ∀ it, r = .ok it → Splits block it := by
  unfold newBlockIter
  by_cases hlen : block.length < 4
  · rw [if_pos hlen]
    exact ⟨.error .badBlock, rfl, fun _ h => by cases h⟩
  · rw [if_neg hlen, show (block.length : ℤ) - 4 = ((block.length - 4 : ℕ) : ℤ) by omega,
      Slices.sliceFrom_nat (by omega), Option.bind_some,
      Slices.word_of_le (by rw [List.length_drop]; omega)]
    simp only [Checked.run_some, Checked.done_ok_bind]
    generalize LittleEndian.decode _ = n
    by_cases hstop : ((block.length - 4 : ℕ) : ℤ) - 4 * (n : ℤ) < 0
    · rw [if_pos hstop]
      exact ⟨.error .badBlock, rfl, fun _ h => by cases h⟩
    · obtain ⟨stop, hs⟩ : ∃ stop : ℕ, ((block.length - 4 : ℕ) : ℤ) - 4 * (n : ℤ) = stop :=
        ⟨_, (Int.toNat_of_nonneg (not_lt.mp hstop)).symm⟩
      rw [if_neg hstop, hs, mapM_done fun i hi =>
        restartAt_eq (List.mem_range.mp hi) (by omega : stop + 4 * n + 4 = block.length)]
      cases hm : (List.range n).mapM fun i =>
          (if LittleEndian.decode ((block.drop (stop + 4 * i)).take 4) ≤ stop then
            Except.ok (LittleEndian.decode ((block.drop (stop + 4 * i)).take 4))
          else .error TableError.badBlock) with
      | error e => exact ⟨.error e, rfl, fun _ h => by cases h⟩
      | ok restarts =>
        rw [show (0 : ℤ) = ((0 : ℕ) : ℤ) from rfl, Slices.slice_nat (Nat.zero_le _) (by omega)]
        refine ⟨.ok { data := block.take stop, restarts := restarts }, rfl, ?_⟩
        rintro it ⟨⟩
        refine ⟨List.take_prefix _ _, ?_, rfl, rfl, rfl, rfl⟩
        show ∀ r ∈ restarts, r ≤ (block.take stop).length
        rw [List.length_take, Nat.min_eq_left (by omega)]
        refine forall_of_mapM (fun i _ b hb => ?_) hm
        split at hb
        · next hle => exact Except.ok.inj hb ▸ hle
        · cases hb

/-! ## Walks. -/

/-- The entries of a block from `off` on, and whether they go on to its end. -/
inductive BlockWalk (data : Bytes) : ℕ → Bytes → List (Bytes × Bytes) → Bool → Prop
  | done {off : ℕ} {prev : Bytes} (h : data.length ≤ off) : BlockWalk data off prev [] true
  | bad {off : ℕ} {prev : Bytes} (h : off < data.length) (hw : ¬ Wild (data.drop off) prev)
      (hr : readEntry (data.drop off) prev = none) : BlockWalk data off prev [] false
  | entry {off n : ℕ} {prev k v : Bytes} {es : List (Bytes × Bytes)} {ok : Bool} (h : off < data.length)
      (hw : ¬ Wild (data.drop off) prev) (hr : readEntry (data.drop off) prev = some (k, v, n))
      (hk : trailerSize ≤ k.length) (hrest : BlockWalk data (off + n) k es ok) :
      BlockWalk data off prev ((k, v) :: es) ok

theorem BlockWalk.keys {data prev : Bytes} {off : ℕ} {es : List (Bytes × Bytes)} {ok : Bool}
    (h : BlockWalk data off prev es ok) : ∀ e ∈ es, trailerSize ≤ e.1.length := by
  induction h with
  | done _ => exact fun _ he => absurd he List.not_mem_nil
  | bad _ _ _ => exact fun _ he => absurd he List.not_mem_nil
  | entry _ _ _ hk _ ih => exact List.forall_mem_cons.mpr ⟨hk, ih⟩

/-- A walk is determined by the bytes. -/
theorem BlockWalk.unique {data prev : Bytes} {off : ℕ} {es es' : List (Bytes × Bytes)} {ok ok' : Bool}
    (h : BlockWalk data off prev es ok) (h' : BlockWalk data off prev es' ok') : es = es' ∧ ok = ok' := by
  induction h generalizing es' ok' with
  | done hle =>
    cases h' with
    | done _ => exact ⟨rfl, rfl⟩
    | bad hlt _ _ => omega
    | entry hlt _ _ _ _ => omega
  | bad hlt _ hr =>
    cases h' with
    | done hle => omega
    | bad _ _ _ => exact ⟨rfl, rfl⟩
    | entry _ _ hr' _ _ =>
      rw [hr] at hr'
      cases hr'
  | entry hlt _ hr _ _ ih =>
    cases h' with
    | done hle => omega
    | bad _ _ hr' =>
      rw [hr] at hr'
      cases hr'
    | entry _ _ hr' _ hrest' =>
      rw [hr] at hr'
      obtain ⟨rfl, hrest⟩ := Prod.mk.inj (Option.some.inj hr')
      obtain ⟨rfl, rfl⟩ := Prod.mk.inj hrest
      obtain ⟨rfl, rfl⟩ := ih hrest'
      exact ⟨rfl, rfl⟩

/-- Every entry takes bytes. -/
theorem readEntry_pos {d prev k v : Bytes} {n : ℕ} (h : readEntry d prev = some (k, v, n)) : 0 < n := by
  by_cases hpos : 0 < (Uvarint.read d).2
  · obtain ⟨n₁, h₁, hn₁, hfit₁⟩ := read_count hpos
    unfold readEntry at h
    rw [decode_of_count h₁ hn₁] at h
    dsimp only at h
    by_cases hpos₂ : 0 < (Uvarint.read (d.drop n₁)).2
    · obtain ⟨n₂, h₂, hn₂, hfit₂⟩ := read_count hpos₂
      rw [decode_of_count h₂ hn₂] at h
      dsimp only at h
      by_cases hpos₃ : 0 < (Uvarint.read ((d.drop n₁).drop n₂)).2
      · obtain ⟨n₃, h₃, hn₃, hfit₃⟩ := read_count hpos₃
        rw [decode_of_count h₃ hn₃] at h
        dsimp only at h
        split at h
        · obtain ⟨-, hn⟩ := Prod.mk.inj (Option.some.inj h)
          obtain ⟨-, hn⟩ := Prod.mk.inj hn
          rw [List.drop_drop, List.drop_drop, List.length_drop] at hn
          rw [List.drop_drop, List.length_drop] at hfit₃
          rw [List.length_drop] at hfit₂
          omega
        · cases h
      · rw [decode_of_nonpos (not_lt.mp hpos₃)] at h
        cases h
    · rw [decode_of_nonpos (not_lt.mp hpos₂)] at h
      cases h
  · unfold readEntry at h
    rw [decode_of_nonpos (not_lt.mp hpos)] at h
    cases h

/-! ## The iterator. -/

namespace BlockIter

variable {it it' : BlockIter} {es : List (Bytes × Bytes)} {ok : Bool}

/-- The iterator stands at the first of `es`, or behind the last entry. -/
def At (it : BlockIter) : List (Bytes × Bytes) → Bool → Prop
  | e :: es, ok => 0 ≤ it.off ∧ it.err = none ∧ it.k = e.1 ∧ it.v = e.2 ∧
      ∃ n : ℕ, it.nextOff = n ∧ BlockWalk it.data n it.k es ok
  | [], ok => it.off = -1 ∧ it.err = if ok then none else some .badBlock

theorem At.valid (h : it.At es ok) : it.valid = !es.isEmpty := by
  cases es with
  | nil =>
    have hoff : ¬ 0 ≤ it.off := by
      rw [h.1]
      decide
    simp [BlockIter.valid, hoff]
  | cons e es => simp [BlockIter.valid, h.1, h.2.1]

theorem At.valid_cons {e : Bytes × Bytes} (h : it.At (e :: es) ok) : it.valid = true := h.valid

theorem At.valid_nil (h : it.At [] ok) : it.valid = false := h.valid

/-- An iterator stands at one place. -/
theorem At.unique {es' : List (Bytes × Bytes)} {ok' : Bool} (h : it.At es ok) (h' : it.At es' ok') :
    es = es' ∧ ok = ok' := by
  have hempty := h.valid.symm.trans h'.valid
  cases es with
  | nil =>
    cases es' with
    | nil =>
      have herr := h.2.symm.trans h'.2
      cases ok <;> cases ok' <;> first | exact ⟨rfl, rfl⟩ | cases herr
    | cons _ _ => cases hempty
  | cons e es =>
    cases es' with
    | nil => cases hempty
    | cons e' es' =>
      obtain ⟨-, -, hk, hv, n, hn, hw⟩ := h
      obtain ⟨-, -, hk', hv', n', hn', hw'⟩ := h'
      obtain rfl : e = e' := Prod.ext (hk.symm.trans hk') (hv.symm.trans hv')
      obtain rfl : n = n' := by omega
      obtain ⟨rfl, rfl⟩ := hw.unique hw'
      exact ⟨rfl, rfl⟩

/-- The iterator moved, over the same block. -/
structure Moved (it it' : BlockIter) : Prop where
  data : it'.data = it.data
  restarts : it'.restarts = it.restarts

theorem Moved.refl (it : BlockIter) : Moved it it := ⟨rfl, rfl⟩

theorem Moved.trans {it'' : BlockIter} (h : Moved it it') (h' : Moved it' it'') : Moved it it'' :=
  ⟨h'.data.trans h.data, h'.restarts.trans h.restarts⟩

/-- `next` does one step of the walk; the walk's entries get shorter with the bytes that are left. -/
theorem next_at (hlen : it.data.length < 2 ^ 63) (herr : it.err = none) {n : ℕ} (hn : it.nextOff = n)
    (hw : BlockWalk it.data n it.k es ok) : ∃ it', it.next = some it' ∧ it'.At es ok ∧ Moved it it' := by
  unfold BlockIter.next
  rw [hn]
  cases hw with
  | done h =>
    rw [if_pos (by omega)]
    exact ⟨_, rfl, ⟨rfl, herr⟩, ⟨rfl, rfl⟩⟩
  | bad h hw hr =>
    rw [if_neg (by omega), decodeAt_eq hlen (by omega), if_neg hw, hr]
    exact ⟨_, rfl, ⟨rfl, rfl⟩, ⟨rfl, rfl⟩⟩
  | @entry _ m _ k v es _ h hw hr hk hrest =>
    rw [if_neg (by omega), decodeAt_eq hlen (by omega), if_neg hw, hr]
    refine ⟨{ it with off := n, k := k, v := v, nextOff := (n : ℤ) + (m : ℤ) }, rfl,
      ⟨Int.natCast_nonneg n, herr, rfl, rfl, n + m, ?_, hrest⟩, ⟨rfl, rfl⟩⟩
    show (n : ℤ) + (m : ℤ) = ((n + m : ℕ) : ℤ)
    omega

/-- The iterator takes up a walk anywhere. -/
theorem restart_at (hlen : it.data.length < 2 ^ 63) (herr : it.err = none) {n : ℕ}
    (hw : BlockWalk it.data n [] es ok) :
    ∃ it', next { it with k := [], nextOff := (n : ℤ) } = some it' ∧ it'.At es ok ∧ Moved it it' := by
  obtain ⟨it', hnext, hat, hmoved⟩ :=
    @next_at { it with k := [], nextOff := (n : ℤ) } es ok hlen herr n rfl hw
  exact ⟨it', hnext, hat, ⟨hmoved.data, hmoved.restarts⟩⟩

theorem seekToFirst_at (hlen : it.data.length < 2 ^ 63) (herr : it.err = none)
    (hw : BlockWalk it.data 0 [] es ok) :
    ∃ it', it.seekToFirst = some it' ∧ it'.At es ok ∧ Moved it it' := restart_at hlen herr hw

/-- From an entry, `next` goes to the one behind it. -/
theorem At.next {e : Bytes × Bytes} (hlen : it.data.length < 2 ^ 63) (h : it.At (e :: es) ok) :
    ∃ it', it.next = some it' ∧ it'.At es ok ∧ Moved it it' := by
  obtain ⟨-, herr, -, -, n, hn, hw⟩ := h
  exact next_at hlen herr hn hw

/-- An entry below `target`. -/
def below (target : Bytes) (e : Bytes × Bytes) : Bool := compareInternalKey e.1 target == .lt

theorem compareChecked_of_le {a b : Bytes} (ha : trailerSize ≤ a.length) (hb : trailerSize ≤ b.length) :
    compareChecked a b = some (compareInternalKey a b) := if_pos ⟨ha, hb⟩

theorem skipBelow_at {target : Bytes} (ht : trailerSize ≤ target.length) {fuel : ℕ}
    (hlen : it.data.length < 2 ^ 63) (hkeys : ∀ e ∈ es, trailerSize ≤ e.1.length) (hat : it.At es ok)
    (hfuel : es.length < fuel) :
    ∃ it', skipBelow target fuel it = some it' ∧ it'.At (es.dropWhile (below target)) ok ∧
      Moved it it' := by
  -- one entry a turn, so the number of entries bounds the turns
  induction fuel generalizing it es with
  | zero => omega
  | succ fuel ih =>
    unfold skipBelow
    rw [hat.valid]
    cases es with
    | nil => exact ⟨it, rfl, hat, Moved.refl it⟩
    | cons e es =>
      obtain ⟨hk, hkeys⟩ := List.forall_mem_cons.mp hkeys
      obtain ⟨it₁, hnext, hat₁, hmoved⟩ := hat.next hlen
      have hke : it.k = e.1 := hat.2.2.1
      have hcons : (!(e :: es).isEmpty) = true := rfl
      rw [if_pos hcons, hke, compareChecked_of_le hk ht]
      by_cases hlt : compareInternalKey e.1 target = .lt
      · rw [hlt, List.dropWhile_cons_of_pos (by simp [below, hlt])]
        dsimp only
        rw [hnext, Option.bind_some]
        obtain ⟨it', hskip, hat', hmoved'⟩ :=
          ih (by rw [hmoved.data]; exact hlen) hkeys hat₁ (by simp at hfuel; omega)
        exact ⟨it', hskip, hat', hmoved.trans hmoved'⟩
      · have hstop : below target e = false := by
          simp [below, hlt]
        rw [List.dropWhile_cons_of_neg (by simp [hstop])]
        refine ⟨it, ?_, hat, Moved.refl it⟩
        split
        · next heq => cases heq
        · next heq => exact absurd (Option.some.inj heq) hlt
        · rfl

end BlockIter

/-- No walk from the start of a block or from one of its restart points meets a wild header or a key
without a trailer. -/
def TameBlock (it : BlockIter) : Prop := ∀ r ∈ 0 :: it.restarts, ∃ es ok, BlockWalk it.data r [] es ok

/-- A walk has no more entries than there are bytes. -/
theorem BlockWalk.length_le {data prev : Bytes} {off : ℕ} {es : List (Bytes × Bytes)} {ok : Bool}
    (h : BlockWalk data off prev es ok) : es.length ≤ data.length - off := by
  induction h with
  | done _ => exact Nat.zero_le _
  | bad _ _ _ => exact Nat.zero_le _
  | entry hlt _ hr _ _ ih =>
    have := readEntry_pos hr
    rw [List.length_cons]
    omega

namespace BlockIter

variable {it it' : BlockIter} {es : List (Bytes × Bytes)} {ok : Bool}

/-- The test of the binary search looks at the first entry of a walk from a restart point. -/
theorem reaches_eq {target : Bytes} (ht : trailerSize ≤ target.length) (hlen : it.data.length < 2 ^ 63)
    {i r : ℕ} (hi : it.restarts[i]? = some r) (hr : r ≤ it.data.length) (hw : BlockWalk it.data r [] es ok) :
    it.reaches target i = some (es.head?.elim true fun e => !below target e) := by
  unfold reaches
  rw [hi]
  simp only [Option.bind_eq_bind, Option.bind_some]
  rw [decodeAt_eq hlen hr]
  cases hw with
  | done h =>
    have hd : it.data.drop r = [] := List.drop_eq_nil_of_le h
    rw [hd]
    rfl
  | bad h hw hr' =>
    rw [if_neg hw, hr']
    rfl
  | entry h hw hr' hk hrest =>
    rw [if_neg hw, hr']
    simp only [outcome, Option.map_some, Option.bind_some, compareChecked_of_le hk ht, List.head?_cons,
      Option.elim_some, below, bne]

/-- `seek` takes up the walk at a restart point, whose key is below the target unless it is the first,
and goes to the first entry that is not below the target. -/
theorem seek_at {target : Bytes} (ht : trailerSize ≤ target.length) (hlen : it.data.length < 2 ^ 63)
    (herr : it.err = none) (hres : ∀ r ∈ it.restarts, r ≤ it.data.length) (htame : TameBlock it)
    (hne : it.restarts ≠ []) :
    ∃ i r es ok, it.restarts[i]? = some r ∧ BlockWalk it.data r [] es ok ∧
      (i = 0 ∨ ∃ e ∈ es.head?, below target e = true) ∧
      ∃ it', it.seek target = some it' ∧ it'.At (es.dropWhile (below target)) ok ∧ Moved it it' := by
  have hwalk : ∀ i < it.restarts.length, ∃ r es ok, it.restarts[i]? = some r ∧ r ≤ it.data.length ∧
      BlockWalk it.data r [] es ok := by
    intro i hi
    have hmem : it.restarts[i] ∈ it.restarts := List.getElem_mem hi
    obtain ⟨es, ok, hw⟩ := htame _ (List.mem_cons_of_mem 0 hmem)
    exact ⟨_, es, ok, List.getElem?_eq_getElem hi, hres _ hmem, hw⟩
  obtain ⟨j, hj, hsearch, hlow, -⟩ := Search.search_spec (f := it.reaches target)
    (n := it.restarts.length) fun i hi => by
      obtain ⟨r, es, ok, hi, hr, hw⟩ := hwalk i hi
      exact ⟨_, reaches_eq ht hlen hi hr hw⟩
  have hpos : 0 < it.restarts.length := List.length_pos_iff.mpr hne
  obtain ⟨r, es, ok, hi, hr, hw⟩ := hwalk (j - 1) (by omega)
  obtain ⟨it₁, hnext, hat, hmoved⟩ := restart_at hlen herr hw
  have hfuel : es.length < it.data.length + 1 := by
    have := hw.length_le
    omega
  obtain ⟨it', hskip, hat', hmoved'⟩ :=
    skipBelow_at ht (by rw [hmoved.data]; exact hlen) hw.keys hat hfuel
  refine ⟨j - 1, r, es, ok, hi, hw, ?_, it', ?_, hat', hmoved.trans hmoved'⟩
  · rcases hlow with h0 | hf
    · exact .inl (by omega)
    · right
      rw [reaches_eq ht hlen hi hr hw] at hf
      cases es with
      | nil => cases hf
      | cons e es =>
        refine ⟨e, rfl, ?_⟩
        simpa using hf
  · unfold BlockIter.seek
    rw [hsearch]
    simp only [Option.bind_eq_bind, Option.bind_some, if_neg hne, hi, hnext]
    exact hskip

/-- A block without restart points is passed over. -/
theorem seek_of_nil {target : Bytes} (h : it.restarts = []) :
    it.seek target = some { it with off := -1 } := by
  unfold BlockIter.seek
  rw [h]
  rfl

end BlockIter

end Keystone.Storage
