/-
# Keystone.Storage.BlockFormat — a block that was built is read back.

`encodeFrom` is what a builder has put down for a list of entries, each behind the key before it.  Since
an entry names only how much of its key stands in front of it, the bytes from an entry on can be walked
with the key before it, and from a restart point with any key (`walk_encodeFrom`).  `BlockHolds` says so
of the iterator that `newBlockIter` makes of a finished block; with it, `seek` finds the first entry that
is not below its target, whichever restart point the binary search has chosen.
-/
import Keystone.Storage.TableReads

namespace Keystone.Storage

open Keystone.Lib
open Keystone.Lib.Slices (Checked intOf addInt)

/-! ## What a builder puts down. -/

/-- How many bytes entry `i` shares with the key before it. -/
def sharedAt (i : ℕ) (last key : Bytes) : ℕ := if i % restartInterval = 0 then 0 else sharedLen key last

/-- The bytes of entries from the `i`-th on. -/
def encodeFrom : ℕ → Bytes → List (Bytes × Bytes) → Bytes
  | _, _, [] => []
  | i, last, kv :: kvs => encodeEntry (sharedAt i last kv.1) kv.1 kv.2 ++ encodeFrom (i + 1) kv.1 kvs

/-- The restart points among them, which begin at `off`. -/
def restartsFrom : ℕ → ℕ → Bytes → List (Bytes × Bytes) → List ℕ
  | _, _, _, [] => []
  | i, off, last, kv :: kvs =>
    (if i % restartInterval = 0 then [off % 2 ^ 32] else []) ++
      restartsFrom (i + 1) (off + (encodeEntry (sharedAt i last kv.1) kv.1 kv.2).length) kv.1 kvs

/-- The key before the entries behind `kvs`. -/
def lastKeyOf (last : Bytes) (kvs : List (Bytes × Bytes)) : Bytes := (kvs.getLast?.map Prod.fst).getD last

theorem lastKeyOf_cons (last : Bytes) (kv : Bytes × Bytes) (kvs : List (Bytes × Bytes)) :
    lastKeyOf last (kv :: kvs) = lastKeyOf kv.1 kvs := by
  unfold lastKeyOf
  rw [List.getLast?_cons]
  cases kvs.getLast? <;> rfl

def BlockBuilder.addAll (b : BlockBuilder) (kvs : List (Bytes × Bytes)) : BlockBuilder :=
  kvs.foldl (fun b kv => b.add kv.1 kv.2) b

theorem BlockBuilder.add_eq (b : BlockBuilder) (key value : Bytes) :
    b.add key value =
      { buf := b.buf ++ encodeEntry (sharedAt b.count b.lastKey key) key value
        restarts := b.restarts ++ if b.count % restartInterval = 0 then [b.buf.length % 2 ^ 32] else []
        lastKey := key
        count := b.count + 1 } := by
  unfold BlockBuilder.add sharedAt
  split
  · rfl
  · rw [List.append_nil]

theorem BlockBuilder.addAll_eq (b : BlockBuilder) (kvs : List (Bytes × Bytes)) :
    b.addAll kvs =
      { buf := b.buf ++ encodeFrom b.count b.lastKey kvs
        restarts := b.restarts ++ restartsFrom b.count b.buf.length b.lastKey kvs
        lastKey := lastKeyOf b.lastKey kvs
        count := b.count + kvs.length } := by
  induction kvs generalizing b with
  | nil => simp [BlockBuilder.addAll, encodeFrom, restartsFrom, lastKeyOf]
  | cons kv kvs ih =>
    have hfold : b.addAll (kv :: kvs) = (b.add kv.1 kv.2).addAll kvs := rfl
    rw [hfold, ih, b.add_eq, lastKeyOf_cons, List.length_cons]
    simp only [encodeFrom, restartsFrom, List.append_assoc, List.length_append]
    rw [Nat.add_assoc, Nat.add_comm 1]

theorem BlockBuilder.addAll_append (b : BlockBuilder) (kvs kvs' : List (Bytes × Bytes)) :
    b.addAll (kvs ++ kvs') = (b.addAll kvs).addAll kvs' := List.foldl_append

theorem encodeFrom_append (i : ℕ) (last : Bytes) (kvs kvs' : List (Bytes × Bytes)) :
    encodeFrom i last (kvs ++ kvs') =
      encodeFrom i last kvs ++ encodeFrom (i + kvs.length) (lastKeyOf last kvs) kvs' := by
  induction kvs generalizing i last with
  | nil => rfl
  | cons kv kvs ih =>
    rw [List.cons_append, encodeFrom, encodeFrom, ih, lastKeyOf_cons, List.length_cons, List.append_assoc,
      Nat.add_assoc, Nat.add_comm 1]

/-- A restart point is where an entry with a number divisible by sixteen begins. -/
theorem restartsFrom_spec {i off j r : ℕ} {last : Bytes} {kvs : List (Bytes × Bytes)}
    (h : (restartsFrom i off last kvs)[j]? = some r) :
    ∃ n ≤ kvs.length, (i + n) % restartInterval = 0 ∧
      r = (off + (encodeFrom i last (kvs.take n)).length) % 2 ^ 32 ∧
      (j = 0 → i % restartInterval = 0 → n = 0) := by
  induction kvs generalizing i off last j with
  | nil => cases h
  | cons kv kvs ih =>
    unfold restartsFrom at h
    -- an entry in front of the restart point
    have hlater : ∀ j : ℕ, (restartsFrom (i + 1)
        (off + (encodeEntry (sharedAt i last kv.1) kv.1 kv.2).length) kv.1 kvs)[j]? = some r →
        ∃ n ≤ (kv :: kvs).length, (i + n) % restartInterval = 0 ∧
          r = (off + (encodeFrom i last ((kv :: kvs).take n)).length) % 2 ^ 32 := by
      intro j hj
      obtain ⟨n, hn, hmod, hr, -⟩ := ih hj
      refine ⟨n + 1, Nat.succ_le_succ hn, by rw [← hmod]; congr 1; omega, ?_⟩
      rw [hr, List.take_succ_cons, encodeFrom, List.length_append, Nat.add_assoc]
    by_cases hi : i % restartInterval = 0
    · rw [if_pos hi] at h
      cases j with
      | zero =>
        obtain rfl := Option.some.inj h
        exact ⟨0, Nat.zero_le _, hi, rfl, fun _ _ => rfl⟩
      | succ j =>
        obtain ⟨n, hn, hmod, hr⟩ := hlater j h
        exact ⟨n, hn, hmod, hr, fun h0 => by cases h0⟩
    · rw [if_neg hi, List.nil_append] at h
      obtain ⟨n, hn, hmod, hr⟩ := hlater j h
      exact ⟨n, hn, hmod, hr, fun _ h0 => absurd h0 hi⟩

/-! ## Reading an entry back. -/

theorem sharedLen_le_left (a b : Bytes) : sharedLen a b ≤ a.length := by
  induction a generalizing b with
  | nil => exact Nat.le_refl 0
  | cons x a ih =>
    cases b with
    | nil => exact Nat.zero_le _
    | cons y b =>
      unfold sharedLen
      split
      · exact Nat.succ_le_succ (ih b)
      · exact Nat.zero_le _

theorem sharedLen_le_right (a b : Bytes) : sharedLen a b ≤ b.length := by
  induction a generalizing b with
  | nil => exact Nat.zero_le _
  | cons x a ih =>
    cases b with
    | nil => exact Nat.le_refl 0
    | cons y b =>
      unfold sharedLen
      split
      · exact Nat.succ_le_succ (ih b)
      · exact Nat.zero_le _

theorem take_sharedLen (a b : Bytes) : b.take (sharedLen a b) = a.take (sharedLen a b) := by
  induction a generalizing b with
  | nil => rfl
  | cons x a ih =>
    cases b with
    | nil => rfl
    | cons y b =>
      unfold sharedLen
      split
      · next heq => rw [List.take_succ_cons, List.take_succ_cons, ih, heq]
      · rfl

theorem sharedAt_le (i : ℕ) (last key : Bytes) : sharedAt i last key ≤ key.length := by
  unfold sharedAt
  split
  · exact Nat.zero_le _
  · exact sharedLen_le_left _ _

/-- The bytes an entry leaves out stand in front of it. -/
theorem sharedAt_take {i : ℕ} {last prev : Bytes} (key : Bytes)
    (h : i % restartInterval = 0 ∨ prev = last) :
    sharedAt i last key ≤ prev.length ∧
      prev.take (sharedAt i last key) = key.take (sharedAt i last key) := by
  unfold sharedAt
  split
  · exact ⟨Nat.zero_le _, rfl⟩
  · next hi =>
    rcases h with h | rfl
    · exact absurd h hi
    · exact ⟨sharedLen_le_right _ _, take_sharedLen _ _⟩

theorem readEntry_encodeEntry {shared : ℕ} {key value prev : Bytes} (rest : Bytes)
    (hkey : key.length < 2 ^ 64) (hvalue : value.length < 2 ^ 64) (hs : shared ≤ key.length)
    (hprev : shared ≤ prev.length) (htake : prev.take shared = key.take shared) :
    readEntry (encodeEntry shared key value ++ rest) prev =
      some (key, value, (encodeEntry shared key value).length) := by
  unfold readEntry encodeEntry
  simp only [List.append_assoc]
  rw [Uvarint.decode_encode (by omega)]
  dsimp only
  rw [Uvarint.decode_encode (by omega)]
  dsimp only
  rw [Uvarint.decode_encode hvalue]
  dsimp only
  have hrest : key.length - shared + value.length ≤ (key.drop shared ++ (value ++ rest)).length := by
    simp only [List.length_append, List.length_drop]
    omega
  have hlen : (key.drop shared).length = key.length - shared := List.length_drop ..
  rw [if_pos ⟨hprev, hrest⟩, htake, ← hlen, List.take_left, List.take_append_drop, List.drop_left,
    List.take_left]
  simp only [List.length_append, List.length_drop]
  congr 3
  omega

/-- An entry that is read is not wild. -/
theorem not_wild_of_readEntry {d prev k v : Bytes} {n : ℕ} (h : readEntry d prev = some (k, v, n)) :
    ¬ Wild d prev := by
  have hpos₁ : 0 < (Uvarint.read d).2 := by
    by_contra hneg
    unfold readEntry at h
    rw [decode_of_nonpos (not_lt.mp hneg)] at h
    cases h
  obtain ⟨n₁, h₁, hn₁, hfit₁⟩ := read_count hpos₁
  have hpos₂ : 0 < (Uvarint.read (d.drop n₁)).2 := by
    by_contra hneg
    unfold readEntry at h
    rw [decode_of_count h₁ hn₁] at h
    dsimp only at h
    rw [decode_of_nonpos (not_lt.mp hneg)] at h
    cases h
  obtain ⟨n₂, h₂, hn₂, hfit₂⟩ := read_count hpos₂
  have hpos₃ : 0 < (Uvarint.read (d.drop (n₁ + n₂))).2 := by
    by_contra hneg
    unfold readEntry at h
    rw [decode_of_count h₁ hn₁] at h
    dsimp only at h
    rw [decode_of_count h₂ hn₂] at h
    dsimp only at h
    rw [List.drop_drop, decode_of_nonpos (not_lt.mp hneg)] at h
    cases h
  obtain ⟨n₃, h₃, hn₃, hfit₃⟩ := read_count hpos₃
  rw [List.length_drop] at hfit₂ hfit₃
  rw [readEntry_of_counts h₁ h₂ h₃ hn₁ hn₂ hn₃ (by omega)] at h
  dsimp only at h
  split at h
  case isFalse => cases h
  next htrue =>
  unfold Wild
  simp only [h₁, Int.toNat_natCast, h₂]
  rw [← Nat.cast_add, Int.toNat_natCast, h₃]
  rintro (hneg | hneg | ⟨-, -, hnot⟩)
  · omega
  · omega
  · refine hnot ⟨htrue.1, ?_⟩
    have := htrue.2
    omega

/-- A key is no longer than the key in front of the entries and their bytes. -/
theorem lengths_encodeFrom {i : ℕ} {last : Bytes} {kvs : List (Bytes × Bytes)} :
    ∀ kv ∈ kvs, kv.1.length ≤ last.length + (encodeFrom i last kvs).length ∧
      kv.2.length ≤ (encodeFrom i last kvs).length := by
  induction kvs generalizing i last with
  | nil => exact fun _ h => absurd h List.not_mem_nil
  | cons kv kvs ih =>
    have hs : sharedAt i last kv.1 ≤ last.length := (sharedAt_take kv.1 (.inr rfl)).1
    have hentry : kv.1.length - sharedAt i last kv.1 + kv.2.length ≤
        (encodeEntry (sharedAt i last kv.1) kv.1 kv.2).length := by
      simp only [encodeEntry, List.length_append, List.length_drop]
      omega
    rw [encodeFrom, List.length_append]
    rintro x (_ | ⟨_, hx⟩)
    · omega
    · have := @ih (i + 1) kv.1 x hx
      omega

/-- **A block is walked as it was built**, from any entry with the key before it, and from a restart point
with any key. -/
theorem walk_encodeFrom {pre last prev : Bytes} {i : ℕ} {kvs : List (Bytes × Bytes)}
    (hlen : ∀ kv ∈ kvs, kv.1.length < 2 ^ 64 ∧ kv.2.length < 2 ^ 64)
    (hkeys : ∀ kv ∈ kvs, trailerSize ≤ kv.1.length) (h : i % restartInterval = 0 ∨ prev = last) :
    BlockWalk (pre ++ encodeFrom i last kvs) pre.length prev kvs true := by
  induction kvs generalizing pre last prev i with
  | nil =>
    refine .done ?_
    rw [encodeFrom, List.append_nil]
  | cons kv kvs ih =>
    obtain ⟨hkey, hkeys⟩ := List.forall_mem_cons.mp hkeys
    obtain ⟨⟨hk, hv⟩, hlen⟩ := List.forall_mem_cons.mp hlen
    obtain ⟨hprev, htake⟩ := sharedAt_take kv.1 h
    have hread : readEntry ((pre ++ encodeFrom i last (kv :: kvs)).drop pre.length) prev =
        some (kv.1, kv.2, (encodeEntry (sharedAt i last kv.1) kv.1 kv.2).length) := by
      rw [List.drop_left, encodeFrom]
      exact readEntry_encodeEntry _ hk hv (sharedAt_le _ _ _) hprev htake
    have hshort : pre.length < (pre ++ encodeFrom i last (kv :: kvs)).length := by
      have := readEntry_pos hread
      rw [encodeFrom, List.length_append, List.length_append]
      omega
    refine .entry hshort (not_wild_of_readEntry hread) hread hkey ?_
    have hrest := @ih (pre ++ encodeEntry (sharedAt i last kv.1) kv.1 kv.2) kv.1 kv.1 (i + 1) hlen hkeys
      (.inr rfl)
    rw [List.length_append, List.append_assoc] at hrest
    rw [encodeFrom]
    exact hrest

/-! ## A finished block. -/

theorem length_flatMap_encode (l : List ℕ) : (l.flatMap (LittleEndian.encode 4)).length = 4 * l.length := by
  induction l with
  | nil => rfl
  | cons r l ih =>
    rw [List.flatMap_cons, List.length_append, LittleEndian.length_encode, ih, List.length_cons]
    omega

theorem drop_flatMap_encode (l : List ℕ) (i : ℕ) (rest : Bytes) :
    (l.flatMap (LittleEndian.encode 4) ++ rest).drop (4 * i) =
      (l.drop i).flatMap (LittleEndian.encode 4) ++ rest.drop (4 * (i - l.length)) := by
  induction l generalizing i with
  | nil => simp
  | cons r l ih =>
    cases i with
    | zero => simp
    | succ i =>
      rw [List.flatMap_cons, List.append_assoc, Nat.mul_succ, Nat.add_comm, ← List.drop_drop,
        List.drop_left' (LittleEndian.length_encode 4 r), ih, List.drop_succ_cons, List.length_cons,
        Nat.succ_sub_succ]

theorem mapM_ok {α β ε : Type} {g : α → Except ε β} {f : α → β} {l : List α}
    (h : ∀ a ∈ l, g a = .ok (f a)) : l.mapM g = .ok (l.map f) := by
  induction l with
  | nil => rfl
  | cons a l ih =>
    rw [List.mapM_cons, h a List.mem_cons_self, ih fun b hb => h b (List.mem_cons_of_mem a hb)]
    rfl

/-- A finished block is taken apart into what it was made of. -/
theorem newBlockIter_finish {b : BlockBuilder} (hr : ∀ r ∈ b.restarts, r ≤ b.buf.length)
    (hlen : b.finish.length < 2 ^ 32) :
    newBlockIter b.finish = Checked.done (.ok { data := b.buf, restarts := b.restarts }) := by
  have hlength : b.finish.length = b.buf.length + 4 * b.restarts.length + 4 := by
    rw [BlockBuilder.finish, List.length_append, List.length_append, length_flatMap_encode,
      LittleEndian.length_encode]
  have hcount : (b.finish.drop (b.finish.length - 4)).take 4 = LittleEndian.encode 4 b.restarts.length := by
    rw [show b.finish.length - 4 = (b.buf ++ b.restarts.flatMap (LittleEndian.encode 4)).length by
      rw [hlength, List.length_append, length_flatMap_encode]; omega, BlockBuilder.finish, List.drop_left,
      List.take_of_length_le (by simp)]
  have hword : ∀ i < b.restarts.length, LittleEndian.decode
      ((b.finish.drop (b.buf.length + 4 * i)).take 4) = b.restarts.getD i 0 := by
    intro i hi
    rw [BlockBuilder.finish, List.append_assoc, ← List.drop_drop, List.drop_left, drop_flatMap_encode,
      List.drop_eq_getElem_cons hi, List.flatMap_cons, List.append_assoc,
      List.take_left' (LittleEndian.length_encode 4 _), LittleEndian.decode_encode_of_lt]
    · simp [List.getD, hi]
    · have := hr _ (List.getElem_mem hi)
      omega
  unfold newBlockIter
  rw [if_neg (by omega), show (b.finish.length : ℤ) - 4 = ((b.finish.length - 4 : ℕ) : ℤ) by omega,
    Slices.sliceFrom_nat (by omega), Option.bind_some, Slices.word_of_le (by rw [List.length_drop]; omega),
    hcount, LittleEndian.decode_encode_of_lt (by omega)]
  simp only [Checked.run_some, Checked.done_ok_bind]
  rw [show ((b.finish.length - 4 : ℕ) : ℤ) - 4 * (b.restarts.length : ℤ) = (b.buf.length : ℤ) by omega,
    if_neg (by omega), mapM_done fun i hi =>
      restartAt_eq (List.mem_range.mp hi) (by omega : b.buf.length + 4 * b.restarts.length + 4 = _)]
  have hmap : (List.range b.restarts.length).mapM (fun i =>
      (if LittleEndian.decode ((b.finish.drop (b.buf.length + 4 * i)).take 4) ≤ b.buf.length then
        Except.ok (LittleEndian.decode ((b.finish.drop (b.buf.length + 4 * i)).take 4))
      else .error TableError.badBlock)) = .ok b.restarts := by
    rw [mapM_ok (f := fun i => b.restarts.getD i 0)]
    · congr 1
      refine List.ext_getElem (by simp) fun i h₁ h₂ => ?_
      simp [List.getD, h₂]
    · intro i hi
      have hi := List.mem_range.mp hi
      have hget : b.restarts.getD i 0 = b.restarts[i] := by simp [List.getD, hi]
      rw [hword i hi, hget, if_pos (hr _ (List.getElem_mem hi))]
  rw [hmap, show (0 : ℤ) = ((0 : ℕ) : ℤ) from rfl, Slices.slice_nat (Nat.zero_le _) (by omega)]
  simp only [Checked.run_some, Checked.done_ok_bind, Checked.pure_eq, List.drop_zero]
  rw [BlockBuilder.finish, List.append_assoc, List.take_left]

/-- The iterator's block holds `kvs`: from its start, and from each restart point some of them. -/
structure BlockHolds (it : BlockIter) (kvs : List (Bytes × Bytes)) : Prop where
  start : BlockWalk it.data 0 [] kvs true
  restart : ∀ i r, it.restarts[i]? = some r →
    ∃ n, BlockWalk it.data r [] (kvs.drop n) true ∧ (i = 0 → n = 0)
  some_restart : kvs ≠ [] → it.restarts ≠ []

theorem BlockHolds.tame {it : BlockIter} {kvs : List (Bytes × Bytes)} (h : BlockHolds it kvs) :
    TameBlock it := by
  rintro r (_ | ⟨_, hr⟩)
  · exact ⟨kvs, true, h.start⟩
  · obtain ⟨i, hi⟩ := List.mem_iff_getElem?.mp hr
    obtain ⟨n, hw, -⟩ := h.restart i r hi
    exact ⟨_, true, hw⟩

/-- The block of some entries. -/
def blockBytes (kvs : List (Bytes × Bytes)) : Bytes := (BlockBuilder.addAll {} kvs).finish

/-- **A block is read back.** -/
theorem blockBytes_holds {kvs : List (Bytes × Bytes)} (hlen : (blockBytes kvs).length < 2 ^ 32)
    (hkeys : ∀ kv ∈ kvs, trailerSize ≤ kv.1.length) :
    ∃ it, newBlockIter (blockBytes kvs) = Checked.done (.ok it) ∧ BlockHolds it kvs := by
  have hb := BlockBuilder.addAll_eq {} kvs
  have hbuf : (BlockBuilder.addAll {} kvs).buf = encodeFrom 0 [] kvs := by rw [hb]; rfl
  have hres : (BlockBuilder.addAll {} kvs).restarts = restartsFrom 0 0 [] kvs := by rw [hb]; rfl
  have hle : (encodeFrom 0 [] kvs).length < 2 ^ 32 := by
    rw [← hbuf]
    have : (BlockBuilder.addAll {} kvs).buf.length ≤ (blockBytes kvs).length := by
      rw [blockBytes, BlockBuilder.finish, List.length_append, List.length_append]
      omega
    omega
  have hfit : ∀ kv ∈ kvs, kv.1.length < 2 ^ 64 ∧ kv.2.length < 2 ^ 64 := by
    intro kv hkv
    have := @lengths_encodeFrom 0 [] kvs kv hkv
    rw [List.length_nil] at this
    omega
  -- an offset of a restart point is that of an entry
  have hsplit : ∀ i r, (restartsFrom 0 0 [] kvs)[i]? = some r → ∃ n ≤ kvs.length, n % restartInterval = 0 ∧
      r = (encodeFrom 0 [] (kvs.take n)).length ∧ (i = 0 → n = 0) := by
    intro i r hi
    obtain ⟨n, hn, hmod, hr, h0⟩ := restartsFrom_spec hi
    rw [Nat.zero_add] at hmod hr
    refine ⟨n, hn, hmod, ?_, fun h => h0 h rfl⟩
    rw [hr, Nat.mod_eq_of_lt]
    have happ := encodeFrom_append 0 [] (kvs.take n) (kvs.drop n)
    rw [List.take_append_drop] at happ
    rw [happ, List.length_append] at hle
    omega
  refine ⟨_, newBlockIter_finish (fun r hr => ?_) hlen, ?_, ?_, ?_⟩
  · rw [hres] at hr
    obtain ⟨i, hi⟩ := List.mem_iff_getElem?.mp hr
    obtain ⟨n, hn, -, rfl, -⟩ := hsplit i r hi
    have happ := encodeFrom_append 0 [] (kvs.take n) (kvs.drop n)
    rw [List.take_append_drop] at happ
    rw [hbuf, happ, List.length_append]
    exact Nat.le_add_right _ _
  · show BlockWalk (BlockBuilder.addAll {} kvs).buf 0 [] kvs true
    rw [hbuf]
    exact @walk_encodeFrom [] [] [] 0 kvs hfit hkeys (.inl rfl)
  · intro i r hi
    have hi : (BlockBuilder.addAll {} kvs).restarts[i]? = some r := hi
    rw [hres] at hi
    obtain ⟨n, hn, hmod, rfl, h0⟩ := hsplit i r hi
    refine ⟨n, ?_, h0⟩
    show BlockWalk (BlockBuilder.addAll {} kvs).buf _ [] _ true
    have happ := encodeFrom_append 0 [] (kvs.take n) (kvs.drop n)
    rw [List.take_append_drop, List.length_take, Nat.min_eq_left hn, Nat.zero_add] at happ
    rw [hbuf, happ]
    refine walk_encodeFrom (fun kv hkv => hfit kv (List.mem_of_mem_drop hkv))
      (fun kv hkv => hkeys kv (List.mem_of_mem_drop hkv)) (.inl hmod)
  · intro hne
    show (BlockBuilder.addAll {} kvs).restarts ≠ []
    rw [hres]
    cases kvs with
    | nil => exact absurd rfl hne
    | cons kv kvs => exact List.cons_ne_nil _ _

/-! ## Seeking in a block. -/

/-- Entries in the order of their keys. -/
def SortedKeys (kvs : List (Bytes × Bytes)) : Prop :=
  kvs.Pairwise fun a b => compareInternalKey a.1 b.1 = .lt

theorem below_of_lt {target : Bytes} {a b : Bytes × Bytes} (h : compareInternalKey a.1 b.1 = .lt)
    (hb : BlockIter.below target b = true) : BlockIter.below target a = true := by
  unfold BlockIter.below at hb ⊢
  rw [beq_iff_eq] at hb ⊢
  exact Std.TransCmp.lt_trans h hb

theorem dropWhile_append_of_all {α : Type} {p : α → Bool} {l l' : List α} (h : ∀ a ∈ l, p a = true) :
    (l ++ l').dropWhile p = l'.dropWhile p := by
  induction l with
  | nil => rfl
  | cons a l ih =>
    obtain ⟨ha, hl⟩ := List.forall_mem_cons.mp h
    rw [List.cons_append, List.dropWhile_cons_of_pos ha, ih hl]

/-- Whatever restart point `seek` starts from, it finds the first entry not below its target. -/
theorem BlockHolds.fromRestart {it : BlockIter} {kvs es : List (Bytes × Bytes)} {target : Bytes} {ok : Bool}
    (h : BlockHolds it kvs) (hs : SortedKeys kvs) (hf : FromRestart target it es ok) :
    es = kvs.dropWhile (BlockIter.below target) ∧ ok = true := by
  rcases hf with ⟨hnil, rfl, rfl⟩ | ⟨i, r, all, hi, hw, hlow, rfl⟩
  · have hkvs : kvs = [] := by
      by_contra hne
      exact h.some_restart hne hnil
    rw [hkvs]
    exact ⟨rfl, rfl⟩
  · obtain ⟨n, hw', h0⟩ := h.restart i r hi
    obtain ⟨rfl, rfl⟩ := hw.unique hw'
    refine ⟨?_, rfl⟩
    rcases hlow with hzero | ⟨e, he, hbelow⟩
    · rw [h0 hzero, List.drop_zero]
    · have hall : ∀ a ∈ kvs.take n, BlockIter.below target a = true := by
        intro a ha
        have hp : (kvs.take n ++ kvs.drop n).Pairwise fun a b => compareInternalKey a.1 b.1 = .lt := by
          rw [List.take_append_drop]
          exact hs
        exact below_of_lt ((List.pairwise_append.mp hp).2.2 a ha e (List.mem_of_mem_head? he)) hbelow
      have hdrop : (kvs.take n ++ kvs.drop n).dropWhile (BlockIter.below target) = _ :=
        dropWhile_append_of_all hall
      rw [List.take_append_drop] at hdrop
      exact hdrop.symm

end Keystone.Storage
