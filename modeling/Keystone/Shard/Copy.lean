/-
# Keystone.Shard.Copy — the copy of a frozen shard (`copyShard`).

The loop pages through the whole source group, picks the pairs of the shard out of every page and fills
chunks with them.  Pages end by count or by bytes, chunks by count or by bytes, and the group goes on
applying commands between two pages.  What is copied does not depend on any of that: the chunks sent so
far, the chunk at hand and the pairs of the shard from the next start on are at every moment the pairs of
the shard, in order (`copyShard_flatten`).
-/
import Keystone.Shard.RoutedScan
import Keystone.Shard.Transfer

namespace Keystone.Shard

open Keystone.Lib
open Keystone.Kv (Bytes Codec Command Op StateMachine shardOf)

/-! ## `copyShard`. -/

/-- The pairs of a page, put into the chunk at hand: the chunks that are flushed on the way, and the one
that is at hand at the end. -/
def takePage (n : Nat) : List (Bytes × Bytes) → List (Bytes × Bytes) →
    List (List (Bytes × Bytes)) × List (Bytes × Bytes)
  | [], chunk => ([], chunk)
  | pair :: page, chunk =>
    if shardOf pair.1 ≠ n then
      takePage n page chunk
    else if full chunk pair then
      let r := takePage n page [pair]
      (chunk :: r.1, r.2)
    else
      takePage n page (chunk ++ [pair])

/-- Commands that the source applies one after the other, with their indexes. -/
def applyAll (c : Codec) (s : StateMachine) (cmds : List (Command × UInt64)) : StateMachine :=
  cmds.foldl (fun s e => (s.applyCommand c e.1 e.2).1) s

/-- `copyShard` with a destination that takes every chunk: the chunks with their `Last`.  Each turn of
the loop is given the log index of its scan and what the source applies before the next one; `none` means
that the loop goes on after these turns. -/
def copyShard (c : Codec) (n : Nat) : StateMachine → List (UInt64 × List (Command × UInt64)) → Bytes →
    List (Bytes × Bytes) → Option (List (List (Bytes × Bytes) × Bool))
  | _, [], _, _ => none
  | s, (index, cmds) :: turns, start, chunk =>
    let scan : Command := ⟨0, 0, .scan start [] importChunk maxRequestBytes⟩
    let page := (s.execute scan.op index).res.kvs
    match page.getLast? with
    | none => some [(chunk, true)]
    | some last =>
      let r := takePage n page chunk
      let s' := applyAll c (s.applyCommand c scan index).1 cmds
      (copyShard c n s' turns (last.1 ++ [0]) r.2).map (r.1.map (·, false) ++ ·)

/-! ## A frozen shard. -/

/-- Anything but the commands of a move of shard `n` itself, or of another move with keys of `n`. -/
def Elsewhere (n : Nat) (cmd : Command) : Prop :=
  match cmd.op with
  | .importOp m kvs _ => m ≠ n ∧ ∀ p ∈ kvs, shardOf p.1 ≠ n
  | .purge m => m ≠ n
  | _ => True

instance (n : Nat) (cmd : Command) : Decidable (Elsewhere n cmd) := by
  unfold Elsewhere
  split <;> infer_instance

/-- The shard is frozen, and holds `m`. -/
structure Frozen (n : Nat) (m : Bytes → Option Bytes) (s : StateMachine) : Prop where
  state : s.shards n = some .shardFrozen
  holds : ∀ k, shardOf k = n → s.get k = m k

section Frozen
variable {c : Codec} {n : Nat} {m : Bytes → Option Bytes} {s : StateMachine}

/-- A client's command on a key of a frozen shard is refused, or reads. -/
theorem frozen_client {cmd : Command} {index : UInt64} {key k : Bytes}
    (hkey : StateMachine.clientKey cmd.op = some key) (hcached : s.cached cmd = none)
    (hfrozen : s.shards (shardOf k) = some .shardFrozen) :
    (s.applyCommand c cmd index).1.get k = s.get k := by
  cases hrefuses : s.refuses cmd.op with
  | true => exact StateMachine.get_of_refused hcached hrefuses k
  | false =>
    rw [StateMachine.get_client hkey hcached hrefuses]
    by_cases hk : k = key
    · subst hk
      have hstate : s.writable k = false := by
        simp [StateMachine.writable, StateMachine.shardState, hfrozen]
      cases hop : cmd.op with
      | get key' => rfl
      | put key' value | delete key' | cas key' expected value =>
        rw [hop] at hkey hrefuses
        cases hkey
        simp [StateMachine.refuses, hstate] at hrefuses
      | _ => simp [hop, StateMachine.clientKey] at hkey
    · exact StateMachine.written_of_ne hkey hk

/-- STEP. -/
theorem Frozen.step (h : Frozen n m s) {cmd : Command} (hcmd : Elsewhere n cmd) (index : UInt64) :
    Frozen n m (s.applyCommand c cmd index).1 := by
  cases hcached : s.cached cmd with
  | some result =>
    refine ⟨?_, fun k hk => ?_⟩
    · rw [StateMachine.shards_of_cached hcached]
      exact h.state
    · rw [StateMachine.get_of_cached hcached]
      exact h.holds k hk
  | none =>
    have hget : ∀ k, (s.applyCommand c cmd index).1.get k = _ := StateMachine.get_anonymous hcached
    have hshards : (s.applyCommand c cmd index).1.shards = _ := StateMachine.shards_anonymous hcached
    unfold Elsewhere at hcmd
    cases hop : cmd.op with
    | put key value | delete key | cas key expected value | get key =>
      have hkey : StateMachine.clientKey cmd.op = some key := by rw [hop]; rfl
      refine ⟨?_, fun k hk => ?_⟩
      · rw [StateMachine.shards_client hkey]
        exact h.state
      · rw [frozen_client hkey hcached (hk.symm ▸ h.state)]
        exact h.holds k hk
    | none | register | scan start stop limit maxBytes =>
      refine ⟨?_, fun k hk => ?_⟩
      · rw [StateMachine.shards_of_run hcached, hop]
        exact h.state
      · rw [StateMachine.get_of_run hcached, hop]
        exact h.holds k hk
    | freeze n' =>
      rw [hop] at hget hshards
      refine ⟨?_, fun k hk => ?_⟩
      · rw [hshards, StateMachine.shards_freeze]
        split
        · exact h.state
        · by_cases hn : n = n'
          · subst hn
            exact Function.update_self ..
          · rw [Function.update_of_ne hn]
            exact h.state
      · rw [hget, StateMachine.get_freeze]
        exact h.holds k hk
    | purge n' =>
      rw [hop] at hget hshards hcmd
      have hn : n ≠ n' := Ne.symm hcmd
      refine ⟨?_, fun k hk => ?_⟩
      · rw [hshards, StateMachine.shards_purge, Function.update_of_ne hn]
        exact h.state
      · rw [hget, StateMachine.get_purge, if_neg (hk ▸ hn)]
        exact h.holds k hk
    | importOp n' kvs last =>
      rw [hop] at hget hshards hcmd
      have hn : n ≠ n' := Ne.symm hcmd.1
      refine ⟨?_, fun k hk => ?_⟩
      · rw [hshards, StateMachine.shards_import]
        split
        · rw [Function.update_of_ne hn]
          exact h.state
        · exact h.state
      · rw [hget]
        cases hcomplete : s.complete n' with
        | true =>
          rw [StateMachine.get_import_of_complete n' kvs last hcomplete]
          exact h.holds k hk
        | false =>
          rcases StateMachine.get_import_of_not n' kvs last hcomplete k with ⟨v, hv, -⟩ | ⟨-, hsame⟩
          · exact absurd hk (hcmd.2 (k, v) hv)
          · rw [hsame]
            exact h.holds k hk

/-- RUN. -/
theorem Frozen.applyAll (h : Frozen n m s) {cmds : List (Command × UInt64)}
    (hcmds : ∀ e ∈ cmds, Elsewhere n e.1) : Frozen n m (applyAll c s cmds) := by
  induction cmds generalizing s with
  | nil => exact h
  | cons e cmds ih =>
    rw [List.forall_mem_cons] at hcmds
    exact ih (h.step hcmds.1 e.2) hcmds.2

/-! ## The pairs of the shard. -/

/-- The pairs of the shard from `start` on, in order. -/
def shardRange (n : Nat) (s : StateMachine) (start : Bytes) : List (Bytes × Bytes) :=
  (s.range start []).filter fun p => shardOf p.1 = n

theorem shardRange_ascending (n : Nat) (s : StateMachine) (start : Bytes) :
    Ascending (shardRange n s start) := (s.range_ascending start []).sublist List.filter_sublist

theorem mem_shardRange {start k v : Bytes} :
    (k, v) ∈ shardRange n s start ↔
      (shardOf k = n ∧ s.get k = some v) ∧ (compare start k).isLE = true := by
  unfold shardRange
  rw [List.mem_filter, StateMachine.mem_range]
  simp only [StateMachine.inSpan, List.isEmpty_nil, Bool.true_or, Bool.and_true, decide_eq_true_eq]
  exact ⟨fun h => ⟨⟨h.2, h.1.1⟩, h.1.2⟩, fun h => ⟨⟨h.1.2, h.2⟩, h.1.1⟩⟩

theorem Frozen.shardRange_eq {s' : StateMachine} (h : Frozen n m s) (h' : Frozen n m s')
    (start : Bytes) : shardRange n s start = shardRange n s' start := by
  refine (shardRange_ascending n s start).ext (shardRange_ascending n s' start) fun ⟨k, v⟩ => ?_
  rw [mem_shardRange, mem_shardRange]
  have hget : shardOf k = n → s.get k = s'.get k := fun hk => (h.holds k hk).trans (h'.holds k hk).symm
  constructor
  · rintro ⟨⟨hk, hv⟩, hle⟩
    exact ⟨⟨hk, hget hk ▸ hv⟩, hle⟩
  · rintro ⟨⟨hk, hv⟩, hle⟩
    exact ⟨⟨hk, (hget hk).trans hv⟩, hle⟩

/-- A page, and what begins behind it. -/
theorem range_page {start : Bytes} {page : List (Bytes × Bytes)} {last : Bytes × Bytes}
    (hpage : page <+: s.range start []) (hlast : page.getLast? = some last) :
    s.range start [] = page ++ s.range (last.1 ++ [0]) [] := by
  have hlisting : ∀ start, Listing [s] start [] (s.range start []) := fun start =>
    ⟨s.range_ascending start [], fun k v => by simp [StateMachine.mem_range]⟩
  obtain ⟨rest, hrest⟩ := hpage
  have hall := hlisting start
  rw [← hrest] at hall
  rw [← hrest, (hall.rest hlast).unique (hlisting _)]

end Frozen

/-! ## Chunks. -/

theorem takePage_flatten (n : Nat) (page chunk : List (Bytes × Bytes)) :
    (takePage n page chunk).1.flatten ++ (takePage n page chunk).2 =
      chunk ++ page.filter fun p => shardOf p.1 = n := by
  induction page generalizing chunk with
  | nil => simp [takePage]
  | cons pair page ih =>
    unfold takePage
    by_cases hn : shardOf pair.1 = n
    · rw [if_neg (not_not.mpr hn), List.filter_cons_of_pos (by simpa using hn)]
      split
      · simp only [List.flatten_cons, List.append_assoc, ih]
        rfl
      · rw [ih, List.append_assoc]
        rfl
    · rw [if_pos hn, ih, List.filter_cons_of_neg (by simpa using hn)]

/-- What a request may carry. -/
def Carried (chunk : List (Bytes × Bytes)) : Prop :=
  chunk.length ≤ importChunk ∧
    ((∀ p ∈ chunk, p.1.length + p.2.length ≤ maxRequestBytes) → chunkBytes chunk ≤ maxRequestBytes)

theorem carried_nil : Carried [] := ⟨Nat.zero_le _, fun _ => Nat.zero_le _⟩

theorem chunkBytes_snoc (chunk : List (Bytes × Bytes)) (pair : Bytes × Bytes) :
    chunkBytes (chunk ++ [pair]) = chunkBytes chunk + (pair.1.length + pair.2.length) := by
  simp [chunkBytes]

theorem carried_singleton (pair : Bytes × Bytes) : Carried [pair] := by
  refine ⟨(by decide : 1 ≤ importChunk), fun h => ?_⟩
  simpa [chunkBytes] using h pair (by simp)

theorem Carried.snoc {chunk : List (Bytes × Bytes)} {pair : Bytes × Bytes} (h : Carried chunk)
    (hfull : full chunk pair = false) : Carried (chunk ++ [pair]) := by
  have hroom := of_decide_eq_false hfull
  rw [not_or, not_and] at hroom
  refine ⟨?_, fun hpairs => ?_⟩
  · rw [List.length_append, List.length_singleton]
    omega
  · rw [chunkBytes_snoc]
    by_cases hempty : chunk.length > 0
    · exact Nat.not_lt.mp (hroom.2 hempty)
    · obtain rfl : chunk = [] := List.eq_nil_of_length_eq_zero (by omega)
      simpa [chunkBytes] using hpairs pair (by simp)

theorem takePage_carried (n : Nat) (page : List (Bytes × Bytes)) {chunk : List (Bytes × Bytes)}
    (h : Carried chunk) :
    (∀ x ∈ (takePage n page chunk).1, Carried x) ∧ Carried (takePage n page chunk).2 := by
  induction page generalizing chunk with
  | nil => exact ⟨fun _ hx => absurd hx List.not_mem_nil, h⟩
  | cons pair page ih =>
    unfold takePage
    split
    · exact ih h
    · cases hfull : full chunk pair with
      | true =>
        obtain ⟨hflushed, hrest⟩ := ih (carried_singleton pair)
        exact ⟨List.forall_mem_cons.mpr ⟨h, hflushed⟩, hrest⟩
      | false => exact ih (h.snoc hfull)

/-! ## The whole copy. -/

section Copy
variable {c : Codec} {n : Nat} {m : Bytes → Option Bytes}

/-- One turn of the loop, and the rest. -/
theorem copyShard_cons {s : StateMachine} {index : UInt64} {cmds : List (Command × UInt64)}
    {turns : List (UInt64 × List (Command × UInt64))} {start : Bytes} {chunk : List (Bytes × Bytes)}
    {cs : List (List (Bytes × Bytes) × Bool)}
    (h : copyShard c n s ((index, cmds) :: turns) start chunk = some cs) :
    (s.range start [] = [] ∧ cs = [(chunk, true)]) ∨
      ∃ page last rest,
        page <+: s.range start [] ∧ page.getLast? = some last ∧
        copyShard c n (applyAll c (s.applyCommand c
          ⟨0, 0, .scan start [] importChunk maxRequestBytes⟩ index).1 cmds) turns (last.1 ++ [0])
          (takePage n page chunk).2 = some rest ∧
        cs = (takePage n page chunk).1.map (·, false) ++ rest := by
  unfold copyShard at h
  dsimp only at h
  split at h
  · next hlast =>
    left
    refine ⟨StateMachine.range_eq_nil_of_scan (List.getLast?_eq_none_iff.mp hlast), ?_⟩
    exact (Option.some.inj h).symm
  · next last hlast =>
    right
    obtain ⟨rest, hrest, rfl⟩ := Option.map_eq_some_iff.mp h
    exact ⟨_, last, rest, StateMachine.scan_range_initial .., hlast, hrest, rfl⟩

/-- The chunks hold the chunk at hand and the pairs of the shard from `start` on; only the last one is
marked; and none is too large. -/
theorem copyShard_flatten {s : StateMachine} (hfrozen : Frozen n m s)
    {turns : List (UInt64 × List (Command × UInt64))}
    (hturns : ∀ t ∈ turns, ∀ e ∈ t.2, Elsewhere n e.1) {start : Bytes}
    {chunk : List (Bytes × Bytes)} (hchunk : Carried chunk)
    {cs : List (List (Bytes × Bytes) × Bool)} (h : copyShard c n s turns start chunk = some cs) :
    cs.flatMap Prod.fst = chunk ++ shardRange n s start ∧
      (∃ (init : List (List (Bytes × Bytes))) (kvs : List (Bytes × Bytes)),
        cs = init.map (·, false) ++ [(kvs, true)]) ∧ ∀ x ∈ cs, Carried x.1 := by
  induction turns generalizing s start chunk cs with
  | nil => cases h
  | cons turn turns ih =>
    obtain ⟨index, cmds⟩ := turn
    rw [List.forall_mem_cons] at hturns
    rcases copyShard_cons h with ⟨hempty, rfl⟩ | ⟨page, last, rest, hpage, hlast, hrest, rfl⟩
    · refine ⟨by simp [shardRange, hempty], ⟨[], chunk, rfl⟩, ?_⟩
      simpa using hchunk
    · have hscan : Elsewhere n ⟨0, 0, .scan start [] importChunk maxRequestBytes⟩ := trivial
      have hnext := (hfrozen.step (c := c) hscan index).applyAll (c := c) hturns.1
      obtain ⟨hflushed, hhand⟩ := takePage_carried n page hchunk
      obtain ⟨hflat, ⟨init, kvs, rfl⟩, hcarried⟩ := ih hnext hturns.2 hhand hrest
      refine ⟨?_, ⟨(takePage n page chunk).1 ++ init, kvs, by simp⟩, ?_⟩
      · have hsplit : shardRange n s start =
            (page.filter fun p => shardOf p.1 = n) ++ shardRange n s (last.1 ++ [0]) := by
          unfold shardRange
          rw [range_page hpage hlast, List.filter_append]
        rw [List.flatMap_append, hflat, hnext.shardRange_eq hfrozen, hsplit, ← List.append_assoc,
          ← List.append_assoc, ← takePage_flatten]
        simp [List.flatMap_map, List.flatMap_id']
      · intro x hx
        rcases List.mem_append.mp hx with hx | hx
        · obtain ⟨y, hy, rfl⟩ := List.mem_map.mp hx
          exact hflushed y hy
        · exact hcarried x hx

end Copy

/-- THE COPY IS EXACT.  Let shard `n` be frozen at the source, and let the source apply, between the
pages, anything but commands of a move of `n` and imports of keys of `n`.  If `copyShard` returns, its
chunks are together the pairs of the shard, in ascending order; only the last one is marked; each has at
most `importChunk` pairs; and none is above `maxRequestBytes` if no pair of the shard is. -/
theorem copyShard_exact (c : Codec) (n : Nat) (s : StateMachine)
    (turns : List (UInt64 × List (Command × UInt64))) (cs : List (List (Bytes × Bytes) × Bool))
    (hfrozen : s.shards n = some .shardFrozen)
    (hturns : ∀ t ∈ turns, ∀ e ∈ t.2, Elsewhere n e.1)
    (h : copyShard c n s turns [] [] = some cs) :
    Ascending (cs.flatMap Prod.fst) ∧
    (∀ k v, (k, v) ∈ cs.flatMap Prod.fst ↔ shardOf k = n ∧ s.get k = some v) ∧
    (∃ (init : List (List (Bytes × Bytes))) (kvs : List (Bytes × Bytes)),
      cs = init.map (·, false) ++ [(kvs, true)]) ∧
    (∀ x ∈ cs, x.1.length ≤ importChunk) ∧
    ((∀ k v, shardOf k = n → s.get k = some v → k.length + v.length ≤ maxRequestBytes) →
      ∀ x ∈ cs, chunkBytes x.1 ≤ maxRequestBytes) := by
  have hstart : Frozen n s.get s := ⟨hfrozen, fun _ _ => rfl⟩
  obtain ⟨hflat, hmarks, hcarried⟩ := copyShard_flatten hstart hturns carried_nil h
  rw [List.nil_append] at hflat
  have hmem : ∀ k v, (k, v) ∈ cs.flatMap Prod.fst ↔ shardOf k = n ∧ s.get k = some v := by
    intro k v
    have hle : (compare ([] : Bytes) k).isLE = true := by cases k <;> rfl
    rw [hflat, mem_shardRange]
    simp [hle]
  refine ⟨hflat ▸ shardRange_ascending n s [], hmem, hmarks, fun x hx => (hcarried x hx).1,
    fun hpairs x hx => (hcarried x hx).2 fun p hp => ?_⟩
  obtain ⟨hk, hv⟩ := (hmem p.1 p.2).mp (List.mem_flatMap.mpr ⟨x, hx, hp⟩)
  exact hpairs p.1 p.2 hk hv

/-- A source with `a` and `b`, frozen at the shard of `a`. -/
def frozenSample : StateMachine :=
  ((holding [([0x61], [1]), ([0x62], [2])]).applyCommand (Kv.tableCodec [])
    ⟨0, 0, .freeze (shardOf [0x61])⟩ 1).1

/-- Its copy, with a write of `a`, which is refused, and one of `c` between the two pages. -/
theorem copyShard_exact_sample :
    ∃ cs, copyShard (Kv.tableCodec []) (shardOf [0x61]) frozenSample
        [(2, [(⟨0, 0, .put [0x61] [9]⟩, 3), (⟨0, 0, .put [0x63] [3]⟩, 4)]), (5, []), (6, [])] [] [] = some cs ∧
      ∀ k v, (k, v) ∈ cs.flatMap Prod.fst ↔ shardOf k = shardOf [0x61] ∧ frozenSample.get k = some v := by
  have hcopy : copyShard (Kv.tableCodec []) (shardOf [0x61]) frozenSample
      [(2, [(⟨0, 0, .put [0x61] [9]⟩, 3), (⟨0, 0, .put [0x63] [3]⟩, 4)]), (5, []), (6, [])] [] [] =
        some [([([0x61], [1])], true)] := by decide +kernel
  refine ⟨_, hcopy, (copyShard_exact (Kv.tableCodec []) (shardOf [0x61]) frozenSample _ _
    (by decide +kernel) (by decide +kernel) hcopy).2.1⟩

end Keystone.Shard
