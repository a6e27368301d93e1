/-
# Keystone.Shard.TransferSafety — a shard move loses nothing.

The movers' own steps (paging through the source, filling chunks, going on with an answer) keep the
invariant of `TransferGroups`; with the groups' steps that covers every happening, and by induction every
run of the move.
-/
import Keystone.Shard.TransferGroups

namespace Keystone.Shard

open Keystone.Lib
open Keystone.Kv (Bytes Codec Command Op Result StateMachine ShardState shardOf)
open Function (update)

variable {c : Codec} {n : Nat} {truth truth' : Bytes → Option Bytes} {w w' : Transfer}

/-! ## Movers going on. -/

/-- The bytes right behind a key. -/
theorem le_of_not_succ_le {k₁ k : Bytes} (h : ¬(compare (k₁ ++ [0]) k).isLE) :
    (compare k k₁).isLE := by
  induction k₁ generalizing k with
  | nil =>
    cases k with
    | nil => rfl
    | cons b bs =>
      refine absurd ?_ h
      rw [List.nil_append, List.compare_cons_cons]
      by_cases hb : b = 0
      · subst hb
        cases bs <;> rfl
      · have : compare (0 : UInt8) b = .lt := by
          refine Std.compare_eq_lt.mpr ?_
          rw [UInt8.lt_iff_toNat_lt]
          have hne : b.toNat ≠ 0 := fun h => hb (UInt8.toNat_inj.mp h)
          change 0 < _
          omega
        rw [this]
        rfl
  | cons a k₁ ih =>
    cases k with
    | nil => rfl
    | cons b bs =>
      rw [List.cons_append, List.compare_cons_cons] at h
      rw [List.compare_cons_cons]
      have hswap : compare b a = (compare a b).swap := Std.OrientedCmp.eq_swap
      rw [hswap]
      cases hab : compare a b with
      | lt => simp [hab] at h
      | gt => rfl
      | eq =>
        simp only [hab, Ordering.eq_then] at h
        exact ih h

/-- A page read from a source that has not gone, behind a copy that covers everything before it. -/
theorem Copied.nextPage {start : Bytes} {chunk : List (Bytes × Bytes)} {pair : Bytes × Bytes}
    (h : Copied n truth w start [] chunk) (hsource : ∀ k, shardOf k = n → w.source.get k = truth k)
    (hlast : (w.source.scan start [] importChunk maxRequestBytes).getLast? = some pair) :
    Copied n truth w (pair.1 ++ [0]) (w.source.scan start [] importChunk maxRequestBytes) chunk := by
  obtain ⟨hget, -, hall⟩ :=
    StateMachine.scan_page (s := w.source) start maxRequestBytes (by decide : 0 < importChunk)
  refine ⟨?_, h.chunkOK, ?_⟩
  · intro k v hkv hk
    rw [← hsource k hk]
    exact hget k v hkv
  · intro k v hk hv hlt
    by_cases hstart : (compare start k).isLE
    · rw [← hsource k hk] at hv
      exact .inr (.inr (hall pair hlast k v hstart (le_of_not_succ_le hlt) hv))
    · rcases h.covered k v hk hv hstart with hd | hc | hp
      · exact .inl hd
      · exact .inr (.inl hc)
      · simp at hp

theorem MoveOK.scanPage (h : MoveOK n truth w) (p : Nat) (index : UInt64) {start : Bytes}
    {chunk : List (Bytes × Bytes)} (hmover : w.mover p = .copying start [] chunk) :
    MoveOK n truth (w.scanPage c p index start chunk) := by
  obtain ⟨hstopped, hcopied⟩ : MoverOK n truth w (.copying start [] chunk) := hmover ▸ h.movers p
  -- the scan goes through the source's log and changes neither keys nor shard states
  let cmd : Command := ⟨0, 0, .scan start [] importChunk maxRequestBytes⟩
  have hcached : w.source.cached cmd = none := StateMachine.cached_of_no_client rfl
  have hget : ∀ k, (w.source.applyCommand c cmd index).1.get k = w.source.get k := by
    intro k
    rw [StateMachine.get_of_run hcached]
    rfl
  have hshards : (w.source.applyCommand c cmd index).1.shards = w.source.shards := by
    rw [StateMachine.shards_of_run hcached]
    rfl
  have hstate : (w.source.applyCommand c cmd index).1.shardState n = w.source.shardState n := by
    unfold StateMachine.shardState
    rw [hshards]
  have hstop : Stopped n w → Stopped n { w with source := (w.source.applyCommand c cmd index).1 } := by
    unfold Stopped
    rw [hstate]
    exact id
  have hgone : Gone n { w with source := (w.source.applyCommand c cmd index).1 } ↔ Gone n w := by
    unfold Gone
    rw [hshards]
  have hon : Onward n truth truth w { w with source := (w.source.applyCommand c cmd index).1 } :=
    ⟨hstop, hgone.mpr, id, fun _ _ _ _ => rfl, fun _ _ _ _ _ _ h => h⟩
  have h' : MoveOK n truth { w with source := (w.source.applyCommand c cmd index).1 } := by
    refine h.onward hon ⟨?_, h.both.dest, h.both.state, fun ho hg => h.both.kept ho (hgone.mp hg),
      fun ho => hstop (h.both.stopped ho), fun hf => hgone.mpr (h.both.flipped hf), ?_,
      h.both.landed⟩ rfl rfl fun a ha => .inl ha
    · intro hng k hk
      exact (hget k).trans (h.both.source (fun hg => hng (hgone.mpr hg)) k hk)
    · intro ho k v hk hv
      obtain ⟨hs, ht⟩ := h.both.copies ho k v hk hv
      exact ⟨hstop hs, ht⟩
  unfold Transfer.scanPage
  dsimp only
  split
  · next hnone =>
    have hempty := List.getLast?_eq_none_iff.mp hnone
    refine h'.send p ⟨hstop hstopped, fun hl => by cases hl⟩ ⟨hstop hstopped, fun ho => ?_⟩
    refine ⟨(hcopied ho).chunkOK, fun _ k v hk hv => ?_⟩
    by_cases hstart : (compare start k).isLE
    · have := (StateMachine.scan_page (s := w.source) start maxRequestBytes
        (by decide : 0 < importChunk)).2.1 hempty k hstart
      rw [h.both.source (h.both.kept ho) k hk, hv] at this
      cases this
    · rcases (hcopied ho).covered k v hk hv hstart with hd | hc | hp
      · exact .inl hd
      · exact .inr hc
      · simp at hp
  · next pair hsome =>
    refine h'.goto p ⟨hstop hstopped, fun ho => ?_⟩
    exact hon.copied hstopped ho
      ((hcopied ho).nextPage (h.both.source (h.both.kept ho)) hsome)

theorem MoveOK.takePair (h : MoveOK n truth w) (p : Nat) {start : Bytes} {pair : Bytes × Bytes}
    {page chunk : List (Bytes × Bytes)} (hmover : w.mover p = .copying start (pair :: page) chunk) :
    MoveOK n truth (w.takePair n p start pair page chunk) := by
  obtain ⟨hstopped, hcopied⟩ : MoverOK n truth w (.copying start (pair :: page) chunk) :=
    hmover ▸ h.movers p
  unfold Transfer.takePair
  split
  · next hother =>
    refine h.goto p ⟨hstopped, fun ho => ?_⟩
    refine ⟨fun k v hkv => (hcopied ho).pageOK k v (List.mem_cons_of_mem _ hkv),
      (hcopied ho).chunkOK, fun k v hk hv hlt => ?_⟩
    rcases (hcopied ho).covered k v hk hv hlt with hd | hc | hp
    · exact .inl hd
    · exact .inr (.inl hc)
    · rcases List.mem_cons.mp hp with rfl | hp
      · exact absurd hk hother
      · exact .inr (.inr hp)
  split
  · refine h.send p ⟨hstopped, fun _ => hcopied⟩ ⟨hstopped, fun ho => ?_⟩
    exact ⟨(hcopied ho).chunkOK, fun hl => by cases hl⟩
  · next hown _ =>
    refine h.goto p ⟨hstopped, fun ho => ?_⟩
    refine ⟨fun k v hkv => (hcopied ho).pageOK k v (List.mem_cons_of_mem _ hkv), ?_, ?_⟩
    · intro k v hkv
      rcases List.mem_append.mp hkv with hc | hp
      · exact (hcopied ho).chunkOK k v hc
      · obtain rfl := List.mem_singleton.mp hp
        exact ⟨not_not.mp hown, (hcopied ho).pageOK k v (List.mem_cons_self ..) (not_not.mp hown)⟩
    · intro k v hk hv hlt
      rcases (hcopied ho).covered k v hk hv hlt with hd | hc | hp
      · exact .inl hd
      · exact .inr (.inl (List.mem_append_left _ hc))
      · rcases List.mem_cons.mp hp with rfl | hp
        · exact .inr (.inl (List.mem_append_right _ (by simp)))
        · exact .inr (.inr hp)

theorem MoveOK.goOn (h : MoveOK n truth w) (p : Nat) (success : Bool)
    (hgo : w.goOn p success = some w') : MoveOK n truth w' := by
  have hm := h.movers p
  unfold Transfer.goOn at hgo
  split at hgo
  · -- the source has stopped: an empty copy covers what is in front of every key
    next hmover =>
    split at hgo
    · next ha =>
      refine Option.some.inj hgo ▸ h.goto p ⟨(h.answered _ ha).2, fun _ => ?_⟩
      refine ⟨by simp, by simp, fun k v _ _ hlt => absurd ?_ hlt⟩
      cases k <;> rfl
    · cases hgo
  · next start page kvs last hmover =>
    rw [hmover] at hm
    obtain ⟨hstopped, hcopied⟩ := hm
    split at hgo
    · next ha =>
      have hanswer := (h.answered _ ha).2
      split at hgo
      · next hdone =>
        have hopened : Opened n w := by
          cases success with
          | false => cases last <;> exact hanswer
          | true =>
            cases last with
            | true => exact hanswer
            | false => simp at hdone
        exact Option.some.inj hgo ▸ h.send p hopened hopened
      · next hmore =>
        -- the chunk is at the destination, so the copy goes on without it
        have hlast : last = false := by simpa using fun hl => hmore (.inl hl)
        have hsuccess : success = true := by simpa using fun hs => hmore (.inr hs)
        subst hlast hsuccess
        refine Option.some.inj hgo ▸ h.goto p ⟨hstopped, fun ho => ?_⟩
        refine ⟨(hcopied rfl ho).pageOK, by simp, fun k v hk hv hlt => ?_⟩
        rcases (hcopied rfl ho).covered k v hk hv hlt with hd | hc | hp
        · exact .inl hd
        · exact .inl (hanswer ho k v hc)
        · exact .inr (.inr hp)
    · cases hgo
  · next hmover =>
    split at hgo
    · next ha =>
      have hgone : Gone n w := (h.answered _ ha).2
      have hg := h.goto p (m := .idle) trivial
      have hon : Onward n truth truth (w.goto p .idle) { w.goto p .idle with flipped := true } :=
        ⟨id, id, id, fun _ _ _ _ => rfl, fun _ _ _ _ _ _ h => h⟩
      refine Option.some.inj hgo ▸ hg.onward hon ?_ rfl rfl fun a ha => .inl ha
      exact ⟨hg.both.source, hg.both.dest, hg.both.state, hg.both.kept, hg.both.stopped,
        fun _ => hgone, hg.both.copies, hg.both.landed⟩
    · cases hgo
  · cases hgo

/-! ## Whole runs. -/

theorem moveOK_apply (h : MoveOK n truth w) (index : UInt64) {q : Request} (hq : q ∈ w.sent) :
    MoveOK n truth
      { w.setGroup q.side ((w.group q.side).applyCommand c ⟨0, 0, q.op n⟩ index).1 with
        answered := w.answered ++ [(q, ((w.group q.side).execute (q.op n) index).res.success)] } := by
  cases q with
  | freeze => exact h.apply_freeze index _ hq
  | purge => exact h.apply_purge index _ hq
  | importChunk kvs last =>
    change MoveOK n truth { w with
      dest := (w.dest.applyCommand c ⟨0, 0, .importOp n kvs last⟩ index).1
      answered := w.answered ++
        [(.importChunk kvs last, (w.dest.execute (.importOp n kvs last) index).res.success)] }
    rw [StateMachine.success_import]
    by_cases ho : Opened n w
    · rw [h.both.complete_eq.mpr ho]
      exact h.apply_import_late kvs last index ho hq
    · have hcomplete : w.dest.complete n = false := by
        cases hc : w.dest.complete n with
        | false => rfl
        | true => exact absurd (h.both.complete_eq.mp hc) ho
      rw [hcomplete]
      exact h.apply_import index ho hq

/-- STEP.  Every happening keeps the invariant, with the truth moved on by what it executed. -/
theorem moveOK_exec {e : Happening} {os : List Executed} (h : MoveOK n truth w)
    (hexec : (transfer c n).exec w e = some (w', os)) : MoveOK n (lastWrite truth os) w' := by
  have quiet : ∀ {w₁ : Transfer}, MoveOK n truth w₁ → some (w₁, []) = some (w', os) →
      MoveOK n (lastWrite truth os) w' := by
    intro w₁ h₁ heq
    obtain ⟨rfl, rfl⟩ := Prod.mk.inj (Option.some.inj heq)
    exact h₁
  cases e with
  | begin p =>
    simp only [transfer] at hexec
    split at hexec
    · exact quiet (h.send p (q := .freeze) (m := .freezing) trivial trivial) hexec
    · cases hexec
  | apply i index =>
    obtain ⟨q, hq, heq⟩ := Option.map_eq_some_iff.mp hexec
    exact quiet (moveOK_apply h index (List.mem_of_getElem? hq)) (congrArg some heq)
  | answer p success =>
    obtain ⟨w₁, hgo, heq⟩ := Option.map_eq_some_iff.mp hexec
    exact quiet (h.goOn p success hgo) (congrArg some heq)
  | scan p index =>
    simp only [transfer] at hexec
    split at hexec
    · next start chunk hmover => exact quiet (h.scanPage p index hmover) hexec
    · cases hexec
  | take p =>
    simp only [transfer] at hexec
    split at hexec
    · next start pair page chunk hmover => exact quiet (h.takePair p hmover) hexec
    · cases hexec
  | client side cmd index =>
    simp only [transfer] at hexec
    split at hexec
    · cases hexec
    · next key hkey =>
      split at hexec
      · cases hexec
      · next hroute =>
        obtain ⟨rfl, rfl⟩ := Prod.mk.inj (Option.some.inj hexec)
        cases side with
        | source => exact h.client_source hkey
        | dest =>
          refine h.client_dest hkey fun hk => ?_
          cases hf : w.flipped with
          | true => rfl
          | false => exact absurd ⟨rfl, hk, hf⟩ hroute
  | stop p => exact quiet (h.goto p (m := .idle) trivial) hexec

/-- RUN. -/
theorem moveOK_run {events : List Happening} {os : List Executed} (h : MoveOK n truth w)
    (hrun : (transfer c n).run w events = some (w', os)) : MoveOK n (lastWrite truth os) w' := by
  refine Machine.run_history (C := fun _ _ => True)
    (R := fun w _ os => MoveOK n (lastWrite truth os) w) ?_ h (Machine.meets_true _ _ _) hrun
  intro w e w' past shown os h _ hexec
  have := moveOK_exec h hexec
  unfold lastWrite at this ⊢
  rwa [List.foldl_append]

theorem moveOK_start {source dest : StateMachine} (h : Start n source dest) :
    MoveOK n source.get { source, dest } := by
  have hclosed : ¬Opened n { source, dest } := by
    unfold Opened
    rcases h.unknown with hn | hn <;> simp [hn]
  refine ⟨⟨fun _ _ _ => rfl, fun ho => absurd ho hclosed, ?_, fun _ => h.holds,
    fun ho => absurd ho hclosed, by simp, ?_, fun ho => absurd ho hclosed⟩, by simp, by simp,
    fun _ => trivial⟩
  · rcases h.unknown with hn | hn <;> simp [hn]
  · intro _ k v hk hv
    rw [h.empty k hk] at hv
    cases hv

theorem MoveOK.landed_iff (h : MoveOK n truth w) : Landed w ↔ Opened n w := by
  constructor
  · rintro ⟨kvs, hkvs⟩
    exact (h.answered _ hkvs).2
  · exact h.both.landed

/-- Where a command on a key of the shard is executed, the shard has not gone. -/
theorem not_gone_of_executed {s : StateMachine} {op : Op} {key : Bytes}
    (hkey : StateMachine.clientKey op = some key) (hmoving : s.refuses op = false) :
    s.shards (shardOf key) ≠ some .shardGone := by
  intro hgone
  have hstate : s.shardState (shardOf key) = .shardGone := by
    unfold StateMachine.shardState
    rw [hgone]
    rfl
  cases op with
  | put key' value =>
    cases hkey
    simp [StateMachine.refuses, StateMachine.writable, hstate] at hmoving
  | delete key' =>
    cases hkey
    simp [StateMachine.refuses, StateMachine.writable, hstate] at hmoving
  | cas key' expected value =>
    cases hkey
    simp [StateMachine.refuses, StateMachine.writable, hstate] at hmoving
  | get key' =>
    cases hkey
    simp [StateMachine.refuses, StateMachine.readable, hstate] at hmoving
  | _ => cases hkey

/-- A write is executed only where the shard is open. -/
theorem open_of_write {s : StateMachine} {op : Op} {key : Bytes}
    (hkey : StateMachine.clientKey op = some key) (hwrite : StateMachine.isWrite op = true)
    (hmoving : s.refuses op = false) : s.shardState (shardOf key) = .shardOpen := by
  cases op with
  | put key' value =>
    cases hkey
    simpa [StateMachine.refuses, StateMachine.writable] using hmoving
  | delete key' =>
    cases hkey
    simpa [StateMachine.refuses, StateMachine.writable] using hmoving
  | cas key' expected value =>
    cases hkey
    simpa [StateMachine.refuses, StateMachine.writable] using hmoving
  | _ => cases hwrite

theorem readsFrom_congr {m m' : Bytes → Option Bytes} {op : Op} {res : Result} {key : Bytes}
    (hkey : StateMachine.clientKey op = some key) (hm : m key = m' key)
    (h : StateMachine.ReadsFrom m op res) : StateMachine.ReadsFrom m' op res := by
  cases op with
  | get key' =>
    cases hkey
    exact ⟨hm ▸ h.1, hm ▸ h.2⟩
  | cas key' expected value =>
    cases hkey
    exact ⟨hm ▸ h.1, hm ▸ h.2⟩
  | _ => trivial

/-- What a group executes of a client command on a key of the shard. -/
theorem MoveOK.executed (h : MoveOK n truth w) {e : Happening} {os : List Executed} {o : Executed}
    {key : Bytes} (hexec : (transfer c n).exec w e = some (w', os)) (ho : o ∈ os)
    (hkey : StateMachine.clientKey o.op = some key) (hn : shardOf key = n) :
    (o.side = .source → StateMachine.isWrite o.op = true → ¬Stopped n w) ∧
    StateMachine.ReadsFrom truth o.op o.result := by
  -- only a client command shows anything
  obtain ⟨side, cmd, index, rfl⟩ : ∃ side cmd index, e = .client side cmd index := by
    cases e with
    | client side cmd index => exact ⟨side, cmd, index, rfl⟩
    | _ =>
      simp only [transfer, Option.map_eq_some_iff] at hexec
      grind
  simp only [transfer] at hexec
  split at hexec
  · cases hexec
  next key' hkey' =>
  split at hexec
  · cases hexec
  next hroute =>
  obtain ⟨-, rfl⟩ := Prod.mk.inj (Option.some.inj hexec)
  unfold Transfer.observe at ho
  split at ho
  · next hrun =>
    obtain rfl := List.mem_singleton.mp ho
    obtain rfl : key' = key := by
      rw [hkey'] at hkey
      exact Option.some.inj hkey
    have hreads : StateMachine.ReadsFrom (w.group side).get cmd.op
        ((w.group side).execute cmd.op index).res := StateMachine.readsFrom_client hrun.2
    cases side with
    | source =>
      refine ⟨fun _ hwrite => not_not.mpr ?_, readsFrom_congr hkey ?_ hreads⟩
      · exact hn ▸ open_of_write hkey hwrite hrun.2
      · exact h.both.source (hn ▸ not_gone_of_executed hkey hrun.2) key' hn
    | dest =>
      refine ⟨(fun hs => by cases hs), readsFrom_congr hkey ?_ hreads⟩
      have hflipped : w.flipped = true := by
        cases hf : w.flipped with
        | true => rfl
        | false => exact absurd ⟨rfl, hn, hf⟩ hroute
      refine h.both.dest ?_ key' hn
      by_contra hclosed
      exact h.both.kept hclosed (h.both.flipped hflipped)
  · simp at ho

/-- A SHARD MOVE loses nothing and never goes back in time.  In every state a run of the move reaches:
until the destination has applied a last import, the source is not purged and holds the last executed
write of every key; from then on the destination holds exactly that.  Whatever happens next, a write of
the shard that the source executes finds the source open and nothing landed yet, and every read that a
group executes, of a Get or a Cas, shows the last executed write. -/
theorem shard_move_keeps_writes (c : Codec) (n : Nat) (source dest : StateMachine)
    (hstart : Start n source dest) (events : List Happening) (w : Transfer) (os : List Executed)
    (hrun : (transfer c n).run { source, dest } events = some (w, os)) :
    (¬Landed w → w.source.shards n ≠ some .shardGone ∧
      ∀ key, shardOf key = n → w.source.get key = lastWrite source.get os key) ∧
    (Landed w → ∀ key, shardOf key = n → w.dest.get key = lastWrite source.get os key) ∧
    ∀ e w' os', (transfer c n).exec w e = some (w', os') → ∀ o ∈ os', ∀ key,
      StateMachine.clientKey o.op = some key → shardOf key = n →
      (o.side = .source → StateMachine.isWrite o.op = true →
        w.source.shardState n = .shardOpen ∧ ¬Landed w) ∧
      StateMachine.ReadsFrom (lastWrite source.get os) o.op o.result := by
  have h := moveOK_run (moveOK_start hstart) hrun
  refine ⟨?_, ?_, ?_⟩
  · intro hnot
    have hclosed : ¬Opened n w := fun ho => hnot (h.landed_iff.mpr ho)
    exact ⟨h.both.kept hclosed, h.both.source (h.both.kept hclosed)⟩
  · intro hlanded
    exact h.both.dest (h.landed_iff.mp hlanded)
  · intro e w' os' hexec o ho key hkey hn
    obtain ⟨hwrite, hreads⟩ := h.executed hexec ho hkey hn
    refine ⟨fun hs hw => ?_, hreads⟩
    have hopen := not_not.mp (hwrite hs hw)
    exact ⟨hopen, fun hl => h.both.stopped (h.landed_iff.mp hl) hopen⟩

/-! ## A sample move. -/

/-- A source that holds key `a` with the value `1`. -/
def sampleSource : StateMachine :=
  (StateMachine.applyCommand (Kv.tableCodec []) {} ⟨0, 0, .put [0x61] [0x31]⟩ 1).1

/-- A whole move; a client writes `2` to the destination, and the chunk arrives once more. -/
def sampleMove : List Happening :=
  [.begin 0, .apply 0 2, .answer 0 true, .scan 0 3, .take 0, .scan 0 4, .apply 1 1, .answer 0 true,
    .apply 2 5, .answer 0 true, .client .dest ⟨0, 0, .put [0x61] [0x32]⟩ 2, .apply 1 3]

theorem sampleMove_runs : ((transfer (Kv.tableCodec []) (shardOf [0x61])).run
    { source := sampleSource, dest := {} } sampleMove).isSome = true := by decide +kernel

def sampleMoveEnd : Transfer × List Executed :=
  ((transfer (Kv.tableCodec []) (shardOf [0x61])).run
    { source := sampleSource, dest := {} } sampleMove).get sampleMove_runs

theorem run_sampleMove : (transfer (Kv.tableCodec []) (shardOf [0x61])).run
    { source := sampleSource, dest := {} } sampleMove =
      some (sampleMoveEnd.1, sampleMoveEnd.2) := by
  rw [Prod.mk.eta, sampleMoveEnd, Option.some_get]

theorem start_sample : Start (shardOf [0x61]) sampleSource {} where
  holds := by decide +kernel
  unknown := .inl rfl
  empty key _ := by simp [StateMachine.get]

/-- The late chunk did not overwrite the client's write. -/
theorem shard_move_keeps_writes_late_chunk :
    Landed sampleMoveEnd.1 ∧ sampleMoveEnd.1.dest.get [0x61] = some [0x32] := by
  have hlanded : Landed sampleMoveEnd.1 := ⟨[([0x61], [0x31])], by decide +kernel⟩
  refine ⟨hlanded, ?_⟩
  rw [(shard_move_keeps_writes _ _ _ _ start_sample _ _ _ run_sampleMove).2.1 hlanded [0x61] rfl]
  decide +kernel

end Keystone.Shard
