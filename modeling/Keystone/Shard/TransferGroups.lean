/-
# Keystone.Shard.TransferGroups — what the two groups of a move hold, and what is on its way.

`truth` is the last executed write of every key.  The source holds it until it is purged, the destination
from the moment it applied a last import (`Both`).  What a mover carries between the two is right because
a stopped source does not change: a request, an answer or a half-made copy that was right stays right
while the two groups go on (`Onward`), until the copy has landed and nothing it holds matters any more.
-/
import Keystone.Shard.Transfer

namespace Keystone.Shard

open Keystone.Lib
open Keystone.Kv (Bytes Codec Command Op Result StateMachine ShardState shardOf)
open Function (update)

variable {c : Codec} {n : Nat} {truth truth' : Bytes → Option Bytes} {w w' : Transfer}

/-! ## The two groups. -/

/-- The source executes no more writes of the shard. -/
def Stopped (n : Nat) (w : Transfer) : Prop := w.source.shardState n ≠ .shardOpen

def Gone (n : Nat) (w : Transfer) : Prop := w.source.shards n = some .shardGone

/-- The shard is open at the destination. -/
def Opened (n : Nat) (w : Transfer) : Prop := w.dest.shards n = some .shardOpen

theorem Gone.stopped (h : Gone n w) : Stopped n w := by
  unfold Stopped StateMachine.shardState
  rw [h]
  decide

/-- Which of the two holds the shard. -/
structure Both (n : Nat) (truth : Bytes → Option Bytes) (w : Transfer) : Prop where
  source : ¬Gone n w → ∀ k, shardOf k = n → w.source.get k = truth k
  dest : Opened n w → ∀ k, shardOf k = n → w.dest.get k = truth k
  state : w.dest.shards n ≠ some .shardFrozen
  kept : ¬Opened n w → ¬Gone n w
  stopped : Opened n w → Stopped n w
  flipped : w.flipped = true → Gone n w
  /-- What the destination holds early is a copy of what the source holds for good. -/
  copies : ¬Opened n w → ∀ k v, shardOf k = n → w.dest.get k = some v →
    Stopped n w ∧ truth k = some v
  landed : Opened n w → Landed w

/-! ## Requests, answers and movers. -/

def RequestOK (n : Nat) (truth : Bytes → Option Bytes) (w : Transfer) : Request → Prop
  | .freeze => True
  | .importChunk kvs last => Stopped n w ∧ (¬Opened n w →
      (∀ k v, (k, v) ∈ kvs → shardOf k = n ∧ truth k = some v) ∧
      (last = true → ∀ k v, shardOf k = n → truth k = some v →
        w.dest.get k = some v ∨ (k, v) ∈ kvs))
  | .purge => Opened n w

def AnswerOK (n : Nat) (w : Transfer) : Request × Bool → Prop
  | (.freeze, _) => Stopped n w
  | (.importChunk kvs false, true) => ¬Opened n w → ∀ k v, (k, v) ∈ kvs → w.dest.get k = some v
  | (.importChunk _ true, true) => Opened n w
  | (.importChunk _ _, false) => Opened n w
  | (.purge, _) => Gone n w

/-- A copy in the making: the pairs at hand are right, and every pair in front of `start` is at the
destination or at hand. -/
structure Copied (n : Nat) (truth : Bytes → Option Bytes) (w : Transfer) (start : Bytes)
    (page chunk : List (Bytes × Bytes)) : Prop where
  pageOK : ∀ k v, (k, v) ∈ page → shardOf k = n → truth k = some v
  chunkOK : ∀ k v, (k, v) ∈ chunk → shardOf k = n ∧ truth k = some v
  covered : ∀ k v, shardOf k = n → truth k = some v → ¬(compare start k).isLE →
    w.dest.get k = some v ∨ (k, v) ∈ chunk ∨ (k, v) ∈ page

def MoverOK (n : Nat) (truth : Bytes → Option Bytes) (w : Transfer) : Mover → Prop
  | .idle | .freezing => True
  | .copying start page chunk => Stopped n w ∧ (¬Opened n w → Copied n truth w start page chunk)
  | .importing start page kvs last =>
    Stopped n w ∧ (last = false → ¬Opened n w → Copied n truth w start page kvs)
  | .purging => Opened n w

/-! ## Going on. -/

/-- What the groups may do between two moments as far as the movers are concerned. -/
structure Onward (n : Nat) (truth truth' : Bytes → Option Bytes) (w w' : Transfer) : Prop where
  stopped : Stopped n w → Stopped n w'
  gone : Gone n w → Gone n w'
  opened : Opened n w → Opened n w'
  same : ¬Opened n w' → Stopped n w → ∀ k, shardOf k = n → truth' k = truth k
  grows : ¬Opened n w' → Stopped n w → ∀ k v, shardOf k = n → truth k = some v →
    w.dest.get k = some v → w'.dest.get k = some v

theorem Onward.requestOK (h : Onward n truth truth' w w') {q : Request} (hq : RequestOK n truth w q) :
    RequestOK n truth' w' q := by
  cases q with
  | freeze => trivial
  | importChunk kvs last =>
    obtain ⟨hs, hq⟩ := hq
    refine ⟨h.stopped hs, fun hopen => ?_⟩
    obtain ⟨hpairs, hlast⟩ := hq fun ho => hopen (h.opened ho)
    refine ⟨fun k v hkv => ?_, fun hl k v hk hv => ?_⟩
    · obtain ⟨hk, hv⟩ := hpairs k v hkv
      exact ⟨hk, (h.same hopen hs k hk).trans hv⟩
    · rw [h.same hopen hs k hk] at hv
      exact (hlast hl k v hk hv).imp_left (h.grows hopen hs k v hk hv)
  | purge => exact h.opened hq

/-- An answered chunk was sent, so its pairs are pairs of the shard. -/
theorem Onward.answerOK (h : Onward n truth truth' w w') {a : Request × Bool}
    (hq : RequestOK n truth w a.1) (ha : AnswerOK n w a) : AnswerOK n w' a := by
  obtain ⟨q, success⟩ := a
  cases q with
  | freeze => exact h.stopped ha
  | importChunk kvs last =>
    cases success with
    | false => cases last <;> exact h.opened ha
    | true =>
      cases last with
      | true => exact h.opened ha
      | false =>
        intro hopen k v hkv
        have hopen' : ¬Opened n w := fun ho => hopen (h.opened ho)
        obtain ⟨hk, hv⟩ := (hq.2 hopen').1 k v hkv
        exact h.grows hopen hq.1 k v hk hv (ha hopen' k v hkv)
  | purge => exact h.gone ha

theorem Onward.copied (h : Onward n truth truth' w w') (hs : Stopped n w) (hopen : ¬Opened n w')
    {start : Bytes} {page chunk : List (Bytes × Bytes)} (hc : Copied n truth w start page chunk) :
    Copied n truth' w' start page chunk := by
  refine ⟨fun k v hkv hk => ?_, fun k v hkv => ?_, fun k v hk hv hlt => ?_⟩
  · rw [h.same hopen hs k hk]
    exact hc.pageOK k v hkv hk
  · obtain ⟨hk, hv⟩ := hc.chunkOK k v hkv
    exact ⟨hk, (h.same hopen hs k hk).trans hv⟩
  · rw [h.same hopen hs k hk] at hv
    exact (hc.covered k v hk hv hlt).imp_left (h.grows hopen hs k v hk hv)

theorem Onward.moverOK (h : Onward n truth truth' w w') {m : Mover} (hm : MoverOK n truth w m) :
    MoverOK n truth' w' m := by
  cases m with
  | idle => trivial
  | freezing => trivial
  | copying start page chunk =>
    obtain ⟨hs, hm⟩ := hm
    exact ⟨h.stopped hs, fun ho => h.copied hs ho (hm fun ho' => ho (h.opened ho'))⟩
  | importing start page kvs last =>
    obtain ⟨hs, hm⟩ := hm
    exact ⟨h.stopped hs, fun hl ho => h.copied hs ho (hm hl fun ho' => ho (h.opened ho'))⟩
  | purging => exact h.opened hm

/-! ## The invariant. -/

structure MoveOK (n : Nat) (truth : Bytes → Option Bytes) (w : Transfer) : Prop where
  both : Both n truth w
  sent : ∀ q ∈ w.sent, RequestOK n truth w q
  answered : ∀ a ∈ w.answered, a.1 ∈ w.sent ∧ AnswerOK n w a
  movers : ∀ p, MoverOK n truth w (w.mover p)

/-- The groups go on and the movers stay where they are. -/
theorem MoveOK.onward (h : MoveOK n truth w) (hon : Onward n truth truth' w w')
    (hboth : Both n truth' w') (hmover : w'.mover = w.mover) (hsent : w'.sent = w.sent)
    (hanswered : ∀ a ∈ w'.answered, a ∈ w.answered ∨ a.1 ∈ w.sent ∧ AnswerOK n w' a) :
    MoveOK n truth' w' := by
  refine ⟨hboth, ?_, ?_, ?_⟩
  · intro q hq
    exact hon.requestOK (h.sent q (hsent ▸ hq))
  · intro a ha
    rw [hsent]
    rcases hanswered a ha with hold | hnew
    · obtain ⟨hq, hok⟩ := h.answered a hold
      exact ⟨hq, hon.answerOK (h.sent _ hq) hok⟩
    · exact hnew
  · intro p
    rw [hmover]
    exact hon.moverOK (h.movers p)

/-- The groups do not look at the movers. -/
theorem Both.withMover (h : Both n truth w) (mover : Nat → Mover) (sent : List Request) :
    Both n truth { w with mover := mover, sent := sent } :=
  ⟨h.source, h.dest, h.state, h.kept, h.stopped, h.flipped, h.copies, h.landed⟩

theorem Onward.withMover (n : Nat) (truth : Bytes → Option Bytes) (w : Transfer)
    (mover : Nat → Mover) (sent : List Request) :
    Onward n truth truth w { w with mover := mover, sent := sent } :=
  ⟨id, id, id, fun _ _ _ _ => rfl, fun _ _ _ _ _ _ h => h⟩

theorem MoveOK.goto (h : MoveOK n truth w) (p : Nat) {m : Mover} (hm : MoverOK n truth w m) :
    MoveOK n truth (w.goto p m) := by
  have hon := Onward.withMover n truth w (update w.mover p m) w.sent
  refine ⟨h.both.withMover _ _, fun q hq => hon.requestOK (h.sent q hq), ?_, fun q => ?_⟩
  · intro a ha
    obtain ⟨hmem, hok⟩ := h.answered a ha
    exact ⟨hmem, hon.answerOK (h.sent _ hmem) hok⟩
  · refine hon.moverOK ?_
    unfold Transfer.goto
    by_cases hq : q = p
    · subst hq
      simpa using hm
    · simpa [Function.update_of_ne hq] using h.movers q

theorem MoveOK.send (h : MoveOK n truth w) (p : Nat) {q : Request} {m : Mover}
    (hm : MoverOK n truth w m) (hq : RequestOK n truth w q) : MoveOK n truth (w.send p q m) := by
  have hg := h.goto p hm
  have hon := Onward.withMover n truth (w.goto p m) (w.goto p m).mover (w.sent ++ [q])
  have hon' := Onward.withMover n truth w (update w.mover p m) (w.sent ++ [q])
  refine ⟨hg.both.withMover _ _, ?_, ?_, fun p' => hon.moverOK (hg.movers p')⟩
  · intro q' hq'
    rcases List.mem_append.mp hq' with hold | hnew
    · exact hon.requestOK (hg.sent q' hold)
    · obtain rfl := List.mem_singleton.mp hnew
      exact hon'.requestOK hq
  · intro a ha
    obtain ⟨hmem, hok⟩ := hg.answered a ha
    exact ⟨List.mem_append_left _ hmem, hon.answerOK (hg.sent _ hmem) hok⟩

/-! ## Clients. -/

theorem lastWrite_observe_congr (side : Side) (s : StateMachine) (cmd : Command) (index : UInt64)
    {m m' : Bytes → Option Bytes} {k : Bytes} (h : m k = m' k) :
    lastWrite m (Transfer.observe side s cmd index) k =
      lastWrite m' (Transfer.observe side s cmd index) k := by
  unfold Transfer.observe
  split
  · exact StateMachine.written_congr _ _ h
  · exact h

theorem lastWrite_observe_of_ne (side : Side) (s : StateMachine) {cmd : Command} (index : UInt64)
    {m : Bytes → Option Bytes} {key k : Bytes} (hkey : StateMachine.clientKey cmd.op = some key)
    (hk : k ≠ key) : lastWrite m (Transfer.observe side s cmd index) k = m k := by
  unfold Transfer.observe
  split
  · exact StateMachine.written_of_ne hkey hk
  · rfl

/-- A group follows its own executed commands. -/
theorem get_client_observe (side : Side) (s : StateMachine) {cmd : Command} (index : UInt64)
    {key : Bytes} (hkey : StateMachine.clientKey cmd.op = some key) (k : Bytes) :
    (s.applyCommand c cmd index).1.get k =
      lastWrite s.get (Transfer.observe side s cmd index) k := by
  unfold Transfer.observe
  cases hcached : s.cached cmd with
  | some result =>
    rw [StateMachine.get_of_cached hcached]
    simp [lastWrite]
  | none =>
    cases hmoving : s.refuses cmd.op with
    | true =>
      rw [StateMachine.get_of_refused hcached hmoving]
      simp [lastWrite]
    | false =>
      rw [StateMachine.get_client hkey hcached hmoving]
      simp [lastWrite]

/-- Where the shard takes no writes, an executed command changes none of its keys. -/
theorem lastWrite_observe_of_stopped (side : Side) {s : StateMachine} {cmd : Command} (index : UInt64)
    {m : Bytes → Option Bytes} {key : Bytes} (hkey : StateMachine.clientKey cmd.op = some key)
    (hstopped : s.shardState n ≠ .shardOpen) {k : Bytes} (hk : shardOf k = n) :
    lastWrite m (Transfer.observe side s cmd index) k = m k := by
  by_cases hne : k = key
  · subst hne
    have hw : s.writable k = false := by simp [StateMachine.writable, hk, hstopped]
    unfold Transfer.observe
    split
    · next hexec =>
      cases hop : cmd.op with
      | put key' value =>
        obtain rfl : key' = k := by simpa [hop, StateMachine.clientKey] using hkey
        simp [hop, StateMachine.refuses, hw] at hexec
      | delete key' =>
        obtain rfl : key' = k := by simpa [hop, StateMachine.clientKey] using hkey
        simp [hop, StateMachine.refuses, hw] at hexec
      | cas key' expected value =>
        obtain rfl : key' = k := by simpa [hop, StateMachine.clientKey] using hkey
        simp [hop, StateMachine.refuses, hw] at hexec
      | get key' => rfl
      | _ => simp [hop, StateMachine.clientKey] at hkey
    · rfl
  · exact lastWrite_observe_of_ne side s index hkey hne

theorem MoveOK.client_source (h : MoveOK n truth w) {cmd : Command} {index : UInt64} {key : Bytes}
    (hkey : StateMachine.clientKey cmd.op = some key) :
    MoveOK n (lastWrite truth (Transfer.observe .source w.source cmd index))
      { w with source := (w.source.applyCommand c cmd index).1 } := by
  have hshards : (w.source.applyCommand c cmd index).1.shards = w.source.shards :=
    StateMachine.shards_client hkey
  have hstopped : ∀ t : StateMachine, t.shards = w.source.shards → t.shardState n = w.source.shardState n :=
    fun t ht => by unfold StateMachine.shardState; rw [ht]
  have hstop : Stopped n { w with source := (w.source.applyCommand c cmd index).1 } ↔ Stopped n w := by
    unfold Stopped
    rw [hstopped _ hshards]
  have hgone : Gone n { w with source := (w.source.applyCommand c cmd index).1 } ↔ Gone n w := by
    unfold Gone
    rw [hshards]
  have hsame : Stopped n w → ∀ k, shardOf k = n →
      lastWrite truth (Transfer.observe .source w.source cmd index) k = truth k :=
    fun hs k hk => lastWrite_observe_of_stopped .source index hkey hs hk
  refine h.onward ⟨hstop.mpr, hgone.mpr, id, fun _ => hsame, fun _ _ _ _ _ _ h => h⟩ ?_ rfl rfl
    fun a ha => .inl ha
  refine ⟨?_, ?_, h.both.state, ?_, ?_, ?_, ?_, h.both.landed⟩
  · intro hng k hk
    change (w.source.applyCommand c cmd index).1.get k = _
    rw [get_client_observe .source w.source index hkey]
    exact lastWrite_observe_congr _ _ _ _ (h.both.source (fun hg => hng (hgone.mpr hg)) k hk)
  · intro ho k hk
    rw [hsame (h.both.stopped ho) k hk]
    exact h.both.dest ho k hk
  · exact fun ho hg => h.both.kept ho (hgone.mp hg)
  · exact fun ho => hstop.mpr (h.both.stopped ho)
  · exact fun hf => hgone.mpr (h.both.flipped hf)
  · intro ho k v hk hv
    obtain ⟨hs, ht⟩ := h.both.copies ho k v hk hv
    exact ⟨hstop.mpr hs, (hsame hs k hk).trans ht⟩

theorem MoveOK.client_dest (h : MoveOK n truth w) {cmd : Command} {index : UInt64} {key : Bytes}
    (hkey : StateMachine.clientKey cmd.op = some key) (hroute : shardOf key = n → w.flipped = true) :
    MoveOK n (lastWrite truth (Transfer.observe .dest w.dest cmd index))
      { w with dest := (w.dest.applyCommand c cmd index).1 } := by
  have hshards : (w.dest.applyCommand c cmd index).1.shards = w.dest.shards :=
    StateMachine.shards_client hkey
  have hopened : Opened n { w with dest := (w.dest.applyCommand c cmd index).1 } ↔ Opened n w := by
    unfold Opened
    rw [hshards]
  -- a key of the shard is written here only when the source is gone
  have hother : ¬Gone n w → ∀ k, shardOf k = n → k ≠ key := by
    rintro hng k hk rfl
    exact hng (h.both.flipped (hroute hk))
  have hsame : ¬Gone n w → ∀ k, shardOf k = n →
      lastWrite truth (Transfer.observe .dest w.dest cmd index) k = truth k :=
    fun hng k hk => lastWrite_observe_of_ne .dest w.dest index hkey (hother hng k hk)
  have hget : ¬Gone n w → ∀ k, shardOf k = n →
      (w.dest.applyCommand c cmd index).1.get k = w.dest.get k := by
    intro hng k hk
    rw [get_client_observe .dest w.dest index hkey]
    exact lastWrite_observe_of_ne .dest w.dest index hkey (hother hng k hk)
  have hkept : ¬Opened n { w with dest := (w.dest.applyCommand c cmd index).1 } → ¬Gone n w :=
    fun ho => h.both.kept fun ho' => ho (hopened.mpr ho')
  refine h.onward ⟨id, id, hopened.mpr, fun ho _ => hsame (hkept ho), ?_⟩ ?_ rfl rfl
    fun a ha => .inl ha
  · intro ho _ k v hk _ hv
    exact (hget (hkept ho) k hk).trans hv
  · refine ⟨?_, ?_, ?_, hkept, ?_, h.both.flipped, ?_, fun ho => h.both.landed (hopened.mp ho)⟩
    · intro hng k hk
      rw [hsame hng k hk]
      exact h.both.source hng k hk
    · intro ho k hk
      change (w.dest.applyCommand c cmd index).1.get k = _
      rw [get_client_observe .dest w.dest index hkey]
      exact lastWrite_observe_congr _ _ _ _ (h.both.dest (hopened.mp ho) k hk)
    · rw [hshards]
      exact h.both.state
    · exact fun ho => h.both.stopped (hopened.mp ho)
    · intro ho k v hk hv
      have hng := hkept ho
      obtain ⟨hs, ht⟩ := h.both.copies (fun ho' => ho (hopened.mpr ho')) k v hk
        ((hget hng k hk).symm.trans hv)
      exact ⟨hs, (hsame hng k hk).trans ht⟩

/-! ## Requests arriving. -/

theorem MoveOK.apply_freeze (h : MoveOK n truth w) (index : UInt64) (success : Bool)
    (hsent : .freeze ∈ w.sent) :
    MoveOK n truth { w with
      source := (w.source.applyCommand c ⟨0, 0, .freeze n⟩ index).1
      answered := w.answered ++ [(.freeze, success)] } := by
  have hshards : (w.source.applyCommand c ⟨0, 0, .freeze n⟩ index).1.shards = _ :=
    StateMachine.shards_freeze n
  have hstopped : (w.source.applyCommand c ⟨0, 0, .freeze n⟩ index).1.shardState n ≠ .shardOpen := by
    unfold StateMachine.shardState
    rw [hshards]
    split
    · next hg =>
      unfold StateMachine.shardState at hg
      rw [hg]
      decide
    · simp
  have hgone : (w.source.applyCommand c ⟨0, 0, .freeze n⟩ index).1.shards n = some .shardGone ↔
      w.source.shards n = some .shardGone := by
    rw [hshards]
    split
    · rfl
    · next hng =>
      refine ⟨fun hf => by simp at hf, fun hg => absurd ?_ hng⟩
      unfold StateMachine.shardState
      rw [hg]
      rfl
  refine h.onward ⟨fun _ => hstopped, hgone.mpr, id, fun _ _ _ _ => rfl, fun _ _ _ _ _ _ h => h⟩ ?_
    rfl rfl ?_
  · refine ⟨?_, h.both.dest, h.both.state, fun ho hg => h.both.kept ho (hgone.mp hg),
      fun _ => hstopped, fun hf => hgone.mpr (h.both.flipped hf), ?_, ?_⟩
    · intro hng k hk
      exact (StateMachine.get_freeze n k).trans (h.both.source (fun hg => hng (hgone.mpr hg)) k hk)
    · intro ho k v hk hv
      exact ⟨hstopped, (h.both.copies ho k v hk hv).2⟩
    · intro ho
      obtain ⟨kvs, hkvs⟩ := h.both.landed ho
      exact ⟨kvs, List.mem_append_left _ hkvs⟩
  · intro a ha
    rcases List.mem_append.mp ha with hold | hnew
    · exact .inl hold
    · obtain rfl := List.mem_singleton.mp hnew
      exact .inr ⟨hsent, hstopped⟩

theorem MoveOK.apply_purge (h : MoveOK n truth w) (index : UInt64) (success : Bool)
    (hsent : .purge ∈ w.sent) :
    MoveOK n truth { w with
      source := (w.source.applyCommand c ⟨0, 0, .purge n⟩ index).1
      answered := w.answered ++ [(.purge, success)] } := by
  -- a purge is sent only when the destination is open
  have hopened : Opened n w := h.sent _ hsent
  have hgone : (w.source.applyCommand c ⟨0, 0, .purge n⟩ index).1.shards n = some .shardGone := by
    rw [StateMachine.shards_purge]
    simp
  have hstopped : (w.source.applyCommand c ⟨0, 0, .purge n⟩ index).1.shardState n ≠ .shardOpen := by
    unfold StateMachine.shardState
    rw [hgone]
    decide
  refine h.onward ⟨fun _ => hstopped, fun _ => hgone, id, fun _ _ _ _ => rfl,
    fun _ _ _ _ _ _ h => h⟩ ?_ rfl rfl ?_
  · refine ⟨fun hng => absurd hgone hng, h.both.dest, h.both.state,
      fun ho => absurd hopened ho, fun _ => hstopped, fun _ => hgone,
      fun ho => absurd hopened ho, ?_⟩
    intro ho
    obtain ⟨kvs, hkvs⟩ := h.both.landed ho
    exact ⟨kvs, List.mem_append_left _ hkvs⟩
  · intro a ha
    rcases List.mem_append.mp ha with hold | hnew
    · exact .inl hold
    · obtain rfl := List.mem_singleton.mp hnew
      exact .inr ⟨hsent, hgone⟩

/-- The destination takes imports exactly while it is not open. -/
theorem Both.complete_eq (h : Both n truth w) : w.dest.complete n = true ↔ Opened n w := by
  unfold StateMachine.complete Opened
  rw [decide_eq_true_iff]
  exact ⟨fun hc => hc.resolve_right h.state, Or.inl⟩

/-- A late or repeated chunk does not land. -/
theorem MoveOK.apply_import_late (h : MoveOK n truth w) (kvs : List (Bytes × Bytes)) (last : Bool)
    (index : UInt64) (hopened : Opened n w) (hsent : .importChunk kvs last ∈ w.sent) :
    MoveOK n truth { w with
      dest := (w.dest.applyCommand c ⟨0, 0, .importOp n kvs last⟩ index).1
      answered := w.answered ++ [(.importChunk kvs last, false)] } := by
  have hcomplete := h.both.complete_eq.mpr hopened
  have hshards : (w.dest.applyCommand c ⟨0, 0, .importOp n kvs last⟩ index).1.shards =
      w.dest.shards := by
    rw [StateMachine.shards_import, hcomplete]
    simp
  have hopened' : (w.dest.applyCommand c ⟨0, 0, .importOp n kvs last⟩ index).1.shards n =
      some .shardOpen := by
    rw [hshards]
    exact hopened
  refine h.onward ⟨id, id, fun _ => hopened', fun _ _ _ _ => rfl, fun ho => absurd hopened' ho⟩ ?_
    rfl rfl ?_
  · refine ⟨h.both.source, ?_, ?_, fun ho => absurd hopened' ho, fun _ => h.both.stopped hopened,
      h.both.flipped, fun ho => absurd hopened' ho, ?_⟩
    · intro _ k hk
      exact (StateMachine.get_import_of_complete n kvs last hcomplete k).trans
        (h.both.dest hopened k hk)
    · rw [hshards]
      exact h.both.state
    · intro _
      obtain ⟨kvs', hkvs⟩ := h.both.landed hopened
      exact ⟨kvs', List.mem_append_left _ hkvs⟩
  · intro a ha
    rcases List.mem_append.mp ha with hold | hnew
    · exact .inl hold
    · obtain rfl := List.mem_singleton.mp hnew
      refine .inr ⟨hsent, ?_⟩
      cases last <;> exact hopened'

section Import

variable (h : MoveOK n truth w) {kvs : List (Bytes × Bytes)} {last : Bool} (index : UInt64)
  (hopened : ¬Opened n w) (hsent : .importChunk kvs last ∈ w.sent)

include h hopened hsent

/-- An import that lands leaves right values, and everything that was there. -/
theorem MoveOK.get_import (k : Bytes) :
    (∃ v, (k, v) ∈ kvs ∧ truth k = some v ∧
      (w.dest.applyCommand c ⟨0, 0, .importOp n kvs last⟩ index).1.get k = some v) ∨
    ((∀ v, (k, v) ∉ kvs) ∧
      (w.dest.applyCommand c ⟨0, 0, .importOp n kvs last⟩ index).1.get k = w.dest.get k) := by
  have hcomplete : w.dest.complete n = false := by
    cases hc : w.dest.complete n with
    | false => rfl
    | true => exact absurd (h.both.complete_eq.mp hc) hopened
  have hpairs := ((h.sent _ hsent).2 hopened).1
  rcases StateMachine.get_import_of_not n kvs last hcomplete k with ⟨v, hkv, hget⟩ | hnot
  · exact .inl ⟨v, hkv, (hpairs k v hkv).2, hget⟩
  · exact .inr hnot

theorem MoveOK.apply_import :
    MoveOK n truth { w with
      dest := (w.dest.applyCommand c ⟨0, 0, .importOp n kvs last⟩ index).1
      answered := w.answered ++ [(.importChunk kvs last, true)] } := by
  have hcomplete : w.dest.complete n = false := by
    cases hc : w.dest.complete n with
    | false => rfl
    | true => exact absurd (h.both.complete_eq.mp hc) hopened
  obtain ⟨hstopped, hrequest⟩ := h.sent _ hsent
  obtain ⟨hpairs, hlast⟩ := hrequest hopened
  have hget := h.get_import (c := c) index hopened hsent
  -- right values stay, and the pairs of the chunk are there
  have hgrows : ∀ k v, shardOf k = n → truth k = some v → w.dest.get k = some v →
      (w.dest.applyCommand c ⟨0, 0, .importOp n kvs last⟩ index).1.get k = some v := by
    intro k v hk ht hv
    rcases hget k with ⟨v', -, ht', hv'⟩ | ⟨-, hsame⟩
    · rw [hv', ← ht', ht]
    · rw [hsame, hv]
  have hthere : ∀ k v, (k, v) ∈ kvs →
      (w.dest.applyCommand c ⟨0, 0, .importOp n kvs last⟩ index).1.get k = some v := by
    intro k v hkv
    obtain ⟨hk, ht⟩ := hpairs k v hkv
    rcases hget k with ⟨v', -, ht', hv'⟩ | ⟨hnot, -⟩
    · rw [hv', ← ht', ht]
    · exact absurd hkv (hnot v)
  have hright : ∀ k v, shardOf k = n →
      (w.dest.applyCommand c ⟨0, 0, .importOp n kvs last⟩ index).1.get k = some v →
      truth k = some v := by
    intro k v hk hv
    rcases hget k with ⟨v', -, ht', hv'⟩ | ⟨-, hsame⟩
    · rw [ht', ← hv', hv]
    · exact (h.both.copies hopened k v hk (hsame.symm.trans hv)).2
  have hshards : (w.dest.applyCommand c ⟨0, 0, .importOp n kvs last⟩ index).1.shards = _ :=
    StateMachine.shards_import n kvs last
  cases last with
  | false =>
    have hsame : (w.dest.applyCommand c ⟨0, 0, .importOp n kvs false⟩ index).1.shards =
        w.dest.shards := by
      rw [hshards]
      simp
    have hopened' : ¬(w.dest.applyCommand c ⟨0, 0, .importOp n kvs false⟩ index).1.shards n =
        some .shardOpen := by
      rw [hsame]
      exact hopened
    refine h.onward ⟨id, id, fun ho => absurd ho hopened, fun _ _ _ _ => rfl,
      fun _ _ => hgrows⟩ ?_ rfl rfl ?_
    · refine ⟨h.both.source, fun ho => absurd ho hopened', ?_, fun _ => h.both.kept hopened,
        fun ho => absurd ho hopened', h.both.flipped,
        fun _ k v hk hv => ⟨hstopped, hright k v hk hv⟩, fun ho => absurd ho hopened'⟩
      rw [hsame]
      exact h.both.state
    · intro a ha
      rcases List.mem_append.mp ha with hold | hnew
      · exact .inl hold
      · obtain rfl := List.mem_singleton.mp hnew
        exact .inr ⟨hsent, fun _ => hthere⟩
  | true =>
    -- the copy lands: what the chunk does not bring is there already
    have hopen : (w.dest.applyCommand c ⟨0, 0, .importOp n kvs true⟩ index).1.shards n =
        some .shardOpen := by
      rw [hshards, hcomplete]
      simp
    refine h.onward ⟨id, id, fun _ => hopen, fun _ _ _ _ => rfl, fun ho => absurd hopen ho⟩ ?_
      rfl rfl ?_
    · refine ⟨h.both.source, ?_, ?_, fun ho => absurd hopen ho, fun _ => hstopped, h.both.flipped,
        fun ho => absurd hopen ho, fun _ => ⟨kvs, List.mem_append_right _ (by simp)⟩⟩
      · intro _ k hk
        change (w.dest.applyCommand c ⟨0, 0, .importOp n kvs true⟩ index).1.get k = truth k
        cases ht : truth k with
        | some v =>
          rcases hlast rfl k v hk ht with hv | hkv
          · exact hgrows k v hk ht hv
          · exact hthere k v hkv
        | none =>
          cases hv : (w.dest.applyCommand c ⟨0, 0, .importOp n kvs true⟩ index).1.get k with
          | none => rfl
          | some v =>
            rw [hright k v hk hv] at ht
            cases ht
      · change (w.dest.applyCommand c ⟨0, 0, .importOp n kvs true⟩ index).1.shards n ≠ _
        rw [hopen]
        decide
    · intro a ha
      rcases List.mem_append.mp ha with hold | hnew
      · exact .inl hold
      · obtain rfl := List.mem_singleton.mp hnew
        exact .inr ⟨hsent, hopen⟩

end Import

end Keystone.Shard
