/-
# Keystone.Kv.Sessions — a command that was executed is not executed again.

A replica applies a log with restarts and snapshot transfers between its entries.  What it shows is, for
every entry, the machine before and after it and the result.  The session row of a client then only
moves up (`row_step`, `row_along`) as long as no Register is executed at a log index that is the
client's id: such a Register opens the row of that id anew, whoever the id belonged to
(`session_row_lost`).
-/
import Keystone.Kv.Transparency
import Keystone.Lib.Transition

namespace Keystone.Kv

open Keystone.Lib
open Keystone.Storage (KVMap Batch BatchOp putOp deleteOp)
open Function (update)

/-! ## Runs of a replica. -/

inductive Event where
  | entry (e : Entry)
  /-- A restart: `NewStateMachine` over the engine. -/
  | reload
  /-- The machine's snapshot, restored into the machine `t`, goes on. -/
  | restore (t : StateMachine)

/-- One entry as a replica applied it. -/
structure Applied where
  before : StateMachine
  cmd : Command
  index : UInt64
  result : Bytes
  after : StateMachine

/-- `Moving` is the answer to this op here. -/
def StateMachine.refuses (s : StateMachine) : Op → Bool
  | .put key _ | .delete key | .cas key _ _ => !s.writable key
  | .get key => !s.readable key
  | _ => false

namespace Applied

/-- Run by `execute`, and not refused as `Moving`. -/
def Executed (a : Applied) : Prop := a.before.cached a.cmd = none ∧ a.before.refuses a.cmd.op = false

/-- Run by `execute`, and refused as `Moving`. -/
def Refused (a : Applied) : Prop := a.before.cached a.cmd = none ∧ a.before.refuses a.cmd.op = true

/-- A Register that is run at the log index `id`: the session it issues has that id. -/
def Issues (a : Applied) (id : UInt64) : Prop :=
  a.before.cached a.cmd = none ∧ a.cmd.op = .register ∧ a.index = id

instance (a : Applied) : Decidable a.Executed := by unfold Executed; infer_instance

instance (a : Applied) : Decidable a.Refused := by unfold Refused; infer_instance

instance (a : Applied) (id : UInt64) : Decidable (a.Issues id) := by unfold Issues; infer_instance

end Applied

def replica (c : Codec) : Machine StateMachine Event Applied where
  exec s
    | .entry e => do
      let cmd ← c.unmarshal e.data
      let (s', result) ← s.apply c e
      return (s', [⟨s, cmd, e.index, result, s'⟩])
    | .reload => (StateMachine.load s.db).map (·, [])
    | .restore t => (t.restore s.snapshot).map (·, [])

/-- The entries shown are one chain of `Apply` from `s` to `s'`. -/
def Follows (c : Codec) : StateMachine → List Applied → StateMachine → Prop
  | s, [], s' => s = s'
  | s, a :: as, s' =>
    a.before = s ∧ s.applyCommand c a.cmd a.index = (a.after, a.result) ∧ Follows c a.after as s'

theorem follows_append {c : Codec} {as bs : List Applied} {s s' : StateMachine} :
    Follows c s (as ++ bs) s' ↔ ∃ m, Follows c s as m ∧ Follows c m bs s' := by
  induction as generalizing s with
  | nil => simp [Follows]
  | cons a as ih => simp [Follows, ih, and_assoc]

/-- Restarts and snapshots leave the chain unbroken. -/
theorem run_follows {c : Codec} {events : List Event} {s s' : StateMachine} {hist : List Applied}
    (hs : Loaded s) (hrun : (replica c).run s events = some (s', hist)) : Follows c s hist s' := by
  induction events generalizing s hist with
  | nil =>
    obtain ⟨rfl, rfl⟩ := Prod.mk.inj (Option.some.inj hrun)
    rfl
  | cons e events ih =>
    obtain ⟨s₁, os, rest, hexec, hrest, rfl⟩ := Machine.run_cons hrun
    have hsame : ∀ {t : Option StateMachine}, t = some s → t.map (·, []) = some (s₁, os) →
        Follows c s (os ++ rest) s' := by
      intro t ht hexec
      rw [ht] at hexec
      obtain ⟨rfl, rfl⟩ := Prod.mk.inj (Option.some.inj hexec)
      exact ih hs hrest
    cases e with
    | entry e =>
      simp only [replica, StateMachine.apply, Option.bind_eq_bind, Option.bind_eq_some_iff,
        Option.map_eq_some_iff] at hexec
      obtain ⟨cmd, hcmd, ⟨s₂, result⟩, ⟨cmd', hcmd', happly⟩, heq⟩ := hexec
      rw [hcmd] at hcmd'
      obtain rfl := Option.some.inj hcmd'
      obtain ⟨rfl, rfl⟩ := Prod.mk.inj (Option.some.inj heq)
      have hs₂ := StateMachine.loaded_applyCommand hs c cmd e.index
      rw [happly] at hs₂
      exact ⟨rfl, happly, ih hs₂ hrest⟩
    | reload => exact hsame hs.load_eq hexec
    | restore t => exact hsame (StateMachine.restore_snapshot hs t) hexec

/-! ## The session row of a client. -/

namespace StateMachine

/-- `Moving` in the result is what `refuses` says. -/
theorem execute_moving (s : StateMachine) (op : Op) (index : UInt64) :
    (s.execute op index).res.moving = s.refuses op := by
  unfold execute refuses
  cases op with
  | put key value => cases hw : s.writable key <;> simp [moving, hw]
  | delete key => cases hw : s.writable key <;> simp [moving, hw]
  | cas key expected value => cases hw : s.writable key <;> simp [moving, hw]
  | get key => cases hr : s.readable key <;> simp [moving, hr]
  | freeze n =>
    dsimp only
    split <;> rfl
  | importOp n kvs last =>
    dsimp only
    split
    · rfl
    · rfl
    · split <;> rfl
  | none => rfl
  | register => rfl
  | scan start stop limit maxBytes => rfl
  | purge n => rfl

/-- Only a Register issues an id, its own log index. -/
theorem execute_clientId (s : StateMachine) (op : Op) (index : UInt64) :
    (s.execute op index).res.clientId = if op = .register then index else 0 := by
  unfold execute
  cases op with
  | put key value => cases hw : s.writable key <;> simp [moving, hw]
  | delete key => cases hw : s.writable key <;> simp [moving, hw]
  | cas key expected value => cases hw : s.writable key <;> simp [moving, hw]
  | get key => cases hr : s.readable key <;> simp [moving, hr]
  | freeze n =>
    dsimp only
    split <;> simp [Effect.setShard]
  | importOp n kvs last =>
    dsimp only
    split
    · simp
    · simp
    · split <;> simp [Effect.setShard]
  | none => simp
  | register => simp
  | scan start stop limit maxBytes => simp
  | purge n => simp [Effect.setShard]

theorem applyCommand_of_cached {c : Codec} {s : StateMachine} {cmd : Command} {index : UInt64}
    {result : Bytes} (h : s.cached cmd = some result) :
    s.applyCommand c cmd index =
      ({ s with db := s.db.write [putOp appliedKey (BigEndian.putUint64 index)], applied := index },
        result) := by
  unfold applyCommand
  rw [h]

/-- The row of a client after a command that was run. -/
theorem sessions_of_run (c : Codec) {s : StateMachine} {cmd : Command} {index : UInt64} (id : UInt64)
    (h : s.cached cmd = none) (hissues : ¬(cmd.op = .register ∧ index = id)) :
    (s.applyCommand c cmd index).1.sessions id =
      if cmd.clientId ≠ 0 ∧ cmd.clientId = id then
        some ⟨cmd.seq, (s.applyCommand c cmd index).2⟩
      else s.sessions id := by
  unfold applyCommand
  rw [h]
  dsimp only
  unfold setSessions
  rw [execute_clientId]
  have hown : (if cmd.clientId ≠ 0 then
        update s.sessions cmd.clientId (some ⟨cmd.seq, c.marshal (s.execute cmd.op index).res⟩)
      else s.sessions) id =
      if cmd.clientId ≠ 0 ∧ cmd.clientId = id then
        some ⟨cmd.seq, c.marshal (s.execute cmd.op index).res⟩
      else s.sessions id := by
    by_cases hzero : cmd.clientId = 0
    · simp [hzero]
    · by_cases hid : cmd.clientId = id
      · subst hid
        simp [hzero]
      · simp [hzero, hid, Function.update_of_ne (Ne.symm hid)]
  by_cases hreg : cmd.op = .register
  · have hne : id ≠ index := fun heq => hissues ⟨hreg, heq.symm⟩
    rw [if_pos hreg]
    split
    · rw [Function.update_of_ne hne, hown]
    · exact hown
  · rw [if_neg hreg, if_neg (by simp), hown]

theorem cached_eq {s : StateMachine} {cmd : Command} {sess : Session} (hid : cmd.clientId ≠ 0)
    (hrow : s.sessions cmd.clientId = some sess) :
    s.cached cmd = if cmd.seq ≤ sess.seq then some sess.result else none := by
  unfold cached
  rw [hrow]
  simp [hid]

end StateMachine

/-- STEP.  A row goes up or stays, and it stays when the client's own higher commands were not run. -/
theorem row_step {c : Codec} {a : Applied} {id : UInt64} {sess : Session} (hid : id ≠ 0)
    (happly : a.before.applyCommand c a.cmd a.index = (a.after, a.result)) (hissues : ¬a.Issues id)
    (hrow : a.before.sessions id = some sess) :
    ∃ sess', a.after.sessions id = some sess' ∧ sess.seq ≤ sess'.seq ∧
      ((a.cmd.clientId = id → sess.seq < a.cmd.seq → a.before.cached a.cmd ≠ none) →
        sess' = sess) := by
  cases hcached : a.before.cached a.cmd with
  | some result =>
    rw [StateMachine.applyCommand_of_cached hcached] at happly
    obtain ⟨hafter, -⟩ := Prod.mk.inj happly
    exact ⟨sess, by rw [← hafter, ← hrow], UInt64.le_refl _, fun _ => rfl⟩
  | none =>
    have hsessions := StateMachine.sessions_of_run c id hcached
      fun ⟨hop, hindex⟩ => hissues ⟨hcached, hop, hindex⟩
    rw [happly] at hsessions
    by_cases hown : a.cmd.clientId = id
    · -- the row exists, so a command that was run is above it
      subst hown
      have hlt : sess.seq < a.cmd.seq := by
        rw [StateMachine.cached_eq hid hrow] at hcached
        split at hcached
        · cases hcached
        · next hle => exact UInt64.not_le.mp hle
      rw [if_pos ⟨hid, rfl⟩] at hsessions
      exact ⟨_, hsessions, UInt64.le_of_lt hlt, fun hnone => absurd rfl (hnone rfl hlt)⟩
    · rw [if_neg fun h => hown h.2] at hsessions
      exact ⟨sess, hsessions.trans hrow, UInt64.le_refl _, fun _ => rfl⟩

/-- RUN.  The same over a stretch of entries. -/
theorem row_along {c : Codec} {id : UInt64} (hid : id ≠ 0) {mid : List Applied}
    {s s' : StateMachine} {sess : Session} (hmid : Follows c s mid s')
    (hissues : ∀ k ∈ mid, ¬k.Issues id) (hrow : s.sessions id = some sess) :
    ∃ sess', s'.sessions id = some sess' ∧ sess.seq ≤ sess'.seq ∧
      ((∀ k ∈ mid, k.cmd.clientId = id → sess.seq < k.cmd.seq → k.before.cached k.cmd ≠ none) →
        sess' = sess) := by
  induction mid generalizing s sess with
  | nil =>
    obtain rfl := hmid
    exact ⟨sess, hrow, UInt64.le_refl _, fun _ => rfl⟩
  | cons a mid ih =>
    obtain ⟨rfl, happly, hmid⟩ := hmid
    obtain ⟨ha, hrest⟩ := List.forall_mem_cons.mp hissues
    obtain ⟨sess₁, hrow₁, hle₁, hsame₁⟩ := row_step hid happly ha hrow
    obtain ⟨sess₂, hrow₂, hle₂, hsame₂⟩ := ih hmid hrest hrow₁
    refine ⟨sess₂, hrow₂, UInt64.le_trans hle₁ hle₂, fun hnone => ?_⟩
    obtain ⟨hnone₁, hnone₂⟩ := List.forall_mem_cons.mp hnone
    obtain rfl := hsame₁ hnone₁
    exact hsame₂ hnone₂

/-- A repeated command finds its row at or above its own sequence. -/
theorem cached_of_row {s : StateMachine} {cmd : Command} {sess : Session} (hid : cmd.clientId ≠ 0)
    (hrow : s.sessions cmd.clientId = some sess) (hle : cmd.seq ≤ sess.seq) :
    s.cached cmd = some sess.result := by
  rw [StateMachine.cached_eq hid hrow, if_pos hle]

/-- EXACTLY ONCE.  Let the entry `a` of client `c ≠ 0` have been executed, and let no Register be run at
log index `c` from `a` on up to a repetition `b` of its sequence.  Then `b` changes no user key and no
shard state, and it answers what `a` answered unless a higher sequence of `c` was run in between. -/
theorem exactly_once_sessions (c : Codec) (events : List Event) (s : StateMachine)
    (pre mid post : List Applied) (a b : Applied)
    (hrun : (replica c).run {} events = some (s, pre ++ a :: (mid ++ b :: post)))
    (hissues : ∀ k ∈ a :: mid, ¬k.Issues a.cmd.clientId)
    (hclient : a.cmd.clientId ≠ 0) (hexec : a.Executed)
    (hsame : b.cmd.clientId = a.cmd.clientId ∧ b.cmd.seq = a.cmd.seq) :
    (∀ key, b.after.get key = b.before.get key) ∧ b.after.shards = b.before.shards ∧
    ((∀ k ∈ mid, k.cmd.clientId = a.cmd.clientId → a.cmd.seq < k.cmd.seq →
        ¬k.Executed ∧ ¬k.Refused) → b.result = a.result) := by
  -- the chain of entries: `a`, the stretch between, `b`
  obtain ⟨_, -, rfl, ha, hrest⟩ := follows_append.mp (run_follows StateMachine.loaded_empty hrun)
  obtain ⟨_, hmid, rfl, hb, -⟩ := follows_append.mp hrest
  obtain ⟨haissues, hmidissues⟩ := List.forall_mem_cons.mp hissues
  -- the row `a` leaves is still there, or a higher one, when `b` arrives
  have hrow := StateMachine.sessions_of_run c a.cmd.clientId hexec.1
    fun ⟨hop, hindex⟩ => haissues ⟨hexec.1, hop, hindex⟩
  rw [if_pos ⟨hclient, rfl⟩, ha] at hrow
  obtain ⟨sess, hrowb, hle, hkept⟩ := row_along hclient hmid hmidissues hrow
  have hcached : b.before.cached b.cmd = some sess.result := by
    refine cached_of_row (hsame.1 ▸ hclient) (hsame.1 ▸ hrowb) ?_
    rw [hsame.2]
    exact hle
  rw [StateMachine.applyCommand_of_cached hcached] at hb
  obtain ⟨hafter, hresult⟩ := Prod.mk.inj hb
  refine ⟨?_, ?_, ?_⟩
  · intro key
    rw [← hafter]
    simp [StateMachine.get, (userKey_ne_appliedKey key).symm]
  · rw [← hafter]
  · intro hnone
    rw [← hresult, hkept]
    intro k hk hid hlt hkcached
    obtain ⟨hne, hnr⟩ := hnone k hk hid hlt
    cases hrefuses : k.before.refuses k.cmd.op with
    | true => exact hnr ⟨hkcached, hrefuses⟩
    | false => exact hne ⟨hkcached, hrefuses⟩

/-! ## Sample runs. -/

/-- Commands of client 2, whose id another group issued, a Register, a Put without a session and a
Freeze of the shard of `a`. -/
def sampleCodec : Codec := tableCodec [⟨2, 1, .put [0x61] [0x31]⟩, ⟨0, 0, .register⟩,
  ⟨0, 0, .put [0x61] [0x32]⟩, ⟨2, 2, .put [0x61] [0x33]⟩, ⟨0, 0, .freeze (shardOf [0x61])⟩]

/-- The commands of these numbers as a log. -/
def sampleLog (numbers : List UInt8) : List Event :=
  numbers.zipIdx.map fun (n, i) => .entry ⟨UInt64.ofNat (i + 1), [n]⟩

/-- What a run of such a log shows. -/
def sampleRun (numbers : List UInt8) : Option (StateMachine × List Applied) :=
  (replica sampleCodec).run {} (sampleLog numbers)

/-- A SESSION ROW LOST.  Client 2's Put is executed and overwritten; a Register at log index 2 opens row
2 anew, and the repeated Put writes its value again.  And a higher sequence that is only refused takes
the place of the answer: after the Freeze, repeating the first Put returns `Moving`. -/
theorem session_row_lost :
    (∃ s a k k' b, sampleRun [0, 1, 2, 0] = some (s, [a, k, k', b]) ∧
      a.Executed ∧ a.cmd.clientId ≠ 0 ∧ b.cmd = a.cmd ∧
      b.before.get [0x61] = some [0x32] ∧ b.after.get [0x61] = some [0x31]) ∧
    (∃ s a k k' b, sampleRun [0, 4, 3, 0] = some (s, [a, k, k', b]) ∧
      a.Executed ∧ a.cmd.clientId ≠ 0 ∧ b.cmd = a.cmd ∧
      (∀ x ∈ [k, k'], ¬(x.cmd.clientId = a.cmd.clientId ∧ x.Executed)) ∧ b.result ≠ a.result) := by
  refine ⟨⟨_, _, _, _, _, rfl, ?_⟩, ⟨_, _, _, _, _, rfl, ?_⟩⟩
  · decide +kernel
  · decide +kernel

/-- The same Put repeated after another client's write, a Register of another id and a Freeze. -/
theorem exactly_once_sessions_repeated_put :
    ∃ s a k k' k'' b, sampleRun [0, 2, 1, 4, 0] = some (s, [a, k, k', k'', b]) ∧ k'.Issues 3 ∧
      b.before.get [0x61] = some [0x32] ∧ b.after.get [0x61] = some [0x32] ∧ b.result = a.result := by
  refine ⟨_, _, _, _, _, _, rfl, ?_, ?_, ?_, ?_⟩
  · decide +kernel
  · decide +kernel
  · rw [(exactly_once_sessions sampleCodec (sampleLog [0, 2, 1, 4, 0]) _ [] [_, _, _] [] _ _ rfl
      (by decide +kernel) (by decide +kernel) (by decide +kernel) (by decide +kernel)).1]
    decide +kernel
  · exact (exactly_once_sessions sampleCodec (sampleLog [0, 2, 1, 4, 0]) _ [] [_, _, _] [] _ _ rfl
      (by decide +kernel) (by decide +kernel) (by decide +kernel) (by decide +kernel)).2.2
      (by decide +kernel)

end Keystone.Kv
