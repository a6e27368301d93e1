/-
# Keystone.Kv.Moving — what clients see of a shard that leaves and comes back.

Two ways in which a move reaches the client of a group.  A command that is refused as `Moving` goes
through the same caching path as one that ran: `Apply` writes the refusal into the session row of its
client.  `refused_retry` says exactly when a repetition gets past that row: when a Register in between
opens the row anew, and never because the shard has come back.

A read outside the log takes the lock for its check of the shard only, and reads the engine after it
was released.  Between the two any entries may be applied.  `get_across_entries` says for which of them
the answer is one that a state in between gave, and `purged_between` has the purge that it is not.
-/
import Keystone.Kv.Effects
import Mathlib.Data.List.Induction

namespace Keystone.Kv

open Keystone.Lib
open Keystone.Storage (KVMap Batch BatchOp putOp deleteOp)
open Function (update)

/-! ## A refusal in the session row. -/

/-- The row answers sequence `q` of the client and everything below. -/
def StateMachine.Answers (s : StateMachine) (id q : UInt64) : Prop :=
  ∃ sess, s.sessions id = some sess ∧ q ≤ sess.seq

/-- A Register reissues the id, and no command of the client from `q` on is run after it. -/
def Reopened (id q : UInt64) (mid : List Applied) : Prop :=
  ∃ m₁ k m₂, mid = m₁ ++ k :: m₂ ∧ k.Issues id ∧
    ∀ x ∈ m₂, x.cmd.clientId = id → q ≤ x.cmd.seq → x.before.cached x.cmd ≠ none

namespace StateMachine

theorem cached_eq_none_iff {s : StateMachine} {cmd : Command} (hid : cmd.clientId ≠ 0) :
    s.cached cmd = none ↔ ¬s.Answers cmd.clientId cmd.seq := by
  unfold Answers
  cases hrow : s.sessions cmd.clientId with
  | none => simp [cached, hrow]
  | some sess => simp [cached_eq hid hrow]

/-- The row a Register issues is empty, also if its own client had written it before. -/
theorem sessions_of_issue (c : Codec) {s : StateMachine} {cmd : Command} {index : UInt64}
    (hindex : index ≠ 0) (h : s.cached cmd = none) (hop : cmd.op = .register) :
    (s.applyCommand c cmd index).1.sessions index = some {} := by
  unfold applyCommand
  rw [h]
  dsimp only
  unfold setSessions
  rw [execute_clientId, if_pos hop, if_pos hindex]
  exact Function.update_self ..

end StateMachine

section Row
variable {c : Codec} {x : Applied} {id q : UInt64}

theorem answers_of_issue (hid : id ≠ 0)
    (happly : x.before.applyCommand c x.cmd x.index = (x.after, x.result)) (h : x.Issues id) :
    x.after.Answers id q ↔ q = 0 := by
  obtain ⟨hcached, hop, rfl⟩ := h
  have hrow := StateMachine.sessions_of_issue c hid hcached hop
  rw [happly] at hrow
  unfold StateMachine.Answers
  rw [hrow]
  simp

/-- STEP.  Without a reissue the row answers `q` if it did before, or if the entry itself is a command
of the client from `q` on that is run. -/
theorem answers_step (hid : id ≠ 0)
    (happly : x.before.applyCommand c x.cmd x.index = (x.after, x.result)) (h : ¬x.Issues id) :
    x.after.Answers id q ↔ x.before.Answers id q ∨
      (x.cmd.clientId = id ∧ q ≤ x.cmd.seq ∧ x.before.cached x.cmd = none) := by
  cases hcached : x.before.cached x.cmd with
  | some result =>
    rw [StateMachine.applyCommand_of_cached hcached] at happly
    obtain ⟨hafter, -⟩ := Prod.mk.inj happly
    simp [StateMachine.Answers, ← hafter]
  | none =>
    have hsessions := StateMachine.sessions_of_run c id hcached
      fun ⟨hop, hindex⟩ => h ⟨hcached, hop, hindex⟩
    rw [happly] at hsessions
    by_cases hown : x.cmd.clientId = id
    · subst hown
      -- the row was below the command, so what it answered the command answers
      have hbelow := (StateMachine.cached_eq_none_iff hid).mp hcached
      rw [if_pos ⟨hid, rfl⟩] at hsessions
      have hafter : x.after.Answers x.cmd.clientId q ↔ q ≤ x.cmd.seq := by
        unfold StateMachine.Answers
        dsimp only at hsessions
        rw [hsessions]
        simp
      rw [hafter]
      constructor
      · exact fun hq => .inr ⟨rfl, hq, rfl⟩
      · rintro (⟨sess, hrow, hq⟩ | ⟨-, hq, -⟩)
        · refine UInt64.le_trans hq (UInt64.le_of_lt ?_)
          exact UInt64.not_le.mp fun hle => hbelow ⟨sess, hrow, hle⟩
        · exact hq
    · rw [if_neg fun h => hown h.2] at hsessions
      dsimp only at hsessions
      simp [StateMachine.Answers, hsessions, hown]

end Row

theorem follows_snoc {c : Codec} {as : List Applied} {x : Applied} {s s' : StateMachine} :
    Follows c s (as ++ [x]) s' ↔ Follows c s as x.before ∧
      x.before.applyCommand c x.cmd x.index = (x.after, x.result) ∧ x.after = s' := by
  rw [follows_append]
  constructor
  · rintro ⟨m, has, rfl, happly, rfl⟩
    exact ⟨has, happly, rfl⟩
  · rintro ⟨has, happly, rfl⟩
    exact ⟨x.before, has, rfl, happly, rfl⟩

/-- RUN.  A row that answers `q` goes on answering it until a Register reissues the id. -/
theorem answers_along {c : Codec} {id q : UInt64} (hid : id ≠ 0) {mid : List Applied}
    {s s' : StateMachine} (hmid : Follows c s mid s') (hs : s.Answers id q) :
    ¬s'.Answers id q ↔ q ≠ 0 ∧ Reopened id q mid := by
  induction mid using List.reverseRecOn generalizing s' with
  | nil =>
    obtain rfl := hmid
    simp [hs, Reopened]
  | append_singleton mid x ih =>
    obtain ⟨hpre, happly, rfl⟩ := follows_snoc.mp hmid
    have ih := ih hpre
    by_cases hissues : x.Issues id
    · rw [answers_of_issue hid happly hissues]
      exact ⟨fun hq => ⟨hq, mid, x, [], rfl, hissues, fun _ h => by cases h⟩, And.left⟩
    · rw [answers_step hid happly hissues, not_or, ih]
      constructor
      · rintro ⟨⟨hq, m₁, k, m₂, rfl, hk, hrest⟩, hx⟩
        refine ⟨hq, m₁, k, m₂ ++ [x], by simp, hk, fun y hy hown hle hcached => ?_⟩
        rcases List.mem_append.mp hy with hy | hy
        · exact hrest y hy hown hle hcached
        · obtain rfl := List.mem_singleton.mp hy
          exact hx ⟨hown, hle, hcached⟩
      · rintro ⟨hq, m₁, k, m₂, heq, hk, hrest⟩
        rcases List.eq_nil_or_concat m₂ with rfl | ⟨m₃, y, rfl⟩
        · -- the Register would be the last entry itself
          obtain ⟨-, hlast⟩ := List.append_inj' heq rfl
          cases hlast
          exact absurd hk hissues
        · rw [List.concat_eq_append, ← List.cons_append, ← List.append_assoc] at heq
          obtain ⟨rfl, hlast⟩ := List.append_inj' heq rfl
          cases hlast
          refine ⟨⟨hq, m₁, k, m₃, rfl, hk, fun z hz => hrest z (by simp [hz])⟩, ?_⟩
          rintro ⟨hown, hle, hcached⟩
          exact hrest x (by simp) hown hle hcached

/-- RETRIES OF A REFUSED COMMAND.  Let the entry `a` of client `c ≠ 0` be run and refused as `Moving`,
in any state, let `mid` be applied after it, and let `b` repeat its sequence when the shard of `b`'s key
is here again.  Then `b` is executed and answered with its own result exactly if a Register in `mid`
reissued the id `c` and no command of `c` from that sequence on was run after it. -/
theorem refused_retry (c : Codec) (mid : List Applied) (a b : Applied)
    (hchain : Follows c a.before (a :: (mid ++ [b])) b.after)
    (hclient : a.cmd.clientId ≠ 0) (hrefused : a.Refused)
    (hsame : b.cmd.clientId = a.cmd.clientId ∧ b.cmd.seq = a.cmd.seq)
    (hback : b.before.refuses b.cmd.op = false) :
    (b.Executed ∧ b.result = c.marshal (b.before.execute b.cmd.op b.index).res) ↔
      a.cmd.seq ≠ 0 ∧ Reopened a.cmd.clientId a.cmd.seq mid := by
  obtain ⟨-, ha, hrest⟩ := hchain
  obtain ⟨hmid, hb, -⟩ := follows_snoc.mp hrest
  -- the refusal is in the row
  have hissues : ¬a.Issues a.cmd.clientId := by
    rintro ⟨-, hop, -⟩
    have := hrefused.2
    rw [hop] at this
    cases this
  have hrow : a.after.Answers a.cmd.clientId a.cmd.seq :=
    (answers_step hclient ha hissues).mpr (.inr ⟨rfl, UInt64.le_refl _, hrefused.1⟩)
  rw [← answers_along hclient hmid hrow]
  have hcached : b.before.cached b.cmd = none ↔ ¬b.before.Answers a.cmd.clientId a.cmd.seq := by
    rw [← hsame.1, ← hsame.2]
    exact StateMachine.cached_eq_none_iff (hsame.1 ▸ hclient)
  rw [← hcached]
  constructor
  · exact fun h => h.1.1
  · intro hnone
    refine ⟨⟨hnone, hback⟩, ?_⟩
    unfold StateMachine.applyCommand at hb
    rw [hnone] at hb
    exact (Prod.mk.inj hb).2.symm

/-- The commands of a move of the shard of `a` away and back, a Put of client 4, and a Register. -/
def movingCodec : Codec := tableCodec [⟨0, 0, .freeze (shardOf [0x61])⟩, ⟨4, 1, .put [0x61] [0x31]⟩,
  ⟨0, 0, .purge (shardOf [0x61])⟩, ⟨0, 0, .register⟩,
  ⟨0, 0, .importOp (shardOf [0x61]) [([0x61], [0x30])] true⟩, ⟨0, 0, .put [0x61] [0x32]⟩]

/-- What a log of these commands shows. -/
def movingRun (numbers : List UInt8) : Option (StateMachine × List Applied) :=
  (replica movingCodec).run {} (sampleLog numbers)

/-- A REFUSAL FOR EVER.  The shard is frozen, client 4's Put is refused, the shard is purged and imported
back.  The same Put finds its shard open and is answered `Moving`, from the session row. -/
theorem refusal_outlives_move :
    ∃ s k a k₁ k₂ b, movingRun [0, 1, 2, 4, 1] = some (s, [k, a, k₁, k₂, b]) ∧
      a.cmd.clientId ≠ 0 ∧ a.Refused ∧ b.cmd = a.cmd ∧ b.before.writable [0x61] = true ∧
      ¬b.Executed ∧ b.result = movingCodec.marshal { moving := true } ∧
      b.after.get [0x61] = some [0x30] := by
  refine ⟨_, _, _, _, _, _, rfl, ?_⟩
  decide +kernel

/-- With a Register at log index 4 the row is empty again and the Put goes through. -/
theorem refused_retry_reissued :
    ∃ s k a k₁ k₂ k₃ b, movingRun [0, 1, 2, 3, 4, 1] = some (s, [k, a, k₁, k₂, k₃, b]) ∧
      b.Executed ∧ b.result = movingCodec.marshal (b.before.execute b.cmd.op b.index).res := by
  have hrun : ∃ s k a k₁ k₂ k₃ b, movingRun [0, 1, 2, 3, 4, 1] = some (s, [k, a, k₁, k₂, k₃, b]) ∧
      a.cmd.clientId ≠ 0 ∧ a.Refused ∧ (b.cmd.clientId = a.cmd.clientId ∧ b.cmd.seq = a.cmd.seq) ∧
      b.before.refuses b.cmd.op = false ∧ a.cmd.seq ≠ 0 ∧ k₂.Issues a.cmd.clientId ∧
      k₃.cmd.clientId ≠ a.cmd.clientId :=
    ⟨_, _, _, _, _, _, _, rfl, by decide +kernel⟩
  obtain ⟨s, k, a, k₁, k₂, k₃, b, hrun, hclient, hrefused, hsame, hback, hseq, hissues, hother⟩ := hrun
  refine ⟨s, k, a, k₁, k₂, k₃, b, hrun, ?_⟩
  obtain ⟨-, -, ha₀, ha, h₁, h₁', h₂, h₂', h₃, h₃', hb, hb', -⟩ :=
    run_follows StateMachine.loaded_empty hrun
  refine (refused_retry movingCodec [k₁, k₂, k₃] a b
    ⟨rfl, ha₀ ▸ ha, h₁, h₁', h₂, h₂', h₃, h₃', hb, hb', rfl⟩ hclient hrefused hsame hback).mpr
    ⟨hseq, [k₁], k₂, [k₃], rfl, hissues, fun x hx hown => ?_⟩
  rw [List.mem_singleton.mp hx] at hown
  exact absurd hown hother

/-! ## A read with entries between its check and its look at the engine. -/

namespace StateMachine

/-- `Get`: the shard is checked in `s`, under the lock, and the engine is read in `t`; `none` is
`ErrMoving`. -/
def getAcross (s t : StateMachine) (key : Bytes) : Option (Option Bytes) :=
  if s.readable key then some (t.get key) else none

/-- With nothing in between it is the read of one state. -/
theorem getAcross_self (s : StateMachine) (key : Bytes) : s.getAcross s key = s.getRead key := rfl

/-- The command does not take `key` away with its shard, and puts nothing under `key` into a shard that
is gone and stays gone. -/
def Quiet (s : StateMachine) (key : Bytes) (cmd : Command) : Prop :=
  s.cached cmd = none →
    match cmd.op with
    | .purge n => n = shardOf key → s.get key = none
    | .importOp n kvs last =>
      s.readable key = false → s.complete n = false →
        (∀ v, (key, v) ∉ kvs) ∨ (n = shardOf key ∧ last = true)
    | _ => True

variable {c : Codec} {s : StateMachine} {cmd : Command} {index : UInt64} {key : Bytes}

theorem readable_congr {t : StateMachine} (h : t.shards = s.shards) :
    t.readable key = s.readable key := by
  unfold readable shardState
  rw [h]

/-- A client's command that changes `key` finds its shard here, and leaves it here. -/
theorem client_reads {k : Bytes} (hkey : clientKey cmd.op = some k) (hcached : s.cached cmd = none) :
    (s.applyCommand c cmd index).1.readable key = true ∨
      (s.applyCommand c cmd index).1.get key = s.get key := by
  cases hrefuses : s.refuses cmd.op with
  | true => exact .inr (get_of_refused hcached hrefuses key)
  | false =>
    by_cases hk : key = k
    · subst hk
      left
      rw [readable_congr (shards_client hkey)]
      cases hop : cmd.op with
      | get key' =>
        rw [hop] at hkey hrefuses
        cases hkey
        simpa [refuses] using hrefuses
      | put key' value | delete key' | cas key' expected value =>
        rw [hop] at hkey hrefuses
        cases hkey
        have hw : s.shardState (shardOf key) = .shardOpen := by
          simpa [refuses, writable] using hrefuses
        simp [readable, hw]
      | _ => simp [hop, clientKey] at hkey
    · right
      rw [get_client hkey hcached hrefuses, written_of_ne hkey hk]

theorem readable_import (n : Nat) (kvs : List (Bytes × Bytes)) (last : Bool) :
    (s.applyCommand c ⟨0, 0, .importOp n kvs last⟩ index).1.readable key =
      (s.readable key || (!s.complete n && last && n = shardOf key)) := by
  unfold readable shardState
  rw [shards_import]
  by_cases hn : n = shardOf key
  · subst hn
    split
    next h => simp [h.1, h.2]
    next h =>
      rw [not_and] at h
      cases hc : s.complete (shardOf key) with
      | true => simp
      | false => simp [h hc]
  · split
    · simp [Function.update_of_ne (Ne.symm hn), hn]
    · simp [hn]

/-- STEP.  After a quiet command the shard of `key` is here, or `key` has the value it had. -/
theorem quiet_step (h : s.Quiet key cmd) :
    (s.applyCommand c cmd index).1.readable key = true ∨
      (s.applyCommand c cmd index).1.get key = s.get key := by
  cases hcached : s.cached cmd with
  | some result => exact .inr (get_of_cached hcached key)
  | none =>
    have hquiet := h hcached
    have hget : (s.applyCommand c cmd index).1.get key = _ := get_anonymous hcached key
    have hshards : (s.applyCommand c cmd index).1.shards = _ := shards_anonymous hcached
    cases hop : cmd.op with
    | put k value | delete k | cas k expected value | get k =>
      exact client_reads (by rw [hop]; rfl) hcached
    | none | register | scan start stop limit maxBytes =>
      right
      rw [get_of_run hcached, hop]
      rfl
    | freeze n =>
      right
      rw [hget, hop]
      exact get_freeze n key
    | purge n =>
      right
      rw [hget, hop, get_purge]
      rw [hop] at hquiet
      split
      next hn => exact (hquiet hn.symm).symm
      next => rfl
    | importOp n kvs last =>
      rw [hop] at hquiet hget hshards
      rw [hget]
      cases hcomplete : s.complete n with
      | true => exact .inr (get_import_of_complete n kvs last hcomplete key)
      | false =>
        rcases get_import_of_not n kvs last hcomplete key with ⟨v, hv, -⟩ | ⟨-, hsame⟩
        · -- the chunk has the key: the shard was here, or this is its last chunk
          left
          rw [readable_congr hshards, readable_import]
          cases hreadable : s.readable key with
          | true => rfl
          | false =>
            rcases hquiet hreadable hcomplete with hnot | ⟨rfl, rfl⟩
            · exact absurd hv (hnot v)
            · simp [hcomplete]
        · exact .inr hsame

end StateMachine

/-- READS ACROSS A MOVE.  Let `Get` check the shard of `key` in `s`, let quiet entries be applied, and
let it then read the engine in `t`.  What it answers is what `key` had in one of the states from `s` to
`t` in which its shard was not gone. -/
theorem get_across_entries (c : Codec) (s t : StateMachine) (es : List Applied) (key : Bytes)
    (v : Option Bytes) (hes : Follows c s es t) (hquiet : ∀ x ∈ es, x.before.Quiet key x.cmd)
    (hget : s.getAcross t key = some v) :
    ∃ u ∈ s :: es.map Applied.after, u.readable key = true ∧ u.get key = v := by
  unfold StateMachine.getAcross at hget
  split at hget
  · next hreadable =>
    obtain rfl := Option.some.inj hget
    clear hget
    -- the state the answer is from: the current one, or the one the last entry carries over
    induction es using List.reverseRecOn generalizing t with
    | nil =>
      obtain rfl := hes
      exact ⟨s, by simp, hreadable, rfl⟩
    | append_singleton es x ih =>
      obtain ⟨hpre, happly, rfl⟩ := follows_snoc.mp hes
      have hstep := @StateMachine.quiet_step c x.before x.cmd x.index key (hquiet x (by simp))
      rw [happly] at hstep
      rcases hstep with hhere | hsame
      · exact ⟨x.after, by simp, hhere, rfl⟩
      · obtain ⟨u, hu, hur, huv⟩ := ih x.before hpre fun y hy => hquiet y (by simp [hy])
        refine ⟨u, ?_, hur, huv.trans hsame.symm⟩
        rw [List.map_append, ← List.cons_append]
        exact List.mem_append_left _ hu
  · cases hget

/-- A KEY GONE WITH ITS SHARD.  The key `a` has a value as long as its shard is here.  A Purge between
the check and the look at the engine makes `Get` answer that there is no such key. -/
theorem purged_between :
    ∃ s p x, movingRun [5, 2] = some (s, [p, x]) ∧ Follows movingCodec x.before [x] x.after ∧
      x.before.getAcross x.after [0x61] = some none ∧
      ∀ u ∈ [x.before, x.after], u.readable [0x61] = true → u.get [0x61] ≠ none := by
  have hrun : ∃ s p x, movingRun [5, 2] = some (s, [p, x]) ∧
      x.before.getAcross x.after [0x61] = some none ∧
      ∀ u ∈ [x.before, x.after], u.readable [0x61] = true → u.get [0x61] ≠ none :=
    ⟨_, _, _, rfl, by decide +kernel⟩
  obtain ⟨s, p, x, hrun, hget, hstates⟩ := hrun
  obtain ⟨-, -, hx₀, hx, -⟩ := run_follows StateMachine.loaded_empty hrun
  exact ⟨s, p, x, hrun, ⟨rfl, hx₀ ▸ hx, rfl⟩, hget, hstates⟩

/-- A Purge while the shard has nothing, and the Import that brings the key, between the two. -/
theorem get_across_entries_imported :
    ∃ s x y, movingRun [2, 4] = some (s, [x, y]) ∧ x.after.readable [0x61] = false ∧
      x.before.getAcross y.after [0x61] = some (some [0x30]) ∧
      ∃ u ∈ [x.before, x.after, y.after], u.readable [0x61] = true ∧ u.get [0x61] = some [0x30] := by
  have hrun : ∃ s x y, movingRun [2, 4] = some (s, [x, y]) ∧ x.after.readable [0x61] = false ∧
      x.before.getAcross y.after [0x61] = some (some [0x30]) ∧ x.before.get [0x61] = none ∧
      x.cmd.op = .purge (shardOf [0x61]) ∧
      y.cmd.op = .importOp (shardOf [0x61]) [([0x61], [0x30])] true :=
    ⟨_, _, _, rfl, by decide +kernel⟩
  obtain ⟨s, x, y, hrun, hgone, hget, hnone, hx, hy⟩ := hrun
  obtain ⟨hx₀, hxa, hy₀, hya, -⟩ := run_follows StateMachine.loaded_empty hrun
  refine ⟨s, x, y, hrun, hgone, hget, get_across_entries movingCodec x.before y.after [x, y] [0x61]
    (some [0x30]) ⟨rfl, hx₀ ▸ hxa, hy₀, hya, rfl⟩ (fun z hz => ?_) hget⟩
  unfold StateMachine.Quiet
  rcases List.mem_cons.mp hz with rfl | hz
  · rw [hx]
    exact fun _ _ => hnone
  · rw [List.mem_singleton.mp hz, hy]
    exact fun _ _ _ => .inr ⟨rfl, rfl⟩

end Keystone.Kv
