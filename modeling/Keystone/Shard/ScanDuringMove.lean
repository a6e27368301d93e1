/-
# Keystone.Shard.ScanDuringMove — a routed scan while a shard moves.

Between the first chunk that lands and the purge, two groups hold the same keys, and the merge of a
routed scan does not compare them: such a scan returns a key twice (`key_listed_twice`).  Outside that
stretch the groups hold different keys.  What a group holds belongs to the moving shard or to a shard the
map gives to the group (`Placed`), the source holds nothing of the shard once it is gone, and the
destination nothing before a chunk has landed; so a scan that meets the source after its purge, or the
destination before the first chunk, lists no key twice, whenever the groups answer.
-/
import Keystone.Shard.RoutedScan
import Keystone.Shard.TransferSafety

namespace Keystone.Shard

open Keystone.Lib
open Keystone.Kv (Bytes Codec Command Op Result StateMachine ShardState shardOf)

variable {c : Codec} {n : Nat} {serves : Side → Nat → Prop} {truth : Bytes → Option Bytes}
  {w w' : Transfer}

/-- No chunk of the shard has landed at the destination. -/
def NoneLanded (w : Transfer) : Prop := ∀ kvs last, (Request.importChunk kvs last, true) ∉ w.answered

/-- The shards whose keys a group may hold: the moving one, and those the map gives to it. -/
def Placed (n : Nat) (serves : Side → Nat → Prop) (side : Side) (s : StateMachine) : Prop :=
  ∀ k, s.get k ≠ none → shardOf k = n ∨ serves side (shardOf k)

/-- `Router.forward`: a client's command goes to the group that serves its key. -/
def Routed (n : Nat) (serves : Side → Nat → Prop) : Happening → Prop
  | .client side cmd _ =>
    ∀ key, StateMachine.clientKey cmd.op = some key → shardOf key = n ∨ serves side (shardOf key)
  | _ => True

/-- What the two groups hold during the move. -/
structure Held (n : Nat) (serves : Side → Nat → Prop) (w : Transfer) : Prop where
  source : Placed n serves .source w.source
  dest : Placed n serves .dest w.dest
  gone : Gone n w → ∀ k, shardOf k = n → w.source.get k = none
  early : NoneLanded w → ∀ k, shardOf k = n → w.dest.get k = none

/-! ## Steps. -/

/-- A step of a mover leaves the groups and their answers. -/
theorem Held.mover (h : Held n serves w) (hsource : w'.source = w.source) (hdest : w'.dest = w.dest)
    (hanswered : w'.answered = w.answered) : Held n serves w' := by
  refine ⟨hsource ▸ h.source, hdest ▸ h.dest, ?_, ?_⟩
  · unfold Gone
    rw [hsource]
    exact h.gone
  · unfold NoneLanded
    rw [hdest, hanswered]
    exact h.early

/-- A client's command leaves the other keys. -/
theorem get_client_of_ne {s : StateMachine} {cmd : Command} {index : UInt64} {key k : Bytes}
    (hkey : StateMachine.clientKey cmd.op = some key) (hk : k ≠ key) :
    (s.applyCommand c cmd index).1.get k = s.get k := by
  rw [get_client_observe .source s index hkey]
  exact lastWrite_observe_of_ne .source s index hkey hk

theorem Placed.client {side : Side} {s : StateMachine} (h : Placed n serves side s) {cmd : Command}
    {index : UInt64} {key : Bytes} (hkey : StateMachine.clientKey cmd.op = some key)
    (hrouted : shardOf key = n ∨ serves side (shardOf key)) :
    Placed n serves side (s.applyCommand c cmd index).1 := by
  intro k hk
  by_cases hne : k = key
  · exact hne ▸ hrouted
  · rw [get_client_of_ne hkey hne] at hk
    exact h k hk

theorem Held.client_source (h : Held n serves w) {cmd : Command} {index : UInt64} {key : Bytes}
    (hkey : StateMachine.clientKey cmd.op = some key)
    (hrouted : shardOf key = n ∨ serves .source (shardOf key)) :
    Held n serves { w with source := (w.source.applyCommand c cmd index).1 } := by
  refine ⟨h.source.client hkey hrouted, h.dest, fun hgone k hk => ?_, h.early⟩
  have hgone' : Gone n w := by
    unfold Gone at hgone ⊢
    rw [← hgone]
    exact congrFun (StateMachine.shards_client hkey).symm n
  show (w.source.applyCommand c cmd index).1.get k = none
  rw [get_client_observe .source w.source index hkey,
    lastWrite_observe_of_stopped .source index hkey hgone'.stopped hk]
  exact h.gone hgone' k hk

theorem Held.client_dest (h : Held n serves w) (hok : MoveOK n truth w) {cmd : Command}
    {index : UInt64} {key : Bytes} (hkey : StateMachine.clientKey cmd.op = some key)
    (hrouted : shardOf key = n ∨ serves .dest (shardOf key))
    (hmap : shardOf key = n → w.flipped = true) :
    Held n serves { w with dest := (w.dest.applyCommand c cmd index).1 } := by
  refine ⟨h.source, h.dest.client hkey hrouted, h.gone, fun hearly k hk => ?_⟩
  show (w.dest.applyCommand c cmd index).1.get k = none
  by_cases hne : k = key
  · -- the new map entry is there only after a last chunk has landed
    subst hne
    have hgone := hok.both.flipped (hmap hk)
    have hopened : Opened n w := by
      by_contra hclosed
      exact hok.both.kept hclosed hgone
    obtain ⟨kvs, hlanded⟩ := hok.both.landed hopened
    exact absurd hlanded (hearly kvs true)
  · rw [get_client_of_ne hkey hne]
    exact h.early hearly k hk

/-- A request of a mover arrives. -/
theorem Held.apply (h : Held n serves w) (hok : MoveOK n truth w) (index : UInt64) {q : Request}
    (hq : q ∈ w.sent) :
    Held n serves
      { w.setGroup q.side ((w.group q.side).applyCommand c ⟨0, 0, q.op n⟩ index).1 with
        answered := w.answered ++ [(q, ((w.group q.side).execute (q.op n) index).res.success)] } := by
  have hearly : ∀ {success : Bool}, (∀ kvs last, (Request.importChunk kvs last, true) ∉
      w.answered ++ [(q, success)]) → NoneLanded w :=
    fun hnone kvs last hmem => hnone kvs last (List.mem_append_left _ hmem)
  cases q with
  | freeze =>
    have hget : ∀ k, (w.source.applyCommand c ⟨0, 0, .freeze n⟩ index).1.get k = w.source.get k :=
      StateMachine.get_freeze n
    have hgone : (w.source.applyCommand c ⟨0, 0, .freeze n⟩ index).1.shards n = some .shardGone →
        Gone n w := by
      rw [StateMachine.shards_freeze]
      split
      · exact id
      · simp
    refine ⟨fun k hk => h.source k (hget k ▸ hk), h.dest, fun hg k hk => ?_,
      fun hnone => h.early (hearly hnone)⟩
    exact (hget k).trans (h.gone (hgone hg) k hk)
  | purge =>
    have hget : ∀ k, (w.source.applyCommand c ⟨0, 0, .purge n⟩ index).1.get k = _ :=
      StateMachine.get_purge n
    refine ⟨fun k hk => ?_, h.dest, fun _ k hk => ?_, fun hnone => h.early (hearly hnone)⟩
    · have hk' : (w.source.applyCommand c ⟨0, 0, .purge n⟩ index).1.get k ≠ none := hk
      rw [hget] at hk'
      split at hk'
      · next hn => exact .inl hn
      · exact h.source k hk'
    · exact (hget k).trans (if_pos hk)
  | importChunk kvs last =>
    cases hcomplete : w.dest.complete n with
    | true =>
      have hget : ∀ k, (w.dest.applyCommand c ⟨0, 0, .importOp n kvs last⟩ index).1.get k =
          w.dest.get k := StateMachine.get_import_of_complete n kvs last hcomplete
      refine ⟨h.source, fun k hk => h.dest k (hget k ▸ hk), h.gone, fun hnone k hk => ?_⟩
      exact (hget k).trans (h.early (hearly hnone) k hk)
    | false =>
      have hclosed : ¬Opened n w := fun ho => by
        rw [hok.both.complete_eq.mpr ho] at hcomplete
        cases hcomplete
      refine ⟨h.source, fun k hk => ?_, h.gone, fun hnone => ?_⟩
      · rcases StateMachine.get_import_of_not n kvs last hcomplete k with ⟨v, hv, -⟩ | ⟨-, hsame⟩
        · exact .inl (((hok.sent _ hq).2 hclosed).1 k v hv).1
        · exact h.dest k (hsame ▸ hk)
      · -- this chunk has landed
        have hsuccess : (w.dest.execute (.importOp n kvs last) index).res.success = true := by
          rw [StateMachine.success_import, hcomplete]
          rfl
        refine absurd ?_ (hnone kvs last)
        show (Request.importChunk kvs last, true) ∈ w.answered ++
          [(.importChunk kvs last, (w.dest.execute (.importOp n kvs last) index).res.success)]
        rw [hsuccess]
        simp

/-- A page of the source changes nothing. -/
theorem Held.scanPage (h : Held n serves w) (p : Nat) (index : UInt64) (start : Bytes)
    (chunk : List (Bytes × Bytes)) : Held n serves (w.scanPage c p index start chunk) := by
  have hcached : w.source.cached ⟨0, 0, .scan start [] importChunk maxRequestBytes⟩ = none :=
    StateMachine.cached_of_no_client rfl
  have hscanned : Held n serves { w with source :=
      (w.source.applyCommand c ⟨0, 0, .scan start [] importChunk maxRequestBytes⟩ index).1 } := by
    have hget : ∀ k, (w.source.applyCommand c ⟨0, 0, .scan start [] importChunk maxRequestBytes⟩
        index).1.get k = w.source.get k := StateMachine.get_of_run hcached
    have hshards : (w.source.applyCommand c ⟨0, 0, .scan start [] importChunk maxRequestBytes⟩
        index).1.shards = w.source.shards := StateMachine.shards_of_run hcached
    refine ⟨fun k hk => h.source k (hget k ▸ hk), h.dest, fun hg k hk => ?_, h.early⟩
    unfold Gone at hg
    exact (hget k).trans (h.gone ((congrFun hshards n).symm.trans hg) k hk)
  unfold Transfer.scanPage
  dsimp only
  split
  · exact hscanned.mover rfl rfl rfl
  · exact hscanned.mover rfl rfl rfl

theorem Held.goOn (h : Held n serves w) {p : Nat} {success : Bool}
    (hgo : w.goOn p success = some w') : Held n serves w' := by
  unfold Transfer.goOn at hgo
  split at hgo
  · split at hgo
    · exact Option.some.inj hgo ▸ h.mover rfl rfl rfl
    · cases hgo
  · split at hgo
    · split at hgo
      · exact Option.some.inj hgo ▸ h.mover rfl rfl rfl
      · exact Option.some.inj hgo ▸ h.mover rfl rfl rfl
    · cases hgo
  · split at hgo
    · exact Option.some.inj hgo ▸ h.mover rfl rfl rfl
    · cases hgo
  · cases hgo

theorem Held.takePair (h : Held n serves w) (p : Nat) (start : Bytes) (pair : Bytes × Bytes)
    (page chunk : List (Bytes × Bytes)) : Held n serves (w.takePair n p start pair page chunk) := by
  unfold Transfer.takePair
  split
  · exact h.mover rfl rfl rfl
  · split
    · exact h.mover rfl rfl rfl
    · exact h.mover rfl rfl rfl

/-- STEP. -/
theorem held_exec {e : Happening} {os : List Executed} (h : Held n serves w)
    (hok : MoveOK n truth w) (hrouted : Routed n serves e)
    (hexec : (transfer c n).exec w e = some (w', os)) : Held n serves w' := by
  cases e with
  | begin p =>
    simp only [transfer] at hexec
    split at hexec
    · exact (Prod.mk.inj (Option.some.inj hexec)).1 ▸ h.mover rfl rfl rfl
    · cases hexec
  | apply i index =>
    obtain ⟨q, hq, heq⟩ := Option.map_eq_some_iff.mp hexec
    exact (Prod.mk.inj heq).1 ▸ h.apply hok index (List.mem_of_getElem? hq)
  | answer p success =>
    obtain ⟨w₁, hgo, heq⟩ := Option.map_eq_some_iff.mp hexec
    exact (Prod.mk.inj heq).1 ▸ h.goOn hgo
  | scan p index =>
    simp only [transfer] at hexec
    split at hexec
    · exact (Prod.mk.inj (Option.some.inj hexec)).1 ▸ h.scanPage ..
    · cases hexec
  | take p =>
    simp only [transfer] at hexec
    split at hexec
    · exact (Prod.mk.inj (Option.some.inj hexec)).1 ▸ h.takePair ..
    · cases hexec
  | client side cmd index =>
    simp only [transfer] at hexec
    split at hexec
    · cases hexec
    · next key hkey =>
      split at hexec
      · cases hexec
      · next hroute =>
        obtain ⟨rfl, -⟩ := Prod.mk.inj (Option.some.inj hexec)
        cases side with
        | source => exact h.client_source hkey (hrouted key hkey)
        | dest =>
          refine h.client_dest hok hkey (hrouted key hkey) fun hk => ?_
          cases hf : w.flipped with
          | true => rfl
          | false => exact absurd ⟨rfl, hk, hf⟩ hroute
  | stop p => exact (Prod.mk.inj (Option.some.inj hexec)).1 ▸ h.mover rfl rfl rfl

/-- RUN. -/
theorem held_run {events : List Happening} {os : List Executed} (h : Held n serves w)
    (hok : MoveOK n truth w) (hrouted : ∀ e ∈ events, Routed n serves e)
    (hrun : (transfer c n).run w events = some (w', os)) : Held n serves w' := by
  induction events generalizing w truth os with
  | nil =>
    obtain ⟨rfl, -⟩ := Prod.mk.inj (Option.some.inj hrun)
    exact h
  | cons e events ih =>
    obtain ⟨w₁, os₁, os₂, hexec, hrest, -⟩ := Machine.run_cons hrun
    rw [List.forall_mem_cons] at hrouted
    exact ih (held_exec h hok hrouted.1 hexec) (moveOK_exec hok hexec) hrouted.2 hrest

/-! ## The scan. -/

/-- NO KEY TWICE.  Let the map give no shard to both groups of the move, let the other groups hold keys
of other shards only, and let clients follow the map.  Take two moments `w` and `w'` of a run of the move,
one after the other or the same.  Whatever groups and moments the parts of a routed scan come from, its
result is in strictly ascending order, provided that the source answers when the shard is gone there, or
the destination when no chunk of it has landed. -/
theorem scan_during_move (σ : Sorter) (req : ScanRequest) (c : Codec) (n : Nat)
    (serves : Side → Nat → Prop) (source dest : StateMachine) (others groups : List StateMachine)
    (events events' : List Happening) (w w' : Transfer) (os os' : List Executed)
    (hserves : ∀ m, ¬(serves .source m ∧ serves .dest m)) (hstart : Start n source dest)
    (hsource : Placed n serves .source source) (hdest : Placed n serves .dest dest)
    (hothers : Apart others ∧ ∀ t ∈ others, ∀ k, t.get k ≠ none → shardOf k ≠ n ∧
      ¬serves .source (shardOf k) ∧ ¬serves .dest (shardOf k))
    (hrouted : ∀ e ∈ events ++ events', Routed n serves e)
    (hrun : (transfer c n).run { source, dest } events = some (w, os))
    (hrun' : (transfer c n).run w events' = some (w', os')) :
    ∀ ws ∈ [w, w'], ∀ wd ∈ [w, w'], groups.Perm (ws.source :: wd.dest :: others) →
      (Gone n ws ∨ NoneLanded wd) → Ascending (routerScan σ req groups) := by
  have hok := moveOK_start hstart
  have hheld : Held n serves { source, dest } :=
    ⟨hsource, hdest, fun hg => absurd hg hstart.holds, fun _ => hstart.empty⟩
  have hw := held_run hheld hok (fun e he => hrouted e (List.mem_append_left _ he)) hrun
  have hw' := held_run hw (moveOK_run hok hrun)
    (fun e he => hrouted e (List.mem_append_right _ he)) hrun'
  have hboth : ∀ u ∈ [w, w'], Held n serves u := by
    intro u hu
    rcases List.mem_pair.mp hu with rfl | rfl
    · exact hw
    · exact hw'
  intro ws hws wd hwd hgroups hapart
  have hs := hboth ws hws
  have hd := hboth wd hwd
  have hshard : ∀ k, shardOf k = n → ws.source.get k = none ∨ wd.dest.get k = none := fun k hn =>
    hapart.imp (fun hgone => hs.gone hgone k hn) (fun hearly => hd.early hearly k hn)
  -- a key of both would be a key of the shard, or of a shard that both serve
  have happart : Apart (ws.source :: wd.dest :: others) := by
    refine List.pairwise_cons.mpr ⟨fun t ht k => ?_, List.pairwise_cons.mpr ⟨fun t ht k => ?_, hothers.1⟩⟩
    · by_contra hnone
      push Not at hnone
      rcases List.mem_cons.mp ht with rfl | ht
      · have hn : shardOf k ≠ n := fun hn => (hshard k hn).elim hnone.1 hnone.2
        exact hserves _ ⟨(hs.source k hnone.1).resolve_left hn, (hd.dest k hnone.2).resolve_left hn⟩
      · obtain ⟨hn, hsrv, -⟩ := hothers.2 t ht k hnone.2
        exact (hs.source k hnone.1).elim hn hsrv
    · by_contra hnone
      push Not at hnone
      obtain ⟨hn, -, hdsv⟩ := hothers.2 t ht k hnone.2
      exact (hd.dest k hnone.1).elim hn hdsv
  have hperm : Apart groups := by
    unfold Apart at happart ⊢
    exact hgroups.symm.pairwise happart fun h k => (h k).symm
  exact hperm.merged.sublist routerScan_initial.sublist

/-- A KEY LISTED TWICE.  In the sample move the chunk with `a` has landed and the source is not purged
yet: a scan returns `a` from both groups. -/
theorem key_listed_twice :
    ∃ w os, (transfer (Kv.tableCodec []) (shardOf [0x61])).run { source := sampleSource, dest := {} }
        (sampleMove.take 7) = some (w, os) ∧
      ∀ σ : Sorter, ¬Ascending (routerScan σ {} [w.source, w.dest]) := by
  have hparts : ((transfer (Kv.tableCodec []) (shardOf [0x61])).run
      { source := sampleSource, dest := {} } (sampleMove.take 7)).map (fun r =>
        [r.1.source, r.1.dest].flatMap (ScanRequest.part {})) =
      some [([0x61], [0x31]), ([0x61], [0x31])] := by decide +kernel
  obtain ⟨⟨w, os⟩, hrun, hparts⟩ := Option.map_eq_some_iff.mp hparts
  refine ⟨w, os, hrun, fun σ hasc => ?_⟩
  have hnodup := hasc.nodup
  rw [routerScan_eq, if_pos rfl, hparts, (σ.perm _).nodup_iff] at hnodup
  exact absurd hnodup (by decide)

/-- After the whole move the two groups share no key. -/
theorem scan_during_move_done :
    Ascending (routerScan insertionSorter {} [sampleMoveEnd.1.source, sampleMoveEnd.1.dest]) := by
  have hplaced : Placed (shardOf [0x61]) (fun _ _ => False) .source sampleSource := by
    intro k hk
    by_contra hne
    refine hk ?_
    have hka : k ≠ [0x61] := fun h => hne (.inl (h ▸ rfl))
    exact (get_client_of_ne rfl hka).trans (by simp [StateMachine.get])
  refine scan_during_move insertionSorter {} (Kv.tableCodec []) (shardOf [0x61]) (fun _ _ => False)
    sampleSource {} [] _ sampleMove [] sampleMoveEnd.1 sampleMoveEnd.1 sampleMoveEnd.2 []
    (fun _ h => h.1) start_sample hplaced (fun k hk => absurd (by simp [StateMachine.get]) hk)
    ⟨List.Pairwise.nil, fun _ h => by cases h⟩ ?_ run_sampleMove rfl _ (List.mem_cons_self ..) _
    (List.mem_cons_self ..) (List.Perm.refl _) (.inl ?_)
  · intro e he
    rw [List.append_nil] at he
    cases e with
    | client side cmd index =>
      have hcmd : cmd.op = .put [0x61] [0x32] := by
        revert he
        simp only [sampleMove, List.mem_cons]
        rintro (h | h | h | h | h | h | h | h | h | h | h | h | h) <;> cases h
        rfl
      intro key hkey
      rw [hcmd] at hkey
      cases hkey
      exact .inl rfl
    | _ => trivial
  · show sampleMoveEnd.1.source.shards (shardOf [0x61]) = some .shardGone
    decide +kernel

end Keystone.Shard
