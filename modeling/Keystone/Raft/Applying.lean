/-
# Keystone.Raft.Applying — the order in which a node drives its state machine.

Between two restarts a node takes its state machine from the position it came back at to its commit
index, one entry at a time: `Served` follows the position (the applied index and the state machine's
state) through everything a node shows.  An applied entry is the next one of the log and is committed; a
`normal` one goes through `apply`, a no-op only moves the index; a restore replaces the prefix by the
snapshot the store holds; nothing else moves the position.

`Serves` is the same statement about a program of the driver, a frame in the sense of
`Keystone.Lib.Hoare`; only the restore and the apply loop do more than keep the position.
-/
import Keystone.Raft.Bounds
import Keystone.Raft.Frames

namespace Keystone.Raft

open Keystone.Lib
open Function (update)

variable {σ : Type} {sm : StateMachine σ} {cfg : Config} {S S' : Sys σ} {i : NodeID}

/-! ## Positions. -/

/-- How far the state machine of a node is. -/
def Node.position (n : Node σ) : ℕ × σ := (n.applied, n.sm)

def View.position (v : View σ) : ℕ × σ := v.node.position

/-- How a view follows on a position: by an applied entry, by a restore, or by neither. -/
def Follows (sm : StateMachine σ) (q : ℕ × σ) (v : View σ) : Prop :=
  match v.effect with
  | some (.apply e result) =>
    e.index = q.1 + 1 ∧ v.node.applied = e.index ∧ v.HasCommitted e.index e ∧
      if e.type = .normal then sm.apply q.2 e = (result, v.node.sm) else v.node.sm = q.2
  | some (.restore k) =>
    q.1 < k ∧ v.node.applied = k ∧ v.store.snapIdx = k ∧
      sm.restore q.2 v.store.snap = some v.node.sm
  | _ => v.position = q

/-- The views take the position from `q` to `q'`. -/
def Served (sm : StateMachine σ) : ℕ × σ → List (View σ) → ℕ × σ → Prop
  | q, [], q' => q' = q
  | q, v :: vs, q' => Follows sm q v ∧ Served sm v.position vs q'

theorem Served.append {q q' q'' : ℕ × σ} {vs ws : List (View σ)} (h : Served sm q vs q')
    (h' : Served sm q' ws q'') : Served sm q (vs ++ ws) q'' := by
  induction vs generalizing q with
  | nil =>
    obtain rfl : q' = q := h
    exact h'
  | cons v vs ih => exact ⟨h.1, ih h.2⟩

/-- What was served in a whole was served in every first part of it. -/
theorem Served.take {q q' : ℕ × σ} {vs : List (View σ)} (h : Served sm q vs q') (k : ℕ) :
    ∃ q'', Served sm q (vs.take k) q'' := by
  induction vs generalizing q k with
  | nil => exact ⟨q, by rw [List.take_nil]; rfl⟩
  | cons v vs ih =>
    cases k with
    | zero => exact ⟨q, rfl⟩
    | succ k =>
      obtain ⟨q'', h''⟩ := ih h.2 k
      exact ⟨q'', h.1, h''⟩

/-- A proposal that finishes without an error is answered right after the entry at its index was
applied, with the result of that. -/
def Answered (vs : List (View σ)) : Prop :=
  ∀ pre v post p result, vs = pre ++ v :: post →
    v.effect = some (.finishProposal p result none) →
    ∃ pre' w e, pre = pre' ++ [w] ∧ w.effect = some (.apply e result) ∧ e.index = p.index

/-- The effect tells a client that its proposal went through. -/
def Effect.IsAnswer : Effect → Prop
  | .finishProposal _ _ none => True
  | _ => False

theorem Answered.of_quiet {vs : List (View σ)} (h : ∀ v ∈ vs, ∀ e, v.effect = some e → ¬ e.IsAnswer) :
    Answered vs := by
  rintro pre v post p result rfl hv
  exact absurd trivial (h v (by simp) _ hv)

theorem Answered.append {vs ws : List (View σ)} (h : Answered vs) (h' : Answered ws) :
    Answered (vs ++ ws) := by
  intro pre v post p result heq hv
  rcases List.append_eq_append_iff.mp heq with ⟨mid, rfl, hmid⟩ | ⟨mid, hmid, hpost⟩
  · obtain ⟨pre', w, e, rfl, hw⟩ := h' mid v post p result hmid hv
    exact ⟨vs ++ pre', w, e, by rw [List.append_assoc], hw⟩
  · cases mid with
    | nil =>
      rw [List.append_nil] at hmid
      obtain ⟨pre', w, e, hnil, -⟩ := h' [] v post p result hpost.symm hv
      simp at hnil
    | cons v' mid =>
      obtain ⟨rfl, -⟩ := List.cons.inj hpost
      exact h pre v mid p result hmid hv

theorem Answered.take {vs : List (View σ)} (h : Answered vs) (k : ℕ) : Answered (vs.take k) := by
  intro pre v post p result heq hv
  refine h pre v (post ++ vs.drop k) p result ?_ hv
  rw [← List.cons_append, ← List.append_assoc, ← heq, List.take_append_drop]

/-- The views take the position from `q` to `q'`, and answer proposals on the way. -/
structure Driven (sm : StateMachine σ) (q : ℕ × σ) (vs : List (View σ)) (q' : ℕ × σ) : Prop where
  served : Served sm q vs q'
  answered : Answered vs

theorem Driven.nil (sm : StateMachine σ) (q : ℕ × σ) : Driven sm q [] q :=
  ⟨rfl, .of_quiet (by simp)⟩

/-- A view between two operations. -/
theorem Driven.idle {v : View σ} {q : ℕ × σ} (hv : v.effect = none) (hq : v.position = q) :
    Driven sm q [v] q := by
  refine ⟨⟨?_, hq.symm⟩, .of_quiet (by simp [hv])⟩
  unfold Follows
  rw [hv]
  exact hq

theorem Driven.append {q q' q'' : ℕ × σ} {vs ws : List (View σ)} (h : Driven sm q vs q')
    (h' : Driven sm q' ws q'') : Driven sm q (vs ++ ws) q'' :=
  ⟨h.served.append h'.served, h.answered.append h'.answered⟩

theorem Driven.take {q q' : ℕ × σ} {vs : List (View σ)} (h : Driven sm q vs q') (k : ℕ) :
    ∃ q'', Driven sm q (vs.take k) q'' := by
  obtain ⟨q'', hq⟩ := h.served.take k
  exact ⟨q'', hq, h.answered.take k⟩

/-- The program took the position of the node where its trace says. -/
def Serves (sm : StateMachine σ) (S S' : Sys σ) : Prop :=
  ∃ ps : List (Point σ), S'.trace = S.trace ++ ps ∧
    Driven sm S.node.position (ps.map (Point.view 0)) S'.node.position

theorem Serves.here (hpos : S'.node.position = S.node.position) (ht : S'.trace = S.trace) :
    Serves sm S S' :=
  ⟨[], by rw [ht, List.append_nil], by rw [hpos]; exact Driven.nil sm _⟩

instance (sm : StateMachine σ) : IsPreorder (Sys σ) (Serves sm) where
  refl _ := .here rfl rfl
  trans _ _ _ := by
    rintro ⟨ps, hps, h⟩ ⟨qs, hqs, h'⟩
    refine ⟨ps ++ qs, by rw [hqs, hps, List.append_assoc], ?_⟩
    rw [List.map_append]
    exact h.append h'

/-! ## What keeps the position. -/

theorem SameDriver.position {n n' : Node σ} (h : SameDriver n n') : n'.position = n.position := by
  unfold SameDriver at h
  rw [h]
  rfl

/-- An effect that neither applies nor restores shows the position the node has. -/
theorem follows_of_isCore {q : ℕ × σ} {v : View σ} {e : Effect} (he : v.effect = some e)
    (hcore : e.IsCore) (hq : v.position = q) : Follows sm q v := by
  unfold Follows
  rw [he]
  cases e <;> first | exact hq | exact hcore.elim

theorem Core.serves (h : Core S S') : Serves sm S S' := by
  obtain ⟨ps, hps, hall⟩ := h.trace
  refine ⟨ps, hps, ?_, .of_quiet ?_⟩
  · rw [h.node.position]
    clear hps h
    induction ps with
    | nil => rfl
    | cons p ps ih =>
      obtain ⟨hcore, hsame⟩ := hall p (List.mem_cons_self ..)
      have hq : (p.view 0).position = S.node.position := hsame.position
      refine ⟨follows_of_isCore rfl hcore hq, ?_⟩
      rw [hq]
      exact ih fun p hp => hall p (List.mem_cons_of_mem _ hp)
  · intro v hv e he hans
    obtain ⟨p, hp, rfl⟩ := List.mem_map.mp hv
    obtain rfl := Option.some.inj he
    have hcore := (hall p hp).1
    cases heff : p.effect <;> rw [heff] at hcore hans <;> first | exact hcore | exact hans

/-- The driver goes on without a new restore request. -/
structure Attends (sm : StateMachine σ) (S S' : Sys σ) : Prop where
  serves : Serves sm S S'
  restored : S'.node.r.restored = S.node.r.restored

instance (sm : StateMachine σ) : IsPreorder (Sys σ) (Attends sm) where
  refl S := ⟨refl_of (Serves sm) S, rfl⟩
  trans _ _ _ h h' := ⟨trans_of (Serves sm) h.serves h'.serves, h'.restored.trans h.restored⟩

abbrev attends (sm : StateMachine σ) : Frame Panic (Sys σ) := .keeps (Attends sm)

theorem attends_of_passive : passive.Le (attends sm) := fun h =>
  Keeps.mono h fun _ _ h => ⟨h.toCore.serves, h.restored⟩

instance : Clerical (attends sm) := .mono attends_of_passive

/-- The position moves only where `applied` and `sm` are assigned. -/
instance : Moves (attends sm) where
  move {f} h S := by
    obtain ⟨hr, hsm, happ⟩ := h S.node
    refine ⟨.here ?_ rfl, congrArg Raft.restored hr⟩
    show ((f S.node).applied, (f S.node).sm) = _
    rw [happ, hsm]
    rfl
  fail _ := ⟨⟨[_], rfl, ⟨rfl, rfl⟩, .of_quiet (by simp [Point.view, Effect.IsAnswer])⟩, rfl⟩
  read _ := ⟨⟨[_], rfl, ⟨rfl, rfl⟩, .of_quiet (by simp [Point.view, Effect.IsAnswer])⟩, rfl⟩

/-! ## The restore and the apply loop. -/

/-- The store and the core are as before, and no proposal was added to the pending ones. -/
structure Sheds (S S' : Sys σ) : Prop where
  store : S'.store = S.store
  core : S'.node.r = S.node.r
  pending : ∀ k p, S'.node.pending.lookup k = some p → S.node.pending.lookup k = some p

instance : IsPreorder (Sys σ) Sheds where
  refl _ := ⟨rfl, rfl, fun _ _ h => h⟩
  trans _ _ _ h h' := ⟨h'.store.trans h.store, h'.core.trans h.core,
    fun k p hp => h.pending k p (h'.pending k p hp)⟩

abbrev sheds : Frame Panic (Sys σ) := .keeps Sheds

theorem sheds_emit {e : Effect} : sheds.Holds (emit e : M σ Unit) := fun _ =>
  ⟨rfl, rfl, fun _ _ h => h⟩

theorem sheds_modifyNode {f : Node σ → Node σ} (hr : ∀ n, (f n).r = n.r)
    (hp : ∀ n k p, (f n).pending.lookup k = some p → n.pending.lookup k = some p) :
    sheds.Holds (modifyNode f : M σ Unit) := fun _ => ⟨rfl, hr _, hp _⟩

theorem sheds_failAll : sheds.Holds (failAll : M σ Unit) := by
  have hsame : ∀ {f : Node σ → Node σ}, (∀ n, (f n).r = n.r) → (∀ n, (f n).pending = n.pending) →
      sheds.Holds (modifyNode f : M σ Unit) := fun hr hp =>
    sheds_modifyNode hr fun n k p h => by rwa [hp] at h
  refine .bind holds_getNode fun n => .bind (.forM fun _ _ => sheds_emit) fun _ => ?_
  refine .bind (hsame (fun _ => rfl) fun _ => rfl) fun _ => ?_
  refine .bind (.forM fun x _ => .bind (sheds_modifyNode (fun _ => rfl) fun _ _ _ h =>
    lookup_of_erase h) fun _ => sheds_emit) fun _ => ?_
  refine .bind (.forM fun _ _ => sheds_emit) fun _ => ?_
  refine .bind (hsame (fun _ => rfl) fun _ => rfl) fun _ => ?_
  exact .forM fun x _ => .bind (hsame (fun _ => rfl) fun _ => rfl) fun _ =>
    .forM fun _ _ => sheds_emit

/-- Pending proposals stand under their index. -/
def Keyed (S : Sys σ) : Prop := ∀ k p, S.node.pending.lookup k = some p → p.index = k

theorem Sheds.keyed (h : Sheds S S') (hk : Keyed S) : Keyed S' :=
  fun k p hp => hk k p (h.pending k p hp)

/-- The driver loads the snapshot that the core has installed, and the request is settled. -/
theorem serves_loadRestored (hload : Loads S) :
    Wp (loadRestored sm)
      (fun _ S' => Serves sm S S' ∧ S'.store = S.store ∧ S'.node.r.restored = none ∧
        S'.node.pending = S.node.pending)
      (fun _ => Serves sm S) S := by
  simp only [loadRestored]
  rw [wp_bind, wp_getNode]
  cases hx : S.node.r.restored with
  | none => exact wp_pure.mpr ⟨refl_of (Serves sm) S, rfl, hx, rfl⟩
  | some x =>
    obtain ⟨hidx, hsnap⟩ := hload x hx
    rw [wp_bind, wp_modifyRaft, wp_when]
    have htaken : Serves sm S
        { S with node := { S.node with r := { S.node.r with restored := none } } } := .here rfl rfl
    refine ⟨fun hgt => ?_, fun _ => ⟨htaken, rfl, rfl, rfl⟩⟩
    cases hst : sm.restore S.node.sm x.data with
    | none => exact wp_throw.mpr htaken
    | some st =>
      rw [wp_bind, wp_modifyNode, wp_emit]
      refine ⟨⟨[_], rfl, ⟨⟨hgt, rfl, hidx, ?_⟩, rfl⟩, .of_quiet ?_⟩, rfl, rfl, rfl⟩
      swap
      · simp [Point.view, Effect.IsAnswer]
      show sm.restore S.node.sm S.store.snap = some st
      rw [hsnap, hst]

/-- An applied entry, and the answer to the proposal that waited for it. -/
theorem Driven.answer {q : ℕ × σ} {w v : View σ} {e : Entry} {result : Bytes} {p : Proposal}
    {err : Option Err} {result' : Bytes} (hw : w.effect = some (.apply e result))
    (hv : v.effect = some (.finishProposal p result' err)) (hf : Follows sm q w)
    (hpos : v.position = w.position) (hans : err = none → result' = result ∧ p.index = e.index) :
    Driven sm q [w, v] v.position := by
  refine ⟨⟨hf, ?_, rfl⟩, ?_⟩
  · unfold Follows
    rw [hv]
    exact hpos
  · intro pre x post p' r' heq hx
    match pre, heq with
    | [], heq =>
      obtain ⟨rfl, -⟩ := List.cons.inj heq
      rw [hw] at hx
      cases hx
    | [y], heq =>
      obtain ⟨rfl, hrest⟩ := List.cons.inj heq
      obtain ⟨rfl, -⟩ := List.cons.inj hrest
      rw [hv] at hx
      cases hx
      obtain ⟨rfl, hidx⟩ := hans rfl
      exact ⟨[], w, e, rfl, hw, hidx.symm⟩
    | y :: z :: pre, heq =>
      simp at heq

/-- STEP of the apply loop: the next committed entry reaches the state machine. -/
theorem serves_applyEntry {e : Entry} (hkey : Keyed S) (hnext : e.index = S.node.applied + 1)
    (hle : e.index ≤ S.node.r.commit) (hent : S.store.entryAt e.index = some e) :
    Wp (applyEntry sm e)
      (fun _ S' => Serves sm S S' ∧ Sheds S S' ∧ S'.node.applied = e.index)
      (fun _ => Serves sm S) S := by
  -- with or without a call of the state machine
  have key : ∀ st result,
      (if e.type = .normal then sm.apply S.node.sm e = (result, st) else st = S.node.sm) →
      Wp (do
        modifyNode fun n => { n with sm := st, applied := e.index }
        emit (.apply e result)
        settleProposal e result)
      (fun _ S' => Serves sm S S' ∧ Sheds S S' ∧ S'.node.applied = e.index)
      (fun _ => Serves sm S) S := by
    intro st result hst
    simp only [settleProposal]
    rw [wp_bind, wp_modifyNode, wp_bind, wp_emit, wp_bind, wp_getNode]
    let n₁ : Node σ := { S.node with sm := st, applied := e.index }
    have hf : Follows sm S.node.position ⟨0, some (.apply e result), n₁, S.store⟩ :=
      ⟨hnext, rfl, ⟨hle, hent⟩, hst⟩
    cases hp : S.node.pending.lookup e.index with
    | none =>
      refine ⟨⟨[_], rfl, ⟨hf, rfl⟩, .of_quiet ?_⟩, ⟨rfl, rfl, fun _ _ h => h⟩, rfl⟩
      simp [Point.view, Effect.IsAnswer]
    | some p =>
      have hsheds : ∀ k p, (S.node.pending.erase e.index).lookup k = some p →
          S.node.pending.lookup k = some p := fun _ _ h => lookup_of_erase h
      rw [wp_bind, wp_modifyNode, wp_ite]
      refine ⟨fun _ => ?_, fun _ => ?_⟩
      · -- the client learns the result of its entry
        refine ⟨⟨[_, _], List.append_assoc .., ?_⟩, ⟨rfl, rfl, hsheds⟩, rfl⟩
        exact Driven.answer rfl rfl hf rfl fun _ => ⟨rfl, hkey _ _ hp⟩
      · refine ⟨⟨[_, _], List.append_assoc .., ?_⟩, ⟨rfl, rfl, hsheds⟩, rfl⟩
        exact Driven.answer rfl rfl hf rfl fun herr => by cases herr
  simp only [applyEntry]
  rw [wp_bind, wp_getNode, wp_ite]
  refine ⟨fun hn => key _ _ ?_, fun hn => key S.node.sm [] ?_⟩
  · rw [if_pos hn]
  · rw [if_neg hn]

/-- The entries of the store carry their index. -/
def MemStore.Indexed (s : MemStore) : Prop :=
  ∀ j e, s.entries[j]? = some e → e.index = s.snapIdx + j + 1

/-- A slice of an indexed store holds consecutive entries of the store. -/
theorem MemStore.Indexed.slice {s : MemStore} (h : s.Indexed) {lo hi : ℕ} {es : List Entry}
    (hes : s.slice lo hi = .ok es) {j : ℕ} {e : Entry} (he : es[j]? = some e) :
    e.index = lo + j ∧ e.index < hi ∧ s.entryAt e.index = some e := by
  unfold MemStore.slice at hes
  split at hes
  · cases hes
  · next hlo =>
    split at hes
    · cases hes
    · obtain rfl := Except.ok.inj hes
      have hj : j < hi - lo := (List.getElem?_eq_some_iff.mp he).1.trans_le (List.length_take_le _ _)
      rw [List.getElem?_take_of_lt hj, List.getElem?_drop] at he
      have hidx := h _ _ he
      refine ⟨by omega, by omega, ?_⟩
      unfold MemStore.entryAt
      rw [if_neg (by omega), hidx, show s.snapIdx + (lo - s.snapIdx - 1 + j) + 1 - s.snapIdx - 1 =
        lo - s.snapIdx - 1 + j by omega]
      exact he

/-- A stretch of the log that follows the position is served in order. -/
theorem serves_applyEntries (es : List Entry) (hkey : Keyed S)
    (hes : ∀ j e, es[j]? = some e → e.index = S.node.applied + j + 1 ∧ e.index ≤ S.node.r.commit ∧
      S.store.entryAt e.index = some e) :
    Wp (es.forM (applyEntry sm)) (fun _ S' => Serves sm S S' ∧ Sheds S S')
      (fun _ => Serves sm S) S := by
  induction es generalizing S with
  | nil => exact wp_pure.mpr ⟨refl_of (Serves sm) S, refl_of Sheds S⟩
  | cons e es ih =>
    obtain ⟨hnext, hle, hent⟩ := hes 0 e rfl
    have hcons : (e :: es).forM (applyEntry sm) = applyEntry sm e >>= fun _ => es.forM (applyEntry sm) :=
      rfl
    rw [hcons]
    refine Wp.bind (serves_applyEntry hkey (by omega) hle hent) ?_
    rintro _ S₁ ⟨hs, hcore, happ⟩
    refine (ih (hcore.keyed hkey) ?_).mono ?_ fun _ _ h => trans_of (Serves sm) hs h
    · intro j e' he'
      obtain ⟨h1, h2, h3⟩ := hes (j + 1) e' he'
      rw [hcore.store, hcore.core]
      exact ⟨by omega, h2, h3⟩
    · rintro _ S₂ ⟨hs', hcore'⟩
      exact ⟨trans_of (Serves sm) hs hs', trans_of Sheds hcore hcore'⟩

/-- RUN of the apply loop. -/
theorem serves_applyCommitted (fuel : ℕ) (hidx : S.store.Indexed) (hkey : Keyed S) :
    Wp (applyCommitted sm fuel) (fun _ S' => Serves sm S S' ∧ Sheds S S')
      (fun _ => Serves sm S) S := by
  induction fuel generalizing S with
  | zero => exact wp_pure.mpr ⟨refl_of (Serves sm) S, refl_of Sheds S⟩
  | succ fuel ih =>
    simp only [applyCommitted]
    rw [wp_bind, wp_getNode, wp_when]
    refine ⟨fun hlt => ?_, fun _ => ⟨refl_of (Serves sm) S, refl_of Sheds S⟩⟩
    cases hslice : S.store.slice (S.node.applied + 1)
        (min S.node.r.commit (S.node.applied + applyBatch) + 1) with
    | error e =>
      simp only [readEntries, wp_bind, wp_getStore, hslice, wp_throw]
      exact refl_of (Serves sm) S
    | ok es =>
      rw [wp_bind, wp_readEntries hslice]
      refine Wp.bind (serves_applyEntries es hkey fun j e he => ?_) ?_
      · obtain ⟨h1, h2, h3⟩ := hidx.slice hslice he
        exact ⟨by omega, by omega, h3⟩
      · rintro _ S₁ ⟨hs, hcore⟩
        refine (ih (by rw [hcore.store]; exact hidx) (hcore.keyed hkey)).mono ?_
          fun _ _ h => trans_of (Serves sm) hs h
        rintro _ S₂ ⟨hs', hcore'⟩
        exact ⟨trans_of (Serves sm) hs hs', trans_of Sheds hcore hcore'⟩

/-! ## The operations. -/

/-- `advance` serves the state machine, and leaves no restore request behind. -/
theorem serves_advance (hload : Loads S) (hidx : S.store.Indexed) (hkey : Keyed S) :
    Wp (advance cfg sm) (fun _ S' => Serves sm S S' ∧ S'.node.r.restored = none)
      (fun _ => Serves sm S) S := by
  simp only [advance]
  rw [wp_bind, wp_getRaft]
  have hfail : (attends sm).Holds (when (S.node.r.state ≠ .leader) failAll : M σ Unit) :=
    .when holds_failAll
  have hshed : sheds.Holds (when (S.node.r.state ≠ .leader) failAll : M σ Unit) := .when sheds_failAll
  refine Wp.bind (((hfail S).and (hshed S)).mono (fun _ _ h => h) fun _ _ h => h.1.serves) ?_
  rintro _ S₁ ⟨⟨hs₁, -⟩, hsheds₁⟩
  have hload₁ : Loads S₁ := by
    unfold Loads
    rw [hsheds₁.store, hsheds₁.core]
    exact hload
  have hthen : ∀ {S₂ : Sys σ}, Serves sm S S₂ → ∀ {x : M σ Unit},
      Wp x (fun _ S' => Serves sm S₂ S' ∧ S'.node.r.restored = none) (fun _ => Serves sm S₂) S₂ →
      Wp x (fun _ S' => Serves sm S S' ∧ S'.node.r.restored = none) (fun _ => Serves sm S) S₂ :=
    fun hs _ hx => hx.mono (fun _ _ h => ⟨trans_of (Serves sm) hs h.1, h.2⟩)
      fun _ _ h => trans_of (Serves sm) hs h
  refine Wp.bind ((serves_loadRestored hload₁).mono (fun _ _ h => h)
    fun _ _ h => trans_of (Serves sm) hs₁ h) ?_
  rintro _ S₂ ⟨hs₂, hstore₂, hres₂, hpending₂⟩
  refine hthen (trans_of (Serves sm) hs₁ hs₂) ?_
  rw [wp_bind, wp_getNode]
  have hkey₂ : Keyed S₂ := by
    unfold Keyed
    rw [hpending₂]
    exact hsheds₁.keyed hkey
  refine Wp.bind (serves_applyCommitted _ (by rw [hstore₂, hsheds₁.store]; exact hidx) hkey₂) ?_
  rintro _ S₃ ⟨hs₃, hcore₃⟩
  have hres₃ : S₃.node.r.restored = none := by rw [hcore₃.core, hres₂]
  refine Wp.mono (Q := fun _ S' => Serves sm S₃ S' ∧ S'.node.r.restored = none)
    (R := fun _ => Serves sm S₃) ?_ (fun _ _ h => ⟨trans_of (Serves sm) hs₃ h.1, h.2⟩)
    fun _ _ h => trans_of (Serves sm) hs₃ h
  -- the rest of `advance` moves neither the position nor the request
  have hrest : (attends sm).Holds
      (do startReads cfg; collectReady; finishWaiting; maybeSnapshot cfg sm : M σ Unit) :=
    .bind (holds_startReads (attends_of_passive holds_readIndex)) fun _ => .bind holds_collectReady fun _ =>
      .bind holds_finishWaiting fun _ =>
        holds_maybeSnapshot fun S => ⟨(core_compactStore S).serves, rfl⟩
  exact (hrest S₃).mono (fun _ _ h => ⟨h.serves, h.restored.trans hres₃⟩) fun _ _ h => h.serves

/-! ## Starting a node. -/

/-- Where a node that is started with the state machine `st` takes up its work: at the position the
state machine made durable, or behind the compaction point at the store's snapshot. -/
def Resumes (sm : StateMachine σ) (st : σ) (s : MemStore) (n : Node σ) : Prop :=
  if sm.lastApplied st < s.snapIdx then
    n.applied = s.snapIdx ∧ sm.restore st s.snap = some n.sm
  else
    n.applied = sm.lastApplied st ∧ n.sm = st

theorem newNode_resumes {s : MemStore} {st : σ} {rng : ℕ → ℕ} {k : ℕ} {n : Node σ}
    (h : newNode cfg sm s st rng k = some n) :
    Resumes sm st s n ∧ n.r.restored = none ∧ n.r.state = .follower ∧
      n = { r := n.r, sm := n.sm, applied := n.applied, handles := k } := by
  unfold newNode at h
  cases hr : newRaft cfg s rng with
  | none => simp [hr] at h
  | some r =>
    have hfresh : r.restored = none ∧ r.state = .follower := by
      unfold newRaft at hr
      split at hr
      · cases hr
      · split at hr
        · cases hr
        · obtain rfl := Option.some.inj hr
          exact ⟨rfl, rfl⟩
    simp only [hr, Option.bind_eq_bind, Option.bind_some] at h
    unfold Resumes
    split at h
    · next hlt =>
      rw [if_pos hlt]
      cases hst : sm.restore st s.snap with
      | none => simp [hst] at h
      | some st' =>
        simp only [hst, Option.map_some, Option.bind_some, Option.some.injEq] at h
        subst h
        exact ⟨⟨rfl, rfl⟩, hfresh.1, hfresh.2, rfl⟩
    · next hge =>
      rw [if_neg hge]
      simp only [Option.some.injEq] at h
      subst h
      exact ⟨⟨rfl, rfl⟩, hfresh.1, hfresh.2, rfl⟩

section Runs

variable {G : Group σ} {md : Mode} {b : History G} {pos : ℕ} {c c' : Cluster σ} {n : Node σ}
  {es : List (Event σ)} {os : List (View σ)}

theorem Dur.indexed {clean : Prop} {s : MemStore} (h : Dur clean b.a i s) : s.Indexed := by
  intro j e he
  rw [h.entries, List.getElem?_drop] at he
  exact b.index_eq (b.inv.log_wf i) he

/-- A call of the core, followed by `advance`. -/
theorem serves_thenAdvance {x : M σ Unit} {b₀ : History G}
    (hspec : Wp x (fun _ => Ends md i pos b₀ b) (Stops md i pos b₀) S)
    (hserves : Keeps (Serves G.sm) x) (hload : Wp x (fun _ => Loads) (fun _ _ => True) S) :
    Wp (x >>= fun _ => advance (G.cfg i) G.sm)
      (fun _ S' => Serves G.sm S S' ∧ S'.node.r.restored = none) (fun _ => Serves G.sm S) S := by
  refine Wp.bind (((hspec.and hload).and (hserves S)).mono (fun _ _ h => h) fun _ _ h => h.2) ?_
  rintro _ S₁ ⟨⟨⟨b₁, -, -, h₁⟩, hload₁⟩, hs₁⟩
  refine (serves_advance hload₁ h₁.dur.indexed fun k p hp => (h₁.pending k p hp).1).mono ?_
    fun _ _ h => trans_of (Serves G.sm) hs₁ h
  rintro _ S₂ ⟨hs₂, hres⟩
  exact ⟨trans_of (Serves G.sm) hs₁ hs₂, hres⟩

/-- Every operation of a node at rest serves its state machine. -/
theorem serves_operate {inp : Input} (hin : InputOK md b i S.node S.store inp)
    (ht : Tr md i pos b b S) (h : Resting md b i pos S.node S.store)
    (hres : S.node.r.restored = none) :
    Wp (operate (G.cfg i) G.sm inp)
      (fun _ S' => Serves G.sm S S' ∧ S'.node.r.restored = none) (fun _ => Serves G.sm S) S := by
  have hloads : Loads S := by
    intro x hx
    rw [hres] at hx
    cases hx
  cases inp with
  | tick =>
    refine serves_thenAdvance (tick_spec ht h.toSound)
      (Keeps.mono (core_of_calm holds_tick) fun _ _ => Core.serves) ?_
    exact (holds_tick (F := calm) S).mono (fun _ _ hc => hc.loads hloads) fun _ _ _ => trivial
  | step m =>
    obtain ⟨hm, hto⟩ := hin.msg m rfl
    exact serves_thenAdvance (step_spec hm hto ht h.toSound (fun hc => hin.clean hc m rfl)
      fun hf => hin.fresh hf m rfl) (Keeps.mono core_step fun _ _ => Core.serves)
      (loads_step hloads h.snap_commit)
  | propose data =>
    exact ⟨.here rfl rfl, hres⟩
  | readIndex =>
    exact ⟨.here rfl rfl, hres⟩
  | flush =>
    simp only [operate]
    rw [wp_bind, wp_getNode]
    have hflush : (attends G.sm).Holds (flushProposals (G.cfg i) S.node.queue.length : M σ Unit) :=
      holds_flushProposals (attends_of_passive holds_propose) _
    refine serves_thenAdvance (flushProposals_spec _ ht h.toSound)
      (Keeps.mono hflush fun _ _ h => h.serves) ?_
    refine (hflush S).mono (fun _ S' hs x hx => ?_) fun _ _ _ => trivial
    rw [hs.restored, hres] at hx
    cases hx

/-! ## Lives. -/

/-- The event starts node `i`. -/
def Event.Restarts (i : NodeID) : Event σ → Prop
  | .restart j _ _ => j = i
  | _ => False

instance (i : NodeID) : DecidablePred (Event.Restarts i : Event σ → Prop) := fun e =>
  match e with
  | .op _ _ => isFalse id
  | .crash _ _ _ => isFalse id
  | .restart j _ _ => inferInstanceAs (Decidable (j = i))

/-- Between two operations no node has a snapshot to load. -/
def NoRequest (c : Cluster σ) : Prop := ∀ i n, (c.procs i).node = some n → n.r.restored = none

/-- What is said of a trace holds under any node's name. -/
theorem Driven.view {q q' : ℕ × σ} {ps : List (Point σ)}
    (h : Driven sm q (ps.map (Point.view 0)) q') (i : NodeID) :
    Driven sm q (ps.map (Point.view i)) q' := by
  refine ⟨?_, ?_⟩
  · have hs := h.served
    clear h
    induction ps generalizing q with
    | nil => exact hs
    | cons p ps ih => exact ⟨hs.1, ih hs.2⟩
  · intro pre v post p result heq hv
    obtain ⟨qs, rs, rfl, rfl, hrs⟩ := List.map_eq_append_iff.mp heq
    obtain ⟨x, xs, rfl, rfl, rfl⟩ := List.map_eq_cons_iff.mp hrs
    obtain ⟨pre', w, e, hpre, hw, hidx⟩ := h.answered (qs.map (Point.view 0)) (x.view 0)
      (xs.map (Point.view 0)) p result (by simp) hv
    obtain ⟨qs', y, rfl, rfl, hy⟩ := List.map_eq_append_iff.mp hpre
    obtain ⟨y, rfl, rfl⟩ := List.map_eq_singleton_iff.mp hy
    exact ⟨_, y.view i, e, List.map_append .., hw, hidx⟩

/-- What an operation shows takes the position to the node it leads to; a process that stops shows a
first part of it. -/
theorem perform_serves (hok : ClusterOK Mode.free b c) (hset : NoRequest c)
    (hn : (c.procs i).node = some n) {inp : Input} (hd : Deliverable c.sent i inp) :
    match perform G c i n inp with
    | .ok _ S => Driven G.sm n.position (S.trace.map (Point.view i)) S.node.position ∧
        S.node.r.restored = none
    | .error _ S => ∃ q, Driven G.sm n.position (S.trace.map (Point.view i)) q := by
  obtain ⟨hr, -⟩ := (hok.procs i).up n hn
  have hspec := serves_operate (S := { node := n, store := (c.procs i).store }) (hok.inputFree hn hd)
    (Linked.nil (Grow.refl i b)) hr (hset i n hn)
  unfold Wp at hspec
  unfold perform
  split at hspec
  · next S heq =>
    obtain ⟨⟨ps, hps, hserved⟩, hres⟩ := hspec
    rw [heq]
    refine ⟨?_, hres⟩
    rw [hps]
    exact hserved.view i
  · next S heq =>
    obtain ⟨ps, hps, hserved⟩ := hspec
    rw [heq]
    refine ⟨S.node.position, ?_⟩
    rw [hps]
    exact hserved.view i

/-- STEP.  An event that does not start node `i` moves its position as it shows. -/
theorem exec_served {e : Event σ} (hok : ClusterOK Mode.free b c) (hset : NoRequest c)
    (hexec : exec G c e = some (c', os)) (he : ¬ e.Restarts i) (hn : (c.procs i).node = some n) :
    ∃ q, Driven G.sm n.position (viewsOf i os) q ∧
      ∀ n', (c'.procs i).node = some n' → n'.position = q := by
  obtain ⟨hids, hframe⟩ := exec_frame hexec
  by_cases hi : e.node = i
  · rw [viewsOf_self (hi ▸ hids)]
    rcases exec_cases hexec with ⟨j, inp, n₀, S, rfl, hn₀, hd, hres, heq⟩ |
      ⟨j, inp, n₀, ps, rest, hev, hn₀, hd, heff, heq⟩ | ⟨j, st, rng, n₀, rfl, -⟩
    · -- a completed operation: its trace, and the node it leads to
      obtain rfl : j = i := hi
      obtain ⟨rfl, rfl⟩ := Prod.mk.inj heq
      obtain rfl := Option.some.inj (hn.symm.trans hn₀)
      have hperf := perform_serves hok hset hn hd
      rw [hres] at hperf
      refine ⟨S.node.position, hperf.1.append (Driven.idle rfl rfl), fun n' hn' => ?_⟩
      simp only [Function.update_self, Option.some.injEq] at hn'
      rw [← hn']
    · -- a first part of an operation, and nothing is left
      obtain rfl : j = i := by
        rcases hev with rfl | ⟨k, rfl⟩ <;> exact hi
      obtain ⟨rfl, rfl⟩ := Prod.mk.inj heq
      obtain rfl := Option.some.inj (hn.symm.trans hn₀)
      have hall : ∃ q, Driven G.sm n.position ((ps ++ rest).map (Point.view j)) q := by
        have hperf := perform_serves hok hset hn hd
        rw [← heff]
        cases hres : perform G c j n inp with
        | ok u S =>
          rw [hres] at hperf
          exact ⟨_, hperf.1⟩
        | error p S =>
          rw [hres] at hperf
          exact hperf
      obtain ⟨q, hq⟩ := hall
      obtain ⟨q', hq'⟩ := hq.take ps.length
      rw [← List.map_take, List.take_left] at hq'
      refine ⟨q', hq', fun n' hn' => ?_⟩
      simp at hn'
    · exact absurd hi he
  · rw [viewsOf_ne hids hi]
    refine ⟨n.position, Driven.nil _ _, fun n' hn' => ?_⟩
    rw [hframe i (Ne.symm hi), hn] at hn'
    rw [← Option.some.inj hn']

/-- A node that is down shows nothing until it is started. -/
theorem exec_down {e : Event σ} (hexec : exec G c e = some (c', os)) (he : ¬ e.Restarts i)
    (hdown : (c.procs i).node = none) : viewsOf i os = [] ∧ (c'.procs i).node = none := by
  obtain ⟨hids, hframe⟩ := exec_frame hexec
  by_cases hi : e.node = i
  · rcases exec_cases hexec with ⟨j, inp, n₀, S, rfl, hn₀, -⟩ |
      ⟨j, inp, n₀, ps, rest, hev, hn₀, -⟩ | ⟨j, st, rng, n₀, rfl, -⟩
    · obtain rfl : j = i := hi
      rw [hdown] at hn₀
      cases hn₀
    · obtain rfl : j = i := by
        rcases hev with rfl | ⟨k, rfl⟩ <;> exact hi
      rw [hdown] at hn₀
      cases hn₀
    · exact absurd hi he
  · rw [viewsOf_ne hids hi, hframe i (Ne.symm hi)]
    exact ⟨rfl, hdown⟩

theorem run_down (hlife : ∀ e ∈ es, ¬ e.Restarts i) (hrun : (machine G).run c es = some (c', os))
    (hdown : (c.procs i).node = none) : viewsOf i os = [] ∧ (c'.procs i).node = none := by
  refine Machine.run_history (R := fun c _ os => viewsOf i os = [] ∧ (c.procs i).node = none) ?_
    ⟨rfl, hdown⟩ (Machine.meets_of_forall _ (fun e he _ => hlife e he) c) hrun
  rintro c e c' - os os' ⟨hnil, hdown⟩ he hexec
  obtain ⟨hnil', hdown'⟩ := exec_down hexec he hdown
  exact ⟨by rw [viewsOf_append, hnil, hnil']; rfl, hdown'⟩

/-- No operation leaves a restore request behind. -/
theorem exec_noRequest {e : Event σ} (hok : ClusterOK Mode.free b c) (hset : NoRequest c)
    (hexec : exec G c e = some (c', os)) : NoRequest c' := by
  refine exec_nodes hexec hset (fun i inp n S hn hd hres => ?_) fun i st rng n hnew => ?_
  · have hperf := perform_serves hok hset hn hd
    rw [hres] at hperf
    exact hperf.2
  · exact (newNode_resumes hnew).2.1

/-- RUN.  As long as node `i` is not started again, all it shows takes its position from where it was
to where it is. -/
theorem run_served (hok : ClusterOK Mode.free b c) (hset : NoRequest c)
    (hlife : ∀ e ∈ es, ¬ e.Restarts i) (hrun : (machine G).run c es = some (c', os))
    (hn : (c.procs i).node = some n) :
    ∃ q, Driven G.sm n.position (viewsOf i os) q ∧
      ∀ n', (c'.procs i).node = some n' → n'.position = q := by
  induction es generalizing b c os n with
  | nil =>
    obtain ⟨rfl, rfl⟩ := Prod.mk.inj (Option.some.inj hrun)
    refine ⟨n.position, Driven.nil _ _, fun n' hn' => ?_⟩
    rw [hn] at hn'
    rw [Option.some.inj hn']
  | cons e es ih =>
    obtain ⟨c₁, os₁, os₂, hexec, hrest, rfl⟩ := Machine.run_cons hrun
    have hlife' : ∀ e ∈ es, ¬ e.Restarts i := fun e he => hlife e (List.mem_cons_of_mem _ he)
    obtain ⟨b₁, -, hok₁⟩ := exec_ok hok ⟨False.elim, False.elim⟩ hexec
    obtain ⟨q, hq, hend⟩ := exec_served hok hset hexec (hlife e (List.mem_cons_self ..)) hn
    rw [viewsOf_append]
    cases hn₁ : (c₁.procs i).node with
    | none =>
      obtain ⟨hnil, hnone⟩ := run_down hlife' hrest hn₁
      rw [hnil, List.append_nil]
      exact ⟨q, hq, fun n' hn' => by rw [hnone] at hn'; cases hn'⟩
    | some n₁ =>
      obtain ⟨q', hq', hend'⟩ := ih hok₁ (exec_noRequest hok hset hexec) hlife' hrest hn₁
      rw [hend n₁ hn₁] at hq'
      exact ⟨q', hq.append hq', hend'⟩

/-- Every reachable cluster is related to a history, and no node of it has a snapshot to load. -/
theorem run_settled (hrun : run G es = some (c, os)) :
    (∃ b : History G, ClusterOK Mode.free b c) ∧ NoRequest c := by
  refine Machine.run_invariant (C := fun _ _ => True)
    (I := fun c => (∃ b : History G, ClusterOK Mode.free b c) ∧ NoRequest c) ?_
    ⟨⟨_, ClusterOK.init _ G⟩, by intro i n hn; cases hn⟩ ((machine G).meets_true _ _) hrun
  rintro c e c' os ⟨⟨b, hok⟩, hset⟩ - hexec
  obtain ⟨b', -, hok'⟩ := exec_ok hok ⟨False.elim, False.elim⟩ hexec
  exact ⟨⟨b', hok'⟩, exec_noRequest hok hset hexec⟩

/-- APPLY DISCIPLINE.  In every run of a group: at rest a node has applied up to an index between its
compaction point and its commit index, which is within its log, so the size `maybeSnapshot` computes
does not wrap around; and from each start of a node to its next one, the node takes its state machine
from the position it resumed at, entry by entry and restore by restore, to the position it has. -/
theorem apply_discipline (hrun : run G es = some (c, os)) :
    (∀ i n, (c.procs i).node = some n → (c.procs i).store.snapIdx ≤ n.applied ∧
      n.applied ≤ n.r.commit ∧ n.r.commit ≤ (c.procs i).store.lastIndex ∧
      subU64 (n.applied + 1) (c.procs i).store.firstIndex =
        n.applied + 1 - (c.procs i).store.firstIndex) ∧
    ∀ es₁ i st rng es₂, es = es₁ ++ .restart i st rng :: es₂ → (∀ e ∈ es₂, ¬ e.Restarts i) →
      ∃ c₁ os₁ n os₂ q, run G es₁ = some (c₁, os₁) ∧
        os = os₁ ++ ⟨i, none, n, (c₁.procs i).store⟩ :: os₂ ∧
        Resumes G.sm st (c₁.procs i).store n ∧ Served G.sm n.position (viewsOf i os₂) q ∧
        ∀ n', (c.procs i).node = some n' → n'.position = q := by
  refine ⟨fun i n hn => ?_, ?_⟩
  · obtain ⟨b, -, hok⟩ := run_related hrun
    obtain ⟨hr, -⟩ := (hok.procs i).up n hn
    have hcaught := hr.caught
    refine ⟨hcaught, hr.applied, ?_, subU64_of_le (Nat.succ_le_succ hcaught)⟩
    rw [hr.dur.lastIndex]
    exact hr.toHeld.commit_le
  · rintro es₁ i st rng es₂ rfl hlife
    obtain ⟨c₁, os₁, os', hrun₁, hrun', rfl⟩ := Machine.run_append hrun
    obtain ⟨c₂, osr, os₂, hexec, hrun₂, rfl⟩ := Machine.run_cons hrun'
    have hexec : exec G c₁ (.restart i st rng) = some (c₂, osr) := hexec
    obtain ⟨⟨b₁, hok₁⟩, hset₁⟩ := run_settled hrun₁
    obtain ⟨b₂, -, hok₂⟩ := exec_ok hok₁ ⟨False.elim, False.elim⟩ hexec
    rcases exec_cases hexec with ⟨_, _, _, _, hev, -⟩ | ⟨_, _, _, _, _, hev, -⟩ |
      ⟨j, st', rng', n, hev, -, -, -, hnew, heq⟩
    · cases hev
    · rcases hev with hev | ⟨k, hev⟩ <;> cases hev
    · cases hev
      obtain ⟨rfl, rfl⟩ := Prod.mk.inj heq
      obtain ⟨q, hq, hend⟩ := run_served hok₂ (exec_noRequest hok₁ hset₁ hexec) hlife hrun₂ (n := n)
        (by simp)
      exact ⟨c₁, os₁, n, os₂, q, hrun₁, rfl, (newNode_resumes hnew).1, hq.served, hend⟩

end Runs

/-- Node 2 of the run is started once; it has passed the no-op and the proposal since. -/
theorem apply_discipline_handover :
    ∃ c₁ os₁ n os₂ q, run (trio 0) [boot 1] = some (c₁, os₁) ∧
      handed.2 = os₁ ++ ⟨2, none, n, (c₁.procs 2).store⟩ :: os₂ ∧
      Served counter n.position (viewsOf 2 os₂) q ∧ q.1 = 2 := by
  obtain ⟨c₁, os₁, n, os₂, q, hrun, hos, -, hserved, hend⟩ :=
    (apply_discipline run_handover).2 [boot 1] 2 0 (fun _ => 0) (handover.drop 2) rfl (by decide)
  refine ⟨c₁, os₁, n, os₂, q, hrun, hos, hserved, ?_⟩
  rw [← hend _ (Option.some_get handed_up).symm]
  decide +kernel

end Keystone.Raft
