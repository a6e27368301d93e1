/-
# Keystone.Raft.Handles — every proposal and read handle is finished at most once.

A handle wanders: a proposal from the queue to the pending map, a read from its queue to a round to the
waiting list; losing the leadership fails it wherever it is.  The argument is one of conservation.  A
`Ticket` is a handle with its payload (`none` for a read).  What the driver holds and what it has
finished is a multiset of tickets, `Node.held` and `finished`, and no function of the driver changes
their sum: `Conserves`.  A process that stops inside an operation has finished tickets it held,
`Spends`.  Over a run, the tickets ever handed out by a node have distinct handles, and are made up of
what it holds, what it finished and what it lost in a crash.

Two moves need a reason from elsewhere.  A proposal goes into the pending map under an index no other
one has: a leader's pending proposals are all of its own term, so they stand in its log, and the new
ones come behind.  A read round gets an identifier that was not used before.
-/
import Mathlib.Algebra.Order.Group.Multiset
import Mathlib.Tactic.Abel
import Keystone.Raft.Applying

namespace Keystone.Raft

open Keystone.Lib
open Keystone.Lib.TermLog (length_of_getElem?)
open Function (update)

variable {σ : Type} {sm : StateMachine σ} {cfg : Config} {S S' : Sys σ} {i : NodeID}

/-! ## Tickets. -/

/-- A handle with the payload it was handed out for; a read has none. -/
abbrev Ticket := ℕ × Option Bytes

def Proposal.ticket (p : Proposal) : Ticket := (p.handle, some p.data)

def Read.ticket (rd : Read) : Ticket := (rd.handle, none)

/-- The ticket an effect finishes. -/
def Effect.ticket : Effect → Option Ticket
  | .finishProposal p _ _ => some p.ticket
  | .finishRead rd _ => some rd.ticket
  | _ => none

/-- The tickets a list of effects finishes. -/
def finished (es : List Effect) : Multiset Ticket := (es.filterMap Effect.ticket : List Ticket)

def pendingTickets (m : AList fun _ : ℕ => Proposal) : Multiset Ticket :=
  (m.entries.map fun x => x.2.ticket : List Ticket)

def roundTickets (m : AList fun _ : ℕ => List Read) : Multiset Ticket :=
  (m.entries.flatMap fun x => x.2.map Read.ticket : List Ticket)

/-- The unfinished tickets of a node, with the container each one is in. -/
def Node.held (n : Node σ) : Multiset Ticket :=
  (n.queue.map Proposal.ticket : List Ticket) + pendingTickets n.pending +
    ((n.readQueue.map Read.ticket : List Ticket) + roundTickets n.reads +
      (n.waiting.map Read.ticket : List Ticket))

@[simp] theorem finished_nil : finished [] = 0 := rfl

theorem finished_append (es es' : List Effect) : finished (es ++ es') = finished es + finished es' := by
  simp [finished, List.filterMap_append]

theorem finished_of_isCore {es : List Effect} (h : ∀ e ∈ es, e.IsCore) : finished es = 0 := by
  unfold finished
  rw [List.filterMap_eq_nil_iff.mpr]
  · rfl
  · intro e he
    have := h e he
    cases e <;> first | rfl | exact this.elim

/-! ## Maps of tickets. -/

/-- Taking an entry out of an association list. -/
theorem entries_perm_erase {α : Type} {m : AList fun _ : ℕ => α} {k : ℕ} {v : α}
    (h : m.lookup k = some v) : m.entries.Perm (⟨k, v⟩ :: (m.erase k).entries) := by
  have hmem : k ∈ m.entries.keys := AList.lookup_isSome.mp (by rw [h]; rfl)
  obtain ⟨v', l₁, l₂, hnot, hl, herase⟩ := List.exists_of_kerase hmem
  have hv : v' = v := by
    have : m.lookup k = some v' := by
      refine AList.mem_lookup_iff.mpr ?_
      rw [hl]
      simp
    rw [h] at this
    exact (Option.some.inj this).symm
  subst hv
  show m.entries.Perm (⟨k, v'⟩ :: List.kerase k m.entries)
  rw [herase, hl]
  exact List.perm_middle

/-- Taking out the first entry. -/
theorem erase_first {α : Type} {m : AList fun _ : ℕ => α} {k : ℕ} {v : α} {l : List (Σ _ : ℕ, α)}
    (h : m.entries = ⟨k, v⟩ :: l) : m.lookup k = some v ∧ (m.erase k).entries = l := by
  refine ⟨?_, ?_⟩
  · unfold AList.lookup
    rw [h, List.dlookup_cons_eq]
  · show List.kerase k m.entries = l
    rw [h]
    exact List.kerase_cons_eq rfl

theorem pendingTickets_erase {m : AList fun _ : ℕ => Proposal} {k : ℕ} {p : Proposal}
    (h : m.lookup k = some p) : pendingTickets m = p.ticket ::ₘ pendingTickets (m.erase k) :=
  Multiset.coe_eq_coe.mpr ((entries_perm_erase h).map _)

theorem pendingTickets_insert {m : AList fun _ : ℕ => Proposal} {k : ℕ} {p : Proposal}
    (h : k ∉ m) : pendingTickets (m.insert k p) = p.ticket ::ₘ pendingTickets m := by
  unfold pendingTickets
  rw [AList.entries_insert_of_notMem h]
  rfl

/-- A batch that goes behind all pending indexes adds its tickets. -/
theorem pendingTickets_addPending {m : AList fun _ : ℕ => Proposal} {t first : ℕ}
    (ps : List Proposal) (h : ∀ k ∈ m, k < first) :
    pendingTickets (addPending m t first ps) =
      pendingTickets m + (ps.map Proposal.ticket : List Ticket) := by
  induction ps generalizing m first with
  | nil => simp [addPending]
  | cons p ps ih =>
    have hnot : first ∉ m := fun hm => absurd (h first hm) (lt_irrefl _)
    unfold addPending
    rw [ih, pendingTickets_insert hnot]
    · rw [List.map_cons, ← Multiset.cons_coe, Multiset.cons_add, Multiset.add_cons]
      rfl
    · intro k hk
      rcases (AList.mem_insert m).mp hk with rfl | hk
      · exact Nat.lt_succ_self _
      · exact (h k hk).trans (Nat.lt_succ_self _)

theorem roundTickets_insert {m : AList fun _ : ℕ => List Read} {k : ℕ} {q : List Read}
    (h : k ∉ m) : roundTickets (m.insert k q) = (q.map Read.ticket : List Ticket) + roundTickets m := by
  unfold roundTickets
  rw [AList.entries_insert_of_notMem h, List.flatMap_cons, ← Multiset.coe_add]

/-- Closing a round takes its reads out; a round that is not there has none. -/
theorem roundTickets_erase (m : AList fun _ : ℕ => List Read) (k : ℕ) :
    roundTickets m =
      (((m.lookup k).getD []).map Read.ticket : List Ticket) + roundTickets (m.erase k) := by
  cases h : m.lookup k with
  | none =>
    have hnot : k ∉ m.entries.keys := fun hm => by
      have := AList.lookup_isSome.mpr (show k ∈ m from hm)
      rw [h] at this
      cases this
    have : (m.erase k).entries = m.entries := List.kerase_of_notMem_keys hnot
    simp [roundTickets, this]
  | some q =>
    have hp := (entries_perm_erase h).flatMap_right fun x => x.2.map Read.ticket
    unfold roundTickets
    rw [Multiset.coe_eq_coe.mpr hp, List.flatMap_cons, ← Multiset.coe_add]
    rfl

/-! ## Conservation. -/

/-- No ticket came or went but by being finished. -/
structure Conserves (S S' : Sys σ) : Prop where
  trace : ∃ ps, S'.trace = S.trace ++ ps ∧
    S.node.held = S'.node.held + finished (ps.map Point.effect) ∧
    ∀ p ∈ ps, p.node.handles = S.node.handles
  handles : S'.node.handles = S.node.handles

/-- What a process that stops has finished, it held. -/
def Spends (S S' : Sys σ) : Prop :=
  ∃ ps, S'.trace = S.trace ++ ps ∧ finished (ps.map Point.effect) ≤ S.node.held ∧
    ∀ p ∈ ps, p.node.handles = S.node.handles

theorem Conserves.refl (S : Sys σ) : Conserves S S :=
  ⟨⟨[], (List.append_nil _).symm, by simp, by simp⟩, rfl⟩

theorem Conserves.trans {S'' : Sys σ} (h : Conserves S S') (h' : Conserves S' S'') :
    Conserves S S'' := by
  obtain ⟨ps, hps, heq, hh⟩ := h.trace
  obtain ⟨qs, hqs, heq', hh'⟩ := h'.trace
  refine ⟨⟨ps ++ qs, by rw [hqs, hps, List.append_assoc], ?_, fun p hp => ?_⟩,
    h'.handles.trans h.handles⟩
  · rw [heq, heq', List.map_append, finished_append]
    abel
  · rcases List.mem_append.mp hp with hp | hp
    · exact hh p hp
    · exact (hh' p hp).trans h.handles

instance : @Absorbs (Sys σ) Conserves Spends where
  here S := ⟨[], (List.append_nil _).symm, Multiset.zero_le _, by simp⟩
  after := by
    rintro S S' S'' ⟨⟨ps, hps, heq, hh⟩, hhan⟩ ⟨qs, hqs, hle, hh'⟩
    refine ⟨ps ++ qs, by rw [hqs, hps, List.append_assoc], ?_, fun p hp => ?_⟩
    · rw [heq, List.map_append, finished_append, add_comm]
      exact add_le_add_left hle _
    · rcases List.mem_append.mp hp with hp | hp
      · exact hh p hp
      · exact (hh' p hp).trans hhan

theorem Conserves.spends (h : Conserves S S') : Spends S S' :=
  Absorbs.after h (Absorbs.here Conserves S')

theorem SameDriver.held {n n' : Node σ} (h : SameDriver n n') : n'.held = n.held := by
  unfold SameDriver at h
  rw [h]
  rfl

theorem SameDriver.handles {n n' : Node σ} (h : SameDriver n n') : n'.handles = n.handles := by
  unfold SameDriver at h
  rw [h]

theorem Core.conserves (h : Core S S') : Conserves S S' := by
  obtain ⟨ps, hps, hall⟩ := h.trace
  refine ⟨⟨ps, hps, ?_, fun p hp => (hall p hp).2.handles⟩, h.node.handles⟩
  rw [h.node.held, finished_of_isCore, add_zero]
  intro e he
  obtain ⟨p, hp, rfl⟩ := List.mem_map.mp he
  exact (hall p hp).1

/-- The books are kept while the node goes on in its term and role and takes no new proposal. -/
structure Tends (S S' : Sys σ) : Prop extends Conserves S S' where
  state : S'.node.r.state = S.node.r.state
  term : S'.node.r.term = S.node.r.term
  pending : ∀ k p, S'.node.pending.lookup k = some p → S.node.pending.lookup k = some p

theorem Tends.refl (S : Sys σ) : Tends S S := ⟨Conserves.refl S, rfl, rfl, fun _ _ h => h⟩

instance : IsPreorder (Sys σ) Tends where
  refl := Tends.refl
  trans _ _ _ h h' := ⟨h.toConserves.trans h'.toConserves, h'.state.trans h.state, h'.term.trans h.term,
    fun k p hp => h.pending k p (h'.pending k p hp)⟩

instance : @Absorbs (Sys σ) Tends Spends where
  here := Absorbs.here Conserves
  after h h' := Absorbs.after h.toConserves h'

/-- The driver keeps the books. -/
abbrev books : Frame Panic (Sys σ) := .keepsOr Tends Spends

theorem SameDriver.pending {n n' : Node σ} (h : SameDriver n n') : n'.pending = n.pending := by
  unfold SameDriver at h
  rw [h]

theorem Passive.tends (h : Passive S S') : Tends S S' :=
  ⟨h.toCore.conserves, h.state, h.term, fun k p hp => by rwa [h.node.pending] at hp⟩

instance : Clerical (@books σ) := .mono fun {_ _} (h : passive.Holds _) =>
  KeepsOr.mono h (fun _ _ h => h.tends) fun _ _ h => h.toCore.conserves.spends

/-- Tickets move between containers. -/
theorem books_modifyNode {f : Node σ → Node σ} (hf : ∀ n, (f n).held = n.held)
    (hh : ∀ n, (f n).handles = n.handles) (hr : ∀ n, (f n).r = n.r)
    (hp : ∀ n, (f n).pending = n.pending) : books.Holds (modifyNode f : M σ Unit) := fun _ =>
  ⟨⟨⟨[], (List.append_nil _).symm, by simpa using (hf _).symm, by simp⟩, hh _⟩, by rw [hr], by rw [hr],
    fun k p h => by rwa [hp] at h⟩

/-- An effect that finishes nothing. -/
theorem books_emit {e : Effect} (he : e.ticket = none) : books.Holds (emit e : M σ Unit) := fun S => by
  refine ⟨⟨⟨[_], rfl, ?_, by simp⟩, rfl⟩, rfl, rfl, fun _ _ h => h⟩
  simp [finished, he]

/-- A batch of effects is one step of the trace. -/
theorem wp_emitAll {γ : Type} {Q : Unit → Sys σ → Prop} {R : Panic → Sys σ → Prop} (l : List γ)
    (f : γ → Effect) :
    Wp (l.forM fun x => emit (f x)) Q R S ↔
      Q () { S with trace := S.trace ++ l.map fun x => ⟨f x, S.node, S.store⟩ } := by
  induction l generalizing S with
  | nil =>
    rw [List.map_nil, List.append_nil]
    exact Iff.rfl
  | cons x l ih =>
    have hcons : (x :: l).forM (fun x => emit (f x)) =
        (emit (f x) : M σ Unit) >>= fun _ => l.forM fun x => emit (f x) := rfl
    rw [hcons, wp_bind, wp_emit, ih, List.append_assoc]
    rfl

/-- Finishing what is taken out of a container. -/
theorem Conserves.finish {γ : Type} (n m : Node σ) (l : List γ) (f : γ → Effect)
    {ts : Multiset Ticket} (hts : finished (l.map f) = ts) (hheld : S.node.held = n.held + ts)
    (hh : n.handles = S.node.handles) (hm : m.handles = S.node.handles) :
    Conserves S { S with
      node := n
      trace := S.trace ++ l.map fun x => ⟨f x, m, S.store⟩ } := by
  refine ⟨⟨_, rfl, ?_, ?_⟩, hh⟩
  · rw [hheld, ← hts, List.map_map]
    rfl
  · intro p hp
    obtain ⟨x, -, rfl⟩ := List.mem_map.mp hp
    exact hm

theorem finished_proposals (ps : List Proposal) (result : Bytes) (err : Option Err) :
    finished (ps.map fun p => .finishProposal p result err) = (ps.map Proposal.ticket : List Ticket) := by
  unfold finished
  rw [List.filterMap_map]
  exact congrArg _ (List.filterMap_eq_map (f := Proposal.ticket) ▸ rfl)

theorem finished_reads (rds : List Read) (err : Option Err) :
    finished (rds.map fun rd => .finishRead rd err) = (rds.map Read.ticket : List Ticket) := by
  unfold finished
  rw [List.filterMap_map]
  exact congrArg _ (List.filterMap_eq_map (f := Read.ticket) ▸ rfl)

/-! ## The driver keeps the books. -/

/-- Fail a list of proposals taken out of a container. -/
theorem failProposals_books (n m : Node σ) (ps : List Proposal)
    (hheld : S.node.held = n.held + (ps.map Proposal.ticket : List Ticket))
    (hh : n.handles = S.node.handles) (hm : m.handles = S.node.handles) :
    Conserves S { S with
      node := n
      trace := S.trace ++ ps.map fun p => ⟨.finishProposal p [] (some .notLeader), m, S.store⟩ } :=
  .finish n m ps _ (finished_proposals ps [] (some .notLeader)) hheld hh hm

theorem failReads_books (n m : Node σ) (rds : List Read)
    (hheld : S.node.held = n.held + (rds.map Read.ticket : List Ticket))
    (hh : n.handles = S.node.handles) (hm : m.handles = S.node.handles) :
    Conserves S { S with
      node := n
      trace := S.trace ++ rds.map fun rd => ⟨.finishRead rd (some .notLeader), m, S.store⟩ } :=
  .finish n m rds _ (finished_reads rds (some .notLeader)) hheld hh hm

/-- Pending proposals are failed one by one, until none is left. -/
theorem failPending_books {R : Panic → Sys σ → Prop} (l : List (Σ _ : ℕ, Proposal))
    (hl : S.node.pending.entries = l) :
    Wp (l.forM fun x => do
        modifyNode fun n => { n with pending := n.pending.erase x.1 }
        finishProposal x.2 [] (some .notLeader))
      (fun _ S' => Conserves S S' ∧ S'.node = { S.node with pending := ∅ }) R S := by
  induction l generalizing S with
  | nil =>
    refine ⟨Conserves.refl S, ?_⟩
    have : S.node.pending = ∅ := AList.ext hl
    rw [← this]
  | cons x l ih =>
    obtain ⟨k, p⟩ := x
    obtain ⟨hlook, herase⟩ := erase_first hl
    let n₁ : Node σ := { S.node with pending := S.node.pending.erase k }
    let S₁ : Sys σ :=
      { S with
        node := n₁
        trace := S.trace ++ [⟨.finishProposal p [] (some .notLeader), n₁, S.store⟩] }
    have hone : Conserves S S₁ := by
      refine failProposals_books n₁ n₁ [p] ?_ rfl rfl
      show S.node.held = ({ S.node with pending := S.node.pending.erase k } : Node σ).held + _
      unfold Node.held
      rw [pendingTickets_erase hlook, List.map_singleton, Multiset.coe_singleton,
        ← Multiset.singleton_add]
      abel
    refine (ih (S := S₁) herase).imp ?_
    rintro _ S' ⟨hc, hn⟩
    exact ⟨hone.trans hc, hn⟩

/-- Open rounds are failed one by one, until none is left. -/
theorem failRounds_books {R : Panic → Sys σ → Prop} (l : List (Σ _ : ℕ, List Read))
    (hl : S.node.reads.entries = l) :
    Wp (l.forM fun x => do
        modifyNode fun n => { n with reads := n.reads.erase x.1 }
        x.2.forM fun rd => finishRead rd (some .notLeader))
      (fun _ S' => Conserves S S' ∧ S'.node = { S.node with reads := ∅ }) R S := by
  induction l generalizing S with
  | nil =>
    refine ⟨Conserves.refl S, ?_⟩
    have : S.node.reads = ∅ := AList.ext hl
    rw [← this]
  | cons x l ih =>
    obtain ⟨k, q⟩ := x
    obtain ⟨hlook, herase⟩ := erase_first hl
    let n₁ : Node σ := { S.node with reads := S.node.reads.erase k }
    let S₁ : Sys σ :=
      { S with
        node := n₁
        trace := S.trace ++ q.map fun rd => ⟨.finishRead rd (some .notLeader), n₁, S.store⟩ }
    have hone : Conserves S S₁ := by
      refine failReads_books n₁ n₁ q ?_ rfl rfl
      show S.node.held = ({ S.node with reads := S.node.reads.erase k } : Node σ).held + _
      unfold Node.held
      rw [roundTickets_erase S.node.reads k, hlook, Option.getD_some]
      abel
    rw [wp_forM_cons, wp_bind, wp_modifyNode]
    refine (wp_emitAll q _).mpr ((ih (S := S₁) herase).imp ?_)
    rintro _ S' ⟨hc, hn⟩
    exact ⟨hone.trans hc, hn⟩

/-- Losing the leadership empties every container but the confirmed reads. -/
theorem failAll_books {R : Panic → Sys σ → Prop} :
    Wp failAll (fun _ S' => Conserves S S' ∧ S'.node =
      { S.node with queue := [], pending := ∅, readQueue := [], reads := ∅ }) R S := by
  simp only [failAll]
  rw [wp_bind, wp_getNode, wp_bind]
  refine (wp_emitAll S.node.queue _).mpr ?_
  rw [wp_bind, wp_modifyNode, wp_bind]
  let n₁ : Node σ := { S.node with queue := [] }
  let S₁ : Sys σ :=
    { S with
      node := n₁
      trace := S.trace ++ S.node.queue.map fun p =>
        ⟨.finishProposal p [] (some .notLeader), S.node, S.store⟩ }
  have h₁ : Conserves S S₁ := by
    refine failProposals_books n₁ S.node S.node.queue ?_ rfl rfl
    show S.node.held = ({ S.node with queue := [] } : Node σ).held + _
    simp only [Node.held, List.map_nil, Multiset.coe_nil]
    abel
  refine (failPending_books (S := S₁) S.node.pending.entries rfl).imp ?_
  rintro _ S₂ ⟨h₂, hn₂⟩
  rw [wp_bind]
  refine (wp_emitAll S.node.readQueue _).mpr ?_
  rw [wp_bind, wp_modifyNode]
  let n₃ : Node σ := { S₂.node with readQueue := [] }
  let S₃ : Sys σ :=
    { S₂ with
      node := n₃
      trace := S₂.trace ++ S.node.readQueue.map fun rd =>
        ⟨.finishRead rd (some .notLeader), S₂.node, S₂.store⟩ }
  have h₃ : Conserves S₂ S₃ := by
    refine failReads_books n₃ S₂.node S.node.readQueue ?_ rfl rfl
    show S₂.node.held = ({ S₂.node with readQueue := [] } : Node σ).held + _
    rw [hn₂]
    simp only [Node.held, List.map_nil, Multiset.coe_nil, n₁, S₁]
    abel
  refine (failRounds_books (S := S₃) S.node.reads.entries ?_).imp ?_
  · show S₂.node.reads.entries = _
    rw [hn₂]
  · rintro _ S₄ ⟨h₄, hn₄⟩
    refine ⟨((h₁.trans h₂).trans h₃).trans h₄, ?_⟩
    rw [hn₄]
    show ({ S₂.node with readQueue := [], reads := ∅ } : Node σ) = _
    rw [hn₂]

/-- A settled proposal leaves the pending ones. -/
theorem books_settleProposal {e : Entry} {result : Bytes} :
    books.Holds (settleProposal e result : M σ Unit) := by
  intro S
  simp only [settleProposal]
  rw [wp_bind, wp_getNode]
  cases hp : S.node.pending.lookup e.index with
  | none => exact Tends.refl S
  | some p =>
    have hless : ∀ k q, (S.node.pending.erase e.index).lookup k = some q →
        S.node.pending.lookup k = some q := fun _ _ h => lookup_of_erase h
    let n₁ : Node σ := { S.node with pending := S.node.pending.erase e.index }
    have hheld : S.node.held = n₁.held + ([p].map Proposal.ticket : List Ticket) := by
      simp only [Node.held, n₁]
      rw [pendingTickets_erase hp, List.map_singleton, Multiset.coe_singleton, ← Multiset.singleton_add]
      abel
    rw [wp_bind, wp_modifyNode, wp_ite]
    refine ⟨fun _ => ?_, fun _ => ?_⟩
    · exact ⟨Conserves.finish n₁ n₁ [p] _ (finished_proposals [p] result none) hheld rfl rfl, rfl, rfl,
        hless⟩
    · exact ⟨failProposals_books n₁ n₁ [p] hheld rfl rfl, rfl, rfl, hless⟩

instance : Settles (@books σ) where
  serve h := books_modifyNode (fun n => by rw [h n]; rfl) (fun n => by rw [h n]) (fun n => by rw [h n])
    fun n => by rw [h n]
  taken S :=
    ⟨Core.conserves (core_modifyRaft (fun r => { r with restored := none }) S), rfl, rfl, fun _ _ h => h⟩
  restored := books_emit rfl
  applied := books_emit rfl
  settle := books_settleProposal

/-- Confirmed reads go from their round to the waiting list. -/
theorem books_collectReady : books.Holds (collectReady : M σ Unit) := by
  refine .bind holds_getRaft fun r => .bind (Clerical.note fun _ => rfl) fun _ => .forM fun rr _ => ?_
  refine books_modifyNode (fun n => ?_) (fun _ => rfl) (fun _ => rfl) fun _ => rfl
  have hmap : ((((n.reads.lookup rr.id).getD []).map fun rd => { rd with index := rr.index }).map
      Read.ticket) = ((n.reads.lookup rr.id).getD []).map Read.ticket := by
    rw [List.map_map]
    rfl
  simp only [Node.held]
  rw [roundTickets_erase n.reads rr.id, List.map_append, hmap, ← Multiset.coe_add]
  abel

/-- The waiting reads whose index is applied are finished, the others stay. -/
theorem books_finishWaiting : books.Holds (finishWaiting : M σ Unit) := by
  intro S
  simp only [finishWaiting]
  rw [wp_bind, wp_getNode, wp_bind]
  -- the loop finishes exactly the reads that are due
  have hloop : ∀ (l : List Read) (S₁ : Sys σ) (Q : Unit → Sys σ → Prop) (R : Panic → Sys σ → Prop),
      Wp (l.forM fun rd => when (rd.index ≤ S.node.applied) (finishRead rd none)) Q R S₁ ↔
        Q () { S₁ with trace := S₁.trace ++
          (l.filter fun rd => rd.index ≤ S.node.applied).map fun rd =>
            ⟨.finishRead rd none, S₁.node, S₁.store⟩ } := by
    intro l
    induction l with
    | nil =>
      intro S₁ Q R
      rw [List.filter_nil, List.map_nil, List.append_nil]
      exact Iff.rfl
    | cons rd l ih =>
      intro S₁ Q R
      rw [wp_forM_cons]
      by_cases hle : rd.index ≤ S.node.applied
      · rw [List.filter_cons_of_pos (by simpa using hle), when, if_pos hle, finishRead, wp_emit, ih,
          List.map_cons, List.append_assoc]
        rfl
      · rw [List.filter_cons_of_neg (by simpa using hle), when, if_neg hle, wp_pure, ih]
  rw [hloop, wp_modifyNode]
  let n₁ : Node σ :=
    { S.node with waiting := S.node.waiting.filter fun rd => ¬ rd.index ≤ S.node.applied }
  refine ⟨Conserves.finish n₁ S.node _ _ (finished_reads _ none) ?_ rfl rfl, rfl, rfl, fun _ _ h => h⟩
  have hsplit : ((S.node.waiting.map Read.ticket : List Ticket) : Multiset Ticket) =
      ((S.node.waiting.filter fun rd => ¬ rd.index ≤ S.node.applied).map Read.ticket : List Ticket) +
      ((S.node.waiting.filter fun rd => rd.index ≤ S.node.applied).map Read.ticket : List Ticket) := by
    rw [Multiset.coe_add, ← List.map_append]
    refine Multiset.coe_eq_coe.mpr (List.Perm.map _ ?_)
    simp only [decide_not]
    exact (List.perm_append_comm.trans (List.filter_append_perm _ _)).symm
  simp only [Node.held, n₁]
  rw [hsplit]
  abel

/-- A new round has the next identifier. -/
theorem readIndex_id : Wp (readIndex cfg)
    (fun res _ => ∀ id, res = .ok id → id = S.node.r.nextReadID + 1) (fun _ _ => True) S := by
  simp only [readIndex]
  rw [wp_bind, wp_getRaft, wp_ite]
  refine ⟨fun _ => wp_pure.mpr (by simp), fun _ => ?_⟩
  rw [wp_bind]
  refine wp_of_forall (fun t S₁ => ?_) fun _ _ => trivial
  rw [wp_ite]
  refine ⟨fun _ => wp_pure.mpr (by simp), fun _ => ?_⟩
  rw [wp_bind, wp_modifyRaft, wp_ite]
  have hid : ∀ id, (Except.ok (S.node.r.nextReadID + 1) : Except ReadError ℕ) = .ok id →
      id = S.node.r.nextReadID + 1 := fun id h => (Except.ok.inj h).symm
  refine ⟨fun _ => ?_, fun _ => ?_⟩
  · rw [wp_bind]
    exact wp_of_forall (fun _ _ => hid) fun _ _ => trivial
  · rw [wp_bind]
    exact wp_of_forall (fun _ _ => hid) fun _ _ => trivial

/-- The queued reads go into a round of their own. -/
theorem startReads_books (hids : ∀ id q, S.node.reads.lookup id = some q → id ≤ S.node.r.nextReadID) :
    Wp (startReads cfg) (fun _ => Tends S) (fun _ => Spends S) S := by
  simp only [startReads]
  rw [wp_bind, wp_getNode, wp_ite]
  refine ⟨fun _ => Tends.refl S, fun _ => ?_⟩
  rw [wp_bind]
  refine ((holds_readIndex (F := passive) S).and readIndex_id).mono ?_ fun _ _ h => h.1.toCore.conserves.spends
  rintro res S₁ ⟨hp, hid⟩
  have ht := hp.tends
  have hn : S₁.node = { S.node with r := S₁.node.r } := hp.node
  cases res with
  | error err =>
    cases err with
    | leaderNotReady => exact ht
    | notLeader =>
      -- no round: the reads are failed
      rw [wp_bind, wp_modifyNode]
      refine (wp_emitAll S.node.readQueue _).mpr ?_
      let n₁ : Node σ := { S₁.node with readQueue := [] }
      have hfail : Tends S₁ { S₁ with
          node := n₁
          trace := S₁.trace ++ S.node.readQueue.map fun rd =>
            ⟨.finishRead rd (some .notLeader), n₁, S₁.store⟩ } := by
        refine ⟨failReads_books n₁ n₁ S.node.readQueue ?_ rfl rfl, rfl, rfl, fun _ _ h => h⟩
        show S₁.node.held = ({ S₁.node with readQueue := [] } : Node σ).held + _
        rw [hn]
        simp only [Node.held, List.map_nil, Multiset.coe_nil]
        abel
      exact trans_of Tends ht hfail
  | ok id =>
    rw [wp_modifyNode]
    have hfresh : id ∉ S₁.node.reads := by
      intro hmem
      obtain ⟨q, hq⟩ := Option.isSome_iff_exists.mp (AList.lookup_isSome.mpr hmem)
      rw [hn] at hq
      have := hids id q hq
      have := hid id rfl
      omega
    have hmove : Tends S₁ { S₁ with node :=
        { S₁.node with readQueue := [], reads := S₁.node.reads.insert id S₁.node.readQueue } } := by
      refine ⟨⟨⟨[], (List.append_nil _).symm, ?_, by simp⟩, rfl⟩, rfl, rfl, fun _ _ h => h⟩
      show S₁.node.held = ({ S₁.node with
        readQueue := [], reads := S₁.node.reads.insert id S₁.node.readQueue } : Node σ).held + _
      simp only [Node.held]
      rw [roundTickets_insert hfresh]
      simp only [List.map_nil, Multiset.coe_nil, finished_nil]
      abel
    exact trans_of Tends ht hmove

/-! ## Proposals. -/

section Group

variable {G : Group σ} {md : Mode} {b b₀ : History G} {pos : ℕ} {c c' : Cluster σ} {n : Node σ}
  {es : List (Event σ)} {os : List (View σ)}

/-- The pending proposals of a leader are of its term. -/
def Owned (n : Node σ) : Prop :=
  n.r.state = .leader → ∀ k p, n.pending.lookup k = some p → p.term = n.r.term

/-- At rest, moreover, only a leader has pending proposals. -/
structure Kept (n : Node σ) : Prop where
  owned : Owned n
  empty : n.r.state ≠ .leader → n.pending = ∅

theorem Tends.owned (h : Tends S S') (hown : Owned S.node) : Owned S'.node := by
  intro hl k p hp
  rw [h.state] at hl
  rw [h.term]
  exact hown hl k p (h.pending k p hp)

/-- The pending proposals of a leader stand in its log. -/
theorem Sound.pending_lt (h : Sound md b i pos S.node S.store) (hown : Owned S.node)
    (hl : S.node.r.state = .leader) {k : ℕ} (hk : k ∈ S.node.pending) :
    k < (b.a.llog S.node.r.term).length + 1 := by
  obtain ⟨p, hp⟩ := Option.isSome_iff_exists.mp (AList.lookup_isSome.mpr hk)
  obtain ⟨hidx, h1, e, he, -⟩ := h.pending k p hp
  rw [hown hl k p hp] at he
  have := length_of_getElem? he
  omega

/-- A batch of the queue is failed, or goes into the log and the pending map. -/
theorem flushBatch_books (ht : Tr md i pos b₀ b S) (h : Sound md b i pos S.node S.store)
    (hown : Owned S.node) :
    Wp (flushBatch (G.cfg i)) (fun _ S' => Conserves S S' ∧ Owned S'.node)
      (fun _ => Spends S) S := by
  simp only [flushBatch]
  rw [wp_bind, wp_getNode]
  set batch := if (G.cfg i).maxProposalBatch > 0 ∧ S.node.queue.length > (G.cfg i).maxProposalBatch then
    S.node.queue.take (G.cfg i).maxProposalBatch else S.node.queue with hbatch
  have hsplit : S.node.queue = batch ++ S.node.queue.drop batch.length := by
    rw [hbatch]
    split
    · next hc =>
      rw [List.length_take, Nat.min_eq_left (by omega), List.take_append_drop]
    · rw [List.drop_length, List.append_nil]
  clear_value batch
  rw [wp_bind, wp_modifyNode]
  set rest := S.node.queue.drop batch.length with hrest
  let n₁ : Node σ := { S.node with queue := rest }
  have hheld : S.node.held = n₁.held + (batch.map Proposal.ticket : List Ticket) := by
    simp only [Node.held, n₁]
    rw [hsplit, List.map_append, ← Multiset.coe_add]
    abel
  have hfail : Conserves S { S with
      node := n₁
      trace := S.trace ++ batch.map fun p =>
        ⟨.finishProposal p [] (some .notLeader), n₁, S.store⟩ } :=
    failProposals_books n₁ n₁ batch hheld rfl rfl
  rw [wp_ite]
  refine ⟨fun _ => (wp_emitAll batch _).mpr ⟨hfail, hown⟩, fun hl => ?_⟩
  have hl : S.node.r.state = .leader := not_not.mp hl
  let S₁ : Sys σ := { S with node := n₁ }
  have hR := h.reads
  have h₁ : Sound md b i pos S₁.node S₁.store := h.setNode _ rfl rfl h.pending
    { hR with }
  rw [wp_bind]
  refine ((propose_spec (S := S₁) _ ht h₁ hl).and (holds_propose (F := passive) S₁)).mono ?_ ?_
  · rintro first S₂ ⟨⟨b₂, -, -, -, rfl, -⟩, hpass⟩
    have hcons := hpass.toCore.conserves
    have hn : S₂.node = { n₁ with r := S₂.node.r } := hpass.node
    rw [wp_bind, wp_getRaft, wp_modifyNode]
    have hlt : ∀ k ∈ S₂.node.pending, k < (b.a.llog S₁.node.r.term).length + 1 := by
      intro k hk
      rw [hn] at hk
      exact h.pending_lt hown hl hk
    refine ⟨?_, ?_⟩
    · -- the batch has gone from the queue to the pending map
      obtain ⟨ps, hps, heq, hh⟩ := hcons.trace
      refine ⟨⟨ps, hps, ?_, hh⟩, hcons.handles⟩
      let pending := addPending S₂.node.pending S₂.node.r.term
        ((b.a.llog S₁.node.r.term).length + 1) batch
      show S.node.held = ({ S₂.node with pending := pending } : Node σ).held + _
      rw [hheld, show n₁.held = S₂.node.held + _ from heq]
      simp only [Node.held, pending]
      rw [pendingTickets_addPending batch hlt]
      abel
    · intro _ k p hp
      rcases lookup_addPending hp with hp | ⟨j, q, -, rfl, rfl⟩
      · rw [hn] at hp
        rw [hpass.term]
        exact hown hl k p hp
      · rfl
  · rintro e S₂ ⟨-, hpass⟩
    obtain ⟨ps, hps, heq, hh⟩ := hpass.toCore.conserves.trace
    refine ⟨ps, hps, ?_, hh⟩
    rw [hheld, show n₁.held = S₂.node.held + _ from heq]
    exact (Multiset.le_add_left _ _).trans (Multiset.le_add_right _ _)

theorem flushProposals_books (fuel : ℕ) (ht : Tr md i pos b₀ b S)
    (h : Sound md b i pos S.node S.store) (hown : Owned S.node) :
    Wp (flushProposals (G.cfg i) fuel) (fun _ S' => Conserves S S' ∧ Owned S'.node)
      (fun _ => Spends S) S := by
  induction fuel generalizing b S with
  | zero => exact wp_pure.mpr ⟨Conserves.refl S, hown⟩
  | succ fuel ih =>
    simp only [flushProposals]
    rw [wp_bind, wp_getNode, wp_when]
    refine ⟨fun _ => ?_, fun _ => ⟨Conserves.refl S, hown⟩⟩
    rw [wp_bind]
    refine ((flushBatch_spec ht h).and (flushBatch_books ht h hown)).mono ?_ fun _ _ h => h.2
    rintro _ S₁ ⟨⟨b₁, -, ht₁, h₁⟩, hcons, hown₁⟩
    refine (ih ht₁ h₁ hown₁).mono ?_ fun _ _ hs => Absorbs.after hcons hs
    rintro _ S₂ ⟨hcons₂, hown₂⟩
    exact ⟨hcons.trans hcons₂, hown₂⟩

/-- `advance` keeps the books, and clears the pending map of a node that does not lead. -/
theorem advance_books (ht : Tr md i pos b₀ b S) (h : Sound md b i pos S.node S.store)
    (hown : Owned S.node) :
    Wp (advance (G.cfg i) G.sm) (fun _ S' => Conserves S S' ∧ Kept S'.node)
      (fun _ => Spends S) S := by
  simp only [advance]
  rw [wp_bind, wp_getRaft]
  have hfail : Wp (when (S.node.r.state ≠ .leader) (failAll : M σ Unit))
      (fun _ S' => Ends md i pos b₀ b S' ∧ Conserves S S' ∧ Kept S'.node)
      (fun _ => Spends S) S := by
    rw [wp_when]
    refine ⟨fun hl => ?_, fun hl => ⟨Ends.here ht h, Conserves.refl S, hown, fun hne => absurd hne hl⟩⟩
    refine ((failAll_spec ht h).and (failAll_books (R := fun _ _ => False))).mono ?_
      fun _ _ h => h.2.elim
    rintro _ S₁ ⟨hends, hcons, hn⟩
    refine ⟨hends, hcons, ?_, ?_⟩
    · rw [hn]
      exact fun hl' => absurd hl' hl
    · rw [hn]
      exact fun _ => rfl
  refine Wp.bind hfail ?_
  rintro _ S₁ ⟨⟨b₁, -, ht₁, h₁⟩, hcons₁, hkept₁⟩
  -- from here on the node keeps its role and takes no new proposal
  suffices hrest : Wp _ (fun _ => Tends S₁) (fun _ => Spends S₁) S₁ by
    refine hrest.mono (fun _ S' htends => ⟨hcons₁.trans htends.toConserves, htends.owned hkept₁.owned, ?_⟩)
      fun _ _ hs => Absorbs.after hcons₁ hs
    intro hl
    rw [htends.state] at hl
    refine AList.ext (List.eq_nil_iff_forall_not_mem.mpr fun x hx => ?_)
    have hlook := htends.pending x.1 x.2 (AList.mem_lookup_iff.mpr hx)
    rw [hkept₁.empty hl] at hlook
    cases hlook
  refine Wp.bind ((loadRestored_spec G.sm ht₁ h₁).and (holds_loadRestored (F := books) S₁) |>.mono
    (fun _ _ h => h) fun _ _ h => h.2) ?_
  rintro _ S₂ ⟨⟨ht₂, h₂⟩, htend₂⟩
  rw [wp_bind, wp_getNode]
  refine Wp.bind ((applyCommitted_spec G.sm (by omega) ht₂ h₂).and (holds_applyCommitted (F := books) _ S₂) |>.mono
    (fun _ _ h => h) fun _ _ h => Absorbs.after htend₂ h.2) ?_
  rintro _ S₃ ⟨⟨ht₃, h₃, -⟩, htend₃⟩
  have htend : Tends S₁ S₃ := trans_of Tends htend₂ htend₃
  have hafter : ∀ {x : M σ Unit}, Wp x (fun _ => Tends S₃) (fun _ => Spends S₃) S₃ →
      Wp x (fun _ => Tends S₁) (fun _ => Spends S₁) S₃ := fun hx =>
    hx.mono (fun _ _ h => trans_of Tends htend h) fun _ _ h => Absorbs.after htend h
  refine hafter (Wp.bind (startReads_books fun id q hq => (h₃.reads.queued id q hq).1) fun _ S₄ htend₄ => ?_)
  have hbooks : books.Holds (do collectReady; finishWaiting; maybeSnapshot (G.cfg i) G.sm : M σ Unit) :=
    .bind books_collectReady fun _ => .bind books_finishWaiting fun _ =>
      holds_maybeSnapshot fun S => ⟨Core.conserves (core_compactStore S), rfl, rfl, fun _ _ h => h⟩
  exact (hbooks S₄).mono (fun _ _ h => trans_of Tends htend₄ h) fun _ _ h => Absorbs.after htend₄ h

/-! ## The operations. -/

/-- The tickets an operation hands out. -/
def Node.handedOut (n : Node σ) : Input → List Ticket
  | .propose data => [(n.handles, some data)]
  | .readIndex => [(n.handles, none)]
  | _ => []

/-- The books of one operation: what is handed out comes in, what is finished goes out. -/
structure Booked (inp : Input) (S S' : Sys σ) : Prop where
  trace : ∃ ps, S'.trace = S.trace ++ ps ∧
    S.node.held + (S.node.handedOut inp : Multiset Ticket) =
      S'.node.held + finished (ps.map Point.effect) ∧
    finished (ps.map Point.effect) ≤ S.node.held ∧ ∀ p ∈ ps, p.node.handles = S.node.handles
  handles : S'.node.handles = S.node.handles + (S.node.handedOut inp).length

theorem Conserves.booked {inp : Input} (h : Conserves S S') (hout : S.node.handedOut inp = []) :
    Booked inp S S' := by
  obtain ⟨ps, hps, heq, hh⟩ := h.trace
  refine ⟨⟨ps, hps, ?_, ?_, hh⟩, by rw [hout]; exact h.handles⟩
  · rw [hout, Multiset.coe_nil, add_zero]
    exact heq
  · rw [heq]
    exact Multiset.le_add_left _ _

/-- A call that leaves the driver alone, then `advance`. -/
theorem thenAdvance_books {x : M σ Unit}
    (hspec : Wp x (fun _ => Ends md i pos b₀ b) (Stops md i pos b₀) S)
    (hx : Wp x (fun _ S' => Conserves S S' ∧ Owned S'.node) (fun _ => Spends S) S) :
    Wp (x >>= fun _ => advance (G.cfg i) G.sm) (fun _ S' => Conserves S S' ∧ Kept S'.node)
      (fun _ => Spends S) S := by
  refine Wp.bind ((hspec.and hx).mono (fun _ _ h => h) fun _ _ h => h.2) ?_
  rintro _ S₁ ⟨⟨b₁, -, ht₁, h₁⟩, hcons, hown⟩
  refine (advance_books ht₁ h₁ hown).mono ?_ fun _ _ hs => Absorbs.after hcons hs
  rintro _ S₂ ⟨hcons₂, hkept⟩
  exact ⟨hcons.trans hcons₂, hkept⟩

/-- A node that leads after a call of the core led its term before, or had no pending proposal. -/
theorem Kept.owned_after (hkept : Kept S.node) (hcore : Core S S')
    (hlead : S.node.r.state = .leader → S'.node.r.state = .leader →
      S'.node.r.term = S.node.r.term) : Owned S'.node := by
  intro hl k p hp
  rw [hcore.node.pending] at hp
  by_cases hl₀ : S.node.r.state = .leader
  · rw [hlead hl₀ hl]
    exact hkept.owned hl₀ k p hp
  · rw [hkept.empty hl₀] at hp
    cases hp

theorem operate_books {inp : Input} (hin : InputOK md b i S.node S.store inp)
    (ht : Tr md i pos b b S) (h : Resting md b i pos S.node S.store) (hkept : Kept S.node) :
    Wp (operate (G.cfg i) G.sm inp) (fun _ S' => Booked inp S S' ∧ Kept S'.node)
      (fun _ => Spends S) S := by
  have hquiet : ∀ {x : M σ Unit}, S.node.handedOut inp = [] →
      Wp x (fun _ S' => Conserves S S' ∧ Kept S'.node) (fun _ => Spends S) S →
      Wp x (fun _ S' => Booked inp S S' ∧ Kept S'.node) (fun _ => Spends S) S :=
    fun hout hx => hx.imp fun _ _ h => ⟨h.1.booked hout, h.2⟩
  cases inp with
  | tick =>
    refine hquiet rfl (thenAdvance_books (tick_spec ht h.toSound) ?_)
    have hlead : Wp (tick (G.cfg i)) (fun _ S' => S.node.r.state = .leader →
        S'.node.r.state = .leader → S'.node.r.term = S.node.r.term) (fun _ _ => True) S := by
      by_cases hl : S.node.r.state = .leader
      · exact (tick_leader hl).imp fun _ _ h _ _ => h.2
      · exact wp_of_forall (fun _ _ hl' => absurd hl' hl) fun _ _ => trivial
    refine ((core_of_calm holds_tick S).and hlead).mono ?_ fun _ _ hc => (Core.conserves hc.1).spends
    rintro _ S₁ ⟨hcore, hlead⟩
    exact ⟨Core.conserves hcore, hkept.owned_after hcore hlead⟩
  | step m =>
    obtain ⟨hm, hto⟩ := hin.msg m rfl
    refine hquiet rfl (thenAdvance_books (step_spec hm hto ht h.toSound (fun hc => hin.clean hc m rfl)
      fun hf => hin.fresh hf m rfl) ?_)
    refine ((core_step S).and (tenure_step S)).mono ?_ fun _ _ hc => (Core.conserves hc.1).spends
    rintro _ S₁ ⟨hcore, htenure⟩
    refine ⟨Core.conserves hcore, hkept.owned_after hcore fun hl hl' => ?_⟩
    rcases htenure.leader hl with ⟨-, hterm⟩ | hf
    · exact hterm
    · rw [hf] at hl'
      cases hl'
  | propose data =>
    refine ⟨⟨⟨[], (List.append_nil _).symm, ?_, Multiset.zero_le _, by simp⟩, rfl⟩, hkept.owned,
      hkept.empty⟩
    show S.node.held + _ = ({ S.node with
      queue := S.node.queue ++ [{ handle := S.node.handles, data := data }]
      handles := S.node.handles + 1 } : Node σ).held + _
    simp only [Node.held, Node.handedOut, List.map_append, ← Multiset.coe_add, List.map_nil,
      finished_nil, List.map_singleton, Proposal.ticket]
    abel
  | readIndex =>
    refine ⟨⟨⟨[], (List.append_nil _).symm, ?_, Multiset.zero_le _, by simp⟩, rfl⟩, hkept.owned,
      hkept.empty⟩
    show S.node.held + _ = ({ S.node with
      readQueue := S.node.readQueue ++ [{ handle := S.node.handles }]
      handles := S.node.handles + 1 } : Node σ).held + _
    simp only [Node.held, Node.handedOut, List.map_append, ← Multiset.coe_add, List.map_nil,
      finished_nil, List.map_singleton, Read.ticket]
    abel
  | flush =>
    refine hquiet rfl ?_
    simp only [operate]
    rw [wp_bind, wp_getNode]
    exact thenAdvance_books (flushProposals_spec _ ht h.toSound)
      (flushProposals_books _ ht h.toSound hkept.owned)

/-! ## Runs. -/

/-- The tickets a run shows node `i` to finish. -/
def finishedBy (i : NodeID) (os : List (View σ)) : Multiset Ticket :=
  finished ((viewsOf i os).filterMap View.effect)

/-- The tickets node `i` holds; a process that is down holds none. -/
def heldBy (c : Cluster σ) (i : NodeID) : Multiset Ticket :=
  match (c.procs i).node with
  | some n => n.held
  | none => 0

theorem finishedBy_append (i : NodeID) (os os' : List (View σ)) :
    finishedBy i (os ++ os') = finishedBy i os + finishedBy i os' := by
  rw [finishedBy, viewsOf_append, List.filterMap_append, finished_append]
  rfl

theorem finishedBy_ne {j : NodeID} (h : ∀ v ∈ os, v.id = j) (hj : j ≠ i) : finishedBy i os = 0 := by
  rw [finishedBy, viewsOf_ne h hj]
  rfl

theorem finishedBy_points (i : NodeID) (ps : List (Point σ)) :
    finishedBy i (ps.map (Point.view i)) = finished (ps.map Point.effect) := by
  rw [finishedBy, viewsOf_self]
  · congr 1
    rw [List.filterMap_map]
    show ps.filterMap (fun p => some p.effect) = _
    rw [List.filterMap_eq_map']
  · intro v hv
    obtain ⟨p, -, rfl⟩ := List.mem_map.mp hv
    rfl

/-- The tickets node `i` has issued: it holds them, has finished them, or lost them in a crash. -/
structure Ledger (i : NodeID) (c : Cluster σ) (os : List (View σ)) (issued lost : Multiset Ticket) :
    Prop where
  sum : issued = heldBy c i + finishedBy i os + lost
  nodup : (issued.map Prod.fst).Nodup
  bound : ∀ t ∈ issued, t.1 < (c.procs i).handles

/-- In every reachable cluster the nodes have their pending proposals in order. -/
def AllKept (c : Cluster σ) : Prop := ∀ i n, (c.procs i).node = some n → Kept n

theorem perform_books (hok : ClusterOK Mode.free b c) (hkept : AllKept c)
    (hn : (c.procs i).node = some n) {inp : Input} (hd : Deliverable c.sent i inp) :
    match perform G c i n inp with
    | .ok _ S => Booked inp { node := n, store := (c.procs i).store } S ∧ Kept S.node
    | .error _ S => Spends { node := n, store := (c.procs i).store } S := by
  obtain ⟨hr, -⟩ := (hok.procs i).up n hn
  have hspec := operate_books (S := { node := n, store := (c.procs i).store }) (hok.inputFree hn hd)
    (Linked.nil (Grow.refl i b)) hr (hkept i n hn)
  unfold Wp at hspec
  unfold perform
  split at hspec
  · next S heq =>
    rw [heq]
    exact hspec
  · next S heq =>
    rw [heq]
    exact hspec

/-- What a first part of an operation finishes, the node held; and the counter stands still. -/
theorem effects_books (hok : ClusterOK Mode.free b c) (hkept : AllKept c)
    (hn : (c.procs i).node = some n) {inp : Input} (hd : Deliverable c.sent i inp)
    {ps rest : List (Point σ)} (heff : effects (perform G c i n inp) = ps ++ rest) :
    finished (ps.map Point.effect) ≤ n.held ∧ ∀ p ∈ ps, p.node.handles = n.handles := by
  have hall : finished ((ps ++ rest).map Point.effect) ≤ n.held ∧
      ∀ p ∈ ps ++ rest, p.node.handles = n.handles := by
    have hperf := perform_books hok hkept hn hd
    rw [← heff]
    cases hres : perform G c i n inp with
    | ok u S =>
      rw [hres] at hperf
      obtain ⟨⟨⟨qs, hqs, -, hle, hh⟩, -⟩, -⟩ := hperf
      have hqs : S.trace = qs := hqs
      show finished (S.trace.map Point.effect) ≤ n.held ∧ ∀ p ∈ S.trace, p.node.handles = n.handles
      rw [hqs]
      exact ⟨hle, hh⟩
    | error e S =>
      rw [hres] at hperf
      obtain ⟨qs, hqs, hle, hh⟩ := hperf
      have hqs : S.trace = qs := hqs
      show finished (S.trace.map Point.effect) ≤ n.held ∧ ∀ p ∈ S.trace, p.node.handles = n.handles
      rw [hqs]
      exact ⟨hle, hh⟩
  refine ⟨?_, fun p hp => hall.2 p (List.mem_append_left _ hp)⟩
  refine le_trans ?_ hall.1
  rw [List.map_append, finished_append]
  exact Multiset.le_add_right _ _

theorem heldBy_up (hn : (c.procs i).node = some n) : heldBy c i = n.held := by
  rw [heldBy, hn]

theorem heldBy_down (hn : (c.procs i).node = none) : heldBy c i = 0 := by
  rw [heldBy, hn]

/-- A node that has just been started holds nothing. -/
theorem held_of_newNode {s : MemStore} {st : σ} {rng : ℕ → ℕ} {k : ℕ}
    (h : newNode cfg sm s st rng k = some n) : n.held = 0 ∧ n.handles = k := by
  obtain ⟨-, -, -, heq⟩ := newNode_resumes h
  rw [heq]
  exact ⟨rfl, rfl⟩

/-- Handles are handed out in order, at most one at a time. -/
theorem Node.handedOut_cases (n : Node σ) (inp : Input) :
    n.handedOut inp = [] ∨ ∃ payload, n.handedOut inp = [(n.handles, payload)] := by
  cases inp <;> first | exact Or.inl rfl | exact Or.inr ⟨_, rfl⟩

/-- The tickets an event hands out at node `i`. -/
def issuedBy (c : Cluster σ) (i : NodeID) : Event σ → List Ticket
  | .op j inp =>
    match (c.procs i).node with
    | some n => if j = i then n.handedOut inp else []
    | none => []
  | _ => []

/-- An operation that hands out a ticket is completed. -/
theorem issuedBy_stopped {e : Event σ} {os' : List (View σ)} (hexec : exec G c e = some (c', os'))
    (hdown : (c'.procs i).node = none) : issuedBy c i e = [] := by
  cases e with
  | crash j inp k => rfl
  | restart j st rng => rfl
  | op j inp =>
    simp only [issuedBy]
    split
    · next n hn =>
      split
      · next hj =>
        subst hj
        simp only [exec, hn] at hexec
        cases inp with
        | propose data =>
          rw [if_pos (show Deliverable c.sent j (.propose data) from trivial)] at hexec
          obtain ⟨rfl, -⟩ := Prod.mk.inj (Option.some.inj hexec)
          simp at hdown
        | readIndex =>
          rw [if_pos (show Deliverable c.sent j .readIndex from trivial)] at hexec
          obtain ⟨rfl, -⟩ := Prod.mk.inj (Option.some.inj hexec)
          simp at hdown
        | _ => rfl
      · rfl
    · rfl

section Ledger

variable {os' : List (View σ)} {issued lost : Multiset Ticket}

/-- Tickets are issued, moved and finished. -/
theorem Ledger.issue (hL : Ledger i c os issued lost) (out : List Ticket)
    (hout : out = [] ∨ ∃ payload, out = [((c.procs i).handles, payload)])
    (hbal : heldBy c i + out = heldBy c' i + finishedBy i os')
    (hhan : (c'.procs i).handles = (c.procs i).handles + out.length) :
    Ledger i c' (os ++ os') (issued + out) lost where
  sum := by
    have hmove : heldBy c i + finishedBy i os + lost + (out : Multiset Ticket) =
        heldBy c i + out + (finishedBy i os + lost) := by
      abel
    rw [hL.sum, finishedBy_append, hmove, hbal]
    abel
  nodup := by
    rcases hout with rfl | ⟨payload, rfl⟩
    · simpa using hL.nodup
    · rw [Multiset.coe_singleton, Multiset.map_add, Multiset.map_singleton, add_comm,
        Multiset.singleton_add, Multiset.nodup_cons]
      refine ⟨fun hmem => ?_, hL.nodup⟩
      obtain ⟨t, ht, heq⟩ := Multiset.mem_map.mp hmem
      have hlt := hL.bound t ht
      rw [heq] at hlt
      exact lt_irrefl _ hlt
  bound t ht := by
    rw [hhan]
    rcases Multiset.mem_add.mp ht with ht | ht
    · have := hL.bound t ht
      omega
    · rcases hout with rfl | ⟨payload, rfl⟩
      · simp at ht
      · obtain rfl : t = ((c.procs i).handles, payload) := by simpa using ht
        exact Nat.lt_succ_self _

/-- A process stops: what it has not finished of what it held is lost. -/
theorem Ledger.lose (hL : Ledger i c os issued lost) (hdown : (c'.procs i).node = none)
    (hle : finishedBy i os' ≤ heldBy c i) (hhan : (c'.procs i).handles = (c.procs i).handles) :
    ∃ lost', Ledger i c' (os ++ os') issued lost' := by
  obtain ⟨rest, hrest⟩ := Multiset.le_iff_exists_add.mp hle
  refine ⟨lost + rest, ?_, hL.nodup, by rw [hhan]; exact hL.bound⟩
  rw [hL.sum, heldBy_down hdown, hrest, finishedBy_append]
  abel

/-- STEP.  An event issues the tickets it hands out, and loses some only when the process stops. -/
theorem exec_ledger {e : Event σ} (hok : ClusterOK Mode.free b c) (hkept : AllKept c)
    (hL : Ledger i c os issued lost) (hexec : exec G c e = some (c', os')) :
    ∃ lost', Ledger i c' (os ++ os') (issued + issuedBy c i e) lost' ∧
      (lost' = lost ∨ (c'.procs i).node = none) := by
  obtain ⟨hids, hframe⟩ := exec_frame hexec
  by_cases hi : e.node = i
  · rcases exec_cases hexec with ⟨j, inp, n, S, rfl, hn, hd, hres, heq⟩ |
      ⟨j, inp, n, ps, rest, hev, hn, hd, heff, heq⟩ | ⟨j, st, rng, n, rfl, -, hdown, -, hnew, heq⟩
    · -- a completed operation
      obtain rfl : j = i := hi
      have hperf := perform_books hok hkept hn hd
      rw [hres] at hperf
      obtain ⟨⟨⟨qs, hqs, hbal, -, -⟩, hhan⟩, -⟩ := hperf
      have hqs : S.trace = qs := hqs
      have hnh : n.handles = (c.procs j).handles := ((hok.procs j).up n hn).2
      have hissued : issuedBy c j (.op j inp) = n.handedOut inp := by simp [issuedBy, hn]
      obtain ⟨rfl, rfl⟩ := Prod.mk.inj heq
      refine ⟨lost, hL.issue _ ?_ ?_ ?_, Or.inl rfl⟩
      · rw [hissued, ← hnh]
        exact n.handedOut_cases inp
      · rw [hissued, heldBy_up hn, heldBy_up (n := S.node) (by simp), finishedBy_append,
          finishedBy_points, hqs]
        simpa [finishedBy, viewsOf] using hbal
      · simpa [hissued, ← hnh] using hhan
    · -- a first part of an operation
      obtain rfl : j = i := by
        rcases hev with rfl | ⟨k, rfl⟩ <;> exact hi
      obtain ⟨hle, hh⟩ := effects_books hok hkept hn hd heff
      have hnh : n.handles = (c.procs j).handles := ((hok.procs j).up n hn).2
      have hdown : (c'.procs j).node = none := by
        rw [(Prod.mk.inj heq).1]
        simp
      rw [issuedBy_stopped hexec hdown, Multiset.coe_nil, add_zero]
      obtain ⟨lost', hL'⟩ : ∃ lost', Ledger j c' (os ++ os') issued lost' := by
        refine hL.lose hdown ?_ ?_
        · rw [heldBy_up hn, (Prod.mk.inj heq).2]
          exact (finishedBy_points j ps).trans_le hle
        · rw [← hnh, (Prod.mk.inj heq).1]
          simp only [Function.update_self]
          cases hlast : ps.getLast? with
          | none => rfl
          | some p => exact hh p (List.mem_of_getLast? hlast)
      exact ⟨lost', hL', Or.inr hdown⟩
    · -- a start
      obtain rfl : j = i := hi
      obtain ⟨hheld, -⟩ := held_of_newNode hnew
      obtain ⟨rfl, rfl⟩ := Prod.mk.inj heq
      refine ⟨lost, hL.issue [] (Or.inl rfl) ?_ (by simp), Or.inl rfl⟩
      rw [heldBy_down hdown, heldBy_up (n := n) (by simp), hheld]
      simp [finishedBy, viewsOf]
  · have hnone : issuedBy c i e = [] := by
      cases e with
      | op j inp =>
        simp only [issuedBy]
        split
        · exact if_neg hi
        · rfl
      | crash j inp k => rfl
      | restart j st rng => rfl
    refine ⟨lost, hL.issue _ (Or.inl hnone) ?_ ?_, Or.inl rfl⟩
    · rw [hnone, finishedBy_ne hids hi, heldBy, heldBy, hframe i (Ne.symm hi)]
      simp
    · rw [hnone, hframe i (Ne.symm hi)]
      rfl

theorem exec_allKept {e : Event σ} (hok : ClusterOK Mode.free b c) (hkept : AllKept c)
    (hexec : exec G c e = some (c', os')) : AllKept c' := by
  refine exec_nodes hexec hkept (fun i inp n S hn hd hres => ?_) fun i st rng n hnew => ?_
  · have hperf := perform_books hok hkept hn hd
    rw [hres] at hperf
    exact hperf.2
  · obtain ⟨-, -, hfollow, heq⟩ := newNode_resumes hnew
    exact ⟨fun hl => absurd (hfollow.symm.trans hl) (by simp), fun _ => by rw [heq]⟩

theorem Ledger.init (i : NodeID) : Ledger i ({} : Cluster σ) [] 0 0 :=
  ⟨rfl, Multiset.nodup_zero, by simp⟩

theorem allKept_init : AllKept ({} : Cluster σ) := by
  intro i n hn
  cases hn

theorem run_kept (hrun : run G es = some (c, os)) :
    (∃ b : History G, ClusterOK Mode.free b c) ∧ AllKept c := by
  refine Machine.run_invariant (C := fun _ _ => True)
    (I := fun c => (∃ b : History G, ClusterOK Mode.free b c) ∧ AllKept c) ?_
    ⟨⟨_, ClusterOK.init _ G⟩, allKept_init⟩ ((machine G).meets_true _ _) hrun
  rintro c e c' os ⟨⟨b, hok⟩, hkept⟩ - hexec
  obtain ⟨b', -, hok'⟩ := exec_ok hok ⟨False.elim, False.elim⟩ hexec
  exact ⟨⟨b', hok'⟩, exec_allKept hok hkept hexec⟩

/-- RUN.  What was issued stays issued; and as long as the process does not start again, nothing is
lost. -/
theorem run_ledger (hok : ClusterOK Mode.free b c) (hkept : AllKept c)
    (hL : Ledger i c os issued lost) (hrun : (machine G).run c es = some (c', os')) :
    ∃ issued' lost', Ledger i c' (os ++ os') issued' lost' ∧ issued ≤ issued' ∧
      ((∀ e ∈ es, ¬ e.Restarts i) → (c'.procs i).node ≠ none → lost' = lost) := by
  induction es generalizing b c os os' issued lost with
  | nil =>
    obtain ⟨rfl, rfl⟩ := Prod.mk.inj (Option.some.inj hrun)
    refine ⟨issued, lost, ?_, le_rfl, fun _ _ => rfl⟩
    rw [List.append_nil]
    exact hL
  | cons e es ih =>
    obtain ⟨c₁, os₁, os₂, hexec, hrest, rfl⟩ := Machine.run_cons hrun
    have hexec : exec G c e = some (c₁, os₁) := hexec
    obtain ⟨b₁, -, hok₁⟩ := exec_ok hok ⟨False.elim, False.elim⟩ hexec
    obtain ⟨lost₁, hL₁, hlost₁⟩ := exec_ledger hok hkept hL hexec
    obtain ⟨issued', lost', hL', hle, hlost'⟩ := ih hok₁ (exec_allKept hok hkept hexec) hL₁ hrest
    rw [List.append_assoc] at hL'
    refine ⟨issued', lost', hL', (Multiset.le_add_right _ _).trans hle, fun hlife hup => ?_⟩
    have hlife' : ∀ e ∈ es, ¬ e.Restarts i := fun e he => hlife e (List.mem_cons_of_mem _ he)
    rw [hlost' hlife' hup]
    rcases hlost₁ with rfl | hdown
    · rfl
    · -- a process that is down stays down until it is started
      obtain ⟨-, hstay⟩ := run_down hlife' hrest hdown
      exact absurd hstay hup

end Ledger

theorem Served.follows {q q' : ℕ × σ} {vs : List (View σ)} (h : Served sm q vs q') {w : View σ}
    (hw : w ∈ vs) : ∃ q, Follows sm q w := by
  induction vs generalizing q with
  | nil => cases hw
  | cons v vs ih =>
    rcases List.mem_cons.mp hw with rfl | hw
    · exact ⟨q, h.1⟩
    · exact ih h.2 hw

/-- STEP.  Every answer of a node follows on the applied entry it is about, and everything the node
shows follows on some position. -/
theorem exec_answered {e : Event σ} (hok : ClusterOK Mode.free b c) (hset : NoRequest c)
    (hexec : exec G c e = some (c', os)) :
    Answered (viewsOf i os) ∧ ∀ w ∈ viewsOf i os, ∃ q, Follows G.sm q w := by
  have hdriven : ∀ {q q' vs}, Driven G.sm q vs q' → Answered vs ∧ ∀ w ∈ vs, ∃ q, Follows G.sm q w :=
    fun h => ⟨h.answered, fun _ hw => h.served.follows hw⟩
  by_cases he : e.Restarts i
  · rcases exec_cases hexec with ⟨j, inp, n₀, S, rfl, -⟩ | ⟨j, inp, n₀, ps, rest, hev, -⟩ |
      ⟨j, st, rng, n, rfl, -, -, -, -, heq⟩
    · cases he
    · rcases hev with rfl | ⟨k, rfl⟩ <;> cases he
    · obtain rfl : j = i := he
      obtain ⟨rfl, rfl⟩ := Prod.mk.inj heq
      rw [viewsOf_self (by simp)]
      exact hdriven (Driven.idle rfl rfl)
  · cases hn : (c.procs i).node with
    | none =>
      obtain ⟨hnil, -⟩ := exec_down hexec he hn
      rw [hnil]
      exact ⟨.of_quiet (by simp), by simp⟩
    | some n =>
      obtain ⟨q, hq, -⟩ := exec_served hok hset hexec he hn
      exact hdriven hq

/-- RUN. -/
theorem run_answered (hok : ClusterOK Mode.free b c) (hset : NoRequest c)
    (hrun : (machine G).run c es = some (c', os)) :
    Answered (viewsOf i os) ∧ ∀ w ∈ viewsOf i os, ∃ q, Follows G.sm q w := by
  induction es generalizing b c os with
  | nil =>
    obtain ⟨rfl, rfl⟩ := Prod.mk.inj (Option.some.inj hrun)
    exact ⟨.of_quiet (by simp [viewsOf]), by simp [viewsOf]⟩
  | cons e es ih =>
    obtain ⟨c₁, os₁, os₂, hexec, hrest, rfl⟩ := Machine.run_cons hrun
    obtain ⟨b₁, -, hok₁⟩ := exec_ok hok ⟨False.elim, False.elim⟩ hexec
    obtain ⟨hans₁, hfol₁⟩ := exec_answered (i := i) hok hset hexec
    obtain ⟨hans₂, hfol₂⟩ := ih hok₁ (exec_noRequest hok hset hexec) hrest
    rw [viewsOf_append]
    refine ⟨hans₁.append hans₂, fun w hw => ?_⟩
    rcases List.mem_append.mp hw with hw | hw
    · exact hfol₁ w hw
    · exact hfol₂ w hw

/-- What a run answers is committed in the history of the whole run. -/
theorem answer_committed {b' : History G} (hlink : Linked Later (ViewOK md) b os b') {v : View σ}
    (hv : v ∈ os) {p : Proposal} {result : Bytes}
    (heff : v.effect = some (.finishProposal p result none)) :
    ∃ T e, Committed b'.a T p.index e ∧ e.type = .normal ∧ e.data = p.data := by
  refine Linked.all (P := fun b v => v.effect = some (.finishProposal p result none) →
    ∃ T e, Committed b.a T p.index e ∧ e.type = .normal ∧ e.data = p.data) ?_ ?_ hlink hv heff
  · rintro b v ⟨pos, hshown⟩ heff
    obtain ⟨e, hc, htype, hdata, -⟩ := hshown.effect _ heff rfl
    exact ⟨_, e, hc, htype, hdata⟩
  · rintro b b' v hP hl heff
    obtain ⟨T, e, hc, hrest⟩ := hP heff
    exact ⟨T, e, hc.of_le hl.le, hrest⟩

/-- PROPOSAL HANDLES.  In every run of a group and for every node of it:

* no handle is finished twice or held twice, and none is both finished and still held.  What a node
  holds counts the queue and the pending map of its proposals, and the queue, the rounds and the waiting
  list of its reads;
* a handle keeps the payload it was issued with, and it is held or finished as long as the process that
  issued it lives;
* a proposal that finishes without an error does so right after the node applied the committed entry at
  its index, a `normal` entry with the proposal's payload, with the result the state machine gave. -/
theorem proposal_handles (hrun : run G es = some (c, os)) (i : NodeID) :
    ((heldBy c i + finishedBy i os).map Prod.fst).Nodup ∧
    (∀ es₁ inp es₂ c₁ os₁ n t, es = es₁ ++ .op i inp :: es₂ → run G es₁ = some (c₁, os₁) →
      (c₁.procs i).node = some n → t ∈ n.handedOut inp →
      (∀ t' ∈ heldBy c i + finishedBy i os, t'.1 = t.1 → t' = t) ∧
      ((∀ e ∈ es₂, ¬ e.Restarts i) → (c.procs i).node ≠ none → t ∈ heldBy c i + finishedBy i os)) ∧
    ∀ before v after p result, viewsOf i os = before ++ v :: after →
      v.effect = some (.finishProposal p result none) →
      ∃ before' w e st, before = before' ++ [w] ∧ w.effect = some (.apply e result) ∧
        w.HasCommitted p.index e ∧ e.type = .normal ∧ e.data = p.data ∧
        G.sm.apply st e = (result, w.node.sm) := by
  refine ⟨?_, ?_, ?_⟩
  · obtain ⟨issued, lost, hL, -⟩ := run_ledger (ClusterOK.init _ G) allKept_init (Ledger.init i) hrun
    have hnodup := hL.nodup
    rw [hL.sum, Multiset.map_add] at hnodup
    exact (Multiset.nodup_add.mp hnodup).1
  · rintro es₁ inp es₂ c₁ os₁ n t rfl hrun₁ hn ht
    obtain ⟨c₁', os₁', os', hrun₁', hrun', rfl⟩ := Machine.run_append hrun
    obtain ⟨rfl, rfl⟩ := Prod.mk.inj (Option.some.inj (hrun₁.symm.trans hrun₁'))
    obtain ⟨c₂, osr, os₂, hexec, hrun₂, rfl⟩ := Machine.run_cons hrun'
    have hexec : exec G c₁ (.op i inp) = some (c₂, osr) := hexec
    obtain ⟨⟨b₁, hok₁⟩, hkept₁⟩ := run_kept hrun₁
    obtain ⟨b₂, -, hok₂⟩ := exec_ok hok₁ ⟨False.elim, False.elim⟩ hexec
    obtain ⟨issued₁, lost₁, hL₁, -⟩ :=
      run_ledger (ClusterOK.init _ G) allKept_init (Ledger.init i) hrun₁
    obtain ⟨lost₂, hL₂, hlost₂⟩ := exec_ledger hok₁ hkept₁ hL₁ hexec
    obtain ⟨issued', lost', hL', hle, hlost'⟩ :=
      run_ledger hok₂ (exec_allKept hok₁ hkept₁ hexec) hL₂ hrun₂
    rw [List.nil_append, List.append_assoc] at hL'
    have hissued : t ∈ issued' := by
      refine Multiset.mem_of_le hle (Multiset.mem_add.mpr (Or.inr ?_))
      simpa [issuedBy, hn] using ht
    refine ⟨fun t' ht' heq => ?_, fun hlife hup => ?_⟩
    · refine Multiset.inj_on_of_nodup_map hL'.nodup t' ?_ t hissued heq
      rw [hL'.sum]
      exact Multiset.mem_add.mpr (Or.inl ht')
    · have hlost : lost' = lost₁ := by
        rw [hlost' hlife hup]
        rcases hlost₂ with h | hdown
        · exact h
        · exact absurd (run_down hlife hrun₂ hdown).2 hup
      rw [hL'.sum] at hissued
      rcases Multiset.mem_add.mp hissued with h | h
      · exact h
      · -- a lost ticket is older than the one handed out
        exfalso
        have hfst : t.1 = n.handles := by
          rcases n.handedOut_cases inp with hnil | ⟨payload, hone⟩
          · rw [hnil] at ht
            cases ht
          · rw [hone, List.mem_singleton] at ht
            rw [ht]
        have hbound := hL₁.bound t (by
          rw [hL₁.sum, ← hlost]
          exact Multiset.mem_add.mpr (Or.inr h))
        rw [hfst, ((hok₁.procs i).up n hn).2] at hbound
        exact lt_irrefl _ hbound
  · intro before v after p result hviews heff
    obtain ⟨hans, hfol⟩ := run_answered (i := i) (ClusterOK.init _ G) (by intro i n hn; cases hn) hrun
    obtain ⟨before', w, e, rfl, hw, hidx⟩ := hans before v after p result hviews heff
    have hmem : ∀ u ∈ [w, v], u ∈ viewsOf i os := by
      intro u hu
      rw [hviews]
      simp only [List.mem_cons, List.not_mem_nil, or_false] at hu
      rcases hu with rfl | rfl <;> simp
    have hwv := hmem w (by simp)
    have hvv := hmem v (by simp)
    obtain ⟨q, hq⟩ := hfol w hwv
    unfold Follows at hq
    rw [hw] at hq
    obtain ⟨-, -, hcommitted, happly⟩ := hq
    -- the entry that was applied is the one the proposal was appended as
    obtain ⟨b, hlink⟩ := run_history hrun
    obtain ⟨T, e', hc', htype, hdata⟩ := answer_committed hlink (List.mem_of_mem_filter hvv) heff
    have hc := settled_committed hlink (List.mem_of_mem_filter hwv) (Or.inl hcommitted)
    rw [hidx] at hc
    obtain rfl := hc.unique b.inv hc'
    rw [if_pos htype] at happly
    rw [hidx] at hcommitted
    exact ⟨before', w, e, q.2, rfl, hw, hcommitted, htype, hdata, happly⟩

end Group

/-- Node 1 issues its first handle for the proposal of the run. -/
theorem handover_proposer :
    ∃ c₁ os₁ n, run (trio 0) (handover.take 8) = some (c₁, os₁) ∧ (c₁.procs 1).node = some n ∧
      n.handles = 0 := by
  have hk : ((run (trio 0) (handover.take 8)).bind fun x =>
      (x.1.procs 1).node.map Node.handles) = some 0 := by decide +kernel
  obtain ⟨⟨c₁, os₁⟩, hrun, hk⟩ := Option.bind_eq_some_iff.mp hk
  obtain ⟨n, hn, hk⟩ := Option.map_eq_some_iff.mp hk
  exact ⟨c₁, os₁, n, hrun, hn, hk⟩

/-- It is answered later in the run. -/
theorem handover_answers :
    ∃ c os before v after, run (trio 0) handover = some (c, os) ∧ (c.procs 1).node ≠ none ∧
      viewsOf 1 os = before ++ v :: after ∧
      v.effect = some (.finishProposal { handle := 0, data := [7], term := 1, index := 2 } [] none) := by
  have hup : (handed.1.procs 1).node.isSome = true := by decide +kernel
  have hk : ((viewsOf 1 handed.2)[25]?).map View.effect = some (some (.finishProposal
      { handle := 0, data := [7], term := 1, index := 2 } [] none)) := by decide +kernel
  obtain ⟨v, hv, heff⟩ := Option.map_eq_some_iff.mp hk
  obtain ⟨before, after, hviews⟩ := List.append_of_mem (List.mem_of_getElem? hv)
  exact ⟨_, _, before, v, after, run_handover, Option.isSome_iff_ne_none.mp hup, hviews, heff⟩

/-- The proposal of node 1 keeps its payload, and is answered right after the entry at index 2 was
applied. -/
theorem proposal_handles_handover :
    ∃ c os, run (trio 0) handover = some (c, os) ∧
      ((0, some [7]) : Ticket) ∈ heldBy c 1 + finishedBy 1 os ∧
      ∃ (w : View ℕ) (e : Entry), w.effect = some (.apply e []) ∧ w.HasCommitted 2 e ∧
        e.data = [7] ∧ ∃ st, counter.apply st e = ([], w.node.sm) := by
  obtain ⟨c₁, os₁, n, hrun₁, hn, hhandles⟩ := handover_proposer
  obtain ⟨c, os, before, v, after, hrun, hup, hviews, heff⟩ := handover_answers
  have hout : ((0, some [7]) : Ticket) ∈ n.handedOut (.propose [7]) := by
    simp [Node.handedOut, hhandles]
  have hsplit : handover = handover.take 8 ++ .op 1 (.propose [7]) :: handover.drop 9 := rfl
  obtain ⟨-, hissued, hanswer⟩ := proposal_handles hrun 1
  obtain ⟨-, hkept⟩ := hissued _ _ _ c₁ os₁ n _ hsplit hrun₁ hn hout
  obtain ⟨-, w, e, st, -, hw, hcommitted, -, hdata, happly⟩ :=
    hanswer before v after _ _ hviews heff
  exact ⟨c, os, hrun, hkept (by decide) hup, w, e, hw, hcommitted, hdata, st, happly⟩

end Keystone.Raft
