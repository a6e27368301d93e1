/-
# Keystone.Raft.SnapshotIntegrity — a snapshot arrives whole, or not at all.

Chunks and answers are lost, repeated and overtake one another, leaders change, and two nodes may have
different bytes for one index; the follower knows a transfer by its index alone.  What keeps the pieces
of two snapshots apart is the order of a term: its leader starts every transfer at offset zero, which
replaces whatever the follower had, and goes on only after an answer of the same term.  `Joined` states
that a node has passed this point; whoever sends a later chunk or answers one knows it of the receiver.

`Transfers` is the invariant of the whole group over runs, next to the simulation of
`Keystone.Raft.Refinement`, which says that a term has one leader.
-/
import Keystone.Raft.Bounds
import Keystone.Raft.Chunks

namespace Keystone.Raft

open Keystone.Lib
open Function (update)

variable {σ : Type} {G : Group σ} {b b' : History G} {A A' : Archive} {c c' : Cluster σ}
  {i dst src : NodeID} {n : Node σ} {es : List (Event σ)} {os os' : List (View σ)} {t : ℕ}

/-! ## The invariant of a group. -/

/-- Node `dst` takes in the chunks of `src`, the leader of term `t`, or has left that term. -/
structure Joined (b : History G) (A : Archive) (c : Cluster σ) (dst : NodeID) (t : ℕ) (src : NodeID) :
    Prop where
  lead : b.a.leader t = some src
  term : t ≤ (c.procs dst).store.term
  takes : ∀ n, (c.procs dst).node = some n → t = (c.procs dst).store.term → TakesFrom A src n.r

theorem Joined.frame (h : Joined b A c dst t src) (hb : Later b b') (hA : A.Within A')
    (hproc : c'.procs dst = c.procs dst) : Joined b' A' c' dst t src where
  lead := hb.le.leader _ _ h.lead
  term := by
    rw [hproc]
    exact h.term
  takes n hn ht := by
    rw [hproc] at hn ht
    exact (h.takes n hn ht).within hA

/-- The archive is the record of all that was shown, and every transfer, chunk and answer is in order. -/
structure Transfers (b : History G) (A : Archive) (c : Cluster σ) (os : List (View σ)) : Prop where
  stored : ∀ i, A i (c.procs i).store.snapIdx =
    some ((c.procs i).store.snapTerm, (c.procs i).store.snap)
  above : ∀ i k, (c.procs i).store.snapIdx < k → A i k = none
  held : ∀ v ∈ os, A v.id v.store.snapIdx = some (v.store.snapTerm, v.store.snap)
  known : ∀ i k t d, 0 < k → A i k = some (t, d) →
    ∃ v ∈ os, v.id = i ∧ v.store.snapIdx = k ∧ v.store.snapTerm = t ∧ v.store.snap = d
  out : ∀ i n, (c.procs i).node = some n → ∀ dst x, n.r.snapOut dst = some x →
    n.r.state = .leader ∧ A i x.index = some (x.term, x.data) ∧ x.offset ≤ x.data.length ∧
    (0 < x.offset → Joined b A c dst n.r.term i)
  chunks : ∀ m ∈ c.sent, m.type = .snap → b.a.leader m.term = some m.fromId ∧ ChunkOf A m ∧
    (0 < m.offset → Joined b A c m.toId m.term m.fromId)
  asks : ∀ m ∈ c.sent, m.Asks → ReceiptOf A m ∧ Joined b A c m.fromId m.term m.toId

theorem Transfers.init (G : Group σ) :
    Transfers (History.init G) (fun _ k => if k = 0 then some (0, []) else none) {} [] where
  stored _ := rfl
  above i k hk := if_neg (by
    have : 0 < k := hk
    omega)
  held v hv := by cases hv
  known i k t d hk h := by
    rw [if_neg (by omega)] at h
    cases h
  out i n hn := by cases hn
  chunks m hm := by cases hm
  asks m hm := by cases hm

/-! ## One operation. -/

/-- What an operation of node `i` starts from; it may install what the last chunk it is given belongs
to. -/
def scene (b : History G) (A : Archive) (c : Cluster σ) (i : NodeID) (inp : Input) : Scene where
  cfg := G.cfg i
  archive := A
  lead := b.a.leader
  reached dst t := Joined b A c dst t i
  joined t src := Joined b A c i t src
  source k t d := ∃ m, inp = .step m ∧ m.type = .snap ∧ m.done = true ∧ m.index = k ∧
    A m.fromId k = some (t, d)
  joined_lead _ _ h := h.lead

theorem Transfers.logged (h : Transfers b A c os) (inp : Input) (r : Raft) :
    Logged (scene b A c i inp) A r (c.procs i).store ([] : List (Point σ)) := by
  have hid : (scene b A c i inp).cfg.id = i := G.cfg_id i
  refine ⟨Archive.Within.refl A, fun _ _ => rfl, ?_, ?_, by simp, fun _ _ _ h => Or.inl h, by simp⟩
  · rw [hid]
    exact h.stored i
  · rw [hid]
    exact h.above i

theorem Transfers.ships (h : Transfers b A c os) (hok : ClusterOK Mode.free b c)
    (hn : (c.procs i).node = some n) (inp : Input) :
    Ships (scene b A c i inp) A { node := n, store := (c.procs i).store } := by
  have hid : (scene b A c i inp).cfg.id = i := G.cfg_id i
  obtain ⟨hr, -⟩ := (hok.procs i).up n hn
  refine ⟨h.logged inp n.r, ?_, ?_, ?_⟩
  · intro dst x hx
    rw [hid]
    exact h.out i n hn dst x hx
  · intro t src hj
    have hj : Joined b A c i t src := hj
    have hterm : n.r.term = (c.procs i).store.term := hr.term
    rcases Nat.lt_or_eq_of_le hj.term with hlt | heq
    · exact Or.inl (by rw [hterm]; exact hlt)
    · exact Or.inr ⟨by rw [hterm]; exact heq, hj.takes n hn heq⟩
  · intro before p after heq
    have heq : [] = before ++ p :: after := heq
    simp at heq

theorem Transfers.knows (h : Transfers b A c os) {m : Message} (hd : m ∈ c.sent ∧ m.toId = i) :
    Knows (scene b A c i (.step m)) m := by
  obtain ⟨hm, rfl⟩ := hd
  refine ⟨fun htype => ?_, fun hask => ?_⟩
  · obtain ⟨hlead, hchunk, hjoined⟩ := h.chunks m hm htype
    exact ⟨hlead, hchunk, hjoined, fun t d hdone harch => ⟨m, rfl, htype, hdone, rfl, harch⟩⟩
  · obtain ⟨hreceipt, hjoined⟩ := h.asks m hm hask
    exact ⟨⟨(G.cfg_id m.toId).symm, hreceipt⟩, hjoined⟩

/-- However an operation ends, the transfers are in order, and it did not slice out of range. -/
theorem perform_carries (hok : ClusterOK Mode.free b c) (h : Transfers b A c os)
    (hn : (c.procs i).node = some n) {inp : Input} (hd : Deliverable c.sent i inp) :
    match perform G c i n inp with
    | .ok _ S => ∃ A', Ships (scene b A c i inp) A' S
    | .error e S => (∃ A', Ships (scene b A c i inp) A' S) ∧ e ≠ .slice := by
  have hspec : (carries (scene b A c i inp) (fun _ => True)).Holds (operate (G.cfg i) G.sm inp) := by
    refine operate_carries (C := scene b A c i inp) fun m hm => ?_
    subst hm
    exact h.knows hd
  have hwp := hspec { node := n, store := (c.procs i).store } ⟨⟨A, h.ships hok hn inp⟩, trivial⟩
  unfold Wp at hwp
  unfold perform
  split at hwp
  · next S heq =>
    rw [heq]
    exact hwp.1
  · next S heq =>
    rw [heq]
    exact ⟨hwp.1.1, hwp.2⟩

theorem effects_carries (hok : ClusterOK Mode.free b c) (h : Transfers b A c os)
    (hn : (c.procs i).node = some n) {inp : Input} (hd : Deliverable c.sent i inp) :
    ∃ A' S, effects (perform G c i n inp) = S.trace ∧ Ships (scene b A c i inp) A' S := by
  have hperf := perform_carries hok h hn hd
  cases hres : perform G c i n inp with
  | ok u S =>
    rw [hres] at hperf
    obtain ⟨A', hS⟩ := hperf
    exact ⟨A', S, rfl, hS⟩
  | error e S =>
    rw [hres] at hperf
    obtain ⟨⟨A', hS⟩, -⟩ := hperf
    exact ⟨A', S, rfl, hS⟩

/-! ## One event. -/

variable {C : Scene} {r : Raft} {s : MemStore} {ps : List (Point σ)} {m : Message} {inp : Input}

/-- A message of an operation was sent at one of its points. -/
theorem Logged.sent (h : Logged C A r s ps) (hm : m ∈ sends ps) : ∃ p ∈ ps, p.effect = .send m ∧
    (m.type = .snap → SendsChunk C A p.node.r m) ∧ (m.Asks → SendsReceipt C A r m) := by
  obtain ⟨p, hp, heff⟩ := List.mem_filterMap.mp hm
  have hpoint := h.trace p hp
  unfold PointShips at hpoint
  split at heff
  · next heq =>
    obtain rfl := Option.some.inj heff
    rw [heq] at hpoint
    exact ⟨p, hp, heq, hpoint⟩
  · cases heff

/-- What is archived of the node itself. -/
theorem Logged.own (h : Logged C A r s ps) (hid : C.cfg.id = i) :
    A i s.snapIdx = some (s.snapTerm, s.snap) ∧ (∀ k, s.snapIdx < k → A i k = none) ∧
      (∀ p ∈ ps, A i p.store.snapIdx = some (p.store.snapTerm, p.store.snap)) ∧
      ∀ k t d, A i k = some (t, d) → C.archive i k = some (t, d) ∨
        ∃ p ∈ ps, p.store.snapIdx = k ∧ p.store.snapTerm = t ∧ p.store.snap = d := by
  subst hid
  exact ⟨h.stored, h.above, h.held, h.known⟩

/-- A chunk is sent by the leader of its term. -/
theorem SendsChunk.led {p : Point σ} (h : SendsChunk C A p.node.r m)
    (hid : C.cfg.id = i) (hp : p.effect = .send m)
    (hlink : Linked Later (ViewOK Mode.free) b os' b') (hv : p.view i ∈ os') :
    b'.a.leader m.term = some m.fromId := by
  obtain ⟨b₁, -, hview, hlater⟩ := hlink.moment hv
  have hleads : (p.view i).Leads := by
    refine ⟨h.leader, ?_⟩
    show Settled (some p.effect)
    rw [hp]
    trivial
  have hoffice := hview.office hleads
  rw [h.term, h.sender, hid]
  exact hlater.le.leader _ _ hoffice.lead

/-- What is left of an operation of node `i` after the points `ps`: the store `s`, and a node that is
down, at rest or just started. -/
structure Leaves (c : Cluster σ) (i : NodeID) (s : MemStore) (ps : List (Point σ)) (c' : Cluster σ)
    (os : List (View σ)) : Prop where
  frame : ∀ j, j ≠ i → c'.procs j = c.procs j
  store : (c'.procs i).store = s
  sent : c'.sent = c.sent ++ sends ps
  shown : ∀ p ∈ ps, p.view i ∈ os
  views : ∀ v ∈ os, v.id = i ∧ (v.store = s ∨ ∃ p ∈ ps, v.store = p.store)

theorem Transfers.after (h : Transfers b A c os)
    (hlogged : Logged (scene b A c i inp) A' r s ps)
    (hleaves : Leaves c i s ps c' os') (hlink : Linked Later (ViewOK Mode.free) b os' b')
    (hjoins : ∀ t src, b.a.leader t = some src → Joins A' r t src ∨ Joined b A c i t src →
      Joined b' A' c' i t src)
    (hout : ∀ n, (c'.procs i).node = some n → ∀ dst x, n.r.snapOut dst = some x →
      n.r.state = .leader ∧ A' i x.index = some (x.term, x.data) ∧ x.offset ≤ x.data.length ∧
      (0 < x.offset → Joined b A c dst n.r.term i)) :
    Transfers b' A' c' (os ++ os') := by
  have hid : (scene b A c i inp).cfg.id = i := G.cfg_id i
  obtain ⟨hstored, habove, hheld, hknown⟩ := hlogged.own hid
  have hA : A.Within A' := hlogged.within
  have hother : ∀ {j}, j ≠ i → A' j = A j := fun hj => hlogged.frame _ (by rw [hid]; exact hj)
  have hjoined : ∀ {dst t src}, Joined b A c dst t src → Joined b' A' c' dst t src := by
    intro dst t src hj
    by_cases hdst : dst = i
    · subst hdst
      exact hjoins t src hj.lead (Or.inr hj)
    · exact hj.frame hlink.grow hA (hleaves.frame dst hdst)
  refine ⟨?_, ?_, ?_, ?_, ?_, ?_, ?_⟩
  · intro j
    by_cases hj : j = i
    · rw [hj, hleaves.store]
      exact hstored
    · rw [hother hj, hleaves.frame j hj]
      exact h.stored j
  · intro j k hk
    by_cases hj : j = i
    · rw [hj, hleaves.store] at hk
      rw [hj]
      exact habove k hk
    · rw [hleaves.frame j hj] at hk
      rw [hother hj]
      exact h.above j k hk
  · intro v hv
    rcases List.mem_append.mp hv with hv | hv
    · exact hA _ _ _ (h.held v hv)
    · obtain ⟨rfl, hs | ⟨p, hp, hs⟩⟩ := hleaves.views v hv
      · rw [hs]
        exact hstored
      · rw [hs]
        exact hheld p hp
  · intro j k t d hk hx
    have hold : A j k = some (t, d) →
        ∃ v ∈ os ++ os', v.id = j ∧ v.store.snapIdx = k ∧ v.store.snapTerm = t ∧ v.store.snap = d := by
      intro hx
      obtain ⟨v, hv, hsnap⟩ := h.known j k t d hk hx
      exact ⟨v, List.mem_append_left _ hv, hsnap⟩
    by_cases hj : j = i
    · subst hj
      rcases hknown k t d hx with harch | ⟨p, hp, hsnap⟩
      · exact hold harch
      · exact ⟨p.view j, List.mem_append_right _ (hleaves.shown p hp), rfl, hsnap⟩
    · rw [hother hj] at hx
      exact hold hx
  · intro j n hn dst x hx
    by_cases hj : j = i
    · subst hj
      obtain ⟨hl, harch, hoff, hreach⟩ := hout n hn dst x hx
      exact ⟨hl, harch, hoff, fun hlt => hjoined (hreach hlt)⟩
    · rw [hleaves.frame j hj] at hn
      obtain ⟨hl, harch, hoff, hreach⟩ := h.out j n hn dst x hx
      exact ⟨hl, hA _ _ _ harch, hoff, fun hlt => hjoined (hreach hlt)⟩
  · intro m hm htype
    rw [hleaves.sent] at hm
    rcases List.mem_append.mp hm with hm | hm
    · obtain ⟨hlead, hchunk, hreach⟩ := h.chunks m hm htype
      exact ⟨hlink.grow.le.leader _ _ hlead, hchunk.within hA, fun hlt => hjoined (hreach hlt)⟩
    · obtain ⟨p, hp, heff, hchunk, -⟩ := hlogged.sent hm
      have hsends := hchunk htype
      have hfrom : m.fromId = i := hsends.sender.trans hid
      refine ⟨hsends.led hid heff hlink (hleaves.shown p hp), hsends.chunk, fun hlt => ?_⟩
      rw [hfrom]
      exact hjoined (hsends.reached hlt)
  · intro m hm hask
    rw [hleaves.sent] at hm
    rcases List.mem_append.mp hm with hm | hm
    · obtain ⟨hreceipt, hreach⟩ := h.asks m hm hask
      exact ⟨hreceipt.within hA, hjoined hreach⟩
    · obtain ⟨-, -, -, -, hreceipt⟩ := hlogged.sent hm
      have hsends := hreceipt hask
      have hfrom : m.fromId = i := hsends.sender.trans hid
      refine ⟨hsends.receipt, ?_⟩
      rw [hfrom]
      exact hjoins _ _ hsends.lead (Or.inl hsends.joins)

/-- A node that has just been started has no transfer under way. -/
theorem newNode_transfers {cfg : Config} {sm : StateMachine σ} {s : MemStore} {st : σ} {rng : ℕ → ℕ}
    {k : ℕ} (h : newNode cfg sm s st rng k = some n) :
    n.r.snapIn = none ∧ n.r.snapOut = fun _ => none := by
  unfold newNode at h
  cases hr : newRaft cfg s rng with
  | none => simp [hr] at h
  | some r =>
    have hfresh : r.snapIn = none ∧ r.snapOut = fun _ => none := by
      unfold newRaft at hr
      split at hr
      · cases hr
      · split at hr
        · cases hr
        · obtain rfl := Option.some.inj hr
          exact ⟨rfl, rfl⟩
    simp only [hr, Option.bind_eq_bind, Option.bind_some] at h
    split at h
    · obtain ⟨n₀, hn₀, hn⟩ := Option.bind_eq_some_iff.mp h
      obtain ⟨st', -, rfl⟩ := Option.map_eq_some_iff.mp hn₀
      obtain rfl := Option.some.inj hn
      exact hfresh
    · obtain rfl := Option.some.inj h
      exact hfresh

theorem Joins.le (h : Joins A r t src) : t ≤ r.term := h.elim le_of_lt fun h => h.1.le

/-- A node that takes in nothing has joined the leader of every term it has reached. -/
theorem Joined.of_idle (hlead : b.a.leader t = some src) (hle : t ≤ (c.procs i).store.term)
    (hin : ∀ n, (c.procs i).node = some n → n.r.snapIn = none) : Joined b A c i t src where
  lead := hlead
  term := hle
  takes n hn _ x hx := by
    rw [hin n hn] at hx
    cases hx

theorem ClusterOK.term_le (hok : ClusterOK Mode.free b c) (hok' : ClusterOK Mode.free b' c')
    (hb : Later b b') (i : NodeID) : (c.procs i).store.term ≤ (c'.procs i).store.term := by
  rw [← (hok.procs i).dur.term, ← (hok'.procs i).dur.term]
  exact hb.le.term i

theorem completed_leaves {S : Sys σ} (heq : (c', os') = completed c i S) :
    Leaves c i S.store S.trace c' os' := by
  obtain ⟨rfl, rfl⟩ := Prod.mk.inj heq
  refine ⟨fun j hj => Function.update_of_ne hj .., by simp, rfl, ?_, ?_⟩
  · intro p hp
    exact List.mem_append_left _ (List.mem_map_of_mem hp)
  · intro v hv
    rcases List.mem_append.mp hv with hv | hv
    · obtain ⟨p, hp, rfl⟩ := List.mem_map.mp hv
      exact ⟨rfl, Or.inr ⟨p, hp, rfl⟩⟩
    · obtain rfl := List.mem_singleton.mp hv
      exact ⟨rfl, Or.inl rfl⟩

theorem stopped_leaves (heq : (c', os') = stopped c i n ps) :
    Leaves c i (c'.procs i).store ps c' os' := by
  obtain ⟨rfl, rfl⟩ := Prod.mk.inj heq
  refine ⟨fun j hj => Function.update_of_ne hj .., rfl, rfl, fun p hp => List.mem_map_of_mem hp, ?_⟩
  intro v hv
  obtain ⟨p, hp, rfl⟩ := List.mem_map.mp hv
  exact ⟨rfl, Or.inr ⟨p, hp, rfl⟩⟩

section

variable (hok : ClusterOK Mode.free b c) (h : Transfers b A c os)
  (hlink : Linked Later (ViewOK Mode.free) b os' b') (hok' : ClusterOK Mode.free b' c')

include hok h hlink hok'

/-- An operation that returns. -/
theorem completed_transfers {S : Sys σ} (hn : (c.procs i).node = some n)
    (hd : Deliverable c.sent i inp) (hres : perform G c i n inp = .ok () S)
    (heq : (c', os') = completed c i S) : ∃ A', Transfers b' A' c' (os ++ os') := by
  have hperf := perform_carries hok h hn hd
  rw [hres] at hperf
  obtain ⟨A', hS⟩ := hperf
  have hnode : (c'.procs i).node = some S.node := by
    rw [(Prod.mk.inj heq).1]
    simp
  have hterm : S.node.r.term = (c'.procs i).store.term := ((hok'.procs i).up S.node hnode).1.term
  refine ⟨A', h.after hS.toLogged (completed_leaves heq) hlink ?_ ?_⟩
  · intro t src hlead hj
    have hj : Joins A' S.node.r t src := hj.elim id fun hj => hS.joined t src hj
    refine ⟨hlink.grow.le.leader _ _ hlead, hterm ▸ hj.le, fun n' hn' ht => ?_⟩
    obtain rfl := Option.some.inj (hnode.symm.trans hn')
    rcases hj with hlt | ⟨-, hfrom⟩
    · omega
    · exact hfrom
  · intro n' hn' dst x hx
    obtain rfl := Option.some.inj (hnode.symm.trans hn')
    have hout := hS.out dst x hx
    rw [show (scene b A c i inp).cfg.id = i from G.cfg_id i] at hout
    exact hout

/-- An operation cut short: the transfers are in order at every point of its trace. -/
theorem stopped_transfers {ps rest : List (Point σ)} (hn : (c.procs i).node = some n)
    (hd : Deliverable c.sent i inp) (heff : effects (perform G c i n inp) = ps ++ rest)
    (heq : (c', os') = stopped c i n ps) : ∃ A', Transfers b' A' c' (os ++ os') := by
  have hleaves := stopped_leaves heq
  obtain ⟨hc', -⟩ := Prod.mk.inj heq
  have hdown : (c'.procs i).node = none := by
    rw [hc']
    simp
  obtain ⟨A', r, hlogged, hterm⟩ : ∃ A' r, Logged (scene b A c i inp) A' r (c'.procs i).store ps ∧
      r.term ≤ (c'.procs i).store.term := by
    rcases List.eq_nil_or_concat' ps with rfl | ⟨before, p, rfl⟩
    · -- nothing was done
      have hstore : (c'.procs i).store = (c.procs i).store := by
        rw [hc']
        simp
      rw [hstore]
      exact ⟨A, n.r, h.logged inp n.r, ((hok.procs i).up n hn).1.term.le⟩
    · -- the cut behind the point p
      have hstore : (c'.procs i).store = p.store := by
        rw [hc']
        simp
      rw [hstore]
      obtain ⟨A₁, S, htrace, hS⟩ := effects_carries hok h hn hd
      obtain ⟨A', hlogged⟩ := hS.cuts before p rest (by rw [← htrace, heff]; simp)
      obtain ⟨b₁, -, ⟨_, hshown⟩, -⟩ := hlink.moment (hleaves.shown p (by simp))
      exact ⟨A', p.node.r, hlogged, (show p.node.r.term = p.store.term from hshown.term).le⟩
  refine ⟨A', h.after hlogged hleaves hlink ?_ ?_⟩
  · intro t src hlead hj
    refine Joined.of_idle (hlink.grow.le.leader _ _ hlead) ?_ (by simp [hdown])
    exact hj.elim (fun hj => hj.le.trans hterm) fun hj => hj.term.trans (hok.term_le hok' hlink.grow i)
  · intro n' hn'
    rw [hdown] at hn'
    cases hn'

/-- A start. -/
theorem started_transfers {st : σ} {rng : ℕ → ℕ}
    (hnew : newNode (G.cfg i) G.sm (c.procs i).store st rng (c.procs i).handles = some n)
    (heq : (c', os') = ({ c with procs := update c.procs i { c.procs i with node := some n } },
      [⟨i, none, n, (c.procs i).store⟩])) : ∃ A', Transfers b' A' c' (os ++ os') := by
  obtain ⟨hin, hout⟩ := newNode_transfers hnew
  obtain ⟨rfl, rfl⟩ := Prod.mk.inj heq
  have hterm := ((hok'.procs i).up n (by simp)).1.term
  refine ⟨A, h.after (h.logged .tick n.r) ⟨fun j hj => Function.update_of_ne hj .., by simp,
    (List.append_nil _).symm, by simp, ?_⟩ hlink ?_ ?_⟩
  · intro v hv
    obtain rfl := List.mem_singleton.mp hv
    exact ⟨rfl, Or.inl rfl⟩
  · intro t src hlead hj
    refine Joined.of_idle (hlink.grow.le.leader _ _ hlead) ?_ (by simp [hin])
    exact hj.elim (fun hj => hj.le.trans hterm.le) fun hj => hj.term.trans (hok.term_le hok' hlink.grow i)
  · intro n' hn' dst x hx
    obtain rfl : n = n' := by simpa using hn'
    rw [hout] at hx
    cases hx

/-- STEP. -/
theorem exec_transfers {e : Event σ} (hexec : exec G c e = some (c', os')) :
    ∃ A', Transfers b' A' c' (os ++ os') := by
  rcases exec_cases hexec with ⟨i, inp, n, S, -, hn, hd, hres, heq⟩ |
    ⟨i, inp, n, ps, rest, -, hn, hd, heff, heq⟩ | ⟨i, st, rng, n, -, -, -, -, hnew, heq⟩
  · exact completed_transfers hok h hlink hok' hn hd hres heq
  · exact stopped_transfers hok h hlink hok' hn hd heff heq
  · exact started_transfers hok h hlink hok' hnew heq

end

/-- RUN. -/
theorem run_transfers (hrun : run G es = some (c, os)) :
    ∃ (b : History G) (A : Archive), ClusterOK Mode.free b c ∧ Transfers b A c os := by
  refine Machine.run_history (C := fun _ _ => True)
    (R := fun c _ os => ∃ (b : History G) (A : Archive), ClusterOK Mode.free b c ∧ Transfers b A c os)
    ?_ ⟨_, _, ClusterOK.init _ G, Transfers.init G⟩ ((machine G).meets_true _ _) hrun
  rintro c e c' - os os' ⟨b, A, hok, h⟩ - hexec
  obtain ⟨b', hlink, hok'⟩ := exec_ok hok ⟨False.elim, False.elim⟩ hexec
  obtain ⟨A', h'⟩ := exec_transfers hok h hlink hok' hexec
  exact ⟨b', A', hok', h'⟩

/-- SNAPSHOT TRANSFER.  In every reachable state of a group and for every operation a node carries out
next: it does not slice out of range; and if it installs a snapshot above its commit index, which only
`handleSnapshot` does, then the operation was to take in the last chunk of a transfer, and what it
installs is byte for byte the snapshot that the sender of that chunk had at that index, with its term.  A
node never has two different snapshots at one index. -/
theorem snapshot_transfer (hrun : run G es = some (c, os)) (hn : (c.procs i).node = some n)
    (inp : Input) (hd : Deliverable c.sent i inp) :
    (∀ S, perform G c i n inp ≠ .error .slice S) ∧
    ∀ p ∈ effects (perform G c i n inp), ∀ k t d, p.effect = .compact k t d →
      p.node.r.commit < k →
      ∃ m, inp = .step m ∧ m.type = .snap ∧ m.done = true ∧ m.index = k ∧
        (∃ w ∈ os, w.id = m.fromId ∧ w.store.snapIdx = k ∧ w.store.snapTerm = t ∧ w.store.snap = d) ∧
        ∀ w ∈ os, w.id = m.fromId → w.store.snapIdx = k →
          w.store.snapTerm = t ∧ w.store.snap = d := by
  obtain ⟨b, A, hok, h⟩ := run_transfers hrun
  refine ⟨fun S hS => ?_, fun p hp k t d heff hlt => ?_⟩
  · have hperf := perform_carries hok h hn hd
    rw [hS] at hperf
    exact hperf.2 rfl
  · obtain ⟨A', S, htrace, hS⟩ := effects_carries hok h hn hd
    have hpoint := hS.trace p (by rw [← htrace]; exact hp)
    unfold PointShips at hpoint
    rw [heff] at hpoint
    rcases hpoint with ⟨m, hinp, htype, hdone, hidx, harch⟩ | happlied
    · refine ⟨m, hinp, htype, hdone, hidx, h.known m.fromId k t d (by omega) harch, ?_⟩
      intro w hw hid hk
      have hheld := h.held w hw
      rw [hid, hk, harch] at hheld
      obtain ⟨ht, hd⟩ := Prod.mk.inj (Option.some.inj hheld)
      exact ⟨ht.symm, hd.symm⟩
    · -- a node's own compaction is at what it has applied
      obtain ⟨b', hshown⟩ := hok.effects_ok hn (hok.inputFree hn hd) hp
      have hle : p.node.applied ≤ p.node.r.commit := hshown.applied
      omega

/-! ## A transfer in two chunks. -/

/-- Three nodes that compact at once; a snapshot is two bytes, and one byte goes into a message. -/
def couriers : Group ℕ where
  peers := [1, 2, 3]
  nodup := (trio 0).nodup
  cfg := fun i =>
    { id := i, peers := [1, 2, 3], electionTick := 1, heartbeatTick := 1, snapshotChunk := 1
      snapshotThreshold := 1 }
  cfg_id := fun _ => rfl
  cfg_peers := fun _ => rfl
  sm := { counter with snapshot := fun _ => some [1, 2] }

/-- Node 1 commits its first entry with node 2 and compacts; node 3 has answered the first chunk. -/
def delivery : List (Event ℕ) :=
  settledLead ++
    [ .op 1 .tick
    , deliver { type := .app, fromId := 1, toId := 3, term := 1, index := 1, logTerm := 1, commit := 1 }
    , deliver { type := .appResp, fromId := 3, toId := 1, term := 1, reject := true, conflictIndex := 1 }
    , deliver { type := .snap, fromId := 1, toId := 3, term := 1, index := 1, logTerm := 1, data := [1] }
    , deliver { type := .snapResp, fromId := 3, toId := 1, term := 1, index := 1, offset := 1 } ]

def lastChunk : Message :=
  { type := .snap, fromId := 1, toId := 3, term := 1, index := 1, logTerm := 1, data := [2], offset := 1
    done := true }

/-- The last chunk makes node 3 install both bytes. -/
theorem delivery_installs :
    ∃ c os n, run couriers delivery = some (c, os) ∧ (c.procs 3).node = some n ∧ lastChunk ∈ c.sent ∧
      ∃ p ∈ effects (perform couriers c 3 n (.step lastChunk)),
        p.effect = .compact 1 1 [1, 2] ∧ p.node.r.commit < 1 := by
  have hk : ((run couriers delivery).bind fun x => (x.1.procs 3).node.bind fun n =>
      if lastChunk ∈ x.1.sent then
        (effects (perform couriers x.1 3 n (.step lastChunk))).find? fun p =>
          decide (p.effect = .compact 1 1 [1, 2] ∧ p.node.r.commit < 1)
      else none).isSome = true := by decide +kernel
  obtain ⟨p, hp⟩ := Option.isSome_iff_exists.mp hk
  obtain ⟨⟨c, os⟩, hrun, hp⟩ := Option.bind_eq_some_iff.mp hp
  obtain ⟨n, hn, hp⟩ := Option.bind_eq_some_iff.mp hp
  split at hp
  · next hsent =>
    exact ⟨c, os, n, hrun, hn, hsent, p, List.mem_of_find?_eq_some hp, by
      simpa using List.find?_some hp⟩
  · cases hp

/-- Both bytes are the snapshot node 1 had at index 1. -/
theorem snapshot_transfer_delivery :
    ∃ c os, run couriers delivery = some (c, os) ∧
      ∃ w ∈ os, w.id = 1 ∧ w.store.snapIdx = 1 ∧ w.store.snapTerm = 1 ∧ w.store.snap = [1, 2] := by
  obtain ⟨c, os, n, hrun, hn, hsent, p, hp, heff, hlt⟩ := delivery_installs
  obtain ⟨-, hinstall⟩ := snapshot_transfer hrun hn (.step lastChunk) ⟨hsent, rfl⟩
  obtain ⟨m, hm, -, -, -, hw, -⟩ := hinstall p hp 1 1 [1, 2] heff hlt
  obtain rfl := Input.step.inj hm
  exact ⟨c, os, hrun, hw⟩

end Keystone.Raft
