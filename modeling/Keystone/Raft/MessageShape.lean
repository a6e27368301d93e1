/-
# Keystone.Raft.MessageShape — what an append message looks like (`appendEntries`, `sendAppend`,
`fitBatch`).

Two places of the code build a `MsgApp`: `sendAppend` cuts the follower's next batch out of the store,
and `appendEntries` ships a batch to caught-up followers before it is in the store.  Both must give the
same message: a slice of the leader's log, under the caps of one message, behind the entry it names.

Nothing here depends on how the node came into its state.  `Streams cfg S S'` is the frame of a leader's
work: the log only grows, and every append message sent since `S` has its shape over the log of `S'`.
Appending extends the log an earlier message was cut from, so the frame composes.  The functions of a
follower truncate and compact; they send no append message at all (`Mute`).
-/
import Keystone.Raft.Appending
import Keystone.Raft.Frames
import Keystone.Raft.LocalCommit

namespace Keystone.Raft

open Keystone.Lib
open Function (update)

variable {σ α : Type} {cfg : Config} {S S' S'' : Sys σ} {L L' : MemStore} {m : Message}
  {p : Point σ} {pre : List (Point σ)}

/-! ## The shape. -/

/-- The bytes of payload in a batch. -/
def payload (es : List Entry) : ℕ := (es.map fun e => e.data.length).sum

/-- The log has the message's entries right behind its index, and its term at the index. -/
structure SliceOf (L : MemStore) (m : Message) : Prop where
  entries : L.slice (m.index + 1) (m.index + 1 + m.entries.length) = .ok m.entries
  logTerm : L.termOf m.index = .ok m.logTerm

/-- The caps on one message; an entry that is alone may be of any size. -/
structure WithinCaps (cfg : Config) (es : List Entry) : Prop where
  batch : es.length ≤ cfg.batch
  bytes : payload es ≤ cfg.batchBytes ∨ es.length = 1

/-- One round of the loop in `appendEntries` that ships a batch before the local write. -/
def shipTo (cfg : Config) (last prevTerm : ℕ) (entries : List Entry) (dst : NodeID) : M σ Unit := do
  let r ← getRaft
  modifyRaft fun r => { r with next := update r.next dst (last + 1 + entries.length) }
  send cfg
    { type := .app, toId := dst, index := last, logTerm := prevTerm, entries := entries
      commit := r.commit }

/-- The code sends `m` in state `S`, and is in `S'` right after it. -/
inductive SendsApp (cfg : Config) (m : Message) (S S' : Sys σ) : Prop
  | append (readID : ℕ) (h : sendAppend cfg m.toId readID S = .ok () S')
  | early (prevTerm : ℕ) (es : List Entry) (hnext : S.node.r.next m.toId = S.store.lastIndex + 1)
      (h : shipTo cfg S.store.lastIndex prevTerm es m.toId S = .ok () S')

/-- The probe of a read round, to a follower behind the compaction point. -/
def ReadProbe (S : Sys σ) (m : Message) : Prop :=
  S.node.r.next m.toId < S.store.firstIndex ∧ m.readID ≠ 0

/-- What sending `m` in `S` does to the follower's next index, `p` being the moment after it. -/
structure Advances (S : Sys σ) (p : Point σ) (m : Message) : Prop where
  nonempty : S.node.r.next m.toId ≤ S.store.lastIndex →
    S.store.firstIndex ≤ S.node.r.next m.toId → m.entries ≠ []
  next : ¬ ReadProbe S m → p.node.r.next m.toId = m.index + 1 + m.entries.length

/-- The shape of an append message sent after the effects `pre`, over the log `L`. -/
structure AppShape (cfg : Config) (pre : List (Point σ)) (p : Point σ) (m : Message) (L : MemStore) :
    Prop where
  slice : SliceOf L m
  caps : WithinCaps cfg m.entries
  sending : ∃ S : Sys σ, S.trace = pre ∧ S.store = p.store ∧
    SendsApp cfg m S ⟨p.node, p.store, pre ++ [p]⟩ ∧ Advances S p m

/-- The append messages sent on the way from `S` to `S'` have their shape over the log `L`. -/
def AppsOver (cfg : Config) (L : MemStore) (S S' : Sys σ) : Prop :=
  ∀ k p m, S.trace.length ≤ k → S'.trace[k]? = some p → p.effect = .send m → m.type = .app →
    AppShape cfg (S'.trace.take k) p m L

/-- What was done in `S` is still done in `S'`, and the append messages sent since then have their shape
over the log as it stands in `S'`. -/
structure Replicates (cfg : Config) (S S' : Sys σ) : Prop where
  trace : S.trace <+: S'.trace
  sent : AppsOver cfg S'.store S S'

/-! ## Batches. -/

theorem fitBytes_payload (limit size : ℕ) (es : List Entry) (h : size ≤ limit) :
    size + payload (fitBytes limit size es) ≤ limit := by
  induction es generalizing size with
  | nil => exact h
  | cons e es ih =>
    unfold fitBytes
    split
    · exact h
    · next hfit =>
      have := ih (size + e.data.length) (by omega)
      simp only [payload, List.map_cons, List.sum_cons] at this ⊢
      omega

/-- A first entry over the cap is alone. -/
theorem fitBytes_over {limit size : ℕ} (es : List Entry) (h : limit < size) :
    fitBytes limit size es = [] := by
  cases es with
  | nil => rfl
  | cons e es => exact if_pos (by omega)

theorem fitBatch_caps (cfg : Config) (es : List Entry) : WithinCaps cfg (fitBatch cfg es) := by
  have hlen : (fitBatch cfg es).length ≤ cfg.batch := by
    unfold fitBatch
    split
    · exact Nat.zero_le _
    · next e rest h =>
      have htake := List.length_take_le cfg.batch es
      have hrest := (fitBytes_isPrefix cfg.batchBytes e.data.length rest).length_le
      rw [h] at htake
      simp only [List.length_cons] at htake ⊢
      omega
  refine ⟨hlen, ?_⟩
  unfold fitBatch
  split
  · exact Or.inl (Nat.zero_le _)
  · next e rest h =>
    by_cases hbig : e.data.length ≤ cfg.batchBytes
    · exact Or.inl (fitBytes_payload _ _ rest hbig)
    · rw [fitBytes_over rest (by omega)]
      exact Or.inr rfl

theorem Config.batch_pos (cfg : Config) : 0 < cfg.batch := by
  unfold Config.batch
  split <;> omega

theorem fitBatch_ne_nil {cfg : Config} {es : List Entry} (h : es ≠ []) : fitBatch cfg es ≠ [] := by
  have htake : es.take cfg.batch ≠ [] := by
    rw [Ne, List.take_eq_nil_iff]
    have := cfg.batch_pos
    rintro (h0 | h0)
    · omega
    · exact h h0
  unfold fitBatch
  split
  · next h0 => exact absurd h0 htake
  · exact List.cons_ne_nil _ _

/-! ## A log that grows. -/

/-- Entries were appended, and nothing else happened to the log. -/
structure Longer (L L' : MemStore) : Prop where
  snapIdx : L'.snapIdx = L.snapIdx
  snapTerm : L'.snapTerm = L.snapTerm
  entries : L.entries <+: L'.entries

theorem Longer.refl (L : MemStore) : Longer L L := ⟨rfl, rfl, List.prefix_refl _⟩

theorem Longer.trans {L'' : MemStore} (h : Longer L L') (h' : Longer L' L'') : Longer L L'' :=
  ⟨h'.snapIdx.trans h.snapIdx, h'.snapTerm.trans h.snapTerm, h.entries.trans h'.entries⟩

theorem Longer.lastIndex_le (h : Longer L L') : L.lastIndex ≤ L'.lastIndex := by
  have := h.entries.length_le
  unfold MemStore.lastIndex
  rw [h.snapIdx]
  omega

theorem Longer.slice (h : Longer L L') {lo hi : ℕ} {es : List Entry} (hs : L.slice lo hi = .ok es) :
    L'.slice lo hi = .ok es := by
  have hlast := h.lastIndex_le
  unfold MemStore.slice at hs ⊢
  rw [h.snapIdx]
  split at hs
  · cases hs
  next hlo =>
  split at hs
  · cases hs
  next hhi =>
  rw [if_neg hlo, if_neg (by omega)]
  obtain ⟨more, hmore⟩ := h.entries
  have hlen : hi - lo ≤ (L.entries.drop (lo - L.snapIdx - 1)).length := by
    rw [List.length_drop]
    unfold MemStore.lastIndex at hhi
    omega
  have hdrop : L'.entries.drop (lo - L.snapIdx - 1) =
      L.entries.drop (lo - L.snapIdx - 1) ++ more.drop (lo - L.snapIdx - 1 - L.entries.length) := by
    rw [← hmore, List.drop_append]
  rw [hdrop, List.take_append_of_le_length hlen]
  exact hs

theorem Longer.termOf (h : Longer L L') {k t : ℕ} (ht : L.termOf k = .ok t) : L'.termOf k = .ok t := by
  unfold MemStore.termOf at ht ⊢
  rw [h.snapIdx, h.snapTerm]
  split at ht
  · next hk => rw [if_pos hk]; exact ht
  next hk =>
  rw [if_neg hk]
  split at ht
  · cases ht
  next hlt =>
  rw [if_neg hlt]
  cases he : L.entries[k - L.snapIdx - 1]? with
  | none =>
    rw [he] at ht
    cases ht
  | some e =>
    rw [he] at ht
    rw [TermLog.getElem?_of_isPrefix h.entries he]
    exact ht

theorem SliceOf.longer (h : SliceOf L m) (hg : Longer L L') : SliceOf L' m :=
  ⟨hg.slice h.entries, hg.termOf h.logTerm⟩

theorem AppShape.longer (h : AppShape cfg pre p m L) (hg : Longer L L') : AppShape cfg pre p m L' :=
  ⟨h.slice.longer hg, h.caps, h.sending⟩

/-! ## The frames. -/

/-- A leader's work: the log grew, and the append messages have their shape over it. -/
structure Streams (cfg : Config) (S S' : Sys σ) : Prop extends Replicates cfg S S' where
  log : Longer S.store S'.store

/-- No append message was sent. -/
structure Mute (S S' : Sys σ) : Prop where
  trace : S.trace <+: S'.trace
  sent : ∀ k p m, S.trace.length ≤ k → S'.trace[k]? = some p → p.effect = .send m → m.type ≠ .app

theorem getElem?_of_front {l l' : List α} (h : l <+: l') {k : ℕ} (hk : k < l.length) :
    l'[k]? = l[k]? ∧ l'.take k = l.take k := by
  obtain ⟨r, rfl⟩ := h
  exact ⟨List.getElem?_append_left hk, List.take_append_of_le_length hk.le⟩

theorem AppsOver.longer (h : AppsOver cfg L S S') (hg : Longer L L') : AppsOver cfg L' S S' :=
  fun k p m hk hp hm happ => (h k p m hk hp hm happ).longer hg

theorem AppsOver.trans (h : AppsOver cfg L S S') (h' : AppsOver cfg L S' S'')
    (ht : S'.trace <+: S''.trace) : AppsOver cfg L S S'' := by
  intro k p m hk hp hm happ
  by_cases hmid : S'.trace.length ≤ k
  · exact h' k p m hmid hp hm happ
  · obtain ⟨hget, htake⟩ := getElem?_of_front ht (not_le.mp hmid)
    rw [hget] at hp
    rw [htake]
    exact h k p m hk hp hm happ

theorem Streams.refl (S : Sys σ) : Streams cfg S S := by
  refine ⟨⟨List.prefix_refl _, fun k p m hk hp => ?_⟩, Longer.refl _⟩
  rw [List.getElem?_eq_none hk] at hp
  cases hp

/-- What was sent in the first part stays a slice: the second part only makes the log longer. -/
theorem Streams.trans (h : Streams cfg S S') (h' : Streams cfg S' S'') : Streams cfg S S'' :=
  ⟨⟨h.trace.trans h'.trace, (h.sent.longer h'.log).trans h'.sent h'.trace⟩, h.log.trans h'.log⟩

instance : IsPreorder (Sys σ) (Streams cfg) where
  refl := Streams.refl
  trans _ _ _ := Streams.trans

instance : IsPreorder (Sys σ) Mute where
  refl S := ⟨List.prefix_refl _, fun k p m hk hp => by rw [List.getElem?_eq_none hk] at hp; cases hp⟩
  trans S S' S'' h h' := by
    refine ⟨h.trace.trans h'.trace, fun k p m hk hp hm => ?_⟩
    by_cases hmid : S'.trace.length ≤ k
    · exact h'.sent k p m hmid hp hm
    · rw [(getElem?_of_front h'.trace (not_le.mp hmid)).1] at hp
      exact h.sent k p m hk hp hm

theorem Mute.over (h : Mute S S') : AppsOver cfg L S S' :=
  fun k p m hk hp hm happ => absurd happ (h.sent k p m hk hp hm)

theorem Mute.replicates (h : Mute S S') : Replicates cfg S S' := ⟨h.trace, h.over⟩

theorem Mute.streams (h : Mute S S') (hlog : Longer S.store S'.store) : Streams cfg S S' :=
  ⟨h.replicates, hlog⟩

/-- A call with one effect. -/
theorem new_point {q : Point σ} (ht : S'.trace = S.trace ++ [q]) {k : ℕ} (hk : S.trace.length ≤ k)
    (hp : S'.trace[k]? = some p) : p = q ∧ S'.trace.take k = S.trace := by
  rw [ht, List.getElem?_append_right hk, List.getElem?_singleton] at hp
  split at hp
  · next h0 =>
    have hk0 : k = S.trace.length := by omega
    rw [ht, hk0, List.take_left]
    exact ⟨(Option.some.inj hp).symm, rfl⟩
  · cases hp

/-- An append message goes out as the one effect of a call. -/
theorem AppsOver.one (ht : S'.trace = S.trace ++ [⟨.send m, S'.node, S'.store⟩])
    (h : AppShape cfg S.trace ⟨.send m, S'.node, S'.store⟩ m L) : AppsOver cfg L S S' := by
  intro k p m' hk hp hm _
  obtain ⟨rfl, htake⟩ := new_point ht hk hp
  obtain rfl : m = m' := by injection hm
  rw [htake]
  exact h

/-! ## Functions that send no append message. -/

/-- Effects other than an append message. -/
def Effect.IsMute (e : Effect) : Prop := ∀ m, e = .send m → m.type ≠ .app

theorem Mute.same (ht : S'.trace = S.trace) : Mute S S' := by
  refine ⟨by rw [ht], fun k p m hk hp => ?_⟩
  rw [ht, List.getElem?_eq_none hk] at hp
  cases hp

theorem Mute.one {e : Effect} (he : e.IsMute)
    (ht : S'.trace = S.trace ++ [⟨e, S'.node, S'.store⟩]) : Mute S S' := by
  refine ⟨by rw [ht]; exact List.prefix_append _ _, fun k p m hk hp hm => ?_⟩
  obtain ⟨rfl, -⟩ := new_point ht hk hp
  exact he m hm

theorem isMute_setState (t : ℕ) (v : NodeID) : (Effect.setState t v).IsMute :=
  fun _ h => by cases h

theorem isMute_send (h : m.type ≠ .app) : (Effect.send m).IsMute := by
  intro m' hm
  injection hm with hm
  rw [← hm]
  exact h

abbrev mute : Frame Panic (Sys σ) := .keeps Mute

theorem mute_modifyRaft {f : Raft → Raft} : mute.Holds (modifyRaft f : M σ Unit) := fun _ => Mute.same rfl

theorem mute_emit {e : Effect} (he : e.IsMute) : mute.Holds (emit e : M σ Unit) := fun _ => Mute.one he rfl

instance : Clerical (@mute σ) where
  note _ := mute_modifyRaft
  stop _ := Frame.throw_keepsOr
  persist := fun _ => Mute.one (isMute_setState _ _) rfl
  send h := .bind holds_getRaft fun _ => mute_emit (isMute_send h.type_ne.1)

instance : Turns (@mute σ) := ⟨fun _ => mute_modifyRaft, mute_emit fun _ h => by cases h⟩

instance : Accepts (@mute σ) where
  write := holds_appendStore fun _ => Mute.one (e := .append _) (fun _ h => by cases h) rfl
  commit := .bind mute_modifyRaft fun _ => mute_emit fun _ h => by cases h

instance : Installs (@mute σ) where
  receive _ := mute_modifyRaft
  compact := fun _ => Mute.one (e := .compact _ _ _) (fun _ h => by cases h) rfl
  answer h := .bind holds_getRaft fun _ => mute_emit (isMute_send fun ht => by cases h.symm.trans ht)

/-! ## A leader's work, but for its append messages. -/

abbrev streams (cfg : Config) : Frame Panic (Sys σ) := .keeps (Streams cfg)

theorem streams_modifyRaft {f : Raft → Raft} : (streams cfg).Holds (modifyRaft f : M σ Unit) := fun S =>
  have hmute : Mute S { S with node := { S.node with r := f S.node.r } } := Mute.same rfl
  hmute.streams (Longer.refl S.store)

theorem streams_emit {e : Effect} (he : e.IsMute) : (streams cfg).Holds (emit e : M σ Unit) := fun S =>
  (Mute.one he rfl).streams (Longer.refl S.store)

instance : Clerical (@streams σ cfg) where
  note _ := streams_modifyRaft
  stop _ := Frame.throw_keepsOr
  persist := fun _ => (Mute.one (isMute_setState _ _) rfl).streams ⟨rfl, rfl, List.prefix_refl _⟩
  send h := .bind holds_getRaft fun _ => streams_emit (isMute_send h.type_ne.1)

instance : Turns (@streams σ cfg) := ⟨fun _ => streams_modifyRaft, streams_emit fun _ h => by cases h⟩

instance : Tallies cfg (@streams σ cfg) where
  tally := holds_maybeCommit (.bind streams_modifyRaft fun _ => streams_emit fun _ h => by cases h)

instance : Relays cfg (@streams σ cfg) where
  out _ := streams_modifyRaft
  chunk := .ite Frame.throw_keepsOr
    (.bind holds_getRaft fun _ => streams_emit (isMute_send fun ht => by cases ht))

/-! ## Sending (`sendAppend`). -/

/-- The first entries of a slice are a slice. -/
theorem MemStore.slice_cut {s : MemStore} {lo hi : ℕ} {es bs : List Entry} (hle : lo ≤ hi)
    (h : s.slice lo hi = .ok es) (hb : bs <+: es) : s.slice lo (lo + bs.length) = .ok bs := by
  unfold MemStore.slice at h ⊢
  split at h
  · cases h
  next hlo =>
  split at h
  · cases h
  next hhi =>
  have hes : es = (s.entries.drop (lo - s.snapIdx - 1)).take (hi - lo) := (Except.ok.inj h).symm
  have hlen : bs.length ≤ hi - lo := by
    have := hb.length_le
    rw [hes, List.length_take] at this
    omega
  rw [if_neg hlo, if_neg (by omega), Nat.add_sub_cancel_left]
  have hbs := List.prefix_iff_eq_take.mp hb
  rw [hes, List.take_take, Nat.min_eq_left hlen] at hbs
  rw [← hbs]

/-- The batch is cut from the store at the follower's next index, which moves behind it. -/
theorem nextBatch_shape {dst : NodeID} {next : ℕ} (h1 : S.store.snapIdx < next)
    (h2 : next ≤ S.store.lastIndex + 1) :
    Wp (nextBatch cfg dst next S.store.lastIndex)
      (fun es S' => S'.store = S.store ∧ S'.trace = S.trace ∧
        S.store.slice next (next + es.length) = .ok es ∧ WithinCaps cfg es ∧
        (next ≤ S.store.lastIndex → es ≠ []) ∧
        (S.node.r.next dst = next → S'.node.r.next dst = next + es.length))
      (fun _ S' => S'.store = S.store ∧ S'.trace = S.trace) S := by
  unfold nextBatch
  rw [wp_ite]
  refine ⟨fun hle => ?_, fun hgt => ?_⟩
  · have hpos := cfg.batch_pos
    set hi := min (next + cfg.batch) (S.store.lastIndex + 1) with hhi
    set es := (S.store.entries.drop (next - S.store.snapIdx - 1)).take (hi - next) with hes
    have hslice : S.store.slice next hi = .ok es := by
      unfold MemStore.slice
      rw [if_neg (by omega), if_neg (by omega)]
    have hlen : es.length = hi - next := by
      rw [hes, List.length_take, List.length_drop]
      unfold MemStore.lastIndex at hhi hle
      omega
    simp only [wp_bind, wp_readEntries hslice, wp_modifyRaft, wp_pure]
    refine ⟨trivial, trivial, MemStore.slice_cut (by omega) hslice (fitBatch_isPrefix cfg es),
      fitBatch_caps cfg es, fun _ => fitBatch_ne_nil ?_, fun _ => Function.update_self ..⟩
    intro h0
    rw [h0, List.length_nil] at hlen
    omega
  · refine wp_pure.mpr ⟨rfl, rfl, ?_, ⟨Nat.zero_le _, Or.inl (Nat.zero_le _)⟩,
      fun h => absurd h hgt, fun h => h⟩
    unfold MemStore.slice
    rw [if_neg (by omega), List.length_nil, Nat.add_zero, if_neg (by omega), Nat.sub_self,
      List.take_zero]

theorem streams_same (hs : S'.store = S.store) (ht : S'.trace = S.trace) : Streams cfg S S' :=
  (Mute.same ht).streams (by rw [hs]; exact Longer.refl _)

theorem wp_self {ε τ : Type} {x : EStateM ε τ α} {s : τ} :
    Wp x (fun a t => x s = .ok a t) (fun e t => x s = .error e t) s := by
  unfold Wp
  cases x s <;> rfl

/-- The one effect between `S` and `S'` is the append message `m`, of its shape over the log `L`. -/
structure AppSent (cfg : Config) (L : MemStore) (S S' : Sys σ) (m : Message) : Prop where
  store : S'.store = S.store
  trace : S'.trace = S.trace ++ [⟨.send m, S'.node, S'.store⟩]
  slice : SliceOf L m
  caps : WithinCaps cfg m.entries
  advances : Advances S ⟨.send m, S'.node, S'.store⟩ m

theorem AppSent.over (h : AppSent cfg L S S' m) (hs : SendsApp cfg m S S') : AppsOver cfg L S S' := by
  refine AppsOver.one h.trace ⟨h.slice, h.caps, S, rfl, h.store.symm, ?_, h.advances⟩
  have hS' : (⟨S'.node, S'.store, S.trace ++ [⟨.send m, S'.node, S'.store⟩]⟩ : Sys σ) = S' := by
    rw [← h.trace]
  rw [hS']
  exact hs

theorem AppSent.trace_le (h : AppSent cfg L S S' m) : S.trace <+: S'.trace := by
  rw [h.trace]
  exact List.prefix_append _ _

/-- A call of `sendAppend` sends one append message to the follower, or none. -/
theorem sendAppend_sent {dst : NodeID} {readID : ℕ} :
    Wp (sendAppend cfg dst readID)
      (fun _ S' => Streams cfg S S' ∨ ∃ m, m.toId = dst ∧ AppSent cfg S.store S S' m)
      (fun _ => Streams cfg S) S := by
  simp only [sendAppend]
  rw [wp_bind, wp_getRaft, wp_bind, wp_getStore, wp_ite]
  refine ⟨fun hbehind => ?_, fun hnext => ?_⟩
  · rw [wp_ite]
    refine ⟨fun _ => ?_, fun hread => ?_⟩
    · exact (holds_sendSnapshot (F := streams cfg) S).imp fun _ _ h => Or.inl h
    · -- the probe names the compaction point, which the store still has a term for
      have hterm : S.store.termOf (S.store.firstIndex - 1) = .ok S.store.snapTerm := if_pos rfl
      rw [wp_bind, wp_termAt hterm, wp_send, wp_emit]
      refine Or.inr ⟨_, rfl, rfl, rfl, ⟨?_, hterm⟩, ⟨Nat.zero_le _, Or.inl (Nat.zero_le _)⟩,
        fun _ hge => absurd hbehind (not_lt.mpr hge), fun hno => absurd ⟨hbehind, hread⟩ hno⟩
      show S.store.slice (S.store.snapIdx + 1) (S.store.snapIdx + 1 + 0) = .ok []
      unfold MemStore.slice MemStore.lastIndex
      rw [if_neg (by omega), if_neg (by omega), Nat.add_zero, Nat.sub_self, List.take_zero]
  · have hfirst : S.store.snapIdx < S.node.r.next dst := not_lt.mp hnext
    cases hterm : S.store.termOf (S.node.r.next dst - 1) with
    | error e =>
      simp only [termAt, bind_assoc]
      rw [wp_bind, wp_getStore, hterm]
      exact Streams.refl S
    | ok t =>
      obtain ⟨-, hle⟩ := MemStore.termOf_range hterm
      have hindex : S.node.r.next dst - 1 + 1 = S.node.r.next dst := by omega
      rw [wp_bind, wp_termAt hterm, wp_bind]
      refine (nextBatch_shape hfirst (by omega)).mono ?_ fun _ _ h => streams_same h.1 h.2
      rintro es S₁ ⟨hstore, htrace, hslice, hcaps, hfull, hmoved⟩
      rw [wp_send, wp_emit]
      let m : Message :=
        { type := .app, fromId := cfg.id, toId := dst, term := S₁.node.r.term
          index := S.node.r.next dst - 1, logTerm := t, entries := es, commit := S.node.r.commit
          readID := readID }
      refine Or.inr ⟨m, rfl, hstore, ?_, ⟨?_, hterm⟩, hcaps, fun hn _ => hfull hn, fun _ => ?_⟩
      · show S₁.trace ++ _ = _
        rw [htrace]
      · show S.store.slice (S.node.r.next dst - 1 + 1) (S.node.r.next dst - 1 + 1 + es.length) = _
        rw [hindex]
        exact hslice
      · show S₁.node.r.next dst = S.node.r.next dst - 1 + 1 + es.length
        rw [hindex]
        exact hmoved rfl

instance : Leads cfg (@streams σ cfg) where
  app {dst readID} S := by
    refine (wp_self.and sendAppend_sent).mono ?_ fun _ _ h => h.2
    rintro _ S' ⟨hcall, h | ⟨m, rfl, h⟩⟩
    · exact h
    · refine ⟨⟨h.trace_le, ?_⟩, by rw [h.store]; exact Longer.refl _⟩
      rw [h.store]
      exact h.over (.append readID hcall)

/-! ## Appending (`appendEntries`). -/

/-- The log with a batch behind it. -/
def MemStore.with (s : MemStore) (es : List Entry) : MemStore := { s with entries := s.entries ++ es }

theorem MemStore.longer_with (s : MemStore) (es : List Entry) : Longer s (s.with es) :=
  ⟨rfl, rfl, List.prefix_append _ _⟩

theorem MemStore.slice_with (s : MemStore) (es : List Entry) :
    (s.with es).slice (s.lastIndex + 1) (s.lastIndex + 1 + es.length) = .ok es := by
  unfold MemStore.slice MemStore.with MemStore.lastIndex
  rw [if_neg (by dsimp only; omega), if_neg (by simp; omega)]
  dsimp only
  rw [show s.snapIdx + s.entries.length + 1 - s.snapIdx - 1 = s.entries.length by omega,
    List.drop_left, Nat.add_sub_cancel_left, List.take_length]

/-- Messages went out and the store is as before; they have their shape over the log to come. -/
structure Early (cfg : Config) (L : MemStore) (S S' : Sys σ) : Prop where
  trace : S.trace <+: S'.trace
  store : S'.store = S.store
  sent : AppsOver cfg L S S'

theorem Early.trans (h : Early cfg L S S') (h' : Early cfg L S' S'') : Early cfg L S S'' :=
  ⟨h.trace.trans h'.trace, h'.store.trans h.store, h.sent.trans h'.sent h'.trace⟩

/-- A caught-up follower is sent the batch the log is about to get. -/
theorem shipTo_sent {t : ℕ} {es : List Entry} {dst : NodeID}
    (hterm : S.store.termOf S.store.lastIndex = .ok t) (hcaps : WithinCaps cfg es)
    (hnext : S.node.r.next dst = S.store.lastIndex + 1) :
    Wp (shipTo cfg S.store.lastIndex t es dst) (fun _ S' => Early cfg (S.store.with es) S S')
      (fun _ _ => False) S := by
  have hsent : Wp (shipTo cfg S.store.lastIndex t es dst)
      (fun _ S' => ∃ m, m.toId = dst ∧ AppSent cfg (S.store.with es) S S' m) (fun _ _ => False) S := by
    simp only [shipTo]
    rw [wp_bind, wp_getRaft, wp_bind, wp_modifyRaft, wp_send, wp_emit]
    let m : Message :=
      { type := .app, fromId := cfg.id, toId := dst, term := S.node.r.term, index := S.store.lastIndex
        logTerm := t, entries := es, commit := S.node.r.commit }
    refine ⟨m, rfl, rfl, rfl, ⟨S.store.slice_with es, (S.store.longer_with es).termOf hterm⟩, hcaps,
      fun hle _ => ?_, fun _ => Function.update_self ..⟩
    have : S.node.r.next dst ≤ S.store.lastIndex := hle
    omega
  refine (wp_self.and hsent).mono ?_ fun _ _ h => h.2
  rintro _ S' ⟨hcall, m, rfl, h⟩
  exact ⟨h.trace_le, h.store, h.over (.early t es hnext hcall)⟩

theorem shipEarly_sent {last t : ℕ} {es : List Entry} (early ps : List NodeID)
    (hlast : S.store.lastIndex = last) (hterm : S.store.termOf last = .ok t) :
    Wp (shipEarly cfg last t es early ps) (fun _ S' => Early cfg (S.store.with es) S S')
      (fun _ _ => False) S := by
  subst hlast
  induction ps generalizing S early with
  | nil => exact ⟨List.prefix_refl _, rfl, (Mute.same rfl).over⟩
  | cons p ps ih =>
    simp only [shipEarly]
    rw [wp_bind, wp_getRaft, wp_ite]
    refine ⟨fun _ => ih early hterm, fun hship => ?_⟩
    obtain ⟨-, hnext, hfit⟩ : ¬ p = cfg.id ∧ S.node.r.next p = S.store.lastIndex + 1 ∧
        (fitBatch cfg es).length = es.length := by
      refine ⟨fun h => hship (Or.inl h), ?_, ?_⟩
      · exact not_not.mp fun h => hship (Or.inr (Or.inl h))
      · exact not_not.mp fun h => hship (Or.inr (Or.inr h))
    -- the whole batch fits one message
    have hcaps : WithinCaps cfg es := by
      have := fitBatch_caps cfg es
      rwa [(fitBatch_isPrefix cfg es).eq_of_length hfit] at this
    have hround := shipTo_sent hterm hcaps hnext
    simp only [shipTo] at hround
    rw [wp_bind, wp_getRaft, wp_bind, wp_modifyRaft] at hround
    rw [wp_bind, wp_modifyRaft, wp_bind]
    refine hround.imp ?_
    intro _ S₁ h₁
    have hrest := ih (S := S₁) (p :: early) (by rw [h₁.store]; exact hterm)
    rw [h₁.store] at hrest
    exact hrest.imp fun _ _ h => h₁.trans h

theorem MemStore.appendOne_next {s : MemStore} {e : Entry} (he : e.index = s.lastIndex + 1) :
    s.appendOne e = s.with [e] := by
  unfold MemStore.lastIndex at he
  unfold MemStore.appendOne MemStore.with
  rw [if_neg (by omega), show e.index - s.snapIdx - 1 = s.entries.length by omega, List.take_length]

theorem appendRecords_with {es : List Entry} (hes : NumberedAfter S.store.lastIndex es) :
    Wp (es.forM appendRecord) (fun _ S' => Mute S S' ∧ S'.store = S.store.with es)
      (fun _ _ => False) S := by
  induction es generalizing S with
  | nil => exact ⟨refl_of Mute S, by simp [MemStore.with]⟩
  | cons e es ih =>
    obtain ⟨he, hes⟩ := hes
    rw [wp_forM_cons]
    refine Wp.imp (Q := fun _ S₁ => Mute S S₁ ∧ S₁.store = S.store.with [e]) ?_ ?_
    · simp only [appendRecord]
      rw [wp_bind, wp_modify, wp_emit]
      exact ⟨Mute.one (e := .append e) (fun _ h => by cases h) rfl, MemStore.appendOne_next he⟩
    · rintro _ S₁ ⟨hmute, hstore⟩
      have hlast : S₁.store.lastIndex = S.store.lastIndex + 1 := by
        rw [hstore]
        simp [MemStore.with, MemStore.lastIndex]
        omega
      refine (ih (by rw [hlast]; exact hes)).imp ?_
      rintro _ S₂ ⟨hmute', hstore'⟩
      refine ⟨trans_of Mute hmute hmute', ?_⟩
      rw [hstore', hstore]
      simp [MemStore.with]

/-- The local write of a batch that continues the log is not refused. -/
theorem appendStore_with {es : List Entry} (hes : NumberedAfter S.store.lastIndex es) :
    Wp (appendStore es) (fun _ S' => Mute S S' ∧ S'.store = S.store.with es) (fun _ _ => False) S := by
  have hok : ∃ s', S.store.append es = .ok s' := by
    cases es with
    | nil => exact ⟨_, rfl⟩
    | cons e es =>
      have he : e.index = S.store.lastIndex + 1 := hes.1
      have hsnap : S.store.snapIdx ≤ S.store.lastIndex := Nat.le_add_right _ _
      exact ⟨_, if_neg (by omega)⟩
  obtain ⟨s', hs'⟩ := hok
  unfold appendStore
  rw [wp_bind, wp_getStore, hs']
  exact appendRecords_with hes

theorem streams_appendEntries {es : List Entry} :
    (streams cfg).Holds (appendEntries cfg es : M σ ℕ) := by
  intro S
  simp only [appendEntries]
  rw [wp_bind, wp_getRaft, wp_bind, wp_getStore]
  cases hterm : S.store.termOf S.store.lastIndex with
  | error e =>
    rw [wp_bind, termAt, wp_bind, wp_getStore, hterm]
    exact Streams.refl S
  | ok t =>
    rw [wp_bind, wp_termAt hterm, wp_bind]
    refine (shipEarly_sent [] cfg.peers rfl hterm).mono ?_ fun _ _ h => h.elim
    intro early S₁ h₁
    rw [wp_bind]
    refine (appendStore_with (S := S₁) (by rw [h₁.store]; exact numberedAfter_stamp _ _ _)).mono ?_
      fun _ _ h => h.elim
    rintro _ S₂ ⟨hmute, hstore⟩
    -- the log is now the one the early messages were cut from
    rw [h₁.store] at hstore
    have h₂ : Streams cfg S S₂ := by
      refine ⟨⟨h₁.trace.trans hmute.trace, ?_⟩, ?_⟩
      · rw [hstore]
        exact h₁.sent.trans hmute.over hmute.trace
      · rw [hstore]
        exact S.store.longer_with _
    have hrest : (streams cfg).Holds (do
        modifyRaft fun r => { r with
          matchIdx := update r.matchIdx cfg.id
            (S.store.lastIndex + (stamp S.store.lastIndex S.node.r.term es).length) }
        cfg.peers.forM fun p => when (p ≠ cfg.id ∧ p ∉ early) (sendAppend cfg p 0)
        let _ ← maybeCommit cfg
        pure (S.store.lastIndex + 1) : M σ ℕ) :=
      .bind streams_modifyRaft fun _ => .bind (.forM fun _ _ => .when Leads.app) fun _ =>
        .bind Tallies.tally fun _ => .pure
    exact (hrest S₂).mono (fun _ _ h => h₂.trans h) fun _ _ h => h₂.trans h

instance : Grows cfg (@streams σ cfg) := ⟨streams_appendEntries⟩

/-! ## The calls of the state machine. -/

/-- A message is a matter of the follower's log, which sends no append message, or of the leader's. -/
theorem dispatch_replicates : Keeps (Replicates cfg) (dispatch cfg m : M σ Unit) := by
  have hleader : ∀ {x : M σ Unit}, (streams cfg).Holds x → Keeps (Replicates cfg) x :=
    fun h => Keeps.mono h fun _ _ h => h.toReplicates
  have hfollower : ∀ {x : M σ Unit}, mute.Holds x → Keeps (Replicates cfg) x :=
    fun h => Keeps.mono h fun _ _ h => h.replicates
  unfold dispatch
  cases m.type with
  | vote => exact hfollower holds_handleVote
  | voteResp => exact hleader holds_handleVoteResp
  | app => exact hfollower holds_handleAppend
  | appResp => exact hleader (.bind holds_getRaft fun r => .when holds_handleAppendResp)
  | snap => exact hfollower holds_handleSnapshot
  | snapResp => exact hleader (.bind holds_getRaft fun r => .when holds_handleSnapshotResp)

theorem Mute.trans_replicates (h : Mute S S') (h' : Replicates cfg S' S'') : Replicates cfg S S'' :=
  ⟨h.trace.trans h'.trace, h.over.trans h'.sent h'.trace⟩

theorem step_replicates : Keeps (Replicates cfg) (step cfg m : M σ Unit) := by
  intro S
  simp only [step]
  rw [wp_bind, wp_getRaft, wp_ite]
  refine ⟨fun _ => ?_, fun _ => ?_⟩
  · exact (holds_rejectStale (F := mute) S).mono (fun _ _ h => h.replicates) fun _ _ h => h.replicates
  · -- a node that steps down first sends no append message on the way
    have hdown : mute.Holds (when (m.term > S.node.r.term) (becomeFollower cfg m.term
        (if m.type = .app ∨ m.type = .snap then m.fromId else None)) : M σ Unit) :=
      .when Bows.down
    rw [wp_bind]
    refine (hdown S).mono (fun _ S₁ h₁ => ?_) fun _ _ h => h.replicates
    exact (dispatch_replicates S₁).mono (fun _ _ h => h₁.trans_replicates h)
      fun _ _ h => h₁.trans_replicates h

/-- What the driver, or a test, may ask of the state machine. -/
inductive CoreCall where
  | tick
  | step (m : Message)
  | propose (payloads : List Bytes)
  | readIndex

def CoreCall.run (cfg : Config) : CoreCall → M σ Unit
  | .tick => Raft.tick cfg
  | .step m => Raft.step cfg m
  | .propose payloads => do
    let _ ← Raft.propose cfg payloads
    pure ()
  | .readIndex => do
    let _ ← Raft.readIndex cfg
    pure ()

/-- SHAPE OF REPLICATION MESSAGES.  From any state of a node and its store, under any settings: whatever
is asked of the state machine, each append message it sends is exactly the slice of the log, as the call
leaves it, behind the message's index, with the term at the index; it keeps the caps on a message; it
carries entries whenever the follower is behind the log and not behind the compaction point; and but for
the read probe, the follower's next index right after the send is the one behind the last entry sent. -/
theorem app_message_shape (cfg : Config) (c : CoreCall) :
    Keeps (Replicates cfg) (c.run cfg : M σ Unit) := by
  have hleader : ∀ {β : Type} {x : M σ β}, (streams cfg).Holds x → Keeps (Replicates cfg) x :=
    fun h => Keeps.mono h fun _ _ h => h.toReplicates
  cases c with
  | tick => exact hleader holds_tick
  | step m => exact step_replicates
  | propose payloads => exact hleader (.bind holds_propose fun _ => .pure)
  | readIndex => exact hleader (.bind holds_readIndex fun _ => .pure)

/-- A leader of two with three entries, under a cap of three bytes of payload. -/
def capped : Sys Unit :=
  { node :=
      { r :=
          { term := 1, vote := 1, state := .leader, commit := 0, timeout := 1, rng := fun _ => 0
            next := fun _ => 1 }
        sm := ()
        applied := 0 }
    store :=
      { entries :=
          [{ index := 1, term := 1, data := [1, 2, 3, 4] }, { index := 2, term := 1, data := [5] },
            { index := 3, term := 1, data := [6, 7] }] } }

def cappedCfg : Config :=
  { id := 1, peers := [1, 2], electionTick := 1, heartbeatTick := 1, maxBatchBytes := 3 }

-- the first entry is over the cap and goes alone, the other two fill the next message
example :
    (sends (effects ([CoreCall.tick, .tick].forM (CoreCall.run cappedCfg) capped))).map
        (fun m => (m.index, m.entries.map Entry.index))
      = [(0, [1]), (1, [2, 3])] := by
  decide +kernel

end Keystone.Raft
