/-
# Keystone.Raft.LogFacts — reading and writing a log store, in terms of the abstract log.

Three groups of lemmas, all about one abstract state:

* growth: what a commit point, a certificate or an acknowledgement says stays true (`*.of_le`);
* reading: inside its range the store answers with the abstract log (`Dur.termOf`, `Dur.slice`), and a
  certificate is a statement about the log of any leader of that term or a later one
  (`Certified.hasTerm`, `Below.le_length`: LEADER COMPLETENESS, as the code uses it);
* writing: a record accepted from the leader's log, a compaction, a new term keep `Dur` and every
  `Justified` index.
-/
import Keystone.Raft.History

namespace Keystone.Raft

open Keystone.Lib
open Keystone.Lib.TermLog (Inv Le lastTm WF getElem?_of_isPrefix getElem?_of_take_isPrefix
  length_of_getElem? lastTm_eq exists_last)

variable {σ : Type} {G : Group σ} {a a' : Abstract} {i : NodeID} {s : MemStore} {clean : Prop}

/-! ## Terms at an index. -/

/-- The store answers with a term inside its range only. -/
theorem MemStore.termOf_range {k t : ℕ} (h : s.termOf k = .ok t) :
    s.snapIdx ≤ k ∧ k ≤ s.lastIndex := by
  unfold MemStore.termOf at h
  unfold MemStore.lastIndex
  split at h
  · omega
  · split at h
    · cases h
    · split at h
      · next e he =>
        have := (List.getElem?_eq_some_iff.mp he).1
        omega
      · cases h

theorem HasTerm.zero (l : List Entry) : HasTerm l 0 0 := Or.inl ⟨rfl, rfl⟩

theorem HasTerm.intro {l : List Entry} {k : ℕ} {e : Entry} (h : l[k]? = some e) :
    HasTerm l (k + 1) e.term :=
  Or.inr ⟨by omega, e, h, rfl⟩

theorem HasTerm.le_length {l : List Entry} {k t : ℕ} (h : HasTerm l k t) : k ≤ l.length := by
  rcases h with ⟨rfl, _⟩ | ⟨_, e, he, _⟩
  · omega
  · have := length_of_getElem? he
    omega

theorem HasTerm.of_take_isPrefix {l l' : List Entry} {k n t : ℕ} (h : HasTerm l k t)
    (hp : l.take n <+: l') (hk : k ≤ n) : HasTerm l' k t := by
  rcases h with h | ⟨h1, e, he, het⟩
  · exact Or.inl h
  · exact Or.inr ⟨h1, e, getElem?_of_take_isPrefix hp (by omega) he, het⟩

theorem HasTerm.of_isPrefix {l l' : List Entry} {k t : ℕ} (h : HasTerm l k t) (hp : l <+: l') :
    HasTerm l' k t :=
  h.of_take_isPrefix (n := l.length) (by rwa [List.take_length]) h.le_length

theorem HasTerm.unique {l : List Entry} {k t t' : ℕ} (h : HasTerm l k t) (h' : HasTerm l k t') :
    t = t' := by
  rcases h with ⟨rfl, rfl⟩ | ⟨h1, e, he, rfl⟩ <;> rcases h' with ⟨h0, rfl⟩ | ⟨h1', e', he', rfl⟩
  · rfl
  · omega
  · omega
  · rw [he] at he'
    rw [Option.some.inj he']

theorem HasTerm.last (l : List Entry) : HasTerm l l.length (lastTm Entry.term l) := by
  rcases Nat.eq_zero_or_pos l.length with h0 | hpos
  · rw [List.length_eq_zero_iff.mp h0]
    exact HasTerm.zero []
  · obtain ⟨e, he⟩ := exists_last hpos
    exact Or.inr ⟨hpos, e, he, (lastTm_eq he).symm⟩

/-! ## Growth. -/

theorem Below.of_le {T k : ℕ} (h : Below a T k) (hle : Le a a') : Below a' T k :=
  h.imp_right fun ⟨U, n, hc, hU, hk⟩ => ⟨U, n, hle.commits hc, hU, hk⟩

theorem Below.down {T k k' : ℕ} (h : Below a T k) (hk : k' ≤ k) : Below a T k' := by
  rcases h with rfl | ⟨U, n, hc, hU, hn⟩
  · exact Or.inl (by omega)
  · exact Or.inr ⟨U, n, hc, hU, hk.trans hn⟩

theorem Certified.of_le {T k t : ℕ} (h : Certified a T k t) (hle : Le a a') : Certified a' T k t := by
  obtain ⟨U, n, hc, hU, h1, hk, ht⟩ := h
  exact ⟨U, n, hle.commits hc, hU, h1, hk, ht.of_isPrefix (hle.llog U)⟩

theorem Certified.mono {T T' k t : ℕ} (h : Certified a T k t) (hT : T ≤ T') : Certified a T' k t := by
  obtain ⟨U, n, hc, hU, h1, hk, ht⟩ := h
  exact ⟨U, n, hc, hU.trans hT, h1, hk, ht⟩

theorem Certified.below {T k t : ℕ} (h : Certified a T k t) : Below a T k := by
  obtain ⟨U, n, hc, hU, _, hk, _⟩ := h
  exact Or.inr ⟨U, n, hc, hU, hk⟩

theorem Snapped.of_le {T T' k t : ℕ} (h : Snapped a T k t) (hle : Le a a') (hT : T ≤ T') :
    Snapped a' T' k t :=
  h.imp_right fun hc => (hc.of_le hle).mono hT

theorem Snapped.below {T k t : ℕ} (h : Snapped a T k t) : Below a T k := by
  rcases h with ⟨rfl, _⟩ | h
  · exact Or.inl rfl
  · exact h.below

theorem Committed.of_le {T k : ℕ} {e : Entry} (h : Committed a T k e) (hle : Le a a') :
    Committed a' T k e := by
  obtain ⟨U, n, hc, hU, h1, hk, he⟩ := h
  exact ⟨U, n, hle.commits hc, hU, h1, hk, getElem?_of_isPrefix (hle.llog U) he⟩

theorem Acked.of_le {p : NodeID} {T k : ℕ} (h : Acked a p T k) (hle : Le a a') : Acked a' p T k :=
  h.imp (fun h => h.trans (hle.ack p T)) (fun h => h.of_le hle)

/-- Committed entries at one index are the same entry. -/
theorem Committed.unique {P : TermLog.Params NodeID Entry} (hinv : Inv P a) {T T' k : ℕ}
    {e e' : Entry} (h : Committed a T k e) (h' : Committed a T' k e') : e = e' := by
  obtain ⟨U, n, hc, -, h1, hk, he⟩ := h
  obtain ⟨U', n', hc', -, -, hk', he'⟩ := h'
  have := hinv.commit_agree hc hc' (j := k - 1) (by omega) (by omega)
  rw [he, he'] at this
  exact Option.some.inj this

/-! ## Certificates read by a leader. -/

section Leader

variable {T : ℕ} {c : NodeID}

theorem commits_isPrefix (hinv : Inv G.params a) (hT : a.leader T = some c) {U n : ℕ}
    (hc : (U, n) ∈ a.commits) (hU : U ≤ T) : (a.llog U).take n <+: a.llog T :=
  hinv.chosen_llog (hinv.commit_chosen U n hc) hT hU

/-- What is committed up to a term is in the log of that term's leader. -/
theorem Below.le_length (hinv : Inv G.params a) (hT : a.leader T = some c) {k : ℕ}
    (h : Below a T k) : k ≤ (a.llog T).length := by
  rcases h with rfl | ⟨U, n, hc, hU, hk⟩
  · omega
  · have hp := (commits_isPrefix hinv hT hc hU).length_le
    have := hinv.commit_len hc
    rw [List.length_take] at hp
    omega

theorem Acked.le_length (hinv : Inv G.params a) (hT : a.leader T = some c) {p : NodeID} {k : ℕ}
    (h : Acked a p T k) : k ≤ (a.llog T).length := by
  rcases h with h | h
  · exact h.trans (hinv.ack_len p T)
  · exact h.le_length hinv hT

theorem Certified.hasTerm (hinv : Inv G.params a) (hT : a.leader T = some c) {k t : ℕ}
    (h : Certified a T k t) : HasTerm (a.llog T) k t := by
  obtain ⟨U, n, hc, hU, _, hk, ht⟩ := h
  exact ht.of_take_isPrefix (commits_isPrefix hinv hT hc hU) hk

theorem Snapped.hasTerm (hinv : Inv G.params a) (hT : a.leader T = some c) {k t : ℕ}
    (h : Snapped a T k t) : HasTerm (a.llog T) k t := by
  rcases h with ⟨rfl, rfl⟩ | h
  · exact HasTerm.zero _
  · exact h.hasTerm hinv hT

end Leader

/-! ## Reading a store. -/

namespace Dur

theorem lastIndex (h : Dur clean a i s) : s.lastIndex = (a.log i).length := by
  have := h.snap_le
  rw [MemStore.lastIndex, h.entries, List.length_drop]
  omega

theorem entry (h : Dur clean a i s) {k : ℕ} (hk : s.snapIdx < k) :
    s.entries[k - s.snapIdx - 1]? = (a.log i)[k - 1]? := by
  rw [h.entries, List.getElem?_drop]
  congr 1
  omega

/-- `Term` answers inside the range, with the abstract log beyond the snapshot point. -/
theorem termOf (h : Dur clean a i s) {k : ℕ} (h1 : s.snapIdx ≤ k) (h2 : k ≤ (a.log i).length) :
    ∃ t, s.termOf k = .ok t ∧ (k = s.snapIdx → t = s.snapTerm) ∧
      (s.snapIdx < k → HasTerm (a.log i) k t) := by
  rcases Nat.eq_or_lt_of_le h1 with rfl | hlt
  · exact ⟨s.snapTerm, by simp [MemStore.termOf], fun _ => rfl, fun h => absurd h (lt_irrefl _)⟩
  · have hlen : k - 1 < (a.log i).length := by omega
    have he := List.getElem?_eq_getElem hlen
    refine ⟨(a.log i)[k - 1].term, ?_, fun h => by omega, fun _ => Or.inr ⟨by omega, _, he, rfl⟩⟩
    rw [MemStore.termOf, if_neg (by omega), if_neg (by omega), h.entry hlt, he]

/-- The last term a voter compares is the abstract one. -/
theorem termOf_last (h : Dur clean a i s) :
    s.termOf s.lastIndex = .ok (lastTm Entry.term (a.log i)) := by
  obtain ⟨t, ht, hsnap, hlog⟩ := h.termOf h.snap_le le_rfl
  rw [h.lastIndex, ht]
  rcases Nat.eq_or_lt_of_le h.snap_le with heq | hlt
  · rw [hsnap heq.symm, h.last heq.symm]
  · rw [(hlog hlt).unique (HasTerm.last _)]

theorem slice (h : Dur clean a i s) {lo : ℕ} (hi : ℕ) (h1 : s.snapIdx < lo)
    (h2 : hi ≤ (a.log i).length + 1) :
    s.slice lo hi = .ok (((a.log i).drop (lo - 1)).take (hi - lo)) := by
  rw [MemStore.slice, if_neg (by omega), if_neg (by rw [h.lastIndex]; omega), h.entries,
    List.drop_drop, show s.snapIdx + (lo - s.snapIdx - 1) = lo - 1 by omega]

/-- The live entries of a store are those of the abstract log. -/
theorem entryAt (h : Dur clean a i s) {k : ℕ} {e : Entry} (he : s.entryAt k = some e) :
    s.snapIdx < k ∧ (a.log i)[k - 1]? = some e := by
  unfold MemStore.entryAt at he
  split at he
  · cases he
  · have hk : s.snapIdx < k := by omega
    exact ⟨hk, by rw [← h.entry hk, he]⟩

/-! ## Writing a store. -/

/-- Nothing of node `i` changed. -/
theorem of_le (h : Dur clean a i s) (hle : Le a a') (hterm : a'.term i = a.term i)
    (hvote : a'.vote i = a.vote i) (hlog : a'.log i = a.log i) : Dur clean a' i s where
  term := hterm.trans h.term
  vote := hvote.trans h.vote
  snap_le := by rw [hlog]; exact h.snap_le
  entries := by rw [hlog]; exact h.entries
  last := by rw [hlog]; exact h.last
  snap := h.snap.of_le hle (hle.term i)
  matched := by rw [hlog]; exact h.matched

/-- `SetState`: a new term or vote. -/
theorem setState (h : Dur clean a i s) (hle : Le a a') {t : ℕ} {v : NodeID} (hterm : a'.term i = t)
    (hvote : a'.vote i = if v = None then none else some v) (hlog : a'.log i = a.log i) :
    Dur clean a' i (s.setState t v) where
  term := hterm
  vote := hvote
  snap_le := by rw [hlog]; exact h.snap_le
  entries := by rw [hlog]; exact h.entries
  last := by rw [hlog]; exact h.last
  snap := h.snap.of_le hle (hle.term i)
  matched := by rw [hlog]; exact h.matched

end Dur

/-! ## Justified commit indexes. -/

namespace Justified

theorem down {c c' : ℕ} (h : Justified a i s c) (hc : c' ≤ c) : Justified a i s c' := by
  rcases h with h | ⟨U, n, hcm, hU, hn, hl, hag⟩
  · exact Or.inl (hc.trans h)
  · exact Or.inr ⟨U, n, hcm, hU, hc.trans hn, hc.trans hl, fun j h1 h2 => hag j h1 (by omega)⟩

theorem le_length (h : Dur clean a i s) {c : ℕ} (hc : Justified a i s c) :
    c ≤ (a.log i).length := by
  rcases hc with hc | ⟨_, _, _, _, _, hl, _⟩
  · exact hc.trans h.snap_le
  · exact hl

theorem below (h : Dur clean a i s) {c : ℕ} (hc : Justified a i s c) : Below a (a.term i) c := by
  rcases hc with hc | ⟨U, n, hcm, hU, hn, _, _⟩
  · exact h.snap.below.down hc
  · exact Or.inr ⟨U, n, hcm, hU, hn⟩

/-- Beyond the snapshot, entries up to a justified index are committed. -/
theorem committed {c k : ℕ} {e : Entry} (hc : Justified a i s c) (h1 : s.snapIdx < k) (h2 : k ≤ c)
    (he : (a.log i)[k - 1]? = some e) : Committed a (a.term i) k e := by
  rcases hc with hc | ⟨U, n, hcm, hU, hn, _, hag⟩
  · omega
  · refine ⟨U, n, hcm, hU, by omega, by omega, ?_⟩
    rw [← hag (k - 1) (by omega) (by omega), he]

/-- Nothing of node `i`'s log or snapshot changed. -/
theorem of_le {P : TermLog.Params NodeID Entry} (hinv : Inv P a) {c : ℕ} (hc : Justified a i s c)
    (hle : Le a a') (hlog : a'.log i = a.log i) {s' : MemStore} (hs : s'.snapIdx = s.snapIdx) :
    Justified a' i s' c := by
  rcases hc with hc | ⟨U, n, hcm, hU, hn, hl, hag⟩
  · exact Or.inl (hs ▸ hc)
  · refine Or.inr ⟨U, n, hle.commits hcm, hU.trans (hle.term i), hn, by rw [hlog]; exact hl, ?_⟩
    intro j h1 h2
    have hlen := hinv.commit_len hcm
    have hg := List.getElem?_eq_getElem (l := a.llog U) (i := j) (by omega)
    rw [hlog, hag j (hs ▸ h1) h2, hg, getElem?_of_isPrefix (hle.llog U) hg]

end Justified

/-! ## Following the leader's log. -/

/-- Beyond the snapshot, the first `k` entries of node `i` are those of the leader of `T`. -/
def Agree (a : Abstract) (i : NodeID) (s : MemStore) (T k : ℕ) : Prop :=
  k ≤ (a.log i).length ∧ k ≤ (a.llog T).length ∧
    ∀ j, s.snapIdx ≤ j → j < k → (a.log i)[j]? = (a.llog T)[j]?

/-- Agreement beyond the snapshot point is agreement throughout (log matching). -/
theorem Agree.take_isPrefix (hinv : Inv G.params a) {T k : ℕ} (h : Agree a i s T k)
    (hk : s.snapIdx < k) : (a.llog T).take k <+: a.log i := by
  obtain ⟨h1, h2, hag⟩ := h
  have hlen : k - 1 < (a.llog T).length := by omega
  have he := List.getElem?_eq_getElem hlen
  have he' := (hag (k - 1) (by omega) (by omega)).trans he
  have := (hinv.llog_wf T).take_eq (hinv.log_wf i) he he' rfl
  rw [Nat.sub_add_cancel (by omega)] at this
  rw [this]
  exact List.take_prefix _ _

/-- Entries of one term at one index put two logs in agreement up to there. -/
theorem Agree.of_term (hinv : Inv G.params a) {T k t : ℕ} (h : HasTerm (a.log i) k t)
    (h' : HasTerm (a.llog T) k t) : Agree a i s T k := by
  refine ⟨h.le_length, h'.le_length, fun j _ hj => ?_⟩
  rcases h with ⟨rfl, _⟩ | ⟨h1, e, he, rfl⟩
  · omega
  · rcases h' with ⟨rfl, _⟩ | ⟨_, e', he', het⟩
    · omega
    · have := (hinv.log_wf i).take_eq (hinv.llog_wf T) he he' het.symm
      rw [Nat.sub_add_cancel h1] at this
      have hj' := congrArg (·[j]?) this
      simpa only [List.getElem?_take, if_pos hj] using hj'

/-- What a follower acknowledges after a successful match. -/
theorem Agree.acked_or_below (h : Dur clean a i s) (hinv : Inv G.params a) {k : ℕ}
    (hag : Agree a i s (a.term i) k) :
    (a.llog (a.term i)).take k <+: a.log i ∨ Below a (a.term i) k := by
  rcases Nat.lt_or_ge s.snapIdx k with hlt | hge
  · exact Or.inl (hag.take_isPrefix hinv hlt)
  · exact Or.inr (h.snap.below.down hge)

/-- A commit index the leader announced, as far as the follower agrees with the leader's log. -/
theorem Agree.justified (hinv : Inv G.params a) {c : NodeID} (hT : a.leader (a.term i) = some c)
    {k m : ℕ} (hag : Agree a i s (a.term i) k) (hm : Below a (a.term i) m) :
    Justified a i s (min m k) := by
  rcases hm with rfl | ⟨U, n, hcm, hU, hn⟩
  · exact Or.inl (by omega)
  · refine Or.inr ⟨U, n, hcm, hU, by omega, ?_, ?_⟩
    · have := hag.1
      omega
    · intro j h1 h2
      have hlen := hinv.commit_len hcm
      have hg := List.getElem?_eq_getElem (l := a.llog U) (i := j) (by omega)
      rw [hag.2.2 j h1 (by omega), hg,
        getElem?_of_take_isPrefix (commits_isPrefix hinv hT hcm hU) (by omega) hg]

end Keystone.Raft
