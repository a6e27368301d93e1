/-
# Keystone.Raft.Actions — the abstract actions, as a node's writes perform them.

`History.step` takes an abstract action; the lemmas after it say, for each store write of the code,
which action matches it and that the written store shows the new abstract node:

* one record of an `Append` — `accept` (`Dur.accept`, `Justified.accept`);
* `Compact` by the node itself — nothing (`Dur.compact`);
* `Compact` by an installed snapshot — `adopt` if the snapshot reaches the end of the log
  (`Dur.adopt`), and NOTHING if it does not: the entries beyond it stay, and the abstract log keeps the
  old ones under the snapshot as well.
-/
import Keystone.Raft.LogFacts

namespace Keystone.Raft

open Keystone.Lib
open Keystone.Lib.TermLog (Inv Le lastTm WF getElem?_of_isPrefix getElem?_of_take_isPrefix
  length_of_getElem?)

variable {σ : Type} {G : Group σ} {a a' : Abstract} {i : NodeID} {s : MemStore} {clean : Prop}

/-! ## Growing a history. -/

theorem RoundOK.of_le {P : TermLog.Params NodeID Entry} {T : ℕ} {rd : Round} (h : RoundOK P a T rd)
    (hle : Le a a') : RoundOK P a' T rd :=
  ⟨hle.leader_ne h.lead, fun p => (h.terms p).trans (hle.term p), h.covers, h.quorum⟩

/-- The history after an abstract action. -/
def History.step (b : History G) (hs : TermLog.Step G.params i b.a a') (hidx : Indexed a') :
    History G :=
  { b with
    a := a'
    inv := b.inv.step hs
    idx := hidx
    rounds_ok := fun T id rd h => (b.rounds_ok T id rd h).of_le (b.inv.step_le hs)
    birth_ok := fun q h K hK => (b.birth_ok q h K hK).trans (b.inv.step_le hs).commits }

theorem History.step_grow (b : History G) (hs : TermLog.Step G.params i b.a a')
    (hidx : Indexed a') : Grow i b (b.step hs hidx) where
  evolves := hs.evolves
  rounds _ _ _ h := h
  rounds_frame _ _ _ _ _ := rfl
  epoch_frame _ _ := rfl
  birth _ _ _ h := h
  birth_frame _ _ _ := rfl

/-- Entries of a well-formed log carry their own index. -/
theorem History.index_eq (b : History G) {l : List Entry} (hl : WF Entry.term b.a l) {j : ℕ}
    {e : Entry} (he : l[j]? = some e) : e.index = j + 1 :=
  b.idx _ j e (getElem?_of_take_isPrefix (hl j e he) (by omega) he)

/-- Becoming a leader publishes a well-formed log. -/
theorem History.indexed_elect (b : History G) (i : NodeID) : Indexed (b.a.elect i) := by
  intro T j e he
  by_cases hT : T = b.a.term i
  · subst hT
    simp only [TermLog.State.elect, Function.update_self] at he
    exact b.index_eq (b.inv.log_wf i) he
  · simp only [TermLog.State.elect, Function.update_of_ne hT] at he
    exact b.idx T j e he

/-! ## One record of an append. -/

theorem HasTerm.take {l : List Entry} {k n t : ℕ} (h : HasTerm l k t) (hk : k ≤ n) :
    HasTerm (l.take n) k t := by
  rcases h with h | ⟨h1, e, he, het⟩
  · exact Or.inl h
  · exact Or.inr ⟨h1, e, by rw [List.getElem?_take, if_pos (by omega), he], het⟩

theorem leader_of_entry (hinv : Inv G.params a) {T j : ℕ} {e : Entry}
    (he : (a.llog T)[j]? = some e) : ∃ c, a.leader T = some c := by
  refine Option.ne_none_iff_exists'.mp fun hnone => ?_
  rw [hinv.llog_none T hnone] at he
  simp at he

/-- An append moves nothing but the entries. -/
theorem MemStore.appendOne_eq (s : MemStore) (e : Entry) :
    s.appendOne e = { s with entries := (s.appendOne e).entries } := by
  unfold MemStore.appendOne
  split <;> rfl

theorem MemStore.appendOne_snapIdx (s : MemStore) (e : Entry) :
    (s.appendOne e).snapIdx = s.snapIdx := by rw [s.appendOne_eq]

section Accept

variable {j : ℕ} {e : Entry}

/-- The abstract node after it copied the leader's log up to index `j + 1`. -/
abbrev accepted (a : Abstract) (i : NodeID) (j : ℕ) : Abstract :=
  a.setLog i ((a.llog (a.term i)).take (j + 1))

theorem accepted_log (a : Abstract) (i : NodeID) (j : ℕ) :
    (accepted a i j).log i = (a.llog (a.term i)).take (j + 1) :=
  Function.update_self ..

/-- The written record shows the copied log. -/
theorem Dur.accept (h : Dur clean a i s) (hinv : Inv G.params a) (hsnap : s.snapIdx ≤ j)
    (hag : Agree a i s (a.term i) j) (he : (a.llog (a.term i))[j]? = some e)
    (hidx : e.index = j + 1) : Dur clean (accepted a i j) i (s.appendOne e) := by
  have hj := length_of_getElem? he
  obtain ⟨c, hlead⟩ := leader_of_entry hinv he
  have happ : s.appendOne e = { s with entries := s.entries.take (j - s.snapIdx) ++ [e] } := by
    rw [MemStore.appendOne, if_neg (by omega), hidx, show j + 1 - s.snapIdx - 1 = j - s.snapIdx by omega]
  rw [happ]
  refine ⟨h.term, h.vote, ?_, ?_, ?_, h.snap, ?_⟩
  · rw [accepted_log, List.length_take]
    show s.snapIdx ≤ _
    omega
  · show s.entries.take (j - s.snapIdx) ++ [e] = List.drop s.snapIdx _
    have hlast : (a.llog (a.term i)).take (j + 1) = (a.llog (a.term i)).take j ++ [e] := by
      rw [List.take_add_one, he]
      rfl
    rw [accepted_log, hlast, List.drop_append_of_le_length (by rw [List.length_take]; omega), h.entries]
    congr 1
    refine List.ext_getElem? fun k => ?_
    rw [List.getElem?_take, List.getElem?_drop, List.getElem?_drop, List.getElem?_take]
    by_cases hk : k < j - s.snapIdx
    · rw [if_pos hk, if_pos (by omega), hag.2.2 _ (by omega) (by omega)]
    · rw [if_neg hk, if_neg (by omega)]
  · rw [accepted_log, List.length_take]
    intro hlen
    have : min (j + 1) (a.llog (a.term i)).length = s.snapIdx := hlen
    omega
  · intro _
    rw [accepted_log]
    exact (h.snap.hasTerm hinv hlead).take (by show s.snapIdx ≤ j + 1; omega)

/-- Below a committed point the log of a leader in office since is the committed one. -/
theorem commits_getElem? (hinv : Inv G.params a) {T U n k : ℕ} {l : NodeID}
    (hlead : a.leader T = some l) (hcm : (U, n) ∈ a.commits) (hU : U ≤ T) (hk : k < n) :
    (a.llog T)[k]? = (a.llog U)[k]? := by
  have hlen := hinv.commit_len hcm
  have hg := List.getElem?_eq_getElem (l := a.llog U) (i := k) (by omega)
  rw [hg, getElem?_of_take_isPrefix (commits_isPrefix hinv hlead hcm hU) hk hg]

/-- A justified index is at or below the first entry where the log differs from the leader's: beyond
it the two logs would agree. -/
theorem Justified.le_of_differs (hinv : Inv G.params a) (hsnap : s.snapIdx ≤ j)
    (he : (a.llog (a.term i))[j]? = some e)
    (hd : ∀ e e', (a.log i)[j]? = some e → (a.llog (a.term i))[j]? = some e' → e.term ≠ e'.term)
    {c : ℕ} (hc : Justified a i s c) : c ≤ j := by
  obtain ⟨l, hlead⟩ := leader_of_entry hinv he
  rcases hc with hc | ⟨U, n, hcm, hU, hn, hl, hag⟩
  · exact hc.trans hsnap
  · by_contra hlt
    have hg := List.getElem?_eq_getElem (l := a.log i) (i := j) (by omega)
    have hsame := hag j hsnap (by omega)
    rw [hg, ← commits_getElem? hinv hlead hcm hU (by omega)] at hsame
    exact hd _ _ hg hsame.symm rfl

/-- The first record beyond the agreement touches nothing that is justified. -/
theorem Justified.accept (hinv : Inv G.params a) (hsnap : s.snapIdx ≤ j)
    (he : (a.llog (a.term i))[j]? = some e)
    (hd : ∀ e e', (a.log i)[j]? = some e → (a.llog (a.term i))[j]? = some e' → e.term ≠ e'.term)
    {c : ℕ} (hc : Justified a i s c) : Justified (accepted a i j) i (s.appendOne e) c := by
  have hcj := hc.le_of_differs hinv hsnap he hd
  obtain ⟨l, hlead⟩ := leader_of_entry hinv he
  rcases hc with hc | ⟨U, n, hcm, hU, hn, hl, hag⟩
  · left
    rwa [MemStore.appendOne_snapIdx]
  · have hj := length_of_getElem? he
    refine Or.inr ⟨U, n, hcm, hU, hn, ?_, ?_⟩
    · rw [accepted_log, List.length_take]
      omega
    · intro k h1 h2
      rw [MemStore.appendOne_snapIdx] at h1
      rw [accepted_log, List.getElem?_take, if_pos (by omega)]
      exact commits_getElem? hinv hlead hcm hU (by omega)

/-- After the record the logs agree one entry further. -/
theorem Agree.accept (he : (a.llog (a.term i))[j]? = some e) :
    Agree (accepted a i j) i (s.appendOne e) (a.term i) (j + 1) := by
  have hj := length_of_getElem? he
  refine ⟨?_, ?_, fun k _ hk => ?_⟩
  · rw [accepted_log, List.length_take]
    omega
  · show j + 1 ≤ (a.llog (a.term i)).length
    omega
  · rw [accepted_log, List.getElem?_take, if_pos hk]
    rfl

end Accept

/-! ## Compaction. -/

theorem MemStore.compact_eq (s : MemStore) {k t : ℕ} {data : Bytes} (h : s.snapIdx < k) :
    s.compact k t data =
      { s with
        entries := if k ≤ s.lastIndex then s.entries.drop (k - s.snapIdx) else []
        snapIdx := k, snapTerm := t, snap := data } := by
  rw [MemStore.compact, if_neg (by omega)]

/-- A compaction inside the log leaves the abstract node alone. -/
theorem Dur.compact (h : Dur clean a i s) {k t : ℕ} {data : Bytes} (hk : s.snapIdx < k)
    (hlen : k ≤ (a.log i).length) (hcert : Certified a (a.term i) k t)
    (hlast : (a.log i).length = k → lastTm Entry.term (a.log i) = t)
    (hclean : clean → HasTerm (a.log i) k t) : Dur clean a i (s.compact k t data) := by
  rw [s.compact_eq hk]
  refine ⟨h.term, h.vote, hlen, ?_, hlast, Or.inr hcert, hclean⟩
  show (if k ≤ s.lastIndex then s.entries.drop (k - s.snapIdx) else []) = (a.log i).drop k
  rw [h.lastIndex, if_pos hlen, h.entries, List.drop_drop]
  congr 1
  omega

theorem Justified.compact {c k t : ℕ} {data : Bytes} (hc : Justified a i s c) (hk : s.snapIdx < k) :
    Justified a i (s.compact k t data) c := by
  rw [s.compact_eq hk]
  rcases hc with hc | ⟨U, n, hcm, hU, hn, hl, hag⟩
  · exact Or.inl (hc.trans hk.le)
  · exact Or.inr ⟨U, n, hcm, hU, hn, hl, fun j h1 h2 => hag j (hk.le.trans h1) h2⟩

/-- A snapshot that reaches the end of the log replaces it by the committed prefix. -/
theorem Dur.adopt (h : Dur clean a i s) (hinv : Inv G.params a) {k t U n : ℕ} {data : Bytes}
    (hk : s.snapIdx < k) (hlen : (a.log i).length ≤ k) (hc : (U, n) ∈ a.commits) (hU : U ≤ a.term i)
    (hkn : k ≤ n) (ht : HasTerm (a.llog U) k t) :
    Dur clean (a.setLog i ((a.llog U).take k)) i (s.compact k t data) := by
  have hlog : (a.setLog i ((a.llog U).take k)).log i = (a.llog U).take k := Function.update_self ..
  have hklen : ((a.llog U).take k).length = k := by
    have := hinv.commit_len hc
    rw [List.length_take]
    omega
  have hterm : HasTerm ((a.llog U).take k) k t := ht.take le_rfl
  rw [s.compact_eq hk]
  refine ⟨h.term, h.vote, ?_, ?_, ?_, Or.inr ⟨U, n, hc, hU, ?_, hkn, ht⟩, ?_⟩
  · rw [hlog, hklen]
  · rw [hlog]
    show (if k ≤ s.lastIndex then s.entries.drop (k - s.snapIdx) else []) = ((a.llog U).take k).drop k
    have hnil : ((a.llog U).take k).drop k = [] := List.drop_eq_nil_of_le hklen.le
    rw [hnil]
    split
    · refine List.drop_eq_nil_of_le ?_
      rw [h.entries, List.length_drop]
      omega
    · rfl
  · intro _
    rw [hlog]
    have hl := HasTerm.last ((a.llog U).take k)
    rw [hklen] at hl
    exact hl.unique hterm
  · show 1 ≤ k
    omega
  · intro _
    rw [hlog]
    exact hterm

/-- What was justified before lies below the adopted snapshot. -/
theorem Justified.adopt (h : Dur clean a i s) {c k t : ℕ} {data : Bytes} {l : List Entry}
    (hc : Justified a i s c) (hk : s.snapIdx < k) (hlen : (a.log i).length ≤ k) :
    Justified (a.setLog i l) i (s.compact k t data) c := by
  left
  rw [s.compact_eq hk]
  exact (hc.le_length h).trans hlen

end Keystone.Raft
