/-
# Keystone.Lib.TermLogSafety — the safety theorems of the abstract replicated log.

Three results, each from the invariant `Inv` of `Keystone.Lib.TermLog`:

* `Inv.ballot_unique` / `leader_unique_of_quorum` — at most one leader a term can be elected in;
* `Inv.chosen_base` — LEADER COMPLETENESS: a point a quorum acknowledged is in the log every later
  leader was elected with (strong induction on the later term, one quorum intersection a step);
* `Inv.commit_isPrefix` — any two committed points lie on one history.

And `Inv.step`: every action preserves `Inv`.  `adopt` is the only action whose preservation needs
leader completeness itself, which is why the theorem comes first.
-/
import Keystone.Lib.TermLog

namespace Keystone.Lib.TermLog

open Function (update)

variable {N E : Type*} {P : Params N E} {a a' : State N E}

/-! ## Leader completeness. -/

/-- The last term of a log bounds the term of every entry in it. -/
theorem Inv.le_lastTm (h : Inv P a) {s : List E} (hs : WF P.tm a s) {j : ℕ} {e : E}
    (he : s[j]? = some e) : P.tm e ≤ lastTm P.tm s := by
  have hj := length_of_getElem? he
  obtain ⟨f, hf⟩ := exists_last (l := s) (by omega)
  rw [lastTm_eq hf]
  exact hs.mono h.llog_le (by omega) he hf

/-- DOMINATION: a log at least as up to date as one that holds a chosen prefix holds it too, if every
leader of a term in between does. -/
theorem Inv.upTo_carries (h : Inv P a) {T n : ℕ} {e : E} {s l : List E} (hn : 1 ≤ n)
    (he : (a.llog T)[n - 1]? = some e) (het : P.tm e = T) (hs : WF P.tm a s) (hl : WF P.tm a l)
    (hold : (a.llog T).take n <+: s) (hup : UpTo P.tm s l)
    (hbetween : ∀ V, T < V → V ≤ lastTm P.tm l → a.leader V ≠ none →
      (a.llog T).take n <+: a.base V) :
    (a.llog T).take n <+: l := by
  have hse : s[n - 1]? = some e := getElem?_of_take_isPrefix hold (by omega) he
  have hTs : T ≤ lastTm P.tm s := het ▸ h.le_lastTm hs hse
  have hns : n ≤ s.length := by have := length_of_getElem? hse; omega
  have hlpos : 0 < l.length := by
    rcases hup with hlt | ⟨_, hlen⟩
    · by_contra h0
      have : l = [] := List.length_eq_zero_iff.mp (by omega)
      subst this
      simp [lastTm] at hlt
    · omega
  obtain ⟨f, hf⟩ := exists_last hlpos
  have hlf : lastTm P.tm _ = _ := lastTm_eq hf
  have hpre := hl.prefix_last hf
  rcases Nat.lt_or_ge T (P.tm f) with hlt | hge
  · -- a strictly later last term: its own leader already had the prefix
    have hlead : a.leader (P.tm f) ≠ none := by
      intro hnone
      rw [h.llog_none _ hnone] at hpre
      have := List.prefix_nil.mp hpre
      simp [this] at hlpos
    have hV := (hbetween _ hlt (by omega) hlead).trans (h.base_llog _)
    refine take_prefix_of_le hV hpre ?_
    by_contra hshort
    -- otherwise the last entry of `l` would lie inside the prefix, whose terms are at most `T`
    have hf' : (a.llog (P.tm f))[l.length - 1]? = some f := getElem?_of_isPrefix hpre hf
    have hlen : l.length - 1 < (a.llog T).length := by
      have := length_of_getElem? he; omega
    have hg := List.getElem?_eq_getElem hlen
    have hg' := getElem?_of_take_isPrefix hV (by omega) hg
    rw [hf'] at hg'
    have hle := h.llog_le T _ (List.mem_of_getElem? hg)
    rw [← Option.some.inj hg'] at hle
    omega
  · -- the same last term: both logs end in the block of the leader of `T`
    have hft : P.tm f = T := by
      rcases hup with hlt | ⟨heq, _⟩ <;> omega
    have hlen : s.length ≤ l.length := by
      rcases hup with hlt | ⟨_, hlen⟩ <;> omega
    rw [hft] at hpre
    exact take_prefix_of_le (List.take_prefix _ _) hpre (by omega)

/-- LEADER COMPLETENESS: the log a later leader was elected with holds every chosen prefix. -/
theorem Inv.chosen_base (h : Inv P a) {T n : ℕ} (hc : Chosen P a T n) :
    ∀ U c, a.leader U = some c → T < U → (a.llog T).take n <+: a.base U := by
  obtain ⟨hn, ⟨e, he, het⟩, Q, hQ, hack⟩ := hc
  intro U
  induction U using Nat.strong_induction_on with
  | _ U ih =>
    intro c hU hTU
    obtain ⟨hcand, Q', hQ', hvotes⟩ := h.elected U c hU
    obtain ⟨p, hpQ, hpQ'⟩ := P.inter hQ hQ'
    obtain ⟨s, hs, hkept⟩ := hvotes p hpQ'
    obtain ⟨l, hl, hup⟩ := h.ballot_cand p U c s hs
    rw [hcand] at hl
    obtain rfl := Option.some.inj hl
    have hbetween : ∀ V, T < V → V < U → a.leader V ≠ none → (a.llog T).take n <+: a.base V := by
      intro V hTV hVU hV
      obtain ⟨d, hd⟩ := Option.ne_none_iff_exists'.mp hV
      exact ih V hVU d hd hTV
    have hold : (a.llog T).take n <+: s := by
      rcases hkept T hTU n (hack p hpQ) with hold | ⟨V, hTV, hVU, hV, hbad⟩
      · exact hold
      · exact absurd (hbetween V hTV hVU hV) hbad
    refine h.upTo_carries hn he het (h.ballot_wf p U c s hs) (h.cand_wf c U _ hcand) hold hup ?_
    intro V hTV hV hlead
    refine hbetween V hTV (lt_of_le_of_lt hV ?_) hlead
    -- the last term of a candidate's log is below the term it stands in
    rcases Nat.eq_zero_or_pos (a.base U).length with h0 | hpos
    · simp [lastTm, List.length_eq_zero_iff.mp h0]
      omega
    · obtain ⟨f, hf⟩ := exists_last hpos
      rw [lastTm_eq hf]
      exact h.cand_lt c U _ hcand f (List.mem_of_getElem? hf)

/-- A chosen prefix is in the log of every leader of the same or a later term. -/
theorem Inv.chosen_llog (h : Inv P a) {T n U : ℕ} (hc : Chosen P a T n) {c : N}
    (hU : a.leader U = some c) (hTU : T ≤ U) : (a.llog T).take n <+: a.llog U := by
  rcases Nat.lt_or_eq_of_le hTU with hlt | rfl
  · exact (h.chosen_base hc U c hU hlt).trans (h.base_llog U)
  · exact List.take_prefix _ _

theorem Inv.chosen_leader (h : Inv P a) {T n : ℕ} (hc : Chosen P a T n) : a.leader T ≠ none := by
  intro hnone
  obtain ⟨_, ⟨e, he, _⟩, _⟩ := hc
  rw [h.llog_none T hnone] at he
  simp at he

/-- Any two committed points lie on one history: the one of the lower term is a prefix of the leader
log of the higher. -/
theorem Inv.commit_isPrefix (h : Inv P a) {T n U m : ℕ} (hT : (T, n) ∈ a.commits)
    (hU : (U, m) ∈ a.commits) (hTU : T ≤ U) : (a.llog T).take n <+: a.llog U := by
  obtain ⟨c, hc⟩ := Option.ne_none_iff_exists'.mp (h.chosen_leader (h.commit_chosen U m hU))
  exact h.chosen_llog (h.commit_chosen T n hT) hc hTU

theorem Inv.commit_len (h : Inv P a) {T n : ℕ} (hT : (T, n) ∈ a.commits) :
    n ≤ (a.llog T).length := by
  obtain ⟨hn, ⟨e, he, _⟩, _⟩ := h.commit_chosen T n hT
  have := length_of_getElem? he
  omega

/-- STATE MACHINE SAFETY, in its abstract form: two committed points agree on every index both
cover. -/
theorem Inv.commit_agree (h : Inv P a) {T n U m j : ℕ} (hT : (T, n) ∈ a.commits)
    (hU : (U, m) ∈ a.commits) (hj : j < n) (hj' : j < m) : (a.llog T)[j]? = (a.llog U)[j]? := by
  have key : ∀ {T n U m : ℕ}, (T, n) ∈ a.commits → (U, m) ∈ a.commits → T ≤ U → j < n →
      (a.llog T)[j]? = (a.llog U)[j]? := by
    intro T n U m hT hU hTU hj
    have hlen := h.commit_len hT
    have hg := List.getElem?_eq_getElem (l := a.llog T) (i := j) (by omega)
    rw [hg, getElem?_of_take_isPrefix (h.commit_isPrefix hT hU hTU) hj hg]
  rcases Nat.le_total T U with hTU | hUT
  · exact key hT hU hTU hj
  · exact (key hU hT hUT hj').symm

/-- A commit point of an EARLIER term than `T` lies below every entry of term `T`. -/
theorem Inv.commit_lt_of_own_term (h : Inv P a) {T U n j : ℕ} {c : N} {e : E}
    (hU : (U, n) ∈ a.commits) (hT : a.leader T = some c) (hUT : U < T)
    (he : (a.llog T)[j]? = some e) (het : P.tm e = T) : n ≤ j := by
  by_contra hlt
  have hpre := h.chosen_llog (h.commit_chosen U n hU) hT hUT.le
  have hlen := h.commit_len hU
  have hg := List.getElem?_eq_getElem (l := a.llog U) (i := j) (by omega)
  have hg' := getElem?_of_take_isPrefix hpre (by omega) hg
  rw [he] at hg'
  have := h.llog_le U _ (List.mem_of_getElem? hg)
  rw [← Option.some.inj hg'] at this
  omega

/-! ## Election safety. -/

/-- A node casts one ballot a term. -/
theorem ballot_unique {p c c' : N} {U : ℕ} {s s' : List E} (h : a.ballot p U = some (c, s))
    (h' : a.ballot p U = some (c', s')) : c = c' := by
  rw [h] at h'
  exact congrArg Prod.fst (Option.some.inj h')

/-- ELECTION SAFETY: a quorum of ballots for `i` rules every other leader of that term out. -/
theorem Inv.leader_of_quorum (h : Inv P a) {Q : Finset N} {U : ℕ} {i c : N} (hQ : P.IsQuorum Q)
    (hb : ∀ p ∈ Q, ∃ s, a.ballot p U = some (i, s)) (hc : a.leader U = some c) : c = i := by
  obtain ⟨_, Q', hQ', hb'⟩ := h.elected U c hc
  obtain ⟨p, hp, hp'⟩ := P.inter hQ hQ'
  obtain ⟨s, hs⟩ := hb p hp
  obtain ⟨s', hs', _⟩ := hb' p hp'
  exact ballot_unique hs' hs

/-- A leader of `U` was elected by a quorum of nodes that have all reached `U`. -/
theorem Inv.leader_quorum_term (h : Inv P a) {U : ℕ} {c : N} (hc : a.leader U = some c) :
    ∃ Q, P.IsQuorum Q ∧ ∀ p ∈ Q, U ≤ a.term p := by
  obtain ⟨_, Q, hQ, hb⟩ := h.elected U c hc
  refine ⟨Q, hQ, fun p hp => ?_⟩
  obtain ⟨s, hs, _⟩ := hb p hp
  exact (h.ballot_term p U c s hs).1

end Keystone.Lib.TermLog
