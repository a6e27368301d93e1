/-
# Keystone.Lib.TermLogStep — every action of the abstract replicated log preserves its invariant.

* `Le a a'` — the history only grows: terms, leaders, leader logs (as prefixes), acknowledgements,
  ballots and commits of `a` are still there in `a'`.
* `Frame i a a'` — an action of `i` leaves the other nodes alone, and with them the log and the commits
  of every term one of them leads.
* `Inv.step` — the invariant is inductive; `Evolves.inv` carries it along a whole sequence of actions.

`Evolves P i` is the reflexive-transitive closure of `Step P i`: what a program step of one node is
allowed to do to the abstract state.
-/
import Keystone.Lib.TermLogSafety

namespace Keystone.Lib.TermLog

open Function (update)

variable {N E : Type*} {P : Params N E} {a a' a'' : State N E}

/-! ## The growth order. -/

/-- The history of `a` is part of the history of `a'`. -/
structure Le (a a' : State N E) : Prop where
  term : ∀ p, a.term p ≤ a'.term p
  leader : ∀ T l, a.leader T = some l → a'.leader T = some l
  base : ∀ T, a.leader T ≠ none → a'.base T = a.base T
  llog : ∀ T, a.llog T <+: a'.llog T
  ack : ∀ p T, a.ack p T ≤ a'.ack p T
  ballot : ∀ p U x, a.ballot p U = some x → a'.ballot p U = some x
  cand : ∀ c U l, a.cand c U = some l → a'.cand c U = some l
  commits : a.commits ⊆ a'.commits

theorem Le.refl (a : State N E) : Le a a :=
  ⟨fun _ => le_rfl, fun _ _ h => h, fun _ _ => rfl, fun _ => List.prefix_refl _, fun _ _ => le_rfl,
    fun _ _ _ h => h, fun _ _ _ h => h, fun _ h => h⟩

theorem Le.leader_ne (h : Le a a') {T : ℕ} (hT : a.leader T ≠ none) : a'.leader T ≠ none := by
  obtain ⟨l, hl⟩ := Option.ne_none_iff_exists'.mp hT
  rw [h.leader T l hl]
  exact Option.some_ne_none l

/-- Histories grow along runs. -/
theorem Le.trans (h : Le a a') (h' : Le a' a'') : Le a a'' where
  term p := (h.term p).trans (h'.term p)
  leader T l hl := h'.leader T l (h.leader T l hl)
  base T hT := (h'.base T (h.leader_ne hT)).trans (h.base T hT)
  llog T := (h.llog T).trans (h'.llog T)
  ack p T := (h.ack p T).trans (h'.ack p T)
  ballot p U x hx := h'.ballot p U x (h.ballot p U x hx)
  cand c U l hl := h'.cand c U l (h.cand c U l hl)
  commits := h.commits.trans h'.commits

/-- What is read off the leaders' logs stays true, for these only grow. -/
theorem WF.of_le {tm : E → ℕ} {l : List E} (hl : WF tm a l) (h : Le a a') : WF tm a' l :=
  fun j e he => (hl j e he).trans (h.llog _)

/-- What a log has kept of term `T`, it has kept when the history has grown. -/
theorem Kept.of_le {T j U : ℕ} {l : List E} (hk : Kept a T j l U) (h : Le a a')
    (hj : j ≤ (a.llog T).length) : Kept a' T j l U := by
  unfold Kept
  rw [take_eq_of_isPrefix (h.llog T) hj]
  rcases hk with hk | ⟨V, hTV, hVU, hV, hbad⟩
  · exact Or.inl hk
  · exact Or.inr ⟨V, hTV, hVU, h.leader_ne hV, by rwa [h.base V hV]⟩

theorem Kept.weaken {T j U U' : ℕ} {l : List E} (hk : Kept a T j l U) (h : U ≤ U') :
    Kept a T j l U' := by
  rcases hk with hk | ⟨V, hTV, hVU, hV, hbad⟩
  · exact Or.inl hk
  · exact Or.inr ⟨V, hTV, by omega, hV, hbad⟩

/-- A choice is for good. -/
theorem Chosen.of_le {T n : ℕ} (hc : Chosen P a T n) (h : Le a a') : Chosen P a' T n := by
  obtain ⟨hn, ⟨e, he, het⟩, Q, hQ, hack⟩ := hc
  exact ⟨hn, ⟨e, getElem?_of_isPrefix (h.llog T) he, het⟩, Q, hQ,
    fun p hp => (hack p hp).trans (h.ack p T)⟩

theorem UpTo.refl (tm : E → ℕ) (l : List E) : UpTo tm l l := Or.inr ⟨rfl, le_rfl⟩

/-- The invariant holds before anything happened. -/
theorem Inv.init (P : Params N E) : Inv P (State.init : State N E) := by
  constructor <;> intros <;> simp_all [State.init, WF, Kept]

/-! ## What an action leaves alone. -/

/-- What node `i` cannot touch: the other nodes, and the terms they lead. -/
structure Frame (i : N) (a a' : State N E) : Prop where
  term : ∀ q, q ≠ i → a'.term q = a.term q
  vote : ∀ q, q ≠ i → a'.vote q = a.vote q
  log : ∀ q, q ≠ i → a'.log q = a.log q
  leader : ∀ T q, q ≠ i → a'.leader T = some q → a.leader T = some q
  llog : ∀ T q, q ≠ i → a.leader T = some q → a'.llog T = a.llog T
  commits : ∀ T q n, q ≠ i → a.leader T = some q → (T, n) ∈ a'.commits → (T, n) ∈ a.commits

theorem Frame.refl (i : N) (a : State N E) : Frame i a a :=
  ⟨fun _ _ => rfl, fun _ _ => rfl, fun _ _ => rfl, fun _ _ _ h => h, fun _ _ _ _ => rfl,
    fun _ _ _ _ _ h => h⟩

/-- Nor can a sequence of its actions. -/
theorem Frame.trans {i : N} (h : Frame i a a') (hle : Le a a') (h' : Frame i a' a'') :
    Frame i a a'' where
  term q hq := (h'.term q hq).trans (h.term q hq)
  vote q hq := (h'.vote q hq).trans (h.vote q hq)
  log q hq := (h'.log q hq).trans (h.log q hq)
  leader T q hq hT := h.leader T q hq (h'.leader T q hq hT)
  llog T q hq hT := (h'.llog T q hq (hle.leader T q hT)).trans (h.llog T q hq hT)
  commits T q n hq hT hn := h.commits T q n hq hT (h'.commits T q n hq (hle.leader T q hT) hn)

section Step

variable [DecidableEq N] {i : N}

/-- An action of node `i` touches nothing else. -/
theorem Step.frame (hs : Step P i a a') : Frame i a a' := by
  cases hs with
  | bump t ht =>
    exact { Frame.refl i a with
      term := fun q hq => Function.update_of_ne hq _ _
      vote := fun q hq => Function.update_of_ne hq _ _ }
  | stand =>
    exact { Frame.refl i a with
      term := fun q hq => Function.update_of_ne hq _ _
      vote := fun q hq => Function.update_of_ne hq _ _ }
  | grant c lc hv hc hup =>
    exact { Frame.refl i a with vote := fun q hq => Function.update_of_ne hq _ _ }
  | elect Q hQ hb hc hl =>
    refine { Frame.refl i a with leader := fun T q hq hT => ?_, llog := fun T q hq hT => ?_ }
    · by_cases hTU : T = a.term i
      · subst hTU
        simp only [State.elect, Function.update_self, Option.some.injEq] at hT
        exact absurd hT.symm hq
      · simpa [State.elect, Function.update_of_ne hTU] using hT
    · have hTU : T ≠ a.term i := by
        rintro rfl
        rw [hl] at hT
        cases hT
      simp [State.elect, Function.update_of_ne hTU]
  | extend es hl hes =>
    refine { Frame.refl i a with llog := fun T q hq hT => ?_ }
    have hTU : T ≠ a.term i := by
      rintro rfl
      rw [hl] at hT
      exact hq (Option.some.inj hT).symm
    simp [State.extend, Function.update_of_ne hTU]
  | accept j hj hd =>
    exact { Frame.refl i a with log := fun q hq => Function.update_of_ne hq _ _ }
  | adopt T n k hc hT hk hl =>
    exact { Frame.refl i a with log := fun q hq => Function.update_of_ne hq _ _ }
  | acknowledge j hj hh => exact { Frame.refl i a with }
  | commit n hl hn =>
    refine { Frame.refl i a with commits := fun T q m hq hT hm => ?_ }
    rcases hm with hm | hm
    · obtain ⟨rfl, rfl⟩ := Prod.mk.inj hm
      rw [hl] at hT
      exact absurd (Option.some.inj hT).symm hq
    · exact hm

/-- Every action only adds to the history. -/
theorem Inv.step_le (h : Inv P a) (hs : Step P i a a') : Le a a' := by
  cases hs with
  | bump t ht =>
    refine { Le.refl a with term := fun p => ?_ }
    by_cases hp : p = i
    · subst hp
      simpa [State.bump] using ht.le
    · simp [State.bump, Function.update_of_ne hp]
  | stand =>
    refine { Le.refl a with
      term := fun p => ?_, ballot := fun p U x hx => ?_, cand := fun c U l hl => ?_ }
    · by_cases hp : p = i
      · subst hp; simp [State.stand]
      · simp [State.stand, Function.update_of_ne hp]
    · by_cases hp : p = i
      · subst hp
        have hU := (h.ballot_term p U x.1 x.2 hx).1
        simpa [State.stand, Function.update_of_ne (show U ≠ a.term p + 1 by omega)] using hx
      · simpa [State.stand, Function.update_of_ne hp] using hx
    · by_cases hp : c = i
      · subst hp
        have hU := h.cand_term c U l hl
        simpa [State.stand, Function.update_of_ne (show U ≠ a.term c + 1 by omega)] using hl
      · simpa [State.stand, Function.update_of_ne hp] using hl
  | grant c lc hv hc hup =>
    refine { Le.refl a with ballot := fun p U x hx => ?_ }
    by_cases hp : p = i
    · subst hp
      have hU : U ≠ a.term p := by
        rintro rfl
        have := (h.ballot_term p _ x.1 x.2 hx).2 rfl
        rw [hv] at this
        cases this
      simpa [State.grant, Function.update_of_ne hU] using hx
    · simpa [State.grant, Function.update_of_ne hp] using hx
  | elect Q hQ hb hc hl =>
    have hne : ∀ T, a.leader T ≠ none → T ≠ a.term i := by
      rintro T hT rfl
      exact hT hl
    refine { Le.refl a with
      leader := fun T l hT => ?_, base := fun T hT => ?_, llog := fun T => ?_ }
    · simpa [State.elect, Function.update_of_ne (hne T (by simp [hT]))] using hT
    · simp [State.elect, Function.update_of_ne (hne T hT)]
    · by_cases hTU : T = a.term i
      · subst hTU
        rw [h.llog_none _ hl]
        exact List.nil_prefix
      · simp [State.elect, Function.update_of_ne hTU]
  | extend es hl hes =>
    refine { Le.refl a with llog := fun T => ?_ }
    by_cases hTU : T = a.term i
    · subst hTU
      simp [State.extend]
    · simp [State.extend, Function.update_of_ne hTU]
  | accept j hj hd => exact { Le.refl a with }
  | adopt T n k hc hT hk hl => exact { Le.refl a with }
  | acknowledge j hj hh =>
    refine { Le.refl a with ack := fun p T => ?_ }
    by_cases hp : p = i
    · subst hp
      by_cases hT : T = a.term p
      · subst hT
        simp [State.acknowledge]
      · simp [State.acknowledge, Function.update_of_ne hT]
    · simp [State.acknowledge, Function.update_of_ne hp]
  | commit n hl hn => exact { Le.refl a with commits := Set.subset_insert _ _ }

/-! ## Preservation, one action at a time. -/

/-- A higher term, without a vote. -/
theorem Inv.bump (h : Inv P a) {t : ℕ} (ht : a.term i < t) : Inv P (a.bump i t) := by
  have hle := h.step_le (Step.bump (P := P) a t ht)
  refine { h with
    log_le := fun p e he => (h.log_le p e he).trans (hle.term p)
    cand_term := fun c U l hl => (h.cand_term c U l hl).trans (hle.term c)
    leader_term := fun T l hl => (h.leader_term T l hl).trans (hle.term l)
    vote_ballot := fun p c hc => ?_
    ballot_term := fun p U c s hs => ?_
    ack_term := fun p T hT => (h.ack_term p T hT).trans (hle.term p)
    ack_kept := fun p T j hj =>
      (h.ack_kept p T j hj).weaken (Nat.add_le_add_right (hle.term p) 1) }
  · by_cases hp : p = i
    · subst hp
      simp [State.bump] at hc
    · simpa [State.bump, Function.update_of_ne hp] using
        h.vote_ballot p c (by simpa [State.bump, Function.update_of_ne hp] using hc)
  · obtain ⟨hU, hv⟩ := h.ballot_term p U c s hs
    by_cases hp : p = i
    · subst hp
      refine ⟨hU.trans (hle.term p), fun hUt => ?_⟩
      simp only [State.bump, Function.update_self] at hUt
      omega
    · simpa [State.bump, Function.update_of_ne hp] using ⟨hU, hv⟩

/-- A candidate votes for itself in the next term. -/
theorem Inv.stand (h : Inv P a) : Inv P (a.stand i) := by
  have hle := h.step_le (Step.stand (P := P) (i := i) a)
  have hballot : ∀ p U c s, (a.stand i).ballot p U = some (c, s) →
      (p = i ∧ U = a.term i + 1 ∧ c = i ∧ s = a.log i) ∨ a.ballot p U = some (c, s) := by
    intro p U c s hs
    by_cases hp : p = i
    · subst hp
      by_cases hU : U = a.term p + 1
      · subst hU
        simp only [State.stand, Function.update_self, Option.some.injEq, Prod.mk.injEq] at hs
        exact Or.inl ⟨rfl, rfl, hs.1.symm, hs.2.symm⟩
      · exact Or.inr (by simpa [State.stand, Function.update_of_ne hU] using hs)
    · exact Or.inr (by simpa [State.stand, Function.update_of_ne hp] using hs)
  have hcand : ∀ c U l, (a.stand i).cand c U = some l →
      (c = i ∧ U = a.term i + 1 ∧ l = a.log i) ∨ a.cand c U = some l := by
    intro c U l hl
    by_cases hc : c = i
    · subst hc
      by_cases hU : U = a.term c + 1
      · subst hU
        simp only [State.stand, Function.update_self, Option.some.injEq] at hl
        exact Or.inl ⟨rfl, rfl, hl.symm⟩
      · exact Or.inr (by simpa [State.stand, Function.update_of_ne hU] using hl)
    · exact Or.inr (by simpa [State.stand, Function.update_of_ne hc] using hl)
  have hterm : (a.stand i).term i = a.term i + 1 := by simp [State.stand]
  refine { h with
    cand_wf := fun c U l hl => ?_
    ballot_wf := fun p U c s hs => ?_
    log_le := fun p e he => (h.log_le p e he).trans (hle.term p)
    cand_lt := fun c U l hl => ?_
    cand_term := fun c U l hl => ?_
    leader_term := fun T l hl => (h.leader_term T l hl).trans (hle.term l)
    vote_ballot := fun p c hc => ?_
    ballot_term := fun p U c s hs => ?_
    ballot_cand := fun p U c s hs => ?_
    ballot_kept := fun p U c s hU hs => ?_
    elected := fun U c hc => ?_
    ack_term := fun p T hT => (h.ack_term p T hT).trans (hle.term p)
    ack_kept := fun p T j hj =>
      (h.ack_kept p T j hj).weaken (Nat.add_le_add_right (hle.term p) 1) }
  · rcases hcand c U l hl with ⟨-, -, rfl⟩ | hl
    · exact h.log_wf i
    · exact h.cand_wf c U l hl
  · rcases hballot p U c s hs with ⟨-, -, -, rfl⟩ | hs
    · exact h.log_wf i
    · exact h.ballot_wf p U c s hs
  · rcases hcand c U l hl with ⟨-, rfl, rfl⟩ | hl
    · exact fun e he => Nat.lt_succ_of_le (h.log_le i e he)
    · exact h.cand_lt c U l hl
  · rcases hcand c U l hl with ⟨rfl, rfl, -⟩ | hl
    · exact hterm.ge
    · exact (h.cand_term c U l hl).trans (hle.term c)
  · by_cases hp : p = i
    · subst hp
      simp only [State.stand, Function.update_self, Option.some.injEq] at hc
      subst hc
      exact ⟨a.log p, by simp [State.stand]⟩
    · obtain ⟨s, hs⟩ := h.vote_ballot p c (by simpa [State.stand, Function.update_of_ne hp] using hc)
      exact ⟨s, by simpa [State.stand, Function.update_of_ne hp] using hs⟩
  · rcases hballot p U c s hs with ⟨rfl, rfl, rfl, -⟩ | hs'
    · exact ⟨hterm.ge, fun _ => by simp [State.stand]⟩
    · obtain ⟨hU, hv⟩ := h.ballot_term p U c s hs'
      refine ⟨hU.trans (hle.term p), fun hUt => ?_⟩
      by_cases hp : p = i
      · subst hp
        rw [hterm] at hUt
        omega
      · simp only [State.stand, Function.update_of_ne hp] at hUt ⊢
        exact hv hUt
  · rcases hballot p U c s hs with ⟨rfl, rfl, rfl, rfl⟩ | hs
    · exact ⟨a.log c, by simp [State.stand], UpTo.refl _ _⟩
    · obtain ⟨l, hl, hup⟩ := h.ballot_cand p U c s hs
      exact ⟨l, hle.cand c U l hl, hup⟩
  · rcases hballot p U c s hs with ⟨rfl, rfl, -, rfl⟩ | hs
    · exact fun T _ j hj => h.ack_kept p T j hj
    · exact h.ballot_kept p U c s hU hs
  · obtain ⟨hb, Q, hQ, hv⟩ := h.elected U c hc
    refine ⟨hle.cand c U _ hb, Q, hQ, fun p hp => ?_⟩
    obtain ⟨s, hs, hk⟩ := hv p hp
    exact ⟨s, hle.ballot p U _ hs, hk⟩

/-- A vote goes to a candidate whose log is up to date. -/
theorem Inv.grant (h : Inv P a) {c : N} {lc : List E} (hv : a.vote i = none)
    (hc : a.cand c (a.term i) = some lc) (hup : UpTo P.tm (a.log i) lc) : Inv P (a.grant i c) := by
  have hle := h.step_le (Step.grant a c lc hv hc hup)
  have hballot : ∀ p U d s, (a.grant i c).ballot p U = some (d, s) →
      (p = i ∧ U = a.term i ∧ d = c ∧ s = a.log i) ∨ a.ballot p U = some (d, s) := by
    intro p U d s hs
    by_cases hp : p = i
    · subst hp
      by_cases hU : U = a.term p
      · subst hU
        simp only [State.grant, Function.update_self, Option.some.injEq, Prod.mk.injEq] at hs
        exact Or.inl ⟨rfl, rfl, hs.1.symm, hs.2.symm⟩
      · exact Or.inr (by simpa [State.grant, Function.update_of_ne hU] using hs)
    · exact Or.inr (by simpa [State.grant, Function.update_of_ne hp] using hs)
  refine { h with
    ballot_wf := fun p U d s hs => ?_
    vote_ballot := fun p d hd => ?_
    ballot_term := fun p U d s hs => ?_
    ballot_cand := fun p U d s hs => ?_
    ballot_kept := fun p U d s hU hs => ?_
    elected := fun U d hd => ?_ }
  · rcases hballot p U d s hs with ⟨-, -, -, rfl⟩ | hs
    · exact h.log_wf i
    · exact h.ballot_wf p U d s hs
  · by_cases hp : p = i
    · subst hp
      simp only [State.grant, Function.update_self, Option.some.injEq] at hd
      subst hd
      exact ⟨a.log p, by simp [State.grant]⟩
    · obtain ⟨s, hs⟩ := h.vote_ballot p d (by simpa [State.grant, Function.update_of_ne hp] using hd)
      exact ⟨s, by simpa [State.grant, Function.update_of_ne hp] using hs⟩
  · rcases hballot p U d s hs with ⟨rfl, rfl, rfl, -⟩ | hs
    · exact ⟨le_rfl, fun _ => by simp [State.grant]⟩
    · obtain ⟨hU, hvote⟩ := h.ballot_term p U d s hs
      refine ⟨hU, fun hUt => ?_⟩
      by_cases hp : p = i
      · subst hp
        rw [hv] at hvote
        cases hvote hUt
      · simpa [State.grant, Function.update_of_ne hp] using hvote hUt
  · rcases hballot p U d s hs with ⟨rfl, rfl, rfl, rfl⟩ | hs
    · exact ⟨lc, hc, hup⟩
    · exact h.ballot_cand p U d s hs
  · rcases hballot p U d s hs with ⟨rfl, rfl, -, rfl⟩ | hs
    · -- no leader of this term yet, so whoever overwrote an acknowledged prefix led an earlier one
      intro T hT j hj
      rcases h.ack_kept p T j hj with hk | ⟨V, hTV, hVU, hV, hbad⟩
      · exact Or.inl hk
      · refine Or.inr ⟨V, hTV, ?_, hV, hbad⟩
        have : V ≠ a.term p := by
          rintro rfl
          exact hV hU
        omega
    · exact h.ballot_kept p U d s hU hs
  · obtain ⟨hb, Q, hQ, hvotes⟩ := h.elected U d hd
    refine ⟨hb, Q, hQ, fun p hp => ?_⟩
    obtain ⟨s, hs, hk⟩ := hvotes p hp
    exact ⟨s, hle.ballot p U _ hs, hk⟩

/-- A quorum of votes makes a leader, whose log becomes the log of the term. -/
theorem Inv.elect (h : Inv P a) {Q : Finset N} (hQ : P.IsQuorum Q)
    (hb : ∀ p ∈ Q, ∃ s, a.ballot p (a.term i) = some (i, s))
    (hc : a.cand i (a.term i) = some (a.log i)) (hl : a.leader (a.term i) = none) :
    Inv P (a.elect i) := by
  have hle := h.step_le (Step.elect a Q hQ hb hc hl)
  have hlen : ∀ {p T j}, j ≤ a.ack p T → j ≤ (a.llog T).length := fun hj =>
    hj.trans (h.ack_len _ _)
  -- the three updated fields, off and on the new leader's term
  have hllog : ∀ T, T ≠ a.term i → (a.elect i).llog T = a.llog T := fun T hT => by
    simp [State.elect, Function.update_of_ne hT]
  have hllogi : (a.elect i).llog (a.term i) = a.log i := by simp [State.elect]
  have hbase : ∀ T, T ≠ a.term i → (a.elect i).base T = a.base T := fun T hT => by
    simp [State.elect, Function.update_of_ne hT]
  have hbasei : (a.elect i).base (a.term i) = a.log i := by simp [State.elect]
  have hlead : ∀ T, T ≠ a.term i → (a.elect i).leader T = a.leader T := fun T hT => by
    simp [State.elect, Function.update_of_ne hT]
  have hleadi : (a.elect i).leader (a.term i) = some i := by simp [State.elect]
  refine { h with
    log_wf := fun p => (h.log_wf p).of_le hle
    llog_wf := fun T => ?_
    cand_wf := fun c U l hl => (h.cand_wf c U l hl).of_le hle
    ballot_wf := fun p U c s hs => (h.ballot_wf p U c s hs).of_le hle
    llog_le := fun T => ?_
    base_llog := fun T => ?_
    llog_none := fun T hT => ?_
    leader_term := fun T l hT => ?_
    ballot_kept := fun p U c s hU hs => ?_
    elected := fun U c hU => ?_
    ack_len := fun p T => (h.ack_len p T).trans (hle.llog T).length_le
    ack_kept := fun p T j hj => (h.ack_kept p T j hj).of_le hle (hlen hj)
    commit_chosen := fun T n hT => (h.commit_chosen T n hT).of_le hle }
  · by_cases hT : T = a.term i
    · subst hT
      rw [hllogi]
      exact (h.log_wf i).of_le hle
    · rw [hllog T hT]
      exact (h.llog_wf T).of_le hle
  · by_cases hT : T = a.term i
    · subst hT
      rw [hllogi]
      exact h.log_le i
    · rw [hllog T hT]
      exact h.llog_le T
  · by_cases hT : T = a.term i
    · subst hT
      rw [hllogi, hbasei]
    · rw [hllog T hT, hbase T hT]
      exact h.base_llog T
  · have hTi : T ≠ a.term i := by
      rintro rfl
      rw [hleadi] at hT
      cases hT
    rw [hllog T hTi]
    exact h.llog_none T (by rwa [hlead T hTi] at hT)
  · by_cases hTi : T = a.term i
    · subst hTi
      rw [hleadi] at hT
      obtain rfl := Option.some.inj hT
      exact le_rfl
    · exact h.leader_term T l (by rwa [hlead T hTi] at hT)
  · have hUi : U ≠ a.term i := by
      rintro rfl
      rw [hleadi] at hU
      cases hU
    rw [hlead U hUi] at hU
    exact fun T hT j hj => (h.ballot_kept p U c s hU hs T hT j hj).of_le hle (hlen hj)
  · by_cases hUi : U = a.term i
    · subst hUi
      rw [hleadi] at hU
      obtain rfl := Option.some.inj hU
      refine ⟨by rw [hbasei]; exact hc, Q, hQ, fun p hp => ?_⟩
      obtain ⟨s, hs⟩ := hb p hp
      exact ⟨s, hs, fun T hT j hj => (h.ballot_kept p _ i s hl hs T hT j hj).of_le hle (hlen hj)⟩
    · rw [hlead U hUi] at hU
      obtain ⟨hcand, Q', hQ', hv⟩ := h.elected U c hU
      refine ⟨by rw [hbase U hUi]; exact hcand, Q', hQ', fun p hp => ?_⟩
      obtain ⟨s, hs, hk⟩ := hv p hp
      exact ⟨s, hs, fun T hT j hj => (hk T hT j hj).of_le hle (hlen hj)⟩

/-- A leader extends the log of its term and its own. -/
theorem Inv.extend (h : Inv P a) {es : List E} (hl : a.leader (a.term i) = some i)
    (hes : ∀ e ∈ es, P.tm e = a.term i) : Inv P (a.extend i es) := by
  have hle := h.step_le (Step.extend a es hl hes)
  have hlen : ∀ {p T j}, j ≤ a.ack p T → j ≤ (a.llog T).length := fun hj =>
    hj.trans (h.ack_len _ _)
  have hllog : ∀ T, T ≠ a.term i → (a.extend i es).llog T = a.llog T := fun T hT => by
    simp [State.extend, Function.update_of_ne hT]
  have hllogi : (a.extend i es).llog (a.term i) = a.llog (a.term i) ++ es := by
    simp [State.extend]
  refine { h with
    log_wf := fun p => (h.log_wf p).of_le hle
    llog_wf := fun T => ?_
    cand_wf := fun c U l hl => (h.cand_wf c U l hl).of_le hle
    ballot_wf := fun p U c s hs => (h.ballot_wf p U c s hs).of_le hle
    llog_le := fun T => ?_
    base_llog := fun T => (h.base_llog T).trans (hle.llog T)
    llog_none := fun T hT => ?_
    ballot_kept := fun p U c s hU hs T hT j hj =>
      (h.ballot_kept p U c s hU hs T hT j hj).of_le hle (hlen hj)
    elected := fun U c hU => ?_
    ack_len := fun p T => (h.ack_len p T).trans (hle.llog T).length_le
    ack_kept := fun p T j hj => (h.ack_kept p T j hj).of_le hle (hlen hj)
    commit_chosen := fun T n hT => (h.commit_chosen T n hT).of_le hle }
  · by_cases hT : T = a.term i
    · subst hT
      rw [hllogi]
      intro j e he
      by_cases hj : j < (a.llog (a.term i)).length
      · rw [List.take_append_of_le_length (by omega)]
        rw [List.getElem?_append_left hj] at he
        exact (h.llog_wf _ j e he).trans (hle.llog _)
      · rw [List.getElem?_append_right (by omega)] at he
        rw [hes e (List.mem_of_getElem? he), hllogi]
        exact List.take_prefix _ _
    · rw [hllog T hT]
      exact (h.llog_wf T).of_le hle
  · by_cases hT : T = a.term i
    · subst hT
      rw [hllogi]
      intro e he
      rcases List.mem_append.mp he with he | he
      · exact h.llog_le _ e he
      · exact (hes e he).le
    · rw [hllog T hT]
      exact h.llog_le T
  · have hTi : T ≠ a.term i := by
      rintro rfl
      have hT' : a.leader (a.term i) = none := hT
      rw [hl] at hT'
      cases hT'
    rw [hllog T hTi]
    exact h.llog_none T hT
  · obtain ⟨hcand, Q, hQ, hv⟩ := h.elected U c hU
    refine ⟨hcand, Q, hQ, fun p hp => ?_⟩
    obtain ⟨s, hs, hk⟩ := hv p hp
    exact ⟨s, hs, fun T hT j hj => (hk T hT j hj).of_le hle (hlen hj)⟩

/-- Replacing a log by a well-formed one that still keeps what the node acknowledged. -/
theorem Inv.setLog (h : Inv P a) {l : List E} (hwf : WF P.tm a l) (hle : ∀ e ∈ l, P.tm e ≤ a.term i)
    (hk : ∀ T, ∀ j ≤ a.ack i T, Kept a T j l (a.term i + 1)) : Inv P (a.setLog i l) := by
  refine { h with log_wf := fun p => ?_, log_le := fun p => ?_, ack_kept := fun p => ?_ }
  all_goals
    by_cases hp : p = i
    · subst hp
      simp only [State.setLog, Function.update_self]
      assumption
    · simp only [State.setLog, Function.update_of_ne hp]
      first
        | exact h.log_wf p
        | exact h.log_le p
        | exact h.ack_kept p

/-- A follower takes over the leader's log up to an entry that its own log does not have. -/
theorem Inv.accept (h : Inv P a) {j : ℕ} (hj : j < (a.llog (a.term i)).length)
    (hd : ∀ e e', (a.log i)[j]? = some e → (a.llog (a.term i))[j]? = some e' → P.tm e ≠ P.tm e') :
    Inv P (a.setLog i ((a.llog (a.term i)).take (j + 1))) := by
  refine h.setLog ((h.llog_wf _).take _) ?_ ?_
  · exact fun e he => h.llog_le _ e (List.mem_of_mem_take he)
  · intro T k hk
    rcases Nat.eq_zero_or_pos k with rfl | hkpos
    · exact Or.inl (by simp)
    have hT : T ≤ a.term i := h.ack_term i T (by omega)
    have hlen : k ≤ (a.llog T).length := hk.trans (h.ack_len i T)
    -- the leader being copied from has the acknowledged prefix, or it is the one to blame
    have hcase : (a.llog T).take k <+: a.llog (a.term i) ∨ Kept a T k ((a.llog (a.term i)).take (j + 1))
        (a.term i + 1) := by
      rcases Nat.lt_or_eq_of_le hT with hlt | rfl
      · by_cases hb : (a.llog T).take k <+: a.base (a.term i)
        · exact Or.inl (hb.trans (h.base_llog _))
        · refine Or.inr (Or.inr ⟨a.term i, hlt, by omega, ?_, hb⟩)
          intro hnone
          rw [h.llog_none _ hnone] at hj
          simp at hj
      · exact Or.inl (List.take_prefix _ _)
    rcases hcase with hpre | hkept
    swap
    · exact hkept
    rcases h.ack_kept i T k hk with hold | ⟨V, hTV, hVU, hV, hbad⟩
    · -- a conflict at `j` cannot lie inside a prefix both logs hold
      have hkj : k ≤ j + 1 := by
        by_contra hlt
        have hg := List.getElem?_eq_getElem (l := a.llog T) (i := j) (by omega)
        exact hd _ _ (getElem?_of_take_isPrefix hold (by omega) hg)
          (getElem?_of_take_isPrefix hpre (by omega) hg) rfl
      refine Or.inl (List.prefix_take_iff.mpr ⟨hpre, ?_⟩)
      rw [List.length_take]
      omega
    · exact Or.inr ⟨V, hTV, hVU, hV, hbad⟩

/-- A committed prefix replaces a log that is not longer. -/
theorem Inv.adopt (h : Inv P a) {T n k : ℕ} (hc : (T, n) ∈ a.commits) (hT : T ≤ a.term i)
    (hk : k ≤ n) (hl : (a.log i).length ≤ k) : Inv P (a.setLog i ((a.llog T).take k)) := by
  have hn := h.commit_len hc
  refine h.setLog ((h.llog_wf _).take _) ?_ ?_
  · exact fun e he => (h.llog_le T e (List.mem_of_mem_take he)).trans hT
  · intro T' j hj
    have hlen' : j ≤ (a.llog T').length := hj.trans (h.ack_len i T')
    rcases h.ack_kept i T' j hj with hold | hbad
    swap
    · exact Or.inr hbad
    have hjk : j ≤ k := by
      have := hold.length_le
      rw [List.length_take] at this
      omega
    have hfit : (a.llog T').take j <+: a.llog T → Kept a T' j ((a.llog T).take k) (a.term i + 1) := by
      intro hpre
      refine Or.inl (List.prefix_take_iff.mpr ⟨hpre, ?_⟩)
      rw [List.length_take]
      omega
    obtain ⟨d, hd⟩ := Option.ne_none_iff_exists'.mp (h.chosen_leader (h.commit_chosen T n hc))
    rcases lt_trichotomy T' T with hlt | rfl | hgt
    · by_cases hb : (a.llog T').take j <+: a.base T
      · exact hfit (hb.trans (h.base_llog T))
      · exact Or.inr ⟨T, hlt, by omega, by simp [hd], hb⟩
    · exact hfit (List.take_prefix _ _)
    · -- the committed prefix is in the later leader's log the node acknowledged
      rcases Nat.eq_zero_or_pos j with rfl | hjpos
      · exact Or.inl (by simp)
      have hlead : a.leader T' ≠ none := by
        intro hnone
        rw [h.llog_none T' hnone] at hlen'
        simp at hlen'
        omega
      obtain ⟨d', hd'⟩ := Option.ne_none_iff_exists'.mp hlead
      have hpre := h.chosen_llog (h.commit_chosen T n hc) hd' hgt.le
      refine hfit ?_
      have heq : (a.llog T').take j = (a.llog T).take j := by
        rw [take_eq_of_isPrefix hpre (by rw [List.length_take]; omega), List.take_take,
          Nat.min_eq_left (by omega)]
      rw [heq]
      exact List.take_prefix _ _

/-- A node acknowledges what it holds of its leader's log. -/
theorem Inv.acknowledge (h : Inv P a) {j : ℕ} (hj : j ≤ (a.llog (a.term i)).length)
    (hh : (a.llog (a.term i)).take j <+: a.log i) : Inv P (a.acknowledge i j) := by
  have hle := h.step_le (Step.acknowledge a j hj hh)
  -- an acknowledgement above the old mark is one of this node in its current term
  have hnew : ∀ p T k, k ≤ (a.acknowledge i j).ack p T →
      k ≤ a.ack p T ∨ (p = i ∧ T = a.term i ∧ k ≤ j) := by
    intro p T k hk
    by_cases hp : p = i
    · subst hp
      by_cases hT : T = a.term p
      · subst hT
        simp only [State.acknowledge, Function.update_self] at hk
        rcases le_max_iff.mp hk with hk | hk
        · exact Or.inr ⟨rfl, rfl, hk⟩
        · exact Or.inl hk
      · exact Or.inl (by simpa [State.acknowledge, Function.update_of_ne hT] using hk)
    · exact Or.inl (by simpa [State.acknowledge, Function.update_of_ne hp] using hk)
  have hpast : ∀ p U c s, a.ballot p U = some (c, s) → ∀ T < U, ∀ k,
      k ≤ (a.acknowledge i j).ack p T → k ≤ a.ack p T := by
    intro p U c s hs T hT k hk
    rcases hnew p T k hk with hk | ⟨rfl, rfl, -⟩
    · exact hk
    · have := (h.ballot_term p U c s hs).1
      omega
  refine { h with
    ballot_kept := fun p U c s hU hs T hT k hk =>
      h.ballot_kept p U c s hU hs T hT k (hpast p U c s hs T hT k hk)
    elected := fun U c hU => ?_
    ack_len := fun p T => ?_
    ack_term := fun p T hT => ?_
    ack_kept := fun p T k hk => ?_
    commit_chosen := fun T n hT => (h.commit_chosen T n hT).of_le hle }
  · obtain ⟨hcand, Q, hQ, hv⟩ := h.elected U c hU
    refine ⟨hcand, Q, hQ, fun p hp => ?_⟩
    obtain ⟨s, hs, hk⟩ := hv p hp
    exact ⟨s, hs, fun T hT k hk' => hk T hT k (hpast p U c s hs T hT k hk')⟩
  · rcases hnew p T _ le_rfl with hk | ⟨-, rfl, hk⟩
    · exact hk.trans (h.ack_len p T)
    · exact hk.trans hj
  · rcases hnew p T _ le_rfl with hk | ⟨rfl, rfl, -⟩
    · exact h.ack_term p T (by omega)
    · exact le_rfl
  · rcases hnew p T k hk with hk | ⟨rfl, rfl, hk⟩
    · exact h.ack_kept p T k hk
    · left
      refine List.IsPrefix.trans ?_ hh
      exact List.prefix_take_iff.mpr ⟨List.take_prefix _ _, by rw [List.length_take]; omega⟩

/-- Every action preserves the invariant. -/
theorem Inv.step (h : Inv P a) (hs : Step P i a a') : Inv P a' := by
  cases hs with
  | bump t ht => exact h.bump ht
  | stand => exact h.stand
  | grant c lc hv hc hup => exact h.grant hv hc hup
  | elect Q hQ hb hc hl => exact h.elect hQ hb hc hl
  | extend es hl hes => exact h.extend hl hes
  | accept j hj hd => exact h.accept hj hd
  | adopt T n k hc hT hk hl => exact h.adopt hc hT hk hl
  | acknowledge j hj hh => exact h.acknowledge hj hh
  | commit n hl hn =>
    refine { h with commit_chosen := fun T m hm => ?_ }
    rcases hm with hm | hm
    · obtain ⟨rfl, rfl⟩ := Prod.mk.inj hm
      exact hn
    · exact h.commit_chosen T m hm

/-! ## Sequences of actions of one node. -/

/-- What a program step of node `i` may do: any number of its actions. -/
def Evolves (P : Params N E) (i : N) : State N E → State N E → Prop :=
  Relation.ReflTransGen (Step P i)

theorem Evolves.refl (P : Params N E) (i : N) (a : State N E) : Evolves P i a a :=
  Relation.ReflTransGen.refl

theorem Evolves.trans (h : Evolves P i a a') (h' : Evolves P i a' a'') : Evolves P i a a'' :=
  Relation.ReflTransGen.trans h h'

theorem Step.evolves (h : Step P i a a') : Evolves P i a a' :=
  Relation.ReflTransGen.single h

/-- The invariant holds along any number of actions. -/
theorem Evolves.inv (h : Evolves P i a a') (hi : Inv P a) : Inv P a' := by
  induction h with
  | refl => exact hi
  | tail _ hs ih => exact ih.step hs

theorem Evolves.le (h : Evolves P i a a') (hi : Inv P a) : Le a a' := by
  induction h with
  | refl => exact Le.refl a
  | tail hrun hs ih => exact ih.trans ((Evolves.inv hrun hi).step_le hs)

theorem Evolves.frame (h : Evolves P i a a') (hi : Inv P a) : Frame i a a' := by
  induction h with
  | refl => exact Frame.refl i a
  | tail hrun hs ih => exact ih.trans (Evolves.le hrun hi) hs.frame

end Step

end Keystone.Lib.TermLog
