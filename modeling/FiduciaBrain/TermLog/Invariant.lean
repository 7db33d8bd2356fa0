import FiduciaBrain.TermLog.Basic

/-!
# What every step of the protocol keeps

The last three clauses of `Inv` carry the safety argument. They speak about prefixes that are
*choosable*, not chosen: a prefix stops being choosable the moment a quorum can no longer confirm
it and never becomes so again, so each clause only has to be restored for what was already
choosable before the step.

* `safe_llog`: a later leader's log holds every prefix that could still be chosen
* `safe_ack`: a member that confirmed such a prefix has not lost it
* `safe_vote`: nor has the log of a candidate that member voted for
-/

namespace TermLog

universe u v

variable {N : Type u} {E : Type v} [Termed E] {Q : Quorums N}

/-! ## Prefixes -/

theorem Coherent.restrict {a : State N E} {l r : List E} (h : Coherent a l) (hr : r <+: l) :
    Coherent a r := fun p t hp he => h p t (hp.trans hr) he

/-- Coherence only asks for more of the leader logs than they had. -/
theorem Coherent.mono {a b : State N E} {l : List E} (h : Coherent a l)
    (hl : ∀ t, a.llog t <+: b.llog t) : Coherent b l :=
  fun p t hp he => (h p t hp he).trans (hl t)

/-- A coherent log is part of the leader log of its last entry's term. -/
theorem Coherent.prefix_llog {a : State N E} {l : List E} (h : Coherent a l) (hne : l ≠ []) :
    l <+: a.llog (lastTerm l) := h l _ List.prefix_rfl (endsIn_lastTerm hne)

theorem Coherent.append_singleton {a : State N E} {l : List E} {e : E} (h : Coherent a l)
    (he : l ++ [e] <+: a.llog (termOf e)) : Coherent a (l ++ [e]) := by
  intro p t hp ht
  rcases List.prefix_concat_iff.mp (by simpa using hp) with rfl | hp'
  · have : termOf e = t := by simpa using ht.lastTerm_eq
    rwa [← this]
  · exact h p t hp' ht

/-- **Log matching.** Two coherent logs with entries of one term at one place agree up to it. -/
theorem Coherent.eq_of_length {a : State N E} {l r p q : List E} {t : Nat} (hl : Coherent a l)
    (hr : Coherent a r) (hp : p <+: l) (hq : q <+: r) (hpt : EndsIn t p) (hqt : EndsIn t q)
    (hlen : p.length = q.length) : p = q :=
  (List.prefix_of_prefix_length_le (hl p t hp hpt) (hr q t hq hqt) hlen.le).eq_of_length hlen

/-- Log matching, by the term at the end of a prefix. -/
theorem Coherent.take_eq {a : State N E} {l r : List E} (hl : Coherent a l) (hr : Coherent a r)
    {i : Nat} (hil : i ≤ l.length) (hir : i ≤ r.length)
    (ht : lastTerm (l.take i) = lastTerm (r.take i)) : l.take i = r.take i := by
  by_cases hi : i = 0
  · simp [hi]
  have hlen : (l.take i).length = i := by rw [List.length_take]; omega
  have hlen' : (r.take i).length = i := by rw [List.length_take]; omega
  have hlne : l.take i ≠ [] := List.ne_nil_of_length_pos (by omega)
  have hrne : r.take i ≠ [] := List.ne_nil_of_length_pos (by omega)
  exact hl.eq_of_length hr (List.take_prefix i l) (List.take_prefix i r) (endsIn_lastTerm hlne)
    (ht ▸ endsIn_lastTerm hrne) (hlen.trans hlen'.symm)

/-- A choosable prefix was choosable before, unless its confirmation is new. -/
theorem Choosable.of_grows {a b : State N E} {t : Nat} {p : List E}
    (hterm : ∀ n, a.term n ≤ b.term n)
    (hack : ∀ n, b.acked n t = a.acked n t ∨ a.term n ≤ t) (h : Choosable Q b t p) :
    Choosable Q a t p := by
  obtain ⟨he, A, hA, hall⟩ := h
  refine ⟨he, A, hA, fun n hn => ?_⟩
  rcases hack n with heq | hle
  · exact (hall n hn).imp (fun hm => heq ▸ hm) (fun hm => (hterm n).trans hm)
  · exact Or.inr hle

theorem Chosen.choosable {a : State N E} {t : Nat} {p : List E} (h : Chosen Q a t p) :
    Choosable Q a t p := by
  obtain ⟨_, he, A, hA, hall⟩ := h
  exact ⟨he, A, hA, fun n hn => Or.inl (hall n hn)⟩

/-- Nothing a leader may say undoes a choice. -/
theorem Chosen.mono {a b : State N E} {t : Nat} {p : List E} (h : Chosen Q a t p)
    (hl : ∀ s, a.llog s <+: b.llog s) (hack : ∀ n s, a.acked n s ≤ b.acked n s) :
    Chosen Q b t p := by
  obtain ⟨hp, he, A, hA, hall⟩ := h
  exact ⟨hp.trans (hl t), he, A, hA, fun n hn => (hall n hn).trans (hack n t)⟩

theorem Committed.mono {a b : State N E} {t t' : Nat} {p : List E} (h : Committed Q a t p)
    (ht : t ≤ t') (hl : ∀ s, a.llog s <+: b.llog s) (hack : ∀ n s, a.acked n s ≤ b.acked n s) :
    Committed Q b t' p := by
  rcases h with rfl | ⟨s, q, hs, hq, hpq⟩
  · exact Or.inl rfl
  · exact Or.inr ⟨s, q, hs.trans ht, hq.mono hl hack, hpq⟩

theorem Committed.restrict {a : State N E} {t : Nat} {p r : List E} (h : Committed Q a t p)
    (hr : r <+: p) : Committed Q a t r := by
  rcases h with rfl | ⟨s, q, hs, hq, hpq⟩
  · exact Or.inl (List.prefix_nil.mp hr)
  · exact Or.inr ⟨s, q, hs, hq, hr.trans hpq⟩

/-! ## The invariant -/

/-- What holds of every reachable state. -/
structure Inv (Q : Quorums N) (a : State N E) : Prop where
  log_coh : ∀ n, Coherent a (a.log n)
  llog_coh : ∀ t, Coherent a (a.llog t)
  cand_coh : ∀ n t l, a.cand n t = some l → Coherent a l
  log_le : ∀ n, ∀ e ∈ a.log n, termOf e ≤ a.term n
  llog_le : ∀ t, ∀ e ∈ a.llog t, termOf e ≤ t
  cand_lt : ∀ n t l, a.cand n t = some l → ∀ e ∈ l, termOf e < t
  sorted : ∀ t, (a.llog t).Pairwise (fun e f => termOf e ≤ termOf f)
  vote_le : ∀ n t c, a.vote n t = some c → t ≤ a.term n
  vote_cand : ∀ n t c, a.vote n t = some c → ∃ l, a.cand c t = some l
  cand_vote : ∀ n t l, a.cand n t = some l → a.vote n t = some n
  leader_vote : ∀ t c, a.leader t = some c → ∃ A, Q.IsQuorum A ∧ ∀ n ∈ A, a.vote n t = some c
  leader_none : ∀ t, a.leader t = none → a.llog t = []
  /-- A leader log is the log its leader ran with and entries of its own term. -/
  leader_cand : ∀ t c, a.leader t = some c →
    ∃ l r, a.cand c t = some l ∧ a.llog t = l ++ r ∧ ∀ e ∈ r, termOf e = t
  leader_log : ∀ n, a.leader (a.term n) = some n → a.log n = a.llog (a.term n)
  leader_acked : ∀ t c, a.leader t = some c → a.acked c t = (a.llog t).length
  acked_le : ∀ n t, a.acked n t ≤ (a.llog t).length
  acked_term : ∀ n t, 0 < a.acked n t → t ≤ a.term n
  acked_log : ∀ n, (a.llog (a.term n)).take (a.acked n (a.term n)) <+: a.log n
  commit_le : ∀ n, a.commit n ≤ (a.log n).length
  committed : ∀ n, Committed Q a (a.term n) ((a.log n).take (a.commit n))
  safe_llog : ∀ t p t', Choosable Q a t p → p <+: a.llog t → t < t' → a.leader t' ≠ none →
    p <+: a.llog t'
  safe_ack : ∀ n t p, Choosable Q a t p → p <+: a.llog t → p.length ≤ a.acked n t →
    p <+: a.log n
  safe_vote : ∀ n t p t' c l, Choosable Q a t p → p <+: a.llog t → p.length ≤ a.acked n t →
    t < t' → a.vote n t' = some c → a.cand c t' = some l → p <+: l

theorem inv_start : Inv Q (State.start : State N E) where
  log_coh := fun _ _ _ hp ht => absurd (List.prefix_nil.mp hp) ht.ne_nil
  llog_coh := fun _ _ _ hp ht => absurd (List.prefix_nil.mp hp) ht.ne_nil
  cand_coh := fun _ _ _ h => nomatch h
  log_le := fun _ _ h => nomatch h
  llog_le := fun _ _ h => nomatch h
  cand_lt := fun _ _ _ h => nomatch h
  sorted := fun _ => List.Pairwise.nil
  vote_le := fun _ _ _ h => nomatch h
  vote_cand := fun _ _ _ h => nomatch h
  cand_vote := fun _ _ _ h => nomatch h
  leader_vote := fun _ _ h => nomatch h
  leader_none := fun _ _ => rfl
  leader_cand := fun _ _ h => nomatch h
  leader_log := fun _ h => nomatch h
  leader_acked := fun _ _ h => nomatch h
  acked_le := fun _ _ => Nat.le_refl _
  acked_term := fun _ _ h => absurd h (Nat.lt_irrefl _)
  acked_log := fun _ => List.prefix_rfl
  commit_le := fun _ => Nat.le_refl _
  committed := fun _ => Or.inl rfl
  safe_llog := fun _ _ _ _ _ _ h => absurd rfl h
  safe_ack := fun _ _ _ _ hp _ => hp
  safe_vote := fun _ _ _ _ _ _ _ _ _ _ h => nomatch h

namespace Inv

variable {a : State N E} (h : Inv Q a)
include h

/-- A coherent log is sorted by term, being part of a leader log. -/
theorem pairwise_of_coherent {l : List E} (hl : Coherent a l) :
    l.Pairwise (fun e f => termOf e ≤ termOf f) := by
  by_cases hne : l = []
  · rw [hne]; exact List.Pairwise.nil
  · exact List.Pairwise.sublist (hl.prefix_llog hne).sublist (h.sorted _)

/-- In a coherent log every entry's term is at most the last one's. -/
theorem le_lastTerm {l : List E} (hl : Coherent a l) {e : E} (he : e ∈ l) :
    termOf e ≤ lastTerm l := by
  by_cases hne : l = []
  · rw [hne] at he; cases he
  · exact h.llog_le _ e ((hl.prefix_llog hne).subset he)

theorem vote_of_lt {n : N} {t : Nat} (ht : a.term n < t) : a.vote n t = none := by
  rcases hv : a.vote n t with _ | c
  · rfl
  · exact absurd (h.vote_le n t c hv) (by omega)

theorem cand_of_lt {n : N} {t : Nat} (ht : a.term n < t) : a.cand n t = none := by
  rcases hl : a.cand n t with _ | l
  · rfl
  · exact absurd (h.vote_le n t n (h.cand_vote n t l hl)) (by omega)

/-- The voters of a leader have reached its term. -/
theorem leader_vote_le {t : Nat} {c : N} (hc : a.leader t = some c) :
    ∃ A, Q.IsQuorum A ∧ ∀ n ∈ A, a.vote n t = some c ∧ t ≤ a.term n := by
  obtain ⟨A, hA, hall⟩ := h.leader_vote t c hc
  exact ⟨A, hA, fun n hn => ⟨hall n hn, h.vote_le n t c (hall n hn)⟩⟩

/-- Two quorums of one term's voters elect one member. -/
theorem leader_eq_of_votes {t : Nat} {c d : N} {A : Finset N} (hc : a.leader t = some c)
    (hA : Q.IsQuorum A) (hall : ∀ n ∈ A, a.vote n t = some d) : c = d := by
  obtain ⟨B, hB, hball⟩ := h.leader_vote t c hc
  obtain ⟨n, hn, hn'⟩ := Q.inter A B hA hB
  exact Option.some.inj ((hball n hn').symm.trans (hall n hn))

/-- The leader of a term is a member that has reached it. -/
theorem leader_le {t : Nat} {c : N} (hc : a.leader t = some c) : t ≤ a.term c := by
  obtain ⟨l, _, hl, _, _⟩ := h.leader_cand t c hc
  exact h.vote_le c t c (h.cand_vote c t l hl)

/-- A member that moves to a later term leads none of the terms it skips. -/
theorem leader_ne_of_lt {n : N} {t : Nat} (ht : a.term n < t) : a.leader t ≠ some n :=
  fun hl => absurd (h.leader_le hl) (by omega)

/-- Once a later term has a leader, only what a member has confirmed is choosable. -/
theorem exists_acked_of_leader {t t' : Nat} {p : List E} (hp : Choosable Q a t p) (ht : t < t')
    (hl : a.leader t' ≠ none) :
    ∃ n, p.length ≤ a.acked n t ∧ ∃ c, a.leader t' = some c ∧ a.vote n t' = some c := by
  obtain ⟨c, hc⟩ := Option.ne_none_iff_exists'.mp hl
  obtain ⟨B, hB, hball⟩ := h.leader_vote_le hc
  obtain ⟨_, A, hA, hall⟩ := hp
  obtain ⟨n, hn, hn'⟩ := Q.inter A B hA hB
  refine ⟨n, ?_, c, hc, (hball n hn').1⟩
  rcases hall n hn with hack | hle
  · exact hack
  · exact absurd (hball n hn').2 (by omega)

/-- What is committed in a term up to `t` is in the leader log of `t`. -/
theorem committed_prefix_llog {t : Nat} {p : List E} (hp : Committed Q a t p)
    (hl : a.leader t ≠ none) : p <+: a.llog t := by
  rcases hp with rfl | ⟨s, q, hs, hq, hpq⟩
  · exact List.nil_prefix
  · rcases Nat.lt_or_eq_of_le hs with hlt | rfl
    · exact hpq.trans (h.safe_llog s q t hq.choosable hq.1 hlt hl)
    · exact hpq.trans hq.1

/-- **The election restriction carries a choosable prefix over**: a log at least as up to date as
one that holds it holds it as well. -/
theorem upToDate_carries {t t' : Nat} {p l r : List E} (hp : Choosable Q a t p)
    (hpl : p <+: a.llog t) (hr : Coherent a r) (hpr : p <+: r) (hl : Coherent a l)
    (hlt : ∀ e ∈ l, termOf e < t') (hup : UpToDate l r)
    (hlater : ∀ s, t < s → s < t' → a.leader s ≠ none → p <+: a.llog s) : p <+: l := by
  have hrne : r ≠ [] := fun he => hp.1.ne_nil (List.prefix_nil.mp (he ▸ hpr))
  obtain ⟨e, hep, het⟩ := hp.1.exists_mem
  have htr : t ≤ lastTerm r := het ▸ h.le_lastTerm hr (hpr.subset hep)
  rcases hup with hgt | ⟨heq, hlen⟩
  · -- a strictly later last entry: the leader of its term already holds `p`
    have hlne : l ≠ [] := by rintro rfl; simp at hgt
    have hmem : l.getLast hlne ∈ l := List.getLast_mem hlne
    have hlast : lastTerm l = termOf (l.getLast hlne) := lastTerm_eq_getLast hlne
    have hin : l <+: a.llog (lastTerm l) := hl.prefix_llog hlne
    have hled : a.leader (lastTerm l) ≠ none := fun hn => by
      rw [h.leader_none _ hn] at hin
      exact hlne (List.prefix_nil.mp hin)
    have hpin : p <+: a.llog (lastTerm l) :=
      hlater _ (by omega) (hlast ▸ hlt _ hmem) hled
    rcases List.prefix_or_prefix_of_prefix hpin hin with hpl' | hlp
    · exact hpl'
    · -- `l` inside `p` would put its last entry into term `t`'s leader log
      have := h.llog_le t _ ((hlp.trans hpl).subset hmem)
      omega
  · -- equal last terms: both logs are part of one leader log, and `r` is the shorter
    have hlne : l ≠ [] := by
      rintro rfl
      exact hrne (List.length_eq_zero_iff.mp (by simpa using hlen))
    have hrl : r <+: l := List.prefix_of_prefix_length_le (heq ▸ hr.prefix_llog hrne)
      (hl.prefix_llog hlne) hlen
    exact hpr.trans hrl

end Inv

end TermLog
