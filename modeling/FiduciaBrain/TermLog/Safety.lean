import FiduciaBrain.TermLog.Preserve

/-!
# Safety over runs

`Grows` is what a run can only add to. With it the facts about one state extend to two states of
one run: what was committed at either of them agrees (`committed_agree`), a term has one leader
(`Grows.leader_unique`), and every later leader holds what was chosen before or after its election
(`chosen_prefix_leader`).
-/

namespace TermLog

open Infra

universe u v

variable {N : Type u} {E : Type v} [Termed E] {Q : Quorums N}

/-- `b` says everything `a` says. -/
structure Grows (a b : State N E) : Prop where
  term_le : ∀ n, a.term n ≤ b.term n
  vote : ∀ n t c, a.vote n t = some c → b.vote n t = some c
  cand : ∀ n t l, a.cand n t = some l → b.cand n t = some l
  leader : ∀ t c, a.leader t = some c → b.leader t = some c
  llog : ∀ t, a.llog t <+: b.llog t
  /-- A leader log only gains entries of its own term. -/
  llog_term : ∀ t, a.leader t ≠ none → ∃ r, b.llog t = a.llog t ++ r ∧ ∀ e ∈ r, termOf e = t
  acked_le : ∀ n t, a.acked n t ≤ b.acked n t
  commit_le : ∀ n, a.commit n ≤ b.commit n

namespace Grows

theorem refl (a : State N E) : Grows a a where
  term_le := fun _ => Nat.le_refl _
  vote := fun _ _ _ h => h
  cand := fun _ _ _ h => h
  leader := fun _ _ h => h
  llog := fun _ => List.prefix_rfl
  llog_term := fun _ _ => ⟨[], by simp, by simp⟩
  acked_le := fun _ _ => Nat.le_refl _
  commit_le := fun _ => Nat.le_refl _

theorem trans {a b c : State N E} (h : Grows a b) (h' : Grows b c) : Grows a c where
  term_le := fun n => (h.term_le n).trans (h'.term_le n)
  vote := fun n t d hd => h'.vote n t d (h.vote n t d hd)
  cand := fun n t l hl => h'.cand n t l (h.cand n t l hl)
  leader := fun t d hd => h'.leader t d (h.leader t d hd)
  llog := fun t => (h.llog t).trans (h'.llog t)
  llog_term := fun t ht => by
    obtain ⟨d, hd⟩ := Option.ne_none_iff_exists'.mp ht
    obtain ⟨r, hr, hrt⟩ := h.llog_term t ht
    obtain ⟨s, hs, hst⟩ := h'.llog_term t (by rw [h.leader t d hd]; simp)
    refine ⟨r ++ s, by rw [hs, hr, List.append_assoc], fun e he => ?_⟩
    rcases List.mem_append.mp he with he | he
    · exact hrt e he
    · exact hst e he
  acked_le := fun n t => (h.acked_le n t).trans (h'.acked_le n t)
  commit_le := fun n => (h.commit_le n).trans (h'.commit_le n)

/-- A term has one leader over the whole run. -/
theorem leader_unique {a b : State N E} (h : Grows a b) {t : Nat} {c d : N}
    (hc : a.leader t = some c) (hd : b.leader t = some d) : c = d :=
  Option.some.inj ((h.leader t c hc).symm.trans hd)

theorem chosen {a b : State N E} (h : Grows a b) {t : Nat} {p : List E} (hp : Chosen Q a t p) :
    Chosen Q b t p := hp.mono h.llog h.acked_le

theorem committed {a b : State N E} (h : Grows a b) {t t' : Nat} {p : List E}
    (hp : Committed Q a t p) (ht : t ≤ t') : Committed Q b t' p :=
  hp.mono ht h.llog h.acked_le

/-- A leader log's part that ends before its term was there when the leader was elected. -/
theorem prefix_of_lt {a b : State N E} (h : Grows a b) {t t' : Nat} {p : List E}
    (hp : EndsIn t p) (hlt : t < t') (hl : a.leader t' ≠ none) (hpb : p <+: b.llog t') :
    p <+: a.llog t' := by
  obtain ⟨r, hr, hrt⟩ := h.llog_term t' hl
  rcases List.prefix_or_prefix_of_prefix hpb (h.llog t') with hpa | hap
  · exact hpa
  · -- `p` goes beyond the old log, so its last entry is one of the new ones
    obtain ⟨s, rfl⟩ := hap
    rcases List.eq_nil_or_concat s with rfl | ⟨q, e, rfl⟩
    · simp
    · have hsr : q ++ [e] <+: r := by
        rw [hr] at hpb
        simpa using hpb
      have he : termOf e = t' := hrt e (hsr.subset (by simp))
      have hlast : lastTerm (a.llog t' ++ (q ++ [e])) = termOf e := by
        rw [← List.append_assoc, lastTerm_append_singleton]
      have := hp.lastTerm_eq
      rw [List.concat_eq_append] at this
      omega

end Grows

variable [DecidableEq N]

theorem Step.grows {a b : State N E} (h : Inv Q a) (hs : Step Q a b) : Grows a b := by
  cases hs with
  | adopt n t ht =>
    refine { Grows.refl a with term_le := fun m => ?_ }
    by_cases hm : m = n
    · subst hm; simp [State.adopt]; omega
    · simp [State.adopt, hm]
  | campaign n =>
    refine { Grows.refl a with
      term_le := fun m => ?_
      vote := fun m t c hc => ?_
      cand := fun m t l hl => ?_ }
    · by_cases hm : m = n
      · subst hm; simp [State.campaign]
      · simp [State.campaign, hm]
    · exact set₂_of_free (Or.inl (h.vote_of_lt (Nat.lt_succ_self _))) hc
    · exact set₂_of_free (Or.inl (h.cand_of_lt (Nat.lt_succ_self _))) hl
  | grant n c l hc hfree hup =>
    exact { Grows.refl a with vote := fun m t d hd => set₂_of_free hfree hd }
  | elect c e hcand hnew he hA =>
    obtain ⟨A, hA, hall⟩ := hA
    have hnone := h.leader_none_of_votes hA hall hnew
    have hl : a.llog (a.term c) <+: a.log c ++ [e] := h.leader_none _ hnone ▸ List.nil_prefix
    refine { Grows.refl a with
      leader := fun t d hd => ?_
      llog := prefix_llog_write hl
      llog_term := fun t ht => ⟨[], ?_, by simp⟩
      acked_le := h.acked_le_write hl }
    · have hne : t ≠ a.term c := by rintro rfl; rw [hnone] at hd; cases hd
      simpa [State.elect, hne] using hd
    · have hne : t ≠ a.term c := by rintro rfl; exact ht hnone
      simp [State.elect, State.write, hne]
  | write c e hc he =>
    have hlog : a.log c = a.llog (a.term c) := h.leader_log c hc
    have hl : a.llog (a.term c) <+: a.log c ++ [e] := hlog ▸ List.prefix_append _ _
    refine { Grows.refl a with
      llog := prefix_llog_write hl
      llog_term := fun t _ => ?_
      acked_le := h.acked_le_write hl }
    by_cases ht : t = a.term c
    · subst ht
      exact ⟨[e], by simp [State.write, hlog], by simpa using he⟩
    · exact ⟨[], by simp [State.write, ht], by simp⟩
  | accept n r hr => exact { Grows.refl a with acked_le := acked_le_accept }
  | commitTo n m hle hm hc =>
    refine { Grows.refl a with commit_le := fun k => ?_ }
    by_cases hk : k = n
    · subst hk; simpa [State.commitTo] using hle
    · simp [State.commitTo, hk]

theorem grows_of_steps {a b : State N E} (ha : (system Q).Reachable a)
    (hs : (system Q).Steps a b) : Grows a b :=
  hs.rel (R := Grows) Grows.refl (fun _ _ _ => Grows.trans)
    (fun _ _ hr hst => Step.grows (inv_of_reachable hr) hst) ha

omit [DecidableEq N] in
/-- Two committed prefixes of one state never disagree. -/
theorem Inv.committed_comparable {a : State N E} (h : Inv Q a) {t t' : Nat} {p q : List E}
    (hp : Committed Q a t p) (hq : Committed Q a t' q) : p <+: q ∨ q <+: p := by
  rcases hp with rfl | ⟨s, p', _, hp', hpp⟩
  · exact Or.inl List.nil_prefix
  rcases hq with rfl | ⟨s', q', _, hq', hqq⟩
  · exact Or.inr List.nil_prefix
  -- the leader log of the later of the two terms holds both
  have key : ∀ {s s' p' q'}, Chosen Q a s p' → Chosen Q a s' q' → s ≤ s' → p' <+: a.llog s' := by
    intro s s' p' q' hp' hq' hle
    rcases Nat.lt_or_eq_of_le hle with hlt | rfl
    · refine h.safe_llog s p' s' hp'.choosable hp'.1 hlt (fun hn => ?_)
      exact hq'.2.1.ne_nil (List.prefix_nil.mp (h.leader_none _ hn ▸ hq'.1))
    · exact hp'.1
  rcases Nat.le_total s s' with hle | hle
  · exact List.prefix_or_prefix_of_prefix (hpp.trans (key hp' hq' hle)) (hqq.trans hq'.1)
  · exact List.prefix_or_prefix_of_prefix (hpp.trans hp'.1) (hqq.trans (key hq' hp' hle))

omit [DecidableEq N] in
theorem Inv.committed_le {a : State N E} (h : Inv Q a) {t t' : Nat} {p q : List E}
    (hp : Committed Q a t p) (hq : Committed Q a t' q) (hle : p.length ≤ q.length) : p <+: q := by
  rcases h.committed_comparable hp hq with hpq | hqp
  · exact hpq
  · rw [hqp.eq_of_length (Nat.le_antisymm hqp.length_le hle)]

/-- **Agreement.** What two members know to be committed, at any two moments of a run, agrees. -/
theorem committed_agree {a b : State N E} (ha : (system Q).Reachable a)
    (hs : (system Q).Steps a b) (m n : N) :
    (a.log m).take (a.commit m) <+: (b.log n).take (b.commit n) ∨
      (b.log n).take (b.commit n) <+: (a.log m).take (a.commit m) := by
  have hb := inv_of_reachable (ha.steps hs)
  exact hb.committed_comparable
    ((grows_of_steps ha hs).committed ((inv_of_reachable ha).committed m) (Nat.le_refl _))
    (hb.committed n)

/-- **Leader completeness.** Whatever is chosen in a term, at whatever moment of the run, every
leader of a later term holds it as long as it leads. -/
theorem chosen_prefix_leader {a b : State N E} (ha : (system Q).Reachable a)
    (hb : (system Q).Reachable b) (hab : (system Q).Steps a b ∨ (system Q).Steps b a) {t t' : Nat}
    {p : List E} (hp : Chosen Q b t p) (hlt : t < t') (hl : a.leader t' ≠ none) :
    p <+: a.llog t' := by
  rcases hab with hab | hba
  · have hg := grows_of_steps ha hab
    obtain ⟨c, hc⟩ := Option.ne_none_iff_exists'.mp hl
    have hlb : b.leader t' ≠ none := by rw [hg.leader t' c hc]; simp
    exact hg.prefix_of_lt hp.2.1 hlt hl
      ((inv_of_reachable hb).safe_llog t p t' hp.choosable hp.1 hlt hlb)
  · have hp' := (grows_of_steps hb hba).chosen hp
    exact (inv_of_reachable ha).safe_llog t p t' hp'.choosable hp'.1 hlt hl

end TermLog
