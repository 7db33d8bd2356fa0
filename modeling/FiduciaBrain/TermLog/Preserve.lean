import FiduciaBrain.TermLog.Invariant

/-!
# The invariant is preserved

One theorem for each kind of step. `elect` and `write` share the lemmas on `State.write`: both
extend a leader log by one entry that only its author has confirmed.
-/

namespace TermLog

universe u v

variable {N : Type u} {E : Type v} [Termed E] [DecidableEq N] {Q : Quorums N} {a : State N E}

/-! ## Terms and votes -/

theorem choosable_of_adopt {n : N} {t s : Nat} {p : List E} (ht : a.term n < t)
    (hp : Choosable Q (a.adopt n t) s p) : Choosable Q a s p := by
  refine Choosable.of_grows (b := a.adopt n t) (fun m => ?_) (fun m => Or.inl rfl) hp
  by_cases hm : m = n
  · subst hm; simp [State.adopt]; omega
  · simp [State.adopt, hm]

theorem Inv.adopt (h : Inv Q a) {n : N} {t : Nat} (ht : a.term n < t) : Inv Q (a.adopt n t) := by
  have hterm : ∀ m, a.term m ≤ (a.adopt n t).term m := fun m => by
    by_cases hm : m = n
    · subst hm; simp [State.adopt]; omega
    · simp [State.adopt, hm]
  have hself : (a.adopt n t).term n = t := by simp [State.adopt]
  have hother : ∀ m, m ≠ n → (a.adopt n t).term m = a.term m := fun m hm => by
    simp [State.adopt, hm]
  exact
    { log_coh := h.log_coh
      llog_coh := h.llog_coh
      cand_coh := h.cand_coh
      log_le := fun m e he => (h.log_le m e he).trans (hterm m)
      llog_le := h.llog_le
      cand_lt := h.cand_lt
      sorted := h.sorted
      vote_le := fun m s c hc => (h.vote_le m s c hc).trans (hterm m)
      vote_cand := h.vote_cand
      cand_vote := h.cand_vote
      leader_vote := h.leader_vote
      leader_none := h.leader_none
      leader_cand := h.leader_cand
      leader_log := fun m hm => by
        by_cases hmn : m = n
        · subst hmn
          rw [hself] at hm
          exact absurd hm (h.leader_ne_of_lt ht)
        · rw [hother m hmn] at hm ⊢
          exact h.leader_log m hm
      leader_acked := h.leader_acked
      acked_le := h.acked_le
      acked_term := fun m s hs => (h.acked_term m s hs).trans (hterm m)
      acked_log := fun m => by
        by_cases hmn : m = n
        · subst hmn
          rw [hself]
          have h0 : a.acked m t = 0 := by
            rcases Nat.eq_zero_or_pos (a.acked m t) with h0 | hpos
            · exact h0
            · exact absurd (h.acked_term m t hpos) (by omega)
          show (a.llog t).take (a.acked m t) <+: a.log m
          rw [h0]
          exact List.nil_prefix
        · rw [hother m hmn]
          exact h.acked_log m
      commit_le := h.commit_le
      committed := fun m => (h.committed m).mono (hterm m) (fun _ => List.prefix_rfl)
        (fun _ _ => Nat.le_refl _)
      safe_llog := fun s p s' hp => h.safe_llog s p s' (choosable_of_adopt ht hp)
      safe_ack := fun m s p hp => h.safe_ack m s p (choosable_of_adopt ht hp)
      safe_vote := fun m s p s' c l hp => h.safe_vote m s p s' c l (choosable_of_adopt ht hp) }

theorem choosable_of_campaign {n : N} {s : Nat} {p : List E}
    (hp : Choosable Q (a.campaign n) s p) : Choosable Q a s p :=
  choosable_of_adopt (t := a.term n + 1) (Nat.lt_succ_self _) hp

theorem Inv.campaign (h : Inv Q a) (n : N) : Inv Q (a.campaign n) := by
  have hlt : a.term n < a.term n + 1 := Nat.lt_succ_self _
  have hadopt := h.adopt hlt
  have hvote : ∀ m s c, a.vote m s = some c → (a.campaign n).vote m s = some c :=
    fun m s c hc => set₂_of_free (Or.inl (h.vote_of_lt hlt)) hc
  have hcand : ∀ c s l, a.cand c s = some l → (a.campaign n).cand c s = some l :=
    fun c s l hl => set₂_of_free (Or.inl (h.cand_of_lt hlt)) hl
  exact
    { hadopt with
      cand_coh := fun c s l hl => by
        rcases set₂_cases hl with hl | ⟨_, _, heq⟩
        · exact h.cand_coh c s l hl
        · exact Option.some.inj heq ▸ h.log_coh n
      cand_lt := fun c s l hl e he => by
        rcases set₂_cases hl with hl | ⟨_, rfl, heq⟩
        · exact h.cand_lt c s l hl e he
        · exact Nat.lt_succ_of_le (h.log_le n e (Option.some.inj heq ▸ he))
      vote_le := fun m s c hc => by
        rcases set₂_cases hc with hc | ⟨rfl, rfl, _⟩
        · exact hadopt.vote_le m s c hc
        · simp [State.campaign]
      vote_cand := fun m s c hc => by
        rcases set₂_cases hc with hc | ⟨_, rfl, heq⟩
        · obtain ⟨l, hl⟩ := h.vote_cand m s c hc
          exact ⟨l, hcand c s l hl⟩
        · exact ⟨a.log n, Option.some.inj heq ▸ set₂_self _ _ _ _⟩
      cand_vote := fun c s l hl => by
        rcases set₂_cases hl with hl | ⟨rfl, rfl, _⟩
        · exact hvote c s c (h.cand_vote c s l hl)
        · exact set₂_self _ _ _ _
      leader_vote := fun s c hc => by
        obtain ⟨A, hA, hall⟩ := h.leader_vote s c hc
        exact ⟨A, hA, fun m hm => hvote m s c (hall m hm)⟩
      leader_cand := fun s c hc => by
        obtain ⟨l, r, hl, hlr⟩ := h.leader_cand s c hc
        exact ⟨l, r, hcand c s l hl, hlr⟩
      safe_vote := fun m s p s' c l hp hps hlen hss hc hl => by
        have hp' := choosable_of_campaign hp
        rcases set₂_cases hc with hc | ⟨rfl, rfl, heq⟩
        · obtain ⟨l', hl'⟩ := h.vote_cand m s' c hc
          have : l' = l := Option.some.inj ((hcand c s' l' hl').symm.trans hl)
          exact this ▸ h.safe_vote m s p s' c l' hp' hps hlen hss hc hl'
        · obtain rfl : m = c := Option.some.inj heq
          have hlog : a.log m = l := Option.some.inj
            ((set₂_self a.cand m (a.term m + 1) (some (a.log m))).symm.trans hl)
          exact hlog ▸ h.safe_ack m s p hp' hps hlen }

theorem Inv.grant (h : Inv Q a) {n c : N} {l : List E} (hc : a.cand c (a.term n) = some l)
    (hfree : a.vote n (a.term n) = none ∨ a.vote n (a.term n) = some c)
    (hup : UpToDate l (a.log n)) : Inv Q (a.grant n c) := by
  have hvote : ∀ m s d, a.vote m s = some d → (a.grant n c).vote m s = some d :=
    fun m s d hd => set₂_of_free hfree hd
  exact
    { h with
      vote_le := fun m s d hd => by
        rcases set₂_cases hd with hd | ⟨rfl, rfl, _⟩
        · exact h.vote_le m s d hd
        · exact Nat.le_refl _
      vote_cand := fun m s d hd => by
        rcases set₂_cases hd with hd | ⟨_, rfl, heq⟩
        · exact h.vote_cand m s d hd
        · exact ⟨l, Option.some.inj heq ▸ hc⟩
      cand_vote := fun d s r hr => hvote d s d (h.cand_vote d s r hr)
      leader_vote := fun s d hd => by
        obtain ⟨A, hA, hall⟩ := h.leader_vote s d hd
        exact ⟨A, hA, fun m hm => hvote m s d (hall m hm)⟩
      safe_vote := fun m s p s' d r hp hps hlen hss hd hr => by
        have hp' : Choosable Q a s p := hp
        rcases set₂_cases hd with hd | ⟨rfl, rfl, heq⟩
        · exact h.safe_vote m s p s' d r hp' hps hlen hss hd hr
        · obtain rfl : c = d := Option.some.inj heq
          have hrl : r = l := Option.some.inj (hr.symm.trans hc)
          subst hrl
          exact h.upToDate_carries hp' hps (h.log_coh m) (h.safe_ack m s p hp' hps hlen)
            (h.cand_coh _ _ _ hc) (h.cand_lt _ _ _ hc) hup
            (fun t ht _ hl => h.safe_llog s p t hp' hps ht hl) }

/-! ## Writing an entry -/

section Write

variable {c : N} {e : E}

omit [Termed E] in
theorem prefix_llog_write (hl : a.llog (a.term c) <+: a.log c ++ [e]) (t : Nat) :
    a.llog t <+: (a.write c e).llog t := by
  by_cases ht : t = a.term c
  · subst ht; simpa [State.write] using hl
  · simp [State.write, ht]

omit [Termed E] in
theorem acked_write_of_ne {n : N} {t : Nat} (h : ¬ (n = c ∧ t = a.term c)) :
    (a.write c e).acked n t = a.acked n t := set₂_of_ne h

omit [Termed E] in
@[simp] theorem acked_write_self :
    (a.write c e).acked c (a.term c) = (a.log c ++ [e]).length := set₂_self _ _ _ _

theorem choosable_of_write {t : Nat} {p : List E} (hp : Choosable Q (a.write c e) t p) :
    Choosable Q a t p := by
  refine Choosable.of_grows (b := a.write c e) (fun _ => Nat.le_refl _) (fun n => ?_) hp
  by_cases hn : n = c ∧ t = a.term c
  · obtain ⟨rfl, rfl⟩ := hn
    exact Or.inr (Nat.le_refl _)
  · exact Or.inl (acked_write_of_ne hn)

theorem Inv.acked_le_write (h : Inv Q a) (hl : a.llog (a.term c) <+: a.log c ++ [e]) (n : N)
    (t : Nat) : a.acked n t ≤ (a.write c e).acked n t := by
  by_cases hn : n = c ∧ t = a.term c
  · obtain ⟨rfl, rfl⟩ := hn
    rw [acked_write_self]
    exact (h.acked_le _ _).trans hl.length_le
  · exact (acked_write_of_ne hn).ge

theorem Inv.coherent_write (h : Inv Q a) (hl : a.llog (a.term c) <+: a.log c ++ [e])
    (he : termOf e = a.term c) : Coherent (a.write c e) (a.log c ++ [e]) := by
  refine ((h.log_coh c).mono (prefix_llog_write hl)).append_singleton ?_
  simp [State.write, he]

/-- A prefix somebody other than the author has confirmed was written before. -/
theorem Inv.prefix_of_acked_write (h : Inv Q a) (hl : a.llog (a.term c) <+: a.log c ++ [e])
    {n : N} {t : Nat} {p : List E} (hp : p <+: (a.write c e).llog t)
    (hack : p.length ≤ (a.write c e).acked n t) (hn : ¬ (n = c ∧ t = a.term c)) :
    p <+: a.llog t := by
  rw [acked_write_of_ne hn] at hack
  exact List.prefix_of_prefix_length_le hp (prefix_llog_write hl t)
    (hack.trans (h.acked_le n t))

theorem Inv.safe_ack_write (h : Inv Q a) (hl : a.llog (a.term c) <+: a.log c ++ [e]) (n : N)
    (t : Nat) (p : List E) (hp : Choosable Q (a.write c e) t p)
    (hpl : p <+: (a.write c e).llog t) (hack : p.length ≤ (a.write c e).acked n t) :
    p <+: (a.write c e).log n := by
  by_cases hn : n = c ∧ t = a.term c
  · obtain ⟨rfl, rfl⟩ := hn
    simpa [State.write] using hpl
  · have hpre := h.prefix_of_acked_write hl hpl hack hn
    rw [acked_write_of_ne hn] at hack
    have hlog := h.safe_ack n t p (choosable_of_write hp) hpre hack
    by_cases hnc : n = c
    · subst hnc
      simpa [State.write] using hlog.trans (List.prefix_append _ _)
    · simpa [State.write, hnc] using hlog

theorem Inv.safe_vote_write (h : Inv Q a) (hl : a.llog (a.term c) <+: a.log c ++ [e]) (n : N)
    (t : Nat) (p : List E) (t' : Nat) (d : N) (l : List E) (hp : Choosable Q (a.write c e) t p)
    (hpl : p <+: (a.write c e).llog t) (hack : p.length ≤ (a.write c e).acked n t) (ht : t < t')
    (hd : a.vote n t' = some d) (hc : a.cand d t' = some l) : p <+: l := by
  have hn : ¬ (n = c ∧ t = a.term c) := by
    rintro ⟨rfl, rfl⟩
    exact absurd (h.vote_le n t' d hd) (by omega)
  have hpre := h.prefix_of_acked_write hl hpl hack hn
  rw [acked_write_of_ne hn] at hack
  exact h.safe_vote n t p t' d l (choosable_of_write hp) hpre hack ht hd hc

/-- The clause on later leaders, for the leaders there were. -/
theorem Inv.safe_llog_write (h : Inv Q a) (hl : a.llog (a.term c) <+: a.log c ++ [e]) (t : Nat)
    (p : List E) (t' : Nat) (hp : Choosable Q (a.write c e) t p)
    (hpl : p <+: (a.write c e).llog t) (ht : t < t') (hled : a.leader t' ≠ none) :
    p <+: (a.write c e).llog t' := by
  have hp' := choosable_of_write hp
  obtain ⟨n, hack, d, _, hd⟩ := h.exists_acked_of_leader hp' ht hled
  have hpre : p <+: a.llog t := List.prefix_of_prefix_length_le hpl (prefix_llog_write hl t)
    (hack.trans (h.acked_le n t))
  exact (h.safe_llog t p t' hp' hpre ht hled).trans (prefix_llog_write hl t')

omit [DecidableEq N] in
theorem Inv.log_le_write (h : Inv Q a) (he : termOf e = a.term c) :
    ∀ x ∈ a.log c ++ [e], termOf x ≤ a.term c := by
  intro x hx
  rcases List.mem_append.mp hx with hx | hx
  · exact h.log_le c x hx
  · rw [List.mem_singleton.mp hx, he]

omit [DecidableEq N] in
theorem Inv.sorted_write (h : Inv Q a) (he : termOf e = a.term c) :
    (a.log c ++ [e]).Pairwise (fun x y => termOf x ≤ termOf y) := by
  refine List.pairwise_append.mpr ⟨h.pairwise_of_coherent (h.log_coh c),
    List.pairwise_singleton _ _, fun x hx y hy => ?_⟩
  rw [List.mem_singleton.mp hy, he]
  exact h.log_le c x hx

/-- The clauses `elect` and `write` keep for one and the same reason. -/
structure WriteInv (Q : Quorums N) (b : State N E) : Prop where
  log_coh : ∀ n, Coherent b (b.log n)
  llog_coh : ∀ t, Coherent b (b.llog t)
  cand_coh : ∀ n t l, b.cand n t = some l → Coherent b l
  log_le : ∀ n, ∀ x ∈ b.log n, termOf x ≤ b.term n
  llog_le : ∀ t, ∀ x ∈ b.llog t, termOf x ≤ t
  sorted : ∀ t, (b.llog t).Pairwise (fun x y => termOf x ≤ termOf y)
  acked_le : ∀ n t, b.acked n t ≤ (b.llog t).length
  acked_term : ∀ n t, 0 < b.acked n t → t ≤ b.term n
  acked_log : ∀ n, (b.llog (b.term n)).take (b.acked n (b.term n)) <+: b.log n
  commit_le : ∀ n, b.commit n ≤ (b.log n).length
  committed : ∀ n, Committed Q b (b.term n) ((b.log n).take (b.commit n))

theorem Inv.writeInv (h : Inv Q a) (hl : a.llog (a.term c) <+: a.log c ++ [e])
    (he : termOf e = a.term c) : WriteInv Q (a.write c e) := by
  have hmono := prefix_llog_write (a := a) (c := c) (e := e) hl
  have hcoh := h.coherent_write hl he
  exact
    { log_coh := fun n => by
        by_cases hn : n = c
        · subst hn; simpa [State.write] using hcoh
        · simpa [State.write, hn] using (h.log_coh n).mono hmono
      llog_coh := fun t => by
        by_cases ht : t = a.term c
        · subst ht; simpa [State.write] using hcoh
        · simpa [State.write, ht] using (h.llog_coh t).mono hmono
      cand_coh := fun n t l hl' => (h.cand_coh n t l hl').mono hmono
      log_le := fun n => by
        by_cases hn : n = c
        · subst hn; simpa [State.write] using h.log_le_write he
        · simpa [State.write, hn] using h.log_le n
      llog_le := fun t => by
        by_cases ht : t = a.term c
        · subst ht; simpa [State.write] using h.log_le_write he
        · simpa [State.write, ht] using h.llog_le t
      sorted := fun t => by
        by_cases ht : t = a.term c
        · subst ht; simpa [State.write] using h.sorted_write he
        · simpa [State.write, ht] using h.sorted t
      acked_le := fun n t => by
        by_cases hn : n = c ∧ t = a.term c
        · obtain ⟨rfl, rfl⟩ := hn
          simp [State.write, set₂]
        · rw [acked_write_of_ne hn]
          exact (h.acked_le n t).trans (hmono t).length_le
      acked_term := fun n t hpos => by
        by_cases hn : n = c ∧ t = a.term c
        · obtain ⟨rfl, rfl⟩ := hn
          exact Nat.le_refl _
        · rw [acked_write_of_ne hn] at hpos
          exact h.acked_term n t hpos
      acked_log := fun n => by
        by_cases hn : n = c
        · subst hn
          have hself : (a.write n e).log n = (a.write n e).llog (a.term n) := by simp [State.write]
          rw [hself]
          exact List.take_prefix _ _
        · have hlen : a.acked n (a.term n) ≤ (a.llog (a.term n)).length := h.acked_le n _
          obtain ⟨r, hr⟩ := hmono (a.term n)
          show ((a.write c e).llog (a.term n)).take ((a.write c e).acked n (a.term n)) <+: _
          rw [acked_write_of_ne (fun hc => hn hc.1), ← hr, List.take_append_of_le_length hlen]
          simpa [State.write, hn] using h.acked_log n
      commit_le := fun n => by
        by_cases hn : n = c
        · subst hn
          simpa [State.write] using Nat.le_succ_of_le (h.commit_le n)
        · simpa [State.write, hn] using h.commit_le n
      committed := fun n => by
        have hcom := (h.committed n).mono (b := a.write c e) (Nat.le_refl _) hmono
          (h.acked_le_write hl)
        by_cases hn : n = c
        · subst hn
          simpa [State.write, List.take_append_of_le_length (h.commit_le n)] using hcom
        · simpa [State.write, hn] using hcom }

/-- The leader of a term extends its log. -/
theorem Inv.write (h : Inv Q a) (hc : a.leader (a.term c) = some c) (he : termOf e = a.term c) :
    Inv Q (a.write c e) := by
  have hlog : a.log c = a.llog (a.term c) := h.leader_log c hc
  have hl : a.llog (a.term c) <+: a.log c ++ [e] := hlog ▸ List.prefix_append _ _
  have hw := h.writeInv hl he
  exact
    { hw with
      cand_lt := h.cand_lt
      vote_le := h.vote_le
      vote_cand := h.vote_cand
      cand_vote := h.cand_vote
      leader_vote := h.leader_vote
      leader_none := fun t ht => by
        have hne : t ≠ a.term c := by
          rintro rfl
          exact Option.some_ne_none c (hc.symm.trans ht)
        simpa [State.write, hne] using h.leader_none t ht
      leader_cand := fun t d hd => by
        obtain ⟨l, r, hl', hlr, hr⟩ := h.leader_cand t d hd
        by_cases ht : t = a.term c
        · subst ht
          refine ⟨l, r ++ [e], hl', ?_, ?_⟩
          · simp [State.write, hlog, hlr]
          · intro x hx
            rcases List.mem_append.mp hx with hx | hx
            · exact hr x hx
            · rw [List.mem_singleton.mp hx, he]
        · exact ⟨l, r, hl', by simpa [State.write, ht] using hlr, hr⟩
      leader_log := fun n hn => by
        by_cases hnc : n = c
        · subst hnc; simp [State.write]
        · have hne : a.term n ≠ a.term c := fun heq =>
            hnc (Option.some.inj ((heq ▸ hn : a.leader (a.term c) = some n).symm.trans hc))
          simpa [State.write, hnc, hne] using h.leader_log n hn
      leader_acked := fun t d hd => by
        by_cases hdt : d = c ∧ t = a.term c
        · obtain ⟨rfl, rfl⟩ := hdt
          simp [State.write, set₂]
        · have hne : t ≠ a.term c := by
            rintro rfl
            exact hdt ⟨Option.some.inj (hd.symm.trans hc), rfl⟩
          rw [acked_write_of_ne hdt]
          simpa [State.write, hne] using h.leader_acked t d hd
      safe_llog := h.safe_llog_write hl
      safe_ack := h.safe_ack_write hl
      safe_vote := h.safe_vote_write hl }

omit [DecidableEq N] in
/-- A candidate with a quorum of votes meets no other leader of its term. -/
theorem Inv.leader_none_of_votes (h : Inv Q a) {A : Finset N} (hA : Q.IsQuorum A)
    (hall : ∀ n ∈ A, a.vote n (a.term c) = some c) (hnew : a.leader (a.term c) ≠ some c) :
    a.leader (a.term c) = none := by
  rcases hl : a.leader (a.term c) with _ | d
  · rfl
  · exact absurd (h.leader_eq_of_votes hl hA hall ▸ hl) hnew

theorem Inv.elect (h : Inv Q a) (hcand : a.cand c (a.term c) = some (a.log c))
    (hnew : a.leader (a.term c) ≠ some c) (he : termOf e = a.term c) {A : Finset N}
    (hA : Q.IsQuorum A) (hall : ∀ n ∈ A, a.vote n (a.term c) = some c) :
    Inv Q (a.elect c e) := by
  have hnone := h.leader_none_of_votes hA hall hnew
  have hl : a.llog (a.term c) <+: a.log c ++ [e] := h.leader_none _ hnone ▸ List.nil_prefix
  have hw := h.writeInv hl he
  have hself : (a.elect c e).leader (a.term c) = some c := by simp [State.elect]
  have hother : ∀ t, t ≠ a.term c → (a.elect c e).leader t = a.leader t := fun t ht => by
    simp [State.elect, ht]
  have hllog : ∀ t, t ≠ a.term c → (a.elect c e).llog t = a.llog t := fun t ht => by
    simp [State.elect, State.write, ht]
  exact
    { hw with
      cand_lt := h.cand_lt
      vote_le := h.vote_le
      vote_cand := h.vote_cand
      cand_vote := h.cand_vote
      leader_vote := fun t d hd => by
        by_cases ht : t = a.term c
        · subst ht
          rw [hself] at hd
          exact ⟨A, hA, Option.some.inj hd ▸ hall⟩
        · rw [hother t ht] at hd
          exact h.leader_vote t d hd
      leader_none := fun t ht => by
        have hne : t ≠ a.term c := by rintro rfl; rw [hself] at ht; cases ht
        rw [hother t hne] at ht
        rw [hllog t hne]
        exact h.leader_none t ht
      leader_cand := fun t d hd => by
        by_cases ht : t = a.term c
        · subst ht
          obtain rfl : c = d := Option.some.inj (hself.symm.trans hd)
          exact ⟨a.log c, [e], hcand, by simp [State.elect, State.write], by simpa using he⟩
        · rw [hother t ht] at hd
          rw [hllog t ht]
          exact h.leader_cand t d hd
      leader_log := fun n hn => by
        by_cases hnc : n = c
        · subst hnc; simp [State.elect, State.write]
        · have hne : a.term n ≠ a.term c := fun heq =>
            hnc (Option.some.inj ((heq ▸ hn : (a.elect c e).leader (a.term c) = some n).symm.trans
              hself))
          rw [show (a.elect c e).term n = a.term n from rfl, hother _ hne] at hn
          simpa [State.elect, State.write, hnc, hne] using h.leader_log n hn
      leader_acked := fun t d hd => by
        by_cases ht : t = a.term c
        · subst ht
          obtain rfl : c = d := Option.some.inj (hself.symm.trans hd)
          simp [State.elect, State.write, set₂]
        · rw [hother t ht] at hd
          rw [hllog t ht]
          exact (acked_write_of_ne (fun hdt => ht hdt.2)).trans (h.leader_acked t d hd)
      safe_llog := fun t p t' hp hpl ht hled => by
        by_cases ht' : t' = a.term c
        · -- the new leader: one of its voters has confirmed `p`
          subst ht'
          obtain ⟨_, B, hB, hball⟩ := choosable_of_write hp
          obtain ⟨n, hn, hn'⟩ := Q.inter A B hA hB
          have hvote := hall n hn
          have hack : p.length ≤ a.acked n t := by
            rcases hball n hn' with hack | hle
            · exact hack
            · exact absurd (h.vote_le n _ c hvote) (by omega)
          have hpre : p <+: a.llog t := hllog t (by omega) ▸ hpl
          have hpc := h.safe_vote n t p _ c _ (choosable_of_write hp) hpre hack ht hvote hcand
          simpa [State.elect, State.write] using hpc.trans (List.prefix_append _ [e])
        · rw [hother t' ht'] at hled
          exact h.safe_llog_write hl t p t' hp hpl ht hled
      safe_ack := h.safe_ack_write hl
      safe_vote := h.safe_vote_write hl }

end Write

/-! ## Taking over entries -/

section Accept

variable {n : N} {r : List E}

/-- Accepting keeps every prefix that the member's log and its leader's log share. -/
theorem Inv.prefix_log_accept (h : Inv Q a) {p : List E} (hr : r <+: a.llog (a.term n))
    (hp : a.leader (a.term n) ≠ none → p <+: a.llog (a.term n)) {m : N} (hlog : p <+: a.log m) :
    p <+: (a.accept n r).log m := by
  by_cases hm : m = n
  · subst hm
    by_cases hled : a.leader (a.term m) = none
    · have hnil : r = [] := List.prefix_nil.mp (h.leader_none _ hled ▸ hr)
      simpa [State.accept, hnil, splice_eq_left List.nil_prefix] using hlog
    · simpa [State.accept] using prefix_splice_of_common hr (hp hled) hlog
  · simpa [State.accept, hm] using hlog

omit [Termed E] in
theorem acked_accept_of_ne {m : N} {t : Nat} (h : ¬ (m = n ∧ t = a.term n)) :
    (a.accept n r).acked m t = a.acked m t := set₂_of_ne h

omit [Termed E] in
theorem acked_accept_self :
    (a.accept n r).acked n (a.term n) = max (a.acked n (a.term n)) r.length := set₂_self _ _ _ _

omit [Termed E] in
theorem acked_le_accept (m : N) (t : Nat) : a.acked m t ≤ (a.accept n r).acked m t := by
  by_cases hm : m = n ∧ t = a.term n
  · obtain ⟨rfl, rfl⟩ := hm
    rw [acked_accept_self]
    exact le_max_left _ _
  · exact (acked_accept_of_ne hm).ge

theorem choosable_of_accept {t : Nat} {p : List E} (hp : Choosable Q (a.accept n r) t p) :
    Choosable Q a t p := by
  refine Choosable.of_grows (b := a.accept n r) (fun _ => Nat.le_refl _) (fun m => ?_) hp
  by_cases hm : m = n ∧ t = a.term n
  · obtain ⟨rfl, rfl⟩ := hm
    exact Or.inr (Nat.le_refl _)
  · exact Or.inl (acked_accept_of_ne hm)

omit [DecidableEq N] in
/-- A prefix that is choosable and confirmed by `n` is part of its leader's log, unless `n` has no
leader to accept anything from. -/
theorem Inv.prefix_llog_of_acked (h : Inv Q a) {t : Nat} {p : List E} (hp : Choosable Q a t p)
    (hpl : p <+: a.llog t) (hack : p.length ≤ a.acked n t)
    (hled : a.leader (a.term n) ≠ none) : p <+: a.llog (a.term n) := by
  have hpos : 0 < a.acked n t := by
    have := List.length_pos_iff.mpr hp.1.ne_nil
    omega
  rcases Nat.lt_or_eq_of_le (h.acked_term n t hpos) with hlt | rfl
  · exact h.safe_llog t p _ hp hpl hlt hled
  · exact hpl

/-- What a member knows to be committed survives whatever its leader sends. -/
theorem Inv.committed_prefix_accept (h : Inv Q a) (hr : r <+: a.llog (a.term n)) (m : N) :
    (a.log m).take (a.commit m) <+: (a.accept n r).log m := by
  by_cases hm : m = n
  · subst hm
    exact h.prefix_log_accept hr (h.committed_prefix_llog (h.committed m)) (List.take_prefix _ _)
  · simpa [State.accept, hm] using List.take_prefix _ _

theorem Inv.safe_ack_accept (h : Inv Q a) (hr : r <+: a.llog (a.term n)) (m : N) (t : Nat)
    (p : List E) (hp : Choosable Q (a.accept n r) t p) (hpl : p <+: a.llog t)
    (hack : p.length ≤ (a.accept n r).acked m t) : p <+: (a.accept n r).log m := by
  have hp' := choosable_of_accept hp
  by_cases hold : p.length ≤ a.acked m t
  · have hlog := h.safe_ack m t p hp' hpl hold
    by_cases hm : m = n
    · subst hm
      exact h.prefix_log_accept hr (h.prefix_llog_of_acked hp' hpl hold) hlog
    · simpa [State.accept, hm] using hlog
  · -- a new confirmation: `p` is inside the accepted part
    have hm : m = n ∧ t = a.term n := by
      by_contra hm
      exact hold (acked_accept_of_ne hm ▸ hack)
    obtain ⟨rfl, rfl⟩ := hm
    rw [acked_accept_self] at hack
    have hpr : p <+: r := List.prefix_of_prefix_length_le hpl hr (by omega)
    simpa [State.accept] using hpr.trans (prefix_splice _ r)

theorem Inv.safe_vote_accept (h : Inv Q a) (m : N) (t : Nat) (p : List E) (t' : Nat) (c : N)
    (l : List E) (hp : Choosable Q (a.accept n r) t p) (hpl : p <+: a.llog t)
    (hack : p.length ≤ (a.accept n r).acked m t) (ht : t < t') (hc : a.vote m t' = some c)
    (hl : a.cand c t' = some l) : p <+: l := by
  have hm : ¬ (m = n ∧ t = a.term n) := by
    rintro ⟨rfl, rfl⟩
    exact absurd (h.vote_le m t' c hc) (by omega)
  rw [acked_accept_of_ne hm] at hack
  exact h.safe_vote m t p t' c l (choosable_of_accept hp) hpl hack ht hc hl

omit [DecidableEq N] in
theorem Inv.coherent_splice (h : Inv Q a) (hr : r <+: a.llog (a.term n)) :
    Coherent a (splice (a.log n) r) := by
  by_cases hl : r <+: a.log n
  · rw [splice_eq_left hl]; exact h.log_coh n
  · rw [splice_eq_right hl]; exact (h.llog_coh _).restrict hr

theorem Inv.accept (h : Inv Q a) (hr : r <+: a.llog (a.term n)) : Inv Q (a.accept n r) := by
  have hself : (a.accept n r).log n = splice (a.log n) r := by simp [State.accept]
  have hother : ∀ m, m ≠ n → (a.accept n r).log m = a.log m := fun m hm => by
    simp [State.accept, hm]
  -- the leader of this term already holds `r`
  have hkeep : a.leader (a.term n) = some n → splice (a.log n) r = a.log n := fun hl =>
    splice_eq_left (h.leader_log n hl ▸ hr)
  exact
    { h with
      log_coh := fun m => by
        by_cases hm : m = n
        · subst hm; rw [hself]; exact h.coherent_splice hr
        · rw [hother m hm]; exact h.log_coh m
      log_le := fun m e he => by
        by_cases hm : m = n
        · subst hm
          rw [hself] at he
          by_cases hl : r <+: a.log m
          · rw [splice_eq_left hl] at he; exact h.log_le m e he
          · rw [splice_eq_right hl] at he; exact h.llog_le _ e (hr.subset he)
        · rw [hother m hm] at he; exact h.log_le m e he
      leader_log := fun m hm => by
        by_cases hmn : m = n
        · subst hmn; rw [hself, hkeep hm]; exact h.leader_log m hm
        · rw [hother m hmn]; exact h.leader_log m hm
      leader_acked := fun t c hc => by
        by_cases hct : c = n ∧ t = a.term n
        · obtain ⟨rfl, rfl⟩ := hct
          rw [acked_accept_self]
          have hle := hr.length_le
          have heq := h.leader_acked _ _ hc
          show max _ _ = (a.llog (a.term c)).length
          omega
        · exact (acked_accept_of_ne hct).trans (h.leader_acked t c hc)
      acked_le := fun m t => by
        by_cases hm : m = n ∧ t = a.term n
        · obtain ⟨rfl, rfl⟩ := hm
          rw [acked_accept_self]
          exact max_le (h.acked_le m _) hr.length_le
        · rw [acked_accept_of_ne hm]; exact h.acked_le m t
      acked_term := fun m t hpos => by
        by_cases hm : m = n ∧ t = a.term n
        · obtain ⟨rfl, rfl⟩ := hm; exact Nat.le_refl _
        · rw [acked_accept_of_ne hm] at hpos; exact h.acked_term m t hpos
      acked_log := fun m => by
        by_cases hm : m = n
        · subst hm
          show (a.llog (a.term m)).take ((a.accept m r).acked m (a.term m)) <+: _
          rw [acked_accept_self]
          rcases Nat.le_total (a.acked m (a.term m)) r.length with hle | hle
          · rw [max_eq_right hle, ← List.prefix_iff_eq_take.mp hr, hself]
            exact prefix_splice _ _
          · rw [max_eq_left hle]
            exact h.prefix_log_accept hr (fun _ => List.take_prefix _ _) (h.acked_log m)
        · show (a.llog (a.term m)).take ((a.accept n r).acked m (a.term m)) <+: _
          rw [acked_accept_of_ne (fun hc => hm hc.1), hother m hm]
          exact h.acked_log m
      commit_le := fun m => by
        have := (h.committed_prefix_accept hr m).length_le
        rwa [List.length_take, min_eq_left (h.commit_le m)] at this
      committed := fun m => by
        have hpre := h.committed_prefix_accept hr m
        have heq : ((a.accept n r).log m).take (a.commit m) = (a.log m).take (a.commit m) := by
          rw [List.prefix_iff_eq_take.mp hpre, List.length_take, min_eq_left (h.commit_le m)]
        show Committed Q (a.accept n r) (a.term m) (((a.accept n r).log m).take (a.commit m))
        rw [heq]
        exact (h.committed m).mono (Nat.le_refl _) (fun _ => List.prefix_rfl) acked_le_accept
      safe_llog := fun t p t' hp => h.safe_llog t p t' (choosable_of_accept hp)
      safe_ack := h.safe_ack_accept hr
      safe_vote := h.safe_vote_accept }

end Accept

/-! ## Committing -/

theorem Inv.commitTo (h : Inv Q a) {n : N} {m : Nat} (hm : m ≤ (a.log n).length)
    (hc : Committed Q a (a.term n) ((a.log n).take m)) : Inv Q (a.commitTo n m) :=
  { h with
    commit_le := fun k => by
      by_cases hk : k = n
      · subst hk; simpa [State.commitTo] using hm
      · simpa [State.commitTo, hk] using h.commit_le k
    committed := fun k => by
      show Committed Q a (a.term k) ((a.log k).take (Function.update a.commit n m k))
      by_cases hk : k = n
      · subst hk; simpa using hc
      · simpa [hk] using h.committed k }

/-- **Every step keeps the invariant.** -/
theorem Step.inv {a b : State N E} (hs : Step Q a b) (h : Inv Q a) : Inv Q b := by
  cases hs with
  | adopt n t ht => exact h.adopt ht
  | campaign n => exact h.campaign n
  | grant n c l hc hfree hup => exact h.grant hc hfree hup
  | elect c e hcand hnew he hA =>
    obtain ⟨A, hA, hall⟩ := hA
    exact h.elect hcand hnew he hA hall
  | write c e hc he => exact h.write hc he
  | accept n r hr => exact h.accept hr
  | commitTo n m _ hm hc => exact h.commitTo hm hc

theorem inv_of_reachable {a : State N E} (ha : (system Q).Reachable a) : Inv Q a :=
  ha.invariant (P := Inv Q) (fun _ h0 => (show _ = State.start from h0) ▸ inv_start)
    (fun _ _ _ h hs => Step.inv hs h)

end TermLog
