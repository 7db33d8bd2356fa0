import FiduciaBrain.Scheduler.Plan

/-!
# How many replicas a plan replaces

A plan fills up before it looks for a move, and the move may take out a replica of the set it has
just filled. `planReplicas_one_iff` says when a plan for a set with at most one replica gone drops no
other: the fill leaves no exchange worth making. `planReplicas_drops_two` is a plan that drops a
second one.
-/

namespace FiduciaBrain.Scheduler

open Infra

/-- The current replicas that a target does not have. -/
def dropped (current target : List NodeId) : List NodeId :=
  current.filter fun id => id ∉ target

/-- The current replicas that are no candidates any more. -/
def gone (current : List NodeId) (healthy : List NodeSlot) : List NodeId :=
  dropped current (ids healthy)

/-- The domains of the replicas that are kept, as the fill loop starts with them. -/
def keptDomains (current : List NodeId) (healthy : List NodeSlot) : List String :=
  ((kept current healthy).filterMap (slotOf healthy)).map (·.domain)

/-- The candidate that the first round of the fill loop takes. -/
def firstPick (current : List NodeId) (healthy : List NodeSlot) : Option NodeSlot :=
  minBy (fillOrder (keptDomains current healthy)) (spare current healthy)

/-- `c` in the place of the replica `v` at `i` widens the spread, or evens out the loads at the same
spread. -/
def Improves (healthy : List NodeSlot) (chosen : List NodeId) (i : Nat) (v : NodeId)
    (c : NodeSlot) : Prop :=
  domainCount chosen healthy < domainCount (chosen.set i c.nodeId) healthy ∨
    domainCount chosen healthy = domainCount (chosen.set i c.nodeId) healthy ∧
      c.load < loadFor healthy v

theorem worthwhile_trialSwap {healthy : List NodeSlot} {chosen : List NodeId} {i : Nat} {v : NodeId}
    {c : NodeSlot} :
    (trialSwap healthy chosen c v i).worthwhile = true ↔ Improves healthy chosen i v c := by
  rw [Swap.worthwhile_iff, Improves]
  simp only [trialSwap]
  omega

variable {current : List NodeId} {healthy : List NodeSlot} {rf : Nat}

/-! ## The pick stays -/

/-- Of the slots as fresh as itself, the pick has the least load. -/
theorem minBy_fillOrder_load {used : List String} {slots : List NodeSlot} {slot s : NodeSlot}
    (h : minBy (fillOrder used) slots = some slot) (hs : s ∈ slots)
    (hfresh : s.domain ∈ used ↔ slot.domain ∈ used) : slot.load ≤ s.load := by
  have hmax := fillKey_le_of_minBy h hs
  simp only [fillKey, Prod.Lex.toLex_le_toLex, OrderDual.toDual_lt_toDual,
    List.contains_eq_mem, hfresh, lt_irrefl, false_or, true_and] at hmax
  rcases hmax with hlt | ⟨heq, -⟩
  · exact hlt.le
  · exact (OrderDual.toDual_inj.mp heq).ge

theorem mem_keptDomains {d : String} :
    d ∈ keptDomains current healthy ↔ d ∈ domainsOf healthy (kept current healthy) := by
  simp [keptDomains, domainsOf]

/-- One more candidate adds its domain. -/
theorem domainCount_snoc (hid : (ids healthy).Nodup) {s : NodeSlot} (hs : s ∈ healthy)
    (chosen : List NodeId) : domainCount (chosen ++ [s.nodeId]) healthy =
      (insert s.domain (domainsOf healthy chosen)).card := by
  rw [domainCount, domainsOf, List.filterMap_append]
  congr 1
  ext d
  simp [slotOf_of_mem hid hs, domainsOf]

/-- **What the fill has just taken is not exchanged.** -/
theorem not_improves_pick (hid : (ids healthy).Nodup) {p c : NodeSlot}
    (hp : firstPick current healthy = some p) (hc : c ∈ spare current healthy) :
    ¬ Improves healthy (kept current healthy ++ [p.nodeId]) (kept current healthy).length
      p.nodeId c := by
  have hph : p ∈ healthy := (mem_spare.mp (minBy_mem hp)).1
  have hch : c ∈ healthy := (mem_spare.mp hc).1
  have hload : loadFor healthy p.nodeId = p.load := loadFor_of_mem hid hph
  have hset : (kept current healthy ++ [p.nodeId]).set (kept current healthy).length c.nodeId =
      kept current healthy ++ [c.nodeId] := by simp
  rw [Improves, hset, domainCount_snoc hid hph, domainCount_snoc hid hch, hload]
  by_cases hfresh : p.domain ∈ domainsOf healthy (kept current healthy)
  · -- the pick is in a used domain, so every candidate left is
    have hused : c.domain ∈ domainsOf healthy (kept current healthy) := by
      by_contra hnot
      exact minBy_fillOrder_fresh hp hc (mem_keptDomains.not.mpr hnot) (mem_keptDomains.mpr hfresh)
    have hle := minBy_fillOrder_load hp hc (by simp only [mem_keptDomains, hused, hfresh])
    rw [Finset.insert_eq_of_mem hfresh, Finset.insert_eq_of_mem hused]
    omega
  · rw [Finset.card_insert_of_notMem hfresh]
    by_cases hused : c.domain ∈ domainsOf healthy (kept current healthy)
    · rw [Finset.insert_eq_of_mem hused]
      omega
    · have hle := minBy_fillOrder_load hp hc (by simp only [mem_keptDomains, hused, hfresh])
      rw [Finset.card_insert_of_notMem hused]
      omega

/-! ## What is dropped -/

theorem dropped_set_le_one {l : List NodeId} (hl : l.Nodup) (i : Nat) (a : NodeId) :
    (dropped l (l.set i a)).length ≤ 1 := by
  have hsub : ∀ id ∈ dropped l (l.set i a), l[i]? = some id := by
    intro id hmem
    obtain ⟨hid, hnot⟩ := List.mem_filter.mp hmem
    obtain ⟨j, hj, rfl⟩ := List.mem_iff_getElem.mp hid
    rcases eq_or_ne i j with rfl | hne
    · exact List.getElem?_eq_getElem hj
    · refine absurd (List.mem_iff_getElem.mpr ⟨j, by simpa using hj, ?_⟩) (of_decide_eq_true hnot)
      rw [List.getElem_set_ne hne]
  have hnodup : (dropped l (l.set i a)).Nodup := hl.filter _
  cases hdrop : dropped l (l.set i a) with
  | nil => simp
  | cons x rest =>
    cases rest with
    | nil => simp
    | cons y rest =>
      rw [hdrop] at hsub hnodup
      have hx := hsub x (by simp)
      have hy := hsub y (by simp)
      rw [hx] at hy
      cases hy
      simp at hnodup

theorem length_kept_add_gone (current : List NodeId) (healthy : List NodeSlot) :
    (kept current healthy).length + (gone current healthy).length = current.length := by
  have hsum := List.length_eq_length_filter_add (l := current) fun id => (ids healthy).contains id
  simp only [kept, gone, dropped, hsum]
  congr 2
  refine List.filter_congr fun id _ => ?_
  simp

/-- A target that has all that is kept drops what is gone. -/
theorem dropped_eq_gone {target : List NodeId} (hkeeps : kept current healthy ⊆ target)
    (honly : ∀ id ∈ target, id ∈ ids healthy) : dropped current target = gone current healthy := by
  refine List.filter_congr fun id hid => ?_
  have hiff : id ∈ target ↔ id ∈ ids healthy :=
    ⟨honly id, fun h => hkeeps (mem_kept.mpr ⟨hid, h⟩)⟩
  simp [hiff]

/-- One replica missing: the fill makes one pick, and the move is looked for after it. -/
theorem planReplicas_one_missing (hlen : (kept current healthy).length + 1 = rf) :
    planReplicas current healthy rf = match firstPick current healthy with
      | none => kept current healthy
      | some p => rebalance healthy rf (kept current healthy ++ [p.nodeId])
          ((spare current healthy).erase p) := by
  have hmissing : rf - (kept current healthy).length = 1 := by omega
  cases hp : firstPick current healthy with
  | none =>
    have hspare : spare current healthy = [] := minBy_eq_none.mp hp
    simp only [planReplicas, hmissing, fill, hspare]
    show rebalance healthy rf (trimToRf healthy rf (kept current healthy)) [] = _
    rw [trimToRf_of_le (by omega), rebalance, if_neg (by simp)]
  | some p =>
    have hpick : minBy (fillOrder (((kept current healthy).filterMap (slotOf healthy)).map (·.domain)))
        (spare current healthy) = some p := hp
    simp only [planReplicas, hmissing, fill, hpick]
    rw [trimToRf_of_le (by simp [hlen])]

/-- A kept replica that is exchanged is dropped beside the one that is gone. -/
theorem two_le_dropped (hcurrent : current.Nodup) {p c : NodeSlot}
    (hp : firstPick current healthy = some p) (hc : c ∈ spare current healthy) {i : Nat} {v : NodeId}
    (hv : (kept current healthy)[i]? = some v) (hgone : (gone current healthy).length = 1)
    (honly : ∀ id ∈ (kept current healthy ++ [p.nodeId]).set i c.nodeId, id ∈ ids healthy) :
    2 ≤ (dropped current ((kept current healthy ++ [p.nodeId]).set i c.nodeId)).length := by
  obtain ⟨hi, rfl⟩ := List.getElem?_eq_some_iff.mp hv
  have hkept : (kept current healthy)[i] ∈ kept current healthy := List.getElem_mem hi
  have hchosen : (kept current healthy ++ [p.nodeId]).Nodup := by
    refine List.nodup_append.mpr ⟨hcurrent.filter _, List.nodup_singleton _, ?_⟩
    rintro x hx y hy rfl
    rw [List.mem_singleton.mp hy] at hx
    exact (mem_spare.mp (minBy_mem hp)).2 (mem_kept.mp hx).1
  have hout : (kept current healthy)[i] ∉ (kept current healthy ++ [p.nodeId]).set i c.nodeId := by
    intro hmem
    obtain ⟨j, hj, heq⟩ := List.mem_iff_getElem.mp hmem
    rcases eq_or_ne i j with rfl | hne
    · rw [List.getElem_set_self] at heq
      exact (mem_spare.mp hc).2 (heq ▸ (mem_kept.mp hkept).1)
    · rw [List.getElem_set_ne hne] at heq
      have hi' : i < (kept current healthy ++ [p.nodeId]).length := by simp; omega
      have hleft : (kept current healthy ++ [p.nodeId])[i] = (kept current healthy)[i] :=
        List.getElem_append_left hi
      have heq' := heq.trans hleft.symm
      exact hne (hchosen.getElem_inj_iff.mp heq').symm
  have hcons : ((kept current healthy)[i] :: gone current healthy).Nodup := by
    refine List.nodup_cons.mpr ⟨fun h => ?_, hcurrent.filter _⟩
    exact of_decide_eq_true (List.mem_filter.mp h).2 (mem_kept.mp hkept).2
  have hsub : (kept current healthy)[i] :: gone current healthy ⊆
      dropped current ((kept current healthy ++ [p.nodeId]).set i c.nodeId) := by
    refine List.cons_subset.mpr ⟨?_, fun id hid => ?_⟩
    · exact List.mem_filter.mpr ⟨(mem_kept.mp hkept).1, decide_eq_true hout⟩
    · obtain ⟨hmem, hnot⟩ := List.mem_filter.mp hid
      exact List.mem_filter.mpr
        ⟨hmem, decide_eq_true fun h => of_decide_eq_true hnot (honly id h)⟩
  have hle := (hcons.subperm hsub).length_le
  rwa [List.length_cons, hgone] at hle

/-- No exchange of a kept replica for another candidate is worth making after the first pick. -/
def Quiet (current : List NodeId) (healthy : List NodeSlot) : Prop :=
  ∀ p, firstPick current healthy = some p → ∀ c ∈ spare current healthy, c ≠ p →
    ∀ i v, (kept current healthy)[i]? = some v →
      ¬ Improves healthy (kept current healthy ++ [p.nodeId]) i v c

/-- With one replica gone, the plan drops it alone exactly when nothing more is worth exchanging. -/
theorem dropped_le_one_iff_quiet (hcurrent : current.Nodup) (hlen : current.length = rf)
    (hid : (ids healthy).Nodup) (hgone : (gone current healthy).length = 1) :
    (dropped current (planReplicas current healthy rf)).length ≤ 1 ↔ Quiet current healthy := by
  have hone : (kept current healthy).length + 1 = rf := by
    have := length_kept_add_gone current healthy
    omega
  have hplan := planReplicas_one_missing hone
  have honly : ∀ id ∈ planReplicas current healthy rf, id ∈ ids healthy := fun id h =>
    mem_ids_of_mem_planReplicas h
  have hnodup : (planReplicas current healthy rf).Nodup := nodup_planReplicas hid hcurrent
  cases hp : firstPick current healthy with
  | none =>
    rw [hp] at hplan
    have hdrop := dropped_eq_gone (by rw [hplan]; exact List.Subset.refl _) honly
    rw [hdrop]
    exact iff_of_true hgone.le fun p h => nomatch hp.symm.trans h
  | some p =>
    rw [hp] at hplan
    simp only at hplan
    rcases rebalance_cases healthy rf (kept current healthy ++ [p.nodeId])
      ((spare current healthy).erase p) with ⟨heq, hnone⟩ | ⟨_, best, hbest, _, heq⟩
    · rw [heq] at hplan
      have hdrop := dropped_eq_gone (by rw [hplan]; exact List.subset_append_left _ _) honly
      rw [hdrop]
      refine iff_of_true hgone.le ?_
      intro q hq c hc hne i v hi himp
      cases hp.symm.trans hq
      have hswap : trialSwap healthy (kept current healthy ++ [p.nodeId]) c v i ∈ swaps healthy
          (kept current healthy ++ [p.nodeId]) ((spare current healthy).erase p) := by
        refine mem_swaps.mpr ⟨c, (List.mem_erase_of_ne hne).mpr hc, i, v, ?_, rfl,
          worthwhile_trialSwap.mpr himp⟩
        rw [List.getElem?_append_left (List.getElem?_eq_some_iff.mp hi).1]
        exact hi
      rw [hnone (by simp [hone])] at hswap
      cases hswap
    · rw [heq] at hplan
      obtain ⟨c, hc, i, v, hi, rfl, hw⟩ := mem_swaps.mp hbest
      have himp := worthwhile_trialSwap.mp hw
      have hspare : (spare current healthy).Nodup := (List.Nodup.of_map _ hid).filter _
      obtain ⟨hne, hc⟩ := hspare.mem_erase_iff.mp hc
      have hkept : (kept current healthy)[i]? = some v := by
        rcases Nat.lt_or_ge i (kept current healthy).length with hlt | hge
        · rwa [List.getElem?_append_left hlt] at hi
        · have hlt := (List.getElem?_eq_some_iff.mp hi).1
          have heq : i = (kept current healthy).length := by
            simp only [List.length_append, List.length_cons, List.length_nil] at hlt
            omega
          subst heq
          have hv : p.nodeId = v := by simpa using hi
          exact absurd (hv ▸ himp) (not_improves_pick hid hp hc)
      refine iff_of_false (fun hle => ?_) fun hquiet => hquiet p hp c hc hne i v hkept himp
      have htwo := two_le_dropped hcurrent hp hc hkept hgone (hplan ▸ honly)
      have hsame : dropped current (planReplicas current healthy rf) = dropped current
          ((kept current healthy ++ [p.nodeId]).set i c.nodeId) := congrArg (dropped current) hplan
      rw [hsame] at hle
      omega

/-- **A plan for a full set with at most one replica gone drops one replica at most, exactly when
the fill leaves no exchange worth making.** -/
theorem planReplicas_one_iff (hcurrent : current.Nodup) (hlen : current.length = rf)
    (hid : (ids healthy).Nodup) (hgone : (gone current healthy).length ≤ 1) :
    (dropped current (planReplicas current healthy rf)).length ≤ 1 ↔
      (∀ id ∈ current, id ∈ ids healthy) ∨ Quiet current healthy := by
  rcases Nat.le_one_iff_eq_zero_or_eq_one.mp hgone with hzero | hone
  · have hall : ∀ id ∈ current, id ∈ ids healthy := by
      intro id hmem
      by_contra hnot
      have hin : id ∈ gone current healthy := List.mem_filter.mpr ⟨hmem, by simpa using hnot⟩
      rw [List.eq_nil_of_length_eq_zero hzero] at hin
      cases hin
    refine iff_of_true ?_ (Or.inl hall)
    rw [planReplicas_settled hall (Or.inl hlen)]
    rcases rebalance_cases healthy rf current (spare current healthy) with
      ⟨heq, _⟩ | ⟨_, best, _, _, heq⟩
    · rw [heq]
      have hnone : dropped current current = [] :=
        List.filter_eq_nil_iff.mpr fun id hmem => by simpa using hmem
      simp [hnone]
    · rw [heq]
      exact dropped_set_le_one hcurrent _ _
  · rw [dropped_le_one_iff_quiet hcurrent hlen hid hone]
    refine ⟨Or.inr, fun h => h.resolve_left fun hall => ?_⟩
    have hnil : gone current healthy = [] :=
      List.filter_eq_nil_iff.mpr fun id hmem => by simpa using hall id hmem
    rw [hnil] at hone
    cases hone

/-- Node `c` is taken for the replica that is gone, and `d` then takes over the place of `a`. -/
def crowded : List NodeSlot :=
  [{ nodeId := "a", domain := "1", load := 9 }, { nodeId := "b", domain := "2", load := 0 },
    { nodeId := "c", domain := "3", load := 0 }, { nodeId := "d", domain := "1", load := 1 }]

/-- The same with more load on `d` than on `a`. -/
def crowdedElsewhere : List NodeSlot :=
  crowded.map fun slot => if slot.nodeId = "d" then { slot with load := 12 } else slot

/-- Then `d` is not worth an exchange, and `x` alone is dropped. -/
theorem planReplicas_one_iff_elsewhere :
    (dropped ["a", "b", "x"] (planReplicas ["a", "b", "x"] crowdedElsewhere 3)).length ≤ 1 := by
  refine (planReplicas_one_iff (by decide) rfl (by decide) (by decide)).mpr (Or.inr ?_)
  have hpick : firstPick ["a", "b", "x"] crowdedElsewhere = some ⟨"c", "3", 0⟩ := by decide
  have hspare :
      spare ["a", "b", "x"] crowdedElsewhere = [⟨"c", "3", 0⟩, ⟨"d", "1", 12⟩] := by decide
  have hkept : kept ["a", "b", "x"] crowdedElsewhere = ["a", "b"] := by decide
  intro p hp c hc hne i v hv
  rw [hpick] at hp
  cases hp
  rw [hspare] at hc
  rw [hkept] at hv ⊢
  obtain rfl : c = ⟨"d", "1", 12⟩ := by simpa [hne] using hc
  rw [← worthwhile_trialSwap]
  rcases i with _ | _ | i
  · cases hv
    decide
  · cases hv
    decide
  · cases hv

/-- **A plan for a set with one replica gone drops a healthy replica as well.** -/
theorem planReplicas_drops_two :
    ["a", "b", "x"].Nodup ∧ (ids crowded).Nodup ∧ 3 ≤ crowded.length ∧
    gone ["a", "b", "x"] crowded = ["x"] ∧ planReplicas ["a", "b", "x"] crowded 3 = ["d", "b", "c"] ∧
    dropped ["a", "b", "x"] (planReplicas ["a", "b", "x"] crowded 3) = ["a", "x"] := by
  decide +kernel

end FiduciaBrain.Scheduler
