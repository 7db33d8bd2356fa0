import FiduciaBrain.Membership.Run
import FiduciaBrain.Text

/-!
# The stored failure domain

A record's domain should be what the node's reports say of it: the last domain one of them named, or
else the one derived from where the node is. `heartbeat` keeps to that as long as the domains in the
reports are not blank and the first report says where the node is; `reflects_iff` has the exact
condition.

* a report whose domain is blank but not empty passes the test `!failure_domain.is_empty()` and
  overwrites the domain that an earlier one named
* a domain once derived is never derived again
-/

namespace FiduciaBrain.Membership

variable {config : MembershipConfig} {nodeId : NodeId}

/-! ## What the accepted reports say -/

/-- The last non-empty value, which is what a record keeps of a field. -/
def lastNonEmpty (values : List String) : String := (values.filter (!·.isEmpty)).getLastD ""

/-- The domain derived from what the reports say of where the node is. -/
def derivedDomain (nodeId : NodeId) (got : List HeartbeatReport) : String :=
  normalizedFailureDomainFromParts (lastNonEmpty (got.map (·.cloudProvider)))
    (lastNonEmpty (got.map (·.region))) (lastNonEmpty (got.map (·.clusterId))) nodeId

/-- The last domain that is not blank. -/
def lastNamed (got : List HeartbeatReport) : Option String :=
  ((got.map (·.failureDomain)).filter fun d => !(trim d).isEmpty).getLast?

/-- **The record's domain reflects the accepted reports.** -/
structure Reflects (nodeId : NodeId) (got : List HeartbeatReport) (info : NodeInfo) : Prop where
  nonempty : info.failureDomain ≠ ""
  named : ∀ d, lastNamed got = some d → info.failureDomain = toAsciiLowercase (trim d)
  derived : lastNamed got = none →
    info.failureDomain =
      normalizedFailureDomainFromParts info.cloudProvider info.region info.clusterId nodeId

/-- A node that named no domain and is known to be nowhere is its own domain. -/
theorem Reflects.own {got : List HeartbeatReport} {info : NodeInfo} (h : Reflects nodeId got info)
    (hnamed : lastNamed got = none)
    (hnowhere : Nowhere info.cloudProvider info.region info.clusterId) :
    info.failureDomain = nodeId :=
  (h.derived hnamed).trans (normalizedFailureDomainFromParts_of_nowhere hnowhere nodeId)

/-- Two nodes that named no domain and are known to be at one place are in one domain. -/
theorem Reflects.shared {other : NodeId} {got got' : List HeartbeatReport} {info info' : NodeInfo}
    (h : Reflects nodeId got info) (h' : Reflects other got' info') (hnamed : lastNamed got = none)
    (hnamed' : lastNamed got' = none)
    (hsomewhere : ¬ Nowhere info.cloudProvider info.region info.clusterId)
    (hcloud : info.cloudProvider = info'.cloudProvider) (hregion : info.region = info'.region)
    (hcluster : info.clusterId = info'.clusterId) : info.failureDomain = info'.failureDomain := by
  rw [h.derived hnamed, h'.derived hnamed', ← hcloud, ← hregion, ← hcluster]
  exact (normalizedFailureDomainFromParts_of_somewhere hsomewhere nodeId).2 other

/-! ## The accepted reports of a run -/

/-- A node's record and the reports accepted since the node was registered. -/
def track (config : MembershipConfig) (nodeId : NodeId)
    (s : Option NodeInfo × List HeartbeatReport) (e : Event) :
    Option NodeInfo × List HeartbeatReport :=
  (recordStep config nodeId s.1 e,
    match e with
    | .heartbeat _ _ report =>
      if s.1.any fun info => Stale report info.lastSeq then s.2 else s.2 ++ [report]
    | .forget _ => []
    | _ => s.2)

/-- The reports of a node that a run accepts, since the node was registered. -/
def accepted (config : MembershipConfig) (nodeId : NodeId) (events : List Event) :
    List HeartbeatReport :=
  ((events.filter (·.concerns nodeId)).foldl (track config nodeId) (none, [])).2

theorem track_fst (events : List Event) (s : Option NodeInfo × List HeartbeatReport) :
    (events.foldl (track config nodeId) s).1 = events.foldl (recordStep config nodeId) s.1 :=
  (List.foldl_hom Prod.fst fun _ _ => rfl).symm

/-! ## The domain that a run of reports settles -/

/-- The reports up to the last one with a domain in it. -/
def labelled (got : List HeartbeatReport) : List HeartbeatReport :=
  got.rdropWhile (·.failureDomain.isEmpty)

/-- The reports after it. -/
def unlabelled (got : List HeartbeatReport) : List HeartbeatReport :=
  got.rtakeWhile (·.failureDomain.isEmpty)

/-- The domain of a record, from the reports alone: what the last report with a domain in it makes
of the domain, and when that is nothing, what is derived at the report after it. -/
def settledDomain (nodeId : NodeId) (got : List HeartbeatReport) : String :=
  let last := ((labelled got).getLast?.map normalizedFailureDomain).getD ""
  if last ≠ "" then last
  else
    match (unlabelled got).head? with
    | none => ""
    | some next => derivedDomain nodeId (labelled got ++ [next])

theorem lastNonEmpty_concat (values : List String) (value : String) :
    lastNonEmpty (values ++ [value]) = if value.isEmpty then lastNonEmpty values else value := by
  unfold lastNonEmpty
  rw [List.filter_append]
  cases h : value.isEmpty with
  | true => rw [List.filter_cons_of_neg (by simp [h]), List.filter_nil, List.append_nil, if_pos rfl]
  | false =>
    rw [List.filter_cons_of_pos (by simp [h]), List.filter_nil, List.getLastD_concat,
      if_neg (by simp)]

theorem derivedDomain_ne_empty (hid : nodeId ≠ "") (got : List HeartbeatReport) :
    derivedDomain nodeId got ≠ "" := by
  unfold derivedDomain
  by_cases h : Nowhere (lastNonEmpty (got.map (·.cloudProvider)))
    (lastNonEmpty (got.map (·.region))) (lastNonEmpty (got.map (·.clusterId)))
  · rw [normalizedFailureDomainFromParts_of_nowhere h]
    exact hid
  · exact (normalizedFailureDomainFromParts_of_somewhere h nodeId).1

/-- **What the next report does to the settled domain**, which is what `refresh` does to the stored
one. -/
theorem settledDomain_concat (hid : nodeId ≠ "") (got : List HeartbeatReport)
    (report : HeartbeatReport) :
    settledDomain nodeId (got ++ [report]) =
      if !report.failureDomain.isEmpty then normalizedFailureDomain report
      else if (settledDomain nodeId got).isEmpty then derivedDomain nodeId (got ++ [report])
      else settledDomain nodeId got := by
  cases h : report.failureDomain.isEmpty with
  | false =>
    have hlabelled : labelled (got ++ [report]) = got ++ [report] :=
      List.rdropWhile_concat_neg _ _ _ (by simp [h])
    have hrest : unlabelled (got ++ [report]) = [] :=
      List.rtakeWhile_concat_neg _ _ _ (by simp [h])
    rw [settledDomain, hlabelled, hrest, List.getLast?_concat, Option.map_some, Option.getD_some]
    simp
  | true =>
    have hlabelled : labelled (got ++ [report]) = labelled got :=
      List.rdropWhile_concat_pos _ _ _ h
    have hrest : unlabelled (got ++ [report]) = unlabelled got ++ [report] :=
      List.rtakeWhile_concat_pos _ _ _ h
    have hsplit : labelled got ++ unlabelled got = got := List.rdropWhile_append_rtakeWhile
    simp only [settledDomain, hlabelled, hrest]
    rw [if_neg (by simp : ¬(!true) = true)]
    by_cases hlast : ((labelled got).getLast?.map normalizedFailureDomain).getD "" = ""
    · -- nothing is stored after the last domain, so the report after it derives one
      simp only [hlast, ne_eq, not_true_eq_false, if_false]
      cases hun : unlabelled got with
      | nil =>
        rw [hun, List.append_nil] at hsplit
        simp [hsplit]
      | cons next rest =>
        have hne : (derivedDomain nodeId (labelled got ++ [next])).isEmpty = false := by
          simpa using derivedDomain_ne_empty hid _
        simp [hne]
    · -- the stored domain is not empty, and an empty one leaves it as it is
      have hne : (((labelled got).getLast?.map normalizedFailureDomain).getD "").isEmpty = false := by
        simpa using hlast
      simp only [ne_eq, hlast, not_false_eq_true, if_true, hne, Bool.false_eq_true, if_false]

/-! ## The record follows the reports -/

/-- Where the record says the node is, and in which domain, is what the reports make of it. -/
structure Follows (nodeId : NodeId) (got : List HeartbeatReport) (info : NodeInfo) : Prop where
  cloudProvider : info.cloudProvider = lastNonEmpty (got.map (·.cloudProvider))
  region : info.region = lastNonEmpty (got.map (·.region))
  clusterId : info.clusterId = lastNonEmpty (got.map (·.clusterId))
  failureDomain : info.failureDomain = settledDomain nodeId got

theorem derivedDomain_concat (got : List HeartbeatReport) (report : HeartbeatReport) :
    derivedDomain nodeId (got ++ [report]) =
      normalizedFailureDomainFromParts
        (if report.cloudProvider.isEmpty then lastNonEmpty (got.map (·.cloudProvider))
          else report.cloudProvider)
        (if report.region.isEmpty then lastNonEmpty (got.map (·.region)) else report.region)
        (if report.clusterId.isEmpty then lastNonEmpty (got.map (·.clusterId))
          else report.clusterId) nodeId := by
  simp only [derivedDomain, List.map_append, List.map_cons, List.map_nil, lastNonEmpty_concat]

theorem follows_refresh (hid : nodeId ≠ "") {got : List HeartbeatReport} {entry : NodeInfo}
    (h : Follows nodeId got entry) (nowMs : Nat) (report : HeartbeatReport) :
    Follows nodeId (got ++ [report]) (refresh entry nodeId nowMs report) where
  cloudProvider := by
    simp only [refresh, h.cloudProvider, List.map_append, List.map_cons, List.map_nil,
      lastNonEmpty_concat]
  region := by
    simp only [refresh, h.region, List.map_append, List.map_cons, List.map_nil, lastNonEmpty_concat]
  clusterId := by
    simp only [refresh, h.clusterId, List.map_append, List.map_cons, List.map_nil,
      lastNonEmpty_concat]
  failureDomain := by
    rw [settledDomain_concat hid, derivedDomain_concat]
    simp only [refresh, h.cloudProvider, h.region, h.clusterId, h.failureDomain]

/-- A new node starts with what its first report says. -/
theorem follows_new (hid : nodeId ≠ "") (nowMs : Nat) (report : HeartbeatReport) :
    Follows nodeId [report] (refresh (newNode nodeId nowMs report) nodeId nowMs report) := by
  have hone : ∀ value : String, lastNonEmpty [value] = value := fun value => by
    have h := lastNonEmpty_concat [] value
    cases hv : value.isEmpty with
    | false => simpa [hv] using h
    | true => simp_all [lastNonEmpty]
  have hderived : derivedDomain nodeId [report]
      = normalizedFailureDomainFromParts report.cloudProvider report.region report.clusterId
          nodeId := by
    simp only [derivedDomain, List.map_cons, List.map_nil, hone]
  refine ⟨?_, ?_, ?_, ?_⟩
  · simp [refresh, newNode, hone]
  · simp [refresh, newNode, hone]
  · simp [refresh, newNode, hone]
  · have hsettled := settledDomain_concat hid [] report
    rw [List.nil_append, hderived] at hsettled
    have hnil : (settledDomain nodeId []).isEmpty = true := by rfl
    rw [hsettled, hnil]
    cases hfd : report.failureDomain.isEmpty with
    | false => simp [refresh, hfd]
    | true =>
      have hnorm := normalizedFailureDomain_of_blank
        (by rw [String.isEmpty_iff.mp hfd, trim_empty] : trim report.failureDomain = "")
      -- the domain is derived twice, without a node id in `newNode` and with one in `refresh`
      simp only [refresh, newNode, hfd, hnorm, ite_self]
      by_cases hw : Nowhere report.cloudProvider report.region report.clusterId
      · simp [normalizedFailureDomainFromParts_of_nowhere hw]
      · have heq := (normalizedFailureDomainFromParts_of_somewhere hw "").2
        simp [heq nodeId]

/-- Sweeps and drains write neither the domain nor what it comes from. -/
theorem Follows.congr_health {got : List HeartbeatReport} {info : NodeInfo}
    (h : Follows nodeId got info) (health : NodeHealth) :
    Follows nodeId got { info with health := health } := { h with }

theorem Follows.sweepNode {got : List HeartbeatReport} {info : NodeInfo}
    (h : Follows nodeId got info) (oracle : NodeId → PodLiveness) (nowMs : Nat) :
    Follows nodeId got (sweepNode config oracle nowMs info) := by
  unfold Membership.sweepNode
  split
  · exact h
  · exact h.congr_health _

/-- What a run keeps true of a record and the reports accepted for it. -/
structure Tracked (nodeId : NodeId) (s : Option NodeInfo × List HeartbeatReport) : Prop where
  unknown : s.1 = none → s.2 = []
  known : ∀ info, s.1 = some info → Follows nodeId s.2 info

theorem Tracked.of_known {info : NodeInfo} {got : List HeartbeatReport}
    (h : Follows nodeId got info) : Tracked nodeId (some info, got) where
  unknown h' := nomatch h'
  known info' h' := by
    cases h'
    exact h

theorem tracked_none : Tracked nodeId (none, []) where
  unknown _ := rfl
  known _ h := nomatch h

theorem tracked_track (hid : nodeId ≠ "") {s : Option NodeInfo × List HeartbeatReport}
    (h : Tracked nodeId s) (e : Event) : Tracked nodeId (track config nodeId s e) := by
  obtain ⟨record, got⟩ := s
  cases record with
  | none =>
    obtain rfl : got = [] := h.unknown rfl
    cases e with
    | heartbeat id nowMs report => exact .of_known (follows_new hid nowMs report)
    | sweep oracle nowMs => exact tracked_none
    | drain id => exact tracked_none
    | forget id => exact tracked_none
  | some info =>
    have hfollows := h.known info rfl
    cases e with
    | heartbeat id nowMs report =>
      by_cases hstale : Stale report info.lastSeq
      · simp only [track, recordStep, heard_of_stale hstale, Option.any_some,
          decide_eq_true hstale, if_true]
        exact .of_known hfollows
      · simp only [track, recordStep, heard_of_fresh hstale, Option.any_some,
          decide_eq_false hstale, Bool.false_eq_true, if_false]
        exact .of_known (follows_refresh hid hfollows nowMs report)
    | sweep oracle nowMs => exact .of_known (hfollows.sweepNode oracle nowMs)
    | drain id => exact .of_known (hfollows.congr_health _)
    | forget id => exact tracked_none

/-- **A node's record follows the reports accepted from it.** -/
theorem follows_run (hid : nodeId ≠ "") (events : List Event) {info : NodeInfo}
    (hinfo : (new.run config events).nodes[nodeId]? = some info) :
    Follows nodeId (accepted config nodeId events) info := by
  have htracked : ∀ l : List Event,
      Tracked nodeId (l.foldl (track config nodeId) (none, [])) := fun l => by
    induction l using List.reverseRecOn with
    | nil => exact tracked_none
    | append_singleton l e ih =>
      rw [List.foldl_append]
      exact tracked_track hid ih e
  refine (htracked (events.filter (·.concerns nodeId))).known info ?_
  rw [track_fst, ← hinfo, getElem?_run]
  simp [new]

/-! ## When the record reflects the reports -/

/-- What the domain should be. -/
def wantedDomain (nodeId : NodeId) (got : List HeartbeatReport) : String :=
  ((lastNamed got).map fun d => toAsciiLowercase (trim d)).getD (derivedDomain nodeId got)

/-- **The condition.** The last report with a domain in it names one; or there is no such report and
the first report places the node where it is known to be now; or that domain is blank and what the
report itself, or if it says nothing the report after it, makes of the domain is what it should be
all the same. -/
def Timely (nodeId : NodeId) (got : List HeartbeatReport) : Prop :=
  match (labelled got).getLast? with
  | none => ∃ first ∈ got.head?, derivedDomain nodeId [first] = derivedDomain nodeId got
  | some last =>
    trim last.failureDomain ≠ "" ∨
      if Nowhere last.cloudProvider last.region last.clusterId then
        ∃ next ∈ (unlabelled got).head?,
          derivedDomain nodeId (labelled got ++ [next]) = wantedDomain nodeId got
      else
        normalizedFailureDomainFromParts last.cloudProvider last.region last.clusterId nodeId
          = wantedDomain nodeId got

theorem trim_ne_empty_of_lastNamed {got : List HeartbeatReport} {d : String}
    (h : lastNamed got = some d) : trim d ≠ "" := by
  have hmem := List.mem_of_getLast? h
  simpa using (List.mem_filter.mp hmem).2

theorem wantedDomain_ne_empty (hid : nodeId ≠ "") (got : List HeartbeatReport) :
    wantedDomain nodeId got ≠ "" := by
  unfold wantedDomain
  cases h : lastNamed got with
  | none =>
    rw [Option.map_none, Option.getD_none]
    exact derivedDomain_ne_empty hid got
  | some d =>
    rw [Option.map_some, Option.getD_some, ne_eq, toAsciiLowercase_eq_empty_iff]
    exact trim_ne_empty_of_lastNamed h

/-- A report without a domain names none. -/
theorem lastNamed_append_of_empty {got rest : List HeartbeatReport}
    (h : ∀ r ∈ rest, r.failureDomain = "") : lastNamed (got ++ rest) = lastNamed got := by
  have hnil : (rest.map (·.failureDomain)).filter (fun d => !(trim d).isEmpty) = [] := by
    simp only [List.filter_eq_nil_iff, List.mem_map]
    rintro d ⟨r, hr, rfl⟩
    simp [h r hr]
  unfold lastNamed
  rw [List.map_append, List.filter_append, hnil, List.append_nil]

theorem lastNamed_eq_labelled (got : List HeartbeatReport) :
    lastNamed got = lastNamed (labelled got) := by
  have hsplit : labelled got ++ unlabelled got = got := List.rdropWhile_append_rtakeWhile
  have hempty : ∀ r ∈ unlabelled got, r.failureDomain = "" := fun r hr =>
    String.isEmpty_iff.mp
      (List.mem_rtakeWhile_imp (p := fun r : HeartbeatReport => r.failureDomain.isEmpty) hr)
  have happend : lastNamed (labelled got ++ unlabelled got) = lastNamed (labelled got) :=
    lastNamed_append_of_empty hempty
  rwa [hsplit] at happend

theorem lastNamed_of_named {got : List HeartbeatReport} {last : HeartbeatReport}
    (hlast : (labelled got).getLast? = some last) (h : trim last.failureDomain ≠ "") :
    lastNamed got = some last.failureDomain := by
  obtain ⟨older, holder⟩ := List.getLast?_eq_some_iff.mp hlast
  rw [lastNamed_eq_labelled, holder, lastNamed, List.map_append, List.filter_append,
    List.map_cons, List.map_nil, List.filter_cons_of_pos (by simpa using h), List.filter_nil,
    List.getLast?_concat]

theorem wantedDomain_of_unnamed {got : List HeartbeatReport} (h : labelled got = []) :
    wantedDomain nodeId got = derivedDomain nodeId got := by
  have hnone : lastNamed got = none := by
    rw [lastNamed_eq_labelled, h]
    simp only [lastNamed, List.map_nil, List.filter_nil, List.getLast?_nil]
  rw [wantedDomain, hnone, Option.map_none, Option.getD_none]

/-- **The condition says when the settled domain is the wanted one.** -/
theorem timely_iff (hid : nodeId ≠ "") (got : List HeartbeatReport) :
    Timely nodeId got ↔ settledDomain nodeId got = wantedDomain nodeId got := by
  have hne := wantedDomain_ne_empty hid got
  have hsplit : labelled got ++ unlabelled got = got := List.rdropWhile_append_rtakeWhile
  unfold Timely settledDomain
  cases hlast : (labelled got).getLast? with
  | none =>
    have hnil : labelled got = [] := List.getLast?_eq_none_iff.mp hlast
    rw [hnil, List.nil_append] at hsplit
    rw [wantedDomain_of_unnamed hnil, hsplit, hnil]
    simp only [Option.map_none, Option.getD_none, ne_eq, not_true_eq_false, if_false,
      List.nil_append]
    cases got.head? with
    | none =>
      rw [wantedDomain_of_unnamed hnil] at hne
      simp [Ne.symm hne]
    | some first => simp
  | some last =>
    simp only [Option.map_some, Option.getD_some]
    by_cases hnamed : trim last.failureDomain = ""
    · rw [normalizedFailureDomain_of_blank hnamed]
      by_cases hw : Nowhere last.cloudProvider last.region last.clusterId
      · -- the blank domain is stored as "", which the report after it fills
        rw [normalizedFailureDomainFromParts_of_nowhere hw ""]
        simp only [hnamed, ne_eq, not_true_eq_false, false_or, hw, if_true, if_false]
        cases (unlabelled got).head? with
        | none => simp [Ne.symm hne]
        | some next => simp
      · -- it is stored as what its own report says of the place, and stays
        obtain ⟨hsome, hany⟩ := normalizedFailureDomainFromParts_of_somewhere hw ""
        rw [if_neg hw, if_pos hsome, hany nodeId]
        simp [hnamed]
    · have hwanted : wantedDomain nodeId got = toAsciiLowercase (trim last.failureDomain) := by
        rw [wantedDomain, lastNamed_of_named hlast hnamed, Option.map_some, Option.getD_some]
      have hlower : toAsciiLowercase (trim last.failureDomain) ≠ "" :=
        mt toAsciiLowercase_eq_empty_iff.mp hnamed
      rw [normalizedFailureDomain_of_named hnamed, if_pos hlower, hwanted]
      simp [hnamed]

/-- **A record's domain reflects the reports accepted for it exactly when the condition holds.** -/
theorem reflects_iff (hid : nodeId ≠ "") (events : List Event) {info : NodeInfo}
    (hinfo : (new.run config events).nodes[nodeId]? = some info) :
    Reflects nodeId (accepted config nodeId events) info ↔
      Timely nodeId (accepted config nodeId events) := by
  have hfollows := follows_run hid events hinfo
  generalize accepted config nodeId events = got at hfollows ⊢
  have hderived : derivedDomain nodeId got =
      normalizedFailureDomainFromParts info.cloudProvider info.region info.clusterId nodeId := by
    rw [derivedDomain, hfollows.cloudProvider, hfollows.region, hfollows.clusterId]
  rw [timely_iff hid, ← hfollows.failureDomain]
  constructor
  · intro h
    cases hnamed : lastNamed got with
    | none =>
      rw [wantedDomain, hnamed, Option.map_none, Option.getD_none, hderived]
      exact h.derived hnamed
    | some d =>
      rw [wantedDomain, hnamed, Option.map_some, Option.getD_some]
      exact h.named d hnamed
  · intro h
    refine ⟨h ▸ wantedDomain_ne_empty hid got, fun d hnamed => ?_, fun hnamed => ?_⟩
    · rw [h, wantedDomain, hnamed, Option.map_some, Option.getD_some]
    · rw [h, wantedDomain, hnamed, Option.map_none, Option.getD_none, hderived]

/-- A report of where a node is and of its domain. -/
def placeReport (cloudProvider region failureDomain : String) : HeartbeatReport where
  address := "10.0.0.1:8090"
  cloudProvider := cloudProvider
  region := region
  clusterId := ""
  failureDomain := failureDomain
  hostedShards := []
  leadingShards := []
  seq := 0

/-- The node names its domain and then sends a blank one. -/
def blanked : List Event :=
  [.heartbeat "a" 0 (placeReport "" "" "rack-1"), .heartbeat "a" 1 (placeReport "" "" " ")]

/-- The node says where it is in its second report. -/
def placedLate : List Event :=
  [.heartbeat "a" 0 (placeReport "" "" ""), .heartbeat "a" 1 (placeReport "aws" "us-east-1" "")]

/-- The record of the only node, "a", after the run. -/
def recordAfter (events : List Event) : NodeInfo :=
  ((events.foldl (recordStep ⟨10, 20⟩ "a") none).getD (newNode "a" 0 (placeReport "" "" "")))

/-- After the blank one the node names a domain again. -/
def renamed : List Event := blanked ++ [.heartbeat "a" 2 (placeReport "aws" "us-east-1" "Rack-2")]

theorem reflects_iff_renamed :
    Reflects "a" (accepted ⟨10, 20⟩ "a" renamed) (recordAfter renamed) ∧
      (recordAfter renamed).failureDomain = "rack-2" := by
  have hrecord : (new.run ⟨10, 20⟩ renamed).nodes["a"]? = some (recordAfter renamed) := by
    rw [getElem?_run]
    rfl
  have htimely : Timely "a" (accepted ⟨10, 20⟩ "a" renamed) := by
    have hlast : (labelled (accepted ⟨10, 20⟩ "a" renamed)).getLast?
        = some (placeReport "aws" "us-east-1" "Rack-2") := by decide
    rw [Timely, hlast]
    exact Or.inl (by decide)
  have hreflects := (reflects_iff (by decide) renamed hrecord).mpr htimely
  exact ⟨hreflects, (hreflects.named "Rack-2" (by decide)).trans (by decide)⟩

/-- The blank domain erases the one the node named, and the node that says late where it is stays a
domain of its own. -/
theorem domain_lost :
    ((new.run ⟨10, 20⟩ blanked).nodes["a"]? = some (recordAfter blanked) ∧
      ¬ Reflects "a" (accepted ⟨10, 20⟩ "a" blanked) (recordAfter blanked)) ∧
    (new.run ⟨10, 20⟩ placedLate).nodes["a"]? = some (recordAfter placedLate) ∧
      ¬ Reflects "a" (accepted ⟨10, 20⟩ "a" placedLate) (recordAfter placedLate) := by
  refine ⟨⟨by rw [getElem?_run]; rfl, fun h => ?_⟩, by rw [getElem?_run]; rfl, fun h => ?_⟩
  · exact h.nonempty (by decide)
  · exact absurd (h.derived (by decide)) (by decide)

end FiduciaBrain.Membership
