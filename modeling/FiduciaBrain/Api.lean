import FiduciaBrain.Cluster
import FiduciaBrain.Text

/-!
# Policy writes and drains over HTTP

`POST /v1/policies` and `DELETE /v1/nodes/{id}` of `src/api.rs`. A member answers, or forwards the
request once to the member it takes for the leader. Every handler sees what its own control plane
reports when it runs, so two members may disagree about who leads, and a forwarded request may meet
a member that has lost the lead. A forwarded policy is in the body; the node of a forwarded drain is
in the URL, where its decoded id stands unescaped, so the other member may read another id.

`not_misleading_iff` says when a write is carried out and acknowledged by a leader only.
-/

namespace FiduciaBrain.Api

/-! ## Requests and responses -/

/-- What a member's control plane reports. -/
structure View where
  isAvailable : Bool
  isLeader : Bool
  leaderAddr : Option String
  deriving DecidableEq, Repr

/-- The state that the two handlers read and write. `shardFor` is the hash of `fiducia-routing`. -/
structure BrainState where
  shardFor : String → ShardId
  membership : Membership
  placement : Placement

inductive Request
  | setPolicy (update : PlacementPolicyUpdate)
  | removeNode (id : NodeId)
  deriving DecidableEq, Repr

inductive Value
  | null
  | bool (b : Bool)
  | str (s : String)
  | policy (p : PlacementPolicy)
  deriving DecidableEq, Repr

/-- A status, the `Retry-After` header, and the fields of a JSON object. -/
structure Response where
  status : Nat
  retryAfter : Option String
  body : List (String × Value)
  deriving DecidableEq, Repr

def json (body : List (String × Value)) : Response := ⟨200, none, body⟩

/-- A member whose control plane is unavailable acknowledges nothing. -/
def unavailable (v : View) : Option Response :=
  if v.isAvailable then none
  else some ⟨503, none, [("ok", .bool false), ("error", .str "unavailable"),
    ("detail", .str "control plane is unavailable until restart")]⟩

/-- A write reached a follower during an election and was not applied. -/
def notLeader : Response :=
  ⟨503, some "1", [("ok", .bool false), ("error", .str "not_leader"), ("leader", .null),
    ("retryable", .bool true)]⟩

def forwardFailed (detail : String) : Response :=
  ⟨502, none, [("ok", .bool false), ("error", .str "leader_forward_failed"),
    ("detail", .str detail)]⟩

/-- Where the leader takes a forwarded request. -/
def leaderV1 (leader path : String) : String := trimEndSlashes leader ++ "/forward/v1" ++ path

/-! ## The handlers -/

/-- What a handler does: answer, or send the request on, marked as forwarded. -/
inductive Outcome
  | respond (response : Response) (state : BrainState)
  | forward (url : String)

/-- The policy that an update stands for. -/
def policyOf (s : BrainState) (update : PlacementPolicyUpdate) : PlacementPolicy :=
  { shardId := s.shardFor (trim update.namespace)
    «namespace» := trim update.namespace
    homeRegion := update.homeRegion.filter fun r => !(trim r).isEmpty
    preferredCloudProvider := update.preferredCloudProvider.filter fun p => !(trim p).isEmpty }

/-- `POST /v1/policies`. -/
def setPolicy (v : View) (mayForward : Bool) (s : BrainState) (update : PlacementPolicyUpdate) :
    Outcome :=
  match unavailable v with
  | some response => .respond response s
  | none =>
    if (trim update.namespace).isEmpty then
      .respond (json [("ok", .bool false), ("error", .str "namespace_required")]) s
    else if !v.isLeader && mayForward then
      match v.leaderAddr with
      | some leader => .forward (leaderV1 leader "/policies")
      | none => .respond notLeader s
    else
      .respond (json [("ok", .bool true), ("policy", .policy (policyOf s update))])
        { s with placement := s.placement.setPolicy (policyOf s update) }

/-- `DELETE /v1/nodes/{id}` at the member itself. -/
def drainHere (s : BrainState) (id : NodeId) : Outcome :=
  let drained := s.membership.drain id
  .respond (json [("draining", .bool drained.1), ("node_id", .str id)])
    { s with membership := drained.2 }

/-- `DELETE /v1/nodes/{id}`. -/
def removeNode (v : View) (mayForward : Bool) (s : BrainState) (id : NodeId) : Outcome :=
  match unavailable v with
  | some response => .respond response s
  | none =>
    if !v.isLeader && mayForward then
      match v.leaderAddr with
      | some leader => .forward (leaderV1 leader ("/nodes/" ++ id))
      | none => drainHere s id
    else drainHere s id

/-- `marked` says that the request has made its one hop. -/
def handle (v : View) (marked : Bool) (s : BrainState) : Request → Outcome
  | .setPolicy update => setPolicy v (!marked) s update
  | .removeNode id => removeNode v (!marked) s id

/-! ## An exchange -/

/-- How the answer to a forwarded request gets back. -/
inductive Carriage
  | whole
  /-- the body is not read as JSON -/
  | unread
  /-- the request was handled, the answer is lost -/
  | lost (detail : String)
  deriving DecidableEq, Repr

/-- What `forwarded` makes of the answer. -/
def Carriage.back : Carriage → Response → Response
  | .whole, r => { r with retryAfter := none }
  | .unread, r =>
    ⟨r.status, none, [("ok", .bool (200 ≤ r.status && r.status < 300)), ("forwarded", .bool true)]⟩
  | .lost detail, _ => forwardFailed detail

/-- What `forwarded` makes of an answer without a body. -/
def Carriage.bare : Carriage → Nat → Response
  | .lost detail, _ => forwardFailed detail
  | _, status => Carriage.unread.back ⟨status, none, []⟩

/-- Where the router of a member takes a URL. What is in front of the handlers may refuse it: there
is no such path, the path cannot be decoded, the secret of the hop is missing. -/
inductive Route
  | policies
  | node (id : NodeId)
  | refused (status : Nat) (isError : 400 ≤ status)
  deriving DecidableEq, Repr

def Route.notFound : Route := .refused 404 (by decide)

/-- The request that a handler behind the router sees, or the status that the router answers with by
itself. There is a `POST` for policies and a `DELETE` for a node, not the other way round. -/
def Request.arriving : Request → Route → Except Nat Request
  | .setPolicy update, .policies => .ok (.setPolicy update)
  | .removeNode _, .node id => .ok (.removeNode id)
  | _, .refused status _ => .error status
  | _, _ => .error 405

/-- The members at the moment a handler runs, and what becomes of the request if it is forwarded:
the member that is reached under a URL, if any, where its router takes the URL, and the way back. -/
structure Hop where
  view : NodeId → View
  state : NodeId → BrainState
  dial : String → Except String NodeId
  route : String → Route
  carriage : Carriage

/-- A handler's run. `via` is the way its answer takes to the member that forwarded. -/
structure Handled where
  view : View
  marked : Bool
  request : Request
  via : Option Carriage
  before : BrainState
  after : BrainState

/-- A request at member `n`: the final response, and the handlers that ran. -/
def serve : Request → List Hop → Option Carriage → NodeId → Bool →
    Option (Response × List Handled)
  | _, [], _, _, _ => none
  | req, hop :: rest, via, n, marked =>
    match handle (hop.view n) marked (hop.state n) req with
    | .respond r s => some (r, [⟨hop.view n, marked, req, via, hop.state n, s⟩])
    | .forward url =>
      let here : Handled := ⟨hop.view n, marked, req, via, hop.state n, hop.state n⟩
      match hop.dial url with
      | .error detail => some (forwardFailed detail, [here])
      | .ok leader =>
        match req.arriving (hop.route url) with
        | .error status => some (hop.carriage.bare status, [here])
        | .ok arrived => (serve arrived rest (some hop.carriage) leader true).map fun x =>
            (hop.carriage.back x.1, here :: x.2)

/-! ## What must not happen -/

def Acknowledges : Request → Response → Prop
  | .setPolicy _, r => r.body.lookup "ok" = some (.bool true)
  | .removeNode _, r => r.body.lookup "draining" = some (.bool true)

/-- The write, as a handler carries it out. -/
def carriedOut (s : BrainState) : Request → BrainState
  | .setPolicy update => { s with placement := s.placement.setPolicy (policyOf s update) }
  | .removeNode id => { s with membership := (s.membership.drain id).2 }

/-- There is something to write to. -/
def Known (s : BrainState) : Request → Prop
  | .setPolicy _ => True
  | .removeNode id => s.membership.nodes[id]?.isSome = true

/-- The policies and the nodes are what they were. -/
def Same (s t : BrainState) : Prop :=
  t.placement.policies = s.placement.policies ∧ t.membership = s.membership

theorem Same.of_eq {s t : BrainState} (h : t = s) : Same s t := h ▸ ⟨rfl, rfl⟩

/-- A write that is acknowledged was carried out where a leader was, and no other member changed. -/
structure NotMisleading (req : Request) (r : Response) (handled : List Handled) : Prop where
  acknowledged : Acknowledges req r → ∃ h ∈ handled, h.view.isLeader = true ∧ h.request = req ∧
    Known h.before req ∧ h.after = carriedOut h.before req
  unchanged : ∀ h ∈ handled, h.view.isLeader = false → Same h.before h.after

/-- The request is well-formed. -/
def Request.Valid : Request → Prop
  | .setPolicy update => (trim update.namespace).isEmpty = false
  | .removeNode _ => True

/-- A member with view `v` neither refuses the request nor sends it on. -/
def Decides (req : Request) (v : View) (marked : Bool) : Prop :=
  v.isAvailable = true ∧ req.Valid ∧
    (v.isLeader = true ∨ marked = true ∨
      match req with
      | .setPolicy _ => False
      | .removeNode _ => v.leaderAddr = none)

/-- The write is there already, or there is nothing to write to. -/
def Settled (s : BrainState) : Request → Prop
  | .setPolicy update =>
    s.placement.policies[(policyOf s update).shardId]? = some (policyOf s update)
  | .removeNode id => ∀ node, s.membership.nodes[id]? = some node → node.health = .draining

/-- The client does not hear of the write: the answer did not get back, or there is no such node. -/
def Handled.Unheard (h : Handled) : Prop :=
  match h.request with
  | .setPolicy _ => ∃ detail, h.via = some (.lost detail)
  | .removeNode id => h.before.membership.nodes[id]? = none ∨ h.via = some .unread ∨
      ∃ detail, h.via = some (.lost detail)

/-! ## Writes that change nothing -/

theorem policies_carriedOut_iff (s : BrainState) (update : PlacementPolicyUpdate) :
    (s.placement.setPolicy (policyOf s update)).policies = s.placement.policies ↔
      Settled s (.setPolicy update) := by
  simp only [Placement.setPolicy, Settled]
  constructor
  · intro h
    rw [← h, Std.ExtTreeMap.getElem?_insert_self]
  · intro h
    refine Std.ExtTreeMap.ext_getElem? fun shard => ?_
    rw [Std.ExtTreeMap.getElem?_insert]
    split
    · next heq => rw [← Std.LawfulEqCmp.eq_of_compare heq, h]
    · rfl

theorem membership_carriedOut_iff (s : BrainState) (id : NodeId) :
    (s.membership.drain id).2 = s.membership ↔ Settled s (.removeNode id) := by
  constructor
  · intro h node hnode
    have hget := Membership.getElem?_drain s.membership id id
    rw [h, if_pos rfl, hnode, Option.map_some, Option.some.injEq] at hget
    rw [hget]
  · intro h
    refine Membership.ext (Std.ExtTreeMap.ext_getElem? fun x => ?_)
    rw [Membership.getElem?_drain]
    split
    · next heq =>
      subst heq
      cases hx : s.membership.nodes[id]? with
      | none => rfl
      | some node => rw [Option.map_some, ← h node hx]
    · rfl

theorem drain_fst (m : Membership) (id : NodeId) : (m.drain id).1 = m.nodes[id]?.isSome := by
  unfold Membership.drain
  split
  · next heq => rw [heq]; rfl
  · next heq => rw [heq]; rfl

theorem same_carriedOut_iff (s : BrainState) (req : Request) :
    Same s (carriedOut s req) ↔ Settled s req := by
  cases req with
  | setPolicy update =>
    rw [← policies_carriedOut_iff]
    exact and_iff_left rfl
  | removeNode id =>
    rw [← membership_carriedOut_iff]
    exact and_iff_right rfl

/-! ## What a handler does -/

/-- The three things that a handler can do. -/
inductive Handling (req : Request) (v : View) (marked : Bool) (s : BrainState) : Outcome → Prop
  | forwarded (url : String) : marked = false → v.isLeader = false → req.Valid →
      ¬ Decides req v marked → Handling req v marked s (.forward url)
  | refused (r : Response) : ¬ Decides req v marked → ¬ Acknowledges req r →
      (req.Valid → 300 ≤ r.status) → Handling req v marked s (.respond r s)
  | carried (r : Response) : Decides req v marked → r.status = 200 →
      (Acknowledges req r ↔ Known s req) →
      Handling req v marked s (.respond r (carriedOut s req))

theorem unavailable_eq_some {v : View} {r : Response} (h : unavailable v = some r) :
    v.isAvailable = false ∧ r.status = 503 ∧ r.body.lookup "ok" = some (.bool false) ∧
      r.body.lookup "draining" = none := by
  unfold unavailable at h
  split at h
  · cases h
  · next hv =>
    cases h
    exact ⟨by simpa using hv, rfl, rfl, rfl⟩

theorem unavailable_eq_none {v : View} (h : unavailable v = none) : v.isAvailable = true := by
  unfold unavailable at h
  split at h
  · next hv => exact hv
  · cases h

/-- An unavailable member refuses everything. -/
theorem unavailable_handling (req : Request) {v : View} (marked : Bool) (s : BrainState)
    {r : Response} (h : unavailable v = some r) : Handling req v marked s (.respond r s) := by
  obtain ⟨hv, hstatus, hok, hdraining⟩ := unavailable_eq_some h
  refine .refused r (fun hd => ?_) ?_ fun _ => by omega
  · simp [Decides, hv] at hd
  · cases req <;> simp [Acknowledges, hok, hdraining]

/-- A member that neither forwards nor refuses. -/
theorem decides_of_not_forwarding {req : Request} {v : View} {marked : Bool}
    (hv : v.isAvailable = true) (hvalid : req.Valid) (hf : ¬ (!v.isLeader && !marked) = true) :
    Decides req v marked := by
  refine ⟨hv, hvalid, ?_⟩
  cases hl : v.isLeader with
  | true => exact Or.inl rfl
  | false =>
    have hm : marked = true := by simpa [hl] using hf
    exact Or.inr (Or.inl hm)

theorem setPolicy_handling (v : View) (marked : Bool) (s : BrainState)
    (update : PlacementPolicyUpdate) :
    Handling (.setPolicy update) v marked s (setPolicy v (!marked) s update) := by
  unfold setPolicy
  split
  · next r hr => exact unavailable_handling _ marked s hr
  next hr =>
  have hv := unavailable_eq_none hr
  split
  · next hempty =>
    refine .refused _ (fun hd => ?_) (by simp [Acknowledges, json]) fun hvalid => ?_
    · exact absurd (hd.2.1.symm.trans hempty) (by decide)
    · exact absurd (hvalid.symm.trans hempty) (by decide)
  next hvalid =>
  have hvalid' : (Request.setPolicy update).Valid := by simpa [Request.Valid] using hvalid
  split
  · next hf =>
    simp only [Bool.and_eq_true, Bool.not_eq_true'] at hf
    have hnot : ¬ Decides (.setPolicy update) v marked := by simp [Decides, hf]
    split
    · exact .forwarded _ hf.2 hf.1 hvalid' hnot
    · exact .refused _ hnot (by simp [Acknowledges, notLeader]) fun _ => by decide
  · next hf =>
    refine .carried _ (decides_of_not_forwarding hv hvalid' hf) rfl (iff_of_true ?_ trivial)
    simp [Acknowledges, json]

theorem drainHere_handling {v : View} {marked : Bool} (s : BrainState) (id : NodeId)
    (h : Decides (.removeNode id) v marked) :
    Handling (.removeNode id) v marked s (drainHere s id) := by
  refine .carried _ h rfl ?_
  simp [Acknowledges, Known, json, drain_fst]

theorem removeNode_handling (v : View) (marked : Bool) (s : BrainState) (id : NodeId) :
    Handling (.removeNode id) v marked s (removeNode v (!marked) s id) := by
  unfold removeNode
  split
  · next r hr => exact unavailable_handling _ marked s hr
  next hr =>
  have hv := unavailable_eq_none hr
  split
  · next hf =>
    simp only [Bool.and_eq_true, Bool.not_eq_true'] at hf
    split
    · next leader haddr =>
      refine .forwarded _ hf.2 hf.1 trivial fun hd => ?_
      simp [Decides, hf, haddr] at hd
    · next haddr => exact drainHere_handling s id ⟨hv, trivial, Or.inr (Or.inr haddr)⟩
  · next hf => exact drainHere_handling s id (decides_of_not_forwarding hv trivial hf)

theorem handle_handling (v : View) (marked : Bool) (s : BrainState) (req : Request) :
    Handling req v marked s (handle v marked s req) := by
  cases req with
  | setPolicy update => exact setPolicy_handling v marked s update
  | removeNode id => exact removeNode_handling v marked s id

/-! ## What an exchange does -/

/-- What an exchange comes to: at most the last handler carries the request out, and the client
hears of that or not. -/
inductive Exchange (req : Request) (r : Response) : List Handled → Prop
  | silent (handled : List Handled) : ¬ Acknowledges req r →
      (∀ h ∈ handled, ¬ Decides h.request h.view h.marked ∧ h.after = h.before) →
      Exchange req r handled
  | carried (idle : List Handled) (h : Handled) :
      (∀ x ∈ idle, ¬ Decides x.request x.view x.marked ∧ x.after = x.before ∧
        x.view.isLeader = false) →
      Decides h.request h.view h.marked → h.after = carriedOut h.before h.request →
      (Acknowledges req r ↔ ¬ h.Unheard) → Exchange req r (idle ++ [h])

/-- One handler that changes nothing. -/
theorem Exchange.idle {req : Request} {r : Response} {h : Handled} (hr : ¬ Acknowledges req r)
    (hnot : ¬ Decides h.request h.view h.marked) (hafter : h.after = h.before) :
    Exchange req r [h] := by
  refine .silent _ hr fun x hx => ?_
  rw [List.mem_singleton.mp hx]
  exact ⟨hnot, hafter⟩

/-- A handler that only passes the request on, before the others. -/
theorem Exchange.cons {req : Request} {r : Response} {h : Handled} {handled : List Handled}
    (hnot : ¬ Decides h.request h.view h.marked) (hafter : h.after = h.before)
    (hfollower : h.view.isLeader = false) (he : Exchange req r handled) :
    Exchange req r (h :: handled) := by
  cases he with
  | silent _ hr hidle =>
    refine .silent _ hr fun x hx => ?_
    rcases List.mem_cons.mp hx with rfl | hx
    · exact ⟨hnot, hafter⟩
    · exact hidle x hx
  | carried idle x hidle hd hcarried hr =>
    refine .carried (h :: idle) x (fun y hy => ?_) hd hcarried hr
    rcases List.mem_cons.mp hy with rfl | hy
    · exact ⟨hnot, hafter, hfollower⟩
    · exact hidle y hy

/-- Which field of the answer acknowledges a request depends on its kind only. -/
theorem Exchange.of_arriving {req arrived : Request} {route : Route} {r : Response}
    {handled : List Handled} (h : req.arriving route = .ok arrived)
    (he : Exchange arrived r handled) : Exchange req r handled := by
  have hack : Acknowledges arrived r ↔ Acknowledges req r := by
    cases req <;> cases route <;> cases h <;> rfl
  cases he with
  | silent _ hr hidle => exact .silent _ (mt hack.mpr hr) hidle
  | carried idle x hidle hd hcarried hr =>
    exact .carried idle x hidle hd hcarried (hack.symm.trans hr)

theorem status_of_arriving {req : Request} {route : Route} {status : Nat}
    (h : req.arriving route = .error status) : 400 ≤ status := by
  cases req <;> cases route <;> cases h
  all_goals first | assumption | decide

theorem Request.Valid.of_arriving {req arrived : Request} {route : Route} (hvalid : req.Valid)
    (h : req.arriving route = .ok arrived) : arrived.Valid := by
  cases req <;> cases route <;> cases h <;> exact hvalid

theorem not_acknowledges_forwardFailed (req : Request) (detail : String) :
    ¬ Acknowledges req (forwardFailed detail) := by
  cases req <;> simp [Acknowledges, forwardFailed, List.lookup_cons]

/-- The answer of a refusal is none to the client either. -/
theorem not_acknowledges_back {req : Request} {r : Response} (c : Carriage)
    (hr : ¬ Acknowledges req r) (hstatus : 300 ≤ r.status) : ¬ Acknowledges req (c.back r) := by
  cases c with
  | whole => cases req <;> exact hr
  | unread =>
    have : ¬ r.status < 300 := by omega
    cases req <;> simp [Acknowledges, Carriage.back, this, List.lookup_cons]
  | lost detail => exact not_acknowledges_forwardFailed req detail

/-- A router that answers by itself acknowledges nothing. -/
theorem not_acknowledges_bare (req : Request) (c : Carriage) {status : Nat} (h : 400 ≤ status) :
    ¬ Acknowledges req (c.bare status) := by
  have hnot : ¬ Acknowledges req ⟨status, none, []⟩ := by cases req <;> simp [Acknowledges]
  have hunread := not_acknowledges_back .unread hnot (le_trans (by decide) h)
  cases c with
  | whole => exact hunread
  | unread => exact hunread
  | lost detail => exact not_acknowledges_forwardFailed req detail

/-- What the client hears of a write that was carried out behind a forward. -/
theorem acknowledges_back {r : Response} (c : Carriage) {h : Handled} (hvia : h.via = some c)
    (hstatus : r.status = 200) (hr : Acknowledges h.request r ↔ Known h.before h.request) :
    Acknowledges h.request (c.back r) ↔ ¬ h.Unheard := by
  cases hreq : h.request with
  | setPolicy update =>
    rw [hreq] at hr
    have hok : Acknowledges (.setPolicy update) r := hr.mpr trivial
    cases c with
    | whole =>
      refine iff_of_true hok ?_
      simp [Handled.Unheard, hreq, hvia]
    | unread =>
      refine iff_of_true ?_ ?_
      · simp [Acknowledges, Carriage.back, hstatus]
      · simp [Handled.Unheard, hreq, hvia]
    | lost detail =>
      refine iff_of_false (not_acknowledges_forwardFailed _ detail) fun hn => hn ?_
      simp [Handled.Unheard, hreq, hvia]
  | removeNode id =>
    rw [hreq] at hr
    cases c with
    | whole =>
      have hback : Acknowledges (.removeNode id) (Carriage.whole.back r) ↔ _ := hr
      rw [hback]
      simp [Handled.Unheard, hreq, hvia, Known]
    | unread =>
      -- the body that stands in for the answer has no field `draining`
      refine iff_of_false ?_ fun hn => hn ?_
      · simp [Acknowledges, Carriage.back, List.lookup_cons]
      · simp [Handled.Unheard, hreq, hvia]
    | lost detail =>
      refine iff_of_false (not_acknowledges_forwardFailed _ detail) fun hn => hn ?_
      simp [Handled.Unheard, hreq, hvia]

theorem Handled.known_of_heard (h : Handled) (hheard : ¬ h.Unheard) : Known h.before h.request := by
  cases hreq : h.request with
  | setPolicy update => trivial
  | removeNode id =>
    simp only [Handled.Unheard, hreq, not_or] at hheard
    exact Option.isSome_iff_ne_none.mpr hheard.1

/-- A write that was carried out where it was sent is heard of if there was something to write
to. -/
theorem not_unheard_iff {h : Handled} (hvia : h.via = none) :
    ¬ h.Unheard ↔ Known h.before h.request := by
  cases hreq : h.request <;> simp [Handled.Unheard, hreq, hvia, Known]

/-- What a marked request comes to: the handler answers it. -/
theorem serve_marked {req : Request} {hops : List Hop} {c : Carriage} {n : NodeId} {r : Response}
    {handled : List Handled} (hvalid : req.Valid)
    (h : serve req hops (some c) n true = some (r, handled)) :
    Exchange req (c.back r) handled := by
  cases hops with
  | nil => cases h
  | cons hop rest =>
    rw [serve] at h
    have hspec := handle_handling (hop.view n) true (hop.state n) req
    split at h
    · next r' t heq =>
      rw [heq] at hspec
      cases h
      cases hspec with
      | refused _ hnot hr hstatus =>
        exact .idle (not_acknowledges_back c hr (hstatus hvalid)) hnot rfl
      | carried _ hd hstatus hr =>
        exact .carried [] ⟨hop.view n, true, req, some c, hop.state n, _⟩ nofun hd rfl
          (acknowledges_back (h := ⟨_, _, req, some c, hop.state n, _⟩) c rfl hstatus hr)
    · next url heq =>
      -- a second hop
      rw [heq] at hspec
      cases hspec with
      | forwarded _ hmarked => cases hmarked

/-- **What an exchange comes to.** -/
theorem serve_exchange {req : Request} {hops : List Hop} {n : NodeId} {marked : Bool} {r : Response}
    {handled : List Handled} (h : serve req hops none n marked = some (r, handled)) :
    Exchange req r handled := by
  cases hops with
  | nil => cases h
  | cons hop rest =>
    rw [serve] at h
    have hspec := handle_handling (hop.view n) marked (hop.state n) req
    split at h
    · next r' t heq =>
      rw [heq] at hspec
      cases h
      cases hspec with
      | refused _ hnot hr _ => exact .idle hr hnot rfl
      | carried _ hd _ hr =>
        exact .carried [] ⟨hop.view n, marked, req, none, hop.state n, _⟩ nofun hd rfl
          (hr.trans (not_unheard_iff (h := ⟨_, _, req, none, hop.state n, _⟩) rfl).symm)
    · next url heq =>
      rw [heq] at hspec
      cases hspec with
      | forwarded _ _ hfollower hvalid hnot =>
        simp only at h
        split at h
        · next detail _ =>
          -- nobody is reached
          cases h
          exact .idle (not_acknowledges_forwardFailed req detail) hnot rfl
        next leader _ =>
        split at h
        · next status hstatus =>
          -- no handler is reached
          cases h
          exact .idle (not_acknowledges_bare req _ (status_of_arriving hstatus)) hnot rfl
        · next arrived harrived =>
          obtain ⟨⟨r', handled'⟩, hserve, heq⟩ := Option.map_eq_some_iff.mp h
          cases heq
          have hexchange := serve_marked (hvalid.of_arriving harrived) hserve
          exact (hexchange.of_arriving harrived).cons hnot rfl hfollower

/-- **A request makes one hop at most**: with two handlers there is an answer, whatever they see. -/
theorem serve_isSome (req : Request) (hop hop' : Hop) (rest : List Hop) (n : NodeId)
    (marked : Bool) : (serve req (hop :: hop' :: rest) none n marked).isSome := by
  rw [serve]
  split
  · rfl
  dsimp only
  split
  · rfl
  next leader _ =>
  split
  · rfl
  next arrived _ =>
  rw [Option.isSome_map, serve]
  have hspec := handle_handling (hop'.view leader) true (hop'.state leader) arrived
  split
  · rfl
  · next url heq =>
    rw [heq] at hspec
    cases hspec with
    | forwarded _ hmarked => cases hmarked

/-! ## When a write is not misleading -/

/-- **No misleading acknowledgement**, exactly: the member that carries the write out leads and was
handed the write that the client sent; or the client hears nothing of what that member does, and it
leads or the write was there already. -/
theorem not_misleading_iff {req : Request} {hops : List Hop} {n : NodeId} {marked : Bool}
    {r : Response} {handled : List Handled}
    (h : serve req hops none n marked = some (r, handled)) :
    NotMisleading req r handled ↔ ∀ x ∈ handled, Decides x.request x.view x.marked →
      x.view.isLeader = true ∧ x.request = req ∨
        x.Unheard ∧ (x.view.isLeader = true ∨ Settled x.before x.request) := by
  cases serve_exchange h with
  | silent _ hr hidle =>
    refine iff_of_true ⟨fun hack => absurd hack hr, fun x hx _ => ?_⟩ fun x hx hd => ?_
    · exact .of_eq (hidle x hx).2
    · exact absurd hd (hidle x hx).1
  | carried idle x hidle hd hafter hr =>
    have hx : x ∈ idle ++ [x] := List.mem_append_right _ List.mem_cons_self
    have hsame : Same x.before x.after ↔ Settled x.before x.request := by
      rw [hafter, same_carriedOut_iff]
    constructor
    · intro hok y hy hdy
      rcases List.mem_append.mp hy with hy | hy
      · exact absurd hdy (hidle y hy).1
      rw [List.mem_singleton.mp hy]
      by_cases hack : Acknowledges req r
      · -- only the last of the handlers may lead
        obtain ⟨z, hz, hzl, hzreq, -⟩ := hok.acknowledged hack
        rcases List.mem_append.mp hz with hz | hz
        · exact absurd (hzl.symm.trans (hidle z hz).2.2) (by decide)
        · rw [List.mem_singleton.mp hz] at hzl hzreq
          exact Or.inl ⟨hzl, hzreq⟩
      · refine Or.inr ⟨not_not.mp (mt hr.mpr hack), ?_⟩
        cases hl : x.view.isLeader with
        | true => exact Or.inl rfl
        | false => exact Or.inr (hsame.mp (hok.unchanged x hx hl))
    · intro hcond
      have hfollower : x.view.isLeader = false → x.Unheard ∧ Same x.before x.after := by
        intro hl
        rcases hcond x hx hd with ⟨hl', _⟩ | ⟨hunheard, hl' | hsettled⟩
        · exact absurd (hl'.symm.trans hl) (by decide)
        · exact absurd (hl'.symm.trans hl) (by decide)
        · exact ⟨hunheard, hsame.mpr hsettled⟩
      constructor
      · intro hack
        rcases hcond x hx hd with ⟨hl, hreq⟩ | ⟨hunheard, _⟩
        · exact ⟨x, hx, hl, hreq, hreq ▸ x.known_of_heard (hr.mp hack), hreq ▸ hafter⟩
        · exact absurd hunheard (hr.mp hack)
      · intro y hy hyl
        rcases List.mem_append.mp hy with hy | hy
        · exact .of_eq (hidle y hy).2.1
        · rw [List.mem_singleton.mp hy] at hyl ⊢
          exact (hfollower hyl).2

/-- Where a router takes a URL without escapes: behind `/nodes/` comes the id, up to a query or a
fragment. -/
def routeOf (base url : String) : Route :=
  let path := url.toList.takeWhile fun c => c ≠ '?' && c ≠ '#'
  match path.dropPrefix? (base ++ "/forward/v1").toList with
  | none => .notFound
  | some rest =>
    if rest = "/policies".toList then .policies
    else
      match rest.dropPrefix? "/nodes/".toList with
      | some id => if id.isEmpty || id.contains '/' then .notFound else .node (String.ofList id)
      | none => .notFound

/-- Two members with one node registered. `a` follows `b`. -/
def oneNode : BrainState where
  shardFor _ := 0
  membership := (Membership.new.heartbeat "n1" 0 ⟨"", "", "", "", "", [], [], 0⟩).2
  placement := .new 4

def hopOf (a b : View) : Hop where
  view n := if n = "a" then a else b
  state _ := oneNode
  dial _ := .ok "b"
  route := routeOf "http://b:9095"
  carriage := .whole

def follower : View := ⟨true, false, some "http://b:9095"⟩

def leader : View := ⟨true, true, some "http://b:9095"⟩

/-- A member that knows of no leader. -/
def leaderless : View := ⟨true, false, none⟩

def euPolicy : Request := .setPolicy ⟨"orders", some "eu", none⟩

/-- A policy posted to a follower of a leader. -/
theorem not_misleading_iff_forwarded :
    ∃ r handled, serve euPolicy [hopOf follower leader, hopOf follower leader] none "a" false
        = some (r, handled) ∧ Acknowledges euPolicy r ∧ NotMisleading euPolicy r handled := by
  have hserve : serve euPolicy [hopOf follower leader, hopOf follower leader] none "a" false
      = some (_, _) := rfl
  refine ⟨_, _, hserve, rfl, (not_misleading_iff hserve).mpr fun x hx hd => ?_⟩
  rcases List.mem_cons.mp hx with rfl | hx
  · -- the follower only passes it on
    rcases hd.2.2 with h | h | h <;> cases h
  · rw [List.mem_singleton.mp hx]
    exact Or.inl ⟨rfl, rfl⟩

/-- `b` has lost the lead when the policy arrives, and takes it; a drain during an election is taken
by the member it was sent to; a drain of a node that nobody knows drains another one at the
leader. -/
theorem misleading_writes :
    (∃ r handled, serve euPolicy [hopOf follower leader, hopOf follower follower] none "a" false
        = some (r, handled) ∧ ¬ NotMisleading euPolicy r handled) ∧
    (∃ r handled, serve (.removeNode "n1") [hopOf leaderless follower] none "a" false
        = some (r, handled) ∧ ¬ NotMisleading (.removeNode "n1") r handled) ∧
    ∃ r handled, serve (.removeNode "n1?z") [hopOf follower leader, hopOf follower leader] none "a"
        false = some (r, handled) ∧ ¬ NotMisleading (.removeNode "n1?z") r handled := by
  have hknown : (oneNode.membership.drain "n1").1 = true := by decide +kernel
  refine ⟨?_, ?_, ?_⟩
  · refine ⟨_, _, rfl, fun h => ?_⟩
    obtain ⟨x, hx, hl, _⟩ := h.acknowledged rfl
    rcases List.mem_cons.mp hx with rfl | hx
    · cases hl
    · rw [List.mem_singleton.mp hx] at hl
      cases hl
  · refine ⟨_, _, rfl, fun h => ?_⟩
    obtain ⟨x, hx, hl, _⟩ := h.acknowledged (congrArg (fun b => some (Value.bool b)) hknown)
    rw [List.mem_singleton.mp hx] at hl
    cases hl
  · refine ⟨_, _, rfl, fun h => ?_⟩
    -- the leader was handed a drain of `n1`
    obtain ⟨x, hx, hl, hreq, _⟩ := h.acknowledged (congrArg (fun b => some (Value.bool b)) hknown)
    rcases List.mem_cons.mp hx with rfl | hx
    · cases hl
    · rw [List.mem_singleton.mp hx] at hreq
      exact absurd hreq (by decide +kernel)

end FiduciaBrain.Api
