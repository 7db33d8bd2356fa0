import FiduciaBrain.Group.Members
import FiduciaBrain.Raft.Polling

/-!
# Pre-votes and their rounds

Which pre-election a pre-vote answers. The messages do not say, so `Rounds` keeps it beside the group:
each member's pre-elections are numbered, a poll in the network carries its sender's number, and a
grant the number of the poll it answers. A member that polls counts any grant that reaches it,
whatever it answers (`stale_pre_vote_pair`); in a run that delivers none late it counts what it asked
for, and it stands when a quorum granted that (`pre_votes_in_round`).
-/

namespace FiduciaBrain

/-- A request for a pre-vote. -/
def RaftMessage.asks : RaftMessage → Bool
  | .requestVote req => req.preVote
  | _ => false

/-- A pre-vote. -/
def RaftMessage.nods : RaftMessage → Bool
  | .requestVoteResp resp => resp.granted && resp.preVote
  | _ => false

namespace Group

open Infra Raft

variable {G : Group}

/-- The pre-election number `round` of `asker`. -/
structure Poll where
  asker : NodeId
  round : Nat
  deriving DecidableEq, Repr

/-- A group, how many pre-elections each member has started, and the network with the pre-election
each packet asks or answers about. -/
structure Rounds where
  state : State
  round : NodeId → Nat
  net : List (Packet × Option Poll)

namespace Rounds

def engine (w : Rounds) (n : NodeId) : Raft := (w.state.node n).engine

/-- The number of `n`'s pre-election after a call. -/
def roundAfter (w : Rounds) (n : NodeId) (i : Input) : Nat :=
  if (w.engine n).Polls i then w.round n + 1 else w.round n

/-- One call at `n`, in answer to the request that `asked` names, if it is one. -/
def act (w : Rounds) (n : NodeId) (i : Input) (carried : List LogEntry) (asked : Option Poll) :
    Rounds where
  state := w.state.act n i carried
  round := Function.update w.round n (w.roundAfter n i)
  net := w.net ++ ((w.state.node n).sent i carried).map fun p =>
    (p, if p.msg.asks then some ⟨n, w.roundAfter n i⟩ else if p.msg.nods then asked else none)

/-- The delivery of a packet. -/
def deliver (w : Rounds) (x : Packet × Option Poll) : Rounds :=
  w.act x.1.dst (.step x.1.src x.1.msg) x.1.folded (if x.1.msg.asks then x.2 else none)

def crash (w : Rounds) (n : NodeId) (seed : UInt64) : Rounds :=
  { w with state := w.state.restart n seed }

/-- The peers that granted a pre-vote `n` asked for in its latest pre-election. -/
def granters (G : Group) (w : Rounds) (n : NodeId) : Finset NodeId :=
  ((G.peers n).filter fun v => w.net.any fun x =>
    x.1.src == v && x.1.dst == n && x.1.msg.nods && x.2 == some ⟨n, w.round n⟩).toFinset

end Rounds

/-- A step of the group, if what it delivers may be delivered. -/
inductive RoundStep (G : Group) (May : Rounds → Packet × Option Poll → Prop) :
    Rounds → Rounds → Prop
  | tick (w : Rounds) (n : NodeId) : n ∈ G.members → RoundStep G May w (w.act n .tick [] none)
  | propose (w : Rounds) (n : NodeId) (c : Command) : n ∈ G.members →
      RoundStep G May w (w.act n (.propose c) [] none)
  | compact (w : Rounds) (n : NodeId) (index : Nat) (snapshot : Bytes) : n ∈ G.members →
      index ≤ (w.engine n).lastApplied →
      RoundStep G May w (w.act n (.compact index snapshot) [] none)
  | deliver (w : Rounds) (x : Packet × Option Poll) : x ∈ w.net → x.1.dst ∈ G.members → May w x →
      RoundStep G May w (w.deliver x)
  | crash (w : Rounds) (n : NodeId) (seed : UInt64) : n ∈ G.members →
      RoundStep G May w (w.crash n seed)

/-- `G.system` with its rounds, and the deliveries `May` allows. -/
def rounds (G : Group) (May : Rounds → Packet × Option Poll → Prop) : TransitionSystem Rounds where
  init w := G.system.init w.state ∧ w.round = (fun _ => 0) ∧ w.net = []
  step := RoundStep G May

/-- Any delivery. -/
def Anything : Rounds → Packet × Option Poll → Prop := fun _ _ => True

/-- No pre-vote is delivered to a member that polls but in the pre-election it answers. -/
def Timely : Rounds → Packet × Option Poll → Prop := fun w x =>
  x.1.msg.nods = true → (w.engine x.1.dst).role = .preCandidate →
    x.2 = some ⟨x.1.dst, w.round x.1.dst⟩

/-! ## The rounds beside the group -/

variable {May : Rounds → Packet × Option Poll → Prop} {w w' : Rounds}

/-- The packets are those of the group. -/
def Rounds.Tracks (w : Rounds) : Prop := w.net.map Prod.fst = w.state.net

theorem tracks_act (h : w.Tracks) (n : NodeId) (i : Input) (carried : List LogEntry)
    (asked : Option Poll) : (w.act n i carried asked).Tracks := by
  unfold Rounds.Tracks Rounds.act State.act
  rw [List.map_append, h, List.map_map]
  congr 1
  exact List.map_id _

/-- **A run with rounds is a run of the group.** -/
theorem reachable_state (h : (rounds G May).Reachable w) :
    G.system.Reachable w.state ∧ w.Tracks := by
  refine h.invariant (P := fun w => G.system.Reachable w.state ∧ w.Tracks) ?_ fun w w' _ hw hst => ?_
  · rintro w ⟨hinit, _, hnet⟩
    obtain ⟨seed, hseed⟩ := hinit
    refine ⟨.of_init ⟨seed, hseed⟩, ?_⟩
    rw [Rounds.Tracks, hnet, hseed]
    rfl
  · obtain ⟨hr, ht⟩ := hw
    cases hst with
    | tick n hn => exact ⟨hr.step (.tick _ n hn), tracks_act ht _ _ _ _⟩
    | propose n c hn => exact ⟨hr.step (.propose _ n c hn), tracks_act ht _ _ _ _⟩
    | compact n index snapshot hn hle =>
      exact ⟨hr.step (.compact _ n index snapshot hn hle), tracks_act ht _ _ _ _⟩
    | deliver x hx hdst _ =>
      have hp : x.1 ∈ w.state.net := ht ▸ List.mem_map_of_mem hx
      exact ⟨hr.step (.deliver _ x.1 hp hdst), tracks_act ht _ _ _ _⟩
    | crash n seed hn => exact ⟨hr.step (.crash _ n seed hn), ht⟩

/-- **Every run of the group has its rounds.** -/
def numbered (G : Group) : Simulation G.system (rounds G Anything) where
  rel s w := w.state = s
  init s hs := ⟨⟨s, fun _ => 0, []⟩, ⟨hs, rfl, rfl⟩, rfl⟩
  step s s' w hw hrel hst := by
    subst hrel
    obtain ⟨_, ht⟩ := reachable_state hw
    cases hst with
    | tick n hn => exact ⟨_, .single (.tick w n hn), rfl⟩
    | propose n c hn => exact ⟨_, .single (.propose w n c hn), rfl⟩
    | compact n index snapshot hn hle => exact ⟨_, .single (.compact w n index snapshot hn hle), rfl⟩
    | deliver p hp hdst =>
      rw [← ht] at hp
      obtain ⟨x, hx, rfl⟩ := List.mem_map.mp hp
      exact ⟨_, .single (.deliver w x hx hdst trivial), rfl⟩
    | crash n seed hn => exact ⟨_, .single (.crash w n seed hn), rfl⟩

/-! ## What a polling member counts -/

/-- Every vote a polling member has was granted for the pre-election it is in. -/
def Rounds.Honest (G : Group) (w : Rounds) : Prop := ∀ n ∈ G.members,
  (w.engine n).role = .preCandidate → ∀ v ∈ (w.engine n).votes, v ≠ n → v ∈ w.granters G n

theorem mem_granters {n v : NodeId} (hv : v ∈ G.peers n) {x : Packet × Option Poll} (hx : x ∈ w.net)
    (hsrc : x.1.src = v) (hdst : x.1.dst = n) (hnods : x.1.msg.nods = true)
    (hpoll : x.2 = some ⟨n, w.round n⟩) : v ∈ w.granters G n := by
  rw [Rounds.granters, List.mem_toFinset, List.mem_filter, List.any_eq_true]
  refine ⟨hv, x, hx, ?_⟩
  simp [hsrc, hdst, hnods, hpoll]

theorem granters_mono {n : NodeId} (hround : w'.round n = w.round n) (hnet : ∀ x ∈ w.net, x ∈ w'.net) :
    w.granters G n ⊆ w'.granters G n := by
  intro v hv
  rw [Rounds.granters, List.mem_toFinset, List.mem_filter, List.any_eq_true] at hv ⊢
  obtain ⟨hpeer, x, hx, hmatch⟩ := hv
  refine ⟨hpeer, x, hnet x hx, ?_⟩
  rw [hround]
  exact hmatch

theorem engine_act_self (w : Rounds) (n : NodeId) (i : Input) (carried : List LogEntry)
    (asked : Option Poll) : (w.act n i carried asked).engine n = ((w.engine n).run i).ready.2 := by
  show ((w.state.act n i carried).node n).engine = _
  rw [State.act_node_self]
  rfl

theorem engine_act_of_ne {n m : NodeId} (h : m ≠ n) (i : Input) (carried : List LogEntry)
    (asked : Option Poll) : (w.act n i carried asked).engine m = w.engine m := by
  show ((w.state.act n i carried).node m).engine = _
  rw [State.act_node_of_ne h]
  rfl

/-- **A call keeps the count honest**, if the pre-vote it brings, if any, is for this pre-election. -/
theorem honest_act (hr : G.system.Reachable w.state) (h : w.Honest G) {n : NodeId}
    (hn : n ∈ G.members) {i : Input} (carried : List LogEntry) (asked : Option Poll)
    (htimely : ∀ v resp, i = .step v (.requestVoteResp resp) → v ∈ G.peers n →
      resp.granted = true → resp.preVote = true → (w.engine n).role = .preCandidate →
      v ∈ w.granters G n) : (w.act n i carried asked).Honest G := by
  intro m hm hpre v hv hne
  have hnet : ∀ x ∈ w.net, x ∈ (w.act n i carried asked).net :=
    fun x hx => List.mem_append_left _ hx
  by_cases hmn : m = n
  · subst hmn
    rw [engine_act_self] at hpre hv
    obtain ⟨hid, hpeers⟩ := engine_peers hr hm
    have hround : ¬ (w.engine m).Polls i → (w.act m i carried asked).round m = w.round m := by
      intro hno
      show Function.update w.round m (w.roundAfter m i) m = _
      rw [Function.update_self, Rounds.roundAfter, if_neg hno]
    cases polled_run (i := i) (r := w.engine m) hpre with
    | opened _ hvotes =>
      rw [show ((w.engine m).run i).ready.2.votes = {(w.engine m).id} from hvotes,
        Finset.mem_singleton] at hv
      exact absurd (hv.trans hid) hne
    | counted u resp hi hu hgranted hflag hrole hvotes =>
      rw [show ((w.engine m).run i).ready.2.votes = insert u (w.engine m).votes from hvotes,
        Finset.mem_insert] at hv
      have hno : ¬ (w.engine m).Polls i := fun hpolls => by
        rw [hpolls.1] at hi
        cases hi
      refine granters_mono (hround hno) hnet ?_
      rcases hv with rfl | hv
      · exact htimely v resp hi (hpeers ▸ hu) hgranted hflag hrole
      · exact h m hm hrole v hv hne
    | same hno hrole hvotes =>
      rw [show ((w.engine m).run i).ready.2.votes = (w.engine m).votes from hvotes] at hv
      exact granters_mono (hround hno) hnet (h m hm hrole v hv hne)
  · rw [engine_act_of_ne hmn] at hpre hv
    exact granters_mono (Function.update_of_ne hmn ..) hnet (h m hm hpre v hv hne)

/-- A timely pre-vote is one that was asked for. -/
theorem Timely.granter {x : Packet × Option Poll} (ht : Timely w x) (hx : x ∈ w.net) {v : NodeId}
    {resp : RequestVoteResp} (hi : Input.step x.1.src x.1.msg = .step v (.requestVoteResp resp))
    (hv : v ∈ G.peers x.1.dst) (hgranted : resp.granted = true) (hflag : resp.preVote = true)
    (hrole : (w.engine x.1.dst).role = .preCandidate) : v ∈ w.granters G x.1.dst := by
  obtain ⟨hsrc, hmsg⟩ := Input.step.inj hi
  have hnods : x.1.msg.nods = true := by
    rw [hmsg]
    simp [RaftMessage.nods, hgranted, hflag]
  exact mem_granters hv hx hsrc rfl hnods (ht hnods hrole)

theorem honest_of_reachable (h : (rounds G Timely).Reachable w) : w.Honest G := by
  refine h.invariant (P := fun w => w.Honest G) ?_ fun w w' hw hp hst => ?_
  · rintro w ⟨⟨seed, hseed⟩, _⟩ n _ hpre
    rw [show (w.engine n).role = .follower by rw [Rounds.engine, hseed]; rfl] at hpre
    cases hpre
  · have hr := (reachable_state hw).1
    cases hst with
    | tick n hn => exact honest_act hr hp hn _ _ fun v resp hi => by cases hi
    | propose n c hn => exact honest_act hr hp hn _ _ fun v resp hi => by cases hi
    | compact n index snapshot hn _ => exact honest_act hr hp hn _ _ fun v resp hi => by cases hi
    | deliver x hx hdst ht =>
      exact honest_act hr hp hdst _ _ fun v resp hi => ht.granter hx hi
    | crash n seed hn =>
      intro m hm hpre v hv hne
      by_cases hmn : m = n
      · subst hmn
        rw [show ((w.crash m seed).engine m).role = .follower by
          show ((w.state.restart m seed).node m).engine.role = _
          rw [State.restart_node_self]
          rfl] at hpre
        cases hpre
      · have hsame : (w.crash n seed).engine m = w.engine m := by
          show ((w.state.restart n seed).node m).engine = _
          rw [State.restart_node_of_ne hmn]
          rfl
        rw [hsame] at hpre hv
        exact hp m hm hpre v hv hne

/-- Who stands has the votes of a quorum, its own and those that were asked for. -/
theorem quorum_of_ran_act (hr : G.system.Reachable w.state) (h : w.Honest G) {n : NodeId}
    (hn : n ∈ G.members) {i : Input} (hran : Ran (w.engine n) ((w.engine n).run i))
    (htimely : ∀ v resp, i = .step v (.requestVoteResp resp) → v ∈ G.peers n →
      resp.granted = true → resp.preVote = true → (w.engine n).role = .preCandidate →
      v ∈ w.granters G n) : (w.engine n).quorum - 1 ≤ (w.granters G n).card := by
  obtain ⟨hid, hpeers⟩ := engine_peers hr hn
  cases stood_run hran with
  | counted v resp hi hv hgranted hflag hrole hq =>
    have hsub : insert v (w.engine n).votes ⊆ insert n (w.granters G n) := by
      intro u hu
      rw [Finset.mem_insert] at hu ⊢
      rcases hu with rfl | hu
      · exact Or.inr (htimely u resp hi (hpeers ▸ hv) hgranted hflag hrole)
      · by_cases hne : u = n
        · exact Or.inl hne
        · exact Or.inr (h n hn hrole u hu hne)
    have hcard := (Finset.card_le_card hsub).trans (Finset.card_insert_le _ _)
    omega
  | alone _ hnil =>
    rw [quorum, hnil]
    exact Nat.zero_le _

theorem ran_act (hr : G.system.Reachable w.state) (h : w.Honest G) {n m : NodeId}
    (hn : n ∈ G.members) {i : Input} (carried : List LogEntry) (asked : Option Poll)
    (hran : Ran (w.engine n) ((w.act m i carried asked).engine n))
    (htimely : ∀ v resp, i = .step v (.requestVoteResp resp) → v ∈ G.peers m →
      resp.granted = true → resp.preVote = true → (w.engine m).role = .preCandidate →
      v ∈ w.granters G m) : (w.engine n).quorum - 1 ≤ (w.granters G n).card := by
  by_cases hnm : n = m
  · subst hnm
    rw [engine_act_self] at hran
    exact quorum_of_ran_act hr h hn hran htimely
  · rw [engine_act_of_ne hnm] at hran
    exact absurd hran (not_ran_of_term rfl)

/--
**Pre-votes count in their own round, if none is delivered in another.** In every run in which no
pre-vote reaches a polling member but in the pre-election it answers, the votes of a polling member
are its own and those it asked for in this pre-election; and when a call makes a member stand, at
least `quorum - 1` peers granted what it asked for in its latest pre-election.
-/
theorem pre_votes_in_round (h : (rounds G Timely).Reachable w) {n : NodeId} (hn : n ∈ G.members) :
    ((w.engine n).role = .preCandidate →
      ∀ v ∈ (w.engine n).votes, v ≠ n → v ∈ w.granters G n) ∧
    ∀ w', RoundStep G Timely w w' → Ran (w.engine n) (w'.engine n) →
      (w.engine n).quorum - 1 ≤ (w.granters G n).card := by
  have hhonest := honest_of_reachable h
  have hr := (reachable_state h).1
  refine ⟨hhonest n hn, fun w' hst hran => ?_⟩
  cases hst with
  | tick m hm => exact ran_act hr hhonest hn _ _ hran fun v resp hi => by cases hi
  | propose m c hm => exact ran_act hr hhonest hn _ _ hran fun v resp hi => by cases hi
  | compact m index snapshot hm _ =>
    exact ran_act hr hhonest hn _ _ hran fun v resp hi => by cases hi
  | deliver x hx hdst ht =>
    exact ran_act hr hhonest hn _ _ hran fun v resp hi => ht.granter hx hi
  | crash m seed hm =>
    refine absurd hran ?_
    by_cases hnm : n = m
    · subst hnm
      refine not_ran_of_follower ?_
      show ((w.state.restart n seed).node n).engine.role = _
      rw [State.restart_node_self]
      rfl
    · refine not_ran_of_term ?_
      show ((w.state.restart m seed).node n).engine.currentTerm = _
      rw [State.restart_node_of_ne hnm]
      rfl

/-! ## A group of two -/

def pairRounds : Rounds := ⟨pairStart, fun _ => 0, []⟩

/-- `a` polls and `b` grants it. -/
def pairPolled : Rounds := pairRounds.act "a" .tick [] none

def pairGranted : Rounds := pairPolled.deliver (pairPolled.net.get ⟨0, by decide +kernel⟩)

/-- `a`'s timer runs out again, so it starts over. -/
def pairAgain : Rounds := pairGranted.act "a" .tick [] none

/-- The grant of the first pre-election arrives in the second. -/
def pairStale : Rounds := pairAgain.deliver (pairAgain.net.get ⟨1, by decide +kernel⟩)

theorem reachable_pairRounds {May : Rounds → Packet × Option Poll → Prop} :
    (rounds pair May).Reachable pairRounds := .of_init ⟨⟨_, rfl⟩, rfl, rfl⟩

theorem reachable_pairGranted {May : Rounds → Packet × Option Poll → Prop}
    (hmay : May pairPolled (pairPolled.net.get ⟨0, by decide +kernel⟩)) :
    (rounds pair May).Reachable pairGranted :=
  (reachable_pairRounds.step (.tick _ "a" (by decide))).step
    (.deliver _ _ (List.get_mem _ _) (by decide +kernel) hmay)

theorem pre_votes_in_round_pair :
    ((pairGranted.engine "a").role = .preCandidate →
      ∀ v ∈ (pairGranted.engine "a").votes, v ≠ "a" → v ∈ pairGranted.granters pair "a") ∧
    ∀ w', RoundStep pair Timely pairGranted w' → Ran (pairGranted.engine "a") (w'.engine "a") →
      (pairGranted.engine "a").quorum - 1 ≤ (pairGranted.granters pair "a").card :=
  pre_votes_in_round (reachable_pairGranted fun h => absurd h (by decide +kernel)) (by decide)

/-- **A late pre-vote is counted**: nobody granted what `a` asks for, and it stands. -/
theorem stale_pre_vote_pair :
    (rounds pair Anything).Reachable pairAgain ∧ RoundStep pair Anything pairAgain pairStale ∧
      Ran (pairAgain.engine "a") (pairStale.engine "a") ∧
      (pairAgain.engine "a").role = .preCandidate ∧ (pairAgain.engine "a").quorum = 2 ∧
      pairAgain.granters pair "a" = ∅ :=
  ⟨(reachable_pairGranted trivial).step (.tick _ "a" (by decide)),
    .deliver _ _ (List.get_mem _ _) (by decide +kernel) trivial,
    ⟨by decide +kernel, by decide +kernel⟩, by decide +kernel, by decide +kernel,
    by decide +kernel⟩

end Group

end FiduciaBrain
