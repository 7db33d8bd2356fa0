import FiduciaBrain.Raft.HandOut
import FiduciaBrain.Raft.Emit
import FiduciaBrain.Raft.NoOverflow
import FiduciaBrain.Raft.CheckQuorum
import FiduciaBrain.RaftStore.Reopen
import FiduciaBrain.RaftStore.Torn
import FiduciaBrain.RaftDriver.Apply
import FiduciaBrain.RaftDriver.Compaction
import FiduciaBrain.RaftDriver.Await
import FiduciaBrain.RaftDriver.Lag
import FiduciaBrain.RaftDriver.Generation
import FiduciaBrain.RaftDriver.Persist
import FiduciaBrain.Group.MatchIndex
import FiduciaBrain.Group.Probe
import FiduciaBrain.Group.Bookkeeping
import FiduciaBrain.Group.Isolated
import FiduciaBrain.Group.PreVote
import FiduciaBrain.Group.Recover
import FiduciaBrain.Group.Lockstep
import FiduciaBrain.Composition.Authority
import FiduciaBrain.Composition.Publisher
import FiduciaBrain.Composition.Rollout
import FiduciaBrain.Composition.Acknowledge
import FiduciaBrain.Scheduler.ColdStart
import FiduciaBrain.Scheduler.Drained
import FiduciaBrain.Scheduler.Converge
import FiduciaBrain.Scheduler.Trim
import FiduciaBrain.Scheduler.Leaders
import FiduciaBrain.Scheduler.Initial
import FiduciaBrain.Reconfiguration.Enact
import FiduciaBrain.Reconfiguration.BrainComposition
import FiduciaBrain.SchedulerReplay.Trace
import FiduciaBrain.Api
import FiduciaBrain.Peers
import FiduciaBrain.Membership.Refinement
import FiduciaBrain.Membership.Delivery
import FiduciaBrain.Membership.Domain
