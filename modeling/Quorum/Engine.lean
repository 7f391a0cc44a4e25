import Quorum.Node.Event
import Quorum.Wire

/-!
The event loop around a node. It carries out the node's actions and keeps track of its timers: a
timer that is armed gets the next epoch of its kind, and an expiry counts only if it has the current
epoch. So a timer that was cancelled or armed anew does nothing when it runs out late.
-/

namespace Quorum

inductive Timer where
  | election
  | heartbeat
  deriving DecidableEq, Repr

structure Engine (α : Type) where
  node : Node α
  electionEpoch : Nat
  heartbeatEpoch : Nat
  /-- The role last told to observers. -/
  publishedRole : RoleKind
  deriving DecidableEq, Repr

/-- What reaches the event loop. -/
inductive Input (α : Type) where
  | expired (timer : Timer) (epoch : Nat)
  | event (e : Event α)
  deriving DecidableEq, Repr

/-- What the event loop has others do. -/
inductive Effect (α : Type) where
  | arm (timer : Timer) (epoch : Nat)
  | requestVote (peer : PeerId) (generation : Generation) (args : VoteRequest)
  | appendEntries (peer : PeerId) (context : AppendContext) (args : AppendRequest α)
  | apply (command : α)
  deriving DecidableEq, Repr

variable {α : Type}

def Timer.event : Timer → Event α
  | .election => .electionTimeout
  | .heartbeat => .heartbeatTimeout

namespace Engine

def epoch (g : Engine α) : Timer → Nat
  | .election => g.electionEpoch
  | .heartbeat => g.heartbeatEpoch

/-- Takes the next epoch of a timer, which makes any earlier one void. -/
def bump (g : Engine α) : Timer → Engine α
  | .election => { g with electionEpoch := g.electionEpoch + 1 }
  | .heartbeat => { g with heartbeatEpoch := g.heartbeatEpoch + 1 }

/-- Carries out one action. -/
def perform (g : Engine α) : Action α → Engine α × List (Effect α)
  | .requestVote peer generation args => (g, [.requestVote peer generation args])
  | .appendEntries peer context args => (g, [.appendEntries peer context args])
  | .resetElectionTimer => (g.bump .election, [.arm .election (g.electionEpoch + 1)])
  | .cancelElectionTimer => (g.bump .election, [])
  | .scheduleHeartbeat => (g.bump .heartbeat, [.arm .heartbeat (g.heartbeatEpoch + 1)])
  | .cancelHeartbeat => (g.bump .heartbeat, [])
  | .apply _ command => (g, [.apply command])
  | .roleChanged kind => ({ g with publishedRole := kind }, [])

def performAll (g : Engine α) : List (Action α) → Engine α × List (Effect α)
  | [] => (g, [])
  | a :: rest =>
    let (g, now) := g.perform a
    let (g, later) := g.performAll rest
    (g, now ++ later)

/-- Takes over a node's turn. -/
def settle (g : Engine α) (t : Turn α) : Engine α × List (Effect α) :=
  { g with node := t.node }.performAll t.actions

/-- Starts a node and arms its election timer. -/
def start (me : PeerId) (clusterSize : Nat) : Engine α × List (Effect α) :=
  let node := Node.fresh me clusterSize
  settle { node, electionEpoch := 0, heartbeatEpoch := 0, publishedRole := .follower } node.start

/-- Handles what has reached the event loop, one thing at a time. -/
def handle (g : Engine α) : Input α → Answer × Engine α × List (Effect α)
  | .expired timer epoch =>
    if epoch = g.epoch timer then (.none, g.settle (g.node.handle timer.event).2)
    else (.none, g, [])
  | .event e =>
    let (answer, t) := g.node.handle e
    (answer, g.settle t)

end Engine

end Quorum
