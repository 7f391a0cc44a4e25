import Quorum.Node.Event

/-!
A cluster in which nothing happens by itself: timers run out on demand, and packets wait in one
queue until they are delivered. A call to or from an isolated node comes back as unreachable.
-/

namespace Quorum

/-- A call or an answer on its way. -/
inductive Packet (α : Type) where
  | voteRequest (sender recipient : PeerId) (generation : Generation) (args : VoteRequest)
  | voteReply (sender recipient : PeerId) (generation : Generation) (reply : Option VoteReply)
  | appendRequest (sender recipient : PeerId) (context : AppendContext) (args : AppendRequest α)
  | appendReply (sender recipient : PeerId) (context : AppendContext) (reply : Option AppendReply)
  deriving DecidableEq, Repr

structure Cluster (α : Type) where
  nodes : List (Node α)
  /-- For each node, what it has applied, in order. -/
  applied : List (List (LogIndex × α))
  packets : List (Packet α)
  isolated : List PeerId
  deriving DecidableEq, Repr

variable {α : Type}

/-- The call that an action sends out, if it is one. -/
def Action.packet? (sender : PeerId) : Action α → Option (Packet α)
  | .requestVote recipient generation args => some (.voteRequest sender recipient generation args)
  | .appendEntries recipient context args => some (.appendRequest sender recipient context args)
  | _ => none

/-- What an action hands over to be applied, if anything. -/
def Action.applied? : Action α → Option (LogIndex × α)
  | .apply i command => some (i, command)
  | _ => none

namespace Cluster

/-- A cluster of started nodes, all followers in term zero. -/
def fresh (size : Nat) : Cluster α where
  nodes := (List.range size).map fun i => (Node.fresh i size).start.node
  applied := List.replicate size []
  packets := []
  isolated := []

/-- Puts a node's turn into effect: calls are queued and commands are recorded as applied. Timers
are left alone. -/
def settle (c : Cluster α) (i : PeerId) (t : Turn α) : Cluster α where
  nodes := c.nodes.set i t.node
  applied := c.applied.modify i (· ++ t.actions.filterMap Action.applied?)
  packets := c.packets ++ t.actions.filterMap (Action.packet? i)
  isolated := c.isolated

/-- Lets an event happen to a node. Without such a node nothing happens. -/
def handle (c : Cluster α) (i : PeerId) (e : Event α) : Answer × Cluster α :=
  match c.nodes[i]? with
  | none => (.none, c)
  | some n => let (answer, t) := n.handle e; (answer, c.settle i t)

def electionTimeout (c : Cluster α) (i : PeerId) : Cluster α := (c.handle i .electionTimeout).2

def heartbeatTimeout (c : Cluster α) (i : PeerId) : Cluster α := (c.handle i .heartbeatTimeout).2

def submit (c : Cluster α) (i : PeerId) (command : α) : Answer × Cluster α :=
  c.handle i (.submit command)

/-- Cuts a node off from all others. -/
def isolate (c : Cluster α) (i : PeerId) : Cluster α := { c with isolated := i :: c.isolated }

def heal (c : Cluster α) (i : PeerId) : Cluster α :=
  { c with isolated := c.isolated.filter (· ≠ i) }

/-- Queues a second copy of every packet on its way. -/
def duplicate (c : Cluster α) : Cluster α := { c with packets := c.packets ++ c.packets }

def Reachable (c : Cluster α) (i j : PeerId) : Prop := i ∉ c.isolated ∧ j ∉ c.isolated

instance (c : Cluster α) (i j : PeerId) : Decidable (c.Reachable i j) :=
  inferInstanceAs (Decidable (_ ∧ _))

def enqueue (c : Cluster α) (p : Packet α) : Cluster α := { c with packets := c.packets ++ [p] }

/-- Delivers one packet. A call is answered in any case, after the calls that handling it has
caused; an unreachable node's answer is `none`. -/
def deliver (c : Cluster α) : Packet α → Cluster α
  | .voteRequest sender recipient generation args =>
    if c.Reachable sender recipient then
      match c.handle recipient (.voteRequest args) with
      | (.vote reply, c) => c.enqueue (.voteReply recipient sender generation (some reply))
      | (_, c) => c
    else c.enqueue (.voteReply recipient sender generation none)
  | .voteReply sender recipient generation reply =>
    (c.handle recipient (.voteReturned sender generation reply)).2
  | .appendRequest sender recipient context args =>
    if c.Reachable sender recipient then
      match c.handle recipient (.appendRequest args) with
      | (.append reply, c) => c.enqueue (.appendReply recipient sender context (some reply))
      | (_, c) => c
    else c.enqueue (.appendReply recipient sender context none)
  | .appendReply sender recipient context reply =>
    (c.handle recipient (.appendReturned sender context reply)).2

/-- Delivers the packet at the head of the queue, if there is one. -/
def deliverNext (c : Cluster α) : Cluster α :=
  match c.packets with
  | [] => c
  | p :: rest => deliver { c with packets := rest } p

/-- Delivers the given number of packets, or stops earlier when none are left. -/
def deliverMany : Nat → Cluster α → Cluster α
  | 0, c => c
  | k + 1, c => if c.packets.isEmpty then c else deliverMany k c.deliverNext

end Cluster

/-- How many deliveries an append call of a round can still cause, the call's own and its answer's
among them: every rejection lowers the cursor. -/
def Round.work : Round → Nat
  | .heartbeat => 2
  | .replicate _ cursor => 2 * (cursor.toNat + 1)

/-- How many deliveries a packet can still cause in a cluster of the given size, apart from waiting
agreements: a last vote makes a leader, who sends a heartbeat to everyone else. -/
def Packet.work (size : Nat) : Packet α → Nat
  | .voteRequest .. => 2 * size + 2
  | .voteReply .. => 2 * size + 1
  | .appendRequest _ _ context _ => context.round.work
  | .appendReply _ _ context _ => context.round.work - 1

/-- How many deliveries a node's waiting agreements can still cause. -/
def Node.work (n : Node α) : Nat :=
  match n.role with
  | .leader l => (l.waiting.map fun i => n.clusterSize * (2 * (i.toNat + 1))).foldr (· + ·) 0
  | _ => 0

namespace Cluster

/-- A bound on the deliveries to come, lowered by each of them. -/
def work (c : Cluster α) : Nat :=
  (c.packets.map (Packet.work c.nodes.length)).foldr (· + ·) 0 +
    (c.nodes.map Node.work).foldr (· + ·) 0

/-- Delivers packets until none are left, those included that come up on the way. -/
def deliverAll (c : Cluster α) : Cluster α := deliverMany c.work c

/-- The leader, if exactly one node takes itself for it. -/
def leader? (c : Cluster α) : Option PeerId :=
  match c.nodes.filter (·.isLeader) with
  | [only] => some only.id
  | _ => none

def count (c : Cluster α) (kind : RoleKind) : Nat := c.nodes.countP (·.role.kind = kind)

end Cluster

end Quorum
