import Quorum.Action

/-!
The consensus state machine of one cluster member. It performs no input or output: an event
changes the node and yields the actions that its surroundings must carry out.
-/

namespace Quorum

structure Node (α : Type) where
  id : PeerId
  clusterSize : Nat
  term : Term
  votedFor : Option PeerId
  log : Log α
  /-- The last index known to be committed. -/
  commitIndex : LogIndex
  /-- The last index handed over to be applied. -/
  lastApplied : LogIndex
  role : Role
  generation : Generation
  /-- A node grants no vote before it is started. -/
  started : Bool
  deriving DecidableEq, Repr

/-- A view of a node from outside. -/
structure Status where
  id : PeerId
  role : RoleKind
  term : Term
  leaderId : Option PeerId
  commitIndex : LogIndex
  lastApplied : LogIndex
  logLength : Nat
  deriving DecidableEq, Repr

/-- A node in the middle of handling an event, with the actions decided on so far. -/
structure Turn (α : Type) where
  node : Node α
  actions : List (Action α)
  deriving DecidableEq, Repr

variable {α : Type}

namespace Node

/-- A member begins as a follower in term zero with an empty log. -/
def fresh (id : PeerId) (clusterSize : Nat) : Node α where
  id := id
  clusterSize := clusterSize
  term := 0
  votedFor := none
  log := []
  commitIndex := LogIndex.absent
  lastApplied := LogIndex.absent
  role := .follower none
  generation := 0
  started := false

def isLeader (n : Node α) : Bool := n.role.isLeader

/-- The leader this node knows of: itself, or the one it follows. -/
def leaderId (n : Node α) : Option PeerId :=
  match n.role with
  | .follower leader => leader
  | .candidate _ => none
  | .leader _ => some n.id

def status (n : Node α) : Status where
  id := n.id
  role := n.role.kind
  term := n.term
  leaderId := n.leaderId
  commitIndex := n.commitIndex
  lastApplied := n.lastApplied
  logLength := n.log.length

/-- All other members, in the order of the member list. -/
def others (n : Node α) : List PeerId := (List.range n.clusterSize).filter (· ≠ n.id)

def idle (n : Node α) : Turn α := ⟨n, []⟩

/-- Takes part from now on. -/
def start (n : Node α) : Turn α := ⟨{ n with started := true }, [.resetElectionTimer]⟩

end Node

namespace Turn

def emit (t : Turn α) (a : Action α) : Turn α := { t with actions := t.actions ++ [a] }

def emitAll (t : Turn α) (as : List (Action α)) : Turn α := { t with actions := t.actions ++ as }

/-- Changes what the node keeps as a leader, if it leads. -/
def mapLead (t : Turn α) (f : Leadership → Leadership) : Turn α :=
  { t with node := { t.node with role := t.node.role.mapLead f } }

/-- Takes a role under a new generation. Only a change of kind is told. -/
def changeRole (t : Turn α) (r : Role) : Turn α where
  node := { t.node with role := r, generation := t.node.generation.next }
  actions := t.actions ++ if r.kind = t.node.role.kind then [] else [.roleChanged r.kind]

/-- Becomes a follower that knows no leader. A follower stays what it is. -/
def stepDown (t : Turn α) : Turn α :=
  match t.node.role with
  | .follower _ => t
  | _ => (t.changeRole (.follower none)).emitAll [.cancelHeartbeat, .resetElectionTimer]

/-- Adopts a later term: the vote is free again, and no leader or candidate of an earlier term
remains one. -/
def observeTerm (t : Turn α) (observed : Term) : Turn α :=
  if observed ≤ t.node.term then t
  else
    stepDown { t with node :=
      { t.node with
        term := observed, votedFor := none, generation := t.node.generation.next } }

end Turn

end Quorum
