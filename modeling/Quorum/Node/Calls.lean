import Quorum.Node

/-!
The append calls of a leader. A call to a peer carries the leader's log from the peer's cursor
through a last index, together with the entry before it as a check.
-/

namespace Quorum.Node

variable {α : Type}

/-- The call that sends a peer what it needs through the index `last`, if this node leads and
knows the peer. -/
def appendCall? (n : Node α) (peer : PeerId) (round : Round) (last : LogIndex) :
    Option (Action α) := do
  let lead ← n.role.lead?
  let next ← lead.next? peer
  let entries := n.log.slice next last
  let lastSent : Option LogIndex :=
    if entries = [] then none else some (next.toNat + entries.length - 1)
  return .appendEntries peer
    { generation := n.generation, round, lastSent }
    { term := n.term
      leaderId := n.id
      prevLogIndex := next.prev
      prevLogTerm := n.log.termAt? next.prev
      entries
      leaderCommit := n.commitIndex }

/-- One heartbeat for every other member, carrying all that it is missing. -/
def heartbeats (n : Node α) : List (Action α) :=
  n.others.filterMap (n.appendCall? · .heartbeat n.log.lastIndex)

/-- The call that seeks a peer's agreement on an entry. It reaches through the entry after the
commit index. -/
def replicateCall? (n : Node α) (peer : PeerId) (agreement cursor : LogIndex) : Option (Action α) :=
  n.appendCall? peer (.replicate agreement cursor) (min (n.commitIndex + 1) n.log.lastIndex)

end Quorum.Node
