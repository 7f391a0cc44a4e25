import Quorum.Message
import Quorum.Role

/-!
What a node asks its surroundings to do: call peers, arm and cancel timers, hand over committed
commands, tell of a new role.
-/

namespace Quorum

/-- Which kind of round an append call belongs to. -/
inductive Round where
  /-- Asserts leadership and carries whatever the peer is missing. -/
  | heartbeat
  /-- Seeks agreement on one entry. Each rejection lowers the cursor by one, until it is zero. -/
  | replicate (agreement cursor : LogIndex)
  deriving DecidableEq, Repr

/-- What a leader needs to make sense of the answer to an append call. -/
structure AppendContext where
  generation : Generation
  round : Round
  /-- Index of the last entry that the call carried, if it carried any. -/
  lastSent : Option LogIndex
  deriving DecidableEq, Repr

inductive Action (α : Type) where
  | requestVote (peer : PeerId) (generation : Generation) (args : VoteRequest)
  | appendEntries (peer : PeerId) (context : AppendContext) (args : AppendRequest α)
  | resetElectionTimer
  | cancelElectionTimer
  | scheduleHeartbeat
  | cancelHeartbeat
  | apply (index : LogIndex) (command : α)
  | roleChanged (kind : RoleKind)
  deriving DecidableEq, Repr

end Quorum
