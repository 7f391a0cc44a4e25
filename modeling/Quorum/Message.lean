import Quorum.Log

/-!
The two calls that members make to each other, with their answers, and the answer that a client
gets for a command.
-/

namespace Quorum

/-- Asks for a vote. A candidate advertises its commit index and the term of the entry there, not
the end of its log. -/
structure VoteRequest where
  term : Term
  candidateId : PeerId
  lastLogIndex : LogIndex
  lastLogTerm : Term
  deriving DecidableEq, Repr

structure VoteReply where
  term : Term
  voteGranted : Bool
  deriving DecidableEq, Repr

/-- Asks a follower to hold `entries` after the entry at `prevLogIndex`. Without entries it only
asserts leadership. -/
structure AppendRequest (α : Type) where
  term : Term
  leaderId : PeerId
  prevLogIndex : LogIndex
  /-- Absent when `prevLogIndex` stands for no entry. -/
  prevLogTerm : Option Term
  entries : List (Entry α)
  leaderCommit : LogIndex
  deriving DecidableEq, Repr

structure AppendReply where
  term : Term
  success : Bool
  deriving DecidableEq, Repr

/-- Answer to a client's command: the index it was stored at, or `LogIndex.absent` from a member
that does not lead. -/
structure Submission where
  index : LogIndex
  term : Term
  isLeader : Bool
  deriving DecidableEq, Repr

end Quorum
