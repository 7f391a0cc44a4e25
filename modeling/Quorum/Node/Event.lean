import Quorum.Node.Election
import Quorum.Node.Replication

/-!
All that can happen to a node, and how it answers. A run of a node is a sequence of events.
-/

namespace Quorum

inductive Event (α : Type) where
  | start
  | electionTimeout
  | heartbeatTimeout
  | submit (command : α)
  | voteRequest (args : VoteRequest)
  | appendRequest (args : AppendRequest α)
  | voteReturned (sender : PeerId) (generation : Generation) (reply : Option VoteReply)
  | appendReturned (sender : PeerId) (context : AppendContext) (reply : Option AppendReply)
  deriving DecidableEq, Repr

/-- What an event is answered with, besides actions. -/
inductive Answer where
  | none
  | vote (reply : VoteReply)
  | append (reply : AppendReply)
  | submission (s : Submission)
  deriving DecidableEq, Repr

namespace Node

variable {α : Type}

def handle (n : Node α) : Event α → Answer × Turn α
  | .start => (.none, n.start)
  | .electionTimeout => (.none, n.electionTimeout)
  | .heartbeatTimeout => (.none, n.heartbeatTimeout)
  | .submit command => let (s, t) := n.submit command; (.submission s, t)
  | .voteRequest args => let (reply, t) := n.answerVote args; (.vote reply, t)
  | .appendRequest args => let (reply, t) := n.answerAppend args; (.append reply, t)
  | .voteReturned sender generation reply => (.none, n.voteReturned sender generation reply)
  | .appendReturned sender context reply => (.none, n.appendReturned sender context reply)

/-- The node after an event. -/
def after (n : Node α) (e : Event α) : Node α := (n.handle e).2.node

/-- The node after one event after the other. -/
def afterAll (n : Node α) (es : List (Event α)) : Node α := es.foldl after n

end Node

end Quorum
