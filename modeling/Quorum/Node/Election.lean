import Quorum.Node.Calls

/-!
Elections. A candidate needs the votes of a majority; a member gives one vote in a term. The
proof of a current log that comes with a request is the candidate's commit index and the term of
the entry there.
-/

namespace Quorum

variable {α : Type}

namespace Turn

/-- The election is won: peers learn of it by a first heartbeat. -/
def becomeLeader (t : Turn α) : Turn α :=
  let t := (t.changeRole
    (.leader (.fresh t.node.clusterSize t.node.log.length))).emit .cancelElectionTimer
  (t.emitAll t.node.heartbeats).emit .scheduleHeartbeat

end Turn

namespace Node

/-- What a candidate asks the others. -/
def voteRequest (n : Node α) : VoteRequest where
  term := n.term
  candidateId := n.id
  lastLogIndex := n.commitIndex
  lastLogTerm := (n.log.termAt? n.commitIndex).getD 0

/-- Stands for election in the next term, with its own vote. -/
def standForElection (n : Node α) : Turn α :=
  let votes := Tally.single n.id
  let t := Turn.changeRole
    (idle { n with term := n.term.next, votedFor := some n.id }) (.candidate votes)
  let calls := t.node.others.map fun p => .requestVote p t.node.generation t.node.voteRequest
  let t := (t.emitAll calls).emit .resetElectionTimer
  if votes.IsMajority n.clusterSize then t.becomeLeader else t

/-- The election timer has run out. A leader ignores it. -/
def electionTimeout (n : Node α) : Turn α := if n.isLeader then n.idle else n.standForElection

/-- Whether a candidate's proof of its log is good enough, for a node whose own term was `ownTerm`
before it saw the request. -/
def LogIsCurrent (n : Node α) (ownTerm : Term) (args : VoteRequest) : Prop :=
  n.commitIndex ≤ args.lastLogIndex ∧ ownTerm ≤ args.lastLogTerm

instance (n : Node α) (ownTerm : Term) (args : VoteRequest) :
    Decidable (n.LogIsCurrent ownTerm args) :=
  inferInstanceAs (Decidable (_ ∧ _))

/-- A free vote is granted to whoever asks first; a vote once given is only confirmed, to the same
candidate and on proof of a current log. -/
def Grants (n : Node α) (ownTerm : Term) (args : VoteRequest) : Prop :=
  match n.votedFor with
  | none => True
  | some voted => voted = args.candidateId ∧ n.LogIsCurrent ownTerm args

instance (n : Node α) (ownTerm : Term) (args : VoteRequest) :
    Decidable (n.Grants ownTerm args) := by
  unfold Grants; split <;> infer_instance

/-- Answers a request for a vote. -/
def answerVote (n : Node α) (args : VoteRequest) : VoteReply × Turn α :=
  if ¬ n.started ∨ args.term < n.term then (⟨n.term, false⟩, n.idle)
  else
    let t := n.idle.observeTerm args.term
    if t.node.Grants n.term args then
      (⟨args.term, true⟩,
        { t with node := { t.node with votedFor := some args.candidateId, term := args.term } })
    else (⟨t.node.term, false⟩, t)

/-- A call for a vote made under `generation` has come back, with `none` if the peer could not be
reached. Only a vote for the candidacy that asked for it counts. -/
def voteReturned (n : Node α) (sender : PeerId) (generation : Generation)
    (reply : Option VoteReply) : Turn α :=
  match reply with
  | none => n.idle
  | some reply =>
    let t := n.idle.observeTerm reply.term
    match t.node.role with
    | .candidate votes =>
      if reply.voteGranted ∧ generation = t.node.generation then
        let votes := votes.add sender
        let t := { t with node := { t.node with role := .candidate votes } }
        if votes.IsMajority t.node.clusterSize then t.becomeLeader else t
      else t
    | _ => t

end Node

end Quorum
