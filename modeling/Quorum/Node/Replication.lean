import Quorum.Node.Commit

/-!
Replication. A leader stores commands and has them copied; a follower writes what a leader of its
term sends, once the entry before it agrees with its own log.
-/

namespace Quorum.Node

variable {α : Type}

/-- The heartbeat timer has run out. Only a leader sends heartbeats and keeps the timer going. -/
def heartbeatTimeout (n : Node α) : Turn α :=
  if n.isLeader then ⟨n, n.heartbeats ++ [.scheduleHeartbeat]⟩ else n.idle

/-- A leader stores the command and starts to seek agreement on it as soon as all entries before it
are committed. -/
def submit (n : Node α) (command : α) : Submission × Turn α :=
  if n.isLeader then
    let log : Log α := n.log ++ [⟨n.term, command⟩]
    let t : Turn α := idle { n with log }
    (⟨log.lastIndex, n.term, true⟩, (t.mapLead (·.enqueue log.lastIndex)).resumeAgreements)
  else (⟨LogIndex.absent, n.term, false⟩, n.idle)

/-- The entries on which a successful call from a peer is an acknowledgement: those agreed on that
the peer is known to hold, and the one the call was made for. -/
def acknowledged (lead : Leadership) (sender : PeerId) : Round → List LogIndex
  | .heartbeat => lead.agreementsMatchedBy sender
  | .replicate agreement _ =>
    let known := lead.agreementsMatchedBy sender
    if agreement ∈ known then known else known ++ [agreement]

/-- A peer has accepted an append call. -/
def appendAccepted (t : Turn α) (sender : PeerId) (context : AppendContext) : Turn α :=
  let t := match context.lastSent with
    | some lastSent => t.mapLead (·.recordSuccess sender lastSent)
    | none => t
  match t.node.role with
  | .leader lead =>
    ((acknowledged lead sender context.round).foldl (·.acknowledge · sender) t).commitCovered
  | _ => t

/-- A peer has rejected an append call: its cursor goes back by one entry. A call that sought
agreement is repeated from there, until there is nothing before it. -/
def appendRejected (t : Turn α) (sender : PeerId) : Round → Turn α
  | .heartbeat => t.mapLead (·.recordFailure sender)
  | .replicate agreement cursor =>
    if 0 < cursor then
      let t := t.mapLead (·.recordFailure sender)
      t.emitAll (t.node.replicateCall? sender agreement cursor.prev).toList
    else t

/-- An append call has come back, with `none` if the peer could not be reached. An answer to a call
of an earlier generation tells at most of a later term. -/
def appendReturned (n : Node α) (sender : PeerId) (context : AppendContext)
    (reply : Option AppendReply) : Turn α :=
  match reply with
  | none => n.idle
  | some reply =>
    let t := n.idle.observeTerm reply.term
    if context.generation ≠ t.node.generation ∨ ¬ t.node.isLeader then t
    else if reply.success then appendAccepted t sender context
    else appendRejected t sender context.round

/-- Accepts the sender of a call as the leader of the call's term. This puts the next election
off. -/
def follow (n : Node α) (args : AppendRequest α) : Turn α :=
  let t := n.idle.observeTerm args.term
  let t := if n.role.isFollower then t.emit .resetElectionTimer else t.stepDown
  { t with node := { t.node with role := .follower (some args.leaderId) } }

/-- What remains of a log once it has been held against the entry before the ones received, and the
position at which to write those. A conflicting entry is discarded with all that follows it; a log
too short for the comparison refuses. -/
def reconcile? (log : Log α) (args : AppendRequest α) : Option (Log α × Nat) :=
  match args.prevLogIndex.position? with
  | none => some (log, 0)
  | some prev =>
    match log.termAt? args.prevLogIndex with
    | none => none
    | some held =>
      if some held = args.prevLogTerm then some (log, prev + 1) else some (log.take prev, prev)

/-- Answers an append call. -/
def answerAppend (n : Node α) (args : AppendRequest α) : AppendReply × Turn α :=
  if args.term < n.term then (⟨n.term, false⟩, n.idle)
  else
    let t := n.follow args
    match reconcile? t.node.log args with
    | none => (⟨t.node.term, false⟩, t)
    | some (log, start) =>
      let t := { t with node := { t.node with log := log.merge start args.entries } }
      (⟨args.term, true⟩,
        if t.node.commitIndex < args.leaderCommit then t.advanceCommit args.leaderCommit
        else t.applyCommitted)

end Quorum.Node
