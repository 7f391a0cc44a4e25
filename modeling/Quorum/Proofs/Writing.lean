import Quorum.Proofs.Delivery
import Quorum.Proofs.Office

/-!
How events move logs and commit indices. A leader stores a command, a follower writes what a leader
of its term has sent; nothing else touches a log. A leader commits what it has counted, a follower
what a leader tells it to.
-/

namespace Quorum

variable {α : Type}

/-- The ways in which an event can move the log of a node. -/
inductive Node.Writes (n : Node α) (e : Event α) (m : Node α) : Prop
  | keep (hlog : m.log = n.log)
  | store (command : α) (he : e = .submit command) (hleader : n.isLeader)
      (hlog : m.log = n.log ++ [⟨n.term, command⟩])
  | accept (args : AppendRequest α) (log : Log α) (start : Nat) (he : e = .appendRequest args)
      (hle : n.term ≤ args.term) (hterm : m.term = args.term)
      (hrole : m.role = .follower (some args.leaderId))
      (hfit : reconcile? n.log args = some (log, start))
      (hlog : m.log = log.merge start args.entries)

namespace Node

theorem standForElection_log (n : Node α) : n.standForElection.node.log = n.log := by
  unfold standForElection
  simp only
  split <;> rfl

theorem answerVote_log (n : Node α) (args : VoteRequest) :
    (n.answerVote args).2.node.log = n.log := by
  have hterm : (n.idle.observeTerm args.term).node.log = n.log := Turn.observeTerm_log _ _
  unfold answerVote
  split
  · rfl
  · simp only
    split
    · exact hterm
    · exact hterm

theorem voteReturned_log (n : Node α) (sender : PeerId) (generation : Generation)
    (reply : Option VoteReply) : (n.voteReturned sender generation reply).node.log = n.log := by
  rcases n.voteReturned_cases sender generation reply with
    hturn | ⟨r, -, ⟨-, hturn⟩ | ⟨-, -, votes, -, ⟨-, hturn⟩ | ⟨-, hturn⟩⟩⟩
  · rw [hturn]
    rfl
  · rw [hturn]
    exact Turn.observeTerm_log _ _
  · rw [hturn]
    rfl
  · rw [hturn]
    rfl

theorem record_log (t : Turn α) (sender : PeerId) (context : AppendContext) :
    (t.record sender context).node.log = t.node.log := by
  unfold Turn.record
  split <;> rfl

theorem appendAccepted_log (t : Turn α) (sender : PeerId) (context : AppendContext) :
    (appendAccepted t sender context).node.log = t.node.log := by
  have hsteps : Turn.AnySteps (t.record sender context) (appendAccepted t sender context) :=
    appendAccepted_steps (fun _ _ _ _ => trivial) fun _ _ => trivial
  exact (standing_log hsteps.standing).trans (record_log t sender context)

theorem appendRejected_log (t : Turn α) (sender : PeerId) (round : Round) :
    (appendRejected t sender round).node.log = t.node.log := by
  unfold appendRejected
  split
  · rfl
  · split <;> rfl

theorem appendReturned_log (n : Node α) (sender : PeerId) (context : AppendContext)
    (reply : Option AppendReply) : (n.appendReturned sender context reply).node.log = n.log := by
  rcases n.appendReturned_cases sender context reply with
    hturn | ⟨r, -, ⟨-, hturn⟩ | ⟨-, -, -, ⟨-, hturn⟩ | ⟨-, hturn⟩⟩⟩
  · rw [hturn]
    rfl
  · rw [hturn]
    exact Turn.observeTerm_log _ _
  · rw [hturn]
    exact appendAccepted_log n.idle sender context
  · rw [hturn]
    exact appendRejected_log n.idle sender context.round

theorem submit_log {n : Node α} (hleader : n.isLeader) (command : α) :
    (n.submit command).2.node.log = n.log ++ [⟨n.term, command⟩] := by
  have hsteps : Turn.AnySteps (n.stored command) (n.submit command).2 :=
    submit_steps hleader command fun _ _ => trivial
  exact standing_log hsteps.standing

theorem submit_writes (n : Node α) (command : α) :
    n.Writes (.submit command) (n.submit command).2.node := by
  by_cases hleader : n.isLeader
  · exact .store command rfl hleader (submit_log hleader command)
  · rw [submit_of_not_leader hleader]
    exact .keep rfl

theorem answerAppend_writes (n : Node α) (args : AppendRequest α) :
    n.Writes (.appendRequest args) (n.answerAppend args).2.node := by
  rcases n.answerAppend_cases args with
    ⟨-, hturn⟩ | ⟨-, -, hturn⟩ | ⟨hle, log, start, hfit, -, hwrite⟩
  · rw [hturn]
    exact .keep rfl
  · rw [hturn]
    exact .keep (n.follow_log args)
  · have hterm : (n.written args (log.merge start args.entries)).node.term = args.term :=
      n.follow_term hle
    rcases hwrite with ⟨-, hturn⟩ | ⟨-, hturn⟩
    · rw [hturn]
      exact .accept args log start rfl hle hterm rfl hfit rfl
    · rw [hturn]
      exact .accept args log start rfl hle hterm rfl hfit rfl

/-- Whatever happens to a node, its log moves in one of these ways. -/
theorem after_writes (n : Node α) (e : Event α) : n.Writes e (n.after e) := by
  cases e with
  | start => exact .keep rfl
  | electionTimeout =>
      refine .keep ?_
      change n.electionTimeout.node.log = n.log
      unfold electionTimeout
      split
      · rfl
      · exact n.standForElection_log
  | heartbeatTimeout => exact .keep (congrArg Node.log n.heartbeatTimeout_node)
  | submit command => exact n.submit_writes command
  | voteRequest args => exact .keep (n.answerVote_log args)
  | appendRequest args => exact n.answerAppend_writes args
  | voteReturned sender generation reply =>
      exact .keep (n.voteReturned_log sender generation reply)
  | appendReturned sender context reply =>
      exact .keep (n.appendReturned_log sender context reply)

/-- Only a leader's log grows by itself, and only a follower's is written. -/
theorem Writes.of_candidate {n m : Node α} {e : Event α} (h : n.Writes e m)
    (hshift : n.Shift e m) (hm : m.role.kind = .candidate) : m.log = n.log := by
  cases h with
  | keep hlog => exact hlog
  | store command he hleader hlog =>
      have hn : n.role.kind = .leader := Role.isLeader_iff.mp hleader
      cases hshift with
      | stay h => rw [h.kind, hn] at hm; cases hm
      | vote args he' => rw [he] at he'; cases he'
      | adopt _ _ _ _ hkind => rw [hkind] at hm; cases hm
      | yield _ _ _ _ _ _ _ _ hkind => rw [hkind] at hm; cases hm
      | stand _ _ _ _ hold => exact absurd hn hold
      | count votes sender reply he' => rw [he] at he'; cases he'
      | win votes sender reply he' => rw [he] at he'; cases he'
  | accept args log start he hle hterm hrole hfit hlog => rw [hrole] at hm; cases hm

/-- A leader that remains one in the same term only adds to its log. -/
theorem Writes.of_leader {n m : Node α} {e : Event α} (h : n.Writes e m) (hm : m.isLeader) :
    n.log <+: m.log := by
  cases h with
  | keep hlog => exact hlog ▸ List.prefix_rfl
  | store command he hleader hlog =>
      rw [hlog]
      exact List.prefix_append _ _
  | accept args log start he hle hterm hrole hfit hlog =>
      rw [isLeader, hrole] at hm
      cases hm

/-- A node that has come to lead has the log it had before. -/
theorem Writes.of_accession {n m : Node α} {e : Event α} (h : n.Writes e m) (hm : m.isLeader)
    (hn : ¬ n.isLeader) : m.log = n.log := by
  cases h with
  | keep hlog => exact hlog
  | store command he hleader hlog => exact absurd hleader hn
  | accept args log start he hle hterm hrole hfit hlog =>
      rw [isLeader, hrole] at hm
      cases hm

end Node

/-- The ways in which an event can move the commit index of a node. -/
inductive Node.Commits (n : Node α) (e : Event α) (m : Node α) : Prop
  | keep (hcommit : m.commitIndex = n.commitIndex)
  | lead (hleader : m.isLeader)
  | follow (args : AppendRequest α) (log : Log α) (start : Nat) (he : e = .appendRequest args)
      (hle : n.term ≤ args.term) (hterm : m.term = args.term)
      (hfit : reconcile? n.log args = some (log, start))
      (hlog : m.log = log.merge start args.entries) (hless : n.commitIndex < args.leaderCommit)
      (hcommit : m.commitIndex = max n.commitIndex (min args.leaderCommit m.log.lastIndex))

namespace Node

theorem submit_commits (n : Node α) (command : α) :
    n.Commits (.submit command) (n.submit command).2.node := by
  by_cases hleader : n.isLeader
  · apply Commits.lead
    rw [(n.submit_sameOffice command).isLeader]
    exact hleader
  · rw [submit_of_not_leader hleader]
    exact .keep rfl

theorem answerAppend_commits (n : Node α) (args : AppendRequest α) :
    n.Commits (.appendRequest args) (n.answerAppend args).2.node := by
  have hcommit : (n.follow args).node.commitIndex = n.commitIndex := n.follow_commitIndex args
  rcases n.answerAppend_cases args with
    ⟨-, hturn⟩ | ⟨-, -, hturn⟩ | ⟨hle, log, start, hfit, -, ⟨hless, hturn⟩ | ⟨-, hturn⟩⟩
  · rw [hturn]
    exact .keep rfl
  · rw [hturn]
    exact .keep hcommit
  · have hterm : (n.follow args).node.term = args.term := n.follow_term hle
    rw [hturn]
    refine .follow args log start rfl hle hterm hfit rfl hless ?_
    rw [← hcommit]
    exact Turn.commitThrough_commitIndex _ _
  · rw [hturn]
    exact .keep hcommit

theorem appendReturned_commits (n : Node α) (sender : PeerId) (context : AppendContext)
    (reply : Option AppendReply) :
    n.Commits (.appendReturned sender context reply)
      (n.appendReturned sender context reply).node := by
  rcases n.appendReturned_cases sender context reply with
    hturn | ⟨r, -, ⟨-, hturn⟩ | ⟨-, hleader, -, ⟨-, hturn⟩ | ⟨-, hturn⟩⟩⟩
  · rw [hturn]
    exact .keep rfl
  · rw [hturn]
    exact .keep (Turn.observeTerm_commitIndex _ _)
  · apply Commits.lead
    rw [hturn, (appendAccepted_sameOffice n.idle sender context).isLeader]
    exact hleader
  · apply Commits.lead
    rw [hturn, (appendRejected_sameOffice n.idle sender context.round).isLeader]
    exact hleader

/-- Whatever happens to a node, its commit index moves in one of these ways. -/
theorem after_commits (n : Node α) (e : Event α) : n.Commits e (n.after e) := by
  cases e with
  | start => exact .keep rfl
  | electionTimeout =>
      apply Commits.keep
      change n.electionTimeout.node.commitIndex = n.commitIndex
      unfold electionTimeout
      split
      · rfl
      · exact n.standForElection_withholds.commitIndex
  | heartbeatTimeout => exact .keep (congrArg Node.commitIndex n.heartbeatTimeout_node)
  | submit command => exact n.submit_commits command
  | voteRequest args => exact .keep (n.answerVote_withholds args).commitIndex
  | appendRequest args => exact n.answerAppend_commits args
  | voteReturned sender generation reply =>
      exact .keep (n.voteReturned_withholds sender generation reply).commitIndex
  | appendReturned sender context reply => exact n.appendReturned_commits sender context reply

end Node

end Quorum
