import Quorum.Proofs.Emission
import Quorum.Proofs.Writing

/-!
How a node comes by what it keeps as a leader. It has just been elected, or it stores a command, or
an answer to one of its calls comes in; everything else leaves it as it was.
-/

namespace Quorum

variable {α : Type}

/-- All that can happen to a node that leads after an event. -/
inductive Node.Reign (opens : LogIndex → Prop) (acks : LogIndex → PeerId → Prop) (n : Node α)
    (e : Event α) : Prop
  | hold (hrole : (n.after e).role = n.role) (hlog : (n.after e).log = n.log)
      (hcommit : (n.after e).commitIndex = n.commitIndex)
  | accede (hbefore : ¬ n.isLeader)
      (hrole : (n.after e).role = .leader (.fresh n.clusterSize n.log.length))
      (hlog : (n.after e).log = n.log) (hcommit : (n.after e).commitIndex = n.commitIndex)
      (hgen : n.generation.Precedes (n.after e).generation)
  | store (command : α) (he : e = .submit command) (hleader : n.isLeader)
      (hsteps : (n.stored command).Steps opens acks (n.handle e).2)
  | count (sender : PeerId) (context : AppendContext) (reply : AppendReply)
      (he : e = .appendReturned sender context (some reply)) (hleader : n.isLeader)
      (hgen : context.generation = n.generation) (hsuccess : reply.success = true)
      (hsteps : (n.idle.record sender context).Steps opens acks (n.handle e).2)
  | retreat (sender : PeerId) (context : AppendContext) (reply : AppendReply)
      (he : e = .appendReturned sender context (some reply)) (hleader : n.isLeader)
      (hrole : (n.after e).role = n.role.mapLead (·.recordFailure sender))
      (hlog : (n.after e).log = n.log) (hcommit : (n.after e).commitIndex = n.commitIndex)

namespace Node

variable {n : Node α} {opens : LogIndex → Prop} {acks : LogIndex → PeerId → Prop}

/-- A node that steps down for a later term does not lead. -/
theorem observeTerm_not_leader {t : Turn α} {T : Term} (hT : t.node.term < T) :
    ¬ (t.observeTerm T).node.isLeader := by
  obtain ⟨leader, hrole⟩ := Turn.observeTerm_role hT
  simp [isLeader, hrole, Role.isLeader]

theorem electionTimeout_reign (h : (n.after .electionTimeout).isLeader) :
    n.Reign opens acks .electionTimeout := by
  by_cases hleader : n.isLeader
  · have hnode : n.after .electionTimeout = n :=
      congrArg Turn.node (electionTimeout_of_leader hleader)
    exact .hold (by rw [hnode]) (by rw [hnode]) (by rw [hnode])
  · have hnode : n.after .electionTimeout = n.standForElection.node :=
      congrArg Turn.node (electionTimeout_of_not_leader hleader)
    obtain ⟨-, hprec⟩ := n.standForElection_office
    have hwon : (Tally.single n.id).IsMajority n.clusterSize := by
      refine Decidable.byContradiction fun hlost => ?_
      rw [hnode] at h
      unfold standForElection at h
      simp only [hlost, if_false] at h
      cases h
    rw [← hnode] at hprec
    refine .accede hleader ?_ ?_ ?_ hprec
    · rw [hnode]
      unfold standForElection
      simp only [hwon, if_true]
      rfl
    · rw [hnode]
      exact n.standForElection_log
    · rw [hnode]
      unfold standForElection
      simp only [hwon, if_true]
      rfl

theorem answerVote_reign (args : VoteRequest) (h : (n.after (.voteRequest args)).isLeader) :
    n.Reign opens acks (.voteRequest args) := by
  have hafter : n.after (.voteRequest args) = (n.answerVote args).2.node := rfl
  rw [hafter] at h
  by_cases hfit : ¬ n.started ∨ args.term < n.term
  · have hnode : n.after (.voteRequest args) = n := by
      rw [hafter]
      unfold answerVote
      rw [if_pos hfit]
      rfl
    exact .hold (by rw [hnode]) (by rw [hnode]) (by rw [hnode])
  · have hrole : (n.answerVote args).2.node.role = (n.idle.observeTerm args.term).node.role := by
      unfold answerVote
      simp only [hfit, if_false]
      split <;> rfl
    have hcommit : (n.answerVote args).2.node.commitIndex = n.commitIndex := by
      have hsame : (n.idle.observeTerm args.term).node.commitIndex = n.commitIndex :=
        Turn.observeTerm_commitIndex _ _
      unfold answerVote
      simp only [hfit, if_false]
      split
      · exact hsame
      · exact hsame
    by_cases hT : n.term < args.term
    · refine absurd ?_ (observeTerm_not_leader (t := n.idle) hT)
      unfold isLeader at h ⊢
      rwa [hrole] at h
    · have hsame : n.idle.observeTerm args.term = n.idle :=
        Turn.observeTerm_of_le (Nat.le_of_not_lt hT)
      rw [hsame] at hrole
      exact .hold hrole (n.answerVote_log args) hcommit

theorem answerAppend_reign (args : AppendRequest α)
    (h : (n.after (.appendRequest args)).isLeader) : n.Reign opens acks (.appendRequest args) := by
  have hafter : n.after (.appendRequest args) = (n.answerAppend args).2.node := rfl
  have hnot : ∀ m : Node α, m.role = .follower (some args.leaderId) → ¬ m.isLeader := by
    intro m hm
    simp [isLeader, hm, Role.isLeader]
  rcases n.answerAppend_cases args with
    ⟨-, hturn⟩ | ⟨-, -, hturn⟩ | ⟨-, log, start, -, -, ⟨-, hturn⟩ | ⟨-, hturn⟩⟩
  · have hnode : n.after (.appendRequest args) = n := by
      rw [hafter, hturn]
      rfl
    exact .hold (by rw [hnode]) (by rw [hnode]) (by rw [hnode])
  · rw [hafter, hturn] at h
    exact absurd h (hnot _ rfl)
  · rw [hafter, hturn] at h
    exact absurd h (hnot _ rfl)
  · rw [hafter, hturn] at h
    exact absurd h (hnot _ rfl)

theorem voteReturned_reign (sender : PeerId) (generation : Generation) (reply : Option VoteReply)
    (h : (n.after (.voteReturned sender generation reply)).isLeader) :
    n.Reign opens acks (.voteReturned sender generation reply) := by
  have hafter : n.after (.voteReturned sender generation reply) =
      (n.voteReturned sender generation reply).node := rfl
  rcases n.voteReturned_cases sender generation reply with
    hturn | ⟨r, -, ⟨hlater, hturn⟩ | ⟨-, -, votes, hrole, ⟨-, hturn⟩ | ⟨-, hturn⟩⟩⟩
  · have hnode : n.after (.voteReturned sender generation reply) = n := by
      rw [hafter, hturn]
      rfl
    exact .hold (by rw [hnode]) (by rw [hnode]) (by rw [hnode])
  · rw [hafter, hturn] at h
    exact absurd h (observeTerm_not_leader (t := n.idle) hlater)
  · rw [hafter, hturn] at h
    cases h
  · have hbefore : ¬ n.isLeader := by simp [isLeader, hrole, Role.isLeader]
    refine .accede hbefore ?_ ?_ ?_ (Or.inl ?_)
    · rw [hafter, hturn]
      rfl
    · rw [hafter, hturn]
      rfl
    · rw [hafter, hturn]
      rfl
    · rw [hafter, hturn]
      rfl

theorem appendRejected_role (t : Turn α) (sender : PeerId) (round : Round) :
    ((appendRejected t sender round).node.role = t.node.role ∨
      (appendRejected t sender round).node.role =
        t.node.role.mapLead (·.recordFailure sender)) ∧
      (appendRejected t sender round).node.commitIndex = t.node.commitIndex := by
  unfold appendRejected
  split
  · exact ⟨Or.inr rfl, rfl⟩
  · split
    · exact ⟨Or.inr rfl, rfl⟩
    · exact ⟨Or.inl rfl, rfl⟩

theorem appendReturned_reign (sender : PeerId) (context : AppendContext)
    (reply : Option AppendReply)
    (h : (n.after (.appendReturned sender context reply)).isLeader)
    (hopens : ∀ i, n.Awaits i → opens i)
    (hacks : ∀ r lead, reply = some r → r.success = true → n.isLeader →
      context.generation = n.generation → (n.idle.record sender context).node.role = .leader lead →
      ∀ i ∈ acknowledged lead sender context.round, acks i sender) :
    n.Reign opens acks (.appendReturned sender context reply) := by
  have hafter : n.after (.appendReturned sender context reply) =
      (n.appendReturned sender context reply).node := rfl
  rcases n.appendReturned_cases sender context reply with
    hturn | ⟨r, rfl, ⟨hlater, hturn⟩ | ⟨-, hlead, hgen, ⟨hsuccess, hturn⟩ | ⟨-, hturn⟩⟩⟩
  · have hnode : n.after (.appendReturned sender context reply) = n := by
      rw [hafter, hturn]
      rfl
    exact .hold (by rw [hnode]) (by rw [hnode]) (by rw [hnode])
  · rw [hafter, hturn] at h
    exact absurd h (observeTerm_not_leader (t := n.idle) hlater)
  · have hsteps : (n.idle.record sender context).Steps opens acks
        (appendAccepted n.idle sender context) :=
      appendAccepted_steps (fun lead hrole => hacks r lead rfl hsuccess hlead hgen hrole)
        fun j hj => hopens j (record_awaits hj)
    refine .count sender context r rfl hlead hgen hsuccess ?_
    change (n.idle.record sender context).Steps opens acks
      (n.appendReturned sender context (some r))
    rw [hturn]
    exact hsteps
  · have hlog := n.appendReturned_log sender context (some r)
    obtain ⟨hrole, hcommit⟩ := appendRejected_role n.idle sender context.round
    rw [← hturn] at hrole hcommit
    rcases hrole with hsame | hback
    · exact .hold hsame hlog hcommit
    · exact .retreat sender context r rfl hlead hback hlog hcommit

/-- Word of a success tells nothing, or makes a leader step down, or is an acceptance. -/
theorem appendReturned_success (n : Node α) (sender : PeerId) (context : AppendContext)
    {reply : AppendReply} (hsuccess : reply.success = true) :
    n.appendReturned sender context (some reply) = n.idle ∨
      ¬ (n.after (.appendReturned sender context (some reply))).isLeader ∨
        n.appendReturned sender context (some reply) = appendAccepted n.idle sender context := by
  rcases n.appendReturned_cases sender context (some reply) with
    hturn | ⟨r, hreply, ⟨hlater, hturn⟩ | ⟨-, -, -, ⟨-, hturn⟩ | ⟨hfailed, -⟩⟩⟩
  · exact Or.inl hturn
  · refine Or.inr (Or.inl ?_)
    change ¬ (n.appendReturned sender context (some reply)).node.isLeader
    rw [hturn]
    exact observeTerm_not_leader (t := n.idle) hlater
  · exact Or.inr (Or.inr hturn)
  · rw [← Option.some.inj hreply, hsuccess] at hfailed
    cases hfailed

/-- Whoever leads after an event has come there in one of these ways. -/
theorem after_reign {e : Event α} (h : (n.after e).isLeader)
    (hopens : ∀ i, n.Awaits i ∨ (∃ command, e = .submit command) ∧ i = (n.log.length : Int) →
      opens i)
    (hacks : ∀ sender context r lead, e = .appendReturned sender context (some r) →
      r.success = true → n.isLeader → context.generation = n.generation →
      (n.idle.record sender context).node.role = .leader lead →
      ∀ i ∈ acknowledged lead sender context.round, acks i sender) : n.Reign opens acks e := by
  cases e with
  | start => exact .hold rfl rfl rfl
  | electionTimeout => exact electionTimeout_reign h
  | heartbeatTimeout =>
      have hnode : n.after .heartbeatTimeout = n := n.heartbeatTimeout_node
      exact .hold (by rw [hnode]) (by rw [hnode]) (by rw [hnode])
  | submit command =>
      by_cases hleader : n.isLeader
      · refine .store command rfl hleader (submit_steps hleader command ?_)
        intro j hj
        rcases stored_awaits hj with hold | hnew
        · exact hopens j (Or.inl hold)
        · exact hopens j (Or.inr ⟨⟨command, rfl⟩, hnew⟩)
      · have hnode : n.after (.submit command) = n := by
          change (n.submit command).2.node = n
          rw [submit_of_not_leader hleader]
          rfl
        exact .hold (by rw [hnode]) (by rw [hnode]) (by rw [hnode])
  | voteRequest args => exact answerVote_reign args h
  | appendRequest args => exact answerAppend_reign args h
  | voteReturned sender generation reply => exact voteReturned_reign sender generation reply h
  | appendReturned sender context reply =>
      refine appendReturned_reign sender context reply h (fun i hi => hopens i (Or.inl hi)) ?_
      intro r lead hreply
      exact hacks sender context r lead (by rw [hreply])

end Node

end Quorum
