import Quorum.Proofs.Calls
import Quorum.Proofs.Commitment

/-!
What each call to a node comes down to. The lemmas open the handlers once: a call of an earlier
term is turned away, a later term is adopted, and what remains is written, counted or sent.
-/

namespace Quorum

variable {α : Type}

namespace Turn

@[simp] theorem stepDown_log (t : Turn α) : t.stepDown.node.log = t.node.log := by
  unfold stepDown
  split <;> rfl

@[simp] theorem stepDown_term (t : Turn α) : t.stepDown.node.term = t.node.term := by
  unfold stepDown
  split <;> rfl

@[simp] theorem stepDown_commitIndex (t : Turn α) :
    t.stepDown.node.commitIndex = t.node.commitIndex := by
  unfold stepDown
  split <;> rfl

theorem observeTerm_of_le {t : Turn α} {T : Term} (h : T ≤ t.node.term) : t.observeTerm T = t := by
  simp [observeTerm, h]

@[simp] theorem observeTerm_log (t : Turn α) (T : Term) :
    (t.observeTerm T).node.log = t.node.log := by
  unfold observeTerm
  split
  · rfl
  · exact stepDown_log _

@[simp] theorem observeTerm_commitIndex (t : Turn α) (T : Term) :
    (t.observeTerm T).node.commitIndex = t.node.commitIndex := by
  unfold observeTerm
  split
  · rfl
  · exact stepDown_commitIndex _

theorem observeTerm_term (t : Turn α) (T : Term) :
    (t.observeTerm T).node.term = max t.node.term T := by
  unfold observeTerm
  split
  · rename_i h
    exact (Nat.max_eq_left h).symm
  · rename_i h
    rw [stepDown_term, Nat.max_eq_right (Nat.le_of_not_le h)]

/-- A node that observes a later term ends up a follower. -/
theorem observeTerm_role {t : Turn α} {T : Term} (h : t.node.term < T) :
    ∃ leader, (t.observeTerm T).node.role = .follower leader := by
  unfold observeTerm
  rw [if_neg (Nat.not_le_of_lt h)]
  unfold stepDown
  split
  · rename_i leader hrole
    exact ⟨leader, hrole⟩
  · exact ⟨none, rfl⟩

/-- A peer's acceptance of a call is recorded at its cursor. -/
def record (t : Turn α) (sender : PeerId) (context : AppendContext) : Turn α :=
  match context.lastSent with
  | some lastSent => t.mapLead (·.recordSuccess sender lastSent)
  | none => t

end Turn

namespace Node

@[simp] theorem idle_node (n : Node α) : n.idle.node = n := rfl

/-- A leader with a new command stored that waits for agreement. -/
def stored (n : Node α) (command : α) : Turn α :=
  (idle { n with log := n.log ++ [⟨n.term, command⟩] }).mapLead
    (·.enqueue (Log.lastIndex (n.log ++ [⟨n.term, command⟩])))

theorem stored_role {n : Node α} {l : Leadership} (hl : n.role = .leader l) (command : α) :
    (n.stored command).node.role =
      .leader (l.enqueue (Log.lastIndex (n.log ++ [⟨n.term, command⟩]))) :=
  Turn.mapLead_role hl _

/-- A follower of the sender of an append call, with a log in place of its own. -/
def written (n : Node α) (args : AppendRequest α) (log : Log α) : Turn α :=
  { n.follow args with node := { (n.follow args).node with log } }

section Commitment

variable {opens : LogIndex → Prop} {acks : LogIndex → PeerId → Prop} {n : Node α}

theorem submit_of_not_leader (h : ¬ n.isLeader) (command : α) :
    (n.submit command).2 = n.idle := by
  unfold submit
  rw [if_neg h]

theorem submit_steps (hleader : n.isLeader) (command : α)
    (h : ∀ j, (n.stored command).node.Awaits j → opens j) :
    (n.stored command).Steps opens acks (n.submit command).2 := by
  unfold submit
  rw [if_pos hleader]
  exact Turn.resumeAgreements_steps h

/-- What a leader does about an acceptance once it has recorded it. -/
theorem appendAccepted_cases (t : Turn α) (sender : PeerId) (context : AppendContext) :
    (∃ lead, (t.record sender context).node.role = .leader lead ∧
      appendAccepted t sender context =
        ((acknowledged lead sender context.round).foldl (·.acknowledge · sender)
          (t.record sender context)).commitCovered) ∨
      appendAccepted t sender context = t.record sender context := by
  unfold appendAccepted
  simp only
  split
  · rename_i lead hrole
    exact Or.inl ⟨lead, hrole, rfl⟩
  · exact Or.inr rfl

theorem appendAccepted_of_leader {t : Turn α} {sender : PeerId} {context : AppendContext}
    {l : Leadership} (h : (t.record sender context).node.role = .leader l) :
    appendAccepted t sender context =
      ((acknowledged l sender context.round).foldl (·.acknowledge · sender)
        (t.record sender context)).commitCovered := by
  unfold appendAccepted
  simp only
  split
  · rename_i lead hrole
    obtain rfl := Role.leader.inj (h.symm.trans hrole)
    rfl
  · rename_i hnot
    exact absurd h (hnot l)

theorem appendAccepted_of_not_leader {t : Turn α} {sender : PeerId} {context : AppendContext}
    (h : ∀ l, (t.record sender context).node.role ≠ .leader l) :
    appendAccepted t sender context = t.record sender context := by
  rcases appendAccepted_cases t sender context with ⟨lead, hrole, -⟩ | hturn
  · exact absurd hrole (h lead)
  · exact hturn

theorem appendAccepted_steps {t : Turn α} {sender : PeerId} {context : AppendContext}
    (hacks : ∀ lead, (t.record sender context).node.role = .leader lead →
      ∀ i ∈ acknowledged lead sender context.round, acks i sender)
    (h : ∀ j, (t.record sender context).node.Awaits j → opens j) :
    (t.record sender context).Steps opens acks (appendAccepted t sender context) := by
  rcases appendAccepted_cases t sender context with ⟨lead, hrole, hturn⟩ | hturn
  · have hcount : (t.record sender context).Steps opens acks
        ((acknowledged lead sender context.round).foldl (·.acknowledge · sender)
          (t.record sender context)) :=
      Turn.foldl_acknowledge_steps (hacks lead hrole) h
    rw [hturn]
    exact hcount.trans (Turn.commitCovered_steps fun j hj => h j (hcount.awaits hj))
  · rw [hturn]

end Commitment

variable (n : Node α)

@[simp] theorem follow_log (args : AppendRequest α) : (n.follow args).node.log = n.log := by
  have hterm : (n.idle.observeTerm args.term).node.log = n.log := Turn.observeTerm_log _ _
  unfold follow
  simp only
  split
  · exact hterm
  · exact (Turn.stepDown_log _).trans hterm

theorem follow_term {args : AppendRequest α} (h : n.term ≤ args.term) :
    (n.follow args).node.term = args.term := by
  have hterm : (n.idle.observeTerm args.term).node.term = args.term :=
    (Turn.observeTerm_term _ _).trans (Nat.max_eq_right h)
  unfold follow
  simp only
  split
  · exact hterm
  · exact (Turn.stepDown_term _).trans hterm

@[simp] theorem follow_commitIndex (args : AppendRequest α) :
    (n.follow args).node.commitIndex = n.commitIndex := by
  have hcommit : (n.idle.observeTerm args.term).node.commitIndex = n.commitIndex :=
    Turn.observeTerm_commitIndex _ _
  unfold follow
  simp only
  split
  · exact hcommit
  · exact (Turn.stepDown_commitIndex _).trans hcommit

/-- An append call is turned away for its term, or refused for what precedes its entries, or
written; then what the leader has committed is committed too. -/
theorem answerAppend_cases (args : AppendRequest α) :
    args.term < n.term ∧ n.answerAppend args = (⟨n.term, false⟩, n.idle) ∨
    n.term ≤ args.term ∧ reconcile? n.log args = none ∧
      n.answerAppend args = (⟨args.term, false⟩, n.follow args) ∨
    n.term ≤ args.term ∧ ∃ log start, reconcile? n.log args = some (log, start) ∧
      (n.answerAppend args).1 = ⟨args.term, true⟩ ∧
      (n.commitIndex < args.leaderCommit ∧ (n.answerAppend args).2 =
          (n.written args (log.merge start args.entries)).commitThrough args.leaderCommit ∨
        args.leaderCommit ≤ n.commitIndex ∧ (n.answerAppend args).2 =
          (n.written args (log.merge start args.entries)).applyCommitted) := by
  by_cases hterm : args.term < n.term
  · exact Or.inl ⟨hterm, by simp [answerAppend, hterm]⟩
  · have hle : n.term ≤ args.term := Nat.le_of_not_lt hterm
    have hlog : (n.follow args).node.log = n.log := n.follow_log args
    refine Or.inr ?_
    cases hfit : reconcile? n.log args with
    | none =>
        refine Or.inl ⟨hle, rfl, ?_⟩
        simp only [answerAppend, hterm, if_false, hlog, hfit, n.follow_term hle]
    | some kept =>
        obtain ⟨log, start⟩ := kept
        refine Or.inr ⟨hle, log, start, rfl, ?_, ?_⟩
        · simp only [answerAppend, hterm, if_false, hlog, hfit]
        · have hturn : (n.answerAppend args).2 =
              if (n.written args (log.merge start args.entries)).node.commitIndex <
                  args.leaderCommit then
                (n.written args (log.merge start args.entries)).advanceCommit args.leaderCommit
              else (n.written args (log.merge start args.entries)).applyCommitted := by
            simp only [answerAppend, hterm, if_false, hlog, hfit]
            rfl
          have hcommit : (n.written args (log.merge start args.entries)).node.commitIndex =
              n.commitIndex := n.follow_commitIndex args
          have hfollower : (n.written args (log.merge start args.entries)).node.role =
              .follower (some args.leaderId) := rfl
          rw [hturn, hcommit, Turn.advanceCommit_of_follower hfollower]
          split
          · rename_i hless
            exact Or.inl ⟨hless, rfl⟩
          · rename_i hless
            exact Or.inr ⟨Int.not_lt.mp hless, rfl⟩

/-- A success means that the call has been written, in its own term. -/
theorem answerAppend_success {args : AppendRequest α}
    (h : (n.answerAppend args).1.success = true) :
    n.term ≤ args.term ∧ (n.answerAppend args).2.node.term = args.term ∧
      ∃ log start, reconcile? n.log args = some (log, start) ∧
        (n.answerAppend args).2.node.log = log.merge start args.entries := by
  rcases n.answerAppend_cases args with
    ⟨-, hturn⟩ | ⟨-, -, hturn⟩ | ⟨hle, log, start, hfit, -, hwrite⟩
  · rw [hturn] at h
    cases h
  · rw [hturn] at h
    cases h
  · have hterm : (n.written args (log.merge start args.entries)).node.term = args.term :=
      n.follow_term hle
    refine ⟨hle, ?_, log, start, hfit, ?_⟩
    · rcases hwrite with ⟨-, hturn⟩ | ⟨-, hturn⟩
      · rw [hturn]
        exact hterm
      · rw [hturn]
        exact hterm
    · rcases hwrite with ⟨-, hturn⟩ | ⟨-, hturn⟩
      · rw [hturn]
        rfl
      · rw [hturn]
        rfl

variable {n} in
/-- Of the answer to a vote request that tells of a later term, nothing else counts. -/
theorem voteReturned_of_lt {r : VoteReply} (hlater : n.term < r.term) (sender : PeerId)
    (generation : Generation) :
    n.voteReturned sender generation (some r) = n.idle.observeTerm r.term := by
  obtain ⟨leader, hrole⟩ := Turn.observeTerm_role (t := n.idle) hlater
  simp only [voteReturned, hrole]

variable {n} in
/-- A vote for a candidate of this generation is counted, and may decide the election. -/
theorem voteReturned_granted {r : VoteReply} {votes : Tally} {p : PeerId} {g : Generation}
    (hle : r.term ≤ n.term) (hrole : n.role = .candidate votes) (h : r.voteGranted = true)
    (hg : g = n.generation) :
    n.voteReturned p g (some r) =
      if (votes.add p).IsMajority n.clusterSize then
        (idle { n with role := .candidate (votes.add p) }).becomeLeader
      else idle { n with role := .candidate (votes.add p) } := by
  have hsame : n.idle.observeTerm r.term = n.idle := Turn.observeTerm_of_le hle
  simp only [voteReturned, hsame, idle_node, hrole, h, hg, and_self, if_true]
  rfl

variable {n} in
/-- Of the answer to an append call that tells of a later term, nothing else counts either. -/
theorem appendReturned_of_lt {r : AppendReply} (hlater : n.term < r.term) (sender : PeerId)
    (context : AppendContext) :
    n.appendReturned sender context (some r) = n.idle.observeTerm r.term := by
  obtain ⟨leader, hrole⟩ := Turn.observeTerm_role (t := n.idle) hlater
  have hskip : context.generation ≠ (n.idle.observeTerm r.term).node.generation ∨
      ¬ (n.idle.observeTerm r.term).node.isLeader := by
    refine Or.inr ?_
    simp [isLeader, hrole, Role.isLeader]
  simp only [appendReturned, hskip, if_true]

/-- The answer to an append call tells of a later term, or tells nothing, or is counted by the
leader that made the call. -/
theorem appendReturned_cases (sender : PeerId) (context : AppendContext)
    (reply : Option AppendReply) :
    n.appendReturned sender context reply = n.idle ∨
    ∃ r, reply = some r ∧
      (n.term < r.term ∧ n.appendReturned sender context reply = n.idle.observeTerm r.term ∨
        r.term ≤ n.term ∧ n.isLeader ∧ context.generation = n.generation ∧
          (r.success = true ∧
              n.appendReturned sender context reply = appendAccepted n.idle sender context ∨
            r.success = false ∧
              n.appendReturned sender context reply =
                appendRejected n.idle sender context.round)) := by
  cases reply with
  | none => exact Or.inl rfl
  | some r =>
      by_cases hterm : r.term ≤ n.term
      · have hsame : n.idle.observeTerm r.term = n.idle := Turn.observeTerm_of_le hterm
        by_cases hlead : context.generation = n.generation ∧ n.isLeader
        · have hnot : ¬ (context.generation ≠ n.idle.node.generation ∨ ¬ n.idle.node.isLeader) :=
            fun h => h.elim (fun hgen => hgen hlead.1) (fun hnot => hnot hlead.2)
          refine Or.inr ⟨r, rfl, Or.inr ⟨hterm, hlead.2, hlead.1, ?_⟩⟩
          simp only [appendReturned, hsame, hnot, if_false]
          cases hsuccess : r.success with
          | true => exact Or.inl ⟨rfl, rfl⟩
          | false => exact Or.inr ⟨rfl, rfl⟩
        · have hskip : context.generation ≠ n.idle.node.generation ∨ ¬ n.idle.node.isLeader :=
            Decidable.not_and_iff_or_not.mp hlead
          refine Or.inl ?_
          simp only [appendReturned, hsame, hskip, if_true]
      · have hlater : n.term < r.term := Nat.lt_of_not_le hterm
        exact Or.inr ⟨r, rfl, Or.inl ⟨hlater, appendReturned_of_lt hlater sender context⟩⟩

/-- The answer to a vote request tells of a later term, or tells nothing, or is a vote; the vote
may decide the election. -/
theorem voteReturned_cases (sender : PeerId) (generation : Generation)
    (reply : Option VoteReply) :
    n.voteReturned sender generation reply = n.idle ∨
    ∃ r, reply = some r ∧
      (n.term < r.term ∧ n.voteReturned sender generation reply = n.idle.observeTerm r.term ∨
        r.voteGranted = true ∧ generation = n.generation ∧ ∃ votes, n.role = .candidate votes ∧
          (¬ (votes.add sender).IsMajority n.clusterSize ∧
              n.voteReturned sender generation reply =
                idle { n with role := .candidate (votes.add sender) } ∨
            (votes.add sender).IsMajority n.clusterSize ∧
              n.voteReturned sender generation reply =
                (idle { n with role := .candidate (votes.add sender) }).becomeLeader)) := by
  cases reply with
  | none => exact Or.inl rfl
  | some r =>
      by_cases hterm : r.term ≤ n.term
      · have hsame : n.idle.observeTerm r.term = n.idle := Turn.observeTerm_of_le hterm
        cases hrole : n.role with
        | candidate votes =>
            by_cases hcounts : r.voteGranted = true ∧ generation = n.generation
            · refine Or.inr ⟨r, rfl, Or.inr ⟨hcounts.1, hcounts.2, votes, rfl, ?_⟩⟩
              rw [voteReturned_granted hterm hrole hcounts.1 hcounts.2]
              split
              · rename_i hmajority
                exact Or.inr ⟨hmajority, rfl⟩
              · rename_i hshort
                exact Or.inl ⟨hshort, rfl⟩
            · refine Or.inl ?_
              simp only [voteReturned, hsame, idle_node, hrole, hcounts, if_false]
        | follower leader => exact Or.inl (by simp only [voteReturned, hsame, idle_node, hrole])
        | leader lead => exact Or.inl (by simp only [voteReturned, hsame, idle_node, hrole])
      · have hlater : n.term < r.term := Nat.lt_of_not_le hterm
        exact Or.inr ⟨r, rfl, Or.inl ⟨hlater, voteReturned_of_lt hlater sender generation⟩⟩

end Node

end Quorum
