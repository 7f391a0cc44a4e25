import Quorum.Proofs.Queue

/-!
Terms fence off the past. Whatever a node is sent, its term never goes back, and the later term of
a message is adopted before anything else about the message counts. So a call of an earlier term
than one that the node has heard of is turned away and leaves no trace.
-/

namespace Quorum

variable {α : Type}

/-- The term that a message carries. -/
def Event.term? : Event α → Option Term
  | .voteRequest args => some args.term
  | .appendRequest args => some args.term
  | .voteReturned _ _ reply => reply.map (·.term)
  | .appendReturned _ _ reply => reply.map (·.term)
  | .start | .electionTimeout | .heartbeatTimeout | .submit _ => none

namespace Turn

theorem stepDown_started (t : Turn α) : t.stepDown.node.started = t.node.started := by
  unfold stepDown
  split <;> rfl

theorem observeTerm_started (t : Turn α) (T : Term) :
    (t.observeTerm T).node.started = t.node.started := by
  unfold observeTerm
  split
  · rfl
  · exact stepDown_started _

end Turn

namespace Node

variable {n m : Node α} {e : Event α} {T : Term}

/-- No event takes the term of a node back. -/
theorem Shift.term_le (h : n.Shift e m) : n.term ≤ m.term := by
  cases h with
  | stay h => exact Nat.le_of_eq h.term.symm
  | vote args he hargs hfree h => exact Nat.le_of_eq h.term.symm
  | adopt _ _ hterm => exact Nat.le_of_lt hterm
  | yield _ _ _ _ _ hterm => exact Nat.le_of_eq hterm.symm
  | stand _ _ hterm =>
      rw [hterm]
      exact n.term.le_next
  | count votes sender reply he hgranted hrole h => exact Nat.le_of_eq h.term.symm
  | win _ _ _ _ _ _ _ _ _ hterm => exact Nat.le_of_eq hterm.symm

theorem term_le_afterAll (n : Node α) (es : List (Event α)) : n.term ≤ (n.afterAll es).term := by
  induction es generalizing n with
  | nil => exact Nat.le_refl _
  | cons e es ih => exact Nat.le_trans (n.after_shift e).term_le (ih (n.after e))

theorem standing_started (h : n.standing = m.standing) : n.started = m.started := by
  simpa [standing] using congrArg Node.started h

theorem submit_started (n : Node α) (command : α) :
    (n.submit command).2.node.started = n.started := by
  by_cases hleader : n.isLeader
  · have hsteps : Turn.AnySteps (n.stored command) (n.submit command).2 :=
      submit_steps hleader command fun _ _ => trivial
    have hstored : (n.stored command).node.started = n.started := rfl
    exact (standing_started hsteps.standing).trans hstored
  · rw [submit_of_not_leader hleader]
    rfl

theorem answerVote_started (n : Node α) (args : VoteRequest) :
    (n.answerVote args).2.node.started = n.started := by
  have hterm : (n.idle.observeTerm args.term).node.started = n.started :=
    Turn.observeTerm_started _ _
  unfold answerVote
  split
  · rfl
  · simp only
    split
    · exact hterm
    · exact hterm

theorem follow_started (n : Node α) (args : AppendRequest α) :
    (n.follow args).node.started = n.started := by
  have hterm : (n.idle.observeTerm args.term).node.started = n.started :=
    Turn.observeTerm_started _ _
  unfold follow
  simp only
  split
  · exact hterm
  · exact (Turn.stepDown_started _).trans hterm

theorem answerAppend_started (n : Node α) (args : AppendRequest α) :
    (n.answerAppend args).2.node.started = n.started := by
  have hfollow := n.follow_started args
  rcases n.answerAppend_cases args with
    ⟨-, hturn⟩ | ⟨-, -, hturn⟩ | ⟨-, log, start, -, -, ⟨-, hturn⟩ | ⟨-, hturn⟩⟩
  · rw [hturn]
    rfl
  · rw [hturn]
    exact hfollow
  · rw [hturn]
    exact hfollow
  · rw [hturn]
    exact hfollow

theorem voteReturned_started (n : Node α) (sender : PeerId) (generation : Generation)
    (reply : Option VoteReply) :
    (n.voteReturned sender generation reply).node.started = n.started := by
  rcases n.voteReturned_cases sender generation reply with
    hturn | ⟨r, -, ⟨-, hturn⟩ | ⟨-, -, votes, -, ⟨-, hturn⟩ | ⟨-, hturn⟩⟩⟩
  · rw [hturn]
    rfl
  · rw [hturn]
    exact Turn.observeTerm_started _ _
  · rw [hturn]
    rfl
  · rw [hturn]
    rfl

theorem appendReturned_started (n : Node α) (sender : PeerId) (context : AppendContext)
    (reply : Option AppendReply) :
    (n.appendReturned sender context reply).node.started = n.started := by
  have hrecord : (n.idle.record sender context).node.started = n.started := by
    unfold Turn.record
    split <;> rfl
  rcases n.appendReturned_cases sender context reply with
    hturn | ⟨r, -, ⟨-, hturn⟩ | ⟨-, -, -, ⟨-, hturn⟩ | ⟨-, hturn⟩⟩⟩
  · rw [hturn]
    rfl
  · rw [hturn]
    exact Turn.observeTerm_started _ _
  · have hsteps : Turn.AnySteps (n.idle.record sender context)
        (appendAccepted n.idle sender context) :=
      appendAccepted_steps (fun _ _ _ _ => trivial) fun _ _ => trivial
    rw [hturn]
    exact (standing_started hsteps.standing).trans hrecord
  · rw [hturn]
    unfold appendRejected
    split
    · rfl
    · split <;> rfl

/-- Once started, a node remains so. -/
theorem started_after (hn : n.started = true) (e : Event α) : (n.after e).started = true := by
  have hkept (h : (n.after e).started = n.started) : (n.after e).started = true := h.trans hn
  cases e with
  | start => rfl
  | electionTimeout =>
      apply hkept
      change n.electionTimeout.node.started = n.started
      unfold electionTimeout standForElection
      simp only
      split
      · rfl
      · split <;> rfl
  | heartbeatTimeout => exact hkept (congrArg Node.started n.heartbeatTimeout_node)
  | submit command => exact hkept (n.submit_started command)
  | voteRequest args => exact hkept (n.answerVote_started args)
  | appendRequest args => exact hkept (n.answerAppend_started args)
  | voteReturned sender generation reply =>
      exact hkept (n.voteReturned_started sender generation reply)
  | appendReturned sender context reply =>
      exact hkept (n.appendReturned_started sender context reply)

theorem started_afterAll (hn : n.started = true) (es : List (Event α)) :
    (n.afterAll es).started = true := by
  induction es generalizing n with
  | nil => exact hn
  | cons e es ih => exact ih (started_after hn e)

theorem le_term_observeTerm (n : Node α) (T : Term) : T ≤ (n.idle.observeTerm T).node.term := by
  rw [Turn.observeTerm_term]
  exact Nat.le_max_right _ _

theorem le_term_answerVote (hn : n.started = true) (args : VoteRequest) :
    args.term ≤ (n.answerVote args).2.node.term := by
  unfold answerVote
  split
  · rename_i hrefused
    exact Nat.le_of_lt (hrefused.resolve_left fun h => h hn)
  · simp only
    split
    · exact Nat.le_refl _
    · exact n.le_term_observeTerm args.term

theorem le_term_answerAppend (n : Node α) (args : AppendRequest α) :
    args.term ≤ (n.answerAppend args).2.node.term := by
  rcases n.answerAppend_cases args with
    ⟨hearlier, hturn⟩ | ⟨hle, -, hturn⟩ | ⟨hle, log, start, -, -, ⟨-, hturn⟩ | ⟨-, hturn⟩⟩
  · rw [hturn]
    exact Nat.le_of_lt hearlier
  · rw [hturn]
    exact Nat.le_of_eq (n.follow_term hle).symm
  · rw [hturn]
    exact Nat.le_of_eq (n.follow_term hle).symm
  · rw [hturn]
    exact Nat.le_of_eq (n.follow_term hle).symm

/-- A node is never behind a term that it has heard of. -/
theorem le_term_after (hn : n.started = true) (hT : e.term? = some T) : T ≤ (n.after e).term := by
  cases e with
  | voteRequest args =>
      obtain rfl := Option.some.inj hT
      exact le_term_answerVote hn args
  | appendRequest args =>
      obtain rfl := Option.some.inj hT
      exact n.le_term_answerAppend args
  | voteReturned sender generation reply =>
      obtain ⟨r, rfl, rfl⟩ := Option.map_eq_some_iff.mp hT
      rcases Nat.lt_or_ge n.term r.term with hlater | hle
      · change r.term ≤ (n.voteReturned sender generation (some r)).node.term
        rw [voteReturned_of_lt hlater]
        exact n.le_term_observeTerm r.term
      · exact Nat.le_trans hle (n.after_shift _).term_le
  | appendReturned sender context reply =>
      obtain ⟨r, rfl, rfl⟩ := Option.map_eq_some_iff.mp hT
      rcases Nat.lt_or_ge n.term r.term with hlater | hle
      · change r.term ≤ (n.appendReturned sender context (some r)).node.term
        rw [appendReturned_of_lt hlater]
        exact n.le_term_observeTerm r.term
      · exact Nat.le_trans hle (n.after_shift _).term_le
  | _ => cases hT

theorem answerVote_of_lt {args : VoteRequest} (hearlier : args.term < n.term) :
    n.answerVote args = (⟨n.term, false⟩, n.idle) := by
  unfold answerVote
  rw [if_pos (Or.inr hearlier)]

theorem answerAppend_of_lt {args : AppendRequest α} (hearlier : args.term < n.term) :
    n.answerAppend args = (⟨n.term, false⟩, n.idle) := by
  unfold answerAppend
  rw [if_pos hearlier]

end Node

/-- Term fencing. Once a started node has processed a message that carries a term, with whatever
else before and after it, the node's own term is no earlier; and every call of an earlier term is
refused in a term no earlier, causes no action and leaves the node as it is. -/
theorem earlier_term_refused {n : Node α} (hn : n.started = true) (before later : List (Event α))
    {e : Event α} {T : Term} (hT : e.term? = some T) :
    let m := n.afterAll (before ++ e :: later)
    T ≤ m.term ∧
      (∀ args : VoteRequest, args.term < T → ∃ U, T ≤ U ∧
        m.handle (.voteRequest args) = (.vote ⟨U, false⟩, m.idle)) ∧
      ∀ args : AppendRequest α, args.term < T → ∃ U, T ≤ U ∧
        m.handle (.appendRequest args) = (.append ⟨U, false⟩, m.idle) := by
  intro m
  have hle : T ≤ m.term := by
    have hheard : T ≤ ((n.afterAll before).after e).term :=
      Node.le_term_after (Node.started_afterAll hn before) hT
    have hsplit : m = ((n.afterAll before).after e).afterAll later := List.foldl_append
    rw [hsplit]
    exact Nat.le_trans hheard (Node.term_le_afterAll _ later)
  refine ⟨hle, ?_, ?_⟩
  · intro args hearlier
    refine ⟨m.term, hle, ?_⟩
    simp only [Node.handle, Node.answerVote_of_lt (Nat.lt_of_lt_of_le hearlier hle)]
  · intro args hearlier
    refine ⟨m.term, hle, ?_⟩
    simp only [Node.handle, Node.answerAppend_of_lt (Nat.lt_of_lt_of_le hearlier hle)]

/-- A leader of term one is told by a late answer to its first vote request that term three has
come. It then stands for election itself. -/
def overtaken : List (Event Nat) :=
  [.electionTimeout, .voteReturned 1 1 (some ⟨1, true⟩), .submit 10]

/-- Calls of term two come too late, though the node never took part in that term. -/
theorem earlier_term_refused_overtaken :
    (Node.fresh 0 3 : Node Nat).start.node.started = true ∧
    (Event.voteReturned 2 1 (some ⟨3, false⟩) : Event Nat).term? = some 3 ∧
    let m := (Node.fresh 0 3 : Node Nat).start.node.afterAll
      (overtaken ++ .voteReturned 2 1 (some ⟨3, false⟩) :: [.electionTimeout])
    m.term = 4 ∧
      ∃ U, 3 ≤ U ∧ m.handle (.appendRequest ⟨2, 1, -1, none, [⟨2, 20⟩], 0⟩) =
        (.append ⟨U, false⟩, m.idle) := by
  refine ⟨rfl, rfl, rfl, ?_⟩
  exact (earlier_term_refused rfl overtaken [.electionTimeout] rfl).2.2 _ (by decide)

end Quorum
