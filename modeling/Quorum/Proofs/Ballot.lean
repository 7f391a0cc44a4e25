import Quorum.Proofs.Fencing

/-!
Whom a member supports in the elections of a term: the candidates whose requests it grants, and
itself when it stands. Whatever it is sent, that is one candidate for each term. The exception is
the last term, which is followed by itself: a member that stands in it once more takes back the vote
it has given.
-/

namespace Quorum

variable {α : Type}

/-- Only the last term is followed by itself. -/
theorem Term.last_le_of_next_eq {t : Term} (h : t.next = t) : Term.last ≤ t := by
  unfold Term.next at h
  split at h <;> lia

namespace Node

variable {n : Node α} {e : Event α} {T : Term} {x y : PeerId}

/-- The ways in which a node comes to support a candidate `x` in the term `T`. -/
inductive Supports (n : Node α) (e : Event α) (T : Term) (x : PeerId) : Prop
  /-- It grants a request for its vote. -/
  | grant (args : VoteRequest) (he : e = .voteRequest args)
      (hgranted : (n.answerVote args).1.voteGranted = true) (hterm : args.term = T)
      (hx : args.candidateId = x)
  /-- It stands itself. If it is alone it leads at once. -/
  | stand (he : e = .electionTimeout) (hleader : ¬ n.isLeader) (hterm : (n.after e).term = T)
      (hx : n.id = x)
  /-- It is found to be a candidate. -/
  | candidate (hkind : (n.after e).role.kind = .candidate) (hterm : (n.after e).term = T)
      (hx : (n.after e).id = x)

/-- The node comes to support `x` in the term `T` at some point in the course of events. -/
def Supported (n : Node α) : List (Event α) → Term → PeerId → Prop
  | [], _, _ => False
  | e :: es, T, x => n.Supports e T x ∨ (n.after e).Supported es T x

/-- At some point in the course of events the node stands for election while it is in the term
`T`. -/
def StandsFrom (n : Node α) : List (Event α) → Term → Prop
  | [], _ => False
  | e :: es, T => (e = .electionTimeout ∧ ¬ n.isLeader ∧ n.term = T) ∨ (n.after e).StandsFrom es T

/-- A candidate has given its vote to itself. -/
def SelfVoting (n : Node α) : Prop := n.role.kind = .candidate → n.votedFor = some n.id

theorem fresh_selfVoting (id : PeerId) (size : Nat) : (fresh id size : Node α).SelfVoting := by
  intro hkind
  cases hkind

theorem SelfVoting.after (h : n.SelfVoting) (e : Event α) : (n.after e).SelfVoting := by
  intro hkind
  have hshift := n.after_shift e
  rw [hshift.id]
  cases hshift with
  | stay hsame => rw [hsame.votedFor, h (hsame.kind.symm.trans hkind)]
  | vote args he hargs hfree hsame =>
      have hvoted := h (hsame.kind.symm.trans hkind)
      rw [hfree] at hvoted
      cases hvoted
  | adopt _ _ _ _ hother => rw [hother] at hkind; cases hkind
  | yield _ _ _ _ _ _ _ _ hother => rw [hother] at hkind; cases hkind
  | stand _ _ _ hvote => exact hvote
  | count votes sender reply he hgranted hrole hsame =>
      rw [hsame.votedFor]
      exact h (by rw [hrole]; rfl)
  | win _ _ _ _ _ _ _ _ _ _ _ hother => rw [hother] at hkind; cases hkind

theorem electionTimeout_vote (hleader : ¬ n.isLeader) :
    (n.after .electionTimeout).term = n.term.next ∧
      (n.after .electionTimeout).votedFor = some n.id := by
  have hnode : n.after .electionTimeout = n.standForElection.node :=
    congrArg Turn.node (electionTimeout_of_not_leader hleader)
  rw [hnode]
  refine ⟨n.standForElection_office.1, ?_⟩
  unfold standForElection
  simp only
  split
  · rfl
  · rfl

/-- Whoever is supported has the vote then. -/
theorem Supports.vote (h : n.Supports e T x) (hself : n.SelfVoting) :
    (n.after e).term = T ∧ (n.after e).votedFor = some x := by
  cases h with
  | grant args he hgranted hterm hx =>
      subst he hterm hx
      exact (answerVote_granted hgranted).2
  | stand he hleader hterm hx =>
      subst he hx
      exact ⟨hterm, (electionTimeout_vote hleader).2⟩
  | candidate hkind hterm hx =>
      subst hx
      exact ⟨hterm, hself.after e hkind⟩

theorem follow_votedFor {args : AppendRequest α} (h : args.term ≤ n.term) :
    (n.follow args).node.votedFor = n.votedFor := by
  have hsame : n.idle.observeTerm args.term = n.idle := Turn.observeTerm_of_le h
  unfold follow
  simp only [hsame]
  split
  · rfl
  · unfold Turn.stepDown
    split <;> rfl

theorem answerVote_votedFor {args : VoteRequest} (hvoted : n.votedFor = some x)
    (hterm : (n.answerVote args).2.node.term = n.term) :
    (n.answerVote args).2.node.votedFor = some x := by
  unfold answerVote at hterm ⊢
  by_cases hrefused : ¬ n.started ∨ args.term < n.term
  · rw [if_pos hrefused]
    exact hvoted
  · rw [if_neg hrefused] at hterm ⊢
    simp only at hterm ⊢
    have hle : args.term ≤ n.term := by
      split at hterm
      · exact Nat.le_of_eq hterm
      · rw [Turn.observeTerm_term] at hterm
        exact hterm ▸ Nat.le_max_right _ _
    have hsame : n.idle.observeTerm args.term = n.idle := Turn.observeTerm_of_le hle
    rw [hsame]
    split
    · rename_i hgrant
      simp only [Grants, idle, hvoted] at hgrant
      exact congrArg some hgrant.1.symm
    · exact hvoted

/-- Within a term no message takes back a vote that has been given. -/
theorem votedFor_kept (he : e ≠ .electionTimeout) (hvoted : n.votedFor = some x)
    (hterm : (n.after e).term = n.term) : (n.after e).votedFor = some x := by
  have hadopted {T : Term} (hlater : n.term < T) : (n.idle.observeTerm T).node.term ≠ n.term := by
    rw [Turn.observeTerm_term]
    exact Nat.ne_of_gt (Nat.lt_of_lt_of_le hlater (Nat.le_max_right _ _))
  cases e with
  | start => exact hvoted
  | electionTimeout => exact absurd rfl he
  | heartbeatTimeout => exact (congrArg votedFor n.heartbeatTimeout_node).trans hvoted
  | submit command => exact (n.submit_sameOffice command).votedFor.trans hvoted
  | voteRequest args => exact answerVote_votedFor hvoted hterm
  | appendRequest args =>
      change (n.answerAppend args).2.node.term = n.term at hterm
      change (n.answerAppend args).2.node.votedFor = some x
      have hfollowed (hle : n.term ≤ args.term) (hsame : (n.follow args).node.term = n.term) :
          (n.follow args).node.votedFor = some x := by
        rw [n.follow_term hle] at hsame
        exact (follow_votedFor (Nat.le_of_eq hsame)).trans hvoted
      rcases n.answerAppend_cases args with
        ⟨-, hturn⟩ | ⟨hle, -, hturn⟩ | ⟨hle, log, start, -, -, ⟨-, hturn⟩ | ⟨-, hturn⟩⟩
      · rw [hturn]
        exact hvoted
      · rw [hturn] at hterm ⊢
        exact hfollowed hle hterm
      · rw [hturn] at hterm ⊢
        exact hfollowed hle hterm
      · rw [hturn] at hterm ⊢
        exact hfollowed hle hterm
  | voteReturned sender generation reply =>
      change (n.voteReturned sender generation reply).node.term = n.term at hterm
      change (n.voteReturned sender generation reply).node.votedFor = some x
      rcases n.voteReturned_cases sender generation reply with
        hturn | ⟨r, -, ⟨hlater, hturn⟩ | ⟨-, -, votes, -, ⟨-, hturn⟩ | ⟨-, hturn⟩⟩⟩
      · rw [hturn]
        exact hvoted
      · rw [hturn] at hterm
        exact absurd hterm (hadopted hlater)
      · rw [hturn]
        exact hvoted
      · rw [hturn]
        exact hvoted
  | appendReturned sender context reply =>
      change (n.appendReturned sender context reply).node.term = n.term at hterm
      change (n.appendReturned sender context reply).node.votedFor = some x
      rcases n.appendReturned_cases sender context reply with
        hturn | ⟨r, -, ⟨hlater, hturn⟩ | ⟨-, -, -, ⟨-, hturn⟩ | ⟨-, hturn⟩⟩⟩
      · rw [hturn]
        exact hvoted
      · rw [hturn] at hterm
        exact absurd hterm (hadopted hlater)
      · rw [hturn]
        exact (appendAccepted_sameOffice n.idle sender context).votedFor.trans hvoted
      · rw [hturn]
        exact (appendRejected_sameOffice n.idle sender context.round).votedFor.trans hvoted

/-- Within a term a vote that has been given is taken back only by a node that stands again. -/
theorem votedFor_after (hvoted : n.votedFor = some x) (hterm : (n.after e).term = n.term) :
    (n.after e).votedFor = some x ∨
      e = .electionTimeout ∧ ¬ n.isLeader ∧ Term.last ≤ n.term ∧
        (n.after e).votedFor = some n.id := by
  by_cases he : e = .electionTimeout
  · subst he
    by_cases hleader : n.isLeader
    · have hidle : n.after .electionTimeout = n :=
        congrArg Turn.node (electionTimeout_of_leader hleader)
      exact Or.inl (hidle.symm ▸ hvoted)
    · obtain ⟨hnext, hself⟩ := electionTimeout_vote hleader
      have hlast : Term.last ≤ n.term := Term.last_le_of_next_eq (hnext.symm.trans hterm)
      exact Or.inr ⟨rfl, hleader, hlast, hself⟩
  · exact Or.inl (votedFor_kept he hvoted hterm)

/-- A node supports nobody in a term that it has left behind. -/
theorem Supported.term_le {es : List (Event α)} (h : n.Supported es T x) (hself : n.SelfVoting) :
    n.term ≤ T := by
  induction es generalizing n with
  | nil => exact h.elim
  | cons e es ih =>
      have hstep : n.term ≤ (n.after e).term := (n.after_shift e).term_le
      rcases h with hnow | hlater
      · exact (hnow.vote hself).1 ▸ hstep
      · exact Nat.le_trans hstep (ih hlater (hself.after e))

/-- Once the vote of a term is given, its candidate is supported and no other, unless the node
stands again in a term that no other follows. -/
theorem Supported.voted {es : List (Event α)} (h : n.Supported es n.term y) (hself : n.SelfVoting)
    (hvoted : n.votedFor = some x) :
    y = x ∨ Term.last ≤ n.term ∧ n.StandsFrom es n.term ∧ y = n.id := by
  induction es generalizing n x with
  | nil => exact h.elim
  | cons e es ih =>
      have hid : (n.after e).id = n.id := (n.after_shift e).id
      have hterm : (n.after e).term = n.term := by
        refine Nat.le_antisymm ?_ (n.after_shift e).term_le
        rcases h with hnow | hlater
        · exact Nat.le_of_eq (hnow.vote hself).1
        · exact hlater.term_le (hself.after e)
      have hlater {z : PeerId} (hz : (n.after e).votedFor = some z)
          (hy : (n.after e).Supported es n.term y) :
          y = z ∨ Term.last ≤ n.term ∧ n.StandsFrom (e :: es) n.term ∧ y = n.id := by
        rw [← hterm] at hy
        refine (ih hy (hself.after e) hz).imp_right ?_
        rintro ⟨hlast, hstands, rfl⟩
        rw [hterm] at hlast hstands
        exact ⟨hlast, Or.inr hstands, hid⟩
      rcases votedFor_after hvoted hterm with hkept | ⟨he, hleader, hlast, htaken⟩
      · rcases h with hnow | hy
        · exact Or.inl (Option.some.inj ((hnow.vote hself).2.symm.trans hkept))
        · exact hlater hkept hy
      · refine Or.inr ⟨hlast, Or.inl ⟨he, hleader, rfl⟩, ?_⟩
        rcases h with hnow | hy
        · exact Option.some.inj ((hnow.vote hself).2.symm.trans htaken)
        · rcases hlater htaken hy with hown | ⟨-, -, hown⟩
          · exact hown
          · exact hown

/-- Of two candidates that are supported in one term, the node itself is one, and it has stood again
in a term that no other follows. -/
theorem Supported.unique {es : List (Event α)} (hx : n.Supported es T x) (hy : n.Supported es T y)
    (hself : n.SelfVoting) :
    x = y ∨ Term.last ≤ T ∧ n.StandsFrom es T ∧ (x = n.id ∨ y = n.id) := by
  induction es generalizing n with
  | nil => exact hx.elim
  | cons e es ih =>
      have hid : (n.after e).id = n.id := (n.after_shift e).id
      -- The vote is given to the one supported first by the time the other one comes.
      have hfirst {z w : PeerId} (hz : n.Supports e T z) (hw : (n.after e).Supported es T w) :
          w = z ∨ Term.last ≤ T ∧ n.StandsFrom (e :: es) T ∧ w = n.id := by
        obtain ⟨rfl, hvoted⟩ := hz.vote hself
        refine (hw.voted (hself.after e) hvoted).imp_right ?_
        rintro ⟨hlast, hstands, rfl⟩
        exact ⟨hlast, Or.inr hstands, hid⟩
      rcases hx with hx | hx
      · rcases hy with hy | hy
        · exact Or.inl (Option.some.inj ((hx.vote hself).2.symm.trans (hy.vote hself).2))
        · rcases hfirst hx hy with hsame | ⟨hlast, hstands, hown⟩
          · exact Or.inl hsame.symm
          · exact Or.inr ⟨hlast, hstands, Or.inr hown⟩
      · rcases hy with hy | hy
        · rcases hfirst hy hx with hsame | ⟨hlast, hstands, hown⟩
          · exact Or.inl hsame
          · exact Or.inr ⟨hlast, hstands, Or.inl hown⟩
        · refine (ih hx hy (hself.after e)).imp_right ?_
          rintro ⟨hlast, hstands, hown⟩
          exact ⟨hlast, Or.inr hstands, hid ▸ hown⟩

end Node

/-- One vote in a term. Whatever a new node is sent, it supports at most one candidate in each term,
be it by granting a request or by standing itself. The exception is the last term: a node that
stands once more in it may have granted its vote before, to one other candidate. -/
theorem supports_one_candidate (id : PeerId) (size : Nat) {es : List (Event α)} {T : Term}
    {x y : PeerId} (hx : (Node.fresh id size).Supported es T x)
    (hy : (Node.fresh id size).Supported es T y) :
    x = y ∨ Term.last ≤ T ∧ (Node.fresh id size).StandsFrom es T ∧ (x = id ∨ y = id) :=
  hx.unique hy (Node.fresh_selfVoting id size)

/-- A member grants its vote in term one, twice to the same candidate, stands itself in term two and
is told of the last term, in which it grants a vote again. Then its election timer runs out. -/
def spentVotes : List (Event Nat) :=
  [.start, .voteRequest ⟨1, 0, -1, 0⟩, .voteRequest ⟨1, 2, -1, 1⟩, .voteRequest ⟨1, 0, -1, 1⟩,
    .electionTimeout, .voteRequest ⟨2, 0, -1, 2⟩, .voteReturned 0 1 (some ⟨Term.last, false⟩),
    .voteRequest ⟨Term.last, 2, -1, 0⟩, .electionTimeout]

theorem supports_one_candidate_spentVotes :
    let n : Node Nat := Node.fresh 1 3
    (n.Supported spentVotes 1 0 ∧ ∀ x, n.Supported spentVotes 1 x → x = 0) ∧
      n.Supported spentVotes Term.last 2 ∧ n.Supported spentVotes Term.last 1 ∧
        n.StandsFrom spentVotes Term.last := by
  intro n
  have hone : n.Supported spentVotes 1 0 :=
    Or.inr (Or.inl (.grant ⟨1, 0, -1, 0⟩ rfl (by decide) rfl rfl))
  have hother : n.Supported spentVotes Term.last 2 := by
    refine Or.inr (Or.inr (Or.inr (Or.inr (Or.inr (Or.inr (Or.inr (Or.inl ?_)))))))
    exact .grant ⟨Term.last, 2, -1, 0⟩ rfl (by decide) rfl rfl
  have hself : n.Supported spentVotes Term.last 1 := by
    refine Or.inr (Or.inr (Or.inr (Or.inr (Or.inr (Or.inr (Or.inr (Or.inr (Or.inl ?_))))))))
    exact .stand rfl (by decide) (by decide) (by decide)
  refine ⟨⟨hone, ?_⟩, hother, hself, ?_⟩
  · intro x hx
    rcases supports_one_candidate 1 3 hx hone with hsame | ⟨hlast, -⟩
    · exact hsame
    · exact absurd hlast (by decide)
  · rcases supports_one_candidate 1 3 hother hself with hsame | ⟨-, hstands, -⟩
    · exact absurd hsame (by decide)
    · exact hstands

/-- No term follows the last one, so a member that has granted its vote in it supports itself in the
same term as soon as it stands. -/
theorem supports_two_candidates :
    let n : Node Nat := Node.fresh 1 3
    let es : List (Event Nat) := [.start, .voteRequest ⟨Term.last, 0, -1, 0⟩, .electionTimeout]
    n.Supported es Term.last 0 ∧ n.Supported es Term.last 1 := by
  refine ⟨Or.inr (Or.inl ?_), Or.inr (Or.inr (Or.inl ?_))⟩
  · exact .grant ⟨Term.last, 0, -1, 0⟩ rfl (by decide) rfl rfl
  · exact .stand rfl (by decide) (by decide) rfl

end Quorum
