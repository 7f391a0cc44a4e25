import Quorum.Proofs.Handling

/-!
How events move a node between terms, votes and roles. `Node.Shift` lists all the ways there are;
whatever an event does besides, it does not touch these. Generations tell the ways apart: every
change of term or role begins a new one.
-/

namespace Quorum

variable {α : Type}

/-- The votes of a candidate. -/
def Role.tally? : Role → Option Tally
  | .candidate votes => some votes
  | _ => none

namespace Role

@[simp] theorem tally?_mapLead (f : Leadership → Leadership) (r : Role) :
    (r.mapLead f).tally? = r.tally? := by
  cases r <;> rfl

theorem tally?_bare (r : Role) : r.bare.tally? = r.tally? := by cases r <;> rfl

theorem tally?_eq_some {r : Role} {votes : Tally} :
    r.tally? = some votes ↔ r = .candidate votes := by
  cases r <;> simp [tally?]

theorem tally?_of_ne {r : Role} (h : r.kind ≠ .candidate) : r.tally? = none := by
  cases r with
  | candidate votes => exact absurd rfl h
  | _ => rfl

theorem isLeader_iff {r : Role} : r.isLeader = true ↔ r.kind = .leader := by
  cases r <;> simp [isLeader, kind]

theorem isFollower_iff {r : Role} : r.isFollower = true ↔ r.kind = .follower := by
  cases r <;> simp [isFollower, kind]

end Role

theorem Node.exists_lead {n : Node α} (h : n.isLeader) : ∃ l, n.role = .leader l := by
  cases hrole : n.role with
  | leader l => exact ⟨l, rfl⟩
  | follower _ => simp [isLeader, hrole, Role.isLeader] at h
  | candidate _ => simp [isLeader, hrole, Role.isLeader] at h

theorem Node.isLeader_of_lead {n : Node α} {l : Leadership} (h : n.role = .leader l) :
    n.isLeader := by
  simp [isLeader, h, Role.isLeader]

/-- A generation that is one or two changes later. -/
def Generation.Precedes (g h : Generation) : Prop := h = g.next ∨ h = g.next.next

theorem Generation.Precedes.lt {g h : Generation} (hgh : g.Precedes h) (hle : g ≤ h) : g < h := by
  unfold Generation.Precedes Generation.next at hgh
  lia

/-- Nodes of the same term, vote and role. Logs, commit indices and what a leader keeps may
differ. -/
structure Node.SameOffice (n m : Node α) : Prop where
  id : m.id = n.id
  clusterSize : m.clusterSize = n.clusterSize
  term : m.term = n.term
  votedFor : m.votedFor = n.votedFor
  generation : m.generation = n.generation
  kind : m.role.kind = n.role.kind
  tally : m.role.tally? = n.role.tally?

namespace Node.SameOffice

variable {n m k : Node α}

theorem refl (n : Node α) : n.SameOffice n := ⟨rfl, rfl, rfl, rfl, rfl, rfl, rfl⟩

theorem trans (h : n.SameOffice m) (h' : m.SameOffice k) : n.SameOffice k where
  id := h'.id.trans h.id
  clusterSize := h'.clusterSize.trans h.clusterSize
  term := h'.term.trans h.term
  votedFor := h'.votedFor.trans h.votedFor
  generation := h'.generation.trans h.generation
  kind := h'.kind.trans h.kind
  tally := h'.tally.trans h.tally

theorem of_standing (h : m.standing = n.standing) : n.SameOffice m where
  id := by simpa [standing] using congrArg Node.id h
  clusterSize := by simpa [standing] using congrArg Node.clusterSize h
  term := standing_term h
  votedFor := by simpa [standing] using congrArg Node.votedFor h
  generation := by simpa [standing] using congrArg Node.generation h
  kind := by
    rw [← m.role.kind_bare, ← n.role.kind_bare, standing_role h]
  tally := by
    rw [← m.role.tally?_bare, ← n.role.tally?_bare, standing_role h]

theorem mapLead (t : Turn α) (f : Leadership → Leadership) :
    t.node.SameOffice (t.mapLead f).node := by
  refine ⟨rfl, rfl, rfl, rfl, rfl, ?_, ?_⟩
  · exact Role.kind_mapLead f _
  · exact Role.tally?_mapLead f _

theorem isLeader (h : n.SameOffice m) : m.isLeader = n.isLeader := by
  unfold Node.isLeader
  rw [Bool.eq_iff_iff, Role.isLeader_iff, Role.isLeader_iff, h.kind]

end Node.SameOffice

/-- The ways in which an event can move a node between terms, votes and roles. -/
inductive Node.Shift (n : Node α) (e : Event α) (m : Node α) : Prop
  /-- Nothing of the kind happens. -/
  | stay (h : n.SameOffice m)
  /-- A free vote is given away. -/
  | vote (args : VoteRequest) (he : e = .voteRequest args) (hargs : args.term = n.term)
      (hfree : n.votedFor = none) (h : { n with votedFor := some args.candidateId }.SameOffice m)
  /-- A later term makes it a follower, perhaps with a vote given at once. -/
  | adopt (hid : m.id = n.id) (hsize : m.clusterSize = n.clusterSize) (hterm : n.term < m.term)
      (hvote : m.votedFor = none ∨ ∃ args, e = .voteRequest args ∧ args.term = m.term ∧
        m.votedFor = some args.candidateId)
      (hkind : m.role.kind = .follower) (hgen : n.generation.Precedes m.generation)
  /-- It bows to a leader of its own term. -/
  | yield (args : AppendRequest α) (he : e = .appendRequest args) (hargs : args.term = n.term)
      (hid : m.id = n.id) (hsize : m.clusterSize = n.clusterSize) (hterm : m.term = n.term)
      (hvote : m.votedFor = n.votedFor) (hold : n.role.kind ≠ .follower)
      (hkind : m.role.kind = .follower) (hgen : n.generation.Precedes m.generation)
  /-- It stands for election, and has won if it is alone. -/
  | stand (hid : m.id = n.id) (hsize : m.clusterSize = n.clusterSize)
      (hterm : m.term = n.term.next) (hvote : m.votedFor = some n.id) (hold : n.role.kind ≠ .leader)
      (hrole : m.role = .candidate (.single n.id) ∧ ¬ (Tally.single n.id).IsMajority n.clusterSize ∨
        m.role.kind = .leader ∧ (Tally.single n.id).IsMajority n.clusterSize)
      (hgen : n.generation.Precedes m.generation)
  /-- A vote is counted that does not decide the election. -/
  | count (votes : Tally) (sender : PeerId) (reply : VoteReply)
      (he : e = .voteReturned sender n.generation (some reply)) (hgranted : reply.voteGranted = true)
      (hrole : n.role = .candidate votes)
      (h : { n with role := .candidate (votes.add sender) }.SameOffice m)
      (hshort : ¬ (votes.add sender).IsMajority n.clusterSize)
  /-- A vote is counted that does. -/
  | win (votes : Tally) (sender : PeerId) (reply : VoteReply)
      (he : e = .voteReturned sender n.generation (some reply)) (hgranted : reply.voteGranted = true)
      (hrole : n.role = .candidate votes)
      (hmajority : (votes.add sender).IsMajority n.clusterSize)
      (hid : m.id = n.id) (hsize : m.clusterSize = n.clusterSize) (hterm : m.term = n.term)
      (hvote : m.votedFor = n.votedFor) (hkind : m.role.kind = .leader)
      (hgen : n.generation.Precedes m.generation)

namespace Node.Shift

variable {n m : Node α} {e : Event α}

theorem id (h : n.Shift e m) : m.id = n.id := by
  cases h with
  | stay h => exact h.id
  | vote args he hargs hfree h => exact h.id
  | adopt hid => exact hid
  | yield _ _ _ hid => exact hid
  | stand hid => exact hid
  | count votes sender reply he hgranted hrole h => exact h.id
  | win votes sender reply he hgranted hrole hmajority hid => exact hid

theorem clusterSize (h : n.Shift e m) : m.clusterSize = n.clusterSize := by
  cases h with
  | stay h => exact h.clusterSize
  | vote args he hargs hfree h => exact h.clusterSize
  | adopt _ hsize => exact hsize
  | yield _ _ _ _ hsize => exact hsize
  | stand _ hsize => exact hsize
  | count votes sender reply he hgranted hrole h => exact h.clusterSize
  | win votes sender reply he hgranted hrole hmajority _ hsize => exact hsize

/-- Whoever leads before and after an event leads the same term in the same generation. -/
theorem leader_office (h : n.Shift e m) (hn : n.isLeader) (hm : m.isLeader) :
    m.term = n.term ∧ m.generation = n.generation := by
  have hold : n.role.kind = .leader := Role.isLeader_iff.mp hn
  have hnew : m.role.kind = .leader := Role.isLeader_iff.mp hm
  cases h with
  | stay h => exact ⟨h.term, h.generation⟩
  | vote args he hargs hfree h => exact ⟨h.term, h.generation⟩
  | adopt _ _ _ _ hkind => rw [hkind] at hnew; cases hnew
  | yield _ _ _ _ _ _ _ _ hkind => rw [hkind] at hnew; cases hnew
  | stand _ _ _ _ hother => exact absurd hold hother
  | count votes sender reply he hgranted hrole => rw [hrole] at hold; cases hold
  | win votes sender reply he hgranted hrole => rw [hrole] at hold; cases hold

theorem leader_term (h : n.Shift e m) (hn : n.isLeader) (hm : m.isLeader) : m.term = n.term :=
  (h.leader_office hn hm).1

/-- Whoever comes to lead does so in a new generation. -/
theorem accession_generation (h : n.Shift e m) (hn : ¬ n.isLeader) (hm : m.isLeader) :
    n.generation.Precedes m.generation := by
  have hold : n.role.kind ≠ .leader := fun hkind => hn (Role.isLeader_iff.mpr hkind)
  have hnew : m.role.kind = .leader := Role.isLeader_iff.mp hm
  cases h with
  | stay h => exact absurd (h.kind.symm.trans hnew) hold
  | vote args he hargs hfree h => exact absurd (h.kind.symm.trans hnew) hold
  | adopt _ _ _ _ hkind => rw [hkind] at hnew; cases hnew
  | yield _ _ _ _ _ _ _ _ hkind => rw [hkind] at hnew; cases hnew
  | stand _ _ _ _ _ _ hgen => exact hgen
  | count votes sender reply he hgranted hrole h => rw [h.kind] at hnew; cases hnew
  | win votes sender reply he hgranted hrole hmajority _ _ _ _ _ hgen => exact hgen

end Node.Shift

/-- A shift remains one whatever happens afterwards outside of the office. -/
theorem Node.Shift.congr {n m k : Node α} {e : Event α} (hshift : n.Shift e m)
    (hsame : m.SameOffice k) : n.Shift e k := by
  cases hshift with
  | stay h => exact .stay (h.trans hsame)
  | vote args he hargs hfree h => exact .vote args he hargs hfree (h.trans hsame)
  | adopt hid hsize hterm hvote hkind hgen =>
      refine .adopt (hsame.id.trans hid) (hsame.clusterSize.trans hsize) ?_ ?_
        (hsame.kind.trans hkind) ?_
      · rw [hsame.term]
        exact hterm
      · rw [hsame.votedFor, hsame.term]
        exact hvote
      · rw [hsame.generation]
        exact hgen
  | yield args he hargs hid hsize hterm hvote hold hkind hgen =>
      refine .yield args he hargs (hsame.id.trans hid) (hsame.clusterSize.trans hsize) (hsame.term.trans hterm)
        (hsame.votedFor.trans hvote) hold (hsame.kind.trans hkind) ?_
      rw [hsame.generation]
      exact hgen
  | stand hid hsize hterm hvote hold hrole hgen =>
      refine .stand (hsame.id.trans hid) (hsame.clusterSize.trans hsize) (hsame.term.trans hterm)
        (hsame.votedFor.trans hvote) hold ?_ ?_
      · rw [← Role.tally?_eq_some, hsame.tally, hsame.kind, Role.tally?_eq_some]
        exact hrole
      · rw [hsame.generation]
        exact hgen
  | count votes sender reply he hgranted hrole h hshort =>
      exact .count votes sender reply he hgranted hrole (h.trans hsame) hshort
  | win votes sender reply he hgranted hrole hmajority hid hsize hterm hvote hkind hgen =>
      refine .win votes sender reply he hgranted hrole hmajority (hsame.id.trans hid)
        (hsame.clusterSize.trans hsize) (hsame.term.trans hterm) (hsame.votedFor.trans hvote)
        (hsame.kind.trans hkind) ?_
      rw [hsame.generation]
      exact hgen

namespace Node

variable {n : Node α}

/-- Observing a term changes nothing, or makes the node a follower of that later term. -/
theorem observeTerm_cases (t : Turn α) (T : Term) :
    T ≤ t.node.term ∧ t.observeTerm T = t ∨
    t.node.term < T ∧ (t.observeTerm T).node.term = T ∧ (t.observeTerm T).node.votedFor = none ∧
      (t.observeTerm T).node.role.kind = .follower ∧
      t.node.generation.Precedes (t.observeTerm T).node.generation ∧
      (t.observeTerm T).node.id = t.node.id ∧
      (t.observeTerm T).node.clusterSize = t.node.clusterSize := by
  by_cases hT : T ≤ t.node.term
  · exact Or.inl ⟨hT, by simp [Turn.observeTerm, hT]⟩
  · refine Or.inr ⟨Nat.lt_of_not_le hT, ?_⟩
    unfold Turn.observeTerm
    rw [if_neg hT]
    cases hrole : t.node.role with
    | follower leader =>
        simp [Turn.stepDown, hrole, Role.kind, Generation.Precedes]
    | candidate votes =>
        simp [Turn.stepDown, hrole, Role.kind, Generation.Precedes, Turn.changeRole]
    | leader lead =>
        simp [Turn.stepDown, hrole, Role.kind, Generation.Precedes, Turn.changeRole]

theorem electionTimeout_of_leader (h : n.isLeader) : n.electionTimeout = n.idle := if_pos h

theorem electionTimeout_of_not_leader (h : ¬ n.isLeader) :
    n.electionTimeout = n.standForElection :=
  if_neg h

theorem electionTimeout_shift (n : Node α) :
    n.Shift .electionTimeout n.electionTimeout.node := by
  unfold electionTimeout
  split
  · exact .stay (.refl n)
  · rename_i hleader
    have hold : n.role.kind ≠ .leader := fun h => hleader (Role.isLeader_iff.mpr h)
    unfold standForElection
    simp only
    split
    · rename_i hmajority
      exact .stand rfl rfl rfl rfl hold (Or.inr ⟨rfl, hmajority⟩) (Or.inr rfl)
    · rename_i hshort
      exact .stand rfl rfl rfl rfl hold (Or.inl ⟨rfl, hshort⟩) (Or.inl rfl)

theorem standForElection_office (n : Node α) :
    n.standForElection.node.term = n.term.next ∧
      n.generation.Precedes n.standForElection.node.generation := by
  unfold standForElection
  simp only
  split
  · exact ⟨rfl, Or.inr rfl⟩
  · exact ⟨rfl, Or.inl rfl⟩

theorem submit_sameOffice (n : Node α) (command : α) :
    n.SameOffice (n.submit command).2.node := by
  by_cases hleader : n.isLeader
  · have hlog : n.SameOffice (idle { n with log := n.log ++ [⟨n.term, command⟩] }).node :=
      ⟨rfl, rfl, rfl, rfl, rfl, rfl, rfl⟩
    have hstored : n.SameOffice (n.stored command).node := hlog.trans (.mapLead _ _)
    have hsteps : Turn.AnySteps (n.stored command) (n.submit command).2 :=
      submit_steps hleader command fun _ _ => trivial
    exact hstored.trans (.of_standing hsteps.standing)
  · rw [submit_of_not_leader hleader]
    exact .refl n

theorem submit_shift (n : Node α) (command : α) :
    n.Shift (.submit command) (n.submit command).2.node :=
  .stay (n.submit_sameOffice command)

theorem answerVote_shift (n : Node α) (args : VoteRequest) :
    n.Shift (.voteRequest args) (n.answerVote args).2.node := by
  unfold answerVote
  split
  · exact .stay (.refl n)
  · rename_i hfit
    have hle : n.term ≤ args.term := Nat.le_of_not_lt fun h => hfit (Or.inr h)
    simp only
    rcases observeTerm_cases n.idle args.term with
      ⟨hT, hsame⟩ | ⟨hT, hterm, hvote, hkind, hgen, hid, hsize⟩
    · have hargs : args.term = n.term := Nat.le_antisymm hT hle
      rw [hsame]
      split
      · rename_i hgrant
        cases hvoted : n.votedFor with
        | none => exact .vote args rfl hargs hvoted ⟨rfl, rfl, hargs, rfl, rfl, rfl, rfl⟩
        | some voted =>
            have hsame : voted = args.candidateId := by
              simp only [Grants, idle, hvoted] at hgrant
              exact hgrant.1
            exact .stay ⟨rfl, rfl, hargs, by rw [hvoted, hsame], rfl, rfl, rfl⟩
      · exact .stay (.refl n)
    · split
      · exact .adopt hid hsize hT (Or.inr ⟨args, rfl, rfl, rfl⟩) hkind hgen
      · exact .adopt hid hsize (Nat.lt_of_lt_of_eq hT hterm.symm) (Or.inl hvote) hkind hgen

theorem adopt_shift {n : Node α} {e : Event α} {T : Term} (hT : n.term < T) :
    n.Shift e (n.idle.observeTerm T).node := by
  rcases observeTerm_cases n.idle T with
    ⟨hle, -⟩ | ⟨-, hterm, hvote, hkind, hgen, hid, hsize⟩
  · exact absurd hT (Nat.not_lt.mpr hle)
  · exact .adopt hid hsize (Nat.lt_of_lt_of_eq hT hterm.symm) (Or.inl hvote) hkind hgen

theorem voteReturned_shift (n : Node α) (sender : PeerId) (generation : Generation)
    (reply : Option VoteReply) :
    n.Shift (.voteReturned sender generation reply) (n.voteReturned sender generation reply).node := by
  rcases n.voteReturned_cases sender generation reply with
    hsame | ⟨r, rfl, ⟨hlater, hturn⟩ |
      ⟨hgranted, rfl, votes, hrole, ⟨hshort, hturn⟩ | ⟨hmajority, hturn⟩⟩⟩
  · rw [hsame]
    exact .stay (.refl n)
  · rw [hturn]
    exact adopt_shift hlater
  · rw [hturn]
    exact .count votes sender r rfl hgranted hrole (.refl _) hshort
  · rw [hturn]
    exact .win votes sender r rfl hgranted hrole hmajority rfl rfl rfl rfl rfl (Or.inl rfl)

theorem record_sameOffice (t : Turn α) (sender : PeerId) (context : AppendContext) :
    t.node.SameOffice (t.record sender context).node := by
  unfold Turn.record
  split
  · exact .mapLead t _
  · exact .refl _

theorem appendAccepted_sameOffice (t : Turn α) (sender : PeerId) (context : AppendContext) :
    t.node.SameOffice (appendAccepted t sender context).node := by
  have hsteps : Turn.AnySteps (t.record sender context) (appendAccepted t sender context) :=
    appendAccepted_steps (fun _ _ _ _ => trivial) fun _ _ => trivial
  exact (record_sameOffice t sender context).trans (.of_standing hsteps.standing)

theorem appendRejected_sameOffice (t : Turn α) (sender : PeerId) (round : Round) :
    t.node.SameOffice (appendRejected t sender round).node := by
  unfold appendRejected
  split
  · exact .mapLead t _
  · split
    · exact .mapLead t _
    · exact .refl _

theorem appendReturned_shift (n : Node α) (sender : PeerId) (context : AppendContext)
    (reply : Option AppendReply) :
    n.Shift (.appendReturned sender context reply) (n.appendReturned sender context reply).node := by
  rcases n.appendReturned_cases sender context reply with
    hsame | ⟨r, rfl, ⟨hlater, hturn⟩ | ⟨-, -, -, ⟨-, hturn⟩ | ⟨-, hturn⟩⟩⟩
  · rw [hsame]
    exact .stay (.refl n)
  · rw [hturn]
    exact adopt_shift hlater
  · rw [hturn]
    exact .stay (appendAccepted_sameOffice n.idle sender context)
  · rw [hturn]
    exact .stay (appendRejected_sameOffice n.idle sender context.round)

theorem follow_shift (n : Node α) {args : AppendRequest α} (hle : n.term ≤ args.term) :
    n.Shift (.appendRequest args) (n.follow args).node := by
  have hfollower : ∀ m : Node α, m.role.kind = .follower →
      m.SameOffice { m with role := .follower (some args.leaderId) } := fun m hm =>
    ⟨rfl, rfl, rfl, rfl, rfl, hm.symm, (Role.tally?_of_ne (by rw [hm]; decide)).symm⟩
  unfold follow
  simp only
  rcases observeTerm_cases n.idle args.term with
    ⟨hT, hsame⟩ | ⟨hT, hterm, hvote, hkind, hgen, hid, hsize⟩
  · have hargs : args.term = n.term := Nat.le_antisymm hT hle
    rw [hsame]
    split
    · rename_i hrole
      exact .stay (hfollower n (Role.isFollower_iff.mp hrole))
    · rename_i hrole
      have hold : n.role.kind ≠ .follower := fun h => hrole (Role.isFollower_iff.mpr h)
      cases hcase : n.role with
      | follower leader => exact absurd (by rw [hcase]; rfl) hold
      | candidate votes =>
          simp only [Turn.stepDown, idle, hcase]
          exact .yield args rfl hargs rfl rfl rfl rfl hold rfl (Or.inl rfl)
      | leader lead =>
          simp only [Turn.stepDown, idle, hcase]
          exact .yield args rfl hargs rfl rfl rfl rfl hold rfl (Or.inl rfl)
  · have hadopt : n.Shift (.appendRequest args) (n.idle.observeTerm args.term).node :=
      .adopt hid hsize (Nat.lt_of_lt_of_eq hT hterm.symm) (Or.inl hvote) hkind hgen
    have hdown : (n.idle.observeTerm args.term).stepDown = n.idle.observeTerm args.term := by
      unfold Turn.stepDown
      split
      · rfl
      · rename_i hnot
        cases hcase : (n.idle.observeTerm args.term).node.role with
        | follower leader => exact absurd hcase (hnot leader)
        | candidate votes => rw [hcase] at hkind; cases hkind
        | leader lead => rw [hcase] at hkind; cases hkind
    split
    · exact hadopt.congr (hfollower _ hkind)
    · rw [hdown]
      exact hadopt.congr (hfollower _ hkind)

theorem answerAppend_shift (n : Node α) (args : AppendRequest α) :
    n.Shift (.appendRequest args) (n.answerAppend args).2.node := by
  rcases n.answerAppend_cases args with
    ⟨-, hturn⟩ | ⟨hle, -, hturn⟩ | ⟨hle, log, start, -, -, hwrite⟩
  · rw [hturn]
    exact .stay (.refl n)
  · rw [hturn]
    exact n.follow_shift hle
  · have hfollow := n.follow_shift hle
    have hwritten : (n.follow args).node.SameOffice
        (n.written args (log.merge start args.entries)).node := ⟨rfl, rfl, rfl, rfl, rfl, rfl, rfl⟩
    rcases hwrite with ⟨-, hturn⟩ | ⟨-, hturn⟩
    · rw [hturn]
      exact (hfollow.congr hwritten).congr (.of_standing (Turn.commitThrough_standing _ _))
    · rw [hturn]
      exact (hfollow.congr hwritten).congr ⟨rfl, rfl, rfl, rfl, rfl, rfl, rfl⟩

theorem heartbeatTimeout_node (n : Node α) : n.heartbeatTimeout.node = n := by
  unfold heartbeatTimeout
  split <;> rfl

/-- Whatever happens to a node, it moves between terms, votes and roles in one of these ways. -/
theorem after_shift (n : Node α) (e : Event α) : n.Shift e (n.after e) := by
  cases e with
  | start => exact .stay ⟨rfl, rfl, rfl, rfl, rfl, rfl, rfl⟩
  | electionTimeout => exact n.electionTimeout_shift
  | heartbeatTimeout =>
      have hnode : n.after .heartbeatTimeout = n := n.heartbeatTimeout_node
      rw [hnode]
      exact .stay (.refl n)
  | submit command => exact n.submit_shift command
  | voteRequest args => exact n.answerVote_shift args
  | appendRequest args => exact n.answerAppend_shift args
  | voteReturned sender generation reply => exact n.voteReturned_shift sender generation reply
  | appendReturned sender context reply => exact n.appendReturned_shift sender context reply

/-- A vote is granted in the term that was asked about, and the voter keeps to it. -/
theorem answerVote_granted {n : Node α} {args : VoteRequest}
    (hgranted : (n.answerVote args).1.voteGranted = true) :
    n.term ≤ args.term ∧ (n.answerVote args).2.node.term = args.term ∧
      (n.answerVote args).2.node.votedFor = some args.candidateId := by
  unfold answerVote at hgranted ⊢
  split at hgranted
  · cases hgranted
  · rename_i hfit
    have hle : n.term ≤ args.term := Nat.le_of_not_lt fun h => hfit (Or.inr h)
    simp only [hfit, if_false]
    simp only at hgranted
    split at hgranted
    · rename_i hgrant
      simp only [hgrant, if_true]
      exact ⟨hle, trivial, trivial⟩
    · cases hgranted

end Node

end Quorum
