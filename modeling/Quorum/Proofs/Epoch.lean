import Mathlib.Logic.Function.Iterate
import Quorum.Proofs.Fencing
import Quorum.Proofs.Shipping

/-!
Generations are epochs. Each change of term and each role taken up begins a new generation, and
nothing else does. So as long as the counter does not come round, a node in the same generation has
been in the same term and in the same role all the time, and the answer to a call of another
generation tells at most of a later term.
-/

namespace Quorum

variable {α : Type}

/-- The counter has this many values. -/
def Generation.period : Nat := 0x10000000000000000

namespace Generation

variable {g : Generation} {k : Nat}

theorem next_iterate (g : Generation) (k : Nat) :
    Generation.next^[k + 1] g = (g + (k + 1)) % period := by
  induction k with
  | zero => rfl
  | succ k ih =>
      rw [Function.iterate_succ_apply', ih]
      unfold Generation.next period
      rw [Nat.mod_add_mod]
      rfl

/-- Fewer changes than the counter has values do not bring it back. -/
theorem next_iterate_eq_iff (hk : k < period) : Generation.next^[k] g = g ↔ k = 0 := by
  constructor
  · intro hsame
    cases k with
    | zero => rfl
    | succ k =>
        rw [next_iterate] at hsame
        unfold period at hk hsame
        lia
  · rintro rfl
    rfl

end Generation

namespace Node

/-- Whether a vote that comes in decides the election. -/
def Decides (n : Node α) (sender : PeerId) (generation : Generation) (reply : VoteReply) : Prop :=
  match n.role with
  | .candidate votes =>
    reply.voteGranted = true ∧ generation = n.generation ∧
      (votes.add sender).IsMajority n.clusterSize
  | _ => False

instance (n : Node α) (sender : PeerId) (generation : Generation) (reply : VoteReply) :
    Decidable (n.Decides sender generation reply) := by
  unfold Decides; split <;> infer_instance

/-- How many roles a node takes up when it gives up its own: a follower has none to give up. -/
def retreats (n : Node α) : Nat := if n.role.isFollower then 0 else 1

/-- How many times an event gives a node another term or role: once for a later term that it hears
of, and once for each role that it takes up, though it may have been in such a role before. A
candidacy comes with its term. -/
def changes (n : Node α) : Event α → Nat
  | .electionTimeout =>
    if n.isLeader then 0 else if (Tally.single n.id).IsMajority n.clusterSize then 2 else 1
  | .voteRequest args => if n.started ∧ n.term < args.term then 1 + n.retreats else 0
  | .appendRequest args =>
    if n.term < args.term then 1 + n.retreats else if n.term = args.term then n.retreats else 0
  | .voteReturned sender generation (some reply) =>
    if n.term < reply.term then 1 + n.retreats
    else if n.Decides sender generation reply then 1 else 0
  | .appendReturned _ _ (some reply) => if n.term < reply.term then 1 + n.retreats else 0
  | _ => 0

/-- How many times a course of events does so. -/
def changesIn (n : Node α) : List (Event α) → Nat
  | [] => 0
  | e :: es => n.changes e + (n.after e).changesIn es

end Node

/-- A leader has all that another one had, and its match indices have not gone back. -/
structure Leadership.Advances (l m : Leadership) : Prop where
  length : m.cursors.length = l.cursors.length
  matched : ∀ (p : PeerId) c, l.cursors[p]? = some c →
    ∃ d, m.cursors[p]? = some d ∧ c.matched ≤ d.matched

/-- How a role that is not given up goes on: a follower does not forget its leader, a candidate does
not lose votes, and a leader's match indices do not go back. -/
inductive Role.Lasts : Role → Role → Prop
  | follower {a b : Option PeerId} (h : a.isSome → b.isSome) : Lasts (.follower a) (.follower b)
  | candidate {s t : Tally} (h : s.peers ⊆ t.peers) : Lasts (.candidate s) (.candidate t)
  | leader {l m : Leadership} (h : l.Advances m) : Lasts (.leader l) (.leader m)

/-- A node of the same term in the same role, at a later moment. -/
structure Node.Endures (n m : Node α) : Prop where
  term : m.term = n.term
  role : n.role.Lasts m.role
  log : n.isLeader → n.log <+: m.log

namespace Leadership.Advances

variable {l m k : Leadership}

theorem of_cursors (h : m.cursors = l.cursors) : l.Advances m :=
  ⟨congrArg List.length h, fun p c hc => ⟨c, by rw [h, hc], Int.le_refl _⟩⟩

theorem of_modify {q : PeerId} {f : Cursor → Cursor} (h : m.cursors = l.cursors.modify q f)
    (hf : ∀ c, c.matched ≤ (f c).matched) : l.Advances m where
  length := by rw [h, List.length_modify]
  matched := by
    intro p c hc
    rw [h, List.getElem?_modify, hc]
    by_cases hq : q = p
    · exact ⟨f c, by simp [hq], hf c⟩
    · exact ⟨c, by simp [hq], Int.le_refl _⟩

theorem trans (h : l.Advances m) (h' : m.Advances k) : l.Advances k where
  length := h'.length.trans h.length
  matched := by
    intro p c hc
    obtain ⟨d, hd, hle⟩ := h.matched p c hc
    obtain ⟨d', hd', hle'⟩ := h'.matched p d hd
    exact ⟨d', hd', Int.le_trans hle hle'⟩

end Leadership.Advances

namespace Role.Lasts

variable {r s t : Role}

theorem refl (r : Role) : r.Lasts r := by
  cases r with
  | follower a => exact .follower id
  | candidate votes => exact .candidate (List.Subset.refl _)
  | leader l => exact .leader (.of_cursors rfl)

theorem trans (h : r.Lasts s) (h' : s.Lasts t) : r.Lasts t := by
  cases h with
  | follower h =>
      cases h' with
      | follower h' => exact .follower fun ha => h' (h ha)
  | candidate h =>
      cases h' with
      | candidate h' => exact .candidate (List.Subset.trans h h')
  | leader h =>
      cases h' with
      | leader h' => exact .leader (h.trans h')

theorem kind (h : r.Lasts s) : s.kind = r.kind := by cases h <;> rfl

end Role.Lasts

namespace Node

variable {n m k : Node α} {e : Event α}

theorem Endures.refl (n : Node α) : n.Endures n := ⟨rfl, .refl _, fun _ => List.prefix_rfl⟩

theorem Endures.trans (h : n.Endures m) (h' : m.Endures k) : n.Endures k where
  term := h'.term.trans h.term
  role := h.role.trans h'.role
  log := by
    intro hn
    have hm : m.isLeader := Role.isLeader_iff.mpr (h.role.kind.trans (Role.isLeader_iff.mp hn))
    exact (h.log hn).trans (h'.log hm)

/-- A leader that goes on committing is the same leader. -/
theorem Endures.of_standing (h : m.standing = n.standing) (hlead : n.isLeader) :
    n.Endures m where
  term := standing_term h
  role := by
    obtain ⟨l, hl⟩ := exists_lead hlead
    obtain ⟨l', hl'⟩ := exists_lead ((standing_isLeader h).trans hlead)
    rw [hl, hl']
    exact .leader (.of_cursors (standing_cursors h hl' hl))
  log := fun _ => standing_log h ▸ List.prefix_rfl

end Node

namespace Turn

theorem stepDown_generation (t : Turn α) :
    t.stepDown.node.generation = Generation.next^[t.node.retreats] t.node.generation := by
  unfold stepDown Node.retreats
  cases hrole : t.node.role with
  | follower leader => rfl
  | candidate votes => rfl
  | leader lead => rfl

theorem observeTerm_generation {t : Turn α} {T : Term} (h : t.node.term < T) :
    (t.observeTerm T).node.generation =
      Generation.next^[1 + t.node.retreats] t.node.generation := by
  unfold observeTerm
  rw [if_neg (Nat.not_le_of_lt h), stepDown_generation, Nat.add_comm 1,
    Function.iterate_succ_apply]
  rfl

end Turn

namespace Node

variable {n : Node α}

theorem standForElection_generation (n : Node α) :
    n.standForElection.node.generation =
      Generation.next^[if (Tally.single n.id).IsMajority n.clusterSize then 2 else 1]
        n.generation := by
  unfold standForElection
  simp only
  split
  · rfl
  · rfl

theorem answerVote_generation (n : Node α) (args : VoteRequest) :
    (n.answerVote args).2.node.generation =
      Generation.next^[n.changes (.voteRequest args)] n.generation := by
  simp only [answerVote, changes]
  by_cases hfit : ¬ n.started ∨ args.term < n.term
  · have hnone : ¬ (n.started = true ∧ n.term < args.term) := by
      rintro ⟨hstarted, hlater⟩
      exact hfit.elim (· hstarted) (Nat.lt_asymm hlater)
    rw [if_pos hfit, if_neg hnone]
    rfl
  · have hgen : (n.idle.observeTerm args.term).node.generation =
        Generation.next^[if n.started ∧ n.term < args.term then 1 + n.retreats else 0]
          n.generation := by
      have hstarted : n.started = true := by simpa using fun h => hfit (Or.inl h)
      by_cases hlater : n.term < args.term
      · rw [if_pos ⟨hstarted, hlater⟩]
        exact Turn.observeTerm_generation (t := n.idle) hlater
      · rw [if_neg fun h => hlater h.2, Turn.observeTerm_of_le (Nat.le_of_not_lt hlater)]
        rfl
    rw [if_neg hfit]
    split
    · exact hgen
    · exact hgen

theorem follow_generation {args : AppendRequest α} (hle : n.term ≤ args.term) :
    (n.follow args).node.generation =
      Generation.next^[n.changes (.appendRequest args)] n.generation := by
  simp only [follow, changes]
  by_cases hlater : n.term < args.term
  · have hgen := Turn.observeTerm_generation (t := n.idle) hlater
    obtain ⟨leader, hrole⟩ := Turn.observeTerm_role (t := n.idle) hlater
    rw [if_pos hlater]
    split
    · exact hgen
    · refine (Turn.stepDown_generation _).trans ?_
      simp only [retreats, hrole, Role.isFollower, if_true, Function.iterate_zero_apply]
      exact hgen
  · have hsame : n.idle.observeTerm args.term = n.idle :=
      Turn.observeTerm_of_le (Nat.le_of_not_lt hlater)
    rw [if_neg hlater, if_pos (Nat.le_antisymm hle (Nat.le_of_not_lt hlater)), hsame]
    split
    · rename_i hfollower
      simp only [retreats, hfollower, if_true, Function.iterate_zero_apply]
      rfl
    · exact Turn.stepDown_generation n.idle

theorem answerAppend_generation (n : Node α) (args : AppendRequest α) :
    (n.answerAppend args).2.node.generation =
      Generation.next^[n.changes (.appendRequest args)] n.generation := by
  rcases n.answerAppend_cases args with
    ⟨hearlier, hturn⟩ | ⟨hle, -, hturn⟩ | ⟨hle, log, start, -, -, ⟨-, hturn⟩ | ⟨-, hturn⟩⟩
  · rw [hturn]
    simp only [changes, Nat.lt_asymm hearlier, Nat.ne_of_gt hearlier, if_false]
    rfl
  · rw [hturn]
    exact follow_generation hle
  · rw [hturn]
    exact follow_generation hle
  · rw [hturn]
    exact follow_generation hle

theorem decides_of_candidate {votes : Tally} (hrole : n.role = .candidate votes)
    {sender : PeerId} {generation : Generation} {reply : VoteReply} :
    n.Decides sender generation reply ↔
      reply.voteGranted = true ∧ generation = n.generation ∧
        (votes.add sender).IsMajority n.clusterSize := by
  unfold Decides
  rw [hrole]

/-- A vote that decides the election makes a leader of its candidate. -/
theorem voteReturned_of_decides {sender : PeerId} {generation : Generation} {reply : VoteReply}
    (hle : reply.term ≤ n.term) (h : n.Decides sender generation reply) :
    ∃ votes, n.voteReturned sender generation (some reply) =
      (idle { n with role := .candidate votes }).becomeLeader := by
  have hsame : n.idle.observeTerm reply.term = n.idle := Turn.observeTerm_of_le hle
  cases hrole : n.role with
  | candidate votes =>
      obtain ⟨hgranted, rfl, hmajority⟩ := (decides_of_candidate hrole).mp h
      refine ⟨votes.add sender, ?_⟩
      simp only [voteReturned, hsame, idle_node, hrole, hgranted, hmajority, and_self, if_true]
      rfl
  | follower leader => simp [Decides, hrole] at h
  | leader lead => simp [Decides, hrole] at h

/-- A vote that does not is added to the others, if it counts at all. -/
theorem voteReturned_of_not_decides {sender : PeerId} {generation : Generation} {reply : VoteReply}
    (hle : reply.term ≤ n.term) (h : ¬ n.Decides sender generation reply) :
    n.voteReturned sender generation (some reply) = n.idle ∨
      ∃ votes, n.role = .candidate votes ∧ n.voteReturned sender generation (some reply) =
        idle { n with role := .candidate (votes.add sender) } := by
  rcases n.voteReturned_cases sender generation (some reply) with
    hturn | ⟨r, hreply, ⟨hlater, -⟩ | ⟨hgranted, hgen, votes, hrole, ⟨-, hturn⟩ | ⟨hmajority, -⟩⟩⟩
  · exact Or.inl hturn
  · obtain rfl := Option.some.inj hreply
    exact absurd hlater (Nat.not_lt.mpr hle)
  · exact Or.inr ⟨votes, hrole, hturn⟩
  · obtain rfl := Option.some.inj hreply
    exact absurd ((decides_of_candidate hrole).mpr ⟨hgranted, hgen, hmajority⟩) h

theorem voteReturned_generation (n : Node α) (sender : PeerId) (generation : Generation)
    (reply : Option VoteReply) :
    (n.voteReturned sender generation reply).node.generation =
      Generation.next^[n.changes (.voteReturned sender generation reply)] n.generation := by
  cases reply with
  | none => rfl
  | some reply =>
      rcases Nat.lt_or_ge n.term reply.term with hlater | hle
      · rw [voteReturned_of_lt hlater]
        simp only [changes, hlater, if_true]
        exact Turn.observeTerm_generation (t := n.idle) hlater
      · simp only [changes, Nat.not_lt.mpr hle, if_false]
        by_cases hwon : n.Decides sender generation reply
        · obtain ⟨votes, hturn⟩ := voteReturned_of_decides hle hwon
          rw [hturn, if_pos hwon]
          rfl
        · rw [if_neg hwon]
          rcases voteReturned_of_not_decides hle hwon with hturn | ⟨votes, -, hturn⟩
          · rw [hturn]
            rfl
          · rw [hturn]
            rfl

theorem appendReturned_generation (n : Node α) (sender : PeerId) (context : AppendContext)
    (reply : Option AppendReply) :
    (n.appendReturned sender context reply).node.generation =
      Generation.next^[n.changes (.appendReturned sender context reply)] n.generation := by
  cases reply with
  | none => rfl
  | some reply =>
      rcases Nat.lt_or_ge n.term reply.term with hlater | hle
      · rw [appendReturned_of_lt hlater]
        simp only [changes, hlater, if_true]
        exact Turn.observeTerm_generation (t := n.idle) hlater
      · simp only [changes, Nat.not_lt.mpr hle, if_false]
        rcases n.appendReturned_cases sender context (some reply) with
          hturn | ⟨r, hreply, ⟨hlater, -⟩ | ⟨-, -, -, ⟨-, hturn⟩ | ⟨-, hturn⟩⟩⟩
        · rw [hturn]
          rfl
        · obtain rfl := Option.some.inj hreply
          exact absurd hlater (Nat.not_lt.mpr hle)
        · rw [hturn]
          exact (appendAccepted_sameOffice n.idle sender context).generation
        · rw [hturn]
          exact (appendRejected_sameOffice n.idle sender context.round).generation

/-- The counter goes on once for every change, and for nothing else. -/
theorem generation_after (n : Node α) (e : Event α) :
    (n.after e).generation = Generation.next^[n.changes e] n.generation := by
  cases e with
  | start => rfl
  | electionTimeout =>
      change n.electionTimeout.node.generation = _
      unfold electionTimeout
      simp only [changes]
      split
      · rfl
      · exact n.standForElection_generation
  | heartbeatTimeout => exact congrArg Node.generation n.heartbeatTimeout_node
  | submit command => exact (n.submit_sameOffice command).generation
  | voteRequest args => exact n.answerVote_generation args
  | appendRequest args => exact n.answerAppend_generation args
  | voteReturned sender generation reply => exact n.voteReturned_generation sender generation reply
  | appendReturned sender context reply => exact n.appendReturned_generation sender context reply

theorem generation_afterAll (n : Node α) (es : List (Event α)) :
    (n.afterAll es).generation = Generation.next^[n.changesIn es] n.generation := by
  induction es generalizing n with
  | nil => rfl
  | cons e es ih =>
      change ((n.after e).afterAll es).generation =
        Generation.next^[n.changes e + (n.after e).changesIn es] n.generation
      rw [ih, generation_after, Nat.add_comm, Function.iterate_add_apply]

theorem submit_endures (n : Node α) (command : α) : n.Endures (n.submit command).2.node := by
  by_cases hleader : n.isLeader
  · obtain ⟨l, hl⟩ := exists_lead hleader
    have hstored := stored_role hl command
    have hkept : n.Endures (n.stored command).node := by
      refine ⟨rfl, ?_, fun _ => List.prefix_append _ _⟩
      rw [hl, hstored]
      exact .leader (.of_cursors rfl)
    have hsteps : Turn.AnySteps (n.stored command) (n.submit command).2 :=
      submit_steps hleader command fun _ _ => trivial
    exact hkept.trans (.of_standing hsteps.standing (isLeader_of_lead hstored))
  · rw [submit_of_not_leader hleader]
    exact .refl n

theorem answerVote_endures {args : VoteRequest} (h : n.changes (.voteRequest args) = 0) :
    n.Endures (n.answerVote args).2.node := by
  unfold answerVote
  split
  · exact .refl n
  · rename_i hfit
    obtain ⟨hstarted, hle⟩ := not_or.mp hfit
    have hlate : ¬ n.term < args.term := by
      intro hlater
      simp only [changes, Decidable.not_not.mp hstarted, hlater, and_self, if_true] at h
      omega
    have hterm : args.term = n.term :=
      Nat.le_antisymm (Nat.le_of_not_lt hlate) (Nat.le_of_not_lt hle)
    rw [Turn.observeTerm_of_le (t := n.idle) (Nat.le_of_eq hterm)]
    simp only
    split
    · exact ⟨hterm, .refl _, fun _ => List.prefix_rfl⟩
    · exact .refl n

/-- A follower that takes whoever calls it for its leader, in its own term, remains a follower. -/
theorem Endures.of_follower {leader : Option PeerId} {caller : PeerId}
    (hrole : n.role = .follower leader) (hterm : m.term = n.term)
    (hm : m.role = .follower (some caller)) : n.Endures m where
  term := hterm
  role := by
    rw [hrole, hm]
    exact .follower fun _ => rfl
  log := by
    intro hlead
    simp [isLeader, hrole, Role.isLeader] at hlead

theorem answerAppend_endures {args : AppendRequest α} (h : n.changes (.appendRequest args) = 0) :
    n.Endures (n.answerAppend args).2.node := by
  by_cases hearlier : args.term < n.term
  · rw [answerAppend_of_lt hearlier]
    exact .refl n
  · have hlate : ¬ n.term < args.term := by
      intro hlater
      simp only [changes, hlater, if_true] at h
      omega
    have hterm : n.term = args.term :=
      Nat.le_antisymm (Nat.le_of_not_lt hearlier) (Nat.le_of_not_lt hlate)
    obtain ⟨leader, hrole⟩ : ∃ leader, n.role = .follower leader := by
      simp only [changes, hterm, if_true, retreats] at h
      cases hrole : n.role with
      | follower leader => exact ⟨leader, rfl⟩
      | candidate votes => simp [hrole, Role.isFollower] at h
      | leader lead => simp [hrole, Role.isFollower] at h
    have hfollow : (n.follow args).node.term = n.term :=
      (n.follow_term (Nat.le_of_eq hterm)).trans hterm.symm
    rcases n.answerAppend_cases args with
      ⟨hless, -⟩ | ⟨-, -, hturn⟩ | ⟨-, log, start, -, -, ⟨-, hturn⟩ | ⟨-, hturn⟩⟩
    · exact absurd hless hearlier
    · rw [hturn]
      exact .of_follower hrole hfollow rfl
    · rw [hturn]
      exact .of_follower hrole hfollow rfl
    · rw [hturn]
      exact .of_follower hrole hfollow rfl

theorem voteReturned_endures {sender : PeerId} {generation : Generation}
    {reply : Option VoteReply} (h : n.changes (.voteReturned sender generation reply) = 0) :
    n.Endures (n.voteReturned sender generation reply).node := by
  cases reply with
  | none => exact .refl n
  | some reply =>
      have hle : reply.term ≤ n.term := by
        refine Nat.le_of_not_lt fun hlater => ?_
        simp only [changes, hlater, if_true] at h
        omega
      have hopen : ¬ n.Decides sender generation reply := by
        intro hwon
        simp only [changes, Nat.not_lt.mpr hle, hwon, if_true, if_false] at h
        omega
      rcases voteReturned_of_not_decides hle hopen with hturn | ⟨votes, hrole, hturn⟩
      · rw [hturn]
        exact .refl n
      · rw [hturn]
        refine ⟨rfl, ?_, fun _ => List.prefix_rfl⟩
        rw [hrole]
        exact .candidate fun p hp => Tally.mem_add.mpr (Or.inl hp)

theorem Endures.of_lead {l l' : Leadership} (hrole : n.role = .leader l)
    (hm : m.role = .leader l') (hadvances : l.Advances l') (hterm : m.term = n.term)
    (hlog : m.log = n.log) : n.Endures m where
  term := hterm
  role := by
    rw [hrole, hm]
    exact .leader hadvances
  log := fun _ => hlog ▸ List.prefix_rfl

theorem record_endures (hleader : n.isLeader) (sender : PeerId) (context : AppendContext) :
    n.Endures (n.idle.record sender context).node := by
  obtain ⟨l, hl⟩ := exists_lead hleader
  unfold Turn.record
  split
  · rename_i lastSent _
    have hadvances : l.Advances (l.recordSuccess sender lastSent) :=
      .of_modify rfl fun c => Int.le_max_left _ _
    exact .of_lead hl (Turn.mapLead_role hl _) hadvances rfl rfl
  · exact .refl n

theorem retreat_endures (hleader : n.isLeader) (sender : PeerId) :
    n.Endures (n.idle.mapLead (·.recordFailure sender)).node := by
  obtain ⟨l, hl⟩ := exists_lead hleader
  have hadvances : l.Advances (l.recordFailure sender) := by
    refine .of_modify rfl fun c => ?_
    split
    · exact Int.le_refl _
    · exact Int.le_refl _
  exact .of_lead hl (Turn.mapLead_role hl _) hadvances rfl rfl

theorem appendReturned_endures {sender : PeerId} {context : AppendContext}
    {reply : Option AppendReply} (h : n.changes (.appendReturned sender context reply) = 0) :
    n.Endures (n.appendReturned sender context reply).node := by
  rcases n.appendReturned_cases sender context reply with
    hturn | ⟨r, rfl, ⟨hlater, -⟩ | ⟨-, hleader, -, ⟨-, hturn⟩ | ⟨-, hturn⟩⟩⟩
  · rw [hturn]
    exact .refl n
  · simp only [changes, hlater, if_true] at h
    omega
  · have hsteps : Turn.AnySteps (n.idle.record sender context)
        (appendAccepted n.idle sender context) :=
      appendAccepted_steps (fun _ _ _ _ => trivial) fun _ _ => trivial
    rw [hturn]
    refine (record_endures hleader sender context).trans (.of_standing hsteps.standing ?_)
    exact (record_sameOffice n.idle sender context).isLeader.trans hleader
  · rw [hturn]
    unfold appendRejected
    split
    · exact retreat_endures hleader sender
    · split
      · exact retreat_endures hleader sender
      · exact .refl n

/-- An event that is no change leaves the node in its term and its role. -/
theorem after_endures {e : Event α} (h : n.changes e = 0) : n.Endures (n.after e) := by
  cases e with
  | start => exact ⟨rfl, .refl _, fun _ => List.prefix_rfl⟩
  | electionTimeout =>
      change n.Endures n.electionTimeout.node
      unfold electionTimeout
      simp only [changes] at h
      split
      · exact .refl n
      · rename_i hleader
        rw [if_neg hleader] at h
        split at h
        · omega
        · omega
  | heartbeatTimeout =>
      change n.Endures n.heartbeatTimeout.node
      rw [n.heartbeatTimeout_node]
      exact .refl n
  | submit command => exact n.submit_endures command
  | voteRequest args => exact answerVote_endures h
  | appendRequest args => exact answerAppend_endures h
  | voteReturned sender generation reply => exact voteReturned_endures h
  | appendReturned sender context reply => exact appendReturned_endures h

/-- Throughout a course of events without a change, a node stays in its term and its role. -/
theorem endures_throughout {es : List (Event α)} (h : n.changesIn es = 0) :
    ∀ before, before <+: es → n.Endures (n.afterAll before) := by
  induction es generalizing n with
  | nil =>
      intro before hbefore
      obtain rfl := List.prefix_nil.mp hbefore
      exact .refl n
  | cons e es ih =>
      intro before hbefore
      have hnow : n.changes e = 0 := Nat.eq_zero_of_add_eq_zero_right h
      have hlater : (n.after e).changesIn es = 0 := Nat.eq_zero_of_add_eq_zero_left h
      rcases List.prefix_cons_iff.mp hbefore with rfl | ⟨rest, rfl, hrest⟩
      · exact .refl n
      · exact (after_endures hnow).trans (ih hlater rest hrest)

/-- What a node makes of an answer to which only a later term can matter. -/
def heed (n : Node α) : Option Term → Turn α
  | none => n.idle
  | some T => n.idle.observeTerm T

/-- A vote that was asked for in another generation counts for nothing. -/
theorem voteReturned_stale {generation : Generation} (hgen : generation ≠ n.generation)
    (sender : PeerId) (reply : Option VoteReply) :
    n.voteReturned sender generation reply = n.heed (reply.map (·.term)) := by
  cases reply with
  | none => rfl
  | some reply =>
      rcases Nat.lt_or_ge n.term reply.term with hlater | hle
      · exact voteReturned_of_lt hlater sender generation
      · have hheed : n.heed (some reply.term) = n.idle := Turn.observeTerm_of_le hle
        refine Eq.trans ?_ hheed.symm
        rcases n.voteReturned_cases sender generation (some reply) with
          hturn | ⟨r, hreply, ⟨hlater, -⟩ | ⟨-, hsame, -⟩⟩
        · exact hturn
        · obtain rfl := Option.some.inj hreply
          exact absurd hlater (Nat.not_lt.mpr hle)
        · exact absurd hsame hgen

/-- Nor does the answer to an append call that was made in another generation. -/
theorem appendReturned_stale {context : AppendContext} (hgen : context.generation ≠ n.generation)
    (sender : PeerId) (reply : Option AppendReply) :
    n.appendReturned sender context reply = n.heed (reply.map (·.term)) := by
  cases reply with
  | none => rfl
  | some reply =>
      rcases Nat.lt_or_ge n.term reply.term with hlater | hle
      · exact appendReturned_of_lt hlater sender context
      · have hheed : n.heed (some reply.term) = n.idle := Turn.observeTerm_of_le hle
        refine Eq.trans ?_ hheed.symm
        rcases n.appendReturned_cases sender context (some reply) with
          hturn | ⟨r, hreply, ⟨hlater, -⟩ | ⟨-, -, hsame, -⟩⟩
        · exact hturn
        · obtain rfl := Option.some.inj hreply
          exact absurd hlater (Nat.not_lt.mpr hle)
        · exact absurd hsame hgen

/-- Votes are asked for in the generation of the candidacy. An election that is won at once has
brought another one already. -/
theorem requestVote_changes {e : Event α} {peer : PeerId} {generation : Generation}
    {args : VoteRequest} (h : .requestVote peer generation args ∈ (n.handle e).2.actions) :
    generation = n.generation.next ∧ n.changes e = if (n.after e).isLeader then 2 else 1 := by
  obtain ⟨rfl, hleader, -, rfl, -⟩ := requestVote_of_handle h
  refine ⟨rfl, ?_⟩
  change (if n.isLeader then _ else _) = if n.electionTimeout.node.isLeader then _ else _
  unfold electionTimeout standForElection
  simp only [hleader]
  by_cases hmajority : (Tally.single n.id).IsMajority n.clusterSize
  · simp only [hmajority, if_true]
    rfl
  · simp only [hmajority, if_false]
    rfl

/-- An append call is made in the generation in which the event leaves the node. -/
theorem appendEntries_generation {e : Event α} {peer : PeerId} {context : AppendContext}
    {args : AppendRequest α} (h : .appendEntries peer context args ∈ (n.handle e).2.actions) :
    context.generation = (n.after e).generation := by
  obtain ⟨m, hm, -, hsends⟩ := call_of_handle h
  obtain ⟨_, _, _, _, -, -, rfl, -⟩ := hsends.call
  exact standing_generation hm

end Node

/-- Generations are epochs. However a node is called, its generation counts its changes, and as long
as they are fewer than the counter has values the same generation means that there was none: the
node has been in one term and one role throughout, as a leader with a growing log and growing match
indices. And once a call's candidacy or leadership is over, the answer to it does nothing but tell
of a later term. -/
theorem generation_faithful (n : Node α) (e : Event α) (es : List (Event α))
    (hfew : n.changesIn (e :: es) < Generation.period) :
    let m := n.afterAll (e :: es)
    m.generation = Generation.next^[n.changesIn (e :: es)] n.generation ∧
      (m.generation = n.generation →
        n.changesIn (e :: es) = 0 ∧
          ∀ before, before <+: e :: es → n.Endures (n.afterAll before)) ∧
      (∀ peer generation args, .requestVote peer generation args ∈ (n.handle e).2.actions →
        (n.after e).isLeader ∨ 0 < (n.after e).changesIn es →
        ∀ sender reply, m.voteReturned sender generation reply = m.heed (reply.map (·.term))) ∧
      ∀ peer context args, .appendEntries peer context args ∈ (n.handle e).2.actions →
        0 < (n.after e).changesIn es →
        ∀ sender reply, m.appendReturned sender context reply = m.heed (reply.map (·.term)) := by
  intro m
  have hcount : m.generation = Generation.next^[n.changesIn (e :: es)] n.generation :=
    n.generation_afterAll (e :: es)
  have hlater : m.generation =
      Generation.next^[(n.after e).changesIn es] (n.after e).generation :=
    (n.after e).generation_afterAll es
  have hsplit : n.changesIn (e :: es) = n.changes e + (n.after e).changesIn es := rfl
  refine ⟨hcount, ?_, ?_, ?_⟩
  · intro hsame
    have hnone : n.changesIn (e :: es) = 0 :=
      (Generation.next_iterate_eq_iff hfew).mp (hcount.symm.trans hsame)
    exact ⟨hnone, Node.endures_throughout hnone⟩
  · intro peer generation args hsent hover sender reply
    refine Node.voteReturned_stale (fun hgen => ?_) sender reply
    obtain ⟨rfl, hchanges⟩ := Node.requestVote_changes hsent
    -- The changes after the one that made the node a candidate.
    obtain ⟨k, hk, hpos⟩ : ∃ k, n.changesIn (e :: es) = k + 1 ∧ 0 < k := by
      rw [hsplit, hchanges]
      split
      · exact ⟨(n.after e).changesIn es + 1, by omega, by omega⟩
      · rename_i hlost
        have hsome : 0 < (n.after e).changesIn es := hover.resolve_left hlost
        exact ⟨(n.after e).changesIn es, by omega, hsome⟩
    rw [hk, Function.iterate_succ_apply] at hcount
    have hnone := (Generation.next_iterate_eq_iff (by omega)).mp (hcount.symm.trans hgen.symm)
    omega
  · intro peer context args hsent hover sender reply
    refine Node.appendReturned_stale (fun hgen => ?_) sender reply
    rw [Node.appendEntries_generation hsent] at hgen
    have hnone := (Generation.next_iterate_eq_iff (by omega)).mp (hlater.symm.trans hgen.symm)
    omega

/-- A candidate of term one that bows to the leader of that term. -/
def superseded : List (Event Nat) := [.electionTimeout, .appendRequest ⟨1, 1, -1, none, [], -1⟩]

/-- The vote that would have elected it comes too late. -/
theorem generation_faithful_superseded :
    let n := (Node.fresh 0 3 : Node Nat).start.node
    n.changesIn superseded < Generation.period ∧
      (n.afterAll superseded).generation = 2 ∧
      (n.afterAll superseded).voteReturned 2 1 (some ⟨1, true⟩) =
        (n.afterAll superseded).idle := by
  refine ⟨by decide, rfl, ?_⟩
  exact (generation_faithful (Node.fresh 0 3 : Node Nat).start.node .electionTimeout
    (superseded.drop 1) (by decide)).2.2.1 2 1 ⟨1, 0, -1, 0⟩ (by decide) (Or.inr (by decide)) 2
    (some ⟨1, true⟩)

end Quorum
