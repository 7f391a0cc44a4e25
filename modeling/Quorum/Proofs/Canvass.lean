import Quorum.Proofs.Commutation
import Quorum.Proofs.Promptness

/-!
A candidate hears from those it has asked for their votes, in any order. Winning begins a new
generation, so that later votes are no longer counted, and a later term ends the candidacy or the
leadership that has come of it. What the answers lead to depends on two things that have no order:
the latest term in them, and the peers that have given their votes.
-/

namespace Quorum

variable {α : Type}

/-- What becomes of the call of one peer for its vote: no reply if the peer could not be reached. -/
structure Outcome where
  peer : PeerId
  reply : Option VoteReply
  deriving DecidableEq, Repr

namespace Outcome

def event (g : Generation) (o : Outcome) : Event α := .voteReturned o.peer g o.reply

/-- The term of the reply, if there is one. -/
def term (o : Outcome) : Term := (o.reply.map (·.term)).getD 0

/-- The peer, if it gives its vote. -/
def supporter? (o : Outcome) : Option PeerId :=
  (o.reply.filter (·.voteGranted)).map fun _ => o.peer

end Outcome

/-- The latest term that is replied. -/
def latest (os : List Outcome) : Term := (os.map Outcome.term).foldl max 0

/-- Those who have voted before, and those who give their votes now. -/
def supporters (votes : Tally) (os : List Outcome) : Finset PeerId :=
  (votes.peers ++ os.filterMap Outcome.supporter?).toFinset

theorem latest_concat (os : List Outcome) (o : Outcome) :
    latest (os ++ [o]) = max (latest os) o.term := by
  unfold latest
  rw [List.map_append, List.foldl_append]
  rfl

theorem latest_perm {os os' : List Outcome} (h : os.Perm os') : latest os = latest os' :=
  (h.map _).foldl_eq 0

theorem mem_supporters {votes : Tally} {os : List Outcome} {p : PeerId} :
    p ∈ supporters votes os ↔ p ∈ votes.peers ∨ ∃ o ∈ os, o.supporter? = some p := by
  unfold supporters
  rw [List.mem_toFinset, List.mem_append, List.mem_filterMap]

theorem supporters_perm (votes : Tally) {os os' : List Outcome} (h : os.Perm os') :
    supporters votes os = supporters votes os' :=
  List.toFinset_eq_of_perm _ _ ((h.filterMap _).append_left _)

theorem supporters_nil (votes : Tally) : supporters votes [] = votes.peers.toFinset := by
  simp [supporters]

theorem supporters_subset (votes : Tally) (os later : List Outcome) :
    supporters votes os ⊆ supporters votes (os ++ later) := by
  intro p hp
  rw [mem_supporters] at hp ⊢
  refine hp.imp_right ?_
  rintro ⟨o, ho, hsupport⟩
  exact ⟨o, List.mem_append_left _ ho, hsupport⟩

/-- Nobody is gained who does not give a vote. -/
theorem supporters_concat_of_none {votes : Tally} {os : List Outcome} {o : Outcome}
    (h : o.supporter? = none) : supporters votes (os ++ [o]) = supporters votes os := by
  unfold supporters
  simp [List.filterMap_append, h]

theorem supporters_concat_of_some {votes : Tally} {os : List Outcome} {o : Outcome} {p : PeerId}
    (h : o.supporter? = some p) :
    supporters votes (os ++ [o]) = insert p (supporters votes os) := by
  ext q
  simp only [mem_supporters, Finset.mem_insert, List.mem_append, List.mem_singleton]
  constructor
  · rintro (hvoted | ⟨o', hold | rfl, hsupport⟩)
    · exact Or.inr (Or.inl hvoted)
    · exact Or.inr (Or.inr ⟨o', hold, hsupport⟩)
    · exact Or.inl (Option.some.inj (hsupport.symm.trans h))
  · rintro (rfl | hvoted | ⟨o', hold, hsupport⟩)
    · exact Or.inr ⟨o, Or.inr rfl, h⟩
    · exact Or.inl hvoted
    · exact Or.inr ⟨o', Or.inl hold, hsupport⟩

theorem Tally.isMajority_iff_card {t : Tally} {size : Nat} :
    t.IsMajority size ↔ size < t.peers.toFinset.card * 2 := by
  unfold IsMajority Tally.size
  rw [List.toFinset_card_of_nodup t.nodup]

/-- The voters of a candidate. -/
def Role.voters? (r : Role) : Option (Finset PeerId) := r.tally?.map (·.peers.toFinset)

namespace Node

/-- A node that has heard how its calls for votes of this generation have come out. -/
def canvassed (n : Node α) (os : List Outcome) : Node α :=
  n.afterAll (os.map (Outcome.event n.generation))

theorem canvassed_concat (n : Node α) (os : List Outcome) (o : Outcome) :
    n.canvassed (os ++ [o]) = (n.canvassed os).after (o.event n.generation) := by
  unfold canvassed afterAll
  rw [List.map_append, List.foldl_append]
  rfl

section Answers

variable {n : Node α} {votes : Tally} {p : PeerId} {g : Generation} {r : VoteReply}

theorem voteReturned_of_not_candidate (hle : r.term ≤ n.term) (h : n.role.tally? = none) :
    n.voteReturned p g (some r) = n.idle := by
  have hsame : n.idle.observeTerm r.term = n.idle := Turn.observeTerm_of_le hle
  cases hrole : n.role with
  | candidate votes =>
      rw [hrole] at h
      cases h
  | follower leader => simp only [voteReturned, hsame, idle_node, hrole]
  | leader lead => simp only [voteReturned, hsame, idle_node, hrole]

theorem voteReturned_refused (hle : r.term ≤ n.term) (h : r.voteGranted = false) :
    n.voteReturned p g (some r) = n.idle := by
  have hsame : n.idle.observeTerm r.term = n.idle := Turn.observeTerm_of_le hle
  cases hrole : n.role with
  | candidate votes =>
      simp only [voteReturned, hsame, idle_node, hrole, h, Bool.false_eq_true, false_and, if_false]
  | follower leader => simp only [voteReturned, hsame, idle_node, hrole]
  | leader lead => simp only [voteReturned, hsame, idle_node, hrole]

end Answers

/-- What has become of a candidate once it has heard of the term `T` and has the votes of `S`. -/
inductive Polled (n : Node α) (S : Finset PeerId) (T : Term) (m : Node α) : Prop
  | deposed (hlater : n.term < T) (hkind : m.role.kind = .follower) (hterm : m.term = T)
      (hvote : m.votedFor = none)
  | elected (hle : T ≤ n.term) (hmajority : n.clusterSize < S.card * 2)
      (hkind : m.role.kind = .leader) (hterm : m.term = n.term) (hvote : m.votedFor = n.votedFor)
  | undecided (hle : T ≤ n.term) (hshort : ¬ n.clusterSize < S.card * 2) (votes : Tally)
      (hrole : m.role = .candidate votes) (hvoters : votes.peers.toFinset = S)
      (hterm : m.term = n.term) (hvote : m.votedFor = n.votedFor)
      (hgen : m.generation = n.generation)

namespace Polled

variable {n m : Node α} {S S' : Finset PeerId} {T : Term} {p : PeerId} {r : VoteReply}

/-- A later term makes a follower of whatever the candidate has become. -/
theorem later (hle : T ≤ m.term) (hold : n.term ≤ m.term) (h : m.term < r.term) :
    n.Polled S' (max T r.term) (m.voteReturned p n.generation (some r)).node := by
  have hmax : max T r.term = r.term := Nat.max_eq_right (by lia)
  rw [voteReturned_of_lt h, hmax]
  rcases observeTerm_cases m.idle r.term with ⟨hno, -⟩ | ⟨-, hterm, hvote, hkind, -⟩
  · exact absurd h (Nat.not_lt_of_le hno)
  · exact .deposed (Nat.lt_of_le_of_lt hold h) hkind hterm hvote

/-- One more reply. Only an undecided candidate counts it. -/
theorem reply (h : n.Polled S T m) (hsize : m.clusterSize = n.clusterSize) (hsub : S ⊆ S')
    (hrefused : r.voteGranted = false → S' = S)
    (hgranted : r.voteGranted = true → S' = insert p S) :
    n.Polled S' (max T r.term) (m.voteReturned p n.generation (some r)).node := by
  rcases Nat.lt_or_ge m.term r.term with hlater | hle
  · cases h with
    | deposed hold hkind hterm hvote => exact later (by lia) (by lia) hlater
    | elected hold hmajority hkind hterm hvote => exact later (by lia) (by lia) hlater
    | undecided hold hshort votes hrole hvoters hterm => exact later (by lia) (by lia) hlater
  · cases h with
    | deposed hold hkind hterm hvote =>
        have hnone : m.role.tally? = none := Role.tally?_of_ne (by rw [hkind]; decide)
        rw [voteReturned_of_not_candidate hle hnone, Nat.max_eq_left (by lia)]
        exact .deposed hold hkind hterm hvote
    | elected hold hmajority hkind hterm hvote =>
        have hnone : m.role.tally? = none := Role.tally?_of_ne (by rw [hkind]; decide)
        have hmore : n.clusterSize < S'.card * 2 :=
          Nat.lt_of_lt_of_le hmajority (Nat.mul_le_mul_right 2 (Finset.card_le_card hsub))
        rw [voteReturned_of_not_candidate hle hnone]
        exact .elected (by lia) hmore hkind hterm hvote
    | undecided hold hshort votes hrole hvoters hterm hvote hgen =>
        have hmax : max T r.term ≤ n.term := by lia
        cases hvoted : r.voteGranted with
        | false =>
            rw [voteReturned_refused hle hvoted, hrefused hvoted]
            exact .undecided hmax hshort votes hrole hvoters hterm hvote hgen
        | true =>
            have hvoters' : (votes.add p).peers.toFinset = S' := by
              rw [Tally.toFinset_add, hvoters, hgranted hvoted]
            rw [voteReturned_granted hle hrole hvoted hgen.symm]
            split
            · rename_i hmajority
              rw [Tally.isMajority_iff_card, hvoters', hsize] at hmajority
              exact .elected hmax hmajority rfl hterm hvote
            · rename_i hstill
              rw [Tally.isMajority_iff_card, hvoters', hsize] at hstill
              exact .undecided hmax hstill (votes.add p) rfl hvoters' hterm hvote hgen

end Polled

theorem canvassed_clusterSize (n : Node α) (os : List Outcome) :
    (n.canvassed os).clusterSize = n.clusterSize := by
  induction os using List.reverseRecOn with
  | nil => rfl
  | append_singleton os o ih =>
      rw [canvassed_concat]
      exact ((n.canvassed os).after_shift _).clusterSize.trans ih

theorem canvassed_log (n : Node α) (os : List Outcome) : (n.canvassed os).log = n.log := by
  induction os using List.reverseRecOn with
  | nil => rfl
  | append_singleton os o ih =>
      rw [canvassed_concat]
      exact ((n.canvassed os).voteReturned_log o.peer n.generation o.reply).trans ih

theorem canvassed_commitIndex (n : Node α) (os : List Outcome) :
    (n.canvassed os).commitIndex = n.commitIndex := by
  induction os using List.reverseRecOn with
  | nil => rfl
  | append_singleton os o ih =>
      rw [canvassed_concat]
      have hstep := (n.canvassed os).voteReturned_withholds o.peer n.generation o.reply
      exact hstep.commitIndex.trans ih

/-- Whatever order the outcomes come in, the latest term and the supporters decide. -/
theorem canvassed_polled {n : Node α} {votes : Tally} (hrole : n.role = .candidate votes)
    (hshort : n.Short) (os : List Outcome) :
    n.Polled (supporters votes os) (latest os) (n.canvassed os) := by
  induction os using List.reverseRecOn with
  | nil =>
      rw [supporters_nil]
      refine .undecided (Nat.zero_le _) ?_ votes hrole rfl rfl rfl rfl
      rw [← Tally.isMajority_iff_card]
      exact hshort votes hrole
  | append_singleton os o ih =>
      obtain ⟨p, reply⟩ := o
      rw [canvassed_concat, latest_concat]
      cases reply with
      | none =>
          have hmax : max (latest os) 0 = latest os := Nat.max_eq_left (Nat.zero_le _)
          have hsame : supporters votes (os ++ [⟨p, none⟩]) = supporters votes os :=
            supporters_concat_of_none rfl
          change n.Polled _ (max (latest os) 0) (n.canvassed os)
          rw [hmax, hsame]
          exact ih
      | some r =>
          refine ih.reply (n.canvassed_clusterSize os) (supporters_subset votes os _) ?_ ?_
          · intro hrefused
            exact supporters_concat_of_none (by simp [Outcome.supporter?, hrefused])
          · intro hgranted
            exact supporters_concat_of_some (by simp [Outcome.supporter?, hgranted])

/-- Nodes of the same kind of role, term, vote, log and commit index, with the same voters if they
are candidates. -/
structure SameCanvass (m m' : Node α) : Prop where
  kind : m.role.kind = m'.role.kind
  term : m.term = m'.term
  votedFor : m.votedFor = m'.votedFor
  log : m.log = m'.log
  commitIndex : m.commitIndex = m'.commitIndex
  voters : m.role.voters? = m'.role.voters?

theorem Polled.same {n m m' : Node α} {S : Finset PeerId} {T : Term} (h : n.Polled S T m)
    (h' : n.Polled S T m') (hlog : m.log = m'.log) (hcommit : m.commitIndex = m'.commitIndex) :
    m.SameCanvass m' := by
  have hno {k : RoleKind} {r : Role} (hk : r.kind = k) (hne : k ≠ .candidate) :
      r.voters? = none := by
    unfold Role.voters?
    rw [Role.tally?_of_ne (hk ▸ hne)]
    rfl
  cases h with
  | deposed hlater hkind hterm hvote =>
      cases h' with
      | deposed _ hkind' hterm' hvote' =>
          exact ⟨hkind.trans hkind'.symm, hterm.trans hterm'.symm, hvote.trans hvote'.symm, hlog,
            hcommit, (hno hkind (by decide)).trans (hno hkind' (by decide)).symm⟩
      | elected hle => exact absurd hlater (Nat.not_lt_of_le hle)
      | undecided hle => exact absurd hlater (Nat.not_lt_of_le hle)
  | elected hle hmajority hkind hterm hvote =>
      cases h' with
      | deposed hlater => exact absurd hlater (Nat.not_lt_of_le hle)
      | elected _ _ hkind' hterm' hvote' =>
          exact ⟨hkind.trans hkind'.symm, hterm.trans hterm'.symm, hvote.trans hvote'.symm, hlog,
            hcommit, (hno hkind (by decide)).trans (hno hkind' (by decide)).symm⟩
      | undecided _ hshort => exact absurd hmajority hshort
  | undecided hle hshort votes hrole hvoters hterm hvote hgen =>
      cases h' with
      | deposed hlater => exact absurd hlater (Nat.not_lt_of_le hle)
      | elected _ hmajority => exact absurd hmajority hshort
      | undecided _ _ votes' hrole' hvoters' hterm' hvote' =>
          refine ⟨?_, hterm.trans hterm'.symm, hvote.trans hvote'.symm, hlog, hcommit, ?_⟩
          · rw [hrole, hrole']
            rfl
          · rw [hrole, hrole']
            exact congrArg some (hvoters.trans hvoters'.symm)

theorem Short.afterAll {n : Node α} (h : n.Short) (es : List (Event α)) :
    (n.afterAll es).Short := by
  induction es generalizing n with
  | nil => exact h
  | cons e es ih => exact ih (h.after e)

theorem fresh_short (id : PeerId) (size : Nat) : (fresh id size : Node α).Short := by
  intro votes hrole
  cases hrole

end Node

/-- It does not matter in which order a candidate hears how its calls for votes have come out. If a
reply is of a later term, it becomes a follower in the latest one, with its vote free. Otherwise it
leads its term if those who have voted for it before and now are a majority, and goes on to stand
for election with these votes if they are not. -/
theorem votes_commute {id : PeerId} {size : Nat} {es : List (Event α)} {n : Node α}
    (hn : n = (Node.fresh id size).afterAll es) {votes : Tally}
    (hrole : n.role = .candidate votes) {os os' : List Outcome} (hperm : os.Perm os') :
    (n.canvassed os).SameCanvass (n.canvassed os') ∧
      n.Polled (supporters votes os) (latest os) (n.canvassed os) ∧
      (n.canvassed os).log = n.log ∧ (n.canvassed os).commitIndex = n.commitIndex := by
  have hshort : n.Short := hn ▸ (Node.fresh_short id size).afterAll es
  have hpolled := Node.canvassed_polled hrole hshort os
  have hpolled' := Node.canvassed_polled hrole hshort os'
  rw [← latest_perm hperm, ← supporters_perm votes hperm] at hpolled'
  have hlog : (n.canvassed os).log = (n.canvassed os').log := by
    rw [n.canvassed_log, n.canvassed_log]
  have hcommit : (n.canvassed os).commitIndex = (n.canvassed os').commitIndex := by
    rw [n.canvassed_commitIndex, n.canvassed_commitIndex]
  exact ⟨hpolled.same hpolled' hlog hcommit, hpolled, n.canvassed_log os,
    n.canvassed_commitIndex os⟩

/-- One of five peers votes twice, another one cannot be reached at first, two more tell of later
terms, one of them with a vote. -/
def mixedOutcomes : List Outcome :=
  [⟨1, some ⟨1, true⟩⟩, ⟨1, some ⟨0, true⟩⟩, ⟨2, none⟩, ⟨2, some ⟨1, true⟩⟩, ⟨3, some ⟨3, true⟩⟩,
    ⟨4, some ⟨5, false⟩⟩]

/-- In one order the candidate is elected before it is deposed, in the other it never is. -/
theorem votes_commute_mixedOutcomes :
    let n : Node Nat := (Node.fresh 0 5).afterAll [.start, .electionTimeout]
    n.role = .candidate (.single 0) ∧ (n.canvassed (mixedOutcomes.take 4)).isLeader ∧
      (n.canvassed mixedOutcomes).role.kind = .follower ∧ (n.canvassed mixedOutcomes).term = 5 ∧
      (n.canvassed mixedOutcomes).SameCanvass (n.canvassed mixedOutcomes.reverse) := by
  have hn : (Node.fresh 0 5 : Node Nat).afterAll [.start, .electionTimeout] =
      (Node.fresh 0 5).afterAll [.start, .electionTimeout] := rfl
  have hrole : ((Node.fresh 0 5 : Node Nat).afterAll [.start, .electionTimeout]).role =
      .candidate (.single 0) := rfl
  exact ⟨rfl, rfl, rfl, rfl, (votes_commute hn hrole mixedOutcomes.reverse_perm.symm).1⟩

end Quorum
