import Quorum.Proofs.StateMachine

/-!
Succession. Whoever leads a later term than the one in which a node has committed an entry holds
that entry. This again takes a prudent run, and each of the conditions that make a run prudent.
-/

namespace Quorum

variable {α : Type}

/-- Leader completeness: what a node has committed at some moment of a run is held by whoever
leads a term later than the node's own of that moment. -/
theorem leader_holds_committed {size : Nat} {c : Cluster α} {past : List (Cluster α)}
    (h : Run prudent size c past) {d : Cluster α} (hd : d ∈ c :: past) {p j : PeerId}
    {m n : Node α} (hm : d.nodes[p]? = some m) {k : Nat} (hcommit : (k : Int) ≤ m.commitIndex)
    {e : Entry α} (he : m.log[k]? = some e) (hn : c.nodes[j]? = some n) (hleader : n.isLeader)
    (hterm : m.term < n.term) : n.log[k]? = some e := by
  obtain ⟨before, hrun, hsuffix⟩ := h.of_mem hd
  have hsealed : Sealed size (c :: past) m.term (m.log.through m.commitIndex) :=
    (hrun.replicating.secure p m hm).committed.mono hsuffix.subset (Nat.le_refl _)
  have hled : Led (c :: past) n.term j n.log :=
    ⟨c, List.mem_cons_self, n, hn, hleader, rfl, rfl⟩
  have hprefix := hsealed.prefix_of_led h prudent_undisputed prudent_vets hled hterm
  apply Log.getElem?_of_isPrefix hprefix
  unfold Log.through
  rw [List.getElem?_take_of_lt (by lia)]
  exact he

/-- After `10` and `11` have been committed, the second member, which has copied both, is elected
by the third one. -/
def secondElection : List (Move Nat) :=
  copiedCommands ++ [.electionTimeout 1, .deliver 12, .deliver 13]

theorem leader_holds_committed_secondElection :
    ∃ m n : Node Nat, ((Cluster.fresh 3).course [] copiedCommands).1.nodes[0]? = some m ∧
      (1 : Int) ≤ m.commitIndex ∧ m.log[1]? = some ⟨1, 11⟩ ∧
      ((Cluster.fresh 3).course [] secondElection).1.nodes[1]? = some n ∧ n.isLeader ∧
      m.term < n.term ∧ n.log[1]? = some ⟨1, 11⟩ := by
  have hrun : Run prudent 3 ((Cluster.fresh 3).course [] secondElection).1
      ((Cluster.fresh 3).course [] secondElection).2 := .course .start (by decide)
  have hpast : ((Cluster.fresh 3).course [] copiedCommands).1 ∈
      ((Cluster.fresh 3).course [] secondElection).1 ::
        ((Cluster.fresh 3).course [] secondElection).2 := by decide
  refine ⟨_, _, rfl, by decide, rfl, rfl, rfl, by decide, ?_⟩
  exact leader_holds_committed hrun hpast (p := 0) (j := 1) rfl (k := 1) (by decide) rfl rfl rfl
    (by decide)

/-- A node has just come to lead, in a later term than the one in which a node had committed an
entry, and does not hold that entry. -/
def Cluster.Forgets (c : Cluster α) (past : List (Cluster α)) : Prop :=
  ∃ b ∈ past.head?, ∃ d ∈ past, ∃ (p j : PeerId) (m before n : Node α) (k : Nat) (e : Entry α),
    d.nodes[p]? = some m ∧ (k : Int) ≤ m.commitIndex ∧ m.log[k]? = some e ∧
      b.nodes[j]? = some before ∧ ¬ before.isLeader ∧ c.nodes[j]? = some n ∧ n.isLeader ∧
        m.term < n.term ∧ n.log[k]? ≠ some e

/-- Votes have to be vetted: the third member is elected with an empty log. -/
theorem forgets_unvetted : ∃ c past,
    Run (inRange.both (undisputed.both (unmoved.both ownCommits))) 3 c past ∧
      (c : Cluster Nat).Forgets past := by
  refine ⟨((Cluster.fresh 3).course [] (freeVote.take 10)).1, _, .course .start (by decide), ?_⟩
  exact ⟨_, rfl, _, List.mem_cons_self, 0, 2, _, _, _, 0, ⟨1, 10⟩, rfl, by decide, rfl, rfl,
    by decide, rfl, rfl, by decide, by decide⟩

/-- Nothing may be written to a log that is disputed: the first member is elected with `30` in the
place of `20`. -/
theorem forgets_disputed : ∃ c past,
    Run (inRange.both (vetted.both (unmoved.both ownCommits))) 3 c past ∧
      (c : Cluster Nat).Forgets past := by
  refine ⟨((Cluster.fresh 3).course [] (earlyWrite.take 20)).1, _, .course .start (by decide), ?_⟩
  exact ⟨_, rfl, _, List.mem_cons_of_mem _ List.mem_cons_self, 1, 0, _, _, _, 0, ⟨2, 20⟩, rfl,
    by decide, rfl, rfl, by decide, rfl, rfl, by decide, by decide⟩

/-- Nothing may be committed on a call that is disputed: the second member is elected with `20` in
the place of what the first one has committed. -/
theorem forgets_moved : ∃ c past,
    Run (inRange.both (vetted.both (undisputed.both ownCommits))) 3 c past ∧
      (c : Cluster Nat).Forgets past := by
  refine ⟨((Cluster.fresh 3).course []
    (hastyCommit ++ [.electionTimeout 1, .deliver 27, .deliver 28])).1, _,
    .course .start (by decide), ?_⟩
  exact ⟨_, rfl, _, List.mem_cons_self, 0, 1, _, _, _, 0, ⟨1, 10⟩, rfl, by decide, rfl, rfl,
    by decide, rfl, rfl, by decide, by decide⟩

/-- Leaders may not commit through an entry of an earlier term: the second member is elected with
`20` in the place of `10`. -/
theorem forgets_swept : ∃ c past,
    Run (inRange.both (vetted.both (undisputed.both unmoved))) 4 c past ∧
      (c : Cluster Nat).Forgets past := by
  refine ⟨((Cluster.fresh 4).course [] (sweptCommit.take 34)).1, _, .course .start (by decide), ?_⟩
  exact ⟨_, rfl, _, List.mem_cons_self, 0, 1, _, _, _, 0, ⟨1, 10⟩, rfl, by decide, rfl, rfl,
    by decide, rfl, rfl, by decide, by decide⟩

/-- The first member stands for election and is given a vote that does not get through. The second
one is elected for the next term and commits `20` with the third one. -/
def strayVote : List (Move Nat) :=
  [.electionTimeout 0, .deliver 0, .electionTimeout 1, .deliver 4, .deliver 5, .submit 1 20,
    .deliver 9, .deliver 10]

/-- Generations may not start over: once the first member is back in the one it was given its vote
in, that vote elects it for the last term. -/
theorem forgets_wrapped : ∃ c past,
    Run (vetted.both (undisputed.both (unmoved.both ownCommits))) 3 c past ∧
      (c : Cluster Nat).Forgets past := by
  have hrun : Run (vetted.both (undisputed.both (unmoved.both ownCommits))) 3
      ((Cluster.fresh 3).course [] strayVote).1 ((Cluster.fresh 3).course [] strayVote).2 :=
    .course .start (by decide)
  obtain ⟨before, hwrapped, -⟩ := hrun.stand_often (i := 0) rfl (by decide) (by decide)
    (fun _ _ h => ⟨trivial, trivial, trivial, fun hleader => absurd hleader h⟩) (Term.last + 1)
  rw [Node.stood_iterate (by decide)] at hwrapped
  refine ⟨_, _, hwrapped.course (show Cluster.AllObey _ _ [.deliver 2] by decide), ?_⟩
  exact ⟨_, rfl, _, List.mem_cons_self, 1, 0, _, _, _, 0, ⟨2, 20⟩, rfl, by decide, rfl, rfl,
    by decide, rfl, rfl, by decide, by decide⟩

/-- In other runs whoever comes to lead need not hold what has been committed. -/
theorem leader_lacks_committed : ¬ ∀ (size : Nat) (b c d : Cluster Nat) (past : List (Cluster Nat)),
    Run (fun _ _ _ => True) size c (b :: past) → d ∈ b :: past →
      ∀ (p j : PeerId) (m before n : Node Nat) (k : Nat) (e : Entry Nat),
        d.nodes[p]? = some m → (k : Int) ≤ m.commitIndex → m.log[k]? = some e →
          b.nodes[j]? = some before → ¬ before.isLeader → c.nodes[j]? = some n → n.isLeader →
            m.term < n.term → n.log[k]? = some e := by
  intro hholds
  obtain ⟨c, past, hrun, b, hb, d, hd, p, j, m, before, n, k, e, hm, hcommit, he, hbefore, hnot,
    hn, hleader, hterm, hlacks⟩ := forgets_unvetted
  obtain ⟨past, rfl⟩ := List.head?_eq_some_iff.mp hb
  have hany : Run (fun _ _ _ => True) 3 c (b :: past) := hrun.mono fun _ _ _ _ => trivial
  exact hlacks (hholds 3 b c d past hany hd p j m before n k e hm hcommit he hbefore hnot hn
    hleader hterm)

end Quorum
