import Quorum.Proofs.Succession

/-!
Permanence. What a node has committed it never loses again: no event removes an entry up to the
commit index from the node's own log or puts another one in its place. No check in the code is for
this; it again takes a prudent run, and each of the conditions that make a run prudent.
-/

namespace Quorum

variable {α : Type}

theorem Log.through_through (F : Log α) {j k : LogIndex} (hjk : j ≤ k) :
    (F.through k).through j = F.through j := by
  unfold Log.through
  rw [List.take_take, Nat.min_eq_left (by lia)]

theorem Log.getElem?_through (F : Log α) {k : Nat} {j : LogIndex} (hk : (k : Int) ≤ j) :
    (F.through j)[k]? = F[k]? := by
  unfold Log.through
  exact List.getElem?_take_of_lt (by lia)

/-- An event keeps what any earlier commit index of the node covers. -/
theorem Cluster.Replicating.keeps_through {size : Nat} {c c' : Cluster α} {past : List (Cluster α)}
    (h : c.Replicating size (c :: past)) (hrun : Run prudent size c past) {i : PeerId} {n : Node α}
    {e : Event α} (hact : c.Acts i n e c') (hobey : prudent c n e) {j : LogIndex}
    (hj : j ≤ n.commitIndex) : (n.after e).log.through j = n.log.through j := by
  have hkept := congrArg (Log.through · j) (h.through_after hrun hact hobey)
  simp only [Log.through_through _ hj] at hkept
  exact hkept

/-- What a node had committed at any moment of a run stands in its log ever since. -/
theorem Run.through_kept {size : Nat} {c : Cluster α} {past : List (Cluster α)}
    (h : Run prudent size c past) :
    ∀ d ∈ c :: past, ∀ (i : PeerId) (m n : Node α), d.nodes[i]? = some m → c.nodes[i]? = some n →
      m.commitIndex ≤ n.commitIndex ∧
        n.log.through m.commitIndex = m.log.through m.commitIndex := by
  refine h.invariant (P := fun c past =>
    ∀ d ∈ c :: past, ∀ (i : PeerId) (m n : Node α), d.nodes[i]? = some m → c.nodes[i]? = some n →
      m.commitIndex ≤ n.commitIndex ∧
        n.log.through m.commitIndex = m.log.through m.commitIndex) ?_ ?_ ?_
  · intro d hd i m n hm hn
    obtain rfl := List.mem_singleton.mp hd
    obtain rfl := Option.some.inj (hm.symm.trans hn)
    exact ⟨Int.le_refl _, rfl⟩
  · intro c past c' _ ih hrest d hd i m n hm hn
    rw [hrest.nodes] at hn
    rcases List.mem_cons.mp hd with rfl | hd
    · rw [hrest.nodes] at hm
      exact ih c List.mem_cons_self i m n hm hn
    · exact ih d hd i m n hm hn
  · intro c past i n e c' hrun ih hact hobey d hd j m k hm hk
    rcases List.mem_cons.mp hd with rfl | hd
    · obtain rfl := Option.some.inj (hm.symm.trans hk)
      exact ⟨Int.le_refl _, rfl⟩
    rcases hact.node_cases hk with ⟨rfl, rfl⟩ | ⟨-, hold⟩
    · -- What is kept up to the present commit index is kept up to every earlier one.
      obtain ⟨hle, hkept⟩ := ih d hd j m n hm hact.node
      have hrise : n.commitIndex ≤ (n.after e).commitIndex :=
        ((hrun.settled j n hact.node).handle e).start_le
      refine ⟨Int.le_trans hle hrise, ?_⟩
      rw [hrun.replicating.keeps_through hrun hact hobey hle]
      exact hkept
    · exact ih d hd j m k hm hold

/-- The committed prefix is permanent: the commit index lies within the log, and every entry that a
node had at or below its commit index, at any moment of the run, is where it was. -/
theorem committed_stays {size : Nat} {c : Cluster α} {past : List (Cluster α)}
    (h : Run prudent size c past) {i : PeerId} {n : Node α} (hn : c.nodes[i]? = some n) :
    n.commitIndex ≤ n.log.lastIndex ∧
      ∀ d ∈ past, ∀ m, d.nodes[i]? = some m → ∀ k : Nat, (k : Int) ≤ m.commitIndex →
        ∃ e, m.log[k]? = some e ∧ n.log[k]? = some e := by
  constructor
  · have hwithin := (h.replicating.secure i n hn).within
    unfold Log.lastIndex LogIndex.lastOf
    lia
  · intro d hd m hm k hk
    obtain ⟨before, hrun, -⟩ := h.of_mem (List.mem_cons_of_mem c hd)
    have hwithin := (hrun.replicating.secure i m hm).within
    have hlt : k < m.log.length := by lia
    have hheld : m.log[k]? = some m.log[k] := List.getElem?_eq_getElem hlt
    obtain ⟨-, hkept⟩ := h.through_kept d (List.mem_cons_of_mem c hd) i m n hm hn
    refine ⟨_, hheld, ?_⟩
    rw [← Log.getElem?_through n.log hk, hkept, Log.getElem?_through m.log hk]
    exact hheld

/-- After `10` and `11` have been committed and the second member has been elected, it stores `20`
and has the first one copy it. -/
def keptCommands : List (Move Nat) :=
  secondElection ++ [.submit 1 20, .heartbeatTimeout 1, .deliver 16]

theorem committed_stays_keptCommands :
    ∃ m n : Node Nat, ((Cluster.fresh 3).course [] copiedCommands).1.nodes[0]? = some m ∧
      m.commitIndex = 1 ∧ ((Cluster.fresh 3).course [] keptCommands).1.nodes[0]? = some n ∧
      n.log = [⟨1, 10⟩, ⟨1, 11⟩, ⟨2, 20⟩] ∧ n.commitIndex ≤ n.log.lastIndex ∧
      ∀ k : Nat, (k : Int) ≤ 1 → ∃ e, m.log[k]? = some e ∧ n.log[k]? = some e := by
  have hrun : Run prudent 3 ((Cluster.fresh 3).course [] keptCommands).1
      ((Cluster.fresh 3).course [] keptCommands).2 := .course .start (by decide)
  have hpast : ((Cluster.fresh 3).course [] copiedCommands).1 ∈
      ((Cluster.fresh 3).course [] keptCommands).2 := by decide
  obtain ⟨hwithin, hstays⟩ := committed_stays hrun (i := 0) rfl
  exact ⟨_, _, rfl, rfl, rfl, rfl, hwithin, hstays _ hpast _ rfl⟩

/-- The last event has taken a committed entry from a node, or put another one in its place. -/
def Cluster.Rewrites (c : Cluster α) (past : List (Cluster α)) : Prop :=
  ∃ b ∈ past.head?, ∃ (i : PeerId) (m n : Node α) (k : Nat) (e : Entry α),
    b.nodes[i]? = some m ∧ c.nodes[i]? = some n ∧ (k : Int) ≤ m.commitIndex ∧
      m.log[k]? = some e ∧ n.log[k]? ≠ some e

/-- Votes have to be vetted: the third member, elected with an empty log, has the first one write
`20` over `10`. -/
theorem rewrites_unvetted : ∃ c past,
    Run (inRange.both (undisputed.both (unmoved.both ownCommits))) 3 c past ∧
      (c : Cluster Nat).Rewrites past := by
  refine ⟨((Cluster.fresh 3).course [] (freeVote ++ [.deliver 15])).1, _,
    .course .start (by decide), ?_⟩
  exact ⟨_, rfl, 0, _, _, 0, ⟨1, 10⟩, rfl, rfl, by decide, rfl, by decide⟩

/-- Nothing may be written to a log that is disputed: the second member has committed `20`, and the
call of the first one writes `40` in its place. -/
theorem rewrites_disputed : ∃ c past,
    Run (inRange.both (vetted.both (unmoved.both ownCommits))) 3 c past ∧
      (c : Cluster Nat).Rewrites past := by
  refine ⟨((Cluster.fresh 3).course [] (earlyWrite.take 23)).1, _, .course .start (by decide), ?_⟩
  exact ⟨_, rfl, 1, _, _, 0, ⟨2, 20⟩, rfl, rfl, by decide, rfl, by decide⟩

/-- Nothing may be committed on a call that is disputed: the third member goes back to the first
entry and has the first one write `20` over the `10` that it takes to be committed. -/
theorem rewrites_moved : ∃ c past,
    Run (inRange.both (vetted.both (undisputed.both ownCommits))) 3 c past ∧
      (c : Cluster Nat).Rewrites past := by
  refine ⟨((Cluster.fresh 3).course [] (hastyCommit ++ [.heartbeatTimeout 2, .deliver 26,
    .deliver 28, .deliver 28, .heartbeatTimeout 2, .deliver 29])).1, _,
    .course .start (by decide), ?_⟩
  exact ⟨_, rfl, 0, _, _, 0, ⟨1, 10⟩, rfl, rfl, by decide, rfl, by decide⟩

/-- Leaders may not commit through an entry of an earlier term: the first heartbeat of the second
member, which has `20` in its place, takes `10` from the first one. -/
theorem rewrites_swept : ∃ c past,
    Run (inRange.both (vetted.both (undisputed.both unmoved))) 4 c past ∧
      (c : Cluster Nat).Rewrites past := by
  refine ⟨((Cluster.fresh 4).course [] (sweptCommit.take 34 ++ [.deliver 47])).1, _,
    .course .start (by decide), ?_⟩
  exact ⟨_, rfl, 0, _, _, 0, ⟨1, 10⟩, rfl, rfl, by decide, rfl, by decide⟩

/-- Generations may not start over: the first member, elected by the stray vote with an empty log,
has the second one write `30` over `20`. -/
theorem rewrites_wrapped : ∃ c past,
    Run (vetted.both (undisputed.both (unmoved.both ownCommits))) 3 c past ∧
      (c : Cluster Nat).Rewrites past := by
  have hrun : Run (vetted.both (undisputed.both (unmoved.both ownCommits))) 3
      ((Cluster.fresh 3).course [] strayVote).1 ((Cluster.fresh 3).course [] strayVote).2 :=
    .course .start (by decide)
  obtain ⟨before, hwrapped, -⟩ := hrun.stand_often (i := 0) rfl (by decide) (by decide)
    (fun _ _ h => ⟨trivial, trivial, trivial, fun hleader => absurd hleader h⟩) (Term.last + 1)
  rw [Node.stood_iterate (by decide)] at hwrapped
  refine ⟨_, _, hwrapped.course (show Cluster.AllObey _ _
    [.deliver 2, .submit 0 30, .deliver 13] by decide), ?_⟩
  exact ⟨_, rfl, 1, _, _, 0, ⟨2, 20⟩, rfl, rfl, by decide, rfl, by decide⟩

/-- In other runs committed entries may be lost. -/
theorem committed_rewritten : ¬ ∀ (size : Nat) (b c : Cluster Nat) (past : List (Cluster Nat)),
    Run (fun _ _ _ => True) size c (b :: past) → ∀ (i : PeerId) (m n : Node Nat),
      b.nodes[i]? = some m → c.nodes[i]? = some n → n.commitIndex ≤ n.log.lastIndex ∧
        ∀ (k : Nat) (e : Entry Nat), (k : Int) ≤ m.commitIndex → m.log[k]? = some e →
          n.log[k]? = some e := by
  intro hstays
  obtain ⟨c, past, hrun, b, hb, i, m, n, k, e, hm, hn, hcommit, he, hlost⟩ := rewrites_unvetted
  obtain ⟨past, rfl⟩ := List.head?_eq_some_iff.mp hb
  have hany : Run (fun _ _ _ => True) 3 c (b :: past) := hrun.mono fun _ _ _ _ => trivial
  exact hlost ((hstays 3 b c past hany i m n hm hn).2 k e hcommit he)

end Quorum
