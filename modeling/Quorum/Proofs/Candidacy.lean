import Mathlib.Logic.Function.Iterate
import Quorum.Proofs.Run

/-!
Elections that reach nobody. Where one vote is no majority, a node that does not lead can stand any
number of times while all its requests are lost. Its term then comes to its last value in the end,
and its generation to any value it has had before.
-/

namespace Quorum

variable {α : Type}

theorem Term.next_min (t : Term) (r : Nat) :
    Term.next (min (t + r) Term.last) = min (t + (r + 1)) Term.last := by
  unfold Term.next
  split <;> lia

/-- A node that has stood for election once more and has no vote but its own. -/
def Node.stood (n : Node α) : Node α :=
  { n with
    term := n.term.next, votedFor := some n.id, role := .candidate (.single n.id),
    generation := n.generation.next }

namespace Node

variable {n : Node α}

theorem handle_electionTimeout (hleader : ¬ n.isLeader)
    (halone : ¬ (Tally.single n.id).IsMajority n.clusterSize) :
    (n.handle .electionTimeout).2.node = n.stood ∧
      (n.handle .electionTimeout).2.applied = [] := by
  have hturn : (n.handle .electionTimeout).2 = n.standForElection :=
    electionTimeout_of_not_leader hleader
  rw [hturn]
  constructor
  · unfold standForElection
    simp only [halone, if_false]
    rfl
  · exact n.standForElection_withholds.applied

theorem after_electionTimeout (hleader : ¬ n.isLeader)
    (halone : ¬ (Tally.single n.id).IsMajority n.clusterSize) :
    n.after .electionTimeout = n.stood :=
  (handle_electionTimeout hleader halone).1

/-- Where standing for election again and again leads to. -/
theorem stood_iterate (hterm : n.term ≤ Term.last) (r : Nat) :
    stood^[r + 1] n =
      { n with
        term := min (n.term + (r + 1)) Term.last, votedFor := some n.id,
        role := .candidate (.single n.id),
        generation := (n.generation + (r + 1)) % 0x10000000000000000 } := by
  induction r with
  | zero =>
      have hnext : n.term.next = min (n.term + 1) Term.last := by
        have hsame : min (n.term + 0) Term.last = n.term := Nat.min_eq_left hterm
        rw [← Term.next_min, hsame]
      simp [stood, hnext, Generation.next]
  | succ r ih =>
      rw [Function.iterate_succ_apply', ih]
      simp only [stood, Generation.next, Term.next_min, Nat.mod_add_mod]
      rfl

end Node

/-- The cluster with another node at a place. -/
def Cluster.seat (c : Cluster α) (i : PeerId) (n : Node α) : Cluster α :=
  { c with nodes := c.nodes.set i n }

namespace Run

variable {rule : Rule α} {size : Nat} {c : Cluster α} {past : List (Cluster α)} {i : PeerId}
  {n : Node α}

/-- The packets that have been queued last can all be lost. -/
theorem lose_last (h : Run rule size c past) {ps qs : List (Packet α)}
    (hpackets : c.packets = ps ++ qs) :
    ∃ before, Run rule size { c with packets := ps } before ∧
      c :: past <:+ { c with packets := ps } :: before := by
  induction qs generalizing c past with
  | nil =>
      have hsame : { c with packets := ps } = c := by
        rw [List.append_nil] at hpackets
        rw [← hpackets]
      rw [hsame]
      exact ⟨past, h, List.suffix_rfl⟩
  | cons q qs ih =>
      have hlose : c.Obeys rule (.lose ps.length) := by
        intro x hx
        cases hx
      have hless : (c.play (.lose ps.length)).packets = ps ++ qs := by
        change c.packets.eraseIdx ps.length = ps ++ qs
        rw [hpackets, List.eraseIdx_append_of_length_le (Nat.le_refl _), Nat.sub_self]
        rfl
      obtain ⟨before, hrun, hsuffix⟩ := ih (.move _ h hlose) hless
      exact ⟨before, hrun, (List.suffix_cons _ _).trans hsuffix⟩

/-- A node that does not lead can stand for election without anybody's notice. -/
theorem stand (h : Run rule size c past) (hn : c.nodes[i]? = some n) (hleader : ¬ n.isLeader)
    (halone : ¬ (Tally.single n.id).IsMajority n.clusterSize)
    (hobey : rule c n .electionTimeout) :
    ∃ before, Run rule size (c.seat i n.stood) before ∧
      c :: past <:+ c.seat i n.stood :: before := by
  obtain ⟨hnode, happlied⟩ := Node.handle_electionTimeout hleader halone
  have hmove : c.Obeys rule (.electionTimeout i) := by
    intro x hx m hm
    obtain rfl := Option.some.inj hx
    obtain rfl := Option.some.inj (hn.symm.trans hm)
    exact hobey
  have hplay : c.play (.electionTimeout i) = c.settle i (n.handle .electionTimeout).2 := by
    change (c.handle i .electionTimeout).2 = _
    rw [Cluster.handle_of_some hn]
  have hstay : (c.settle i (n.handle .electionTimeout).2).applied = c.applied := by
    change c.applied.modify i (· ++ (n.handle .electionTimeout).2.applied) = c.applied
    rw [happlied]
    simp only [List.append_nil]
    exact List.modify_id i c.applied
  have hpackets : (c.play (.electionTimeout i)).packets =
      c.packets ++ (n.handle .electionTimeout).2.actions.filterMap (Action.packet? i) := by
    rw [hplay]
    rfl
  obtain ⟨before, hrun, hsuffix⟩ := (Run.move _ h hmove).lose_last hpackets
  have hseat : { c.play (.electionTimeout i) with packets := c.packets } = c.seat i n.stood := by
    simp only [hplay, hstay, ← hnode]
    rfl
  rw [hseat] at hrun hsuffix
  exact ⟨before, hrun, (List.suffix_cons _ _).trans hsuffix⟩

/-- It can do so any number of times. -/
theorem stand_often (h : Run rule size c past) (hn : c.nodes[i]? = some n)
    (hleader : ¬ n.isLeader) (halone : ¬ (Tally.single n.id).IsMajority n.clusterSize)
    (hrule : ∀ c n, ¬ (n.after .electionTimeout).isLeader → rule c n .electionTimeout) (r : Nat) :
    ∃ before, Run rule size (c.seat i (Node.stood^[r] n)) before ∧
      c :: past <:+ c.seat i (Node.stood^[r] n) :: before := by
  induction r generalizing c past n with
  | zero =>
      have hsame : c.seat i n = c := by
        obtain ⟨hi, rfl⟩ := List.getElem?_eq_some_iff.mp hn
        unfold Cluster.seat
        rw [List.set_getElem_self]
      rw [Function.iterate_zero_apply, hsame]
      exact ⟨past, h, List.suffix_rfl⟩
  | succ r ih =>
      have hobey : rule c n .electionTimeout := by
        apply hrule
        rw [Node.after_electionTimeout hleader halone]
        exact Bool.false_ne_true
      obtain ⟨middle, hrun, hfirst⟩ := h.stand hn hleader halone hobey
      have hi := (List.getElem?_eq_some_iff.mp hn).1
      have hseat : (c.seat i n.stood).nodes[i]? = some n.stood := List.getElem?_set_self hi
      obtain ⟨before, hlast, hrest⟩ := ih hrun hseat Bool.false_ne_true halone
      have htwice : (c.seat i n.stood).seat i (Node.stood^[r] n.stood) =
          c.seat i (Node.stood^[r + 1] n) := by
        unfold Cluster.seat
        rw [List.set_set, Function.iterate_succ_apply]
      rw [htwice] at hlast hrest
      exact ⟨before, hlast, hfirst.trans hrest⟩

end Run

end Quorum
