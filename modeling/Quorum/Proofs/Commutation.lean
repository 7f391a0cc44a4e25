import Mathlib.Data.Finset.Card
import Quorum.Proofs.Bookkeeping
import Quorum.Proofs.Tallying

/-!
Two members accept calls of their leader, and word of it comes in either order. The cursors are the
same in the end, and so is the commit index in a cluster of more than three. Among three members the
first one to be heard of may decide the agreement that is open, and the other one is then counted
towards the next agreement, if it holds that entry as well.
-/

namespace Quorum

variable {α : Type}

theorem Tally.toFinset_add (t : Tally) (p : PeerId) :
    (t.add p).peers.toFinset = insert p t.peers.toFinset := by
  ext q
  rw [List.mem_toFinset, mem_add, Finset.mem_insert, List.mem_toFinset, or_comm]

/-- The entries on which agreement is sought, with those who support it. -/
def Leadership.support (l : Leadership) : List (LogIndex × Finset PeerId) :=
  l.agreements.map fun a => (a.index, a.acks.peers.toFinset)

namespace Leadership

variable {l m : Leadership} {i : LogIndex} {p q : PeerId} {cp cq context : AppendContext}
  {size : Nat}

theorem recorded_comm (hpq : p ≠ q) (l : Leadership) (cp cq : AppendContext) :
    ((l.recorded p cp).recorded q cq).cursors = ((l.recorded q cq).recorded p cp).cursors := by
  unfold recorded
  cases cp.lastSent with
  | none => rfl
  | some j =>
      cases cq.lastSent with
      | none => rfl
      | some k => exact List.modify_modify_ne _ _ _ hpq

theorem recorded_cursors_congr (h : m.cursors = l.cursors) (p : PeerId) (context : AppendContext) :
    (m.recorded p context).cursors = (l.recorded p context).cursors := by
  unfold recorded
  split
  · exact congrArg (List.modify · p _) h
  · exact h

theorem confirms_congr (h : m.cursors[p]? = l.cursors[p]?) :
    m.Confirms p context i ↔ l.Confirms p context i := by
  unfold Confirms
  rw [holds_congr (recorded_cursor_congr h context)]

theorem counted_agreements (l : Leadership) (i : LogIndex) (p : PeerId) (context : AppendContext) :
    (l.counted i p context).agreements = l.agreements.map fun a =>
      if l.Confirms p context i ∧ a.index = i then { a with acks := a.acks.add p } else a := by
  unfold counted
  by_cases hconfirms : l.Confirms p context i
  · simp only [hconfirms, if_true, true_and]
    unfold acknowledge
    rw [recorded_agreements]
  · simp only [hconfirms, if_false, false_and, List.map_id']
    exact l.recorded_agreements p context

/-- A count only adds to the agreements. -/
theorem Undecided.of_counted (h : (l.counted i p context).Undecided size) : l.Undecided size := by
  intro a ha hmajority
  unfold Undecided at h
  rw [counted_agreements] at h
  refine h _ (List.mem_map_of_mem ha) ?_
  split
  · exact hmajority.add p
  · exact hmajority

theorem support_counted (l : Leadership) (i : LogIndex) (p : PeerId) (context : AppendContext) :
    (l.counted i p context).support = l.support.map fun x =>
      if l.Confirms p context i ∧ x.1 = i then (x.1, insert p x.2) else x := by
  unfold support
  rw [counted_agreements, List.map_map, List.map_map]
  refine List.map_congr_left fun a _ => ?_
  by_cases hcounts : l.Confirms p context i ∧ a.index = i
  · simp [hcounts, Tally.toFinset_add]
  · simp [hcounts]

/-- It does not matter for the support who is counted first. -/
theorem support_counted_comm (hpq : p ≠ q) (l : Leadership) (i : LogIndex)
    (cp cq : AppendContext) :
    ((l.counted i p cp).counted i q cq).support = ((l.counted i q cq).counted i p cp).support := by
  have hq : (l.counted i p cp).Confirms q cq i ↔ l.Confirms q cq i :=
    confirms_congr (counted_cursor_other (Ne.symm hpq) l i cp)
  have hp : (l.counted i q cq).Confirms p cp i ↔ l.Confirms p cp i :=
    confirms_congr (counted_cursor_other hpq l i cq)
  simp only [support_counted, hp, hq, List.map_map]
  refine List.map_congr_left fun x _ => ?_
  by_cases hindex : x.1 = i
  · by_cases hconfp : l.Confirms p cp i
    · by_cases hconfq : l.Confirms q cq i
      · simp [hindex, hconfp, hconfq, Finset.insert_comm q p]
      · simp [hindex, hconfp, hconfq]
    · simp [hindex, hconfp]
  · simp [hindex]

theorem undecided_iff : l.Undecided size ↔ ∀ x ∈ l.support, ¬ size < x.2.card * 2 := by
  unfold Undecided support Tally.IsMajority Tally.size
  rw [List.forall_mem_map]
  refine forall₂_congr fun a _ => ?_
  rw [List.toFinset_card_of_nodup a.acks.nodup]

/-- The more is recorded, the higher is what half of the members have reached. -/
theorem kthLargest_le_recorded {k : Nat} (hpos : 0 < k) {v w : LogIndex}
    (hv : LogIndex.kthLargest? k l.matchIndices = some v)
    (hw : LogIndex.kthLargest? k (l.recorded p context).matchIndices = some w) : v ≤ w := by
  obtain ⟨ps, hnodup, hlength, hps⟩ := l.exists_holders v
  have hcount : k ≤ ps.length := by
    rw [hlength]
    exact (LogIndex.le_kthLargest?_iff hpos hv).mp (Int.le_refl v)
  rw [LogIndex.le_kthLargest?_iff hpos hw]
  exact Nat.le_trans hcount (length_le_countP hnodup fun q hq => ((hps q).mp hq).recorded p context)

end Leadership

namespace Node

variable {n : Node α} {l : Leadership} {p q : PeerId} {cp cq context : AppendContext} {start : Nat}

/-- Where nobody but the leader has acknowledged what is sought, one more acknowledgement decides
it at most among three, and if it is confirmed. -/
theorem decided_of_alone (hl : n.role = .leader l) (hqueues : n.Queues start)
    (hsize : 2 ≤ n.clusterSize) (halone : n.idle.Alone)
    (h : ¬ (l.counted (n.commitIndex + 1) q context).Undecided n.clusterSize) :
    n.clusterSize ≤ 3 ∧ l.Confirms q context (n.commitIndex + 1) ∧
      n.commitIndex + 1 ≤ n.log.lastIndex := by
  unfold Leadership.Undecided at h
  simp only [Leadership.counted_agreements, List.forall_mem_map, not_forall, not_not] at h
  obtain ⟨a, ha, hmajority⟩ := h
  have hsingle : a.acks = .single n.id := halone l hl a ha
  split at hmajority
  · rename_i hcounts
    obtain ⟨hconfirms, hindex⟩ := hcounts
    refine ⟨?_, hconfirms, ?_⟩
    · have htwo : ((Tally.single n.id).add q).size ≤ 2 := by
        by_cases hq : q ∈ (Tally.single n.id).peers
        · rw [Tally.add_of_mem hq]
          exact Nat.le_succ 1
        · rw [Tally.size_add_of_not_mem hq]
          exact Nat.le_refl 2
      simp only [hsingle] at hmajority
      unfold Tally.IsMajority at hmajority
      omega
    · have hopened : a.index ∈ l.opened := List.mem_map_of_mem ha
      rw [← hindex]
      exact ((hqueues l hl).1.within _ (Or.inl hopened)).2
  · rw [hsingle] at hmajority
    have hone : (Tally.single n.id).size = 1 := rfl
    unfold Tally.IsMajority at hmajority
    omega

theorem le_reached (n : Node α) (l : Leadership) :
    n.commitIndex ≤ n.reached l ∧ n.reached l ≤ n.commitIndex + 1 := by
  unfold reached
  split <;> lia

/-- How far a leader has committed when two acceptances have been counted that leave it with `l`,
and half of the members are known to hold its log through `v`, unless another agreement begins in
between. -/
def covered (n : Node α) (l : Leadership) (v : LogIndex) : LogIndex :=
  max (n.reached l) (min v n.log.lastIndex)

theorem covered_congr (n : Node α) {k m : Leadership} (h : m.support = k.support) (v : LogIndex) :
    n.covered m v = n.covered k v := by
  have hsame : m.Undecided n.clusterSize ↔ k.Undecided n.clusterSize := by
    rw [Leadership.undecided_iff, Leadership.undecided_iff, h]
  unfold covered reached
  simp only [hsame]

/-- Half of a cluster of three does not go without both the leader and another member. -/
theorem holds_of_half (hsize : n.clusterSize ≤ 3) (hwidth : l.cursors.length = n.clusterSize)
    (hself : n.id < n.clusterSize) (hother : p < n.clusterSize) (hne : p ≠ n.id) {i : LogIndex}
    (hown : ¬ l.Holds n.id i) (hhalf : n.half ≤ l.matchIndices.countP (i ≤ ·)) : l.Holds p i := by
  refine Decidable.byContradiction fun hnot => ?_
  obtain ⟨ps, hnodup, hlength, hps⟩ := l.exists_holders i
  have hall : p :: n.id :: ps ⊆ List.range n.clusterSize := by
    intro r hr
    rw [List.mem_range]
    rcases List.mem_cons.mp hr with rfl | hr
    · exact hother
    rcases List.mem_cons.mp hr with rfl | hr
    · exact hself
    obtain ⟨m, hm, -⟩ := (hps r).mp hr
    obtain ⟨cursor, hcursor, -⟩ := Option.map_eq_some_iff.mp hm
    rw [← hwidth]
    exact (List.getElem?_eq_some_iff.mp hcursor).1
  have hdistinct : (p :: n.id :: ps).Nodup := by
    simp only [List.nodup_cons, List.mem_cons, not_or, hps]
    exact ⟨⟨hne, hnot⟩, hown, hnodup⟩
  have hle := (List.subperm_of_subset hdistinct hall).length_le
  rw [List.length_range, List.length_cons, List.length_cons, hlength] at hle
  unfold half at hhalf
  omega

/-- Where the first acceptance has raised the commit index, all that the second one adds for certain
is what half of the members are known to hold. -/
theorem covered_of_raised {i v w raised : LogIndex}
    (hcommit : raised = max (n.reached (l.counted i p cp)) (min w n.log.lastIndex))
    (hraised : n.commitIndex < raised) (hle : w ≤ v) :
    max raised (min v n.log.lastIndex) = n.covered ((l.counted i p cp).counted i q cq) v := by
  unfold covered
  by_cases h : (l.counted i p cp).Undecided n.clusterSize
  · have hfirst : n.reached (l.counted i p cp) = n.commitIndex := if_pos h
    have hsecond := n.le_reached ((l.counted i p cp).counted i q cq)
    lia
  · have hfirst : n.reached (l.counted i p cp) = n.commitIndex + 1 := if_neg h
    have hsecond : n.reached ((l.counted i p cp).counted i q cq) = n.commitIndex + 1 :=
      if_neg fun hundecided => h hundecided.of_counted
    lia

theorem accepted_lead (hl : n.role = .leader l) (p q : PeerId) (cp cq : AppendContext) :
    ∃ m, (appendAccepted (appendAccepted n.idle p cp).node.idle q cq).node.role = .leader m ∧
      m.cursors = ((l.recorded p cp).recorded q cq).cursors := by
  obtain ⟨l₁, hl₁, hcursors₁⟩ := appendAccepted_lead hl p cp
  obtain ⟨m, hm, hcursors⟩ := appendAccepted_lead hl₁ q cq
  exact ⟨m, hm, hcursors.trans (Leadership.recorded_cursors_congr hcursors₁ q cq)⟩

/-- A leader hears from two others that they accept calls of it. -/
structure Acceptances (n : Node α) (l : Leadership) (start : Nat) (p q : PeerId)
    (cp cq : AppendContext) : Prop where
  lead : n.role = .leader l
  queues : n.Queues start
  width : l.cursors.length = n.clusterSize
  self : n.id < n.clusterSize
  unmatched : ¬ l.Holds n.id (n.commitIndex + 1)
  distinct : p ≠ q
  first : p < n.clusterSize ∧ p ≠ n.id
  second : q < n.clusterSize ∧ q ≠ n.id
  firstNear : ∀ i, cp.round.Seeks i → i ≤ n.commitIndex + 1
  secondNear : ∀ i, cq.round.Seeks i → i ≤ n.commitIndex + 1

/-- Among three, both confirm the entry after the commit index, and one of them is known to hold a
later entry of the log that the other one is not known to hold. -/
def Contested (n : Node α) (l : Leadership) (p : PeerId) (cp : AppendContext) (q : PeerId)
    (cq : AppendContext) : Prop :=
  n.clusterSize = 3 ∧ l.Confirms p cp (n.commitIndex + 1) ∧ l.Confirms q cq (n.commitIndex + 1) ∧
    ∃ i, n.commitIndex + 1 < i ∧ i ≤ n.log.lastIndex ∧
      ¬ (((l.recorded p cp).recorded q cq).Holds p i ↔ ((l.recorded p cp).recorded q cq).Holds q i)

theorem Contested.symm (hpq : p ≠ q) (h : n.Contested l p cp q cq) : n.Contested l q cq p cp := by
  obtain ⟨hthree, hp, hq, i, hnext, hlast, hdiffer⟩ := h
  have hcursors := Leadership.recorded_comm hpq l cp cq
  refine ⟨hthree, hq, hp, i, hnext, hlast, fun hsame => hdiffer ?_⟩
  rw [Leadership.holds_congr (congrArg (·[p]?) hcursors),
    Leadership.holds_congr (congrArg (·[q]?) hcursors)]
  exact hsame.symm

namespace Acceptances

theorem symm (h : n.Acceptances l start p q cp cq) : n.Acceptances l start q p cq cp :=
  ⟨h.lead, h.queues, h.width, h.self, h.unmatched, h.distinct.symm, h.second, h.first,
    h.secondNear, h.firstNear⟩

theorem three_le (h : n.Acceptances l start p q cp cq) : 3 ≤ n.clusterSize := by
  obtain ⟨hp, hp'⟩ := h.first
  obtain ⟨hq, hq'⟩ := h.second
  have hself := h.self
  have hpq := h.distinct
  lia

theorem exists_first (h : n.Acceptances l start p q cp cq) : ∃ w,
    LogIndex.kthLargest? n.half (l.recorded p cp).matchIndices = some w := by
  have hsize := h.three_le
  exact Leadership.exists_half ((l.recorded_width p cp).trans h.width) (by omega)

theorem exists_half (h : n.Acceptances l start p q cp cq) : ∃ v,
    LogIndex.kthLargest? n.half ((l.recorded p cp).recorded q cq).matchIndices = some v := by
  have hsize := h.three_le
  have hwidth : ((l.recorded p cp).recorded q cq).cursors.length = n.clusterSize := by
    rw [Leadership.recorded_width, Leadership.recorded_width, h.width]
  exact Leadership.exists_half hwidth (by omega)

theorem rises (h : n.Acceptances l start p q cp cq) :
    n.commitIndex ≤ (appendAccepted n.idle p cp).node.commitIndex := by
  obtain ⟨w, hw⟩ := h.exists_first
  obtain ⟨hcommit, -⟩ := appendAccepted_effect (p := p) h.lead h.queues
    (Nat.le_of_succ_le h.three_le) h.firstNear hw
  have hreached := n.le_reached (l.counted (n.commitIndex + 1) p cp)
  lia

/-- What the second acceptance comes to after the first one. -/
theorem second_effect (h : n.Acceptances l start p q cp cq) {v : LogIndex}
    (hv : LogIndex.kthLargest? n.half ((l.recorded p cp).recorded q cq).matchIndices = some v) :
    let n₁ := (appendAccepted n.idle p cp).node
    let m := (appendAccepted n₁.idle q cq).node
    ∃ l₁, n₁.role = .leader l₁ ∧
      (l₁.recorded q cq).cursors = ((l.recorded p cp).recorded q cq).cursors ∧
      m.commitIndex = max (n₁.reached (l₁.counted (n₁.commitIndex + 1) q cq))
        (min v n.log.lastIndex) ∧
      (m.commitIndex = n₁.commitIndex →
        m.role = .leader (l₁.counted (n₁.commitIndex + 1) q cq)) := by
  intro n₁ m
  obtain ⟨l₁, hl₁, hcursors₁⟩ := appendAccepted_lead h.lead p cp
  have hqueues₁ : n₁.Queues start := appendAccepted_queues h.queues p cp
  have hsame : n.SameOffice n₁ := appendAccepted_sameOffice n.idle p cp
  have hlog : n₁.log = n.log := appendAccepted_log n.idle p cp
  have hrise : n.commitIndex ≤ n₁.commitIndex := h.rises
  have hcursors : (l₁.recorded q cq).cursors = ((l.recorded p cp).recorded q cq).cursors :=
    Leadership.recorded_cursors_congr hcursors₁ q cq
  have hsize₁ : 2 ≤ n₁.clusterSize := by
    rw [hsame.clusterSize]
    exact Nat.le_of_succ_le h.three_le
  have hcq₁ : ∀ i, cq.round.Seeks i → i ≤ n₁.commitIndex + 1 := by
    intro i hi
    have hnear := h.secondNear i hi
    lia
  have hv₁ : LogIndex.kthLargest? n₁.half (l₁.recorded q cq).matchIndices = some v := by
    rw [half_congr hsame.clusterSize, Leadership.matchIndices_congr hcursors]
    exact hv
  obtain ⟨hcommit, hstays, -⟩ := appendAccepted_effect (p := q) hl₁ hqueues₁ hsize₁ hcq₁ hv₁
  rw [hlog] at hcommit
  exact ⟨l₁, hl₁, hcursors, hcommit, hstays⟩

/-- Two acceptances, one after the other. If the first one raises the commit index, the second one
may decide the next agreement besides. If neither does, both are counted. -/
theorem effect (h : n.Acceptances l start p q cp cq) {v : LogIndex}
    (hv : LogIndex.kthLargest? n.half ((l.recorded p cp).recorded q cq).matchIndices = some v) :
    let k := (l.counted (n.commitIndex + 1) p cp).counted (n.commitIndex + 1) q cq
    let n₁ := (appendAccepted n.idle p cp).node
    let m := (appendAccepted n₁.idle q cq).node
    (m.commitIndex = n.covered k v ∨
      n.clusterSize ≤ 3 ∧ n.commitIndex < n₁.commitIndex ∧ n₁.commitIndex ≤ n.covered k v ∧
        n₁.commitIndex + 1 ≤ n.log.lastIndex ∧
        ((l.recorded p cp).recorded q cq).Holds q (n₁.commitIndex + 1) ∧
        m.commitIndex = max (n₁.commitIndex + 1) (n.covered k v)) ∧
      (m.commitIndex = n.commitIndex → m.role = .leader k) := by
  intro k n₁ m
  have hsize : 2 ≤ n.clusterSize := Nat.le_of_succ_le h.three_le
  obtain ⟨w, hw⟩ := h.exists_first
  have hle : w ≤ v := Leadership.kthLargest_le_recorded (half_pos (by omega)) hw hv
  obtain ⟨hcommit₁, hstays₁, halone⟩ :=
    appendAccepted_effect (p := p) h.lead h.queues hsize h.firstNear hw
  obtain ⟨l₁, hl₁, hcursors, hcommit, hstays⟩ := h.second_effect hv
  have hsame : n.SameOffice n₁ := appendAccepted_sameOffice n.idle p cp
  have hcommit : m.commitIndex = _ := hcommit
  have hreached₁ := n₁.le_reached (l₁.counted (n₁.commitIndex + 1) q cq)
  rcases Int.lt_or_eq_of_le h.rises with hraised | hstill
  · have hcovered : max n₁.commitIndex (min v n.log.lastIndex) = n.covered k v :=
      covered_of_raised hcommit₁ hraised hle
    refine ⟨?_, fun hsame => by lia⟩
    by_cases hundecided : (l₁.counted (n₁.commitIndex + 1) q cq).Undecided n₁.clusterSize
    · left
      have hreached : n₁.reached (l₁.counted (n₁.commitIndex + 1) q cq) = n₁.commitIndex :=
        if_pos hundecided
      rw [← hcovered, ← hreached]
      exact hcommit
    · right
      have hreached : n₁.reached (l₁.counted (n₁.commitIndex + 1) q cq) = n₁.commitIndex + 1 :=
        if_neg hundecided
      obtain ⟨hthree, hconfirms, hlast⟩ := decided_of_alone hl₁
        (appendAccepted_queues h.queues p cp) (by rw [hsame.clusterSize]; exact hsize)
        (halone hraised) hundecided
      have hunsought : ¬ cq.round.Seeks (n₁.commitIndex + 1) := by
        intro hseeks
        have hnear := h.secondNear _ hseeks
        lia
      have hholds := hconfirms.resolve_left hunsought
      rw [Leadership.holds_congr (congrArg (·[q]?) hcursors)] at hholds
      rw [hsame.clusterSize] at hthree
      rw [appendAccepted_log n.idle p cp] at hlast
      exact ⟨hthree, hraised, by lia, hlast, hholds, by lia⟩
  · obtain rfl := Role.leader.inj (hl₁.symm.trans (hstays₁ hstill.symm))
    have hstill : n.commitIndex = n₁.commitIndex := hstill
    constructor
    · left
      refine hcommit.trans ?_
      unfold covered reached
      rw [← hstill, hsame.clusterSize]
    · intro hnone
      have hrole := hstays (hnone.trans hstill)
      rw [← hstill] at hrole
      exact hrole

/-- A first acceptance that raises the commit index confirms the entry after it. -/
theorem first_confirms (h : n.Acceptances l start p q cp cq) (hthree : n.clusterSize ≤ 3)
    (hraised : n.commitIndex < (appendAccepted n.idle p cp).node.commitIndex) :
    l.Confirms p cp (n.commitIndex + 1) := by
  have hsize : 2 ≤ n.clusterSize := Nat.le_of_succ_le h.three_le
  obtain ⟨w, hw⟩ := h.exists_first
  obtain ⟨hcommit, -⟩ := appendAccepted_effect (p := p) h.lead h.queues hsize h.firstNear hw
  by_cases hundecided : (l.counted (n.commitIndex + 1) p cp).Undecided n.clusterSize
  · have hreached : n.reached (l.counted (n.commitIndex + 1) p cp) = n.commitIndex :=
      if_pos hundecided
    have hhalf : n.commitIndex + 1 ≤ w := by lia
    rw [LogIndex.le_kthLargest?_iff (half_pos (by omega)) hw] at hhalf
    have hown : ¬ (l.recorded p cp).Holds n.id (n.commitIndex + 1) := by
      rw [Leadership.holds_congr (Leadership.recorded_cursor_other h.first.2.symm l cp)]
      exact h.unmatched
    exact Or.inr (holds_of_half hthree ((l.recorded_width p cp).trans h.width) h.self
      h.first.1 h.first.2 hown hhalf)
  · refine Decidable.byContradiction fun hnot => hundecided ?_
    unfold Leadership.Undecided Leadership.counted
    rw [if_neg hnot, l.recorded_agreements p cp]
    exact (h.queues l h.lead).2

/-- Unless the two are contested, the second acceptance decides nothing that the first one has made
way for. -/
theorem commit_eq (h : n.Acceptances l start p q cp cq) (hcontested : ¬ n.Contested l p cp q cq)
    {v : LogIndex}
    (hv : LogIndex.kthLargest? n.half ((l.recorded p cp).recorded q cq).matchIndices = some v) :
    (appendAccepted (appendAccepted n.idle p cp).node.idle q cq).node.commitIndex =
      n.covered ((l.counted (n.commitIndex + 1) p cp).counted (n.commitIndex + 1) q cq) v := by
  have hsize := h.three_le
  obtain ⟨hplain | ⟨hthree, hraised, -, hlast, hholds, hcommit⟩, -⟩ := h.effect hv
  · exact hplain
  refine hcommit.trans (Int.max_eq_right ?_)
  have hp : l.Confirms p cp (n.commitIndex + 1) := h.first_confirms hthree hraised
  have hq : l.Confirms q cq (n.commitIndex + 1) := by
    have hback := hholds.back (show n.commitIndex + 1 ≤ _ by lia)
    rw [Leadership.holds_congr (Leadership.recorded_cursor_congr
      (Leadership.recorded_cursor_other h.distinct.symm l cp) cq)] at hback
    exact Or.inr hback
  have hboth : ∀ r ∈ [p, q], ((l.recorded p cp).recorded q cq).Holds r
      ((appendAccepted n.idle p cp).node.commitIndex + 1) := by
    have hother : ((l.recorded p cp).recorded q cq).Holds p
        ((appendAccepted n.idle p cp).node.commitIndex + 1) := by
      refine Decidable.byContradiction fun hnot => hcontested ?_
      exact ⟨Nat.le_antisymm hthree hsize, hp, hq, _, by lia, hlast,
        fun hsame => hnot (hsame.mpr hholds)⟩
    exact List.forall_mem_cons.mpr ⟨hother, List.forall_mem_singleton.mpr hholds⟩
  have hcount := Leadership.length_le_countP (by simpa using h.distinct) hboth
  have hreached : (appendAccepted n.idle p cp).node.commitIndex + 1 ≤ v := by
    rw [LogIndex.le_kthLargest?_iff (half_pos (by omega)) hv]
    change 2 ≤ _ at hcount
    unfold half
    omega
  unfold covered
  lia

/-- Two acceptances that a leader hears of leave it with the same cursors in either order. The
commit index comes out the same or, if they are contested, at most one further in one order than in
the other. -/
theorem commute (h : n.Acceptances l start p q cp cq) :
    let np := (appendAccepted (appendAccepted n.idle p cp).node.idle q cq).node
    let nq := (appendAccepted (appendAccepted n.idle q cq).node.idle p cp).node
    ∃ lp lq, np.role = .leader lp ∧ nq.role = .leader lq ∧ lp.cursors = lq.cursors ∧
      np.commitIndex ≤ nq.commitIndex + 1 ∧ nq.commitIndex ≤ np.commitIndex + 1 ∧
      (¬ n.Contested l p cp q cq → np.commitIndex = nq.commitIndex ∧ lp.opened = lq.opened) ∧
      (np.commitIndex = n.commitIndex → lp.support = lq.support) := by
  intro np nq
  obtain ⟨v, hv⟩ := h.exists_half
  have hrecorded := Leadership.recorded_comm h.distinct l cp cq
  have hv' :
      LogIndex.kthLargest? n.half ((l.recorded q cq).recorded p cp).matchIndices = some v := by
    rw [← Leadership.matchIndices_congr hrecorded]
    exact hv
  have hsupport := Leadership.support_counted_comm h.distinct l (n.commitIndex + 1) cp cq
  have hcovered := n.covered_congr hsupport v
  obtain ⟨hp, hstayp⟩ := h.effect hv
  obtain ⟨hq, hstayq⟩ := h.symm.effect hv'
  obtain ⟨lp, hlp, hcursorsp⟩ := accepted_lead h.lead p q cp cq
  obtain ⟨lq, hlq, hcursorsq⟩ := accepted_lead h.lead q p cq cp
  have hqueuesp : np.Queues start :=
    appendAccepted_queues (appendAccepted_queues h.queues p cp) q cq
  have hqueuesq : nq.Queues start :=
    appendAccepted_queues (appendAccepted_queues h.queues q cq) p cp
  have hlog : np.log = nq.log := by
    change (appendAccepted _ q cq).node.log = (appendAccepted _ p cp).node.log
    rw [appendAccepted_log, appendAccepted_log]
    exact (appendAccepted_log _ p cp).trans (appendAccepted_log _ q cq).symm
  refine ⟨lp, lq, hlp, hlq, ?_, ?_, ?_, ?_, ?_⟩
  · rw [hcursorsp, hcursorsq, hrecorded]
  · lia
  · lia
  · intro hcontested
    have hcommit : np.commitIndex = nq.commitIndex := by
      refine (h.commit_eq hcontested hv).trans (hcovered.trans (h.symm.commit_eq ?_ hv').symm)
      exact fun hswapped => hcontested (hswapped.symm h.distinct.symm)
    refine ⟨hcommit, ?_⟩
    rw [(hqueuesp lp hlp).1.opened_eq, (hqueuesq lq hlq).1.opened_eq, hcommit, hlog]
  · intro hstill
    have hstill' : nq.commitIndex = n.commitIndex := by lia
    obtain rfl := Role.leader.inj (hlp.symm.trans (hstayp hstill))
    obtain rfl := Role.leader.inj (hlq.symm.trans (hstayq hstill'))
    exact hsupport

end Acceptances

end Node

/-- A call of the member at `s` to the one at `r` is under way, or the answer to it is. -/
def Cluster.Outstanding (c : Cluster α) (s r : PeerId) (context : AppendContext) : Prop :=
  (∃ args, .appendRequest s r context args ∈ c.packets) ∨
    ∃ reply, .appendReply r s context (some reply) ∈ c.packets

/-- A call of the member at `s` to the one at `r` is made to another member. Agreement is sought, if
at all, on an entry no later than the one after the commit index of its maker. -/
structure Cluster.Placed (c : Cluster α) (size : Nat) (s r : PeerId) (context : AppendContext) :
    Prop where
  other : r ≠ s
  member : r < size
  near : ∀ n, c.nodes[s]? = some n → ∀ i, context.round.Seeks i → i ≤ n.commitIndex + 1

section Run

variable {rule : Rule α} {size : Nat} {c c' : Cluster α} {past : List (Cluster α)} {i s r : PeerId}
  {n : Node α} {e : Event α} {context : AppendContext}

theorem Cluster.Rests.outstanding (hrest : c.Rests c') (h : c'.Outstanding s r context) :
    c.Outstanding s r context :=
  h.imp (fun ⟨args, hp⟩ => ⟨args, hrest.mem hp id⟩) fun ⟨reply, hp⟩ => ⟨reply, hrest.mem hp id⟩

theorem Cluster.Acts.outstanding_cases (hact : c.Acts i n e c')
    (h : c'.Outstanding s r context) : c.Outstanding s r context ∨
      s = i ∧ ∃ args, .appendEntries r context args ∈ (n.handle e).2.actions := by
  rcases h with ⟨args, hp⟩ | ⟨reply, hp⟩
  · rcases hact.appendRequest_cases hp with hold | ⟨hs, hsent⟩
    · exact Or.inl (Or.inl ⟨args, hold⟩)
    · exact Or.inr ⟨hs, args, hsent⟩
  · rcases hact.appendReply_cases hp with hold | ⟨args, rfl, -, -, hcall⟩
    · exact Or.inl (Or.inr ⟨reply, hold⟩)
    · exact Or.inl (Or.inl ⟨args, hcall⟩)

/-- Commit indices only rise, so a call stays as it should be. -/
theorem Cluster.Placed.act (h : c.Placed size s r context) (hrun : Run rule size c past)
    (hact : c.Acts i n e c') : c'.Placed size s r context where
  other := h.other
  member := h.member
  near := by
    intro m hm j hj
    rcases hact.node_cases hm with ⟨rfl, rfl⟩ | ⟨-, hold⟩
    · have hnear := h.near n hact.node j hj
      have hrise := ((hrun.settled s n hact.node).handle e).start_le
      change n.commitIndex ≤ (n.after e).commitIndex at hrise
      lia
    · exact h.near m hold j hj

/-- Whatever a node calls for in an event is as it should be. -/
theorem Cluster.Acts.placed (hact : c.Acts i n e c') (hrun : Run rule size c past)
    (h : ∀ s r context, c.Outstanding s r context → c.Placed size s r context)
    {args : AppendRequest α} (hsent : .appendEntries r context args ∈ (n.handle e).2.actions) :
    c'.Placed size i r context := by
  obtain ⟨-, hid, hsize⟩ := hrun.seat i n hact.node
  have hopens : ∀ j, n.Awaits j ∨ (∃ command, e = .submit command) ∧ j = (n.log.length : Int) →
      True := fun _ _ => trivial
  have hretry : ∀ sender ctx reply, e = .appendReturned sender ctx (some reply) → n.isLeader →
      ctx.generation = n.generation → ∀ agreement cursor,
        ctx.round = .replicate agreement cursor →
          sender ≠ n.id ∧ True ∧ agreement ≤ n.commitIndex + 1 := by
    rintro sender ctx reply rfl - - agreement cursor hround
    cases hact.cause with
    | appendReturned hp =>
        have hplaced := h _ _ _ (Or.inr ⟨_, hp⟩)
        refine ⟨by rw [hid]; exact hplaced.other, trivial, hplaced.near n hact.node _ ?_⟩
        rw [hround]
        rfl
  obtain ⟨m, hm, hcommit, hsends⟩ := Node.sends_of_handle hsent hopens hretry
  have hself : m.id = n.id := (Node.standing_id hm).trans (n.after_shift e).id
  obtain ⟨lead, cursor, round, last, hlead, hcursor, rfl, -, -, hround⟩ := hsends.call
  refine ⟨?_, ?_, ?_⟩
  · rw [← hid, ← hself]
    exact hsends.peer_ne fun p _ _ hp => by rw [hself]; exact hp.1
  · obtain ⟨l, hl⟩ := Node.exists_lead (hsends.isLeader hm)
    have hkept := ((hrun.bookkeeping i n hact.node).1.after e) l hl
    rw [Node.standing_cursors hm hlead hl] at hcursor
    rw [← hsize, ← (n.after_shift e).clusterSize, ← hkept.width]
    exact (List.getElem?_eq_some_iff.mp hcursor).1
  · intro m' hm' j hj
    obtain rfl := Option.some.inj (hact.node_self.symm.trans hm')
    cases round with
    | heartbeat => cases hj
    | replicate agreement back =>
        obtain rfl := hj
        obtain ⟨-, -, hnear⟩ := hround _ _ rfl
        lia

/-- All calls under way are as they should be. -/
theorem Run.placed (h : Run rule size c past) :
    ∀ s r context, c.Outstanding s r context → c.Placed size s r context := by
  refine h.invariant (P := fun c _ =>
    ∀ s r context, c.Outstanding s r context → c.Placed size s r context) ?_ ?_ ?_
  · rintro s r context (⟨args, hp⟩ | ⟨reply, hp⟩)
    · cases hp
    · cases hp
  · intro c past c' _ ih hrest s r context hcall
    have hplaced := ih s r context (hrest.outstanding hcall)
    exact ⟨hplaced.other, hplaced.member, by rw [hrest.nodes]; exact hplaced.near⟩
  · intro c past i n e c' hrun ih hact _ s r context hcall
    rcases hact.outstanding_cases hcall with hold | ⟨rfl, args, hsent⟩
    · exact (ih s r context hold).act hrun hact
    · exact hact.placed hrun ih hsent

/-- What it takes for a leader not to record a match index for itself: its calls are made to
others. -/
theorem Cluster.Acts.accountable (hact : c.Acts i n e c') (hrun : Run rule size c past)
    (hkept : ∀ l, n.role = .leader l →
      l.Accounts i (fun k => 0 ≤ k) (fun _ _ => True) fun _ _ => True) :
    n.Accountable i (fun k => 0 ≤ k) (fun _ _ => True) (fun _ _ => True) e where
  sound := ⟨fun _ _ _ _ _ _ => trivial, fun _ _ _ => trivial⟩
  own := fun _ hk => ⟨hk, trivial⟩
  back := fun _ _ _ _ => trivial
  kept := hkept
  fresh := fun _ _ => trivial
  stored := fun _ _ _ => Int.natCast_nonneg _
  claimed := by
    rintro sender context reply rfl - - -
    cases hact.cause with
    | appendReturned hp =>
        have hplaced := hrun.placed _ _ _ (Or.inr ⟨_, hp⟩)
        exact ⟨hplaced.other, fun _ _ => trivial, fun _ _ => trivial⟩

/-- What is right in every run about the accounts of leaders. -/
theorem Run.accounts (h : Run rule size c past) :
    ∀ (i : PeerId) (n : Node α), c.nodes[i]? = some n → ∀ l, n.role = .leader l →
      l.Accounts i (fun k => 0 ≤ k) (fun _ _ => True) fun _ _ => True := by
  refine h.invariant (P := fun c _ => ∀ (i : PeerId) (n : Node α), c.nodes[i]? = some n →
    ∀ l, n.role = .leader l →
      l.Accounts i (fun k => 0 ≤ k) (fun _ _ => True) fun _ _ => True) ?_ ?_ ?_
  · intro i n hn l hl
    obtain ⟨-, rfl⟩ := Cluster.fresh_node hn
    cases hl
  · intro c past c' _ ih hrest i n hn
    rw [hrest.nodes] at hn
    exact ih i n hn
  · intro c past s m e c' hrun ih hact _ i n hn l hl
    rcases hact.node_cases hn with ⟨rfl, rfl⟩ | ⟨-, hold⟩
    · obtain ⟨-, hid, hsize⟩ := hrun.seat i m hact.node
      have habsent := (hrun.settled i m hact.node).absent_le
      exact ((hact.accountable hrun (ih i m hact.node)).after hid hsize habsent
        (Node.isLeader_of_lead hl)).1 l hl
    · exact ih i n hold l hl

/-- A leader never records a match index for itself. -/
theorem Run.own_unmatched (h : Run rule size c past) (hn : c.nodes[i]? = some n) {l : Leadership}
    (hl : n.role = .leader l) {j : LogIndex} (hj : 0 ≤ j) : ¬ l.Holds i j := by
  rintro ⟨k, hk, hle⟩
  obtain ⟨cursor, hcursor, rfl⟩ := Option.map_eq_some_iff.mp hk
  have hown : cursor.matched = -1 := (h.accounts i n hn l hl).own cursor hcursor
  lia

/-- The node after it has heard from one member and then from another one that they accept calls of
it, in answers that carry its term. -/
def Node.heard (n : Node α) (p : PeerId) (cp : AppendContext) (q : PeerId) (cq : AppendContext) :
    Node α :=
  n.afterAll [.appendReturned p cp (some ⟨n.term, true⟩),
    .appendReturned q cq (some ⟨n.term, true⟩)]

theorem Node.heard_eq {l : Leadership} {p q : PeerId} {cp cq : AppendContext}
    (hl : n.role = .leader l) (hp : cp.generation = n.generation)
    (hq : cq.generation = n.generation) : n.heard p cp q cq =
      (Node.appendAccepted (Node.appendAccepted n.idle p cp).node.idle q cq).node := by
  have hfirst : n.after (.appendReturned p cp (some ⟨n.term, true⟩)) =
      (Node.appendAccepted n.idle p cp).node :=
    congrArg Turn.node
      (Node.appendReturned_accepted (Node.isLeader_of_lead hl) p (Nat.le_refl _) rfl hp)
  have hsame := Node.appendAccepted_sameOffice n.idle p cp
  obtain ⟨l₁, hl₁, -⟩ := Node.appendAccepted_lead hl p cp
  change (n.after (.appendReturned p cp (some ⟨n.term, true⟩))).after _ = _
  rw [hfirst]
  exact congrArg Turn.node (Node.appendReturned_accepted (Node.isLeader_of_lead hl₁) q
    (Nat.le_of_eq hsame.term.symm) rfl (hq.trans hsame.generation.symm))

/-- It hardly matters in which order a leader hears from two members that they accept calls of its
present generation. The cursors are the same in the end, and the commit indices are no more than one
apart. Unless the two are contested, the same is committed, applied and sought. As long as nothing
is committed, what is sought has the same support. -/
theorem acceptances_commute (h : Run rule size c past) {p q : PeerId} {l : Leadership}
    {cp cq : AppendContext} (hn : c.nodes[i]? = some n) (hl : n.role = .leader l) (hpq : p ≠ q)
    (hp : c.Outstanding i p cp) (hq : c.Outstanding i q cq) (hgenp : cp.generation = n.generation)
    (hgenq : cq.generation = n.generation) :
    let np := n.heard p cp q cq
    let nq := n.heard q cq p cp
    ∃ lp lq, np.role = .leader lp ∧ nq.role = .leader lq ∧ lp.cursors = lq.cursors ∧
      np.commitIndex ≤ nq.commitIndex + 1 ∧ nq.commitIndex ≤ np.commitIndex + 1 ∧
      (¬ n.Contested l p cp q cq → np.commitIndex = nq.commitIndex ∧
        np.lastApplied = nq.lastApplied ∧ lp.opened = lq.opened) ∧
      (np.commitIndex = n.commitIndex → lp.support = lq.support) := by
  intro np nq
  have hsettled := h.settled i n hn
  obtain ⟨hkeeps, hqueues⟩ := h.bookkeeping i n hn
  have hplacedp := h.placed i p cp hp
  have hplacedq := h.placed i q cq hq
  obtain ⟨hi, rfl, rfl⟩ := h.seat i n hn
  have hzero : 0 ≤ n.commitIndex + 1 := by
    have habsent : -1 ≤ n.commitIndex := hsettled.absent_le
    lia
  have hboth : n.Acceptances l (ledFrom n.id (c :: past)) p q cp cq :=
    ⟨hl, hqueues, (hkeeps l hl).width, hi, h.own_unmatched hn hl hzero, hpq,
      ⟨hplacedp.member, hplacedp.other⟩, ⟨hplacedq.member, hplacedq.other⟩,
      hplacedp.near n hn, hplacedq.near n hn⟩
  have hnp : np = (Node.appendAccepted (Node.appendAccepted n.idle p cp).node.idle q cq).node :=
    Node.heard_eq hl hgenp hgenq
  have hnq : nq = (Node.appendAccepted (Node.appendAccepted n.idle q cq).node.idle p cp).node :=
    Node.heard_eq hl hgenq hgenp
  have hsettledp : np.Settled := (hsettled.after _).after _
  have hsettledq : nq.Settled := (hsettled.after _).after _
  obtain ⟨lp, lq, hlp, hlq, hcursors, hle, hge, hplain, hstill⟩ := hboth.commute
  rw [← hnp, ← hnq] at hle hge hplain
  rw [← hnp] at hlp hstill
  rw [← hnq] at hlq
  refine ⟨lp, lq, hlp, hlq, hcursors, hle, hge, fun hcontested => ?_, hstill⟩
  obtain ⟨hcommit, hopened⟩ := hplain hcontested
  refine ⟨hcommit, ?_, hopened⟩
  rw [hsettledp.lastApplied, hsettledq.lastApplied, hcommit]

end Run

/-- The first of three members is elected and stores `10` and `11`. Its calls that seek agreement on
`10` are under way, and heartbeats that carry both. -/
def overlappingCalls : List (Move Nat) :=
  [.electionTimeout 0, .deliver 0, .deliver 2, .submit 0 10, .submit 0 11, .heartbeatTimeout 0]

/-- If both others accept the call for `10`, that is committed, and nothing more, whoever is heard
of first. -/
theorem acceptances_commute_overlappingCalls : ∃ n : Node Nat,
    ((Cluster.fresh 3).course [] overlappingCalls).1.nodes[0]? = some n ∧
      (n.heard 1 ⟨2, .replicate 0 0, some 0⟩ 2 ⟨2, .replicate 0 0, some 0⟩).commitIndex = 0 ∧
      (n.heard 2 ⟨2, .replicate 0 0, some 0⟩ 1 ⟨2, .replicate 0 0, some 0⟩).commitIndex = 0 := by
  have hrun : Run (fun _ _ _ => True) 3 ((Cluster.fresh 3).course [] overlappingCalls).1
      ((Cluster.fresh 3).course [] overlappingCalls).2 := .course .start (by decide)
  have hp : ((Cluster.fresh 3).course [] overlappingCalls).1.Outstanding 0 1
      ⟨2, .replicate 0 0, some 0⟩ := Or.inl ⟨⟨1, 0, -1, none, [⟨1, 10⟩], -1⟩, by decide⟩
  have hq : ((Cluster.fresh 3).course [] overlappingCalls).1.Outstanding 0 2
      ⟨2, .replicate 0 0, some 0⟩ := Or.inl ⟨⟨1, 0, -1, none, [⟨1, 10⟩], -1⟩, by decide⟩
  obtain ⟨lp, lq, -, -, -, -, -, hsame, -⟩ :=
    acceptances_commute hrun rfl rfl (by decide) hp hq rfl rfl
  refine ⟨_, rfl, by decide, ?_⟩
  refine (hsame ?_).1.symm.trans (by decide)
  -- Both hold `10` in the end, and neither is known to hold `11`.
  rintro ⟨-, -, -, i, hnext, hlast, hdiffer⟩
  obtain rfl : i = 1 := Int.le_antisymm hlast hnext
  exact hdiffer (by decide)

/-- If the second one accepts its heartbeat instead, which carries `11` as well, that is committed
too, but only if the heartbeat is heard of last: by then `10` is committed and `11` is sought. -/
theorem acceptances_contested : ¬ ∀ (size : Nat) (c : Cluster Nat) (past : List (Cluster Nat)),
    Run (fun _ _ _ => True) size c past → ∀ (i : PeerId) (n : Node Nat), c.nodes[i]? = some n →
      n.isLeader → ∀ (p q : PeerId) (cp cq : AppendContext), p ≠ q → c.Outstanding i p cp →
        c.Outstanding i q cq → cp.generation = n.generation → cq.generation = n.generation →
          (n.heard p cp q cq).commitIndex = (n.heard q cq p cp).commitIndex := by
  intro hcommute
  have hrun : Run (fun _ _ _ => True) 3 ((Cluster.fresh 3).course [] overlappingCalls).1
      ((Cluster.fresh 3).course [] overlappingCalls).2 := .course .start (by decide)
  have hp : ((Cluster.fresh 3).course [] overlappingCalls).1.Outstanding 0 1
      ⟨2, .replicate 0 0, some 0⟩ := Or.inl ⟨⟨1, 0, -1, none, [⟨1, 10⟩], -1⟩, by decide⟩
  have hq : ((Cluster.fresh 3).course [] overlappingCalls).1.Outstanding 0 2
      ⟨2, .heartbeat, some 1⟩ := Or.inl ⟨⟨1, 0, -1, none, [⟨1, 10⟩, ⟨1, 11⟩], -1⟩, by decide⟩
  have hsame := hcommute 3 _ _ hrun 0 _ rfl rfl 1 2 _ _ (by decide) hp hq rfl rfl
  exact absurd hsame (by decide)

end Quorum
