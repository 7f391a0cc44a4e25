import Quorum.Proofs.Reign
import Quorum.Proofs.Run

/-!
The queue of agreements. Of the entries that a leader has stored and not yet committed, agreement is
sought on the one after the commit index and all others wait. Whatever a leader does goes through
states in which every such entry is in exactly one of the two places (`Pending`), and going through
the waiting indices then leaves nothing to wait whose predecessor is committed (`Queued`).
-/

namespace Quorum

variable {α : Type}

theorem insertByIndex_of_forall_lt {β : Type} {key : β → LogIndex} {x : β} {l : List β}
    (h : ∀ y ∈ l, key y < key x) : insertByIndex key x l = l ++ [x] := by
  induction l with
  | nil => rfl
  | cons y rest ih =>
      obtain ⟨hy, hrest⟩ := List.forall_mem_cons.mp h
      have hnot : ¬ key x < key y := by lia
      have hne : key x ≠ key y := by lia
      simp only [insertByIndex, hnot, hne, if_false, ih hrest, List.cons_append]

namespace Leadership

/-- The indices on which agreement is sought. -/
def opened (l : Leadership) : List LogIndex := l.agreements.map (·.index)

/-- Agreement is sought on the entry after the commit index, if on any. What the leader has stored
from `start` on and not committed is sought or waits, and nothing does both. -/
structure Pending (start : Nat) (commit last : LogIndex) (l : Leadership) : Prop where
  founded : (start : Int) ≤ last + 1
  single : l.opened = [] ∨ l.opened = [commit + 1]
  within : ∀ i, i ∈ l.opened ∨ i ∈ l.waiting → (start : Int) ≤ i ∧ i ≤ last
  complete : ∀ i : LogIndex, (start : Int) ≤ i → commit < i → i ≤ last →
    i ∈ l.opened ∨ i ∈ l.waiting
  apart : ∀ i ∈ l.waiting, i ∉ l.opened
  sorted : l.waiting.Pairwise (· < ·)

/-- Besides, nothing waits whose predecessor is committed. -/
structure Queued (start : Nat) (commit last : LogIndex) (l : Leadership) : Prop
    extends l.Pending start commit last where
  blocked : ∀ i ∈ l.waiting, commit + 1 < i

/-- No agreement that is still open has been reached. -/
def Undecided (size : Nat) (l : Leadership) : Prop :=
  ∀ a ∈ l.agreements, ¬ a.acks.IsMajority size

variable {start size : Nat} {commit last i : LogIndex} {l m : Leadership} {rest : List LogIndex}

theorem Pending.congr (h : l.Pending start commit last) (hopened : m.opened = l.opened)
    (hwaiting : m.waiting = l.waiting) : m.Pending start commit last where
  founded := h.founded
  single := by rw [hopened]; exact h.single
  within := by rw [hopened, hwaiting]; exact h.within
  complete := by rw [hopened, hwaiting]; exact h.complete
  apart := by rw [hopened, hwaiting]; exact h.apart
  sorted := by rw [hwaiting]; exact h.sorted

theorem Pending.eq_of_opened (h : l.Pending start commit last) (hi : i ∈ l.opened) :
    i = commit + 1 := by
  rcases h.single with hnil | hone
  · rw [hnil] at hi
    cases hi
  · rwa [hone, List.mem_singleton] at hi

theorem Pending.sorted_cons (h : l.Pending start commit last) (hwaiting : l.waiting = i :: rest) :
    (∀ j ∈ rest, i < j) ∧ rest.Pairwise (· < ·) := by
  have hsorted := h.sorted
  rwa [hwaiting, List.pairwise_cons] at hsorted

theorem fresh_queued (size length : Nat) (commit : LogIndex) :
    (fresh size length).Queued length commit (LogIndex.lastOf length) where
  founded := by unfold LogIndex.lastOf; lia
  single := Or.inl rfl
  within := by
    rintro i (hi | hi)
    · cases hi
    · cases hi
  complete := by
    intro i hstart _ hlast
    unfold LogIndex.lastOf at hlast
    lia
  apart := by
    intro i hi
    cases hi
  sorted := List.Pairwise.nil
  blocked := by
    intro i hi
    cases hi

theorem fresh_undecided (size length clusterSize : Nat) :
    (fresh size length).Undecided clusterSize := by
  intro a ha
  cases ha

/-- The entry that a leader stores next waits behind all others. -/
theorem Pending.enqueue (h : l.Pending start commit last) :
    (l.enqueue (last + 1)).Pending start commit (last + 1) := by
  have hwaiting : (l.enqueue (last + 1)).waiting = l.waiting ++ [last + 1] := by
    apply insertByIndex_of_forall_lt
    intro i hi
    have hlast := (h.within i (Or.inr hi)).2
    simp only [id_eq]
    lia
  have hopened : (l.enqueue (last + 1)).opened = l.opened := rfl
  have hstart := h.founded
  refine ⟨by lia, h.single, ?_, ?_, ?_, ?_⟩
  · intro i hi
    rw [hopened, hwaiting, List.mem_append, List.mem_singleton] at hi
    rcases hi with hi | hi | rfl
    · have hrange := h.within i (Or.inl hi)
      exact ⟨hrange.1, by lia⟩
    · have hrange := h.within i (Or.inr hi)
      exact ⟨hrange.1, by lia⟩
    · exact ⟨hstart, Int.le_refl _⟩
  · intro i hi hcommit hlast
    rw [hopened, hwaiting, List.mem_append, List.mem_singleton]
    rcases Int.lt_or_eq_of_le hlast with hold | rfl
    · exact (h.complete i hi hcommit (by lia)).imp_right Or.inl
    · exact Or.inr (Or.inr rfl)
  · intro i hi hopen
    rw [hwaiting, List.mem_append, List.mem_singleton] at hi
    rcases hi with hi | rfl
    · exact h.apart i hi hopen
    · have hlast := (h.within _ (Or.inl hopen)).2
      lia
  · rw [hwaiting, List.pairwise_append]
    refine ⟨h.sorted, List.pairwise_singleton _ _, ?_⟩
    intro i hi j hj
    obtain rfl := List.mem_singleton.mp hj
    have hlast := (h.within i (Or.inr hi)).2
    lia

theorem dequeue_waiting (hwaiting : l.waiting = i :: rest) : (l.dequeue i).waiting = rest := by
  unfold dequeue
  rw [hwaiting, List.erase_cons_head]

/-- A committed index is no longer pending. -/
theorem Pending.dequeue (h : l.Pending start commit last) (hwaiting : l.waiting = i :: rest)
    (hi : i ≤ commit) : (l.dequeue i).Pending start commit last := by
  have hrest : (l.dequeue i).waiting = rest := dequeue_waiting hwaiting
  have hopened : (l.dequeue i).opened = l.opened := rfl
  refine ⟨h.founded, h.single, ?_, ?_, ?_, ?_⟩
  · intro j hj
    rw [hopened, hrest] at hj
    apply h.within j
    rw [hwaiting]
    exact hj.imp_right (List.mem_cons_of_mem i)
  · intro j hstart hcommit hlast
    rw [hopened, hrest]
    have hj := h.complete j hstart hcommit hlast
    rw [hwaiting, List.mem_cons] at hj
    rcases hj with hopen | rfl | hlater
    · exact Or.inl hopen
    · lia
    · exact Or.inr hlater
  · intro j hj
    rw [hrest] at hj
    apply h.apart j
    rw [hwaiting]
    exact List.mem_cons_of_mem i hj
  · rw [hrest]
    exact (h.sorted_cons hwaiting).2

/-- As long as the entry after the commit index waits, no agreement is sought. -/
theorem Pending.agreements_eq_nil (h : l.Pending start commit last) (hi : i = commit + 1)
    (hwaiting : l.waiting = i :: rest) : l.agreements = [] := by
  have hfirst : i ∈ l.waiting := by simp [hwaiting]
  rcases h.single with hnil | hone
  · exact List.map_eq_nil_iff.mp hnil
  · exact absurd (by simp [hone, hi]) (h.apart i hfirst)

/-- The entry after the commit index no longer waits once agreement is sought on it. -/
theorem Pending.openAgreement (h : l.Pending start commit last) (hi : i = commit + 1)
    (hwaiting : l.waiting = i :: rest) (p : PeerId) :
    ((l.dequeue i).openAgreement i p).agreements = [⟨i, .single p⟩] ∧
      ((l.dequeue i).openAgreement i p).Pending start commit last := by
  have hnone := h.agreements_eq_nil hi hwaiting
  have hagreements : ((l.dequeue i).openAgreement i p).agreements = [⟨i, .single p⟩] := by
    change insertByIndex Agreement.index _ l.agreements = _
    rw [hnone]
    rfl
  refine ⟨hagreements, ?_⟩
  have hopened : ((l.dequeue i).openAgreement i p).opened = [i] := by
    unfold opened
    rw [hagreements]
    rfl
  have hrest : ((l.dequeue i).openAgreement i p).waiting = rest := dequeue_waiting hwaiting
  obtain ⟨hlater, hsorted⟩ := h.sorted_cons hwaiting
  constructor
  case founded => exact h.founded
  case single => exact Or.inr (by rw [hopened, hi])
  case within =>
    intro j hj
    rw [hopened, hrest, List.mem_singleton] at hj
    apply h.within j
    rw [hwaiting, List.mem_cons]
    exact Or.inr hj
  case complete =>
    intro j hstart hcommit hlast
    rw [hopened, hrest, List.mem_singleton]
    have hno : j ∉ l.opened := by simp [opened, hnone]
    have hj := (h.complete j hstart hcommit hlast).resolve_left hno
    rwa [hwaiting, List.mem_cons] at hj
  case apart =>
    intro j hj hopen
    rw [hrest] at hj
    rw [hopened, List.mem_singleton] at hopen
    have hless := hlater j hj
    lia
  case sorted =>
    rw [hrest]
    exact hsorted

/-- A commit index that rises ends the agreement that was sought. -/
theorem Pending.closeThrough_eq_nil (h : l.Pending start commit last) {commit' : LogIndex}
    (hraised : commit < commit') : (l.closeThrough commit').agreements = [] := by
  apply List.filter_eq_nil_iff.mpr
  intro a ha
  have hindex := h.eq_of_opened (List.mem_map_of_mem ha)
  rw [decide_eq_true_eq]
  lia

theorem Pending.closeThrough (h : l.Pending start commit last) {commit' : LogIndex}
    (hle : commit ≤ commit') : (l.closeThrough commit').Pending start commit' last := by
  rcases Int.lt_or_eq_of_le hle with hraised | rfl
  · have hopened : (l.closeThrough commit').opened = [] := by
      unfold opened
      rw [h.closeThrough_eq_nil hraised]
      rfl
    refine ⟨h.founded, Or.inl hopened, ?_, ?_, ?_, h.sorted⟩
    · intro j hj
      rw [hopened] at hj
      exact h.within j (Or.inr (hj.resolve_left List.not_mem_nil))
    · intro j hstart hcommit hlast
      rcases h.complete j hstart (Int.lt_trans hraised hcommit) hlast with hopen | hwait
      · have hindex := h.eq_of_opened hopen
        lia
      · exact Or.inr hwait
    · intro j _
      rw [hopened]
      exact List.not_mem_nil
  · apply h.congr
    · have hall : l.agreements.filter (commit < ·.index) = l.agreements := by
        apply List.filter_eq_self.mpr
        intro a ha
        have hindex := h.eq_of_opened (List.mem_map_of_mem ha)
        rw [decide_eq_true_eq]
        lia
      exact congrArg (List.map (·.index)) hall
    · rfl

theorem Undecided.closeThrough (h : l.Undecided size) (commit : LogIndex) :
    (l.closeThrough commit).Undecided size :=
  fun a ha => h a (List.mem_filter.mp ha).1

theorem opened_acknowledge (l : Leadership) (i : LogIndex) (p : PeerId) :
    (l.acknowledge i p).opened = l.opened := by
  unfold opened acknowledge
  rw [List.map_map]
  apply List.map_congr_left
  intro a _
  simp only [Function.comp]
  split <;> rfl

theorem Queued.acknowledge (h : l.Queued start commit last) (i : LogIndex) (p : PeerId) :
    (l.acknowledge i p).Queued start commit last where
  toPending := h.toPending.congr (l.opened_acknowledge i p) rfl
  blocked := h.blocked

/-- An agreement is sought only on the entry after the commit index. -/
theorem Queued.range_of_agreement (h : l.Queued start commit last) {a : Agreement}
    (hfind : l.agreement? i = some a) : i = commit + 1 ∧ i ≤ last := by
  have hindex : a.index = i := by simpa using List.find?_some hfind
  have hopen : i ∈ l.opened := hindex ▸ List.mem_map_of_mem (List.mem_of_find?_eq_some hfind)
  exact ⟨h.eq_of_opened hopen, (h.within i (Or.inl hopen)).2⟩

/-- There is at most one agreement. -/
theorem Pending.agreement_unique (h : l.Pending start commit last) {a b : Agreement}
    (ha : a ∈ l.agreements) (hb : b ∈ l.agreements) : a = b := by
  have hlength : l.agreements.length ≤ 1 := by
    have hmap : l.opened.length = l.agreements.length := List.length_map _
    rcases h.single with hnil | hone
    · simp [← hmap, hnil]
    · simp [← hmap, hone]
  obtain ⟨i, hi, rfl⟩ := List.getElem_of_mem ha
  obtain ⟨j, hj, rfl⟩ := List.getElem_of_mem hb
  obtain rfl : i = j := by omega
  rfl

/-- An acknowledgement short of a majority leaves the agreement open. -/
theorem Undecided.acknowledge (h : l.Undecided size) (hpending : l.Pending start commit last)
    {a : Agreement} {p : PeerId} (hfind : l.agreement? i = some a)
    (hshort : ¬ (a.acks.add p).IsMajority size) : (l.acknowledge i p).Undecided size := by
  intro b hb
  obtain ⟨held, hheld, rfl⟩ := List.mem_map.mp hb
  obtain rfl := hpending.agreement_unique hheld (List.mem_of_find?_eq_some hfind)
  split
  · exact hshort
  · exact h held hheld

/-- Where the queue is in order, the open agreement is known from the commit index. -/
theorem Queued.opened_eq (h : l.Queued start commit last) :
    l.opened = if (start : Int) ≤ commit + 1 ∧ commit + 1 ≤ last then [commit + 1] else [] := by
  split
  · rename_i hrange
    rcases h.single with hnil | hone
    · rcases h.complete (commit + 1) hrange.1 (by lia) hrange.2 with hopen | hwait
      · rw [hnil] at hopen
        cases hopen
      · have hblocked := h.blocked _ hwait
        lia
    · exact hone
  · rename_i hrange
    rcases h.single with hnil | hone
    · exact hnil
    · exact absurd (h.within _ (Or.inl (by rw [hone]; exact List.mem_singleton_self _))) hrange

/-- And so are the waiting indices. -/
theorem Queued.mem_waiting (h : l.Queued start commit last) :
    i ∈ l.waiting ↔ max (start : Int) (commit + 2) ≤ i ∧ i ≤ last := by
  constructor
  · intro hi
    have hrange := h.within i (Or.inr hi)
    have hblocked := h.blocked i hi
    lia
  · rintro ⟨hlow, hhigh⟩
    rcases h.complete i (by lia) (by lia) hhigh with hopen | hwait
    · have hindex := h.eq_of_opened hopen
      lia
    · exact hwait

end Leadership

/-- A leader that has stored entries from `start` on, each of which is pending until it is
committed. -/
def Node.Pends (start : Nat) (n : Node α) : Prop :=
  ∀ l, n.role = .leader l →
    l.Pending start n.commitIndex n.log.lastIndex ∧ l.Undecided n.clusterSize

/-- A leader that has stored entries from `start` on and keeps the queue of their agreements in
order. -/
def Node.Queues (start : Nat) (n : Node α) : Prop :=
  ∀ l, n.role = .leader l →
    l.Queued start n.commitIndex n.log.lastIndex ∧ l.Undecided n.clusterSize

theorem Node.Queues.pends {start : Nat} {n : Node α} (h : n.Queues start) : n.Pends start := by
  intro l hl
  obtain ⟨hqueued, hundecided⟩ := h l hl
  exact ⟨hqueued.toPending, hundecided⟩

theorem Node.queues_of_not_leader {start : Nat} {n : Node α} (h : ¬ n.isLeader) :
    n.Queues start := by
  intro l hl
  exact absurd (Node.isLeader_of_lead hl) h

namespace Turn

variable {start : Nat} {t : Turn α} {i : LogIndex} {rest : List LogIndex}

theorem commitThrough_pends (h : t.node.Pends start) (i : LogIndex) :
    (t.commitThrough i).node.Pends start := by
  intro l hl
  obtain ⟨lead, hlead, rfl⟩ := Role.of_mapLead hl
  obtain ⟨hpending, hundecided⟩ := h lead hlead
  exact ⟨hpending.closeThrough (Int.le_max_left _ _), hundecided.closeThrough _⟩

/-- Reached agreements do not matter where the commit index rises. -/
theorem commitThrough_pends_of_lt
    (h : ∀ l, t.node.role = .leader l →
      l.Pending start t.node.commitIndex t.node.log.lastIndex)
    (hraised : t.node.commitIndex < (t.commitThrough i).node.commitIndex) :
    (t.commitThrough i).node.Pends start := by
  intro l hl
  obtain ⟨lead, hlead, rfl⟩ := Role.of_mapLead hl
  have hpending := h lead hlead
  refine ⟨hpending.closeThrough (Int.le_of_lt hraised), ?_⟩
  intro a ha
  have hnone := hpending.closeThrough_eq_nil hraised
  rw [commitThrough_commitIndex] at hnone
  rw [hnone] at ha
  cases ha

/-- Where no agreement is sought, the one that is started has the leader's own acknowledgement. -/
theorem startAgreement_of_leader {l : Leadership} (hrole : t.node.role = .leader l)
    (hnone : l.agreements = []) :
    let u := t.mapLead (·.openAgreement i t.node.id)
    t.startAgreement i =
      if (Tally.single t.node.id).IsMajority t.node.clusterSize then u.commitThrough i
      else u.emitAll (t.node.others.filterMap (u.node.replicateCall? · i i)) := by
  have hopened : (t.mapLead (·.openAgreement i t.node.id)).node.role =
      .leader (l.openAgreement i t.node.id) :=
    mapLead_role hrole _
  have hfind : (l.openAgreement i t.node.id).agreement? i = some ⟨i, .single t.node.id⟩ := by
    simp [Leadership.agreement?, Leadership.openAgreement, hnone, insertByIndex]
  unfold startAgreement
  simp only [hopened, Role.lead?, Option.bind_some, hfind]
  rfl

/-- Once agreement on the entry after the commit index is sought, it is pending as such, or has
been reached at once. -/
theorem startAgreement_pends {l : Leadership} (hi : i = t.node.commitIndex + 1)
    (hrole : t.node.role = .leader l)
    (hpending : l.Pending start t.node.commitIndex t.node.log.lastIndex)
    (hwaiting : l.waiting = i :: rest) :
    ((t.mapLead (·.dequeue i)).startAgreement i).node.Pends start ∧
      ∀ l', ((t.mapLead (·.dequeue i)).startAgreement i).node.role = .leader l' →
        l'.waiting = rest := by
  have hdequeued : (t.mapLead (·.dequeue i)).node.role = .leader (l.dequeue i) :=
    mapLead_role hrole _
  have hopened : ((t.mapLead (·.dequeue i)).mapLead (·.openAgreement i t.node.id)).node.role =
      .leader ((l.dequeue i).openAgreement i t.node.id) :=
    mapLead_role hdequeued _
  have hlast := (hpending.within i (Or.inr (by simp [hwaiting]))).2
  obtain ⟨hagreements, hopen⟩ := hpending.openAgreement hi hwaiting t.node.id
  have hrest : ((l.dequeue i).openAgreement i t.node.id).waiting = rest :=
    Leadership.dequeue_waiting hwaiting
  have hpends : ∀ l', ((t.mapLead (·.dequeue i)).mapLead
      (·.openAgreement i t.node.id)).node.role = .leader l' →
        l'.Pending start t.node.commitIndex t.node.log.lastIndex := by
    intro l' hl'
    obtain rfl := Role.leader.inj (hopened.symm.trans hl')
    exact hopen
  rw [startAgreement_of_leader hdequeued (hpending.agreements_eq_nil hi hwaiting)]
  split
  · constructor
    · apply commitThrough_pends_of_lt hpends
      rw [commitThrough_commitIndex]
      change t.node.commitIndex < max t.node.commitIndex (min i t.node.log.lastIndex)
      lia
    · intro l' hl'
      obtain ⟨lead, hlead, rfl⟩ := Role.of_mapLead hl'
      obtain rfl := Role.leader.inj (hopened.symm.trans hlead)
      exact hrest
  · rename_i hshort
    constructor
    · intro l' hl'
      obtain rfl := Role.leader.inj (hopened.symm.trans hl')
      refine ⟨hopen, ?_⟩
      intro a ha
      rw [hagreements, List.mem_singleton] at ha
      rw [ha]
      exact hshort
    · intro l' hl'
      obtain rfl := Role.leader.inj (hopened.symm.trans hl')
      exact hrest

/-- Going through the waiting indices puts the queue in order. -/
theorem resumeFrom_queues {is : List LogIndex} (h : t.node.Pends start)
    (hwaiting : ∀ l, t.node.role = .leader l → l.waiting = is) :
    (resumeFrom is t).node.Queues start := by
  -- `Pends` carries the induction: the queue is in order only where the loop stops.
  induction is generalizing t with
  | nil =>
      intro l hl
      obtain ⟨hpending, hundecided⟩ := h l hl
      refine ⟨⟨hpending, ?_⟩, hundecided⟩
      rw [hwaiting l hl]
      intro i hi
      cases hi
  | cons i rest ih =>
      have hsteps : t.AnySteps (resumeFrom (i :: rest) t) := resumeFrom_steps fun _ _ => trivial
      by_cases hleads : t.node.isLeader
      case neg =>
        apply Node.queues_of_not_leader
        rwa [Node.standing_isLeader hsteps.standing]
      obtain ⟨l, hrole⟩ := Node.exists_lead hleads
      obtain ⟨hpending, hundecided⟩ := h l hrole
      have hfirst : l.waiting = i :: rest := hwaiting l hrole
      have hrange := hpending.within i (Or.inr (by simp [hfirst]))
      have hprev : i.prev = i - 1 := LogIndex.prev_of_nonneg (by lia)
      unfold resumeFrom
      split
      · rename_i hblocked
        intro l' hl'
        obtain rfl := Role.leader.inj (hrole.symm.trans hl')
        refine ⟨⟨hpending, ?_⟩, hundecided⟩
        intro j hj
        rw [hfirst, List.mem_cons] at hj
        rcases hj with rfl | hj
        · lia
        · have hlater := (hpending.sorted_cons hfirst).1 j hj
          lia
      · rename_i hreached
        simp only
        split
        · rename_i hdone
          change i.prev < t.node.commitIndex at hdone
          apply ih
          · intro l' hl'
            obtain ⟨lead, hlead, rfl⟩ := Role.of_mapLead hl'
            obtain rfl := Role.leader.inj (hrole.symm.trans hlead)
            exact ⟨hpending.dequeue hfirst (by lia), hundecided⟩
          · intro l' hl'
            obtain ⟨lead, hlead, rfl⟩ := Role.of_mapLead hl'
            exact Leadership.dequeue_waiting (hwaiting lead hlead)
        · rename_i hnext
          change ¬ i.prev < t.node.commitIndex at hnext
          have hi : i = t.node.commitIndex + 1 := by lia
          obtain ⟨hpends, hrest⟩ := startAgreement_pends hi hrole hpending hfirst
          exact ih hpends hrest

theorem resumeAgreements_queues (h : t.node.Pends start) :
    t.resumeAgreements.node.Queues start := by
  unfold resumeAgreements
  split
  · rename_i lead hrole
    apply resumeFrom_queues h
    intro l hl
    rw [Role.leader.inj (hrole.symm.trans hl)]
  · rename_i hnot
    intro l hl
    exact absurd hl (hnot l)

theorem advanceCommit_queues (h : t.node.Pends start) (i : LogIndex) :
    (t.advanceCommit i).node.Queues start :=
  resumeAgreements_queues (commitThrough_pends h i)

/-- An acknowledgement that is not the deciding one leaves the queue as it is; the deciding one
commits the entry and so ends the agreement. -/
theorem acknowledge_queues (h : t.node.Queues start) (i : LogIndex) (p : PeerId) :
    (t.acknowledge i p).node.Queues start := by
  unfold acknowledge
  split
  · exact h
  rename_i a ha
  split
  · exact h
  obtain ⟨l, hrole, hfind⟩ : ∃ l, t.node.role = .leader l ∧ l.agreement? i = some a := by
    cases hrole : t.node.role with
    | leader l => exact ⟨l, rfl, by simpa [hrole, Role.lead?] using ha⟩
    | follower _ => simp [hrole, Role.lead?] at ha
    | candidate _ => simp [hrole, Role.lead?] at ha
  obtain ⟨hqueued, hundecided⟩ := h l hrole
  have hcounted : (t.mapLead (·.acknowledge i p)).node.role = .leader (l.acknowledge i p) :=
    mapLead_role hrole _
  have hkept := hqueued.acknowledge i p
  simp only
  split
  · rename_i hmajority
    -- The decided agreement is still open before the commit, so not even `Pends` holds there.
    apply resumeAgreements_queues
    apply commitThrough_pends_of_lt
    · intro l' hl'
      obtain rfl := Role.leader.inj (hcounted.symm.trans hl')
      exact hkept.toPending
    · have hrange := hqueued.range_of_agreement hfind
      rw [commitThrough_commitIndex]
      change t.node.commitIndex < max t.node.commitIndex (min i t.node.log.lastIndex)
      lia
  · rename_i hshort
    intro l' hl'
    obtain rfl := Role.leader.inj (hcounted.symm.trans hl')
    exact ⟨hkept, hundecided.acknowledge hqueued.toPending hfind hshort⟩

theorem foldl_acknowledge_queues {is : List LogIndex} (h : t.node.Queues start) (p : PeerId) :
    (is.foldl (·.acknowledge · p) t).node.Queues start := by
  induction is generalizing t with
  | nil => exact h
  | cons i rest ih => exact ih (acknowledge_queues h i p)

theorem commitCovered_queues (h : t.node.Queues start) : t.commitCovered.node.Queues start := by
  unfold commitCovered
  split
  · simp only
    split
    · exact advanceCommit_queues h.pends _
    · exact h
  · exact h

end Turn

namespace Node

variable {start : Nat} {n m : Node α}

/-- Only the agreements, the waiting indices and how far the log reaches matter. -/
theorem Queues.of_role (h : n.Queues start) {f : Leadership → Leadership}
    (hrole : m.role = n.role.mapLead f) (hagreements : ∀ l, (f l).agreements = l.agreements)
    (hwaiting : ∀ l, (f l).waiting = l.waiting) (hsize : m.clusterSize = n.clusterSize)
    (hlog : m.log = n.log) (hcommit : m.commitIndex = n.commitIndex) : m.Queues start := by
  intro l hl
  obtain ⟨lead, hlead, rfl⟩ := Role.of_mapLead (hrole.symm.trans hl)
  obtain ⟨hqueued, hundecided⟩ := h lead hlead
  have hopened : (f lead).opened = lead.opened := by
    unfold Leadership.opened
    rw [hagreements]
  rw [hsize, hlog, hcommit]
  refine ⟨⟨hqueued.toPending.congr hopened (hwaiting lead), ?_⟩, ?_⟩
  · rw [hwaiting]
    exact hqueued.blocked
  · unfold Leadership.Undecided
    rw [hagreements]
    exact hundecided

theorem record_queues (h : n.Queues start) (sender : PeerId) (context : AppendContext) :
    (n.idle.record sender context).node.Queues start := by
  unfold Turn.record
  split
  · exact h.of_role rfl (fun _ => rfl) (fun _ => rfl) rfl rfl rfl
  · exact h

theorem appendAccepted_queues (h : n.Queues start) (sender : PeerId) (context : AppendContext) :
    (appendAccepted n.idle sender context).node.Queues start := by
  have hrecord := record_queues h sender context
  rcases appendAccepted_cases n.idle sender context with ⟨lead, -, hturn⟩ | hturn
  · rw [hturn]
    exact Turn.commitCovered_queues (Turn.foldl_acknowledge_queues hrecord sender)
  · rw [hturn]
    exact hrecord

/-- A command that is stored waits behind all others. -/
theorem stored_pends (h : n.Queues start) (command : α) :
    (n.stored command).node.Pends start := by
  intro l hl
  obtain ⟨lead, hlead, rfl⟩ := Role.of_mapLead hl
  obtain ⟨hqueued, hundecided⟩ := h lead hlead
  refine ⟨?_, hundecided⟩
  have hlast : Log.lastIndex (n.log ++ [⟨n.term, command⟩]) = n.log.lastIndex + 1 := by
    rw [Log.lastIndex_append_one]
    unfold Log.lastIndex LogIndex.lastOf
    lia
  change (lead.enqueue (Log.lastIndex (n.log ++ [⟨n.term, command⟩]))).Pending start n.commitIndex
    (Log.lastIndex (n.log ++ [⟨n.term, command⟩]))
  rw [hlast]
  exact hqueued.toPending.enqueue

/-- The log length with which a node came to lead, after an event: that of its log if it came to
lead in the event, and otherwise what it was before. -/
def ledFromAfter (n : Node α) (start : Nat) (e : Event α) : Nat :=
  if ¬ n.isLeader ∧ (n.after e).isLeader then (n.after e).log.length else start

theorem ledFromAfter_of_leader (h : n.isLeader) (start : Nat) (e : Event α) :
    n.ledFromAfter start e = start :=
  if_neg fun hcame => hcame.1 h

/-- Whatever happens to a node, the queue that it keeps as a leader stays in order. -/
theorem Queues.after (h : n.Queues start) (e : Event α) :
    (n.after e).Queues (n.ledFromAfter start e) := by
  by_cases hlead : (n.after e).isLeader
  case neg => exact queues_of_not_leader hlead
  have hsize : (n.after e).clusterSize = n.clusterSize := (n.after_shift e).clusterSize
  have hreign : n.Reign (fun _ => True) (fun _ _ => True) e :=
    after_reign hlead (fun _ _ => trivial) fun _ _ _ _ _ _ _ _ _ _ _ => trivial
  cases hreign with
  | hold hrole hlog hcommit =>
      have hbefore : n.isLeader := by
        unfold isLeader at hlead ⊢
        rwa [← hrole]
      rw [ledFromAfter_of_leader hbefore]
      have hmap : (n.after e).role = n.role.mapLead (fun l => l) := by
        rw [hrole]
        cases n.role <;> rfl
      exact h.of_role hmap (fun _ => rfl) (fun _ => rfl) hsize hlog hcommit
  | accede hbefore hrole hlog hcommit hgen =>
      have hstart : n.ledFromAfter start e = n.log.length := by
        unfold ledFromAfter
        rw [if_pos ⟨hbefore, hlead⟩, hlog]
      intro l hl
      obtain rfl := Role.leader.inj (hrole.symm.trans hl)
      rw [hstart, hlog, hcommit]
      exact ⟨Leadership.fresh_queued _ _ _, Leadership.fresh_undecided _ _ _⟩
  | store command he hleader hsteps =>
      rw [ledFromAfter_of_leader hleader, he]
      change (n.submit command).2.node.Queues start
      unfold submit
      rw [if_pos hleader]
      exact Turn.resumeAgreements_queues (stored_pends h command)
  | count sender context reply he hleader hgen hsuccess hsteps =>
      rw [ledFromAfter_of_leader hleader]
      subst he
      change (n.appendReturned sender context (some reply)).node.Queues start
      rcases n.appendReturned_success sender context hsuccess with hturn | hnot | hturn
      · rw [hturn]
        exact h
      · exact absurd hlead hnot
      · rw [hturn]
        exact appendAccepted_queues h sender context
  | retreat sender context reply he hleader hrole hlog hcommit =>
      rw [ledFromAfter_of_leader hleader]
      exact h.of_role hrole (fun _ => rfl) (fun _ => rfl) hsize hlog hcommit

theorem fresh_queues (id : PeerId) (size : Nat) : (fresh id size : Node α).Queues start :=
  queues_of_not_leader (by simp [isLeader, fresh, Role.isLeader])

/-- The log length with which a node last came to lead in the course of events, if `start` is what
it was before them. -/
def ledFrom (n : Node α) (start : Nat) : List (Event α) → Nat
  | [] => start
  | e :: es => (n.after e).ledFrom (n.ledFromAfter start e) es

theorem Queues.afterAll (h : n.Queues start) (es : List (Event α)) :
    (n.afterAll es).Queues (n.ledFrom start es) := by
  induction es generalizing n start with
  | nil => exact h
  | cons e es ih => exact ih (h.after e)

end Node

/-- The members of a cluster keep their queues in order. -/
theorem Run.queues {rule : Rule α} {size : Nat} {c : Cluster α} {past : List (Cluster α)}
    (h : Run rule size c past) :
    ∀ (i : PeerId) (n : Node α), c.nodes[i]? = some n → ∃ start, n.Queues start := by
  refine h.invariant (P := fun c _ =>
    ∀ (i : PeerId) (n : Node α), c.nodes[i]? = some n → ∃ start, n.Queues start) ?_ ?_ ?_
  · intro i n hn
    obtain ⟨-, rfl⟩ := Cluster.fresh_node hn
    exact ⟨0, (Node.fresh_queues i size).after .start⟩
  · intro c past c' _ ih hrest i n hn
    rw [hrest.nodes] at hn
    exact ih i n hn
  · intro c past j k e c' _ ih hact _ i n hn
    rcases hact.node_cases hn with ⟨-, rfl⟩ | ⟨-, hold⟩
    · obtain ⟨start, hk⟩ := ih j k hact.node
      exact ⟨_, hk.after e⟩
    · exact ih i n hold

/-- The queue is exact. Over any run of a new node, with arbitrary messages, and whenever it leads:
agreement is sought on the entry after the commit index if the leader has stored it, and on no
other; the entries it has stored beyond that one wait, and no others do. What it has stored are the
entries from the log length on with which it came to lead. -/
theorem agreements_exact (id : PeerId) (size : Nat) (es : List (Event α)) {l : Leadership}
    (hl : ((Node.fresh id size).afterAll es).role = .leader l) :
    let n := (Node.fresh id size).afterAll es
    let start := (Node.fresh id size).ledFrom 0 es
    l.opened = (if (start : Int) ≤ n.commitIndex + 1 ∧ n.commitIndex + 1 ≤ n.log.lastIndex then
        [n.commitIndex + 1] else []) ∧
      (∀ i, i ∈ l.waiting ↔ max (start : Int) (n.commitIndex + 2) ≤ i ∧ i ≤ n.log.lastIndex) ∧
      l.waiting.Pairwise (· < ·) := by
  intro n start
  obtain ⟨hqueued, -⟩ := (Node.fresh_queues id size).afterAll es l hl
  exact ⟨hqueued.opened_eq, fun i => hqueued.mem_waiting, hqueued.sorted⟩

/-- A leader is deposed with two entries uncommitted and elected again. It has stored two more when
it learns that both others hold the old ones. -/
def oldEntries : List (Event Nat) :=
  [.start, .electionTimeout, .voteReturned 1 1 (some ⟨1, true⟩), .submit 10, .submit 20,
    .voteRequest ⟨2, 2, -1, 0⟩, .electionTimeout, .voteReturned 1 5 (some ⟨3, true⟩),
    .submit 30, .submit 40,
    .appendReturned 1 ⟨6, .heartbeat, some 1⟩ (some ⟨3, true⟩),
    .appendReturned 2 ⟨6, .heartbeat, some 1⟩ (some ⟨3, true⟩)]

/-- Until then no agreement is sought, and the new entries wait. -/
theorem agreements_exact_oldEntries :
    (∃ l, ((Node.fresh 0 3).afterAll (oldEntries.take 11)).role = .leader l ∧
      l.opened = [] ∧ ∀ i, i ∈ l.waiting ↔ 2 ≤ i ∧ i ≤ 3) ∧
    ∃ l, ((Node.fresh 0 3).afterAll oldEntries).role = .leader l ∧
      l.opened = [2] ∧ ∀ i, i ∈ l.waiting ↔ 3 ≤ i ∧ i ≤ 3 := by
  constructor
  · obtain ⟨l, hl⟩ := Node.exists_lead
      (show ((Node.fresh 0 3).afterAll (oldEntries.take 11)).isLeader by decide)
    obtain ⟨hopened, hwaiting, -⟩ := agreements_exact 0 3 (oldEntries.take 11) hl
    exact ⟨l, hl, hopened.trans (by decide), hwaiting⟩
  · obtain ⟨l, hl⟩ := Node.exists_lead
      (show ((Node.fresh 0 3).afterAll oldEntries).isLeader by decide)
    obtain ⟨hopened, hwaiting, -⟩ := agreements_exact 0 3 oldEntries hl
    exact ⟨l, hl, hopened.trans (by decide), hwaiting⟩

end Quorum
