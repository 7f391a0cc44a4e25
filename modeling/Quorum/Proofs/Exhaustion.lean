import Quorum.Proofs.Quiescence
import Mathlib.Algebra.Order.BigOperators.Group.List
import Mathlib.Algebra.Group.Action.Defs
import Mathlib.Algebra.Order.Ring.Nat

/-!
Delivery comes to an end, whatever state a cluster is in and whatever is on its way. Committing an
entry may start the next agreement, and an agreement reached at once commits an entry: `Resumes`
goes through these calls as they nest, and each of them takes an index off the queue. The work that
a cluster has ahead of it counts the deliveries that its packets and its waiting agreements can
still cause, and every delivery lowers it.
-/

namespace Quorum

variable {α : Type}

/-- The indices that wait for their predecessor to commit, if the node leads. -/
def Node.queue (n : Node α) : List LogIndex :=
  match n.role with
  | .leader l => l.waiting
  | _ => []

namespace Turn

/-- The first waiting index is taken off the queue, and agreement on it is opened. -/
def takeUp (t : Turn α) (i : LogIndex) : Turn α :=
  (t.mapLead (·.dequeue i)).mapLead (·.openAgreement i t.node.id)

/-- Every other member is asked to agree. -/
def askAll (t : Turn α) (i : LogIndex) : Turn α :=
  t.emitAll (t.node.others.filterMap (t.node.replicateCall? · i i))

/-- The agreement on an index is open and has a majority. -/
def Agreed (t : Turn α) (i : LogIndex) : Prop :=
  ∃ a, t.node.role.lead?.bind (·.agreement? i) = some a ∧ a.acks.IsMajority t.node.clusterSize

/-- Nothing waits, or the first that does waits for an entry that is not committed. -/
def Rested (t : Turn α) : Prop := ∀ i ∈ t.node.queue.head?, t.node.commitIndex < i.prev

/-- How the waiting agreements are gone through, call by call. An agreement reached at once commits
its entry, and what waits is gone through in that call already, before the caller looks at the queue
again. -/
inductive Resumes : Turn α → Turn α → Prop
  | rested {t : Turn α} (h : t.Rested) : Resumes t t
  | skip {t u : Turn α} {i : LogIndex} (hfirst : t.node.queue.head? = some i)
      (hdone : i.prev < t.node.commitIndex) (hrest : Resumes (t.mapLead (·.dequeue i)) u) :
      Resumes t u
  | ask {t u : Turn α} {i : LogIndex} (hfirst : t.node.queue.head? = some i)
      (hnext : i.prev = t.node.commitIndex) (hshort : ¬ (t.takeUp i).Agreed i)
      (hrest : Resumes ((t.takeUp i).askAll i) u) : Resumes t u
  | commit {t u v : Turn α} {i : LogIndex} (hfirst : t.node.queue.head? = some i)
      (hnext : i.prev = t.node.commitIndex) (hagreed : (t.takeUp i).Agreed i)
      (hinner : Resumes ((t.takeUp i).commitThrough i) v) (houter : Resumes v u) : Resumes t u

/-- How an index is committed, with all that this sets going. -/
def Advances (t : Turn α) (i : LogIndex) (u : Turn α) : Prop := (t.commitThrough i).Resumes u

section Recursion

variable {t u : Turn α} {i : LogIndex}

theorem queue_mapLead {f : Leadership → Leadership} (hf : ∀ l, (f l).waiting = l.waiting) :
    (t.mapLead f).node.queue = t.node.queue := by
  unfold Node.queue mapLead
  cases t.node.role with
  | leader l => exact hf l
  | follower _ => rfl
  | candidate _ => rfl

theorem queue_dequeue (i : LogIndex) :
    (t.mapLead (·.dequeue i)).node.queue = t.node.queue.erase i := by
  unfold Node.queue mapLead
  cases t.node.role with
  | leader l => rfl
  | follower _ => rfl
  | candidate _ => rfl

theorem queue_takeUp (i : LogIndex) : (t.takeUp i).node.queue = t.node.queue.erase i :=
  (queue_mapLead (f := (·.openAgreement i t.node.id)) fun _ => rfl).trans (queue_dequeue i)

theorem queue_commitThrough (i : LogIndex) : (t.commitThrough i).node.queue = t.node.queue :=
  queue_mapLead (f := (·.closeThrough _)) fun _ => rfl

theorem queue_askAll (i : LogIndex) : (t.askAll i).node.queue = t.node.queue := rfl

theorem resumeAgreements_eq (t : Turn α) : t.resumeAgreements = resumeFrom t.node.queue t := by
  unfold resumeAgreements Node.queue
  cases t.node.role with
  | leader l => rfl
  | follower _ => rfl
  | candidate _ => rfl

theorem exists_leader_of_queue (h : t.node.queue.head? = some i) :
    ∃ l, t.node.role = .leader l := by
  unfold Node.queue at h
  cases hrole : t.node.role with
  | leader l => exact ⟨l, rfl⟩
  | follower _ => simp [hrole] at h
  | candidate _ => simp [hrole] at h

end Recursion

end Turn

/-- An index that is put into a list is found there. -/
theorem exists_of_insertByIndex {β : Type} (key : β → LogIndex) (x : β) (l : List β) :
    ∃ y ∈ insertByIndex key x l, key y = key x := by
  induction l with
  | nil => exact ⟨x, by simp [insertByIndex], rfl⟩
  | cons z rest ih =>
      unfold insertByIndex
      split
      · exact ⟨x, by simp, rfl⟩
      · split
        · rename_i heq
          exact ⟨z, by simp, heq.symm⟩
        · obtain ⟨y, hy, hkey⟩ := ih
          exact ⟨y, by simp [hy], hkey⟩

theorem Leadership.exists_agreement_of_open (l : Leadership) (i : LogIndex) (p : PeerId) :
    ∃ a, (l.openAgreement i p).agreement? i = some a := by
  obtain ⟨a, ha, hindex⟩ := exists_of_insertByIndex Agreement.index ⟨i, .single p⟩ l.agreements
  refine Option.isSome_iff_exists.mp (List.find?_isSome.mpr ⟨a, ha, ?_⟩)
  simp [hindex]

namespace Turn

section Recursion

variable {t u : Turn α} {i : LogIndex}

/-- An agreement that is started has been reached at once, or everyone is asked. -/
theorem startAgreement_cases (hleader : ∃ l, t.node.role = .leader l) :
    (t.takeUp i).Agreed i ∧
        (t.mapLead (·.dequeue i)).startAgreement i = (t.takeUp i).commitThrough i ∨
      ¬ (t.takeUp i).Agreed i ∧
        (t.mapLead (·.dequeue i)).startAgreement i = (t.takeUp i).askAll i := by
  obtain ⟨l, hrole⟩ := hleader
  obtain ⟨a, ha⟩ := (l.dequeue i).exists_agreement_of_open i t.node.id
  have hopened : (t.takeUp i).node.role.lead?.bind (·.agreement? i) = some a := by
    simpa [takeUp, mapLead, hrole, Role.mapLead, Role.lead?] using ha
  have hstart : (t.mapLead (·.dequeue i)).startAgreement i =
      if a.acks.IsMajority t.node.clusterSize then (t.takeUp i).commitThrough i
      else (t.takeUp i).askAll i := by
    have hfind : ((t.mapLead (·.dequeue i)).mapLead (·.openAgreement i
        (t.mapLead (·.dequeue i)).node.id)).node.role.lead?.bind (·.agreement? i) = some a :=
      hopened
    unfold startAgreement
    simp only [hfind]
    rfl
  by_cases hmajority : a.acks.IsMajority t.node.clusterSize
  · exact Or.inl ⟨⟨a, hopened, hmajority⟩, hstart.trans (if_pos hmajority)⟩
  · refine Or.inr ⟨?_, hstart.trans (if_neg hmajority)⟩
    rintro ⟨b, hb, hreached⟩
    obtain rfl := Option.some.inj (hopened.symm.trans hb)
    exact hmajority hreached

theorem resumeAgreements_of_rested (h : t.Rested) : t.resumeAgreements = t := by
  rw [resumeAgreements_eq]
  cases hqueue : t.node.queue with
  | nil => rfl
  | cons i rest =>
      have hblocked : t.node.commitIndex < i.prev := h i (by simp [hqueue])
      simp [resumeFrom, hblocked]

/-- The loop takes the first waiting index off the queue and goes on with the rest. -/
theorem resumeAgreements_of_head (hfirst : t.node.queue.head? = some i)
    (hreached : i.prev ≤ t.node.commitIndex) :
    t.resumeAgreements =
      if i.prev < t.node.commitIndex then (t.mapLead (·.dequeue i)).resumeAgreements
      else ((t.mapLead (·.dequeue i)).startAgreement i).resumeAgreements := by
  obtain ⟨rest, hqueue⟩ : ∃ rest, t.node.queue = i :: rest := List.head?_eq_some_iff.mp hfirst
  have hdequeued : (t.mapLead (·.dequeue i)).node.queue = rest := by
    rw [queue_dequeue, hqueue, List.erase_cons_head]
  have hstarted : ((t.mapLead (·.dequeue i)).startAgreement i).node.queue = rest := by
    have htaken : (t.takeUp i).node.queue = rest := by
      rw [queue_takeUp, hqueue, List.erase_cons_head]
    rcases startAgreement_cases (i := i) (exists_leader_of_queue hfirst) with
      ⟨-, hstart⟩ | ⟨-, hstart⟩
    · rw [hstart, queue_commitThrough, htaken]
    · rw [hstart, queue_askAll, htaken]
  rw [resumeAgreements_eq, resumeAgreements_eq, resumeAgreements_eq, hdequeued, hstarted, hqueue]
  have hnot : ¬ t.node.commitIndex < i.prev := Int.not_lt.mpr hreached
  simp only [resumeFrom, hnot, if_false]
  rfl

/-- What the calls come to is settled by the state they start from. -/
theorem Resumes.eq (h : t.Resumes u) : u = t.resumeAgreements ∧ u.Rested := by
  induction h with
  | rested hrested => exact ⟨(resumeAgreements_of_rested hrested).symm, hrested⟩
  | skip hfirst hdone _ ih =>
      rw [resumeAgreements_of_head hfirst (Int.le_of_lt hdone), if_pos hdone]
      exact ih
  | ask hfirst hnext hshort _ ih =>
      rw [resumeAgreements_of_head hfirst (Int.le_of_eq hnext),
        if_neg (Int.not_lt.mpr (Int.le_of_eq hnext.symm))]
      rcases startAgreement_cases (exists_leader_of_queue hfirst) with
        ⟨hagreed, -⟩ | ⟨-, hstart⟩
      · exact absurd hagreed hshort
      · rw [hstart]
        exact ih
  | commit hfirst hnext hagreed _ _ ihinner ihouter =>
      rw [resumeAgreements_of_head hfirst (Int.le_of_eq hnext),
        if_neg (Int.not_lt.mpr (Int.le_of_eq hnext.symm))]
      rcases startAgreement_cases (exists_leader_of_queue hfirst) with
        ⟨-, hstart⟩ | ⟨hshort, -⟩
      · rw [hstart, ← ihinner.1]
        exact ⟨ihouter.1.trans (resumeAgreements_of_rested ihinner.2), ihouter.2⟩
      · exact absurd hagreed hshort

/-- The calls come to an end: each of them takes an index off the queue. -/
theorem exists_resumes (t : Turn α) : ∃ u, t.Resumes u := by
  induction hqueue : t.node.queue generalizing t with
  | nil => exact ⟨t, .rested (by simp [Rested, hqueue])⟩
  | cons i rest ih =>
      have hfirst : t.node.queue.head? = some i := by simp [hqueue]
      have htaken : (t.takeUp i).node.queue = rest := by
        rw [queue_takeUp, hqueue, List.erase_cons_head]
      rcases Int.lt_trichotomy i.prev t.node.commitIndex with hdone | hnext | hblocked
      · obtain ⟨u, hu⟩ := ih (t.mapLead (·.dequeue i))
          (by rw [queue_dequeue, hqueue, List.erase_cons_head])
        exact ⟨u, .skip hfirst hdone hu⟩
      · by_cases hagreed : (t.takeUp i).Agreed i
        · obtain ⟨v, hv⟩ := ih ((t.takeUp i).commitThrough i) (by rw [queue_commitThrough, htaken])
          exact ⟨v, .commit hfirst hnext hagreed hv (.rested hv.eq.2)⟩
        · obtain ⟨u, hu⟩ := ih ((t.takeUp i).askAll i) (by rw [queue_askAll, htaken])
          exact ⟨u, .ask hfirst hnext hagreed hu⟩
      · refine ⟨t, .rested ?_⟩
        intro j hj
        obtain rfl := Option.some.inj (hfirst.symm.trans hj)
        exact hblocked

theorem resumes_iff : t.Resumes u ↔ u = t.resumeAgreements := by
  constructor
  · exact fun h => h.eq.1
  · rintro rfl
    obtain ⟨u, hu⟩ := t.exists_resumes
    rwa [← hu.eq.1]

theorem advances_iff : t.Advances i u ↔ u = t.advanceCommit i := resumes_iff

end Recursion

end Turn

theorem Round.two_le_work (r : Round) : 2 ≤ r.work := by
  cases r with
  | heartbeat => exact Nat.le_refl 2
  | replicate agreement cursor =>
      simp only [Round.work]
      omega

/-- How many deliveries an action can still cause: those of the call that it sends out. -/
def Action.work (size : Nat) : Action α → Nat
  | .requestVote .. => 2 * size + 2
  | .appendEntries _ context _ => context.round.work
  | _ => 0

def Action.works (size : Nat) (as : List (Action α)) : Nat := (as.map (Action.work size)).sum

/-- How many deliveries a turn leaves to be caused. -/
def Turn.work (size : Nat) (t : Turn α) : Nat := t.node.work + Action.works size t.actions

namespace Action

theorem works_append (size : Nat) (as bs : List (Action α)) :
    works size (as ++ bs) = works size as + works size bs := by
  simp [works]

theorem sum_packets (size : Nat) (i : PeerId) (as : List (Action α)) :
    ((as.filterMap (Action.packet? i)).map (Packet.work size)).sum = works size as := by
  induction as with
  | nil => rfl
  | cons a rest ih =>
      unfold works at ih ⊢
      cases a <;> simp [List.filterMap_cons, Action.packet?, Packet.work, Action.work, ih]

theorem works_applyAfter (size : Nat) (i : LogIndex) (es : List (Entry α)) :
    works size (applyAfter i es) = 0 := by
  induction es generalizing i with
  | nil => rfl
  | cons e es ih => simpa [works, applyAfter, Action.work] using ih (i + 1)

/-- Calls to some of the others, all of the same weight. -/
theorem works_calls_le {size weight : Nat} {n : Node α} {call? : PeerId → Option (Action α)}
    (h : ∀ p a, call? p = some a → a.work size = weight) :
    works size (n.others.filterMap call?) ≤ n.clusterSize * weight := by
  have hcount : (n.others.filterMap call?).length ≤ n.clusterSize := by
    have hothers : n.others.length ≤ n.clusterSize := by
      simpa [Node.others] using List.length_filter_le (· ≠ n.id) (List.range n.clusterSize)
    exact Nat.le_trans (List.length_filterMap_le _ _) hothers
  have hsum : works size (n.others.filterMap call?) ≤
      ((n.others.filterMap call?).map (Action.work size)).length • weight := by
    apply List.sum_le_card_nsmul
    intro w hw
    obtain ⟨a, ha, rfl⟩ := List.mem_map.mp hw
    obtain ⟨p, -, hcall⟩ := List.mem_filterMap.mp ha
    exact Nat.le_of_eq (h p a hcall)
  rw [List.length_map, smul_eq_mul] at hsum
  exact Nat.le_trans hsum (Nat.mul_le_mul_right weight hcount)

end Action

namespace Node

variable {n : Node α} {size : Nat}

theorem work_eq (n : Node α) :
    n.work = (n.queue.map fun i => n.clusterSize * (2 * (i.toNat + 1))).sum := by
  unfold work queue
  cases n.role with
  | leader l => rfl
  | follower _ => rfl
  | candidate _ => rfl

theorem replicateCall?_work {p : PeerId} {i cursor : LogIndex} {a : Action α}
    (h : n.replicateCall? p i cursor = some a) : a.work size = 2 * (cursor.toNat + 1) := by
  obtain ⟨lead, next, -, -, rfl⟩ := appendCall?_eq_some h
  rfl

theorem works_heartbeats_le (n : Node α) (size : Nat) :
    Action.works size n.heartbeats ≤ n.clusterSize * 2 := by
  apply Action.works_calls_le
  intro p a hcall
  obtain ⟨lead, next, -, -, rfl⟩ := appendCall?_eq_some hcall
  rfl

end Node

namespace Turn

section Work

variable {t u : Turn α} {i : LogIndex} {size : Nat}

theorem work_emitAll (as : List (Action α)) :
    (t.emitAll as).work size = t.work size + Action.works size as := by
  unfold work
  rw [emitAll_node]
  change _ + Action.works size (t.actions ++ as) = _
  rw [Action.works_append]
  omega

theorem Quiet.work (h : t.Quiet) : t.work size = t.node.work := by
  have hnone : Action.works size t.actions = 0 := by
    rw [← Action.sum_packets size t.node.id, h.filterMap]
    rfl
  unfold Turn.work
  omega

theorem work_congr (hqueue : u.node.queue = t.node.queue)
    (hsize : u.node.clusterSize = t.node.clusterSize) (hactions : u.actions = t.actions) :
    u.work size = t.work size := by
  unfold work
  rw [Node.work_eq, Node.work_eq, hqueue, hsize, hactions]

theorem work_commitThrough (i : LogIndex) : (t.commitThrough i).work size = t.work size := by
  have hactions : Action.works size (t.commitThrough i).actions = Action.works size t.actions := by
    unfold commitThrough applyCommitted mapLead
    simp only [Action.works_append, Action.works_applyAfter, Nat.add_zero]
  unfold work
  rw [Node.work_eq, Node.work_eq, queue_commitThrough, hactions]
  rfl

/-- Taking the first index off the queue gives back what its agreement may have caused. -/
theorem work_dequeue (size : Nat) (hfirst : t.node.queue.head? = some i) :
    (t.mapLead (·.dequeue i)).work size + t.node.clusterSize * (2 * (i.toNat + 1)) =
      t.work size := by
  obtain ⟨rest, hqueue⟩ : ∃ rest, t.node.queue = i :: rest := List.head?_eq_some_iff.mp hfirst
  unfold work
  rw [Node.work_eq, Node.work_eq, queue_dequeue, hqueue, List.erase_cons_head, List.map_cons,
    List.sum_cons]
  change List.sum _ + Action.works size t.actions + _ = _
  have hsize : (t.mapLead (·.dequeue i)).node.clusterSize = t.node.clusterSize := rfl
  rw [hsize]
  omega

theorem work_takeUp (size : Nat) (hfirst : t.node.queue.head? = some i) :
    (t.takeUp i).work size + t.node.clusterSize * (2 * (i.toNat + 1)) = t.work size := by
  have hopened : (t.takeUp i).work size = (t.mapLead (·.dequeue i)).work size :=
    work_congr (queue_mapLead (f := (·.openAgreement i t.node.id)) fun _ => rfl) rfl rfl
  rw [hopened, work_dequeue size hfirst]

theorem work_askAll_le (size : Nat) (i : LogIndex) :
    (t.askAll i).work size ≤ t.work size + t.node.clusterSize * (2 * (i.toNat + 1)) := by
  unfold askAll
  rw [work_emitAll]
  apply Nat.add_le_add_left
  exact Action.works_calls_le fun p a hcall => Node.replicateCall?_work hcall

/-- Asking everyone costs no more than the index has weighed in the queue. -/
theorem Resumes.work_le (h : t.Resumes u) (size : Nat) : u.work size ≤ t.work size := by
  induction h with
  | rested _ => exact Nat.le_refl _
  | skip hfirst _ _ ih =>
      have htaken := work_dequeue size hfirst
      omega
  | @ask t u i hfirst _ _ _ ih =>
      have htaken := work_takeUp size hfirst
      have hasked := (t.takeUp i).work_askAll_le size i
      have hsize : (t.takeUp i).node.clusterSize = t.node.clusterSize := rfl
      rw [hsize] at hasked
      omega
  | commit hfirst _ _ _ _ ihinner ihouter =>
      have htaken := work_takeUp size hfirst
      rw [work_commitThrough] at ihinner
      omega

theorem work_advanceCommit_le (i : LogIndex) : (t.advanceCommit i).work size ≤ t.work size := by
  have hadvances : t.Advances i (t.advanceCommit i) := advances_iff.mpr rfl
  have hle := Resumes.work_le hadvances size
  rwa [work_commitThrough] at hle

theorem work_acknowledge_le (i : LogIndex) (p : PeerId) :
    (t.acknowledge i p).work size ≤ t.work size := by
  have hcounted : (t.mapLead (·.acknowledge i p)).work size = t.work size :=
    work_congr (queue_mapLead (f := (·.acknowledge i p)) fun _ => rfl) rfl rfl
  unfold acknowledge
  split
  · exact Nat.le_refl _
  · split
    · exact Nat.le_refl _
    · simp only
      split
      · rw [← hcounted]
        exact work_advanceCommit_le i
      · exact Nat.le_of_eq hcounted

theorem work_foldl_acknowledge_le (is : List LogIndex) (p : PeerId) :
    (is.foldl (·.acknowledge · p) t).work size ≤ t.work size := by
  induction is generalizing t with
  | nil => exact Nat.le_refl _
  | cons i rest ih => exact Nat.le_trans ih (work_acknowledge_le i p)

theorem work_commitCovered_le : t.commitCovered.work size ≤ t.work size := by
  unfold commitCovered
  split
  · simp only
    split
    · exact work_advanceCommit_le _
    · exact Nat.le_refl _
  · exact Nat.le_refl _

theorem work_record (sender : PeerId) (context : AppendContext) :
    (t.record sender context).work size = t.work size := by
  unfold record
  split
  · rename_i lastSent _
    exact work_congr (queue_mapLead (f := (·.recordSuccess sender lastSent)) fun _ => rfl) rfl rfl
  · rfl

end Work

end Turn

namespace Node

variable {n : Node α} {size : Nat}

theorem work_of_follower {leader : Option PeerId} (h : n.role = .follower leader) : n.work = 0 := by
  simp [work, h]

theorem work_observeTerm_le (n : Node α) (T : Term) :
    (n.idle.observeTerm T).node.work ≤ n.work := by
  by_cases hle : T ≤ n.term
  · rw [Turn.observeTerm_of_le (t := n.idle) hle]
    exact Nat.le_refl _
  · obtain ⟨leader, hrole⟩ := Turn.observeTerm_role (t := n.idle) (Nat.lt_of_not_le hle)
    rw [work_of_follower hrole]
    exact Nat.zero_le _

theorem work_answerVote_le (n : Node α) (size : Nat) (args : VoteRequest) :
    (n.answerVote args).2.work size ≤ n.work := by
  rw [(n.answerVote_quiet args).work]
  unfold answerVote
  split
  · exact Nat.le_refl _
  · simp only
    split
    · exact n.work_observeTerm_le args.term
    · exact n.work_observeTerm_le args.term

/-- Whoever follows has no agreements ahead. -/
theorem work_answerAppend_le (n : Node α) (size : Nat) (args : AppendRequest α) :
    (n.answerAppend args).2.work size ≤ n.work := by
  rw [(n.answerAppend_quiet args).work]
  rcases n.answerAppend_cases args with
    ⟨-, hturn⟩ | ⟨-, -, hturn⟩ | ⟨-, log, start, -, -, ⟨-, hturn⟩ | ⟨-, hturn⟩⟩
  · rw [hturn]
    exact Nat.le_refl _
  · have hfollower : (n.follow args).node.role = .follower (some args.leaderId) := rfl
    rw [hturn, work_of_follower hfollower]
    exact Nat.zero_le _
  · have hnone : (n.written args (log.merge start args.entries)).node.queue = [] := rfl
    rw [hturn, work_eq, Turn.queue_commitThrough, hnone]
    exact Nat.zero_le _
  · have hfollower : (n.written args (log.merge start args.entries)).applyCommitted.node.role =
        .follower (some args.leaderId) := rfl
    rw [hturn, work_of_follower hfollower]
    exact Nat.zero_le _

/-- Winning an election causes no more than a heartbeat for everyone. -/
theorem work_becomeLeader_le (n : Node α) :
    n.idle.becomeLeader.work size ≤ n.clusterSize * 2 := by
  have hnone : n.idle.becomeLeader.node.work = 0 := rfl
  have hbeats : Action.works size n.idle.becomeLeader.actions =
      Action.works size n.idle.becomeLeader.node.heartbeats := by
    unfold Turn.becomeLeader
    simp only [Turn.emit, Turn.emitAll, Turn.changeRole, Action.works_append]
    split
    · simp [Action.works, Action.work, idle]
    · simp [Action.works, Action.work, idle]
  have hle := n.idle.becomeLeader.node.works_heartbeats_le size
  have hsize : n.idle.becomeLeader.node.clusterSize = n.clusterSize := rfl
  unfold Turn.work
  rw [hnone, hbeats]
  rw [hsize] at hle
  omega

theorem work_voteReturned_le (n : Node α) (sender : PeerId) (generation : Generation)
    (reply : Option VoteReply) :
    (n.voteReturned sender generation reply).work size ≤ n.work + n.clusterSize * 2 := by
  rcases n.voteReturned_cases sender generation reply with
    hturn | ⟨r, -, ⟨-, hturn⟩ | ⟨-, -, votes, -, ⟨-, hturn⟩ | ⟨-, hturn⟩⟩⟩
  · rw [hturn, n.idle_quiet.work]
    exact Nat.le_add_right _ _
  · rw [hturn, (n.idle_quiet.observeTerm r.term).work]
    exact Nat.le_trans (n.work_observeTerm_le r.term) (Nat.le_add_right _ _)
  · rw [hturn, (idle_quiet _).work]
    exact Nat.zero_le _
  · rw [hturn]
    exact Nat.le_trans (work_becomeLeader_le _) (Nat.le_add_left _ _)

theorem work_appendAccepted_le (n : Node α) (sender : PeerId) (context : AppendContext) :
    (appendAccepted n.idle sender context).work size ≤ n.work := by
  have hrecord : (n.idle.record sender context).work size = n.work := by
    rw [Turn.work_record, n.idle_quiet.work]
    rfl
  rcases appendAccepted_cases n.idle sender context with ⟨lead, -, hturn⟩ | hturn
  · rw [hturn, ← hrecord]
    exact Nat.le_trans Turn.work_commitCovered_le (Turn.work_foldl_acknowledge_le _ sender)
  · rw [hturn, hrecord]

/-- A call that is repeated after a rejection weighs two less than the one before. -/
theorem work_appendRejected_le (n : Node α) (sender : PeerId) (round : Round) :
    (appendRejected n.idle sender round).work size + 2 ≤ n.work + round.work := by
  have hback : (n.idle.mapLead (·.recordFailure sender)).work size = n.work := by
    have hqueue : (n.idle.mapLead (·.recordFailure sender)).node.queue = n.queue :=
      Turn.queue_mapLead (f := (·.recordFailure sender)) fun _ => rfl
    rw [Turn.work_congr (t := n.idle) hqueue rfl rfl, n.idle_quiet.work]
    rfl
  unfold appendRejected
  split
  · exact Nat.add_le_add_right (Nat.le_of_eq hback) 2
  · rename_i agreement cursor
    split
    · rename_i hpos
      have hprev : cursor.prev.toNat + 1 = cursor.toNat := by
        rw [LogIndex.prev_of_nonneg (Int.le_of_lt hpos)]
        lia
      simp only
      rw [Turn.work_emitAll, hback]
      cases hcall : (n.idle.mapLead (·.recordFailure sender)).node.replicateCall? sender agreement
          cursor.prev with
      | none =>
          change n.work + 0 + 2 ≤ n.work + 2 * (cursor.toNat + 1)
          omega
      | some a =>
          have hweight : Action.works size [a] = 2 * (cursor.prev.toNat + 1) := by
            simpa [Action.works] using replicateCall?_work hcall
          change n.work + Action.works size [a] + 2 ≤ n.work + 2 * (cursor.toNat + 1)
          omega
    · rw [n.idle_quiet.work]
      exact Nat.add_le_add_left (Round.two_le_work _) n.work

theorem work_appendReturned_le (n : Node α) (size : Nat) (sender : PeerId)
    (context : AppendContext) (reply : Option AppendReply) :
    (n.appendReturned sender context reply).work size + 2 ≤ n.work + context.round.work := by
  have hround := context.round.two_le_work
  rcases n.appendReturned_cases sender context reply with
    hturn | ⟨r, -, ⟨-, hturn⟩ | ⟨-, -, -, ⟨-, hturn⟩ | ⟨-, hturn⟩⟩⟩
  · rw [hturn, n.idle_quiet.work]
    exact Nat.add_le_add_left hround n.work
  · rw [hturn, (n.idle_quiet.observeTerm r.term).work]
    exact Nat.add_le_add (n.work_observeTerm_le r.term) hround
  · rw [hturn]
    exact Nat.add_le_add (n.work_appendAccepted_le sender context) hround
  · rw [hturn]
    exact n.work_appendRejected_le sender context.round

end Node

/-- Where one of the numbers is replaced, the sum changes by the difference. -/
theorem sum_set_add {xs : List Nat} {i x : Nat} (h : xs[i]? = some x) (y : Nat) :
    (xs.set i y).sum + x = xs.sum + y := by
  induction xs generalizing i with
  | nil => simp at h
  | cons z rest ih =>
      cases i with
      | zero =>
          obtain rfl : z = x := by simpa using h
          simp only [List.set_cons_zero, List.sum_cons]
          omega
      | succ i =>
          have hrest := ih (i := i) (by simpa using h)
          simp only [List.set_cons_succ, List.sum_cons]
          omega

namespace Cluster

variable {c : Cluster α} {i : PeerId} {n : Node α}

theorem work_eq (c : Cluster α) : c.work =
    (c.packets.map (Packet.work c.nodes.length)).sum + (c.nodes.map Node.work).sum := rfl

theorem work_settle (hn : c.nodes[i]? = some n) (t : Turn α) :
    (c.settle i t).work + n.work = c.work + t.work c.nodes.length := by
  have hnodes : ((c.nodes.set i t.node).map Node.work).sum + n.work =
      (c.nodes.map Node.work).sum + t.node.work := by
    rw [List.map_set]
    exact sum_set_add (by simp [hn]) t.node.work
  have hpackets := Action.sum_packets c.nodes.length i t.actions
  rw [work_eq, work_eq]
  unfold settle Turn.work
  simp only [List.length_set, List.map_append, List.sum_append, hpackets]
  omega

theorem work_enqueue (p : Packet α) : (c.enqueue p).work = c.work + p.work c.nodes.length := by
  rw [work_eq, work_eq]
  unfold enqueue
  simp only [List.map_append, List.sum_append, List.map_cons, List.map_nil, List.sum_cons,
    List.sum_nil]
  omega

theorem work_handle_le {e : Event α} {k : Nat}
    (h : ∀ n, c.nodes[i]? = some n → (n.handle e).2.work c.nodes.length ≤ n.work + k) :
    (c.handle i e).2.work ≤ c.work + k := by
  cases hn : c.nodes[i]? with
  | none =>
      rw [handle_of_none hn]
      exact Nat.le_add_right _ _
  | some n =>
      rw [handle_of_some hn]
      have hsettled := work_settle hn (n.handle e).2
      have hle := h n hn
      simp only
      omega

/-- Every member knows how many there are. -/
def Counted (c : Cluster α) : Prop := ∀ n ∈ c.nodes, n.clusterSize = c.nodes.length

/-- A packet that is delivered leaves less work than it stands for. -/
theorem work_deliver_lt (hcount : c.Counted) (p : Packet α) :
    (c.deliver p).work < c.work + p.work c.nodes.length := by
  cases p with
  | voteRequest sender recipient generation args =>
      by_cases hreach : c.Reachable sender recipient
      · cases hn : c.nodes[recipient]? with
        | none =>
            simp only [deliver, hreach, if_true, handle_of_none hn, Packet.work]
            omega
        | some n =>
            have hsettled := work_settle hn (n.answerVote args).2
            have hle := n.work_answerVote_le c.nodes.length args
            simp only [deliver, hreach, if_true, handle_of_some hn, Node.handle, work_enqueue,
              Packet.work, settle, List.length_set] at hsettled ⊢
            omega
      · simp only [deliver, hreach, if_false, work_enqueue, Packet.work]
        omega
  | voteReply sender recipient generation reply =>
      have hle : (c.handle recipient (.voteReturned sender generation reply)).2.work ≤
          c.work + c.nodes.length * 2 := by
        apply work_handle_le
        intro n hn
        rw [← hcount n (List.mem_of_getElem? hn)]
        exact n.work_voteReturned_le sender generation reply
      simp only [deliver, Packet.work]
      omega
  | appendRequest sender recipient context args =>
      have hround := context.round.two_le_work
      by_cases hreach : c.Reachable sender recipient
      · cases hn : c.nodes[recipient]? with
        | none =>
            simp only [deliver, hreach, if_true, handle_of_none hn, Packet.work]
            omega
        | some n =>
            have hsettled := work_settle hn (n.answerAppend args).2
            have hle := n.work_answerAppend_le c.nodes.length args
            simp only [deliver, hreach, if_true, handle_of_some hn, Node.handle, work_enqueue,
              Packet.work, settle] at hsettled ⊢
            omega
      · simp only [deliver, hreach, if_false, work_enqueue, Packet.work]
        omega
  | appendReply sender recipient context reply =>
      have hround := context.round.two_le_work
      have hle : (c.handle recipient (.appendReturned sender context reply)).2.work ≤
          c.work + (context.round.work - 2) := by
        apply work_handle_le
        intro n hn
        have hreturned := n.work_appendReturned_le c.nodes.length sender context reply
        simp only [Node.handle]
        omega
      simp only [deliver, Packet.work]
      omega

theorem counted_play (hcount : c.Counted) (m : Move α) : (c.play m).Counted := by
  rcases c.play_cases m with ⟨hrest, -⟩ | ⟨i, n, e, -, hact⟩
  · unfold Counted
    rw [hrest.nodes]
    exact hcount
  · intro k hk
    rw [hact.nodes] at hk ⊢
    rw [List.length_set]
    rcases List.mem_or_eq_of_mem_set hk with hold | rfl
    · exact hcount k hold
    · rw [(n.after_shift e).clusterSize]
      exact hcount n (List.mem_of_getElem? hact.node)

theorem counted_deliverNext (hcount : c.Counted) : c.deliverNext.Counted := by
  by_cases hpackets : c.packets = []
  · have hsame : c.deliverNext = c := by simp [deliverNext, hpackets]
    rwa [hsame]
  · rw [deliverNext_eq_play c hpackets]
    exact counted_play (counted_play hcount _) _

theorem work_deliverNext_lt (hcount : c.Counted) (hpackets : c.packets ≠ []) :
    c.deliverNext.work < c.work := by
  obtain ⟨p, rest, hsplit⟩ := List.exists_cons_of_ne_nil hpackets
  have hnext : c.deliverNext = { c with packets := rest }.deliver p := by
    simp [deliverNext, hsplit]
  have hcounted : ({ c with packets := rest } : Cluster α).Counted := hcount
  have hlower := work_deliver_lt hcounted p
  have hrest : ({ c with packets := rest } : Cluster α).work =
      (rest.map (Packet.work c.nodes.length)).sum + (c.nodes.map Node.work).sum := rfl
  have hhead : c.work = ({ c with packets := rest } : Cluster α).work +
      p.work c.nodes.length := by
    rw [hrest, work_eq, hsplit, List.map_cons, List.sum_cons]
    omega
  rw [hnext, hhead]
  exact hlower

/-- As many deliveries as there is work ahead leave nothing on its way. -/
theorem deliverMany_empties (hcount : c.Counted) {k : Nat} (hk : c.work ≤ k) :
    (deliverMany k c).packets = [] := by
  induction k generalizing c with
  | zero =>
      by_cases hpackets : c.packets = []
      · exact hpackets
      · have hlower := work_deliverNext_lt hcount hpackets
        omega
  | succ k ih =>
      by_cases hpackets : c.packets = []
      · rw [deliverMany_of_nil hpackets]
        exact hpackets
      · have hnext : deliverMany (k + 1) c = deliverMany k c.deliverNext := by
          simp [deliverMany, hpackets]
        have hlower := work_deliverNext_lt hcount hpackets
        rw [hnext]
        exact ih (counted_deliverNext hcount) (by omega)

end Cluster

/-- Delivery ends. Whatever the members of a cluster keep and whatever is on its way between them,
some number of deliveries leaves nothing to be delivered, and no further ones change anything; and
within every turn the calls that commit entries and start agreements come to an end, with one
result. -/
theorem delivery_ends {c : Cluster α} (hcount : c.Counted) :
    (c.deliverAll.packets = [] ∧ ∀ k, c.work ≤ k → Cluster.deliverMany k c = c.deliverAll) ∧
      ∀ t : Turn α, (∀ u, t.Resumes u ↔ u = t.resumeAgreements) ∧
        ∀ i u, t.Advances i u ↔ u = t.advanceCommit i := by
  have hempty : c.deliverAll.packets = [] := Cluster.deliverMany_empties hcount (Nat.le_refl _)
  refine ⟨⟨hempty, ?_⟩, fun t => ⟨fun u => Turn.resumes_iff, fun i u => Turn.advances_iff⟩⟩
  intro k hk
  obtain ⟨j, rfl⟩ := Nat.exists_eq_add_of_le hk
  rw [Cluster.deliverMany_add]
  exact Cluster.deliverMany_of_nil hempty j

/-- A leader, a candidate and a follower with all kinds of packets between them, two of them twice
and some for terms and indices that nobody has got to. -/
def crowdedCluster : Cluster Nat where
  nodes :=
    [{ (Node.fresh 0 3 : Node Nat).start.node with
        term := 2, log := [⟨1, 10⟩, ⟨2, 20⟩, ⟨2, 30⟩], commitIndex := 0, lastApplied := 0,
        role := .leader ⟨[⟨3, -1⟩, ⟨1, 0⟩, ⟨3, 2⟩], [⟨7, .single 0⟩], [1, 2, 9]⟩ },
      { (Node.fresh 1 3 : Node Nat).start.node with term := 2, role := .candidate (.single 1) },
      (Node.fresh 2 3).start.node]
  applied := [[], [], []]
  packets :=
    [.appendReply 1 0 ⟨0, .replicate 1 1000000, some 1⟩ (some ⟨2, false⟩),
      .appendReply 1 0 ⟨0, .replicate 1 1000000, some 1⟩ (some ⟨2, false⟩),
      .appendReply 2 0 ⟨0, .heartbeat, some 40⟩ (some ⟨2, true⟩),
      .voteReply 2 1 0 (some ⟨2, true⟩), .voteReply 2 1 0 (some ⟨2, true⟩),
      .voteRequest 1 2 0 ⟨5, 1, -1, 0⟩,
      .appendRequest 0 1 ⟨0, .heartbeat, none⟩ ⟨2, 0, 2, some 2, [], 0⟩]
  isolated := [2]

/-- The only member of a cluster, which has three commands to agree on with itself. -/
def loneTurn : Turn Nat where
  node := { (Node.fresh 0 1 : Node Nat).start.node with
    term := 1, log := [⟨1, 10⟩, ⟨1, 20⟩, ⟨1, 30⟩], role := .leader ⟨[⟨0, -1⟩], [], [0, 1, 2]⟩ }
  actions := []

/-- The queue of packets runs empty, and the calls of the lone member commit all that it holds. -/
theorem delivery_ends_crowdedCluster :
    crowdedCluster.deliverAll.packets = [] ∧ loneTurn.Resumes loneTurn.resumeAgreements ∧
      loneTurn.resumeAgreements.node.commitIndex = 2 := by
  have hcount : crowdedCluster.Counted := by
    simp [Cluster.Counted, crowdedCluster, Node.fresh, Node.start]
  obtain ⟨⟨hempty, -⟩, hturn⟩ := delivery_ends hcount
  exact ⟨hempty, ((hturn loneTurn).1 _).mpr rfl, by decide⟩

end Quorum
