import Quorum.Node.Event
import Mathlib.Logic.Relation

/-!
The course of commitment. Committing entries, opening, resuming and acknowledging agreements go
through the same few steps, which `Turn.Step` names; what every step keeps, all of them keep. Of a
node they move the commit index with what has been applied, and the agreements of a leader.
`Node.standing` is the rest.
-/

namespace Quorum

variable {α : Type}

/-- A role without the agreements of a leader. Its cursors stay. -/
def Role.bare : Role → Role
  | .leader l => .leader { l with agreements := [], waiting := [] }
  | r => r

/-- A node with its progress of commitment blanked out. -/
def Node.standing (n : Node α) : Node α :=
  { n with commitIndex := LogIndex.absent, lastApplied := LogIndex.absent, role := n.role.bare }

namespace Role

theorem bare_mapLead {f : Leadership → Leadership} (hf : ∀ l, (f l).cursors = l.cursors)
    (r : Role) : (r.mapLead f).bare = r.bare := by
  cases r with
  | leader l => simp [mapLead, bare, hf l]
  | follower _ => rfl
  | candidate _ => rfl

@[simp] theorem kind_bare (r : Role) : r.bare.kind = r.kind := by cases r <;> rfl

theorem isLeader_bare (r : Role) : r.bare.isLeader = r.isLeader := by cases r <;> rfl

/-- Whoever leads after a change of what leaders keep led before. -/
theorem of_mapLead {f : Leadership → Leadership} {r : Role} {lead : Leadership}
    (h : r.mapLead f = .leader lead) : ∃ l, r = .leader l ∧ lead = f l := by
  cases r with
  | leader l => exact ⟨l, rfl, (Role.leader.inj h).symm⟩
  | follower _ => cases h
  | candidate _ => cases h

end Role

namespace Node

variable {n m : Node α}

theorem standing_log (h : n.standing = m.standing) : n.log = m.log := by
  simpa [standing] using congrArg Node.log h

theorem standing_term (h : n.standing = m.standing) : n.term = m.term := by
  simpa [standing] using congrArg Node.term h

theorem standing_id (h : n.standing = m.standing) : n.id = m.id := by
  simpa [standing] using congrArg Node.id h

theorem standing_generation (h : n.standing = m.standing) : n.generation = m.generation := by
  simpa [standing] using congrArg Node.generation h

theorem standing_role (h : n.standing = m.standing) : n.role.bare = m.role.bare :=
  congrArg (fun s : Node α => s.role) h

theorem standing_isLeader (h : n.standing = m.standing) : n.isLeader = m.isLeader := by
  unfold isLeader
  rw [← n.role.isLeader_bare, ← m.role.isLeader_bare, standing_role h]

/-- A leader commits what a majority has acknowledged, or what enough of the cluster is known to
hold. -/
def CanCommit (n : Node α) (i : LogIndex) : Prop :=
  ∃ l, n.role = .leader l ∧
    ((∃ a, l.agreement? i = some a ∧ a.acks.IsMajority n.clusterSize) ∨
      n.commitIndex < i ∧ i = n.coveredIndex l)

/-- The entry at an index waits for its predecessor to commit. -/
def Awaits (n : Node α) (i : LogIndex) : Prop := ∃ l, n.role = .leader l ∧ i ∈ l.waiting

end Node

namespace Turn

/-- One step in the course of commitment, where agreements are opened on some indices and certain
acknowledgements are counted. -/
inductive Step (opens : LogIndex → Prop) (acks : LogIndex → PeerId → Prop) (t : Turn α) :
    Turn α → Prop
  | dequeue (i : LogIndex) : Step opens acks t (t.mapLead (·.dequeue i))
  | openAgreement (i : LogIndex) (hi : opens i) (hprev : i.prev = t.node.commitIndex) :
      Step opens acks t (t.mapLead (·.openAgreement i t.node.id))
  | ask (i : LogIndex) (hi : opens i) (hprev : i.prev = t.node.commitIndex) :
      Step opens acks t (t.emitAll (t.node.others.filterMap (t.node.replicateCall? · i i)))
  | acknowledge (i : LogIndex) (p : PeerId) (hp : acks i p) :
      Step opens acks t (t.mapLead (·.acknowledge i p))
  | commit (i : LogIndex) (hi : t.node.CanCommit i) : Step opens acks t (t.commitThrough i)

abbrev Steps (opens : LogIndex → Prop) (acks : LogIndex → PeerId → Prop) :
    Turn α → Turn α → Prop :=
  Relation.ReflTransGen (Step opens acks)

/-- Steps of which nothing more is asked. -/
abbrev AnySteps : Turn α → Turn α → Prop := Steps (fun _ => True) (fun _ _ => True)

variable {opens : LogIndex → Prop} {acks : LogIndex → PeerId → Prop} {t u : Turn α}

theorem mapLead_role {l : Leadership} (hl : t.node.role = .leader l) (f : Leadership → Leadership) :
    (t.mapLead f).node.role = .leader (f l) := by
  change t.node.role.mapLead f = _
  rw [hl]
  rfl

theorem commitThrough_awaits {i j : LogIndex} (h : (t.commitThrough i).node.Awaits j) :
    t.node.Awaits j := by
  obtain ⟨l, hrole, hj⟩ := h
  obtain ⟨lead, hlead, rfl⟩ := Role.of_mapLead hrole
  exact ⟨lead, hlead, hj⟩

theorem mapLead_awaits {f : Leadership → Leadership} (hf : ∀ l, (f l).waiting ⊆ l.waiting)
    {j : LogIndex} (h : (t.mapLead f).node.Awaits j) : t.node.Awaits j := by
  obtain ⟨l, hrole, hj⟩ := h
  obtain ⟨lead, hlead, rfl⟩ := Role.of_mapLead hrole
  exact ⟨lead, hlead, hf lead hj⟩

/-- Nothing starts to wait in the course of commitment. -/
theorem Step.awaits (h : t.Step opens acks u) {j : LogIndex} (hj : u.node.Awaits j) :
    t.node.Awaits j := by
  cases h with
  | dequeue i => exact mapLead_awaits (fun l => List.erase_subset) hj
  | openAgreement i hi hprev =>
      exact mapLead_awaits (f := (·.openAgreement i t.node.id)) (fun l => List.Subset.refl _) hj
  | ask i hi hprev => exact hj
  | acknowledge i p hp =>
      exact mapLead_awaits (f := (·.acknowledge i p)) (fun l => List.Subset.refl _) hj
  | commit i hi => exact commitThrough_awaits hj

theorem Steps.awaits (h : t.Steps opens acks u) {j : LogIndex} (hj : u.node.Awaits j) :
    t.node.Awaits j := by
  induction h with
  | refl => exact hj
  | tail _ hstep ih => exact ih (hstep.awaits hj)

theorem startAgreement_steps {i : LogIndex} (hi : opens i) (hprev : i.prev = t.node.commitIndex) :
    t.Steps opens acks (t.startAgreement i) := by
  have hopen : t.Steps opens acks (t.mapLead (·.openAgreement i t.node.id)) :=
    .single (.openAgreement i hi hprev)
  unfold startAgreement
  simp only
  split
  · exact hopen
  · rename_i a ha
    split
    · rename_i hmajority
      refine hopen.tail (.commit i ?_)
      cases hrole : (t.mapLead (·.openAgreement i t.node.id)).node.role with
      | leader l =>
          rw [hrole] at ha
          exact ⟨l, hrole, Or.inl ⟨a, ha, hmajority⟩⟩
      | follower _ => rw [hrole] at ha; cases ha
      | candidate _ => rw [hrole] at ha; cases ha
    · exact hopen.tail (.ask i hi hprev)

theorem resumeFrom_steps {is : List LogIndex} (his : ∀ i ∈ is, opens i) :
    t.Steps opens acks (resumeFrom is t) := by
  induction is generalizing t with
  | nil => exact .refl
  | cons i rest ih =>
      obtain ⟨hi, hrest⟩ := List.forall_mem_cons.mp his
      have htake : t.Steps opens acks (t.mapLead (·.dequeue i)) := .single (.dequeue i)
      unfold resumeFrom
      split
      · exact .refl
      · rename_i hreached
        simp only
        split
        · exact htake.trans (ih hrest)
        · rename_i hnext
          have hprev : i.prev = (t.mapLead (·.dequeue i)).node.commitIndex :=
            Int.le_antisymm (Int.not_lt.mp hreached) (Int.not_lt.mp hnext)
          exact (htake.trans (startAgreement_steps hi hprev)).trans (ih hrest)

theorem resumeAgreements_steps (h : ∀ i, t.node.Awaits i → opens i) :
    t.Steps opens acks t.resumeAgreements := by
  unfold resumeAgreements
  split
  · rename_i l hrole
    exact resumeFrom_steps fun i hi => h i ⟨l, hrole, hi⟩
  · exact .refl

theorem advanceCommit_steps {i : LogIndex} (hi : t.node.CanCommit i)
    (h : ∀ j, t.node.Awaits j → opens j) : t.Steps opens acks (t.advanceCommit i) :=
  .trans (.single (.commit i hi)) (resumeAgreements_steps fun j hj => h j (commitThrough_awaits hj))

theorem advanceCommit_of_follower {leader : Option PeerId} (h : t.node.role = .follower leader)
    (i : LogIndex) : t.advanceCommit i = t.commitThrough i := by
  simp [advanceCommit, resumeAgreements, commitThrough, mapLead, applyCommitted, h, Role.mapLead]

end Turn

theorem Leadership.agreement?_acknowledge {l : Leadership} {i : LogIndex} {a : Agreement}
    (h : l.agreement? i = some a) (p : PeerId) :
    (l.acknowledge i p).agreement? i = some { a with acks := a.acks.add p } := by
  have hindex : a.index = i := by simpa using List.find?_some h
  have hkeep : ((fun b : Agreement => decide (b.index = i)) ∘
      fun b : Agreement => if b.index = i then { b with acks := b.acks.add p } else b) =
        fun b => decide (b.index = i) := by
    funext b
    simp only [Function.comp]
    split <;> rfl
  unfold agreement? acknowledge at *
  rw [List.find?_map, hkeep, h]
  simp [hindex]

namespace Turn

variable {opens : LogIndex → Prop} {acks : LogIndex → PeerId → Prop} {t u : Turn α}

theorem acknowledge_steps {i : LogIndex} {p : PeerId} (hp : acks i p)
    (h : ∀ j, t.node.Awaits j → opens j) : t.Steps opens acks (t.acknowledge i p) := by
  have hack : t.Step opens acks (t.mapLead (·.acknowledge i p)) := .acknowledge i p hp
  unfold acknowledge
  split
  · exact .refl
  · rename_i a ha
    split
    · exact .refl
    · simp only
      split
      · rename_i hmajority
        refine .trans (.single hack) (advanceCommit_steps ?_ fun j hj => h j (hack.awaits hj))
        cases hrole : t.node.role with
        | leader l =>
            rw [hrole] at ha
            refine ⟨l.acknowledge i p, mapLead_role hrole _, Or.inl ?_⟩
            exact ⟨_, Leadership.agreement?_acknowledge ha p, hmajority⟩
        | follower _ => rw [hrole] at ha; cases ha
        | candidate _ => rw [hrole] at ha; cases ha
      · exact .single hack

theorem foldl_acknowledge_steps {is : List LogIndex} {p : PeerId} (hp : ∀ i ∈ is, acks i p)
    (h : ∀ j, t.node.Awaits j → opens j) :
    t.Steps opens acks (is.foldl (·.acknowledge · p) t) := by
  induction is generalizing t with
  | nil => exact .refl
  | cons i rest ih =>
      obtain ⟨hi, hrest⟩ := List.forall_mem_cons.mp hp
      have hfirst : t.Steps opens acks (t.acknowledge i p) := acknowledge_steps hi h
      exact hfirst.trans (ih hrest fun j hj => h j (hfirst.awaits hj))

theorem commitCovered_steps (h : ∀ j, t.node.Awaits j → opens j) :
    t.Steps opens acks t.commitCovered := by
  unfold commitCovered
  split
  · rename_i l hrole
    simp only
    split
    · rename_i hcovered
      exact advanceCommit_steps ⟨l, hrole, Or.inr ⟨hcovered, rfl⟩⟩ h
    · exact .refl
  · exact .refl

theorem mapLead_standing (f : Leadership → Leadership) (hf : ∀ l, (f l).cursors = l.cursors)
    (t : Turn α) : (t.mapLead f).node.standing = t.node.standing := by
  simp [Node.standing, mapLead, Role.bare_mapLead hf]

@[simp] theorem emitAll_node (t : Turn α) (as : List (Action α)) :
    (t.emitAll as).node = t.node := rfl

@[simp] theorem emit_node (t : Turn α) (a : Action α) : (t.emit a).node = t.node := rfl

theorem commitThrough_standing (t : Turn α) (i : LogIndex) :
    (t.commitThrough i).node.standing = t.node.standing := by
  unfold commitThrough
  exact (mapLead_standing (·.closeThrough _) (fun _ => rfl) _).trans rfl

theorem commitThrough_commitIndex (t : Turn α) (i : LogIndex) :
    (t.commitThrough i).node.commitIndex =
      max t.node.commitIndex (min i t.node.log.lastIndex) := rfl

theorem Step.standing (h : t.Step opens acks u) : u.node.standing = t.node.standing := by
  cases h with
  | dequeue i => exact mapLead_standing (·.dequeue i) (fun _ => rfl) t
  | openAgreement i hi hprev => exact mapLead_standing (·.openAgreement i _) (fun _ => rfl) t
  | ask i hi hprev => rfl
  | acknowledge i p hp => exact mapLead_standing (·.acknowledge i p) (fun _ => rfl) t
  | commit i hi => exact commitThrough_standing t i

theorem Steps.standing (h : t.Steps opens acks u) : u.node.standing = t.node.standing := by
  induction h with
  | refl => rfl
  | tail _ hstep ih => exact hstep.standing.trans ih

theorem Step.commitIndex_le (h : t.Step opens acks u) :
    t.node.commitIndex ≤ u.node.commitIndex := by
  cases h with
  | commit i hi => exact Int.le_max_left _ _
  | _ => exact Int.le_refl _

/-- The commit index never goes back. -/
theorem Steps.commitIndex_le (h : t.Steps opens acks u) :
    t.node.commitIndex ≤ u.node.commitIndex := by
  induction h with
  | refl => exact Int.le_refl _
  | tail _ hstep ih => exact Int.le_trans ih hstep.commitIndex_le

end Turn

end Quorum
