import Quorum.Proofs.Promptness

/-!
What a leader makes of an acceptance, in full. It records how far the member holds its log, counts
the member towards the agreement on the entry after the commit index if that entry is confirmed, and
sweeps. Nothing else is counted, and where the commit index rises the next agreement begins with the
leader's own copy.
-/

namespace Quorum

variable {α : Type}

/-- Agreement on the entry at an index is what a call was made for. -/
def Round.Seeks : Round → LogIndex → Prop
  | .heartbeat, _ => False
  | .replicate agreement _, i => agreement = i

instance (r : Round) (i : LogIndex) : Decidable (r.Seeks i) :=
  match r with
  | .heartbeat => isFalse id
  | .replicate agreement _ => inferInstanceAs (Decidable (agreement = i))

namespace Leadership

/-- The member is known to hold the leader's log through an index. -/
def Holds (l : Leadership) (p : PeerId) (i : LogIndex) : Prop := ∃ m ∈ l.matched? p, i ≤ m

instance (l : Leadership) (p : PeerId) (i : LogIndex) : Decidable (l.Holds p i) :=
  match h : l.matched? p with
  | none => isFalse (by simp [Holds, h])
  | some m => decidable_of_iff (i ≤ m) (by simp [Holds, h])

/-- An acceptance confirms an entry if it was sought with the call, or if the member is known to
hold it now. -/
def Confirms (l : Leadership) (p : PeerId) (context : AppendContext) (i : LogIndex) : Prop :=
  context.round.Seeks i ∨ (l.recorded p context).Holds p i

instance (l : Leadership) (p : PeerId) (context : AppendContext) (i : LogIndex) :
    Decidable (l.Confirms p context i) :=
  inferInstanceAs (Decidable (_ ∨ _))

/-- With an acceptance recorded and, if it confirms the entry at `i`, counted towards the agreement
on that. -/
def counted (l : Leadership) (i : LogIndex) (p : PeerId) (context : AppendContext) : Leadership :=
  if l.Confirms p context i then (l.recorded p context).acknowledge i p else l.recorded p context

instance (l : Leadership) (size : Nat) : Decidable (l.Undecided size) :=
  inferInstanceAs (Decidable (∀ a ∈ l.agreements, ¬ a.acks.IsMajority size))

variable {l m : Leadership} {i j commit last : LogIndex} {p q : PeerId} {context : AppendContext}
  {start size : Nat}

theorem recorded_agreements (l : Leadership) (p : PeerId) (context : AppendContext) :
    (l.recorded p context).agreements = l.agreements := by
  unfold recorded
  split <;> rfl

theorem recorded_cursor_congr (h : m.cursors[p]? = l.cursors[p]?) (context : AppendContext) :
    (m.recorded p context).cursors[p]? = (l.recorded p context).cursors[p]? := by
  unfold recorded
  split
  · unfold recordSuccess
    rw [List.getElem?_modify, List.getElem?_modify, h]
  · exact h

theorem opened_recorded (l : Leadership) (p : PeerId) (context : AppendContext) :
    (l.recorded p context).opened = l.opened :=
  congrArg (List.map Agreement.index) (l.recorded_agreements p context)

theorem counted_cursors (l : Leadership) (i : LogIndex) (p : PeerId) (context : AppendContext) :
    (l.counted i p context).cursors = (l.recorded p context).cursors := by
  unfold counted
  split <;> rfl

theorem counted_width (l : Leadership) (i : LogIndex) (p : PeerId) (context : AppendContext) :
    (l.counted i p context).cursors.length = l.cursors.length := by
  rw [counted_cursors, recorded_width]

theorem counted_cursor_other (hp : p ≠ q) (l : Leadership) (i : LogIndex)
    (context : AppendContext) : (l.counted i q context).cursors[p]? = l.cursors[p]? := by
  rw [counted_cursors, recorded_cursor_other hp]

theorem opened_counted (l : Leadership) (i : LogIndex) (p : PeerId) (context : AppendContext) :
    (l.counted i p context).opened = l.opened := by
  unfold counted
  split
  · rw [opened_acknowledge, opened_recorded]
  · exact l.opened_recorded p context

theorem holds_congr (h : m.cursors[p]? = l.cursors[p]?) : m.Holds p i ↔ l.Holds p i := by
  unfold Holds matched?
  rw [h]

theorem Holds.back (h : l.Holds p i) (hle : j ≤ i) : l.Holds p j := by
  obtain ⟨m, hm, hi⟩ := h
  exact ⟨m, hm, Int.le_trans hle hi⟩

/-- Nobody is known to hold less than before. -/
theorem Holds.recorded (h : l.Holds p i) (q : PeerId) (context : AppendContext) :
    (l.recorded q context).Holds p i := by
  unfold Leadership.recorded
  split
  · rename_i k _
    obtain ⟨m, hm, hle⟩ := h
    obtain ⟨cursor, hcursor, rfl⟩ := Option.map_eq_some_iff.mp hm
    have hnew : (l.recordSuccess q k).matched? p =
        some (if q = p then max cursor.matched k else cursor.matched) := by
      unfold recordSuccess matched?
      simp only [List.getElem?_modify, hcursor, Option.map_eq_map, Option.map_some]
      split <;> rfl
    refine ⟨_, hnew, ?_⟩
    split
    · exact Int.le_trans hle (Int.le_max_left _ _)
    · exact hle
  · exact h

/-- The members known to hold the log through an index, as many as the match indices count. -/
theorem exists_holders (l : Leadership) (i : LogIndex) :
    ∃ ps : List PeerId, ps.Nodup ∧ ps.length = l.matchIndices.countP (i ≤ ·) ∧
      ∀ p, p ∈ ps ↔ l.Holds p i := by
  obtain ⟨ps, hnodup, hlength, hps⟩ := exists_positions l.matchIndices (i ≤ ·)
  refine ⟨ps, hnodup, hlength, fun p => (hps p).trans ?_⟩
  unfold matchIndices Holds matched?
  rw [List.getElem?_map]
  simp only [Option.mem_def, decide_eq_true_eq]

theorem length_le_countP {ps : List PeerId} (hnodup : ps.Nodup) (h : ∀ p ∈ ps, l.Holds p i) :
    ps.length ≤ l.matchIndices.countP (i ≤ ·) := by
  obtain ⟨qs, -, hlength, hqs⟩ := l.exists_holders i
  rw [← hlength]
  exact (List.subperm_of_subset hnodup fun p hp => (hqs p).mpr (h p hp)).length_le

/-- Without an agreement on an index no acknowledgement of it counts. -/
theorem acknowledge_of_not_opened (h : i ∉ l.opened) (p : PeerId) : l.acknowledge i p = l := by
  have hother : ∀ a ∈ l.agreements,
      (if a.index = i then { a with acks := a.acks.add p } else a) = a := by
    intro a ha
    refine if_neg fun hindex => h ?_
    rw [← hindex]
    exact List.mem_map_of_mem ha
  unfold acknowledge
  rw [List.map_congr_left hother, List.map_id']

/-- Nor does a second one of the same member. -/
theorem Pending.acknowledge_of_mem (h : l.Pending start commit last) {a : Agreement}
    (ha : a ∈ l.agreements) (hp : p ∈ a.acks.peers) (i : LogIndex) : l.acknowledge i p = l := by
  have hsame : ∀ b ∈ l.agreements,
      (if b.index = i then { b with acks := b.acks.add p } else b) = b := by
    intro b hb
    obtain rfl := h.agreement_unique ha hb
    split
    · rw [Tally.add_of_mem hp]
    · rfl
  unfold acknowledge
  rw [List.map_congr_left hsame, List.map_id']

theorem not_opened_of_agreement? (h : l.agreement? i = none) : i ∉ l.opened := by
  intro hi
  obtain ⟨a, ha, hindex⟩ := List.mem_map.mp hi
  have hnot := List.find?_eq_none.mp h a ha
  simp [hindex] at hnot

/-- The only open agreement is matched by a member that is known to hold the entry. -/
theorem agreementsMatchedBy_of_opened (hopened : l.opened = [i]) (p : PeerId) :
    l.agreementsMatchedBy p = if l.Holds p i then [i] else [] := by
  have hmap : l.agreements.map (·.index) = [i] := hopened
  unfold agreementsMatchedBy
  split
  · rename_i hnone
    have hnot : ¬ l.Holds p i := by
      rintro ⟨m, hm, -⟩
      rw [hnone] at hm
      cases hm
    rw [if_neg hnot]
  · rename_i m hm
    have hiff : l.Holds p i ↔ i ≤ m := by simp [Holds, hm]
    simp only [hmap, hiff]
    by_cases hle : i ≤ m
    · simp [hle]
    · simp [hle]

end Leadership

namespace Turn

variable {t u : Turn α} {l : Leadership} {f : Leadership → Leadership} {i : LogIndex} {p : PeerId}
  {context : AppendContext} {start : Nat}

theorem mapLead_of_eq (hl : t.node.role = .leader l) (h : f l = l) : t.mapLead f = t := by
  have hrole : t.node.role.mapLead f = t.node.role := by
    rw [hl]
    exact congrArg Role.leader h
  unfold mapLead
  rw [hrole]

/-- An acknowledgement that does not decide the agreement is counted and has no consequence. -/
theorem acknowledge_of_undecided (hl : t.node.role = .leader l) (hqueues : t.node.Queues start)
    (h : (l.acknowledge i p).Undecided t.node.clusterSize) :
    t.acknowledge i p = t.mapLead (·.acknowledge i p) := by
  have hpending := (hqueues l hl).1.toPending
  unfold acknowledge
  simp only [hl, Role.lead?, Option.bind_some]
  cases hfind : l.agreement? i with
  | none =>
      exact (mapLead_of_eq hl (Leadership.acknowledge_of_not_opened
        (Leadership.not_opened_of_agreement? hfind) p)).symm
  | some a =>
      have ha : a ∈ l.agreements := List.mem_of_find?_eq_some hfind
      simp only
      split
      · rename_i hp
        exact (mapLead_of_eq hl (hpending.acknowledge_of_mem ha hp i)).symm
      · have hcounted : ({ a with acks := a.acks.add p } : Agreement) ∈
            (l.acknowledge i p).agreements :=
          List.mem_of_find?_eq_some (Leadership.agreement?_acknowledge hfind p)
        exact if_neg (h _ hcounted)

/-- One that decides the agreement commits the entry, which is the one after the commit index. -/
theorem acknowledge_of_decided (hl : t.node.role = .leader l) (hqueues : t.node.Queues start)
    (h : ¬ (l.acknowledge i p).Undecided t.node.clusterSize) :
    t.acknowledge i p = (t.mapLead (·.acknowledge i p)).advanceCommit i ∧
      i = t.node.commitIndex + 1 ∧ i ≤ t.node.log.lastIndex := by
  obtain ⟨hqueued, hundecided⟩ := hqueues l hl
  cases hfind : l.agreement? i with
  | none =>
      rw [Leadership.acknowledge_of_not_opened (Leadership.not_opened_of_agreement? hfind)] at h
      exact absurd hundecided h
  | some a =>
      have ha : a ∈ l.agreements := List.mem_of_find?_eq_some hfind
      refine ⟨?_, hqueued.range_of_agreement hfind⟩
      have hp : p ∉ a.acks.peers := by
        intro hp
        rw [hqueued.toPending.acknowledge_of_mem ha hp] at h
        exact h hundecided
      have hmajority : (a.acks.add p).IsMajority t.node.clusterSize := by
        refine Decidable.byContradiction fun hshort => h ?_
        exact hundecided.acknowledge hqueued.toPending hfind hshort
      unfold acknowledge
      simp only [hl, Role.lead?, Option.bind_some, hfind, hp, if_false]
      exact if_pos hmajority

theorem acknowledge_of_not_opened (hl : t.node.role = .leader l) (hqueues : t.node.Queues start)
    (h : i ∉ l.opened) (p : PeerId) : t.acknowledge i p = t := by
  have hsame := Leadership.acknowledge_of_not_opened h p
  rw [acknowledge_of_undecided hl hqueues (by rw [hsame]; exact (hqueues l hl).2)]
  exact mapLead_of_eq hl hsame

theorem foldl_acknowledge_of_not_opened (hl : t.node.role = .leader l)
    (hqueues : t.node.Queues start) {is : List LogIndex} (h : ∀ i ∈ is, i ∉ l.opened)
    (p : PeerId) : is.foldl (·.acknowledge · p) t = t := by
  induction is with
  | nil => rfl
  | cons i rest ih =>
      obtain ⟨hi, hrest⟩ := List.forall_mem_cons.mp h
      rw [List.foldl_cons, acknowledge_of_not_opened hl hqueues hi]
      exact ih hrest

/-- Once an entry is committed, no acknowledgement of it counts. -/
theorem acknowledge_of_committed (hl : t.node.role = .leader l) (hqueues : t.node.Queues start)
    (hi : i ≤ t.node.commitIndex) (p : PeerId) : t.acknowledge i p = t := by
  apply acknowledge_of_not_opened hl hqueues
  intro hopened
  have hnext := (hqueues l hl).1.toPending.eq_of_opened hopened
  lia

/-- Of all that an acceptance acknowledges, only the entry after the commit index makes a
difference. -/
theorem foldl_acknowledged (hl : t.node.role = .leader l) (hqueues : t.node.Queues start)
    {r : Round} (hround : ∀ i, r.Seeks i → i ≤ t.node.commitIndex + 1) (p : PeerId) :
    (Node.acknowledged l p r).foldl (·.acknowledge · p) t =
      if r.Seeks (t.node.commitIndex + 1) ∨ l.Holds p (t.node.commitIndex + 1) then
        t.acknowledge (t.node.commitIndex + 1) p else t := by
  obtain ⟨hqueued, -⟩ := hqueues l hl
  rcases hqueued.single with hnone | hone
  · have hnot (i : LogIndex) : i ∉ l.opened := by
      rw [hnone]
      exact List.not_mem_nil
    rw [foldl_acknowledge_of_not_opened hl hqueues (fun i _ => hnot i),
      acknowledge_of_not_opened hl hqueues (hnot _), ite_self]
  · have hknown := Leadership.agreementsMatchedBy_of_opened hone p
    have hcounted : (t.acknowledge (t.node.commitIndex + 1) p).node.Queues start :=
      acknowledge_queues hqueues _ p
    have hsteps : t.AnySteps (t.acknowledge (t.node.commitIndex + 1) p) :=
      acknowledge_steps trivial fun _ _ => trivial
    cases r with
    | heartbeat =>
        change (l.agreementsMatchedBy p).foldl _ t = _
        rw [hknown]
        by_cases hholds : l.Holds p (t.node.commitIndex + 1)
        · simp [Round.Seeks, hholds]
        · simp [Round.Seeks, hholds]
    | replicate agreement cursor =>
        have hle : agreement ≤ t.node.commitIndex + 1 := hround agreement rfl
        have hseeks : (Round.replicate agreement cursor).Seeks (t.node.commitIndex + 1) ↔
            agreement = t.node.commitIndex + 1 := Iff.rfl
        change (if agreement ∈ l.agreementsMatchedBy p then l.agreementsMatchedBy p
          else l.agreementsMatchedBy p ++ [agreement]).foldl _ t = _
        rw [hknown]
        by_cases hsame : agreement = t.node.commitIndex + 1
        · subst hsame
          by_cases hholds : l.Holds p (t.node.commitIndex + 1)
          · simp [hholds]
          · simp [hseeks, hholds]
        · have hold : agreement ≤ t.node.commitIndex := by lia
          by_cases hholds : l.Holds p (t.node.commitIndex + 1)
          · obtain ⟨l', hl'⟩ := Node.exists_lead
              ((Node.standing_isLeader hsteps.standing).trans (Node.isLeader_of_lead hl))
            have hlater : (t.acknowledge (t.node.commitIndex + 1) p).acknowledge agreement p =
                t.acknowledge (t.node.commitIndex + 1) p :=
              acknowledge_of_committed hl' hcounted (Int.le_trans hold hsteps.commitIndex_le) p
            simp [hseeks, hholds, hsame, hlater]
          · have hnone : t.acknowledge agreement p = t :=
              acknowledge_of_committed hl hqueues hold p
            simp [hseeks, hholds, hsame, hnone]

/-- Agreements that nobody but the leader has acknowledged. -/
def Alone (t : Turn α) : Prop :=
  ∀ l, t.node.role = .leader l → ∀ a ∈ l.agreements, a.acks = .single t.node.id

theorem Alone.of_role (h : t.Alone) (hrole : u.node.role = t.node.role)
    (hid : u.node.id = t.node.id) : u.Alone := by
  intro l hl a ha
  rw [hid]
  exact h l (hrole.symm.trans hl) a ha

theorem Alone.startAgreement (h : t.Alone) (hsize : 2 ≤ t.node.clusterSize) (i : LogIndex) :
    (t.startAgreement i).Alone ∧ (t.startAgreement i).node.commitIndex = t.node.commitIndex ∧
      (t.startAgreement i).node.clusterSize = t.node.clusterSize := by
  have hopened : (t.mapLead (·.openAgreement i t.node.id)).Alone := by
    intro l' hl' a ha
    obtain ⟨l, hl, rfl⟩ := Role.of_mapLead hl'
    rcases mem_of_mem_insertByIndex ha with rfl | hold
    · rfl
    · exact h l hl a hold
  unfold Turn.startAgreement
  simp only
  split
  · exact ⟨hopened, rfl, rfl⟩
  · rename_i a ha
    have hshort :
        ¬ a.acks.IsMajority (t.mapLead (·.openAgreement i t.node.id)).node.clusterSize := by
      obtain ⟨l, hl, hfind⟩ := Option.bind_eq_some_iff.mp ha
      have hrole : (t.mapLead (·.openAgreement i t.node.id)).node.role = .leader l := by
        cases hcase : (t.mapLead (·.openAgreement i t.node.id)).node.role with
        | leader l' =>
            rw [hcase] at hl
            rw [Option.some.inj hl]
        | follower _ => rw [hcase] at hl; cases hl
        | candidate _ => rw [hcase] at hl; cases hl
      rw [hopened l hrole a (List.mem_of_find?_eq_some hfind)]
      intro hmajority
      change t.node.clusterSize < 1 * 2 at hmajority
      omega
    rw [if_neg hshort]
    exact ⟨hopened, rfl, rfl⟩

/-- Unless the leader is the only member, going on with what waited commits nothing. -/
theorem Alone.resumeFrom {is : List LogIndex} (h : t.Alone) (hsize : 2 ≤ t.node.clusterSize) :
    (Turn.resumeFrom is t).Alone ∧
      (Turn.resumeFrom is t).node.commitIndex = t.node.commitIndex := by
  induction is generalizing t with
  | nil => exact ⟨h, rfl⟩
  | cons i rest ih =>
      have hdequeued : (t.mapLead (·.dequeue i)).Alone := by
        intro l' hl' a ha
        obtain ⟨l, hl, rfl⟩ := Role.of_mapLead hl'
        exact h l hl a ha
      unfold Turn.resumeFrom
      split
      · exact ⟨h, rfl⟩
      · simp only
        split
        · exact ih hdequeued hsize
        · obtain ⟨hstarted, hcommit, hsame⟩ := hdequeued.startAgreement hsize i
          obtain ⟨hresumed, hstill⟩ := ih hstarted (Nat.le_trans hsize (Nat.le_of_eq hsame.symm))
          exact ⟨hresumed, hstill.trans hcommit⟩

theorem Alone.resumeAgreements (h : t.Alone) (hsize : 2 ≤ t.node.clusterSize) :
    t.resumeAgreements.Alone ∧ t.resumeAgreements.node.commitIndex = t.node.commitIndex := by
  unfold Turn.resumeAgreements
  split
  · exact h.resumeFrom hsize
  · exact ⟨h, rfl⟩

/-- A commit index that rises goes as far as it is meant to within the log. The next agreement
begins with the leader alone. -/
theorem advanceCommit_raised (hl : t.node.role = .leader l)
    (hpending : l.Pending start t.node.commitIndex t.node.log.lastIndex)
    (hsize : 2 ≤ t.node.clusterSize) (hraised : t.node.commitIndex < min i t.node.log.lastIndex) :
    (t.advanceCommit i).Alone ∧
      (t.advanceCommit i).node.commitIndex = min i t.node.log.lastIndex := by
  have hmax : (t.commitThrough i).node.commitIndex = min i t.node.log.lastIndex := by
    rw [commitThrough_commitIndex]
    exact Int.max_eq_right (Int.le_of_lt hraised)
  have hclosed : (t.commitThrough i).Alone := by
    intro l' hl' a ha
    obtain ⟨lead, hlead, rfl⟩ := Role.of_mapLead hl'
    obtain rfl := Role.leader.inj (hl.symm.trans hlead)
    rw [← commitThrough_commitIndex, hmax, hpending.closeThrough_eq_nil hraised] at ha
    cases ha
  obtain ⟨hresumed, hstill⟩ := hclosed.resumeAgreements hsize
  exact ⟨hresumed, hstill.trans hmax⟩

/-- Where the queue is in order there is nothing to go on with. -/
theorem resumeAgreements_of_queues (hl : t.node.role = .leader l)
    (hqueued : l.Queued start t.node.commitIndex t.node.log.lastIndex) :
    t.resumeAgreements = t := by
  unfold resumeAgreements
  simp only [hl]
  cases hwaiting : l.waiting with
  | nil => rfl
  | cons i rest =>
      have hblocked := hqueued.blocked i (by simp [hwaiting])
      have hprev : t.node.commitIndex < i.prev := by
        unfold LogIndex.prev LogIndex.absent
        split <;> lia
      unfold resumeFrom
      exact if_pos hprev

/-- One that does not rise leaves all as it is. -/
theorem advanceCommit_of_le (hl : t.node.role = .leader l)
    (hqueued : l.Queued start t.node.commitIndex t.node.log.lastIndex)
    (hle : min i t.node.log.lastIndex ≤ t.node.commitIndex) :
    (t.advanceCommit i).node.role = .leader l ∧
      (t.advanceCommit i).node.commitIndex = t.node.commitIndex := by
  have hmax : (t.commitThrough i).node.commitIndex = t.node.commitIndex := by
    rw [commitThrough_commitIndex]
    exact Int.max_eq_left hle
  have hopen : l.closeThrough t.node.commitIndex = l := by
    have hall : l.agreements.filter (t.node.commitIndex < ·.index) = l.agreements := by
      apply List.filter_eq_self.mpr
      intro a ha
      have hindex := hqueued.toPending.eq_of_opened (List.mem_map_of_mem ha)
      rw [decide_eq_true_eq]
      lia
    unfold Leadership.closeThrough
    rw [hall]
  have hrole : (t.commitThrough i).node.role = .leader l := by
    change t.node.role.mapLead (·.closeThrough (t.commitThrough i).node.commitIndex) = _
    rw [hmax, hl]
    exact congrArg Role.leader hopen
  have hsame : (t.advanceCommit i) = t.commitThrough i :=
    resumeAgreements_of_queues hrole (by rw [hmax]; exact hqueued)
  rw [hsame]
  exact ⟨hrole, hmax⟩

/-- The sweep goes exactly as far as half of the members are known to hold the log. -/
theorem commitCovered_effect (hl : t.node.role = .leader l) (hqueues : t.node.Queues start)
    (hsize : 2 ≤ t.node.clusterSize) {v : LogIndex}
    (hv : LogIndex.kthLargest? t.node.half l.matchIndices = some v) :
    t.commitCovered.node.commitIndex = max t.node.commitIndex (min v t.node.log.lastIndex) ∧
      (min v t.node.log.lastIndex ≤ t.node.commitIndex → t.commitCovered.node.role = .leader l) ∧
      (t.node.commitIndex < min v t.node.log.lastIndex → t.commitCovered.Alone) := by
  have hqueued := (hqueues l hl).1
  rw [commitCovered_eq hl hv (by omega)]
  by_cases hraised : t.node.commitIndex < min v t.node.log.lastIndex
  · obtain ⟨halone, hcommit⟩ := advanceCommit_raised hl hqueued.toPending hsize hraised
    rw [if_pos (by lia)]
    refine ⟨hcommit.trans (by lia), fun hle => ?_, fun _ => halone⟩
    exact absurd hraised (Int.not_lt.mpr hle)
  · have hle : min v t.node.log.lastIndex ≤ t.node.commitIndex := Int.not_lt.mp hraised
    have hmax : max t.node.commitIndex (min v t.node.log.lastIndex) = t.node.commitIndex :=
      Int.max_eq_left hle
    obtain ⟨hrole, hcommit⟩ := advanceCommit_of_le hl hqueued hle
    rw [hmax]
    split
    · exact ⟨hcommit, fun _ => hrole, fun h => absurd h hraised⟩
    · exact ⟨rfl, fun _ => hl, fun h => absurd h hraised⟩

end Turn

namespace Node

variable {n : Node α} {l : Leadership} {p : PeerId} {context : AppendContext} {start : Nat}

/-- The node with `l` for what it keeps as a leader. -/
def leading (n : Node α) (l : Leadership) : Node α := { n with role := .leader l }

theorem mapLead_of_leader (hl : n.role = .leader l) (f : Leadership → Leadership) :
    n.idle.mapLead f = (n.leading (f l)).idle := by
  change idle { n with role := n.role.mapLead f } = _
  rw [hl]
  rfl

theorem record_of_leader (hl : n.role = .leader l) (p : PeerId) (context : AppendContext) :
    n.idle.record p context = (n.leading (l.recorded p context)).idle := by
  unfold Turn.record Leadership.recorded
  cases context.lastSent with
  | some k => exact mapLead_of_leader hl _
  | none =>
      unfold leading
      rw [← hl]

theorem recorded_queues (hl : n.role = .leader l) (hqueues : n.Queues start) (p : PeerId)
    (context : AppendContext) : (n.leading (l.recorded p context)).Queues start := by
  have hrecord := record_queues hqueues p context
  rwa [record_of_leader hl] at hrecord

/-- A turn of a leader that has recorded and counted an acceptance. -/
def tallied (n : Node α) (l : Leadership) (p : PeerId) (context : AppendContext) : Turn α :=
  let t := (n.leading (l.recorded p context)).idle
  if l.Confirms p context (n.commitIndex + 1) then t.acknowledge (n.commitIndex + 1) p else t

/-- An acceptance is counted towards the agreement on the entry after the commit index, and nothing
else happens before the sweep. -/
theorem appendAccepted_eq (hl : n.role = .leader l) (hqueues : n.Queues start)
    (hround : ∀ i, context.round.Seeks i → i ≤ n.commitIndex + 1) (p : PeerId) :
    appendAccepted n.idle p context = (n.tallied l p context).commitCovered := by
  have hqueues₁ := recorded_queues hl hqueues p context
  have hl₁ := record_role hl p context
  have hcount := Turn.foldl_acknowledged (t := (n.leading (l.recorded p context)).idle) rfl
    hqueues₁ hround p
  rw [appendAccepted_of_leader hl₁, record_of_leader hl, hcount]
  rfl

theorem tallied_queues (hl : n.role = .leader l) (hqueues : n.Queues start) (p : PeerId)
    (context : AppendContext) : (n.tallied l p context).node.Queues start := by
  have hqueues₁ := recorded_queues hl hqueues p context
  unfold tallied
  simp only
  split
  · exact Turn.acknowledge_queues hqueues₁ _ p
  · exact hqueues₁

theorem tallied_steps (n : Node α) (l : Leadership) (p : PeerId) (context : AppendContext) :
    (n.leading (l.recorded p context)).idle.AnySteps (n.tallied l p context) := by
  unfold tallied
  simp only
  split
  · exact Turn.acknowledge_steps trivial fun _ _ => trivial
  · exact .refl

/-- A count that decides nothing has no consequence. -/
theorem tallied_of_undecided (hl : n.role = .leader l) (hqueues : n.Queues start)
    (h : (l.counted (n.commitIndex + 1) p context).Undecided n.clusterSize) :
    n.tallied l p context = (n.leading (l.counted (n.commitIndex + 1) p context)).idle := by
  have hqueues₁ := recorded_queues hl hqueues p context
  unfold Leadership.counted at h
  unfold tallied Leadership.counted
  simp only
  split
  · rename_i hconfirms
    rw [if_pos hconfirms] at h
    rw [Turn.acknowledge_of_undecided (t := (n.leading (l.recorded p context)).idle) rfl hqueues₁ h]
    exact mapLead_of_leader rfl _
  · rfl

/-- A count that decides the agreement commits the entry. What is sought next nobody but the leader
has acknowledged. -/
theorem tallied_of_decided (hl : n.role = .leader l) (hqueues : n.Queues start)
    (hsize : 2 ≤ n.clusterSize)
    (h : ¬ (l.counted (n.commitIndex + 1) p context).Undecided n.clusterSize) :
    (n.tallied l p context).Alone ∧
      (n.tallied l p context).node.commitIndex = n.commitIndex + 1 := by
  have hqueues₁ := recorded_queues hl hqueues p context
  obtain ⟨hqueued₁, hundecided₁⟩ := hqueues₁ _ rfl
  have hconfirms : l.Confirms p context (n.commitIndex + 1) := by
    refine Decidable.byContradiction fun hnot => h ?_
    unfold Leadership.counted
    rw [if_neg hnot]
    exact hundecided₁
  unfold Leadership.counted at h
  rw [if_pos hconfirms] at h
  obtain ⟨hturn, -, hlast⟩ := Turn.acknowledge_of_decided
    (t := (n.leading (l.recorded p context)).idle) rfl hqueues₁ h
  have htally : n.tallied l p context =
      (n.leading (l.recorded p context)).idle.acknowledge (n.commitIndex + 1) p := if_pos hconfirms
  have hlast : n.commitIndex + 1 ≤ n.log.lastIndex := hlast
  have hmin : min (n.commitIndex + 1) n.log.lastIndex = n.commitIndex + 1 := Int.min_eq_left hlast
  have hraised : n.commitIndex < min (n.commitIndex + 1) n.log.lastIndex := by lia
  obtain ⟨halone, hcommit⟩ := Turn.advanceCommit_raised (i := n.commitIndex + 1)
    (t := (n.leading ((l.recorded p context).acknowledge (n.commitIndex + 1) p)).idle) rfl
    (hqueued₁.acknowledge _ p).toPending hsize hraised
  rw [htally, hturn, mapLead_of_leader rfl]
  exact ⟨halone, hcommit.trans hmin⟩

/-- How far a leader has committed that has counted an acceptance and is left with `l`. -/
def reached (n : Node α) (l : Leadership) : LogIndex :=
  if l.Undecided n.clusterSize then n.commitIndex else n.commitIndex + 1

/-- What an acceptance comes to. The commit index goes on by one if that decides the agreement, and
as far as half of the members are known to hold the log. If it stays, the acceptance is counted
towards the agreement, and otherwise nobody but the leader has acknowledged what is sought next. -/
theorem appendAccepted_effect (hl : n.role = .leader l) (hqueues : n.Queues start)
    (hsize : 2 ≤ n.clusterSize)
    (hround : ∀ i, context.round.Seeks i → i ≤ n.commitIndex + 1) {v : LogIndex}
    (hv : LogIndex.kthLargest? n.half (l.recorded p context).matchIndices = some v) :
    let k := l.counted (n.commitIndex + 1) p context
    let u := appendAccepted n.idle p context
    u.node.commitIndex = max (n.reached k) (min v n.log.lastIndex) ∧
      (u.node.commitIndex = n.commitIndex → u.node.role = .leader k) ∧
      (n.commitIndex < u.node.commitIndex → u.Alone) := by
  intro k u
  have hturn : u = (n.tallied l p context).commitCovered := appendAccepted_eq hl hqueues hround p
  have hqueues₁ := tallied_queues hl hqueues p context
  by_cases h : k.Undecided n.clusterSize
  · have hreached : n.reached k = n.commitIndex := if_pos h
    have hmatches : k.matchIndices = (l.recorded p context).matchIndices :=
      Leadership.matchIndices_congr (l.counted_cursors _ p context)
    rw [tallied_of_undecided hl hqueues h] at hturn hqueues₁
    obtain ⟨hcommit, hrole, halone⟩ := Turn.commitCovered_effect (t := (n.leading k).idle) rfl
      hqueues₁ hsize (by rw [hmatches]; exact hv)
    rw [← hturn] at hcommit hrole halone
    change u.node.commitIndex = max n.commitIndex (min v n.log.lastIndex) at hcommit
    rw [hreached]
    refine ⟨hcommit, fun hsame => hrole ?_, fun hraised => halone ?_⟩
    · change min v n.log.lastIndex ≤ n.commitIndex
      lia
    · change n.commitIndex < min v n.log.lastIndex
      lia
  · have hreached : n.reached k = n.commitIndex + 1 := if_neg h
    obtain ⟨halone₁, hcommit₁⟩ := tallied_of_decided hl hqueues hsize h
    have hstanding := (n.tallied_steps l p context).standing
    have hlog : (n.tallied l p context).node.log = n.log := (standing_log hstanding).trans rfl
    have hsize₁ : (n.tallied l p context).node.clusterSize = n.clusterSize :=
      (SameOffice.of_standing hstanding).clusterSize.trans rfl
    obtain ⟨l₁, hl₁⟩ := exists_lead ((standing_isLeader hstanding).trans rfl)
    have hmatches := Leadership.matchIndices_congr (standing_cursors hstanding hl₁ rfl)
    obtain ⟨hcommit, hrole, halone⟩ := Turn.commitCovered_effect hl₁ hqueues₁
      (by rw [hsize₁]; exact hsize) (by rw [hmatches, half_congr hsize₁]; exact hv)
    have hsweep : (n.tallied l p context).AnySteps (n.tallied l p context).commitCovered :=
      Turn.commitCovered_steps fun _ _ => trivial
    rw [← hturn] at hcommit hrole halone hsweep
    rw [hcommit₁, hlog] at hcommit hrole halone
    rw [hreached]
    refine ⟨hcommit, fun hsame => by lia, fun _ => ?_⟩
    by_cases hraised : n.commitIndex + 1 < min v n.log.lastIndex
    · exact halone hraised
    · exact halone₁.of_role ((hrole (Int.not_lt.mp hraised)).trans hl₁.symm)
        (standing_id hsweep.standing)

/-- An acceptance in the present generation counts. -/
theorem appendReturned_accepted (hleader : n.isLeader) (p : PeerId) {context : AppendContext}
    {r : AppendReply} (hterm : r.term ≤ n.term) (haccepted : r.success = true)
    (hgen : context.generation = n.generation) :
    n.appendReturned p context (some r) = appendAccepted n.idle p context := by
  have hsame : n.idle.observeTerm r.term = n.idle := Turn.observeTerm_of_le hterm
  have hcounts : ¬ (context.generation ≠ n.idle.node.generation ∨ ¬ n.idle.node.isLeader) :=
    fun h => h.elim (fun hne => hne hgen) (fun hnot => hnot hleader)
  simp only [appendReturned, hsame, hcounts, haccepted, if_false, if_true]

end Node

end Quorum
