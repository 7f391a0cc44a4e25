import Quorum.Cluster
import Quorum.Proofs.Handling

/-!
Every committed entry is handed over exactly once and in order, whatever a node is sent. One event
hands over the entries between the old and the new commit index, each with the command that the
log holds there; over a whole run these numbers follow one another without a gap or a repeat.
-/

namespace Quorum

variable {α : Type}

/-- What a turn hands over to be applied, in order. -/
def Turn.applied (t : Turn α) : List (LogIndex × α) := t.actions.filterMap Action.applied?

/-- The turns of a node that handles one event after the other. -/
def Node.run (n : Node α) : List (Event α) → List (Turn α)
  | [] => []
  | e :: es => (n.handle e).2 :: (n.after e).run es

/-- All that the turns of a run hand over. -/
def appliedIn (ts : List (Turn α)) : List (LogIndex × α) := ts.flatMap Turn.applied

theorem applied_applyAfter (i : LogIndex) (es : List (Entry α)) :
    (Action.applyAfter i es).filterMap Action.applied? =
      es.mapIdx fun k e => (i + 1 + (k : Int), e.command) := by
  induction es generalizing i with
  | nil => rfl
  | cons e rest ih =>
      simp only [Action.applyAfter, List.filterMap_cons, Action.applied?, ih, List.mapIdx_cons]
      have hnumber (k : Nat) : i + 1 + 1 + (k : Int) = i + 1 + ((k + 1 : Nat) : Int) := by lia
      simp only [hnumber]
      simp

theorem Log.entryAt?_of_slice {log : Log α} {i j : LogIndex} (hi : LogIndex.absent ≤ i) {k : Nat}
    {e : Entry α} (h : (log.slice (i + 1) j)[k]? = some e) :
    log.entryAt? (i + 1 + (k : Int)) = some e := by
  unfold LogIndex.absent at hi
  unfold Log.slice at h
  rw [List.getElem?_drop, List.getElem?_take] at h
  have hpos : (i + 1 + (k : Int)).toNat = (i + 1).toNat + k := by lia
  unfold Log.entryAt?
  rw [if_pos (by lia), hpos]
  split at h
  · exact h
  · cases h

/-- A slice that ends within the log has no gaps. -/
theorem Log.length_slice {log : Log α} {i j : LogIndex} (hi : LogIndex.absent ≤ i) (hij : i ≤ j)
    (hj : j ≤ log.lastIndex) : ((log.slice (i + 1) j).length : Int) = j - i := by
  unfold LogIndex.absent at hi
  unfold Log.lastIndex LogIndex.lastOf at hj
  unfold Log.slice
  rw [List.length_drop, List.length_take]
  lia

theorem Log.slice_after (log : Log α) (i : LogIndex) : log.slice (i + 1) i = [] := by
  unfold Log.slice
  exact List.drop_eq_nil_of_le (by rw [List.length_take]; omega)

namespace Turn

theorem applied_emitAll {t : Turn α} {as : List (Action α)} (h : ∀ a ∈ as, a.applied? = none) :
    (t.emitAll as).applied = t.applied := by
  have hnone : as.filterMap Action.applied? = [] := List.filterMap_eq_nil_iff.mpr h
  simp [applied, emitAll, List.filterMap_append, hnone]

/-- A turn that has handed over the entries after `start` through the commit index, in order and
as the log holds them. -/
structure Delivers (start : LogIndex) (t : Turn α) : Prop where
  settled : t.node.lastApplied = t.node.commitIndex
  absent_le : LogIndex.absent ≤ start
  start_le : start ≤ t.node.commitIndex
  count : (t.applied.length : Int) = t.node.commitIndex - start
  entry : ∀ (k : Nat) p, t.applied[k]? = some p → p.1 = start + 1 + (k : Int) ∧
    (t.node.log.entryAt? p.1).map (·.command) = some p.2

namespace Delivers

variable {start : LogIndex} {t u : Turn α}

/-- Only what is handed over, the log and the two indices matter. -/
theorem of_eq (h : t.Delivers start) (happlied : u.applied = t.applied)
    (hlog : u.node.log = t.node.log) (hcommit : u.node.commitIndex = t.node.commitIndex)
    (hlast : u.node.lastApplied = t.node.lastApplied) : u.Delivers start where
  settled := by rw [hlast, hcommit, h.settled]
  absent_le := h.absent_le
  start_le := by rw [hcommit]; exact h.start_le
  count := by rw [happlied, hcommit]; exact h.count
  entry := by rw [happlied, hlog]; exact h.entry

theorem mapLead (h : t.Delivers start) (f : Leadership → Leadership) :
    (t.mapLead f).Delivers start :=
  h.of_eq rfl rfl rfl rfl

theorem emitCalls (h : t.Delivers start) {as : List (Action α)}
    (has : ∀ a ∈ as, a.applied? = none) : (t.emitAll as).Delivers start :=
  h.of_eq (applied_emitAll has) rfl rfl rfl

/-- Raising the commit index, if at all then within the log, hands over what lies between. -/
theorem applyThrough (h : t.Delivers start) {c : LogIndex} (hc : t.node.commitIndex ≤ c)
    (hlog : c = t.node.commitIndex ∨ c ≤ t.node.log.lastIndex) :
    (applyCommitted { t with node := { t.node with commitIndex := c } }).Delivers start := by
  have habsent : LogIndex.absent ≤ t.node.commitIndex := Int.le_trans h.absent_le h.start_le
  have hlength : ((t.node.log.slice (t.node.commitIndex + 1) c).length : Int) =
      c - t.node.commitIndex := by
    rcases hlog with rfl | hlog
    · simp [Log.slice_after]
    · exact Log.length_slice habsent hc hlog
  have hunapplied : Node.unapplied { t.node with commitIndex := c } =
      t.node.log.slice (t.node.commitIndex + 1) c := by
    simp only [Node.unapplied, h.settled, habsent, if_true]
  have happlied : (applyCommitted { t with node := { t.node with commitIndex := c } }).applied =
      t.applied ++ (t.node.log.slice (t.node.commitIndex + 1) c).mapIdx
        fun k e => (t.node.commitIndex + 1 + (k : Int), e.command) := by
    simp only [applied, applyCommitted, List.filterMap_append, applied_applyAfter]
    rw [hunapplied, h.settled]
  refine ⟨?_, h.absent_le, Int.le_trans h.start_le hc, ?_, ?_⟩
  · change t.node.lastApplied +
      ((Node.unapplied { t.node with commitIndex := c }).length : Int) = c
    rw [hunapplied, h.settled, hlength]
    lia
  · rw [happlied, List.length_append, List.length_mapIdx]
    change ((t.applied.length + (t.node.log.slice (t.node.commitIndex + 1) c).length : Nat) : Int) =
      c - start
    have := h.count
    lia
  · intro k p hp
    rw [happlied, List.getElem?_append] at hp
    split at hp
    · exact h.entry k p hp
    · rw [List.getElem?_mapIdx] at hp
      obtain ⟨e, he, rfl⟩ := Option.map_eq_some_iff.mp hp
      have hentry := Log.entryAt?_of_slice habsent he
      have hk : t.node.commitIndex + 1 + ((k - t.applied.length : Nat) : Int) =
          start + 1 + (k : Int) := by
        have := h.count
        lia
      refine ⟨hk, ?_⟩
      change (t.node.log.entryAt? _).map _ = _
      rw [hentry]
      rfl

theorem commitThrough (h : t.Delivers start) (i : LogIndex) :
    (t.commitThrough i).Delivers start := by
  refine (h.applyThrough (c := max t.node.commitIndex (min i t.node.log.lastIndex)) ?_ ?_).mapLead _
  · exact Int.le_max_left _ _
  · lia

/-- Every step in the course of commitment goes on delivering. -/
theorem step {opens : LogIndex → Prop} {acks : LogIndex → PeerId → Prop} (h : t.Delivers start)
    (hstep : t.Step opens acks u) : u.Delivers start := by
  cases hstep with
  | dequeue i => exact h.mapLead _
  | openAgreement i hi hprev => exact h.mapLead _
  | ask i hi hprev =>
      refine h.emitCalls ?_
      intro a ha
      obtain ⟨p, -, hcall⟩ := List.mem_filterMap.mp ha
      obtain ⟨_, _, _, _, rfl⟩ := Node.appendCall?_eq_some hcall
      rfl
  | acknowledge i p hp => exact h.mapLead _
  | commit i hi => exact h.commitThrough i

theorem steps (h : t.Delivers start) (hsteps : Turn.AnySteps t u) : u.Delivers start := by
  induction hsteps with
  | refl => exact h
  | tail _ hstep ih => exact ih.step hstep

/-- A commit index that has been raised lies within the log. -/
theorem within (h : t.Delivers start) (hraised : start < t.node.commitIndex) :
    t.node.commitIndex < t.node.log.length := by
  have habsent := h.absent_le
  have hcount := h.count
  unfold LogIndex.absent at habsent
  have hpos : 0 < t.applied.length := by lia
  have hlast : t.applied[t.applied.length - 1]? = some t.applied[t.applied.length - 1] :=
    List.getElem?_eq_getElem (by omega)
  obtain ⟨hindex, hcommand⟩ := h.entry _ _ hlast
  have hsame : t.applied[t.applied.length - 1].1 = (t.node.commitIndex.toNat : Int) := by
    rw [hindex]
    lia
  rw [hsame, Log.entryAt?_natCast] at hcommand
  obtain ⟨e, he, -⟩ := Option.map_eq_some_iff.mp hcommand
  have hlength := (List.getElem?_eq_some_iff.mp he).1
  lia

end Delivers

/-- A turn that has handed over nothing yet and left both indices of the node as they were. -/
structure Withholds (n : Node α) (t : Turn α) : Prop where
  applied : t.applied = []
  commitIndex : t.node.commitIndex = n.commitIndex
  lastApplied : t.node.lastApplied = n.lastApplied

namespace Withholds

variable {n : Node α} {t : Turn α}

theorem emitAll (h : t.Withholds n) {as : List (Action α)} (has : ∀ a ∈ as, a.applied? = none) :
    (t.emitAll as).Withholds n :=
  ⟨(applied_emitAll has).trans h.applied, h.commitIndex, h.lastApplied⟩

theorem emit (h : t.Withholds n) {a : Action α} (ha : a.applied? = none) :
    (t.emit a).Withholds n := by
  refine h.emitAll ?_
  intro b hb
  obtain rfl := List.mem_singleton.mp hb
  exact ha

theorem changeRole (h : t.Withholds n) (r : Role) : (t.changeRole r).Withholds n := by
  refine ⟨?_, h.commitIndex, h.lastApplied⟩
  have hquiet : ∀ a ∈ (if r.kind = t.node.role.kind then []
      else [.roleChanged r.kind] : List (Action α)), a.applied? = none := by
    intro a ha
    split at ha
    · cases ha
    · obtain rfl := List.mem_singleton.mp ha
      rfl
  exact (applied_emitAll hquiet).trans h.applied

theorem stepDown (h : t.Withholds n) : t.stepDown.Withholds n := by
  unfold Turn.stepDown
  split
  · exact h
  · refine (h.changeRole _).emitAll ?_
    simp [Action.applied?]

theorem observeTerm (h : t.Withholds n) (T : Term) : (t.observeTerm T).Withholds n := by
  unfold Turn.observeTerm
  split
  · exact h
  · exact stepDown ⟨h.applied, h.commitIndex, h.lastApplied⟩

theorem becomeLeader (h : t.Withholds n) : t.becomeLeader.Withholds n := by
  unfold Turn.becomeLeader
  refine emit (emitAll (emit (h.changeRole _) rfl) ?_) rfl
  intro a ha
  obtain ⟨_, _, hcall⟩ := Node.mem_heartbeats ha
  obtain ⟨_, _, _, _, rfl⟩ := Node.appendCall?_eq_some hcall
  rfl

/-- From here on a turn may write the log and commit. -/
theorem delivers (h : t.Withholds n) (hsettled : n.lastApplied = n.commitIndex)
    (habsent : LogIndex.absent ≤ n.commitIndex) : t.Delivers n.commitIndex where
  settled := by rw [h.lastApplied, h.commitIndex, hsettled]
  absent_le := habsent
  start_le := Int.le_of_eq h.commitIndex.symm
  count := by simp [h.applied, h.commitIndex]
  entry := by
    intro k p hp
    rw [h.applied] at hp
    cases hp

end Withholds

end Turn

namespace Node

variable {n : Node α}

theorem idle_withholds (n : Node α) : n.idle.Withholds n := ⟨rfl, rfl, rfl⟩

theorem standForElection_withholds (n : Node α) : n.standForElection.Withholds n := by
  have hvote : (idle { n with term := n.term.next, votedFor := some n.id }).Withholds n :=
    ⟨rfl, rfl, rfl⟩
  have hstand := hvote.changeRole (.candidate (.single n.id))
  unfold standForElection
  simp only
  split
  · refine Turn.Withholds.becomeLeader (Turn.Withholds.emit (hstand.emitAll ?_) rfl)
    simp [Action.applied?]
  · refine Turn.Withholds.emit (hstand.emitAll ?_) rfl
    simp [Action.applied?]

theorem answerVote_withholds (n : Node α) (args : VoteRequest) :
    (n.answerVote args).2.Withholds n := by
  have hterm := n.idle_withholds.observeTerm args.term
  unfold answerVote
  split
  · exact n.idle_withholds
  · simp only
    split
    · exact ⟨hterm.applied, hterm.commitIndex, hterm.lastApplied⟩
    · exact hterm

theorem voteReturned_withholds (n : Node α) (sender : PeerId) (generation : Generation)
    (reply : Option VoteReply) : (n.voteReturned sender generation reply).Withholds n := by
  rcases n.voteReturned_cases sender generation reply with
    hturn | ⟨r, -, ⟨-, hturn⟩ | ⟨-, -, votes, -, ⟨-, hturn⟩ | ⟨-, hturn⟩⟩⟩
  · rw [hturn]
    exact n.idle_withholds
  · rw [hturn]
    exact n.idle_withholds.observeTerm r.term
  · rw [hturn]
    exact ⟨rfl, rfl, rfl⟩
  · rw [hturn]
    exact Turn.Withholds.becomeLeader ⟨rfl, rfl, rfl⟩

theorem follow_withholds (n : Node α) (args : AppendRequest α) : (n.follow args).Withholds n := by
  have hterm := n.idle_withholds.observeTerm args.term
  unfold follow
  simp only
  split
  · have hreset := hterm.emit (a := .resetElectionTimer) rfl
    exact ⟨hreset.applied, hreset.commitIndex, hreset.lastApplied⟩
  · have hdown := hterm.stepDown
    exact ⟨hdown.applied, hdown.commitIndex, hdown.lastApplied⟩

/-- Between events a node has applied exactly what it has committed. -/
structure Settled (n : Node α) : Prop where
  lastApplied : n.lastApplied = n.commitIndex
  absent_le : LogIndex.absent ≤ n.commitIndex

theorem fresh_settled (id : PeerId) (size : Nat) : (fresh id size : Node α).Settled :=
  ⟨rfl, Int.le_refl _⟩

theorem Settled.delivers (hn : n.Settled) {t : Turn α} (h : t.Withholds n) :
    t.Delivers n.commitIndex :=
  h.delivers hn.lastApplied hn.absent_le

theorem Settled.submit (hn : n.Settled) (command : α) :
    (n.submit command).2.Delivers n.commitIndex := by
  by_cases hleader : n.isLeader
  · have hstored : (n.stored command).Withholds n := ⟨rfl, rfl, rfl⟩
    exact (hn.delivers hstored).steps (submit_steps hleader command fun _ _ => trivial)
  · rw [submit_of_not_leader hleader]
    exact hn.delivers n.idle_withholds

theorem Settled.heartbeatTimeout (hn : n.Settled) :
    n.heartbeatTimeout.Delivers n.commitIndex := by
  unfold Node.heartbeatTimeout
  split
  · have hbeat : ∀ a ∈ n.heartbeats ++ [.scheduleHeartbeat], a.applied? = none := by
      intro a ha
      rcases List.mem_append.mp ha with hcall | hlast
      · obtain ⟨_, _, hcall⟩ := mem_heartbeats hcall
        obtain ⟨_, _, _, _, rfl⟩ := appendCall?_eq_some hcall
        rfl
      · obtain rfl := List.mem_singleton.mp hlast
        rfl
    exact (hn.delivers n.idle_withholds).emitCalls hbeat
  · exact hn.delivers n.idle_withholds

theorem Settled.answerAppend (hn : n.Settled) (args : AppendRequest α) :
    (n.answerAppend args).2.Delivers n.commitIndex := by
  have hfollow := n.follow_withholds args
  rcases n.answerAppend_cases args with
    ⟨-, hturn⟩ | ⟨-, -, hturn⟩ | ⟨-, log, start, -, -, hwrite⟩
  · rw [hturn]
    exact hn.delivers n.idle_withholds
  · rw [hturn]
    exact hn.delivers hfollow
  · have hwritten : (n.written args (log.merge start args.entries)).Delivers n.commitIndex :=
      hn.delivers ⟨hfollow.applied, hfollow.commitIndex, hfollow.lastApplied⟩
    rcases hwrite with ⟨-, hturn⟩ | ⟨-, hturn⟩
    · rw [hturn]
      exact hwritten.commitThrough _
    · rw [hturn]
      exact hwritten.applyThrough (Int.le_refl _) (Or.inl rfl)

theorem appendAccepted_delivers {start : LogIndex} {t : Turn α} (h : t.Delivers start)
    (sender : PeerId) (context : AppendContext) :
    (appendAccepted t sender context).Delivers start := by
  have hrecord : (t.record sender context).Delivers start := by
    unfold Turn.record
    split
    · exact h.mapLead _
    · exact h
  exact hrecord.steps (appendAccepted_steps (fun _ _ _ _ => trivial) fun _ _ => trivial)

theorem appendRejected_delivers {start : LogIndex} {t : Turn α} (h : t.Delivers start)
    (sender : PeerId) (round : Round) : (appendRejected t sender round).Delivers start := by
  unfold appendRejected
  split
  · exact h.mapLead _
  · split
    · refine (h.mapLead _).emitCalls ?_
      intro a ha
      obtain ⟨_, _, _, _, rfl⟩ := appendCall?_eq_some (Option.mem_toList.mp ha)
      rfl
    · exact h

theorem Settled.appendReturned (hn : n.Settled) (sender : PeerId) (context : AppendContext)
    (reply : Option AppendReply) :
    (n.appendReturned sender context reply).Delivers n.commitIndex := by
  have hidle := hn.delivers n.idle_withholds
  rcases n.appendReturned_cases sender context reply with
    hturn | ⟨r, -, ⟨-, hturn⟩ | ⟨-, -, -, ⟨-, hturn⟩ | ⟨-, hturn⟩⟩⟩
  · rw [hturn]
    exact hidle
  · rw [hturn]
    exact hn.delivers (n.idle_withholds.observeTerm r.term)
  · rw [hturn]
    exact appendAccepted_delivers hidle sender context
  · rw [hturn]
    exact appendRejected_delivers hidle sender context.round

/-- Whatever happens to a settled node, it hands over the entries between its old and its new
commit index. -/
theorem Settled.handle (hn : n.Settled) (e : Event α) : (n.handle e).2.Delivers n.commitIndex := by
  cases e with
  | start => exact hn.delivers ⟨rfl, rfl, rfl⟩
  | electionTimeout =>
      change n.electionTimeout.Delivers _
      unfold Node.electionTimeout
      split
      · exact hn.delivers n.idle_withholds
      · exact hn.delivers n.standForElection_withholds
  | heartbeatTimeout => exact hn.heartbeatTimeout
  | submit command => exact hn.submit command
  | voteRequest args => exact hn.delivers (n.answerVote_withholds args)
  | appendRequest args => exact hn.answerAppend args
  | voteReturned sender generation reply =>
      exact hn.delivers (n.voteReturned_withholds sender generation reply)
  | appendReturned sender context reply => exact hn.appendReturned sender context reply

theorem Settled.after (hn : n.Settled) (e : Event α) : (n.after e).Settled :=
  have h := hn.handle e
  ⟨h.settled, Int.le_trans h.absent_le h.start_le⟩

theorem Settled.run_numbers (hn : n.Settled) (es : List (Event α)) :
    ∀ (k : Nat) p, (appliedIn (n.run es))[k]? = some p → p.1 = n.commitIndex + 1 + (k : Int) := by
  induction es generalizing n with
  | nil =>
      intro k p hp
      cases hp
  | cons e es ih =>
      intro k p hp
      have hturn := hn.handle e
      have hcount := hturn.count
      change (((n.handle e).2.applied ++ appliedIn ((n.after e).run es)) : List _)[k]? = some p at hp
      rw [List.getElem?_append] at hp
      split at hp
      · exact (hturn.entry k p hp).1
      · have hlater := ih (hn.after e) _ p hp
        change p.1 = (n.handle e).2.node.commitIndex + 1 + _ at hlater
        lia

theorem Settled.run_entries (hn : n.Settled) (es : List (Event α)) :
    ∀ t ∈ n.run es, ∀ p ∈ t.applied, (t.node.log.entryAt? p.1).map (·.command) = some p.2 := by
  induction es generalizing n with
  | nil =>
      intro t ht
      cases ht
  | cons e es ih =>
      intro t ht p hp
      rcases List.mem_cons.mp ht with rfl | ht
      · obtain ⟨k, hk⟩ := List.mem_iff_getElem?.mp hp
        exact ((hn.handle e).entry k p hk).2
      · exact ih (hn.after e) t ht p hp

theorem Settled.run_counts (hn : n.Settled) (es : List (Event α)) :
    ∀ (j : Nat) t, (n.run es)[j]? = some t → t.node.lastApplied = t.node.commitIndex ∧
      ((appliedIn ((n.run es).take (j + 1))).length : Int) =
        t.node.commitIndex - n.commitIndex := by
  induction es generalizing n with
  | nil =>
      intro j t ht
      cases ht
  | cons e es ih =>
      intro j t ht
      have hturn := hn.handle e
      have hcount := hturn.count
      cases j with
      | zero =>
          obtain rfl : (n.handle e).2 = t := Option.some.inj ht
          refine ⟨hturn.settled, ?_⟩
          simpa [run, appliedIn] using hcount
      | succ j =>
          obtain ⟨hsettled, hlater⟩ := ih (hn.after e) j t ht
          refine ⟨hsettled, ?_⟩
          have hsplit : appliedIn ((n.run (e :: es)).take (j + 1 + 1)) =
              (n.handle e).2.applied ++ appliedIn (((n.after e).run es).take (j + 1)) := rfl
          change _ = t.node.commitIndex - (n.handle e).2.node.commitIndex at hlater
          rw [hsplit, List.length_append]
          lia

theorem Settled.run_commitIndex (hn : n.Settled) (es : List (Event α)) :
    (n.commitIndex :: (n.run es).map (·.node.commitIndex)).Pairwise (· ≤ ·) := by
  induction es generalizing n with
  | nil => exact List.pairwise_singleton _ _
  | cons e es ih =>
      have hle : n.commitIndex ≤ (n.after e).commitIndex := (hn.handle e).start_le
      have hrest := ih (hn.after e)
      refine List.pairwise_cons.mpr ⟨?_, hrest⟩
      intro c hc
      rcases List.mem_cons.mp hc with rfl | hc
      · exact hle
      · exact Int.le_trans hle ((List.pairwise_cons.mp hrest).1 c hc)

end Node

/-- Exactly-once delivery in order. Over any run of a new node, with arbitrary messages, the
entries handed over are numbered from zero without a gap; each comes with the command that the log
holds at its index in that turn, which writes its log before it hands anything over; after every
event as many have been handed over as are committed; and the commit index never goes back. -/
theorem applies_once_in_order (id : PeerId) (size : Nat) (es : List (Event α)) :
    let ts := (Node.fresh id size).run es
    (∀ (k : Nat) p, (appliedIn ts)[k]? = some p → p.1 = (k : Int)) ∧
    (∀ t ∈ ts, ∀ p ∈ t.applied, (t.node.log.entryAt? p.1).map (·.command) = some p.2) ∧
    (∀ (j : Nat) t, ts[j]? = some t → t.node.lastApplied = t.node.commitIndex ∧
      ((appliedIn (ts.take (j + 1))).length : Int) = t.node.lastApplied + 1) ∧
    (LogIndex.absent :: ts.map (·.node.commitIndex)).Pairwise (· ≤ ·) := by
  have hfresh : (Node.fresh id size : Node α).Settled := Node.fresh_settled id size
  have hstart : (Node.fresh id size : Node α).commitIndex = -1 := rfl
  refine ⟨?_, hfresh.run_entries es, ?_, hfresh.run_commitIndex es⟩
  · intro k p hp
    have hnumber := hfresh.run_numbers es k p hp
    lia
  · intro j t ht
    obtain ⟨hsettled, hcount⟩ := hfresh.run_counts es j t ht
    exact ⟨hsettled, by lia⟩

/-- A follower learns that its first two entries are committed. A later leader rewrites the second
of them and a third, and commits through the third. -/
def rewritings : List (Event Nat) :=
  [.start, .appendRequest ⟨2, 0, -1, none, [⟨1, 10⟩, ⟨1, 11⟩, ⟨2, 20⟩], 1⟩,
    .appendRequest ⟨3, 2, 0, some 1, [⟨3, 30⟩, ⟨3, 31⟩], 2⟩]

/-- The log was cut below the commit index. What has been handed over is not taken back, and the
third entry is handed over after it as it is then. -/
theorem applies_once_in_order_rewritings :
    let ts := (Node.fresh 1 3).run rewritings
    let n := (Node.fresh 1 3).afterAll rewritings
    n.log = [⟨1, 10⟩, ⟨3, 30⟩, ⟨3, 31⟩] ∧ appliedIn ts = [(0, 10), (1, 11), (2, 31)] ∧
      (n.log.entryAt? 2).map (·.command) = some 31 ∧ n.lastApplied = n.commitIndex ∧
      n.lastApplied = 2 ∧
      (LogIndex.absent :: ts.map (·.node.commitIndex)) = [-1, -1, 1, 2] ∧
      [(-1 : LogIndex), -1, 1, 2].Pairwise (· ≤ ·) := by
  obtain ⟨-, hentries, hcounts, hrises⟩ := applies_once_in_order 1 3 rewritings
  refine ⟨by decide, by decide, ?_, ?_, by decide, by decide, hrises⟩
  · exact hentries _ (List.getLast_mem (by decide)) (2, 31) (by decide)
  · exact (hcounts 2 _ rfl).1

end Quorum
