import Quorum.Engine
import Quorum.Proofs.Emission

/-!
Timers that cannot be stopped, only outdated. Of all the timers that an event loop has armed and
that have not run out yet, one has the current epoch of its kind: an election timer, or a heartbeat
timer where the node leads. What a turn does to the timers is told by a dial, which shows the
timers that run and the role last told; the lemmas say that every turn leaves the dial as it should
be for the role that the node ends up with.
-/

namespace Quorum

variable {α : Type}

/-- What a node does not bring about itself: its timers and its start are its own. -/
def Event.fromOthers : Event α → Bool
  | .start | .electionTimeout | .heartbeatTimeout => false
  | _ => true

/-- Which timers run, and the role last told. -/
structure Dial where
  election : Bool
  heartbeat : Bool
  kind : RoleKind
  deriving DecidableEq, Repr

namespace Dial

/-- What the dial should show: a leader sends heartbeats, all others wait for an election. -/
def of (kind : RoleKind) : Dial where
  election := kind ≠ .leader
  heartbeat := kind = .leader
  kind := kind

def live (d : Dial) : Timer → Bool
  | .election => d.election
  | .heartbeat => d.heartbeat

def set (d : Dial) (runs : Bool) : Timer → Dial
  | .election => { d with election := runs }
  | .heartbeat => { d with heartbeat := runs }

/-- What an action does to the dial. -/
def obey (d : Dial) : Action α → Dial
  | .resetElectionTimer => d.set true .election
  | .cancelElectionTimer => d.set false .election
  | .scheduleHeartbeat => d.set true .heartbeat
  | .cancelHeartbeat => d.set false .heartbeat
  | .roleChanged kind => { d with kind }
  | .requestVote .. | .appendEntries .. | .apply .. => d

theorem live_set (d : Dial) (runs : Bool) (timer other : Timer) :
    (d.set runs timer).live other = if other = timer then runs else d.live other := by
  cases timer <;> cases other <;> rfl

theorem kind_set (d : Dial) (runs : Bool) (timer : Timer) : (d.set runs timer).kind = d.kind := by
  cases timer <;> rfl

end Dial

/-- An action that does not touch the dial. -/
def Action.Untimed (a : Action α) : Prop := ∀ d : Dial, d.obey a = d

theorem Action.untimed_of_applyAfter {a : Action α} {i : LogIndex} {es : List (Entry α)}
    (h : a ∈ applyAfter i es) : a.Untimed := by
  induction es generalizing i with
  | nil => cases h
  | cons e es ih =>
      rcases List.mem_cons.mp h with rfl | hrest
      · exact fun _ => rfl
      · exact ih hrest

theorem Node.untimed_of_heartbeats {n : Node α} {a : Action α} (h : a ∈ n.heartbeats) :
    a.Untimed := by
  obtain ⟨peer, -, hcall⟩ := mem_heartbeats h
  obtain ⟨_, _, -, -, rfl⟩ := appendCall?_eq_some hcall
  exact fun _ => rfl

theorem Node.untimed_of_replicateCall? {n : Node α} {peer : PeerId} {agreement cursor : LogIndex}
    {a : Action α} (h : n.replicateCall? peer agreement cursor = some a) : a.Untimed := by
  obtain ⟨_, _, -, -, rfl⟩ := appendCall?_eq_some h
  exact fun _ => rfl

theorem Dial.foldl_untimed (d : Dial) {as : List (Action α)} (h : ∀ a ∈ as, a.Untimed) :
    as.foldl obey d = d := by
  induction as with
  | nil => rfl
  | cons a as ih =>
      rw [List.foldl_cons, h a List.mem_cons_self d]
      exact ih fun b hb => h b (List.mem_cons_of_mem _ hb)

namespace Turn

variable {d : Dial} {t u : Turn α}

/-- What the dial shows after the turn's actions. -/
def dial (t : Turn α) (d : Dial) : Dial := t.actions.foldl Dial.obey d

theorem dial_emitAll (t : Turn α) (as : List (Action α)) (d : Dial) :
    (t.emitAll as).dial d = as.foldl Dial.obey (t.dial d) :=
  List.foldl_append

theorem dial_emit (t : Turn α) (a : Action α) (d : Dial) : (t.emit a).dial d = (t.dial d).obey a :=
  List.foldl_append

theorem dial_emitAll_untimed {as : List (Action α)} (has : ∀ a ∈ as, a.Untimed) :
    (t.emitAll as).dial d = t.dial d :=
  (dial_emitAll t as d).trans (Dial.foldl_untimed _ has)

/-- A role that is told only where it is new is shown all the same. -/
theorem dial_changeRole (h : (t.dial d).kind = t.node.role.kind) (r : Role) :
    (t.changeRole r).dial d = { t.dial d with kind := r.kind } := by
  refine (dial_emitAll t _ d).trans ?_
  split
  · rename_i hsame
    rw [hsame, ← h]
    rfl
  · rfl

theorem stepDown_of_follower (h : t.node.role.isFollower) : t.stepDown = t := by
  unfold stepDown
  split
  · rfl
  · rename_i hother
    cases hrole : t.node.role with
    | follower leader => exact absurd hrole (hother leader)
    | candidate votes => simp [hrole, Role.isFollower] at h
    | leader lead => simp [hrole, Role.isFollower] at h

theorem stepDown_kind (t : Turn α) : t.stepDown.node.role.kind = .follower := by
  unfold stepDown
  split
  · rename_i leader hrole
    rw [hrole]
    rfl
  · rfl

theorem dial_stepDown (h : (t.dial d).kind = t.node.role.kind) (hrole : ¬ t.node.role.isFollower) :
    t.stepDown.dial d = .of .follower := by
  have hdown : t.stepDown =
      (t.changeRole (.follower none)).emitAll [.cancelHeartbeat, .resetElectionTimer] := by
    unfold stepDown
    split
    · rename_i leader hfollower
      simp [hfollower, Role.isFollower] at hrole
    · rfl
  rw [hdown, dial_emitAll, dial_changeRole h]
  rfl

theorem dial_becomeLeader (h : (t.dial d).kind = t.node.role.kind) :
    t.becomeLeader.dial d = .of .leader := by
  unfold becomeLeader
  rw [dial_emit, dial_emitAll_untimed fun a ha => Node.untimed_of_heartbeats ha, dial_emit,
    dial_changeRole h]
  rfl

/-- From the dial `d` on, the turn has led to what the dial should show. -/
def InTime (d : Dial) (t : Turn α) : Prop := t.dial d = .of t.node.role.kind

namespace InTime

theorem kind (h : t.InTime d) : (t.dial d).kind = t.node.role.kind := congrArg Dial.kind h

theorem emitAll (h : t.InTime d) {as : List (Action α)} (has : ∀ a ∈ as, a.Untimed) :
    (t.emitAll as).InTime d :=
  (dial_emitAll_untimed has).trans h

theorem of_kind (h : t.InTime d) (hactions : u.actions = t.actions)
    (hkind : u.node.role.kind = t.node.role.kind) : u.InTime d := by
  unfold InTime dial at h ⊢
  rw [hactions, hkind]
  exact h

theorem stepDown (h : t.InTime d) : t.stepDown.InTime d := by
  by_cases hrole : t.node.role.isFollower
  · rw [stepDown_of_follower hrole]
    exact h
  · unfold InTime
    rw [dial_stepDown h.kind hrole, stepDown_kind]

theorem observeTerm (h : t.InTime d) (T : Term) : (t.observeTerm T).InTime d := by
  unfold Turn.observeTerm
  split
  · exact h
  · exact stepDown h

theorem becomeLeader (h : (t.dial d).kind = t.node.role.kind) : t.becomeLeader.InTime d :=
  dial_becomeLeader h

theorem commitThrough (h : t.InTime d) (i : LogIndex) : (t.commitThrough i).InTime d :=
  (h.emitAll fun _ ha => Action.untimed_of_applyAfter ha).of_kind rfl (Role.kind_mapLead _ _)

theorem step {opens : LogIndex → Prop} {acks : LogIndex → PeerId → Prop} (h : t.InTime d)
    (hstep : t.Step opens acks u) : u.InTime d := by
  cases hstep with
  | dequeue i => exact h.of_kind rfl (Role.kind_mapLead _ _)
  | openAgreement i hi hprev => exact h.of_kind rfl (Role.kind_mapLead _ _)
  | ask i hi hprev =>
      refine h.emitAll fun a ha => ?_
      obtain ⟨peer, -, hcall⟩ := List.mem_filterMap.mp ha
      exact Node.untimed_of_replicateCall? hcall
  | acknowledge i p hp => exact h.of_kind rfl (Role.kind_mapLead _ _)
  | commit i hi => exact h.commitThrough i

theorem steps {opens : LogIndex → Prop} {acks : LogIndex → PeerId → Prop} (h : t.InTime d)
    (hsteps : t.Steps opens acks u) : u.InTime d := by
  induction hsteps with
  | refl => exact h
  | tail _ hstep ih => exact ih.step hstep

end InTime

end Turn

namespace Node

variable {n : Node α} {d : Dial}

/-- What the dial should show for a node. -/
def dial (n : Node α) : Dial := .of n.role.kind

theorem idle_inTime (n : Node α) : n.idle.InTime n.dial := rfl

theorem submit_inTime (n : Node α) (command : α) : (n.submit command).2.InTime n.dial := by
  by_cases hleader : n.isLeader
  · have hstored : (n.stored command).InTime n.dial :=
      n.idle_inTime.of_kind rfl (Role.kind_mapLead _ _)
    have hsteps : Turn.AnySteps (n.stored command) (n.submit command).2 :=
      submit_steps hleader command fun _ _ => trivial
    exact hstored.steps hsteps
  · rw [submit_of_not_leader hleader]
    exact n.idle_inTime

theorem answerVote_inTime (n : Node α) (args : VoteRequest) :
    (n.answerVote args).2.InTime n.dial := by
  have hterm := n.idle_inTime.observeTerm args.term
  unfold answerVote
  split
  · exact n.idle_inTime
  · simp only
    split
    · exact hterm.of_kind rfl rfl
    · exact hterm

theorem follow_inTime (n : Node α) (args : AppendRequest α) : (n.follow args).InTime n.dial := by
  have hterm := n.idle_inTime.observeTerm args.term
  unfold follow
  simp only
  split
  · rename_i hfollower
    have hold : n.role.kind = .follower := Role.isFollower_iff.mp hfollower
    have hkind : (n.idle.observeTerm args.term).node.role.kind = .follower := by
      rcases observeTerm_cases n.idle args.term with ⟨-, hsame⟩ | ⟨-, -, -, hkind, -⟩
      · rw [hsame]
        exact hold
      · exact hkind
    have hshown : (n.idle.observeTerm args.term).dial n.dial = .of .follower :=
      hterm.trans (by rw [hkind])
    change ((n.idle.observeTerm args.term).emit .resetElectionTimer).dial n.dial = _
    rw [Turn.dial_emit, hshown]
    rfl
  · exact hterm.stepDown.of_kind rfl (Turn.stepDown_kind _).symm

theorem answerAppend_inTime (n : Node α) (args : AppendRequest α) :
    (n.answerAppend args).2.InTime n.dial := by
  have hfollow := n.follow_inTime args
  rcases n.answerAppend_cases args with
    ⟨-, hturn⟩ | ⟨-, -, hturn⟩ | ⟨-, log, start, -, -, ⟨-, hturn⟩ | ⟨-, hturn⟩⟩
  · rw [hturn]
    exact n.idle_inTime
  · rw [hturn]
    exact hfollow
  · have hwritten : (n.written args (log.merge start args.entries)).InTime n.dial :=
      hfollow.of_kind rfl rfl
    rw [hturn]
    exact hwritten.commitThrough _
  · have hwritten : (n.written args (log.merge start args.entries)).InTime n.dial :=
      hfollow.of_kind rfl rfl
    rw [hturn]
    refine (hwritten.emitAll fun a ha => ?_).of_kind rfl rfl
    exact Action.untimed_of_applyAfter ha

theorem voteReturned_inTime (n : Node α) (sender : PeerId) (generation : Generation)
    (reply : Option VoteReply) : (n.voteReturned sender generation reply).InTime n.dial := by
  rcases n.voteReturned_cases sender generation reply with
    hturn | ⟨r, -, ⟨-, hturn⟩ | ⟨-, -, votes, hrole, ⟨-, hturn⟩ | ⟨-, hturn⟩⟩⟩
  · rw [hturn]
    exact n.idle_inTime
  · rw [hturn]
    exact n.idle_inTime.observeTerm r.term
  · rw [hturn]
    exact n.idle_inTime.of_kind rfl (by rw [idle_node, idle_node, hrole]; rfl)
  · rw [hturn]
    refine .becomeLeader ?_
    change n.role.kind = _
    rw [hrole]
    rfl

theorem appendReturned_inTime (n : Node α) (sender : PeerId) (context : AppendContext)
    (reply : Option AppendReply) : (n.appendReturned sender context reply).InTime n.dial := by
  have hback : (n.idle.mapLead (·.recordFailure sender)).InTime n.dial :=
    n.idle_inTime.of_kind rfl (Role.kind_mapLead _ _)
  rcases n.appendReturned_cases sender context reply with
    hturn | ⟨r, -, ⟨-, hturn⟩ | ⟨-, -, -, ⟨-, hturn⟩ | ⟨-, hturn⟩⟩⟩
  · rw [hturn]
    exact n.idle_inTime
  · rw [hturn]
    exact n.idle_inTime.observeTerm r.term
  · have hrecord : (n.idle.record sender context).InTime n.dial := by
      unfold Turn.record
      split
      · exact n.idle_inTime.of_kind rfl (Role.kind_mapLead _ _)
      · exact n.idle_inTime
    have hsteps : Turn.AnySteps (n.idle.record sender context)
        (appendAccepted n.idle sender context) :=
      appendAccepted_steps (fun _ _ _ _ => trivial) fun _ _ => trivial
    rw [hturn]
    exact hrecord.steps hsteps
  · rw [hturn]
    unfold appendRejected
    split
    · exact hback
    · split
      · refine hback.emitAll fun a ha => ?_
        exact untimed_of_replicateCall? (Option.mem_toList.mp ha)
      · exact n.idle_inTime

theorem standForElection_inTime (hd : d.kind = n.role.kind) (hbeat : d.heartbeat = false) :
    n.standForElection.InTime d := by
  let moved : Node α := { n with term := n.term.next, votedFor := some n.id }
  let stood := moved.idle.changeRole (.candidate (.single n.id))
  let calls := stood.node.others.map fun p =>
    (.requestVote p stood.node.generation stood.node.voteRequest : Action α)
  have hstood : stood.dial d = { d with kind := .candidate } :=
    Turn.dial_changeRole (t := moved.idle) hd _
  have hcalls : ∀ a ∈ calls, a.Untimed := by
    intro a ha
    obtain ⟨p, -, rfl⟩ := List.mem_map.mp ha
    exact fun _ => rfl
  have hasked : ((stood.emitAll calls).emit .resetElectionTimer).InTime d := by
    unfold Turn.InTime
    rw [Turn.dial_emit, Turn.dial_emitAll_untimed hcalls, hstood]
    change Dial.mk true d.heartbeat .candidate = _
    rw [hbeat]
    rfl
  unfold standForElection
  simp only
  split
  · exact .becomeLeader hasked.kind
  · exact hasked

/-- Whatever others send, the turn ends with the dial as it should be. -/
theorem handle_inTime (n : Node α) {e : Event α} (he : e.fromOthers) :
    (n.handle e).2.InTime n.dial := by
  cases e with
  | submit command => exact n.submit_inTime command
  | voteRequest args => exact n.answerVote_inTime args
  | appendRequest args => exact n.answerAppend_inTime args
  | voteReturned sender generation reply => exact n.voteReturned_inTime sender generation reply
  | appendReturned sender context reply => exact n.appendReturned_inTime sender context reply
  | _ => cases he

/-- The timer that a node should have. -/
def due (n : Node α) : Timer := if n.isLeader then .heartbeat else .election

/-- When that timer has run out, the node arms another one. -/
theorem expiry_inTime (n : Node α) :
    (n.handle n.due.event).2.InTime (n.dial.set false n.due) := by
  by_cases hleader : n.isLeader
  · have hdue : n.due = .heartbeat := if_pos hleader
    have hkind : n.role.kind = .leader := Role.isLeader_iff.mp hleader
    have hturn : n.heartbeatTimeout = (n.idle.emitAll n.heartbeats).emit .scheduleHeartbeat :=
      if_pos hleader
    rw [hdue]
    change n.heartbeatTimeout.dial _ = .of n.heartbeatTimeout.node.role.kind
    rw [hturn, Turn.dial_emit, Turn.dial_emitAll_untimed fun a ha => untimed_of_heartbeats ha]
    change (n.dial.set false .heartbeat).set true .heartbeat = .of n.role.kind
    unfold dial
    rw [hkind]
    rfl
  · have hdue : n.due = .election := if_neg hleader
    have hturn : n.electionTimeout = n.standForElection := if_neg hleader
    rw [hdue]
    change n.electionTimeout.InTime _
    rw [hturn]
    refine standForElection_inTime rfl ?_
    have hkind : n.role.kind ≠ .leader := fun h => hleader (Role.isLeader_iff.mpr h)
    exact decide_eq_false hkind

theorem dial_live (n : Node α) (timer : Timer) : n.dial.live timer = decide (timer = n.due) := by
  unfold dial due isLeader
  cases timer <;> cases n.role <;> rfl

end Node

namespace Engine

variable {g : Engine α} {armed : List (Timer × Nat)} {d : Dial}

theorem epoch_bump (g : Engine α) (timer other : Timer) :
    (g.bump timer).epoch other = if other = timer then g.epoch other + 1 else g.epoch other := by
  cases timer <;> cases other <;> rfl

theorem publishedRole_bump (g : Engine α) (timer : Timer) :
    (g.bump timer).publishedRole = g.publishedRole := by
  cases timer <;> rfl

theorem handle_current (g : Engine α) (timer : Timer) :
    g.handle (.expired timer (g.epoch timer)) =
      (.none, g.settle (g.node.handle timer.event).2) :=
  if_pos rfl

theorem handle_outdated {timer : Timer} {epoch : Nat} (h : epoch ≠ g.epoch timer) :
    g.handle (.expired timer epoch) = (.none, g, []) :=
  if_neg h

theorem perform_node (g : Engine α) (a : Action α) : (g.perform a).1.node = g.node := by
  cases a <;> rfl

theorem performAll_node (g : Engine α) (as : List (Action α)) :
    (g.performAll as).1.node = g.node := by
  induction as generalizing g with
  | nil => rfl
  | cons a as ih => exact (ih (g.perform a).1).trans (g.perform_node a)

end Engine

/-- The timer that an effect arms. -/
def Effect.armed? : Effect α → Option (Timer × Nat)
  | .arm timer epoch => some (timer, epoch)
  | _ => none

/-- The timers that are armed and have not run out agree with the dial: none is ahead of the epochs,
and one of the current epoch is there, once, for each timer that runs. -/
structure Engine.Shows (g : Engine α) (armed : List (Timer × Nat)) (d : Dial) : Prop where
  past : ∀ timer epoch, (timer, epoch) ∈ armed → epoch ≤ g.epoch timer
  live : ∀ timer, armed.count (timer, g.epoch timer) = if d.live timer then 1 else 0
  told : g.publishedRole = d.kind

namespace Engine.Shows

variable {g : Engine α} {armed : List (Timer × Nat)} {d : Dial}

/-- No timer of an epoch yet to come is armed. -/
theorem count_next (h : g.Shows armed d) (timer : Timer) :
    armed.count (timer, g.epoch timer + 1) = 0 := by
  refine List.count_eq_zero.mpr fun hmem => ?_
  have hle := h.past timer _ hmem
  omega

theorem cancel (h : g.Shows armed d) (timer : Timer) :
    (g.bump timer).Shows armed (d.set false timer) where
  past := by
    intro other epoch hmem
    have hle := h.past other epoch hmem
    rw [epoch_bump]
    split
    · omega
    · exact hle
  live := by
    intro other
    rw [epoch_bump, Dial.live_set]
    by_cases hsame : other = timer
    · rw [if_pos hsame, if_pos hsame]
      exact h.count_next other
    · rw [if_neg hsame, if_neg hsame]
      exact h.live other
  told := (publishedRole_bump g timer).trans (h.told.trans (Dial.kind_set d false timer).symm)

theorem arm (h : g.Shows armed d) (timer : Timer) :
    (g.bump timer).Shows (armed ++ [(timer, g.epoch timer + 1)]) (d.set true timer) where
  past := by
    intro other epoch hmem
    rw [epoch_bump]
    rcases List.mem_append.mp hmem with hold | hnew
    · have hle := h.past other epoch hold
      split
      · omega
      · exact hle
    · obtain ⟨rfl, rfl⟩ := Prod.mk.inj (List.mem_singleton.mp hnew)
      exact Nat.le_of_eq (if_pos rfl).symm
  live := by
    intro other
    rw [epoch_bump, Dial.live_set, List.count_append]
    by_cases hsame : other = timer
    · subst hsame
      rw [if_pos rfl, if_pos rfl, h.count_next, List.count_singleton_self]
      rfl
    · have hother : List.count (other, g.epoch other) [(timer, g.epoch timer + 1)] = 0 := by
        refine List.count_eq_zero.mpr fun hmem => ?_
        exact hsame (congrArg Prod.fst (List.mem_singleton.mp hmem))
      rw [if_neg hsame, if_neg hsame, hother]
      exact h.live other
  told := (publishedRole_bump g timer).trans (h.told.trans (Dial.kind_set d true timer).symm)

/-- An action does to the timers what it does to the dial. -/
theorem perform (h : g.Shows armed d) (a : Action α) :
    (g.perform a).1.Shows (armed ++ (g.perform a).2.filterMap Effect.armed?) (d.obey a) := by
  cases a with
  | resetElectionTimer => exact h.arm .election
  | scheduleHeartbeat => exact h.arm .heartbeat
  | cancelElectionTimer => exact (List.append_nil armed).symm ▸ h.cancel .election
  | cancelHeartbeat => exact (List.append_nil armed).symm ▸ h.cancel .heartbeat
  | roleChanged kind => exact (List.append_nil armed).symm ▸ ⟨h.past, h.live, rfl⟩
  | requestVote peer generation args => exact (List.append_nil armed).symm ▸ h
  | appendEntries peer context args => exact (List.append_nil armed).symm ▸ h
  | apply index command => exact (List.append_nil armed).symm ▸ h

theorem performAll (h : g.Shows armed d) (as : List (Action α)) :
    (g.performAll as).1.Shows (armed ++ (g.performAll as).2.filterMap Effect.armed?)
      (as.foldl Dial.obey d) := by
  induction as generalizing g armed d with
  | nil => exact (List.append_nil armed).symm ▸ h
  | cons a as ih =>
      have hrest := ih (h.perform a)
      rw [List.append_assoc, ← List.filterMap_append] at hrest
      exact hrest

/-- A turn that is in time leaves the timers as they should be for its node. -/
theorem settle (h : g.Shows armed d) {t : Turn α} (ht : t.InTime d) :
    (g.settle t).1.Shows (armed ++ (g.settle t).2.filterMap Effect.armed?)
      (g.settle t).1.node.dial := by
  have hmoved : ({ g with node := t.node } : Engine α).Shows armed d := ⟨h.past, h.live, h.told⟩
  have hnode : (g.settle t).1.node = t.node := performAll_node _ t.actions
  have hdial : t.actions.foldl Dial.obey d = t.node.dial := ht
  rw [hnode, ← hdial]
  exact hmoved.performAll t.actions

/-- A timer of the current epoch that runs out was the only one of its kind. -/
theorem runOut (h : g.Shows armed d) (timer : Timer) :
    g.Shows (armed.erase (timer, g.epoch timer)) (d.set false timer) where
  past := fun other epoch hmem => h.past other epoch (List.mem_of_mem_erase hmem)
  live := by
    intro other
    have hlive := h.live other
    rw [List.count_erase, Dial.live_set]
    by_cases hsame : other = timer
    · subst hsame
      rw [if_pos rfl, if_pos BEq.rfl, hlive]
      split
      · rfl
      · rfl
    · have hother : ¬ ((timer, g.epoch timer) == (other, g.epoch other)) = true := by
        intro heq
        exact hsame (congrArg Prod.fst (beq_iff_eq.mp heq)).symm
      rw [if_neg hsame, if_neg hother]
      exact hlive
  told := h.told.trans (Dial.kind_set d false timer).symm

/-- A timer of any other epoch may as well not have been there. -/
theorem lapse (h : g.Shows armed d) {timer : Timer} {epoch : Nat} (hpast : epoch ≠ g.epoch timer) :
    g.Shows (armed.erase (timer, epoch)) d where
  past := fun other epoch hmem => h.past other epoch (List.mem_of_mem_erase hmem)
  live := by
    intro other
    have hother : ¬ ((timer, epoch) == (other, g.epoch other)) = true := by
      intro heq
      obtain ⟨rfl, rfl⟩ := Prod.mk.inj (beq_iff_eq.mp heq)
      exact hpast rfl
    rw [List.count_erase, if_neg hother]
    exact h.live other
  told := h.told

/-- The timers of the current epochs, where one timer runs. -/
theorem filter_current (h : g.Shows armed d) {timer : Timer}
    (hd : ∀ other, d.live other = decide (other = timer)) :
    armed.filter (fun a => a.2 = g.epoch a.1) = [(timer, g.epoch timer)] := by
  have hone : armed.count (timer, g.epoch timer) = 1 := by
    rw [h.live, hd]
    simp
  have hcurrent : ∀ a ∈ armed, decide (a.2 = g.epoch a.1) = (a == (timer, g.epoch timer)) := by
    rintro ⟨other, epoch⟩ hmem
    by_cases hepoch : epoch = g.epoch other
    · subst hepoch
      have hsame : other = timer := by
        refine Decidable.byContradiction fun hne => ?_
        have hnone := h.live other
        rw [hd, decide_eq_false hne] at hnone
        exact List.count_eq_zero.mp hnone hmem
      subst hsame
      simp
    · have hne : (other, epoch) ≠ (timer, g.epoch timer) := by
        rintro heq
        obtain ⟨rfl, rfl⟩ := Prod.mk.inj heq
        exact hepoch rfl
      rw [decide_eq_false hepoch, beq_eq_false_iff_ne.mpr hne]
  rw [List.filter_congr hcurrent, List.filter_beq, hone]
  rfl

end Engine.Shows

/-- An event loop together with the timers that it has armed and that have not run out yet. The ones
that it has cancelled are still among them: nothing stops them. -/
structure Clockwork (α : Type) where
  engine : Engine α
  armed : List (Timer × Nat)
  deriving DecidableEq, Repr

namespace Clockwork

/-- What can come to an event loop next: a timer runs out, or others call or answer. -/
inductive Move (α : Type) where
  | runOut (timer : Timer) (epoch : Nat)
  | arrive (e : Event α) (he : e.fromOthers)

/-- Keeps the timers that the event loop has armed. -/
def keep (armed : List (Timer × Nat)) (r : Engine α × List (Effect α)) : Clockwork α where
  engine := r.1
  armed := armed ++ r.2.filterMap Effect.armed?

def start (me : PeerId) (clusterSize : Nat) : Clockwork α := keep [] (Engine.start me clusterSize)

/-- Makes a move. No timer runs out that is not armed, and none does twice. -/
def play (w : Clockwork α) : Move α → Clockwork α
  | .runOut timer epoch =>
    if (timer, epoch) ∈ w.armed then
      keep (w.armed.erase (timer, epoch)) (w.engine.handle (.expired timer epoch)).2
    else w
  | .arrive e _ => keep w.armed (w.engine.handle (.event e)).2

/-- The timers and the role last told are as they should be for the node. -/
def InOrder (w : Clockwork α) : Prop := w.engine.Shows w.armed w.engine.node.dial

theorem start_inOrder (me : PeerId) (clusterSize : Nat) :
    (start me clusterSize : Clockwork α).InOrder where
  past := by
    intro timer epoch hmem
    obtain ⟨rfl, rfl⟩ := Prod.mk.inj (List.mem_singleton.mp hmem)
    exact Nat.le_refl _
  live := by
    intro timer
    cases timer <;> rfl
  told := rfl

theorem InOrder.play {w : Clockwork α} (h : w.InOrder) (move : Move α) : (w.play move).InOrder := by
  cases move with
  | arrive e he => exact h.settle (w.engine.node.handle_inTime he)
  | runOut timer epoch =>
      unfold Clockwork.play
      simp only
      split
      · rename_i hmem
        by_cases hcurrent : epoch = w.engine.epoch timer
        · subst hcurrent
          have hdue : timer = w.engine.node.due := by
            refine Decidable.byContradiction fun hother => ?_
            have hnone := h.live timer
            rw [Node.dial_live, decide_eq_false hother] at hnone
            exact List.count_eq_zero.mp hnone hmem
          subst hdue
          rw [Engine.handle_current]
          exact (h.runOut _).settle w.engine.node.expiry_inTime
        · have hkept : keep (w.armed.erase (timer, epoch)) (w.engine, []) =
              ⟨w.engine, w.armed.erase (timer, epoch)⟩ := by
            simp [keep]
          rw [Engine.handle_outdated hcurrent, hkept]
          exact h.lapse hcurrent
      · exact h

/-- And so they are after all moves of a run. -/
theorem InOrder.playAll {w : Clockwork α} (h : w.InOrder) (moves : List (Move α)) :
    (moves.foldl Clockwork.play w).InOrder := by
  induction moves generalizing w with
  | nil => exact h
  | cons move moves ih => exact ih (h.play move)

end Clockwork

/-- One timer is live. Start an event loop, and let timers run out and calls and answers come in as
they will: of the timers armed that have not run out yet exactly one has the current epoch of its
kind, a heartbeat timer if the node leads and an election timer if it does not. One of any other
epoch does nothing when it runs out, and the role last told is the role that the node has. -/
theorem one_timer_live (me : PeerId) (clusterSize : Nat) (moves : List (Clockwork.Move α)) :
    let w := moves.foldl Clockwork.play (.start me clusterSize)
    let due : Timer := if w.engine.node.isLeader then .heartbeat else .election
    w.armed.filter (fun a => a.2 = w.engine.epoch a.1) = [(due, w.engine.epoch due)] ∧
      (∀ timer epoch, epoch ≠ w.engine.epoch timer →
        w.engine.handle (.expired timer epoch) = (.none, w.engine, [])) ∧
      w.engine.publishedRole = w.engine.node.role.kind := by
  intro w due
  have horder : w.InOrder := (Clockwork.start_inOrder me clusterSize).playAll moves
  refine ⟨horder.filter_current w.engine.node.dial_live, ?_, horder.told⟩
  intro timer epoch
  exact Engine.handle_outdated

/-- A member stands for election when its timer runs out, and is elected. -/
def electedInTime : List (Clockwork.Move Nat) :=
  [.runOut .election 1, .arrive (.voteReturned 1 1 (some ⟨1, true⟩)) rfl]

/-- The timer that it armed as a candidate is cancelled but still armed. It runs out late and does
nothing. -/
theorem one_timer_live_electedInTime :
    let w := electedInTime.foldl Clockwork.play (.start 0 3)
    w.engine.node.isLeader ∧ w.armed = [(.election, 2), (.heartbeat, 1)] ∧
      w.armed.filter (fun a => a.2 = w.engine.epoch a.1) = [(.heartbeat, 1)] ∧
      w.engine.handle (.expired .election 2) = (.none, w.engine, []) ∧
      w.play (.runOut .election 2) = { w with armed := [(.heartbeat, 1)] } ∧
      w.engine.publishedRole = .leader := by
  obtain ⟨hlive, hlate, htold⟩ := one_timer_live 0 3 electedInTime
  exact ⟨by decide, by decide, hlive, hlate .election 2 (by decide), by decide, htold⟩

end Quorum
