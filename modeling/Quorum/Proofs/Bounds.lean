import Quorum.Proofs.Checked
import Quorum.Proofs.Shipping

/-!
The numbers that a node works with fit their words. An index that a peer sends is only ever compared
or looked up; what a node keeps and computes with comes from its own log, from its own cursors and
from the calls that it has made itself. So it stays within their bounds, whatever arrives.
-/

namespace Quorum

variable {α : Type}

/-- An index that stands for an entry or for none, and fits its word. -/
def LogIndex.Fits (i : LogIndex) : Prop := absent ≤ i ∧ i ≤ last

theorem LogIndex.fits_natCast {k : Nat} (h : (k : Int) ≤ last) : LogIndex.Fits k :=
  ⟨Int.le_trans (by decide) (Int.natCast_nonneg k), h⟩

structure Cursor.Fits (c : Cursor) : Prop where
  nonneg : 0 ≤ c.next
  next_le : c.next ≤ LogIndex.last
  absent_le : LogIndex.absent ≤ c.matched

/-- What a leader keeps in a cluster of a given size. -/
structure Leadership.Fits (size : Nat) (l : Leadership) : Prop where
  width : l.cursors.length = size
  cursor : ∀ c ∈ l.cursors, c.Fits
  waiting : ∀ i ∈ l.waiting, LogIndex.Fits i
  acks : ∀ a ∈ l.agreements, ∀ p ∈ a.acks.peers, p < size

structure AppendContext.Fits (context : AppendContext) : Prop where
  lastSent : ∀ k, context.lastSent = some k → LogIndex.Fits k
  cursor : ∀ i cursor, context.round = .replicate i cursor → LogIndex.Fits cursor

/-- A call to another member, with bounds on what comes back with its answer. -/
def Action.Fits (size : Nat) : Action α → Prop
  | .requestVote peer _ _ => peer < size
  | .appendEntries peer context _ => peer < size ∧ context.Fits
  | _ => True

/-- Only a node that has gone through the list of members is no follower. -/
structure Node.Fits (n : Node α) : Prop where
  member : n.id < n.clusterSize
  log : (n.log.length : Int) ≤ LogIndex.last
  commit : n.commitIndex < LogIndex.last
  listed : n.role.kind ≠ .follower → n.clusterSize ≤ Checked.vectorLimit + 1
  votes : ∀ votes, n.role = .candidate votes → ∀ p ∈ votes.peers, p < n.clusterSize
  lead : ∀ l, n.role = .leader l → l.Fits n.clusterSize

structure Turn.Fits (size : Nat) (t : Turn α) : Prop where
  clusterSize : t.node.clusterSize = size
  node : t.node.Fits
  actions : ∀ a ∈ t.actions, a.Fits size

namespace Leadership.Fits

variable {size : Nat} {l : Leadership}

theorem fresh {length : Nat} (h : (length : Int) ≤ LogIndex.last) :
    (Leadership.fresh size length).Fits size where
  width := List.length_replicate
  cursor := by
    intro c hc
    rw [List.eq_of_mem_replicate hc]
    exact ⟨Int.natCast_nonneg length, h, Int.le_refl _⟩
  waiting := by
    intro i hi
    cases hi
  acks := by
    intro a ha
    cases ha

theorem enqueue (h : l.Fits size) {i : LogIndex} (hi : LogIndex.Fits i) :
    (l.enqueue i).Fits size where
  width := h.width
  cursor := h.cursor
  acks := h.acks
  waiting := by
    intro j hj
    rcases mem_of_mem_insertByIndex hj with rfl | hold
    · exact hi
    · exact h.waiting j hold

theorem dequeue (h : l.Fits size) (i : LogIndex) : (l.dequeue i).Fits size where
  width := h.width
  cursor := h.cursor
  acks := h.acks
  waiting := fun j hj => h.waiting j (List.mem_of_mem_erase hj)

theorem openAgreement (h : l.Fits size) (i : LogIndex) {leader : PeerId} (hleader : leader < size) :
    (l.openAgreement i leader).Fits size where
  width := h.width
  cursor := h.cursor
  waiting := h.waiting
  acks := by
    intro a ha p hp
    rcases mem_of_mem_insertByIndex ha with rfl | hold
    · obtain rfl := Tally.mem_single.mp hp
      exact hleader
    · exact h.acks a hold p hp

theorem acknowledge (h : l.Fits size) (i : LogIndex) {q : PeerId} (hq : q < size) :
    (l.acknowledge i q).Fits size where
  width := h.width
  cursor := h.cursor
  waiting := h.waiting
  acks := by
    intro a ha p hp
    obtain ⟨b, hb, rfl⟩ := List.mem_map.mp ha
    split at hp
    · rcases Tally.mem_add.mp hp with hold | rfl
      · exact h.acks b hb p hold
      · exact hq
    · exact h.acks b hb p hp

theorem closeThrough (h : l.Fits size) (commitIndex : LogIndex) :
    (l.closeThrough commitIndex).Fits size where
  width := h.width
  cursor := h.cursor
  waiting := h.waiting
  acks := fun a ha => h.acks a (List.mem_filter.mp ha).1

theorem recordSuccess (h : l.Fits size) (p : PeerId) {k : LogIndex} (hk : LogIndex.Fits k) :
    (l.recordSuccess p k).Fits size where
  width := (List.length_modify _ _ _).trans h.width
  waiting := h.waiting
  acks := h.acks
  cursor := by
    intro c hc
    obtain ⟨q, hq⟩ := List.getElem?_of_mem hc
    obtain ⟨old, hold, ⟨-, rfl⟩ | ⟨-, rfl⟩⟩ := Leadership.cursor_recordSuccess hq
    · obtain ⟨habsent, hlast⟩ := hk
      have hmatched := (h.cursor old (List.mem_of_getElem? hold)).absent_le
      unfold LogIndex.absent at habsent
      refine ⟨?_, ?_, Int.le_trans hmatched (Int.le_max_left _ _)⟩
      · change 0 ≤ k.next
        unfold LogIndex.next
        unfold LogIndex.last at *
        split <;> lia
      · change k.next ≤ LogIndex.last
        unfold LogIndex.next
        split <;> lia
    · exact h.cursor c (List.mem_of_getElem? hold)

theorem recordFailure (h : l.Fits size) (p : PeerId) : (l.recordFailure p).Fits size where
  width := (List.length_modify _ _ _).trans h.width
  waiting := h.waiting
  acks := h.acks
  cursor := by
    intro c hc
    obtain ⟨q, hq⟩ := List.getElem?_of_mem hc
    obtain ⟨old, hold, hmatched, hnext⟩ := Leadership.cursor_recordFailure hq
    obtain ⟨hnonneg, hle, habsent⟩ := h.cursor old (List.mem_of_getElem? hold)
    rw [← hmatched] at habsent
    rcases hnext with hsame | ⟨hpos, hback⟩
    · rw [← hsame] at hnonneg hle
      exact ⟨hnonneg, hle, habsent⟩
    · exact ⟨by lia, by lia, habsent⟩

theorem next_fits (h : l.Fits size) {p : PeerId} {next : LogIndex} (hnext : l.next? p = some next) :
    0 ≤ next ∧ next ≤ LogIndex.last ∧ p < size := by
  obtain ⟨c, hc, rfl⟩ := Leadership.cursor_of_next? hnext
  have hfits := h.cursor c (List.mem_of_getElem? hc)
  refine ⟨hfits.nonneg, hfits.next_le, ?_⟩
  rw [← h.width]
  exact (List.getElem?_eq_some_iff.mp hc).1

end Leadership.Fits

theorem Action.fits_of_quiet {size : Nat} {a : Action α} (h : ∀ i, a.packet? i = none) :
    a.Fits size := by
  cases a with
  | requestVote => cases h 0
  | appendEntries => cases h 0
  | _ => trivial

namespace Node

variable {n m : Node α}

/-- A follower has little to keep. -/
theorem Fits.of_follower (h : n.Fits) (hid : m.id = n.id) (hsize : m.clusterSize = n.clusterSize)
    (hlog : (m.log.length : Int) ≤ LogIndex.last) (hcommit : m.commitIndex < LogIndex.last)
    (hkind : m.role.kind = .follower) : m.Fits where
  member := by
    rw [hid, hsize]
    exact h.member
  log := hlog
  commit := hcommit
  listed := fun hother => absurd hkind hother
  votes := by
    intro votes hrole
    rw [hrole] at hkind
    cases hkind
  lead := by
    intro l hl
    rw [hl] at hkind
    cases hkind

/-- Term, vote and generation are not computed with. -/
theorem Fits.of_role (h : n.Fits) (hid : m.id = n.id) (hsize : m.clusterSize = n.clusterSize)
    (hlog : m.log = n.log) (hcommit : m.commitIndex = n.commitIndex) (hrole : m.role = n.role) :
    m.Fits where
  member := by
    rw [hid, hsize]
    exact h.member
  log := by
    rw [hlog]
    exact h.log
  commit := by
    rw [hcommit]
    exact h.commit
  listed := by
    rw [hrole, hsize]
    exact h.listed
  votes := by
    rw [hrole, hsize]
    exact h.votes
  lead := by
    rw [hrole, hsize]
    exact h.lead

theorem Fits.idle (h : n.Fits) : n.idle.Fits n.clusterSize where
  clusterSize := rfl
  node := h
  actions := by
    intro a ha
    cases ha

/-- The calls of a leader go to members, with contexts that fit. -/
theorem Fits.appendCall (h : n.Fits) {peer : PeerId} {round : Round} {last : LogIndex}
    {a : Action α} (hround : ∀ i cursor, round = .replicate i cursor → LogIndex.Fits cursor)
    (ha : n.appendCall? peer round last = some a) : a.Fits n.clusterSize := by
  obtain ⟨l, next, hl, hnext, rfl⟩ := appendCall?_eq_some ha
  obtain ⟨hnonneg, -, hpeer⟩ := (h.lead l hl).next_fits hnext
  refine ⟨hpeer, ?_, hround⟩
  intro k hk
  have hlt := AppendContext.lastSent_ofCall_lt hk
  have hlog := h.log
  change (if n.log.slice next last = [] then none else some _) = _ at hk
  split at hk
  · cases hk
  · rename_i hentries
    have hpos := List.length_pos_iff.mpr hentries
    obtain rfl := Option.some.inj hk
    refine ⟨?_, by lia⟩
    unfold LogIndex.absent
    lia

theorem Fits.heartbeats (h : n.Fits) : ∀ a ∈ n.heartbeats, a.Fits n.clusterSize := by
  intro a ha
  obtain ⟨peer, -, hcall⟩ := mem_heartbeats ha
  refine h.appendCall ?_ hcall
  intro i cursor hround
  cases hround

end Node

namespace Turn

variable {size : Nat} {t u : Turn α}

namespace Fits

theorem emitAll (h : t.Fits size) {as : List (Action α)} (has : ∀ a ∈ as, a.Fits size) :
    (t.emitAll as).Fits size where
  clusterSize := h.clusterSize
  node := h.node
  actions := by
    intro a ha
    rcases List.mem_append.mp ha with hold | hnew
    · exact h.actions a hold
    · exact has a hnew

theorem emit (h : t.Fits size) {a : Action α} (ha : a.Fits size) : (t.emit a).Fits size := by
  refine h.emitAll ?_
  intro b hb
  obtain rfl := List.mem_singleton.mp hb
  exact ha

theorem mapLead (h : t.Fits size) {f : Leadership → Leadership}
    (hf : ∀ l, l.Fits size → (f l).Fits size) : (t.mapLead f).Fits size where
  clusterSize := h.clusterSize
  actions := h.actions
  node := by
    refine ⟨h.node.member, h.node.log, h.node.commit, ?_, ?_, ?_⟩
    · intro hkind
      exact h.node.listed (by rwa [← Role.kind_mapLead f])
    · intro votes hrole
      have htally := Role.tally?_eq_some.mpr hrole
      change (t.node.role.mapLead f).tally? = _ at htally
      rw [Role.tally?_mapLead] at htally
      exact h.node.votes votes (Role.tally?_eq_some.mp htally)
    · intro l hl
      obtain ⟨lead, hlead, rfl⟩ := Role.of_mapLead hl
      have hlead' := h.node.lead lead hlead
      rw [h.clusterSize] at hlead'
      change (f lead).Fits t.node.clusterSize
      rw [h.clusterSize]
      exact hf lead hlead'

theorem changeRole (h : t.Fits size) {r : Role}
    (hlisted : r.kind ≠ .follower → size ≤ Checked.vectorLimit + 1)
    (hvotes : ∀ votes, r = .candidate votes → ∀ p ∈ votes.peers, p < size)
    (hlead : ∀ l, r = .leader l → l.Fits size) : (t.changeRole r).Fits size where
  clusterSize := h.clusterSize
  node := by
    obtain rfl := h.clusterSize
    exact ⟨h.node.member, h.node.log, h.node.commit, hlisted, hvotes, hlead⟩
  actions := by
    intro a ha
    rcases List.mem_append.mp ha with hold | hnew
    · exact h.actions a hold
    · split at hnew
      · cases hnew
      · obtain rfl := List.mem_singleton.mp hnew
        trivial

theorem stepDown (h : t.Fits size) : t.stepDown.Fits size := by
  unfold Turn.stepDown
  split
  · exact h
  · refine (h.changeRole ?_ ?_ ?_).emitAll ?_
    · intro hother
      exact absurd rfl hother
    · intro votes hrole
      cases hrole
    · intro l hl
      cases hl
    · intro a ha
      refine Action.fits_of_quiet fun i => ?_
      rcases List.mem_cons.mp ha with rfl | hlast
      · rfl
      · obtain rfl := List.mem_singleton.mp hlast
        rfl

theorem observeTerm (h : t.Fits size) (T : Term) : (t.observeTerm T).Fits size := by
  unfold Turn.observeTerm
  split
  · exact h
  · exact stepDown ⟨h.clusterSize, h.node.of_role rfl rfl rfl rfl rfl, h.actions⟩

theorem applyAfter (i : LogIndex) (es : List (Entry α)) :
    ∀ a ∈ Action.applyAfter i es, a.Fits size := fun _ ha =>
  Action.fits_of_quiet (Turn.packet?_of_mem_applyAfter ha)

theorem applyCommitted (h : t.Fits size) : t.applyCommitted.Fits size where
  clusterSize := h.clusterSize
  node := h.node.of_role rfl rfl rfl rfl rfl
  actions := (h.emitAll (applyAfter t.node.lastApplied t.node.unapplied)).actions

/-- The commit index stays before the end of the log at some time, if it moves. -/
theorem commitThrough (h : t.Fits size) (i : LogIndex) : (t.commitThrough i).Fits size := by
  have hlog := h.node.log
  have hcommit : max t.node.commitIndex (min i t.node.log.lastIndex) < LogIndex.last := by
    have hbefore := h.node.commit
    have hbound : t.node.log.lastIndex < LogIndex.last := by
      unfold Log.lastIndex LogIndex.lastOf
      lia
    lia
  have hraised : Turn.Fits size { t with node :=
      { t.node with commitIndex := max t.node.commitIndex (min i t.node.log.lastIndex) } } :=
    ⟨h.clusterSize, { h.node with commit := hcommit }, h.actions⟩
  exact hraised.applyCommitted.mapLead fun l hl => hl.closeThrough _

/-- Every step in the course of commitment keeps to the bounds. -/
theorem step (h : t.Fits size) (hstep : t.Step LogIndex.Fits (fun _ p => p < size) u) :
    u.Fits size := by
  have hsize := h.clusterSize
  have hid : t.node.id < size := hsize ▸ h.node.member
  cases hstep with
  | dequeue i => exact h.mapLead fun l hl => hl.dequeue i
  | openAgreement i hi hprev => exact h.mapLead fun l hl => hl.openAgreement i hid
  | ask i hi hprev =>
      refine h.emitAll ?_
      intro a ha
      obtain ⟨p, -, hcall⟩ := List.mem_filterMap.mp ha
      rw [← hsize]
      refine h.node.appendCall ?_ hcall
      intro j cursor hround
      obtain ⟨-, rfl⟩ := Round.replicate.inj hround
      exact hi
  | acknowledge i p hp => exact h.mapLead fun l hl => hl.acknowledge i hp
  | commit i hi => exact h.commitThrough i

theorem steps (h : t.Fits size) (hsteps : t.Steps LogIndex.Fits (fun _ p => p < size) u) :
    u.Fits size := by
  induction hsteps with
  | refl => exact h
  | tail _ hstep ih => exact ih.step hstep

/-- What waits for agreement fits. -/
theorem awaits (h : t.Fits size) {i : LogIndex} (hi : t.node.Awaits i) : LogIndex.Fits i := by
  obtain ⟨l, hl, hmem⟩ := hi
  exact (h.node.lead l hl).waiting i hmem

/-- One more vote for a candidate, that of a member. -/
theorem count (h : t.Fits size) {votes : Tally} (hrole : t.node.role = .candidate votes)
    {sender : PeerId} (hsender : sender < size) : Turn.Fits size
      { t with node := { t.node with role := .candidate (votes.add sender) } } where
  clusterSize := h.clusterSize
  actions := h.actions
  node := by
    refine ⟨h.node.member, h.node.log, h.node.commit, fun _ => h.node.listed ?_, ?_, ?_⟩
    · rw [hrole]
      exact RoleKind.noConfusion
    · intro votes' hrole' p hp
      obtain rfl := Role.candidate.inj hrole'
      change p < t.node.clusterSize
      rcases Tally.mem_add.mp hp with hold | rfl
      · exact h.node.votes votes hrole p hold
      · rw [h.clusterSize]
        exact hsender
    · intro l hl
      cases hl

/-- A new leader keeps what fits, before it has sent anything. -/
theorem installed (h : t.Fits size) (hlisted : size ≤ Checked.vectorLimit + 1) :
    ((t.changeRole (.leader (.fresh t.node.clusterSize t.node.log.length))).emit
      .cancelElectionTimer).Fits size := by
  refine (h.changeRole (fun _ => hlisted) ?_ ?_).emit trivial
  · intro votes hrole
    cases hrole
  · intro l hl
    obtain rfl := Role.leader.inj hl
    rw [h.clusterSize]
    exact .fresh h.node.log

theorem becomeLeader (h : t.Fits size) (hlisted : size ≤ Checked.vectorLimit + 1) :
    t.becomeLeader.Fits size := by
  have hinstalled := h.installed hlisted
  have hcalls := hinstalled.node.heartbeats
  rw [hinstalled.clusterSize] at hcalls
  exact (hinstalled.emitAll hcalls).emit trivial

end Fits

end Turn

/-- An event of which every answer is to a call that a member of a cluster of this size can make. -/
def Event.Fits (size : Nat) : Event α → Prop
  | .voteReturned sender _ _ => sender < size
  | .appendReturned sender context _ => sender < size ∧ context.Fits
  | _ => True

/-- A new candidate, before it has asked anyone for a vote. -/
def Node.nominee (n : Node α) : Turn α :=
  Turn.changeRole (idle { n with term := n.term.next, votedFor := some n.id })
    (.candidate (.single n.id))

/-- A candidate asks for votes, and puts the next election off. -/
def Turn.askVotes (t : Turn α) (peers : List PeerId) : Turn α :=
  (t.emitAll (peers.map fun p =>
    .requestVote p t.node.generation t.node.voteRequest)).emit .resetElectionTimer

theorem Node.standForElection_eq (n : Node α) : n.standForElection =
    if (Tally.single n.id).IsMajority n.clusterSize then
      (n.nominee.askVotes n.others).becomeLeader
    else n.nominee.askVotes n.others := rfl

namespace Node.Fits

variable {n : Node α}

theorem nominee (h : n.Fits) (hlisted : n.clusterSize ≤ Checked.vectorLimit + 1) :
    n.nominee.Fits n.clusterSize := by
  have hvoted : Node.Fits { n with term := n.term.next, votedFor := some n.id } :=
    h.of_role rfl rfl rfl rfl rfl
  refine hvoted.idle.changeRole (fun _ => hlisted) ?_ ?_
  · intro votes hrole p hp
    obtain rfl := Role.candidate.inj hrole
    obtain rfl := Tally.mem_single.mp hp
    exact h.member
  · intro l hl
    cases hl

theorem askVotes (h : n.Fits) (hlisted : n.clusterSize ≤ Checked.vectorLimit + 1) :
    (n.nominee.askVotes n.others).Fits n.clusterSize := by
  refine ((h.nominee hlisted).emitAll ?_).emit trivial
  intro a ha
  obtain ⟨p, hp, rfl⟩ := List.mem_map.mp ha
  exact (mem_others.mp hp).1

theorem standForElection (h : n.Fits) (hlisted : n.clusterSize ≤ Checked.vectorLimit + 1) :
    n.standForElection.Fits n.clusterSize := by
  rw [standForElection_eq]
  split
  · exact (h.askVotes hlisted).becomeLeader hlisted
  · exact h.askVotes hlisted

theorem heartbeatTimeout (h : n.Fits) : n.heartbeatTimeout.Fits n.clusterSize := by
  unfold Node.heartbeatTimeout
  split
  · exact (h.idle.emitAll h.heartbeats).emit trivial
  · exact h.idle

theorem stored (h : n.Fits) (hlog : (n.log.length : Int) + 1 ≤ LogIndex.last) (command : α) :
    (n.stored command).Fits n.clusterSize := by
  have hlength : ((n.log ++ [⟨n.term, command⟩] : Log α).length : Int) ≤ LogIndex.last := by
    rw [List.length_append]
    exact hlog
  have hlonger : (Node.idle { n with log := n.log ++ [⟨n.term, command⟩] }).Fits
      n.clusterSize :=
    ⟨rfl, ⟨h.member, hlength, h.commit, h.listed, h.votes, h.lead⟩, h.idle.actions⟩
  have hlast : LogIndex.Fits (Log.lastIndex (n.log ++ [⟨n.term, command⟩])) := by
    rw [Log.lastIndex_append_one]
    exact LogIndex.fits_natCast h.log
  exact hlonger.mapLead fun l hl => hl.enqueue hlast

theorem submit (h : n.Fits) (command : α)
    (hlog : ((n.submit command).2.node.log.length : Int) ≤ LogIndex.last) :
    (n.submit command).2.Fits n.clusterSize := by
  by_cases hleader : n.isLeader
  · rw [submit_log hleader, List.length_append] at hlog
    have hstored := h.stored hlog command
    exact hstored.steps (submit_steps hleader command fun j hj => hstored.awaits hj)
  · rw [submit_of_not_leader hleader]
    exact h.idle

theorem answerVote (h : n.Fits) (args : VoteRequest) :
    (n.answerVote args).2.Fits n.clusterSize := by
  have hterm := h.idle.observeTerm args.term
  unfold Node.answerVote
  split
  · exact h.idle
  · simp only
    split
    · exact ⟨hterm.clusterSize, hterm.node.of_role rfl rfl rfl rfl rfl, hterm.actions⟩
    · exact hterm

theorem follow (h : n.Fits) (args : AppendRequest α) : (n.follow args).Fits n.clusterSize := by
  have hterm := h.idle.observeTerm args.term
  have hfollower {t : Turn α} (ht : t.Fits n.clusterSize) : Turn.Fits n.clusterSize
      { t with node := { t.node with role := .follower (some args.leaderId) } } :=
    ⟨ht.clusterSize, ht.node.of_follower rfl rfl ht.node.log ht.node.commit rfl, ht.actions⟩
  unfold Node.follow
  simp only
  split
  · exact hfollower (hterm.emit trivial)
  · exact hfollower hterm.stepDown

theorem written (h : n.Fits) (args : AppendRequest α) {log : Log α}
    (hlog : (log.length : Int) ≤ LogIndex.last) : (n.written args log).Fits n.clusterSize := by
  have hfollow := h.follow args
  exact ⟨hfollow.clusterSize, hfollow.node.of_follower rfl rfl hlog hfollow.node.commit rfl,
    hfollow.actions⟩

theorem answerAppend (h : n.Fits) (args : AppendRequest α)
    (hlog : ((n.answerAppend args).2.node.log.length : Int) ≤ LogIndex.last) :
    (n.answerAppend args).2.Fits n.clusterSize := by
  rcases n.answerAppend_cases args with
    ⟨-, hturn⟩ | ⟨-, -, hturn⟩ | ⟨-, log, start, -, -, ⟨-, hturn⟩ | ⟨-, hturn⟩⟩
  · rw [hturn]
    exact h.idle
  · rw [hturn]
    exact h.follow args
  · rw [hturn] at hlog ⊢
    exact (h.written args hlog).commitThrough _
  · rw [hturn] at hlog ⊢
    exact (h.written args hlog).applyCommitted

theorem voteReturned (h : n.Fits) {sender : PeerId} (hsender : sender < n.clusterSize)
    (generation : Generation) (reply : Option VoteReply) :
    (n.voteReturned sender generation reply).Fits n.clusterSize := by
  rcases n.voteReturned_cases sender generation reply with
    hturn | ⟨r, -, ⟨-, hturn⟩ | ⟨-, -, votes, hrole, hcount⟩⟩
  · rw [hturn]
    exact h.idle
  · rw [hturn]
    exact h.idle.observeTerm r.term
  · have hcounted := h.idle.count hrole hsender
    rcases hcount with ⟨-, hturn⟩ | ⟨-, hturn⟩
    · rw [hturn]
      exact hcounted
    · rw [hturn]
      exact hcounted.becomeLeader (hcounted.node.listed RoleKind.noConfusion)

theorem record (h : n.Fits) {context : AppendContext} (hcontext : context.Fits) (sender : PeerId) :
    (n.idle.record sender context).Fits n.clusterSize := by
  unfold Turn.record
  split
  · rename_i k hk
    exact h.idle.mapLead fun l hl => hl.recordSuccess sender (hcontext.lastSent k hk)
  · exact h.idle

theorem appendAccepted (h : n.Fits) {sender : PeerId} (hsender : sender < n.clusterSize)
    {context : AppendContext} (hcontext : context.Fits) :
    (appendAccepted n.idle sender context).Fits n.clusterSize := by
  have hrecord := h.record hcontext sender
  exact hrecord.steps (appendAccepted_steps (fun _ _ _ _ => hsender) fun j hj => hrecord.awaits hj)

theorem appendRejected (h : n.Fits) (sender : PeerId) {context : AppendContext}
    (hcontext : context.Fits) :
    (appendRejected n.idle sender context.round).Fits n.clusterSize := by
  have hfailed := h.idle.mapLead fun l hl => hl.recordFailure sender
  cases hround : context.round with
  | heartbeat => exact hfailed
  | replicate agreement cursor =>
      simp only [Node.appendRejected]
      split
      · rename_i hpos
        refine hfailed.emitAll ?_
        intro a ha
        refine hfailed.node.appendCall ?_ (Option.mem_toList.mp ha)
        intro i k heq
        obtain ⟨-, rfl⟩ := Round.replicate.inj heq
        have hlast := (hcontext.cursor agreement cursor hround).2
        refine ⟨LogIndex.absent_le_prev cursor, ?_⟩
        rw [LogIndex.prev_of_nonneg (Int.le_of_lt hpos)]
        lia
      · exact h.idle

theorem appendReturned (h : n.Fits) {sender : PeerId} (hsender : sender < n.clusterSize)
    {context : AppendContext} (hcontext : context.Fits) (reply : Option AppendReply) :
    (n.appendReturned sender context reply).Fits n.clusterSize := by
  rcases n.appendReturned_cases sender context reply with
    hturn | ⟨r, -, ⟨-, hturn⟩ | ⟨-, -, -, ⟨-, hturn⟩ | ⟨-, hturn⟩⟩⟩
  · rw [hturn]
    exact h.idle
  · rw [hturn]
    exact h.idle.observeTerm r.term
  · rw [hturn]
    exact h.appendAccepted hsender hcontext
  · rw [hturn]
    exact h.appendRejected sender hcontext

/-- Whatever happens to a node keeps it within its bounds, as long as its log is, and unless it
stands for election in a cluster too large to list. -/
theorem handle (h : n.Fits) {e : Event α} (he : e.Fits n.clusterSize)
    (hlog : ((n.after e).log.length : Int) ≤ LogIndex.last)
    (hlisted : e = .electionTimeout → ¬ n.isLeader → n.clusterSize ≤ Checked.vectorLimit + 1) :
    (n.handle e).2.Fits n.clusterSize := by
  cases e with
  | start =>
      have hreset := h.idle.emit (a := .resetElectionTimer) trivial
      exact ⟨rfl, h.of_role rfl rfl rfl rfl rfl, hreset.actions⟩
  | electionTimeout =>
      change n.electionTimeout.Fits _
      unfold Node.electionTimeout
      split
      · exact h.idle
      · rename_i hleader
        exact h.standForElection (hlisted rfl hleader)
  | heartbeatTimeout => exact h.heartbeatTimeout
  | submit command => exact h.submit command hlog
  | voteRequest args => exact h.answerVote args
  | appendRequest args => exact h.answerAppend args hlog
  | voteReturned sender generation reply => exact h.voteReturned he generation reply
  | appendReturned sender context reply => exact h.appendReturned he.1 he.2 reply

end Node.Fits

end Quorum
