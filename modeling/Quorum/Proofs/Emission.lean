import Quorum.Proofs.Delivery
import Quorum.Proofs.Office

/-!
The calls that an event makes a node send. Requests for votes come from an election timeout alone.
An append call is sent by the node as it is at some point of its turn: its log and its term are
those at the end of the turn, its commit index may still rise.
-/

namespace Quorum

variable {α : Type}

/-- An append call that a leader sends to a peer, where `ask` tells which agreements are sought of
whom while the commit index is where it is. -/
inductive Node.Sends (ask : PeerId → LogIndex → LogIndex → Prop) (n : Node α) :
    PeerId → AppendContext → AppendRequest α → Prop
  | heartbeat {lead : Leadership} {peer : PeerId} {next : LogIndex} (hpeer : peer ≠ n.id)
      (hrole : n.role = .leader lead) (hnext : lead.next? peer = some next) :
      Sends ask n peer
        (.ofCall n.generation .heartbeat next (n.log.slice next n.log.lastIndex))
        (n.callFrom next n.log.lastIndex)
  | replicate {lead : Leadership} {peer : PeerId} {next agreement cursor : LogIndex}
      (hask : ask peer agreement n.commitIndex)
      (hrole : n.role = .leader lead) (hnext : lead.next? peer = some next) :
      Sends ask n peer
        (.ofCall n.generation (.replicate agreement cursor) next
          (n.log.slice next (min (n.commitIndex + 1) n.log.lastIndex)))
        (n.callFrom next (min (n.commitIndex + 1) n.log.lastIndex))

namespace Node

variable {n : Node α} {ask : PeerId → LogIndex → LogIndex → Prop}

theorem sends_of_heartbeats (ask : PeerId → LogIndex → LogIndex → Prop) {a : Action α} (h : a ∈ n.heartbeats) :
    ∃ peer context args, a = .appendEntries peer context args ∧ n.Sends ask peer context args := by
  obtain ⟨peer, hpeer, hcall⟩ := mem_heartbeats h
  obtain ⟨lead, next, hrole, hnext, rfl⟩ := appendCall?_eq_some hcall
  exact ⟨peer, _, _, rfl, .heartbeat (mem_others.mp hpeer).2 hrole hnext⟩

theorem sends_of_replicateCall? {peer : PeerId} {agreement cursor : LogIndex} {a : Action α}
    (hask : ask peer agreement n.commitIndex) (h : n.replicateCall? peer agreement cursor = some a) :
    ∃ context args, a = .appendEntries peer context args ∧ n.Sends ask peer context args := by
  obtain ⟨lead, next, hrole, hnext, rfl⟩ := appendCall?_eq_some h
  exact ⟨_, _, rfl, .replicate hask hrole hnext⟩

/-- Whoever sends an append call leads, in the middle of a turn and so at the end of it. -/
theorem Sends.isLeader {m : Node α} {peer : PeerId} {context : AppendContext}
    {args : AppendRequest α} (h : m.Sends ask peer context args)
    (hm : m.standing = n.standing) : n.isLeader := by
  rw [← standing_isLeader hm]
  cases h with
  | heartbeat hpeer hrole hnext => exact isLeader_of_lead hrole
  | replicate hask hrole hnext => exact isLeader_of_lead hrole

end Node

namespace Turn

theorem packet?_of_mem_applyAfter {a : Action α} {i : LogIndex} {es : List (Entry α)}
    (h : a ∈ Action.applyAfter i es) (sender : PeerId) : a.packet? sender = none := by
  induction es generalizing i with
  | nil => cases h
  | cons e es ih =>
      rcases List.mem_cons.mp h with rfl | hrest
      · rfl
      · exact ih hrest

/-- A turn that has sent nothing but append calls, each from the node as it was at the time. -/
structure Posts (ask : PeerId → LogIndex → LogIndex → Prop) (t : Turn α) : Prop where
  requests : ∀ peer generation args, .requestVote peer generation args ∉ t.actions
  calls : ∀ peer context args, .appendEntries peer context args ∈ t.actions →
    ∃ m : Node α, m.standing = t.node.standing ∧ m.commitIndex ≤ t.node.commitIndex ∧
      m.Sends ask peer context args

namespace Posts

variable {ask : PeerId → LogIndex → LogIndex → Prop} {t u : Turn α}

theorem of_eq (h : t.Posts ask) (hactions : u.actions = t.actions)
    (hstanding : u.node.standing = t.node.standing)
    (hcommit : t.node.commitIndex ≤ u.node.commitIndex) : u.Posts ask where
  requests := by
    rw [hactions]
    exact h.requests
  calls := by
    intro peer context args hmem
    rw [hactions] at hmem
    obtain ⟨m, hm, hle, hsends⟩ := h.calls peer context args hmem
    exact ⟨m, hm.trans hstanding.symm, Int.le_trans hle hcommit, hsends⟩

/-- Calls that the node sends as it is now. -/
theorem emitAll (h : t.Posts ask) {as : List (Action α)}
    (has : ∀ a ∈ as, (∀ i, a.packet? i = none) ∨
      ∃ peer context args, a = .appendEntries peer context args ∧
        t.node.Sends ask peer context args) : (t.emitAll as).Posts ask where
  requests := by
    intro peer generation args hmem
    rcases List.mem_append.mp hmem with hold | hnew
    · exact h.requests _ _ _ hold
    · rcases has _ hnew with hquiet | ⟨_, _, _, heq, _⟩
      · cases hquiet peer
      · cases heq
  calls := by
    intro peer context args hmem
    rcases List.mem_append.mp hmem with hold | hnew
    · exact h.calls _ _ _ hold
    · rcases has _ hnew with hquiet | ⟨_, _, _, heq, hsends⟩
      · cases hquiet peer
      · cases heq
        exact ⟨t.node, rfl, Int.le_refl _, hsends⟩

theorem commitThrough (h : t.Posts ask) (i : LogIndex) : (t.commitThrough i).Posts ask where
  requests := by
    intro peer generation args hmem
    rcases List.mem_append.mp hmem with hold | hnew
    · exact h.requests _ _ _ hold
    · exact absurd (packet?_of_mem_applyAfter hnew peer) (by simp [Action.packet?])
  calls := by
    intro peer context args hmem
    rcases List.mem_append.mp hmem with hold | hnew
    · obtain ⟨m, hm, hle, hsends⟩ := h.calls _ _ _ hold
      exact ⟨m, hm.trans (commitThrough_standing t i).symm,
        Int.le_trans hle (Int.le_max_left _ _), hsends⟩
    · exact absurd (packet?_of_mem_applyAfter hnew peer) (by simp [Action.packet?])

theorem step {opens : LogIndex → Prop} {acks : LogIndex → PeerId → Prop}
    (hopens : ∀ i peer, opens i → peer ≠ t.node.id → ∀ k, i.prev = k → ask peer i k)
    (h : t.Posts ask) (hstep : t.Step opens acks u) : u.Posts ask := by
  have hstanding := hstep.standing
  cases hstep with
  | dequeue i => exact h.of_eq rfl hstanding (Int.le_refl _)
  | openAgreement i hi hprev => exact h.of_eq rfl hstanding (Int.le_refl _)
  | ask i hi hprev =>
      refine h.emitAll ?_
      intro a ha
      obtain ⟨peer, hpeer, hcall⟩ := List.mem_filterMap.mp ha
      have hask := hopens i peer hi (Node.mem_others.mp hpeer).2 _ hprev
      obtain ⟨context, args, rfl, hsends⟩ := Node.sends_of_replicateCall? hask hcall
      exact Or.inr ⟨peer, context, args, rfl, hsends⟩
  | acknowledge i p hp => exact h.of_eq rfl hstanding (Int.le_refl _)
  | commit i hi => exact h.commitThrough i

theorem steps {opens : LogIndex → Prop} {acks : LogIndex → PeerId → Prop}
    (hopens : ∀ i peer, opens i → peer ≠ t.node.id → ∀ k, i.prev = k → ask peer i k)
    (h : t.Posts ask) (hsteps : t.Steps opens acks u) : u.Posts ask := by
  induction hsteps with
  | refl => exact h
  | @tail u v hprior hstep ih =>
      have hid : u.node.id = t.node.id := Node.standing_id (Steps.standing hprior)
      exact ih.step (by rw [hid]; exact hopens) hstep

end Posts

/-- A turn that has sent nothing at all. -/
def Quiet (t : Turn α) : Prop := ∀ a ∈ t.actions, ∀ i, a.packet? i = none

namespace Quiet

variable {t : Turn α}

theorem posts (h : t.Quiet) (ask : PeerId → LogIndex → LogIndex → Prop) : t.Posts ask where
  requests := by
    intro peer generation args hmem
    cases h _ hmem peer
  calls := by
    intro peer context args hmem
    cases h _ hmem peer

theorem emitAll (h : t.Quiet) {as : List (Action α)} (has : ∀ a ∈ as, ∀ i, a.packet? i = none) :
    (t.emitAll as).Quiet := by
  intro a ha
  rcases List.mem_append.mp ha with hold | hnew
  · exact h a hold
  · exact has a hnew

theorem emit (h : t.Quiet) {a : Action α} (ha : ∀ i, a.packet? i = none) : (t.emit a).Quiet := by
  refine h.emitAll ?_
  intro b hb
  obtain rfl := List.mem_singleton.mp hb
  exact ha

theorem changeRole (h : t.Quiet) (r : Role) : (t.changeRole r).Quiet := by
  refine h.emitAll ?_
  intro a ha
  split at ha
  · cases ha
  · obtain rfl := List.mem_singleton.mp ha
    exact fun _ => rfl

theorem stepDown (h : t.Quiet) : t.stepDown.Quiet := by
  unfold Turn.stepDown
  split
  · exact h
  · refine (h.changeRole _).emitAll ?_
    simp [Action.packet?]

theorem observeTerm (h : t.Quiet) (T : Term) : (t.observeTerm T).Quiet := by
  unfold Turn.observeTerm
  split
  · exact h
  · exact stepDown h

theorem filterMap (h : t.Quiet) (i : PeerId) : t.actions.filterMap (Action.packet? i) = [] :=
  List.filterMap_eq_nil_iff.mpr fun a ha => h a ha i

end Quiet

theorem mem_becomeLeader {t : Turn α} {a : Action α} (h : a ∈ t.becomeLeader.actions) :
    a ∈ t.actions ∨ (∀ i, a.packet? i = none) ∨ a ∈ t.becomeLeader.node.heartbeats := by
  unfold becomeLeader at h
  simp only [emit, emitAll, changeRole, List.mem_append, List.mem_singleton] at h
  rcases h with (((hold | htold) | rfl) | hbeat) | rfl
  · exact Or.inl hold
  · refine Or.inr (Or.inl ?_)
    split at htold
    · cases htold
    · obtain rfl := List.mem_singleton.mp htold
      exact fun _ => rfl
  · exact Or.inr (Or.inl fun _ => rfl)
  · exact Or.inr (Or.inr hbeat)
  · exact Or.inr (Or.inl fun _ => rfl)

end Turn

theorem mem_of_mem_insertByIndex {β : Type} {key : β → LogIndex} {x y : β} {l : List β}
    (h : y ∈ insertByIndex key x l) : y = x ∨ y ∈ l := by
  induction l with
  | nil => exact Or.inl (List.mem_singleton.mp h)
  | cons z rest ih =>
      unfold insertByIndex at h
      split at h
      · exact List.mem_cons.mp h
      · split at h
        · exact Or.inr h
        · rcases List.mem_cons.mp h with rfl | hrest
          · exact Or.inr List.mem_cons_self
          · rcases ih hrest with hx | hy
            · exact Or.inl hx
            · exact Or.inr (List.mem_cons_of_mem _ hy)

namespace Node

variable {n : Node α} {ask : PeerId → LogIndex → LogIndex → Prop}

theorem idle_quiet (n : Node α) : n.idle.Quiet := by
  intro a ha
  cases ha

theorem answerVote_quiet (n : Node α) (args : VoteRequest) : (n.answerVote args).2.Quiet := by
  have hterm := n.idle_quiet.observeTerm args.term
  unfold answerVote
  split
  · exact n.idle_quiet
  · simp only
    split
    · exact hterm
    · exact hterm

theorem follow_quiet (n : Node α) (args : AppendRequest α) : (n.follow args).Quiet := by
  have hterm := n.idle_quiet.observeTerm args.term
  unfold follow
  simp only
  split
  · exact hterm.emit (a := .resetElectionTimer) fun _ => rfl
  · exact hterm.stepDown

theorem answerAppend_quiet (n : Node α) (args : AppendRequest α) :
    (n.answerAppend args).2.Quiet := by
  have hfollow := n.follow_quiet args
  rcases n.answerAppend_cases args with
    ⟨-, hturn⟩ | ⟨-, -, hturn⟩ | ⟨-, log, start, -, -, hwrite⟩
  · rw [hturn]
    exact n.idle_quiet
  · rw [hturn]
    exact hfollow
  · have hwritten : (n.written args (log.merge start args.entries)).Quiet := hfollow
    rcases hwrite with ⟨-, hturn⟩ | ⟨-, hturn⟩
    · rw [hturn]
      exact hwritten.emitAll fun a ha => Turn.packet?_of_mem_applyAfter ha
    · rw [hturn]
      exact hwritten.emitAll fun a ha => Turn.packet?_of_mem_applyAfter ha

theorem becomeLeader_posts {t : Turn α} (h : t.Quiet) : t.becomeLeader.Posts ask where
  requests := by
    intro peer generation args hmem
    rcases Turn.mem_becomeLeader hmem with hold | hquiet | hbeat
    · cases h _ hold peer
    · cases hquiet peer
    · obtain ⟨_, _, _, heq, _⟩ := sends_of_heartbeats ask hbeat
      cases heq
  calls := by
    intro peer context args hmem
    rcases Turn.mem_becomeLeader hmem with hold | hquiet | hbeat
    · cases h _ hold peer
    · cases hquiet peer
    · obtain ⟨_, _, _, heq, hsends⟩ := sends_of_heartbeats ask hbeat
      cases heq
      exact ⟨_, rfl, Int.le_refl _, hsends⟩

theorem voteReturned_posts (n : Node α) (sender : PeerId) (generation : Generation)
    (reply : Option VoteReply) : (n.voteReturned sender generation reply).Posts ask := by
  rcases n.voteReturned_cases sender generation reply with
    hturn | ⟨r, -, ⟨-, hturn⟩ | ⟨-, -, votes, -, ⟨-, hturn⟩ | ⟨-, hturn⟩⟩⟩
  · rw [hturn]
    exact n.idle_quiet.posts ask
  · rw [hturn]
    exact (n.idle_quiet.observeTerm r.term).posts ask
  · rw [hturn]
    exact (idle_quiet _).posts ask
  · rw [hturn]
    exact becomeLeader_posts (idle_quiet _)

theorem heartbeatTimeout_posts (n : Node α) : n.heartbeatTimeout.Posts ask := by
  unfold heartbeatTimeout
  split
  · refine (n.idle_quiet.posts ask).emitAll ?_
    intro a ha
    rcases List.mem_append.mp ha with hbeat | hlast
    · exact Or.inr (sends_of_heartbeats ask hbeat)
    · obtain rfl := List.mem_singleton.mp hlast
      exact Or.inl fun _ => rfl
  · exact n.idle_quiet.posts ask

/-- All that a node sends when it stands for election: requests to the others, and heartbeats if
it has won already. -/
theorem mem_standForElection {a : Action α} (h : a ∈ n.standForElection.actions) :
    (∀ i, a.packet? i = none) ∨
    (∃ p, p ≠ n.id ∧
      a = .requestVote p n.generation.next { n with term := n.term.next }.voteRequest) ∨
    a ∈ n.standForElection.node.heartbeats := by
  let stood := Turn.changeRole (idle { n with term := n.term.next, votedFor := some n.id })
    (.candidate (.single n.id))
  let asked := (stood.emitAll (n.others.map fun p => .requestVote p n.generation.next
    { n with term := n.term.next }.voteRequest)).emit .resetElectionTimer
  have hquiet : stood.Quiet := (idle_quiet _).changeRole _
  have hasked : a ∈ asked.actions → (∀ i, a.packet? i = none) ∨
      ∃ p, p ≠ n.id ∧
        a = .requestVote p n.generation.next { n with term := n.term.next }.voteRequest := by
    intro ha
    rcases List.mem_append.mp ha with hcalls | hreset
    · rcases List.mem_append.mp hcalls with hold | hcall
      · exact Or.inl (hquiet a hold)
      · obtain ⟨p, hp, rfl⟩ := List.mem_map.mp hcall
        exact Or.inr ⟨p, (mem_others.mp hp).2, rfl⟩
    · obtain rfl := List.mem_singleton.mp hreset
      exact Or.inl fun _ => rfl
  have hturn : n.standForElection =
      if (Tally.single n.id).IsMajority n.clusterSize then asked.becomeLeader else asked := rfl
  rw [hturn] at h ⊢
  split at h
  · rename_i hmajority
    rw [if_pos hmajority]
    rcases Turn.mem_becomeLeader h with hold | hnone | hbeat
    · rcases hasked hold with hnone | hcall
      · exact Or.inl hnone
      · exact Or.inr (Or.inl hcall)
    · exact Or.inl hnone
    · exact Or.inr (Or.inr hbeat)
  · rcases hasked h with hnone | hcall
    · exact Or.inl hnone
    · exact Or.inr (Or.inl hcall)

theorem record_awaits {t : Turn α} {sender : PeerId} {context : AppendContext} {i : LogIndex}
    (h : (t.record sender context).node.Awaits i) : t.node.Awaits i := by
  unfold Turn.record at h
  split at h
  · rename_i lastSent _
    exact Turn.mapLead_awaits (f := (·.recordSuccess sender lastSent))
      (fun l => List.Subset.refl _) h
  · exact h

theorem stored_awaits {command : α} {i : LogIndex} (h : (n.stored command).node.Awaits i) :
    n.Awaits i ∨ i = (n.log.length : Int) := by
  obtain ⟨l, hrole, hi⟩ := h
  have hlast : Log.lastIndex (n.log ++ [⟨n.term, command⟩]) = (n.log.length : Int) :=
    Log.lastIndex_append_one _ _
  obtain ⟨lead, hlead, rfl⟩ := Role.of_mapLead hrole
  rcases mem_of_mem_insertByIndex hi with rfl | hold
  · exact Or.inr hlast
  · exact Or.inl ⟨lead, hlead, hold⟩

theorem submit_posts {command : α}
    (hask : ∀ i, n.Awaits i ∨ i = (n.log.length : Int) → ∀ peer, peer ≠ n.id →
      ∀ k, i.prev = k → ask peer i k) : (n.submit command).2.Posts ask := by
  by_cases hleader : n.isLeader
  · have hstored : (n.stored command).Quiet := n.idle_quiet
    have hsteps : (n.stored command).Steps
        (fun i => n.Awaits i ∨ i = (n.log.length : Int)) (fun _ _ => True) (n.submit command).2 :=
      submit_steps hleader command fun j hj => stored_awaits hj
    exact (hstored.posts ask).steps (fun i peer hi hpeer => hask i hi peer hpeer) hsteps
  · rw [submit_of_not_leader hleader]
    exact n.idle_quiet.posts ask

theorem appendAccepted_posts {sender : PeerId} {context : AppendContext}
    (hask : ∀ i, n.Awaits i → ∀ peer, peer ≠ n.id → ∀ k, i.prev = k → ask peer i k) :
    (appendAccepted n.idle sender context).Posts ask := by
  have hrecord : (n.idle.record sender context).Quiet := by
    unfold Turn.record
    split
    · exact n.idle_quiet
    · exact n.idle_quiet
  have hsteps : (n.idle.record sender context).Steps n.Awaits (fun _ _ => True)
      (appendAccepted n.idle sender context) :=
    appendAccepted_steps (fun _ _ _ _ => trivial) fun j hj => record_awaits hj
  have hid : (n.idle.record sender context).node.id = n.id :=
    (record_sameOffice n.idle sender context).id
  refine (hrecord.posts ask).steps ?_ hsteps
  intro i peer hi hpeer
  exact hask i hi peer (by rwa [hid] at hpeer)

theorem appendRejected_posts {sender : PeerId} {round : Round}
    (hask : ∀ agreement cursor, round = .replicate agreement cursor →
      ask sender agreement n.commitIndex) : (appendRejected n.idle sender round).Posts ask := by
  have hback : (n.idle.mapLead (·.recordFailure sender)).Quiet := n.idle_quiet
  unfold appendRejected
  split
  · exact hback.posts ask
  · rename_i agreement cursor
    split
    · refine (hback.posts ask).emitAll ?_
      intro a ha
      have hmatch : ask sender agreement
          (n.idle.mapLead (·.recordFailure sender)).node.commitIndex := hask agreement cursor rfl
      obtain ⟨context, args, rfl, hsends⟩ :=
        sends_of_replicateCall? hmatch (Option.mem_toList.mp ha)
      exact Or.inr ⟨sender, context, args, rfl, hsends⟩
    · exact n.idle_quiet.posts ask

theorem appendReturned_posts {sender : PeerId} {context : AppendContext}
    {reply : Option AppendReply}
    (hask : ∀ i, n.Awaits i → ∀ peer, peer ≠ n.id → ∀ k, i.prev = k → ask peer i k)
    (hretry : ∀ r, reply = some r → n.isLeader → context.generation = n.generation →
      ∀ agreement cursor, context.round = .replicate agreement cursor →
        ask sender agreement n.commitIndex) :
    (n.appendReturned sender context reply).Posts ask := by
  rcases n.appendReturned_cases sender context reply with
    hturn | ⟨r, hreply, ⟨-, hturn⟩ | ⟨-, hlead, hgen, ⟨-, hturn⟩ | ⟨-, hturn⟩⟩⟩
  · rw [hturn]
    exact n.idle_quiet.posts ask
  · rw [hturn]
    exact (n.idle_quiet.observeTerm r.term).posts ask
  · rw [hturn]
    exact appendAccepted_posts hask
  · rw [hturn]
    exact appendRejected_posts (hretry r hreply hlead hgen)

/-- Only a node that stands for election asks for votes. -/
theorem requestVote_of_handle {e : Event α} {peer : PeerId} {generation : Generation}
    {args : VoteRequest} (h : .requestVote peer generation args ∈ (n.handle e).2.actions) :
    e = .electionTimeout ∧ ¬ n.isLeader ∧ peer ≠ n.id ∧ generation = n.generation.next ∧
      args = { n with term := n.term.next }.voteRequest := by
  have hnone {t : Turn α} (ht : t.Posts fun _ _ _ => True)
      (hmem : .requestVote peer generation args ∈ t.actions) : False :=
    ht.requests _ _ _ hmem
  cases e with
  | electionTimeout =>
      change _ ∈ n.electionTimeout.actions at h
      unfold electionTimeout at h
      split at h
      · cases h
      · rename_i hleader
        rcases mem_standForElection h with hquiet | ⟨p, hp, heq⟩ | hbeat
        · cases hquiet peer
        · obtain ⟨rfl, rfl, rfl⟩ := Action.requestVote.inj heq
          exact ⟨rfl, hleader, hp, rfl, rfl⟩
        · obtain ⟨_, _, _, heq, _⟩ := sends_of_heartbeats (fun _ _ _ => True) hbeat
          cases heq
  | start => cases List.mem_singleton.mp h
  | heartbeatTimeout => exact (hnone n.heartbeatTimeout_posts h).elim
  | submit command =>
      exact (hnone (submit_posts fun _ _ _ _ _ _ => trivial) h).elim
  | voteRequest args => exact (hnone ((n.answerVote_quiet args).posts _) h).elim
  | appendRequest args => exact (hnone ((n.answerAppend_quiet args).posts _) h).elim
  | voteReturned sender generation reply =>
      exact (hnone (n.voteReturned_posts sender generation reply) h).elim
  | appendReturned sender context reply =>
      exact (hnone (appendReturned_posts (fun _ _ _ _ _ _ => trivial)
        fun _ _ _ _ _ _ _ => trivial) h).elim

/-- Every append call of an event is one that the node sends with the log and the term it has in
the end. -/
theorem appendEntries_of_handle (ask : PeerId → LogIndex → LogIndex → Prop) {e : Event α}
    {peer : PeerId} {context : AppendContext} {args : AppendRequest α}
    (h : .appendEntries peer context args ∈ (n.handle e).2.actions)
    (hask : ∀ i, n.Awaits i ∨ (∃ command, e = .submit command) ∧ i = (n.log.length : Int) →
      ∀ p, p ≠ n.id → ∀ k, i.prev = k → ask p i k)
    (hretry : ∀ sender ctx reply, e = .appendReturned sender ctx (some reply) → n.isLeader →
      ctx.generation = n.generation → ∀ agreement cursor,
        ctx.round = .replicate agreement cursor → ask sender agreement n.commitIndex) :
    ∃ m : Node α, m.standing = (n.after e).standing ∧ m.commitIndex ≤ (n.after e).commitIndex ∧
      m.Sends ask peer context args := by
  cases e with
  | electionTimeout =>
      change _ ∈ n.electionTimeout.actions at h
      have hafter : n.after .electionTimeout = n.electionTimeout.node := rfl
      rw [hafter]
      unfold electionTimeout at h ⊢
      split at h
      · cases h
      · rename_i hleader
        rw [if_neg hleader]
        rcases mem_standForElection h with hquiet | ⟨p, hp, heq⟩ | hbeat
        · cases hquiet peer
        · cases heq
        · obtain ⟨_, _, _, heq, hsends⟩ := sends_of_heartbeats ask hbeat
          cases heq
          exact ⟨_, rfl, Int.le_refl _, hsends⟩
  | start => cases List.mem_singleton.mp h
  | heartbeatTimeout => exact n.heartbeatTimeout_posts.calls _ _ _ h
  | submit command =>
      refine (submit_posts ?_).calls _ _ _ h
      intro i hi
      refine hask i ?_
      rcases hi with hold | hnew
      · exact Or.inl hold
      · exact Or.inr ⟨⟨command, rfl⟩, hnew⟩
  | voteRequest args => exact ((n.answerVote_quiet args).posts ask).calls _ _ _ h
  | appendRequest args => exact ((n.answerAppend_quiet args).posts ask).calls _ _ _ h
  | voteReturned sender generation reply =>
      exact (n.voteReturned_posts sender generation reply).calls _ _ _ h
  | appendReturned sender context reply =>
      refine (appendReturned_posts (fun i hi => hask i (Or.inl hi)) ?_).calls _ _ _ h
      intro r hreply
      exact hretry sender context r (by rw [hreply])

/-- Every append call of an event is one that the node sends, whatever it seeks agreement on. -/
theorem call_of_handle {e : Event α} {peer : PeerId} {context : AppendContext}
    {args : AppendRequest α} (h : .appendEntries peer context args ∈ (n.handle e).2.actions) :
    ∃ m : Node α, m.standing = (n.after e).standing ∧ m.commitIndex ≤ (n.after e).commitIndex ∧
      m.Sends (fun _ _ _ => True) peer context args :=
  appendEntries_of_handle _ h (fun _ _ _ _ _ _ => trivial) fun _ _ _ _ _ _ _ _ _ => trivial

/-- Every append call of an event is made to another node, and seeks agreement, if at all, on an
entry that waits, or is new, or has been sought before, no later than the one after the commit
index. -/
theorem sends_of_handle {owns : LogIndex → Prop} {e : Event α} {peer : PeerId}
    {context : AppendContext} {args : AppendRequest α}
    (h : .appendEntries peer context args ∈ (n.handle e).2.actions)
    (howns : ∀ i, n.Awaits i ∨ (∃ command, e = .submit command) ∧ i = (n.log.length : Int) → owns i)
    (hretry : ∀ sender ctx reply, e = .appendReturned sender ctx (some reply) → n.isLeader →
      ctx.generation = n.generation → ∀ agreement cursor,
        ctx.round = .replicate agreement cursor →
          sender ≠ n.id ∧ owns agreement ∧ agreement ≤ n.commitIndex + 1) :
    ∃ m : Node α, m.standing = (n.after e).standing ∧ m.commitIndex ≤ (n.after e).commitIndex ∧
      m.Sends (fun p i k => p ≠ n.id ∧ owns i ∧ i ≤ k + 1) peer context args := by
  apply appendEntries_of_handle _ h
  · rintro i hi p hp k rfl
    refine ⟨hp, howns i hi, ?_⟩
    unfold LogIndex.prev LogIndex.absent
    split <;> lia
  · exact hretry

end Node

end Quorum
