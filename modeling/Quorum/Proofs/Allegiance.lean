import Quorum.Proofs.Fencing
import Quorum.Proofs.Shipping

/-!
Whom a member takes for the leader. A follower learns it from an append call, in the call's term,
and whoever stands for election or steps down forgets it. But a follower that adopts a later term
goes on to report the leader of the earlier one, until it hears from the next.
-/

namespace Quorum

variable {α : Type}

/-- The ways in which an event can move what a node takes for its leader. -/
inductive Node.Regards (n : Node α) (e : Event α) (m : Node α) : Prop
  | keep (hleader : m.leaderId = n.leaderId)
  | forget (hleader : m.leaderId = none)
  | lead (hleads : m.isLeader)
  | follow (args : AppendRequest α) (he : e = .appendRequest args) (hterm : m.term = args.term)
      (hleader : m.leaderId = some args.leaderId)

namespace Node

theorem leaderId_of_isLeader {n : Node α} (h : n.isLeader) : n.leaderId = some n.id := by
  obtain ⟨l, hl⟩ := exists_lead h
  simp only [leaderId, hl]

/-- A follower keeps its leader through a later term, any other node forgets it. -/
theorem observeTerm_leaderId (t : Turn α) (T : Term) :
    (t.observeTerm T).node.leaderId = t.node.leaderId ∨
      (t.observeTerm T).node.leaderId = none := by
  unfold Turn.observeTerm Turn.stepDown
  split
  · exact Or.inl rfl
  · split
    · exact Or.inl rfl
    · exact Or.inr rfl

theorem regards_of_observeTerm (n : Node α) (e : Event α) (T : Term) :
    n.Regards e (n.idle.observeTerm T).node :=
  (observeTerm_leaderId n.idle T).elim .keep .forget

theorem electionTimeout_regards (n : Node α) :
    n.Regards .electionTimeout n.electionTimeout.node := by
  unfold electionTimeout
  split
  · exact .keep rfl
  · unfold standForElection
    simp only
    split
    · exact .lead rfl
    · exact .forget rfl

theorem submit_regards (n : Node α) (command : α) :
    n.Regards (.submit command) (n.submit command).2.node := by
  by_cases hleader : n.isLeader
  · exact .lead ((n.submit_sameOffice command).isLeader.trans hleader)
  · rw [submit_of_not_leader hleader]
    exact .keep rfl

theorem answerVote_regards (n : Node α) (args : VoteRequest) :
    n.Regards (.voteRequest args) (n.answerVote args).2.node := by
  unfold answerVote
  split
  · exact .keep rfl
  · simp only
    split
    · rcases observeTerm_leaderId n.idle args.term with hkept | hnone
      · exact .keep hkept
      · exact .forget hnone
    · exact n.regards_of_observeTerm _ args.term

theorem answerAppend_regards (n : Node α) (args : AppendRequest α) :
    n.Regards (.appendRequest args) (n.answerAppend args).2.node := by
  rcases n.answerAppend_cases args with
    ⟨-, hturn⟩ | ⟨hle, -, hturn⟩ | ⟨hle, log, start, -, -, ⟨-, hturn⟩ | ⟨-, hturn⟩⟩
  · rw [hturn]
    exact .keep rfl
  · rw [hturn]
    exact .follow args rfl (n.follow_term hle) rfl
  · rw [hturn]
    exact .follow args rfl (n.follow_term hle) rfl
  · rw [hturn]
    exact .follow args rfl (n.follow_term hle) rfl

theorem voteReturned_regards (n : Node α) (sender : PeerId) (generation : Generation)
    (reply : Option VoteReply) :
    n.Regards (.voteReturned sender generation reply)
      (n.voteReturned sender generation reply).node := by
  rcases n.voteReturned_cases sender generation reply with
    hturn | ⟨r, -, ⟨-, hturn⟩ | ⟨-, -, votes, -, ⟨-, hturn⟩ | ⟨-, hturn⟩⟩⟩
  · rw [hturn]
    exact .keep rfl
  · rw [hturn]
    exact n.regards_of_observeTerm _ r.term
  · rw [hturn]
    exact .forget rfl
  · rw [hturn]
    exact .lead rfl

theorem appendReturned_regards (n : Node α) (sender : PeerId) (context : AppendContext)
    (reply : Option AppendReply) :
    n.Regards (.appendReturned sender context reply)
      (n.appendReturned sender context reply).node := by
  rcases n.appendReturned_cases sender context reply with
    hturn | ⟨r, -, ⟨-, hturn⟩ | ⟨-, hleader, -, ⟨-, hturn⟩ | ⟨-, hturn⟩⟩⟩
  · rw [hturn]
    exact .keep rfl
  · rw [hturn]
    exact n.regards_of_observeTerm _ r.term
  · rw [hturn]
    exact .lead ((appendAccepted_sameOffice n.idle sender context).isLeader.trans hleader)
  · rw [hturn]
    exact .lead ((appendRejected_sameOffice n.idle sender context.round).isLeader.trans hleader)

/-- Whatever happens to a node, what it takes for its leader moves in one of these ways. -/
theorem after_regards (n : Node α) (e : Event α) : n.Regards e (n.after e) := by
  cases e with
  | start => exact .keep rfl
  | electionTimeout => exact n.electionTimeout_regards
  | heartbeatTimeout => exact .keep (congrArg leaderId n.heartbeatTimeout_node)
  | submit command => exact n.submit_regards command
  | voteRequest args => exact n.answerVote_regards args
  | appendRequest args => exact n.answerAppend_regards args
  | voteReturned sender generation reply => exact n.voteReturned_regards sender generation reply
  | appendReturned sender context reply => exact n.appendReturned_regards sender context reply

/-- A call that is not of an earlier term tells its recipient who leads. -/
theorem after_appendRequest {n : Node α} {args : AppendRequest α} (h : n.term ≤ args.term) :
    (n.after (.appendRequest args)).term = args.term ∧
      (n.after (.appendRequest args)).leaderId = some args.leaderId := by
  change (n.answerAppend args).2.node.term = _ ∧ (n.answerAppend args).2.node.leaderId = _
  rcases n.answerAppend_cases args with
    ⟨hlater, -⟩ | ⟨hle, -, hturn⟩ | ⟨hle, log, start, -, -, ⟨-, hturn⟩ | ⟨-, hturn⟩⟩
  · exact absurd h (Nat.not_le_of_lt hlater)
  · rw [hturn]
    exact ⟨n.follow_term hle, rfl⟩
  · rw [hturn]
    exact ⟨n.follow_term hle, rfl⟩
  · rw [hturn]
    exact ⟨n.follow_term hle, rfl⟩

end Node

/-- In the course of the states `ds`, of which the latest comes first, the member at `i` has gone
along with an append call of the term `T`. -/
def Heard (ds : List (Cluster α)) (i : PeerId) (T : Term) : Prop :=
  ∃ since d' d before n args, ds = since ++ d' :: d :: before ∧
    d.Acts i n (.appendRequest args) d' ∧ n.term ≤ args.term ∧ args.term = T

/-- Such a call has come last, or before. -/
theorem Heard.last_or_before {c c' : Cluster α} {past : List (Cluster α)} {i : PeerId} {T : Term}
    (h : Heard (c' :: c :: past) i T) :
    (∃ n args, c.Acts i n (.appendRequest args) c' ∧ n.term ≤ args.term ∧ args.term = T) ∨
      Heard (c :: past) i T := by
  obtain ⟨since, d', d, before, n, args, hds, hact, hle, hterm⟩ := h
  cases since with
  | nil =>
      simp only [List.nil_append, List.cons.injEq] at hds
      obtain ⟨rfl, rfl, -⟩ := hds
      exact Or.inl ⟨n, args, hact, hle, hterm⟩
  | cons b since =>
      obtain ⟨-, hds⟩ := List.cons.inj hds
      exact Or.inr ⟨since, d', d, before, n, args, hds, hact, hle, hterm⟩

/-- In the course of the states `ds` the member `x` has led the term `T`. -/
def HasLed (ds : List (Cluster α)) (x : PeerId) (T : Term) : Prop := ∃ d ∈ ds, d.Leads x T

theorem HasLed.cons {ds : List (Cluster α)} {x : PeerId} {T : Term} (h : HasLed ds x T)
    (c : Cluster α) : HasLed (c :: ds) x T := by
  obtain ⟨d, hd, hleads⟩ := h
  exact ⟨d, List.mem_cons_of_mem _ hd, hleads⟩

/-- What a node at `i` takes for its leader has led a term that is not later than its own: its own
one, if the node leads itself or has gone along with a leader's call in it. -/
structure Node.Informed (n : Node α) (ds : List (Cluster α)) (i : PeerId) : Prop where
  heard : ∀ T, Heard ds i T → T ≤ n.term
  earlier : ∀ x, n.leaderId = some x → ∃ T ≤ n.term, HasLed ds x T
  present : ∀ x, n.leaderId = some x → n.isLeader ∨ Heard ds i n.term → HasLed ds x n.term

/-- What is said in a cluster about who leads is true of some moment: by the members' own words, and
by the calls on their way. -/
structure Cluster.Informs (c : Cluster α) (ds : List (Cluster α)) : Prop where
  node : ∀ (i : PeerId) n, c.nodes[i]? = some n → n.Informed ds i
  request : ∀ s r context args, .appendRequest s r context args ∈ c.packets →
    HasLed ds args.leaderId args.term

namespace Cluster.Informs

variable {c c' : Cluster α} {past : List (Cluster α)} {size : Nat} {rule : Rule α}

theorem fresh (size : Nat) : (Cluster.fresh size : Cluster α).Informs [.fresh size] where
  node := by
    intro i n hn
    obtain ⟨-, rfl⟩ := fresh_node hn
    have hnever (T : Term) : ¬ Heard [(Cluster.fresh size : Cluster α)] i T := by
      rintro ⟨since, d', d, before, -, -, hds, -⟩
      have hlength := congrArg List.length hds
      simp only [List.length_append, List.length_cons, List.length_nil] at hlength
      omega
    refine ⟨fun T h => absurd h (hnever T), ?_, ?_⟩
    · intro x hx
      cases hx
    · intro x hx
      cases hx
  request := by
    intro s r context args hp
    cases hp

/-- A node that has just gone along with a call knows who leads its term. -/
theorem informed_of_heard (h : c.Informs (c :: past)) {i : PeerId} {n m : Node α}
    {args : AppendRequest α} (hact : c.Acts i n (.appendRequest args) c')
    (hle : n.term ≤ args.term) (hm : c'.nodes[i]? = some m) :
    m.term = args.term ∧ ∀ x, m.leaderId = some x → HasLed (c' :: c :: past) x m.term := by
  obtain rfl := Option.some.inj (hm.symm.trans hact.node_self)
  obtain ⟨hterm, hleader⟩ := Node.after_appendRequest hle
  refine ⟨hterm, ?_⟩
  intro x hx
  obtain rfl := Option.some.inj (hx.symm.trans hleader)
  rw [hterm]
  cases hact.cause with
  | appendRequest hp => exact (h.request _ _ _ _ hp).cons c'

/-- What a node was informed of stays true while nothing happens to it. -/
theorem informed_unmoved (h : c.Informs (c :: past)) {i : PeerId} {n : Node α}
    (hn : c.nodes[i]? = some n) (hn' : c'.nodes[i]? = some n) : n.Informed (c' :: c :: past) i where
  heard := by
    intro T hheard
    rcases hheard.last_or_before with ⟨k, args, hact, hle, rfl⟩ | hbefore
    · exact Nat.le_of_eq (h.informed_of_heard hact hle hn').1.symm
    · exact (h.node i n hn).heard T hbefore
  earlier := by
    intro x hx
    obtain ⟨T, hT, hled⟩ := (h.node i n hn).earlier x hx
    exact ⟨T, hT, hled.cons c'⟩
  present := by
    rintro x hx (hleader | hheard)
    · exact ((h.node i n hn).present x hx (Or.inl hleader)).cons c'
    · rcases hheard.last_or_before with ⟨k, args, hact, hle, -⟩ | hbefore
      · exact (h.informed_of_heard hact hle hn').2 x hx
      · exact ((h.node i n hn).present x hx (Or.inr hbefore)).cons c'

/-- Whoever leads has led. -/
theorem hasLed_of_leader {i : PeerId} {m : Node α} {x : PeerId} (hm : c.nodes[i]? = some m)
    (hid : m.id = i) (hleader : m.isLeader) (hx : m.leaderId = some x) :
    HasLed (c :: past) x m.term := by
  rw [Node.leaderId_of_isLeader hleader] at hx
  obtain rfl := Option.some.inj hx
  rw [hid]
  exact ⟨c, List.mem_cons_self, m, hm, hleader, rfl⟩

theorem informed_after (h : c.Informs (c :: past)) {i : PeerId} {n : Node α} {e : Event α}
    (hact : c.Acts i n e c') (hid : n.id = i) : (n.after e).Informed (c' :: c :: past) i := by
  have hn := h.node i n hact.node
  have hm := hact.node_self
  have hterm : n.term ≤ (n.after e).term := (n.after_shift e).term_le
  have hidm : (n.after e).id = i := (n.after_shift e).id.trans hid
  refine ⟨?_, ?_, ?_⟩
  · intro T hheard
    rcases hheard.last_or_before with ⟨k, args, hacts, hle, rfl⟩ | hbefore
    · exact Nat.le_of_eq (h.informed_of_heard hacts hle hm).1.symm
    · exact Nat.le_trans (hn.heard T hbefore) hterm
  · intro x hx
    cases n.after_regards e with
    | keep hleader =>
        obtain ⟨T, hT, hled⟩ := hn.earlier x (hleader.symm.trans hx)
        exact ⟨T, Nat.le_trans hT hterm, hled.cons c'⟩
    | forget hleader =>
        rw [hleader] at hx
        cases hx
    | lead hleads => exact ⟨_, Nat.le_refl _, hasLed_of_leader hm hidm hleads hx⟩
    | follow args he hargs hleader =>
        subst he
        obtain rfl := Option.some.inj (hx.symm.trans hleader)
        cases hact.cause with
        | appendRequest hp =>
            exact ⟨args.term, Nat.le_of_eq hargs.symm, (h.request _ _ _ _ hp).cons c'⟩
  · rintro x hx (hleads | hheard)
    · exact hasLed_of_leader hm hidm hleads hx
    rcases hheard.last_or_before with ⟨k, args, hacts, hle, -⟩ | hbefore
    · exact (h.informed_of_heard hacts hle hm).2 x hx
    -- A term in which the node has gone along with a call before is the one it had already.
    have hsame : (n.after e).term = n.term := Nat.le_antisymm (hn.heard _ hbefore) hterm
    cases n.after_regards e with
    | keep hleader =>
        rw [hsame] at hbefore ⊢
        exact (hn.present x (hleader.symm.trans hx) (Or.inr hbefore)).cons c'
    | forget hleader =>
        rw [hleader] at hx
        cases hx
    | lead hleads => exact hasLed_of_leader hm hidm hleads hx
    | follow args he hargs hleader =>
        subst he
        obtain rfl := Option.some.inj (hx.symm.trans hleader)
        rw [hargs]
        cases hact.cause with
        | appendRequest hp => exact (h.request _ _ _ _ hp).cons c'

theorem rest (h : c.Informs (c :: past)) (hrest : c.Rests c') : c'.Informs (c' :: c :: past) where
  node := by
    intro i n hn
    have hold : c.nodes[i]? = some n := hrest.nodes ▸ hn
    exact h.informed_unmoved hold hn
  request := fun s r context args hp => (h.request s r context args (hrest.mem hp id)).cons c'

theorem act (h : c.Informs (c :: past)) {i : PeerId} {n : Node α} {e : Event α}
    (hact : c.Acts i n e c') (hid : n.id = i) : c'.Informs (c' :: c :: past) where
  node := by
    intro j m hm
    rcases hact.node_cases hm with ⟨rfl, rfl⟩ | ⟨-, hold⟩
    · exact h.informed_after hact hid
    · exact h.informed_unmoved hold hm
  request := by
    intro s r context args hp
    rcases hact.appendRequest_cases hp with hold | ⟨-, hnew⟩
    · exact (h.request s r context args hold).cons c'
    · obtain ⟨m, hstanding, -, hsends⟩ := Node.call_of_handle hnew
      obtain ⟨lead, cursor, round, last, -, -, -, rfl, -⟩ := hsends.call
      have hleads : (n.after e).isLeader := hsends.isLeader hstanding
      have hself : m.id = i :=
        (Node.standing_id hstanding).trans ((n.after_shift e).id.trans hid)
      change HasLed _ m.id m.term
      rw [hself, Node.standing_term hstanding]
      exact ⟨c', List.mem_cons_self, n.after e, hact.node_self, hleads, rfl⟩

end Cluster.Informs

theorem Run.informs {rule : Rule α} {size : Nat} {c : Cluster α} {past : List (Cluster α)}
    (h : Run rule size c past) : c.Informs (c :: past) := by
  refine h.invariant (P := fun c past => c.Informs (c :: past)) ?_ ?_ ?_
  · exact .fresh size
  · intro c past c' _ ih hrest
    exact ih.rest hrest
  · intro c past i n e c' hrun ih hact _
    exact ih.act hact (hrun.seat i n hact.node).2.1

/-- Whoever is reported as the leader has led a term that is not later than the reported one. It has
led the reported one, if the member that reports it leads itself or has gone along with a call of
that term. -/
theorem hint_has_led {rule : Rule α} {size : Nat} {c : Cluster α} {past : List (Cluster α)}
    (h : Run rule size c past) {i : PeerId} {n : Node α} (hn : c.nodes[i]? = some n) {x : PeerId}
    (hx : n.status.leaderId = some x) :
    (∃ T ≤ n.status.term, HasLed (c :: past) x T) ∧
      (n.isLeader ∨ Heard (c :: past) i n.status.term → HasLed (c :: past) x n.status.term) :=
  ⟨(h.informs.node i n hn).earlier x hx, (h.informs.node i n hn).present x hx⟩

/-- The first member is elected in term one, and the third one hears from it. Then the second member
stands for election, and asks the third one for its vote. -/
def newCandidate : List (Move Nat) :=
  [.electionTimeout 0, .deliver 0, .deliver 2, .deliver 4, .electionTimeout 1, .deliver 7]

/-- The third member reports the leader of term one, in term two. -/
theorem hint_has_led_newCandidate :
    ∃ n, ((Cluster.fresh 3).course [] newCandidate).1.nodes[2]? = some n ∧
      n.status.term = 2 ∧ n.status.leaderId = some 0 ∧
      ∃ T ≤ 2, HasLed (((Cluster.fresh 3).course [] newCandidate).1 ::
        ((Cluster.fresh 3).course [] newCandidate).2) 0 T := by
  have hrun : Run (fun _ _ _ => True) 3 ((Cluster.fresh 3).course [] newCandidate).1
      ((Cluster.fresh 3).course [] newCandidate).2 := .course .start (by decide)
  exact ⟨_, rfl, rfl, rfl, (hint_has_led hrun (i := 2) rfl rfl).1⟩

/-- It never led term two. -/
theorem hint_outdated : ¬ ∀ (size : Nat) (c : Cluster Nat) (past : List (Cluster Nat)) (i : PeerId)
    (n : Node Nat) (x : PeerId), Run (fun _ _ _ => True) size c past → c.nodes[i]? = some n →
      n.status.leaderId = some x → HasLed (c :: past) x n.status.term := by
  intro hled
  have hrun : Run (fun _ _ _ => True) 3 ((Cluster.fresh 3).course [] newCandidate).1
      ((Cluster.fresh 3).course [] newCandidate).2 := .course .start (by decide)
  obtain ⟨d, hd, hleads⟩ := hled 3 _ _ 2 _ 0 hrun rfl rfl
  have hnever : ∀ d ∈ ((Cluster.fresh 3).course [] newCandidate).1 ::
      ((Cluster.fresh 3).course [] newCandidate).2, ¬ d.Leads 0 2 := by decide
  exact hnever d hd hleads

end Quorum
