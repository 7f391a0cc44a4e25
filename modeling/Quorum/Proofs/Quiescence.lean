import Quorum.Proofs.Bookkeeping
import Quorum.Proofs.Promptness

/-!
A round of heartbeats in a cluster with nothing in flight: each call is delivered, then each answer.
If nothing has changed in the end, nothing has been committed on the way, and so nothing else was
sent. The round then comes down to what each member makes of its call, and the leader of the answer.
-/

namespace Quorum

variable {α : Type}

/-- The entry to send next to a member. -/
def Leadership.nextTo (l : Leadership) (p : PeerId) : LogIndex := (l.next? p).getD LogIndex.first

/-- A cursor that a refusal leaves where it is has nothing before it. -/
theorem Leadership.nextTo_le_of_recordFailure {l : Leadership} {p : PeerId}
    (h : (l.recordFailure p).cursors[p]? = l.cursors[p]?) : l.nextTo p ≤ 0 := by
  unfold nextTo next?
  cases hcursor : l.cursors[p]? with
  | none => exact Int.le_refl _
  | some cursor =>
      change cursor.next ≤ 0
      refine Int.not_lt.mp fun hpos => ?_
      have hmoved : (l.recordFailure p).cursors[p]? =
          some { cursor with next := cursor.next.prev } := by
        unfold recordFailure
        simp [hcursor, hpos]
      rw [hcursor] at h
      have hsame := congrArg Cursor.next (Option.some.inj (hmoved.symm.trans h))
      rw [LogIndex.prev_of_nonneg (Int.le_of_lt hpos)] at hsame
      lia

/-- A call with nothing before its entries is never refused. -/
theorem Node.prev_of_refused {log : Log α} {args : AppendRequest α}
    (h : reconcile? log args = none) : 0 ≤ args.prevLogIndex := by
  unfold reconcile? LogIndex.position? at h
  by_cases hprev : 0 ≤ args.prevLogIndex
  · exact hprev
  · simp [hprev] at h

namespace Node

variable {n : Node α} {l : Leadership}

/-- What a heartbeat carries to a member. -/
def beat (n : Node α) (l : Leadership) (p : PeerId) : AppendRequest α :=
  n.callFrom (l.nextTo p) n.log.lastIndex

def beatContext (n : Node α) (l : Leadership) (p : PeerId) : AppendContext :=
  .ofCall n.generation .heartbeat (l.nextTo p) (n.log.slice (l.nextTo p) n.log.lastIndex)

/-- A leader with a cursor for every member has a heartbeat for every other one. -/
theorem heartbeats_of_leader (hl : n.role = .leader l)
    (hlength : l.cursors.length = n.clusterSize) :
    n.heartbeats = n.others.map fun p => .appendEntries p (n.beatContext l p) (n.beat l p) := by
  refine List.filterMap_eq_map_iff_forall_eq_some.mpr fun p hp => ?_
  have hlt : p < l.cursors.length := by
    rw [hlength]
    exact (mem_others.mp hp).1
  have hnext : l.next? p = some (l.nextTo p) := by
    unfold Leadership.nextTo Leadership.next?
    rw [List.getElem?_eq_getElem hlt]
    rfl
  unfold appendCall?
  rw [hl]
  simp only [Role.lead?, hnext, Option.bind_eq_bind, Option.bind_some]
  rfl

end Node

namespace Turn

variable {opens : LogIndex → Prop} {acks : LogIndex → PeerId → Prop} {t u : Turn α}

theorem Quiet.step (ht : t.Quiet) (hstep : t.Step opens acks u)
    (hopens : ∀ i, opens i → i.prev ≠ t.node.commitIndex) : u.Quiet := by
  cases hstep with
  | dequeue i => exact ht
  | openAgreement i hi hprev => exact ht
  | ask i hi hprev => exact absurd hprev (hopens i hi)
  | acknowledge i p hp => exact ht
  | commit i hi => exact ht.emitAll fun a ha => packet?_of_mem_applyAfter ha

/-- As long as nothing is committed, no agreement is sought on entries that wait for a later one
than the next. -/
theorem Quiet.steps (ht : t.Quiet) (hsteps : t.Steps opens acks u)
    (hstill : u.node.commitIndex ≤ t.node.commitIndex)
    (hopens : ∀ i, opens i → t.node.commitIndex + 1 < i) : u.Quiet := by
  induction hsteps with
  | refl => exact ht
  | @tail u v hprior hstep ih =>
      have hfirst : t.node.commitIndex ≤ u.node.commitIndex := Steps.commitIndex_le hprior
      have hlast := hstep.commitIndex_le
      refine (ih (Int.le_trans hlast hstill)).step hstep fun i hi => ?_
      have hlater := hopens i hi
      unfold LogIndex.prev LogIndex.absent
      split
      · lia
      · lia

end Turn

namespace Node

variable {n : Node α} {l : Leadership}

/-- The answer to a heartbeat that commits nothing causes no calls. -/
theorem appendReturned_quiet {start : Nat} (hqueues : n.Queues start) {context : AppendContext}
    (hround : context.round = .heartbeat) (sender : PeerId) (reply : Option AppendReply)
    (hstill : (n.appendReturned sender context reply).node.commitIndex ≤ n.commitIndex) :
    (n.appendReturned sender context reply).Quiet := by
  rcases n.appendReturned_cases sender context reply with
    hturn | ⟨r, -, ⟨-, hturn⟩ | ⟨-, -, -, ⟨-, hturn⟩ | ⟨-, hturn⟩⟩⟩
  · rw [hturn]
    exact n.idle_quiet
  · rw [hturn]
    exact n.idle_quiet.observeTerm r.term
  · have hrecord : (n.idle.record sender context).Quiet := by
      unfold Turn.record
      split
      · exact n.idle_quiet
      · exact n.idle_quiet
    have hcommit : (n.idle.record sender context).node.commitIndex = n.commitIndex := by
      unfold Turn.record
      split
      · rfl
      · rfl
    have hsteps : (n.idle.record sender context).Steps n.Awaits (fun _ _ => True)
        (appendAccepted n.idle sender context) :=
      appendAccepted_steps (fun _ _ _ _ => trivial) fun j hj => record_awaits hj
    rw [hturn] at hstill ⊢
    refine hrecord.steps hsteps (by rw [hcommit]; exact hstill) ?_
    rintro i ⟨l, hl, hi⟩
    rw [hcommit]
    exact (hqueues l hl).1.blocked i hi
  · rw [hturn, hround]
    exact n.idle_quiet

/-- The answer of one member leaves the leader what it is, and the cursors of all others where they
are. -/
theorem after_appendReturned (hl : n.role = .leader l) (q : PeerId) (context : AppendContext)
    {reply : Option AppendReply} (hterm : ∀ r ∈ reply, r.term ≤ n.term) :
    n.SameOffice (n.after (.appendReturned q context reply)) ∧
      ∃ l', (n.after (.appendReturned q context reply)).role = .leader l' ∧
        ∀ p, p ≠ q → l'.cursors[p]? = l.cursors[p]? := by
  change n.SameOffice (n.appendReturned q context reply).node ∧
    ∃ l', (n.appendReturned q context reply).node.role = .leader l' ∧ _
  have hother (f : Cursor → Cursor) {p : PeerId} (hp : p ≠ q) :
      (l.cursors.modify q f)[p]? = l.cursors[p]? := by
    simp [Ne.symm hp]
  have hback : (n.idle.mapLead (·.recordFailure q)).node.role = .leader (l.recordFailure q) :=
    Turn.mapLead_role hl _
  rcases n.appendReturned_cases q context reply with
    hturn | ⟨r, hreply, ⟨hlater, -⟩ | ⟨-, -, -, ⟨-, hturn⟩ | ⟨-, hturn⟩⟩⟩
  · rw [hturn]
    exact ⟨.refl n, l, hl, fun _ _ => rfl⟩
  · exact absurd hlater (Nat.not_lt.mpr (hterm r hreply))
  · rw [hturn]
    refine ⟨appendAccepted_sameOffice n.idle q context, ?_⟩
    obtain ⟨l', hl', hcursors⟩ := appendAccepted_lead hl q context
    refine ⟨l', hl', fun p hp => ?_⟩
    rw [hcursors, Leadership.recorded_cursor_other hp]
  · rw [hturn]
    refine ⟨appendRejected_sameOffice n.idle q context.round, ?_⟩
    rcases (appendRejected_role n.idle q context.round).1 with hsame | hmoved
    · exact ⟨l, hsame.trans hl, fun _ _ => rfl⟩
    · exact ⟨l.recordFailure q, hmoved.trans hback, fun p hp => hother _ hp⟩

/-- A refusal that counts moves the cursor of the member back, and no other. -/
theorem appendReturned_refused (hleader : n.isLeader) {p : PeerId} {context : AppendContext}
    {r : AppendReply} (hterm : r.term ≤ n.term) (hrefused : r.success = false)
    (hgen : context.generation = n.generation) (hround : context.round = .heartbeat) :
    n.appendReturned p context (some r) = n.idle.mapLead (·.recordFailure p) := by
  have hsame : n.idle.observeTerm r.term = n.idle := Turn.observeTerm_of_le hterm
  have hcounts : ¬ (context.generation ≠ n.idle.node.generation ∨ ¬ n.idle.node.isLeader) :=
    fun h => h.elim (fun hne => hne hgen) (fun hnot => hnot hleader)
  simp only [appendReturned, hsame, hcounts, hrefused, if_false, Bool.false_eq_true,
    appendRejected, hround]

end Node

/-- A call for each of the members, all by the same one. -/
structure Volley (α : Type) where
  caller : PeerId
  context : PeerId → AppendContext
  args : PeerId → AppendRequest α

namespace Volley

variable (v : Volley α) (c : Cluster α)

def call (p : PeerId) : Packet α := .appendRequest v.caller p (v.context p) (v.args p)

/-- What a member replies to its call, unless it cannot be reached. -/
def reply? (p : PeerId) : Option AppendReply :=
  if c.Reachable v.caller p then c.nodes[p]?.map fun m => (m.answerAppend (v.args p)).1 else none

variable {v c} in
theorem reply?_of_reachable {p : PeerId} (h : c.Reachable v.caller p) {m : Node α}
    (hm : c.nodes[p]? = some m) : v.reply? c p = some (m.answerAppend (v.args p)).1 := by
  unfold reply?
  rw [if_pos h, hm]
  rfl

def answer (p : PeerId) : Packet α := .appendReply p v.caller (v.context p) (v.reply? c p)

/-- How the caller comes to know of it. -/
def returned (p : PeerId) : Event α := .appendReturned p (v.context p) (v.reply? c p)

end Volley

/-- The heartbeats of a leader. -/
def Node.volley (n : Node α) (l : Leadership) : Volley α := ⟨n.id, n.beatContext l, n.beat l⟩

namespace Volley

variable {v : Volley α} {c : Cluster α} {n : Node α} {l : Leadership} {ps : List PeerId}

/-- All the answers leave the leader what it is, and the cursors of those who gave none where they
are. -/
theorem afterAll_returned (ps : List PeerId) (hl : n.role = .leader l)
    (hterm : ∀ p ∈ ps, ∀ r ∈ v.reply? c p, r.term ≤ n.term) :
    n.SameOffice (n.afterAll (ps.map (v.returned c))) ∧
      ∃ l', (n.afterAll (ps.map (v.returned c))).role = .leader l' ∧
        ∀ p, p ∉ ps → l'.cursors[p]? = l.cursors[p]? := by
  induction ps generalizing n l with
  | nil => exact ⟨.refl n, l, hl, fun _ _ => rfl⟩
  | cons q ps ih =>
      obtain ⟨hq, hrest⟩ := List.forall_mem_cons.mp hterm
      obtain ⟨hsame, l₁, hl₁, hfirst⟩ :=
        Node.after_appendReturned hl q (v.context q) hq
      obtain ⟨hsame', l', hl', hlater⟩ := ih hl₁ fun p hp r hr => by
        rw [hsame.term]
        exact hrest p hp r hr
      refine ⟨hsame.trans hsame', l', hl', fun p hp => ?_⟩
      rw [hlater p (List.not_mem_of_not_mem_cons hp), hfirst p (List.ne_of_not_mem_cons hp)]

/-- The cursor of a member that has refused its call is where the refusal has put it. -/
theorem afterAll_refused (ps : List PeerId) (hl : n.role = .leader l)
    (hterm : ∀ p ∈ ps, ∀ r ∈ v.reply? c p, r.term ≤ n.term) (hnodup : ps.Nodup) {p : PeerId}
    (hp : p ∈ ps) {r : AppendReply} (hr : v.reply? c p = some r) (hrefused : r.success = false)
    (hgen : (v.context p).generation = n.generation) (hround : (v.context p).round = .heartbeat) :
    ∃ l', (n.afterAll (ps.map (v.returned c))).role = .leader l' ∧
      l'.cursors[p]? = (l.recordFailure p).cursors[p]? := by
  obtain ⟨before, later, rfl⟩ := List.append_of_mem hp
  have hsplit : n.afterAll ((before ++ p :: later).map (v.returned c)) =
      ((n.afterAll (before.map (v.returned c))).after (v.returned c p)).afterAll
        (later.map (v.returned c)) := by
    unfold Node.afterAll
    rw [List.map_append, List.foldl_append, List.map_cons, List.foldl_cons]
  have hbefore : p ∉ before := fun h =>
    List.disjoint_of_nodup_append hnodup h List.mem_cons_self
  have hlater : p ∉ later := (List.nodup_cons.mp (List.nodup_append.mp hnodup).2.1).1
  obtain ⟨hsame, l₁, hl₁, hfirst⟩ := afterAll_returned (v := v) (c := c) before hl
    fun q hq => hterm q (List.mem_append_left _ hq)
  generalize n.afterAll (before.map (v.returned c)) = n₁ at hsplit hsame hl₁
  have hleader : n₁.isLeader := Node.isLeader_of_lead hl₁
  have hturn : n₁.after (v.returned c p) = (n₁.idle.mapLead (·.recordFailure p)).node := by
    unfold returned
    rw [hr]
    refine congrArg Turn.node (Node.appendReturned_refused hleader ?_ hrefused ?_ hround)
    · rw [hsame.term]
      exact hterm p hp r hr
    · rw [hsame.generation]
      exact hgen
  have hback : (n₁.after (v.returned c p)).role = .leader (l₁.recordFailure p) := by
    rw [hturn]
    exact Turn.mapLead_role hl₁ _
  obtain ⟨-, l', hl', hrest⟩ := afterAll_returned (v := v) (c := c) later hback
    fun q hq r hr => by
      rw [hturn]
      change r.term ≤ n₁.term
      rw [hsame.term]
      exact hterm q (List.mem_append_right _ (List.mem_cons_of_mem _ hq)) r hr
  refine ⟨l', by rw [hsplit, hl'], ?_⟩
  rw [hrest p hlater]
  unfold Leadership.recordFailure
  simp only [List.getElem?_modify, hfirst p hbefore]

end Volley

namespace Cluster

variable {c : Cluster α} {i : PeerId} {n : Node α}

theorem reachable_congr {d : Cluster α} (h : c.isolated = d.isolated) {p : PeerId} :
    c.Reachable i p ↔ d.Reachable i p := by
  unfold Reachable
  rw [h]

theorem deliverMany_of_nil (h : c.packets = []) (k : Nat) : deliverMany k c = c := by
  cases k with
  | zero => rfl
  | succ k => simp [deliverMany, h]

theorem deliverMany_succ {q : Packet α} {rest : List (Packet α)} (h : c.packets = q :: rest)
    (k : Nat) : deliverMany (k + 1) c = deliverMany k ({ c with packets := rest }.deliver q) := by
  simp [deliverMany, deliverNext, h]

theorem deliverMany_add (j k : Nat) (c : Cluster α) :
    deliverMany (j + k) c = deliverMany k (deliverMany j c) := by
  induction j generalizing c with
  | zero => rw [Nat.zero_add]; rfl
  | succ j ih =>
      cases hpackets : c.packets with
      | nil =>
          rw [deliverMany_of_nil hpackets, deliverMany_of_nil hpackets,
            deliverMany_of_nil hpackets]
      | cons q rest =>
          rw [Nat.succ_add, deliverMany_succ hpackets, deliverMany_succ hpackets]
          exact ih _

/-- Whatever is played, a member commits no less than before. -/
theorem play_commits (hn : c.nodes[i]? = some n) (hsettled : n.Settled) (move : Move α) :
    ∃ m, (c.play move).nodes[i]? = some m ∧ m.Settled ∧ n.commitIndex ≤ m.commitIndex := by
  rcases c.play_cases move with ⟨hrest, -⟩ | ⟨j, k, e, -, hact⟩
  · exact ⟨n, by rw [hrest.nodes]; exact hn, hsettled, Int.le_refl _⟩
  · by_cases hj : i = j
    · subst hj
      obtain rfl := Option.some.inj (hact.node.symm.trans hn)
      exact ⟨_, hact.node_self, hsettled.after e, (hsettled.handle e).start_le⟩
    · exact ⟨n, (hact.node_other hj).trans hn, hsettled, Int.le_refl _⟩

theorem deliverMany_commits (hn : c.nodes[i]? = some n) (hsettled : n.Settled) (k : Nat) :
    ∃ m, (deliverMany k c).nodes[i]? = some m ∧ n.commitIndex ≤ m.commitIndex := by
  induction k generalizing c n with
  | zero => exact ⟨n, hn, Int.le_refl _⟩
  | succ k ih =>
      by_cases hpackets : c.packets = []
      · exact ⟨n, by rw [deliverMany_of_nil hpackets]; exact hn, Int.le_refl _⟩
      · have hnext : deliverMany (k + 1) c = deliverMany k c.deliverNext := by
          simp [deliverMany, hpackets]
        obtain ⟨m₁, hm₁, hsettled₁, hle₁⟩ := play_commits hn hsettled (.deliver 0)
        obtain ⟨m₂, hm₂, hsettled₂, hle₂⟩ := play_commits hm₁ hsettled₁ (.lose 0)
        rw [← deliverNext_eq_play c hpackets] at hm₂
        obtain ⟨m, hm, hle⟩ := ih hm₂ hsettled₂
        rw [hnext]
        exact ⟨m, hm, Int.le_trans (Int.le_trans hle₁ hle₂) hle⟩

end Cluster

namespace Volley

variable {v : Volley α} {c₀ c : Cluster α} {n : Node α} {done todo ps : List PeerId}

/-- What is answered depends on the one member, and on who is cut off. -/
theorem answer_congr {p : PeerId} (hisolated : c.isolated = c₀.isolated)
    (hnode : c.nodes[p]? = c₀.nodes[p]?) : v.answer c p = v.answer c₀ p := by
  simp only [answer, reply?, Cluster.reachable_congr hisolated, hnode]

/-- A call at the head of the queue is answered, whether it gets through or not, and causes no
other. -/
theorem deliver_call {p : PeerId} {rest : List (Packet α)} (hhead : c.packets = v.call p :: rest)
    {m : Node α} (hm : c.nodes[p]? = some m) :
    (Cluster.deliverMany 1 c).packets = rest ++ [v.answer c p] ∧
      (Cluster.deliverMany 1 c).isolated = c.isolated ∧
        (Cluster.deliverMany 1 c).nodes = if c.Reachable v.caller p then
          c.nodes.set p (m.after (.appendRequest (v.args p))) else c.nodes := by
  have hnext : Cluster.deliverMany 1 c = Cluster.deliver { c with packets := rest } (v.call p) :=
    Cluster.deliverMany_succ hhead 0
  by_cases hreach : c.Reachable v.caller p
  · have hheld : ({ c with packets := rest } : Cluster α).nodes[p]? = some m := hm
    have htaken : Cluster.deliverMany 1 c = (Cluster.settle { c with packets := rest } p
        (m.answerAppend (v.args p)).2).enqueue (v.answer c p) := by
      rw [hnext, answer, reply?_of_reachable hreach hm]
      refine (if_pos hreach).trans ?_
      rw [Cluster.handle_of_some hheld]
      rfl
    rw [htaken, if_pos hreach]
    refine ⟨?_, rfl, rfl⟩
    change rest ++ (m.answerAppend (v.args p)).2.actions.filterMap (Action.packet? p) ++ _ = _
    rw [(m.answerAppend_quiet (v.args p)).filterMap p, List.append_nil]
  · have hlost : Cluster.deliverMany 1 c =
        Cluster.enqueue { c with packets := rest } (v.answer c p) := by
      rw [hnext, answer, reply?, if_neg hreach]
      exact if_neg hreach
    rw [hlost, if_neg hreach]
    exact ⟨rfl, rfl, rfl⟩

/-- The calls to `todo` are still in flight, and those to `done` have been answered. -/
structure Underway (v : Volley α) (c₀ : Cluster α) (done todo : List PeerId) (c : Cluster α) :
    Prop where
  packets : c.packets = todo.map v.call ++ done.map (v.answer c₀)
  isolated : c.isolated = c₀.isolated
  took : ∀ p ∈ done, c₀.Reachable v.caller p → ∀ m, c₀.nodes[p]? = some m →
    c.nodes[p]? = some (m.after (.appendRequest (v.args p)))
  other : ∀ p, p ∉ done → c.nodes[p]? = c₀.nodes[p]?

theorem Underway.deliver {p : PeerId} (h : v.Underway c₀ done (p :: todo) c) (hp : p ∉ done)
    {m : Node α} (hm : c₀.nodes[p]? = some m) :
    v.Underway c₀ (done ++ [p]) todo (Cluster.deliverMany 1 c) := by
  have hmember : c.nodes[p]? = some m := (h.other p hp).trans hm
  obtain ⟨hpackets, hisolated, hnodes⟩ := deliver_call h.packets hmember
  have hother : ∀ q, q ≠ p → (Cluster.deliverMany 1 c).nodes[q]? = c.nodes[q]? := by
    intro q hq
    rw [hnodes]
    split
    · exact List.getElem?_set_ne (Ne.symm hq)
    · rfl
  rw [answer_congr h.isolated (h.other p hp)] at hpackets
  refine ⟨?_, hisolated.trans h.isolated, ?_, ?_⟩
  · rw [hpackets, List.map_append]
    exact List.append_assoc _ _ _
  · intro q hq hreach k hk
    by_cases hsame : q = p
    · subst hsame
      obtain rfl := Option.some.inj (hm.symm.trans hk)
      rw [hnodes, if_pos ((Cluster.reachable_congr h.isolated).mpr hreach)]
      exact List.getElem?_set_self (List.getElem?_eq_some_iff.mp hmember).1
    · have hold : q ∈ done := by simpa [hsame] using hq
      exact (hother q hsame).trans (h.took q hold hreach k hk)
  · intro q hq
    obtain ⟨hold, hsame⟩ : q ∉ done ∧ q ≠ p := by simpa using hq
    exact (hother q hsame).trans (h.other q hold)

theorem Underway.deliverAll (h : v.Underway c₀ done todo c) (hnodup : (done ++ todo).Nodup)
    (hall : ∀ p ∈ todo, ∃ m, c₀.nodes[p]? = some m) :
    v.Underway c₀ (done ++ todo) [] (Cluster.deliverMany todo.length c) := by
  induction todo generalizing done c with
  | nil =>
      rw [List.append_nil]
      exact h
  | cons p todo ih =>
      obtain ⟨⟨m, hm⟩, hrest⟩ := List.forall_mem_cons.mp hall
      have hp : p ∉ done := fun hdone =>
        List.disjoint_of_nodup_append hnodup hdone List.mem_cons_self
      rw [List.append_cons] at hnodup ⊢
      rw [List.length_cons, Nat.add_comm, Cluster.deliverMany_add]
      exact ih (h.deliver hp hm) hnodup hrest

/-- An answer at the head of the queue comes back to the caller. -/
theorem deliver_answer {p : PeerId} {rest : List (Packet α)}
    (hhead : c.packets = v.answer c₀ p :: rest) (hn : c.nodes[v.caller]? = some n) :
    (Cluster.deliverMany 1 c).nodes = c.nodes.set v.caller (n.after (v.returned c₀ p)) ∧
      (Cluster.deliverMany 1 c).packets =
        rest ++ (n.handle (v.returned c₀ p)).2.actions.filterMap (Action.packet? v.caller) := by
  have hheld : ({ c with packets := rest } : Cluster α).nodes[v.caller]? = some n := hn
  have hnext : Cluster.deliverMany 1 c =
      Cluster.settle { c with packets := rest } v.caller (n.handle (v.returned c₀ p)).2 := by
    refine (Cluster.deliverMany_succ hhead 0).trans ?_
    change (Cluster.handle _ v.caller (v.returned c₀ p)).2 = _
    rw [Cluster.handle_of_some hheld]
  rw [hnext]
  exact ⟨rfl, rfl⟩

/-- The answers come back one after the other. As long as nothing is committed, nothing else is
sent, so that there is nothing more to deliver. -/
theorem deliver_answers (ps : List PeerId) (hpackets : c.packets = ps.map (v.answer c₀))
    (hn : c.nodes[v.caller]? = some n) (hsettled : n.Settled) {start : Nat}
    (hqueues : n.Queues start) (hround : ∀ p ∈ ps, (v.context p).round = .heartbeat) {k : Nat}
    (hk : ps.length ≤ k) (hstill : ∀ m, (Cluster.deliverMany k c).nodes[v.caller]? = some m →
      m.commitIndex ≤ n.commitIndex) :
    (Cluster.deliverMany k c).nodes =
      c.nodes.set v.caller (n.afterAll (ps.map (v.returned c₀))) := by
  induction ps generalizing c n start k with
  | nil =>
      obtain ⟨hlt, rfl⟩ := List.getElem?_eq_some_iff.mp hn
      rw [Cluster.deliverMany_of_nil hpackets]
      exact (List.set_getElem_self hlt).symm
  | cons p ps ih =>
      obtain ⟨hp, hrest⟩ := List.forall_mem_cons.mp hround
      obtain ⟨k, rfl⟩ : ∃ j, k = 1 + j := ⟨k - 1, by rw [List.length_cons] at hk; omega⟩
      obtain ⟨hnodes, hqueue⟩ := deliver_answer hpackets hn
      rw [Cluster.deliverMany_add] at hstill ⊢
      have hlt := (List.getElem?_eq_some_iff.mp hn).1
      have hafter : (Cluster.deliverMany 1 c).nodes[v.caller]? =
          some (n.after (v.returned c₀ p)) := by
        rw [hnodes]
        exact List.getElem?_set_self hlt
      have hrise : n.commitIndex ≤ (n.after (v.returned c₀ p)).commitIndex :=
        (hsettled.handle (v.returned c₀ p)).start_le
      obtain ⟨m, hm, hle⟩ := Cluster.deliverMany_commits hafter (hsettled.after _) k
      have hquiet : (n.handle (v.returned c₀ p)).2.Quiet :=
        Node.appendReturned_quiet hqueues hp p _ (Int.le_trans hle (hstill m hm))
      rw [hquiet.filterMap, List.append_nil] at hqueue
      rw [List.length_cons] at hk
      have hlater := ih hqueue hafter (hsettled.after _) (hqueues.after _) hrest (by omega)
        fun m hm => Int.le_trans (hstill m hm) hrise
      rw [hlater, hnodes, List.set_set]
      rfl

end Volley

namespace Cluster

variable {c : Cluster α} {i : PeerId} {n : Node α} {l : Leadership}

/-- A round begins with a call for every other member. -/
theorem heartbeatTimeout_volley (hpackets : c.packets = []) (hn : c.nodes[n.id]? = some n)
    (hl : n.role = .leader l) (hlength : l.cursors.length = n.clusterSize) :
    (c.heartbeatTimeout n.id).nodes = c.nodes ∧
      (c.heartbeatTimeout n.id).packets = n.others.map (n.volley l).call ∧
        (c.heartbeatTimeout n.id).isolated = c.isolated := by
  obtain ⟨hlt, hself⟩ := List.getElem?_eq_some_iff.mp hn
  have hturn : n.heartbeatTimeout = ⟨n, n.heartbeats ++ [.scheduleHeartbeat]⟩ :=
    if_pos (Node.isLeader_of_lead hl)
  have hbegun : c.heartbeatTimeout n.id = c.settle n.id n.heartbeatTimeout := by
    unfold heartbeatTimeout
    rw [handle_of_some hn]
    rfl
  rw [hbegun, hturn]
  refine ⟨?_, ?_, rfl⟩
  · have hsame : c.nodes.set n.id c.nodes[n.id] = c.nodes := List.set_getElem_self hlt
    rwa [hself] at hsame
  · change c.packets ++ (n.heartbeats ++ [Action.scheduleHeartbeat]).filterMap _ = _
    rw [hpackets, Node.heartbeats_of_leader hl hlength, List.filterMap_append, List.filterMap_map,
      List.nil_append]
    have hsent : (Action.packet? n.id ∘ fun p =>
        .appendEntries p (n.beatContext l p) (n.beat l p)) = some ∘ (n.volley l).call := rfl
    rw [hsent, List.filterMap_eq_map]
    exact List.append_nil _

theorem work_calls {v : Volley α} {ps : List PeerId}
    (hround : ∀ p ∈ ps, (v.context p).round = .heartbeat) (size : Nat) :
    ((ps.map v.call).map (Packet.work size)).foldr (· + ·) 0 = ps.length + ps.length := by
  induction ps with
  | nil => rfl
  | cons p ps ih =>
      obtain ⟨hp, hrest⟩ := List.forall_mem_cons.mp hround
      have hwork : (v.call p).work size = 2 := by
        change (v.context p).round.work = 2
        rw [hp]
        rfl
      rw [List.map_cons, List.map_cons, List.foldr_cons, hwork, ih hrest, List.length_cons]
      omega

/-- There is room for two deliveries for each call. -/
theorem le_work {v : Volley α} {ps : List PeerId} (hpackets : c.packets = ps.map v.call)
    (hround : ∀ p ∈ ps, (v.context p).round = .heartbeat) : ps.length + ps.length ≤ c.work := by
  unfold work
  rw [hpackets, work_calls hround]
  exact Nat.le_add_right _ _

/-- A round of heartbeats in which the leader commits nothing: all members answer their calls, and
then the leader takes the answers. -/
theorem heartbeat_round {rule : Rule α} {size : Nat} {past : List (Cluster α)}
    (hrun : Run rule size c past) (hpackets : c.packets = []) (hn : c.nodes[i]? = some n)
    (hl : n.role = .leader l) (hstill : ∀ m, (c.heartbeatTimeout i).deliverAll.nodes[i]? = some m →
      m.commitIndex ≤ n.commitIndex) :
    ∃ c₁, (n.volley l).Underway c n.others [] c₁ ∧ (c.heartbeatTimeout i).deliverAll.nodes =
      c₁.nodes.set i (n.afterAll (n.others.map ((n.volley l).returned c))) := by
  obtain ⟨hi, rfl, rfl⟩ := hrun.seat i n hn
  obtain ⟨hkeeps, hqueues⟩ := hrun.bookkeeping n.id n hn
  have hlength : l.cursors.length = n.clusterSize := (hkeeps l hl).width
  have hround : ∀ p ∈ n.others, ((n.volley l).context p).round = .heartbeat := fun _ _ => rfl
  have hmember : ∀ p ∈ n.others, ∃ m, c.nodes[p]? = some m := by
    intro p hp
    have hlt : p < c.nodes.length := by
      rw [hrun.length_nodes]
      exact (Node.mem_others.mp hp).1
    exact ⟨_, List.getElem?_eq_getElem hlt⟩
  obtain ⟨hnodes, hcalls, hisolated⟩ := heartbeatTimeout_volley hpackets hn hl hlength
  have hbegun : (n.volley l).Underway c [] n.others (c.heartbeatTimeout n.id) := by
    refine ⟨by rw [hcalls]; exact (List.append_nil _).symm, hisolated, ?_, ?_⟩
    · intro p hp
      cases hp
    · intro p _
      rw [hnodes]
  have hanswered := hbegun.deliverAll (List.nodup_range.filter _) hmember
  -- All calls are delivered first, and there is room for as many answers after them.
  obtain ⟨k, hk⟩ := Nat.exists_eq_add_of_le (le_work hcalls hround)
  have hsplit : (c.heartbeatTimeout n.id).deliverAll =
      deliverMany (n.others.length + k)
        (deliverMany n.others.length (c.heartbeatTimeout n.id)) := by
    unfold deliverAll
    rw [hk, Nat.add_assoc, deliverMany_add]
  rw [hsplit] at hstill ⊢
  generalize deliverMany n.others.length (c.heartbeatTimeout n.id) = c₁ at hanswered hstill ⊢
  have hself : n.id ∉ n.others := fun hmem => (Node.mem_others.mp hmem).2 rfl
  exact ⟨c₁, hanswered, Volley.deliver_answers (v := n.volley l) n.others hanswered.packets
    ((hanswered.other n.id hself).trans hn) (hrun.settled n.id n hn) hqueues hround
    (Nat.le_add_right _ _) hstill⟩

end Cluster

/-- What a round could change about a member. -/
structure Sketch (α : Type) where
  term : Term
  kind : RoleKind
  log : Log α
  commitIndex : LogIndex
  cursors : Option (List Cursor)
  deriving DecidableEq, Repr

def Node.sketch (n : Node α) : Sketch α where
  term := n.term
  kind := n.role.kind
  log := n.log
  commitIndex := n.commitIndex
  cursors := n.role.lead?.map (·.cursors)

/-- Another round of heartbeats of the member `i`, with all that comes of it, changes nothing: no
member's term, role, log or commit index, and no cursor. -/
def Cluster.Quiescent (c : Cluster α) (i : PeerId) : Prop :=
  (c.heartbeatTimeout i).deliverAll.nodes.map Node.sketch = c.nodes.map Node.sketch

instance [DecidableEq α] (c : Cluster α) (i : PeerId) : Decidable (c.Quiescent i) :=
  inferInstanceAs (Decidable (_ = _))

namespace Cluster.Quiescent

variable {c : Cluster α} {i p : PeerId} {n m : Node α} {l : Leadership}

theorem sketch (h : c.Quiescent i) (hn : c.nodes[p]? = some n)
    (hm : (c.heartbeatTimeout i).deliverAll.nodes[p]? = some m) : m.sketch = n.sketch := by
  have hsame := congrArg (·[p]?) h
  simp only [List.getElem?_map, hn, hm, Option.map_some] at hsame
  exact Option.some.inj hsame

/-- In a round that changes nothing the members take their calls and the leader takes their answers
without any change either. -/
theorem round {rule : Rule α} {size : Nat} {past : List (Cluster α)} (h : c.Quiescent i)
    (hrun : Run rule size c past) (hpackets : c.packets = []) (hn : c.nodes[i]? = some n)
    (hl : n.role = .leader l) :
    (∀ p m, p ≠ i → c.nodes[p]? = some m → c.Reachable i p →
        (m.after (.appendRequest (n.beat l p))).sketch = m.sketch) ∧
      (n.afterAll (n.others.map ((n.volley l).returned c))).sketch = n.sketch := by
  obtain ⟨c₁, hanswered, hend⟩ := heartbeat_round hrun hpackets hn hl fun m hm =>
    Int.le_of_eq (congrArg Sketch.commitIndex (h.sketch hn hm))
  obtain ⟨hi, rfl, rfl⟩ := hrun.seat i n hn
  constructor
  · intro p m hp hm hreach
    have hother : p ∈ n.others := by
      have hlt := (List.getElem?_eq_some_iff.mp hm).1
      rw [hrun.length_nodes] at hlt
      exact Node.mem_others.mpr ⟨hlt, hp⟩
    have htook := hanswered.took p hother hreach m hm
    apply h.sketch hm
    rw [hend]
    exact (List.getElem?_set_ne (Ne.symm hp)).trans htook
  · have hself : n.id ∉ n.others := fun hmem => (Node.mem_others.mp hmem).2 rfl
    have hleader : c₁.nodes[n.id]? = some n := (hanswered.other n.id hself).trans hn
    apply h.sketch hn
    rw [hend]
    exact List.getElem?_set_self (List.getElem?_eq_some_iff.mp hleader).1

/-- A call of a leader whose term no one is ahead of is answered in that term at most. -/
theorem reply_term {v : Volley α} {r : AppendReply}
    (hterms : ∀ m ∈ c.nodes, m.term ≤ (v.args p).term) (hr : r ∈ v.reply? c p) :
    r.term ≤ (v.args p).term := by
  unfold Volley.reply? at hr
  split at hr
  · obtain ⟨m, hm, rfl⟩ := Option.map_eq_some_iff.mp hr
    have hle := hterms m (List.mem_of_getElem? hm)
    rcases m.answerAppend_cases (v.args p) with
      ⟨-, hturn⟩ | ⟨-, -, hturn⟩ | ⟨-, _, _, -, hreply, -⟩
    · rw [hturn]
      exact hle
    · rw [hturn]
    · rw [hreply]
  · cases hr

/-- In a round that changes nothing no call is refused. A refusal leaves a cursor where it is only at
zero, where there is nothing to refuse. -/
theorem not_refused {rule : Rule α} {size : Nat} {past : List (Cluster α)} (h : c.Quiescent i)
    (hrun : Run rule size c past) (hpackets : c.packets = []) (hn : c.nodes[i]? = some n)
    (hl : n.role = .leader l) (hterms : ∀ m ∈ c.nodes, m.term ≤ n.term) (hp : p ≠ i)
    (hm : c.nodes[p]? = some m) (hreach : c.Reachable i p) :
    Node.reconcile? m.log (n.beat l p) ≠ none := by
  intro hshort
  obtain ⟨hi, rfl, rfl⟩ := hrun.seat i n hn
  have hturn : m.answerAppend (n.beat l p) = (⟨n.term, false⟩, m.follow (n.beat l p)) := by
    rcases m.answerAppend_cases (n.beat l p) with
      ⟨hless, -⟩ | ⟨-, -, hturn⟩ | ⟨-, log, start, hfit, -⟩
    · exact absurd (hterms m (List.mem_of_getElem? hm)) (Nat.not_le_of_lt hless)
    · exact hturn
    · cases hshort.symm.trans hfit
  have hreply : (n.volley l).reply? c p = some ⟨n.term, false⟩ :=
    (Volley.reply?_of_reachable hreach hm).trans (congrArg (fun r => some r.1) hturn)
  have hlt := (List.getElem?_eq_some_iff.mp hm).1
  rw [hrun.length_nodes] at hlt
  obtain ⟨l', hl', hmoved⟩ := Volley.afterAll_refused (v := n.volley l) n.others hl
    (fun q _ r hr => reply_term (v := n.volley l) hterms hr) (List.nodup_range.filter _)
    (Node.mem_others.mpr ⟨hlt, hp⟩) hreply rfl rfl rfl
  have hcursors : l'.cursors = l.cursors := by
    have hsame := congrArg Sketch.cursors (h.round hrun hpackets hn hl).2
    unfold Node.sketch at hsame
    simpa only [hl', hl, Role.lead?, Option.map_some, Option.some.injEq] using hsame
  rw [hcursors] at hmoved
  have hback := Leadership.nextTo_le_of_recordFailure hmoved.symm
  have hprev : 0 ≤ (l.nextTo p).prev := Node.prev_of_refused hshort
  unfold LogIndex.prev LogIndex.absent at hprev
  split at hprev
  · lia
  · lia

/-- So every call is accepted, and nothing is written to a log that was not there. -/
theorem accepted {rule : Rule α} {size : Nat} {past : List (Cluster α)} (h : c.Quiescent i)
    (hrun : Run rule size c past) (hpackets : c.packets = []) (hn : c.nodes[i]? = some n)
    (hl : n.role = .leader l) (hterms : ∀ m ∈ c.nodes, m.term ≤ n.term) (hp : p ≠ i)
    (hm : c.nodes[p]? = some m) (hreach : c.Reachable i p) :
    ∃ log start, Node.reconcile? m.log (n.beat l p) = some (log, start) ∧
      log.merge start (n.beat l p).entries = m.log := by
  have htaken : (m.answerAppend (n.beat l p)).2.node.log = m.log :=
    congrArg Sketch.log ((h.round hrun hpackets hn hl).1 p m hp hm hreach)
  rcases m.answerAppend_cases (n.beat l p) with
    ⟨hless, -⟩ | ⟨-, hshort, -⟩ | ⟨-, log, start, hfit, -, ⟨-, hturn⟩ | ⟨-, hturn⟩⟩
  · exact absurd (hterms m (List.mem_of_getElem? hm)) (Nat.not_le_of_lt hless)
  · exact absurd hshort (h.not_refused hrun hpackets hn hl hterms hp hm hreach)
  · rw [hturn] at htaken
    exact ⟨log, start, hfit, htaken⟩
  · rw [hturn] at htaken
    exact ⟨log, start, hfit, htaken⟩

end Cluster.Quiescent

end Quorum
