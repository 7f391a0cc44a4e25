import Quorum.Proofs.Delivery
import Quorum.Proofs.Office

/-!
Runs of a cluster. Timers run out, commands come in and packets arrive in any order. A packet that
arrives stays in flight and may arrive again; any packet in flight may be lost. `play_cases` says
once what a move can do to a cluster, and all invariants of runs are derived from it.
-/

namespace Quorum

variable {α : Type}

inductive Move (α : Type) where
  | electionTimeout (i : PeerId)
  | heartbeatTimeout (i : PeerId)
  | submit (i : PeerId) (command : α)
  /-- The packet at a position arrives, and stays in flight. -/
  | deliver (k : Nat)
  /-- The packet at a position is no longer in flight. -/
  | lose (k : Nat)
  | isolate (i : PeerId)
  | heal (i : PeerId)
  deriving DecidableEq, Repr

namespace Cluster

def play (c : Cluster α) : Move α → Cluster α
  | .electionTimeout i => c.electionTimeout i
  | .heartbeatTimeout i => c.heartbeatTimeout i
  | .submit i command => (c.submit i command).2
  | .deliver k =>
    match c.packets[k]? with
    | none => c
    | some p => c.deliver p
  | .lose k => { c with packets := c.packets.eraseIdx k }
  | .isolate i => c.isolate i
  | .heal i => c.heal i

/-- What a packet lets happen to its recipient, if it gets through. -/
def arrival? (c : Cluster α) : Packet α → Option (PeerId × Event α)
  | .voteRequest sender recipient _ args =>
    if c.Reachable sender recipient then some (recipient, .voteRequest args) else none
  | .voteReply sender recipient generation reply =>
    some (recipient, .voteReturned sender generation reply)
  | .appendRequest sender recipient _ args =>
    if c.Reachable sender recipient then some (recipient, .appendRequest args) else none
  | .appendReply sender recipient context reply =>
    some (recipient, .appendReturned sender context reply)

/-- What a move lets happen, and to which node. -/
def event? (c : Cluster α) : Move α → Option (PeerId × Event α)
  | .electionTimeout i => some (i, .electionTimeout)
  | .heartbeatTimeout i => some (i, .heartbeatTimeout)
  | .submit i command => some (i, .submit command)
  | .deliver k => c.packets[k]?.bind c.arrival?
  | .lose _ | .isolate _ | .heal _ => none

/-- What can happen to a node of this cluster: timers and commands at any time, all else only by a
packet in flight. -/
inductive Causes (c : Cluster α) (i : PeerId) : Event α → Prop
  | electionTimeout : Causes c i .electionTimeout
  | heartbeatTimeout : Causes c i .heartbeatTimeout
  | submit (command : α) : Causes c i (.submit command)
  | voteRequest {sender generation args} :
      .voteRequest sender i generation args ∈ c.packets → Causes c i (.voteRequest args)
  | appendRequest {sender context args} :
      .appendRequest sender i context args ∈ c.packets → Causes c i (.appendRequest args)
  | voteReturned {sender generation reply} : .voteReply sender i generation reply ∈ c.packets →
      Causes c i (.voteReturned sender generation reply)
  | appendReturned {sender context reply} : .appendReply sender i context reply ∈ c.packets →
      Causes c i (.appendReturned sender context reply)

/-- The replies with which a node at `i` answers the calls in flight to it. -/
inductive Answers (c : Cluster α) (i : PeerId) (n : Node α) : Event α → Packet α → Prop
  | vote {sender generation args} : .voteRequest sender i generation args ∈ c.packets →
      Answers c i n (.voteRequest args)
        (.voteReply i sender generation (some (n.answerVote args).1))
  | append {sender context args} : .appendRequest sender i context args ∈ c.packets →
      Answers c i n (.appendRequest args)
        (.appendReply i sender context (some (n.answerAppend args).1))

end Cluster

/-- Word of a call that has not got through. -/
def Packet.IsFailure : Packet α → Prop
  | .voteReply _ _ _ none | .appendReply _ _ _ none => True
  | _ => False

namespace Cluster

/-- A move in which nothing happens to any node. -/
structure Rests (c c' : Cluster α) : Prop where
  nodes : c'.nodes = c.nodes
  applied : c'.applied = c.applied
  packets : ∀ p ∈ c'.packets, p ∈ c.packets ∨ p.IsFailure

/-- A move in which an event happens to the node at `i`. -/
structure Acts (c : Cluster α) (i : PeerId) (n : Node α) (e : Event α) (c' : Cluster α) :
    Prop where
  node : c.nodes[i]? = some n
  cause : c.Causes i e
  nodes : c'.nodes = c.nodes.set i (n.after e)
  applied : c'.applied = c.applied.modify i (· ++ (n.handle e).2.applied)
  packets : ∀ p ∈ c'.packets, p ∈ c.packets ∨
    (∃ a ∈ (n.handle e).2.actions, a.packet? i = some p) ∨ c.Answers i n e p

theorem Rests.refl (c : Cluster α) : c.Rests c := ⟨rfl, rfl, fun _ h => Or.inl h⟩

/-- Nothing new is in flight but word of a failure. -/
theorem Rests.mem {c c' : Cluster α} (h : c.Rests c') {p : Packet α} (hp : p ∈ c'.packets)
    (hfail : ¬ p.IsFailure) : p ∈ c.packets :=
  (h.packets p hp).resolve_right hfail

theorem handle_of_none {c : Cluster α} {i : PeerId} (h : c.nodes[i]? = none) (e : Event α) :
    c.handle i e = (.none, c) := by
  simp [handle, h]

theorem handle_of_some {c : Cluster α} {i : PeerId} {n : Node α} (h : c.nodes[i]? = some n)
    (e : Event α) : c.handle i e = ((n.handle e).1, c.settle i (n.handle e).2) := by
  simp [handle, h]

/-- A turn put into effect, and perhaps a reply. -/
theorem acts_of_settle {c c' : Cluster α} {i : PeerId} {n : Node α} {e : Event α}
    (hn : c.nodes[i]? = some n) (hcause : c.Causes i e)
    (hnodes : c'.nodes = (c.settle i (n.handle e).2).nodes)
    (happlied : c'.applied = (c.settle i (n.handle e).2).applied)
    (hpackets : ∀ p ∈ c'.packets,
      p ∈ (c.settle i (n.handle e).2).packets ∨ c.Answers i n e p) : c.Acts i n e c' where
  node := hn
  cause := hcause
  nodes := hnodes
  applied := happlied
  packets := by
    intro p hp
    rcases hpackets p hp with hsent | hanswer
    · rcases List.mem_append.mp hsent with hold | hnew
      · exact Or.inl hold
      · exact Or.inr (Or.inl (List.mem_filterMap.mp hnew))
    · exact Or.inr (Or.inr hanswer)

theorem acts_of_reply {c : Cluster α} {i : PeerId} {n : Node α} {e : Event α} {p : Packet α}
    (hn : c.nodes[i]? = some n) (hcause : c.Causes i e) (hp : c.Answers i n e p) :
    c.Acts i n e ((c.settle i (n.handle e).2).enqueue p) := by
  refine acts_of_settle hn hcause rfl rfl ?_
  intro q hq
  rcases List.mem_append.mp hq with hsent | hnew
  · exact Or.inl hsent
  · obtain rfl := List.mem_singleton.mp hnew
    exact Or.inr hp

theorem handle_cases (c : Cluster α) (i : PeerId) {e : Event α} (hcause : c.Causes i e) :
    c.Rests (c.handle i e).2 ∧ c.nodes[i]? = none ∨ ∃ n, c.Acts i n e (c.handle i e).2 := by
  cases hn : c.nodes[i]? with
  | none =>
      rw [handle_of_none hn]
      exact Or.inl ⟨Rests.refl c, rfl⟩
  | some n =>
      rw [handle_of_some hn]
      exact Or.inr ⟨n, acts_of_settle hn hcause rfl rfl fun _ h => Or.inl h⟩

/-- An unreachable node answers nothing, and the caller is told so. -/
theorem rests_of_failure {c : Cluster α} {p : Packet α} (hp : p.IsFailure) :
    c.Rests (c.enqueue p) where
  nodes := rfl
  applied := rfl
  packets := by
    intro q hq
    rcases List.mem_append.mp hq with hold | hnew
    · exact Or.inl hold
    · obtain rfl := List.mem_singleton.mp hnew
      exact Or.inr hp

theorem deliver_cases (c : Cluster α) {p : Packet α} (hp : p ∈ c.packets) :
    c.Rests (c.deliver p) ∧ (∀ x ∈ c.arrival? p, c.nodes[x.1]? = none) ∨
      ∃ i n e, c.arrival? p = some (i, e) ∧ c.Acts i n e (c.deliver p) := by
  have hmissing {i : PeerId} {e : Event α} (hn : c.nodes[i]? = none) :
      ∀ x ∈ some (i, e), c.nodes[x.1]? = none := by
    intro x hx
    obtain rfl := Option.some.inj hx
    exact hn
  have hlost : ∀ x ∈ (none : Option (PeerId × Event α)), c.nodes[x.1]? = none := by
    intro x hx
    cases hx
  cases p with
  | voteRequest sender i generation args =>
      have hcause : c.Causes i (.voteRequest args) := .voteRequest hp
      by_cases hreach : c.Reachable sender i
      · cases hn : c.nodes[i]? with
        | none =>
            simp only [deliver, arrival?, hreach, if_true, handle_of_none hn]
            exact Or.inl ⟨Rests.refl c, hmissing hn⟩
        | some n =>
            refine Or.inr ⟨i, n, .voteRequest args, if_pos hreach, ?_⟩
            simp only [deliver, hreach, if_true, handle_of_some hn]
            exact acts_of_reply hn hcause (.vote hp)
      · simp only [deliver, arrival?, hreach, if_false]
        exact Or.inl ⟨rests_of_failure trivial, hlost⟩
  | appendRequest sender i context args =>
      have hcause : c.Causes i (.appendRequest args) := .appendRequest hp
      by_cases hreach : c.Reachable sender i
      · cases hn : c.nodes[i]? with
        | none =>
            simp only [deliver, arrival?, hreach, if_true, handle_of_none hn]
            exact Or.inl ⟨Rests.refl c, hmissing hn⟩
        | some n =>
            refine Or.inr ⟨i, n, .appendRequest args, if_pos hreach, ?_⟩
            simp only [deliver, hreach, if_true, handle_of_some hn]
            exact acts_of_reply hn hcause (.append hp)
      · simp only [deliver, arrival?, hreach, if_false]
        exact Or.inl ⟨rests_of_failure trivial, hlost⟩
  | voteReply sender i generation reply =>
      rcases c.handle_cases i (.voteReturned hp) with ⟨hrest, hn⟩ | ⟨n, hact⟩
      · exact Or.inl ⟨hrest, hmissing hn⟩
      · exact Or.inr ⟨i, n, _, rfl, hact⟩
  | appendReply sender i context reply =>
      rcases c.handle_cases i (.appendReturned hp) with ⟨hrest, hn⟩ | ⟨n, hact⟩
      · exact Or.inl ⟨hrest, hmissing hn⟩
      · exact Or.inr ⟨i, n, _, rfl, hact⟩

/-- All that a move can do: let one event happen to one node, or nothing at all. -/
theorem play_cases (c : Cluster α) (m : Move α) :
    c.Rests (c.play m) ∧ (∀ x ∈ c.event? m, c.nodes[x.1]? = none) ∨
      ∃ i n e, c.event? m = some (i, e) ∧ c.Acts i n e (c.play m) := by
  have hquiet (hnone : c.event? m = none) : ∀ x ∈ c.event? m, c.nodes[x.1]? = none := by
    intro x hx
    rw [hnone] at hx
    cases hx
  have hturn (i : PeerId) (e : Event α) (hcause : c.Causes i e)
      (hevent : c.event? m = some (i, e)) :
      c.Rests (c.handle i e).2 ∧ (∀ x ∈ c.event? m, c.nodes[x.1]? = none) ∨
        ∃ j n e', c.event? m = some (j, e') ∧ c.Acts j n e' (c.handle i e).2 := by
    rcases c.handle_cases i hcause with ⟨hrest, hn⟩ | ⟨n, hact⟩
    · refine Or.inl ⟨hrest, ?_⟩
      intro x hx
      rw [hevent] at hx
      obtain rfl := Option.some.inj hx
      exact hn
    · exact Or.inr ⟨i, n, e, hevent, hact⟩
  cases m with
  | electionTimeout i => exact hturn i _ .electionTimeout rfl
  | heartbeatTimeout i => exact hturn i _ .heartbeatTimeout rfl
  | submit i command => exact hturn i _ (.submit command) rfl
  | deliver k =>
      cases hk : c.packets[k]? with
      | none =>
          refine Or.inl ⟨?_, hquiet (by simp [event?, hk])⟩
          simp only [play, hk]
          exact Rests.refl c
      | some p =>
          simp only [play, event?, hk]
          exact c.deliver_cases (List.mem_of_getElem? hk)
  | lose k =>
      exact Or.inl ⟨⟨rfl, rfl, fun p hp => Or.inl (List.mem_of_mem_eraseIdx hp)⟩, hquiet rfl⟩
  | isolate i => exact Or.inl ⟨⟨rfl, rfl, fun _ h => Or.inl h⟩, hquiet rfl⟩
  | heal i => exact Or.inl ⟨⟨rfl, rfl, fun _ h => Or.inl h⟩, hquiet rfl⟩

theorem fresh_node {size : Nat} {i : PeerId} {n : Node α}
    (h : (fresh size).nodes[i]? = some n) : i < size ∧ n = (Node.fresh i size).start.node := by
  unfold fresh at h
  rw [List.getElem?_map] at h
  obtain ⟨j, hj, rfl⟩ := Option.map_eq_some_iff.mp h
  obtain ⟨hi, rfl⟩ := List.getElem?_eq_some_iff.mp hj
  rw [List.length_range] at hi
  exact ⟨hi, by rw [List.getElem_range]⟩

section Acts

variable {c c' : Cluster α} {i j : PeerId} {n m : Node α} {e : Event α}

theorem Acts.node_self (h : c.Acts i n e c') : c'.nodes[i]? = some (n.after e) := by
  rw [h.nodes, List.getElem?_set_self (List.getElem?_eq_some_iff.mp h.node).1]

theorem Acts.node_other (h : c.Acts i n e c') (hj : j ≠ i) : c'.nodes[j]? = c.nodes[j]? := by
  rw [h.nodes, List.getElem?_set_ne (Ne.symm hj)]

theorem Acts.node_cases (h : c.Acts i n e c') (hm : c'.nodes[j]? = some m) :
    j = i ∧ m = n.after e ∨ j ≠ i ∧ c.nodes[j]? = some m := by
  by_cases hj : j = i
  · subst hj
    rw [h.node_self] at hm
    exact Or.inl ⟨rfl, (Option.some.inj hm).symm⟩
  · rw [h.node_other hj] at hm
    exact Or.inr ⟨hj, hm⟩

/-- An append call in flight after an event was so before, or is called for in the event. -/
theorem Acts.appendRequest_cases {s r : PeerId} {context : AppendContext} {args : AppendRequest α}
    (h : c.Acts i n e c') (hp : .appendRequest s r context args ∈ c'.packets) :
    .appendRequest s r context args ∈ c.packets ∨
      s = i ∧ .appendEntries r context args ∈ (n.handle e).2.actions := by
  rcases h.packets _ hp with hold | ⟨a, ha, hsent⟩ | hanswer
  · exact Or.inl hold
  · cases a with
    | appendEntries peer context' args' =>
        obtain ⟨rfl, rfl, rfl, rfl⟩ := Packet.appendRequest.inj (Option.some.inj hsent)
        exact Or.inr ⟨rfl, ha⟩
    | _ => cases hsent
  · cases hanswer

/-- An answer in flight after an event was so before, or is given in the event. -/
theorem Acts.appendReply_cases {s r : PeerId} {context : AppendContext} {reply : AppendReply}
    (h : c.Acts i n e c') (hp : .appendReply r s context (some reply) ∈ c'.packets) :
    .appendReply r s context (some reply) ∈ c.packets ∨
      ∃ args, r = i ∧ e = .appendRequest args ∧ reply = (n.answerAppend args).1 ∧
        .appendRequest s i context args ∈ c.packets := by
  rcases h.packets _ hp with hold | ⟨a, ha, hsent⟩ | hanswer
  · exact Or.inl hold
  · cases a <;> cases hsent
  · cases hanswer with
    | append hcall => exact Or.inr ⟨_, rfl, rfl, rfl, hcall⟩

end Acts

/-- The queue of the cluster is one order of delivery among others: its head arrives and is then
no longer in flight. -/
theorem deliverNext_eq_play (c : Cluster α) (hc : c.packets ≠ []) :
    c.deliverNext = (c.play (.deliver 0)).play (.lose 0) := by
  obtain ⟨nodes, applied, packets, isolated⟩ := c
  cases packets with
  | nil => exact absurd rfl hc
  | cons p rest =>
      cases p with
      | voteRequest sender i generation args =>
          by_cases hreach : sender ∉ isolated ∧ i ∉ isolated
          · cases hn : nodes[i]? <;>
              simp [deliverNext, play, deliver, Reachable, hreach, handle, hn, Node.handle, settle,
                enqueue]
          · simp [deliverNext, play, deliver, Reachable, hreach, enqueue]
      | appendRequest sender i context args =>
          by_cases hreach : sender ∉ isolated ∧ i ∉ isolated
          · cases hn : nodes[i]? <;>
              simp [deliverNext, play, deliver, Reachable, hreach, handle, hn, Node.handle, settle,
                enqueue]
          · simp [deliverNext, play, deliver, Reachable, hreach, enqueue]
      | voteReply sender i generation reply =>
          cases hn : nodes[i]? <;> simp [deliverNext, play, deliver, handle, hn, settle]
      | appendReply sender i context reply =>
          cases hn : nodes[i]? <;> simp [deliverNext, play, deliver, handle, hn, settle]

end Cluster

/-- A condition on what may happen to a node of a cluster. -/
abbrev Rule (α : Type) := Cluster α → Node α → Event α → Prop

/-- A move keeps to a rule if what it lets happen does. -/
def Cluster.Obeys (rule : Rule α) (c : Cluster α) (m : Move α) : Prop :=
  ∀ x ∈ c.event? m, ∀ n ∈ c.nodes[x.1]?, rule c n x.2

namespace Cluster

instance (rule : Rule α) [∀ c n e, Decidable (rule c n e)] (c : Cluster α) (m : Move α) :
    Decidable (c.Obeys rule m) :=
  inferInstanceAs (Decidable (∀ x ∈ c.event? m, ∀ n ∈ c.nodes[x.1]?, rule c n x.2))

/-- Moves one after the other: the last state, and those before it with the latest first. -/
def course (c : Cluster α) (past : List (Cluster α)) :
    List (Move α) → Cluster α × List (Cluster α)
  | [] => (c, past)
  | m :: rest => (c.play m).course (c :: past) rest

/-- The last state does not depend on what was before the moves. -/
theorem course_last (c : Cluster α) (past before : List (Cluster α)) (ms : List (Move α)) :
    (c.course past ms).1 = (c.course before ms).1 := by
  induction ms generalizing c past before with
  | nil => rfl
  | cons m rest ih => exact ih (c.play m) (c :: past) (c :: before)

def AllObey (rule : Rule α) (c : Cluster α) : List (Move α) → Prop
  | [] => True
  | m :: rest => c.Obeys rule m ∧ (c.play m).AllObey rule rest

def decideAllObey (rule : Rule α) [∀ c n e, Decidable (rule c n e)] (c : Cluster α) :
    (ms : List (Move α)) → Decidable (c.AllObey rule ms)
  | [] => isTrue trivial
  | m :: rest =>
    have := (c.play m).decideAllObey rule rest
    inferInstanceAs (Decidable (_ ∧ _))

instance (rule : Rule α) [∀ c n e, Decidable (rule c n e)] (c : Cluster α) (ms : List (Move α)) :
    Decidable (c.AllObey rule ms) :=
  c.decideAllObey rule ms

end Cluster

/-- The runs of a cluster of a given size that keep to a rule: the present state, and the past ones
with the latest first. -/
inductive Run (rule : Rule α) (size : Nat) : Cluster α → List (Cluster α) → Prop
  | start : Run rule size (.fresh size) []
  | move {c past} (m : Move α) : Run rule size c past → c.Obeys rule m →
      Run rule size (c.play m) (c :: past)

namespace Run

variable {rule : Rule α} {size : Nat} {c : Cluster α} {past : List (Cluster α)}

theorem mono {other : Rule α} (h : Run rule size c past)
    (himp : ∀ c n e, rule c n e → other c n e) : Run other size c past := by
  induction h with
  | start => exact .start
  | move m _ hm ih => exact .move m ih fun x hx n hn => himp _ _ _ (hm x hx n hn)

/-- Moves that keep to the rule prolong a run. -/
theorem course (h : Run rule size c past) {ms : List (Move α)} (hms : c.AllObey rule ms) :
    Run rule size (c.course past ms).1 (c.course past ms).2 := by
  induction ms generalizing c past with
  | nil => exact h
  | cons m rest ih => exact ih (.move m h hms.1) hms.2

/-- What holds at first and is kept by rests and by events holds all along. -/
theorem invariant {P : Cluster α → List (Cluster α) → Prop} (h : Run rule size c past)
    (hstart : P (.fresh size) [])
    (hrest : ∀ {c past c'}, Run rule size c past → P c past → c.Rests c' → P c' (c :: past))
    (hact : ∀ {c past i n e c'}, Run rule size c past → P c past → c.Acts i n e c' →
      rule c n e → P c' (c :: past)) : P c past := by
  induction h with
  | start => exact hstart
  | @move c past m hrun hm ih =>
      rcases c.play_cases m with ⟨hquiet, -⟩ | ⟨i, n, e, hevent, hacts⟩
      · exact hrest hrun ih hquiet
      · exact hact hrun ih hacts (hm (i, e) hevent n hacts.node)

/-- What a run has come through is a run. -/
theorem of_suffix (h : Run rule size c past) {d : Cluster α} {before : List (Cluster α)}
    (hsuffix : d :: before <:+ c :: past) : Run rule size d before := by
  induction h with
  | start =>
      rcases List.suffix_cons_iff.mp hsuffix with heq | hnil
      · obtain ⟨rfl, rfl⟩ := List.cons.inj heq
        exact .start
      · cases List.suffix_nil.mp hnil
  | move m hrun hm ih =>
      rcases List.suffix_cons_iff.mp hsuffix with heq | hold
      · obtain ⟨rfl, rfl⟩ := List.cons.inj heq
        exact .move m hrun hm
      · exact ih hold

/-- Every state of a run has been the present one of a run. -/
theorem of_mem (h : Run rule size c past) {d : Cluster α} (hd : d ∈ c :: past) :
    ∃ before, Run rule size d before ∧ d :: before <:+ c :: past := by
  obtain ⟨after, before, hsplit⟩ := List.append_of_mem hd
  have hsuffix : d :: before <:+ c :: past := ⟨after, hsplit.symm⟩
  exact ⟨before, h.of_suffix hsuffix, hsuffix⟩

/-- The last move of a run. -/
theorem last_move {b : Cluster α} (h : Run rule size c (b :: past)) :
    Run rule size b past ∧ (b.Rests c ∨ ∃ i n e, b.Acts i n e c ∧ rule b n e) := by
  cases h with
  | move m hrun hm =>
      refine ⟨hrun, ?_⟩
      rcases b.play_cases m with ⟨hquiet, -⟩ | ⟨i, n, e, hevent, hacts⟩
      · exact Or.inl hquiet
      · exact Or.inr ⟨i, n, e, hacts, hm (i, e) hevent n hacts.node⟩

/-- The members of a cluster keep their places. -/
theorem seat (h : Run rule size c past) :
    ∀ i n, c.nodes[i]? = some n → i < size ∧ n.id = i ∧ n.clusterSize = size := by
  refine h.invariant (P := fun c _ =>
    ∀ i n, c.nodes[i]? = some n → i < size ∧ n.id = i ∧ n.clusterSize = size) ?_ ?_ ?_
  · intro i n hn
    obtain ⟨hi, rfl⟩ := Cluster.fresh_node hn
    exact ⟨hi, rfl, rfl⟩
  · intro c past c' _ ih hrest i n hn
    rw [hrest.nodes] at hn
    exact ih i n hn
  · intro c past j k e c' _ ih hact _ i n hn
    rcases hact.node_cases hn with ⟨rfl, rfl⟩ | ⟨-, hold⟩
    · obtain ⟨hi, hid, hsize⟩ := ih i k hact.node
      have hshift := k.after_shift e
      exact ⟨hi, hshift.id.trans hid, hshift.clusterSize.trans hsize⟩
    · exact ih i n hold

/-- No member is lost and none is added. -/
theorem length_nodes (h : Run rule size c past) : c.nodes.length = size := by
  refine h.invariant (P := fun c _ => c.nodes.length = size) ?_ ?_ ?_
  · simp [Cluster.fresh]
  · intro c past c' _ ih hrest
    rw [hrest.nodes]
    exact ih
  · intro c past i n e c' _ ih hact _
    rw [hact.nodes, List.length_set]
    exact ih

/-- Each member has a record of what it has handed over. -/
theorem length_applied (h : Run rule size c past) : c.applied.length = c.nodes.length := by
  refine h.invariant (P := fun c _ => c.applied.length = c.nodes.length) ?_ ?_ ?_
  · simp [Cluster.fresh]
  · intro c past c' _ ih hrest
    rw [hrest.applied, hrest.nodes]
    exact ih
  · intro c past i n e c' _ ih hact _
    rw [hact.applied, hact.nodes, List.length_modify, List.length_set]
    exact ih

/-- The members of a cluster have handed over what they have committed. -/
theorem settled (h : Run rule size c past) :
    ∀ (i : PeerId) (n : Node α), c.nodes[i]? = some n → n.Settled := by
  refine h.invariant (P := fun c _ =>
    ∀ (i : PeerId) (n : Node α), c.nodes[i]? = some n → n.Settled) ?_ ?_ ?_
  · intro i n hn
    obtain ⟨-, rfl⟩ := Cluster.fresh_node hn
    exact ⟨rfl, Int.le_refl _⟩
  · intro c past c' _ ih hrest i n hn
    rw [hrest.nodes] at hn
    exact ih i n hn
  · intro c past j k e c' _ ih hact _ i n hn
    rcases hact.node_cases hn with ⟨-, rfl⟩ | ⟨-, hold⟩
    · exact (ih j k hact.node).after e
    · exact ih i n hold

/-- A run whose rule lets happen only what another one does is a run under that one. -/
theorem mono_of_run {other : Rule α} (h : Run rule size c past)
    (himp : ∀ {c past e} {i : PeerId} {n : Node α}, Run rule size c past →
      c.nodes[i]? = some n → rule c n e → other c n e) : Run other size c past := by
  induction h with
  | start => exact .start
  | move m hrun hm ih =>
      refine .move m ih ?_
      intro x hx n hn
      exact himp hrun hn (hm x hx n hn)

end Run

end Quorum
