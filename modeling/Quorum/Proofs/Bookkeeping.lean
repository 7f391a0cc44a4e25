import Quorum.Proofs.Queue
import Quorum.Proofs.Shipping

/-!
What a leader keeps, whatever it is told. It has a cursor for every member, and a cursor goes beyond
the length that the log had when the leader came to lead only behind a match index. The leader's own
copy counts in every agreement.
-/

namespace Quorum

variable {α : Type}

/-- What the member `me` keeps as the leader of a cluster of the given size, if its log had the
length `start` when it came to lead. -/
structure Leadership.Kept (size : Nat) (me : PeerId) (start : Nat) (l : Leadership) : Prop where
  width : l.cursors.length = size
  next : ∀ (p : PeerId) cursor, l.cursors[p]? = some cursor →
    cursor.next ≤ max (start : Int) (cursor.matched + 1)
  own : ∀ a ∈ l.agreements, me ∈ a.acks.peers

namespace Leadership.Kept

variable {size start : Nat} {me : PeerId} {l m : Leadership}

theorem fresh (size : Nat) (me : PeerId) (length : Nat) :
    (Leadership.fresh size length).Kept size me length where
  width := List.length_replicate
  next := by
    intro p cursor hcursor
    rw [Leadership.cursor_fresh hcursor]
    exact Int.le_max_left _ _
  own := by
    intro a ha
    cases ha

/-- The waiting indices do not matter. -/
theorem congr (h : l.Kept size me start) (hcursors : m.cursors = l.cursors)
    (hagreements : m.agreements = l.agreements) : m.Kept size me start where
  width := by rw [hcursors]; exact h.width
  next := by rw [hcursors]; exact h.next
  own := by rw [hagreements]; exact h.own

theorem openAgreement (h : l.Kept size me start) (i : LogIndex) :
    (l.openAgreement i me).Kept size me start where
  width := h.width
  next := h.next
  own := by
    intro a ha
    rcases mem_of_mem_insertByIndex ha with rfl | hold
    · exact Tally.mem_single.mpr rfl
    · exact h.own a hold

theorem acknowledge (h : l.Kept size me start) (i : LogIndex) (p : PeerId) :
    (l.acknowledge i p).Kept size me start where
  width := h.width
  next := h.next
  own := by
    intro a ha
    obtain ⟨b, hb, rfl⟩ := List.mem_map.mp ha
    split
    · exact Tally.mem_add.mpr (Or.inl (h.own b hb))
    · exact h.own b hb

theorem closeThrough (h : l.Kept size me start) (i : LogIndex) :
    (l.closeThrough i).Kept size me start where
  width := h.width
  next := h.next
  own := fun a ha => h.own a (List.mem_filter.mp ha).1

theorem recordSuccess (h : l.Kept size me start) (p : PeerId) (k : LogIndex) :
    (l.recordSuccess p k).Kept size me start where
  width := (List.length_modify _ _ _).trans h.width
  next := by
    intro q cursor hcursor
    obtain ⟨old, hold, ⟨-, rfl⟩ | ⟨-, rfl⟩⟩ := Leadership.cursor_recordSuccess hcursor
    · change k.next ≤ max (start : Int) (max old.matched k + 1)
      have hnext := k.next_le_succ
      lia
    · exact h.next q _ hold
  own := h.own

theorem recordFailure (h : l.Kept size me start) (p : PeerId) :
    (l.recordFailure p).Kept size me start where
  width := (List.length_modify _ _ _).trans h.width
  next := by
    intro q cursor hcursor
    obtain ⟨old, hold, hmatched, hnext⟩ := Leadership.cursor_recordFailure hcursor
    have hbefore := h.next q old hold
    rw [hmatched]
    rcases hnext with hsame | ⟨-, hback⟩
    · rw [hsame]
      exact hbefore
    · rw [hback]
      lia
  own := h.own

end Leadership.Kept

/-- What the node keeps, if it leads. -/
def Node.Keeps (start : Nat) (n : Node α) : Prop :=
  ∀ l, n.role = .leader l → l.Kept n.clusterSize n.id start

section Steps

variable {opens : LogIndex → Prop} {acks : LogIndex → PeerId → Prop} {start : Nat} {t u : Turn α}

theorem Turn.mapLead_keeps {f : Leadership → Leadership} (h : t.node.Keeps start)
    (hf : ∀ l, l.Kept t.node.clusterSize t.node.id start →
      (f l).Kept t.node.clusterSize t.node.id start) : (t.mapLead f).node.Keeps start := by
  intro l hl
  obtain ⟨lead, hlead, rfl⟩ := Role.of_mapLead hl
  exact hf lead (h lead hlead)

theorem Turn.Step.keeps (h : t.node.Keeps start) (hstep : t.Step opens acks u) :
    u.node.Keeps start := by
  cases hstep with
  | dequeue i => exact mapLead_keeps h fun l hl => hl.congr rfl rfl
  | openAgreement i hi hprev => exact mapLead_keeps h fun l hl => hl.openAgreement i
  | ask i hi hprev => exact h
  | acknowledge i p hp => exact mapLead_keeps h fun l hl => hl.acknowledge i p
  | commit i hi =>
      intro l hl
      obtain ⟨lead, hlead, rfl⟩ := Role.of_mapLead hl
      exact (h lead hlead).closeThrough _

theorem Turn.Steps.keeps (h : t.node.Keeps start) (hsteps : t.Steps opens acks u) :
    u.node.Keeps start := by
  induction hsteps with
  | refl => exact h
  | tail _ hstep ih => exact hstep.keeps ih

end Steps

namespace Node

variable {start : Nat} {n : Node α}

theorem keeps_of_not_leader (h : ¬ n.isLeader) : n.Keeps start := by
  intro l hl
  exact absurd (isLeader_of_lead hl) h

theorem record_keeps (h : n.Keeps start) (sender : PeerId) (context : AppendContext) :
    (n.idle.record sender context).node.Keeps start := by
  unfold Turn.record
  split
  · exact Turn.mapLead_keeps h fun l hl => hl.recordSuccess sender _
  · exact h

/-- Whatever happens to a node, it goes on to keep what it has to as a leader. -/
theorem Keeps.after (h : n.Keeps start) (e : Event α) :
    (n.after e).Keeps (n.ledFromAfter start e) := by
  by_cases hlead : (n.after e).isLeader
  case neg => exact keeps_of_not_leader hlead
  have hid : (n.after e).id = n.id := (n.after_shift e).id
  have hsize : (n.after e).clusterSize = n.clusterSize := (n.after_shift e).clusterSize
  have hreign : n.Reign (fun _ => True) (fun _ _ => True) e :=
    after_reign hlead (fun _ _ => trivial) fun _ _ _ _ _ _ _ _ _ _ _ => trivial
  cases hreign with
  | hold hrole hlog hcommit =>
      have hbefore : n.isLeader := by
        unfold isLeader at hlead ⊢
        rwa [← hrole]
      rw [ledFromAfter_of_leader hbefore]
      intro l hl
      rw [hid, hsize]
      exact h l (hrole.symm.trans hl)
  | accede hbefore hrole hlog hcommit hgen =>
      have hstart : n.ledFromAfter start e = n.log.length := by
        unfold ledFromAfter
        rw [if_pos ⟨hbefore, hlead⟩, hlog]
      intro l hl
      obtain rfl := Role.leader.inj (hrole.symm.trans hl)
      rw [hstart, hsize]
      exact .fresh _ _ _
  | store command he hleader hsteps =>
      rw [ledFromAfter_of_leader hleader]
      have hstored : (n.stored command).node.Keeps start :=
        Turn.mapLead_keeps (t := idle { n with log := n.log ++ [⟨n.term, command⟩] }) h
          fun l hl => hl.congr rfl rfl
      exact Turn.Steps.keeps hstored hsteps
  | count sender context reply he hleader hgen hsuccess hsteps =>
      rw [ledFromAfter_of_leader hleader]
      exact Turn.Steps.keeps (record_keeps h sender context) hsteps
  | retreat sender context reply he hleader hrole hlog hcommit =>
      rw [ledFromAfter_of_leader hleader]
      intro l hl
      obtain ⟨lead, hold, rfl⟩ := Role.of_mapLead (hrole.symm.trans hl)
      rw [hid, hsize]
      exact (h lead hold).recordFailure sender

theorem fresh_keeps (id : PeerId) (size : Nat) : (fresh id size : Node α).Keeps start :=
  keeps_of_not_leader (by simp [isLeader, fresh, Role.isLeader])

end Node

/-- The log length with which the member at `i` last came to lead, in the course of states of which
the latest is the first. -/
def ledFrom (i : PeerId) : List (Cluster α) → Nat
  | c :: b :: past =>
    match b.nodes[i]?, c.nodes[i]? with
    | some m, some n => if ¬ m.isLeader ∧ n.isLeader then n.log.length else ledFrom i (b :: past)
    | _, _ => 0
  | _ => 0

section Run

variable {c c' : Cluster α} {past : List (Cluster α)} {i : PeerId} {n : Node α} {e : Event α}

theorem ledFrom_of_same (hn : c.nodes[i]? = some n) (hn' : c'.nodes[i]? = some n) :
    ledFrom i (c' :: c :: past) = ledFrom i (c :: past) := by
  have hsame : ¬ (¬ n.isLeader ∧ n.isLeader) := fun h => h.1 h.2
  simp only [ledFrom, hn, hn', hsame, if_false]

theorem ledFrom_of_after (hn : c.nodes[i]? = some n) (hn' : c'.nodes[i]? = some (n.after e)) :
    ledFrom i (c' :: c :: past) = n.ledFromAfter (ledFrom i (c :: past)) e := by
  simp only [ledFrom, hn, hn', Node.ledFromAfter]

/-- What leaders keep, and the order of their queues, from the log lengths with which they have come
to lead. -/
theorem Run.bookkeeping {rule : Rule α} {size : Nat} (h : Run rule size c past) :
    ∀ (i : PeerId) (n : Node α), c.nodes[i]? = some n →
      n.Keeps (ledFrom i (c :: past)) ∧ n.Queues (ledFrom i (c :: past)) := by
  refine h.invariant (P := fun c past => ∀ (i : PeerId) (n : Node α), c.nodes[i]? = some n →
    n.Keeps (ledFrom i (c :: past)) ∧ n.Queues (ledFrom i (c :: past))) ?_ ?_ ?_
  · intro i n hn
    obtain ⟨-, rfl⟩ := Cluster.fresh_node hn
    exact ⟨(Node.fresh_keeps i size).after .start, (Node.fresh_queues i size).after .start⟩
  · intro c past c' _ ih hrest i n hn'
    have hn : c.nodes[i]? = some n := by
      rw [← hrest.nodes]
      exact hn'
    rw [ledFrom_of_same hn hn']
    exact ih i n hn
  · intro c past j k e c' _ ih hact _ i n hn'
    rcases hact.node_cases hn' with ⟨rfl, rfl⟩ | ⟨-, hn⟩
    · obtain ⟨hkeeps, hqueues⟩ := ih i k hact.node
      rw [ledFrom_of_after hact.node hn']
      exact ⟨hkeeps.after e, hqueues.after e⟩
    · rw [ledFrom_of_same hn hn']
      exact ih i n hn

end Run

end Quorum
