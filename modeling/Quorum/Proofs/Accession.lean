import Quorum.Proofs.Acceptance
import Quorum.Proofs.LogMatching

/-!
What can be observed of a run, event by event: who comes to lead, and which commands are accepted.
Where somebody comes to lead only once, no call is under way before, and nobody else ever leads.
-/

namespace Quorum

variable {α β : Type}

namespace Cluster

/-- What is seen of the event that a move lets happen. -/
def seen? (see : Node α → Event α → Option β) (c : Cluster α) (m : Move α) : Option β :=
  (c.event? m).bind fun x => c.nodes[x.1]?.bind fun n => see n x.2

/-- All that is seen in the course of moves. -/
def observe (see : Node α → Event α → Option β) (c : Cluster α) : List (Move α) → List β
  | [] => []
  | m :: rest => (c.seen? see m).toList ++ (c.play m).observe see rest

variable {see : Node α → Event α → Option β} {c : Cluster α} {i : PeerId} {n : Node α}
  {e : Event α} {m : Move α}

theorem seen?_of_event (hevent : c.event? m = some (i, e)) (hn : c.nodes[i]? = some n) :
    c.seen? see m = see n e := by
  simp [seen?, hevent, hn]

theorem seen?_of_missing (h : ∀ x ∈ c.event? m, c.nodes[x.1]? = none) : c.seen? see m = none := by
  unfold seen?
  cases hevent : c.event? m with
  | none => rfl
  | some x =>
      rw [Option.bind_some, h x hevent]
      rfl

theorem observe_append (c : Cluster α) (past : List (Cluster α)) (ms later : List (Move α)) :
    c.observe see (ms ++ later) =
      c.observe see ms ++ (c.course past ms).1.observe see later := by
  induction ms generalizing c past with
  | nil => rfl
  | cons m rest ih =>
      rw [List.cons_append, observe, observe, ih (c.play m) (c :: past), List.append_assoc]
      rfl

end Cluster

namespace Node

/-- The node, if the event makes it a leader. One that leads already ignores its election timer, so
that it is not made a leader again. -/
def accession? (n : Node α) (e : Event α) : Option PeerId :=
  if ¬ n.isLeader ∧ (n.after e).isLeader then some n.id else none

/-- The command that is submitted, if the node accepts it. -/
def accepted? (n : Node α) : Event α → Option α
  | .submit command => if (n.submit command).1.isLeader then some command else none
  | _ => none

theorem submit_isLeader (n : Node α) (command : α) :
    (n.submit command).1.isLeader = n.isLeader := by
  unfold submit
  split
  · rename_i hleader
    exact hleader.symm
  · rename_i hleader
    exact (Bool.eq_false_iff.mpr hleader).symm

theorem accepted?_eq_some {n : Node α} {e : Event α} {command : α}
    (h : n.accepted? e = some command) : e = .submit command ∧ n.isLeader := by
  cases e with
  | submit command' =>
      rw [accepted?, submit_isLeader] at h
      split at h
      · rename_i hleader
        obtain rfl := Option.some.inj h
        exact ⟨rfl, hleader⟩
      · cases h
  | _ => cases h

end Node

/-- Nobody but the member at `i` comes to lead. -/
def elects (i : PeerId) : Rule α := fun _ n e => ¬ n.isLeader → (n.after e).isLeader → n.id = i

/-- Nobody but the member at `i` comes to lead, and it does so with no call of it under way. -/
def sole (i : PeerId) : Rule α := unrepeated.both (elects i)

section Accession

variable {size : Nat} {c : Cluster α} {past : List (Cluster α)} {i : PeerId} {m : Move α}

/-- A cluster that nobody has led yet. -/
structure Cluster.Untouched (c : Cluster α) : Prop where
  leader : ∀ (j : PeerId) n, c.nodes[j]? = some n → ¬ n.isLeader
  calls : ∀ q ∈ c.packets, q.call? = none

theorem Cluster.Untouched.fresh (size : Nat) : Untouched (.fresh size : Cluster α) where
  leader := by
    intro j n hn
    obtain ⟨-, rfl⟩ := Cluster.fresh_node hn
    exact Bool.false_ne_true
  calls := by
    intro q hq
    cases hq

/-- It takes an accession to change that. -/
theorem Cluster.Untouched.play (h : c.Untouched) (hseen : c.seen? Node.accession? m = none) :
    (c.play m).Untouched := by
  rcases c.play_cases m with ⟨hrest, -⟩ | ⟨j, n, e, hevent, hact⟩
  · refine ⟨?_, ?_⟩
    · rw [hrest.nodes]
      exact h.leader
    · intro q hq
      exact (hrest.packets q hq).elim (h.calls q) Packet.IsFailure.call?
  · have hquiet : ¬ (n.after e).isLeader := by
      intro hleader
      rw [Cluster.seen?_of_event hevent hact.node, Node.accession?,
        if_pos ⟨h.leader j n hact.node, hleader⟩] at hseen
      cases hseen
    refine ⟨?_, ?_⟩
    · intro k m hm
      rcases hact.node_cases hm with ⟨-, rfl⟩ | ⟨-, hold⟩
      · exact hquiet
      · exact h.leader k m hold
    · intro q hq
      cases hcall : q.call? with
      | none => rfl
      | some call =>
          rcases hact.call? hq hcall with ⟨q₀, hq₀, hcall₀⟩ | ⟨-, -, hleader, -⟩
          · rw [h.calls q₀ hq₀] at hcall₀
            cases hcall₀
          · exact absurd hleader hquiet

/-- Moves in which at most one member comes to lead, and that the first time that anybody does,
leave only this one to lead. -/
theorem Cluster.allObey_sole {ms : List (Move α)}
    (h : c.observe Node.accession? ms = [] ∨
      c.Untouched ∧ c.observe Node.accession? ms = [i]) : c.AllObey (sole i) ms := by
  induction ms generalizing c with
  | nil => trivial
  | cons m rest ih =>
      have hfirst : c.observe Node.accession? (m :: rest) =
          (c.seen? Node.accession? m).toList ++ (c.play m).observe Node.accession? rest := rfl
      have hseen (x) (hx : x ∈ c.event? m) (n) (hn : n ∈ c.nodes[x.1]?)
          (hbefore : ¬ n.isLeader) (hafter : (n.after x.2).isLeader) :
          c.seen? Node.accession? m = some n.id := by
        rw [Cluster.seen?_of_event hx hn, Node.accession?, if_pos ⟨hbefore, hafter⟩]
      rw [hfirst] at h
      cases hone : c.seen? Node.accession? m with
      | none =>
          rw [hone] at h
          refine ⟨?_, ih (h.imp_right fun huntouched => ⟨huntouched.1.play hone, huntouched.2⟩)⟩
          intro x hx n hn
          have hno (hbefore : ¬ n.isLeader) (hafter : (n.after x.2).isLeader) : False := by
            have hsome := hseen x hx n hn hbefore hafter
            rw [hone] at hsome
            cases hsome
          exact ⟨fun hbefore hafter => (hno hbefore hafter).elim,
            fun hbefore hafter => (hno hbefore hafter).elim⟩
      | some j =>
          rw [hone] at h
          rcases h with hnone | ⟨huntouched, hsame⟩
          · cases hnone
          · obtain ⟨rfl, hrest⟩ := List.cons.inj hsame
            refine ⟨?_, ih (Or.inl hrest)⟩
            intro x hx n hn
            refine ⟨?_, ?_⟩
            · intro _ _ q hq context hcall
              rw [huntouched.calls q hq] at hcall
              cases hcall
            · intro hbefore hafter
              have hsome := hseen x hx n hn hbefore hafter
              exact Option.some.inj (hsome.symm.trans hone)

theorem Run.unrepeated_of_sole (h : Run (sole i) size c past) : Run unrepeated size c past :=
  h.mono fun _ _ _ h => h.1

/-- Whoever comes to lead is a member. -/
theorem Run.accession_lt {rule : Rule α} (h : Run rule size c past) (hrule : ∀ c n e, rule c n e)
    {ms : List (Move α)} (hi : i ∈ c.observe Node.accession? ms) : i < size := by
  induction ms generalizing c past with
  | nil => cases hi
  | cons m rest ih =>
      rcases List.mem_append.mp hi with hfirst | hrest
      · obtain ⟨x, hx, hseen⟩ := Option.bind_eq_some_iff.mp (Option.mem_toList.mp hfirst)
        obtain ⟨n, hn, haccession⟩ := Option.bind_eq_some_iff.mp hseen
        unfold Node.accession? at haccession
        split at haccession
        · obtain ⟨hlt, hid, -⟩ := h.seat x.1 n hn
          obtain rfl := Option.some.inj haccession
          rw [hid]
          exact hlt
        · cases haccession
      · exact ih (.move m h fun _ _ _ _ => hrule _ _ _) hrest

end Accession

end Quorum
