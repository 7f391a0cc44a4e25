import Quorum.Node.Calls

/-!
What the append calls of a leader carry. Each is a piece of the leader's log: the entries from a
peer's cursor on, after the entry that the peer must already hold.
-/

namespace Quorum

variable {α : Type}

/-- The context of a call that sends `entries` from the cursor `next` on. -/
def AppendContext.ofCall (generation : Generation) (round : Round) (next : LogIndex)
    (entries : List (Entry α)) : AppendContext where
  generation := generation
  round := round
  lastSent := if entries = [] then none else some (next.toNat + entries.length - 1)

/-- The indices that a successful call is taken to confirm: the last one sent and the one on which
agreement is sought. -/
def AppendContext.Claims (context : AppendContext) (k : LogIndex) : Prop :=
  context.lastSent = some k ∨ ∃ cursor, context.round = .replicate k cursor

/-- The call of a node that sends its log from `next` through `last`. -/
def Node.callFrom (n : Node α) (next last : LogIndex) : AppendRequest α where
  term := n.term
  leaderId := n.id
  prevLogIndex := next.prev
  prevLogTerm := n.log.termAt? next.prev
  entries := n.log.slice next last
  leaderCommit := n.commitIndex

theorem Log.length_slice_eq (log : Log α) (i j : LogIndex) :
    (log.slice i j).length = min (j + 1).toNat log.length - i.toNat := by
  unfold slice
  rw [List.length_drop, List.length_take]

/-- The last entry that a call sends is one of the log. -/
theorem AppendContext.lastSent_ofCall_lt {log : Log α} {generation : Generation} {round : Round}
    {next last k : LogIndex}
    (h : (ofCall generation round next (log.slice next last)).lastSent = some k) :
    k < log.length := by
  change (if log.slice next last = [] then none else some _) = _ at h
  split at h
  · cases h
  · rename_i hentries
    have hpos := List.length_pos_iff.mpr hentries
    have hlength := log.length_slice_eq next last
    obtain rfl := Option.some.inj h
    lia

namespace Node

theorem appendCall?_eq_some {n : Node α} {peer : PeerId} {round : Round} {last : LogIndex}
    {a : Action α} (h : n.appendCall? peer round last = some a) :
    ∃ lead next, n.role = .leader lead ∧ lead.next? peer = some next ∧
      a = .appendEntries peer
        (.ofCall n.generation round next (n.log.slice next last)) (n.callFrom next last) := by
  unfold appendCall? at h
  cases hrole : n.role with
  | leader lead =>
      rw [hrole] at h
      cases hnext : lead.next? peer with
      | none => simp [Role.lead?, hnext] at h
      | some next =>
          refine ⟨lead, next, rfl, hnext, ?_⟩
          simp only [Role.lead?, Option.bind_eq_bind, Option.bind_some, hnext, Option.pure_def,
            Option.some.injEq] at h
          exact h.symm
  | follower _ => simp [hrole, Role.lead?] at h
  | candidate _ => simp [hrole, Role.lead?] at h

theorem mem_heartbeats {n : Node α} {a : Action α} (h : a ∈ n.heartbeats) :
    ∃ peer ∈ n.others, n.appendCall? peer .heartbeat n.log.lastIndex = some a := by
  unfold heartbeats at h
  simpa [List.mem_filterMap] using h

theorem mem_others {n : Node α} {p : PeerId} : p ∈ n.others ↔ p < n.clusterSize ∧ p ≠ n.id := by
  simp [others]

end Node

end Quorum
