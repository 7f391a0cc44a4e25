import Quorum.Node.Calls

/-!
Commitment. The commit index only rises, everything up to it is handed over in order, and a leader
seeks agreement on one entry after the other: the entry after the commit index is being agreed on,
the later ones wait.
-/

namespace Quorum

variable {α : Type}

/-- Committed entries that can be handed over: those after the last one that was, as far as the log
holds them. There is no entry below the first index, so from further down nothing is reached. -/
def Node.unapplied (n : Node α) : List (Entry α) :=
  if LogIndex.absent ≤ n.lastApplied then n.log.slice (n.lastApplied + 1) n.commitIndex else []

/-- The instructions to apply entries that follow an index, numbered from there on. -/
def Action.applyAfter (i : LogIndex) : List (Entry α) → List (Action α)
  | [] => []
  | e :: rest => .apply (i + 1) e.command :: applyAfter (i + 1) rest

namespace Turn

/-- Hands over every committed entry that the log holds, in order. -/
def applyCommitted (t : Turn α) : Turn α where
  node := { t.node with lastApplied := t.node.lastApplied + t.node.unapplied.length }
  actions := t.actions ++ Action.applyAfter t.node.lastApplied t.node.unapplied

/-- Raises the commit index to `last`, though not beyond the log and never backwards. Agreements on
committed entries are over. -/
def commitThrough (t : Turn α) (last : LogIndex) : Turn α :=
  let commit := max t.node.commitIndex (min last t.node.log.lastIndex)
  (applyCommitted { t with node := { t.node with commitIndex := commit } }).mapLead
    (·.closeThrough commit)

/-- Opens the agreement on an entry. Where the leader's own copy is a majority the entry is
committed at once, otherwise every other member is asked. -/
def startAgreement (t : Turn α) (i : LogIndex) : Turn α :=
  let t := t.mapLead (·.openAgreement i t.node.id)
  match t.node.role.lead?.bind (·.agreement? i) with
  | none => t
  | some a =>
    if a.acks.IsMajority t.node.clusterSize then t.commitThrough i
    else t.emitAll (t.node.others.filterMap (t.node.replicateCall? · i i))

/-- Goes through waiting indices as far as their predecessors are committed. An index that is
itself committed by now needs no agreement. -/
def resumeFrom : List LogIndex → Turn α → Turn α
  | [], t => t
  | i :: rest, t =>
    if t.node.commitIndex < i.prev then t
    else
      let t := t.mapLead (·.dequeue i)
      if i.prev < t.node.commitIndex then resumeFrom rest t
      else resumeFrom rest (t.startAgreement i)

/-- Starts every waiting agreement whose predecessor is committed. -/
def resumeAgreements (t : Turn α) : Turn α :=
  match t.node.role with
  | .leader l => resumeFrom l.waiting t
  | _ => t

/-- Commits through an index and goes on with what waited for that. -/
def advanceCommit (t : Turn α) (last : LogIndex) : Turn α := (t.commitThrough last).resumeAgreements

/-- Counts a peer's acknowledgement of an entry, if it is the first from that peer and the entry is
being agreed on. A majority commits the entry. -/
def acknowledge (t : Turn α) (i : LogIndex) (p : PeerId) : Turn α :=
  match t.node.role.lead?.bind (·.agreement? i) with
  | none => t
  | some a =>
    if p ∈ a.acks.peers then t
    else
      let t := t.mapLead (·.acknowledge i p)
      if (a.acks.add p).IsMajority t.node.clusterSize then t.advanceCommit i else t

end Turn

/-- The highest match index above the commit index that at least half of the cluster has reached,
or the commit index if there is none. The leader's own cursor never moves, so half of the cluster
besides the leader is a majority with it. -/
def Node.coveredIndex (n : Node α) (l : Leadership) : LogIndex :=
  (l.matchIndices.filter fun v =>
    n.commitIndex < v ∧ n.clusterSize ≤ (l.matchIndices.countP (v ≤ ·)) * 2).foldl max n.commitIndex

/-- Commits what enough peers are known to hold. -/
def Turn.commitCovered (t : Turn α) : Turn α :=
  match t.node.role with
  | .leader l =>
    let covered := t.node.coveredIndex l
    if t.node.commitIndex < covered then t.advanceCommit covered else t
  | _ => t

end Quorum
