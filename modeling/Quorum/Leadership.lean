import Quorum.LogIndex
import Quorum.Tally

/-!
What a leader keeps while it leads: how far every member's log is known to follow its own, which
entries are being agreed on, and which wait for their predecessor to commit. All of it is built
anew with every election won.
-/

namespace Quorum

/-- How far one member has followed: `next` is the first entry to send to it, `matched` the last
entry it is known to hold. -/
structure Cursor where
  next : LogIndex
  matched : LogIndex
  deriving DecidableEq, Repr

/-- The members known to hold the entry at `index`, the leader among them. -/
structure Agreement where
  index : LogIndex
  acks : Tally
  deriving DecidableEq, Repr

/-- Puts an element into a list in increasing order of its key, unless the key is there already. -/
def insertByIndex {β : Type} (key : β → LogIndex) (x : β) : List β → List β
  | [] => [x]
  | y :: rest =>
    if key x < key y then x :: y :: rest
    else if key x = key y then y :: rest
    else y :: insertByIndex key x rest

/-- One cursor for each member, the leader's own included, which never moves. Open agreements and
waiting indices are kept in increasing order. -/
structure Leadership where
  cursors : List Cursor
  agreements : List Agreement
  waiting : List LogIndex
  deriving DecidableEq, Repr

namespace Leadership

/-- At first every member is taken to need what follows the leader's log and to hold nothing. -/
def fresh (clusterSize logLength : Nat) : Leadership where
  cursors := List.replicate clusterSize ⟨(logLength : Int), LogIndex.absent⟩
  agreements := []
  waiting := []

def next? (l : Leadership) (p : PeerId) : Option LogIndex := l.cursors[p]?.map (·.next)

def matched? (l : Leadership) (p : PeerId) : Option LogIndex := l.cursors[p]?.map (·.matched)

def matchIndices (l : Leadership) : List LogIndex := l.cursors.map (·.matched)

/-- A peer has accepted entries through `lastSent`. -/
def recordSuccess (l : Leadership) (p : PeerId) (lastSent : LogIndex) : Leadership :=
  { l with cursors := l.cursors.modify p fun c => ⟨lastSent.next, max c.matched lastSent⟩ }

/-- A peer has rejected a call: the next one starts an entry earlier. -/
def recordFailure (l : Leadership) (p : PeerId) : Leadership :=
  { l with cursors := l.cursors.modify p fun c =>
      if 0 < c.next then { c with next := c.next.prev } else c }

def enqueue (l : Leadership) (i : LogIndex) : Leadership :=
  { l with waiting := insertByIndex id i l.waiting }

def firstWaiting? (l : Leadership) : Option LogIndex := l.waiting.head?

def dequeue (l : Leadership) (i : LogIndex) : Leadership :=
  { l with waiting := l.waiting.erase i }

def agreement? (l : Leadership) (i : LogIndex) : Option Agreement :=
  l.agreements.find? (·.index = i)

/-- Opens the agreement on an index. The leader's own copy is the first acknowledgement; an
agreement already open keeps the ones it has. -/
def openAgreement (l : Leadership) (i : LogIndex) (leader : PeerId) : Leadership :=
  { l with agreements := insertByIndex Agreement.index ⟨i, .single leader⟩ l.agreements }

/-- The open agreements on entries that a peer is known to hold. -/
def agreementsMatchedBy (l : Leadership) (p : PeerId) : List LogIndex :=
  match l.matched? p with
  | none => []
  | some m => (l.agreements.map (·.index)).filter (· ≤ m)

def acknowledge (l : Leadership) (i : LogIndex) (p : PeerId) : Leadership :=
  { l with agreements := l.agreements.map fun a =>
      if a.index = i then { a with acks := a.acks.add p } else a }

/-- Forgets the agreements on committed entries. -/
def closeThrough (l : Leadership) (commitIndex : LogIndex) : Leadership :=
  { l with agreements := l.agreements.filter (commitIndex < ·.index) }

end Leadership

end Quorum
