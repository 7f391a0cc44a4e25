/-!
Terms number the periods of leadership and serve as a logical clock: a member that hears of a
later term has missed an election.
-/

namespace Quorum

abbrev Term := Nat

/-- Terms travel as 64-bit words, so this one is the last. -/
def Term.last : Term := 0xFFFFFFFFFFFFFFFF

/-- The following term. The last term is followed by itself. -/
def Term.next (t : Term) : Term := if t < Term.last then t + 1 else t

def Term.label (t : Term) : String := "T" ++ toString t

/-- Counts the changes of term and role of one node. Work started under one generation is
discarded when it completes under another. -/
abbrev Generation := Nat

/-- The counter is a 64-bit word and starts over after its last value. -/
def Generation.next (g : Generation) : Generation := (g + 1) % 0x10000000000000000

/-- Position of a member in the ordered member list. -/
abbrev PeerId := Nat

def PeerId.label (p : PeerId) : String := "P" ++ toString p

theorem Term.le_next (t : Term) : t ≤ t.next := by
  unfold Term.next; split <;> lia

end Quorum
