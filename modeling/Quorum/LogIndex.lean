/-!
Positions in the replicated log, counted from zero. The index `-1` stands for "no entry": the
commit index of an empty log, the predecessor of the first entry, the match index of a peer that
has acknowledged nothing.
-/

namespace Quorum

abbrev LogIndex := Int

namespace LogIndex

/-- Stands for "no entry". -/
def absent : LogIndex := -1

def first : LogIndex := 0

/-- Indices travel as signed 64-bit words, so this one is the last. -/
def last : LogIndex := 0x7FFFFFFFFFFFFFFF

/-- Everything below `-1` means "no entry" as well. -/
def clamp (i : Int) : LogIndex := if i < absent then absent else i

/-- Reads a 64-bit word as an index; its upper half holds the negative ones. -/
def ofWord (w : Nat) : LogIndex :=
  if w < 0x8000000000000000 then w else (w : Int) - 0x10000000000000000

/-- Index of the last of `count` entries. -/
def lastOf (count : Nat) : LogIndex := (count : Int) - 1

/-- The following index. The last index is followed by itself. -/
def next (i : LogIndex) : LogIndex := if i < last then i + 1 else i

/-- The preceding index, never below `absent`. -/
def prev (i : LogIndex) : LogIndex := if 0 ≤ i then i - 1 else absent

/-- The array position of an index, if it stands for an entry at all. -/
def position? (i : LogIndex) : Option Nat := if 0 ≤ i then some i.toNat else none

def label (i : LogIndex) : String := "I" ++ toString i

theorem prev_of_nonneg {i : LogIndex} (h : 0 ≤ i) : i.prev = i - 1 := by simp [prev, h]

theorem absent_le_prev (i : LogIndex) : absent ≤ i.prev := by
  unfold prev absent; split <;> lia

theorem absent_le_clamp (i : Int) : absent ≤ clamp i := by
  unfold clamp; split <;> lia

theorem next_le_succ (i : LogIndex) : i.next ≤ i + 1 := by
  unfold next; split <;> lia

theorem le_next (i : LogIndex) : i ≤ i.next := by
  unfold next; split <;> lia

theorem position?_natCast (n : Nat) : position? (n : Int) = some n := by
  simp [position?]

end LogIndex

end Quorum
