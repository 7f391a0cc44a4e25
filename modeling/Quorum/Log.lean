import Quorum.Term
import Quorum.LogIndex

/-!
The replicated log: an ordered sequence of commands, each marked with the term in which a leader
accepted it. It only grows, except where a follower discards a suffix that conflicts with its
leader's log.
-/

namespace Quorum

structure Entry (α : Type) where
  term : Term
  command : α
  deriving DecidableEq, Repr

abbrev Log (α : Type) := List (Entry α)

namespace Log

variable {α : Type}

def lastIndex (log : Log α) : LogIndex := LogIndex.lastOf log.length

def entryAt? (log : Log α) (i : LogIndex) : Option (Entry α) :=
  if 0 ≤ i then log[i.toNat]? else none

/-- Term of the entry at an index, if the log holds one there. -/
def termAt? (log : Log α) (i : LogIndex) : Option Term := (log.entryAt? i).map (·.term)

/-- The entries from one index through another, both included, as far as the log holds them. -/
def slice (log : Log α) (start through : LogIndex) : List (Entry α) :=
  (log.take (through + 1).toNat).drop start.toNat

/-- Lays incoming entries over the ones held. An entry held is kept while the incoming one has
the same term; from the first difference on, the incoming entries replace all that is held. -/
def overlay : List (Entry α) → List (Entry α) → List (Entry α)
  | held, [] => held
  | [], incoming => incoming
  | h :: held, e :: incoming =>
    if h.term = e.term then h :: overlay held incoming else e :: incoming

/-- Writes entries from the position `start` on, which must not lie beyond the end. -/
def merge (log : Log α) (start : Nat) (incoming : List (Entry α)) : Log α :=
  log.take start ++ overlay (log.drop start) incoming

@[simp] theorem overlay_nil_right (held : List (Entry α)) : overlay held [] = held := by
  cases held <;> rfl

@[simp] theorem overlay_nil_left (incoming : List (Entry α)) : overlay [] incoming = incoming := by
  cases incoming <;> rfl

/-- Everything that comes in finds a place. -/
theorem length_le_overlay (held incoming : List (Entry α)) :
    incoming.length ≤ (overlay held incoming).length := by
  induction held generalizing incoming with
  | nil => exact Nat.le_of_eq (congrArg _ (overlay_nil_left incoming).symm)
  | cons h held ih =>
      cases incoming with
      | nil => exact Nat.zero_le _
      | cons e incoming =>
          rw [overlay]
          split
          · exact Nat.succ_le_succ (ih incoming)
          · exact Nat.le_refl _

@[simp] theorem merge_nil (log : Log α) (start : Nat) : log.merge start [] = log := by
  simp [merge]

theorem lastIndex_append_one (log : Log α) (e : Entry α) :
    Log.lastIndex (log ++ [e]) = log.length := by
  simp [lastIndex, LogIndex.lastOf]

theorem entryAt?_natCast (log : Log α) (n : Nat) : log.entryAt? (n : Int) = log[n]? := by
  simp [entryAt?]

end Log

end Quorum
