/-!
Things to come, ordered by the time at which they are due. What is due at one time keeps the order
in which it was put down.
-/

namespace Quorum

abbrev Agenda (β : Type) := List (Nat × β)

/-- Puts something down, after all that is due at the same time or earlier. -/
def Agenda.insert {β : Type} (due : Nat) (x : β) : Agenda β → Agenda β
  | [] => [(due, x)]
  | (d, y) :: rest => if d ≤ due then (d, y) :: insert due x rest else (due, x) :: (d, y) :: rest

end Quorum
