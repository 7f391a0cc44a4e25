import Quorum.Leadership

/-!
The three roles between which a node moves, each with what it keeps while it holds the role.
-/

namespace Quorum

inductive RoleKind where
  | follower
  | candidate
  | leader
  deriving DecidableEq, Repr

def RoleKind.label : RoleKind → String
  | .follower => "Follower"
  | .candidate => "Candidate"
  | .leader => "Leader"

/-- A follower knows at most its leader, a candidate its votes, a leader how far the others have
followed. -/
inductive Role where
  | follower (leader : Option PeerId)
  | candidate (votes : Tally)
  | leader (lead : Leadership)
  deriving DecidableEq, Repr

namespace Role

def kind : Role → RoleKind
  | .follower _ => .follower
  | .candidate _ => .candidate
  | .leader _ => .leader

def isFollower : Role → Bool
  | .follower _ => true
  | _ => false

def isLeader : Role → Bool
  | .leader _ => true
  | _ => false

def lead? : Role → Option Leadership
  | .leader l => some l
  | _ => none

/-- Changes what a leader keeps; other roles stay as they are. -/
def mapLead (f : Leadership → Leadership) : Role → Role
  | .leader l => .leader (f l)
  | r => r

@[simp] theorem kind_mapLead (f : Leadership → Leadership) (r : Role) :
    (r.mapLead f).kind = r.kind := by
  cases r <;> rfl

end Role

end Quorum
