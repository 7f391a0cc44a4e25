import Quorum.Json.Number

/-!
JSON values. The members of an object are kept in the order in which they are written; free values
have them in the order of their keys, each key once.
-/

namespace Quorum

inductive Json where
  | null
  | bool (b : Bool)
  | number (n : Json.Number)
  | string (s : String)
  | array (items : List Json)
  | object (members : List (String × Json))
  deriving Repr, Inhabited

namespace Json

def nat (n : Nat) : Json := .number (.integer n)

def int (i : Int) : Json := .number (.integer i)

/-- Values by key, in the order of the keys. -/
abbrev Dict (β : Type) := List (String × β)

namespace Dict

variable {β : Type}

/-- Sets the value at a key, in place of any earlier one. -/
def insert (key : String) (value : β) : Dict β → Dict β
  | [] => [(key, value)]
  | (k, v) :: rest =>
    if key < k then (key, value) :: (k, v) :: rest
    else if key = k then (key, value) :: rest
    else (k, v) :: insert key value rest

def erase (key : String) (d : Dict β) : Dict β := d.filter (·.1 ≠ key)

def get? (key : String) : Dict β → Option β
  | [] => none
  | (k, v) :: rest => if k = key then some v else get? key rest

/-- Of several values for a key the last one counts. -/
def ofList (members : List (String × β)) : Dict β :=
  members.foldl (fun d m => insert m.1 m.2 d) []

end Dict

def get? (key : String) : Json → Option Json
  | .object members => Dict.get? key members
  | _ => none

end Json

end Quorum
