import Quorum.Json.Outline

/-!
Readers take a value of one type from an outline. They go from left to right and fail at the first
thing that is wrong.
-/

namespace Quorum.Json

abbrev Reader (β : Type) := Outline → Except Fault β

namespace Outline

def startsBracket (lead : Option UInt8) : Bool := lead = some openBracket ∨ lead = some openBrace

/-- What is wrong where a scalar of another kind must stand. A scalar is read before its kind is
refused, an array or an object is refused at its bracket. -/
def refusal : Outline → Fault
  | .broken lead f => if startsBracket lead then .mismatch else f
  | _ => .mismatch

/-- What is wrong where a structure must stand: its bracket counts for the depth. -/
def structureRefusal : Outline → Fault
  | .broken _ f => f
  | _ => .mismatch

mutual

/-- The first fault in a text, as far as the outline goes. -/
def fault? : Outline → Option Fault
  | .broken _ f => some f
  | .array items ending => itemsFault? ending items
  | .object members ending => membersFault? ending members
  | _ => none

def itemsFault? (ending : Ending) : List Outline → Option Fault
  | [] =>
    match ending with
    | .stopped _ f => some f
    | _ => none
  | o :: rest => (fault? o).or (itemsFault? ending rest)

def membersFault? (ending : Ending) : List (String × Outline) → Option Fault
  | [] =>
    match ending with
    | .stopped _ f => some f
    | _ => none
  | (_, o) :: rest => (fault? o).or (membersFault? ending rest)

end

end Outline

/-- What is wrong with an array or object that ends although more must follow. -/
def Ending.short : Ending → Fault
  | .stopped _ f => f
  | _ => .mismatch

/-- Passes if the text closes the array or object here; a comma is out of place. -/
def Ending.close : Ending → Except Fault Unit
  | .stopped true _ => .error .malformed
  | .stopped false f => .error f
  | _ => .ok ()

/-- Passes if the text closes the array or object after any number of items. -/
def Ending.finish : Ending → Except Fault Unit
  | .stopped _ f => .error f
  | _ => .ok ()

namespace Reader

variable {β γ : Type}

def any : Reader Json := Outline.toJson

def bool : Reader Bool
  | .bool b => .ok b
  | o => .error o.refusal

def string : Reader String
  | .string s => .ok s
  | o => .error o.refusal

/-- An integer between two bounds. -/
def integer (low high : Int) : Reader Int
  | .number (.integer i) => if low ≤ i ∧ i ≤ high then .ok i else .error .mismatch
  | o => .error o.refusal

/-- An unsigned integer of at most the given number of bits. -/
def word (bits : Nat) : Reader Nat := fun o => do
  return (← integer 0 (Nat.pow 2 bits - 1) o).toNat

/-- A floating-point number, which may be written as an integer. -/
def double : Reader Double
  | .number (.real x) => .ok x
  | .number (.integer i) =>
    .ok (if 0 ≤ i then .ofWord i.toNat else (Double.ofWord (-i).toNat).neg)
  | o => .error o.refusal

/-- A value or `null`. -/
def option (r : Reader β) : Reader (Option β)
  | .null => .ok none
  | o => some <$> r o

def list (r : Reader β) : Reader (List β)
  | .array items ending => do
    let vs ← items.mapM r
    ending.finish
    return vs
  | .broken lead f => .error (if lead = some openBrace then .mismatch else f)
  | o => .error o.refusal

/-- An array of two. -/
def pair (r : Reader β) (s : Reader γ) : Reader (β × γ)
  | .array items ending =>
    match items with
    | [] => .error ending.short
    | [a] => do let _ ← r a; throw ending.short
    | a :: b :: rest => do
      let v ← r a
      let w ← s b
      if rest.isEmpty then ending.close else throw .malformed
      return (v, w)
  | .broken lead f => .error (if lead = some openBrace then .mismatch else f)
  | o => .error o.refusal

/-- Values by key. -/
def dict (r : Reader β) : Reader (Dict β)
  | .object members ending => do
    let ms ← members.mapM fun (k, o) => do return (k, ← r o)
    ending.finish
    return Dict.ofList ms
  | .broken lead f => .error (if lead = some openBracket then .mismatch else f)
  | o => .error o.refusal

/-- One of several names. -/
def name (known : String → Option β) : Reader β := fun o => do
  match known (← string o) with
  | some v => return v
  | none => throw .mismatch

/-- Passes over the value of a name that carries nothing: `null`, or, in a value that was put aside,
an object without members. -/
def bare : Outline → Except Fault Unit
  | .null => .ok ()
  | .object [] .kept => .ok ()
  | o => .error o.refusal

/-- One of several names, alone or as the only key of an object with a value that is bare. -/
def choice (known : String → Option β) : Reader β
  | .string s =>
    match known s with
    | some v => .ok v
    | none => .error .mismatch
  | .object [] ending =>
    match ending with
    | .stopped _ f => .error f
    | _ => .error .malformed
  | .object ((k, o) :: more) ending =>
    match known k with
    | none => .error .mismatch
    | some v => do
      bare o
      if more.isEmpty then ending.close else throw .malformed
      return v
  | .broken lead f =>
    .error (if lead = none ∨ lead = some Quoted.quote ∨ lead = some openBrace then f
      else .malformed)
  | _ => .error .malformed

end Reader

/-- A member of a record: how its value is read and put into the record. -/
structure RecordField (σ : Type) where
  name : String
  required : Bool
  read : Outline → σ → Except Fault σ

namespace RecordField

variable {σ β : Type}

def always (name : String) (r : Reader β) (put : β → σ → σ) : RecordField σ :=
  ⟨name, true, fun o s => do return put (← r o) s⟩

def optional (name : String) (r : Reader β) (put : β → σ → σ) : RecordField σ :=
  ⟨name, false, fun o s => do return put (← r o) s⟩

end RecordField

/-- How a record is written: as an object with one member for each field, or, where `arrays` is
set, as an array of the fields in their order; with `shortArrays`, of the first few of them. -/
structure Record (σ : Type) where
  initial : σ
  fields : List (RecordField σ)
  arrays : Bool
  shortArrays : Bool

namespace Record

variable {σ : Type}

/-- Reads the members of an object in the order of the text. Members of other names are passed
over, a field must not come twice. -/
def readMembers (d : Record σ) (ending : Ending) :
    (seen : List String) → σ → List (String × Outline) → Except Fault σ
  | seen, s, [] => do
    ending.finish
    if d.fields.any fun f => f.required && !seen.contains f.name then throw .mismatch
    return s
  | seen, s, (k, o) :: rest =>
    match d.fields.find? (·.name = k) with
    | none => readMembers d ending seen s rest
    | some f =>
      if seen.contains k then .error .mismatch
      else do readMembers d ending (k :: seen) (← f.read o s) rest

/-- Reads the items of an array, one for each field. -/
def readItems (short : Bool) (ending : Ending) :
    List (RecordField σ) → σ → List Outline → Except Fault σ
  | [], s, [] => do ending.close; return s
  | [], _, _ :: _ => .error .malformed
  | _ :: _, s, [] =>
    match ending with
    | .stopped _ f => .error f
    | _ => if short then .ok s else .error .mismatch
  | f :: fs, s, o :: rest => do readItems short ending fs (← f.read o s) rest

def read (d : Record σ) : Reader σ
  | .object members ending => d.readMembers ending [] d.initial members
  | .array items ending =>
    if d.arrays then readItems d.shortArrays ending d.fields d.initial items
    else .error .mismatch
  | o => .error o.structureRefusal

end Record

/-- A tagged value is an object with a tag and a content, in either order, or an array of the two.
The tag is one of several names and decides how the content is read. A content that comes first is
put aside whole and read later; in there, the rules for tags are laxer. -/
structure Tagged (τ β : Type) where
  tagKey : String
  contentKey : String
  /-- The tags in the order of their numbers. -/
  tags : List τ
  label : τ → String
  content : τ → Reader β

namespace Tagged

variable {τ β : Type}

def known (d : Tagged τ β) (s : String) : Option τ := d.tags.find? (d.label · = s)

/-- Nothing but foreign members may follow. -/
def finish (d : Tagged τ β) (ending : Ending) (v : β) :
    List (String × Outline) → Except Fault β
  | [] => do ending.finish; return v
  | (k, _) :: rest =>
    if k = d.tagKey ∨ k = d.contentKey then .error .mismatch else finish d ending v rest

def afterTag (d : Tagged τ β) (ending : Ending) (tag : τ) :
    List (String × Outline) → Except Fault β
  | [] => .error ending.short
  | (k, o) :: rest =>
    if k = d.contentKey then do d.finish ending (← d.content tag o) rest
    else if k = d.tagKey then .error .mismatch
    else afterTag d ending tag rest

def afterContent (d : Tagged τ β) (ending : Ending) (content : Outline) :
    List (String × Outline) → Except Fault β
  | [] => .error ending.short
  | (k, o) :: rest =>
    if k = d.tagKey then do
      let tag ← Reader.choice d.known o
      let v ← (d.content tag content).mapError fun _ => .mismatch
      d.finish ending v rest
    else if k = d.contentKey then .error .mismatch
    else afterContent d ending content rest

def readMembers (d : Tagged τ β) (ending : Ending) : List (String × Outline) → Except Fault β
  | [] => .error ending.short
  | (k, o) :: rest =>
    if k = d.tagKey then do d.afterTag ending (← Reader.choice d.known o) rest
    else if k = d.contentKey then
      match o.fault? with
      | some f => .error f
      | none => d.afterContent ending o.kept rest
    else readMembers d ending rest

/-- In an array the tag is a name alone, or, in a value that was put aside, a number. -/
def readTag (d : Tagged τ β) : Ending → Reader τ
  | .kept, .number (.integer i) =>
    match if 0 ≤ i then d.tags[i.toNat]? else none with
    | some tag => .ok tag
    | none => .error .mismatch
  | _, o => Reader.name d.known o

def read (d : Tagged τ β) : Reader β
  | .object members ending => d.readMembers ending members
  | .array items ending =>
    match items with
    | [] => .error ending.short
    | [t] => do let _ ← d.readTag ending t; throw ending.short
    | t :: c :: rest => do
      let v ← d.content (← d.readTag ending t) c
      if rest.isEmpty then ending.close else throw .malformed
      return v
  | o => .error o.structureRefusal

end Tagged

variable {β : Type}

/-- Reads a value out of a text that holds nothing else. -/
def decodeText (r : Reader β) (text : List UInt8) : Except Fault β := do
  let (o, rest) := Outline.ofText text
  let v ← r o
  match rest with
  | some rest => if (dropBlanks rest).isEmpty then return v else throw .malformed
  | none => throw .malformed

/-- Reads a value of another form. Whatever fails, the value is of the wrong shape. -/
def decode (r : Reader β) (v : Json) : Except Fault β :=
  (r (.ofJson v)).mapError fun _ => .mismatch

end Quorum.Json
