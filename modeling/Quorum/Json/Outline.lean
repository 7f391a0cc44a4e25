import Quorum.Json
import Quorum.Json.Quoted

/-!
The outline of a text is what can be read of it as JSON, with faults at the places where it cannot.
A reader that goes through an outline from left to right meets the first thing that is wrong with
the text, be it a fault of the text or a value of the wrong shape.

At most `Outline.depthLimit` brackets may be open at once. Values of members that nobody asks for
are passed over by laxer rules: brackets may be open in any number, and strings and numbers need
not stand for anything.
-/

namespace Quorum.Json

/-- How an array or an object ends: with its bracket, or where the text stops making sense. -/
inductive Ending where
  | closed
  /-- With its bracket, in a value that was put aside whole before it is read. -/
  | kept
  | stopped (afterComma : Bool) (fault : Fault)
  deriving DecidableEq, Repr

inductive Outline where
  | null
  | bool (b : Bool)
  | number (n : Number)
  | string (s : String)
  | array (items : List Outline) (ending : Ending)
  | object (members : List (String × Outline)) (ending : Ending)
  /-- No value; `lead` is the byte with which it would begin. -/
  | broken (lead : Option UInt8) (fault : Fault)
  deriving Repr, Inhabited

def openBracket : UInt8 := '['.toUInt8
def closeBracket : UInt8 := ']'.toUInt8
def openBrace : UInt8 := '\x7b'.toUInt8
def closeBrace : UInt8 := '\x7d'.toUInt8
def comma : UInt8 := ','.toUInt8
def colon : UInt8 := ':'.toUInt8

def isBlank (b : UInt8) : Bool :=
  b = ' '.toUInt8 ∨ b = '\n'.toUInt8 ∨ b = '\t'.toUInt8 ∨ b = '\r'.toUInt8

def dropBlanks (text : List UInt8) : List UInt8 := text.dropWhile isBlank

/-- Reads the remaining letters of a word. -/
def readWord : List UInt8 → List UInt8 → Except Fault (List UInt8)
  | [], text => .ok text
  | _ :: _, [] => .error .truncated
  | w :: ws, b :: rest => if b = w then readWord ws rest else .error .malformed

/-- A value that is not an array or an object, given its first byte and what follows. -/
def readScalar (b : UInt8) (rest : List UInt8) : Except Fault (Outline × List UInt8) :=
  if b = 'n'.toUInt8 then (readWord [117, 108, 108] rest).map fun r => (.null, r)
  else if b = 't'.toUInt8 then (readWord [114, 117, 101] rest).map fun r => (.bool true, r)
  else if b = 'f'.toUInt8 then (readWord [97, 108, 115, 101] rest).map fun r => (.bool false, r)
  else if b = Quoted.quote then (Quoted.read rest).map fun (s, r) => (.string s, r)
  else if isDigit b ∨ b = '-'.toUInt8 then
    (Number.read (b :: rest)).map fun (n, r) => (.number n, r)
  else .error .malformed

/-- Passes over a value that is not an array or an object. -/
def skipScalar (b : UInt8) (rest : List UInt8) : Except Fault (List UInt8) :=
  if b = 'n'.toUInt8 then readWord [117, 108, 108] rest
  else if b = 't'.toUInt8 then readWord [114, 117, 101] rest
  else if b = 'f'.toUInt8 then readWord [97, 108, 115, 101] rest
  else if b = Quoted.quote then Quoted.skip rest
  else if isDigit b ∨ b = '-'.toUInt8 then Number.skip (b :: rest)
  else .error .malformed

/-- Where the passing over of a value stands. -/
inductive SkipState where
  /-- A value must follow. -/
  | value
  /-- A bracket has just been opened. -/
  | opened
  /-- A value is complete. -/
  | complete
  /-- A key must follow. -/
  | key

/-- Passes over a value. `inObject` lists the open brackets, the innermost first, with `true` for
an object. Every step but the first takes a byte or follows one that did, so the fuel suffices. -/
def skipFrom : Nat → SkipState → (inObject : List Bool) → List UInt8 → Except Fault (List UInt8)
  | 0, _, _, _ => .error .truncated
  | _ + 1, .complete, [], text => .ok text
  | fuel + 1, state, inObject, text =>
    match state, inObject, dropBlanks text with
    | _, _, [] => .error .truncated
    | .value, stack, b :: rest =>
      if b = openBracket then skipFrom fuel .opened (false :: stack) rest
      else if b = openBrace then skipFrom fuel .opened (true :: stack) rest
      else do skipFrom fuel .complete stack (← skipScalar b rest)
    | .opened, stack, b :: rest =>
      match stack with
      | true :: outer =>
        if b = closeBrace then skipFrom fuel .complete outer rest
        else skipFrom fuel .key stack (b :: rest)
      | false :: outer =>
        if b = closeBracket then skipFrom fuel .complete outer rest
        else skipFrom fuel .value stack (b :: rest)
      | [] => .error .malformed
    | .complete, stack, b :: rest =>
      match stack with
      | true :: outer =>
        if b = comma then skipFrom fuel .key stack rest
        else if b = closeBrace then skipFrom fuel .complete outer rest
        else .error .malformed
      | false :: outer =>
        if b = comma then skipFrom fuel .value stack rest
        else if b = closeBracket then skipFrom fuel .complete outer rest
        else .error .malformed
      | [] => .error .malformed
    | .key, stack, b :: rest =>
      if b = Quoted.quote then do
        match dropBlanks (← Quoted.skip rest) with
        | [] => throw .truncated
        | c :: rest => if c = colon then skipFrom fuel .value stack rest else throw .malformed
      else .error .malformed

/-- Passes over the value at the head of a text. -/
def skip (text : List UInt8) : Except Fault (List UInt8) :=
  skipFrom (3 * text.length + 3) .value [] text

namespace Outline

def depthLimit : Nat := 127

mutual

/-- The outline of the value at the head of a text, and the text after it, if its end can be made
out. -/
def readValue : (fuel depth : Nat) → List UInt8 → Outline × Option (List UInt8)
  | 0, _, _ => (.broken none .truncated, none)
  | fuel + 1, depth, text =>
    match dropBlanks text with
    | [] => (.broken none .truncated, none)
    | b :: rest =>
      if b = openBracket then
        if depth = 0 then (.broken b .malformed, none)
        else
          let (items, ending, rest) := readItems fuel (depth - 1) true rest
          (.array items ending, rest)
      else if b = openBrace then
        if depth = 0 then (.broken b .malformed, none)
        else
          match dropBlanks rest with
          | [] => (.object [] (.stopped false .truncated), none)
          | c :: after =>
            if c = closeBrace then (.object [] .closed, some after)
            else if c = Quoted.quote then
              let (members, ending, rest) := readMembers fuel (depth - 1) after
              (.object members ending, rest)
            else (.object [] (.stopped false .malformed), none)
      else
        match readScalar b rest with
        | .ok (o, rest) => (o, some rest)
        | .error f => (.broken b f, none)

/-- The items of an array; `first` tells whether the bracket has just been opened. -/
def readItems :
    (fuel depth : Nat) → (first : Bool) → List UInt8 →
    List Outline × Ending × Option (List UInt8)
  | 0, _, _, _ => ([], .stopped false .truncated, none)
  | fuel + 1, depth, first, text =>
    match dropBlanks text with
    | [] => ([], .stopped (!first) .truncated, none)
    | b :: rest =>
      if b = closeBracket then
        if first then ([], .closed, some rest) else ([], .stopped true .malformed, none)
      else
        match readValue fuel depth (b :: rest) with
        | (o, none) => ([o], .stopped false .malformed, none)
        | (o, some after) =>
          match dropBlanks after with
          | [] => ([o], .stopped false .truncated, none)
          | c :: after =>
            if c = closeBracket then ([o], .closed, some after)
            else if c = comma then
              let (items, ending, rest) := readItems fuel depth false after
              (o :: items, ending, rest)
            else ([o], .stopped false .malformed, none)

/-- The members of an object from the first byte of a key on. -/
def readMembers :
    (fuel depth : Nat) → List UInt8 → List (String × Outline) × Ending × Option (List UInt8)
  | 0, _, _ => ([], .stopped false .truncated, none)
  | fuel + 1, depth, text =>
    match Quoted.read text with
    | .error f => ([], .stopped true f, none)
    | .ok (key, after) =>
      match dropBlanks after with
      | [] => ([(key, .broken none .truncated)], .stopped false .truncated, none)
      | c :: after =>
        if c = colon then
          let (o, next) := readValue fuel depth after
          match next.elim (skip after) .ok with
          | .error f => ([(key, o)], .stopped false f, none)
          | .ok after =>
            match dropBlanks after with
            | [] => ([(key, o)], .stopped false .truncated, none)
            | c :: after =>
              if c = closeBrace then ([(key, o)], .closed, some after)
              else if c = comma then
                match dropBlanks after with
                | [] => ([(key, o)], .stopped true .truncated, none)
                | c :: after =>
                  if c = Quoted.quote then
                    let (members, ending, rest) := readMembers fuel depth after
                    ((key, o) :: members, ending, rest)
                  else ([(key, o)], .stopped true .malformed, none)
              else ([(key, o)], .stopped false .malformed, none)
        else ([(key, .broken none .malformed)], .stopped false .malformed, none)

end

/-- The outline of a text and what follows its value. -/
def ofText (text : List UInt8) : Outline × Option (List UInt8) :=
  readValue (2 * text.length + 2) depthLimit text

mutual

/-- The outline of a value that needs no reading. -/
def ofJson : Json → Outline
  | .null => .null
  | .bool b => .bool b
  | .number n => .number n
  | .string s => .string s
  | .array items => .array (ofItems items) .closed
  | .object members => .object (ofMembers members) .closed

def ofItems : List Json → List Outline
  | [] => []
  | v :: rest => ofJson v :: ofItems rest

def ofMembers : List (String × Json) → List (String × Outline)
  | [] => []
  | (k, v) :: rest => (k, ofJson v) :: ofMembers rest

end

mutual

/-- A whole value once it has been put aside. -/
def kept : Outline → Outline
  | .array items _ => .array (keptItems items) .kept
  | .object members _ => .object (keptMembers members) .kept
  | o => o

def keptItems : List Outline → List Outline
  | [] => []
  | o :: rest => kept o :: keptItems rest

def keptMembers : List (String × Outline) → List (String × Outline)
  | [] => []
  | (k, o) :: rest => (k, kept o) :: keptMembers rest

end

mutual

/-- Reads any value. Objects are ordered by their keys, and of several members with one key the
last one counts. -/
def toJson : Outline → Except Fault Json
  | .null => .ok .null
  | .bool b => .ok (.bool b)
  | .number n => .ok (.number n)
  | .string s => .ok (.string s)
  | .array items ending => do return .array (← itemsToJson ending items)
  | .object members ending => do return .object (Dict.ofList (← membersToJson ending members))
  | .broken _ f => .error f

def itemsToJson (ending : Ending) : List Outline → Except Fault (List Json)
  | [] =>
    match ending with
    | .stopped _ f => .error f
    | _ => .ok []
  | o :: rest => do return (← toJson o) :: (← itemsToJson ending rest)

def membersToJson (ending : Ending) : List (String × Outline) → Except Fault (List (String × Json))
  | [] =>
    match ending with
    | .stopped _ f => .error f
    | _ => .ok []
  | (k, o) :: rest => do return (k, ← toJson o) :: (← membersToJson ending rest)

end

end Outline

end Quorum.Json
