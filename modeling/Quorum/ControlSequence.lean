/-!
Text with control sequences for a terminal, such as colours. Where the text goes elsewhere, the
sequences are taken out of it, together with control characters that are not blanks.
-/

namespace Quorum.ControlSequence

def escape : Char := '\x1b'

/-- Colours for a value that is wrong, for a word that is quoted and for the word `error`. -/
def wrong (s : String) : String := "\x1b[33m" ++ s ++ "\x1b[0m"

def literal (s : String) : String := "\x1b[1m" ++ s ++ "\x1b[0m"

def alarm (s : String) : String := "\x1b[1m\x1b[31m" ++ s ++ "\x1b[0m"

/-- What part of a sequence the last character belongs to. -/
inductive State where
  /-- No sequence. -/
  | ground
  | escape
  | escapeIntermediate
  | controlEntry
  | controlParameter
  | controlIntermediate
  /-- A control sequence of no meaning, up to its end. -/
  | controlIgnored
  | deviceEntry
  | deviceParameter
  | deviceIntermediate
  /-- The string of a device control sequence, or of one without meaning. -/
  | deviceString
  | systemString
  | privateString
  deriving DecidableEq, Repr

def isIntermediate (c : Char) : Bool := ' ' ≤ c ∧ c ≤ '/'

def isParameter (c : Char) : Bool := '0' ≤ c ∧ c ≤ '?'

/-- Marks of private use, which have a place only at the head of the parameters. -/
def isPrivateMark (c : Char) : Bool := '<' ≤ c ∧ c ≤ '?'

def isFinal (c : Char) : Bool := '@' ≤ c ∧ c ≤ '~'

def isBlank (c : Char) : Bool := c = ' ' ∨ c = '\t' ∨ c = '\n' ∨ c = '\x0c' ∨ c = '\r'

/-- Whether the UTF-8 form of a character has the byte that ends strings among control characters
of one byte. -/
def endsString (c : Char) : Bool := c.toString.toUTF8.toList.contains 0x9c

namespace State

/-- The state after a character that is not shown. -/
def next (s : State) (c : Char) : State :=
  if c = ControlSequence.escape then .escape
  else if c = '\x18' ∨ c = '\x1a' then .ground
  else
    match s with
    | .ground => .ground
    | .escape =>
      if isIntermediate c then .escapeIntermediate
      else if c = '[' then .controlEntry
      else if c = ']' then .systemString
      else if c = 'P' then .deviceEntry
      else if c = 'X' ∨ c = '^' ∨ c = '_' then .privateString
      else if isParameter c ∨ isFinal c then .ground
      else .escape
    | .escapeIntermediate =>
      if isParameter c ∨ isFinal c then .ground else .escapeIntermediate
    | .controlEntry =>
      if isIntermediate c then .controlIntermediate
      else if isParameter c then .controlParameter
      else if isFinal c then .ground
      else .controlEntry
    | .controlParameter =>
      if isIntermediate c then .controlIntermediate
      else if isPrivateMark c then .controlIgnored
      else if isFinal c then .ground
      else .controlParameter
    | .controlIntermediate =>
      if isParameter c then .controlIgnored
      else if isFinal c then .ground
      else .controlIntermediate
    | .controlIgnored => if isFinal c then .ground else .controlIgnored
    | .deviceEntry =>
      if isIntermediate c then .deviceIntermediate
      else if isParameter c then .deviceParameter
      else if isFinal c then .deviceString
      else .deviceEntry
    | .deviceParameter =>
      if isIntermediate c then .deviceIntermediate
      else if isPrivateMark c ∨ isFinal c then .deviceString
      else .deviceParameter
    | .deviceIntermediate =>
      if isParameter c ∨ isFinal c then .deviceString else .deviceIntermediate
    | .deviceString => if endsString c then .ground else .deviceString
    | .systemString => if c = '\x07' then .ground else .systemString
    | .privateString => if endsString c then .ground else .privateString

/-- Whether a character is text and not part of a sequence. Control characters among the blanks do
their work within an unfinished sequence, unless that takes a string. -/
def shows (s : State) (c : Char) : Bool :=
  match s with
  | .ground => (' ' ≤ c ∧ c ≠ '\x7f') ∨ isBlank c
  | .escape | .escapeIntermediate | .controlEntry | .controlParameter | .controlIntermediate
  | .controlIgnored => isBlank c ∧ c ≠ ' '
  | _ => false

end State

/-- The text that is left without its sequences. Text goes on once it has begun, until a character
that is none; only then an unfinished sequence from before takes up again. -/
def textFrom : State → (inText : Bool) → List Char → List Char
  | _, _, [] => []
  | s, inText, c :: rest =>
    if (if inText then State.ground else s).shows c then
      c :: textFrom (if '\x80' ≤ c then .ground else s) true rest
    else textFrom (s.next c) false rest

def text (s : String) : String := .ofList (textFrom .ground true s.toList)

end Quorum.ControlSequence
