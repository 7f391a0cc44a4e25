import Quorum.Json
import Quorum.Json.Quoted
import Quorum.Decimal

/-!
JSON texts as they are written: without blanks, and with the members of an object in their order.
-/

namespace Quorum

def ascii (s : String) : List UInt8 := s.toByteArray.data.toList

namespace Json

/-- A number that is not finite has no literal. -/
def Number.print : Number → List UInt8
  | .integer i => ascii (toString i)
  | .real x => ascii (if x.isFinite then x.text .exchange else "null")

/-- Writes parts with commas between them. -/
def commas : List (List UInt8) → List UInt8
  | [] => []
  | [p] => p
  | p :: q :: rest => p ++ ','.toUInt8 :: commas (q :: rest)

mutual

def print : Json → List UInt8
  | .null => ascii "null"
  | .bool true => ascii "true"
  | .bool false => ascii "false"
  | .number n => n.print
  | .string s => Quoted.print s
  | .array items => '['.toUInt8 :: commas (printItems items) ++ [']'.toUInt8]
  | .object members => '\x7b'.toUInt8 :: commas (printMembers members) ++ ['\x7d'.toUInt8]

def printItems : List Json → List (List UInt8)
  | [] => []
  | v :: rest => v.print :: printItems rest

def printMembers : List (String × Json) → List (List UInt8)
  | [] => []
  | (k, v) :: rest => (Quoted.print k ++ ':'.toUInt8 :: v.print) :: printMembers rest

end

/-- The written form as a string. -/
def text (v : Json) : String := (String.fromUTF8? v.print.toByteArray).getD ""

end Json

end Quorum
