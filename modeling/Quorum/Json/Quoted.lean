import Quorum.Json.Number

/-!
Quoted strings. Inside the quotes a text is a sequence of pieces: bytes that stand for themselves,
and escapes. An escape of four hexadecimal digits is a unit of UTF-16; two of them may form a
surrogate pair. Written strings escape quotes, backslashes and control characters, and nothing else.
-/

namespace Quorum.Json

namespace Quoted

def quote : UInt8 := '"'.toUInt8

def backslash : UInt8 := '\\'.toUInt8

inductive Piece where
  | byte (b : UInt8)
  | unit (u : Nat)
  deriving DecidableEq, Repr

def hexValue? (b : UInt8) : Option Nat :=
  if isDigit b then some (digitValue b)
  else if 'a'.toUInt8 ≤ b ∧ b ≤ 'f'.toUInt8 then some (b.toNat - 'a'.toNat + 10)
  else if 'A'.toUInt8 ≤ b ∧ b ≤ 'F'.toUInt8 then some (b.toNat - 'A'.toNat + 10)
  else none

def hexUnit? (a b c d : UInt8) : Option Nat := do
  return (((← hexValue? a) * 16 + (← hexValue? b)) * 16 + (← hexValue? c)) * 16 + (← hexValue? d)

/-- The byte that an escape of one letter stands for. -/
def letter? (b : UInt8) : Option UInt8 :=
  if b = quote then some quote
  else if b = backslash then some backslash
  else if b = '/'.toUInt8 then some '/'.toUInt8
  else if b = 'b'.toUInt8 then some 8
  else if b = 'f'.toUInt8 then some 12
  else if b = 'n'.toUInt8 then some 10
  else if b = 'r'.toUInt8 then some 13
  else if b = 't'.toUInt8 then some 9
  else none

/-- Reads pieces up to the closing quote. What can be read is returned in any case, together with
the rest of the text or the fault that stopped the reading. -/
def scan : List UInt8 → List Piece × Except Fault (List UInt8)
  | [] => ([], .error .truncated)
  | b :: rest =>
    if b = quote then ([], .ok rest)
    else if b = backslash then
      match rest with
      | [] => ([], .error .truncated)
      | e :: rest =>
        if e = 'u'.toUInt8 then
          match rest with
          | h₁ :: h₂ :: h₃ :: h₄ :: rest =>
            match hexUnit? h₁ h₂ h₃ h₄ with
            | some u => let (ps, ending) := scan rest; (.unit u :: ps, ending)
            | none => ([], .error .malformed)
          | _ => ([], .error .truncated)
        else
          match letter? e with
          | some b => let (ps, ending) := scan rest; (.byte b :: ps, ending)
          | none => ([], .error .malformed)
    else if b < 32 then ([], .error .malformed)
    else let (ps, ending) := scan rest; (.byte b :: ps, ending)

def isLeading (u : Nat) : Bool := 0xD800 ≤ u ∧ u < 0xDC00

def isTrailing (u : Nat) : Bool := 0xDC00 ≤ u ∧ u < 0xE000

def utf8 (codePoint : Nat) : List UInt8 := String.utf8EncodeChar (Char.ofNat codePoint)

/-- The bytes that pieces stand for. A surrogate outside of a pair is malformed, except that a text
that ends there ends too early. -/
def resolve (ending : Except Fault (List UInt8)) :
    List Piece → Except Fault (List UInt8 × List UInt8)
  | [] => ending.map fun rest => ([], rest)
  | .byte b :: ps => (resolve ending ps).map fun (bs, rest) => (b :: bs, rest)
  | .unit u :: ps =>
    if isTrailing u then .error .malformed
    else if isLeading u then
      match ps, ending with
      | .unit v :: ps, _ =>
        if isTrailing v then
          (resolve ending ps).map fun (bs, rest) =>
            (utf8 (0x10000 + (u - 0xD800) * 0x400 + (v - 0xDC00)) ++ bs, rest)
        else .error .malformed
      | [], .error f => .error f
      | _, _ => .error .malformed
    else (resolve ending ps).map fun (bs, rest) => (utf8 u ++ bs, rest)

/-- Reads a string after its opening quote. -/
def read (text : List UInt8) : Except Fault (String × List UInt8) := do
  let (pieces, ending) := scan text
  let (bytes, rest) ← resolve ending pieces
  match String.fromUTF8? bytes.toByteArray with
  | some s => return (s, rest)
  | none => throw .malformed

/-- Passes over a string after its opening quote. What it stands for does not matter. -/
def skip (text : List UInt8) : Except Fault (List UInt8) := (scan text).2

def hexDigit (n : Nat) : UInt8 :=
  if n < 10 then '0'.toUInt8 + n.toUInt8 else 'a'.toUInt8 + (n - 10).toUInt8

def escape (b : UInt8) : List UInt8 :=
  if b = quote then [backslash, quote]
  else if b = backslash then [backslash, backslash]
  else if b = 8 then [backslash, 'b'.toUInt8]
  else if b = 9 then [backslash, 't'.toUInt8]
  else if b = 10 then [backslash, 'n'.toUInt8]
  else if b = 12 then [backslash, 'f'.toUInt8]
  else if b = 13 then [backslash, 'r'.toUInt8]
  else if b < 32 then
    [backslash, 'u'.toUInt8, '0'.toUInt8, '0'.toUInt8,
      hexDigit (b.toNat / 16), hexDigit (b.toNat % 16)]
  else [b]

def print (s : String) : List UInt8 :=
  quote :: s.toByteArray.data.toList.flatMap escape ++ [quote]

end Quoted

end Quorum.Json
