import Quorum.Double

/-!
Numbers of JSON texts. A literal without fraction and exponent is an integer if it fits a signed or
an unsigned 64-bit word; everything else is a binary floating-point number.
-/

namespace Quorum.Json

/-- Why a text cannot be read: it is no JSON, it ends too early, or it has the wrong shape. -/
inductive Fault where
  | malformed
  | truncated
  | mismatch
  deriving DecidableEq, Repr

inductive Number where
  | integer (i : Int)
  | real (x : Double)
  deriving DecidableEq, Repr

def isDigit (b : UInt8) : Bool := '0'.toUInt8 ≤ b ∧ b ≤ '9'.toUInt8

def digitValue (b : UInt8) : Nat := b.toNat - '0'.toNat

/-- Splits off the digits at the head of a text. -/
def takeDigits : List UInt8 → List Nat × List UInt8
  | [] => ([], [])
  | b :: rest =>
    if isDigit b then
      let (ds, rest) := takeDigits rest
      (digitValue b :: ds, rest)
    else ([], b :: rest)

/-- A number as it is written. -/
structure Literal where
  negative : Bool
  whole : List Nat
  fraction : Option (List Nat)
  exponent : Option Int
  deriving DecidableEq, Repr

namespace Literal

/-- No digit where one must stand. -/
def missingDigit : List UInt8 → Fault
  | [] => .truncated
  | _ => .malformed

/-- One zero, or digits that begin with another one. -/
def readWhole (text : List UInt8) : Except Fault (List Nat × List UInt8) :=
  match takeDigits text with
  | ([], rest) => .error (missingDigit rest)
  | (0 :: _ :: _, _) => .error .malformed
  | (ds, rest) => .ok (ds, rest)

def readFraction : List UInt8 → Except Fault (Option (List Nat) × List UInt8)
  | [] => .ok (none, [])
  | b :: rest =>
    if b = '.'.toUInt8 then
      match takeDigits rest with
      | ([], rest) => .error (missingDigit rest)
      | (ds, rest) => .ok (some ds, rest)
    else .ok (none, b :: rest)

/-- Reads an optional sign; `true` stands for minus. -/
def readSign : List UInt8 → Bool × List UInt8
  | [] => (false, [])
  | b :: rest =>
    if b = '-'.toUInt8 then (true, rest)
    else if b = '+'.toUInt8 then (false, rest)
    else (false, b :: rest)

def ofDigits (ds : List Nat) : Nat := ds.foldl (fun n d => n * 10 + d) 0

def readExponent : List UInt8 → Except Fault (Option Int × List UInt8)
  | [] => .ok (none, [])
  | b :: rest =>
    if b = 'e'.toUInt8 ∨ b = 'E'.toUInt8 then
      let (negative, rest) := readSign rest
      match takeDigits rest with
      | ([], rest) => .error (missingDigit rest)
      | (ds, rest) =>
        .ok (some (if negative then -(ofDigits ds : Int) else (ofDigits ds : Int)), rest)
    else .ok (none, b :: rest)

def readMinus : List UInt8 → Bool × List UInt8
  | [] => (false, [])
  | b :: rest => if b = '-'.toUInt8 then (true, rest) else (false, b :: rest)

def read (text : List UInt8) : Except Fault (Literal × List UInt8) := do
  let (negative, text) := readMinus text
  let (whole, text) ← readWhole text
  let (fraction, text) ← readFraction text
  let (exponent, text) ← readExponent text
  return ({ negative, whole, fraction, exponent }, text)

/-- Appends digits to a number as long as it fits an unsigned 64-bit word; returns the digits left
over as well. -/
def absorb : Nat → List Nat → Nat × List Nat
  | n, [] => (n, [])
  | n, d :: ds => if n * 10 + d < 0x10000000000000000 then absorb (n * 10 + d) ds else (n, d :: ds)

def powerOfTen (n : Nat) : Float := Float.ofScientific 1 false n

/-- The number `n * 10 ^ e`, computed by one multiplication or by divisions by at most `10 ^ 308`
each. There is none where the product is too large. -/
def scaled? (n : Nat) (e : Int) : Option Double :=
  let x := n.toUInt64.toFloat
  if 0 ≤ e then
    if n = 0 then some (.ofWord 0)
    else if e ≤ 308 then
      let y := Double.ofFloat (x * powerOfTen e.toNat)
      if y.isFinite then some y else none
    else none
  else if -308 ≤ e then some (.ofFloat (x / powerOfTen (-e).toNat))
  else if -616 ≤ e then some (.ofFloat (x / powerOfTen 308 / powerOfTen (-e - 308).toNat))
  else some (.ofWord 0)

/-- The value of a literal. Digits of the fraction that do not fit the word any more are dropped;
digits before the point still count by their place. There is no value beyond the largest
floating-point number. -/
def value? (l : Literal) : Option Number :=
  let (n, left) := absorb 0 l.whole
  if l.fraction = none ∧ l.exponent = none ∧ left = [] ∧ (l.negative → 0 < n ∧ n ≤ 0x8000000000000000) then
    some (.integer (if l.negative then -(n : Int) else (n : Int)))
  else
    let fraction := l.fraction.getD []
    let (n, dropped) := absorb n fraction
    let e : Int := left.length - (fraction.length - dropped.length : Nat) + l.exponent.getD 0
    (scaled? n e).map fun x => .real (if l.negative then x.neg else x)

end Literal

/-- Reads the number at the head of a text. -/
def Number.read (text : List UInt8) : Except Fault (Number × List UInt8) := do
  let (l, rest) ← Literal.read text
  match l.value? with
  | some n => return (n, rest)
  | none => throw .malformed

/-- Passes over a number without looking at its value. A digit missing at the end of the text is no
early end here. -/
def Number.skip (text : List UInt8) : Except Fault (List UInt8) :=
  match Literal.read text with
  | .ok (_, rest) => .ok rest
  | .error _ => .error .malformed

end Quorum.Json
