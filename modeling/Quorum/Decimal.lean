import Quorum.Double

/-!
Decimal text of floating-point numbers: the fewest digits that read back as the same number, and of
those the nearest to it. All of it is computed in exact integer arithmetic.
-/

namespace Quorum

/-- The number `digits * 10 ^ exponent`. -/
structure Decimal where
  digits : Nat
  exponent : Int
  deriving DecidableEq, Repr

namespace Decimal

/-- Drops trailing zeros, at most the given number of them. -/
def trim : Nat → Decimal → Decimal
  | 0, d => d
  | k + 1, d =>
    if d.digits ≠ 0 ∧ d.digits % 10 = 0 then trim k ⟨d.digits / 10, d.exponent + 1⟩ else d

/-- A positive number with the interval that rounds to it, all three over one denominator. The ends
belong to the interval when `closed` is set. -/
structure Interval where
  low : Nat
  value : Nat
  high : Nat
  denominator : Nat
  closed : Bool

/-- Which of two equally near whole numbers is taken. -/
inductive Tie where
  | up
  | toEven
  deriving DecidableEq, Repr

/-- Whether a tie between `below` and the number after it goes to the greater one. -/
def Tie.takesAbove (below : Nat) : Tie → Bool
  | up => true
  | toEven => below % 2 = 1

namespace Interval

/-- The numbers nearer to `x` than to its neighbours; where two are equally near, the one with the
even significand is taken. -/
def around (x : Double) : Interval :=
  let m := x.significand
  let gap := if x.isClosestBelow then 1 else 2
  let up := Nat.pow 2 (x.scale - 2).toNat
  { low := (4 * m - gap) * up
    value := 4 * m * up
    high := (4 * m + 2) * up
    denominator := Nat.pow 2 (2 - x.scale).toNat
    closed := m % 2 = 0 }

/-- The interval in units of `10 ^ e`. -/
def inUnits (i : Interval) (e : Int) : Interval :=
  let up := Nat.pow 10 (-e).toNat
  { i with
    low := i.low * up, value := i.value * up, high := i.high * up
    denominator := i.denominator * Nat.pow 10 e.toNat }

def Contains (i : Interval) (n : Nat) : Prop :=
  if i.closed then i.low ≤ n * i.denominator ∧ n * i.denominator ≤ i.high
  else i.low < n * i.denominator ∧ n * i.denominator < i.high

instance (i : Interval) (n : Nat) : Decidable (i.Contains n) := by
  unfold Contains; split <;> infer_instance

/-- The whole number nearest to the value that the interval contains; a tie goes as `tie` says. -/
def nearest? (tie : Tie) (i : Interval) : Option Nat :=
  let below := i.value / i.denominator
  let above := below + 1
  if i.Contains below then
    let toAbove := above * i.denominator - i.value
    let toBelow := i.value - below * i.denominator
    if i.Contains above ∧ (toAbove < toBelow ∨ toAbove = toBelow ∧ tie.takesAbove below) then
      some above
    else some below
  else if i.Contains above then some above
  else none

/-- The exponent of the leading digit: the largest `k` with `10 ^ k` at most the value. -/
def magnitude (i : Interval) : Int :=
  if i.denominator ≤ i.value then
    (toString (i.value / i.denominator)).length - 1
  else
    match (List.range 400).find? fun j => i.denominator ≤ i.value * Nat.pow 10 (j + 1) with
    | some j => -(j + 1 : Int)
    | none => 0

end Interval

/-- The shortest decimal that reads back as the magnitude of a finite number, and of those the
nearest. -/
def shortest (tie : Tie) (x : Double) : Decimal :=
  if x.significand = 0 then ⟨0, 0⟩
  else
    let i := Interval.around x
    let k := i.magnitude
    let found := (List.range 17).findSome? fun (n : Nat) =>
      ((i.inUnits (k - n)).nearest? tie).map fun d => (⟨d, k - n⟩ : Decimal)
    (found.getD ⟨0, 0⟩).trim 20

/-- How a decimal is laid out as text. -/
structure Layout where
  /-- Whether a leading digit of the given exponent calls for positional notation. -/
  positional : Int → Bool
  /-- Whether a whole number in positional notation ends in `.0`. -/
  pointZero : Bool
  /-- Which of two equally near decimals is written. -/
  tie : Tie

/-- Never an exponent, and no point in a whole number. -/
def Layout.plain : Layout := ⟨fun _ => true, false, .up⟩

/-- Positional from `0.00001` up to sixteen whole digits. -/
def Layout.exchange : Layout := ⟨fun x => -5 ≤ x ∧ x ≤ 15, true, .toEven⟩

def zeros (n : Nat) : String := String.ofList (List.replicate n '0')

def render (f : Layout) (d : Decimal) : String :=
  let ds := toString d.digits
  let lead : Int := ds.length - 1 + d.exponent
  if f.positional lead then
    if 0 ≤ d.exponent then ds ++ zeros d.exponent.toNat ++ (if f.pointZero then ".0" else "")
    else if 0 ≤ lead then
      (ds.take (lead + 1).toNat).toString ++ "." ++ (ds.drop (lead + 1).toNat).toString
    else "0." ++ zeros (-lead - 1).toNat ++ ds
  else
    let fraction := if ds.length = 1 then "" else "." ++ (ds.drop 1).toString
    (ds.take 1).toString ++ fraction ++ "e" ++ (if 0 ≤ lead then "+" else "-") ++
      toString lead.natAbs

end Decimal

/-- The text of a number in a layout. -/
def Double.text (f : Decimal.Layout) (x : Double) : String :=
  if x.isNaN then "NaN"
  else
    (if x.isNegative then "-" else "") ++
      (if x.isFinite then (Decimal.shortest f.tie x).render f else "inf")

end Quorum
