/-!
Socket addresses: an IPv4 address or an IPv6 address in brackets, followed by a port.
-/

namespace Quorum

inductive SocketAddress where
  | v4 (octets : List Nat) (port : Nat)
  | v6 (groups : List Nat) (scope port : Nat)
  deriving DecidableEq, Repr

namespace SocketAddress

/-- Takes a value from the head of a text, or fails. -/
abbrev Take (β : Type) := List Char → Option (β × List Char)

def char (c : Char) : Take Unit
  | [] => none
  | x :: rest => if x = c then some ((), rest) else none

def digit? (base : Nat) (c : Char) : Option Nat :=
  let value? : Option Nat :=
    if '0' ≤ c ∧ c ≤ '9' then some (c.toNat - '0'.toNat)
    else if 'a' ≤ c ∧ c ≤ 'f' then some (c.toNat - 'a'.toNat + 10)
    else if 'A' ≤ c ∧ c ≤ 'F' then some (c.toNat - 'A'.toNat + 10)
    else none
  value?.filter (· < base)

/-- Splits off the digits at the head of a text. -/
def digits (base : Nat) : List Char → List Nat × List Char
  | [] => ([], [])
  | c :: rest =>
    match digit? base c with
    | some d => let (ds, rest) := digits base rest; (d :: ds, rest)
    | none => ([], c :: rest)

/-- A number below a bound, of at most `width` digits if that is given. -/
def number (base : Nat) (width : Option Nat) (leadingZeros : Bool) (bound : Nat) : Take Nat :=
  fun s =>
    let (ds, rest) := digits base s
    let n := ds.foldl (fun n d => n * base + d) 0
    if ds = [] ∨ bound ≤ n ∨ width.any (· < ds.length) ∨
        (¬ leadingZeros ∧ ds.head? = some 0 ∧ 1 < ds.length) then none
    else some (n, rest)

def octets : Take (List Nat) := fun s => do
  let octet := number 10 (some 3) false 256
  let (a, s) ← octet s
  let (_, s) ← char '.' s
  let (b, s) ← octet s
  let (_, s) ← char '.' s
  let (c, s) ← octet s
  let (_, s) ← char '.' s
  let (d, s) ← octet s
  return ([a, b, c, d], s)

/-- A colon, except before the first of several parts. -/
def separator (first : Bool) : Take Unit := fun s => if first then some ((), s) else char ':' s

/-- Up to `limit` groups of an IPv6 address, and whether the last two were written as an IPv4
address. -/
def groups : (limit : Nat) → (first : Bool) → List Char → List Nat × Bool × List Char
  | 0, _, s => ([], false, s)
  | limit + 1, first, s =>
    let embedded : Option (List Nat × List Char) := do
      if limit = 0 then none
      let (_, s) ← separator first s
      octets s
    match embedded with
    | some (os, rest) =>
      match os with
      | [a, b, c, d] => ([a * 256 + b, c * 256 + d], true, rest)
      | _ => ([], false, s)
    | none =>
      let group : Option (Nat × List Char) := do
        let (_, s) ← separator first s
        number 16 (some 4) true 0x10000 s
      match group with
      | none => ([], false, s)
      | some (g, rest) =>
        let (gs, embedded, rest) := groups limit false rest
        (g :: gs, embedded, rest)

/-- Eight groups, of which a run of zeros may be left out once. -/
def ipv6 : Take (List Nat) := fun s => do
  let (front, embedded, s) := groups 8 true s
  if front.length = 8 then return (front, s)
  if embedded then none
  let (_, s) ← char ':' s
  let (_, s) ← char ':' s
  let (back, _, s) := groups (7 - front.length) true s
  return (front ++ List.replicate (8 - front.length - back.length) 0 ++ back, s)

def port : Take Nat := fun s => do
  let (_, s) ← char ':' s
  number 10 none true 0x10000 s

def scope : Take Nat := fun s =>
  match char '%' s with
  | none => some (0, s)
  | some (_, s) => number 10 none true 0x100000000 s

def takeV4 : Take SocketAddress := fun s => do
  let (os, s) ← octets s
  let (p, s) ← port s
  return (.v4 os p, s)

def takeV6 : Take SocketAddress := fun s => do
  let (_, s) ← char '[' s
  let (gs, s) ← ipv6 s
  let (sc, s) ← scope s
  let (_, s) ← char ']' s
  let (p, s) ← port s
  return (.v6 gs sc p, s)

def parse? (text : String) : Option SocketAddress :=
  match (takeV4 text.toList).or (takeV6 text.toList) with
  | some (a, []) => some a
  | _ => none

end SocketAddress

end Quorum
