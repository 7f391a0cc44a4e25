import Quorum.Json.Reader

/-!
Identity of a cluster member, and its written form `INSTANCE=HOST:PORT`, with `tls://` before the
host of a secure member. Instance ids end at the first `=`, ports begin after the last `:`.
-/

namespace Quorum

open Json (Reader Record RecordField)

structure Member where
  host : String
  port : Nat
  secure : Bool
  instanceId : String
  deriving DecidableEq, Repr

/-- Why a text names no member. -/
inductive MemberFault where
  | noInstance
  | emptyInstance
  | noPort
  | emptyHost
  | badPort
  deriving DecidableEq, Repr

def MemberFault.message : MemberFault → String
  | .noInstance => "expected INSTANCE=HOST:PORT"
  | .emptyInstance => "empty instance id"
  | .noPort => "missing port"
  | .emptyHost => "empty host"
  | .badPort => "port is not a number"

namespace Member

def tls : List Char := "tls://".toList

/-- What stands before and after the first occurrence of a character. -/
def splitFirst? (c : Char) : List Char → Option (List Char × List Char)
  | [] => none
  | x :: rest =>
    if x = c then some ([], rest)
    else (splitFirst? c rest).map fun (before, after) => (x :: before, after)

/-- What stands before and after the last occurrence of a character. -/
def splitLast? (c : Char) : List Char → Option (List Char × List Char)
  | [] => none
  | x :: rest =>
    match splitLast? c rest with
    | some (before, after) => some (x :: before, after)
    | none => if x = c then some ([], rest) else none

def stripPrefix? : List Char → List Char → Option (List Char)
  | [], s => some s
  | _ :: _, [] => none
  | p :: ps, c :: cs => if p = c then stripPrefix? ps cs else none

def digit? (c : Char) : Option Nat :=
  if '0' ≤ c ∧ c ≤ '9' then some (c.toNat - '0'.toNat) else none

/-- A number in decimal digits, of which there is at least one. -/
def number? : List Char → Option Nat
  | [] => none
  | cs => cs.foldlM (fun n c => (digit? c).map (n * 10 + ·)) 0

/-- A port may have a plus sign and leading zeros. -/
def port? (cs : List Char) : Option Nat :=
  let digits := match cs with
    | '+' :: rest => rest
    | _ => cs
  (number? digits).filter (· < 0x10000)

def parse (text : String) : Except MemberFault Member :=
  match splitFirst? '=' text.toList with
  | none => .error .noInstance
  | some (instanceId, address) =>
    if instanceId = [] then .error .emptyInstance
    else
      let (secure, address) := match stripPrefix? tls address with
        | some rest => (true, rest)
        | none => (false, address)
      match splitLast? ':' address with
      | none => .error .noPort
      | some (host, port) =>
        if host = [] then .error .emptyHost
        else
          match port? port with
          | none => .error .badPort
          | some port =>
            .ok { host := .ofList host, port, secure, instanceId := .ofList instanceId }

def address (m : Member) : String := m.host ++ ":" ++ toString m.port

/-- The written form. -/
def text (m : Member) : String :=
  m.instanceId ++ "=" ++ (if m.secure then "tls://" else "") ++ m.address

def toJson (m : Member) : Json :=
  .object
    [ ("host", .string m.host), ("port", .nat m.port), ("secure", .bool m.secure),
      ("instanceId", .string m.instanceId) ]

def read : Reader Member := Record.read
  { initial := ⟨"", 0, false, ""⟩
    fields :=
      [ .always "host" Reader.string fun v m => { m with host := v },
        .always "port" (Reader.word 16) fun v m => { m with port := v },
        .always "secure" Reader.bool fun v m => { m with secure := v },
        .always "instanceId" Reader.string fun v m => { m with instanceId := v } ]
    arrays := true
    shortArrays := false }

end Member

end Quorum
