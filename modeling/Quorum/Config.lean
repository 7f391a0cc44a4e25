import Quorum.Error

/-!
The timing of the protocol and the configuration of a server.
-/

namespace Quorum

open Json (Reader Record RecordField)

structure Timing where
  /-- Least election timeout in milliseconds. -/
  electionLow : Nat
  /-- Election timeouts are drawn below this bound. -/
  electionHigh : Nat
  /-- The period of heartbeats as a fraction of `electionLow`. -/
  heartbeatFraction : Double
  /-- How long a call to a peer may take, in milliseconds. -/
  rpcTimeout : Nat
  deriving DecidableEq, Repr

namespace Timing

/-- One to two seconds for elections, a heartbeat in three quarters of that, half a second for a
call. -/
def standard : Timing where
  electionLow := 1000
  electionHigh := 2000
  heartbeatFraction := .ofFloat 0.75
  rpcTimeout := 500

def validate (t : Timing) : Except ConfigError Unit :=
  if t.electionLow = 0 then .error .electionTimeoutZero
  else if t.electionHigh ≤ t.electionLow then
    .error (.electionTimeoutEmpty t.electionLow t.electionHigh)
  else if ¬ (0 < t.heartbeatFraction.toFloat ∧ t.heartbeatFraction.toFloat < 1) then
    .error (.heartbeatFraction t.heartbeatFraction)
  else if t.rpcTimeout = 0 then .error .rpcTimeoutZero
  else .ok ()

/-- The period of heartbeats in whole milliseconds, at least one. A half is rounded up. -/
def heartbeatInterval (t : Timing) : Nat :=
  let ms := (Double.ofWord t.electionLow).toFloat * t.heartbeatFraction.toFloat
  max 1 ms.round.toUInt64.toNat

def toJson (t : Timing) : Json :=
  .object
    [ ("electionTimeoutMs", .array [.nat t.electionLow, .nat t.electionHigh]),
      ("heartbeatFraction", .number (.real t.heartbeatFraction)),
      ("rpcTimeoutMs", .nat t.rpcTimeout) ]

/-- Whatever is left out has its standard value. -/
def read : Reader Timing := Record.read
  { initial := standard
    fields :=
      [ .optional "electionTimeoutMs" (Reader.pair (Reader.word 64) (Reader.word 64))
          fun v t => { t with electionLow := v.1, electionHigh := v.2 },
        .optional "heartbeatFraction" Reader.double fun v t => { t with heartbeatFraction := v },
        .optional "rpcTimeoutMs" (Reader.word 64) fun v t => { t with rpcTimeout := v } ]
    arrays := true
    shortArrays := true }

end Timing

/-- What a server needs to join its cluster. -/
structure ServerConfig where
  /-- The own position in `members`. -/
  me : PeerId
  /-- All members, the own one included, in the same order everywhere. -/
  members : List Member
  timing : Timing
  deriving DecidableEq, Repr

namespace ServerConfig

def validate (c : ServerConfig) : Except ConfigError Unit :=
  if c.members = [] then .error .noMembers
  else if c.members.length ≤ c.me then .error (.ownIndexOutside c.me c.members.length)
  else c.timing.validate

/-- Reads the members from their written forms. -/
def parseMembers (specs : List String) : Except ConfigError (List Member) :=
  specs.mapM fun spec => (Member.parse spec).mapError (.invalidMember spec)

end ServerConfig

end Quorum
