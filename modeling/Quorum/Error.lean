import Quorum.Member
import Quorum.Decimal
import Quorum.Term

/-!
Everything that can go wrong around a node, with the messages that tell of it. A node itself never
fails.
-/

namespace Quorum

/-- What is wrong with a configuration. -/
inductive ConfigError where
  | noMembers
  /-- The own position, taken from the configuration of a server. -/
  | ownIndexOutside (me : Nat) (members : Nat)
  /-- The own position, given to a node as a peer. -/
  | ownPeerOutside (me : PeerId) (members : Nat)
  | electionTimeoutZero
  | electionTimeoutEmpty (low high : Nat)
  | heartbeatFraction (x : Double)
  | rpcTimeoutZero
  | invalidMember (spec : String) (fault : MemberFault)
  | other (text : String)
  deriving DecidableEq, Repr

def ConfigError.message : ConfigError → String
  | .noMembers => "peer list is empty"
  | .ownIndexOutside me members =>
    "own index " ++ toString me ++ " is outside the peer list of " ++ toString members
  | .ownPeerOutside me members =>
    "own index " ++ me.label ++ " is outside the peer list of " ++ toString members
  | .electionTimeoutZero => "election timeout lower bound must be positive"
  | .electionTimeoutEmpty low high =>
    "election timeout upper bound " ++ toString high ++ "ms must exceed lower bound " ++
      toString low ++ "ms"
  | .heartbeatFraction x =>
    "heartbeat fraction " ++ x.text .plain ++ " must lie strictly between 0 and 1"
  | .rpcTimeoutZero => "rpc timeout must be positive"
  | .invalidMember spec fault => "invalid peer '" ++ spec ++ "': " ++ fault.message
  | .other text => text

/-- The text of a span of milliseconds, in seconds from the first full one on. -/
def durationText (ms : Nat) : String :=
  if ms = 0 then "0ns"
  else if ms < 1000 then toString ms ++ "ms"
  else
    let d := Decimal.trim 3 ⟨ms, -3⟩
    d.render .plain ++ "s"

/-- What can happen to a connection. -/
inductive IoError where
  /-- The other side has sent less than it must. -/
  | unexpectedEnd
  /-- Nobody listens. -/
  | connectionRefused
  | other (text : String)
  deriving DecidableEq, Repr

def IoError.message : IoError → String
  | .unexpectedEnd => "early eof"
  | .connectionRefused => "Connection refused (os error 111)"
  | .other text => text

/-- Why a peer could not be asked or did not answer. -/
inductive TransportError where
  | io (e : IoError)
  | serialization (fault : Json.Fault)
  | frameTooLarge (length : Nat)
  | unexpectedReply
  | timeout (ms : Nat)
  | unreachable (text : String)
  deriving DecidableEq, Repr

/-- How a fault of a text is called. -/
def Json.Fault.label : Json.Fault → String
  | .malformed => "syntax"
  | .truncated => "eof"
  | .mismatch => "data"

def TransportError.message : TransportError → String
  | .io e => "i/o error: " ++ e.message
  | .serialization fault => "serialization error: " ++ fault.label
  | .frameTooLarge length =>
    "frame of " ++ toString length ++ " bytes exceeds the frame size limit"
  | .unexpectedReply => "reply does not match the request"
  | .timeout ms => "no answer within " ++ durationText ms
  | .unreachable text => "peer unreachable: " ++ text

/-- The service registry has refused a call. -/
inductive RegistryError where
  | unavailable (text : String)
  deriving DecidableEq, Repr

def RegistryError.message : RegistryError → String
  | .unavailable text => "registry unavailable: " ++ text

inductive Error where
  | config (e : ConfigError)
  | transport (e : TransportError)
  | registry (e : RegistryError)
  | io (e : IoError)
  | stopped
  deriving DecidableEq, Repr

def Error.message : Error → String
  | .config e => "config: " ++ e.message
  | .transport e => "transport: " ++ e.message
  | .registry e => "service registry: " ++ e.message
  | .io e => "i/o error: " ++ e.message
  | .stopped => "consensus node stopped"

end Quorum
