import Quorum.Agenda
import Quorum.Connection
import Quorum.Engine
import Quorum.Registry
import Quorum.Store

/-!
A running cluster member: its event loop and the store that its committed commands are applied to,
on a clock that is read elsewhere. Calls to other members go nowhere and come back at once.
-/

namespace Quorum

structure Server where
  me : PeerId
  members : List Member
  electionTimeout : Nat
  heartbeatInterval : Nat
  engine : Engine Command
  store : Store
  /-- The time in milliseconds since the start. -/
  now : Nat
  agenda : Agenda (Input Command)
  stopped : Bool

namespace Server

def schedule (s : Server) (delay : Nat) (i : Input Command) : Server :=
  { s with agenda := s.agenda.insert (s.now + delay) i }

def carryOut (s : Server) : Effect Command → Server
  | .arm .election epoch => s.schedule s.electionTimeout (.expired .election epoch)
  | .arm .heartbeat epoch => s.schedule s.heartbeatInterval (.expired .heartbeat epoch)
  | .requestVote peer generation _ => s.schedule 0 (.event (.voteReturned peer generation none))
  | .appendEntries peer context _ => s.schedule 0 (.event (.appendReturned peer context none))
  | .apply command => { s with store := s.store.apply command }

/-- Starts a server with an election timeout drawn within the bounds of its configuration. -/
def start (c : ServerConfig) (electionTimeout : Nat) : Except ConfigError Server := do
  c.validate
  let (engine, effects) := Engine.start c.me c.members.length
  let s : Server :=
    { me := c.me
      members := c.members
      electionTimeout
      heartbeatInterval := c.timing.heartbeatInterval
      engine
      store := .empty
      now := 0
      agenda := []
      stopped := false }
  return effects.foldl carryOut s

def process (s : Server) (i : Input Command) : Answer × Server :=
  let (answer, engine, effects) := s.engine.handle i
  (answer, effects.foldl carryOut { s with engine })

/-- Answers a call from another member, unless the server is stopped. -/
def call (s : Server) (c : Call Command) : Option (Reply × Server) :=
  if s.stopped then none
  else
    match c with
    | .requestVote args =>
      match s.process (.event (.voteRequest args)) with
      | (.vote reply, s) => some (.requestVote reply, s)
      | _ => none
    | .appendEntries args =>
      match s.process (.event (.appendRequest args)) with
      | (.append reply, s) => some (.appendEntries reply, s)
      | _ => none

/-- Takes in bytes of a connection on which calls come in. -/
def receive (s : Server) (c : Connection) (bytes : List UInt8) : Exchange Server :=
  c.receive Command.read call s bytes

/-- Lets happen what is due up to a time, at most `fuel` things. -/
def runUntil : (fuel : Nat) → (time : Nat) → Server → Server
  | 0, _, s => s
  | fuel + 1, time, s =>
    match s.agenda with
    | [] => s
    | (due, i) :: rest =>
      if due ≤ time then
        let s := { s with now := due, agenda := rest }
        runUntil fuel time (if s.stopped then s else (s.process i).2)
      else s

/-- Sets the clock and lets happen what is due by then. -/
def advanceTo (s : Server) (fuel time : Nat) : Server :=
  { runUntil fuel time s with now := max s.now time }

/-- What a server that has just become leader tells the registry. -/
def announce (s : Server) (registry : Registry) (previous : RoleKind) : List ServiceSignal :=
  if s.engine.publishedRole = .leader ∧ previous ≠ .leader then
    (takeIntoService registry s.me 0 s.members).1
  else []

/-- From now on nothing is answered, and what is due passes without a trace. -/
def shutdown (s : Server) : Server := { s with stopped := true }

end Server

end Quorum
