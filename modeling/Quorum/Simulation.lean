import Quorum.Agenda
import Quorum.Engine
import Quorum.Registry

/-!
A member on a virtual clock of milliseconds, among peers that answer by a script. What is due at one
moment happens in the order in which it was scheduled.
-/

namespace Quorum

/-- How a peer answers a call. -/
inductive PeerAnswer where
  /-- Not at all. -/
  | hang
  /-- The call fails. -/
  | fail
  /-- With a term, which is that of the call if none is given, and a vote or an acceptance. -/
  | reply (term : Option Term) (ok : Bool)
  deriving DecidableEq, Repr

structure Behaviour where
  /-- Milliseconds before anything happens. -/
  delay : Nat
  answer : PeerAnswer
  deriving DecidableEq, Repr

/-- A call as a peer has received it. -/
structure ReceivedCall (α : Type) where
  time : Nat
  peer : PeerId
  call : Call α
  deriving DecidableEq, Repr

structure Simulation (α : Type) where
  now : Nat
  engine : Engine α
  electionTimeout : Nat
  heartbeatInterval : Nat
  rpcTimeout : Nat
  /-- What each peer does on the calls to come. The last behaviour repeats. -/
  scripts : List (List Behaviour)
  agenda : Agenda (Input α)
  received : List (ReceivedCall α)
  applied : List α
  stopped : Bool
  deriving Repr

variable {α : Type}

namespace Simulation

def schedule (s : Simulation α) (delay : Nat) (i : Input α) : Simulation α :=
  { s with agenda := s.agenda.insert (s.now + delay) i }

/-- Takes the next behaviour of a script. A peer without any fails. -/
def nextBehaviour : List Behaviour → Behaviour × List Behaviour
  | [] => (⟨0, .fail⟩, [])
  | [b] => (b, [b])
  | b :: rest => (b, rest)

/-- Sends a call to a peer and schedules what becomes of it: an answer or a failure if it comes in
time, otherwise silence when the time is over. -/
def send (s : Simulation α) (peer : PeerId) (call : Call α)
    (outcome : Option (Option Term × Bool) → Event α) : Simulation α :=
  match s.scripts[peer]? with
  | none => s
  | some script =>
    let (b, script) := nextBehaviour script
    let s : Simulation α :=
      { s with
        scripts := s.scripts.set peer script
        received := s.received ++ [⟨s.now, peer, call⟩] }
    let late := s.schedule s.rpcTimeout (.event (outcome none))
    match b.answer with
    | .hang => late
    | .fail => if b.delay ≤ s.rpcTimeout then s.schedule b.delay (.event (outcome none)) else late
    | .reply term ok =>
      if b.delay ≤ s.rpcTimeout then s.schedule b.delay (.event (outcome (some (term, ok))))
      else late

def carryOut (s : Simulation α) : Effect α → Simulation α
  | .arm .election epoch => s.schedule s.electionTimeout (.expired .election epoch)
  | .arm .heartbeat epoch => s.schedule s.heartbeatInterval (.expired .heartbeat epoch)
  | .requestVote peer generation args =>
    s.send peer (.requestVote args) fun r =>
      .voteReturned peer generation (r.map fun (term, ok) => VoteReply.mk (term.getD args.term) ok)
  | .appendEntries peer context args =>
    s.send peer (.appendEntries args) fun r =>
      .appendReturned peer context (r.map fun (term, ok) => AppendReply.mk (term.getD args.term) ok)
  | .apply command => { s with applied := s.applied ++ [command] }

/-- Starts a member. The election timeout is the least that the timing allows. -/
def start (me : PeerId) (scripts : List (List Behaviour)) (timing : Timing) :
    Except ConfigError (Simulation α) := do
  timing.validate
  if scripts.length ≤ me then throw (.ownPeerOutside me scripts.length)
  let (engine, effects) := Engine.start me scripts.length
  let s : Simulation α :=
    { now := 0
      engine
      electionTimeout := timing.electionLow
      heartbeatInterval := timing.heartbeatInterval
      rpcTimeout := timing.rpcTimeout
      scripts
      agenda := []
      received := []
      applied := []
      stopped := false }
  return effects.foldl carryOut s

def process (s : Simulation α) (i : Input α) : Answer × Simulation α :=
  let (answer, engine, effects) := s.engine.handle i
  (answer, effects.foldl carryOut { s with engine })

/-- Lets happen what is due up to a time, at most `fuel` things. -/
def runUntil : (fuel : Nat) → (time : Nat) → Simulation α → Simulation α
  | 0, _, s => s
  | fuel + 1, time, s =>
    match s.agenda with
    | [] => s
    | (due, i) :: rest =>
      if due ≤ time then
        let s := { s with now := due, agenda := rest }
        runUntil fuel time (if s.stopped then s else (s.process i).2)
      else s

/-- No more than this many things happen in a millisecond. -/
def densityLimit : Nat := 1000000

/-- Lets a span of time pass. -/
def advance (s : Simulation α) (ms : Nat) : Simulation α :=
  { runUntil ((ms + 1) * densityLimit) (s.now + ms) s with now := s.now + ms }

/-- Hands an event to the member and waits for the answer. A stopped member answers nothing. -/
def request (s : Simulation α) (e : Event α) : Except Error (Answer × Simulation α) :=
  if s.stopped then .error .stopped else .ok (s.process (.event e))

def status (s : Simulation α) : Except Error Status :=
  if s.stopped then .error .stopped else .ok s.engine.node.status

def shutdown (s : Simulation α) : Simulation α := { s with stopped := true }

/-- Forgets what has been received and applied so far. -/
def clear (s : Simulation α) : Simulation α := { s with received := [], applied := [] }

end Simulation

end Quorum
