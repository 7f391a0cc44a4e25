import Quorum.Address
import Quorum.Config
import Quorum.ControlSequence

/-!
The command line of a server. Options have long names and one value each; `--peer` may come any
number of times, the others once. A value given after an equals sign is looked at in its place, one
given as an argument of its own only when the next option is met or the command line ends. So an
argument that nobody expects is told of before a value that is wrong.
-/

namespace Quorum

/-- The options, each with a value. -/
inductive Flag where
  | me
  | listen
  | peer
  | electionTimeoutMin
  | electionTimeoutMax
  | heartbeatFraction
  | rpcTimeout
  deriving DecidableEq, Repr

namespace Flag

def name : Flag → String
  | .me => "me"
  | .listen => "listen"
  | .peer => "peer"
  | .electionTimeoutMin => "election-timeout-min-ms"
  | .electionTimeoutMax => "election-timeout-max-ms"
  | .heartbeatFraction => "heartbeat-fraction"
  | .rpcTimeout => "rpc-timeout-ms"

/-- What stands for the value in messages. -/
def valueName : Flag → String
  | .me => "ME"
  | .listen => "LISTEN"
  | .peer => "PEERS"
  | .electionTimeoutMin => "ELECTION_TIMEOUT_MIN_MS"
  | .electionTimeoutMax => "ELECTION_TIMEOUT_MAX_MS"
  | .heartbeatFraction => "HEARTBEAT_FRACTION"
  | .rpcTimeout => "RPC_TIMEOUT_MS"

def label (f : Flag) : String := "--" ++ f.name ++ " <" ++ f.valueName ++ ">"

def all : List Flag :=
  [.me, .listen, .peer, .electionTimeoutMin, .electionTimeoutMax, .heartbeatFraction, .rpcTimeout]

def ofName? (s : String) : Option Flag := all.find? (·.name = s)

end Flag

/-- Why a command line cannot be used. -/
inductive UsageError where
  | help
  | unexpected (arg : String)
  /-- A value for `--help`, which takes none. -/
  | helpValue (value : String)
  | missingValue (f : Flag)
  | repeated (f : Flag)
  | badValue (f : Flag) (value reason : String)
  | missing (fs : List Flag)
  deriving DecidableEq, Repr

section

open ControlSequence (wrong literal alarm)

/-- What there is to tell about an error, in colours. -/
def UsageError.message? : UsageError → Option String
  | .help => none
  | .unexpected arg => some ("unexpected argument '" ++ wrong arg ++ "' found")
  | .helpValue value =>
    some ("unexpected value '" ++ wrong value ++ "' for '" ++ literal "--help" ++
      "' found; no more were expected")
  | .missingValue f =>
    some ("a value is required for '" ++ wrong f.label ++ "' but none was supplied")
  | .repeated f => some ("the argument '" ++ wrong f.label ++ "' cannot be used multiple times")
  | .badValue f value reason =>
    some ("invalid value '" ++ wrong value ++ "' for '" ++ literal f.label ++ "': " ++ reason)
  | .missing _ => some "the following required arguments were not provided:"

/-- The first line of a text. A carriage return before the line break belongs to the break. -/
def firstLine (s : String) : String :=
  let line := s.toList.takeWhile (· ≠ '\n')
  .ofList (if line.getLast? = some '\r' then line.dropLast else line)

/-- The first line of the message without colours, if there is an error to tell of. -/
def UsageError.line? (e : UsageError) : Option String :=
  e.message?.map fun m => firstLine (ControlSequence.text (alarm "error:" ++ " " ++ m))

end

/-- What a command line asks for. -/
structure Options where
  me : Option Nat
  listen : Option SocketAddress
  members : List Member
  electionTimeoutMin : Option Nat
  electionTimeoutMax : Option Nat
  heartbeatFraction : Option Double
  rpcTimeout : Option Nat
  deriving DecidableEq, Repr

namespace CommandLine

def emptyInteger : String := "cannot parse integer from empty string"

/-- Goes through the digits of a 64-bit word. What is wrong first is told. -/
def readDigits : Nat → List Char → Except String Nat
  | n, [] => .ok n
  | n, c :: rest =>
    match Member.digit? c with
    | none => .error "invalid digit found in string"
    | some d =>
      if n * 10 + d < 0x10000000000000000 then readDigits (n * 10 + d) rest
      else .error "number too large to fit in target type"

/-- A 64-bit word, which may have a plus sign. -/
def readWord (s : String) : Except String Nat :=
  match s.toList with
  | [] => .error emptyInteger
  | ['+'] => .error "invalid digit found in string"
  | '+' :: rest => readDigits 0 rest
  | cs => readDigits 0 cs

/-- The number `digits * 10 ^ exponent`, correctly rounded. -/
def toDouble (digits : Nat) (exponent : Int) : Double :=
  let lead : Int := (toString digits).length + exponent
  if digits = 0 ∨ lead < -400 then .ofWord 0
  else if 400 < lead then .ofFloat (1.0 / 0.0)
  else .ofFloat (Float.ofScientific digits (exponent < 0) exponent.natAbs)

/-- A whole decimal exponent, after its letter. -/
def readExponent? (cs : List Char) : Option Int :=
  match cs with
  | '-' :: rest => (Member.number? rest).map fun n => -(n : Int)
  | '+' :: rest => (Member.number? rest).map fun n => (n : Int)
  | _ => (Member.number? cs).map fun n => (n : Int)

/-- A number in decimal or exponent notation, without its sign. -/
def readMagnitude? (cs : List Char) : Option Double := do
  let isMark (c : Char) : Bool := c = 'e' || c = 'E'
  let mantissa := cs.takeWhile (!isMark ·)
  let exponent ← match cs.dropWhile (!isMark ·) with
    | [] => some 0
    | _ :: rest => readExponent? rest
  let (whole, fraction) := (Member.splitFirst? '.' mantissa).getD (mantissa, [])
  let n ← Member.number? (whole ++ fraction)
  return toDouble n (exponent - fraction.length)

/-- A floating-point number. -/
def readDouble (s : String) : Except String Double :=
  let (negative, cs) := match s.toList with
    | '-' :: rest => (true, rest)
    | '+' :: rest => (false, rest)
    | cs => (false, cs)
  let word := String.ofList (cs.map Char.toLower)
  let magnitude? : Option Double :=
    if word = "inf" ∨ word = "infinity" then some (.ofFloat (1.0 / 0.0))
    else if word = "nan" then some (.ofFloat (0.0 / 0.0))
    else readMagnitude? cs
  match magnitude? with
  | some x => .ok (if negative then x.neg else x)
  | none =>
    .error (if s.isEmpty then "cannot parse float from empty string" else "invalid float literal")

/-- Puts the value of an option into the options. -/
def put (o : Options) (f : Flag) (value : String) : Except UsageError Options := do
  let read {β : Type} (r : Except String β) : Except UsageError β := r.mapError (.badValue f value)
  let once {β : Type} (old : Option β) : Except UsageError Unit :=
    if old.isSome then throw (.repeated f) else return
  match f with
  | .me => do
    once o.me
    return { o with me := some (← read (readWord value)) }
  | .listen => do
    once o.listen
    match SocketAddress.parse? value with
    | some a => return { o with listen := some a }
    | none => throw (.badValue f value "invalid socket address syntax")
  | .peer =>
    match Member.parse value with
    | .ok m => return { o with members := o.members ++ [m] }
    | .error e => throw (.badValue f value (Error.config (.invalidMember value e)).message)
  | .electionTimeoutMin => do
    once o.electionTimeoutMin
    return { o with electionTimeoutMin := some (← read (readWord value)) }
  | .electionTimeoutMax => do
    once o.electionTimeoutMax
    return { o with electionTimeoutMax := some (← read (readWord value)) }
  | .heartbeatFraction => do
    once o.heartbeatFraction
    return { o with heartbeatFraction := some (← read (readDouble value)) }
  | .rpcTimeout => do
    once o.rpcTimeout
    return { o with rpcTimeout := some (← read (readWord value)) }

/-- What an argument is, taken by itself. -/
inductive Argument where
  /-- An option, with its value if that follows an equals sign. -/
  | flag (name : String) (value : Option String)
  /-- The two dashes after which there are only operands. -/
  | operands
  /-- A dash with letters. -/
  | letters (first : Char)
  | operand
  deriving DecidableEq, Repr

def classify (arg : String) : Argument :=
  match arg.toList with
  | ['-', '-'] => .operands
  | '-' :: '-' :: rest =>
    match Member.splitFirst? '=' rest with
    | some (name, value) => .flag (.ofList name) (some (.ofList value))
    | none => .flag (.ofList rest) none
  | '-' :: c :: _ => .letters c
  | _ => .operand

/-- An option that has been met but not looked at, with the value that has followed it, if any. -/
abbrev Pending := Option (Flag × Option String)

/-- Looks at the option that has been put off. -/
def settle (o : Options) : Pending → Except UsageError Options
  | none => .ok o
  | some (f, none) => .error (.missingValue f)
  | some (f, some value) => put o f value

/-- Reads arguments from left to right. -/
def read (o : Options) (pending : Pending) : List String → Except UsageError Options
  | [] => settle o pending
  | arg :: rest =>
    match classify arg with
    | .operand =>
      match pending with
      | some (f, none) => read o (some (f, some arg)) rest
      | _ => .error (.unexpected arg)
    | .operands =>
      match rest with
      | [] => settle o pending
      | operand :: _ => .error (.unexpected operand)
    | .letters c =>
      if c = 'h' then do
        let _ ← settle o pending
        throw .help
      else .error (.unexpected ("-" ++ c.toString))
    | .flag name value =>
      match Flag.ofName? name with
      | some f => do
        let o ← settle o pending
        match value with
        | some v => read (← put o f v) none rest
        | none => read o (some (f, none)) rest
      | none =>
        if name = "help" then
          match value with
          | some v => .error (.helpValue v)
          | none => do
            let _ ← settle o pending
            throw .help
        else .error (.unexpected ("--" ++ name))

/-- The configuration and the address to listen on that a command line stands for. -/
def parse (args : List String) : Except UsageError (ServerConfig × SocketAddress) := do
  let o ← read ⟨none, none, [], none, none, none, none⟩ none args
  match o.me, o.listen, o.members with
  | some me, some listen, m :: ms =>
    let timing : Timing :=
      { electionLow := o.electionTimeoutMin.getD Timing.standard.electionLow
        electionHigh := o.electionTimeoutMax.getD Timing.standard.electionHigh
        heartbeatFraction := o.heartbeatFraction.getD Timing.standard.heartbeatFraction
        rpcTimeout := o.rpcTimeout.getD Timing.standard.rpcTimeout }
    return ({ me, members := m :: ms, timing }, listen)
  | me, listen, members =>
    throw (.missing ((if me.isNone then [.me] else []) ++
      (if listen.isNone then [.listen] else []) ++ (if members.isEmpty then [.peer] else [])))

/-- A text in double quotes, with quotes, backslashes and control characters escaped. -/
def quoted (s : String) : String :=
  let escape (c : Char) : List Char :=
    if c = '"' then ['\\', '"']
    else if c = '\\' then ['\\', '\\']
    else if c = '\n' then ['\\', 'n']
    else if c = '\r' then ['\\', 'r']
    else if c = '\t' then ['\\', 't']
    else [c]
  "\"" ++ String.ofList (s.toList.flatMap escape) ++ "\""

/-- How a program ends. -/
structure Exit where
  code : Nat
  /-- The first line of what is wrong. -/
  message : Option String
  deriving DecidableEq, Repr

def Exit.ofUsage (e : UsageError) : Exit :=
  match e.line? with
  | none => ⟨0, none⟩
  | some line => ⟨2, some line⟩

def Exit.ofConfig (e : ConfigError) : Exit :=
  ⟨1, some ("Error: Config(" ++ quoted e.message ++ ")")⟩

/-- The configuration to run a server with, or how to end without running one. -/
def plan (args : List String) : Except Exit (ServerConfig × SocketAddress) := do
  let (config, listen) ← (parse args).mapError .ofUsage
  config.validate.mapError .ofConfig
  return (config, listen)

end CommandLine

end Quorum
