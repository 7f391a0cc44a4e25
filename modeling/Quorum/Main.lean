import Quorum.CommandLine
import Quorum.Server

/-!
The program. It checks its command line and runs a member whose incoming connection is the standard
input, with answers on the standard output, until the input ends. There is no service discovery, and
what it would be told goes to the standard error output.
-/

namespace Quorum

/-- No more than this many things happen between two calls. -/
def backlogLimit : Nat := 1000000

/-- Tells who is in service now, if a server has become leader in between. -/
def tellService (before now : Server) : IO Unit :=
  for signal in now.announce .willing before.engine.publishedRole do
    IO.eprintln signal.text

/-- Serves one frame after the other. Timers that have run out in the meantime come first. -/
partial def serveFrames (started : Nat) (server : Server) (c : Connection) : IO Unit := do
  let input ← IO.getStdin
  let output ← IO.getStdout
  let header := (← input.read 4).toList
  let length := match header with
    | [a, b, c, d] => Frame.ofHeader a b c d
    | _ => 0
  let body ← if length = 0 ∨ Frame.maxLength < length then pure ByteArray.empty
    else input.read length.toUSize
  let ready := server.advanceTo backlogLimit ((← IO.monoMsNow) - started)
  tellService server ready
  let exchange := ready.receive c (header ++ body.toList)
  tellService ready exchange.state
  for reply in exchange.replies do
    match reply.frame with
    | .ok bytes => output.write bytes.toByteArray
    | .error _ => pure ()
  output.flush
  if header.length < 4 ∨ body.size < length ∨ ¬ exchange.connection.isOpen then return
  serveFrames started exchange.state exchange.connection

def run (args : List String) : IO UInt32 := do
  match CommandLine.plan args with
  | .error exit =>
    if let some line := exit.message then IO.eprintln line
    return exit.code.toUInt32
  | .ok (config, _) =>
    let timeout ← IO.rand config.timing.electionLow (config.timing.electionHigh - 1)
    match Server.start config timeout with
    | .error e =>
      IO.eprintln (Error.config e).message
      return 1
    | .ok server =>
      serveFrames (← IO.monoMsNow) server .fresh
      return 0

end Quorum

def main (args : List String) : IO UInt32 := Quorum.run args
