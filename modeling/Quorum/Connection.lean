import Quorum.Frame
import Quorum.Wire

/-!
A connection over which calls come in. Every complete frame that holds a call is handed on and
answered, in order. The first frame that holds none closes the connection, and nothing after it is
looked at; so does a call that gets no answer.
-/

namespace Quorum

open Json (Reader)

structure Connection where
  /-- Bytes received that do not make a frame yet. -/
  pending : List UInt8
  isOpen : Bool
  deriving DecidableEq, Repr

/-- What has come of bytes received. -/
structure Exchange (σ : Type) where
  state : σ
  replies : List Reply
  connection : Connection

namespace Connection

variable {σ α : Type}

def fresh : Connection := ⟨[], true⟩

/-- Answers the complete frames at the head of a stream. The handler gives no answer once it is
stopped. -/
def serve (command : Reader α) (handler : σ → Call α → Option (Reply × σ)) (state : σ)
    (stream : List UInt8) : Exchange σ :=
  match _h : Frame.head stream with
  | .incomplete => ⟨state, [], ⟨stream, true⟩⟩
  | .tooLarge _ => ⟨state, [], ⟨[], false⟩⟩
  | .frame body rest =>
    match Json.decodeText (Call.read command) body with
    | .error _ => ⟨state, [], ⟨[], false⟩⟩
    | .ok call =>
      match handler state call with
      | none => ⟨state, [], ⟨[], false⟩⟩
      | some (reply, state) =>
        let later := serve command handler state rest
        { later with replies := reply :: later.replies }
termination_by stream.length
decreasing_by exact Frame.length_lt_of_head_eq_frame _h

/-- Takes in bytes. A closed connection takes none. -/
def receive (command : Reader α) (handler : σ → Call α → Option (Reply × σ)) (state : σ)
    (c : Connection) (bytes : List UInt8) : Exchange σ :=
  if c.isOpen then serve command handler state (c.pending ++ bytes) else ⟨state, [], c⟩

end Connection

/-- The frame of a call. -/
def Call.frame {α : Type} (command : α → Json) (c : Call α) : Except TransportError (List UInt8) :=
  Frame.write (c.toJson command)

def Reply.frame (r : Reply) : Except TransportError (List UInt8) := Frame.write r.toJson

/-- Reads the answer to a call from what the peer has sent before closing the connection. -/
def Call.readReply {α : Type} (c : Call α) (stream : List UInt8) : Except TransportError Reply := do
  let (reply, _) ← Frame.read Reply.read stream
  if reply.kind = c.kind then return reply else throw .unexpectedReply

end Quorum
