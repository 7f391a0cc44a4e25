import Quorum.Json.Print
import Quorum.Json.Reader
import Quorum.Error

/-!
Frames on a connection: the length of a body in four bytes, the highest first, and the body, which
is one JSON text.
-/

namespace Quorum

open Json (Reader)

namespace Frame

/-- Bodies are at most this long, sixteen mebibytes. -/
def maxLength : Nat := 16 * 1024 * 1024

/-- A number below `2 ^ 32` in four bytes. -/
def header (n : Nat) : List UInt8 :=
  [(n / 0x1000000).toUInt8, (n / 0x10000).toUInt8, (n / 0x100).toUInt8, n.toUInt8]

def ofHeader (a b c d : UInt8) : Nat := ((a.toNat * 256 + b.toNat) * 256 + c.toNat) * 256 + d.toNat

/-- The frame of a value. -/
def write (v : Json) : Except TransportError (List UInt8) :=
  let body := v.print
  if body.length ≤ maxLength then .ok (header body.length ++ body)
  else .error (.frameTooLarge body.length)

/-- What stands at the head of a stream of bytes. -/
inductive Head where
  /-- The stream ends within a frame. -/
  | incomplete
  /-- The length given is more than a frame may have. -/
  | tooLarge (length : Nat)
  | frame (body rest : List UInt8)
  deriving DecidableEq, Repr

def head (stream : List UInt8) : Head :=
  match stream with
  | a :: b :: c :: d :: rest =>
    let length := ofHeader a b c d
    if maxLength < length then .tooLarge length
    else if rest.length < length then .incomplete
    else .frame (rest.take length) (rest.drop length)
  | _ => .incomplete

/-- Reads the value of the first frame of a stream that has ended, with the rest of the stream. -/
def read {β : Type} (r : Reader β) (stream : List UInt8) :
    Except TransportError (β × List UInt8) :=
  match head stream with
  | .incomplete => .error (.io .unexpectedEnd)
  | .tooLarge length => .error (.frameTooLarge length)
  | .frame body rest =>
    match Json.decodeText r body with
    | .ok v => .ok (v, rest)
    | .error f => .error (.serialization f)

theorem length_lt_of_head_eq_frame {stream body rest : List UInt8}
    (h : head stream = .frame body rest) : rest.length < stream.length := by
  unfold head at h
  split at h
  · dsimp only at h
    split at h
    · simp at h
    · split at h
      · simp at h
      · simp only [Head.frame.injEq] at h
        rw [← h.2]
        simp only [List.length_drop, List.length_cons]
        omega
  · simp at h

end Frame

end Quorum
