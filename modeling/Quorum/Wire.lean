import Quorum.Message
import Quorum.Role
import Quorum.Json.Reader

/-!
How messages are written in JSON. Members of a record come in the order of its fields, under names
in camel case; calls and replies carry the name of the call beside their content.
-/

namespace Quorum

open Json (Reader Record RecordField Tagged)

variable {α : Type}

def Term.read : Reader Term := Reader.word 64

def PeerId.read : Reader PeerId := Reader.word 64

/-- Any signed 64-bit word, the ones below `LogIndex.absent` included. -/
def LogIndex.read : Reader LogIndex := Reader.integer (-0x8000000000000000) LogIndex.last

def Term.toJson (t : Term) : Json := .nat t

def PeerId.toJson (p : PeerId) : Json := .nat p

def LogIndex.toJson (i : LogIndex) : Json := .int i

namespace RoleKind

def ofLabel? (s : String) : Option RoleKind :=
  if s = "Follower" then some .follower
  else if s = "Candidate" then some .candidate
  else if s = "Leader" then some .leader
  else none

def read : Reader RoleKind := Reader.choice ofLabel?

def toJson (k : RoleKind) : Json := .string k.label

end RoleKind

namespace Entry

def toJson (command : α → Json) (e : Entry α) : Json :=
  .object [("term", e.term.toJson), ("command", command e.command)]

/-- Reads an entry by way of a record in which each part may still be missing. -/
def read (command : Reader α) : Reader (Entry α) := fun o => do
  let parts : Option Term × Option α ← Record.read
    { initial := (none, none)
      fields :=
        [ .always "term" Term.read fun t p => (some t, p.2),
          .always "command" command fun c p => (p.1, some c) ]
      arrays := true
      shortArrays := false } o
  match parts with
  | (some term, some command) => return { term, command }
  | _ => throw .mismatch

end Entry

namespace VoteRequest

def toJson (m : VoteRequest) : Json :=
  .object
    [ ("term", m.term.toJson),
      ("candidateId", m.candidateId.toJson),
      ("lastLogIndex", m.lastLogIndex.toJson),
      ("lastLogTerm", m.lastLogTerm.toJson) ]

def read : Reader VoteRequest := Record.read
  { initial := ⟨0, 0, 0, 0⟩
    fields :=
      [ .always "term" Term.read fun v m => { m with term := v },
        .always "candidateId" PeerId.read fun v m => { m with candidateId := v },
        .always "lastLogIndex" LogIndex.read fun v m => { m with lastLogIndex := v },
        .always "lastLogTerm" Term.read fun v m => { m with lastLogTerm := v } ]
    arrays := true
    shortArrays := false }

end VoteRequest

namespace VoteReply

def toJson (m : VoteReply) : Json :=
  .object [("term", m.term.toJson), ("voteGranted", .bool m.voteGranted)]

def read : Reader VoteReply := Record.read
  { initial := ⟨0, false⟩
    fields :=
      [ .always "term" Term.read fun v m => { m with term := v },
        .always "voteGranted" Reader.bool fun v m => { m with voteGranted := v } ]
    arrays := true
    shortArrays := false }

end VoteReply

namespace AppendRequest

def toJson (command : α → Json) (m : AppendRequest α) : Json :=
  .object
    [ ("term", m.term.toJson),
      ("leaderId", m.leaderId.toJson),
      ("prevLogIndex", m.prevLogIndex.toJson),
      ("prevLogTerm", m.prevLogTerm.elim .null Term.toJson),
      ("entries", .array (m.entries.map (Entry.toJson command))),
      ("leaderCommit", m.leaderCommit.toJson) ]

/-- In an object the member `prevLogTerm` may be left out. -/
def read (command : Reader α) : Reader (AppendRequest α) := Record.read
  { initial := ⟨0, 0, 0, none, [], 0⟩
    fields :=
      [ .always "term" Term.read fun v m => { m with term := v },
        .always "leaderId" PeerId.read fun v m => { m with leaderId := v },
        .always "prevLogIndex" LogIndex.read fun v m => { m with prevLogIndex := v },
        .optional "prevLogTerm" (Reader.option Term.read) fun v m => { m with prevLogTerm := v },
        .always "entries" (Reader.list (Entry.read command)) fun v m => { m with entries := v },
        .always "leaderCommit" LogIndex.read fun v m => { m with leaderCommit := v } ]
    arrays := true
    shortArrays := false }

end AppendRequest

namespace AppendReply

def toJson (m : AppendReply) : Json :=
  .object [("term", m.term.toJson), ("success", .bool m.success)]

def read : Reader AppendReply := Record.read
  { initial := ⟨0, false⟩
    fields :=
      [ .always "term" Term.read fun v m => { m with term := v },
        .always "success" Reader.bool fun v m => { m with success := v } ]
    arrays := true
    shortArrays := false }

end AppendReply

namespace Submission

def toJson (m : Submission) : Json :=
  .object
    [ ("index", m.index.toJson), ("term", m.term.toJson), ("isLeader", .bool m.isLeader) ]

def read : Reader Submission := Record.read
  { initial := ⟨0, 0, false⟩
    fields :=
      [ .always "index" LogIndex.read fun v m => { m with index := v },
        .always "term" Term.read fun v m => { m with term := v },
        .always "isLeader" Reader.bool fun v m => { m with isLeader := v } ]
    arrays := true
    shortArrays := false }

end Submission

/-- The kinds of calls between members. -/
inductive CallKind where
  | requestVote
  | appendEntries
  deriving DecidableEq, Repr

namespace CallKind

def label : CallKind → String
  | .requestVote => "requestVote"
  | .appendEntries => "appendEntries"

def all : List CallKind := [.requestVote, .appendEntries]

end CallKind

/-- A call as it is sent to a peer. -/
inductive Call (α : Type) where
  | requestVote (args : VoteRequest)
  | appendEntries (args : AppendRequest α)
  deriving DecidableEq, Repr

namespace Call

def kind : Call α → CallKind
  | .requestVote _ => .requestVote
  | .appendEntries _ => .appendEntries

def toJson (command : α → Json) (c : Call α) : Json :=
  .object
    [ ("rpc", .string c.kind.label),
      ("args",
        match c with
        | .requestVote args => args.toJson
        | .appendEntries args => args.toJson command) ]

def read (command : Reader α) : Reader (Call α) := Tagged.read
  { tagKey := "rpc"
    contentKey := "args"
    tags := CallKind.all
    label := CallKind.label
    content := fun
      | .requestVote => fun o => .requestVote <$> VoteRequest.read o
      | .appendEntries => fun o => .appendEntries <$> AppendRequest.read command o }

end Call

/-- The answer to a call as it is sent back. -/
inductive Reply where
  | requestVote (reply : VoteReply)
  | appendEntries (reply : AppendReply)
  deriving DecidableEq, Repr

namespace Reply

def kind : Reply → CallKind
  | .requestVote _ => .requestVote
  | .appendEntries _ => .appendEntries

def toJson (r : Reply) : Json :=
  .object
    [ ("rpc", .string r.kind.label),
      ("reply",
        match r with
        | .requestVote reply => reply.toJson
        | .appendEntries reply => reply.toJson) ]

def read : Reader Reply := Tagged.read
  { tagKey := "rpc"
    contentKey := "reply"
    tags := CallKind.all
    label := CallKind.label
    content := fun
      | .requestVote => fun o => .requestVote <$> VoteReply.read o
      | .appendEntries => fun o => .appendEntries <$> AppendReply.read o }

end Reply

end Quorum
