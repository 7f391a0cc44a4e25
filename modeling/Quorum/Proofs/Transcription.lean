import Quorum.Command
import Quorum.Member
import Quorum.Proofs.Reading
import Quorum.Wire

/-!
Everything that members send to each other or show of themselves is read back from its text as it
was, as long as its numbers fit the words they travel as and its text is not nested too deep.
-/

namespace Quorum

open Json (Reader Reads)

variable {α : Type}

/-- Whether an index is a signed 64-bit word. The ones below `LogIndex.absent` are, too. -/
def LogIndex.IsWord (i : LogIndex) : Prop := -0x8000000000000000 ≤ i ∧ i ≤ LogIndex.last

instance (i : LogIndex) : Decidable i.IsWord := inferInstanceAs (Decidable (_ ∧ _))

theorem Term.reads {t : Term} (h : t ≤ Term.last) : Reads Term.read t.toJson t :=
  .word (by decide) (Nat.lt_succ_of_le h)

theorem PeerId.reads {p : PeerId} (h : p ≤ Term.last) : Reads PeerId.read p.toJson p :=
  .word (by decide) (Nat.lt_succ_of_le h)

theorem LogIndex.reads {i : LogIndex} (h : i.IsWord) : Reads LogIndex.read i.toJson i := by
  refine .integer ?_ h
  obtain ⟨hlow, hhigh⟩ := h
  unfold LogIndex.last at hhigh
  exact ⟨hlow, by lia⟩

/-- Whether all free values of a command are kept in order and have integers for numbers. -/
def Command.WellFormed : Command → Prop
  | .session data => data.session.Free
  | .sessions batch => ∀ data ∈ batch, data.session.Free
  | .storageInit plugins => plugins.Sorted ∧ ∀ m ∈ plugins, (Json.object m.2).Free
  | .storageSetAll _ dict => (Json.object dict).Free
  | .storageSet _ _ value => value.Free
  | .storageDeleteAll _ => True
  | .storageDelete _ _ => True

theorem Session.reads {s : Session} (h : s.session.Free) : Reads Session.read s.toJson s :=
  .record (by decide) (.cons (.always (.string s.sid)) (.cons (.always (.any h)) (.nil _)))

theorem Command.readDict_reads {dict : PluginDict} (h : (Json.object dict).Free) :
    Reads Command.readDict (.object dict) dict := by
  cases h with
  | object hkeys hvalues =>
      have hread := Reads.dict id hkeys fun m hm => .any (hvalues m hm)
      simp only [id, List.map_id'] at hread
      exact hread

theorem Command.payload_reads {c : Command} (h : c.WellFormed) :
    Reads (Command.readPayload c.kind) c.payload c := by
  cases c with
  | session data => exact (Session.reads h).map Command.session
  | sessions batch =>
      exact (Reads.list _ fun data hdata => Session.reads (h data hdata)).map Command.sessions
  | storageInit plugins =>
      exact (Reads.dict Json.object h.1 fun m hm => Command.readDict_reads (h.2 m hm)).map
        Command.storageInit
  | storageSetAll pluginId dict =>
      exact .bind (.record (by decide) (.cons (.always (.string pluginId))
        (.cons (.always (Command.readDict_reads h)) (.nil _)))) rfl
  | storageSet pluginId key value =>
      exact .bind (.record (by decide) (.cons (.always (.string pluginId))
        (.cons (.always (.string key)) (.cons (.always (.any h)) (.nil _))))) rfl
  | storageDeleteAll pluginId =>
      exact .bind (.record (by decide) (.cons (.always (.string pluginId)) (.nil _))) rfl
  | storageDelete pluginId key =>
      exact .bind (.record (by decide) (.cons (.always (.string pluginId))
        (.cons (.always (.string key)) (.nil _)))) rfl

theorem CommandKind.find?_label (k : CommandKind) : all.find? (label · = k.label) = some k := by
  cases k <;> rfl

theorem Command.reads {c : Command} (h : c.WellFormed) : Reads Command.read c.toJson c :=
  .tagged (CommandKind.find?_label c.kind) (Command.payload_reads h)

theorem Entry.reads {command : α → Json} {r : Reader α} {e : Entry α} (hterm : e.term ≤ Term.last)
    (hcommand : Reads r (command e.command) e.command) :
    Reads (Entry.read r) (e.toJson command) e :=
  .bind (.record (show ["term", "command"].Nodup by decide) (.cons (.always (Term.reads hterm))
    (.cons (.always hcommand) (.nil _)))) rfl

/-- Whether the numbers of a message fit the words they travel as. -/
structure VoteRequest.WellFormed (m : VoteRequest) : Prop where
  term : m.term ≤ Term.last
  candidateId : m.candidateId ≤ Term.last
  lastLogIndex : m.lastLogIndex.IsWord
  lastLogTerm : m.lastLogTerm ≤ Term.last

theorem VoteRequest.reads {m : VoteRequest} (h : m.WellFormed) :
    Reads VoteRequest.read m.toJson m :=
  .record (by decide) (.cons (.always (Term.reads h.term))
    (.cons (.always (PeerId.reads h.candidateId)) (.cons (.always (LogIndex.reads h.lastLogIndex))
    (.cons (.always (Term.reads h.lastLogTerm)) (.nil _)))))

theorem VoteReply.reads {m : VoteReply} (h : m.term ≤ Term.last) :
    Reads VoteReply.read m.toJson m :=
  .record (by decide) (.cons (.always (Term.reads h)) (.cons (.always (.bool m.voteGranted))
    (.nil _)))

structure AppendRequest.WellFormed (command : α → Prop) (m : AppendRequest α) : Prop where
  term : m.term ≤ Term.last
  leaderId : m.leaderId ≤ Term.last
  prevLogIndex : m.prevLogIndex.IsWord
  prevLogTerm : ∀ t ∈ m.prevLogTerm, t ≤ Term.last
  entries : ∀ e ∈ m.entries, e.term ≤ Term.last ∧ command e.command
  leaderCommit : m.leaderCommit.IsWord

theorem AppendRequest.prevLogTerm_reads {m : AppendRequest α}
    (h : ∀ t ∈ m.prevLogTerm, t ≤ Term.last) :
    Reads (Reader.option Term.read) (m.prevLogTerm.elim .null Term.toJson) m.prevLogTerm := by
  cases hterm : m.prevLogTerm with
  | none => exact .option_none
  | some t => exact .option_some (Term.reads (h t hterm)) nofun

theorem AppendRequest.reads {command : α → Json} {r : Reader α} {p : α → Prop}
    (hcommand : ∀ c, p c → Reads r (command c) c) {m : AppendRequest α} (h : m.WellFormed p) :
    Reads (AppendRequest.read r) (m.toJson command) m :=
  have hentries : ∀ e ∈ m.entries, Reads (Entry.read r) (e.toJson command) e := fun e he =>
    Entry.reads (h.entries e he).1 (hcommand e.command (h.entries e he).2)
  .record (show ["term", "leaderId", "prevLogIndex", "prevLogTerm", "entries",
      "leaderCommit"].Nodup by decide)
    (.cons (.always (Term.reads h.term)) (.cons (.always (PeerId.reads h.leaderId))
    (.cons (.always (LogIndex.reads h.prevLogIndex))
    (.cons (.optional (AppendRequest.prevLogTerm_reads h.prevLogTerm))
    (.cons (.always (.list _ hentries)) (.cons (.always (LogIndex.reads h.leaderCommit))
    (.nil _)))))))

theorem AppendReply.reads {m : AppendReply} (h : m.term ≤ Term.last) :
    Reads AppendReply.read m.toJson m :=
  .record (by decide) (.cons (.always (Term.reads h)) (.cons (.always (.bool m.success))
    (.nil _)))

theorem Submission.reads {m : Submission} (hindex : m.index.IsWord) (hterm : m.term ≤ Term.last) :
    Reads Submission.read m.toJson m :=
  .record (by decide) (.cons (.always (LogIndex.reads hindex)) (.cons (.always (Term.reads hterm))
    (.cons (.always (.bool m.isLeader)) (.nil _))))

theorem Member.reads {m : Member} (h : m.port < 0x10000) : Reads Member.read m.toJson m :=
  .record (by decide) (.cons (.always (.string m.host)) (.cons (.always (.word (by decide) h))
    (.cons (.always (.bool m.secure)) (.cons (.always (.string m.instanceId)) (.nil _)))))

theorem CallKind.find?_label (k : CallKind) : all.find? (label · = k.label) = some k := by
  cases k <;> rfl

def Call.WellFormed (command : α → Prop) : Call α → Prop
  | .requestVote args => args.WellFormed
  | .appendEntries args => args.WellFormed command

theorem Call.reads {command : α → Json} {r : Reader α} {p : α → Prop}
    (hcommand : ∀ c, p c → Reads r (command c) c) {c : Call α} (h : c.WellFormed p) :
    Reads (Call.read r) (c.toJson command) c := by
  cases c with
  | requestVote args =>
      exact .tagged (CallKind.find?_label .requestVote)
        ((VoteRequest.reads h).map Call.requestVote)
  | appendEntries args =>
      exact .tagged (CallKind.find?_label .appendEntries)
        ((AppendRequest.reads hcommand h).map Call.appendEntries)

def Reply.WellFormed : Reply → Prop
  | .requestVote reply => reply.term ≤ Term.last
  | .appendEntries reply => reply.term ≤ Term.last

theorem Reply.reads {m : Reply} (h : m.WellFormed) : Reads Reply.read m.toJson m := by
  cases m with
  | requestVote reply =>
      exact .tagged (CallKind.find?_label .requestVote)
        ((VoteReply.reads h).map Reply.requestVote)
  | appendEntries reply =>
      exact .tagged (CallKind.find?_label .appendEntries)
        ((AppendReply.reads h).map Reply.appendEntries)

/-- What members send to each other, or tell of themselves, as text. -/
inductive Datum where
  | command (c : Command)
  | entry (e : Entry Command)
  | voteRequest (m : VoteRequest)
  | voteReply (m : VoteReply)
  | appendRequest (m : AppendRequest Command)
  | appendReply (m : AppendReply)
  | submission (m : Submission)
  | member (m : Member)
  | call (c : Call Command)
  | reply (r : Reply)

inductive DatumKind where
  | command
  | entry
  | voteRequest
  | voteReply
  | appendRequest
  | appendReply
  | submission
  | member
  | call
  | reply
  deriving DecidableEq, Repr

def DatumKind.read : DatumKind → Reader Datum
  | .command => fun o => .command <$> Command.read o
  | .entry => fun o => .entry <$> Entry.read Command.read o
  | .voteRequest => fun o => .voteRequest <$> VoteRequest.read o
  | .voteReply => fun o => .voteReply <$> VoteReply.read o
  | .appendRequest => fun o => .appendRequest <$> AppendRequest.read Command.read o
  | .appendReply => fun o => .appendReply <$> AppendReply.read o
  | .submission => fun o => .submission <$> Submission.read o
  | .member => fun o => .member <$> Member.read o
  | .call => fun o => .call <$> Call.read Command.read o
  | .reply => fun o => .reply <$> Reply.read o

namespace Datum

def kind : Datum → DatumKind
  | command _ => .command
  | entry _ => .entry
  | voteRequest _ => .voteRequest
  | voteReply _ => .voteReply
  | appendRequest _ => .appendRequest
  | appendReply _ => .appendReply
  | submission _ => .submission
  | member _ => .member
  | call _ => .call
  | reply _ => .reply

def toJson : Datum → Json
  | command c => c.toJson
  | entry e => e.toJson Command.toJson
  | voteRequest m => m.toJson
  | voteReply m => m.toJson
  | appendRequest m => m.toJson Command.toJson
  | appendReply m => m.toJson
  | submission m => m.toJson
  | member m => m.toJson
  | call c => c.toJson Command.toJson
  | reply r => r.toJson

/-- Whether every number is one of the word it is kept in, and every free value is kept in order
and has integers for numbers. -/
def WellFormed : Datum → Prop
  | command c => c.WellFormed
  | entry e => e.term ≤ Term.last ∧ e.command.WellFormed
  | voteRequest m => m.WellFormed
  | voteReply m => m.term ≤ Term.last
  | appendRequest m => m.WellFormed Command.WellFormed
  | appendReply m => m.term ≤ Term.last
  | submission m => m.index.IsWord ∧ m.term ≤ Term.last
  | member m => m.port < 0x10000
  | call c => c.WellFormed Command.WellFormed
  | reply r => r.WellFormed

theorem reads {d : Datum} (h : d.WellFormed) : Reads d.kind.read d.toJson d := by
  cases d with
  | command c => exact (Command.reads h).map Datum.command
  | entry e => exact (Entry.reads h.1 (Command.reads h.2)).map Datum.entry
  | voteRequest m => exact (VoteRequest.reads h).map Datum.voteRequest
  | voteReply m => exact (VoteReply.reads h).map Datum.voteReply
  | appendRequest m =>
      exact (AppendRequest.reads (fun _ => Command.reads) h).map Datum.appendRequest
  | appendReply m => exact (AppendReply.reads h).map Datum.appendReply
  | submission m => exact (Submission.reads h.1 h.2).map Datum.submission
  | member m => exact (Member.reads h).map Datum.member
  | call c => exact (Call.reads (fun _ => Command.reads) h).map Datum.call
  | reply r => exact (Reply.reads h).map Datum.reply

/-- A text in which no more than `Json.Outline.depthLimit` brackets are open at once gives back
what it was written for. -/
theorem read_back (d : Datum) (hd : d.WellFormed)
    (hdepth : d.toJson.depth ≤ Json.Outline.depthLimit) :
    Json.decodeText d.kind.read d.toJson.print = .ok d := by
  rw [Json.decodeText_print (reads hd), if_pos hdepth]

/-- Quotes, backslashes and control characters, nested values, an index below all others and no
term before the entries. -/
theorem read_back_call :
    let value : Json := .object [("\"\\\n\u0001", .array [.int (-1), .object [], .string "é\t"])]
    let call : Datum := .call (.appendEntries
      { term := Term.last, leaderId := 2, prevLogIndex := -0x8000000000000000, prevLogTerm := none
        entries := [⟨3, .storageSet "p" "\u001f" value⟩, ⟨3, .sessions [⟨"", value⟩]⟩]
        leaderCommit := LogIndex.last })
    call.WellFormed ∧ call.toJson.depth ≤ Json.Outline.depthLimit ∧
      Json.decodeText call.kind.read call.toJson.print = .ok call := by
  intro value call
  have hvalue : value.Free := by
    refine .object (by decide) (List.forall_mem_singleton.mpr (.array ?_))
    simp only [List.forall_mem_cons]
    exact ⟨.integer (by decide), .object (by decide) nofun, .string _, nofun⟩
  have hcall : call.WellFormed :=
    { term := by decide
      leaderId := by decide
      prevLogIndex := by decide
      prevLogTerm := nofun
      entries := List.forall_mem_cons.mpr ⟨⟨by decide, hvalue⟩,
        List.forall_mem_singleton.mpr ⟨by decide, List.forall_mem_singleton.mpr hvalue⟩⟩
      leaderCommit := by decide }
  have hdepth : call.toJson.depth ≤ Json.Outline.depthLimit := by decide
  exact ⟨hcall, hdepth, read_back call hcall hdepth⟩

end Datum

end Quorum
