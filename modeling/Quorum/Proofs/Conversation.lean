import Quorum.Proofs.Following
import Quorum.Proofs.Framing
import Quorum.Proofs.Timekeeping
import Quorum.Server

/-!
A connection on which calls come in. However the bytes are cut up on their way, the node of the
member handles the calls of the complete frames, in their order, the member sends what the node
answers to each of them, and nothing of what follows the last complete frame is ever seen.
-/

namespace Quorum

open Json (Reader Reads)

namespace Connection

variable {σ α : Type} {command : Reader α} {handler : σ → Call α → Option (Reply × σ)}

/-- Hands on calls one after the other. There is a result if every one of them is answered. -/
def answerAll (handler : σ → Call α → Option (Reply × σ)) :
    σ → List (Call α) → Option (List Reply × σ)
  | s, [] => some ([], s)
  | s, c :: cs => do
    let (reply, s) ← handler s c
    let (replies, s) ← answerAll handler s cs
    return (reply :: replies, s)

/-- Takes in bytes as they arrive. -/
def receiveAll (command : Reader α) (handler : σ → Call α → Option (Reply × σ)) :
    σ → Connection → List (List UInt8) → Exchange σ
  | s, c, [] => ⟨s, [], c⟩
  | s, c, bytes :: later =>
    let now := c.receive command handler s bytes
    let e := receiveAll command handler now.state now.connection later
    { e with replies := now.replies ++ e.replies }

theorem serve_eq (s : σ) (stream : List UInt8) : serve command handler s stream =
    match Frame.head stream with
    | .incomplete => ⟨s, [], ⟨stream, true⟩⟩
    | .tooLarge _ => ⟨s, [], ⟨[], false⟩⟩
    | .frame body rest =>
      match Json.decodeText (Call.read command) body with
      | .error _ => ⟨s, [], ⟨[], false⟩⟩
      | .ok c =>
        match handler s c with
        | none => ⟨s, [], ⟨[], false⟩⟩
        | some (reply, s) =>
          let later := serve command handler s rest
          { later with replies := reply :: later.replies } := by
  rw [serve]
  split
  · rename_i hhead
    rw [hhead]
  · rename_i hhead
    rw [hhead]
  · rename_i body rest hhead
    cases hbody : Json.decodeText (Call.read command) body with
    | error f => simp only [hhead, hbody]
    | ok c =>
        cases hanswer : handler s c with
        | none => simp only [hhead, hbody, hanswer]
        | some answer => simp only [hhead, hbody, hanswer]

theorem serve_frame {frame : List UInt8} {c : Call α}
    (h : Frame.Carries (Call.read command) frame c) {s s' : σ} {reply : Reply}
    (hanswer : handler s c = some (reply, s')) (more : List UInt8) :
    serve command handler s (frame ++ more) =
      let later := serve command handler s' more
      { later with replies := reply :: later.replies } := by
  obtain ⟨body, rfl, hlength, hbody⟩ := h
  rw [serve_eq, Frame.head_append hlength]
  simp only [hbody, hanswer]

/-- Where the first call gets no answer, nothing comes of a stream. -/
theorem serve_unanswered {s : σ} {stream : List UInt8}
    (h : ∀ frame c more, stream = frame ++ more → Frame.Carries (Call.read command) frame c →
      handler s c = none) : ∃ c, serve command handler s stream = ⟨s, [], c⟩ := by
  rw [serve_eq]
  cases hhead : Frame.head stream with
  | incomplete => exact ⟨_, rfl⟩
  | tooLarge length => exact ⟨_, rfl⟩
  | frame body more =>
      obtain ⟨hstream, hlength⟩ := Frame.eq_of_head hhead
      cases hbody : Json.decodeText (Call.read command) body with
      | error f =>
          simp only [hbody]
          exact ⟨_, rfl⟩
      | ok c =>
          have hnone : handler s c = none := h _ c more hstream ⟨body, rfl, hlength, hbody⟩
          simp only [hbody, hnone]
          exact ⟨_, rfl⟩

/-- What does not begin with a complete frame is not handed on. -/
theorem serve_remainder {rest : List UInt8}
    (h : ∀ frame c more, rest = frame ++ more → ¬ Frame.Carries (Call.read command) frame c)
    (s : σ) : ∃ c, serve command handler s rest = ⟨s, [], c⟩ :=
  serve_unanswered fun frame c more hstream hcarries => absurd hcarries (h frame c more hstream)

/-- A connection hands on exactly the calls of the complete frames. -/
theorem serve_splits {s s' : σ} {stream rest : List UInt8} {frames : List (List UInt8)}
    {calls : List (Call α)} {replies : List Reply}
    (h : Frame.Splits (Call.read command) stream frames calls rest)
    (hanswer : answerAll handler s calls = some (replies, s')) :
    ∃ c, serve command handler s stream = ⟨s', replies, c⟩ := by
  obtain ⟨rfl, hcarries, hlongest⟩ := h
  induction hcarries generalizing s replies with
  | nil =>
      cases hanswer
      exact serve_remainder hlongest s'
  | cons hc _ ih =>
      rw [answerAll] at hanswer
      obtain ⟨⟨reply, t⟩, ht, hanswer⟩ := Option.bind_eq_some_iff.mp hanswer
      obtain ⟨⟨later, u⟩, hlater, hanswer⟩ := Option.bind_eq_some_iff.mp hanswer
      cases hanswer
      obtain ⟨c, hserve⟩ := ih hlater
      rw [List.flatten_cons, List.append_assoc, serve_frame hc ht, hserve]
      exact ⟨c, rfl⟩

/-- It does not matter where a stream is cut. -/
theorem serve_append (s : σ) (stream more : List UInt8) :
    serve command handler s (stream ++ more) =
      let now := serve command handler s stream
      let later := now.connection.receive command handler now.state more
      { later with replies := now.replies ++ later.replies } := by
  induction hn : stream.length using Nat.strong_induction_on generalizing s stream with
  | _ n ih =>
      rw [serve_eq s stream]
      cases hhead : Frame.head stream with
      | incomplete => rfl
      | tooLarge length =>
          rw [serve_eq, Frame.head_append_of_tooLarge hhead]
          rfl
      | frame body rest =>
          rw [serve_eq, Frame.head_append_of_frame hhead]
          cases hbody : Json.decodeText (Call.read command) body with
          | error f => simp only [hbody]; rfl
          | ok c =>
              cases hanswer : handler s c with
              | none => simp only [hbody, hanswer]; rfl
              | some answer =>
                  obtain ⟨reply, t⟩ := answer
                  have hlength := Frame.length_lt_of_head_eq_frame hhead
                  have hlater := ih rest.length (hn ▸ hlength) t rest rfl
                  simp only [hbody, hanswer, hlater, List.cons_append]

theorem receiveAll_serve (s : σ) (stream : List UInt8) (chunks : List (List UInt8)) :
    (let now := serve command handler s stream
      let later := now.connection.receiveAll command handler now.state chunks
      { later with replies := now.replies ++ later.replies }) =
      serve command handler s (stream ++ chunks.flatten) := by
  induction chunks generalizing stream with
  | nil => simp [receiveAll]
  | cons bytes chunks ih =>
      have hlater := ih (stream ++ bytes)
      rw [serve_append, List.append_assoc] at hlater
      rw [List.flatten_cons, ← hlater]
      simp only [receiveAll, List.append_assoc]

/-- Nor does it matter in what pieces the bytes arrive. -/
theorem receiveAll_fresh (s : σ) (chunks : List (List UInt8)) :
    fresh.receiveAll command handler s chunks = serve command handler s chunks.flatten := by
  have hempty : serve command handler s [] = ⟨s, [], fresh⟩ := by
    rw [serve_eq]
    rfl
  rw [← List.nil_append chunks.flatten, ← receiveAll_serve, hempty]
  rfl

end Connection

section Reading

open Json.RecordField (always_keeps optional_keeps)

variable {α : Type} {command : Reader α}

theorem Term.le_last_of_read {o : Json.Outline} {t : Term} (h : Term.read o = .ok t) :
    t ≤ Term.last := by
  obtain ⟨i, hi, h⟩ := Json.bind_eq_ok.mp h
  cases h
  unfold Reader.integer at hi
  split at hi
  · split at hi
    · rename_i hbounds
      cases hi
      exact Int.toNat_le.mpr (by simpa [Term.last] using hbounds.2)
    · cases hi
  · cases hi

theorem VoteRequest.term_le_of_read {o : Json.Outline} {m : VoteRequest}
    (h : VoteRequest.read o = .ok m) : m.term ≤ Term.last := by
  refine Json.Record.read_induct (P := fun m => m.term ≤ Term.last) (Nat.zero_le _) ?_ h
  simp only [List.forall_mem_cons]
  exact ⟨always_keeps fun _ _ _ ht _ => Term.le_last_of_read ht, always_keeps fun _ _ _ _ hs => hs,
    always_keeps fun _ _ _ _ hs => hs, always_keeps fun _ _ _ _ hs => hs, nofun⟩

theorem AppendRequest.term_le_of_read {o : Json.Outline} {m : AppendRequest α}
    (h : AppendRequest.read command o = .ok m) : m.term ≤ Term.last := by
  refine Json.Record.read_induct (P := fun m => m.term ≤ Term.last) (Nat.zero_le _) ?_ h
  simp only [List.forall_mem_cons]
  exact ⟨always_keeps fun _ _ _ ht _ => Term.le_last_of_read ht, always_keeps fun _ _ _ _ hs => hs,
    always_keeps fun _ _ _ _ hs => hs, optional_keeps fun _ _ _ _ hs => hs,
    always_keeps fun _ _ _ _ hs => hs, always_keeps fun _ _ _ _ hs => hs, nofun⟩

def Call.term : Call α → Term
  | .requestVote args => args.term
  | .appendEntries args => args.term

/-- Every call that is read has a word for its term. -/
theorem Call.term_le_of_read {o : Json.Outline} {c : Call α} (h : Call.read command o = .ok c) :
    c.term ≤ Term.last := by
  obtain ⟨kind, content, h⟩ := Json.Tagged.exists_content h
  cases kind with
  | requestVote =>
      obtain ⟨args, hargs, rfl⟩ := Json.map_eq_ok.mp h
      exact VoteRequest.term_le_of_read hargs
  | appendEntries =>
      obtain ⟨args, hargs, rfl⟩ := Json.map_eq_ok.mp h
      exact AppendRequest.term_le_of_read hargs

theorem Frame.Carries.term_le {frame : List UInt8} {c : Call α}
    (h : Frame.Carries (Call.read command) frame c) : c.term ≤ Term.last := by
  obtain ⟨body, -, -, hbody⟩ := h
  obtain ⟨o, hread⟩ := Json.exists_read hbody
  exact Call.term_le_of_read hread

end Reading

/-- What a call is to the node that it reaches. -/
def Call.event {α : Type} : Call α → Event α
  | .requestVote args => .voteRequest args
  | .appendEntries args => .appendRequest args

namespace Node

variable {α : Type} (n : Node α)

/-- What a node answers to a call. -/
def reply (n : Node α) : Call α → Reply
  | .requestVote args => .requestVote (n.answerVote args).1
  | .appendEntries args => .appendEntries (n.answerAppend args).1

/-- What a node answers to calls that reach it one after the other. -/
def replies : Node α → List (Call α) → List Reply
  | _, [] => []
  | n, c :: cs => n.reply c :: (n.after c.event).replies cs

theorem kind_reply (c : Call α) : (n.reply c).kind = c.kind := by
  cases c <;> rfl

theorem kind_replies (cs : List (Call α)) : (n.replies cs).map Reply.kind = cs.map Call.kind := by
  induction cs generalizing n with
  | nil => rfl
  | cons c cs ih => rw [replies, List.map_cons, List.map_cons, kind_reply, ih]

theorem term_answerVote (args : VoteRequest) : (n.answerVote args).1.term ≤ max n.term args.term ∧
    (n.answerVote args).2.node.term ≤ max n.term args.term := by
  have hseen : (n.idle.observeTerm args.term).node.term = max n.term args.term :=
    Turn.observeTerm_term _ _
  unfold answerVote
  split
  · exact ⟨Nat.le_max_left _ _, Nat.le_max_left _ _⟩
  · dsimp only
    split
    · exact ⟨Nat.le_max_right _ _, Nat.le_max_right _ _⟩
    · exact ⟨Nat.le_of_eq hseen, Nat.le_of_eq hseen⟩

theorem term_answerAppend (args : AppendRequest α) :
    (n.answerAppend args).1.term ≤ max n.term args.term ∧
      (n.answerAppend args).2.node.term ≤ max n.term args.term := by
  rcases n.answerAppend_cases args with
    ⟨hearlier, hturn⟩ | ⟨hle, -, hturn⟩ | ⟨hle, log, start, -, hreply, ⟨-, hturn⟩ | ⟨-, hturn⟩⟩
  · rw [hturn]
    exact ⟨Nat.le_max_left _ _, Nat.le_max_left _ _⟩
  · rw [hturn]
    have hterm := Nat.le_of_eq (n.follow_term hle)
    exact ⟨Nat.le_max_right _ _, Nat.le_trans hterm (Nat.le_max_right _ _)⟩
  · rw [hturn, hreply]
    have hterm := Nat.le_of_eq (n.follow_term hle)
    exact ⟨Nat.le_max_right _ _, Nat.le_trans hterm (Nat.le_max_right _ _)⟩
  · rw [hturn, hreply]
    have hterm := Nat.le_of_eq (n.follow_term hle)
    exact ⟨Nat.le_max_right _ _, Nat.le_trans hterm (Nat.le_max_right _ _)⟩

/-- A node whose term is a word answers with words and keeps its term one. -/
theorem term_reply {c : Call α} (hn : n.term ≤ Term.last) (hc : c.term ≤ Term.last) :
    (n.reply c).WellFormed ∧ (n.after c.event).term ≤ Term.last := by
  have hmax : max n.term c.term ≤ Term.last := Nat.max_le.mpr ⟨hn, hc⟩
  cases c with
  | requestVote args =>
      obtain ⟨hreply, hterm⟩ := n.term_answerVote args
      exact ⟨Nat.le_trans hreply hmax, Nat.le_trans hterm hmax⟩
  | appendEntries args =>
      obtain ⟨hreply, hterm⟩ := n.term_answerAppend args
      exact ⟨Nat.le_trans hreply hmax, Nat.le_trans hterm hmax⟩

theorem term_replies {cs : List (Call α)} (hn : n.term ≤ Term.last)
    (hcs : ∀ c ∈ cs, c.term ≤ Term.last) : ∀ r ∈ n.replies cs, r.WellFormed := by
  induction cs generalizing n with
  | nil => nofun
  | cons c cs ih =>
      obtain ⟨hc, hlater⟩ := List.forall_mem_cons.mp hcs
      obtain ⟨hreply, hafter⟩ := n.term_reply hn hc
      exact List.forall_mem_cons.mpr ⟨hreply, ih _ hafter hlater⟩

end Node

namespace Server

/-- A server that answers calls, with a node whose term is a word. -/
structure Up (s : Server) : Prop where
  running : s.stopped = false
  term : s.engine.node.term ≤ Term.last

theorem carryOut_keeps (s : Server) (effects : List (Effect Command)) :
    (effects.foldl carryOut s).engine = s.engine ∧
      (effects.foldl carryOut s).stopped = s.stopped := by
  induction effects generalizing s with
  | nil => exact ⟨rfl, rfl⟩
  | cons e effects ih =>
      obtain ⟨hengine, hstopped⟩ := ih (s.carryOut e)
      rw [List.foldl_cons, hengine, hstopped]
      cases e with
      | arm timer epoch => cases timer <;> exact ⟨rfl, rfl⟩
      | _ => exact ⟨rfl, rfl⟩

/-- What an event makes of a server: its node handles the event, and the rest follows from that. -/
theorem process_event (s : Server) (e : Event Command) :
    (s.process (.event e)).2.engine.node = s.engine.node.after e ∧
      (s.process (.event e)).2.stopped = s.stopped := by
  obtain ⟨hengine, hstopped⟩ := carryOut_keeps
    { s with engine := (s.engine.settle (s.engine.node.handle e).2).1 }
    (s.engine.settle (s.engine.node.handle e).2).2
  exact ⟨(congrArg Engine.node hengine).trans (Engine.performAll_node _ _), hstopped⟩

/-- A call is answered by the node, and the node is then as the call leaves it. -/
theorem call_eq {s : Server} (hs : s.stopped = false) (c : Call Command) :
    ∃ s', s.call c = some (s.engine.node.reply c, s') ∧
      s'.engine.node = s.engine.node.after c.event ∧ s'.stopped = false := by
  have hup : ¬ s.stopped = true := by simp [hs]
  obtain ⟨hnode, hstopped⟩ := s.process_event c.event
  refine ⟨(s.process (.event c.event)).2, ?_, hnode, hstopped.trans hs⟩
  cases c with
  | requestVote args =>
      rw [call, if_neg hup]
      rfl
  | appendEntries args =>
      rw [call, if_neg hup]
      rfl

/-- So are calls that come one after the other. -/
theorem answerAll_eq {s : Server} (hs : s.stopped = false) (calls : List (Call Command)) :
    ∃ s', Connection.answerAll call s calls = some (s.engine.node.replies calls, s') ∧
      s'.engine.node = s.engine.node.afterAll (calls.map Call.event) := by
  induction calls generalizing s with
  | nil => exact ⟨s, rfl, rfl⟩
  | cons c calls ih =>
      obtain ⟨t, hreply, hnode, ht⟩ := call_eq hs c
      obtain ⟨u, hreplies, hlater⟩ := ih ht
      rw [hnode] at hreplies hlater
      refine ⟨u, ?_, hlater⟩
      rw [Connection.answerAll, hreply]
      simp [hreplies, Node.replies]

theorem runUntil_stopped {s : Server} (hs : s.stopped = true) (fuel time : Nat) :
    (s.runUntil fuel time).engine = s.engine ∧ (s.runUntil fuel time).store = s.store := by
  induction fuel generalizing s with
  | zero => exact ⟨rfl, rfl⟩
  | succ fuel ih =>
      rw [runUntil]
      split
      · exact ⟨rfl, rfl⟩
      · rename_i due i rest _
        split
        · dsimp only
          rw [if_pos hs]
          exact ih (s := { s with now := due, agenda := rest }) hs
        · exact ⟨rfl, rfl⟩

/-- A server that has been shut down answers nothing that comes in, and what is due passes without a
trace. -/
theorem shutdown_inert (s : Server) :
    (∀ stream, ∃ c, Connection.serve Command.read call s.shutdown stream =
      ⟨s.shutdown, [], c⟩) ∧
    ∀ fuel time, (s.shutdown.runUntil fuel time).engine = s.engine ∧
      (s.shutdown.runUntil fuel time).store = s.store := by
  have hnone (c : Call Command) : s.shutdown.call c = none := if_pos rfl
  constructor
  · exact fun stream => Connection.serve_unanswered fun _ c _ _ _ => hnone c
  · exact runUntil_stopped (s := s.shutdown) rfl

end Server

theorem Term.length_print_le {t : Term} (h : t ≤ Term.last) : t.toJson.print.length ≤ 20 := by
  have hprint : t.toJson.print = Json.decimal t := Json.Number.print_integer t
  rw [hprint, Json.decimal, List.length_map, Nat.length_toDigits_le_iff (by decide) (by decide)]
  exact Nat.lt_of_le_of_lt h (by decide)

theorem Json.length_print_bool (b : Bool) : (Json.bool b).print.length ≤ 5 := by
  cases b <;> decide

theorem Json.length_print_pair (k l : String) (v w : Json) :
    (Json.object [(k, v), (l, w)]).print.length = (Json.Quoted.print k).length + v.print.length +
      ((Json.Quoted.print l).length + w.print.length) + 5 := by
  simp only [Json.print, Json.printMembers, Json.commas, List.length_cons, List.length_append,
    List.length_nil]
  omega

theorem Reply.length_print_le {t : Term} (h : t ≤ Term.last) (label flag : String) (b : Bool) :
    (Json.object [("rpc", .string label), ("reply",
      .object [("term", t.toJson), (flag, .bool b)])]).print.length ≤
      (Json.Quoted.print label).length + (Json.Quoted.print flag).length + 53 := by
  have hterm := Term.length_print_le h
  have hflag := Json.length_print_bool b
  have hrpc : (Json.Quoted.print "rpc").length = 5 := by decide
  have hreply : (Json.Quoted.print "reply").length = 7 := by decide
  have hname : (Json.Quoted.print "term").length = 6 := by decide
  have hlabel : (Json.string label).print = Json.Quoted.print label := rfl
  rw [Json.length_print_pair, Json.length_print_pair, hlabel]
  omega

/-- A reply is short enough for a frame, and its nesting is fixed. -/
theorem Reply.exists_frame {r : Reply} (h : r.WellFormed) :
    ∃ frame, r.frame = .ok frame ∧ Frame.Carries Reply.read frame r := by
  have hlength : r.toJson.print.length ≤ Frame.maxLength := by
    cases r with
    | requestVote reply => exact Nat.le_trans (length_print_le h "requestVote" _ _) (by decide)
    | appendEntries reply =>
        exact Nat.le_trans (length_print_le h "appendEntries" _ _) (by decide)
  have hdepth : r.toJson.depth = 2 := by
    cases r <;> rfl
  have hread := Json.decodeText_print (Reply.reads h)
  rw [if_pos (hdepth ▸ by decide)] at hread
  have hwrite : r.frame = .ok _ := Frame.write_eq_ok.mpr ⟨hlength, rfl⟩
  exact ⟨_, hwrite, Frame.carries_of_write hwrite hread⟩

theorem Reply.exists_frames {replies : List Reply} (h : ∀ r ∈ replies, r.WellFormed) :
    ∃ sent, List.Forall₂ (fun r frame => r.frame = .ok frame) replies sent ∧
      List.Forall₂ (Frame.Carries Reply.read) sent replies := by
  induction replies with
  | nil => exact ⟨[], .nil, .nil⟩
  | cons r replies ih =>
      obtain ⟨hr, hlater⟩ := List.forall_mem_cons.mp h
      obtain ⟨frame, hframe, hcarries⟩ := Reply.exists_frame hr
      obtain ⟨sent, hsent, hread⟩ := ih hlater
      exact ⟨frame :: sent, .cons hframe hsent, .cons hcarries hread⟩

theorem Frame.Splits.term_le {α : Type} {command : Reader α} {stream rest : List UInt8}
    {frames : List (List UInt8)} {calls : List (Call α)}
    (h : Frame.Splits (Call.read command) stream frames calls rest) :
    ∀ c ∈ calls, c.term ≤ Term.last := by
  obtain ⟨-, hcarries, -⟩ := h
  induction hcarries with
  | nil => nofun
  | cons hc _ ih => exact List.forall_mem_cons.mpr ⟨hc.term_le, ih⟩

/-- An append call with a command that is nested too deep goes unanswered, with all that follows it
on the connection, and leaves no trace with the member it was sent to. -/
theorem deep_call_unanswered {m : AppendRequest Command} (hm : m.WellFormed Command.WellFormed)
    {e : Entry Command} (he : e ∈ m.entries)
    (hdeep : Json.Outline.depthLimit < e.command.toJson.depth + 4) {frame : List UInt8}
    (hwrite : (Call.appendEntries m).frame Command.toJson = .ok frame) (more : List UInt8)
    (s : Server) :
    ∃ c, Connection.serve Command.read Server.call s (frame ++ more) = ⟨s, [], c⟩ := by
  have hcall : Reads (Call.read Command.read) ((Call.appendEntries m).toJson Command.toJson)
      (.appendEntries m) := Call.reads (fun _ => Command.reads) hm
  have hbeyond : ¬ ((Call.appendEntries m).toJson Command.toJson).depth ≤
      Json.Outline.depthLimit := by
    rw [Call.depth_appendEntries_le_iff m (by decide)]
    exact fun hall => Nat.not_le_of_lt hdeep (hall e he)
  have hbroken := Frame.read_write hcall hwrite more
  rw [if_neg hbeyond] at hbroken
  refine Connection.serve_remainder (fun frame' c more' hstream hcarries => ?_) s
  have hread := hcarries.read_append more'
  rw [← hstream, hbroken] at hread
  cases hread

/-- A stream is taken apart in one way into as many complete frames with calls as it begins with,
and a remainder. In whatever pieces it arrives, the node handles exactly the calls of these frames,
in their order, and exactly its answers to them are sent, each of the kind of its call; the other
side reads them back. Values of any type that are read back from their text are read back from a
stream of their frames. -/
theorem frames_answered :
    (∀ s : Server, s.Up → ∀ chunks : List (List UInt8), ∃ frames calls rest,
      Frame.Splits (Call.read Command.read) chunks.flatten frames calls rest ∧
      (∀ frames' calls' rest',
        Frame.Splits (Call.read Command.read) chunks.flatten frames' calls' rest' →
          frames' = frames ∧ calls' = calls ∧ rest' = rest) ∧
      ∃ replies s' c sent,
        Connection.fresh.receiveAll Command.read Server.call s chunks = ⟨s', replies, c⟩ ∧
        Connection.answerAll Server.call s calls = some (replies, s') ∧
        replies = s.engine.node.replies calls ∧
        s'.engine.node = s.engine.node.afterAll (calls.map Call.event) ∧
        replies.map Reply.kind = calls.map Call.kind ∧
        List.Forall₂ (fun r frame => r.frame = .ok frame) replies sent ∧
        Frame.readAll Reply.read sent.flatten = (replies, .io .unexpectedEnd)) ∧
    ∀ (β : Type) (r : Reader β) (toJson : β → Json) (vs : List β) (frames : List (List UInt8)),
      List.Forall₂ (fun v frame => Frame.write (toJson v) = .ok frame) vs frames →
      (∀ v ∈ vs, Json.decodeText r (toJson v).print = .ok v) →
      Frame.readAll r frames.flatten = (vs, .io .unexpectedEnd) := by
  refine ⟨?_, ?_⟩
  · intro s hs chunks
    obtain ⟨frames, calls, rest, hsplit⟩ :=
      Frame.exists_splits (Call.read Command.read) chunks.flatten
    obtain ⟨s', hall, hnode⟩ := Server.answerAll_eq hs.running calls
    obtain ⟨sent, hsent, hread⟩ :=
      Reply.exists_frames (s.engine.node.term_replies hs.term hsplit.term_le)
    obtain ⟨c, hserve⟩ := Connection.serve_splits hsplit hall
    refine ⟨frames, calls, rest, hsplit, fun _ _ _ => hsplit.unique, _, s', c, sent, ?_, hall,
      rfl, hnode, s.engine.node.kind_replies calls, hsent, Frame.readAll_flatten hread⟩
    rw [Connection.receiveAll_fresh, hserve]
  · intro β r toJson vs frames hwrite hread
    refine Frame.readAll_flatten ?_
    induction hwrite with
    | nil => exact .nil
    | cons hv _ ih =>
        obtain ⟨hhead, hlater⟩ := List.forall_mem_cons.mp hread
        exact .cons (Frame.carries_of_write hv hhead) (ih hlater)

/-- A follower in a cluster of three. -/
def listening : Server :=
  { me := 0, members := [], electionTimeout := 150, heartbeatInterval := 50
    engine := (Engine.start 0 3).1, store := .empty, now := 0, agenda := [], stopped := false }

/-- A member asks for a vote in term one. -/
def voteAsked (p : PeerId) : Call Command :=
  .requestVote ⟨1, p, LogIndex.absent, 0⟩

def voteAskedFrame (p : PeerId) : List UInt8 :=
  let body := ((voteAsked p).toJson Command.toJson).print
  Frame.header body.length ++ body

/-- The bytes come in two pieces, with the beginning of another frame at their end. -/
def twoCalls : List (List UInt8) :=
  [(voteAskedFrame 1).take 7, (voteAskedFrame 1).drop 7 ++ voteAskedFrame 2 ++ [0, 0]]

theorem voteAsked_read {p : PeerId} (hp : p = 1 ∨ p = 2) :
    Frame.write ((voteAsked p).toJson Command.toJson) = .ok (voteAskedFrame p) ∧
      Json.decodeText (Call.read Command.read) ((voteAsked p).toJson Command.toJson).print =
        .ok (voteAsked p) := by
  have hasked : (voteAsked p).WellFormed Command.WellFormed := by
    rcases hp with rfl | rfl <;> exact ⟨by decide, by decide, by decide, by decide⟩
  constructor
  · refine Frame.write_eq_ok.mpr ⟨?_, rfl⟩
    rcases hp with rfl | rfl <;> decide +kernel
  · have hdepth : ((voteAsked p).toJson Command.toJson).depth ≤ Json.Outline.depthLimit := by
      rcases hp with rfl | rfl <;> decide
    rw [Json.decodeText_print (Call.reads (fun _ => Command.reads) hasked), if_pos hdepth]

theorem twoCalls_splits :
    Frame.Splits (Call.read Command.read) twoCalls.flatten [voteAskedFrame 1, voteAskedFrame 2]
      [voteAsked 1, voteAsked 2] [0, 0] where
  cover := by
    simp only [twoCalls, List.flatten_cons, List.flatten_nil, List.append_nil, ← List.append_assoc,
      List.take_append_drop]
  carries := by
    obtain ⟨hwrite, hread⟩ := voteAsked_read (Or.inl rfl)
    obtain ⟨hwrite', hread'⟩ := voteAsked_read (Or.inr rfl)
    exact .cons (Frame.carries_of_write hwrite hread)
      (.cons (Frame.carries_of_write hwrite' hread') .nil)
  longest := by
    intro frame c more hrest hframe
    have hread := hframe.read_append more
    rw [← hrest] at hread
    cases hread

/-- Two members ask for a vote, one after the other, and the first one gets it. -/
theorem frames_answered_twoCalls :
    listening.Up ∧
    (∃ replies s' c,
      Connection.fresh.receiveAll Command.read Server.call listening twoCalls =
        ⟨s', replies, c⟩ ∧
      replies = [.requestVote ⟨1, true⟩, .requestVote ⟨1, false⟩] ∧
      s'.engine.node.term = 1 ∧ s'.engine.node.votedFor = some 1) ∧
    (∀ p ∈ [1, 2], Frame.write ((voteAsked p).toJson Command.toJson) = .ok (voteAskedFrame p) ∧
      Json.decodeText (Call.read Command.read) ((voteAsked p).toJson Command.toJson).print =
        .ok (voteAsked p)) ∧
    Frame.readAll (Call.read Command.read) (voteAskedFrame 1 ++ voteAskedFrame 2) =
      ([voteAsked 1, voteAsked 2], .io .unexpectedEnd) := by
  have hup : listening.Up := ⟨rfl, by decide⟩
  obtain ⟨hwrite, hread⟩ := voteAsked_read (Or.inl rfl)
  obtain ⟨hwrite', hread'⟩ := voteAsked_read (Or.inr rfl)
  obtain ⟨frames, calls, rest, -, hunique, replies, s', c, sent, hreceive, -, hreplies, hnode, -⟩ :=
    frames_answered.1 listening hup twoCalls
  obtain ⟨-, rfl, -⟩ := hunique _ _ _ twoCalls_splits
  have hsequence := frames_answered.2 (Call Command) (Call.read Command.read)
    (Call.toJson Command.toJson) [voteAsked 1, voteAsked 2] [voteAskedFrame 1, voteAskedFrame 2]
    (.cons hwrite (.cons hwrite' .nil))
    (List.forall_mem_cons.mpr ⟨hread, List.forall_mem_singleton.mpr hread'⟩)
  refine ⟨hup, ⟨replies, s', c, hreceive, hreplies.trans (by decide), congrArg Node.term hnode,
    congrArg Node.votedFor hnode⟩, ?_, hsequence⟩
  exact List.forall_mem_cons.mpr
    ⟨⟨hwrite, hread⟩, List.forall_mem_singleton.mpr ⟨hwrite', hread'⟩⟩

end Quorum
