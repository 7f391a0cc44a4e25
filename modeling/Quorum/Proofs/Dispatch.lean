import Quorum.Proofs.Promptness

/-!
What a leader sends. Its cursors point into its log, and every append call is the piece of the log
that follows the cursor of its recipient: a heartbeat carries all of it, a call that seeks agreement
at least the entry in question. A follower may therefore commit what it is told to, as far as the
leader's own log goes.
-/

namespace Quorum

variable {α : Type}

namespace AppendRequest

/-- The index of the last entry that a call carries, or else of the one that it names. -/
def last (args : AppendRequest α) : LogIndex := args.prevLogIndex + args.entries.length

/-- A call describes a log from the index `next` on: it names the entry before it and carries what
follows through its last index. That is the end of the log for a heartbeat and no earlier than the
entry sought for any other call, and it is not before the commit index. -/
structure Describes (args : AppendRequest α) (context : AppendContext) (log : Log α)
    (next : LogIndex) : Prop where
  prev : args.prevLogIndex = next - 1
  prevTerm : args.prevLogTerm = log.termAt? args.prevLogIndex
  noTerm : args.prevLogTerm = none ↔ args.prevLogIndex = LogIndex.absent
  entries : args.entries = log.slice (args.prevLogIndex + 1) args.last
  lastSent : context.lastSent = if args.entries = [] then none else some args.last
  heartbeat : context.round = .heartbeat → args.last = log.lastIndex
  agreement : ∀ i cursor, context.round = .replicate i cursor → i ≤ args.last
  commit : args.leaderCommit ≤ log.lastIndex → args.leaderCommit ≤ args.last

end AppendRequest

namespace Log

/-- A slice ends where its entries end. -/
theorem slice_through_end {log : Log α} {i : LogIndex} (hi : 0 ≤ i) (j : LogIndex) :
    log.slice i (i - 1 + (log.slice i j).length) = log.slice i j := by
  have hlength := log.length_slice_eq i j
  unfold slice at hlength ⊢
  rw [List.drop_take, List.drop_take, List.take_eq_take_iff]
  rw [List.drop_take] at hlength
  rw [List.length_drop]
  lia

theorem exists_termAt? {log : Log α} {i : LogIndex} (hi : 0 ≤ i) (hlt : i < log.length) :
    ∃ t, log.termAt? i = some t := by
  have hget : i.toNat < log.length := by lia
  refine ⟨log[i.toNat].term, ?_⟩
  simp [termAt?, entryAt?, hi, hget]

end Log

namespace Node

variable {n m : Node α}

theorem callFrom_describes {next last : LogIndex} {round : Round} (hzero : 0 ≤ next)
    (hle : next ≤ n.log.length) (hlast : min (n.commitIndex + 1) n.log.lastIndex ≤ last)
    (hbeat : round = .heartbeat → last = n.log.lastIndex)
    (hsought : ∀ i cursor, round = .replicate i cursor →
      i < n.log.length ∧ i ≤ n.commitIndex + 1) :
    (n.callFrom next last).Describes
      (.ofCall n.generation round next (n.log.slice next last)) n.log next := by
  have hprev : (n.callFrom next last).prevLogIndex = next - 1 := LogIndex.prev_of_nonneg hzero
  have hlength : ((n.log.slice next last).length : Int) =
      (min (last + 1).toNat n.log.length - next.toNat : Nat) := by
    rw [Log.length_slice_eq]
  have hend : (n.callFrom next last).last = next - 1 + (n.log.slice next last).length := by
    unfold AppendRequest.last
    rw [hprev]
    rfl
  have hlog : n.log.lastIndex = (n.log.length : Int) - 1 := rfl
  refine ⟨hprev, rfl, ?_, ?_, ?_, ?_, ?_, ?_⟩
  · rw [hprev]
    change n.log.termAt? next.prev = none ↔ next - 1 = -1
    rw [LogIndex.prev_of_nonneg hzero]
    constructor
    · intro hnone
      by_contra hsome
      obtain ⟨t, ht⟩ := n.log.exists_termAt? (i := next - 1) (by lia) (by lia)
      rw [ht] at hnone
      cases hnone
    · intro hfirst
      simp [Log.termAt?, Log.entryAt?, hfirst]
  · rw [hprev, hend, Int.sub_add_cancel]
    exact (Log.slice_through_end hzero last).symm
  · change (if n.log.slice next last = [] then none else some _) =
      if n.log.slice next last = [] then none else some _
    rw [hend]
    have hsame : (next.toNat + (n.log.slice next last).length - 1 : Int) =
        next - 1 + (n.log.slice next last).length := by lia
    rw [hsame]
  · intro hround
    have hall := hbeat hround
    rw [hend, hlength]
    lia
  · intro i cursor hround
    obtain ⟨hi, hnear⟩ := hsought i cursor hround
    rw [hend, hlength]
    lia
  · intro hcommit
    change n.commitIndex ≤ n.log.lastIndex at hcommit
    change n.commitIndex ≤ _
    rw [hend, hlength]
    lia

/-- What a leader sends describes its log, if agreement is sought on entries that it holds. -/
theorem Sends.describes {ask : PeerId → LogIndex → LogIndex → Prop} {peer : PeerId}
    {context : AppendContext} {args : AppendRequest α} (h : n.Sends ask peer context args)
    (hfit : n.CursorsFit) (hask : ∀ p j k, ask p j k → j < n.log.length ∧ j ≤ k + 1) :
    ∃ lead cursor, n.role = .leader lead ∧ lead.cursors[peer]? = some cursor ∧
      args.Describes context n.log cursor.next := by
  cases h with
  | heartbeat hpeer hrole hnext =>
      obtain ⟨cursor, hcursor, rfl⟩ := Leadership.cursor_of_next? hnext
      obtain ⟨hzero, hle⟩ := hfit _ hrole peer cursor hcursor
      refine ⟨_, cursor, hrole, hcursor, ?_⟩
      apply callFrom_describes hzero hle (Int.min_le_right _ _) (fun _ => rfl)
      intro i cursor hround
      cases hround
  | replicate hasked hrole hnext =>
      obtain ⟨cursor, hcursor, rfl⟩ := Leadership.cursor_of_next? hnext
      obtain ⟨hzero, hle⟩ := hfit _ hrole peer cursor hcursor
      refine ⟨_, cursor, hrole, hcursor, ?_⟩
      apply callFrom_describes hzero hle (Int.le_refl _)
      · intro hround
        cases hround
      · intro i back hround
        obtain ⟨rfl, -⟩ := Round.replicate.inj hround
        exact hask _ _ _ hasked

end Node

namespace Run

variable {rule : Rule α} {size : Nat} {c c' : Cluster α} {past : List (Cluster α)} {i : PeerId}
  {n : Node α} {e : Event α}

/-- An answer that a leader counts tells of an entry that it still holds. -/
theorem lastSent_stored (h : Run unrepeated size c past) (hact : c.Acts i n e c')
    {sender : PeerId} {context : AppendContext} {reply : AppendReply} {k : LogIndex}
    (he : e = .appendReturned sender context (some reply)) (hleader : n.isLeader)
    (hgen : context.generation = n.generation) (hlast : context.lastSent = some k) :
    0 ≤ k ∧ k < n.log.length := by
  subst he
  cases hact.cause with
  | appendReturned hp =>
      obtain ⟨args, hasked, -⟩ := h.counting.reply _ _ _ _ hp
      have hlt := h.measured.sent _ hp i context rfl n hact.node hleader hgen k hlast
      exact ⟨(hasked.claims k (Or.inl hlast)).1, hlt⟩

/-- The cursors of leaders point into their logs, as long as leaders can tell their calls apart. -/
theorem cursorsFit (h : Run unrepeated size c past) :
    ∀ (i : PeerId) (n : Node α), c.nodes[i]? = some n → n.CursorsFit := by
  refine h.invariant (P := fun c _ =>
    ∀ (i : PeerId) (n : Node α), c.nodes[i]? = some n → n.CursorsFit) ?_ ?_ ?_
  · intro i n hn lead hlead
    obtain ⟨-, rfl⟩ := Cluster.fresh_node hn
    cases hlead
  · intro c past c' _ ih hrest i n hn
    rw [hrest.nodes] at hn
    exact ih i n hn
  · intro c past j k e c' hrun ih hact _ i n hn
    rcases hact.node_cases hn with ⟨rfl, rfl⟩ | ⟨-, hold⟩
    · exact (ih i k hact.node).after fun _ _ _ _ he hleader hgen hlast =>
        hrun.lastSent_stored hact he hleader hgen hlast
    · exact ih i n hold

theorem cursorsFit_after (h : Run unrepeated size c past) (hact : c.Acts i n e c') :
    (n.after e).CursorsFit :=
  (h.cursorsFit i n hact.node).after fun _ _ _ _ he hleader hgen hlast =>
    h.lastSent_stored hact he hleader hgen hlast

/-- A match index is that of an entry, or of none. -/
theorem absent_le_matched (h : Run rule size c past) :
    ∀ (i : PeerId) (n : Node α), c.nodes[i]? = some n → ∀ l, n.role = .leader l →
      ∀ (p : PeerId) cursor, l.cursors[p]? = some cursor → LogIndex.absent ≤ cursor.matched := by
  refine h.invariant (P := fun c _ =>
    ∀ (i : PeerId) (n : Node α), c.nodes[i]? = some n → ∀ l, n.role = .leader l →
      ∀ (p : PeerId) cursor, l.cursors[p]? = some cursor → LogIndex.absent ≤ cursor.matched)
    ?_ ?_ ?_
  · intro i n hn l hl
    obtain ⟨-, rfl⟩ := Cluster.fresh_node hn
    cases hl
  · intro c past c' _ ih hrest i n hn
    rw [hrest.nodes] at hn
    exact ih i n hn
  · intro c past j k e c' _ ih hact _ i n hn l hl p cursor hcursor
    rcases hact.node_cases hn with ⟨rfl, rfl⟩ | ⟨-, hold⟩
    · rcases Node.matched_after hl hcursor with habsent | ⟨lead, old, hlead, hold, hmatched⟩
      · exact Int.le_of_eq habsent.symm
      · have hbefore := ih i k hact.node lead hlead p old hold
        rcases hmatched with hsame | ⟨context, reply, v, -, -, -, -, hmax⟩
        · rw [hsame]
          exact hbefore
        · rw [hmax]
          exact Int.le_trans hbefore (Int.le_max_left _ _)
    · exact ih i n hold l hl p cursor hcursor

/-- Whatever an event makes a node send describes the log with which it leads afterwards, from where
the cursor of the recipient is then. -/
theorem describes (h : Run unrepeated size c past) (hact : c.Acts i n e c') {peer : PeerId}
    {context : AppendContext} {args : AppendRequest α}
    (hsent : .appendEntries peer context args ∈ (n.handle e).2.actions) :
    ∃ lead cursor, (n.after e).role = .leader lead ∧ lead.cursors[peer]? = some cursor ∧
      args.Describes context (n.after e).log cursor.next := by
  obtain ⟨m, hm, -, hsends⟩ := h.counting.sends_after h hact hsent
  have hleader : (n.after e).isLeader := hsends.isLeader hm
  have hlog := Node.standing_log hm
  have hfit : m.CursorsFit := (h.cursorsFit_after hact).of_standing hm
  obtain ⟨l, cursor, hl, hcursor, hdescribes⟩ := hsends.describes hfit <| by
    rintro p j k ⟨-, hstores, hnear⟩
    rw [hlog]
    exact ⟨(hstores hleader).2, hnear⟩
  obtain ⟨lead, hlead⟩ := Node.exists_lead hleader
  rw [Node.standing_cursors hm hl hlead] at hcursor
  rw [hlog] at hdescribes
  exact ⟨lead, cursor, hlead, hcursor, hdescribes⟩

end Run

/-- Every append call describes its sender's log, as long as no generation counter starts over. A
leader's cursors point into its log, its match indices are those of entries that it has, and it has
none for itself; and whatever move comes next, each call sent in it is the piece of the sender's log
that follows the cursor of the recipient. -/
theorem calls_describe_log {size : Nat} {c : Cluster α} {past : List (Cluster α)}
    (h : Run unwrapped size c past) :
    (∀ (i : PeerId) (n : Node α) (l : Leadership), c.nodes[i]? = some n → n.role = .leader l →
      l.cursors.length = size ∧ l.matched? i = some LogIndex.absent ∧
        ∀ (p : PeerId) cursor, l.cursors[p]? = some cursor →
          0 ≤ cursor.next ∧ cursor.next ≤ n.log.length ∧
            LogIndex.absent ≤ cursor.matched ∧ cursor.matched ≤ n.log.lastIndex) ∧
    ∀ (move : Move α) (i : PeerId) (n : Node α) (e : Event α),
      c.event? move = some (i, e) → c.nodes[i]? = some n →
        ∀ peer context args, .appendEntries peer context args ∈ (n.handle e).2.actions →
          ∃ l cursor, (n.after e).role = .leader l ∧ l.cursors[peer]? = some cursor ∧
            args.Describes context (n.after e).log cursor.next := by
  have hcount := h.unrepeated_of_unwrapped
  constructor
  · intro i n l hn hl
    obtain ⟨hi, hid, hsize⟩ := h.seat i n hn
    have hlength : l.cursors.length = size := ((hcount.prompt i n hn) l hl).1.trans hsize
    refine ⟨hlength, ?_, ?_⟩
    · have hown := List.getElem?_eq_getElem (hlength ▸ hi)
      have hnone := (hcount.counting.ledger i n hn l hl).own _ hown
      unfold Leadership.matched?
      rw [hown, ← hnone]
      rfl
    · intro p cursor hcursor
      obtain ⟨hzero, hle⟩ := hcount.cursorsFit i n hn l hl p cursor hcursor
      have hmem := Leadership.mem_matchIndices.mpr ⟨p, cursor, hcursor, rfl⟩
      have hlt := hcount.measured.matched i n hn l hl _ hmem
      have hlast : n.log.lastIndex = (n.log.length : Int) - 1 := rfl
      exact ⟨hzero, hle, h.absent_le_matched i n hn l hl p cursor hcursor, by lia⟩
  · intro move i n e hevent hn peer context args hsent
    rcases c.play_cases move with ⟨-, hnone⟩ | ⟨j, k, e', hevent', hact⟩
    · rw [hnone (i, e) hevent] at hn
      cases hn
    · obtain ⟨rfl, rfl⟩ := Prod.mk.inj (Option.some.inj (hevent.symm.trans hevent'))
      obtain rfl := Option.some.inj (hn.symm.trans hact.node)
      exact hcount.describes hact hsent

/-- The heartbeat that follows is the whole log for the member that does not have it yet. -/
theorem calls_describe_log_acceptedEntry :
    ∃ n l, ((Cluster.fresh 3).course [] acceptedEntry).1.nodes[0]? = some n ∧
      n.role = .leader l ∧ l.matched? 0 = some (-1) ∧
      ∃ context args, .appendEntries 2 context args ∈ (n.handle .heartbeatTimeout).2.actions ∧
        args.entries = [⟨1, 10⟩] ∧ ∃ l' cursor, (n.after .heartbeatTimeout).role = .leader l' ∧
          l'.cursors[2]? = some cursor ∧
            args.Describes context (n.after .heartbeatTimeout).log cursor.next := by
  have hrun : Run unwrapped 3 ((Cluster.fresh 3).course [] acceptedEntry).1
      ((Cluster.fresh 3).course [] acceptedEntry).2 := .course .start (by decide)
  obtain ⟨hkept, hsent⟩ := calls_describe_log hrun
  obtain ⟨n, hn⟩ : ∃ n, ((Cluster.fresh 3).course [] acceptedEntry).1.nodes[0]? = some n :=
    ⟨_, rfl⟩
  have hcall : .appendEntries 2 ⟨2, .heartbeat, some 0⟩ ⟨1, 0, -1, none, [⟨1, 10⟩], -1⟩ ∈
      (n.handle .heartbeatTimeout).2.actions := by
    obtain rfl := Option.some.inj hn
    decide
  obtain ⟨l, hl⟩ : ∃ l, n.role = .leader l := by
    obtain rfl := Option.some.inj hn
    exact ⟨_, rfl⟩
  exact ⟨n, l, hn, hl, (hkept 0 n l hn hl).2.1, _, _, hcall, rfl,
    hsent (.heartbeatTimeout 0) 0 n .heartbeatTimeout rfl hn _ _ _ hcall⟩

/-- Generations may not start over. Once the first member leads again in the generation of its first
leadership, the word of `11` raises a match index and a cursor beyond its log. -/
theorem cursors_beyond_log : ¬ ∀ (size : Nat) (c : Cluster Nat) (past : List (Cluster Nat)),
    Run (fun _ _ _ => True) size c past → ∀ (i : PeerId) (n : Node Nat) (l : Leadership),
      c.nodes[i]? = some n → n.role = .leader l →
        ∀ (p : PeerId) cursor, l.cursors[p]? = some cursor →
          cursor.next ≤ n.log.length ∧ cursor.matched ≤ n.log.lastIndex := by
  intro hwithin
  have hrun : Run (fun _ _ _ => True) 4 ((Cluster.fresh 4).course [] shortenedLog).1
      ((Cluster.fresh 4).course [] shortenedLog).2 := .course .start (by decide)
  -- The member stands until one more candidacy is that of its first generation again.
  obtain ⟨before, hwrapped, -⟩ := hrun.stand_often (i := 0) rfl (by decide) (by decide)
    (fun _ _ _ => trivial) (Term.last - 4 + 1)
  rw [Node.stood_iterate (by decide)] at hwrapped
  have hlast := hwrapped.course (show Cluster.AllObey _ _
    [.electionTimeout 0, .deliver 31, .deliver 32, .deliver 34, .deliver 35, .deliver 14]
      by decide)
  have hreached := hwithin 4 _ _ hlast 0 _ _ rfl rfl 1 _ rfl
  exact absurd hreached (by decide)

end Quorum
