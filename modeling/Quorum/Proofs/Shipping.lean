import Quorum.Proofs.Election
import Quorum.Proofs.Reign

/-!
What is in flight between a leader and the others. Every append call carries a piece of the log
that its sender had as the leader of the call's term, and the cursors of a leader stay within its
log.
-/

namespace Quorum

variable {α : Type}

/-- At some moment the member `i` led the term `T` with the log `L`. -/
def Led (ds : List (Cluster α)) (T : Term) (i : PeerId) (L : Log α) : Prop :=
  ∃ d ∈ ds, ∃ n, d.nodes[i]? = some n ∧ n.isLeader ∧ n.term = T ∧ n.log = L

theorem Led.mono {ds es : List (Cluster α)} {T : Term} {i : PeerId} {L : Log α}
    (h : Led ds T i L) (hsub : ds ⊆ es) : Led es T i L := by
  obtain ⟨d, hd, hled⟩ := h
  exact ⟨d, hsub hd, hled⟩

theorem Led.cons {ds : List (Cluster α)} {c : Cluster α} {T : Term} {i : PeerId} {L : Log α}
    (h : Led ds T i L) : Led (c :: ds) T i L :=
  h.mono (List.subset_cons_self _ _)

/-- A call carries entries of the log `L` from the position `start` on, and names the entry before
them. -/
structure AppendRequest.PieceOf (args : AppendRequest α) (L : Log α) (start : Nat) : Prop where
  start_le : start ≤ L.length
  prev : args.prevLogIndex = (start : Int) - 1
  prevTerm : args.prevLogTerm = L.termAt? args.prevLogIndex
  entries : args.entries <+: L.drop start

/-- The number of entries that whoever accepts a call agrees with its sender on. -/
def AppendRequest.reach (args : AppendRequest α) (start : Nat) : Nat :=
  start + args.entries.length

theorem AppendRequest.PieceOf.reach_le {args : AppendRequest α} {L : Log α} {start : Nat}
    (h : args.PieceOf L start) : args.reach start ≤ L.length := by
  have hlength := h.entries.length_le
  have hstart := h.start_le
  rw [List.length_drop] at hlength
  unfold AppendRequest.reach
  omega

/-- The index named as the last one sent is the last one within reach, and in the log. -/
theorem AppendRequest.PieceOf.last_of_lastSent {args : AppendRequest α} {L : Log α} {start : Nat}
    {k : LogIndex} (h : args.PieceOf L start)
    (hk : (if args.entries = [] then none else some ((args.reach start : Int) - 1)) = some k) :
    args.entries ≠ [] ∧ k = (args.reach start : Int) - 1 ∧ 0 ≤ k ∧ k < L.length := by
  have hreach := h.reach_le
  split at hk
  · cases hk
  · rename_i hentries
    have hpos := List.length_pos_iff.mpr hentries
    have hdef : args.reach start = start + args.entries.length := rfl
    obtain rfl := Option.some.inj hk
    refine ⟨hentries, rfl, ?_, ?_⟩
    · lia
    · lia

/-- A call that the member `s` has made of the member `r` with the log `L` in hand. While the
sender has not moved on, that log is still the beginning of its own. -/
structure Cluster.Sent (c : Cluster α) (ds : List (Cluster α)) (s r : PeerId)
    (context : AppendContext) (args : AppendRequest α) (L : Log α) (start : Nat) : Prop where
  other : s ≠ r
  led : Led ds args.term s L
  piece : args.PieceOf L start
  lastSent : context.lastSent =
    if args.entries = [] then none else some ((args.reach start : Int) - 1)
  sender : ∃ n, c.nodes[s]? = some n ∧ context.generation ≤ n.generation ∧
    (context.generation = n.generation → n.isLeader ∧ n.term = args.term ∧ L <+: n.log)

namespace Cluster.Sent

variable {c c' : Cluster α} {ds : List (Cluster α)} {s r : PeerId} {context : AppendContext}
  {args : AppendRequest α} {L : Log α} {start : Nat}

theorem rest (h : c.Sent ds s r context args L start) (hrest : c.Rests c') :
    c'.Sent (c' :: ds) s r context args L start :=
  ⟨h.other, h.led.cons, h.piece, h.lastSent, by rw [hrest.nodes]; exact h.sender⟩

theorem act (h : c.Sent ds s r context args L start) {i : PeerId} {n : Node α} {e : Event α}
    (hact : c.Acts i n e c') (hrange : inRange c n e) :
    c'.Sent (c' :: ds) s r context args L start where
  other := h.other
  led := h.led.cons
  piece := h.piece
  lastSent := h.lastSent
  sender := by
    obtain ⟨k, hk, hle, hcurrent⟩ := h.sender
    obtain ⟨m, hm, hbefore⟩ := hact.before hrange hk
    refine ⟨m, hm, Nat.le_trans hle hbefore.generation_le, ?_⟩
    intro hgen
    have hmono := hbefore.generation_le
    have hsame : m.generation = k.generation := by lia
    obtain ⟨hleader, hterm, hL⟩ := hcurrent (by lia)
    have hm : m.isLeader := by
      unfold Node.isLeader at hleader ⊢
      rw [Role.isLeader_iff] at hleader ⊢
      rw [hbefore.kind_eq hsame, hleader]
    exact ⟨hm, (hbefore.term_eq hsame).trans hterm, hL.trans (hbefore.leader_log hsame hm)⟩

/-- The last entry that a call carries is the last one within its reach. -/
theorem last_of_lastSent (h : c.Sent ds s r context args L start) {k : LogIndex}
    (hk : context.lastSent = some k) :
    args.entries ≠ [] ∧ k = (args.reach start : Int) - 1 ∧ 0 ≤ k ∧ k < L.length :=
  h.piece.last_of_lastSent (h.lastSent.symm.trans hk)

/-- Entries that a sender has not moved on from are still in its log. -/
theorem lastSent_lt (h : c.Sent ds s r context args L start) {n : Node α}
    (hn : c.nodes[s]? = some n) (hgen : context.generation = n.generation) {k : LogIndex}
    (hk : context.lastSent = some k) : 0 ≤ k ∧ k < n.log.length := by
  obtain ⟨m, hm, -, hcurrent⟩ := h.sender
  obtain rfl : n = m := Option.some.inj (hn.symm.trans hm)
  obtain ⟨-, -, hL⟩ := hcurrent hgen
  obtain ⟨-, -, hzero, hlt⟩ := h.last_of_lastSent hk
  have hlength := hL.length_le
  exact ⟨hzero, by lia⟩

end Cluster.Sent

namespace Leadership

variable {l : Leadership} {p s : PeerId} {k next : LogIndex} {cursor : Cursor}

theorem cursor_of_next? (h : l.next? p = some next) :
    ∃ cursor, l.cursors[p]? = some cursor ∧ cursor.next = next :=
  Option.map_eq_some_iff.mp h

theorem cursor_fresh {size length : Nat} (h : (fresh size length).cursors[p]? = some cursor) :
    cursor = ⟨(length : Int), LogIndex.absent⟩ := by
  have hmem := List.mem_of_getElem? h
  exact List.eq_of_mem_replicate hmem

theorem cursor_recordSuccess (h : (l.recordSuccess s k).cursors[p]? = some cursor) :
    ∃ old, l.cursors[p]? = some old ∧
      (p = s ∧ cursor = ⟨k.next, max old.matched k⟩ ∨ p ≠ s ∧ cursor = old) := by
  unfold recordSuccess at h
  rw [List.getElem?_modify] at h
  obtain ⟨old, hold, hcursor⟩ := Option.map_eq_some_iff.mp h
  refine ⟨old, hold, ?_⟩
  split at hcursor
  · rename_i hp
    exact Or.inl ⟨hp.symm, hcursor.symm⟩
  · rename_i hp
    exact Or.inr ⟨Ne.symm hp, hcursor.symm⟩

theorem cursor_recordFailure (h : (l.recordFailure s).cursors[p]? = some cursor) :
    ∃ old, l.cursors[p]? = some old ∧ cursor.matched = old.matched ∧
      (cursor.next = old.next ∨ 0 < old.next ∧ cursor.next = old.next - 1) := by
  unfold recordFailure at h
  rw [List.getElem?_modify] at h
  obtain ⟨old, hold, hcursor⟩ := Option.map_eq_some_iff.mp h
  refine ⟨old, hold, ?_⟩
  subst hcursor
  split
  · split
    · rename_i hpos
      exact ⟨rfl, Or.inr ⟨hpos, LogIndex.prev_of_nonneg (Int.le_of_lt hpos)⟩⟩
    · exact ⟨rfl, Or.inl rfl⟩
  · exact ⟨rfl, Or.inl rfl⟩

/-- With the acceptance of a call recorded. -/
def recorded (l : Leadership) (p : PeerId) (context : AppendContext) : Leadership :=
  match context.lastSent with
  | some k => l.recordSuccess p k
  | none => l

theorem recorded_width (l : Leadership) (p : PeerId) (context : AppendContext) :
    (l.recorded p context).cursors.length = l.cursors.length := by
  unfold recorded
  split
  · exact List.length_modify _ _ _
  · rfl

theorem recorded_cursor_other (hp : p ≠ s) (l : Leadership) (context : AppendContext) :
    (l.recorded s context).cursors[p]? = l.cursors[p]? := by
  unfold recorded
  split
  · unfold recordSuccess
    simp [Ne.symm hp]
  · rfl

end Leadership

theorem Node.standing_cursors {n m : Node α} {l l' : Leadership} (h : n.standing = m.standing)
    (hn : n.role = .leader l) (hm : m.role = .leader l') : l.cursors = l'.cursors := by
  have hrole := Node.standing_role h
  rw [hn, hm] at hrole
  simp only [Role.bare, Role.leader.injEq, Leadership.mk.injEq] at hrole
  exact hrole.1

/-- The cursors of a leader stay within its log. -/
def Node.CursorsFit (n : Node α) : Prop :=
  ∀ lead, n.role = .leader lead → ∀ (p : PeerId) cursor, lead.cursors[p]? = some cursor →
    0 ≤ cursor.next ∧ cursor.next ≤ n.log.length

/-- What is in flight between leaders and the others, and what leaders keep of it. -/
structure Cluster.Shipping (c : Cluster α) (ds : List (Cluster α)) : Prop where
  cursor : ∀ (i : PeerId) n, c.nodes[i]? = some n → n.CursorsFit
  request : ∀ s r context args, .appendRequest s r context args ∈ c.packets →
    ∃ L start, c.Sent ds s r context args L start
  reply : ∀ r s context reply, .appendReply r s context (some reply) ∈ c.packets →
    ∃ args L start, c.Sent ds s r context args L start

namespace Node

variable {n m : Node α} {lead lead' : Leadership}

theorem record_role (hn : n.role = .leader lead) (p : PeerId) (context : AppendContext) :
    (n.idle.record p context).node.role = .leader (lead.recorded p context) := by
  unfold Turn.record Leadership.recorded
  cases context.lastSent with
  | none => exact hn
  | some k => exact Turn.mapLead_role hn _

/-- Of the cursors an acceptance changes nothing but what is recorded. -/
theorem appendAccepted_lead (hn : n.role = .leader lead) (p : PeerId) (context : AppendContext) :
    ∃ l, (appendAccepted n.idle p context).node.role = .leader l ∧
      l.cursors = (lead.recorded p context).cursors := by
  have hrecord := record_role hn p context
  have hsteps : Turn.AnySteps (n.idle.record p context) (appendAccepted n.idle p context) :=
    appendAccepted_steps (fun _ _ _ _ => trivial) fun _ _ => trivial
  obtain ⟨l, hl⟩ := exists_lead
    ((standing_isLeader hsteps.standing).trans (isLeader_of_lead hrecord))
  exact ⟨l, hl, standing_cursors hsteps.standing hl hrecord⟩

theorem CursorsFit.of_cursors (h : n.CursorsFit) (hn : n.role = .leader lead)
    (hm : m.role = .leader lead') (hcursors : lead'.cursors = lead.cursors)
    (hlog : n.log <+: m.log) : m.CursorsFit := by
  intro l hl p cursor hcursor
  obtain rfl := Role.leader.inj (hm.symm.trans hl)
  rw [hcursors] at hcursor
  obtain ⟨hzero, hle⟩ := h lead hn p cursor hcursor
  have hlength := hlog.length_le
  exact ⟨hzero, by lia⟩

theorem CursorsFit.of_standing (h : n.CursorsFit) (hm : m.standing = n.standing) :
    m.CursorsFit := by
  intro lead hrole
  have hleader : n.isLeader := by
    rw [← standing_isLeader hm]
    exact isLeader_of_lead hrole
  obtain ⟨lead', hrole'⟩ := exists_lead hleader
  refine h.of_cursors hrole' hrole (standing_cursors hm hrole hrole') ?_ lead hrole
  exact standing_log hm ▸ List.prefix_rfl

theorem CursorsFit.recordSuccess (h : n.CursorsFit) (hn : n.role = .leader lead) {s : PeerId}
    {k : LogIndex} (hk : 0 ≤ k) (hlt : k < n.log.length)
    (hm : m.role = .leader lead') (hcursors : lead'.cursors = (lead.recordSuccess s k).cursors)
    (hlog : m.log = n.log) : m.CursorsFit := by
  intro l hl p cursor hcursor
  obtain rfl := Role.leader.inj (hm.symm.trans hl)
  rw [hcursors] at hcursor
  rw [hlog]
  obtain ⟨old, hold, ⟨-, rfl⟩ | ⟨-, rfl⟩⟩ := Leadership.cursor_recordSuccess hcursor
  · constructor
    · exact Int.le_trans hk k.le_next
    · change k.next ≤ _
      have hnext := k.next_le_succ
      lia
  · exact h lead hn p cursor hold

theorem CursorsFit.recordFailure (h : n.CursorsFit) (hn : n.role = .leader lead) {s : PeerId}
    (hm : m.role = .leader (lead.recordFailure s)) (hlog : m.log = n.log) : m.CursorsFit := by
  intro l hl p cursor hcursor
  obtain rfl := Role.leader.inj (hm.symm.trans hl)
  rw [hlog]
  obtain ⟨old, hold, -, hnext⟩ := Leadership.cursor_recordFailure hcursor
  obtain ⟨hzero, hle⟩ := h lead hn p old hold
  rcases hnext with hsame | ⟨hpos, hback⟩
  · rw [hsame]
    exact ⟨hzero, hle⟩
  · rw [hback]
    constructor
    · lia
    · lia

theorem Sends.peer_ne {ask : PeerId → LogIndex → LogIndex → Prop} {peer : PeerId}
    {context : AppendContext} {args : AppendRequest α} (h : n.Sends ask peer context args)
    (hask : ∀ p j k, ask p j k → p ≠ n.id) : peer ≠ n.id := by
  cases h with
  | heartbeat hpeer hrole hnext => exact hpeer
  | replicate hasked hrole hnext => exact hask _ _ _ hasked

/-- The call of a leader carries its log from a peer's cursor on, and at least through the entry
after the commit index, if there is one. -/
theorem Sends.call {ask : PeerId → LogIndex → LogIndex → Prop} {peer : PeerId}
    {context : AppendContext} {args : AppendRequest α} (h : n.Sends ask peer context args) :
    ∃ lead cursor round last, n.role = .leader lead ∧ lead.cursors[peer]? = some cursor ∧
      context = .ofCall n.generation round cursor.next (n.log.slice cursor.next last) ∧
      args = n.callFrom cursor.next last ∧ min (n.commitIndex + 1) n.log.lastIndex ≤ last ∧
      ∀ j k, round = .replicate j k → ask peer j n.commitIndex := by
  cases h with
  | heartbeat hpeer hrole hnext =>
      obtain ⟨cursor, hcursor, rfl⟩ := Leadership.cursor_of_next? hnext
      refine ⟨_, cursor, .heartbeat, _, hrole, hcursor, rfl, rfl, Int.min_le_right _ _, ?_⟩
      intro j k hround
      cases hround
  | replicate hask hrole hnext =>
      obtain ⟨cursor, hcursor, rfl⟩ := Leadership.cursor_of_next? hnext
      refine ⟨_, cursor, .replicate _ _, _, hrole, hcursor, rfl, rfl, Int.le_refl _, ?_⟩
      intro j k hround
      obtain ⟨rfl, -⟩ := Round.replicate.inj hround
      exact hask

/-- The call of a leader is a piece of its log. -/
theorem Sends.pieceOf {ask : PeerId → LogIndex → LogIndex → Prop} {peer : PeerId}
    {context : AppendContext} {args : AppendRequest α} (h : n.Sends ask peer context args)
    (hfit : n.CursorsFit) :
    ∃ start, args.PieceOf n.log start ∧ args.term = n.term ∧
      context.generation = n.generation ∧ args.leaderCommit = n.commitIndex ∧
      context.lastSent =
        if args.entries = [] then none else some ((args.reach start : Int) - 1) := by
  obtain ⟨lead, cursor, round, last, hrole, hcursor, rfl, rfl, -⟩ := h.call
  obtain ⟨hzero, hle⟩ := hfit lead hrole peer cursor hcursor
  have hstart : (cursor.next.toNat : Int) = cursor.next := Int.toNat_of_nonneg hzero
  refine ⟨cursor.next.toNat, ⟨by lia, ?_, rfl, ?_⟩, rfl, rfl, rfl, ?_⟩
  · change cursor.next.prev = _
    rw [LogIndex.prev_of_nonneg hzero, hstart]
  · change n.log.slice cursor.next last <+: _
    unfold Log.slice
    rw [List.drop_take]
    exact List.take_prefix _ _
  · change (if n.log.slice cursor.next last = [] then none else some _) = _
    have hentries : (n.callFrom cursor.next last).entries = n.log.slice cursor.next last := rfl
    unfold AppendRequest.reach
    rw [hentries]
    split
    · rfl
    · congr 1

/-- What a call claims lies within what it carries and what precedes that, if agreement is sought
on a stored entry no later than the one after the commit index. -/
theorem Sends.claims_le {ask : PeerId → LogIndex → LogIndex → Prop} {peer : PeerId}
    {context : AppendContext} {args : AppendRequest α} (h : n.Sends ask peer context args)
    (hnext : ∀ lead, n.role = .leader lead → ∀ (p : PeerId) cursor,
      lead.cursors[p]? = some cursor → 0 ≤ cursor.next)
    (hask : ∀ p j k, ask p j k → 0 ≤ j ∧ j < n.log.length ∧ j ≤ k + 1) {k : LogIndex}
    (hk : context.Claims k) : 0 ≤ k ∧ k ≤ args.prevLogIndex + args.entries.length := by
  obtain ⟨lead, cursor, round, last, hrole, hcursor, rfl, rfl, hlast, hround⟩ := h.call
  have hzero := hnext lead hrole peer cursor hcursor
  have hstart : (cursor.next.toNat : Int) = cursor.next := Int.toNat_of_nonneg hzero
  change 0 ≤ k ∧ k ≤ cursor.next.prev + (n.log.slice cursor.next last).length
  rw [LogIndex.prev_of_nonneg hzero]
  rcases hk with hsent | ⟨back, hsought⟩
  · change (if n.log.slice cursor.next last = [] then none else some _) = _ at hsent
    split at hsent
    · cases hsent
    · rename_i hentries
      have hpos := List.length_pos_iff.mpr hentries
      obtain rfl := Option.some.inj hsent
      constructor <;> lia
  · obtain ⟨hj, hlt, hnear⟩ := hask _ _ _ (hround k back hsought)
    have hend : n.log.lastIndex = (n.log.length : Int) - 1 := rfl
    rw [Log.length_slice_eq]
    constructor <;> lia

/-- A node that starts over as a leader, or goes on as one, keeps its cursors within its log. -/
theorem CursorsFit.after (h : n.CursorsFit) {e : Event α}
    (hreply : ∀ sender context reply k, e = .appendReturned sender context (some reply) →
      n.isLeader → context.generation = n.generation → context.lastSent = some k →
        0 ≤ k ∧ k < n.log.length) : (n.after e).CursorsFit := by
  intro lead' hlead'
  have hleader := isLeader_of_lead hlead'
  have hsteps {t : Turn α} (ht : t.node.CursorsFit)
      (hcourse : Turn.AnySteps t (n.handle e).2) : (n.after e).CursorsFit :=
    ht.of_standing hcourse.standing
  have hreign : n.Reign (fun _ => True) (fun _ _ => True) e :=
    after_reign hleader (fun _ _ => trivial) fun _ _ _ _ _ _ _ _ _ _ _ => trivial
  refine (?_ : (n.after e).CursorsFit) lead' hlead'
  cases hreign with
  | hold hrole hlog hcommit =>
      refine h.of_cursors (hrole.symm.trans hlead') hlead' rfl ?_
      exact hlog ▸ List.prefix_rfl
  | accede hbefore hrole hlog hcommit hgen =>
      intro l hl p cursor hcursor
      obtain rfl := Role.leader.inj (hrole.symm.trans hl)
      obtain rfl := Leadership.cursor_fresh hcursor
      rw [hlog]
      exact ⟨Int.natCast_nonneg _, Int.le_refl _⟩
  | store command he hlead hcourse =>
      obtain ⟨l, hl⟩ := exists_lead hlead
      refine hsteps (h.of_cursors hl (stored_role hl command) rfl ?_) hcourse
      exact List.prefix_append _ _
  | count sender context reply he hlead hgen hsuccess hcourse =>
      obtain ⟨l, hl⟩ := exists_lead hlead
      cases hlast : context.lastSent with
      | none =>
          have hnode : (n.idle.record sender context).node = n := by simp [Turn.record, hlast]
          refine hsteps ?_ hcourse
          rw [hnode]
          exact h
      | some k =>
          obtain ⟨hk, hlt⟩ := hreply sender context reply k he hlead hgen hlast
          have hrecord := record_role hl sender context
          unfold Leadership.recorded at hrecord
          rw [hlast] at hrecord
          refine hsteps (h.recordSuccess hl hk hlt hrecord rfl ?_) hcourse
          exact record_log n.idle sender context
  | retreat sender context reply he hlead hrole hlog hcommit =>
      obtain ⟨l, hl⟩ := exists_lead hlead
      refine h.recordFailure (s := sender) hl ?_ hlog
      rw [hrole, hl]
      rfl

end Node

namespace Cluster.Shipping

variable {rule : Rule α} {c c' : Cluster α} {ds : List (Cluster α)} {i : PeerId} {n : Node α}
  {e : Event α}

theorem fresh (size : Nat) : Shipping (.fresh size : Cluster α) [.fresh size] where
  cursor := by
    intro i n hn lead hrole
    obtain ⟨-, rfl⟩ := Cluster.fresh_node hn
    cases hrole
  request := by
    intro s r context args hp
    cases hp
  reply := by
    intro r s context reply hp
    cases hp

theorem rest (h : c.Shipping ds) (hrest : c.Rests c') : c'.Shipping (c' :: ds) where
  cursor := by
    rw [hrest.nodes]
    exact h.cursor
  request := by
    intro s r context args hp
    obtain ⟨L, start, hsent⟩ := h.request s r context args (hrest.mem hp id)
    exact ⟨L, start, hsent.rest hrest⟩
  reply := by
    intro r s context reply hp
    obtain ⟨args, L, start, hsent⟩ := h.reply r s context reply (hrest.mem hp id)
    exact ⟨args, L, start, hsent.rest hrest⟩

/-- The answers to a node's calls speak of entries that it still holds. -/
theorem cursorsFit_after (h : c.Shipping ds) (hact : c.Acts i n e c') :
    (n.after e).CursorsFit := by
  refine (h.cursor i n hact.node).after ?_
  rintro sender context reply k rfl - hgen hlast
  cases hact.cause with
  | appendReturned hp =>
      obtain ⟨args, L, start, hsent⟩ := h.reply _ _ _ _ hp
      exact hsent.lastSent_lt hact.node hgen hlast

/-- A call that a node makes in an event has been sent by it. -/
theorem sent_of_sends {ask : PeerId → LogIndex → LogIndex → Prop} (hact : c.Acts i n e c')
    (hid : n.id = i) {m : Node α} {peer : PeerId} {context : AppendContext}
    {args : AppendRequest α} (hm : m.standing = (n.after e).standing)
    (hsends : m.Sends ask peer context args) (hpeer : peer ≠ m.id)
    (hfit : (n.after e).CursorsFit) :
    ∃ start, c'.Sent (c' :: ds) i peer context args (n.after e).log start ∧
      args.term = (n.after e).term ∧ args.leaderCommit = m.commitIndex := by
  have hleader : (n.after e).isLeader := hsends.isLeader hm
  have hlog := Node.standing_log hm
  have hsame : m.id = i := (Node.standing_id hm).trans ((n.after_shift e).id.trans hid)
  obtain ⟨start, hpiece, hterm, hgen, hcommit, hlast⟩ := hsends.pieceOf (hfit.of_standing hm)
  rw [Node.standing_term hm] at hterm
  rw [Node.standing_generation hm] at hgen
  rw [hlog] at hpiece
  refine ⟨start, ⟨?_, ?_, hpiece, hlast, ?_⟩, hterm, hcommit⟩
  · rw [← hsame]
    exact Ne.symm hpeer
  · exact ⟨c', List.mem_cons_self, n.after e, hact.node_self, hleader, hterm.symm, rfl⟩
  · exact ⟨n.after e, hact.node_self, Nat.le_of_eq hgen, fun _ =>
      ⟨hleader, hterm.symm, List.prefix_rfl⟩⟩

theorem act (h : c.Shipping ds) (hact : c.Acts i n e c') (hid : n.id = i)
    (hrange : inRange c n e) : c'.Shipping (c' :: ds) where
  cursor := by
    intro j m hm
    rcases hact.node_cases hm with ⟨rfl, rfl⟩ | ⟨-, hold⟩
    · exact h.cursorsFit_after hact
    · exact h.cursor j m hold
  request := by
    intro s r context args hp
    rcases hact.appendRequest_cases hp with hold | ⟨rfl, hsent⟩
    · obtain ⟨L, start, hsent⟩ := h.request s r context args hold
      exact ⟨L, start, hsent.act hact hrange⟩
    · have hretry : ∀ sender ctx reply, e = .appendReturned sender ctx (some reply) →
          sender ≠ n.id := by
        rintro sender ctx reply rfl
        cases hact.cause with
        | appendReturned hp =>
            obtain ⟨_, _, _, hsent⟩ := h.reply _ _ _ _ hp
            rw [hid]
            exact Ne.symm hsent.other
      obtain ⟨m, hm, -, hsends⟩ := Node.appendEntries_of_handle
        (fun peer _ _ => peer ≠ n.id) hsent (fun _ _ _ hp _ _ => hp)
        (fun sender ctx reply he _ _ _ _ _ => hretry sender ctx reply he)
      have hsame : m.id = n.id := (Node.standing_id hm).trans (n.after_shift e).id
      have hpeer : r ≠ m.id := hsends.peer_ne fun p _ _ hp => by rwa [hsame]
      obtain ⟨start, hsent, -⟩ :=
        sent_of_sends hact hid hm hsends hpeer (h.cursorsFit_after hact)
      exact ⟨_, start, hsent⟩
  reply := by
    intro r s context reply hp
    rcases hact.appendReply_cases hp with hold | ⟨args, rfl, rfl, rfl, hcall⟩
    · obtain ⟨args, L, start, hsent⟩ := h.reply r s context reply hold
      exact ⟨args, L, start, hsent.act hact hrange⟩
    · obtain ⟨L, start, hsent⟩ := h.request _ _ _ _ hcall
      exact ⟨args, L, start, hsent.act hact hrange⟩

end Cluster.Shipping

/-- What is in flight in a run within the range of the counters. -/
theorem Run.shipping {size : Nat} {c : Cluster α} {past : List (Cluster α)}
    (h : Run inRange size c past) : c.Shipping (c :: past) := by
  refine h.invariant (P := fun c past => c.Shipping (c :: past)) ?_ ?_ ?_
  · exact .fresh size
  · intro c past c' _ ih hrest
    exact ih.rest hrest
  · intro c past i n e c' hrun ih hact hobey
    exact ih.act hact (hrun.seat i n hact.node).2.1 hobey

end Quorum
