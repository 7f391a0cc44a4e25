import Quorum.Proofs.Accession
import Quorum.Proofs.StateMachine

/-!
Replication under one leadership. As long as only one member ever comes to lead, and that once, all
logs are copies of its log: nothing is ever disputed or taken back, what a leader counts is there,
and what anybody commits more than half of the members hold. No further condition is put on a run.
-/

namespace Quorum

variable {α : Type}

/-- A piece of a log is one of every log that begins with it. -/
theorem AppendRequest.PieceOf.of_isPrefix {args : AppendRequest α} {L N : Log α} {start : Nat}
    (h : args.PieceOf L start) (hlog : L <+: N) : args.PieceOf N start where
  start_le := Nat.le_trans h.start_le hlog.length_le
  prev := h.prev
  prevTerm := by
    have hprev := h.prev
    have hstart := h.start_le
    rw [h.prevTerm]
    unfold Log.termAt? Log.entryAt?
    split
    · obtain ⟨tail, rfl⟩ := hlog
      rw [List.getElem?_append_left (by lia)]
    · rfl
  entries := h.entries.trans (hlog.drop start)

/-- A call that carries a piece of the log of the member at `i`. -/
def Cluster.Carries (c : Cluster α) (i : PeerId) (context : AppendContext)
    (args : AppendRequest α) : Prop :=
  ∃ n start, c.nodes[i]? = some n ∧ args.PieceOf n.log start ∧ context.lastSent =
    if args.entries = [] then none else some ((args.reach start : Int) - 1)

/-- Every log begins the log of the member at `i`. It is the only one to lead, and every call
carries a piece of its log. -/
structure Cluster.Headed (c : Cluster α) (i : PeerId) : Prop where
  leader : ∀ (j : PeerId) m, c.nodes[j]? = some m → m.isLeader → j = i
  cursors : ∀ n, c.nodes[i]? = some n → n.CursorsFit
  logs : ∀ (j : PeerId) m n, c.nodes[j]? = some m → c.nodes[i]? = some n → m.log <+: n.log
  request : ∀ s r context args, .appendRequest s r context args ∈ c.packets →
    s = i ∧ c.Carries i context args
  reply : ∀ r s context reply, .appendReply r s context (some reply) ∈ c.packets →
    ∃ args, c.Carries i context args

namespace Cluster.Headed

variable {size : Nat} {c c' : Cluster α} {past : List (Cluster α)} {i j p : PeerId}
  {n m : Node α} {e : Event α} {context : AppendContext} {args : AppendRequest α}

theorem fresh (size : Nat) (i : PeerId) : Headed (.fresh size : Cluster α) i where
  leader := by
    intro j m hm hleader
    obtain ⟨-, rfl⟩ := Cluster.fresh_node hm
    cases hleader
  cursors := by
    intro n hn lead hrole
    obtain ⟨-, rfl⟩ := Cluster.fresh_node hn
    cases hrole
  logs := by
    intro j m n hm hn
    obtain ⟨-, rfl⟩ := Cluster.fresh_node hm
    exact List.nil_prefix
  request := by
    intro s r context args hp
    cases hp
  reply := by
    intro r s context reply hp
    cases hp

theorem rest (h : c.Headed i) (hrest : c.Rests c') : c'.Headed i where
  leader := by
    rw [hrest.nodes]
    exact h.leader
  cursors := by
    rw [hrest.nodes]
    exact h.cursors
  logs := by
    rw [hrest.nodes]
    exact h.logs
  request := by
    intro s r context args hp
    unfold Carries
    rw [hrest.nodes]
    exact h.request s r context args (hrest.mem hp id)
  reply := by
    intro r s context reply hp
    unfold Carries
    rw [hrest.nodes]
    exact h.reply r s context reply (hrest.mem hp id)

section Step

variable (h : c.Headed i) (hact : c.Acts j n e c')

include h hact in
/-- Where the log of a node grows by itself, it is the leader that stores a command. Otherwise it
grows into the leader's. -/
theorem extends_log : n.log <+: (n.after e).log ∧
    (j = i ∨ ∀ k, c.nodes[i]? = some k → (n.after e).log <+: k.log) := by
  cases n.after_writes e with
  | keep hlog =>
      rw [hlog]
      exact ⟨List.prefix_rfl, Or.inr fun k hk => h.logs j n k hact.node hk⟩
  | store command he hleader hlog =>
      rw [hlog]
      exact ⟨List.prefix_append _ _, Or.inl (h.leader j n hact.node hleader)⟩
  | accept args log pos he hle hterm hrole hfit hlog =>
      subst he
      cases hact.cause with
      | appendRequest hp =>
          obtain ⟨-, k, start, hk, hpiece, -⟩ := h.request _ _ _ _ hp
          obtain ⟨hgrows, hwithin, -⟩ :=
            Node.merge_extends (h.logs j n k hact.node hk) hpiece hfit
          rw [hlog]
          refine ⟨hgrows, Or.inr ?_⟩
          intro k' hk'
          obtain rfl := Option.some.inj (hk.symm.trans hk')
          exact hwithin

include h hact in
/-- No log loses anything. -/
theorem grows (hm : c.nodes[p]? = some m) :
    ∃ m', c'.nodes[p]? = some m' ∧ m.log <+: m'.log := by
  by_cases hp : p = j
  · subst hp
    obtain rfl := Option.some.inj (hact.node.symm.trans hm)
    exact ⟨_, hact.node_self, (h.extends_log hact).1⟩
  · exact ⟨m, (hact.node_other hp).trans hm, List.prefix_rfl⟩

include h hact in
theorem carries (hcarries : c.Carries i context args) : c'.Carries i context args := by
  obtain ⟨k, start, hk, hpiece, hlast⟩ := hcarries
  obtain ⟨k', hk', hlog⟩ := h.grows hact hk
  exact ⟨k', start, hk', hpiece.of_isPrefix hlog, hlast⟩

include h hact in
/-- Whoever leads after an event led before, or is the one to come to lead. -/
theorem led (hrun : Run (sole i) size c past) (hobey : sole i c n e)
    (hleader : (n.after e).isLeader) : j = i := by
  by_cases hbefore : n.isLeader
  · exact h.leader j n hact.node hbefore
  · rw [← (hrun.seat j n hact.node).2.1]
    exact hobey.2 hbefore hleader

end Step

/-- The answers to the leader's calls speak of entries that it holds. -/
theorem cursorsFit_after (h : c.Headed i) (hact : c.Acts i n e c') : (n.after e).CursorsFit := by
  apply (h.cursors n hact.node).after
  rintro sender context reply k rfl - - hlast
  cases hact.cause with
  | appendReturned hp =>
      obtain ⟨args, k', start, hk', hpiece, hsent⟩ := h.reply _ _ _ _ hp
      obtain rfl := Option.some.inj (hact.node.symm.trans hk')
      obtain ⟨-, -, hzero, hlt⟩ := hpiece.last_of_lastSent (hsent.symm.trans hlast)
      exact ⟨hzero, hlt⟩

theorem act (h : c.Headed i) (hrun : Run (sole i) size c past) (hact : c.Acts j n e c')
    (hobey : sole i c n e) : c'.Headed i where
  leader := by
    intro k m hm hleader
    rcases hact.node_cases hm with ⟨rfl, rfl⟩ | ⟨-, hold⟩
    · exact h.led hact hrun hobey hleader
    · exact h.leader k m hold hleader
  cursors := by
    intro k hk
    rcases hact.node_cases hk with ⟨rfl, rfl⟩ | ⟨-, hold⟩
    · exact h.cursorsFit_after hact
    · exact h.cursors k hold
  logs := by
    intro a m' k' hm' hk'
    obtain ⟨hlt, -⟩ := List.getElem?_eq_some_iff.mp hk'
    rw [hact.nodes, List.length_set] at hlt
    have hk := List.getElem?_eq_getElem hlt
    obtain ⟨k₀, hk₀, hgrows⟩ := h.grows hact hk
    obtain rfl := Option.some.inj (hk'.symm.trans hk₀)
    rcases hact.node_cases hm' with ⟨rfl, rfl⟩ | ⟨-, hold⟩
    · rcases (h.extends_log hact).2 with rfl | hwithin
      · obtain rfl := Option.some.inj (hm'.symm.trans hk')
        exact List.prefix_rfl
      · exact (hwithin _ hk).trans hgrows
    · exact (h.logs a m' _ hold hk).trans hgrows
  request := by
    intro s r context args hp
    rcases hact.appendRequest_cases hp with hold | ⟨rfl, hsent⟩
    · obtain ⟨hs, hcarries⟩ := h.request s r context args hold
      exact ⟨hs, h.carries hact hcarries⟩
    · obtain ⟨m, hm, -, hsends⟩ := Node.call_of_handle hsent
      obtain rfl := h.led hact hrun hobey (hsends.isLeader hm)
      obtain ⟨start, hpiece, -, -, -, hlast⟩ :=
        hsends.pieceOf ((h.cursorsFit_after hact).of_standing hm)
      rw [Node.standing_log hm] at hpiece
      exact ⟨rfl, _, start, hact.node_self, hpiece, hlast⟩
  reply := by
    intro r s context reply hp
    rcases hact.appendReply_cases hp with hold | ⟨args, rfl, rfl, rfl, hcall⟩
    · obtain ⟨args, hcarries⟩ := h.reply r s context reply hold
      exact ⟨args, h.carries hact hcarries⟩
    · exact ⟨args, h.carries hact (h.request _ _ _ _ hcall).2⟩

end Cluster.Headed

namespace Run

variable {size : Nat} {c : Cluster α} {past : List (Cluster α)} {i : PeerId}

theorem headed (h : Run (sole i) size c past) : c.Headed i := by
  refine h.invariant (P := fun c _ => c.Headed i) ?_ ?_ ?_
  · exact .fresh size i
  · intro c past c' _ ih hrest
    exact ih.rest hrest
  · intro c past j n e c' hrun ih hact hobey
    exact ih.act hrun hact hobey

/-- What a log has held it still holds. -/
theorem grows (h : Run (sole i) size c past) :
    ∀ d ∈ c :: past, ∀ (p : PeerId) m, d.nodes[p]? = some m →
      ∃ m', c.nodes[p]? = some m' ∧ m.log <+: m'.log := by
  refine h.invariant (P := fun c past => ∀ d ∈ c :: past, ∀ (p : PeerId) m,
    d.nodes[p]? = some m → ∃ m', c.nodes[p]? = some m' ∧ m.log <+: m'.log) ?_ ?_ ?_
  · intro d hd p m hm
    obtain rfl := List.mem_singleton.mp hd
    exact ⟨m, hm, List.prefix_rfl⟩
  · intro c past c' _ ih hrest d hd p m hm
    rw [hrest.nodes]
    rcases List.mem_cons.mp hd with rfl | hold
    · rw [hrest.nodes] at hm
      exact ⟨m, hm, List.prefix_rfl⟩
    · exact ih d hold p m hm
  · intro c past j n e c' hrun ih hact _ d hd p m hm
    rcases List.mem_cons.mp hd with rfl | hold
    · exact ⟨m, hm, List.prefix_rfl⟩
    · obtain ⟨m', hm', hlog⟩ := ih d hold p m hm
      obtain ⟨m'', hm'', hlog'⟩ := hrun.headed.grows hact hm'
      exact ⟨m'', hm'', hlog.trans hlog'⟩

end Run

/-- The member at `p` holds an entry at the index `k`. -/
def Cluster.Reaches (c : Cluster α) (p : PeerId) (k : LogIndex) : Prop :=
  ∃ m, c.nodes[p]? = some m ∧ k < m.log.length

/-- What a member has accepted it holds. -/
theorem Returned.reaches {size : Nat} {c : Cluster α} {past : List (Cluster α)} {i p s : PeerId}
    {k : LogIndex} (h : Run (sole i) size c past) (hreturned : Returned (c :: past) s p k) :
    c.Reaches p k := by
  obtain ⟨T, since, d', d, before, context, args, hds, -, haccepts, hreach⟩ := hreturned
  obtain ⟨m, hact, hsuccess, -⟩ := haccepts.answer
  have hd : d ∈ c :: past := by
    rw [hds]
    simp
  have hd' : d' ∈ c :: past := by
    rw [hds]
    simp
  obtain ⟨_, hrun, -⟩ := h.of_mem hd
  obtain ⟨-, n, start, hn, hpiece, -⟩ := hrun.headed.request _ _ _ _ haccepts.call
  obtain ⟨-, -, log, pos, hfit, hlog⟩ := m.answerAppend_success hsuccess
  obtain ⟨-, -, hholds⟩ :=
    Node.merge_extends (hrun.headed.logs p m n hact.node hn) hpiece hfit
  obtain ⟨m', hm', hgrows⟩ := h.grows d' hd' p _ hact.node_self
  rw [← hlog] at hholds
  have hlength := (hholds.trans hgrows).length_le
  have hle := hpiece.reach_le
  have hprev := hpiece.prev
  have hdef : args.reach start = start + args.entries.length := rfl
  rw [List.length_take, Nat.min_eq_left hle] at hlength
  exact ⟨m', hm', by lia⟩

/-- If there is an entry at the index `k` at all, more than half of the members hold it. -/
def Cluster.Copied (size : Nat) (c : Cluster α) (k : LogIndex) : Prop :=
  0 ≤ k → Backed size c.Reaches k

/-- What nodes have committed, and what calls tell them to, has been copied. -/
structure Cluster.Copying (size : Nat) (c : Cluster α) : Prop where
  within : ∀ (p : PeerId) m, c.nodes[p]? = some m → m.commitIndex < m.log.length
  node : ∀ (p : PeerId) m, c.nodes[p]? = some m → c.Copied size m.commitIndex
  request : ∀ s r context args, .appendRequest s r context args ∈ c.packets →
    c.Copied size args.leaderCommit

namespace Cluster.Copied

variable {size : Nat} {c c' : Cluster α} {j k : LogIndex}

theorem back (h : c.Copied size k) (hj : j ≤ k) : c.Copied size j := by
  intro hzero
  obtain ⟨votes, hmajority, hvotes⟩ := h (Int.le_trans hzero hj)
  refine ⟨votes, hmajority, ?_⟩
  intro p hp
  obtain ⟨m, hm, hlt⟩ := hvotes p hp
  exact ⟨m, hm, Int.lt_of_le_of_lt hj hlt⟩

theorem mono (h : c.Copied size k) (hmono : ∀ p, c.Reaches p k → c'.Reaches p k) :
    c'.Copied size k := by
  intro hzero
  obtain ⟨votes, hmajority, hvotes⟩ := h hzero
  exact ⟨votes, hmajority, fun p hp => hmono p (hvotes p hp)⟩

end Cluster.Copied

namespace Cluster.Copying

variable {size : Nat} {c c' : Cluster α} {past : List (Cluster α)} {i j p : PeerId} {n : Node α}
  {e : Event α} {k : LogIndex}

theorem fresh (size : Nat) : Copying size (.fresh size : Cluster α) where
  within := by
    intro p m hm
    obtain ⟨-, rfl⟩ := Cluster.fresh_node hm
    exact (by decide : (-1 : Int) < 0)
  node := by
    intro p m hm hzero
    obtain ⟨-, rfl⟩ := Cluster.fresh_node hm
    exact absurd hzero (by decide : ¬ (0 : Int) ≤ -1)
  request := by
    intro s r context args hp
    cases hp

theorem rest (h : c.Copying size) (hrest : c.Rests c') : c'.Copying size where
  within := by
    rw [hrest.nodes]
    exact h.within
  node := by
    unfold Copied Reaches
    rw [hrest.nodes]
    exact h.node
  request := by
    intro s r context args hp
    unfold Copied Reaches
    rw [hrest.nodes]
    exact h.request s r context args (hrest.mem hp id)

section Step

variable (h : c.Copying size) (hrun : Run (sole i) size c past) (hact : c.Acts j n e c')

include hrun hact in
theorem reaches_after (hreaches : c.Reaches p k) : c'.Reaches p k := by
  obtain ⟨m, hm, hlt⟩ := hreaches
  obtain ⟨m', hm', hlog⟩ := hrun.headed.grows hact hm
  have hlength := hlog.length_le
  exact ⟨m', hm', by lia⟩

include h hrun hact in
theorem within_after : (n.after e).commitIndex < (n.after e).log.length := by
  have hturn := (hrun.settled j n hact.node).handle e
  rcases Int.lt_or_eq_of_le hturn.start_le with hraised | hstill
  · exact hturn.within hraised
  · have hold := h.within j n hact.node
    have hlonger := (hrun.headed.extends_log hact).1.length_le
    have hsame : (n.after e).commitIndex = n.commitIndex := hstill.symm
    lia

include h hrun hact in
/-- What a node commits in an event has been copied before. -/
theorem copied_after : c'.Copied size (n.after e).commitIndex := by
  have hold : c'.Copied size n.commitIndex :=
    (h.node j n hact.node).mono fun _ => reaches_after hrun hact
  cases n.after_commits e with
  | keep hstill =>
      rw [hstill]
      exact hold
  | lead hleader =>
      have hcount := hrun.unrepeated_of_sole
      obtain ⟨-, hstill | ⟨k, hle, votes, hmajority, hvotes⟩⟩ :=
        hcount.counting.backed_after hcount hact hleader
      · rw [hstill]
        exact hold
      · intro _
        refine ⟨votes, hmajority, ?_⟩
        intro p hp
        rcases hvotes p hp with rfl | hreturned
        · exact ⟨_, hact.node_self, h.within_after hrun hact⟩
        · exact reaches_after hrun hact ((hreturned.back hle).reaches hrun)
  | follow args log start he hle hterm hfit hlog hless hcommit =>
      subst he
      cases hact.cause with
      | appendRequest hp =>
          have htold : c'.Copied size args.leaderCommit :=
            (h.request _ _ _ _ hp).mono fun _ => reaches_after hrun hact
          apply htold.back
          rw [hcommit]
          lia

include h hrun hact in
theorem act : c'.Copying size where
  within := by
    intro p m hm
    rcases hact.node_cases hm with ⟨rfl, rfl⟩ | ⟨-, hold⟩
    · exact h.within_after hrun hact
    · exact h.within p m hold
  node := by
    intro p m hm
    rcases hact.node_cases hm with ⟨rfl, rfl⟩ | ⟨-, hold⟩
    · exact h.copied_after hrun hact
    · exact (h.node p m hold).mono fun _ => reaches_after hrun hact
  request := by
    intro s r context args hp
    rcases hact.appendRequest_cases hp with hold | ⟨rfl, hsent⟩
    · exact (h.request s r context args hold).mono fun _ => reaches_after hrun hact
    · obtain ⟨m, -, hcommit, hsends⟩ := Node.call_of_handle hsent
      obtain ⟨_, _, _, _, -, -, -, rfl, -⟩ := hsends.call
      exact (h.copied_after hrun hact).back hcommit

end Step

end Cluster.Copying

namespace Run

variable {size : Nat} {c : Cluster α} {past : List (Cluster α)} {i : PeerId}

theorem copying (h : Run (sole i) size c past) : c.Copying size := by
  refine h.invariant (P := fun c _ => c.Copying size) ?_ ?_ ?_
  · exact .fresh size
  · intro c past c' _ ih hrest
    exact ih.rest hrest
  · intro c past j n e c' hrun ih hact _
    exact ih.act hrun hact

/-- What a log has been committed through stays, and has been handed over. -/
theorem handedOver (h : Run (sole i) size c past) : c.HandedOver := by
  refine h.invariant (P := fun c _ => c.HandedOver) ?_ ?_ ?_
  · exact .fresh size
  · intro c past c' _ ih hrest
    exact ih.rest hrest
  · intro c past j n e c' hrun ih hact _
    apply ih.act hact (hrun.settled j n hact.node) (hrun.copying.within_after hrun hact)
    exact Log.through_of_isPrefix (hrun.headed.extends_log hact).1
      (hrun.copying.within j n hact.node)

/-- Each move adds to the leader's log what is accepted in it. -/
theorem log_play (h : Run (sole i) size c past) (m : Move α) {n : Node α}
    (hn : c.nodes[i]? = some n) : ∃ n', (c.play m).nodes[i]? = some n' ∧
      n'.log.map (·.command) = n.log.map (·.command) ++ (c.seen? Node.accepted? m).toList := by
  rcases c.play_cases m with ⟨hrest, hmissing⟩ | ⟨j, k, e, hevent, hact⟩
  · rw [Cluster.seen?_of_missing hmissing, hrest.nodes]
    exact ⟨n, hn, (List.append_nil _).symm⟩
  · rw [Cluster.seen?_of_event hevent hact.node]
    cases haccepted : k.accepted? e with
    | some command =>
        obtain ⟨rfl, hleader⟩ := Node.accepted?_eq_some haccepted
        obtain rfl := h.headed.leader j k hact.node hleader
        obtain rfl := Option.some.inj (hn.symm.trans hact.node)
        refine ⟨_, hact.node_self, ?_⟩
        have hlog : (n.after (.submit command)).log = n.log ++ [⟨n.term, command⟩] :=
          Node.submit_log hleader command
        rw [hlog, List.map_append]
        rfl
    | none =>
        by_cases hj : i = j
        · subst hj
          obtain rfl := Option.some.inj (hn.symm.trans hact.node)
          refine ⟨_, hact.node_self, ?_⟩
          have hlog : (n.after e).log = n.log := by
            cases n.after_writes e with
            | keep hlog => exact hlog
            | store command he hleader hlog =>
                subst he
                rw [Node.accepted?, Node.submit_isLeader, if_pos hleader] at haccepted
                cases haccepted
            | accept args log start he hle hterm hrole hfit hlog =>
                subst he
                cases hact.cause with
                | appendRequest hp =>
                    obtain ⟨rfl, -⟩ := h.headed.request _ _ _ _ hp
                    exact absurd rfl (h.unrepeated_of_sole.counting.request _ _ _ _ hp).other
          rw [hlog]
          exact (List.append_nil _).symm
        · exact ⟨n, (hact.node_other hj).trans hn, (List.append_nil _).symm⟩

/-- In the course of moves the leader's log grows by what is accepted. -/
theorem log_course (h : Run (sole i) size c past) {ms : List (Move α)}
    (hms : c.AllObey (sole i) ms) {n : Node α} (hn : c.nodes[i]? = some n) :
    ∃ n', (c.course past ms).1.nodes[i]? = some n' ∧
      n'.log.map (·.command) = n.log.map (·.command) ++ c.observe Node.accepted? ms := by
  induction ms generalizing c past n with
  | nil => exact ⟨n, hn, (List.append_nil _).symm⟩
  | cons m rest ih =>
      obtain ⟨n', hn', hlog⟩ := h.log_play m hn
      obtain ⟨n'', hn'', hlog'⟩ := ih (.move m h hms.1) hms.2 hn'
      refine ⟨n'', hn'', ?_⟩
      rw [hlog', hlog, List.append_assoc]
      rfl

end Run

/-- All that a cluster of the given size holds it has from the node `n`, which has accepted
`commands`. -/
structure Cluster.Follows (size : Nat) (c : Cluster α) (n : Node α) (commands : List α) :
    Prop where
  logs : ∀ (p : PeerId) m, c.nodes[p]? = some m → m.log <+: n.log
  matched : ∀ lead, n.role = .leader lead → ∀ (p : PeerId) m k, c.nodes[p]? = some m →
    lead.matched? p = some k → k ≤ m.log.lastIndex
  committed : ∀ (p : PeerId) m (k : Nat), c.nodes[p]? = some m → (k : Int) ≤ m.commitIndex →
    ∃ holders : Tally, holders.IsMajority size ∧ ∀ q ∈ holders.peers, ∃ m', c.nodes[q]? = some m' ∧
      ∀ j ≤ k, ∃ e, n.log[j]? = some e ∧ m'.log[j]? = some e
  applied : ∀ (p : PeerId) xs, c.applied[p]? = some xs → xs <+: n.log.numbered
  accepted : n.log.map (·.command) = commands

section Follows

variable {size : Nat} {c : Cluster α} {past : List (Cluster α)} {i : PeerId} {n : Node α}

/-- Match indices speak of entries that are there. -/
theorem Run.matched_le (h : Run (sole i) size c past) (hn : c.nodes[i]? = some n)
    {lead : Leadership} (hrole : n.role = .leader lead) {p : PeerId} {m : Node α} {k : LogIndex}
    (hm : c.nodes[p]? = some m) (hk : lead.matched? p = some k) : k ≤ m.log.lastIndex := by
  have haccounts := h.unrepeated_of_sole.counting.ledger i n hn lead hrole
  have hlast : m.log.lastIndex = (m.log.length : Int) - 1 := rfl
  obtain ⟨cursor, hcursor, rfl⟩ := Option.map_eq_some_iff.mp hk
  by_cases hzero : 0 ≤ cursor.matched
  · rcases haccounts.matched p cursor hcursor hzero with rfl | hreturned
    · have hown : cursor.matched = -1 := haccounts.own cursor hcursor
      lia
    · obtain ⟨m', hm', hlt⟩ := hreturned.reaches h
      obtain rfl := Option.some.inj (hm.symm.trans hm')
      lia
  · lia

/-- What anybody has committed, more than half of the members hold as the leader does. -/
theorem Run.committed_held (h : Run (sole i) size c past) (hn : c.nodes[i]? = some n) {p : PeerId}
    {m : Node α} {k : Nat} (hm : c.nodes[p]? = some m) (hk : (k : Int) ≤ m.commitIndex) :
    ∃ holders : Tally, holders.IsMajority size ∧ ∀ q ∈ holders.peers, ∃ m', c.nodes[q]? = some m' ∧
      ∀ j ≤ k, ∃ e, n.log[j]? = some e ∧ m'.log[j]? = some e := by
  obtain ⟨holders, hmajority, hholders⟩ :=
    ((h.copying.node p m hm).back hk) (Int.natCast_nonneg k)
  refine ⟨holders, hmajority, ?_⟩
  intro q hq
  obtain ⟨m', hm', hlt⟩ := hholders q hq
  refine ⟨m', hm', ?_⟩
  intro j hj
  have he := List.getElem?_eq_getElem (l := m'.log) (i := j) (by lia)
  exact ⟨_, Log.getElem?_of_isPrefix (h.headed.logs q m' n hm' hn) he, he⟩

theorem Run.follows (h : Run (sole i) size c past) (hn : c.nodes[i]? = some n) :
    c.Follows size n (n.log.map (·.command)) where
  logs := fun p m hm => h.headed.logs p m n hm hn
  matched := fun _ hrole _ _ _ hm hk => h.matched_le hn hrole hm hk
  committed := fun _ _ _ hm hk => h.committed_held hn hm hk
  applied := by
    intro p xs hxs
    have hlt := (List.getElem?_eq_some_iff.mp hxs).1
    rw [h.handedOver.length] at hlt
    have hm := List.getElem?_eq_getElem hlt
    have hsame := hxs.symm.trans (h.handedOver.node p _ hm)
    rw [Option.some.inj hsame]
    exact Log.numbered_isPrefix ((Log.through_isPrefix _ _).trans (h.headed.logs p _ n hm hn))
  accepted := rfl

end Follows

/-- Replication under one leadership: in the whole course of moves in which somebody comes to lead
only once, all that the cluster holds it has from this one leader. -/
theorem sole_leader_followed {size : Nat} {i : PeerId} {ms later : List (Move α)}
    (h : (Cluster.fresh size).observe Node.accession? (ms ++ later) = [i]) :
    ∃ n, ((Cluster.fresh size).course [] ms).1.nodes[i]? = some n ∧
      ((Cluster.fresh size).course [] ms).1.Follows size n
        ((Cluster.fresh size).observe Node.accepted? ms) := by
  have hstart : Run (sole i) size (Cluster.fresh size : Cluster α) [] := .start
  have hlt : i < size := by
    have hany : Run (fun _ _ _ => True) size (Cluster.fresh size : Cluster α) [] := .start
    have hi : i ∈ (Cluster.fresh size).observe Node.accession? (ms ++ later) := by
      rw [h]
      exact List.mem_singleton_self i
    exact hany.accession_lt (fun _ _ _ => trivial) hi
  have hms : (Cluster.fresh size).AllObey (sole i) ms := by
    apply Cluster.allObey_sole
    rw [Cluster.observe_append _ []] at h
    rcases List.append_eq_singleton_iff.mp h with ⟨hnone, -⟩ | ⟨hone, -⟩
    · exact Or.inl hnone
    · exact Or.inr ⟨.fresh size, hone⟩
  obtain ⟨n₀, hn₀⟩ : ∃ n₀, (Cluster.fresh size : Cluster α).nodes[i]? = some n₀ :=
    ⟨_, List.getElem?_eq_getElem (by rw [hstart.length_nodes]; exact hlt)⟩
  obtain ⟨n, hn, hlog⟩ := hstart.log_course hms hn₀
  obtain ⟨-, rfl⟩ := Cluster.fresh_node hn₀
  refine ⟨n, hn, ?_⟩
  have hfollows := (hstart.course hms).follows hn
  rw [hlog] at hfollows
  exact hfollows

/-- The first member is elected, stores `10` and `11` and commits `10` with the second one. The
third one stands for election, to no end but that the first one steps down and turns `12` away. A
call that is late then reaches the second one. -/
def deposedInVain : List (Move Nat) :=
  [.electionTimeout 0, .deliver 0, .deliver 2, .submit 0 10, .deliver 5, .deliver 7, .submit 0 11,
    .electionTimeout 2, .electionTimeout 2, .deliver 12, .submit 0 12, .deliver 8]

theorem sole_leader_followed_deposedInVain :
    ∃ n, ((Cluster.fresh 3).course [] deposedInVain).1.nodes[0]? = some n ∧
      ((Cluster.fresh 3).course [] deposedInVain).1.Follows 3 n [10, 11] ∧ ¬ n.isLeader ∧
      ((Cluster.fresh 3).course [] deposedInVain).1.applied = [[(0, 10)], [(0, 10)], []] := by
  have hone : (Cluster.fresh 3).observe Node.accession? (deposedInVain ++ [.deliver 9]) = [0] := by
    decide
  have hcommands : (Cluster.fresh 3).observe Node.accepted? deposedInVain = [10, 11] := by decide
  obtain ⟨n, hn, hfollows⟩ := sole_leader_followed hone
  rw [hcommands] at hfollows
  refine ⟨n, hn, hfollows, ?_, rfl⟩
  obtain rfl := Option.some.inj hn
  decide

end Quorum
