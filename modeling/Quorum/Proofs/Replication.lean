import Quorum.Proofs.Confirmation

/-!
Replication. Every call in flight and every answer to one speaks of entries that its sender has,
and a success is the word of a member that has held them. From this follows what leaders count
and what nodes commit, in runs that keep to `prudent`.
-/

namespace Quorum

variable {α : Type}

/-- A node commits nothing on a call that it disputes. -/
def unmoved : Rule α
  | _, n, .appendRequest args => n.Disputes args → args.leaderCommit ≤ n.commitIndex
  | _, _, _ => True

instance (c : Cluster α) (n : Node α) : (e : Event α) → Decidable (unmoved c n e)
  | .appendRequest args =>
    inferInstanceAs (Decidable (n.Disputes args → args.leaderCommit ≤ n.commitIndex))
  | .start | .electionTimeout | .heartbeatTimeout | .submit _ | .voteRequest _ | .voteReturned ..
  | .appendReturned .. => inferInstanceAs (Decidable True)

/-- A leader commits through an entry of its own term. -/
def ownCommits : Rule α
  | _, n, e => (n.after e).isLeader → n.commitIndex < (n.after e).commitIndex →
      (n.after e).Owns (n.after e).commitIndex

instance (c : Cluster α) (n : Node α) (e : Event α) : Decidable (ownCommits c n e) :=
  inferInstanceAs (Decidable (_ → _ → _))

/-- What is asked of a run for its nodes to apply the same: counters stay within their range, votes
are vetted, disputed calls neither write nor commit, and leaders commit through entries of their
own term. -/
def prudent : Rule α :=
  inRange.both (vetted.both (undisputed.both (unmoved.both ownCommits)))

instance (c : Cluster α) (n : Node α) (e : Event α) : Decidable (prudent c n e) :=
  inferInstanceAs (Decidable
    (inRange.both (vetted.both (undisputed.both (unmoved.both ownCommits))) c n e))

theorem prudent_undisputed (c : Cluster α) (n : Node α) (e : Event α) (h : prudent c n e) :
    inRange c n e ∧ undisputed c n e :=
  ⟨h.1, h.2.2.1⟩

theorem Run.inRange_of_prudent {size : Nat} {c : Cluster α} {past : List (Cluster α)}
    (h : Run prudent size c past) : Run inRange size c past :=
  h.mono fun _ _ _ h => h.1

theorem prudent_vets : (prudent : Rule α).Vets Log.UpToDate :=
  vets_of_vetted fun _ _ _ h => ⟨h.1, h.2.1⟩

/-- A call in flight, or one that has been answered. What it claims is within its reach, and so is
what its sender had committed; agreement is sought on an entry of the call's term, no later than
the one after the commit index. -/
structure Cluster.Call (size : Nat) (c : Cluster α) (ds : List (Cluster α)) (s r : PeerId)
    (context : AppendContext) (args : AppendRequest α) (L : Log α) (start : Nat) : Prop where
  sent : c.Sent ds s r context args L start
  claims : ∀ k, context.Claims k → 0 ≤ k ∧ k < args.reach start
  sought : ∀ j cursor, context.round = .replicate j cursor → L.termAt? j = some args.term ∧
    (∃ n, c.nodes[s]? = some n ∧ j ≤ n.commitIndex + 1) ∧
      (args.entries = [] → Held ds args.term r (L.take start))
  within : args.leaderCommit < args.reach start
  committed : Sealed size ds args.term (L.through args.leaderCommit)

namespace Cluster.Call

variable {size : Nat} {c c' : Cluster α} {ds : List (Cluster α)} {s r : PeerId}
  {context : AppendContext} {args : AppendRequest α} {L : Log α} {start : Nat}

theorem rest (h : c.Call size ds s r context args L start) (hrest : c.Rests c') :
    c'.Call size (c' :: ds) s r context args L start where
  sent := h.sent.rest hrest
  claims := h.claims
  sought := by
    intro j cursor hround
    obtain ⟨hown, hnear, hheld⟩ := h.sought j cursor hround
    rw [hrest.nodes]
    exact ⟨hown, hnear, fun hempty => (hheld hempty).mono (List.subset_cons_self _ _)⟩
  within := h.within
  committed := h.committed.mono (List.subset_cons_self _ _) (Nat.le_refl _)

theorem act (h : c.Call size ds s r context args L start) {i : PeerId} {n : Node α} {e : Event α}
    (hact : c.Acts i n e c') (hrange : inRange c n e) (hsettled : n.Settled) :
    c'.Call size (c' :: ds) s r context args L start where
  sent := h.sent.act hact hrange
  claims := h.claims
  sought := by
    intro j cursor hround
    obtain ⟨hown, ⟨k, hk, hnear⟩, hheld⟩ := h.sought j cursor hround
    refine ⟨hown, ?_, fun hempty => (hheld hempty).mono (List.subset_cons_self _ _)⟩
    by_cases hs : s = i
    · subst hs
      obtain rfl := Option.some.inj (hk.symm.trans hact.node)
      have hle : k.commitIndex ≤ (k.after e).commitIndex := (hsettled.handle e).start_le
      exact ⟨_, hact.node_self, by lia⟩
    · rw [hact.node_other hs]
      exact ⟨k, hk, hnear⟩
  within := h.within
  committed := h.committed.mono (List.subset_cons_self _ _) (Nat.le_refl _)

/-- While its sender has not moved on, a call claims entries that the sender still holds. -/
theorem claimed (h : c.Call size ds s r context args L start) {n : Node α}
    (hn : c.nodes[s]? = some n) (hgen : context.generation = n.generation) {k : LogIndex}
    (hk : context.Claims k) :
    n.term = args.term ∧ 0 ≤ k ∧ k < n.log.length ∧ n.log.through k = L.through k := by
  obtain ⟨m, hm, -, hcurrent⟩ := h.sent.sender
  obtain rfl := Option.some.inj (hn.symm.trans hm)
  obtain ⟨-, hterm, hL⟩ := hcurrent hgen
  obtain ⟨hzero, hreach⟩ := h.claims k hk
  have hle := h.sent.piece.reach_le
  have hlength := hL.length_le
  exact ⟨hterm, hzero, by lia, Log.through_of_isPrefix hL (by lia)⟩

end Cluster.Call

/-- How far the call of a leader reaches: beyond what the leader has committed, and to the entry on
which it seeks agreement. -/
theorem Node.Sends.reach {n : Node α} {ask : PeerId → LogIndex → LogIndex → Prop} {peer : PeerId}
    {context : AppendContext} {args : AppendRequest α} (h : n.Sends ask peer context args)
    (hfit : n.CursorsFit) (hcommit : n.commitIndex < n.log.length) {start : Nat}
    (hstart : args.prevLogIndex = (start : Int) - 1) :
    n.commitIndex < args.reach start ∧
    (∃ lead cursor, n.role = .leader lead ∧ lead.cursors[peer]? = some cursor ∧
      cursor.next = start) ∧
    ∀ j cursor, context.round = .replicate j cursor → ask peer j n.commitIndex ∧
      (j ≤ n.commitIndex + 1 → j < n.log.length → j < args.reach start) := by
  obtain ⟨lead, cursor, round, last, hrole, hcursor, rfl, rfl, hlast, hround⟩ := h.call
  obtain ⟨hzero, hle⟩ := hfit lead hrole peer cursor hcursor
  have hprev : cursor.next.prev = (start : Int) - 1 := hstart
  rw [LogIndex.prev_of_nonneg hzero] at hprev
  have hend : n.log.lastIndex = (n.log.length : Int) - 1 := rfl
  have hreach : (n.callFrom cursor.next last).reach start =
      start + (min (last + 1).toNat n.log.length - cursor.next.toNat) := by
    rw [← Log.length_slice_eq]
    rfl
  rw [hreach]
  refine ⟨by lia, ⟨lead, cursor, hrole, hcursor, by lia⟩, ?_⟩
  intro j back hsought
  exact ⟨hround j back hsought, by lia⟩

/-- What leaders keep, what nodes have committed and what is in flight between them is right. -/
structure Cluster.Replicating (size : Nat) (c : Cluster α) (ds : List (Cluster α)) : Prop where
  ledger : ∀ (i : PeerId) (n : Node α), c.nodes[i]? = some n → n.Ledger ds i
  secure : ∀ (i : PeerId) (n : Node α), c.nodes[i]? = some n → n.Secure size ds
  request : ∀ s r context args, .appendRequest s r context args ∈ c.packets →
    ∃ L start, c.Call size ds s r context args L start
  reply : ∀ r s context reply, .appendReply r s context (some reply) ∈ c.packets →
    ∃ args L start, c.Call size ds s r context args L start ∧
      (reply.success = true → ∀ k, context.Claims k → Held ds args.term r (L.through k))

namespace Cluster.Replicating

theorem fresh (size : Nat) : Replicating size (.fresh size : Cluster α) [.fresh size] where
  ledger := by
    intro i n hn lead hrole
    obtain ⟨-, rfl⟩ := Cluster.fresh_node hn
    cases hrole
  secure := by
    intro i n hn
    obtain ⟨-, rfl⟩ := Cluster.fresh_node hn
    exact ⟨⟨rfl, Int.le_refl _⟩, (by decide : (-1 : Int) < 0), Or.inl rfl⟩
  request := by
    intro s r context args hp
    cases hp
  reply := by
    intro r s context reply hp
    cases hp

variable {size : Nat} {c c' : Cluster α} {ds past : List (Cluster α)} {i : PeerId} {n : Node α}
  {e : Event α}

theorem rest (h : c.Replicating size ds) (hrest : c.Rests c') :
    c'.Replicating size (c' :: ds) where
  ledger := by
    intro i n hn
    rw [hrest.nodes] at hn
    exact (h.ledger i n hn).mono (List.subset_cons_self _ _)
  secure := by
    intro i n hn
    rw [hrest.nodes] at hn
    exact (h.secure i n hn).mono (List.subset_cons_self _ _)
  request := by
    intro s r context args hp
    obtain ⟨L, start, hcall⟩ := h.request s r context args (hrest.mem hp id)
    exact ⟨L, start, hcall.rest hrest⟩
  reply := by
    intro r s context reply hp
    obtain ⟨args, L, start, hcall, hheld⟩ := h.reply r s context reply (hrest.mem hp id)
    refine ⟨args, L, start, hcall.rest hrest, ?_⟩
    intro hsuccess k hk
    exact (hheld hsuccess k hk).mono (List.subset_cons_self _ _)

section Step

variable (h : c.Replicating size (c :: past)) (hrun : Run prudent size c past)
  (hact : c.Acts i n e c') (hobey : prudent c n e)

include h hact in
/-- An entry on which a leader may seek agreement next is its own. -/
theorem owns_after (hleader : (n.after e).isLeader) {j : LogIndex}
    (hj : n.Awaits j ∨ (∃ command, e = .submit command) ∧ j = (n.log.length : Int)) :
    (n.after e).Owns j := by
  have hlog : n.log <+: (n.after e).log := (n.after_writes e).of_leader hleader
  rcases hj with ⟨lead, hrole, hj⟩ | ⟨⟨command, rfl⟩, rfl⟩
  · have hn := Node.isLeader_of_lead hrole
    have hterm := (n.after_shift e).leader_term hn hleader
    exact ((h.ledger i n hact.node lead hrole).waiting j hj).of_isPrefix hterm hlog
  · have hoffice := n.submit_sameOffice command
    have hn : n.isLeader := by
      rw [← hoffice.isLeader]
      exact hleader
    have hstored : (n.after (.submit command)).log = n.log ++ [⟨n.term, command⟩] :=
      Node.submit_log hn command
    unfold Node.Owns
    rw [hstored, Log.termAt?, Log.entryAt?_natCast, List.getElem?_concat_length]
    exact congrArg some hoffice.term.symm

include h hrun hact in
/-- What a leader has kept is still right after an event, if it leads then. -/
theorem kept_after (hleader : (n.after e).isLeader) {lead : Leadership}
    (hlead : n.role = .leader lead) : (n.after e).Accounted (c' :: c :: past) i lead := by
  have hfit := hrun.inRange_of_prudent.shipping.cursor i n hact.node
  have hterm := (n.after_shift e).leader_term (Node.isLeader_of_lead hlead) hleader
  have hlog := (n.after_writes e).of_leader hleader
  exact (h.ledger i n hact.node lead hlead).extend hfit hlead hterm hlog
    (List.subset_cons_self _ _)

include h hact in
/-- A success that a leader counts is the word of another member that has held what the call
claims. -/
theorem claimed_after (hleader : (n.after e).isLeader) {sender : PeerId} {context : AppendContext}
    {reply : AppendReply} (he : e = .appendReturned sender context (some reply))
    (hsuccess : reply.success = true) (hold : n.isLeader)
    (hgen : context.generation = n.generation) :
    sender ≠ i ∧ ∀ k, context.Claims k → (n.after e).Confirms (c' :: c :: past) sender k := by
  have hterm := (n.after_shift e).leader_term hold hleader
  have hlog := (n.after_writes e).of_leader hleader
  subst he
  cases hact.cause with
  | appendReturned hp =>
      obtain ⟨args, L, start, hcall, hheld⟩ := h.reply _ _ _ _ hp
      refine ⟨Ne.symm hcall.sent.other, ?_⟩
      intro k hk
      obtain ⟨hsame, hzero, hlt, hthrough⟩ := hcall.claimed hact.node hgen hk
      have hconfirms : n.Confirms (c :: past) sender k := by
        refine ⟨hzero, hlt, ?_⟩
        rw [hsame, hthrough]
        exact hheld hsuccess k hk
      exact hconfirms.of_isPrefix hterm hlog (List.subset_cons_self _ _)

include h hrun hact hobey in
/-- A node that leads after an event has had what it takes to keep right accounts. -/
theorem accountable_after (hleader : (n.after e).isLeader) :
    n.Accountable i (n.after e).Owns ((n.after e).Confirms (c' :: c :: past))
      ((n.after e).Ready (c' :: c :: past)) e where
  sound := Node.confirms_sound List.mem_cons_self hact.node_self
  own := by
    intro j hj
    exact ⟨(Log.lt_length_of_termAt? hj).1, hj.confirms List.mem_cons_self hact.node_self⟩
  back := by
    intro p j _ hready
    exact hready.back
  kept := by
    intro l hl
    exact h.kept_after hrun hact hleader hl
  fresh := by
    intro hbefore p
    apply Or.inr
    intro f hf
    have hkind : (n.after e).role.kind = .leader := Role.isLeader_iff.mp hleader
    have hdated := hrun.dated prudent_undisputed c List.mem_cons_self i n hact.node
    rw [(n.after_writes e).of_accession hleader hbefore] at hf
    refine hdated.earlier hobey.1 ?_ ?_ f (List.mem_of_mem_take hf)
    · rw [hkind]
      exact RoleKind.noConfusion
    · intro hsame
      exact absurd (Role.isLeader_iff.mpr (hsame.trans hkind)) hbefore
  stored := by
    intro command he _
    exact h.owns_after hact hleader (Or.inr ⟨⟨command, he⟩, rfl⟩)
  claimed := by
    intro sender context reply he hsuccess hold hgen
    obtain ⟨hother, hclaimed⟩ := h.claimed_after hact hleader he hsuccess hold hgen
    refine ⟨hother, hclaimed, ?_⟩
    intro k hlast
    have hnext := LogIndex.next_le_succ k
    apply Or.inl
    exact (hclaimed k (Or.inl hlast)).2.2.of_isPrefix (List.take_prefix_take_left (by lia))

include h hrun hact hobey in
/-- A node that leads after an event keeps right accounts, and what it has committed in the event
is confirmed by a majority. -/
theorem leads_after (hleader : (n.after e).isLeader) :
    (n.after e).Ledger (c' :: c :: past) i ∧ ((n.after e).commitIndex = n.commitIndex ∨
      ∃ j, (n.after e).commitIndex ≤ j ∧
        Backed size ((n.after e).Confirms (c' :: c :: past)) j) := by
  obtain ⟨-, hid, hsize⟩ := hrun.seat i n hact.node
  have habsent := (h.secure i n hact.node).settled.absent_le
  exact (h.accountable_after hrun hact hobey hleader).after hid hsize habsent hleader

include h hrun hact hobey in
/-- What a node has committed it keeps. -/
theorem keeps_committed : n.log.through n.commitIndex <+: (n.after e).log := by
  have hterm : n.term ≤ (n.after e).term := (Node.after_before hobey.1).term_le
  have hsealed := (h.secure i n hact.node).committed
  rcases hact.keeps_or_clashes hrun prudent_undisputed hobey (n.log.through_isPrefix n.commitIndex)
    with hkept | ⟨s, L, hL, hno, hno'⟩
  · exact hkept
  · rcases hsealed.comparable_led hrun prudent_undisputed prudent_vets hL hterm with hFL | hLF
    · exact absurd hFL hno
    · exact absurd hLF hno'

include h hrun hact hobey in
/-- What a node has committed stands where it stood in its log. -/
theorem through_after :
    (n.after e).log.through n.commitIndex = n.log.through n.commitIndex := by
  have hn := h.secure i n hact.node
  have hlength : ((n.log.through n.commitIndex).length : Int) = n.commitIndex + 1 :=
    Log.length_through hn.settled.absent_le hn.within
  rw [Log.through_of_isPrefix (h.keeps_committed hrun hact hobey) (by lia)]
  exact (Log.through_of_isPrefix (n.log.through_isPrefix n.commitIndex) (by lia)).symm

include hrun hact hobey in
/-- A call that is written leaves the log with what the sender has sent, or is disputed. -/
theorem taken_or_disputed {args : AppendRequest α} (he : e = .appendRequest args) {s : PeerId}
    {context : AppendContext} {L log : Log α} {start pos : Nat}
    (hcall : c.Call size (c :: past) s i context args L start)
    (hle : n.term ≤ args.term) (hfit : Node.reconcile? n.log args = some (log, pos)) :
    L.take (args.reach start) <+: log.merge pos args.entries ∨
      args.entries = [] ∧ args.leaderCommit ≤ n.commitIndex := by
  subst he
  rcases hrun.merge_cases prudent_undisputed hact.node (prudent_undisputed _ _ _ hobey).2 hle
      hcall.sent.led hcall.sent.piece hfit with
    ⟨hheld, hkept⟩ | ⟨-, hput⟩ | ⟨hempty, -, f, g, -, -, hne, hterm, hprev⟩
  · rw [hkept]
    exact Or.inl hheld
  · rw [hput]
    exact Or.inl List.prefix_rfl
  · obtain ⟨-, -, -, hunmoved, -⟩ := hobey
    apply Or.inr
    refine ⟨hempty, hunmoved ⟨hle, f.term, hterm, ?_⟩⟩
    rw [hprev]
    exact fun hsame => hne (Option.some.inj hsame)

include h hrun hact hobey in
/-- What a node has committed after an event is sealed. -/
theorem secure_after : (n.after e).Secure size (c' :: c :: past) := by
  have hn := h.secure i n hact.node
  have hmono : n.commitIndex ≤ (n.after e).commitIndex := (hn.settled.handle e).start_le
  have hterm : n.term ≤ (n.after e).term := (Node.after_before hobey.1).term_le
  have hsub : c :: past ⊆ c' :: c :: past := List.subset_cons_self _ _
  have hlength : ((n.log.through n.commitIndex).length : Int) = n.commitIndex + 1 :=
    Log.length_through hn.settled.absent_le hn.within
  have hkept (hstill : (n.after e).commitIndex = n.commitIndex) :
      (n.after e).Secure size (c' :: c :: past) := by
    have hlonger := (h.keeps_committed hrun hact hobey).length_le
    refine ⟨hn.settled.after e, by lia, ?_⟩
    rw [hstill, h.through_after hrun hact hobey]
    exact hn.committed.mono hsub hterm
  cases n.after_commits e with
  | keep hstill => exact hkept hstill
  | lead hleader =>
      obtain ⟨-, hstill | ⟨j, hle, votes, hmajority, hvotes⟩⟩ := h.leads_after hrun hact hobey hleader
      · exact hkept hstill
      · rcases Int.lt_or_eq_of_le hmono with hless | hstill
        · obtain ⟨-, -, -, -, hown⟩ := hobey
          have howns := hown hleader hless
          obtain ⟨hzero, hwithin⟩ := Log.lt_length_of_termAt? howns
          refine ⟨hn.settled.after e, hwithin, Or.inr ⟨_, _, ⟨?_, Log.getLast?_through howns, votes,
            hmajority, ?_⟩, Nat.le_refl _, List.prefix_rfl⟩⟩
          · exact ⟨i, _, ⟨c', List.mem_cons_self, _, hact.node_self, hleader, rfl, rfl⟩,
              Log.through_isPrefix _ _⟩
          · intro p hp
            exact (hvotes p hp).2.2.of_isPrefix (Log.through_prefix_through _ hle)
        · exact hkept hstill.symm
  | follow args log pos he hle hnew hfit hlog hless hcommit =>
      subst he
      cases hact.cause with
      | appendRequest hp =>
          obtain ⟨L, start, hcall⟩ := h.request _ _ _ _ hp
          have hreach := hcall.sent.piece.reach_le
          have hwithin := hcall.within
          rcases taken_or_disputed hrun hact hobey rfl hcall hle hfit with hheld | ⟨-, hno⟩
          · rw [← hlog] at hheld
            have hpiece : ((L.take (args.reach start)).length : Int) = args.reach start := by
              rw [List.length_take, Nat.min_eq_left hreach]
            have hlonger := hheld.length_le
            have hlast : (n.after (.appendRequest args)).log.lastIndex =
                ((n.after (.appendRequest args)).log.length : Int) - 1 := rfl
            have hraised : (n.after (.appendRequest args)).commitIndex = args.leaderCommit := by
              rw [hcommit, hlast]
              lia
            refine ⟨hn.settled.after _, by lia, ?_⟩
            rw [hraised, hnew, Log.through_of_isPrefix hheld (by lia),
              ← Log.through_of_isPrefix (List.take_prefix _ L) (by lia)]
            exact hcall.committed.mono hsub (Nat.le_refl _)
          · exact absurd hless (Int.not_lt.mpr hno)

include h hrun hact in
/-- A call that a node makes is sent by a leader of the node's term with its log, to another member;
and agreement is sought on an entry of that term, no later than the one after the commit index. -/
theorem sends_after {peer : PeerId} {context : AppendContext} {args : AppendRequest α}
    (hsent : .appendEntries peer context args ∈ (n.handle e).2.actions) :
    ∃ m : Node α, m.standing = (n.after e).standing ∧ m.commitIndex ≤ (n.after e).commitIndex ∧
      m.Sends (fun p j k => p ≠ n.id ∧ ((n.after e).isLeader → (n.after e).Owns j) ∧ j ≤ k + 1)
        peer context args := by
  obtain ⟨-, hid, -⟩ := hrun.seat i n hact.node
  apply Node.sends_of_handle hsent
  · intro j hj hleader
    exact h.owns_after hact hleader hj
  · rintro sender ctx reply rfl hold hgen j cursor hround
    cases hact.cause with
    | appendReturned hp =>
        obtain ⟨_, L, _, hcall, -⟩ := h.reply _ _ _ _ hp
        obtain ⟨hown, ⟨k, hk, hnear⟩, -⟩ := hcall.sought j cursor hround
        obtain rfl := Option.some.inj (hk.symm.trans hact.node)
        refine ⟨?_, ?_, hnear⟩
        · rw [hid]
          exact Ne.symm hcall.sent.other
        · intro hleader
          obtain ⟨k', hk', -, hcurrent⟩ := hcall.sent.sender
          obtain rfl := Option.some.inj (hk.symm.trans hk')
          obtain ⟨-, hterm, hL⟩ := hcurrent hgen
          have howns : k.Owns j := by
            unfold Node.Owns
            rw [hterm]
            exact Log.termAt?_of_isPrefix hL hown
          exact howns.of_isPrefix ((k.after_shift _).leader_term hold hleader)
            ((k.after_writes _).of_leader hleader)

include h hrun hact hobey in
/-- Whatever a node calls for in an event speaks of entries that it has. -/
theorem call_after {peer : PeerId} {context : AppendContext} {args : AppendRequest α}
    (hsent : .appendEntries peer context args ∈ (n.handle e).2.actions) :
    ∃ L start, c'.Call size (c' :: c :: past) i peer context args L start := by
  obtain ⟨-, hid, -⟩ := hrun.seat i n hact.node
  have hfit := hrun.inRange_of_prudent.shipping.cursorsFit_after hact
  have hsecure := h.secure_after hrun hact hobey
  obtain ⟨m, hm, hcommit, hsends⟩ := h.sends_after hrun hact hsent
  have hsame : m.id = n.id := (Node.standing_id hm).trans (n.after_shift e).id
  have hpeer : peer ≠ m.id := hsends.peer_ne fun p _ _ hp => by rw [hsame]; exact hp.1
  obtain ⟨start, hsent, hterm, htold⟩ :=
    Cluster.Shipping.sent_of_sends hact hid hm hsends hpeer hfit
  have hlog := Node.standing_log hm
  have hwithin : m.commitIndex < m.log.length := by
    rw [hlog]
    exact Int.lt_of_le_of_lt hcommit hsecure.within
  obtain ⟨hreach, ⟨lead, cursor, hrole, hcursor, hnext⟩, hround⟩ :=
    hsends.reach (hfit.of_standing hm) hwithin hsent.piece.prev
  have hleader : (n.after e).isLeader := hsends.isLeader hm
  obtain ⟨lead', hrole'⟩ := Node.exists_lead hleader
  rw [Node.standing_cursors hm hrole hrole'] at hcursor
  have hready := ((h.leads_after hrun hact hobey hleader).1 lead' hrole').next peer cursor hcursor
  have hsought : ∀ j round, context.round = .replicate j round → (n.after e).Owns j ∧
      0 ≤ j ∧ j < args.reach start ∧ j ≤ m.commitIndex + 1 := by
    intro j round hj
    obtain ⟨⟨-, howns, hnear⟩, hfar⟩ := hround j round hj
    obtain ⟨hzero, hlt⟩ := Log.lt_length_of_termAt? (howns hleader)
    rw [← hlog] at hlt
    exact ⟨howns hleader, hzero, hfar hnear hlt, hnear⟩
  refine ⟨_, start, hsent, ?_, ?_, ?_, ?_⟩
  · rintro k (hk | ⟨round, hk⟩)
    · obtain ⟨-, hlast, hzero, -⟩ := hsent.last_of_lastSent hk
      exact ⟨hzero, by lia⟩
    · obtain ⟨-, hzero, hlt, -⟩ := hsought k round hk
      exact ⟨hzero, hlt⟩
  · intro j round hj
    obtain ⟨howns, hzero, hlt, hnear⟩ := hsought j round hj
    refine ⟨?_, ⟨_, hact.node_self, by lia⟩, ?_⟩
    · rw [hterm]
      exact howns
    · intro hempty
      have hdef : args.reach start = start + args.entries.length := rfl
      rw [hempty] at hdef
      rw [hterm]
      rw [hnext] at hready
      rcases hready with hheld | hearlier
      · exact hheld
      · obtain ⟨-, f, hf, hfterm⟩ := Log.termAt?_eq_some howns
        have hmem : f ∈ (n.after e).log.take ((start : Int)).toNat := by
          refine List.mem_of_getElem? (i := j.toNat) ?_
          rw [List.getElem?_take_of_lt (by simp at hdef; lia)]
          exact hf
        exact absurd (hearlier f hmem) (by rw [hfterm]; exact Nat.lt_irrefl _)
  · rw [htold]
    exact hreach
  · rw [hterm, htold]
    exact hsecure.committed.of_isPrefix (Log.through_prefix_through _ hcommit)

include hrun hact hobey in
/-- A node that accepts a call holds what the call claims, or has held it. -/
theorem held_after {s : PeerId} {context : AppendContext} {args : AppendRequest α} {L : Log α}
    {start : Nat} (he : e = .appendRequest args)
    (hcall : c.Call size (c :: past) s i context args L start)
    (hsuccess : (n.answerAppend args).1.success = true) :
    ∀ k, context.Claims k → Held (c' :: c :: past) args.term i (L.through k) := by
  subst he
  intro k hk
  obtain ⟨hzero, hlt⟩ := hcall.claims k hk
  have hreach := hcall.sent.piece.reach_le
  obtain ⟨hle, hterm, log, pos, hfit, hlog⟩ := n.answerAppend_success hsuccess
  rcases taken_or_disputed hrun hact hobey rfl hcall hle hfit with hheld | ⟨hempty, -⟩
  · rw [← hlog] at hheld
    refine ⟨c', List.mem_cons_self, _, hact.node_self, hterm, ?_⟩
    refine List.IsPrefix.trans ?_ hheld
    exact List.take_prefix_take_left (by lia)
  · have hdef : args.reach start = start + args.entries.length := rfl
    rw [hempty] at hdef
    simp only [List.length_nil] at hdef
    rcases hk with hlast | ⟨round, hround⟩
    · rw [hcall.sent.lastSent, if_pos hempty] at hlast
      cases hlast
    · have hheld := ((hcall.sought k round hround).2.2 hempty).mono
        (List.subset_cons_self c' (c :: past))
      exact hheld.of_isPrefix (List.take_prefix_take_left (by lia))

include h hrun hact hobey in
theorem act : c'.Replicating size (c' :: c :: past) where
  ledger := by
    intro j m hm
    rcases hact.node_cases hm with ⟨rfl, rfl⟩ | ⟨-, hold⟩
    · intro lead hlead
      exact (h.leads_after hrun hact hobey (Node.isLeader_of_lead hlead)).1 lead hlead
    · exact (h.ledger j m hold).mono (List.subset_cons_self _ _)
  secure := by
    intro j m hm
    rcases hact.node_cases hm with ⟨rfl, rfl⟩ | ⟨-, hold⟩
    · exact h.secure_after hrun hact hobey
    · exact (h.secure j m hold).mono (List.subset_cons_self _ _)
  request := by
    intro s r context args hp
    rcases hact.appendRequest_cases hp with hold | ⟨rfl, hsent⟩
    · obtain ⟨L, start, hcall⟩ := h.request s r context args hold
      exact ⟨L, start, hcall.act hact hobey.1 (h.secure i n hact.node).settled⟩
    · exact h.call_after hrun hact hobey hsent
  reply := by
    intro r s context reply hp
    have hsettled := (h.secure i n hact.node).settled
    rcases hact.appendReply_cases hp with hold | ⟨args, rfl, rfl, rfl, hasked⟩
    · obtain ⟨args, L, start, hcall, hheld⟩ := h.reply r s context reply hold
      refine ⟨args, L, start, hcall.act hact hobey.1 hsettled, ?_⟩
      intro hsuccess k hk
      exact (hheld hsuccess k hk).mono (List.subset_cons_self _ _)
    · obtain ⟨L, start, hcall⟩ := h.request _ _ _ _ hasked
      refine ⟨args, L, start, hcall.act hact hobey.1 hsettled, ?_⟩
      intro hsuccess
      exact held_after hrun hact hobey rfl hcall hsuccess

end Step

end Cluster.Replicating

/-- Replication is right in all prudent runs. -/
theorem Run.replicating {size : Nat} {c : Cluster α} {past : List (Cluster α)}
    (h : Run prudent size c past) : c.Replicating size (c :: past) := by
  refine h.invariant (P := fun c past => c.Replicating size (c :: past)) ?_ ?_ ?_
  · exact .fresh size
  · intro c past c' _ ih hrest
    exact ih.rest hrest
  · intro c past i n e c' hrun ih hact hobey
    exact ih.act hrun hact hobey

end Quorum
