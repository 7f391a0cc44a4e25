import Quorum.Proofs.Confirmation

/-!
Match indices. A leader takes a member to hold its log through an entry only on the word of that
member, which has held it in the leader's term. As long as the member stays in that term it goes on
to hold it, unless a disputed call has been written somewhere.
-/

namespace Quorum

variable {α : Type}

namespace Node

variable {n : Node α} {e : Event α}

/-- How a leader comes to the match index of a member: it has just been elected, or it keeps the
one it had, or the member has accepted a call that carried entries. -/
theorem matched_after {lead' : Leadership} (hlead' : (n.after e).role = .leader lead') {p : PeerId}
    {cursor : Cursor} (hcursor : lead'.cursors[p]? = some cursor) :
    cursor.matched = LogIndex.absent ∨
    ∃ lead old, n.role = .leader lead ∧ lead.cursors[p]? = some old ∧
      (cursor.matched = old.matched ∨ ∃ context reply k,
        e = .appendReturned p context (some reply) ∧ reply.success = true ∧
          context.generation = n.generation ∧ context.lastSent = some k ∧
          cursor.matched = max old.matched k) := by
  have hreign : n.Reign (fun _ => True) (fun _ _ => True) e :=
    after_reign (isLeader_of_lead hlead') (fun _ _ => trivial) fun _ _ _ _ _ _ _ _ _ _ _ => trivial
  have hsteps {t : Turn α} {lead : Leadership} (ht : t.node.role = .leader lead)
      (hcourse : Turn.AnySteps t (n.handle e).2) : lead.cursors[p]? = some cursor := by
    rw [← standing_cursors (Turn.Steps.standing hcourse) hlead' ht]
    exact hcursor
  cases hreign with
  | hold hrole hlog hcommit =>
      exact Or.inr ⟨lead', cursor, hrole.symm.trans hlead', hcursor, Or.inl rfl⟩
  | accede hbefore hrole hlog hcommit hgen =>
      obtain rfl := Role.leader.inj (hrole.symm.trans hlead')
      rw [Leadership.cursor_fresh hcursor]
      exact Or.inl rfl
  | store command he hlead hcourse =>
      obtain ⟨l, hl⟩ := exists_lead hlead
      have hkept : (l.enqueue (Log.lastIndex (n.log ++ [⟨n.term, command⟩]))).cursors[p]? =
          some cursor := hsteps (stored_role hl command) hcourse
      exact Or.inr ⟨l, cursor, hl, hkept, Or.inl rfl⟩
  | count sender context reply he hlead hgen hsuccess hcourse =>
      obtain ⟨l, hl⟩ := exists_lead hlead
      have hrecorded := hsteps (record_role hl sender context) hcourse
      unfold Leadership.recorded at hrecorded
      split at hrecorded
      · rename_i k hlast
        obtain ⟨old, hold, ⟨rfl, rfl⟩ | ⟨-, rfl⟩⟩ := Leadership.cursor_recordSuccess hrecorded
        · exact Or.inr ⟨l, old, hl, hold,
            Or.inr ⟨context, reply, k, he, hsuccess, hgen, hlast, rfl⟩⟩
        · exact Or.inr ⟨l, _, hl, hold, Or.inl rfl⟩
      · exact Or.inr ⟨l, cursor, hl, hrecorded, Or.inl rfl⟩
  | retreat sender context reply he hlead hrole hlog hcommit =>
      obtain ⟨l, hl⟩ := exists_lead hlead
      rw [hrole, hl] at hlead'
      obtain rfl := Role.leader.inj hlead'
      obtain ⟨old, hold, hmatched, -⟩ := Leadership.cursor_recordFailure hcursor
      exact Or.inr ⟨l, old, hl, hold, Or.inl hmatched⟩

/-- Every member that a leader takes to hold an entry has held the leader's log through it, in the
leader's term. -/
def Followed (n : Node α) (ds : List (Cluster α)) : Prop :=
  ∀ lead, n.role = .leader lead → ∀ (p : PeerId) cursor, lead.cursors[p]? = some cursor →
    0 ≤ cursor.matched → n.Confirms ds p cursor.matched

theorem Followed.mono {ds es : List (Cluster α)} (h : n.Followed ds) (hsub : ds ⊆ es) :
    n.Followed es := by
  intro lead hlead p cursor hcursor hzero
  exact (h lead hlead p cursor hcursor hzero).of_isPrefix rfl List.prefix_rfl hsub

end Node

/-- What leaders take others to hold, and what successful answers in flight say of it. -/
structure Cluster.Following (c : Cluster α) (ds : List (Cluster α)) : Prop where
  matched : ∀ (i : PeerId) n, c.nodes[i]? = some n → n.Followed ds
  reply : ∀ r s context reply, .appendReply r s context (some reply) ∈ c.packets →
    reply.success = true → ∀ k, context.lastSent = some k →
      ∃ args L start, c.Sent ds s r context args L start ∧ Held ds args.term r (L.through k)

namespace Cluster.Following

variable {c c' : Cluster α} {ds past : List (Cluster α)} {size : Nat} {i : PeerId} {n : Node α}
  {e : Event α}

theorem fresh (size : Nat) : Following (.fresh size : Cluster α) [.fresh size] where
  matched := by
    intro i n hn lead hrole
    obtain ⟨-, rfl⟩ := Cluster.fresh_node hn
    cases hrole
  reply := by
    intro r s context reply hp
    cases hp

theorem rest (h : c.Following ds) (hrest : c.Rests c') : c'.Following (c' :: ds) where
  matched := by
    intro i n hn
    rw [hrest.nodes] at hn
    exact (h.matched i n hn).mono (List.subset_cons_self _ _)
  reply := by
    intro r s context reply hp hsuccess k hk
    obtain ⟨args, L, start, hsent, hheld⟩ :=
      h.reply r s context reply (hrest.mem hp id) hsuccess k hk
    exact ⟨args, L, start, hsent.rest hrest, hheld.mono (List.subset_cons_self _ _)⟩

/-- A success in flight to a node that has not moved on speaks of the node's own log. -/
theorem confirms (h : c.Following ds) (hn : c.nodes[i]? = some n) {p : PeerId}
    {context : AppendContext} {reply : AppendReply}
    (hp : .appendReply p i context (some reply) ∈ c.packets) (hsuccess : reply.success = true)
    (hgen : context.generation = n.generation) {k : LogIndex} (hk : context.lastSent = some k) :
    n.Confirms ds p k := by
  obtain ⟨args, L, start, hsent, hheld⟩ := h.reply p i context reply hp hsuccess k hk
  obtain ⟨hzero, hlt⟩ := hsent.lastSent_lt hn hgen hk
  obtain ⟨m, hm, -, hcurrent⟩ := hsent.sender
  obtain rfl := Option.some.inj (hn.symm.trans hm)
  obtain ⟨-, hterm, hL⟩ := hcurrent hgen
  obtain ⟨-, -, -, hwithin⟩ := hsent.last_of_lastSent hk
  refine ⟨hzero, hlt, ?_⟩
  rw [hterm, Log.through_of_isPrefix hL hwithin]
  exact hheld

/-- A member that accepts a call with entries holds the sender's log through the last of them. -/
theorem held_after (hrun : Run (inRange.both undisputed) size c past)
    {args : AppendRequest α} (hact : c.Acts i n (.appendRequest args) c')
    (hobey : undisputed c n (.appendRequest args)) {s : PeerId} {context : AppendContext}
    {L : Log α} {start : Nat} (hsent : c.Sent (c :: past) s i context args L start)
    (hsuccess : (n.answerAppend args).1.success = true) {k : LogIndex}
    (hk : context.lastSent = some k) : Held (c' :: c :: past) args.term i (L.through k) := by
  obtain ⟨hle, hterm, log, pos, hfit, hlog⟩ := n.answerAppend_success hsuccess
  obtain ⟨hentries, hlast, -, -⟩ := hsent.last_of_lastSent hk
  have hheld : L.take (args.reach start) <+: (n.answerAppend args).2.node.log := by
    rw [hlog]
    rcases hrun.merge_cases (fun _ _ _ h => h) hact.node hobey hle hsent.led hsent.piece hfit with
      ⟨hkept, hmerge⟩ | ⟨-, hmerge⟩ | ⟨hempty, -⟩
    · rw [hmerge]
      exact hkept
    · rw [hmerge]
    · exact absurd hempty hentries
  refine ⟨c', List.mem_cons_self, _, hact.node_self, hterm, ?_⟩
  apply List.IsPrefix.trans _ hheld
  exact List.take_prefix_take_left (by lia)

/-- A leader goes on to count only what members have held. -/
theorem followed_after (h : c.Following (c :: past)) (hact : c.Acts i n e c') :
    (n.after e).Followed (c' :: c :: past) := by
  intro lead' hlead' p cursor hcursor hzero
  have hsub : c :: past ⊆ c' :: c :: past := List.subset_cons_self _ _
  rcases Node.matched_after hlead' hcursor with habsent | ⟨lead, old, hlead, hold, hmatched⟩
  · rw [habsent] at hzero
    cases hzero
  · have hleader := Node.isLeader_of_lead hlead'
    have hterm := (n.after_shift e).leader_term (Node.isLeader_of_lead hlead) hleader
    have hlog := (n.after_writes e).of_leader hleader
    have hknown (hj : 0 ≤ old.matched) :
        (n.after e).Confirms (c' :: c :: past) p old.matched :=
      (h.matched i n hact.node lead hlead p old hold hj).of_isPrefix hterm hlog hsub
    rcases hmatched with hsame | ⟨context, reply, k, rfl, hsuccess, hgen, hlast, hmax⟩
    · rw [hsame] at hzero ⊢
      exact hknown hzero
    · cases hact.cause with
      | appendReturned hp =>
          have hnew := (h.confirms hact.node hp hsuccess hgen hlast).of_isPrefix hterm hlog hsub
          rw [hmax] at hzero ⊢
          rcases Int.le_total old.matched k with hle | hle
          · rw [Int.max_eq_right hle]
            exact hnew
          · have hsame : max old.matched k = old.matched := Int.max_eq_left hle
            rw [hsame] at hzero ⊢
            exact hknown hzero

theorem act (h : c.Following (c :: past)) (hrun : Run (inRange.both undisputed) size c past)
    (hact : c.Acts i n e c') (hobey : inRange.both undisputed c n e) :
    c'.Following (c' :: c :: past) where
  matched := by
    intro j m hm
    rcases hact.node_cases hm with ⟨rfl, rfl⟩ | ⟨-, hold⟩
    · exact h.followed_after hact
    · exact (h.matched j m hold).mono (List.subset_cons_self _ _)
  reply := by
    intro r s context reply hp hsuccess k hk
    rcases hact.appendReply_cases hp with hold | ⟨args, rfl, rfl, rfl, hcall⟩
    · obtain ⟨args, L, start, hsent, hheld⟩ := h.reply r s context reply hold hsuccess k hk
      exact ⟨args, L, start, hsent.act hact hobey.1, hheld.mono (List.subset_cons_self _ _)⟩
    · have hship := (hrun.mono fun _ _ _ h => h.1).shipping
      obtain ⟨L, start, hsent⟩ := hship.request _ _ _ _ hcall
      exact ⟨args, L, start, hsent.act hact hobey.1,
        held_after hrun hact hobey.2 hsent hsuccess hk⟩

end Cluster.Following

/-- Match indices are right in runs without disputed writes. -/
theorem Run.following {size : Nat} {c : Cluster α} {past : List (Cluster α)}
    (h : Run (inRange.both undisputed) size c past) : c.Following (c :: past) := by
  apply h.invariant (P := fun c past => c.Following (c :: past))
  · exact .fresh size
  · intro c past c' _ ih hrest
    exact ih.rest hrest
  · intro c past i n e c' hrun ih hact hobey
    exact ih.act hrun hact hobey

/-- A member in the term of a leader holds the leader's entries through the match index that the
leader keeps for it. -/
theorem matched_held {size : Nat} {c : Cluster α} {past : List (Cluster α)}
    (h : Run (inRange.both undisputed) size c past) {i p : PeerId} {n m : Node α}
    {lead : Leadership} {k : LogIndex} (hn : c.nodes[i]? = some n) (hlead : n.role = .leader lead)
    (hm : c.nodes[p]? = some m) (hterm : m.term = n.term) (hk : lead.matched? p = some k) :
    ∀ j : Nat, (j : Int) ≤ k → ∃ e, n.log[j]? = some e ∧ m.log[j]? = some e := by
  intro j hj
  have hrange : Run inRange size c past := h.mono fun _ _ _ h => h.1
  obtain ⟨cursor, hcursor, rfl⟩ := Option.map_eq_some_iff.mp hk
  obtain ⟨-, hlt, hheld⟩ := h.following.matched i n hn lead hlead p cursor hcursor (by lia)
  have hmine : Led (c :: past) n.term i n.log :=
    ⟨c, List.mem_cons_self, n, hn, Node.isLeader_of_lead hlead, rfl, rfl⟩
  have hprefix : n.log.through cursor.matched <+: m.log := by
    obtain ⟨d, hd, m₀, hm₀, hterm₀, hheld₀⟩ := hheld
    rcases h.keeps_or_clashes (fun _ _ _ h => h) d hd p m₀ m _ hm₀ hheld₀ hm with
      hkept | ⟨T, s, L, hL, hlo, hhi, hclash⟩
    · exact hkept
    · have hT : T = n.term := by lia
      subst hT
      exact absurd hclash (hmine.not_clash hrange hL.cons (Log.through_isPrefix _ _))
  have hentry : (n.log.through cursor.matched)[j]? = n.log[j]? := by
    unfold Log.through
    exact List.getElem?_take_of_lt (by lia)
  have hheld := List.getElem?_eq_getElem (l := n.log) (i := j) (by lia)
  exact ⟨_, hheld, Log.getElem?_of_isPrefix hprefix (hentry.trans hheld)⟩

/-- The first member is elected and stores `10` and `11`, and hears from the second one that it
holds both. -/
def matchedEntries : List (Move Nat) :=
  [.electionTimeout 0, .deliver 0, .deliver 2, .submit 0 10, .submit 0 11, .heartbeatTimeout 0,
    .deliver 7, .deliver 9]

theorem matched_held_matchedEntries :
    ∃ (n m : Node Nat) (lead : Leadership),
      ((Cluster.fresh 3).course [] matchedEntries).1.nodes[0]? = some n ∧
      n.role = .leader lead ∧
      ((Cluster.fresh 3).course [] matchedEntries).1.nodes[1]? = some m ∧ m.term = n.term ∧
      lead.matched? 1 = some 1 ∧
      ∀ j : Nat, (j : Int) ≤ 1 → ∃ e, n.log[j]? = some e ∧ m.log[j]? = some e := by
  have hrun : Run (inRange.both undisputed) 3 ((Cluster.fresh 3).course [] matchedEntries).1
      ((Cluster.fresh 3).course [] matchedEntries).2 := .course .start (by decide)
  refine ⟨_, _, _, rfl, rfl, rfl, rfl, rfl, ?_⟩
  exact matched_held hrun (i := 0) (p := 1) rfl rfl rfl rfl rfl

/-- A leader takes another member, which is in its term, to hold an entry that the member does not
hold. -/
def Cluster.Misjudges (c : Cluster α) : Prop :=
  ∃ (i p : PeerId) (n m : Node α) (lead : Leadership) (k : LogIndex) (j : Nat),
    c.nodes[i]? = some n ∧ n.role = .leader lead ∧ p ≠ i ∧ c.nodes[p]? = some m ∧
      m.term = n.term ∧ lead.matched? p = some k ∧ (j : Int) ≤ k ∧ n.log[j]? ≠ m.log[j]?

/-- A disputed write must not happen: the answer to it tells of entries that are one position off,
and of one that is not there at all. -/
theorem misjudges_disputed : ∃ c past, Run inRange 3 c past ∧ (c : Cluster Nat).Misjudges := by
  refine ⟨((Cluster.fresh 3).course [] (disputedEntry ++ [.deliver 22])).1, _,
    .course .start (by decide), ?_⟩
  exact ⟨2, 0, _, _, _, 2, 2, rfl, rfl, by decide, rfl, rfl, rfl, by decide, by decide⟩

/-- Nor may the last term be reached: the third member keeps the entry of the one of its leaders
and has the other one count it for its own. -/
theorem misjudges_lastTerm : ∃ c past, Run undisputed 3 c past ∧ (c : Cluster Nat).Misjudges := by
  obtain ⟨past, hrun⟩ := Run.pumped undisputed (fun _ _ _ => trivial)
    (T := Term.last) (by decide) (Nat.le_refl _)
  have hmoves : (Cluster.pumped Term.last).AllObey undisputed
      (lastElections ++ [.submit 0 10, .submit 1 20, .deliver 11, .deliver 13, .deliver 15]) := by
    decide
  refine ⟨_, _, hrun.course hmoves, ?_⟩
  rw [Cluster.course_last _ past []]
  exact ⟨1, 2, _, _, _, 0, 0, rfl, rfl, by decide, rfl, rfl, rfl, by decide, by decide⟩

/-- Match indices need not be right in all runs. -/
theorem matched_unheld : ¬ ∀ (size : Nat) (c : Cluster Nat) (past : List (Cluster Nat)),
    Run (fun _ _ _ => True) size c past → ∀ (i p : PeerId) (n m : Node Nat) (lead : Leadership)
      (k : LogIndex), c.nodes[i]? = some n → n.role = .leader lead → p ≠ i →
        c.nodes[p]? = some m → m.term = n.term → lead.matched? p = some k →
          ∀ j : Nat, (j : Int) ≤ k → ∃ e, n.log[j]? = some e ∧ m.log[j]? = some e := by
  intro hheld
  obtain ⟨c, past, hrun, i, p, n, m, lead, k, j, hn, hlead, hp, hm, hterm, hk, hj, hne⟩ :=
    misjudges_disputed
  have hany : Run (fun _ _ _ => True) 3 c past := hrun.mono fun _ _ _ _ => trivial
  obtain ⟨e, he, he'⟩ := hheld 3 c past hany i p n m lead k hn hlead hp hm hterm hk j hj
  exact hne (he.trans he'.symm)

end Quorum
