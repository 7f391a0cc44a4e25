import Quorum.Proofs.Accounts

/-!
What leaders commit on. A leader that raises its commit index has been told by a majority, itself
among it, that calls of its present leadership which reach that far have been accepted. This needs
no more than that a leader can tell the calls of its leadership from those of an earlier one: no
generation counter may start over.
-/

namespace Quorum

variable {α : Type}

/-- No generation counter starts over. -/
def unwrapped : Rule α := fun _ n e => n.generation ≤ (n.after e).generation

instance (c : Cluster α) (n : Node α) (e : Event α) : Decidable (unwrapped c n e) :=
  inferInstanceAs (Decidable (_ ≤ _))

/-- The maker and the context of the append call that a packet is, or answers. -/
def Packet.call? : Packet α → Option (PeerId × AppendContext)
  | .appendRequest sender _ context _ => some (sender, context)
  | .appendReply _ sender context (some _) => some (sender, context)
  | _ => none

/-- Whoever comes to lead has no call under way that bears its new generation. -/
def unrepeated : Rule α := fun c n e => ¬ n.isLeader → (n.after e).isLeader →
  ∀ q ∈ c.packets, ∀ context, q.call? = some (n.id, context) →
    context.generation ≠ (n.after e).generation

theorem Packet.IsFailure.call? {q : Packet α} (h : q.IsFailure) : q.call? = none := by
  cases q with
  | voteRequest _ _ _ _ => cases h
  | appendRequest _ _ _ _ => cases h
  | voteReply _ _ _ _ => rfl
  | appendReply _ _ _ reply =>
      cases reply with
      | none => rfl
      | some _ => cases h

section Calls

variable {rule : Rule α} {size : Nat} {c c' : Cluster α} {past : List (Cluster α)} {i : PeerId}
  {n : Node α} {e : Event α} {q : Packet α} {s : PeerId} {context : AppendContext}

/-- An event puts calls of its own node under way, under the generation that it leads to and with
entries of the node's log, and passes on those it answers. -/
theorem Cluster.Acts.call? (hact : c.Acts i n e c') (hq : q ∈ c'.packets)
    (hcall : q.call? = some (s, context)) :
    (∃ q₀ ∈ c.packets, q₀.call? = some (s, context)) ∨
      s = i ∧ context.generation = (n.after e).generation ∧ (n.after e).isLeader ∧
        ∀ k, context.lastSent = some k → k < (n.after e).log.length := by
  rcases hact.packets _ hq with hold | ⟨a, ha, hsent⟩ | hanswer
  · exact Or.inl ⟨q, hold, hcall⟩
  · cases a with
    | appendEntries peer context' args =>
        obtain rfl := Option.some.inj hsent
        obtain ⟨rfl, rfl⟩ := Prod.mk.inj (Option.some.inj hcall)
        obtain ⟨m, hm, -, hsends⟩ := Node.call_of_handle ha
        obtain ⟨lead, cursor, round, last, -, -, rfl, -⟩ := hsends.call
        refine Or.inr ⟨rfl, Node.standing_generation hm, hsends.isLeader hm, ?_⟩
        intro k hk
        rw [← Node.standing_log hm]
        exact AppendContext.lastSent_ofCall_lt hk
    | requestVote _ _ _ =>
        obtain rfl := Option.some.inj hsent
        cases hcall
    | _ => cases hsent
  · cases hanswer with
    | vote _ => cases hcall
    | append hp =>
        obtain ⟨rfl, rfl⟩ := Prod.mk.inj (Option.some.inj hcall)
        exact Or.inl ⟨_, hp, rfl⟩

/-- Where no counter starts over, no call bears a generation that its maker has yet to come to. -/
theorem Run.call_generation_le (h : Run unwrapped size c past) :
    ∀ q ∈ c.packets, ∀ s context, q.call? = some (s, context) →
      ∃ n, c.nodes[s]? = some n ∧ context.generation ≤ n.generation := by
  refine h.invariant (P := fun c _ => ∀ q ∈ c.packets, ∀ s context,
    q.call? = some (s, context) → ∃ n, c.nodes[s]? = some n ∧ context.generation ≤ n.generation)
    ?_ ?_ ?_
  · intro q hq
    cases hq
  · intro c past c' _ ih hrest q hq s context hcall
    rw [hrest.nodes]
    rcases hrest.packets _ hq with hold | hfail
    · exact ih q hold s context hcall
    · rw [hfail.call?] at hcall
      cases hcall
  · intro c past i n e c' _ ih hact hobey q hq s context hcall
    rcases hact.call? hq hcall with ⟨q₀, hq₀, hcall₀⟩ | ⟨rfl, hgen, -⟩
    · obtain ⟨m, hm, hle⟩ := ih q₀ hq₀ s context hcall₀
      by_cases hs : s = i
      · subst hs
        obtain rfl := Option.some.inj (hact.node.symm.trans hm)
        exact ⟨_, hact.node_self, Nat.le_trans hle hobey⟩
      · exact ⟨m, (hact.node_other hs).trans hm, hle⟩
    · exact ⟨_, hact.node_self, Nat.le_of_eq hgen⟩

theorem Run.unrepeated_of_unwrapped (h : Run unwrapped size c past) :
    Run unrepeated size c past := by
  apply h.mono_of_run
  intro c past e i n hrun hn hobey hbefore hleader q hq context hcall
  obtain ⟨m, hm, hle⟩ := hrun.call_generation_le q hq _ _ hcall
  rw [(hrun.seat i n hn).2.1] at hm
  obtain rfl := Option.some.inj (hn.symm.trans hm)
  have hnew := ((n.after_shift e).accession_generation hbefore hleader).lt hobey
  exact Nat.ne_of_lt (Nat.lt_of_le_of_lt hle hnew)

/-- Whoever leads in the generation of a call under way has led in it before. -/
theorem leads_before (hobey : unrepeated c n e) (hq : q ∈ c.packets)
    (hcall : q.call? = some (n.id, context)) (hleader : (n.after e).isLeader)
    (hgen : context.generation = (n.after e).generation) :
    n.isLeader ∧ context.generation = n.generation := by
  by_cases hbefore : n.isLeader
  · exact ⟨hbefore, hgen.trans ((n.after_shift e).leader_office hbefore hleader).2⟩
  · exact absurd hgen (hobey hbefore hleader q hq context hcall)

end Calls

/-- From one state to the next the member at `p` accepts a call that the one at `i` has made as the
leader it is. -/
structure Cluster.Accepts (d : Cluster α) (i p : PeerId) (context : AppendContext)
    (args : AppendRequest α) (d' : Cluster α) : Prop where
  call : .appendRequest i p context args ∈ d.packets
  current : ∃ n, d.nodes[i]? = some n ∧ n.isLeader ∧ args.term = n.term ∧
    context.generation = n.generation
  answer : ∃ m, d.Acts p m (.appendRequest args) d' ∧ (m.answerAppend args).1.success = true ∧
    .appendReply p i context (some (m.answerAppend args).1) ∈ d'.packets

/-- In the course of the present leadership of the member at `i`, the one at `p` has accepted a call
of it whose entries reach through the index `k`. -/
def Returned (ds : List (Cluster α)) (i p : PeerId) (k : LogIndex) : Prop :=
  ∃ T since d' d before context args, ds = since ++ d' :: d :: before ∧
    (∀ x ∈ since ++ [d', d], x.Leads i T) ∧ d.Accepts i p context args d' ∧
    k ≤ args.prevLogIndex + args.entries.length

namespace Returned

variable {ds : List (Cluster α)} {c c' : Cluster α} {past : List (Cluster α)} {i p s : PeerId}
  {j k : LogIndex} {n m m' : Node α} {e : Event α}

theorem back (h : Returned ds i p j) (hk : k ≤ j) : Returned ds i p k := by
  obtain ⟨T, since, d', d, before, context, args, hds, hleads, haccepts, hreach⟩ := h
  exact ⟨T, since, d', d, before, context, args, hds, hleads, haccepts, Int.le_trans hk hreach⟩

/-- The leadership in which a call has been accepted goes on. -/
theorem cons (h : Returned (c :: past) i p k) (hm : c.nodes[i]? = some m)
    (hleads : m.isLeader → c'.Leads i m.term) : Returned (c' :: c :: past) i p k := by
  obtain ⟨T, since, d', d, before, context, args, hds, hall, haccepts⟩ := h
  refine ⟨T, c' :: since, d', d, before, context, args, congrArg (c' :: ·) hds, ?_, haccepts⟩
  have hc : c ∈ since ++ [d', d] := by
    cases since with
    | nil =>
        obtain ⟨rfl, -⟩ := List.cons.inj hds
        exact List.mem_cons_self
    | cons b since =>
        obtain ⟨rfl, -⟩ := List.cons.inj hds
        exact List.mem_cons_self
  obtain ⟨m₀, hm₀, hleader, rfl⟩ := hall c hc
  obtain rfl := Option.some.inj (hm.symm.trans hm₀)
  intro x hx
  rcases List.mem_cons.mp hx with rfl | hx
  · exact hleads hleader
  · exact hall x hx

theorem rest (h : Returned (c :: past) s p k) (hrest : c.Rests c') (hm : c.nodes[s]? = some m) :
    Returned (c' :: c :: past) s p k := by
  apply h.cons hm
  intro hleader
  exact ⟨m, by rw [hrest.nodes]; exact hm, hleader, rfl⟩

theorem act (h : Returned (c :: past) s p k) (hact : c.Acts i n e c') (hm : c.nodes[s]? = some m)
    (hm' : c'.nodes[s]? = some m') (hleader' : m'.isLeader) :
    Returned (c' :: c :: past) s p k := by
  apply h.cons hm
  intro hleader
  refine ⟨m', hm', hleader', ?_⟩
  rcases hact.node_cases hm' with ⟨rfl, rfl⟩ | ⟨-, hold⟩
  · obtain rfl := Option.some.inj (hm.symm.trans hact.node)
    exact (m.after_shift e).leader_term hleader hleader'
  · obtain rfl := Option.some.inj (hm.symm.trans hold)
    rfl

/-- Before anybody can have accepted a call, its maker has to lead. -/
theorem leads_twice (h : Returned (c :: c' :: past) i p k) : ∃ T, c'.Leads i T := by
  obtain ⟨T, since, d', d, before, context, args, hds, hall, -⟩ := h
  refine ⟨T, hall c' ?_⟩
  cases since with
  | nil =>
      obtain ⟨-, hds⟩ := List.cons.inj hds
      obtain ⟨rfl, -⟩ := List.cons.inj hds
      simp
  | cons b since =>
      obtain ⟨-, hds⟩ := List.cons.inj hds
      cases since with
      | nil =>
          obtain ⟨rfl, -⟩ := List.cons.inj hds
          simp
      | cons b' since =>
          obtain ⟨rfl, -⟩ := List.cons.inj hds
          simp

end Returned

/-- The log of a node holds an entry at an index. -/
def Node.Stores (n : Node α) (j : LogIndex) : Prop := 0 ≤ j ∧ j < n.log.length

theorem Node.Stores.of_isPrefix {n m : Node α} {j : LogIndex} (h : n.Stores j)
    (hlog : n.log <+: m.log) : m.Stores j := by
  have hlength := hlog.length_le
  exact ⟨h.1, by have := h.2; lia⟩

/-- A call of the member at `s` to the one at `r`. What it claims lies within what it carries and
what precedes that. While its maker still leads in its generation, the call is one of the maker's
term, and agreement is sought on an entry that the maker stores, no later than the one after its
commit index. -/
structure Cluster.Asked (c : Cluster α) (s r : PeerId) (context : AppendContext)
    (args : AppendRequest α) : Prop where
  other : s ≠ r
  claims : ∀ k, context.Claims k → 0 ≤ k ∧ k ≤ args.prevLogIndex + args.entries.length
  current : ∀ n, c.nodes[s]? = some n → n.isLeader → context.generation = n.generation →
    args.term = n.term ∧ ∀ j back, context.round = .replicate j back →
      n.Stores j ∧ j ≤ n.commitIndex + 1

/-- What leaders count on and what is in flight about it. -/
structure Cluster.Counting (c : Cluster α) (ds : List (Cluster α)) : Prop where
  ledger : ∀ (i : PeerId) n, c.nodes[i]? = some n → ∀ l, n.role = .leader l →
    l.Accounts i n.Stores (fun p k => p = i ∨ Returned ds i p k) (fun _ j => 0 ≤ j)
  request : ∀ s r context args, .appendRequest s r context args ∈ c.packets →
    c.Asked s r context args
  reply : ∀ r s context reply, .appendReply r s context (some reply) ∈ c.packets →
    ∃ args, c.Asked s r context args ∧ (reply.success = true → ∀ n, c.nodes[s]? = some n →
      n.isLeader → context.generation = n.generation → ∀ k, context.Claims k →
        Returned ds s r k)

section Steps

variable {size : Nat} {c c' : Cluster α} {past : List (Cluster α)} {i s r : PeerId} {n : Node α}
  {e : Event α} {q : Packet α} {context : AppendContext} {args : AppendRequest α}

/-- Whoever leads in the generation of one of its calls under way has led in it before the event.
Its log and its commit index have at most grown. -/
theorem Cluster.Acts.current_before (hrun : Run unrepeated size c past) (hact : c.Acts i n e c')
    (hobey : unrepeated c n e) (hq : q ∈ c.packets) (hcall : q.call? = some (s, context))
    {m' : Node α} (hm' : c'.nodes[s]? = some m') (hleader : m'.isLeader)
    (hgen : context.generation = m'.generation) :
    ∃ m, c.nodes[s]? = some m ∧ m.isLeader ∧ context.generation = m.generation ∧
      m'.term = m.term ∧ m.log <+: m'.log ∧ m.commitIndex ≤ m'.commitIndex := by
  rcases hact.node_cases hm' with ⟨rfl, rfl⟩ | ⟨-, hold⟩
  · rw [← (hrun.seat s n hact.node).2.1] at hcall
    obtain ⟨hbefore, hsame⟩ := leads_before hobey hq hcall hleader hgen
    have hsettled := hrun.settled s n hact.node
    exact ⟨n, hact.node, hbefore, hsame, (n.after_shift e).leader_term hbefore hleader,
      (n.after_writes e).of_leader hleader, (hsettled.handle e).start_le⟩
  · exact ⟨m', hold, hleader, hgen, rfl, List.prefix_rfl, Int.le_refl _⟩

theorem Cluster.Asked.rest (h : c.Asked s r context args) (hrest : c.Rests c') :
    c'.Asked s r context args :=
  ⟨h.other, h.claims, by rw [hrest.nodes]; exact h.current⟩

theorem Cluster.Asked.act (h : c.Asked s r context args) (hrun : Run unrepeated size c past)
    (hact : c.Acts i n e c') (hobey : unrepeated c n e) (hq : q ∈ c.packets)
    (hcall : q.call? = some (s, context)) : c'.Asked s r context args where
  other := h.other
  claims := h.claims
  current := by
    intro m' hm' hleader hgen
    obtain ⟨m, hm, hbefore, hsame, hterm, hlog, hcommit⟩ :=
      hact.current_before hrun hobey hq hcall hm' hleader hgen
    obtain ⟨hargs, hsought⟩ := h.current m hm hbefore hsame
    refine ⟨hargs.trans hterm.symm, ?_⟩
    intro j back hround
    obtain ⟨hstores, hnear⟩ := hsought j back hround
    exact ⟨hstores.of_isPrefix hlog, by lia⟩

end Steps

namespace Cluster.Counting

variable {size : Nat} {c c' : Cluster α} {past : List (Cluster α)} {i : PeerId} {n : Node α}
  {e : Event α}

theorem fresh (size : Nat) : Counting (.fresh size : Cluster α) [.fresh size] where
  ledger := by
    intro i n hn l hrole
    obtain ⟨-, rfl⟩ := Cluster.fresh_node hn
    cases hrole
  request := by
    intro s r context args hp
    cases hp
  reply := by
    intro r s context reply hp
    cases hp

theorem rest (h : c.Counting (c :: past)) (hrest : c.Rests c') :
    c'.Counting (c' :: c :: past) where
  ledger := by
    intro i n hn l hl
    rw [hrest.nodes] at hn
    apply (h.ledger i n hn l hl).mono
    · exact fun _ hj => hj
    · exact fun p k hk => hk.imp_right fun hreturned => hreturned.rest hrest hn
    · exact fun _ _ _ hnext => hnext
  request := by
    intro s r context args hp
    exact (h.request s r context args (hrest.mem hp id)).rest hrest
  reply := by
    intro r s context reply hp
    obtain ⟨args, hasked, hreturned⟩ := h.reply r s context reply (hrest.mem hp id)
    refine ⟨args, hasked.rest hrest, ?_⟩
    intro hsuccess n hn hleader hgen k hk
    rw [hrest.nodes] at hn
    exact (hreturned hsuccess n hn hleader hgen k hk).rest hrest hn

section Step

variable (h : c.Counting (c :: past)) (hrun : Run unrepeated size c past)
  (hact : c.Acts i n e c') (hobey : unrepeated c n e)

include h hact in
/-- A node that leads after an event has had what it takes to keep right accounts. -/
theorem accountable (hleader : (n.after e).isLeader) :
    n.Accountable i (n.after e).Stores (fun p k => p = i ∨ Returned (c :: past) i p k)
      (fun _ j => 0 ≤ j) e where
  sound := ⟨fun _ _ _ hj _ hle => hj.imp_right (·.back hle), fun _ _ _ => Or.inl rfl⟩
  own := fun j hj => ⟨hj.1, Or.inl rfl⟩
  back := by
    intro p j hpos _
    lia
  kept := by
    intro l hl
    apply (h.ledger i n hact.node l hl).mono
    · exact fun j hj => hj.of_isPrefix ((n.after_writes e).of_leader hleader)
    · exact fun _ _ hk => hk
    · exact fun _ _ _ hnext => hnext
  fresh := fun _ _ => Int.natCast_nonneg _
  stored := by
    rintro command rfl hold
    have hlog : (n.after (.submit command)).log = n.log ++ [⟨n.term, command⟩] :=
      Node.submit_log hold command
    unfold Node.Stores
    rw [hlog, List.length_append, List.length_singleton]
    constructor <;> lia
  claimed := by
    rintro sender context reply rfl hsuccess hold hgen
    cases hact.cause with
    | appendReturned hp =>
        obtain ⟨args, hasked, hreturned⟩ := h.reply _ _ _ _ hp
        refine ⟨Ne.symm hasked.other, ?_, ?_⟩
        · intro k hk
          exact Or.inr (hreturned hsuccess n hact.node hold hgen k hk)
        · intro k hk
          exact Int.le_trans (hasked.claims k (Or.inl hk)).1 k.le_next

include h hrun hact in
/-- What a leader raises its commit index to in an event, a majority has returned to it before. -/
theorem backed_after (hleader : (n.after e).isLeader) :
    (∀ l, (n.after e).role = .leader l → l.Accounts i (n.after e).Stores
      (fun p k => p = i ∨ Returned (c :: past) i p k) (fun _ j => 0 ≤ j)) ∧
      ((n.after e).commitIndex = n.commitIndex ∨ ∃ j, (n.after e).commitIndex ≤ j ∧
        Backed size (fun p k => p = i ∨ Returned (c :: past) i p k) j) := by
  obtain ⟨-, hid, hsize⟩ := hrun.seat i n hact.node
  have habsent := (hrun.settled i n hact.node).absent_le
  exact (h.accountable hact hleader).after hid hsize habsent hleader

include h hrun hact in
/-- Whatever a node calls for in an event is sent to another one, and agreement is sought on an
entry that it stores, no later than the one after its commit index. -/
theorem sends_after {peer : PeerId} {context : AppendContext} {args : AppendRequest α}
    (hsent : .appendEntries peer context args ∈ (n.handle e).2.actions) :
    ∃ m : Node α, m.standing = (n.after e).standing ∧ m.commitIndex ≤ (n.after e).commitIndex ∧
      m.Sends (fun p j k => p ≠ n.id ∧ ((n.after e).isLeader → (n.after e).Stores j) ∧ j ≤ k + 1)
        peer context args := by
  obtain ⟨-, hid, -⟩ := hrun.seat i n hact.node
  have hopens : ∀ j, n.Awaits j ∨ (∃ command, e = .submit command) ∧ j = (n.log.length : Int) →
      ((n.after e).isLeader → (n.after e).Stores j) := by
    intro j hj hleader
    exact (h.accountable hact hleader).opens hleader hj
  apply Node.sends_of_handle hsent hopens
  rintro sender ctx reply rfl hold hgen j back hround
  cases hact.cause with
  | appendReturned hp =>
      obtain ⟨args, hasked, -⟩ := h.reply _ _ _ _ hp
      obtain ⟨-, hsought⟩ := hasked.current n hact.node hold hgen
      obtain ⟨hstores, hnear⟩ := hsought j back hround
      refine ⟨?_, ?_, hnear⟩
      · rw [hid]
        exact Ne.symm hasked.other
      · intro hleader
        exact hstores.of_isPrefix ((n.after_writes _).of_leader hleader)

include h hrun hact in
/-- Whatever a node calls for in an event is as it should be. -/
theorem asked_after {peer : PeerId} {context : AppendContext} {args : AppendRequest α}
    (hsent : .appendEntries peer context args ∈ (n.handle e).2.actions) :
    c'.Asked i peer context args := by
  obtain ⟨-, hid, -⟩ := hrun.seat i n hact.node
  obtain ⟨m, hm, hcommit, hsends⟩ := h.sends_after hrun hact hsent
  obtain ⟨lead, cursor, round, last, -, -, hcontext, hargs, -, hround⟩ := hsends.call
  have hleader : (n.after e).isLeader := hsends.isLeader hm
  have hlog := Node.standing_log hm
  refine ⟨?_, ?_, ?_⟩
  · have hsame : m.id = n.id := (Node.standing_id hm).trans (n.after_shift e).id
    rw [← hid, ← hsame]
    exact Ne.symm (hsends.peer_ne fun p _ _ hp => by rw [hsame]; exact hp.1)
  · intro k hk
    apply hsends.claims_le _ _ hk
    · intro l hl p cursor hcursor
      obtain ⟨l', hl'⟩ := Node.exists_lead hleader
      rw [Node.standing_cursors hm hl hl'] at hcursor
      exact ((h.backed_after hrun hact hleader).1 l' hl').next p cursor hcursor
    · rintro p j k ⟨-, hstores, hnear⟩
      rw [hlog]
      exact ⟨(hstores hleader).1, (hstores hleader).2, hnear⟩
  · intro m' hm' _ _
    obtain rfl := Option.some.inj (hact.node_self.symm.trans hm')
    subst hargs
    subst hcontext
    refine ⟨Node.standing_term hm, ?_⟩
    intro j back hsought
    obtain ⟨-, hstores, hnear⟩ := hround j back hsought
    exact ⟨hstores hleader, by lia⟩

include h hrun hact hobey in
theorem act : c'.Counting (c' :: c :: past) where
  ledger := by
    intro j m hm l hl
    have hleader := Node.isLeader_of_lead hl
    rcases hact.node_cases hm with ⟨rfl, rfl⟩ | ⟨-, hold⟩
    · apply ((h.backed_after hrun hact hleader).1 l hl).mono
      · exact fun _ hj => hj
      · exact fun p k hk => hk.imp_right fun hreturned => hreturned.act hact hact.node hm hleader
      · exact fun _ _ _ hnext => hnext
    · apply (h.ledger j m hold l hl).mono
      · exact fun _ hj => hj
      · exact fun p k hk => hk.imp_right fun hreturned => hreturned.act hact hold hm hleader
      · exact fun _ _ _ hnext => hnext
  request := by
    intro s r context args hp
    rcases hact.appendRequest_cases hp with hold | ⟨rfl, hsent⟩
    · exact (h.request s r context args hold).act hrun hact hobey hold rfl
    · exact h.asked_after hrun hact hsent
  reply := by
    intro r s context reply hp
    rcases hact.appendReply_cases hp with hold | ⟨args, rfl, rfl, rfl, hcall⟩
    · obtain ⟨args, hasked, hreturned⟩ := h.reply r s context reply hold
      refine ⟨args, hasked.act hrun hact hobey hold rfl, ?_⟩
      intro hsuccess m' hm' hleader hgen k hk
      obtain ⟨m, hm, hbefore, hsame, -⟩ :=
        hact.current_before hrun hobey hold rfl hm' hleader hgen
      exact (hreturned hsuccess m hm hbefore hsame k hk).act hact hm hm' hleader
    · have hasked := h.request _ _ _ _ hcall
      refine ⟨args, hasked.act hrun hact hobey hcall rfl, ?_⟩
      intro hsuccess m hm hleader hgen k hk
      have hsame : c.nodes[s]? = some m := by
        rw [← hact.node_other hasked.other]
        exact hm
      have hterm := (hasked.current m hsame hleader hgen).1
      refine ⟨m.term, [], c', c, past, context, args, rfl, ?_, ?_, (hasked.claims k hk).2⟩
      · intro x hx
        simp only [List.nil_append, List.mem_cons, List.not_mem_nil, or_false] at hx
        rcases hx with rfl | rfl
        · exact ⟨m, hm, hleader, rfl⟩
        · exact ⟨m, hsame, hleader, rfl⟩
      · exact ⟨hcall, ⟨m, hsame, hleader, hterm, hgen⟩, n, hact, hsuccess, hp⟩

end Step

end Cluster.Counting

/-- Leaders count rightly as long as they can tell their calls apart. -/
theorem Run.counting {size : Nat} {c : Cluster α} {past : List (Cluster α)}
    (h : Run unrepeated size c past) : c.Counting (c :: past) := by
  apply h.invariant (P := fun c past => c.Counting (c :: past))
  · exact .fresh size
  · intro c past c' _ ih hrest
    exact ih.rest hrest
  · intro c past i n e c' hrun ih hact hobey
    exact ih.act hrun hact hobey

theorem Returned.lt_size {rule : Rule α} {size : Nat} {c : Cluster α} {past : List (Cluster α)}
    (h : Run rule size c past) {i p : PeerId} {k : LogIndex}
    (hreturned : Returned (c :: past) i p k) : p < size := by
  obtain ⟨T, since, d', d, before, context, args, hds, -, ⟨-, -, m, hact, -⟩, -⟩ := hreturned
  have hd : d ∈ c :: past := by
    rw [hds]
    simp
  obtain ⟨_, hrun, -⟩ := h.of_mem hd
  exact (hrun.seat p m hact.node).1

/-- The member at `i` belongs to a majority of which everybody else has accepted, in the course of
the present leadership of that member, a call of it that reaches through the index `k`. -/
def Recorded (size : Nat) (ds : List (Cluster α)) (i : PeerId) (k : LogIndex) : Prop :=
  ∃ votes : Tally, votes.IsMajority size ∧ i ∈ votes.peers ∧
    ∀ p ∈ votes.peers, p < size ∧ (p ≠ i → Returned ds i p k)

/-- A leader raises its commit index only to what is recorded as accepted by a majority. -/
theorem commit_recorded {size : Nat} {c c' : Cluster α} {past : List (Cluster α)}
    (h : Run unwrapped size c' (c :: past)) {i : PeerId} {n n' : Node α}
    (hn : c.nodes[i]? = some n) (hn' : c'.nodes[i]? = some n') (hleader : n'.isLeader)
    (hraised : n.commitIndex < n'.commitIndex) : Recorded size (c :: past) i n'.commitIndex := by
  obtain ⟨hrun, hquiet | ⟨j, m, e, hact, -⟩⟩ := h.last_move
  · rw [hquiet.nodes, hn] at hn'
    obtain rfl := Option.some.inj hn'
    exact absurd hraised (Int.lt_irrefl _)
  · rcases hact.node_cases hn' with ⟨rfl, rfl⟩ | ⟨-, hold⟩
    · obtain rfl := Option.some.inj (hn.symm.trans hact.node)
      have hcount := hrun.unrepeated_of_unwrapped
      obtain ⟨-, hstill | ⟨k, hle, votes, hmajority, hvotes⟩⟩ :=
        hcount.counting.backed_after hcount hact hleader
      · rw [hstill] at hraised
        exact absurd hraised (Int.lt_irrefl _)
      · refine ⟨votes.add i, hmajority.add i, Tally.mem_add.mpr (Or.inr rfl), ?_⟩
        intro p hp
        rcases Tally.mem_add.mp hp with hvote | rfl
        · rcases hvotes p hvote with rfl | hreturned
          · exact ⟨(hrun.seat p n hn).1, fun hne => absurd rfl hne⟩
          · exact ⟨hreturned.lt_size hrun, fun _ => hreturned.back hle⟩
        · exact ⟨(hrun.seat p n hn).1, fun hne => absurd rfl hne⟩
    · obtain rfl := Option.some.inj (hn.symm.trans hold)
      exact absurd hraised (Int.lt_irrefl _)

/-- The first member is elected, stores `10` and has the second one copy it. -/
def acceptedEntry : List (Move Nat) :=
  [.electionTimeout 0, .deliver 0, .deliver 2, .submit 0 10, .deliver 5]

theorem commit_recorded_acceptedEntry :
    ∃ n n' : Node Nat, ((Cluster.fresh 3).course [] acceptedEntry).1.nodes[0]? = some n ∧
      (((Cluster.fresh 3).course [] acceptedEntry).1.play (.deliver 7)).nodes[0]? = some n' ∧
      n'.isLeader ∧ n.commitIndex = -1 ∧ n'.commitIndex = 0 ∧
      Recorded 3 (((Cluster.fresh 3).course [] acceptedEntry).1 ::
        ((Cluster.fresh 3).course [] acceptedEntry).2) 0 0 := by
  have hrun : Run unwrapped 3 ((Cluster.fresh 3).course [] acceptedEntry).1
      ((Cluster.fresh 3).course [] acceptedEntry).2 := .course .start (by decide)
  have hlast := hrun.move (.deliver 7) (by decide)
  refine ⟨_, _, rfl, rfl, rfl, rfl, rfl, ?_⟩
  exact commit_recorded hlast (i := 0) rfl rfl rfl (by decide)

/-- A packet that tells the member at `i` that a call of it has been accepted. -/
def Packet.isSuccess (i : PeerId) : Packet α → Bool
  | .appendReply _ s _ (some reply) => s = i && reply.success
  | _ => false

/-- Where no word of an accepted call has ever been under way to a member, nothing is recorded for
it. -/
theorem Recorded.exists_success {size : Nat} {ds : List (Cluster α)} {i : PeerId} {k : LogIndex}
    (h : Recorded size ds i k) (hsize : 1 < size) : ∃ d ∈ ds, ∃ q ∈ d.packets, q.isSuccess i := by
  obtain ⟨votes, hmajority, -, hvotes⟩ := h
  obtain ⟨p, hp, hne⟩ := hmajority.exists_ne hsize i
  obtain ⟨T, since, d', d, before, context, args, rfl, -, haccepts, -⟩ := (hvotes p hp).2 hne
  obtain ⟨m, -, hsuccess, hreply⟩ := haccepts.answer
  exact ⟨d', by simp, _, hreply, by simp [Packet.isSuccess, hsuccess]⟩

/-- The first member is elected, and after it the second one, which commits `20` with the third.
The first one takes itself for the leader of its term all the while. -/
def deposedLeader : List (Move Nat) :=
  [.electionTimeout 0, .deliver 0, .deliver 2, .electionTimeout 1, .deliver 6, .deliver 7,
    .submit 1 20, .deliver 11, .deliver 12, .heartbeatTimeout 1]

/-- The leader has to remain one: as it steps down it commits what the next one tells it to. -/
theorem commit_unrecorded : ¬ ∀ (size : Nat) (c c' : Cluster Nat) (past : List (Cluster Nat)),
    Run (fun _ _ _ => True) size c' (c :: past) → ∀ (i : PeerId) (n n' : Node Nat),
      c.nodes[i]? = some n → c'.nodes[i]? = some n' → n.isLeader →
        n.commitIndex < n'.commitIndex → Recorded size (c :: past) i n'.commitIndex := by
  intro hrecorded
  have hrun : Run (fun _ _ _ => True) 3 ((Cluster.fresh 3).course [] deposedLeader).1
      ((Cluster.fresh 3).course [] deposedLeader).2 := .course .start (by decide)
  have hlast := hrun.move (.deliver 13) (by decide)
  obtain ⟨d, hd, q, hq, hsuccess⟩ :=
    (hrecorded 3 _ _ _ hlast 0 _ _ rfl rfl rfl (by decide)).exists_success (by decide)
  have hnone : ∀ d ∈ ((Cluster.fresh 3).course [] deposedLeader).1 ::
      ((Cluster.fresh 3).course [] deposedLeader).2, ∀ q ∈ d.packets, ¬ q.isSuccess 0 := by decide
  exact hnone d hd q hq hsuccess

/-- Two members. The first one is elected and stores `10`, which the second one copies. Before word
of this gets through, the second one stands for election. -/
def lateWord : List (Move Nat) :=
  [.electionTimeout 0, .deliver 0, .deliver 1, .submit 0 10, .deliver 3, .electionTimeout 1,
    .deliver 5]

/-- Generations may not start over: once the first member leads again in the generation of its first
leadership, it takes the word for an answer to a call of the present one. -/
theorem commit_unrecorded_wrapped : ∃ (c c' : Cluster Nat) (past : List (Cluster Nat)),
    Run (fun _ _ _ => True) 2 c' (c :: past) ∧ ∃ n n' : Node Nat, c.nodes[0]? = some n ∧
      c'.nodes[0]? = some n' ∧ n.isLeader ∧ n'.isLeader ∧ n.commitIndex < n'.commitIndex ∧
        ¬ Recorded 2 (c :: past) 0 n'.commitIndex := by
  have hrun : Run (fun _ _ _ => True) 2 ((Cluster.fresh 2).course [] lateWord).1
      ((Cluster.fresh 2).course [] lateWord).2 := .course .start (by decide)
  obtain ⟨before, hwrapped, -⟩ := hrun.stand_often (i := 0) rfl (by decide) (by decide)
    (fun _ _ _ => trivial) (Term.last - 4 + 1)
  rw [Node.stood_iterate (by decide)] at hwrapped
  have hagain := hwrapped.course
    (show Cluster.AllObey _ _ [.electionTimeout 0, .deliver 7, .deliver 8] by decide)
  have hlast := hagain.move (.deliver 4) fun _ _ _ _ => trivial
  refine ⟨_, _, _, hlast, _, _, rfl, rfl, rfl, rfl, by decide, ?_⟩
  rintro ⟨votes, hmajority, -, hvotes⟩
  obtain ⟨p, hp, hne⟩ := hmajority.exists_ne (by decide) 0
  obtain ⟨T, n, hn, hleader, -⟩ := ((hvotes p hp).2 hne).leads_twice
  obtain rfl := Option.some.inj hn
  exact absurd hleader (by decide)

end Quorum
