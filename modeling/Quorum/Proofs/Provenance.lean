import Quorum.Proofs.Fencing
import Quorum.Proofs.Safekeeping

/-!
Where entries come from. A log grows by a command that its leader accepts, and by what a leader has
sent; it is cut and overlaid, but no entry is made up on the way and none changes its term. So each
entry, wherever it turns up, has been submitted to a leader of its term.
-/

namespace Quorum

variable {α : Type}

/-- From one state to the next the member at `i`, leading the term of an entry, accepts its command
and stores the entry. -/
def Cluster.Enters (d : Cluster α) (i : PeerId) (e : Entry α) (d' : Cluster α) : Prop :=
  ∃ n n', d.nodes[i]? = some n ∧ n.isLeader ∧ n.term = e.term ∧
    d.submit i e.command = (.submission ⟨n.log.length, e.term, true⟩, d') ∧
    d'.nodes[i]? = some n' ∧ n'.log = n.log ++ [e]

/-- An entry has been accepted in the course of the states `ds`, of which the latest comes first. -/
def Entered (ds : List (Cluster α)) (e : Entry α) : Prop :=
  ∃ since d' d before i, ds = since ++ d' :: d :: before ∧ d.Enters i e d'

theorem Entered.cons {ds : List (Cluster α)} {e : Entry α} (h : Entered ds e) (c : Cluster α) :
    Entered (c :: ds) e := by
  obtain ⟨since, d', d, before, i, rfl, henters⟩ := h
  exact ⟨c :: since, d', d, before, i, rfl, henters⟩

/-- A leader accepts whatever is submitted to it. -/
theorem Cluster.enters_of_submit {c : Cluster α} {i : PeerId} {n : Node α}
    (hn : c.nodes[i]? = some n) (hleader : n.isLeader) (x : α) :
    c.Enters i ⟨n.term, x⟩ (c.submit i x).2 := by
  have hsubmit : c.submit i x = (.submission (n.submit x).1, c.settle i (n.submit x).2) :=
    handle_of_some hn _
  have hanswer : (n.submit x).1 = ⟨n.log.length, n.term, true⟩ := by
    simp only [Node.submit, if_pos hleader, Log.lastIndex_append_one]
  refine ⟨n, (n.submit x).2.node, hn, hleader, rfl, ?_, ?_, Node.submit_log hleader x⟩
  · rw [hsubmit, hanswer]
  · rw [hsubmit]
    exact List.getElem?_set_self (List.getElem?_eq_some_iff.mp hn).1

/-- Nothing but a submission lets a command be submitted. -/
theorem Cluster.move_of_submit {c : Cluster α} {m : Move α} {i : PeerId} {x : α}
    (h : c.event? m = some (i, .submit x)) : m = .submit i x := by
  cases m with
  | submit j y =>
      obtain ⟨rfl, heq⟩ := Prod.mk.inj (Option.some.inj h)
      rw [Event.submit.inj heq]
  | deliver k =>
      obtain ⟨p, -, harrival⟩ := Option.bind_eq_some_iff.mp h
      cases p with
      | voteRequest | appendRequest =>
          simp only [arrival?] at harrival
          split at harrival
          · cases harrival
          · cases harrival
      | voteReply | appendReply => cases harrival
  | _ => cases h

namespace Log

theorem mem_of_mem_overlay {held incoming : List (Entry α)} {e : Entry α}
    (h : e ∈ overlay held incoming) : e ∈ held ∨ e ∈ incoming := by
  induction held generalizing incoming with
  | nil =>
      rw [overlay_nil_left] at h
      exact Or.inr h
  | cons f held ih =>
      cases incoming with
      | nil => exact Or.inl h
      | cons g incoming =>
          rw [overlay] at h
          split at h
          · rcases List.mem_cons.mp h with rfl | hrest
            · exact Or.inl List.mem_cons_self
            · exact (ih hrest).imp (List.mem_cons_of_mem _) (List.mem_cons_of_mem _)
          · exact Or.inr h

theorem mem_of_mem_merge {log : Log α} {start : Nat} {incoming : List (Entry α)} {e : Entry α}
    (h : e ∈ log.merge start incoming) : e ∈ log ∨ e ∈ incoming := by
  rcases List.mem_append.mp h with hbefore | hfrom
  · exact Or.inl (List.mem_of_mem_take hbefore)
  · exact (mem_of_mem_overlay hfrom).imp_left List.mem_of_mem_drop

theorem mem_of_mem_slice {log : Log α} {i j : LogIndex} {e : Entry α} (h : e ∈ log.slice i j) :
    e ∈ log :=
  List.mem_of_mem_take (List.mem_of_mem_drop h)

theorem mem_of_entryAt? {log : Log α} {i : LogIndex} {e : Entry α} (h : log.entryAt? i = some e) :
    e ∈ log := by
  unfold entryAt? at h
  split at h
  · exact List.mem_of_getElem? h
  · cases h

end Log

/-- A log that is held against an append call loses entries at most. -/
theorem Node.prefix_of_reconcile? {log kept : Log α} {args : AppendRequest α} {start : Nat}
    (h : reconcile? log args = some (kept, start)) : kept <+: log := by
  unfold reconcile? at h
  split at h
  · obtain ⟨rfl, -⟩ := Prod.mk.inj (Option.some.inj h)
    exact List.prefix_rfl
  · split at h
    · cases h
    · split at h
      · obtain ⟨rfl, -⟩ := Prod.mk.inj (Option.some.inj h)
        exact List.prefix_rfl
      · obtain ⟨rfl, -⟩ := Prod.mk.inj (Option.some.inj h)
        exact List.take_prefix _ _

/-- Entries from a source, none of them of a later term than the given one. -/
def Sourced (source : Entry α → Prop) (T : Term) (es : List (Entry α)) : Prop :=
  ∀ e ∈ es, source e ∧ e.term ≤ T

namespace Sourced

variable {source other : Entry α → Prop} {T U : Term} {es fs : List (Entry α)}

theorem mono (h : Sourced source T es) (hsource : ∀ e, source e → other e) (hle : T ≤ U)
    (hsub : fs ⊆ es) : Sourced other U fs := by
  intro e he
  obtain ⟨hfrom, hterm⟩ := h e (hsub he)
  exact ⟨hsource e hfrom, Nat.le_trans hterm hle⟩

/-- An event brings no entry into a log but what is accepted, or carried by the call that it is. -/
theorem after {n : Node α} {e : Event α} (hn : Sourced source n.term n.log)
    (hcall : ∀ args, e = .appendRequest args → Sourced source args.term args.entries)
    (hsubmit : ∀ x, e = .submit x → n.isLeader → source ⟨n.term, x⟩) :
    Sourced source (n.after e).term (n.after e).log := by
  have hle : n.term ≤ (n.after e).term := (n.after_shift e).term_le
  have hheld : Sourced source (n.after e).term n.log :=
    hn.mono (fun _ => id) hle fun _ => id
  cases n.after_writes e with
  | keep hlog =>
      rw [hlog]
      exact hheld
  | store x he hleader hlog =>
      rw [hlog]
      intro f hf
      rcases List.mem_append.mp hf with hold | hnew
      · exact hheld f hold
      · obtain rfl := List.mem_singleton.mp hnew
        exact ⟨hsubmit x he hleader, hle⟩
  | accept args kept start he _ hterm _ hfit hlog =>
      rw [hlog]
      intro f hf
      rcases Log.mem_of_mem_merge hf with hold | hnew
      · exact hheld f ((Node.prefix_of_reconcile? hfit).subset hold)
      · rw [hterm]
        exact hcall args he f hnew

/-- A call carries entries of the log of the node that makes it. -/
theorem call {n : Node α} {e : Event α} {peer : PeerId} {context : AppendContext}
    {args : AppendRequest α} (h : Sourced source (n.after e).term (n.after e).log)
    (hsent : .appendEntries peer context args ∈ (n.handle e).2.actions) :
    Sourced source args.term args.entries := by
  obtain ⟨m, hstanding, -, hsends⟩ := Node.call_of_handle hsent
  obtain ⟨lead, cursor, round, last, -, -, -, rfl, -⟩ := hsends.call
  rw [← Node.standing_log hstanding, ← Node.standing_term hstanding] at h
  exact h.mono (fun _ => id) (Nat.le_refl _) fun _ => Log.mem_of_mem_slice

/-- What a node hands over in an event are commands of its log. -/
theorem applied {n : Node α} {e : Event α} (hn : n.Settled)
    (h : Sourced source (n.after e).term (n.after e).log) :
    ∀ x ∈ (n.handle e).2.applied, ∃ f, source f ∧ f.command = x.2 := by
  intro x hx
  obtain ⟨k, hk⟩ := List.getElem?_of_mem hx
  obtain ⟨-, hentry⟩ := (hn.handle e).entry k x hk
  obtain ⟨f, hf, hcommand⟩ := Option.map_eq_some_iff.mp hentry
  exact ⟨f, (h f (Log.mem_of_entryAt? hf)).1, hcommand⟩

end Sourced

namespace Cluster

/-- All entries of a cluster come from a source: those that are held, those on their way, and those
whose commands have been handed over. -/
structure AllSourced (source : Entry α → Prop) (c : Cluster α) : Prop where
  log : ∀ (i : PeerId) n, c.nodes[i]? = some n → Sourced source n.term n.log
  request : ∀ s r context args, .appendRequest s r context args ∈ c.packets →
    Sourced source args.term args.entries
  applied : ∀ xs ∈ c.applied, ∀ x ∈ xs, ∃ e, source e ∧ e.command = x.2

namespace AllSourced

variable {source other : Entry α → Prop} {c c' : Cluster α}

theorem fresh (source : Entry α → Prop) (size : Nat) : AllSourced source (.fresh size) where
  log := by
    intro i n hn e he
    obtain ⟨-, rfl⟩ := fresh_node hn
    cases he
  request := by
    intro s r context args hp
    cases hp
  applied := by
    intro xs hxs x hx
    rw [List.eq_of_mem_replicate hxs] at hx
    cases hx

theorem mono (h : c.AllSourced source) (hsource : ∀ e, source e → other e) :
    c.AllSourced other where
  log := fun i n hn => (h.log i n hn).mono hsource (Nat.le_refl _) fun _ => id
  request := fun s r context args hp =>
    (h.request s r context args hp).mono hsource (Nat.le_refl _) fun _ => id
  applied := by
    intro xs hxs x hx
    obtain ⟨e, he, hcommand⟩ := h.applied xs hxs x hx
    exact ⟨e, hsource e he, hcommand⟩

theorem rest (h : c.AllSourced source) (hrest : c.Rests c') : c'.AllSourced source where
  log := by
    rw [hrest.nodes]
    exact h.log
  request := fun s r context args hp => h.request s r context args (hrest.mem hp id)
  applied := by
    rw [hrest.applied]
    exact h.applied

/-- An event keeps to the source if the command does that it may have a leader store. -/
theorem act (h : c.AllSourced source) {i : PeerId} {n : Node α} {e : Event α}
    (hact : c.Acts i n e c') (hn : n.Settled)
    (hsubmit : ∀ x, e = .submit x → n.isLeader → source ⟨n.term, x⟩) : c'.AllSourced source := by
  have hcall : ∀ args, e = .appendRequest args → Sourced source args.term args.entries := by
    rintro args rfl
    cases hact.cause with
    | appendRequest hp => exact h.request _ _ _ _ hp
  have hafter := (h.log i n hact.node).after hcall hsubmit
  refine ⟨?_, ?_, ?_⟩
  · intro j m hm
    rcases hact.node_cases hm with ⟨-, rfl⟩ | ⟨-, hold⟩
    · exact hafter
    · exact h.log j m hold
  · intro s r context args hp
    rcases hact.appendRequest_cases hp with hold | ⟨-, hnew⟩
    · exact h.request s r context args hold
    · exact hafter.call hnew
  · intro xs hxs x hx
    rw [hact.applied] at hxs
    obtain ⟨j, hj⟩ := List.getElem?_of_mem hxs
    rw [List.getElem?_modify] at hj
    obtain ⟨ys, hys, rfl⟩ := Option.map_eq_some_iff.mp hj
    have hold := h.applied ys (List.mem_of_getElem? hys)
    split at hx
    · rcases List.mem_append.mp hx with hbefore | hnew
      · exact hold x hbefore
      · exact hafter.applied hn x hnew
    · exact hold x hx

end AllSourced

end Cluster

theorem Run.allSourced {rule : Rule α} {size : Nat} {c : Cluster α} {past : List (Cluster α)}
    (h : Run rule size c past) : c.AllSourced (Entered (c :: past)) := by
  induction h with
  | start => exact .fresh _ size
  | @move c past m hrun hm ih =>
      have hbefore : c.AllSourced (Entered (c.play m :: c :: past)) :=
        ih.mono fun _ he => he.cons _
      rcases c.play_cases m with ⟨hrest, -⟩ | ⟨i, n, e, hevent, hact⟩
      · exact hbefore.rest hrest
      · refine hbefore.act hact (hrun.settled i n hact.node) ?_
        rintro x rfl hleader
        obtain rfl := Cluster.move_of_submit hevent
        exact ⟨[], _, c, past, i, rfl, Cluster.enters_of_submit hact.node hleader x⟩

/-- No entry is made up and none changes its term. Every entry that a member holds has been accepted
by a leader of its term, and its term is not later than the member's own; every entry that an append
call carries has been accepted in the same way; and every command handed over is that of such an
entry. -/
theorem entries_accepted {rule : Rule α} {size : Nat} {c : Cluster α} {past : List (Cluster α)}
    (h : Run rule size c past) :
    (∀ (i : PeerId) n, c.nodes[i]? = some n → ∀ e ∈ n.log,
      Entered (c :: past) e ∧ e.term ≤ n.term) ∧
    (∀ s r context args, .appendRequest s r context args ∈ c.packets → ∀ e ∈ args.entries,
      Entered (c :: past) e) ∧
    ∀ xs ∈ c.applied, ∀ x ∈ xs, ∃ e, Entered (c :: past) e ∧ e.command = x.2 := by
  have hsourced := h.allSourced
  refine ⟨hsourced.log, ?_, hsourced.applied⟩
  intro s r context args hp e he
  exact (hsourced.request s r context args hp e he).1

/-- The first member has handed over `10` and `11`, and `20` of the second term has replaced both in
its log: all three have been accepted. The call that brought `20` is still in flight. -/
theorem entries_accepted_reusedIndex :
    Entered (((Cluster.fresh 3).course [] reusedIndex).1 ::
      ((Cluster.fresh 3).course [] reusedIndex).2) ⟨2, 20⟩ ∧
    ∀ x ∈ [10, 11], ∃ e, Entered (((Cluster.fresh 3).course [] reusedIndex).1 ::
      ((Cluster.fresh 3).course [] reusedIndex).2) e ∧ e.command = x := by
  have hrun : Run (fun _ _ _ => True) 3 ((Cluster.fresh 3).course [] reusedIndex).1
      ((Cluster.fresh 3).course [] reusedIndex).2 := .course .start (by decide)
  obtain ⟨hlog, -, happlied⟩ := entries_accepted hrun
  refine ⟨(hlog 0 _ rfl ⟨2, 20⟩ (by decide)).1, ?_⟩
  intro x hx
  have hgiven := happlied [(0, 10), (1, 11)] (by decide)
  simp only [List.mem_cons, List.not_mem_nil, or_false] at hx
  rcases hx with rfl | rfl
  · exact hgiven (0, 10) (by decide)
  · exact hgiven (1, 11) (by decide)

end Quorum
