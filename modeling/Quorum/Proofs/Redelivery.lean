import Quorum.Proofs.Delivery
import Quorum.Proofs.Merging

/-!
Append calls that arrive twice. What a call writes it finds in place when it comes again, and what
it commits is committed by then, so its second coming only puts the next election off. The exception
is a call that discards the entry it names without putting another one of a foreign term in its
place: the second time the node finds that entry missing, or takes the first one received for it.
-/

namespace Quorum

variable {α : Type}

namespace Log

/-- Entries that have been laid over others are kept when they come in again. -/
theorem overlay_overlay (held incoming : List (Entry α)) :
    overlay (overlay held incoming) incoming = overlay held incoming := by
  have hself (es : List (Entry α)) : overlay es es = es := by
    induction es with
    | nil => rfl
    | cons e es ih => rw [overlay, if_pos rfl, ih]
  induction held generalizing incoming with
  | nil => rw [overlay_nil_left, hself]
  | cons h held ih =>
      cases incoming with
      | nil => rw [overlay_nil_right, overlay_nil_right]
      | cons e incoming =>
          by_cases hterm : h.term = e.term
          · rw [overlay, if_pos hterm, overlay, if_pos hterm, ih]
          · rw [overlay, if_neg hterm, hself]

variable {log : Log α} {start : Nat}

theorem take_merge (h : start ≤ log.length) (incoming : List (Entry α)) :
    (log.merge start incoming).take start = log.take start :=
  List.take_left' (List.length_take_of_le h)

theorem drop_merge (h : start ≤ log.length) (incoming : List (Entry α)) :
    (log.merge start incoming).drop start = overlay (log.drop start) incoming :=
  List.drop_left' (List.length_take_of_le h)

theorem merge_merge (h : start ≤ log.length) (incoming : List (Entry α)) :
    (log.merge start incoming).merge start incoming = log.merge start incoming := by
  rw [merge, take_merge h, drop_merge h, overlay_overlay]
  rfl

theorem length_le_merge (h : start ≤ log.length) (incoming : List (Entry α)) :
    start + incoming.length ≤ (log.merge start incoming).length := by
  rw [merge, List.length_append, List.length_take_of_le h]
  exact Nat.add_le_add_left (length_le_overlay _ _) start

/-- Nothing is overlaid at the end of a log. -/
theorem merge_take (h : start ≤ log.length) (incoming : List (Entry α)) :
    Log.merge (log.take start) start incoming = log.take start ++ incoming := by
  rw [merge, List.take_take, Nat.min_self,
    List.drop_eq_nil_of_le (Nat.le_of_eq (List.length_take_of_le h)), overlay_nil_left]

theorem termAt?_of_position {i : LogIndex} {k : Nat} (h : i.position? = some k) (log : Log α) :
    log.termAt? i = log[k]?.map (·.term) := by
  unfold LogIndex.position? at h
  split at h
  · rename_i hnonneg
    obtain rfl := Option.some.inj h
    rw [termAt?, entryAt?, if_pos hnonneg]
  · cases h

end Log

namespace Node

variable {n m : Node α} {args : AppendRequest α}

/-- A call that discards the entry it names and puts nothing in its place, or an entry of the very
term that the call gives for it. -/
def Misfits (n : Node α) (args : AppendRequest α) : Prop :=
  n.Disputes args ∧ ∀ e ∈ args.entries.head?, some e.term = args.prevLogTerm

instance (n : Node α) (args : AppendRequest α) : Decidable (n.Misfits args) :=
  inferInstanceAs (Decidable (_ ∧ ∀ e ∈ args.entries.head?, _))

theorem reconcile?_of_position {prev : Nat} (h : args.prevLogIndex.position? = some prev)
    (log : Log α) : reconcile? log args = log[prev]?.map fun held =>
      if some held.term = args.prevLogTerm then (log, prev + 1) else (log.take prev, prev) := by
  unfold reconcile?
  rw [h]
  simp only [Log.termAt?_of_position h]
  cases log[prev]? with
  | none => rfl
  | some held => exact (apply_ite some _ _ _).symm

/-- A call names no entry, or one that the node holds, of the term given or of another. -/
theorem reconcile?_cases {log kept : Log α} {start : Nat}
    (h : reconcile? log args = some (kept, start)) :
    args.prevLogIndex.position? = none ∧ kept = log ∧ start = 0 ∨
    ∃ prev held, args.prevLogIndex.position? = some prev ∧ log[prev]? = some held ∧
      (some held.term = args.prevLogTerm ∧ kept = log ∧ start = prev + 1 ∨
        some held.term ≠ args.prevLogTerm ∧ kept = log.take prev ∧ start = prev) := by
  cases hprev : args.prevLogIndex.position? with
  | none =>
      unfold reconcile? at h
      rw [hprev] at h
      obtain ⟨rfl, rfl⟩ := Prod.mk.inj (Option.some.inj h)
      exact Or.inl ⟨rfl, rfl, rfl⟩
  | some prev =>
      rw [reconcile?_of_position hprev] at h
      obtain ⟨held, hheld, hkept⟩ := Option.map_eq_some_iff.mp h
      refine Or.inr ⟨prev, held, rfl, hheld, ?_⟩
      split at hkept
      · rename_i hterm
        obtain ⟨rfl, rfl⟩ := Prod.mk.inj hkept
        exact Or.inl ⟨hterm, rfl, rfl⟩
      · rename_i hterm
        obtain ⟨rfl, rfl⟩ := Prod.mk.inj hkept
        exact Or.inr ⟨hterm, rfl, rfl⟩

theorem disputes_of_held {prev : Nat} {held : Entry α} (h : args.prevLogIndex.position? = some prev)
    (hheld : n.log[prev]? = some held) :
    n.Disputes args ↔ n.term ≤ args.term ∧ some held.term ≠ args.prevLogTerm := by
  have hterm : n.log.termAt? args.prevLogIndex = some held.term := by
    rw [Log.termAt?_of_position h, hheld]
    rfl
  simp [Disputes, hterm]

/-- What a call has written is kept when the call comes again, unless the call misfits. -/
theorem reconcile?_merge {kept : Log α} {start : Nat} (hle : n.term ≤ args.term)
    (hfit : ¬ n.Misfits args) (h : reconcile? n.log args = some (kept, start)) :
    ∃ again restart, reconcile? (kept.merge start args.entries) args = some (again, restart) ∧
      again.merge restart args.entries = kept.merge start args.entries := by
  rcases reconcile?_cases h with
    ⟨hprev, rfl, rfl⟩ | ⟨prev, held, hprev, hheld, ⟨hterm, rfl, rfl⟩ | ⟨hterm, rfl, rfl⟩⟩
  · refine ⟨_, 0, ?_, Log.merge_merge (Nat.zero_le _) _⟩
    unfold reconcile?
    rw [hprev]
  · have hlt : prev + 1 ≤ n.log.length := (List.getElem?_eq_some_iff.mp hheld).1
    have hstill : (n.log.merge (prev + 1) args.entries)[prev]? = some held := by
      rw [← List.getElem?_take_of_lt (Nat.lt_succ_self prev), Log.take_merge hlt,
        List.getElem?_take_of_lt (Nat.lt_succ_self prev), hheld]
    refine ⟨_, prev + 1, ?_, Log.merge_merge hlt _⟩
    rw [reconcile?_of_position hprev, hstill, Option.map_some, if_pos hterm]
  · have hlt : start ≤ n.log.length := Nat.le_of_lt (List.getElem?_eq_some_iff.mp hheld).1
    have hdisputes : n.Disputes args := (disputes_of_held hprev hheld).mpr ⟨hle, hterm⟩
    rw [Log.merge_take hlt]
    -- The call puts an entry of a third term where the one it names has been.
    cases hentries : args.entries with
    | nil => exact absurd ⟨hdisputes, by simp [hentries]⟩ hfit
    | cons e rest =>
        have hforeign : some e.term ≠ args.prevLogTerm := by
          intro hsame
          exact hfit ⟨hdisputes, by simp [hentries, hsame]⟩
        have hput : (n.log.take start ++ e :: rest)[start]? = some e := by
          rw [List.getElem?_append_right (Nat.le_of_eq (List.length_take_of_le hlt)),
            List.length_take_of_le hlt, Nat.sub_self]
          rfl
        refine ⟨(n.log.take start ++ e :: rest).take start, start, ?_, ?_⟩
        · rw [reconcile?_of_position hprev, hput, Option.map_some, if_neg hforeign]
        · rw [List.take_left' (List.length_take_of_le hlt), Log.merge_take hlt]

/-- A misfitting call is refused the second time, or writes one entry more. -/
theorem reconcile?_of_misfits {kept again : Log α} {start restart : Nat}
    (hmisfits : n.Misfits args) (h : reconcile? n.log args = some (kept, start))
    (hagain : reconcile? (kept.merge start args.entries) args = some (again, restart)) :
    (kept.merge start args.entries).length < (again.merge restart args.entries).length := by
  obtain ⟨hdisputes, hfirst⟩ := hmisfits
  rcases reconcile?_cases h with
    ⟨hprev, -, -⟩ | ⟨prev, held, hprev, hheld, ⟨hterm, -, -⟩ | ⟨-, rfl, rfl⟩⟩
  · obtain ⟨-, held, hheld, -⟩ := hdisputes
    obtain ⟨hnonneg, -⟩ := Log.termAt?_eq_some hheld
    rw [LogIndex.position?, if_pos hnonneg] at hprev
    cases hprev
  · exact absurd hterm ((disputes_of_held hprev hheld).mp hdisputes).2
  · have hlt : start ≤ n.log.length := Nat.le_of_lt (List.getElem?_eq_some_iff.mp hheld).1
    have hlength : (n.log.take start).length = start := List.length_take_of_le hlt
    rw [Log.merge_take hlt, reconcile?_of_position hprev,
      List.getElem?_append_right (Nat.le_of_eq hlength), hlength, Nat.sub_self] at hagain
    obtain ⟨e, he, hkept⟩ := Option.map_eq_some_iff.mp hagain
    rw [← List.head?_eq_getElem?] at he
    rw [if_pos (hfirst e he)] at hkept
    obtain ⟨rfl, rfl⟩ := Prod.mk.inj hkept
    have hpos : 0 < args.entries.length :=
      List.length_pos_of_ne_nil (by rintro hnil; simp [hnil] at he)
    have hwithin : start + 1 ≤ (n.log.take start ++ args.entries).length := by
      rw [List.length_append]
      omega
    have hroom := Log.length_le_merge hwithin args.entries
    rw [Log.merge_take hlt, List.length_append, hlength]
    omega

/-- A follower of the sender has nothing to change about itself. -/
theorem follow_again (hterm : m.term = args.term)
    (hrole : m.role = .follower (some args.leaderId)) :
    m.follow args = ⟨m, [.resetElectionTimer]⟩ := by
  have hsame : m.idle.observeTerm args.term = m.idle :=
    Turn.observeTerm_of_le (Nat.le_of_eq hterm.symm)
  have hfollower : m.role.isFollower = true := by rw [hrole]; rfl
  have hrest : { m with role := .follower (some args.leaderId) } = m := by rw [← hrole]
  unfold follow
  simp only [hsame, hfollower, if_true]
  exact congrArg (Turn.mk · _) hrest

theorem applyCommitted_of_nil {t : Turn α} (h : t.node.unapplied = []) : t.applyCommitted = t := by
  unfold Turn.applyCommitted
  rw [h]
  simp [Action.applyAfter]

/-- Nothing is left over that could be handed over at once. -/
theorem unapplied_applyCommitted (t : Turn α) : t.applyCommitted.node.unapplied = [] := by
  by_cases h : LogIndex.absent ≤ t.node.lastApplied
  · have hheld : t.node.unapplied = t.node.log.slice (t.node.lastApplied + 1) t.node.commitIndex :=
      if_pos h
    have hlength : t.node.unapplied.length =
        (t.node.log.take (t.node.commitIndex + 1).toNat).length -
          (t.node.lastApplied + 1).toNat := by
      rw [hheld, Log.slice, List.length_drop]
    have hlater : LogIndex.absent ≤ t.node.lastApplied + t.node.unapplied.length := by lia
    refine (if_pos hlater).trans ?_
    change t.node.log.slice (t.node.lastApplied + t.node.unapplied.length + 1)
      t.node.commitIndex = []
    unfold LogIndex.absent at h
    unfold Log.slice
    exact List.drop_eq_nil_of_le (by lia)
  · have hnone : t.node.unapplied = [] := if_neg h
    rw [applyCommitted_of_nil hnone, hnone]

/-- A node that has taken a call: it follows the sender, and all that the sender has committed and
the log holds is committed and handed over. -/
structure Taken (m : Node α) (args : AppendRequest α) : Prop where
  term : m.term = args.term
  role : m.role = .follower (some args.leaderId)
  commit : min args.leaderCommit m.log.lastIndex ≤ m.commitIndex
  applied : m.unapplied = []

theorem Taken.of_success (h : (n.answerAppend args).1.success = true) :
    (n.answerAppend args).2.node.Taken args := by
  rcases n.answerAppend_cases args with
    ⟨-, hturn⟩ | ⟨-, -, hturn⟩ | ⟨hle, kept, start, -, -, hwrite⟩
  · rw [hturn] at h
    cases h
  · rw [hturn] at h
    cases h
  · let t := n.written args (kept.merge start args.entries)
    have hterm : t.node.term = args.term := n.follow_term hle
    have hcommit : t.node.commitIndex = n.commitIndex := n.follow_commitIndex args
    rcases hwrite with ⟨-, hturn⟩ | ⟨hbelow, hturn⟩
    · rw [hturn]
      exact ⟨hterm, rfl, Int.le_max_right _ _, unapplied_applyCommitted _⟩
    · rw [hturn]
      exact ⟨hterm, rfl, Int.le_trans (Int.min_le_left _ _) (hcommit.symm ▸ hbelow),
        unapplied_applyCommitted _⟩

/-- Once a call has been taken, what it asks for is in place. -/
theorem Taken.answerAppend (h : m.Taken args) {kept : Log α} {start : Nat}
    (hfit : reconcile? m.log args = some (kept, start))
    (hlog : kept.merge start args.entries = m.log) :
    m.answerAppend args = (⟨args.term, true⟩, ⟨m, [.resetElectionTimer]⟩) := by
  have hwritten : m.written args m.log = ⟨m, [.resetElectionTimer]⟩ := by
    unfold written
    rw [follow_again h.term h.role]
  have hthrough : (⟨m, [.resetElectionTimer]⟩ : Turn α).commitThrough args.leaderCommit =
      ⟨m, [.resetElectionTimer]⟩ := by
    have hcommit : max m.commitIndex (min args.leaderCommit m.log.lastIndex) = m.commitIndex :=
      Int.max_eq_left h.commit
    have hlead : m.role.mapLead (·.closeThrough m.commitIndex) = m.role := by rw [h.role]; rfl
    unfold Turn.commitThrough
    simp only [hcommit]
    rw [applyCommitted_of_nil h.applied]
    simp only [Turn.mapLead, hlead]
  rcases m.answerAppend_cases args with
    ⟨hearlier, -⟩ | ⟨-, hnone, -⟩ | ⟨-, log, pos, hsome, hreply, hturn⟩
  · exact absurd (h.term ▸ hearlier) (Nat.lt_irrefl _)
  · rw [hfit] at hnone
    cases hnone
  · obtain ⟨rfl, rfl⟩ := Prod.mk.inj (Option.some.inj (hfit.symm.trans hsome))
    rw [hlog, hwritten, hthrough, applyCommitted_of_nil h.applied] at hturn
    refine Prod.ext hreply ?_
    rcases hturn with ⟨-, hturn⟩ | ⟨-, hturn⟩
    · exact hturn
    · exact hturn

theorem not_disputes_of_refused (h : reconcile? n.log args = none) : ¬ n.Disputes args := by
  rintro ⟨-, held, hheld, -⟩
  obtain ⟨hnonneg, e, he, -⟩ := Log.termAt?_eq_some hheld
  have hprev : args.prevLogIndex.position? = some args.prevLogIndex.toNat := if_pos hnonneg
  rw [reconcile?_of_position hprev, he] at h
  cases h

/-- A call that is refused for what precedes its entries is refused again. -/
theorem answerAppend_refused (hle : n.term ≤ args.term) (h : reconcile? n.log args = none) :
    (n.follow args).node.answerAppend args =
      (⟨args.term, false⟩, ⟨(n.follow args).node, [.resetElectionTimer]⟩) := by
  have hterm : (n.follow args).node.term = args.term := n.follow_term hle
  rcases (n.follow args).node.answerAppend_cases args with
    ⟨hearlier, -⟩ | ⟨-, -, hturn⟩ | ⟨-, kept, start, hfit, -⟩
  · exact absurd (hterm ▸ hearlier) (Nat.lt_irrefl _)
  · rw [hturn, follow_again hterm rfl]
  · rw [follow_log, h] at hfit
    cases hfit

end Node

/-- Duplicate delivery. A call that comes twice in a row is answered alike both times, and the
second time it leaves the node as it is and hands nothing over, exactly if it does not misfit. -/
theorem redelivery_harmless (n : Node α) (args : AppendRequest α) :
    let first := n.answerAppend args
    let second := first.2.node.answerAppend args
    (second.1 = first.1 ∧ second.2.node = first.2.node ∧ second.2.applied = []) ↔
      ¬ n.Misfits args := by
  rcases n.answerAppend_cases args with
    ⟨hearlier, hturn⟩ | ⟨hle, hnone, hturn⟩ | ⟨hle, kept, start, hfit, hreply, -⟩
  · have hnot : ¬ n.Misfits args := fun h => Nat.not_le_of_lt hearlier h.1.1
    simp only [hturn, Node.idle, hnot, not_false_eq_true, iff_true, true_and]
    rfl
  · have hnot : ¬ n.Misfits args := fun h => Node.not_disputes_of_refused hnone h.1
    simp only [hturn, Node.answerAppend_refused hle hnone, hnot, not_false_eq_true, iff_true,
      true_and]
    rfl
  · have hsuccess : (n.answerAppend args).1.success = true := by rw [hreply]
    obtain ⟨-, -, kept', start', hfit', hlog⟩ := Node.answerAppend_success _ hsuccess
    obtain ⟨rfl, rfl⟩ := Prod.mk.inj (Option.some.inj (hfit.symm.trans hfit'))
    refine ⟨?_, ?_⟩
    · rintro ⟨hsame, hnode, -⟩ hmisfits
      have hsuccess' : ((n.answerAppend args).2.node.answerAppend args).1.success = true := by
        rw [hsame, hsuccess]
      obtain ⟨-, -, again, restart, hagain, hlog'⟩ := Node.answerAppend_success _ hsuccess'
      rw [hlog] at hagain
      have hlonger := Node.reconcile?_of_misfits hmisfits hfit hagain
      rw [← hlog', hnode, hlog] at hlonger
      exact Nat.lt_irrefl _ hlonger
    · intro hnot
      obtain ⟨again, restart, hagain, hlog'⟩ := Node.reconcile?_merge hle hnot hfit
      rw [← hlog] at hagain hlog'
      rw [(Node.Taken.of_success hsuccess).answerAppend hagain hlog', hreply]
      exact ⟨rfl, rfl, rfl⟩

/-- A member that has stored two entries of term one and one of term two, of which it knows the
first to be committed. -/
def holder : Node Nat :=
  ((Node.fresh 1 3).after .start).after
    (.appendRequest ⟨2, 0, -1, none, [⟨1, 10⟩, ⟨1, 11⟩, ⟨2, 20⟩], 0⟩)

/-- The sender says that an entry of term three precedes those that it sends, which are of term
four. The member discards its last entry twice and commits once. -/
theorem redelivery_harmless_foreignEntry :
    let args : AppendRequest Nat := ⟨4, 2, 2, some 3, [⟨4, 40⟩, ⟨4, 41⟩], 5⟩
    holder.Disputes args ∧ ¬ holder.Misfits args ∧
      let first := holder.answerAppend args
      let second := first.2.node.answerAppend args
      first.2.applied = [(1, 11), (2, 40), (3, 41)] ∧
        second.1 = first.1 ∧ second.2.node = first.2.node ∧ second.2.applied = [] := by
  intro args
  have hnot : ¬ holder.Misfits args := by decide
  exact ⟨by decide, hnot, by decide, (redelivery_harmless holder args).mpr hnot⟩

/-- A misfitting call does harm when it comes again. One without entries is granted first and then
refused; one with entries of the term that it gives for the entry before them has the member store
the last of them once more and apply it once more. -/
theorem redelivery_harmful :
    (let args : AppendRequest Nat := ⟨3, 2, 2, some 3, [], 0⟩
      let first := holder.answerAppend args
      let second := first.2.node.answerAppend args
      first.1 = ⟨3, true⟩ ∧ second.1 = ⟨3, false⟩) ∧
    let args : AppendRequest Nat := ⟨3, 2, 2, some 3, [⟨3, 30⟩], 3⟩
    let first := holder.answerAppend args
    let second := first.2.node.answerAppend args
    first.2.applied = [(1, 11), (2, 30)] ∧ second.2.applied = [(3, 30)] ∧
      first.2.node.log.length = 3 ∧ second.2.node.log.length = 4 := by
  decide

end Quorum
