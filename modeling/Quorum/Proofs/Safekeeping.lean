import Quorum.Proofs.Queue
import Quorum.Proofs.Accession
import Quorum.Proofs.StateMachine

/-!
Safekeeping. A command that a leader has accepted is not lost as long as it leads: until its index
is committed, agreement on it is sought or waits, and then the command has been handed over. This
takes a log that reaches as far as the commit index when the command comes in.
-/

namespace Quorum

variable {α : Type}

/-- The entry at an index that is committed in a turn is handed over in it. -/
theorem Turn.Delivers.mem_applied {start : LogIndex} {t : Turn α} (h : t.Delivers start) {j : Nat}
    (hlow : start < (j : Int)) (hhigh : (j : Int) ≤ t.node.commitIndex) {e : Entry α}
    (he : t.node.log[j]? = some e) : ((j : Int), e.command) ∈ t.applied := by
  have hcount := h.count
  have hlt : ((j : Int) - start - 1).toNat < t.applied.length := by lia
  have hp := List.getElem?_eq_getElem hlt
  obtain ⟨hindex, hcommand⟩ := h.entry _ _ hp
  have hj : t.applied[((j : Int) - start - 1).toNat].1 = (j : Int) := by
    rw [hindex]
    lia
  rw [hj, Log.entryAt?_natCast, he] at hcommand
  have hpair : t.applied[((j : Int) - start - 1).toNat] = ((j : Int), e.command) :=
    Prod.ext hj (Option.some.inj hcommand).symm
  rw [← hpair]
  exact List.getElem_mem hlt

/-- The member at `i` leads and has stored the command `x` at the index `j` since it does so. The
entry is not committed yet, or the command has been handed over. -/
def Cluster.Keeps (c : Cluster α) (i : PeerId) (j : Nat) (x : α) : Prop :=
  ∃ (n : Node α) (start : Nat) (e : Entry α) (xs : List (LogIndex × α)),
    c.nodes[i]? = some n ∧ n.isLeader ∧ n.Queues start ∧ start ≤ j ∧ n.log[j]? = some e ∧
      e.command = x ∧ c.applied[i]? = some xs ∧ (n.commitIndex < (j : Int) ∨ ((j : Int), x) ∈ xs)

namespace Cluster.Keeps

variable {c c' : Cluster α} {i : PeerId} {j : Nat} {x : α} {n : Node α} {e : Event α}

/-- An event in the course of which an entry is committed hands over its command. -/
theorem of_acts (hact : c.Acts i n e c') (hsettled : n.Settled) (hleader : n.isLeader)
    (hstill : (n.after e).isLeader) {start : Nat} (hqueues : n.Queues start) (hstart : start ≤ j)
    {f : Entry α} (hentry : (n.after e).log[j]? = some f) (hx : f.command = x)
    {xs : List (LogIndex × α)} (hxs : c.applied[i]? = some xs)
    (hsafe : n.commitIndex < (j : Int) ∨ ((j : Int), x) ∈ xs) : c'.Keeps i j x := by
  have hkept : (n.after e).Queues start := by
    have hafter := hqueues.after e
    rwa [Node.ledFromAfter_of_leader hleader] at hafter
  have happlied : c'.applied[i]? = some (xs ++ (n.handle e).2.applied) := by
    rw [hact.applied, List.getElem?_modify_eq, hxs]
    rfl
  refine ⟨_, start, f, _, hact.node_self, hstill, hkept, hstart, hentry, hx, happlied, ?_⟩
  rw [List.mem_append]
  rcases hsafe with hopen | hgiven
  · by_cases hcommitted : (j : Int) ≤ (n.after e).commitIndex
    · have hdelivered := (hsettled.handle e).mem_applied hopen hcommitted hentry
      rw [hx] at hdelivered
      exact Or.inr (Or.inr hdelivered)
    · exact Or.inl (Int.not_le.mp hcommitted)
  · exact Or.inr (Or.inl hgiven)

theorem rest (h : c.Keeps i j x) (hrest : c.Rests c') : c'.Keeps i j x := by
  unfold Cluster.Keeps
  rw [hrest.nodes, hrest.applied]
  exact h

/-- As long as the member remains a leader, the command stays with it. -/
theorem act (h : c.Keeps i j x) {k : PeerId} (hact : c.Acts k n e c') (hsettled : n.Settled)
    (hleads : ∃ m ∈ c'.nodes[i]?, m.isLeader) : c'.Keeps i j x := by
  obtain ⟨m, start, f, xs, hm, hleader, hqueues, hstart, hentry, hx, hxs, hsafe⟩ := h
  by_cases hi : i = k
  · subst hi
    obtain rfl := Option.some.inj (hm.symm.trans hact.node)
    obtain ⟨m', hm', hstill⟩ := hleads
    obtain rfl := Option.some.inj (hm'.symm.trans hact.node_self)
    have hlog : m.log <+: (m.after e).log := (m.after_writes e).of_leader hstill
    have hheld : (m.after e).log[j]? = some f := Log.getElem?_of_isPrefix hlog hentry
    exact of_acts hact hsettled hleader hstill hqueues hstart hheld hx hxs hsafe
  · refine ⟨m, start, f, xs, ?_, hleader, hqueues, hstart, hentry, hx, ?_, hsafe⟩
    · rw [hact.node_other hi]
      exact hm
    · rw [hact.applied, List.getElem?_modify_ne _ _ (Ne.symm hi)]
      exact hxs

/-- A leader whose log reaches as far as its commit index keeps the command that it accepts. -/
theorem of_submit {rule : Rule α} {size : Nat} {past : List (Cluster α)} (h : Run rule size c past)
    (hn : c.nodes[i]? = some n) (hleader : n.isLeader)
    (hcovered : n.commitIndex ≤ n.log.lastIndex) (x : α) :
    (c.submit i x).2.Keeps i n.log.length x := by
  have hact : c.Acts i n (.submit x) (c.submit i x).2 := by
    rcases c.handle_cases i (.submit x) with ⟨-, hnone⟩ | ⟨m, hact⟩
    · rw [hn] at hnone
      cases hnone
    · obtain rfl := Option.some.inj (hn.symm.trans hact.node)
      exact hact
  have hstill : (n.after (.submit x)).isLeader := (n.submit_sameOffice x).isLeader.trans hleader
  obtain ⟨start, hqueues⟩ := h.queues i n hn
  obtain ⟨l, hl⟩ := Node.exists_lead hleader
  have hfounded := (hqueues l hl).1.founded
  have hlast : n.log.lastIndex = (n.log.length : Int) - 1 := rfl
  have hlog : (n.after (.submit x)).log = n.log ++ [⟨n.term, x⟩] := Node.submit_log hleader x
  have hentry : (n.after (.submit x)).log[n.log.length]? = some ⟨n.term, x⟩ := by
    rw [hlog]
    exact List.getElem?_concat_length
  have hlt : i < c.applied.length := by
    rw [h.length_applied]
    exact (List.getElem?_eq_some_iff.mp hn).1
  exact of_acts hact (h.settled i n hn) hleader hstill hqueues (by lia) hentry rfl
    (List.getElem?_eq_getElem hlt) (Or.inl (by lia))

/-- A command that is kept is pending, or has been handed over. -/
theorem pending (h : c.Keeps i j x) : ∃ n l, c.nodes[i]? = some n ∧ n.role = .leader l ∧
    (n.commitIndex < (j : Int) ∧ ((j : Int) ∈ l.opened ∨ (j : Int) ∈ l.waiting) ∨
      ∃ xs, c.applied[i]? = some xs ∧ ((j : Int), x) ∈ xs) := by
  obtain ⟨n, start, f, xs, hn, hleader, hqueues, hstart, hentry, -, hxs, hopen | hgiven⟩ := h
  · obtain ⟨l, hl⟩ := Node.exists_lead hleader
    have hlt := (List.getElem?_eq_some_iff.mp hentry).1
    have hlast : (j : Int) ≤ n.log.lastIndex := by
      unfold Log.lastIndex LogIndex.lastOf
      lia
    have hpending := (hqueues l hl).1.complete j (by lia) hopen hlast
    exact ⟨n, l, hn, hl, Or.inl ⟨hopen, hpending⟩⟩
  · obtain ⟨l, hl⟩ := Node.exists_lead hleader
    exact ⟨n, l, hn, hl, Or.inr ⟨xs, hxs, hgiven⟩⟩

/-- A command that is kept at some moment of a run is kept for as long as the leadership lasts. -/
theorem through {rule : Rule α} {size : Nat} {d : Cluster α} {since before past : List (Cluster α)}
    (h : Run rule size c past) (hpast : c :: past = since ++ d :: before) (hd : d.Keeps i j x)
    (hleads : ∀ b ∈ since, ∃ m ∈ b.nodes[i]?, m.isLeader) : c.Keeps i j x := by
  induction since generalizing c past with
  | nil =>
      obtain ⟨rfl, -⟩ := List.cons.inj hpast
      exact hd
  | cons b since ih =>
      rw [List.cons_append] at hpast
      obtain ⟨rfl, rfl⟩ := List.cons.inj hpast
      obtain ⟨hnow, hearlier⟩ := List.forall_mem_cons.mp hleads
      obtain ⟨b, past, hsplit⟩ : ∃ b past, since ++ d :: before = b :: past := by
        cases since with
        | nil => exact ⟨_, _, rfl⟩
        | cons b since => exact ⟨_, _, rfl⟩
      rw [hsplit] at h
      obtain ⟨hrun, hmove⟩ := h.last_move
      have hb : b.Keeps i j x := ih hrun hsplit.symm hearlier
      rcases hmove with hrest | ⟨k, n, e, hact, -⟩
      · exact hb.rest hrest
      · exact hb.act hact (hrun.settled k n hact.node) hnow

end Cluster.Keeps

theorem Node.submit_index (n : Node α) (hleader : n.isLeader) (x : α) :
    (n.submit x).1.index = (n.log.length : Int) := by
  unfold submit
  rw [if_pos hleader]
  exact n.log.lastIndex_append_one _

/-- No accepted command is lost by its leader. If the leader's log reached as far as its commit index
when the command came in, then for as long as the leadership lasts the command's index is beyond
the commit index and agreement on it is sought or waits, or the command has been handed over. -/
theorem accepted_not_lost {rule : Rule α} {size : Nat} {c d : Cluster α}
    {since before past : List (Cluster α)} (h : Run rule size c past) {i : PeerId} {x : α}
    (hpast : c :: past = since ++ (d.submit i x).2 :: d :: before) {s : Submission}
    (hsubmit : (d.submit i x).1 = .submission s) (haccepted : s.isLeader = true) {m : Node α}
    (hm : d.nodes[i]? = some m) (hcovered : m.commitIndex ≤ m.log.lastIndex)
    (hleads : ∀ b ∈ since, ∃ n ∈ b.nodes[i]?, n.isLeader) :
    ∃ n l, c.nodes[i]? = some n ∧ n.role = .leader l ∧
      (n.commitIndex < s.index ∧ (s.index ∈ l.opened ∨ s.index ∈ l.waiting) ∨
        ∃ xs, c.applied[i]? = some xs ∧ (s.index, x) ∈ xs) := by
  have hs : s = (m.submit x).1 := by
    unfold Cluster.submit at hsubmit
    rw [Cluster.handle_of_some hm] at hsubmit
    exact (Answer.submission.inj hsubmit).symm
  have hleader : m.isLeader := by
    rw [← m.submit_isLeader x, ← hs]
    exact haccepted
  have hindex : s.index = (m.log.length : Int) := by
    rw [hs]
    exact m.submit_index hleader x
  have hsuffix : d :: before <:+ c :: past := ⟨since ++ [(d.submit i x).2], by simp [hpast]⟩
  have hkept := Cluster.Keeps.of_submit (h.of_suffix hsuffix) hm hleader hcovered x
  rw [hindex]
  exact (Cluster.Keeps.through h hpast hkept hleads).pending

/-- Two moves after the first member has accepted `11`, the second one's acknowledgement has come
in. -/
theorem accepted_not_lost_copiedCommands :
    ∃ n l, ((Cluster.fresh 3).course [] copiedCommands).1.nodes[0]? = some n ∧
      n.role = .leader l ∧
      (n.commitIndex < 1 ∧ (1 ∈ l.opened ∨ 1 ∈ l.waiting) ∨
        ∃ xs, ((Cluster.fresh 3).course [] copiedCommands).1.applied[0]? = some xs ∧
          (1, 11) ∈ xs) := by
  have hrun : Run (fun _ _ _ => True) 3 ((Cluster.fresh 3).course [] copiedCommands).1
      ((Cluster.fresh 3).course [] copiedCommands).2 := .course .start (by decide)
  have hpast : ((Cluster.fresh 3).course [] copiedCommands).1 ::
        ((Cluster.fresh 3).course [] copiedCommands).2 =
      [((Cluster.fresh 3).course [] copiedCommands).1,
        ((Cluster.fresh 3).course [] (copiedCommands.take 8)).1] ++
        (((Cluster.fresh 3).course [] (copiedCommands.take 6)).1.submit 0 11).2 ::
          ((Cluster.fresh 3).course [] (copiedCommands.take 6)).1 ::
            ((Cluster.fresh 3).course [] (copiedCommands.take 6)).2 := rfl
  exact accepted_not_lost hrun hpast (s := ⟨1, 1, true⟩) rfl rfl rfl (by decide) (by decide)

/-- The first member commits `10` and `11`. The third one, elected with an empty log, writes `20` in
their place. The first one is then elected again, with a log that ends before its commit index. -/
def reusedIndex : List (Move Nat) :=
  copiedCommands ++ [.electionTimeout 2, .electionTimeout 2, .deliver 14, .deliver 15,
    .submit 2 20, .deliver 18, .electionTimeout 0, .deliver 21, .deliver 23]

/-- The index at which it stores `12` is taken for committed: nobody seeks agreement on it, it does
not wait, and `12` is not handed over. -/
theorem accepted_lost : ¬ ∀ (size : Nat) (c d : Cluster Nat) (since before past : List (Cluster Nat))
    (i : PeerId) (x : Nat) (s : Submission) (n : Node Nat) (l : Leadership)
    (xs : List (LogIndex × Nat)), Run (fun _ _ _ => True) size c past →
      c :: past = since ++ (d.submit i x).2 :: d :: before →
        (d.submit i x).1 = .submission s → s.isLeader = true →
          (∀ b ∈ since, ∃ n ∈ b.nodes[i]?, n.isLeader) → c.nodes[i]? = some n →
            n.role = .leader l → c.applied[i]? = some xs →
              n.commitIndex < s.index ∧ (s.index ∈ l.opened ∨ s.index ∈ l.waiting) ∨
                (s.index, x) ∈ xs := by
  intro hkept
  have hrun : Run (fun _ _ _ => True) 3
      ((Cluster.fresh 3).course [] (reusedIndex ++ [.submit 0 12])).1
      ((Cluster.fresh 3).course [] (reusedIndex ++ [.submit 0 12])).2 := .course .start (by decide)
  rcases hkept 3 _ ((Cluster.fresh 3).course [] reusedIndex).1 [] _ _ 0 12 ⟨1, 3, true⟩ _ _ _ hrun
    rfl rfl rfl (by decide) rfl rfl rfl with ⟨hopen, -⟩ | hgiven
  · exact absurd hopen (by decide)
  · exact absurd hgiven (by decide)

end Quorum
