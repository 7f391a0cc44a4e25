import Mathlib.Data.List.Infix
import Quorum.Proofs.Merging
import Quorum.Proofs.Tenure

/-!
Log matching. Every entry of a log, with all that precedes it, has been the beginning of the log of
the leader that accepted it, so that logs which share an entry share what precedes it. This holds
as long as no call writes entries where it finds another entry than it names before them: a node
then drops that entry, and writes what it was sent one position too early.
-/

namespace Quorum

variable {α : Type}

/-- No call writes entries to a log that it disputes. -/
def undisputed : Rule α
  | _, n, .appendRequest args => n.Disputes args → args.entries = []
  | _, _, _ => True

instance (c : Cluster α) (n : Node α) : (e : Event α) → Decidable (undisputed c n e)
  | .appendRequest args =>
    inferInstanceAs (Decidable (n.Disputes args → args.entries = []))
  | .start | .electionTimeout | .heartbeatTimeout | .submit _ | .voteRequest _ | .voteReturned ..
  | .appendReturned .. => inferInstanceAs (Decidable True)

/-- Both rules are kept. -/
def Rule.both (r s : Rule α) : Rule α := fun c n e => r c n e ∧ s c n e

instance (r s : Rule α) [∀ c n e, Decidable (r c n e)] [∀ c n e, Decidable (s c n e)]
    (c : Cluster α) (n : Node α) (e : Event α) : Decidable (r.both s c n e) :=
  inferInstanceAs (Decidable (_ ∧ _))

/-- Each entry, with all that precedes it, comes from the log of a leader of its term. -/
def Genuine (ds : List (Cluster α)) (F : Log α) : Prop :=
  ∀ (k : Nat) e, F[k]? = some e → ∃ i L, Led ds e.term i L ∧ F.take (k + 1) <+: L

namespace Genuine

variable {ds es : List (Cluster α)} {F G : Log α}

theorem mono (h : Genuine ds F) (hsub : ds ⊆ es) : Genuine es F := by
  intro k e he
  obtain ⟨i, L, hL, hpre⟩ := h k e he
  exact ⟨i, L, hL.mono hsub, hpre⟩

theorem of_isPrefix (h : Genuine ds F) (hG : G <+: F) : Genuine ds G := by
  intro k e he
  obtain ⟨i, L, hL, hpre⟩ := h k e (Log.getElem?_of_isPrefix hG he)
  refine ⟨i, L, hL, ?_⟩
  exact (hG.take (k + 1)).trans hpre

/-- A leader's new entry is in its own log. -/
theorem store (h : Genuine ds F) {i : PeerId} {e : Entry α} (hled : Led ds e.term i (F ++ [e])) :
    Genuine ds (F ++ [e]) := by
  intro k f hf
  by_cases hk : k < F.length
  · rw [List.getElem?_append_left hk] at hf
    rw [List.take_append_of_le_length hk]
    exact h k f hf
  · rw [List.getElem?_append_right (Nat.le_of_not_lt hk)] at hf
    obtain rfl := List.mem_singleton.mp (List.mem_of_getElem? hf)
    exact ⟨i, _, hled, List.take_prefix _ _⟩

/-- Genuine logs agree. -/
theorem agree {size : Nat} {c : Cluster α} {past : List (Cluster α)}
    (h : Run inRange size c past) (hF : Genuine (c :: past) F) (hG : Genuine (c :: past) G) :
    F.Agree G := by
  intro k f g hf hg hterm
  obtain ⟨i, L, hL, hFL⟩ := hF k f hf
  obtain ⟨j, M, hM, hGM⟩ := hG k g hg
  rw [← hterm] at hM
  have hlength : (F.take (k + 1)).length = (G.take (k + 1)).length := by
    have hk₁ := (List.getElem?_eq_some_iff.mp hf).1
    have hk₂ := (List.getElem?_eq_some_iff.mp hg).1
    rw [List.length_take, List.length_take]
    omega
  rcases hL.comparable h hM with hLM | hML
  · have hpre := List.prefix_of_prefix_length_le (hFL.trans hLM) hGM (Nat.le_of_eq hlength)
    exact hpre.eq_of_length hlength
  · have hpre := List.prefix_of_prefix_length_le hFL (hGM.trans hML) (Nat.le_of_eq hlength)
    exact hpre.eq_of_length hlength

end Genuine

variable {rule : Rule α} {size : Nat} {c : Cluster α} {past : List (Cluster α)}

/-- An event leaves the log of its node genuine. -/
theorem Cluster.Acts.genuine (h : Run inRange size c past) {c' : Cluster α} {i : PeerId}
    {n : Node α} {e : Event α} (hact : c.Acts i n e c') (hobey : undisputed c n e)
    (hlogs : ∀ d ∈ c :: past, ∀ (p : PeerId) m, d.nodes[p]? = some m →
      Genuine (c :: past) m.log) : Genuine (c' :: c :: past) (n.after e).log := by
  have hold : Genuine (c :: past) n.log := hlogs c List.mem_cons_self i n hact.node
  have hsub : c :: past ⊆ c' :: c :: past := List.subset_cons_self _ _
  cases n.after_writes e with
  | keep hlog =>
      rw [hlog]
      exact hold.mono hsub
  | store command he hleader hlog =>
      subst he
      have hoffice : n.SameOffice (n.after (.submit command)) := n.submit_sameOffice command
      rw [hlog]
      refine (hold.mono hsub).store (i := i) ⟨c', List.mem_cons_self, _, hact.node_self, ?_, ?_, hlog⟩
      · rw [hoffice.isLeader]
        exact hleader
      · exact hoffice.term
  | accept args log pos he hle hterm hrole hfit hlog =>
      subst he
      cases hact.cause with
      | appendRequest hp =>
          obtain ⟨L, start, hsent⟩ := h.shipping.request _ _ _ _ hp
          obtain ⟨d, hd, l, hl, -, -, rfl⟩ := hsent.led
          have hsource : Genuine (c :: past) l.log := hlogs d hd _ l hl
          rw [hlog]
          rcases Node.merge_cases (hold.agree h hsource) hsent.piece hfit
              (fun hdispute => hobey ⟨hle, hdispute⟩) with
            ⟨-, hmerge⟩ | ⟨-, hmerge⟩ | ⟨-, hmerge, -⟩
          · rw [hmerge]
            exact hold.mono hsub
          · rw [hmerge]
            exact (hsource.of_isPrefix (List.take_prefix _ _)).mono hsub
          · rw [hmerge]
            exact (hold.of_isPrefix (List.take_prefix _ _)).mono hsub

/-- All logs of a run are genuine. -/
theorem Run.genuine (h : Run rule size c past)
    (hrule : ∀ c n e, rule c n e → inRange c n e ∧ undisputed c n e) :
    ∀ d ∈ c :: past, ∀ (p : PeerId) m, d.nodes[p]? = some m → Genuine (c :: past) m.log := by
  refine h.invariant (P := fun c past =>
    ∀ d ∈ c :: past, ∀ (p : PeerId) m, d.nodes[p]? = some m → Genuine (c :: past) m.log) ?_ ?_ ?_
  · intro d hd p m hm k e he
    obtain rfl := List.mem_singleton.mp hd
    obtain ⟨-, rfl⟩ := Cluster.fresh_node hm
    cases he
  · intro c past c' _ ih hrest d hd p m hm
    refine Genuine.mono ?_ (List.subset_cons_self c' (c :: past))
    rcases List.mem_cons.mp hd with rfl | hold
    · rw [hrest.nodes] at hm
      exact ih c List.mem_cons_self p m hm
    · exact ih d hold p m hm
  · intro c past i n e c' hrun ih hact hobey d hd p m hm
    rcases List.mem_cons.mp hd with rfl | hold
    · rcases hact.node_cases hm with ⟨-, rfl⟩ | ⟨-, hsame⟩
      · have hrange : Run inRange size c past := hrun.mono fun c n e h => (hrule c n e h).1
        exact hact.genuine hrange (hrule _ _ _ hobey).2 ih
      · exact (ih c List.mem_cons_self p m hsame).mono (List.subset_cons_self _ _)
    · exact (ih d hold p m hm).mono (List.subset_cons_self _ _)

/-- What a call does to the log it is written to, in a run without disputed writes. -/
theorem Run.merge_cases (h : Run rule size c past)
    (hrule : ∀ c n e, rule c n e → inRange c n e ∧ undisputed c n e) {i s : PeerId} {n : Node α}
    (hn : c.nodes[i]? = some n) {args : AppendRequest α} (hobey : undisputed c n (.appendRequest args))
    (hle : n.term ≤ args.term) {L log : Log α} {start pos : Nat}
    (hled : Led (c :: past) args.term s L) (hpiece : args.PieceOf L start)
    (hfit : Node.reconcile? n.log args = some (log, pos)) :
    L.take (args.reach start) <+: n.log ∧ log.merge pos args.entries = n.log ∨
    ¬ L.take (args.reach start) <+: n.log ∧
      log.merge pos args.entries = L.take (args.reach start) ∨
    args.entries = [] ∧ log.merge pos args.entries = n.log.take (start - 1) ∧
      ∃ f g, n.log[start - 1]? = some f ∧ L[start - 1]? = some g ∧ f.term ≠ g.term ∧
        n.log.termAt? args.prevLogIndex = some f.term ∧ args.prevLogTerm = some g.term := by
  have hrange : Run inRange size c past := h.mono fun c n e h => (hrule c n e h).1
  have hgenuine := h.genuine hrule
  obtain ⟨d, hd, l, hl, -, -, rfl⟩ := hled
  have hagree : n.log.Agree l.log :=
    (hgenuine c List.mem_cons_self i n hn).agree hrange (hgenuine d hd s l hl)
  exact Node.merge_cases hagree hpiece hfit fun hdispute => hobey ⟨hle, hdispute⟩

/-- Log matching: where two nodes hold an entry of the same term at the same index, their logs are
the same through it, as long as no call writes entries to a log that it disputes. -/
theorem logs_match (h : Run (inRange.both undisputed) size c past) {a b : PeerId} {n m : Node α}
    (ha : c.nodes[a]? = some n) (hb : c.nodes[b]? = some m) {k : Nat} {e f : Entry α}
    (he : n.log[k]? = some e) (hf : m.log[k]? = some f) (hterm : e.term = f.term) :
    ∀ j ≤ k, n.log[j]? = m.log[j]? := by
  have hrange : Run inRange size c past := h.mono fun _ _ _ h => h.1
  have hgenuine := h.genuine fun _ _ _ h => h
  have hn : Genuine (c :: past) n.log := hgenuine c List.mem_cons_self a n ha
  have hm : Genuine (c :: past) m.log := hgenuine c List.mem_cons_self b m hb
  have hsame : n.log.take (k + 1) = m.log.take (k + 1) := hn.agree hrange hm k e f he hf hterm
  intro j hj
  have hlt : j < k + 1 := Nat.lt_succ_of_le hj
  rw [← List.getElem?_take_of_lt hlt, hsame, List.getElem?_take_of_lt hlt]

/-- The first member is elected and stores `10`, which reaches nobody. The second one is elected,
stores `20` and has the third one copy it. -/
def copiedEntry : List (Move Nat) :=
  [.electionTimeout 0, .deliver 0, .deliver 2, .submit 0 10, .electionTimeout 1, .deliver 8,
    .deliver 9, .submit 1 20, .deliver 13]

theorem logs_match_copiedEntry :
    ∃ n m : Node Nat, ((Cluster.fresh 3).course [] copiedEntry).1.nodes[1]? = some n ∧
      ((Cluster.fresh 3).course [] copiedEntry).1.nodes[2]? = some m ∧
      n.log[0]? = some ⟨2, 20⟩ ∧ m.log[0]? = some ⟨2, 20⟩ ∧ ∀ j ≤ 0, n.log[j]? = m.log[j]? := by
  have hrun : Run (inRange.both undisputed) 3 ((Cluster.fresh 3).course [] copiedEntry).1
      ((Cluster.fresh 3).course [] copiedEntry).2 := .course .start (by decide)
  refine ⟨_, _, rfl, rfl, rfl, rfl, ?_⟩
  exact logs_match hrun (a := 1) (b := 2) rfl rfl (k := 0) (e := ⟨2, 20⟩) (f := ⟨2, 20⟩) rfl rfl rfl

/-- After that the third member is elected and stores `30` and `31`. Its call finds `10` at the
first member where it expects `20`, and both entries are written one position too early. -/
def disputedEntry : List (Move Nat) :=
  copiedEntry ++ [.electionTimeout 2, .deliver 16, .deliver 17, .submit 2 30, .submit 2 31,
    .heartbeatTimeout 2, .deliver 20]

/-- Without the condition on disputed logs, a shared term at an index does not mean a shared entry
there. -/
theorem logs_mismatch : ¬ ∀ (size : Nat) (c : Cluster Nat) (past : List (Cluster Nat)),
    Run inRange size c past → ∀ (a b : PeerId) (n m : Node Nat), c.nodes[a]? = some n →
      c.nodes[b]? = some m → ∀ (k : Nat) (e f : Entry Nat), n.log[k]? = some e →
        m.log[k]? = some f → e.term = f.term → ∀ j ≤ k, n.log[j]? = m.log[j]? := by
  intro hmatch
  have hrun : Run inRange 3 ((Cluster.fresh 3).course [] disputedEntry).1
      ((Cluster.fresh 3).course [] disputedEntry).2 := .course .start (by decide)
  have hsame := hmatch 3 _ _ hrun 0 2 _ _ rfl rfl 1 ⟨3, 31⟩ ⟨3, 30⟩ rfl rfl rfl 1 (Nat.le_refl 1)
  exact absurd hsame (by decide)

/-- Nor can the bound on terms go: both leaders of the last term store an entry of it. -/
theorem logs_mismatch_lastTerm : ∃ c past, Run undisputed 3 c past ∧
    ∃ n m : Node Nat, c.nodes[0]? = some n ∧ c.nodes[1]? = some m ∧
      n.log[0]? = some ⟨Term.last, 10⟩ ∧ m.log[0]? = some ⟨Term.last, 20⟩ := by
  obtain ⟨past, hrun⟩ := Run.pumped undisputed (fun _ _ _ => trivial)
    (T := Term.last) (by decide) (Nat.le_refl _)
  have hmoves : (Cluster.pumped Term.last).AllObey undisputed
      (lastElections ++ [.submit 0 10, .submit 1 20]) := by decide
  refine ⟨_, _, hrun.course hmoves, ?_⟩
  rw [Cluster.course_last _ past []]
  exact ⟨_, _, rfl, rfl, rfl, rfl⟩

end Quorum
