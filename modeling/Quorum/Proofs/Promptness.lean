import Mathlib.Data.Int.Order.Basic
import Mathlib.Data.List.Sort
import Quorum.Proofs.Acceptance
import Quorum.Proofs.Following
import Quorum.Proofs.Queue

/-!
Promptness. Nodes make use of a quorum as soon as they can count it: a leader has committed what
enough match indices have reached, no agreement that has been reached stays open, and no candidate
has the votes of a majority. How far the match indices go is an order statistic of them, which the
leader finds by counting.
-/

namespace Quorum

variable {α : Type}

/-- The `k`-th largest of some indices. -/
def LogIndex.kthLargest? (k : Nat) (vs : List LogIndex) : Option LogIndex :=
  (vs.insertionSort (· ≥ ·))[k - 1]?

namespace LogIndex

variable {vs : List LogIndex} {k : Nat} {m v b c : LogIndex}

theorem exists_kthLargest? (hpos : 0 < k) (hk : k ≤ vs.length) :
    ∃ m, kthLargest? k vs = some m := by
  have hlt : k - 1 < (vs.insertionSort (· ≥ ·)).length := by
    rw [List.length_insertionSort]
    omega
  exact ⟨_, List.getElem?_eq_getElem hlt⟩

theorem mem_of_kthLargest? (h : kthLargest? k vs = some m) : m ∈ vs :=
  (List.mem_insertionSort _).mp (List.mem_of_getElem? h)

/-- In a descending list the value at a position is at least `v` if more values than the position
counts are. -/
theorem le_iff_lt_countP {ws : List LogIndex} (hws : ws.Pairwise (· ≥ ·)) {a : Nat}
    (ha : ws[a]? = some m) : v ≤ m ↔ a < ws.countP (v ≤ ·) := by
  induction ws generalizing a with
  | nil => cases ha
  | cons w rest ih =>
      obtain ⟨hfirst, hrest⟩ := List.pairwise_cons.mp hws
      have hle : ∀ x ∈ w :: rest, x ≤ w := List.forall_mem_cons.mpr ⟨Int.le_refl w, hfirst⟩
      by_cases hw : v ≤ w
      · rw [List.countP_cons_of_pos (p := (v ≤ ·)) (decide_eq_true hw)]
        cases a with
        | zero =>
            obtain rfl := Option.some.inj ha
            exact ⟨fun _ => Nat.succ_pos _, fun _ => hw⟩
        | succ a =>
            rw [ih hrest ha]
            omega
      · have hnone : (w :: rest).countP (v ≤ ·) = 0 := by
          apply List.countP_eq_zero.mpr
          intro x hx hvx
          exact hw (Int.le_trans (of_decide_eq_true hvx) (hle x hx))
        have hm := hle m (List.mem_of_getElem? ha)
        rw [hnone]
        constructor
        · intro hvm
          exact absurd (Int.le_trans hvm hm) hw
        · intro hlt
          exact absurd hlt (Nat.not_lt_zero a)

/-- The `k`-th largest is at least `v` if `k` of the indices are. -/
theorem le_kthLargest?_iff (hpos : 0 < k) (h : kthLargest? k vs = some m) :
    v ≤ m ↔ k ≤ vs.countP (v ≤ ·) := by
  have hsorted := List.pairwise_insertionSort (· ≥ ·) vs
  rw [le_iff_lt_countP hsorted h, (List.perm_insertionSort (· ≥ ·) vs).countP_eq]
  omega

theorem foldl_max_le_iff : vs.foldl max c ≤ b ↔ c ≤ b ∧ ∀ v ∈ vs, v ≤ b := by
  induction vs generalizing c with
  | nil => simp
  | cons v vs ih =>
      rw [List.foldl_cons, ih, List.forall_mem_cons, Int.max_le, and_assoc]

end LogIndex

/-- Half of the members, rounded up. -/
def Node.half (n : Node α) : Nat := (n.clusterSize + 1) / 2

theorem Node.half_pos {n : Node α} (h : 0 < n.clusterSize) : 0 < n.half := by
  unfold half
  omega

theorem Node.half_congr {n m : Node α} (h : m.clusterSize = n.clusterSize) : m.half = n.half := by
  unfold half
  rw [h]

/-- What a leader finds to be covered is the match index that half of the members have reached,
unless it has been committed already. -/
theorem Node.coveredIndex_eq {n : Node α} {l : Leadership} {m : LogIndex}
    (h : LogIndex.kthLargest? n.half l.matchIndices = some m) (hpos : 0 < n.clusterSize) :
    n.coveredIndex l = max n.commitIndex m := by
  have hcount (v : LogIndex) :
      n.clusterSize ≤ l.matchIndices.countP (v ≤ ·) * 2 ↔ v ≤ m := by
    rw [LogIndex.le_kthLargest?_iff (half_pos hpos) h]
    unfold Node.half
    omega
  apply eq_of_forall_ge_iff
  intro b
  unfold coveredIndex
  rw [LogIndex.foldl_max_le_iff, Int.max_le]
  constructor
  · rintro ⟨hcommit, hall⟩
    refine ⟨hcommit, ?_⟩
    by_cases hless : n.commitIndex < m
    · apply hall
      rw [List.mem_filter, decide_eq_true_eq, hcount]
      exact ⟨LogIndex.mem_of_kthLargest? h, hless, Int.le_refl m⟩
    · lia
  · rintro ⟨hcommit, hm⟩
    refine ⟨hcommit, ?_⟩
    intro v hv
    rw [List.mem_filter, decide_eq_true_eq, hcount] at hv
    exact Int.le_trans hv.2.2 hm

/-- The sweep commits through the match index that half of the members have reached, if that is not
committed already, and goes on with the agreements that waited for it. -/
theorem Turn.commitCovered_eq {t : Turn α} {l : Leadership} {m : LogIndex}
    (hrole : t.node.role = .leader l)
    (h : LogIndex.kthLargest? t.node.half l.matchIndices = some m) (hpos : 0 < t.node.clusterSize) :
    t.commitCovered =
      if t.node.commitIndex < m then (t.commitThrough m).resumeAgreements else t := by
  unfold commitCovered
  simp only [hrole, Node.coveredIndex_eq h hpos]
  by_cases hless : t.node.commitIndex < m
  · have hmax : max t.node.commitIndex m = m := Int.max_eq_right (Int.le_of_lt hless)
    rw [hmax, if_pos hless, if_pos hless]
    rfl
  · have hmax : ¬ t.node.commitIndex < max t.node.commitIndex m := by lia
    rw [if_neg hmax, if_neg hless]

theorem Leadership.exists_half {l : Leadership} {n : Node α}
    (hlength : l.cursors.length = n.clusterSize) (hpos : 0 < n.clusterSize) :
    ∃ m, LogIndex.kthLargest? n.half l.matchIndices = some m := by
  have hmatches : l.matchIndices.length = n.clusterSize := by
    rw [← hlength]
    exact List.length_map _
  apply LogIndex.exists_kthLargest? (Node.half_pos hpos)
  rw [hmatches]
  unfold Node.half
  omega

theorem Leadership.mem_matchIndices {l : Leadership} {v : LogIndex} :
    v ∈ l.matchIndices ↔ ∃ (p : PeerId) (cursor : Cursor),
      l.cursors[p]? = some cursor ∧ cursor.matched = v := by
  unfold matchIndices
  rw [List.mem_map]
  constructor
  · rintro ⟨cursor, hmem, hv⟩
    obtain ⟨p, hp⟩ := List.mem_iff_getElem?.mp hmem
    exact ⟨p, cursor, hp, hv⟩
  · rintro ⟨p, cursor, hp, hv⟩
    exact ⟨cursor, List.mem_of_getElem? hp, hv⟩

theorem Leadership.matchIndices_congr {l l' : Leadership} (h : l'.cursors = l.cursors) :
    l'.matchIndices = l.matchIndices :=
  congrArg (List.map Cursor.matched) h

theorem Leadership.matchIndices_recordFailure (l : Leadership) (p : PeerId) :
    (l.recordFailure p).matchIndices = l.matchIndices := by
  apply List.ext_getElem?
  intro q
  unfold matchIndices recordFailure
  rw [List.getElem?_map, List.getElem?_map, List.getElem?_modify]
  cases l.cursors[q]? with
  | none => rfl
  | some cursor =>
      simp only [Option.map_eq_map, Option.map_some]
      split
      · split <;> rfl
      · rfl

namespace Node

variable {n m : Node α} {l l' : Leadership}

/-- A leader has a cursor for every member. As far as its log goes, it has committed what half of
the members have reached. -/
def Prompt (n : Node α) : Prop :=
  ∀ l, n.role = .leader l → l.cursors.length = n.clusterSize ∧
    ∀ k, LogIndex.kthLargest? n.half l.matchIndices = some k →
      min n.log.lastIndex k ≤ n.commitIndex

theorem prompt_of_not_leader (h : ¬ n.isLeader) : n.Prompt := by
  intro l hl
  exact absurd (isLeader_of_lead hl) h

/-- A log that grows beyond its match indices makes no difference. -/
theorem Prompt.of_matches (h : n.Prompt) (hn : n.role = .leader l) (hm : m.role = .leader l')
    (hlength : l'.cursors.length = l.cursors.length) (hmatches : l'.matchIndices = l.matchIndices)
    (hsize : m.clusterSize = n.clusterSize)
    (hlast : ∀ v ∈ l.matchIndices, min m.log.lastIndex v ≤ n.log.lastIndex)
    (hcommit : n.commitIndex ≤ m.commitIndex) : m.Prompt := by
  intro l₀ hl₀
  obtain rfl := Role.leader.inj (hm.symm.trans hl₀)
  obtain ⟨hcursors, hcovered⟩ := h l hn
  refine ⟨by rw [hlength, hcursors, hsize], ?_⟩
  intro k hk
  rw [half_congr hsize, hmatches] at hk
  have hreached := hcovered k hk
  have hwithin := hlast k (LogIndex.mem_of_kthLargest? hk)
  lia

/-- The sweep leaves nothing to do. -/
theorem commitCovered_prompt {t : Turn α} (hrole : t.node.role = .leader l)
    (hlength : l.cursors.length = t.node.clusterSize) (hpos : 0 < t.node.clusterSize) :
    t.commitCovered.node.Prompt := by
  obtain ⟨m, hm⟩ := Leadership.exists_half hlength hpos
  have hsteps : t.AnySteps t.commitCovered := Turn.commitCovered_steps fun _ _ => trivial
  have hsize : t.commitCovered.node.clusterSize = t.node.clusterSize :=
    (SameOffice.of_standing hsteps.standing).clusterSize
  have hlog : t.commitCovered.node.log = t.node.log := standing_log hsteps.standing
  have hcommit : min t.node.log.lastIndex m ≤ t.commitCovered.node.commitIndex := by
    rw [Turn.commitCovered_eq hrole hm hpos]
    split
    · have hresume : (t.commitThrough m).AnySteps (t.commitThrough m).resumeAgreements :=
        Turn.resumeAgreements_steps fun _ _ => trivial
      have hle := hresume.commitIndex_le
      rw [Turn.commitThrough_commitIndex] at hle
      lia
    · lia
  intro l' hl'
  have hcursors : l'.cursors = l.cursors := standing_cursors hsteps.standing hl' hrole
  refine ⟨by rw [hcursors, hlength, hsize], ?_⟩
  intro k hk
  rw [half_congr hsize, Leadership.matchIndices_congr hcursors] at hk
  obtain rfl := Option.some.inj (hm.symm.trans hk)
  rw [hlog]
  exact hcommit

/-- An acceptance is not left without the sweep. -/
theorem appendAccepted_prompt (hl : n.role = .leader l)
    (hlength : l.cursors.length = n.clusterSize) (hpos : 0 < n.clusterSize) (sender : PeerId)
    (context : AppendContext) : (appendAccepted n.idle sender context).node.Prompt := by
  have hl₁ := record_role hl sender context
  rw [appendAccepted_of_leader hl₁]
  have hsame := record_sameOffice n.idle sender context
  have hcounted : (n.idle.record sender context).AnySteps
      ((acknowledged (l.recorded sender context) sender context.round).foldl (·.acknowledge · sender)
        (n.idle.record sender context)) :=
    Turn.foldl_acknowledge_steps (fun _ _ => trivial) fun _ _ => trivial
  have hsize := (hsame.trans (.of_standing hcounted.standing)).clusterSize
  obtain ⟨l₂, hl₂⟩ := exists_lead
    ((standing_isLeader hcounted.standing).trans (isLeader_of_lead hl₁))
  have hcursors : l₂.cursors = (l.recorded sender context).cursors :=
    standing_cursors hcounted.standing hl₂ hl₁
  apply commitCovered_prompt hl₂
  · rw [hcursors, l.recorded_width, hlength, hsize]
    rfl
  · rw [hsize]
    exact hpos

/-- Whatever happens to a node whose match indices speak of entries of its log, it has made use of
them in the end. -/
theorem Prompt.after (h : n.Prompt) (hsettled : n.Settled) (hpos : 0 < n.clusterSize)
    (hwithin : ∀ l, n.role = .leader l → ∀ v ∈ l.matchIndices, v ≤ n.log.lastIndex) (e : Event α) :
    (n.after e).Prompt := by
  by_cases hlead : (n.after e).isLeader
  case neg => exact prompt_of_not_leader hlead
  obtain ⟨l', hl'⟩ := exists_lead hlead
  have hsize : (n.after e).clusterSize = n.clusterSize := (n.after_shift e).clusterSize
  have hrise : n.commitIndex ≤ (n.after e).commitIndex := (hsettled.handle e).start_le
  have hreign : n.Reign (fun _ => True) (fun _ _ => True) e :=
    after_reign hlead (fun _ _ => trivial) fun _ _ _ _ _ _ _ _ _ _ _ => trivial
  cases hreign with
  | hold hrole hlog hcommit =>
      apply h.of_matches (hrole.symm.trans hl') hl' rfl rfl hsize _ hrise
      intro v _
      rw [hlog]
      exact Int.min_le_left _ _
  | accede hbefore hrole hlog hcommit hgen =>
      intro l hl
      obtain rfl := Role.leader.inj (hrole.symm.trans hl)
      refine ⟨by rw [hsize]; exact List.length_replicate, ?_⟩
      intro k hk
      obtain ⟨p, cursor, hcursor, rfl⟩ :=
        Leadership.mem_matchIndices.mp (LogIndex.mem_of_kthLargest? hk)
      obtain rfl := Leadership.cursor_fresh hcursor
      have habsent := hsettled.absent_le
      change min (n.after e).log.lastIndex LogIndex.absent ≤ _
      lia
  | store command he hleader hsteps =>
      obtain ⟨l, hl⟩ := exists_lead hleader
      have hcursors : l'.cursors = (l.enqueue _).cursors :=
        standing_cursors (Turn.Steps.standing hsteps) hl' (stored_role hl command)
      apply h.of_matches hl hl' (congrArg List.length hcursors)
        (Leadership.matchIndices_congr hcursors) hsize _ hrise
      -- There is no sweep here, so the new entry must lie beyond every match index.
      intro v hv
      exact Int.le_trans (Int.min_le_right _ _) (hwithin l hl v hv)
  | count sender context reply he hleader hgen hsuccess hsteps =>
      obtain ⟨l, hl⟩ := exists_lead hleader
      subst he
      change (n.appendReturned sender context (some reply)).node.Prompt
      rcases n.appendReturned_success sender context hsuccess with hturn | hnot | hturn
      · rw [hturn]
        exact h
      · exact absurd hlead hnot
      · rw [hturn]
        exact appendAccepted_prompt hl (h l hl).1 hpos sender context
  | retreat sender context reply he hleader hrole hlog hcommit =>
      obtain ⟨l, hl⟩ := exists_lead hleader
      have hback : (n.after e).role = .leader (l.recordFailure sender) := by
        rw [hrole, hl]
        rfl
      apply h.of_matches hl hback (List.length_modify _ _ _)
        (l.matchIndices_recordFailure sender) hsize _ hrise
      intro v _
      rw [hlog]
      exact Int.min_le_left _ _

/-- A candidate does not have the votes of a majority. -/
def Short (n : Node α) : Prop :=
  ∀ votes, n.role = .candidate votes → ¬ votes.IsMajority n.clusterSize

/-- The vote that decides an election makes the candidate a leader at once. -/
theorem Short.after (h : n.Short) (e : Event α) : (n.after e).Short := by
  intro votes hrole
  have hkind : (n.after e).role.kind = .candidate := by
    rw [hrole]
    rfl
  have htally : (n.after e).role.tally? = some votes := Role.tally?_eq_some.mpr hrole
  rw [(n.after_shift e).clusterSize]
  cases n.after_shift e with
  | stay h' => exact h votes (Role.tally?_eq_some.mp (h'.tally.symm.trans htally))
  | vote args he hargs hfree h' =>
      exact h votes (Role.tally?_eq_some.mp (h'.tally.symm.trans htally))
  | adopt _ _ _ _ hfollower => rw [hfollower] at hkind; cases hkind
  | yield _ _ _ _ _ _ _ _ hfollower => rw [hfollower] at hkind; cases hkind
  | stand _ _ _ _ _ hstand =>
      rcases hstand with ⟨hsingle, hshort⟩ | ⟨hleader, -⟩
      · obtain rfl := Role.candidate.inj (hrole.symm.trans hsingle)
        exact hshort
      · rw [hleader] at hkind
        cases hkind
  | count before sender reply he hgranted hbefore h' hshort =>
      have hadd : before.add sender = votes := Option.some.inj (h'.tally.symm.trans htally)
      rw [← hadd]
      exact hshort
  | win before sender reply he hgranted hbefore hmajority _ _ _ _ hleader =>
      rw [hleader] at hkind
      cases hkind

end Node

/-- Match indices speak of entries of their leader's log, and so do the calls that may still raise
them. -/
structure Cluster.Measured (c : Cluster α) : Prop where
  matched : ∀ (i : PeerId) (n : Node α), c.nodes[i]? = some n → ∀ l, n.role = .leader l →
    ∀ v ∈ l.matchIndices, v < n.log.length
  sent : ∀ q ∈ c.packets, ∀ s context, q.call? = some (s, context) → ∀ n, c.nodes[s]? = some n →
    n.isLeader → context.generation = n.generation → ∀ k, context.lastSent = some k →
      k < n.log.length

namespace Cluster.Measured

variable {size : Nat} {c c' : Cluster α} {past : List (Cluster α)} {i : PeerId} {n : Node α}
  {e : Event α}

theorem fresh (size : Nat) : Measured (.fresh size : Cluster α) where
  matched := by
    intro i n hn l hl
    obtain ⟨-, rfl⟩ := Cluster.fresh_node hn
    cases hl
  sent := by
    intro q hq
    cases hq

theorem rest (h : c.Measured) (hrest : c.Rests c') : c'.Measured where
  matched := by
    rw [hrest.nodes]
    exact h.matched
  sent := by
    intro q hq s context hcall
    rw [hrest.nodes]
    rcases hrest.packets q hq with hold | hfail
    · exact h.sent q hold s context hcall
    · rw [hfail.call?] at hcall
      cases hcall

theorem act (h : c.Measured) (hrun : Run unrepeated size c past) (hact : c.Acts i n e c')
    (hobey : unrepeated c n e) : c'.Measured where
  matched := by
    intro j m hm l hl v hv
    rcases hact.node_cases hm with ⟨rfl, rfl⟩ | ⟨-, hold⟩
    · obtain ⟨p, cursor, hcursor, rfl⟩ := Leadership.mem_matchIndices.mp hv
      have hlog := ((n.after_writes e).of_leader (Node.isLeader_of_lead hl)).length_le
      rcases Node.matched_after hl hcursor with habsent | ⟨lead, old, hlead, hold, hmatched⟩
      · rw [habsent]
        unfold LogIndex.absent
        lia
      · have hbefore := h.matched j n hact.node lead hlead old.matched
          (Leadership.mem_matchIndices.mpr ⟨p, old, hold, rfl⟩)
        rcases hmatched with hsame | ⟨context, reply, k, rfl, -, hgen, hlast, hmax⟩
        · lia
        · cases hact.cause with
          | appendReturned hp =>
              have hk := h.sent _ hp j context rfl n hact.node (Node.isLeader_of_lead hlead) hgen
                k hlast
              lia
    · exact h.matched j m hold l hl v hv
  sent := by
    intro q hq s context hcall m' hm' hleader hgen k hk
    rcases hact.call? hq hcall with ⟨q₀, hq₀, hcall₀⟩ | ⟨rfl, -, -, hwithin⟩
    · -- An earlier call of this generation is one of the same leadership, whose log has only grown.
      obtain ⟨m, hm, hbefore, hsame, -, hlog, -⟩ :=
        hact.current_before hrun hobey hq₀ hcall₀ hm' hleader hgen
      have hlt := h.sent q₀ hq₀ s context hcall₀ m hm hbefore hsame k hk
      have hlength := hlog.length_le
      lia
    · obtain rfl := Option.some.inj (hact.node_self.symm.trans hm')
      exact hwithin k hk

end Cluster.Measured

namespace Run

variable {rule : Rule α} {size : Nat} {c : Cluster α} {past : List (Cluster α)}

theorem measured (h : Run unrepeated size c past) : c.Measured := by
  refine h.invariant (P := fun c _ => c.Measured) ?_ ?_ ?_
  · exact .fresh size
  · intro c past c' _ ih hrest
    exact ih.rest hrest
  · intro c past i n e c' hrun ih hact hobey
    exact ih.act hrun hact hobey

theorem short (h : Run rule size c past) :
    ∀ (i : PeerId) (n : Node α), c.nodes[i]? = some n → n.Short := by
  refine h.invariant (P := fun c _ =>
    ∀ (i : PeerId) (n : Node α), c.nodes[i]? = some n → n.Short) ?_ ?_ ?_
  · intro i n hn votes hrole
    obtain ⟨-, rfl⟩ := Cluster.fresh_node hn
    cases hrole
  · intro c past c' _ ih hrest i n hn
    rw [hrest.nodes] at hn
    exact ih i n hn
  · intro c past j k e c' _ ih hact _ i n hn
    rcases hact.node_cases hn with ⟨-, rfl⟩ | ⟨-, hold⟩
    · exact (ih j k hact.node).after e
    · exact ih i n hold

theorem prompt (h : Run unrepeated size c past) :
    ∀ (i : PeerId) (n : Node α), c.nodes[i]? = some n → n.Prompt := by
  refine h.invariant (P := fun c _ =>
    ∀ (i : PeerId) (n : Node α), c.nodes[i]? = some n → n.Prompt) ?_ ?_ ?_
  · intro i n hn
    obtain ⟨-, rfl⟩ := Cluster.fresh_node hn
    exact Node.prompt_of_not_leader Bool.false_ne_true
  · intro c past c' _ ih hrest i n hn
    rw [hrest.nodes] at hn
    exact ih i n hn
  · intro c past j k e c' hrun ih hact _ i n hn
    rcases hact.node_cases hn with ⟨rfl, rfl⟩ | ⟨-, hold⟩
    · obtain ⟨hi, -, hsize⟩ := hrun.seat i k hact.node
      apply (ih i k hact.node).after (hrun.settled i k hact.node) (by omega)
      intro l hl v hv
      have hlt := hrun.measured.matched i k hact.node l hl v hv
      unfold Log.lastIndex LogIndex.lastOf
      lia
    · exact ih i n hold

end Run

/-- No quorum is left unused. Between events, as long as no generation counter starts over, a leader
has committed, as far as its log goes, the match index that half of the members have reached; no
agreement that it keeps open has been reached; and no candidate has the votes of a majority. The
sweep takes any leader exactly that far, before it goes on with the agreements that waited. -/
theorem no_quorum_unused {size : Nat} {c : Cluster α} {past : List (Cluster α)}
    (h : Run unwrapped size c past) {i : PeerId} {n : Node α} (hn : c.nodes[i]? = some n) :
    (∀ l, n.role = .leader l →
      (∃ m, LogIndex.kthLargest? ((size + 1) / 2) l.matchIndices = some m ∧
        min n.log.lastIndex m ≤ n.commitIndex) ∧
      ∀ a ∈ l.agreements, ¬ a.acks.IsMajority size) ∧
    (∀ votes, n.role = .candidate votes → ¬ votes.IsMajority size) ∧
    ∀ (t : Turn α) (l : Leadership), t.node.role = .leader l →
      l.matchIndices.length = t.node.clusterSize → 1 ≤ t.node.clusterSize →
        ∃ m, LogIndex.kthLargest? ((t.node.clusterSize + 1) / 2) l.matchIndices = some m ∧
          (t.node.commitIndex < m ∧ t.commitCovered = (t.commitThrough m).resumeAgreements ∧
              (t.commitThrough m).node.commitIndex =
                max t.node.commitIndex (min t.node.log.lastIndex m) ∨
            m ≤ t.node.commitIndex ∧ t.commitCovered = t ∧
              t.node.commitIndex = max t.node.commitIndex (min t.node.log.lastIndex m)) := by
  obtain ⟨hi, -, hsize⟩ := h.seat i n hn
  subst hsize
  refine ⟨?_, h.short i n hn, ?_⟩
  · intro l hl
    obtain ⟨hlength, hcovered⟩ := h.unrepeated_of_unwrapped.prompt i n hn l hl
    obtain ⟨m, hm⟩ := Leadership.exists_half hlength (by omega)
    obtain ⟨start, hqueues⟩ := h.queues i n hn
    exact ⟨⟨m, hm, hcovered m hm⟩, (hqueues l hl).2⟩
  · intro t l hl hlength hpos
    have hcursors : l.cursors.length = t.node.clusterSize := by
      rw [← hlength]
      exact (List.length_map _).symm
    obtain ⟨m, hm⟩ := Leadership.exists_half hcursors hpos
    have hsweep := Turn.commitCovered_eq hl hm hpos
    refine ⟨m, hm, ?_⟩
    by_cases hless : t.node.commitIndex < m
    · rw [if_pos hless] at hsweep
      rw [Int.min_comm]
      exact Or.inl ⟨hless, hsweep, rfl⟩
    · rw [if_neg hless] at hsweep
      exact Or.inr ⟨Int.not_lt.mp hless, hsweep, by lia⟩

theorem no_quorum_unused_acceptedEntry :
    ∃ n l, ((Cluster.fresh 3).course []
        (acceptedEntry ++ [.deliver 6, .deliver 7, .deliver 8])).1.nodes[0]? = some n ∧
      n.role = .leader l ∧ n.commitIndex = 0 ∧ l.matchIndices = [-1, 0, 0] ∧
      (∃ m, LogIndex.kthLargest? ((3 + 1) / 2) l.matchIndices = some m ∧
        min n.log.lastIndex m ≤ n.commitIndex) ∧
      ∀ a ∈ l.agreements, ¬ a.acks.IsMajority 3 := by
  have hrun : Run unwrapped 3
      ((Cluster.fresh 3).course [] (acceptedEntry ++ [.deliver 6, .deliver 7, .deliver 8])).1
      ((Cluster.fresh 3).course [] (acceptedEntry ++ [.deliver 6, .deliver 7, .deliver 8])).2 :=
    .course .start (by decide)
  refine ⟨_, _, rfl, rfl, rfl, rfl, ?_⟩
  exact (no_quorum_unused hrun (i := 0) rfl).1 _ rfl

/-- Four members. The first one is elected and stores `10` and `11`, which the next two accept.
Before word of this gets through, the last one is elected, and the first one takes over its log,
which is `20` alone. -/
def shortenedLog : List (Move Nat) :=
  [.electionTimeout 0, .deliver 0, .deliver 1, .deliver 3, .deliver 4, .submit 0 10, .submit 0 11,
    .heartbeatTimeout 0, .deliver 11, .deliver 12, .electionTimeout 3, .electionTimeout 3,
    .deliver 19, .deliver 20, .deliver 22, .deliver 23, .submit 3 20, .deliver 27]

/-- Generations may not start over. Once the first member leads again in the generation of its first
leadership, the word of `11` raises its match indices beyond its log, and nothing is made of them
when the log comes to reach that far. -/
theorem quorum_unused : ¬ ∀ (size : Nat) (c : Cluster Nat) (past : List (Cluster Nat)),
    Run (fun _ _ _ => True) size c past → ∀ (i : PeerId) (n : Node Nat) (l : Leadership)
      (m : LogIndex), c.nodes[i]? = some n → n.role = .leader l →
        LogIndex.kthLargest? ((size + 1) / 2) l.matchIndices = some m →
          min n.log.lastIndex m ≤ n.commitIndex := by
  intro hprompt
  have hrun : Run (fun _ _ _ => True) 4 ((Cluster.fresh 4).course [] shortenedLog).1
      ((Cluster.fresh 4).course [] shortenedLog).2 := .course .start (by decide)
  -- The member stands until one more candidacy is that of its first generation again.
  obtain ⟨before, hwrapped, -⟩ := hrun.stand_often (i := 0) rfl (by decide) (by decide)
    (fun _ _ _ => trivial) (Term.last - 4 + 1)
  rw [Node.stood_iterate (by decide)] at hwrapped
  have hlast := hwrapped.course (show Cluster.AllObey _ _
    [.electionTimeout 0, .deliver 31, .deliver 32, .deliver 34, .deliver 35, .deliver 14,
      .deliver 15, .submit 0 30] by decide)
  have hreached := hprompt 4 _ _ hlast 0 _ _ 1 rfl rfl rfl
  exact absurd hreached (by decide)

end Quorum
