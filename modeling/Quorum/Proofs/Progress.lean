import Quorum.Proofs.Quiescence
import Quorum.Proofs.Repair
import Quorum.Proofs.Tallying

/-!
A majority that is connected to its leader does not get stuck. Where a round of heartbeats changes
nothing, every member that can be reached holds the leader's log and has said so in the round. The
leader has counted all of them towards the agreement on the entry after its commit index, so that
the agreement would have been reached. On entries that it has not stored itself it seeks no
agreement. Those are committed only by the sweep, which does not count the leader's own copy.
-/

namespace Quorum

variable {α : Type}

namespace Leadership

variable {l m : Leadership} {i : LogIndex} {p q : PeerId} {context : AppendContext}

/-- The member counts in the agreement on the entry at an index, if there is one. -/
def Backs (l : Leadership) (i : LogIndex) (p : PeerId) : Prop :=
  ∀ a ∈ l.agreements, a.index = i → p ∈ a.acks.peers

theorem Backs.counted (h : l.Backs i p) (q : PeerId) (context : AppendContext) :
    (l.counted i q context).Backs i p := by
  have hrecorded : (l.recorded q context).Backs i p := by
    unfold Backs
    rw [recorded_agreements]
    exact h
  unfold Leadership.counted
  split
  · intro a ha hindex
    obtain ⟨b, hb, rfl⟩ := List.mem_map.mp ha
    by_cases hi : b.index = i
    · rw [if_pos hi]
      exact Tally.mem_add.mpr (Or.inl (hrecorded b hb hi))
    · rw [if_neg hi] at hindex
      exact absurd hindex hi
  · exact hrecorded

/-- Whoever has confirmed the entry counts. -/
theorem counted_backs (h : l.Confirms p context i) : (l.counted i p context).Backs i p := by
  unfold Leadership.counted
  rw [if_pos h]
  intro a ha hindex
  obtain ⟨b, hb, rfl⟩ := List.mem_map.mp ha
  by_cases hi : b.index = i
  · rw [if_pos hi]
    exact Tally.mem_add.mpr (Or.inr rfl)
  · rw [if_neg hi] at hindex
    exact absurd hindex hi

/-- With the acceptances of some members counted one after the other. -/
def countedAll (l : Leadership) (i : LogIndex) (contexts : PeerId → AppendContext)
    (ps : List PeerId) : Leadership :=
  ps.foldl (fun l p => l.counted i p (contexts p)) l

variable {contexts : PeerId → AppendContext} {ps : List PeerId}

theorem countedAll_cursor_other (hp : p ∉ ps) (l : Leadership) :
    (l.countedAll i contexts ps).cursors[p]? = l.cursors[p]? := by
  induction ps generalizing l with
  | nil => rfl
  | cons q ps ih =>
      change ((l.counted i q (contexts q)).countedAll i contexts ps).cursors[p]? = _
      rw [ih (List.not_mem_of_not_mem_cons hp), counted_cursor_other (List.ne_of_not_mem_cons hp)]

/-- Each acceptance is recorded at the cursor of the one member. -/
theorem countedAll_cursor (hnodup : ps.Nodup) (hp : p ∈ ps) (l : Leadership) :
    (l.countedAll i contexts ps).cursors[p]? = (l.recorded p (contexts p)).cursors[p]? := by
  induction ps generalizing l with
  | nil => cases hp
  | cons q ps ih =>
      obtain ⟨hq, hrest⟩ := List.nodup_cons.mp hnodup
      change ((l.counted i q (contexts q)).countedAll i contexts ps).cursors[p]? = _
      rcases List.mem_cons.mp hp with rfl | hlater
      · rw [countedAll_cursor_other hq, counted_cursors]
      · have hne : p ≠ q := fun h => hq (h ▸ hlater)
        rw [ih hrest hlater]
        exact recorded_cursor_congr (counted_cursor_other hne l i _) _

theorem opened_countedAll (l : Leadership) : (l.countedAll i contexts ps).opened = l.opened := by
  induction ps generalizing l with
  | nil => rfl
  | cons q ps ih => exact (ih _).trans (l.opened_counted i q _)

theorem Backs.countedAll (h : l.Backs i p) : (l.countedAll i contexts ps).Backs i p := by
  induction ps generalizing l with
  | nil => exact h
  | cons q ps ih => exact ih (h.counted q _)

/-- Whoever holds the entry in the end has confirmed it and counts. -/
theorem countedAll_backs (hnodup : ps.Nodup) (hp : p ∈ ps)
    (hholds : (l.countedAll i contexts ps).Holds p i) : (l.countedAll i contexts ps).Backs i p := by
  rw [holds_congr (countedAll_cursor hnodup hp l)] at hholds
  induction ps generalizing l with
  | nil => cases hp
  | cons q ps ih =>
      obtain ⟨hq, hrest⟩ := List.nodup_cons.mp hnodup
      change ((l.counted i q (contexts q)).countedAll i contexts ps).Backs i p
      rcases List.mem_cons.mp hp with rfl | hlater
      · exact (counted_backs (Or.inr hholds)).countedAll
      · have hne : p ≠ q := fun h => hq (h ▸ hlater)
        apply ih hrest hlater
        rwa [holds_congr (recorded_cursor_congr (counted_cursor_other hne l i _) _)]

end Leadership

namespace Node

variable {n : Node α}

theorem Settled.commitIndex_le_afterAll (h : n.Settled) (es : List (Event α)) :
    n.commitIndex ≤ (n.afterAll es).commitIndex := by
  induction es generalizing n with
  | nil => exact Int.le_refl _
  | cons e es ih => exact Int.le_trans (h.handle e).start_le (ih (h.after e))

end Node

namespace Volley

variable {v : Volley α} {c : Cluster α} {n : Node α} {l : Leadership} {start : Nat}

/-- Members that cannot be reached make no difference. -/
theorem afterAll_reached (n : Node α) (ps : List PeerId) :
    n.afterAll (ps.map (v.returned c)) =
      n.afterAll ((ps.filter fun p => v.reply? c p ≠ none).map (v.returned c)) := by
  induction ps generalizing n with
  | nil => rfl
  | cons p ps ih =>
      by_cases hp : v.reply? c p = none
      · have hsame : n.after (v.returned c p) = n := by
          unfold returned
          rw [hp]
          rfl
        rw [List.filter_cons_of_neg (by simp [hp])]
        change (n.after (v.returned c p)).afterAll _ = _
        rw [hsame]
        exact ih n
      · rw [List.filter_cons_of_pos (by simp [hp])]
        exact ih (n.after (v.returned c p))

/-- A leader that all of these members answer with an acceptance, and that commits nothing, has
counted all of them, and has committed already what half of the members are known to hold. -/
theorem afterAll_accepted (ps : List PeerId) (hl : n.role = .leader l) (hqueues : n.Queues start)
    (hsettled : n.Settled) (hwidth : l.cursors.length = n.clusterSize)
    (hsize : ps ≠ [] → 2 ≤ n.clusterSize)
    (hreply : ∀ p ∈ ps, v.reply? c p = some ⟨n.term, true⟩)
    (hgen : ∀ p ∈ ps, (v.context p).generation = n.generation)
    (hround : ∀ p ∈ ps, (v.context p).round = .heartbeat)
    (hstill : (n.afterAll (ps.map (v.returned c))).commitIndex ≤ n.commitIndex) :
    let k := l.countedAll (n.commitIndex + 1) v.context ps
    (n.afterAll (ps.map (v.returned c))).role = .leader k ∧
      (ps ≠ [] → ∀ m, LogIndex.kthLargest? n.half k.matchIndices = some m →
        min m n.log.lastIndex ≤ n.commitIndex) := by
  induction ps generalizing n l start with
  | nil => exact ⟨hl, fun h => absurd rfl h⟩
  | cons p ps ih =>
      obtain ⟨hp, hreplies⟩ := List.forall_mem_cons.mp hreply
      obtain ⟨hgen₁, hgens⟩ := List.forall_mem_cons.mp hgen
      obtain ⟨hround₁, hrounds⟩ := List.forall_mem_cons.mp hround
      have hsize : 2 ≤ n.clusterSize := hsize (List.cons_ne_nil p ps)
      have hevent : v.returned c p = .appendReturned p (v.context p) (some ⟨n.term, true⟩) := by
        unfold returned
        rw [hp]
      have hturn :
          n.after (v.returned c p) = (Node.appendAccepted n.idle p (v.context p)).node := by
        rw [hevent]
        exact congrArg Turn.node (Node.appendReturned_accepted (Node.isLeader_of_lead hl) p
          (Nat.le_refl _) rfl hgen₁)
      have hsame : n.SameOffice (n.after (v.returned c p)) := by
        rw [hturn]
        exact Node.appendAccepted_sameOffice n.idle p (v.context p)
      have hlog : (n.after (v.returned c p)).log = n.log := by
        rw [hevent]
        exact n.appendReturned_log p _ _
      have hrise : n.commitIndex ≤ (n.after (v.returned c p)).commitIndex :=
        (hsettled.handle _).start_le
      have hlater : (n.after (v.returned c p)).commitIndex ≤
          ((n.after (v.returned c p)).afterAll (ps.map (v.returned c))).commitIndex :=
        (hsettled.after _).commitIndex_le_afterAll _
      have hcommit : (n.after (v.returned c p)).commitIndex = n.commitIndex :=
        Int.le_antisymm (Int.le_trans hlater hstill) hrise
      obtain ⟨m₁, hm₁⟩ := Leadership.exists_half (n := n) (l := l.recorded p (v.context p))
        ((l.recorded_width p _).trans hwidth) (by omega)
      have hseeks : ∀ i, (v.context p).round.Seeks i → i ≤ n.commitIndex + 1 := by
        rw [hround₁]
        intro i hi
        cases hi
      obtain ⟨heffect, hstays, -⟩ := Node.appendAccepted_effect (p := p) hl hqueues hsize hseeks hm₁
      rw [← hturn] at heffect hstays
      have hrest := ih (hstays hcommit) (hqueues.after _) (hsettled.after _)
        (by rw [Leadership.counted_width, hwidth, hsame.clusterSize])
        (by rw [hsame.clusterSize]; exact fun _ => hsize)
        (by rw [hsame.term]; exact hreplies) (by rw [hsame.generation]; exact hgens) hrounds
        (by rw [hcommit]; exact hstill)
      rw [hcommit, hlog, Node.half_congr hsame.clusterSize] at hrest
      refine ⟨hrest.1, fun _ m hm => ?_⟩
      by_cases hlast : ps = []
      · subst hlast
        have hmatches := Leadership.matchIndices_congr
          (l.counted_cursors (n.commitIndex + 1) p (v.context p))
        change LogIndex.kthLargest? n.half
          (l.counted (n.commitIndex + 1) p (v.context p)).matchIndices = some m at hm
        rw [hmatches, hm₁] at hm
        obtain rfl := Option.some.inj hm
        lia
      · exact hrest.2 hlast m hm

end Volley

/-- Where a heartbeat that a member accepts leaves its cursor as it is, the member is known to hold
the leader's log, if the leader has stored some of that itself. -/
theorem Node.holds_of_recorded {n : Node α} {l : Leadership} {p : PeerId} {start : Nat}
    (hkept : l.Kept n.clusterSize n.id start) (hstart : (start : Int) ≤ n.log.lastIndex)
    (hp : p < n.clusterSize)
    (hsame : (l.recorded p (n.beatContext l p)).cursors[p]? = l.cursors[p]?) :
    l.Holds p n.log.lastIndex := by
  obtain ⟨cursor, hcursor⟩ : ∃ cursor, l.cursors[p]? = some cursor :=
    ⟨_, List.getElem?_eq_getElem (by rw [hkept.width]; exact hp)⟩
  have hnext : l.nextTo p = cursor.next := by
    unfold Leadership.nextTo Leadership.next?
    rw [hcursor]
    rfl
  have hlength := n.log.length_slice_eq cursor.next n.log.lastIndex
  have hlast : n.log.lastIndex = (n.log.length : Int) - 1 := rfl
  refine ⟨cursor.matched, by simp [Leadership.matched?, hcursor], ?_⟩
  by_cases hentries : n.log.slice cursor.next n.log.lastIndex = []
  · -- Nothing is left to send: the cursor has gone beyond the log behind the match index.
    have hbound := hkept.next p cursor hcursor
    rw [hentries, List.length_nil] at hlength
    lia
  · have hpos := List.length_pos_iff.mpr hentries
    have hsent : (n.beatContext l p).lastSent = some n.log.lastIndex := by
      change (if n.log.slice (l.nextTo p) n.log.lastIndex = [] then none else some _) = _
      rw [hnext, if_neg hentries]
      exact congrArg some (by lia)
    unfold Leadership.recorded at hsame
    rw [hsent] at hsame
    obtain ⟨old, hold, ⟨-, hnew⟩ | ⟨hne, -⟩⟩ :=
      Leadership.cursor_recordSuccess (hsame.trans hcursor)
    · obtain rfl := Option.some.inj (hcursor.symm.trans hold)
      have hmatched := congrArg Cursor.matched hnew
      change cursor.matched = max cursor.matched n.log.lastIndex at hmatched
      lia
    · exact absurd rfl hne

/-- In a round that changes nothing every member that can be reached accepts its call. -/
theorem Cluster.Quiescent.reply {rule : Rule α} {size : Nat} {c : Cluster α}
    {past : List (Cluster α)} {i p : PeerId} {n : Node α} {l : Leadership} (h : c.Quiescent i)
    (hrun : Run rule size c past) (hpackets : c.packets = []) (hn : c.nodes[i]? = some n)
    (hl : n.role = .leader l) (hterms : ∀ m ∈ c.nodes, m.term ≤ n.term) (hp : p ≠ i)
    (hlt : p < size) (hreach : c.Reachable i p) :
    (n.volley l).reply? c p = some ⟨n.term, true⟩ := by
  obtain ⟨m, hm⟩ : ∃ m, c.nodes[p]? = some m :=
    ⟨_, List.getElem?_eq_getElem (by rw [hrun.length_nodes]; exact hlt)⟩
  obtain ⟨-, rfl, -⟩ := hrun.seat i n hn
  rw [Volley.reply?_of_reachable hreach hm]
  refine congrArg some ?_
  rcases m.answerAppend_cases (n.beat l p) with
    ⟨hless, -⟩ | ⟨-, hshort, -⟩ | ⟨-, _, _, -, hreply, -⟩
  · exact absurd (hterms m (List.mem_of_getElem? hm)) (Nat.not_le_of_lt hless)
  · exact absurd hshort (h.not_refused hrun hpackets hn hl hterms hp hm hreach)
  · exact hreply

/-- How many members are not cut off. -/
def Cluster.connected (c : Cluster α) : Nat :=
  (List.range c.nodes.length).countP (· ∉ c.isolated)

/-- The other members that are not cut off. -/
def Cluster.company (c : Cluster α) (n : Node α) : List PeerId := n.others.filter (· ∉ c.isolated)

namespace Cluster

variable {rule : Rule α} {size : Nat} {c : Cluster α} {past : List (Cluster α)} {i p : PeerId}
  {n : Node α} {l : Leadership}

theorem mem_company : p ∈ c.company n ↔ p ∈ n.others ∧ p ∉ c.isolated := by
  unfold company
  simp

theorem company_nodup (c : Cluster α) (n : Node α) : (c.company n).Nodup :=
  (List.nodup_range.filter _).filter _

theorem connected_eq (hsize : n.clusterSize = c.nodes.length) (hlt : n.id < c.nodes.length)
    (hconnected : n.id ∉ c.isolated) : c.connected = (c.company n).length + 1 := by
  have hperm := List.perm_cons_erase (List.mem_range.mpr hlt)
  rw [List.nodup_range.erase_eq_filter] at hperm
  unfold connected company Node.others
  rw [hperm.countP_eq, List.countP_cons_of_pos (by simpa using hconnected),
    List.countP_eq_length_filter, hsize]
  simp only [bne, ne_eq, decide_not, beq_eq_decide]

/-- In a round that changes nothing the leader counts everyone it reaches, without reaching an
agreement, and it has committed already what half of the members are known to hold. -/
theorem Quiescent.counts (h : c.Quiescent i) (hrun : Run rule size c past)
    (hpackets : c.packets = []) (hn : c.nodes[i]? = some n) (hl : n.role = .leader l)
    (hconnected : i ∉ c.isolated) (hterms : ∀ m ∈ c.nodes, m.term ≤ n.term) :
    let k := l.countedAll (n.commitIndex + 1) (n.beatContext l) (c.company n)
    k.cursors = l.cursors ∧ k.Undecided size ∧
      (c.company n ≠ [] → ∀ m, LogIndex.kthLargest? n.half l.matchIndices = some m →
        min m n.log.lastIndex ≤ n.commitIndex) := by
  intro k
  obtain ⟨hi, rfl, rfl⟩ := hrun.seat i n hn
  obtain ⟨hkeeps, hqueues⟩ := hrun.bookkeeping n.id n hn
  have hsketch := (h.round hrun hpackets hn hl).2
  have hreach : n.others.filter (fun p => (n.volley l).reply? c p ≠ none) = c.company n := by
    apply List.filter_congr
    intro p hp
    obtain ⟨hlt, hne⟩ := Node.mem_others.mp hp
    rw [decide_eq_decide]
    by_cases hcut : p ∈ c.isolated
    · have hnone : (n.volley l).reply? c p = none := if_neg fun hreach => hreach.2 hcut
      simp [hnone, hcut]
    · simp [h.reply hrun hpackets hn hl hterms hne hlt ⟨hconnected, hcut⟩, hcut]
  rw [Volley.afterAll_reached, hreach] at hsketch
  have hcommit := congrArg Sketch.commitIndex hsketch
  have hreply : ∀ p ∈ c.company n, (n.volley l).reply? c p = some ⟨n.term, true⟩ := by
    intro p hp
    obtain ⟨hother, hcut⟩ := mem_company.mp hp
    obtain ⟨hlt, hne⟩ := Node.mem_others.mp hother
    exact h.reply hrun hpackets hn hl hterms hne hlt ⟨hconnected, hcut⟩
  have hseveral : c.company n ≠ [] → 2 ≤ n.clusterSize := by
    intro hsome
    obtain ⟨p, hp⟩ := List.exists_mem_of_ne_nil _ hsome
    obtain ⟨hlt, hne⟩ := Node.mem_others.mp (mem_company.mp hp).1
    lia
  obtain ⟨hrole, hcovered⟩ := Volley.afterAll_accepted (v := n.volley l) (c.company n) hl hqueues
    (hrun.settled n.id n hn) (hkeeps l hl).width hseveral hreply (fun _ _ => rfl) (fun _ _ => rfl)
    (Int.le_of_eq hcommit)
  have hcursors : k.cursors = l.cursors := by
    have hsame := congrArg Sketch.cursors hsketch
    unfold Node.sketch at hsame
    simp only [hrole, hl, Role.lead?, Option.map_some, Option.some.injEq] at hsame
    exact hsame
  refine ⟨hcursors, ?_, ?_⟩
  · have hsame := (Volley.afterAll_returned (v := n.volley l) (c := c) (c.company n) hl (by
      intro p hp r hr
      obtain rfl := Option.some.inj ((hreply p hp).symm.trans hr)
      exact Nat.le_refl _)).1
    rw [← hsame.clusterSize]
    exact (hqueues.afterAll _ k hrole).2
  · rw [← Leadership.matchIndices_congr hcursors]
    exact hcovered

variable {start : Nat}

/-- If the leader has stored some of its log itself, it then knows that all of them hold its log. -/
theorem Quiescent.holds (h : c.Quiescent i) (hrun : Run rule size c past)
    (hpackets : c.packets = []) (hn : c.nodes[i]? = some n) (hl : n.role = .leader l)
    (hconnected : i ∉ c.isolated) (hterms : ∀ m ∈ c.nodes, m.term ≤ n.term)
    (hstart : (ledFrom i (c :: past) : Int) ≤ n.log.lastIndex) :
    ∀ p ∈ c.company n, l.Holds p n.log.lastIndex := by
  intro p hp
  obtain ⟨hcursors, -, -⟩ := h.counts hrun hpackets hn hl hconnected hterms
  have hkept := (hrun.bookkeeping i n hn).1 l hl
  have hlt := (Node.mem_others.mp (mem_company.mp hp).1).1
  apply Node.holds_of_recorded hkept hstart hlt
  rw [← Leadership.countedAll_cursor (c.company_nodup n) hp l, hcursors]

end Cluster

theorem Tally.isMajority_of_subset {t : Tally} {ps : List PeerId} {size : Nat}
    (hnodup : ps.Nodup) (hsub : ps ⊆ t.peers) (hmajority : size < ps.length * 2) :
    t.IsMajority size := by
  have hle : ps.length ≤ t.size := (List.subperm_of_subset hnodup hsub).length_le
  unfold Tally.IsMajority
  omega

/-- A leader that nobody is ahead of is connected to a majority, nothing is in flight, and another
round of its heartbeats changes nothing. -/
structure Cluster.AtRest (c : Cluster α) (i : PeerId) (n : Node α) : Prop where
  packets : c.packets = []
  node : c.nodes[i]? = some n
  leader : n.isLeader
  connected : i ∉ c.isolated
  current : ∀ m ∈ c.nodes, m.term ≤ n.term
  majority : c.nodes.length < c.connected * 2
  quiet : c.Quiescent i

/-- A majority does not get stuck. Where a leader and a majority have come to rest, all of its log
is committed, if it has come to lead with no more than it has committed, so that it has stored the
next entry itself, or if it has stored some entry and half of the cluster is connected besides it. -/
theorem majority_commits {rule : Rule α} {size : Nat} {c : Cluster α} {past : List (Cluster α)}
    (h : Run rule size c past) {i : PeerId} {n : Node α} (hrest : c.AtRest i n)
    (hinherited : (ledFrom i (c :: past) : Int) ≤ n.commitIndex + 1 ∨
      (ledFrom i (c :: past) : Int) ≤ n.log.lastIndex ∧ size + 2 ≤ c.connected * 2) :
    n.log.lastIndex ≤ n.commitIndex := by
  obtain ⟨hpackets, hn, hlead, hconnected, hterms, hmajority, hquiet⟩ := hrest
  rw [h.length_nodes] at hmajority
  obtain ⟨l, hl⟩ := Node.exists_lead hlead
  obtain ⟨hcursors, hundecided, hcovered⟩ := hquiet.counts h hpackets hn hl hconnected hterms
  obtain ⟨hkeeps, hqueues⟩ := h.bookkeeping i n hn
  obtain ⟨hi, rfl, rfl⟩ := h.seat i n hn
  have hsize := c.connected_eq (n := n) h.length_nodes.symm (by rw [h.length_nodes]; exact hi)
    hconnected
  refine Decidable.byContradiction fun hstuck => ?_
  have hnext : n.commitIndex + 1 ≤ n.log.lastIndex := by lia
  have hstart : (ledFrom n.id (c :: past) : Int) ≤ n.log.lastIndex := by lia
  have hholds := hquiet.holds h hpackets hn hl hconnected hterms hstart
  rcases hinherited with hown | ⟨-, hmore⟩
  · -- The agreement on the next entry would have been reached.
    have hopened : (l.countedAll (n.commitIndex + 1) (n.beatContext l) (c.company n)).opened =
        [n.commitIndex + 1] := by
      rw [Leadership.opened_countedAll, (hqueues l hl).1.opened_eq, if_pos ⟨hown, hnext⟩]
    obtain ⟨a, ha, hindex⟩ : ∃ a ∈ _, Agreement.index a = n.commitIndex + 1 :=
      List.mem_map.mp (by rw [← Leadership.opened, hopened]; exact List.mem_singleton_self _)
    have hself : l.Backs (n.commitIndex + 1) n.id := fun a ha _ => (hkeeps l hl).own a ha
    have hbacked : n.id :: c.company n ⊆ a.acks.peers := by
      intro p hp
      rcases List.mem_cons.mp hp with rfl | hother
      · exact hself.countedAll a ha hindex
      · refine Leadership.countedAll_backs (c.company_nodup n) hother ?_ a ha hindex
        rw [Leadership.holds_congr (congrArg (·[p]?) hcursors)]
        obtain ⟨m, hm, hle⟩ := hholds p hother
        exact ⟨m, hm, Int.le_trans hnext hle⟩
    have hnodup : (n.id :: c.company n).Nodup := by
      refine List.nodup_cons.mpr ⟨fun hmem => ?_, c.company_nodup n⟩
      exact (Node.mem_others.mp (Cluster.mem_company.mp hmem).1).2 rfl
    refine hundecided a ha (Tally.isMajority_of_subset hnodup hbacked ?_)
    rw [List.length_cons, ← hsize]
    exact hmajority
  · -- The sweep would have gone to the end of the log.
    obtain ⟨m, hm⟩ := Leadership.exists_half (hkeeps l hl).width (Nat.zero_lt_of_lt hi)
    have hcount := Leadership.length_le_countP (c.company_nodup n) hholds
    have hreached : n.log.lastIndex ≤ m := by
      rw [LogIndex.le_kthLargest?_iff (Node.half_pos (Nat.zero_lt_of_lt hi)) hm]
      unfold Node.half
      omega
    have hsome : c.company n ≠ [] := by
      intro hnone
      rw [hnone] at hsize
      simp only [List.length_nil] at hsize
      omega
    have hcommit := hcovered hsome m hm
    lia

/-- With nothing in flight, a member of three is elected with the vote of the first other one. Its
heartbeats are then under way. -/
def Move.elected (i : PeerId) : List (Move α) :=
  [.electionTimeout i, .deliver 0, .lose 0, .lose 0, .deliver 0, .lose 0]

/-- The first member is elected and stores `10`, which both others copy. The second one is elected
before word of this gets through. -/
def inheritedEntry : List (Move Nat) :=
  Move.elected 0 ++ List.replicate 2 (.lose 0) ++ [.submit 0 10, .deliver 0, .deliver 1] ++
    List.replicate 4 (.lose 0) ++ Move.elected 1 ++ Move.inTurn 4

/-- When it has stored an entry of its own, and nobody is cut off, both entries are committed. -/
theorem majority_commits_inheritedEntry :
    ∃ n : Node Nat, ((Cluster.fresh 3).course [] (inheritedEntry ++ [.submit 1 11] ++
        Move.round 1 ++ Move.round 1)).1.AtRest 1 n ∧ n.log = [⟨1, 10⟩, ⟨2, 11⟩] ∧
      n.log.lastIndex ≤ n.commitIndex := by
  have hrun : Run (fun _ _ _ => True) 3
      ((Cluster.fresh 3).course [] (inheritedEntry ++ [.submit 1 11] ++ Move.round 1 ++
        Move.round 1)).1
      ((Cluster.fresh 3).course [] (inheritedEntry ++ [.submit 1 11] ++ Move.round 1 ++
        Move.round 1)).2 := .course .start (by decide)
  have hrest : ((Cluster.fresh 3).course [] (inheritedEntry ++ [.submit 1 11] ++ Move.round 1 ++
      Move.round 1)).1.AtRest 1 _ := ⟨rfl, rfl, rfl, by decide, by decide, by decide, by decide⟩
  exact ⟨_, hrest, rfl, majority_commits hrun hrest (Or.inr (by decide))⟩

/-- On an entry that its leader has not stored itself no agreement is sought. All members hold it,
and it stays uncommitted. -/
theorem stuck_inherited : ∃ (c : Cluster Nat) (past : List (Cluster Nat)) (n : Node Nat),
    Run (fun _ _ _ => True) 3 c past ∧ c.AtRest 1 n ∧ c.isolated = [] ∧
      (∀ m ∈ c.nodes, m.log = n.log) ∧ n.commitIndex < n.log.lastIndex := by
  have hrest : ((Cluster.fresh 3).course [] inheritedEntry).1.AtRest 1 _ :=
    ⟨rfl, rfl, rfl, by decide, by decide, by decide, by decide⟩
  exact ⟨_, _, _, .course .start (by decide), hrest, rfl, by decide, by decide⟩

/-- With an entry stored by the leader itself, half of the cluster has to be connected besides the
leader: the sweep does not count the leader's own copy. -/
theorem stuck_bareMajority : ∃ (c : Cluster Nat) (past : List (Cluster Nat)) (n : Node Nat),
    Run (fun _ _ _ => True) 3 c past ∧ c.AtRest 1 n ∧
      (ledFrom 1 (c :: past) : Int) ≤ n.log.lastIndex ∧ n.commitIndex < n.log.lastIndex := by
  have hrest : ((Cluster.fresh 3).course [] (inheritedEntry ++ [.isolate 2, .submit 1 11] ++
      Move.round 1)).1.AtRest 1 _ := ⟨rfl, rfl, rfl, by decide, by decide, by decide, by decide⟩
  exact ⟨_, _, _, .course .start (by decide), hrest, by decide, by decide⟩

/-- The first member is elected and stores `10` and `11`, which it commits together with the second
one. The third one, whose log is empty, is elected then and stores `20`, and the first one is
elected again. -/
def replacedEntries : List (Move Nat) :=
  Move.elected 0 ++ List.replicate 2 (.lose 0) ++ [.submit 0 10, .submit 0 11, .deliver 0, .lose 0,
    .lose 0, .deliver 0, .lose 0, .deliver 0, .lose 0, .lose 0, .deliver 0, .lose 0,
    .electionTimeout 2, .lose 0, .lose 0] ++ Move.elected 2 ++ List.replicate 2 (.lose 0) ++
    [.submit 2 20, .deliver 0, .deliver 1] ++ List.replicate 4 (.lose 0) ++ Move.elected 0 ++
    Move.inTurn 4

/-- A commit index stays where it is when its member takes over a shorter log, and may so lie beyond
the log that the member leads with. -/
theorem commits_beyond_log : ∃ (c : Cluster Nat) (past : List (Cluster Nat)) (n : Node Nat),
    Run (fun _ _ _ => True) 3 c past ∧ c.AtRest 0 n ∧
      (ledFrom 0 (c :: past) : Int) ≤ n.commitIndex + 1 ∧ n.log.lastIndex < n.commitIndex := by
  have hrest : ((Cluster.fresh 3).course [] replacedEntries).1.AtRest 0 _ :=
    ⟨rfl, rfl, rfl, by decide, by decide, by decide, by decide⟩
  exact ⟨_, _, _, .course .start (by decide), hrest, by decide, by decide⟩

/-- In general a leader and a majority may come to rest with the log and the commit index apart. -/
theorem majority_stuck : ¬ ∀ (size : Nat) (c : Cluster Nat) (past : List (Cluster Nat)),
    Run (fun _ _ _ => True) size c past → ∀ (i : PeerId) (n : Node Nat), c.AtRest i n →
      n.commitIndex = n.log.lastIndex := by
  intro hcommits
  obtain ⟨c, past, n, hrun, hrest, -, -, hless⟩ := stuck_inherited
  exact Int.ne_of_lt hless (hcommits 3 c past hrun 1 n hrest)

end Quorum
