import Quorum.Proofs.LogMatching
import Quorum.Proofs.Quiescence

/-!
Logs are repaired. Where a round of heartbeats changes nothing, each member that can be reached has
accepted a call with everything from its cursor on, and has found nothing to write in it. In a run
without disputed writes, its log then begins with the whole log of the leader.
-/

namespace Quorum

variable {α : Type}

namespace Node

variable {n : Node α} {l : Leadership}

/-- A heartbeat carries the leader's log from the member's cursor on. -/
theorem beat_pieceOf (hl : n.role = .leader l) (hfit : n.CursorsFit) (p : PeerId) :
    ∃ start, (n.beat l p).PieceOf n.log start ∧ (n.beat l p).entries = n.log.drop start := by
  obtain ⟨hzero, hle⟩ : 0 ≤ l.nextTo p ∧ l.nextTo p ≤ n.log.length := by
    unfold Leadership.nextTo Leadership.next?
    cases hcursor : l.cursors[p]? with
    | none => exact ⟨Int.le_refl _, Int.natCast_nonneg _⟩
    | some cursor => exact hfit l hl p cursor hcursor
  have hstart : ((l.nextTo p).toNat : Int) = l.nextTo p := Int.toNat_of_nonneg hzero
  have hwhole : (n.beat l p).entries = n.log.drop (l.nextTo p).toNat := by
    change (n.log.take (n.log.lastIndex + 1).toNat).drop _ = _
    rw [List.take_of_length_le]
    unfold Log.lastIndex LogIndex.lastOf
    lia
  refine ⟨(l.nextTo p).toNat, ⟨by lia, ?_, rfl, ?_⟩, hwhole⟩
  · change (l.nextTo p).prev = _
    rw [LogIndex.prev_of_nonneg hzero, hstart]
  · rw [hwhole]

end Node

section Repair

variable {size : Nat} {c : Cluster α} {past : List (Cluster α)}

/-- Genuine logs do not hold the same entry at two different places. -/
theorem Genuine.place_unique (h : Run inRange size c past) {F L : Log α}
    (hF : Genuine (c :: past) F) (hL : Genuine (c :: past) L) {k : Nat} {e : Entry α}
    (hk : F[k]? = some e) (hnext : L[k + 1]? = some e) : L[k]? = some e := by
  obtain ⟨i, M, hM, hFM⟩ := hF k e hk
  obtain ⟨j, N, hN, hLN⟩ := hL (k + 1) e hnext
  have hheld : (F.take (k + 1))[k]? = some e := by
    rw [List.getElem?_take_of_lt (Nat.lt_succ_self k)]
    exact hk
  have hshort : (F.take (k + 1)).length ≤ (L.take (k + 1 + 1)).length := by
    have hlt := (List.getElem?_eq_some_iff.mp hnext).1
    rw [List.length_take, List.length_take]
    omega
  have hpre : F.take (k + 1) <+: L.take (k + 1 + 1) := by
    rcases hM.comparable h hN with hMN | hNM
    · exact List.prefix_of_prefix_length_le (hFM.trans hMN) hLN hshort
    · exact List.prefix_of_prefix_length_le hFM (hLN.trans hNM) hshort
  have hthere := Log.getElem?_of_isPrefix hpre hheld
  rwa [List.getElem?_take_of_lt (by omega)] at hthere

/-- A log that takes a call with all the rest of another one, and is not changed by it, begins with
that other one. -/
theorem Genuine.isPrefix_of_merge (h : Run inRange size c past) {F L log : Log α}
    (hF : Genuine (c :: past) F) (hL : Genuine (c :: past) L) {args : AppendRequest α}
    {start pos : Nat} (hpiece : args.PieceOf L start) (hwhole : args.entries = L.drop start)
    (hfit : Node.reconcile? F args = some (log, pos)) (hsame : log.merge pos args.entries = F) :
    L <+: F := by
  have hagree : F.Agree L := hF.agree h hL
  rcases Node.reconcile_cases hagree hpiece hfit with
    ⟨rfl, rfl, hstart, hpast⟩ | ⟨rfl, rfl, f, g, hf, hg, hne, hheld, -⟩
  · have hreach : L.take (pos + args.entries.length) = L := by
      rw [hwhole, List.length_drop]
      exact List.take_of_length_le (by omega)
    unfold Log.merge at hsame
    rcases Log.overlay_cases hagree hpast hstart hpiece.entries with ⟨hpre, -⟩ | ⟨-, hnew⟩
    · rwa [hreach] at hpre
    · rw [hreach, hsame] at hnew
      rw [hnew]
  · -- The member disputes the call, and cuts its log off before the entry in dispute.
    obtain ⟨s, rfl⟩ : ∃ s, start = s + 1 := by
      have hprev := hpiece.prev
      have hzero := (Log.termAt?_eq_some hheld).1
      exact ⟨start - 1, by lia⟩
    rw [Nat.add_sub_cancel] at hsame hf hg
    have hlt := (List.getElem?_eq_some_iff.mp hf).1
    have hlength : (F.take s).length = s := by
      rw [List.length_take]
      omega
    have hcut : F.take s ++ args.entries = F := by
      unfold Log.merge at hsame
      rwa [List.take_take, Nat.min_self, List.drop_eq_nil_of_le (Nat.le_of_eq hlength),
        Log.overlay_nil_left] at hsame
    have hnext : L[s + 1]? = some f := by
      have hfirst : args.entries[0]? = some f := by
        rw [← hcut, List.getElem?_append_right (Nat.le_of_eq hlength), hlength, Nat.sub_self] at hf
        exact hf
      rwa [hwhole, List.getElem?_drop] at hfirst
    have hthere := hF.place_unique h hL hf hnext
    exact absurd (congrArg Entry.term (Option.some.inj (hthere.symm.trans hg))) hne

end Repair

/-- Where a round of heartbeats changes nothing, the log of every member that the leader reaches
begins with the leader's. -/
theorem Cluster.Quiescent.isPrefix {size : Nat} {c : Cluster α} {past : List (Cluster α)}
    {i p : PeerId} {n m : Node α} (hquiet : c.Quiescent i)
    (h : Run (inRange.both undisputed) size c past) (hpackets : c.packets = [])
    (hn : c.nodes[i]? = some n) (hlead : n.isLeader) (hterms : ∀ m ∈ c.nodes, m.term ≤ n.term)
    (hm : c.nodes[p]? = some m) (hreach : c.Reachable i p) : n.log <+: m.log := by
  by_cases hp : p = i
  · subst hp
    obtain rfl := Option.some.inj (hn.symm.trans hm)
    exact List.prefix_rfl
  · obtain ⟨l, hl⟩ := Node.exists_lead hlead
    have hrange : Run inRange size c past := h.mono fun _ _ _ h => h.1
    have hunwrapped : Run unwrapped size c past := hrange.mono fun _ _ _ h => h.2
    have hgenuine := h.genuine (fun _ _ _ h => h) c List.mem_cons_self
    obtain ⟨start, hpiece, hwhole⟩ := Node.beat_pieceOf hl (hrange.shipping.cursor i n hn) p
    obtain ⟨log, pos, hfit, hsame⟩ :=
      hquiet.accepted hunwrapped hpackets hn hl hterms hp hm hreach
    exact (hgenuine p m hm).isPrefix_of_merge hrange (hgenuine i n hn) hpiece hwhole hfit hsame

/-- Logs are repaired. In a cluster with nothing in flight and nobody cut off, let a member lead
whose term nobody is ahead of. If another round of its heartbeats changes nothing, every member's
log begins with the whole of the leader's, as long as no call writes entries to a log that it
disputes. -/
theorem logs_repaired {size : Nat} {c : Cluster α} {past : List (Cluster α)}
    (h : Run (inRange.both undisputed) size c past) (hpackets : c.packets = [])
    (hisolated : c.isolated = []) {i : PeerId} {n : Node α} (hn : c.nodes[i]? = some n)
    (hlead : n.isLeader) (hterms : ∀ m ∈ c.nodes, m.term ≤ n.term) (hquiet : c.Quiescent i) :
    ∀ m ∈ c.nodes, n.log <+: m.log := by
  intro m hmem
  obtain ⟨p, hm⟩ := List.mem_iff_getElem?.mp hmem
  have hreach : c.Reachable i p := by
    unfold Cluster.Reachable
    rw [hisolated]
    exact ⟨List.not_mem_nil, List.not_mem_nil⟩
  exact hquiet.isPrefix h hpackets hn hlead hterms hm hreach

/-- The first `k` packets in flight arrive, each one once and in turn. -/
def Move.inTurn (k : Nat) : List (Move α) := (List.replicate k [.deliver 0, .lose 0]).flatten

/-- A member has a round of heartbeats, with which it calls two others. -/
def Move.round (i : PeerId) : List (Move α) := .heartbeatTimeout i :: Move.inTurn 4

/-- The first member is elected and stores `10`, `11` and `12`, of which the second one copies the
first two. The second one is elected then and stores `20`. It has the first one give up `12`, and
goes back to the beginning for the third one, which holds nothing. -/
def repairedLogs : List (Move Nat) :=
  [.electionTimeout 0] ++ Move.inTurn 4 ++ [.submit 0 10, .submit 0 11] ++
    List.replicate 4 (.lose 0) ++ [.heartbeatTimeout 0, .deliver 0] ++
    List.replicate 3 (.lose 0) ++ [.submit 0 12, .electionTimeout 1] ++ Move.inTurn 4 ++
    [.submit 1 20] ++ Move.inTurn 4 ++ (List.replicate 3 (Move.round 1)).flatten

theorem logs_repaired_repairedLogs :
    ∃ n : Node Nat, ((Cluster.fresh 3).course [] repairedLogs).1.nodes[1]? = some n ∧
      n.log = [⟨1, 10⟩, ⟨1, 11⟩, ⟨2, 20⟩] ∧
      ((Cluster.fresh 3).course [] repairedLogs).1.Quiescent 1 ∧
      ∀ m ∈ ((Cluster.fresh 3).course [] repairedLogs).1.nodes, n.log <+: m.log := by
  have hrun : Run (inRange.both undisputed) 3 ((Cluster.fresh 3).course [] repairedLogs).1
      ((Cluster.fresh 3).course [] repairedLogs).2 := .course .start (by decide)
  have hquiet : ((Cluster.fresh 3).course [] repairedLogs).1.Quiescent 1 := by decide
  refine ⟨_, rfl, rfl, hquiet, ?_⟩
  exact logs_repaired hrun rfl rfl (i := 1) rfl rfl (by decide) hquiet

/-- A leader that nobody is ahead of reaches everyone, its heartbeats change nothing any more, and
yet the log of some member does not begin with its own. -/
def Cluster.Unrepaired (c : Cluster α) : Prop :=
  c.packets = [] ∧ c.isolated = [] ∧ ∃ (i : PeerId) (n m : Node α), c.nodes[i]? = some n ∧
    n.isLeader ∧ (∀ k ∈ c.nodes, k.term ≤ n.term) ∧ c.Quiescent i ∧ m ∈ c.nodes ∧
      ¬ n.log <+: m.log

/-- Nothing may be written to a log that is disputed: the entries that the first member holds one
position too early are taken for the right ones. -/
theorem unrepaired_disputed : ∃ c past, Run inRange 3 c past ∧ (c : Cluster Nat).Unrepaired := by
  refine ⟨((Cluster.fresh 3).course [] (disputedEntry ++ List.replicate 23 (.lose 0) ++
    (List.replicate 3 (Move.round 2)).flatten)).1, _, .course .start (by decide), rfl, rfl, ?_⟩
  exact ⟨2, _, _, rfl, rfl, by decide, by decide, List.mem_cons_self, by decide⟩

/-- Nor may the last term be reached: the one of its leaders takes the entry of the other one for
its own. -/
theorem unrepaired_lastTerm : ∃ c past,
    Run undisputed 3 c past ∧ (c : Cluster Nat).Unrepaired := by
  obtain ⟨past, hrun⟩ := Run.pumped undisputed (fun _ _ _ => trivial)
    (T := Term.last) (by decide) (Nat.le_refl _)
  have hmoves : (Cluster.pumped Term.last).AllObey undisputed
      (lastElections ++ [.submit 0 10, .submit 1 20] ++ List.replicate 14 (.lose 0) ++
        (List.replicate 2 (Move.round 1)).flatten) := by decide
  refine ⟨_, _, hrun.course hmoves, ?_⟩
  rw [Cluster.course_last _ past []]
  exact ⟨rfl, rfl, 1, _, _, rfl, rfl, by decide, by decide, List.mem_cons_self, by decide⟩

/-- In other runs a cluster may come to rest without its logs being repaired. -/
theorem logs_unrepaired : ¬ ∀ (size : Nat) (c : Cluster Nat) (past : List (Cluster Nat)),
    Run (fun _ _ _ => True) size c past → c.packets = [] → c.isolated = [] →
      ∀ (i : PeerId) (n : Node Nat), c.nodes[i]? = some n → n.isLeader →
        (∀ m ∈ c.nodes, m.term ≤ n.term) → c.Quiescent i → ∀ m ∈ c.nodes, n.log <+: m.log := by
  intro hrepaired
  obtain ⟨c, past, hrun, hpackets, hisolated, i, n, m, hn, hlead, hterms, hquiet, hm, hnot⟩ :=
    unrepaired_disputed
  have hany : Run (fun _ _ _ => True) 3 c past := hrun.mono fun _ _ _ _ => trivial
  exact hnot (hrepaired 3 c past hany hpackets hisolated i n hn hlead hterms hquiet m hm)

end Quorum
