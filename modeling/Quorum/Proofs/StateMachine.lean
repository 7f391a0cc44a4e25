import Quorum.Proofs.Replication

/-!
State machine safety. What a node has handed over is its log through the commit index, and of two
logs that are committed so far one begins with the other. This holds in prudent runs; each of the
conditions on a run that make it prudent is needed.
-/

namespace Quorum

variable {α : Type}

/-- Entries as they are handed over, numbered from zero. -/
def Log.numbered (F : Log α) : List (LogIndex × α) := F.mapIdx fun k e => ((k : Int), e.command)

namespace Log

variable {F G : Log α}

theorem numbered_isPrefix (h : F <+: G) : F.numbered <+: G.numbered := by
  obtain ⟨tail, rfl⟩ := h
  unfold numbered
  rw [List.mapIdx_append]
  exact List.prefix_append _ _

theorem command_of_mem_numbered {j : LogIndex} {x : α} (h : (j, x) ∈ F.numbered) :
    (F.entryAt? j).map (·.command) = some x := by
  obtain ⟨k, hk⟩ := List.mem_iff_getElem?.mp h
  unfold numbered at hk
  rw [List.getElem?_mapIdx] at hk
  obtain ⟨e, he, hpair⟩ := Option.map_eq_some_iff.mp hk
  obtain ⟨rfl, rfl⟩ := Prod.mk.inj hpair
  rw [entryAt?_natCast, he]
  rfl

/-- Where one of two logs begins with the other, an index stands for one command in both. -/
theorem command_unique (h : F <+: G) {j : LogIndex} {x y : α} (hx : (j, x) ∈ F.numbered)
    (hy : (j, y) ∈ G.numbered) : x = y := by
  have hx' := command_of_mem_numbered ((numbered_isPrefix h).subset hx)
  have hy' := command_of_mem_numbered hy
  exact Option.some.inj (hx'.symm.trans hy')

end Log

/-- A turn hands over what its node has committed since it began. -/
theorem Turn.Delivers.numbered {start : LogIndex} {t : Turn α} (h : t.Delivers start)
    (hwithin : t.node.commitIndex < t.node.log.length) :
    (t.node.log.through start).numbered ++ t.applied =
      (t.node.log.through t.node.commitIndex).numbered := by
  have habsent := h.absent_le
  have hstart := h.start_le
  have hcount := h.count
  unfold LogIndex.absent at habsent
  have hlength (j : LogIndex) : (t.node.log.through j).numbered.length =
      min (j + 1).toNat t.node.log.length := by
    unfold Log.numbered Log.through
    rw [List.length_mapIdx, List.length_take]
  have hentry (j : LogIndex) (k : Nat) (hk : k < (j + 1).toNat) :
      (t.node.log.through j).numbered[k]? =
        t.node.log[k]?.map fun e => ((k : Int), e.command) := by
    unfold Log.numbered Log.through
    rw [List.getElem?_mapIdx, List.getElem?_take_of_lt hk]
  apply List.ext_getElem?
  intro k
  by_cases hold : k < (start + 1).toNat
  · rw [List.getElem?_append_left (by rw [hlength]; lia), hentry _ k hold,
      hentry _ k (by lia)]
  · rw [List.getElem?_append_right (by rw [hlength]; lia), hlength]
    have hmin : min (start + 1).toNat t.node.log.length = (start + 1).toNat := by lia
    rw [hmin]
    by_cases hnew : k < (t.node.commitIndex + 1).toNat
    · rw [hentry _ k hnew]
      have hp := List.getElem?_eq_getElem (l := t.applied) (i := k - (start + 1).toNat) (by lia)
      obtain ⟨hindex, hcommand⟩ := h.entry _ _ hp
      have hk : start + 1 + ((k - (start + 1).toNat : Nat) : Int) = (k : Int) := by lia
      rw [hk] at hindex
      rw [hindex, Log.entryAt?_natCast] at hcommand
      obtain ⟨e, he, hsame⟩ := Option.map_eq_some_iff.mp hcommand
      rw [hp, he, Option.map_some, hsame, ← hindex]
    · rw [List.getElem?_eq_none (by lia), List.getElem?_eq_none (by rw [hlength]; lia)]

/-- Each node has handed over its log through the commit index. -/
structure Cluster.HandedOver (c : Cluster α) : Prop where
  length : c.applied.length = c.nodes.length
  node : ∀ (i : PeerId) (n : Node α), c.nodes[i]? = some n →
    c.applied[i]? = some (n.log.through n.commitIndex).numbered

namespace Cluster.HandedOver

variable {c c' : Cluster α} {i : PeerId} {n : Node α} {e : Event α}

theorem fresh (size : Nat) : HandedOver (.fresh size : Cluster α) where
  length := by simp [Cluster.fresh]
  node := by
    intro i n hn
    obtain ⟨hi, rfl⟩ := Cluster.fresh_node hn
    exact List.getElem?_replicate_of_lt hi

theorem rest (h : c.HandedOver) (hrest : c.Rests c') : c'.HandedOver where
  length := by
    rw [hrest.applied, hrest.nodes]
    exact h.length
  node := by
    rw [hrest.applied, hrest.nodes]
    exact h.node

/-- An event keeps it so if it leaves alone what has been committed and commits within the log. -/
theorem act (h : c.HandedOver) (hact : c.Acts i n e c') (hsettled : n.Settled)
    (hwithin : (n.after e).commitIndex < (n.after e).log.length)
    (hthrough : (n.after e).log.through n.commitIndex = n.log.through n.commitIndex) :
    c'.HandedOver where
  length := by
    rw [hact.applied, hact.nodes, List.length_modify, List.length_set]
    exact h.length
  node := by
    intro j m hm
    rw [hact.applied, List.getElem?_modify]
    rcases hact.node_cases hm with ⟨rfl, rfl⟩ | ⟨hother, hold⟩
    · rw [h.node j n hact.node, ← hthrough]
      simp only [if_true]
      exact congrArg some ((hsettled.handle e).numbered hwithin)
    · rw [h.node j m hold]
      simp [Ne.symm hother]

end Cluster.HandedOver

/-- In a prudent run each node has handed over its log through the commit index. -/
theorem Run.applied {size : Nat} {c : Cluster α} {past : List (Cluster α)}
    (h : Run prudent size c past) : c.HandedOver := by
  refine h.invariant (P := fun c _ => c.HandedOver) ?_ ?_ ?_
  · exact .fresh size
  · intro c past c' _ ih hrest
    exact ih.rest hrest
  · intro c past i n e c' hrun ih hact hobey
    have hright := hrun.replicating
    exact ih.act hact (hright.secure i n hact.node).settled
      (hright.secure_after hrun hact hobey).within (hright.through_after hrun hact hobey)

/-- State machine safety: what two nodes have handed over agrees as far as both have come. -/
theorem applied_agree {size : Nat} {c : Cluster α} {past : List (Cluster α)}
    (h : Run prudent size c past) {a b : PeerId} {xs ys : List (LogIndex × α)}
    (ha : c.applied[a]? = some xs) (hb : c.applied[b]? = some ys) :
    (xs <+: ys ∨ ys <+: xs) ∧ ∀ j x y, (j, x) ∈ xs → (j, y) ∈ ys → x = y := by
  have happlied := h.applied
  have hnode {p : PeerId} {zs : List (LogIndex × α)} (hp : c.applied[p]? = some zs) :
      ∃ T F, Sealed size (c :: past) T F ∧ zs = F.numbered := by
    have hlt := (List.getElem?_eq_some_iff.mp hp).1
    rw [happlied.length] at hlt
    have hn := List.getElem?_eq_getElem hlt
    have hsame := hp.symm.trans (happlied.node p _ hn)
    exact ⟨_, _, (h.replicating.secure p _ hn).committed, Option.some.inj hsame⟩
  obtain ⟨T, F, hF, rfl⟩ := hnode ha
  obtain ⟨U, G, hG, rfl⟩ := hnode hb
  rcases hF.comparable h prudent_undisputed prudent_vets hG with hFG | hGF
  · constructor
    · exact Or.inl (Log.numbered_isPrefix hFG)
    · intro j x y hx hy
      exact Log.command_unique hFG hx hy
  · constructor
    · exact Or.inr (Log.numbered_isPrefix hGF)
    · intro j x y hx hy
      exact (Log.command_unique hGF hy hx).symm

/-- The first member is elected and stores `10` and `11`. The second one copies both, and has heard
that the first of them is committed. -/
def copiedCommands : List (Move Nat) :=
  [.electionTimeout 0, .deliver 0, .deliver 2, .submit 0 10, .deliver 5, .deliver 7, .submit 0 11,
    .deliver 8, .deliver 10]

theorem applied_agree_copiedCommands :
    ∃ xs ys : List (LogIndex × Nat),
      ((Cluster.fresh 3).course [] copiedCommands).1.applied[0]? = some xs ∧
      ((Cluster.fresh 3).course [] copiedCommands).1.applied[1]? = some ys ∧
      xs = [(0, 10), (1, 11)] ∧ ys = [(0, 10)] ∧
      (xs <+: ys ∨ ys <+: xs) ∧ ∀ j x y, (j, x) ∈ xs → (j, y) ∈ ys → x = y := by
  have hrun : Run prudent 3 ((Cluster.fresh 3).course [] copiedCommands).1
      ((Cluster.fresh 3).course [] copiedCommands).2 := .course .start (by decide)
  refine ⟨_, _, rfl, rfl, rfl, rfl, ?_⟩
  exact applied_agree hrun (a := 0) (b := 1) rfl rfl

/-- Two nodes have handed over different commands at the same index. -/
def Cluster.Disagrees (c : Cluster α) : Prop :=
  ∃ (a b : PeerId) (xs ys : List (LogIndex × α)), c.applied[a]? = some xs ∧
    c.applied[b]? = some ys ∧ ∃ j x y, (j, x) ∈ xs ∧ (j, y) ∈ ys ∧ x ≠ y

/-- The first member is elected, stores `10` and commits it with the second one. The third one,
whose log is empty, is then elected by the second one and commits `20` in its place. -/
def freeVote : List (Move Nat) :=
  [.electionTimeout 0, .deliver 0, .deliver 2, .submit 0 10, .deliver 5, .deliver 7,
    .electionTimeout 2, .electionTimeout 2, .deliver 11, .deliver 12, .submit 2 20, .deliver 16,
    .deliver 17]

/-- Votes have to be vetted. -/
theorem disagrees_unvetted : ∃ c past,
    Run (inRange.both (undisputed.both (unmoved.both ownCommits))) 3 c past ∧
      (c : Cluster Nat).Disagrees := by
  refine ⟨((Cluster.fresh 3).course [] freeVote).1, _, .course .start (by decide), ?_⟩
  exact ⟨0, 2, _, _, rfl, rfl, 0, 10, 20, by decide, by decide, by decide⟩

/-- `10` reaches nobody, and `20` is committed by the other two. The third member then stores `30`
and its call writes it over `10`, one position too early, after which the first one is elected with
this log and commits it. -/
def earlyWrite : List (Move Nat) :=
  [.electionTimeout 0, .deliver 1, .deliver 2, .submit 0 10, .electionTimeout 1,
    .electionTimeout 1, .deliver 10, .deliver 11, .submit 1 20, .deliver 15, .deliver 16,
    .electionTimeout 2, .deliver 18, .deliver 19, .submit 2 30, .heartbeatTimeout 2, .deliver 22,
    .electionTimeout 0, .deliver 25, .deliver 27, .submit 0 40, .heartbeatTimeout 0, .deliver 30,
    .deliver 32, .deliver 31, .deliver 33]

/-- Nothing may be written to a log that is disputed. -/
theorem disagrees_disputed : ∃ c past,
    Run (inRange.both (vetted.both (unmoved.both ownCommits))) 3 c past ∧
      (c : Cluster Nat).Disagrees := by
  refine ⟨((Cluster.fresh 3).course [] earlyWrite).1, _, .course .start (by decide), ?_⟩
  exact ⟨0, 1, _, _, rfl, rfl, 0, 30, 20, by decide, by decide, by decide⟩

/-- `10` and `11` reach nobody, `20` and `21` are stored by the other two and `20` is committed.
The third member's first heartbeat drops `11`, and tells the first one that what is left is
committed. -/
def hastyCommit : List (Move Nat) :=
  [.electionTimeout 0, .deliver 1, .deliver 2, .submit 0 10, .submit 0 11, .electionTimeout 1,
    .electionTimeout 1, .deliver 10, .deliver 11, .submit 1 20, .deliver 15, .deliver 16,
    .submit 1 21, .deliver 18, .electionTimeout 2, .deliver 21, .deliver 22, .deliver 23]

/-- Nothing may be committed on a call that is disputed. -/
theorem disagrees_moved : ∃ c past,
    Run (inRange.both (vetted.both (undisputed.both ownCommits))) 3 c past ∧
      (c : Cluster Nat).Disagrees := by
  refine ⟨((Cluster.fresh 3).course [] hastyCommit).1, _, .course .start (by decide), ?_⟩
  exact ⟨0, 1, _, _, rfl, rfl, 0, 10, 20, by decide, by decide, by decide⟩

/-- Four members. `10` of the first term and `20` of the second reach nobody. The first member is
elected again for the third term, has the last two copy `10` and commits it as that. The second one,
whose last entry is of a later term, is elected for the fourth and commits `20` in its place. -/
def sweptCommit : List (Move Nat) :=
  [.electionTimeout 0, .deliver 1, .deliver 3, .deliver 2, .deliver 4, .submit 0 10,
    .electionTimeout 1, .electionTimeout 1, .deliver 15, .deliver 16, .deliver 17, .deliver 18,
    .submit 1 20, .deliver 14, .electionTimeout 0, .deliver 27, .deliver 28, .deliver 29,
    .deliver 30, .deliver 32, .deliver 34, .deliver 33, .deliver 35, .heartbeatTimeout 0,
    .deliver 37, .deliver 39, .deliver 38, .deliver 40, .deliver 26, .electionTimeout 1,
    .deliver 43, .deliver 44, .deliver 45, .deliver 46, .deliver 48, .deliver 49,
    .heartbeatTimeout 1, .deliver 53, .deliver 55, .deliver 54, .deliver 56, .submit 1 30,
    .heartbeatTimeout 1, .deliver 58, .deliver 60, .deliver 59, .deliver 61]

/-- Leaders may not commit through an entry of an earlier term. -/
theorem disagrees_swept : ∃ c past,
    Run (inRange.both (vetted.both (undisputed.both unmoved))) 4 c past ∧
      (c : Cluster Nat).Disagrees := by
  refine ⟨((Cluster.fresh 4).course [] sweptCommit).1, _, .course .start (by decide), ?_⟩
  exact ⟨0, 1, _, _, rfl, rfl, 0, 10, 20, by decide, by decide, by decide⟩

/-- Both leaders of the last term store an entry at the same index. The third member keeps the one
that it copies first and acknowledges both. -/
theorem disagrees_lastTerm : ∃ c past,
    Run (vetted.both (undisputed.both (unmoved.both ownCommits))) 3 c past ∧
      (c : Cluster Nat).Disagrees := by
  obtain ⟨past, hrun⟩ := Run.pumped (vetted.both (undisputed.both (unmoved.both ownCommits)))
    (fun _ _ h => ⟨trivial, trivial, trivial, fun hleader => absurd hleader h⟩)
    (T := Term.last) (by decide) (Nat.le_refl _)
  have hmoves : (Cluster.pumped Term.last).AllObey
      (vetted.both (undisputed.both (unmoved.both ownCommits)))
      (lastElections ++ [.submit 0 10, .submit 1 20, .deliver 11, .deliver 14, .deliver 13,
        .deliver 15]) := by decide
  refine ⟨_, _, hrun.course hmoves, ?_⟩
  rw [Cluster.course_last _ past []]
  exact ⟨0, 1, _, _, rfl, rfl, 0, 10, 20, by decide, by decide, by decide⟩

/-- What nodes hand over need not agree in all runs. -/
theorem applied_disagree : ¬ ∀ (size : Nat) (c : Cluster Nat) (past : List (Cluster Nat)),
    Run (fun _ _ _ => True) size c past → ∀ (a b : PeerId) (xs ys : List (LogIndex × Nat)),
      c.applied[a]? = some xs → c.applied[b]? = some ys →
        (xs <+: ys ∨ ys <+: xs) ∧ ∀ j x y, (j, x) ∈ xs → (j, y) ∈ ys → x = y := by
  intro hagree
  obtain ⟨c, past, hrun, a, b, xs, ys, ha, hb, j, x, y, hx, hy, hne⟩ := disagrees_unvetted
  have hany : Run (fun _ _ _ => True) 3 c past := hrun.mono fun _ _ _ _ => trivial
  exact hne ((hagree 3 c past hany a b xs ys ha hb).2 j x y hx hy)

end Quorum
