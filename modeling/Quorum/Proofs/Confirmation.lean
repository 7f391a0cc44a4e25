import Quorum.Proofs.Accounts
import Quorum.Proofs.Completeness

/-!
What it means for entries to be committed and counted rightly. The beginning of a log that a node
has committed belongs to something that a majority has chosen in a term no later than the node's
own, and no leader of that term or a later one is without it. What a leader counts for an entry has
been held by the members it is counted for.
-/

namespace Quorum

variable {α : Type}

namespace Log

variable {F L : Log α} {j k : LogIndex}

/-- A log through an index. -/
def through (F : Log α) (j : LogIndex) : Log α := F.take (j + 1).toNat

theorem through_isPrefix (F : Log α) (j : LogIndex) : F.through j <+: F := List.take_prefix _ _

theorem through_prefix_through (F : Log α) (h : j ≤ k) : F.through j <+: F.through k := by
  unfold through
  exact List.take_prefix_take_left (by lia)

theorem length_through (habsent : LogIndex.absent ≤ j) (hj : j < F.length) :
    ((F.through j).length : Int) = j + 1 := by
  unfold LogIndex.absent at habsent
  unfold through
  rw [List.length_take]
  lia

theorem through_of_isPrefix (h : L <+: F) (hj : j < L.length) : F.through j = L.through j := by
  obtain ⟨tail, rfl⟩ := h
  unfold through
  exact List.take_append_of_le_length (by lia)

theorem termAt?_of_isPrefix {t : Term} (h : L <+: F) (hj : L.termAt? j = some t) :
    F.termAt? j = some t := by
  obtain ⟨hzero, e, he, rfl⟩ := termAt?_eq_some hj
  unfold termAt? entryAt?
  rw [if_pos hzero, getElem?_of_isPrefix h he]
  rfl

theorem lt_length_of_termAt? {t : Term} (h : F.termAt? j = some t) : 0 ≤ j ∧ j < F.length := by
  obtain ⟨hzero, e, he, -⟩ := termAt?_eq_some h
  have hlength := (List.getElem?_eq_some_iff.mp he).1
  exact ⟨hzero, by lia⟩

theorem getLast?_through {t : Term} (h : F.termAt? j = some t) :
    ∃ e, (F.through j).getLast? = some e ∧ e.term = t := by
  obtain ⟨hzero, e, he, hterm⟩ := termAt?_eq_some h
  have hlength := (List.getElem?_eq_some_iff.mp he).1
  refine ⟨e, ?_, hterm⟩
  have hnext : (j + 1).toNat = j.toNat + 1 := by lia
  unfold through
  rw [hnext, List.take_add_one, he]
  simp

end Log

/-- The beginning of a log that belongs to what a majority has chosen in a term through `T`. -/
def Sealed (size : Nat) (ds : List (Cluster α)) (T : Term) (F : Log α) : Prop :=
  F = [] ∨ ∃ U X, Chosen size ds U X ∧ U ≤ T ∧ F <+: X

namespace Sealed

variable {size : Nat} {ds es : List (Cluster α)} {T U : Term} {F G : Log α}

theorem mono (h : Sealed size ds T F) (hsub : ds ⊆ es) (hT : T ≤ U) : Sealed size es U F := by
  rcases h with hnil | ⟨V, X, hX, hV, hF⟩
  · exact Or.inl hnil
  · exact Or.inr ⟨V, X, hX.mono hsub, Nat.le_trans hV hT, hF⟩

theorem of_isPrefix (h : Sealed size ds T F) (hG : G <+: F) : Sealed size ds T G := by
  rcases h with rfl | ⟨V, X, hX, hV, hF⟩
  · exact Or.inl (List.prefix_nil.mp hG)
  · exact Or.inr ⟨V, X, hX, hV, hG.trans hF⟩

/-- Whoever leads a later term has the sealed beginning. -/
theorem prefix_of_led {rule : Rule α} {c : Cluster α} {past : List (Cluster α)}
    (h : Sealed size (c :: past) T F) (hrun : Run rule size c past)
    (hrule : ∀ c n e, rule c n e → inRange c n e ∧ undisputed c n e)
    (hvets : rule.Vets Log.UpToDate) {s : PeerId} {L : Log α} (hL : Led (c :: past) U s L)
    (hT : T < U) : F <+: L := by
  rcases h with rfl | ⟨V, X, hX, hV, hF⟩
  · exact List.nil_prefix
  · exact hF.trans (hX.prefix_of_led hrun hrule hvets hL (Nat.lt_of_le_of_lt hV hT))

/-- Whoever leads the term or a later one has the sealed beginning, or has not come that far. -/
theorem comparable_led {rule : Rule α} {c : Cluster α} {past : List (Cluster α)}
    (h : Sealed size (c :: past) T F) (hrun : Run rule size c past)
    (hrule : ∀ c n e, rule c n e → inRange c n e ∧ undisputed c n e)
    (hvets : rule.Vets Log.UpToDate) {s : PeerId} {L : Log α} (hL : Led (c :: past) U s L)
    (hT : T ≤ U) : F <+: L ∨ L <+: F := by
  rcases h with rfl | ⟨V, X, hX, hV, hF⟩
  · exact Or.inl (List.nil_prefix)
  · rcases Nat.lt_or_eq_of_le (Nat.le_trans hV hT) with hlater | rfl
    · exact Or.inl (hF.trans (hX.prefix_of_led hrun hrule hvets hL hlater))
    · obtain ⟨i, M, hM, hXM⟩ := hX.led
      rcases hM.comparable (hrun.mono fun c n e h => (hrule c n e h).1) hL with hML | hLM
      · exact Or.inl (hF.trans (hXM.trans hML))
      · exact List.prefix_or_prefix_of_prefix (hF.trans hXM) hLM

/-- Of two sealed beginnings one begins with the other. -/
theorem comparable {rule : Rule α} {c : Cluster α} {past : List (Cluster α)}
    (h : Sealed size (c :: past) T F) (hrun : Run rule size c past)
    (hrule : ∀ c n e, rule c n e → inRange c n e ∧ undisputed c n e)
    (hvets : rule.Vets Log.UpToDate) (hG : Sealed size (c :: past) U G) : F <+: G ∨ G <+: F := by
  rcases h with rfl | ⟨V, X, hX, -, hF⟩
  · exact Or.inl List.nil_prefix
  · rcases hG with rfl | ⟨W, Y, hY, -, hG⟩
    · exact Or.inr List.nil_prefix
    · rcases hX.comparable hrun hrule hvets hY with hXY | hYX
      · exact List.prefix_or_prefix_of_prefix (hF.trans hXY) hG
      · exact List.prefix_or_prefix_of_prefix hF (hG.trans hYX)

end Sealed

/-- The entry at an index is one of the node's own term. -/
def Node.Owns (n : Node α) (j : LogIndex) : Prop := n.log.termAt? j = some n.term

instance (n : Node α) (j : LogIndex) : Decidable (n.Owns j) := inferInstanceAs (Decidable (_ = _))

/-- In the node's term the member `p` has held the node's log through an index. -/
def Node.Confirms (n : Node α) (ds : List (Cluster α)) (p : PeerId) (j : LogIndex) : Prop :=
  0 ≤ j ∧ j < n.log.length ∧ Held ds n.term p (n.log.through j)

/-- The entries before an index have been held by the member `p` in the node's term, or they are
all of earlier terms. -/
def Node.Ready (n : Node α) (ds : List (Cluster α)) (p : PeerId) (j : LogIndex) : Prop :=
  Held ds n.term p (n.log.take j.toNat) ∨ ∀ e ∈ n.log.take j.toNat, e.term < n.term

namespace Node

variable {n m : Node α} {ds es : List (Cluster α)} {p i : PeerId} {j k : LogIndex}

theorem Owns.of_isPrefix (h : n.Owns j) (hterm : m.term = n.term) (hlog : n.log <+: m.log) :
    m.Owns j := by
  unfold Owns at h ⊢
  rw [hterm]
  exact Log.termAt?_of_isPrefix hlog h

theorem Confirms.of_isPrefix (h : n.Confirms ds p j) (hterm : m.term = n.term)
    (hlog : n.log <+: m.log) (hsub : ds ⊆ es) : m.Confirms es p j := by
  obtain ⟨hzero, hlt, hheld⟩ := h
  have hlength := hlog.length_le
  refine ⟨hzero, by lia, ?_⟩
  rw [hterm, Log.through_of_isPrefix hlog hlt]
  exact hheld.mono hsub

theorem Ready.mono (h : n.Ready ds p j) (hsub : ds ⊆ es) : n.Ready es p j := by
  rcases h with hheld | hearlier
  · exact Or.inl (hheld.mono hsub)
  · exact Or.inr hearlier

theorem Ready.of_isPrefix (h : n.Ready ds p j) (hj : j ≤ n.log.length) (hterm : m.term = n.term)
    (hlog : n.log <+: m.log) (hsub : ds ⊆ es) : m.Ready es p j := by
  have htake : m.log.take j.toNat = n.log.take j.toNat := by
    obtain ⟨tail, hm⟩ := hlog
    rw [← hm]
    exact List.take_append_of_le_length (by lia)
  unfold Ready
  rw [hterm, htake]
  exact h.mono hsub

theorem Ready.back (h : n.Ready ds p j) : n.Ready ds p (j - 1) := by
  have hpre : n.log.take (j - 1).toNat <+: n.log.take j.toNat :=
    List.take_prefix_take_left (by lia)
  rcases h with hheld | hearlier
  · exact Or.inl (hheld.of_isPrefix hpre)
  · exact Or.inr fun e he => hearlier e (hpre.subset he)

/-- A node itself holds whatever any member confirms. -/
theorem confirms_sound {c : Cluster α} (hc : c ∈ ds) (hn : c.nodes[i]? = some n) :
    Sound i (n.Confirms ds) where
  back := by
    intro p j k hj hzero hle
    obtain ⟨-, hlt, hheld⟩ := hj
    exact ⟨hzero, by lia, hheld.of_isPrefix (n.log.through_prefix_through hle)⟩
  self := by
    intro p j hj
    obtain ⟨hzero, hlt, -⟩ := hj
    exact ⟨hzero, hlt, c, hc, n, hn, rfl, n.log.through_isPrefix j⟩

theorem Owns.confirms {c : Cluster α} (h : n.Owns j) (hc : c ∈ ds) (hn : c.nodes[i]? = some n) :
    n.Confirms ds i j := by
  obtain ⟨hzero, hlt⟩ := Log.lt_length_of_termAt? h
  exact ⟨hzero, hlt, c, hc, n, hn, rfl, n.log.through_isPrefix j⟩

/-- What a leader keeps is right for the log and the term of the node `n` at its place `i`. -/
def Accounted (n : Node α) (ds : List (Cluster α)) (i : PeerId) (lead : Leadership) : Prop :=
  lead.Accounts i n.Owns (n.Confirms ds) (n.Ready ds)

/-- What a leader keeps remains right as it adds to its log in its term. -/
theorem Accounted.extend {lead : Leadership} (h : n.Accounted ds i lead) (hfit : n.CursorsFit)
    (hlead : n.role = .leader lead) (hterm : m.term = n.term) (hlog : n.log <+: m.log)
    (hsub : ds ⊆ es) : m.Accounted es i lead := by
  apply h.mono
  · intro j hj
    exact hj.of_isPrefix hterm hlog
  · intro p j hj
    exact hj.of_isPrefix hterm hlog hsub
  · intro p cursor hcursor hready
    exact hready.of_isPrefix (hfit lead hlead p cursor hcursor).2 hterm hlog hsub

/-- If the node leads, what it keeps is right. -/
def Ledger (n : Node α) (ds : List (Cluster α)) (i : PeerId) : Prop :=
  ∀ lead, n.role = .leader lead → n.Accounted ds i lead

theorem Ledger.mono (h : n.Ledger ds i) (hsub : ds ⊆ es) : n.Ledger es i := by
  intro lead hlead
  apply (h lead hlead).mono
  · intro j hj
    exact hj
  · intro p j hj
    exact hj.of_isPrefix rfl List.prefix_rfl hsub
  · intro p cursor _ hready
    exact hready.mono hsub

/-- What a node has committed lies within its log and is sealed. -/
structure Secure (size : Nat) (ds : List (Cluster α)) (n : Node α) : Prop where
  settled : n.Settled
  within : n.commitIndex < n.log.length
  committed : Sealed size ds n.term (n.log.through n.commitIndex)

theorem Secure.mono {size : Nat} (h : n.Secure size ds) (hsub : ds ⊆ es) : n.Secure size es :=
  ⟨h.settled, h.within, h.committed.mono hsub (Nat.le_refl _)⟩

end Node

end Quorum
