import Quorum.Term

/-!
Sets of supporters: the votes of a candidate, the acknowledgements of an entry. Every peer counts
once, however often it answers.
-/

namespace Quorum

structure Tally where
  peers : List PeerId
  nodup : peers.Nodup
  deriving DecidableEq, Repr

namespace Tally

/-- Whoever asks supports itself first. -/
def single (p : PeerId) : Tally := ⟨[p], by simp⟩

def add (t : Tally) (p : PeerId) : Tally :=
  if h : p ∈ t.peers then t
  else ⟨t.peers ++ [p], List.nodup_append.2 ⟨t.nodup, by simp, by
    intro a ha b hb; simp at hb; subst hb; rintro rfl; exact h ha⟩⟩

def size (t : Tally) : Nat := t.peers.length

/-- Strictly more than half of a cluster of the given size. -/
def IsMajority (t : Tally) (clusterSize : Nat) : Prop := clusterSize < t.size * 2

instance (t : Tally) (n : Nat) : Decidable (t.IsMajority n) :=
  inferInstanceAs (Decidable (_ < _))

theorem mem_add {t : Tally} {p q : PeerId} : q ∈ (t.add p).peers ↔ q ∈ t.peers ∨ q = p := by
  unfold add; split
  · rename_i h; constructor
    · exact Or.inl
    · rintro (h' | rfl) <;> assumption
  · simp

@[simp] theorem mem_single {p q : PeerId} : q ∈ (single p).peers ↔ q = p := by simp [single]

theorem add_of_mem {t : Tally} {p : PeerId} (h : p ∈ t.peers) : t.add p = t := by
  simp [add, h]

theorem size_add_of_not_mem {t : Tally} {p : PeerId} (h : p ∉ t.peers) :
    (t.add p).size = t.size + 1 := by
  simp [add, size, h]

theorem IsMajority.add {t : Tally} {n : Nat} (h : t.IsMajority n) (p : PeerId) :
    (t.add p).IsMajority n := by
  by_cases hp : p ∈ t.peers
  · rw [add_of_mem hp]
    exact h
  · unfold IsMajority at h ⊢
    rw [size_add_of_not_mem hp]
    omega

/-- A majority of two or more has somebody else in it than a given member. -/
theorem IsMajority.exists_ne {t : Tally} {n : Nat} (h : t.IsMajority n) (hn : 1 < n) (p : PeerId) :
    ∃ q ∈ t.peers, q ≠ p := by
  obtain ⟨peers, hnodup⟩ := t
  unfold IsMajority size at h
  match peers with
  | [] =>
      simp only [List.length_nil] at h
      omega
  | [q] =>
      simp only [List.length_singleton] at h
      omega
  | q :: r :: rest =>
      have hne : q ≠ r := by
        rintro rfl
        simp at hnodup
      by_cases hq : q = p
      · exact ⟨r, by simp, fun hr => hne (hq.trans hr.symm)⟩
      · exact ⟨q, by simp, hq⟩

end Tally

end Quorum
