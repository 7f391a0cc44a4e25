import Mathlib.Data.List.Nodup
import Quorum.Proofs.Reading

/-!
Dictionaries by what they hold at each key. A write shows at its own key and at no other, and
members in order determine the whole dictionary by what is found in it.
-/

namespace Quorum.Json.Dict

variable {β : Type} {d d' : Dict β} {key other : String} {value : β}

theorem get?_insert (d : Dict β) (key : String) (value : β) (other : String) :
    (d.insert key value).get? other = if other = key then some value else d.get? other := by
  induction d with
  | nil => simp only [insert, get?, eq_comm]
  | cons m d ih =>
      obtain ⟨k, v⟩ := m
      rw [insert]
      split
      · rw [get?]
        simp only [eq_comm]
      · split
        · rename_i heq
          subst heq
          by_cases hother : key = other
          · simp only [get?, hother, if_true]
          · simp only [get?, hother, Ne.symm hother, if_false]
        · rename_i hne
          rw [get?, get?, ih]
          by_cases hk : k = other
          · have hother : other ≠ key := fun h => hne (h.symm.trans hk.symm)
            simp only [hk, hother, if_true, if_false]
          · simp only [hk, if_false]

theorem get?_erase (d : Dict β) (key other : String) :
    (d.erase key).get? other = if other = key then none else d.get? other := by
  induction d with
  | nil => simp only [erase, List.filter_nil, get?, ite_self]
  | cons m d ih =>
      obtain ⟨k, v⟩ := m
      unfold erase at ih ⊢
      by_cases hk : k = key
      · subst hk
        rw [List.filter_cons_of_neg (by simp), ih]
        by_cases hother : other = k
        · simp only [hother, if_true]
        · simp only [get?, hother, Ne.symm hother, if_false]
      · rw [List.filter_cons_of_pos (by simpa using hk), get?, get?, ih]
        by_cases hother : k = other
        · have hne : other ≠ key := fun h => hk (hother.trans h)
          simp only [hother, hne, if_true, if_false]
        · simp only [hother, if_false]

theorem eq_or_mem_of_mem_insert {m : String × β} (h : m ∈ d.insert key value) :
    m = (key, value) ∨ m ∈ d := by
  induction d with
  | nil => exact Or.inl (List.mem_singleton.mp h)
  | cons m' d ih =>
      obtain ⟨k, v⟩ := m'
      rw [insert] at h
      split at h
      · exact List.mem_cons.mp h
      · split at h
        · exact (List.mem_cons.mp h).imp_right (List.mem_cons_of_mem _)
        · rcases List.mem_cons.mp h with rfl | hrest
          · exact Or.inr List.mem_cons_self
          · exact (ih hrest).imp_right (List.mem_cons_of_mem _)

namespace Sorted

theorem insert (h : d.Sorted) (key : String) (value : β) : (d.insert key value).Sorted := by
  induction d with
  | nil => exact List.pairwise_singleton _ _
  | cons m d ih =>
      obtain ⟨k, v⟩ := m
      obtain ⟨hfirst, hrest⟩ := List.pairwise_cons.mp h
      rw [Dict.insert]
      split
      · rename_i hlt
        refine List.pairwise_cons.mpr ⟨?_, h⟩
        intro m hm
        rcases List.mem_cons.mp hm with rfl | hm
        · exact hlt
        · exact String.lt_trans hlt (hfirst m hm)
      · split
        · rename_i heq
          subst heq
          exact List.pairwise_cons.mpr ⟨hfirst, hrest⟩
        · rename_i hnot hne
          have hlt : k < key := Std.lt_of_le_of_ne (String.not_lt.mp hnot) (Ne.symm hne)
          refine List.pairwise_cons.mpr ⟨?_, ih hrest⟩
          intro m hm
          rcases eq_or_mem_of_mem_insert hm with rfl | hm
          · exact hlt
          · exact hfirst m hm

theorem erase (h : d.Sorted) (key : String) : (d.erase key).Sorted := List.Pairwise.filter _ h

theorem nodup_keys (h : d.Sorted) : (d.map (·.1)).Nodup := by
  refine List.pairwise_map.mpr (List.Pairwise.imp ?_ h)
  intro a b hlt heq
  rw [heq] at hlt
  exact String.lt_irrefl _ hlt

theorem mem_iff_get? (h : d.Sorted) : (key, value) ∈ d ↔ d.get? key = some value := by
  induction d with
  | nil => simp [get?]
  | cons m d ih =>
      obtain ⟨k, v⟩ := m
      obtain ⟨hfirst, hrest⟩ := List.pairwise_cons.mp h
      rw [List.mem_cons, get?]
      split
      · rename_i heq
        subst heq
        have hnot : (k, value) ∉ d := fun hm => String.lt_irrefl k (hfirst _ hm)
        simp only [hnot, or_false, Prod.mk.injEq, true_and, Option.some.injEq, eq_comm]
      · rename_i hne
        have hother : (key, value) ≠ (k, v) := fun heq => hne (congrArg Prod.fst heq).symm
        rw [← ih hrest, or_iff_right hother]

/-- What is found at each key determines the dictionary. -/
theorem ext (h : d.Sorted) (h' : d'.Sorted) (hsame : ∀ key, d.get? key = d'.get? key) :
    d = d' := by
  have hmem (m : String × β) : m ∈ d ↔ m ∈ d' := by
    rw [h.mem_iff_get?, h'.mem_iff_get?, hsame]
  have hperm : d.Perm d' := (List.perm_ext_iff_of_nodup (List.Nodup.of_map _ h.nodup_keys)
    (List.Nodup.of_map _ h'.nodup_keys)).mpr hmem
  refine hperm.eq_of_pairwise ?_ h h'
  intro a b _ _ hab hba
  exact absurd hba (String.lt_asymm hab)

end Sorted

/-- The keys of a dictionary are those at which something is found. -/
theorem mem_keys_iff (d : Dict β) (key : String) : key ∈ d.map (·.1) ↔ (d.get? key).isSome := by
  induction d with
  | nil => simp [get?]
  | cons m d ih =>
      obtain ⟨k, v⟩ := m
      rw [List.map_cons, List.mem_cons, ih, get?]
      split
      · rename_i heq
        simp [heq]
      · rename_i hne
        rw [or_iff_right (Ne.symm hne)]

end Quorum.Json.Dict
