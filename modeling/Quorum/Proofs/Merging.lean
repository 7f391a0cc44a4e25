import Quorum.Proofs.Shipping

/-!
What an append call does to the log it is written to. Two logs agree if a shared term at an index
means a shared beginning through it. A call that carries a piece of an agreeing log then leaves the
log as it is or replaces it by that piece and what precedes it; in both cases the log begins with
what the sender has sent.
-/

namespace Quorum

variable {α : Type}

/-- Where the logs hold entries of the same term at an index, they are the same through it. -/
def Log.Agree (F L : Log α) : Prop :=
  ∀ (k : Nat) f g, F[k]? = some f → L[k]? = some g → f.term = g.term →
    F.take (k + 1) = L.take (k + 1)

namespace Log

variable {F L : Log α}

theorem drop_eq_cons {s : Nat} {f : Entry α} {rest : List (Entry α)} (h : F.drop s = f :: rest) :
    F[s]? = some f ∧ F.drop (s + 1) = rest := by
  constructor
  · rw [← List.head?_drop, h]
    rfl
  · rw [← List.tail_drop, h]
    rfl

theorem take_append_cons {s : Nat} {f : Entry α} {rest more : List (Entry α)}
    (h : F.drop s = f :: rest) : F.take s ++ f :: more = F.take (s + 1) ++ more := by
  obtain ⟨hf, -⟩ := drop_eq_cons h
  rw [List.take_add_one, hf]
  simp

theorem getElem?_of_isPrefix {s : Nat} {e : Entry α} (h : F <+: L) (he : F[s]? = some e) :
    L[s]? = some e := by
  obtain ⟨tail, rfl⟩ := h
  rw [List.getElem?_append_left (List.getElem?_eq_some_iff.mp he).1]
  exact he

/-- Entries of an agreeing log are found in place or put there with all that precedes them. -/
theorem overlay_cases (hagree : F.Agree L) {s : Nat} {entries : List (Entry α)}
    (hpast : F.take s = L.take s) (hs : s ≤ F.length) (hpiece : entries <+: L.drop s) :
    L.take (s + entries.length) <+: F ∧ F.take s ++ overlay (F.drop s) entries = F ∨
    ¬ L.take (s + entries.length) <+: F ∧
      F.take s ++ overlay (F.drop s) entries = L.take (s + entries.length) := by
  induction entries generalizing s with
  | nil =>
      refine Or.inl ⟨?_, ?_⟩
      · simp only [List.length_nil, Nat.add_zero, ← hpast]
        exact List.take_prefix _ _
      · rw [overlay_nil_right, List.take_append_drop]
  | cons e entries ih =>
      obtain ⟨more, hmore⟩ := hpiece
      obtain ⟨he, hrest⟩ := drop_eq_cons hmore.symm
      have hwhole : L.take s ++ e :: entries = L.take (s + (e :: entries).length) := by
        rw [List.take_add, ← hmore, List.take_left' rfl]
      have hreach : s + 1 + entries.length = s + (e :: entries).length := by
        rw [List.length_cons]
        omega
      have hlast : (L.take (s + (e :: entries).length))[s]? = some e := by
        rw [List.getElem?_take_of_lt (by rw [List.length_cons]; omega)]
        exact he
      cases hheld : F.drop s with
      | nil =>
          refine Or.inr ⟨?_, ?_⟩
          · intro hpre
            have hF := getElem?_of_isPrefix hpre hlast
            have hlength := (List.getElem?_eq_some_iff.mp hF).1
            have hend := List.drop_eq_nil_iff.mp hheld
            omega
          · rw [overlay_nil_left, hpast, hwhole]
      | cons f held =>
          obtain ⟨hf, hdrop⟩ := drop_eq_cons hheld
          by_cases hterm : f.term = e.term
          · have hsame : F.take (s + 1) = L.take (s + 1) := hagree s f e hf he hterm
            have hlength := (List.getElem?_eq_some_iff.mp hf).1
            have hstep := ih hsame hlength ⟨more, hrest.symm⟩
            rw [hreach, hdrop, ← take_append_cons hheld] at hstep
            rw [overlay, if_pos hterm]
            exact hstep
          · refine Or.inr ⟨?_, ?_⟩
            · intro hpre
              have hF := getElem?_of_isPrefix hpre hlast
              rw [hf] at hF
              exact hterm (congrArg Entry.term (Option.some.inj hF))
            · rw [overlay, if_neg hterm, hpast, hwhole]

theorem termAt?_eq_some {log : Log α} {i : LogIndex} {t : Term} (h : log.termAt? i = some t) :
    0 ≤ i ∧ ∃ e, log[i.toNat]? = some e ∧ e.term = t := by
  unfold termAt? entryAt? at h
  split at h
  · rename_i hi
    obtain ⟨e, he, hterm⟩ := Option.map_eq_some_iff.mp h
    exact ⟨hi, e, he, hterm⟩
  · cases h

end Log

/-- A call that is taken, though another entry stands where it expects the one it names. -/
def Node.Disputes (n : Node α) (args : AppendRequest α) : Prop :=
  n.term ≤ args.term ∧ ∃ held ∈ n.log.termAt? args.prevLogIndex, some held ≠ args.prevLogTerm

instance (n : Node α) (args : AppendRequest α) : Decidable (n.Disputes args) :=
  inferInstanceAs (Decidable (_ ∧ ∃ held ∈ n.log.termAt? args.prevLogIndex, _))

namespace Node

/-- Where a call is not refused, its sender's log is shared up to its entries, or disputed there. -/
theorem reconcile_cases {F L log : Log α} {args : AppendRequest α} {start pos : Nat}
    (hagree : F.Agree L) (hpiece : args.PieceOf L start)
    (hfit : reconcile? F args = some (log, pos)) :
    log = F ∧ pos = start ∧ start ≤ F.length ∧ F.take start = L.take start ∨
    log = F.take (start - 1) ∧ pos = start - 1 ∧
      ∃ f g, F[start - 1]? = some f ∧ L[start - 1]? = some g ∧ f.term ≠ g.term ∧
        F.termAt? args.prevLogIndex = some f.term ∧ args.prevLogTerm = some g.term := by
  have hprev := hpiece.prev
  cases start with
  | zero =>
      have hnone : args.prevLogIndex.position? = none := by
        rw [hprev]
        rfl
      unfold reconcile? at hfit
      rw [hnone] at hfit
      obtain ⟨rfl, rfl⟩ := Prod.mk.inj (Option.some.inj hfit)
      exact Or.inl ⟨rfl, rfl, Nat.zero_le _, rfl⟩
  | succ k =>
      have hindex : args.prevLogIndex = (k : Int) := by lia
      have hterm (M : Log α) : M.termAt? args.prevLogIndex = M[k]?.map (·.term) := by
        rw [hindex, Log.termAt?, Log.entryAt?_natCast]
      have hk : k < L.length := hpiece.start_le
      have hg : L[k]? = some L[k] := List.getElem?_eq_getElem hk
      have hnamed : args.prevLogTerm = some L[k].term := by
        rw [hpiece.prevTerm, hterm, hg]
        rfl
      unfold reconcile? at hfit
      rw [hindex, LogIndex.position?_natCast, ← hindex, hterm, hnamed] at hfit
      cases hf : F[k]? with
      | none =>
          rw [hf] at hfit
          cases hfit
      | some f =>
          rw [hf] at hfit
          simp only [Option.map_some] at hfit
          have hlength := (List.getElem?_eq_some_iff.mp hf).1
          split at hfit
          · rename_i hsame
            obtain ⟨rfl, rfl⟩ := Prod.mk.inj (Option.some.inj hfit)
            exact Or.inl ⟨rfl, rfl, hlength, hagree k f _ hf hg (Option.some.inj hsame)⟩
          · rename_i hother
            obtain ⟨rfl, rfl⟩ := Prod.mk.inj (Option.some.inj hfit)
            refine Or.inr ⟨rfl, rfl, f, L[k], hf, hg, ?_, ?_, hnamed⟩
            · intro hsame
              exact hother (congrArg some hsame)
            · rw [hterm, hf]
              rfl

/-- What a call that is taken does to a log that agrees with its sender's. Unless the log is cut
short at a disputed entry, it begins with what the sender has sent. -/
theorem merge_cases {F L log : Log α} {args : AppendRequest α} {start pos : Nat}
    (hagree : F.Agree L) (hpiece : args.PieceOf L start)
    (hfit : reconcile? F args = some (log, pos))
    (hentries : (∃ held ∈ F.termAt? args.prevLogIndex, some held ≠ args.prevLogTerm) →
      args.entries = []) :
    L.take (args.reach start) <+: F ∧ log.merge pos args.entries = F ∨
    ¬ L.take (args.reach start) <+: F ∧
      log.merge pos args.entries = L.take (args.reach start) ∨
    args.entries = [] ∧ log.merge pos args.entries = F.take (start - 1) ∧
      ∃ f g, F[start - 1]? = some f ∧ L[start - 1]? = some g ∧ f.term ≠ g.term ∧
        F.termAt? args.prevLogIndex = some f.term ∧ args.prevLogTerm = some g.term := by
  rcases reconcile_cases hagree hpiece hfit with
    ⟨rfl, rfl, hstart, hpast⟩ | ⟨rfl, rfl, f, g, hf, hg, hne, hheld, hnamed⟩
  · unfold Log.merge AppendRequest.reach
    rcases Log.overlay_cases hagree hpast hstart hpiece.entries with hkept | hnew
    · exact Or.inl hkept
    · exact Or.inr (Or.inl hnew)
  · have hempty : args.entries = [] := by
      refine hentries ⟨f.term, hheld, ?_⟩
      rw [hnamed]
      exact fun h => hne (Option.some.inj h)
    refine Or.inr (Or.inr ⟨hempty, ?_, f, g, hf, hg, hne, hheld, hnamed⟩)
    rw [hempty, Log.merge_nil]

/-- A beginning of the sender's log grows no further than that log, and through all that has been
sent. -/
theorem merge_extends {F N log : Log α} {args : AppendRequest α} {start pos : Nat} (hF : F <+: N)
    (hpiece : args.PieceOf N start) (hfit : reconcile? F args = some (log, pos)) :
    F <+: log.merge pos args.entries ∧ log.merge pos args.entries <+: N ∧
      N.take (args.reach start) <+: log.merge pos args.entries := by
  have hagree : F.Agree N := by
    intro k f g hf _ _
    have hlength := (List.getElem?_eq_some_iff.mp hf).1
    obtain ⟨tail, rfl⟩ := hF
    exact (List.take_append_of_le_length hlength).symm
  rcases reconcile_cases hagree hpiece hfit with
    ⟨rfl, rfl, hstart, hpast⟩ | ⟨-, -, f, g, hf, hg, hne, -⟩
  · unfold Log.merge AppendRequest.reach
    rcases Log.overlay_cases hagree hpast hstart hpiece.entries with
      ⟨hheld, hkept⟩ | ⟨hno, hput⟩
    · rw [hkept]
      exact ⟨List.prefix_rfl, hF, hheld⟩
    · rw [hput]
      have hsent := List.take_prefix (pos + args.entries.length) N
      rcases List.prefix_or_prefix_of_prefix hF hsent with hshort | hlong
      · exact ⟨hshort, hsent, List.prefix_rfl⟩
      · exact absurd hlong hno
  · have hsame := (Log.getElem?_of_isPrefix hF hf).symm.trans hg
    exact absurd (congrArg Entry.term (Option.some.inj hsame)) hne

end Node

end Quorum
