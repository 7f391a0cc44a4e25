import Quorum.Proofs.Redelivery

/-!
Writing is conservative. Entries that come in leave a log alone as far as they meet entries of their
own terms. From the first clash on they replace all that is held; without a clash they only add what
the log does not reach. So an append call takes nothing from a log below the first entry on which
the two differ, and a log comes to agree with the one that a piece sent to it is taken from.
-/

namespace Quorum

variable {α : Type}

theorem LogIndex.toNat_succ_of_absent {i : LogIndex} (h : i.position? = none) :
    (i + 1).toNat = 0 := by
  unfold position? at h
  split at h
  · cases h
  · lia

theorem LogIndex.toNat_succ_of_position {i : LogIndex} {p : Nat} (h : i.position? = some p) :
    (i + 1).toNat = p + 1 := by
  unfold position? at h
  split at h
  · cases h
    lia
  · cases h

namespace Log

variable {log : Log α} {start k p : Nat} {incoming : List (Entry α)}

/-- Of the entries to be written from `start` on, number `j` meets an entry of another term. -/
def Clashes (log : Log α) (start : Nat) (incoming : List (Entry α)) (j : Nat) : Prop :=
  ∃ held ∈ log[start + j]?, ∃ e ∈ incoming[j]?, held.term ≠ e.term

instance (log : Log α) (start : Nat) (incoming : List (Entry α)) (j : Nat) :
    Decidable (log.Clashes start incoming j) :=
  inferInstanceAs (Decidable (∃ held ∈ log[start + j]?, ∃ e ∈ incoming[j]?, _))

/-- What is held stays as far as nothing clashes, and the rest comes in after it. -/
theorem merge_of_agree (hk : start + k ≤ log.length)
    (h : ∀ i < k, ¬ log.Clashes start incoming i) :
    log.merge start incoming =
      log.take (start + k) ++ overlay (log.drop (start + k)) (incoming.drop k) := by
  induction k with
  | zero => rfl
  | succ k ih =>
      have hlt : start + k < log.length := by omega
      have hheld : log.drop (start + k) = log[start + k] :: log.drop (start + (k + 1)) :=
        List.drop_eq_getElem_cons hlt
      rw [ih (by omega) fun i hi => h i (by omega), hheld]
      cases hin : incoming.drop k with
      | nil =>
          have hend : incoming.drop (k + 1) = [] := by
            rw [← List.tail_drop, hin]
            rfl
          rw [hend, overlay_nil_right, overlay_nil_right, take_append_cons hheld]
          rfl
      | cons e rest =>
          obtain ⟨he, hrest⟩ := drop_eq_cons hin
          have hterm : log[start + k].term = e.term := by
            by_contra hne
            exact h k (Nat.lt_succ_self k) ⟨_, List.getElem?_eq_getElem hlt, e, he, hne⟩
          rw [overlay, if_pos hterm, take_append_cons hheld, hrest]
          rfl

/-- The first clash puts an end to what is held. -/
theorem merge_of_clash {j : Nat} (hclash : log.Clashes start incoming j)
    (hfirst : ∀ i < j, ¬ log.Clashes start incoming i) :
    log.merge start incoming = log.take (start + j) ++ incoming.drop j := by
  obtain ⟨held, hheld, e, he, hterm⟩ := hclash
  obtain ⟨hlt, rfl⟩ := List.getElem?_eq_some_iff.mp hheld
  obtain ⟨hin, rfl⟩ := List.getElem?_eq_some_iff.mp he
  rw [merge_of_agree (Nat.le_of_lt hlt) hfirst, List.drop_eq_getElem_cons hlt,
    List.drop_eq_getElem_cons hin, overlay, if_neg hterm]

/-- Without a clash nothing of what is held is lost. -/
theorem merge_of_no_clash (hstart : start ≤ log.length)
    (h : ∀ j, ¬ log.Clashes start incoming j) :
    log.merge start incoming = log ++ incoming.drop (log.length - start) := by
  have hwhole : start + (log.length - start) = log.length := Nat.add_sub_of_le hstart
  rw [merge_of_agree (Nat.le_of_eq hwhole) fun i _ => h i, hwhole, List.take_length,
    List.drop_length, overlay_nil_left]

/-- A log keeps its beginning up to the first clash. -/
theorem take_isPrefix_merge (hstart : start ≤ log.length)
    (h : ∀ j, start + j < p → ¬ log.Clashes start incoming j) :
    log.take p <+: log.merge start incoming := by
  rcases Nat.le_total p start with hp | hp
  · have hkept : log.take p <+: log.take start := List.take_prefix_take_left hp
    exact hkept.trans (List.prefix_append _ _)
  · rcases Nat.le_total p log.length with hlength | hlength
    · have hwhole : start + (p - start) = p := Nat.add_sub_of_le hp
      rw [merge_of_agree (k := p - start) (by omega) fun i hi => h i (by omega), hwhole]
      exact List.prefix_append _ _
    · have hwhole : start + (log.length - start) = log.length := Nat.add_sub_of_le hstart
      rw [merge_of_agree (Nat.le_of_eq hwhole) fun i hi => h i (by omega), hwhole,
        List.take_length, List.take_of_length_le hlength]
      exact List.prefix_append _ _

/-- Where an entry comes in, that one is found afterwards, or an entry of its term that was held
there. -/
theorem getElem?_overlay (held : List (Entry α)) {incoming : List (Entry α)} {i : Nat} {e : Entry α}
    (h : incoming[i]? = some e) : ∃ f, (overlay held incoming)[i]? = some f ∧
      (f = e ∨ held[i]? = some f ∧ f.term = e.term) := by
  induction held generalizing incoming i with
  | nil =>
      rw [overlay_nil_left]
      exact ⟨e, h, Or.inl rfl⟩
  | cons f held ih =>
      cases incoming with
      | nil => cases h
      | cons d incoming =>
          by_cases hterm : f.term = d.term
          · rw [overlay, if_pos hterm]
            cases i with
            | zero =>
                obtain rfl := Option.some.inj h
                exact ⟨f, rfl, Or.inr ⟨rfl, hterm⟩⟩
            | succ i => exact ih h
          · rw [overlay, if_neg hterm]
            exact ⟨e, h, Or.inl rfl⟩

theorem getElem?_slice {log : Log α} {through : LogIndex} {j : Nat}
    (h : ((start + j : Nat) : LogIndex) ≤ through) :
    (log.slice start through)[j]? = log[start + j]? := by
  have hlt : start + j < (through + 1).toNat := by lia
  unfold slice
  rw [List.getElem?_drop, Int.toNat_natCast, List.getElem?_take_of_lt hlt]

/-- A log that takes in a piece of another one agrees with that one through the end of the piece. -/
theorem getElem?_merge_slice {F L : Log α} {through : LogIndex} (hshared : F.take k = L.take k)
    (hentry : ∀ (i : Nat) f g, F[i]? = some f → L[i]? = some g → f.term = g.term → f = g) {i : Nat}
    (hi : (i : LogIndex) ≤ min through L.lastIndex) :
    (F.merge k (L.slice k through))[i]? = L[i]? := by
  have hthrough : (i : LogIndex) ≤ through := Int.le_trans hi (Int.min_le_left _ _)
  have hlt : i < L.length := by
    unfold lastIndex LogIndex.lastOf at hi
    lia
  rcases Nat.lt_or_ge F.length k with hshort | hk
  · -- Logs shorter than what they share are one and the same, and there is nothing to take in.
    have hL : F = L.take k := (List.take_of_length_le (Nat.le_of_lt hshort)).symm.trans hshared
    have hlength : L.length ≤ k := by
      have hsame := congrArg List.length hL
      rw [List.length_take] at hsame
      omega
    have hnone : L.slice k through = [] := by
      unfold slice
      rw [Int.toNat_natCast]
      exact List.drop_eq_nil_of_le (Nat.le_trans (List.length_take_le' _ _) hlength)
    rw [hnone, merge_nil, hL, List.take_of_length_le hlength]
  rcases Nat.lt_or_ge i k with hbefore | hafter
  · rw [← List.getElem?_take_of_lt hbefore, take_merge hk, hshared,
      List.getElem?_take_of_lt hbefore]
  · have hindex : k + (i - k) = i := Nat.add_sub_of_le hafter
    have hg : L[i]? = some L[i] := List.getElem?_eq_getElem hlt
    have hin : (L.slice k through)[i - k]? = some L[i] := by
      rw [getElem?_slice (hindex.symm ▸ hthrough), hindex, hg]
    have hplace : (F.merge k (L.slice k through))[i]? =
        (overlay (F.drop k) (L.slice k through))[i - k]? := by
      rw [← drop_merge hk, List.getElem?_drop, hindex]
    obtain ⟨f, hf, hsame | ⟨hheld, hterm⟩⟩ := getElem?_overlay (F.drop k) hin
    · rw [hplace, hf, hsame, hg]
    · rw [List.getElem?_drop, hindex] at hheld
      rw [hplace, hf, hentry i f L[i] hheld hg hterm, hg]

end Log

/-- What an append call says about the position `p` is not what the node holds there: the call gives
another term for the entry before the ones it carries, or carries one of another term. -/
def Node.Differs (n : Node α) (args : AppendRequest α) (p : Nat) : Prop :=
  let start := (args.prevLogIndex + 1).toNat
  (args.prevLogIndex.position? = some p ∧ ∃ held ∈ n.log[p]?, some held.term ≠ args.prevLogTerm) ∨
    start ≤ p ∧ n.log.Clashes start args.entries (p - start)

instance (n : Node α) (args : AppendRequest α) (p : Nat) : Decidable (n.Differs args p) :=
  inferInstanceAs (Decidable (_ ∧ (∃ held ∈ n.log[p]?, _) ∨ _ ∧ _))

theorem Node.differs_of_clash {n : Node α} {args : AppendRequest α} {start j : Nat}
    (hstart : (args.prevLogIndex + 1).toNat = start) (h : n.log.Clashes start args.entries j) :
    n.Differs args (start + j) := by
  refine Or.inr ⟨?_, ?_⟩
  · rw [hstart]
    exact Nat.le_add_right start j
  · rw [hstart, Nat.add_sub_cancel_left]
    exact h

/-- An append call leaves a log alone below the first position at which the two differ. -/
theorem Node.take_isPrefix_answerAppend {n : Node α} {args : AppendRequest α} {p : Nat}
    (h : ∀ q < p, ¬ n.Differs args q) :
    n.log.take p <+: (n.answerAppend args).2.node.log := by
  cases n.answerAppend_writes args with
  | keep hlog =>
      rw [hlog]
      exact List.take_prefix _ _
  | store command he => cases he
  | accept args' kept start he hle hterm hrole hfit hlog =>
      cases he
      rw [hlog]
      rcases reconcile?_cases hfit with
        ⟨hprev, rfl, rfl⟩ | ⟨prev, held, hprev, hheld, ⟨hsame, rfl, rfl⟩ | ⟨hother, rfl, rfl⟩⟩
      · have hfirst : (args.prevLogIndex + 1).toNat = 0 := LogIndex.toNat_succ_of_absent hprev
        exact Log.take_isPrefix_merge (Nat.zero_le _) fun j hj hclash =>
          h _ hj (differs_of_clash hfirst hclash)
      · have hfirst : (args.prevLogIndex + 1).toNat = prev + 1 :=
          LogIndex.toNat_succ_of_position hprev
        have hstart : prev + 1 ≤ n.log.length := (List.getElem?_eq_some_iff.mp hheld).1
        exact Log.take_isPrefix_merge hstart fun j hj hclash =>
          h _ hj (differs_of_clash hfirst hclash)
      · -- The entry before the ones received differs, so the log is kept as far as that one.
        have hp : p ≤ start :=
          Nat.le_of_not_lt fun hlt => h start hlt (Or.inl ⟨hprev, held, hheld, hother⟩)
        have hlt : start ≤ n.log.length := Nat.le_of_lt (List.getElem?_eq_some_iff.mp hheld).1
        rw [Log.merge_take hlt]
        exact (List.take_prefix_take_left hp).trans (List.prefix_append _ _)

/-- Writing is conservative. The entries that come in replace a log from the first clash on, and
without a clash they add what the log does not reach; a second time they change nothing. An append
call takes nothing from a log below the first position at which the two differ. And a log that
shares its beginning with another one, and has equal entries wherever the two have equal terms,
agrees with the other one through the end of the piece that it takes in. -/
theorem merge_conservative :
    (∀ (log : Log α) (start : Nat) (incoming : List (Entry α)), start ≤ log.length →
      (∀ j, log.Clashes start incoming j → (∀ i < j, ¬ log.Clashes start incoming i) →
        log.merge start incoming = log.take (start + j) ++ incoming.drop j) ∧
      ((∀ j, ¬ log.Clashes start incoming j) →
        log.merge start incoming =
          if start + incoming.length ≤ log.length then log
          else log ++ incoming.drop (log.length - start)) ∧
      (log.merge start incoming).merge start incoming = log.merge start incoming) ∧
    (∀ (n : Node α) (args : AppendRequest α) (p : Nat), (∀ q < p, ¬ n.Differs args q) →
      n.log.take p <+: (n.answerAppend args).2.node.log) ∧
    ∀ (F L : Log α) (k : Nat) (through : LogIndex), F.take k = L.take k →
      (∀ (i : Nat) f g, F[i]? = some f → L[i]? = some g → f.term = g.term → f = g) →
      ∀ i : Nat, (i : LogIndex) ≤ min through L.lastIndex →
        (F.merge k (L.slice k through))[i]? = L[i]? := by
  refine ⟨?_, ?_, ?_⟩
  · intro log start incoming hstart
    refine ⟨fun j => Log.merge_of_clash, ?_, Log.merge_merge hstart incoming⟩
    intro hnone
    rw [Log.merge_of_no_clash hstart hnone]
    split
    · rw [List.drop_eq_nil_of_le (by omega), List.append_nil]
    · rfl
  · intro n args p h
    exact Node.take_isPrefix_answerAppend h
  · intro F L k through hshared hentry i hi
    exact Log.getElem?_merge_slice hshared hentry hi

/-- A log is met by entries that agree with it once and clash then; a member is sent such entries
after one of its own; a log takes in a piece of another one, in the midst of which the two part. -/
theorem merge_conservative_branches :
    (let log : Log Nat := [⟨1, 10⟩, ⟨1, 11⟩, ⟨2, 20⟩, ⟨2, 21⟩]
     let incoming : List (Entry Nat) := [⟨1, 11⟩, ⟨3, 30⟩]
     1 ≤ log.length ∧ log.Clashes 1 incoming 1 ∧ (∀ i < 1, ¬ log.Clashes 1 incoming i) ∧
       log.merge 1 incoming = [⟨1, 10⟩, ⟨1, 11⟩, ⟨3, 30⟩]) ∧
    (let args : AppendRequest Nat := ⟨4, 2, 0, some 1, [⟨1, 11⟩, ⟨4, 40⟩, ⟨4, 41⟩], 0⟩
     holder.Differs args 2 ∧ (∀ q < 2, ¬ holder.Differs args q) ∧
       [⟨1, 10⟩, ⟨1, 11⟩] <+: (holder.answerAppend args).2.node.log) ∧
    let F : Log Nat := [⟨1, 10⟩, ⟨1, 11⟩, ⟨2, 20⟩]
    let L : Log Nat := [⟨1, 10⟩, ⟨1, 11⟩, ⟨3, 30⟩, ⟨3, 31⟩]
    F.take 1 = L.take 1 ∧
      (∀ (i : Nat) f g, F[i]? = some f → L[i]? = some g → f.term = g.term → f = g) ∧
      ((2 : Nat) : LogIndex) ≤ min 2 L.lastIndex ∧
      (F.merge 1 (L.slice 1 2))[2]? = some ⟨3, 30⟩ := by
  obtain ⟨hwrite, hcall, hpiece⟩ := @merge_conservative Nat
  refine ⟨?_, ?_, ?_⟩
  · intro log incoming
    have hfirst : ∀ i < 1, ¬ log.Clashes 1 incoming i := by decide
    have hclash : log.Clashes 1 incoming 1 := by decide
    exact ⟨by decide, hclash, hfirst, (hwrite log 1 incoming (by decide)).1 1 hclash hfirst⟩
  · intro args
    have hsame : ∀ q < 2, ¬ holder.Differs args q := by decide
    exact ⟨by decide, hsame, hcall holder args 2 hsame⟩
  · intro F L
    have hentry : ∀ (i : Nat) f g, F[i]? = some f → L[i]? = some g → f.term = g.term → f = g := by
      intro i f g hf hg hterm
      match i, hf, hg with
      | 0, hf, hg => exact Option.some.inj (hf.symm.trans hg)
      | 1, hf, hg => exact Option.some.inj (hf.symm.trans hg)
      | 2, hf, hg =>
          obtain rfl := Option.some.inj hf
          obtain rfl := Option.some.inj hg
          exact absurd hterm (by decide)
    exact ⟨rfl, hentry, by decide, hpiece F L 1 2 rfl hentry 2 (by decide)⟩

end Quorum
