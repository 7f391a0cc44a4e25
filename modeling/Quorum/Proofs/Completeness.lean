import Quorum.Proofs.Retention

/-!
Leader completeness. What a majority holds, up to an entry of the term it holds it in, is the
beginning of the log of every leader of a later term, as long as votes that count are given only to
candidates with a log at least as current as the voter's.
-/

namespace Quorum

variable {α : Type}

namespace Log

/-- Term of the last entry, or zero. -/
def lastTerm (F : Log α) : Term := (F.getLast?.map (·.term)).getD 0

/-- The log `D` is at least as current as the log `W`: its last entry is of a later term, or of the
same term and it is no shorter. -/
def UpToDate (D W : Log α) : Prop :=
  W.lastTerm < D.lastTerm ∨ W.lastTerm = D.lastTerm ∧ W.length ≤ D.length

instance (D W : Log α) : Decidable (D.UpToDate W) := inferInstanceAs (Decidable (_ ∨ _))

theorem UpToDate.refl (D : Log α) : D.UpToDate D := Or.inr ⟨rfl, Nat.le_refl _⟩

theorem lastTerm_of_getLast? {F : Log α} {e : Entry α} (h : F.getLast? = some e) :
    F.lastTerm = e.term := by
  simp [lastTerm, h]

theorem getLast?_of_ne_nil {F : Log α} (h : F ≠ []) : ∃ e, F.getLast? = some e :=
  ⟨_, List.getLast?_eq_some_getLast h⟩

theorem term_le_of_sorted {F : Log α} (h : F.Pairwise fun e f => e.term ≤ f.term) {i j : Nat}
    (hij : i ≤ j) {e f : Entry α} (he : F[i]? = some e) (hf : F[j]? = some f) :
    e.term ≤ f.term := by
  obtain ⟨hi, rfl⟩ := List.getElem?_eq_some_iff.mp he
  obtain ⟨hj, rfl⟩ := List.getElem?_eq_some_iff.mp hf
  rcases Nat.lt_or_eq_of_le hij with hlt | rfl
  · exact List.pairwise_iff_getElem.mp h i j hi hj hlt
  · exact Nat.le_refl _

/-- In a log whose terms do not fall, a beginning is the shorter of two if its last entry is of an
earlier term. -/
theorem prefix_of_lastTerm_lt {F X D : Log α} (h : F.Pairwise fun e f => e.term ≤ f.term)
    (hX : X <+: F) (hD : D <+: F) (hlt : X.lastTerm < D.lastTerm) : X <+: D := by
  refine List.prefix_of_prefix_length_le hX hD ?_
  refine Nat.le_of_not_lt fun hlong => ?_
  have hX0 : X ≠ [] := by
    rintro rfl
    cases hlong
  have hD0 : D ≠ [] := by
    rintro rfl
    cases hlt
  obtain ⟨x, hx⟩ := getLast?_of_ne_nil hX0
  obtain ⟨d, hd⟩ := getLast?_of_ne_nil hD0
  have hFx : F[X.length - 1]? = some x :=
    getElem?_of_isPrefix hX (by rw [← List.getLast?_eq_getElem?]; exact hx)
  have hFd : F[D.length - 1]? = some d :=
    getElem?_of_isPrefix hD (by rw [← List.getLast?_eq_getElem?]; exact hd)
  have hle := term_le_of_sorted h (Nat.sub_le_sub_right (Nat.le_of_lt hlong) 1) hFd hFx
  rw [lastTerm_of_getLast? hx, lastTerm_of_getLast? hd] at hlt
  exact Nat.not_lt.mpr hle hlt

theorem lastTerm_le_of_isPrefix {F X : Log α} (h : F.Pairwise fun e f => e.term ≤ f.term)
    (hX : X <+: F) : X.lastTerm ≤ F.lastTerm := by
  by_cases hX0 : X = []
  · subst hX0
    exact Nat.zero_le _
  · have hF0 : F ≠ [] := by
      rintro rfl
      exact hX0 (List.prefix_nil.mp hX)
    obtain ⟨x, hx⟩ := getLast?_of_ne_nil hX0
    obtain ⟨f, hf⟩ := getLast?_of_ne_nil hF0
    have hFx : F[X.length - 1]? = some x :=
      getElem?_of_isPrefix hX (by rw [← List.getLast?_eq_getElem?]; exact hx)
    have hFf : F[F.length - 1]? = some f := by rw [← List.getLast?_eq_getElem?]; exact hf
    rw [lastTerm_of_getLast? hx, lastTerm_of_getLast? hf]
    exact term_le_of_sorted h (Nat.sub_le_sub_right hX.length_le 1) hFx hFf

end Log

/-- A vote that can still count goes to a log at least as current as the voter's. -/
def vetted : Rule α
  | c, n, .voteRequest args => (n.answerVote args).1.voteGranted = true →
      ∀ m ∈ c.nodes[args.candidateId]?, m.role.kind = .candidate → m.term = args.term →
        m.log.UpToDate n.log
  | _, _, _ => True

instance (c : Cluster α) (n : Node α) : (e : Event α) → Decidable (vetted c n e)
  | .voteRequest args =>
    inferInstanceAs (Decidable ((n.answerVote args).1.voteGranted = true →
      ∀ m ∈ c.nodes[args.candidateId]?, m.role.kind = .candidate → m.term = args.term →
        m.log.UpToDate n.log))
  | .start | .electionTimeout | .heartbeatTimeout | .submit _ | .appendRequest _ | .voteReturned ..
  | .appendReturned .. => inferInstanceAs (Decidable True)

theorem vets_of_vetted {rule : Rule α}
    (h : ∀ c n e, rule c n e → inRange c n e ∧ vetted c n e) : rule.Vets Log.UpToDate := by
  refine ⟨Log.UpToDate.refl, fun c n e hobey => ⟨(h c n e hobey).1, ?_⟩⟩
  rintro args rfl hgranted m hm hcand hterm
  exact (h _ _ _ hobey).2 hgranted m hm hcand hterm

/-- At some moment in the term `T` the member `p` had a log that begins with `X`. -/
def Held (ds : List (Cluster α)) (T : Term) (p : PeerId) (X : Log α) : Prop :=
  ∃ d ∈ ds, ∃ k, d.nodes[p]? = some k ∧ k.term = T ∧ X <+: k.log

/-- A majority has held `X` in the term `T`, in which a leader had it and stored its last entry. -/
structure Chosen (size : Nat) (ds : List (Cluster α)) (T : Term) (X : Log α) : Prop where
  led : ∃ i L, Led ds T i L ∧ X <+: L
  last : ∃ e, X.getLast? = some e ∧ e.term = T
  held : ∃ votes : Tally, votes.IsMajority size ∧ ∀ p ∈ votes.peers, Held ds T p X

theorem Held.mono {ds es : List (Cluster α)} {T : Term} {p : PeerId} {X : Log α}
    (h : Held ds T p X) (hsub : ds ⊆ es) : Held es T p X := by
  obtain ⟨d, hd, hheld⟩ := h
  exact ⟨d, hsub hd, hheld⟩

theorem Held.of_isPrefix {ds : List (Cluster α)} {T : Term} {p : PeerId} {X Y : Log α}
    (h : Held ds T p X) (hY : Y <+: X) : Held ds T p Y := by
  obtain ⟨d, hd, k, hk, hterm, hX⟩ := h
  exact ⟨d, hd, k, hk, hterm, hY.trans hX⟩

theorem Chosen.mono {size : Nat} {ds es : List (Cluster α)} {T : Term} {X : Log α}
    (h : Chosen size ds T X) (hsub : ds ⊆ es) : Chosen size es T X := by
  obtain ⟨⟨i, L, hL, hX⟩, hlast, votes, hmajority, hheld⟩ := h
  exact ⟨⟨i, L, hL.mono hsub, hX⟩, hlast, votes, hmajority, fun p hp => (hheld p hp).mono hsub⟩

theorem Genuine.whole {ds : List (Cluster α)} {F : Log α} (h : Genuine ds F) {e : Entry α}
    (he : F.getLast? = some e) : ∃ i L, Led ds e.term i L ∧ F <+: L := by
  rw [List.getLast?_eq_getElem?] at he
  obtain ⟨i, L, hL, hpre⟩ := h _ e he
  have hlength := (List.getElem?_eq_some_iff.mp he).1
  rw [Nat.sub_add_cancel (by omega), List.take_length] at hpre
  exact ⟨i, L, hL, hpre⟩

section Completeness

variable {rule : Rule α} {size : Nat} {c d : Cluster α} {past es : List (Cluster α)} {T T' : Term}
  {X D : Log α}

/-- A moment at which a node was in an earlier term is an earlier moment. -/
theorem Run.mem_of_term_lt (h : Run rule size c past)
    (hrule : ∀ c n e, rule c n e → inRange c n e) {before : List (Cluster α)}
    (hsuffix : d :: before <:+ c :: past) {d' : Cluster α} (hd' : d' ∈ c :: past) {p : PeerId}
    {k k' : Node α} (hk : d.nodes[p]? = some k) (hk' : d'.nodes[p]? = some k')
    (hlt : k'.term < k.term) : d' ∈ d :: before := by
  induction h with
  | start =>
      rcases List.suffix_cons_iff.mp hsuffix with heq | hnil
      · rw [heq]
        exact hd'
      · cases List.suffix_nil.mp hnil
  | @move c past m hrun hm ih =>
      rcases List.suffix_cons_iff.mp hsuffix with heq | hold
      · rw [heq]
        exact hd'
      · rcases List.mem_cons.mp hd' with rfl | hpast
        · have hd : d ∈ c.play m :: c :: past := List.mem_cons_of_mem _ (hold.subset List.mem_cons_self)
          obtain ⟨k₀, hk₀, hbefore⟩ := (Run.move m hrun hm).before hrule d hd p k hk
          obtain rfl := Option.some.inj (hk'.symm.trans hk₀)
          exact absurd hbefore.term_le (Nat.not_le.mpr hlt)
        · exact ih hold hpast

/-- Who has held `X` in the term `T` and votes in a later one votes with a log that still begins
with `X`, if all leaders so far of the terms in between have it. -/
theorem Chosen.voter_keeps (h : Run rule size c past)
    (hrule : ∀ c n e, rule c n e → inRange c n e ∧ undisputed c n e)
    (hX : Chosen size (c :: past) T X) (hsuffix : d :: es <:+ c :: past)
    (hpast : ∀ U s L, Led es U s L → T < U → X <+: L) {p q : PeerId}
    (hheld : Held (c :: past) T p X) (hvoted : Voted Log.UpToDate (d :: es) T' D p q)
    (hlt : T < T') : ∃ W, X <+: W ∧ D.UpToDate W ∧ Genuine (c :: past) W ∧
      W.Pairwise fun e f => e.term ≤ f.term := by
  have hrange := h.mono (fun c n e h => (hrule c n e h).1)
  obtain ⟨d₁, hd₁, k₁, hk₁, rfl, hX₁⟩ := hheld
  obtain ⟨d₂, hd₂, k₂, hk₂, rfl, -, hgood⟩ := hvoted
  obtain ⟨before, hrun₂, hsuffix₂⟩ := (h.of_suffix hsuffix).of_mem hd₂
  have hwhole := hsuffix₂.trans hsuffix
  have hmem : d₁ ∈ d₂ :: before :=
    h.mem_of_term_lt (fun c n e h => (hrule c n e h).1) hwhole hd₁ hk₂ hk₁ hlt
  have hd₂' := hsuffix.subset hd₂
  refine ⟨k₂.log, ?_, hgood, h.genuine hrule d₂ hd₂' p k₂ hk₂,
    (h.dated hrule d₂ hd₂' p k₂ hk₂).sorted⟩
  rcases hrun₂.keeps_or_clashes hrule d₁ hmem p k₁ k₂ X hk₁ hX₁ hk₂ with
    hkept | ⟨U, s, L, hL, hlo, -, hclash⟩
  · exact hkept
  · have hbefore : before ⊆ es := by
      rcases List.suffix_cons_iff.mp hsuffix₂ with heq | hold
      · rw [(List.cons.inj heq).2]
        exact List.Subset.refl _
      · exact fun x hx => hold.subset (List.mem_cons_of_mem _ hx)
    rcases Nat.lt_or_eq_of_le hlo with hlater | rfl
    · exact absurd (hpast U s L (hL.mono hbefore) hlater) hclash.1
    · obtain ⟨i, L₀, hL₀, hXL₀⟩ := hX.led
      have hes : es ⊆ c :: past := fun x hx => hsuffix.subset (List.mem_cons_of_mem _ hx)
      exact absurd hclash (hL₀.not_clash hrange ((hL.mono hbefore).mono hes) hXL₀)

/-- The log of a leader is genuine and its terms do not fall. -/
theorem Led.sorted (h : Run rule size c past)
    (hrule : ∀ c n e, rule c n e → inRange c n e ∧ undisputed c n e) {i : PeerId} {L : Log α}
    (hL : Led (c :: past) T i L) : L.Pairwise fun e f => e.term ≤ f.term := by
  obtain ⟨d, hd, n, hn, -, -, rfl⟩ := hL
  exact (h.dated hrule d hd i n hn).sorted

/-- A log at least as current as one that begins with `X` begins with `X` itself, if all leaders so
far of the terms between `T` and the candidate's have it. -/
theorem Chosen.prefix_of_upToDate (h : Run rule size c past)
    (hrule : ∀ c n e, rule c n e → inRange c n e ∧ undisputed c n e)
    (hX : Chosen size (c :: past) T X) (hsuffix : d :: es <:+ c :: past)
    (hearlier : ∀ U s L, U < T' → Led (d :: es) U s L → T < U → X <+: L) {W : Log α}
    (hXW : X <+: W) (hW : Genuine (c :: past) W)
    (hsorted : W.Pairwise fun e f => e.term ≤ f.term) (hcurrent : D.UpToDate W) {q : PeerId}
    (hstood : ∃ d₀ ∈ d :: es, ∃ k, d₀.nodes[q]? = some k ∧ k.log = D ∧
      (k.term < T' ∨ k.term = T' ∧ k.role.kind = .candidate)) : X <+: D := by
  have hrange := h.mono (fun c n e h => (hrule c n e h).1)
  obtain ⟨x, hx, hxT⟩ := hX.last
  have hXterm : X.lastTerm = T := (Log.lastTerm_of_getLast? hx).trans hxT
  have hX0 : X ≠ [] := by
    rintro rfl
    cases hx
  have hW0 : W ≠ [] := by
    rintro rfl
    exact hX0 (List.prefix_nil.mp hXW)
  obtain ⟨d₀, hd₀, k, hk, rfl, hbound⟩ := hstood
  have hd₀' := hsuffix.subset hd₀
  have hdated := h.dated hrule d₀ hd₀' q k hk
  have hTW := Log.lastTerm_le_of_isPrefix hsorted hXW
  rcases hcurrent with hlt | ⟨hsame, hlong⟩
  · have hD0 : k.log ≠ [] := by
      intro hnil
      rw [hnil] at hlt
      cases hlt
    obtain ⟨e, he⟩ := Log.getLast?_of_ne_nil hD0
    have heterm : e.term < T' := by
      have hmem := List.mem_of_getLast? he
      rcases hbound with hearly | ⟨hterm, hcand⟩
      · have hle := hdated.bounded e hmem
        lia
      · rw [← hterm]
        exact hdated.fresh hcand e hmem
    rw [Log.lastTerm_of_getLast? he] at hlt
    obtain ⟨before, hrun₀, hsuffix₀⟩ := (h.of_suffix hsuffix).of_mem hd₀
    obtain ⟨s, L, hL, hDL⟩ := (hrun₀.genuine hrule d₀ List.mem_cons_self q k hk).whole he
    have hLd : Led (d :: es) e.term s L := hL.mono hsuffix₀.subset
    have hXL : X <+: L := hearlier e.term s L heterm hLd (by lia)
    have hsortedL := (hLd.mono hsuffix.subset).sorted h hrule
    refine Log.prefix_of_lastTerm_lt hsortedL hXL hDL ?_
    rw [Log.lastTerm_of_getLast? he]
    lia
  · have hD0 : k.log ≠ [] := by
      intro hnil
      rw [hnil] at hlong
      exact hW0 (List.length_eq_zero_iff.mp (Nat.le_zero.mp hlong))
    obtain ⟨w, hw⟩ := Log.getLast?_of_ne_nil hW0
    obtain ⟨e, he⟩ := Log.getLast?_of_ne_nil hD0
    obtain ⟨i, L, hL, hWL⟩ := hW.whole hw
    obtain ⟨j, M, hM, hDM⟩ := (h.genuine hrule d₀ hd₀' q k hk).whole he
    rw [Log.lastTerm_of_getLast? hw, Log.lastTerm_of_getLast? he] at hsame
    rw [← hsame] at hM
    have hWD : W <+: k.log := by
      rcases hL.comparable hrange hM with hLM | hML
      · exact List.prefix_of_prefix_length_le (hWL.trans hLM) hDM hlong
      · exact List.prefix_of_prefix_length_le hWL (hDM.trans hML) hlong
    exact hXW.trans hWD

/-- Leader completeness: whoever leads a later term has what a majority has chosen. -/
theorem Chosen.prefix_of_led (h : Run rule size c past)
    (hrule : ∀ c n e, rule c n e → inRange c n e ∧ undisputed c n e)
    (hvets : rule.Vets Log.UpToDate) (hX : Chosen size (c :: past) T X) {j : PeerId} {L : Log α}
    (hL : Led (c :: past) T' j L) (hlt : T < T') : X <+: L := by
  -- The outer induction follows the run, the inner one the terms led in its last state.
  have hall : ∀ es, es <:+ c :: past → ∀ U s M, Led es U s M → T < U → X <+: M := by
    intro es
    induction es with
    | nil =>
        rintro - U s M ⟨d, hd, -⟩ -
        cases hd
    | cons d es ih =>
        intro hsuffix U
        have hpast := ih ((List.suffix_cons d es).trans hsuffix)
        have hrun := h.of_suffix hsuffix
        induction U using Nat.strong_induction_on with
        | _ U ihU =>
            rintro s M ⟨d', hd', n, hn, hleader, rfl, rfl⟩ hlater
            rcases List.mem_cons.mp hd' with rfl | hold
            · obtain ⟨D, hD, helected⟩ := (hrun.ballots hvets).elected s n hn hleader
              obtain ⟨votes, hmajority, hvotes⟩ := helected.votes
              obtain ⟨holders, hholders, hheld⟩ := hX.held
              obtain ⟨p, hp, hp'⟩ := Tally.exists_shared hholders hmajority
                (fun p hp => by
                  obtain ⟨d₁, hd₁, k, hk, -⟩ := hheld p hp
                  obtain ⟨_, hrun₁, -⟩ := h.of_mem hd₁
                  exact (hrun₁.seat p k hk).1)
                (fun p hp => (hvotes p hp).lt_size hrun)
              obtain ⟨W, hXW, hcurrent, hW, hsorted⟩ :=
                hX.voter_keeps h hrule hsuffix hpast (hheld p hp) (hvotes p hp') hlater
              have hXD := hX.prefix_of_upToDate h hrule hsuffix
                (fun U' s' M' hU hM => ihU U' hU s' M' hM) hXW hW hsorted hcurrent helected.stood
              exact hXD.trans hD
            · exact hpast n.term s n.log ⟨d', hold, n, hn, hleader, rfl, rfl⟩ hlater
  exact hall (c :: past) List.suffix_rfl T' j L hL hlt

/-- Of two chosen logs one begins with the other. -/
theorem Chosen.comparable (h : Run rule size c past)
    (hrule : ∀ c n e, rule c n e → inRange c n e ∧ undisputed c n e)
    (hvets : rule.Vets Log.UpToDate) {Y : Log α} (hX : Chosen size (c :: past) T X)
    (hY : Chosen size (c :: past) T' Y) : X <+: Y ∨ Y <+: X := by
  obtain ⟨i, L, hL, hXL⟩ := hX.led
  obtain ⟨j, M, hM, hYM⟩ := hY.led
  rcases Nat.lt_trichotomy T T' with hlt | rfl | hlt
  · exact List.prefix_or_prefix_of_prefix (hX.prefix_of_led h hrule hvets hM hlt) hYM
  · rcases hL.comparable (h.mono fun c n e h => (hrule c n e h).1) hM with hLM | hML
    · exact List.prefix_or_prefix_of_prefix (hXL.trans hLM) hYM
    · exact List.prefix_or_prefix_of_prefix hXL (hYM.trans hML)
  · exact List.prefix_or_prefix_of_prefix hXL (hY.prefix_of_led h hrule hvets hL hlt)

end Completeness

end Quorum
