import Quorum.Proofs.LogMatching

/-!
What a log keeps. Terms never fall along a log, and whatever a log once begins with it goes on to
begin with, unless a leader of the same or a later term has written something else over it.
-/

namespace Quorum

variable {α : Type}

/-- Two logs of which neither begins with the other. -/
def Log.Clash (X L : Log α) : Prop := ¬ X <+: L ∧ ¬ L <+: X

/-- What a leader of a term has had clashes with no log of a leader of the term. -/
theorem Led.not_clash {size : Nat} {c : Cluster α} {past : List (Cluster α)}
    (h : Run inRange size c past) {T : Term} {i j : PeerId} {L M X : Log α}
    (hL : Led (c :: past) T i L) (hM : Led (c :: past) T j M) (hX : X <+: L) : ¬ X.Clash M := by
  rintro ⟨hno, hno'⟩
  rcases hL.comparable h hM with hLM | hML
  · exact hno (hX.trans hLM)
  · rcases List.prefix_or_prefix_of_prefix hX hML with hXM | hMX
    · exact hno hXM
    · exact hno' hMX

/-- The terms of a node's entries: none is later than the node's own, none falls along the log,
and those of a candidate are earlier than the term it stands for. -/
structure Node.Dated (n : Node α) : Prop where
  bounded : ∀ e ∈ n.log, e.term ≤ n.term
  fresh : n.role.kind = .candidate → ∀ e ∈ n.log, e.term < n.term
  sorted : n.log.Pairwise fun e f => e.term ≤ f.term

variable {rule : Rule α} {size : Nat} {c c' : Cluster α} {past : List (Cluster α)} {i : PeerId}
  {n : Node α} {e : Event α}

/-- Whoever is no follower after an event has just begun to stand, or was a candidate or in the
same role before, in the same term. -/
theorem Node.office_before (hrange : inRange c n e)
    (hoffice : (n.after e).role.kind ≠ .follower) :
    n.term < (n.after e).term ∨ (n.after e).term = n.term ∧
      (n.role.kind = .candidate ∨ n.role.kind = (n.after e).role.kind) := by
  cases n.after_shift e with
  | stay h => exact Or.inr ⟨h.term, Or.inr h.kind.symm⟩
  | vote args he hargs hfree h => exact Or.inr ⟨h.term, Or.inr h.kind.symm⟩
  | adopt _ _ hlater => exact Or.inl hlater
  | yield _ _ _ _ _ _ _ _ hkind => exact absurd hkind hoffice
  | stand _ _ hterm => exact Or.inl (Term.lt_of_next hterm hrange.1)
  | count votes sender reply he hgranted hrole h =>
      refine Or.inr ⟨h.term, Or.inl ?_⟩
      rw [hrole]
      rfl
  | win votes sender reply he hgranted hrole hmajority _ _ hterm =>
      refine Or.inr ⟨hterm, Or.inl ?_⟩
      rw [hrole]
      rfl

/-- All entries of a node that begins to stand, or goes on to, or has come to lead, are of earlier
terms. -/
theorem Node.Dated.earlier (hn : n.Dated) (hrange : inRange c n e)
    (hoffice : (n.after e).role.kind ≠ .follower)
    (hnew : n.role.kind = (n.after e).role.kind → n.role.kind = .candidate) :
    ∀ f ∈ n.log, f.term < (n.after e).term := by
  intro f hf
  rcases Node.office_before hrange hoffice with hlater | ⟨hsame, hkind⟩
  · have hle := hn.bounded f hf
    lia
  · rw [hsame]
    exact hn.fresh (hkind.elim (fun hcand => hcand) hnew) f hf

theorem Cluster.Acts.dated (h : Run rule size c past)
    (hrule : ∀ c n e, rule c n e → inRange c n e ∧ undisputed c n e) (hact : c.Acts i n e c')
    (hobey : rule c n e)
    (hlogs : ∀ d ∈ c :: past, ∀ (p : PeerId) m, d.nodes[p]? = some m → m.Dated) :
    (n.after e).Dated := by
  obtain ⟨hrange, hundisputed⟩ := hrule _ _ _ hobey
  have hn := hlogs c List.mem_cons_self i n hact.node
  have hterm := (Node.after_before hrange).term_le
  have hfresh (hcand : (n.after e).role.kind = .candidate) :
      ∀ f ∈ (n.after e).log, f.term < (n.after e).term := by
    intro f hf
    rw [(n.after_writes e).of_candidate (n.after_shift e) hcand] at hf
    refine hn.earlier hrange ?_ (fun hkind => hkind.trans hcand) f hf
    rw [hcand]
    exact RoleKind.noConfusion
  cases n.after_writes e with
  | keep hlog =>
      refine ⟨?_, hfresh, by rw [hlog]; exact hn.sorted⟩
      intro f hf
      rw [hlog] at hf
      exact Nat.le_trans (hn.bounded f hf) hterm
  | store command he hleader hlog =>
      refine ⟨?_, hfresh, ?_⟩
      · intro f hf
        rw [hlog] at hf
        rcases List.mem_append.mp hf with hold | hnew
        · exact Nat.le_trans (hn.bounded f hold) hterm
        · obtain rfl := List.mem_singleton.mp hnew
          exact hterm
      · rw [hlog, List.pairwise_append]
        refine ⟨hn.sorted, List.pairwise_singleton _ _, ?_⟩
        intro f hf g hg
        obtain rfl := List.mem_singleton.mp hg
        exact hn.bounded f hf
  | accept args log pos he hle hargs hrole hfit hlog =>
      subst he
      cases hact.cause with
      | appendRequest hp =>
          have hship := (h.mono fun c n e h => (hrule c n e h).1).shipping
          obtain ⟨L, start, hsent⟩ := hship.request _ _ _ _ hp
          obtain ⟨d, hd, l, hl, -, hlterm, rfl⟩ := id hsent.led
          have hsource := hlogs d hd _ l hl
          have hpart {G : Log α} (hsub : G.Sublist n.log ∨ G.Sublist l.log) :
              (∀ f ∈ G, f.term ≤ args.term) ∧ G.Pairwise fun e f => e.term ≤ f.term := by
            rcases hsub with hsub | hsub
            · refine ⟨?_, hn.sorted.sublist hsub⟩
              intro f hf
              exact Nat.le_trans (hn.bounded f (hsub.subset hf)) hle
            · refine ⟨?_, hsource.sorted.sublist hsub⟩
              intro f hf
              rw [← hlterm]
              exact hsource.bounded f (hsub.subset hf)
          have hresult : (∀ f ∈ (n.after (.appendRequest args)).log, f.term ≤ args.term) ∧
              (n.after (.appendRequest args)).log.Pairwise fun e f => e.term ≤ f.term := by
            rw [hlog]
            rcases h.merge_cases hrule hact.node hundisputed hle hsent.led hsent.piece hfit with
              ⟨-, hmerge⟩ | ⟨-, hmerge⟩ | ⟨-, hmerge, -⟩
            · rw [hmerge]
              exact hpart (Or.inl (List.Sublist.refl _))
            · rw [hmerge]
              exact hpart (Or.inr (List.take_sublist _ _))
            · rw [hmerge]
              exact hpart (Or.inl (List.take_sublist _ _))
          refine ⟨?_, hfresh, hresult.2⟩
          rw [hargs]
          exact hresult.1

/-- The logs of a run are dated. -/
theorem Run.dated (h : Run rule size c past)
    (hrule : ∀ c n e, rule c n e → inRange c n e ∧ undisputed c n e) :
    ∀ d ∈ c :: past, ∀ (p : PeerId) m, d.nodes[p]? = some m → m.Dated := by
  refine h.invariant (P := fun c past =>
    ∀ d ∈ c :: past, ∀ (p : PeerId) m, d.nodes[p]? = some m → m.Dated) ?_ ?_ ?_
  · intro d hd p m hm
    obtain rfl := List.mem_singleton.mp hd
    obtain ⟨-, rfl⟩ := Cluster.fresh_node hm
    refine ⟨?_, ?_, List.Pairwise.nil⟩
    · intro e he
      cases he
    · intro _ e he
      cases he
  · intro c past c' _ ih hrest d hd p m hm
    rcases List.mem_cons.mp hd with rfl | hold
    · rw [hrest.nodes] at hm
      exact ih c List.mem_cons_self p m hm
    · exact ih d hold p m hm
  · intro c past i n e c' hrun ih hact hobey d hd p m hm
    rcases List.mem_cons.mp hd with rfl | hold
    · rcases hact.node_cases hm with ⟨-, rfl⟩ | ⟨-, hsame⟩
      · exact hact.dated hrun hrule hobey ih
      · exact ih c List.mem_cons_self p m hsame
    · exact ih d hold p m hm

/-- What a log begins with survives an event, or clashes with the log of a leader of the term that
the event leads to. -/
theorem Cluster.Acts.keeps_or_clashes (h : Run rule size c past)
    (hrule : ∀ c n e, rule c n e → inRange c n e ∧ undisputed c n e) (hact : c.Acts i n e c')
    (hobey : rule c n e) {X : Log α} (hX : X <+: n.log) :
    X <+: (n.after e).log ∨
      ∃ s L, Led (c :: past) (n.after e).term s L ∧ X.Clash L := by
  cases n.after_writes e with
  | keep hlog =>
      rw [hlog]
      exact Or.inl hX
  | store command he hleader hlog =>
      rw [hlog]
      exact Or.inl (hX.trans (List.prefix_append _ _))
  | accept args log pos he hle hargs hrole hfit hlog =>
      subst he
      cases hact.cause with
      | appendRequest hp =>
          have hship := (h.mono fun c n e h => (hrule c n e h).1).shipping
          obtain ⟨L, start, hsent⟩ := hship.request _ _ _ _ hp
          have hcases := h.merge_cases hrule hact.node (hrule _ _ _ hobey).2 hle hsent.led
            hsent.piece hfit
          rw [hargs]
          rw [← hlog] at hcases
          rcases hcases with ⟨-, hkept⟩ | ⟨hnew, hput⟩ | ⟨-, hcut, f, g, hf, hg, hne, -⟩
          · rw [hkept]
            exact Or.inl hX
          · by_cases hXL : X <+: L
            · rcases Nat.le_total X.length (args.reach start) with hshort | hlong
              · rw [hput]
                exact Or.inl (List.prefix_take_iff.mpr ⟨hXL, hshort⟩)
              · have hpiece : (L.take (args.reach start)).length ≤ X.length := by
                  rw [List.length_take]
                  omega
                have hback := List.prefix_of_prefix_length_le (List.take_prefix _ L) hXL hpiece
                exact absurd (hback.trans hX) hnew
            · refine Or.inr ⟨_, L, hsent.led, hXL, ?_⟩
              intro hLX
              exact hnew (((List.take_prefix _ L).trans hLX).trans hX)
          · rcases Nat.lt_or_ge (start - 1) X.length with hlong | hshort
            · have hXf : X[start - 1]? = some f := by
                have hsome := List.getElem?_eq_getElem hlong
                have hsame := Log.getElem?_of_isPrefix hX hsome
                rw [hsome, ← hsame, hf]
              refine Or.inr ⟨_, L, hsent.led, ?_, ?_⟩
              · intro hXL
                have hLf := Log.getElem?_of_isPrefix hXL hXf
                rw [hg] at hLf
                exact hne (congrArg Entry.term (Option.some.inj hLf).symm)
              · intro hLX
                have hXg := Log.getElem?_of_isPrefix hLX hg
                rw [hXf] at hXg
                exact hne (congrArg Entry.term (Option.some.inj hXg))
            · rw [hcut]
              exact Or.inl (List.prefix_take_iff.mpr ⟨hX, hshort⟩)

/-- What a log began with at an earlier moment it still begins with, or it clashes with the log of
a leader of a term in between. -/
theorem Run.keeps_or_clashes (h : Run rule size c past)
    (hrule : ∀ c n e, rule c n e → inRange c n e ∧ undisputed c n e) :
    ∀ d ∈ c :: past, ∀ (p : PeerId) (k m : Node α) (X : Log α), d.nodes[p]? = some k →
      X <+: k.log → c.nodes[p]? = some m → X <+: m.log ∨
        ∃ T s L, Led past T s L ∧ k.term ≤ T ∧ T ≤ m.term ∧ X.Clash L := by
  refine h.invariant (P := fun c past => ∀ d ∈ c :: past, ∀ (p : PeerId) (k m : Node α)
    (X : Log α), d.nodes[p]? = some k → X <+: k.log → c.nodes[p]? = some m → X <+: m.log ∨
      ∃ T s L, Led past T s L ∧ k.term ≤ T ∧ T ≤ m.term ∧ X.Clash L) ?_ ?_ ?_
  · intro d hd p k m X hk hX hm
    obtain rfl := List.mem_singleton.mp hd
    obtain rfl := Option.some.inj (hk.symm.trans hm)
    exact Or.inl hX
  · intro c past c' hrun ih hrest d hd p k m X hk hX hm
    rcases List.mem_cons.mp hd with rfl | hold
    · obtain rfl := Option.some.inj (hk.symm.trans hm)
      exact Or.inl hX
    · rw [hrest.nodes] at hm
      rcases ih d hold p k m X hk hX hm with hkept | ⟨T, s, L, hL, hclash⟩
      · exact Or.inl hkept
      · exact Or.inr ⟨T, s, L, hL.cons, hclash⟩
  · intro c past i n e c' hrun ih hact hobey d hd p k m X hk hX hm
    have hrange := (hrule _ _ _ hobey).1
    rcases List.mem_cons.mp hd with rfl | hold
    · obtain rfl := Option.some.inj (hk.symm.trans hm)
      exact Or.inl hX
    · rcases hact.node_cases hm with ⟨rfl, rfl⟩ | ⟨-, hsame⟩
      · have hstep := (Node.after_before hrange).term_le
        rcases ih d hold p k n X hk hX hact.node with hkept | ⟨T, s, L, hL, hlo, hhi, hclash⟩
        · rcases hact.keeps_or_clashes hrun hrule hobey hkept with hnow | ⟨s, L, hL, hclash⟩
          · exact Or.inl hnow
          · obtain ⟨n₀, hn₀, hbefore⟩ :=
              hrun.before (fun c n e h => (hrule c n e h).1) d hold p k hk
            obtain rfl := Option.some.inj (hact.node.symm.trans hn₀)
            have hpast := hbefore.term_le
            exact Or.inr ⟨_, s, L, hL, by lia, Nat.le_refl _, hclash⟩
        · exact Or.inr ⟨T, s, L, hL.cons, hlo, by lia, hclash⟩
      · rcases ih d hold p k m X hk hX hsame with hkept | ⟨T, s, L, hL, hclash⟩
        · exact Or.inl hkept
        · exact Or.inr ⟨T, s, L, hL.cons, hclash⟩

end Quorum
