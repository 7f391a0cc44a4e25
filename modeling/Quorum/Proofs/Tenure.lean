import Quorum.Proofs.Shipping

/-!
The log of a leader over its whole term. A leader holds its office as long as its term stands and
only adds to its log, so that all logs it has ever led the term with are prefixes of one another.
No entry is of a later term than the node that holds it.
-/

namespace Quorum

variable {α : Type} {size : Nat} {c : Cluster α} {past : List (Cluster α)}

/-- A term is led by one member. -/
theorem Led.leader_unique (h : Run inRange size c past) {T : Term} {i j : PeerId} {L M : Log α}
    (hL : Led (c :: past) T i L) (hM : Led (c :: past) T j M) : i = j := by
  obtain ⟨d₁, hd₁, n₁, hn₁, hlead₁, hterm₁, -⟩ := hL
  obtain ⟨d₂, hd₂, n₂, hn₂, hlead₂, hterm₂, -⟩ := hM
  exact h.leader_eq inRange_vets (fun _ _ _ h => h) hd₁ hd₂ ⟨n₁, hn₁, hlead₁, hterm₁⟩
    ⟨n₂, hn₂, hlead₂, hterm₂⟩

/-- An event does not take a leader out of its office within the term. -/
theorem Cluster.Acts.holds_office {c c' : Cluster α} (h : Run inRange size c past) {i : PeerId}
    {n : Node α} {e : Event α} (hact : c.Acts i n e c') (hobey : inRange c n e)
    (hleader : n.isLeader) (hterm : (n.after e).term = n.term) : (n.after e).isLeader := by
  have hkind : n.role.kind = .leader := Role.isLeader_iff.mp hleader
  have hkept (hsame : (n.after e).role.kind = n.role.kind) : (n.after e).isLeader :=
    Role.isLeader_iff.mpr (hsame.trans hkind)
  cases n.after_shift e with
  | stay h' => exact hkept h'.kind
  | vote args he hargs hfree h' => exact hkept h'.kind
  | adopt _ _ hlater => exact absurd hterm (Nat.ne_of_gt hlater)
  | yield args he hargs =>
      subst he
      cases hact.cause with
      | appendRequest hp =>
          obtain ⟨L, start, hsent⟩ := h.shipping.request _ _ _ _ hp
          have hmine : Led (c :: past) args.term i n.log :=
            ⟨c, List.mem_cons_self, n, hact.node, hleader, hargs.symm, rfl⟩
          exact absurd (hsent.led.leader_unique h hmine) hsent.other
  | stand _ _ _ _ hold => exact absurd hkind hold
  | count votes sender reply he hgranted hrole => rw [hrole] at hkind; cases hkind
  | win votes sender reply he hgranted hrole => rw [hrole] at hkind; cases hkind

/-- A leader holds on as long as its term stands, and has only added to its log. -/
theorem Run.tenure (h : Run inRange size c past) :
    ∀ (T : Term) (i : PeerId) (L : Log α), Led (c :: past) T i L →
      ∀ n, c.nodes[i]? = some n → n.term = T → n.isLeader ∧ L <+: n.log := by
  have hnow {d : Cluster α} {i : PeerId} {L : Log α} {n m : Node α}
      (hn : d.nodes[i]? = some n) (hm : d.nodes[i]? = some m) (hlead : m.isLeader)
      (hlog : m.log = L) : n.isLeader ∧ L <+: n.log := by
    obtain rfl := Option.some.inj (hn.symm.trans hm)
    exact ⟨hlead, hlog ▸ List.prefix_rfl⟩
  refine h.invariant (P := fun c past => ∀ (T : Term) (i : PeerId) (L : Log α),
    Led (c :: past) T i L → ∀ n, c.nodes[i]? = some n → n.term = T →
      n.isLeader ∧ L <+: n.log) ?_ ?_ ?_
  · rintro T i L ⟨d, hd, m, hm, hlead, -, hlog⟩ n hn -
    obtain rfl := List.mem_singleton.mp hd
    exact hnow hn hm hlead hlog
  · rintro c past c' - ih hrest T i L ⟨d, hd, m, hm, hlead, hterm, hlog⟩ n hn hT
    rcases List.mem_cons.mp hd with rfl | hold
    · exact hnow hn hm hlead hlog
    · rw [hrest.nodes] at hn
      exact ih T i L ⟨d, hold, m, hm, hlead, hterm, hlog⟩ n hn hT
  · rintro c past k n e c' hrun ih hact hobey T i L ⟨d, hd, m, hm, hlead, hterm, hlog⟩ n' hn' hT
    rcases List.mem_cons.mp hd with rfl | hold
    · exact hnow hn' hm hlead hlog
    · rcases hact.node_cases hn' with ⟨rfl, rfl⟩ | ⟨-, hsame⟩
      · obtain ⟨n₀, hn₀, hbefore⟩ := hrun.before (fun _ _ _ h => h) d hold i m hm
        obtain rfl := Option.some.inj (hact.node.symm.trans hn₀)
        have hstep := (Node.after_before hobey).term_le
        have hpast := hbefore.term_le
        have hn : n.term = T := by lia
        obtain ⟨hleader, hL⟩ := ih T i L ⟨d, hold, m, hm, hlead, hterm, hlog⟩ n hact.node hn
        have hstill := hact.holds_office hrun hobey hleader (by lia)
        exact ⟨hstill, hL.trans ((n.after_writes e).of_leader hstill)⟩
      · exact ih T i L ⟨d, hold, m, hm, hlead, hterm, hlog⟩ n' hsame hT

/-- The logs with which a term has been led are prefixes of one another. -/
theorem Led.comparable (h : Run inRange size c past) {T : Term} {i j : PeerId} {L M : Log α}
    (hL : Led (c :: past) T i L) (hM : Led (c :: past) T j M) : L <+: M ∨ M <+: L := by
  obtain rfl := hL.leader_unique h hM
  induction h with
  | start =>
      obtain ⟨d₁, hd₁, n₁, hn₁, -, -, rfl⟩ := hL
      obtain ⟨d₂, hd₂, n₂, hn₂, -, -, rfl⟩ := hM
      obtain rfl := List.mem_singleton.mp hd₁
      obtain rfl := List.mem_singleton.mp hd₂
      obtain rfl := Option.some.inj (hn₁.symm.trans hn₂)
      exact Or.inl List.prefix_rfl
  | @move c past m hrun hm ih =>
      have htenure := (Run.move m hrun hm).tenure
      obtain ⟨d₁, hd₁, n₁, hn₁, hlead₁, hterm₁, hlog₁⟩ := id hL
      obtain ⟨d₂, hd₂, n₂, hn₂, hlead₂, hterm₂, hlog₂⟩ := id hM
      rcases List.mem_cons.mp hd₁ with rfl | hold₁
      · subst hlog₁
        exact Or.inr (htenure T i M hM n₁ hn₁ hterm₁).2
      · rcases List.mem_cons.mp hd₂ with rfl | hold₂
        · subst hlog₂
          exact Or.inl (htenure T i L hL n₂ hn₂ hterm₂).2
        · exact ih ⟨d₁, hold₁, n₁, hn₁, hlead₁, hterm₁, hlog₁⟩
            ⟨d₂, hold₂, n₂, hn₂, hlead₂, hterm₂, hlog₂⟩

end Quorum
