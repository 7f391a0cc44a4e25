import Mathlib.Data.List.Perm.Subperm
import Quorum.Proofs.Candidacy
import Quorum.Proofs.Emission
import Quorum.Proofs.Writing

/-!
Election safety: a term has at most one leader in the whole course of a run. A member votes once in
a term, a vote is counted only in the term it was given for, and two majorities share a member.
-/

namespace Quorum

variable {α : Type}

/-- No term reaches its last value and no generation counter starts over. -/
def inRange : Rule α := fun _ n e =>
  (n.after e).term < Term.last ∧ n.generation ≤ (n.after e).generation

instance (c : Cluster α) (n : Node α) (e : Event α) : Decidable (inRange c n e) :=
  inferInstanceAs (Decidable (_ ∧ _))

theorem Term.lt_of_next {t u : Term} (hu : u = t.next) (hlast : u < Term.last) : t < u := by
  unfold Term.next at hu
  split at hu <;> lia

/-- How a node at a later moment compares to itself at an earlier one. Within a generation its
term and role stay; a candidate keeps its log then, and a leader only adds to it. -/
structure Node.Before (n m : Node α) : Prop where
  term_le : n.term ≤ m.term
  generation_le : n.generation ≤ m.generation
  vote : m.term = n.term → ∀ q, n.votedFor = some q → m.votedFor = some q
  term_eq : m.generation = n.generation → m.term = n.term
  kind_eq : m.generation = n.generation → m.role.kind = n.role.kind
  candidate_log : m.generation = n.generation → m.role.kind = .candidate → m.log = n.log
  leader_log : m.generation = n.generation → m.isLeader → n.log <+: m.log

namespace Node.Before

variable {n m k : Node α}

theorem refl (n : Node α) : n.Before n where
  term_le := Nat.le_refl _
  generation_le := Nat.le_refl _
  vote := fun _ _ h => h
  term_eq := fun _ => rfl
  kind_eq := fun _ => rfl
  candidate_log := fun _ _ => rfl
  leader_log := fun _ _ => List.prefix_rfl

theorem isLeader (h : n.Before m) (hgen : m.generation = n.generation) (hm : m.isLeader) :
    n.isLeader :=
  Role.isLeader_iff.mpr ((h.kind_eq hgen).symm.trans (Role.isLeader_iff.mp hm))

theorem trans (h : n.Before m) (h' : m.Before k) : n.Before k := by
  have hbetween : k.generation = n.generation →
      k.generation = m.generation ∧ m.generation = n.generation := by
    intro hgen
    have hm := h.generation_le
    have hk := h'.generation_le
    constructor
    · lia
    · lia
  refine ⟨Nat.le_trans h.term_le h'.term_le, Nat.le_trans h.generation_le h'.generation_le,
    ?_, ?_, ?_, ?_, ?_⟩
  · intro hterm q hq
    have hm := h.term_le
    have hk := h'.term_le
    exact h'.vote (by lia) q (h.vote (by lia) q hq)
  · intro hgen
    obtain ⟨hkm, hmn⟩ := hbetween hgen
    rw [h'.term_eq hkm, h.term_eq hmn]
  · intro hgen
    obtain ⟨hkm, hmn⟩ := hbetween hgen
    rw [h'.kind_eq hkm, h.kind_eq hmn]
  · intro hgen hk
    obtain ⟨hkm, hmn⟩ := hbetween hgen
    have hm : m.role.kind = .candidate := (h'.kind_eq hkm).symm.trans hk
    rw [h'.candidate_log hkm hk, h.candidate_log hmn hm]
  · intro hgen hk
    obtain ⟨hkm, hmn⟩ := hbetween hgen
    exact (h.leader_log hmn (h'.isLeader hkm hk)).trans (h'.leader_log hkm hk)

/-- A new generation, with a term that has not gone back. -/
theorem of_precedes (hprec : n.generation.Precedes m.generation)
    (hle : n.generation ≤ m.generation) (hterm : n.term ≤ m.term)
    (hvote : m.term = n.term → m.votedFor = n.votedFor) : n.Before m := by
  have hnot : m.generation ≠ n.generation := Nat.ne_of_gt (hprec.lt hle)
  refine ⟨hterm, hle, ?_, fun h => absurd h hnot, fun h => absurd h hnot,
    fun h => absurd h hnot, fun h => absurd h hnot⟩
  intro hsame q hq
  rw [hvote hsame, hq]

end Node.Before

/-- Within the range of the counters every event takes a node forward. -/
theorem Node.after_before {c : Cluster α} {n : Node α} {e : Event α} (h : inRange c n e) :
    n.Before (n.after e) := by
  obtain ⟨hlast, hgen⟩ := h
  have hshift := n.after_shift e
  have hcand := (n.after_writes e).of_candidate hshift
  have hlead := (n.after_writes e).of_leader
  cases hshift with
  | stay h =>
      refine ⟨Nat.le_of_eq h.term.symm, Nat.le_of_eq h.generation.symm, ?_, fun _ => h.term,
        fun _ => h.kind, fun _ => hcand, fun _ => hlead⟩
      intro _ q hq
      rw [h.votedFor, hq]
  | vote args he hargs hfree h =>
      refine ⟨Nat.le_of_eq h.term.symm, Nat.le_of_eq h.generation.symm, ?_, fun _ => h.term,
        fun _ => h.kind, fun _ => hcand, fun _ => hlead⟩
      intro _ q hq
      rw [hfree] at hq
      cases hq
  | adopt hid hsize hterm hvote hkind hprec =>
      exact .of_precedes hprec hgen (Nat.le_of_lt hterm) fun h => absurd h (Nat.ne_of_gt hterm)
  | yield _ _ _ hid hsize hterm hvote hold hkind hprec =>
      exact .of_precedes hprec hgen (Nat.le_of_eq hterm.symm) fun _ => hvote
  | stand hid hsize hterm hvote hold hrole hprec =>
      have hlater : n.term < (n.after e).term := Term.lt_of_next hterm hlast
      exact .of_precedes hprec hgen (Nat.le_of_lt hlater) fun h => absurd h (Nat.ne_of_gt hlater)
  | count votes sender reply he hgranted hrole h =>
      refine ⟨Nat.le_of_eq h.term.symm, Nat.le_of_eq h.generation.symm, ?_, fun _ => h.term,
        fun _ => ?_, fun _ => hcand, fun _ => hlead⟩
      · intro _ q hq
        exact h.votedFor.trans hq
      · rw [h.kind, hrole]
        rfl
  | win votes sender reply he hgranted hrole hmajority hid hsize hterm hvote hkind hprec =>
      exact .of_precedes hprec hgen (Nat.le_of_eq hterm.symm) fun _ => hvote

/-- An event takes every node of a cluster forward or leaves it. -/
theorem Cluster.Acts.before {c c' : Cluster α} {i p : PeerId} {n k : Node α} {e : Event α}
    (h : c.Acts i n e c') (hrange : inRange c n e) (hk : c.nodes[p]? = some k) :
    ∃ m, c'.nodes[p]? = some m ∧ k.Before m := by
  by_cases hp : p = i
  · subst hp
    obtain rfl : n = k := Option.some.inj (h.node.symm.trans hk)
    exact ⟨_, h.node_self, Node.after_before hrange⟩
  · exact ⟨k, (h.node_other hp).trans hk, .refl k⟩

namespace Run

variable {rule : Rule α} {size : Nat} {c : Cluster α} {past : List (Cluster α)}

/-- A node of a past moment is still there, and has only gone forward. -/
theorem before (h : Run rule size c past) (hrule : ∀ c n e, rule c n e → inRange c n e) :
    ∀ d ∈ c :: past, ∀ (p : PeerId) (k : Node α), d.nodes[p]? = some k →
      ∃ m, c.nodes[p]? = some m ∧ k.Before m := by
  refine h.invariant (P := fun c past =>
    ∀ d ∈ c :: past, ∀ (p : PeerId) (k : Node α), d.nodes[p]? = some k →
      ∃ m, c.nodes[p]? = some m ∧ k.Before m) ?_ ?_ ?_
  · intro d hd p k hk
    obtain rfl := List.mem_singleton.mp hd
    exact ⟨k, hk, .refl k⟩
  · intro c past c' _ ih hrest d hd p k hk
    rw [hrest.nodes]
    rcases List.mem_cons.mp hd with rfl | hd
    · rw [hrest.nodes] at hk
      exact ⟨k, hk, .refl k⟩
    · exact ih d hd p k hk
  · intro c past i n e c' _ ih hact hobey d hd p k hk
    rcases List.mem_cons.mp hd with rfl | hd
    · exact ⟨k, hk, .refl k⟩
    · obtain ⟨m, hm, hbefore⟩ := ih d hd p k hk
      obtain ⟨m', hm', hstep⟩ := hact.before (hrule _ _ _ hobey) hm
      exact ⟨m', hm', hbefore.trans hstep⟩

end Run

/-- At some moment the member `p` had voted for `q` in the term `T`, with a log of its own that
compared well with the candidate's log `D`. -/
def Voted (good : Log α → Log α → Prop) (ds : List (Cluster α)) (T : Term) (D : Log α)
    (p q : PeerId) : Prop :=
  ∃ d ∈ ds, ∃ k, d.nodes[p]? = some k ∧ k.term = T ∧ k.votedFor = some q ∧ good D k.log

/-- A majority has voted for `q`, who stood for election with the log `D`. -/
structure Elected (good : Log α → Log α → Prop) (size : Nat) (ds : List (Cluster α)) (T : Term)
    (D : Log α) (q : PeerId) : Prop where
  stood : ∃ d ∈ ds, ∃ k, d.nodes[q]? = some k ∧ k.log = D ∧
    (k.term < T ∨ k.term = T ∧ k.role.kind = .candidate)
  votes : ∃ votes : Tally, votes.IsMajority size ∧ ∀ p ∈ votes.peers, Voted good ds T D p q

section Votes

variable {good : Log α → Log α → Prop} {size : Nat} {c : Cluster α} {ds es : List (Cluster α)}
  {T : Term} {D : Log α} {p q : PeerId}

theorem Voted.mono (h : Voted good ds T D p q) (hsub : ds ⊆ es) : Voted good es T D p q := by
  obtain ⟨d, hd, hvote⟩ := h
  exact ⟨d, hsub hd, hvote⟩

theorem Voted.cons (h : Voted good ds T D p q) : Voted good (c :: ds) T D p q :=
  h.mono (List.subset_cons_self _ _)

theorem Elected.mono (h : Elected good size ds T D q) (hsub : ds ⊆ es) :
    Elected good size es T D q := by
  obtain ⟨⟨d, hd, hstood⟩, votes, hmajority, hvotes⟩ := h
  exact ⟨⟨d, hsub hd, hstood⟩, votes, hmajority, fun p hp => (hvotes p hp).mono hsub⟩

theorem Elected.cons (h : Elected good size ds T D q) : Elected good size (c :: ds) T D q :=
  h.mono (List.subset_cons_self _ _)

end Votes

/-- Where the votes of a cluster come from. `ds` are the states so far. -/
structure Cluster.Ballots (good : Log α → Log α → Prop) (size : Nat) (c : Cluster α)
    (ds : List (Cluster α)) : Prop where
  /-- A request was made by a candidacy, which may be over by now. -/
  request : ∀ s r g args, .voteRequest s r g args ∈ c.packets → s ≠ r ∧ args.candidateId = s ∧
    ∃ n, c.nodes[s]? = some n ∧ g ≤ n.generation ∧ (g = n.generation → args.term = n.term)
  /-- A vote in flight has been given to the candidacy that asked for it. -/
  reply : ∀ v i g r, .voteReply v i g (some r) ∈ c.packets → r.voteGranted = true →
    ∃ n, c.nodes[i]? = some n ∧ g ≤ n.generation ∧
      (g = n.generation → n.role.kind = .candidate → Voted good ds n.term n.log v i)
  /-- A candidate counts the votes of its term. -/
  tally : ∀ i n votes, c.nodes[i]? = some n → n.role = .candidate votes →
    ∀ p ∈ votes.peers, Voted good ds n.term n.log p i
  /-- A leader has been elected, and has only added to its log since. -/
  elected : ∀ i n, c.nodes[i]? = some n → n.isLeader →
    ∃ D, D <+: n.log ∧ Elected good size ds n.term D i

/-- A rule under which votes are given only where the logs compare well. -/
def Rule.Vets (rule : Rule α) (good : Log α → Log α → Prop) : Prop :=
  (∀ D, good D D) ∧ ∀ c n e, rule c n e → inRange c n e ∧
    ∀ args, e = .voteRequest args → (n.answerVote args).1.voteGranted = true →
      ∀ m, c.nodes[args.candidateId]? = some m → m.role.kind = .candidate → m.term = args.term →
        good m.log n.log

namespace Cluster.Ballots

variable {rule : Rule α} {good : Log α → Log α → Prop} {size : Nat} {c c' : Cluster α}
  {ds : List (Cluster α)} {i : PeerId} {n : Node α} {e : Event α}

theorem fresh (size : Nat) : Ballots good size (.fresh size : Cluster α) [.fresh size] where
  request := by
    intro s r g args hp
    cases hp
  reply := by
    intro v i g r hp
    cases hp
  tally := by
    intro i n votes hn hrole
    obtain ⟨-, rfl⟩ := Cluster.fresh_node hn
    cases hrole
  elected := by
    intro i n hn hleader
    obtain ⟨-, rfl⟩ := Cluster.fresh_node hn
    cases hleader

theorem rest (h : c.Ballots good size ds) (hrest : c.Rests c') :
    c'.Ballots good size (c' :: ds) where
  request := by
    intro s r g args hp
    rw [hrest.nodes]
    exact h.request s r g args (hrest.mem hp id)
  reply := by
    intro v i g r hp hgranted
    rw [hrest.nodes]
    obtain ⟨n, hn, hle, hvote⟩ := h.reply v i g r (hrest.mem hp id) hgranted
    exact ⟨n, hn, hle, fun hg hcand => (hvote hg hcand).cons⟩
  tally := by
    intro i n votes hn hrole p hp
    rw [hrest.nodes] at hn
    exact (h.tally i n votes hn hrole p hp).cons
  elected := by
    intro i n hn hleader
    rw [hrest.nodes] at hn
    obtain ⟨D, hD, hvotes⟩ := h.elected i n hn hleader
    exact ⟨D, hD, hvotes.cons⟩

/-- A request for votes that an event makes is one for the term its sender has moved to. -/
theorem request_sent (hrange : inRange c n e) {r : PeerId} {g : Generation} {args : VoteRequest}
    (hsent : .requestVote r g args ∈ (n.handle e).2.actions) :
    r ≠ n.id ∧ args.candidateId = n.id ∧ g ≤ (n.after e).generation ∧
      args.term = (n.after e).term := by
  obtain ⟨rfl, hleader, hr, rfl, rfl⟩ := Node.requestVote_of_handle hsent
  have hafter : n.after .electionTimeout = n.standForElection.node := by
    change n.electionTimeout.node = _
    unfold Node.electionTimeout
    rw [if_neg hleader]
  obtain ⟨hterm, hprec⟩ := n.standForElection_office
  have hle := hrange.2
  rw [hafter] at hle ⊢
  refine ⟨hr, rfl, ?_, hterm.symm⟩
  unfold Generation.Precedes Generation.next at hprec
  unfold Generation.next
  lia

theorem act_request (h : c.Ballots good size ds) (hact : c.Acts i n e c') (hid : n.id = i)
    (hrange : inRange c n e) {s r : PeerId} {g : Generation} {args : VoteRequest}
    (hp : .voteRequest s r g args ∈ c'.packets) :
    s ≠ r ∧ args.candidateId = s ∧
      ∃ m, c'.nodes[s]? = some m ∧ g ≤ m.generation ∧ (g = m.generation → args.term = m.term) := by
  rcases hact.packets _ hp with hold | ⟨a, ha, hsent⟩ | hanswer
  · obtain ⟨hne, hcand, k, hk, hle, hterm⟩ := h.request s r g args hold
    obtain ⟨m, hm, hbefore⟩ := hact.before hrange hk
    refine ⟨hne, hcand, m, hm, Nat.le_trans hle hbefore.generation_le, ?_⟩
    intro hg
    have hmono := hbefore.generation_le
    rw [hbefore.term_eq (by lia), hterm (by lia)]
  · cases a with
    | requestVote peer generation asked =>
        obtain ⟨rfl, rfl, rfl, rfl⟩ := Packet.voteRequest.inj (Option.some.inj hsent)
        obtain ⟨hr, hcand, hle, hterm⟩ := request_sent hrange ha
        rw [hid] at hr hcand
        exact ⟨Ne.symm hr, hcand, n.after e, hact.node_self, hle, fun _ => hterm⟩
    | _ => cases hsent
  · cases hanswer

theorem act_reply (hrule : rule.Vets good) (h : c.Ballots good size ds) (hact : c.Acts i n e c')
    (hobey : rule c n e) {v s : PeerId} {g : Generation} {r : VoteReply}
    (hp : .voteReply v s g (some r) ∈ c'.packets) (hgranted : r.voteGranted = true) :
    ∃ m, c'.nodes[s]? = some m ∧ g ≤ m.generation ∧
      (g = m.generation → m.role.kind = .candidate → Voted good (c' :: ds) m.term m.log v s) := by
  have hrange := (hrule.2 _ _ _ hobey).1
  rcases hact.packets _ hp with hold | ⟨a, ha, hsent⟩ | hanswer
  · obtain ⟨k, hk, hle, hvote⟩ := h.reply v s g r hold hgranted
    obtain ⟨m, hm, hbefore⟩ := hact.before hrange hk
    refine ⟨m, hm, Nat.le_trans hle hbefore.generation_le, ?_⟩
    intro hg hcand
    have hmono := hbefore.generation_le
    have hgen : m.generation = k.generation := by lia
    rw [hbefore.term_eq hgen, hbefore.candidate_log hgen hcand]
    exact (hvote (by lia) ((hbefore.kind_eq hgen).symm.trans hcand)).cons
  · cases a <;> cases hsent
  · cases hanswer with
    | @vote _ _ args hcall =>
        obtain ⟨hne, hcand, k, hk, hle, hterm⟩ := h.request s i g args hcall
        obtain ⟨m, hm, hbefore⟩ := hact.before hrange hk
        refine ⟨m, hm, Nat.le_trans hle hbefore.generation_le, ?_⟩
        intro hg hkind
        have hmono := hbefore.generation_le
        have hgen : m.generation = k.generation := by lia
        have hold : k.role.kind = .candidate := (hbefore.kind_eq hgen).symm.trans hkind
        have hargs : args.term = k.term := hterm (by lia)
        obtain ⟨-, hvoted, hfor⟩ := Node.answerVote_granted hgranted
        have hgood : good k.log n.log :=
          (hrule.2 _ _ _ hobey).2 args rfl hgranted k (by rw [hcand]; exact hk) hold hargs.symm
        rw [hbefore.term_eq hgen, hbefore.candidate_log hgen hkind]
        refine ⟨c', List.mem_cons_self, _, hact.node_self, hvoted.trans hargs,
          hfor.trans (by rw [hcand]), ?_⟩
        have hlog : (n.after (.voteRequest args)).log = n.log := n.answerVote_log args
        rw [hlog]
        exact hgood

/-- A candidate's tally holds votes of its term only. -/
theorem act_tally (hrule : rule.Vets good) (h : c.Ballots good size ds) (hact : c.Acts i n e c')
    (hid : n.id = i) (hobey : rule c n e) {votes : Tally}
    (hrole : (n.after e).role = .candidate votes) :
    ∀ p ∈ votes.peers, Voted good (c' :: ds) (n.after e).term (n.after e).log p i := by
  have hcand : (n.after e).role.kind = .candidate := by rw [hrole]; rfl
  have htally : (n.after e).role.tally? = some votes := Role.tally?_eq_some.mpr hrole
  have hlog := (n.after_writes e).of_candidate (n.after_shift e) hcand
  have hkept {m : Node α} (hm : m.SameOffice (n.after e)) (hterm : m.term = n.term)
      (hold : m.role.tally? = n.role.tally?) :
      ∀ p ∈ votes.peers, Voted good (c' :: ds) (n.after e).term (n.after e).log p i := by
    intro p hp
    have hvotes : n.role = .candidate votes := by
      rw [← Role.tally?_eq_some, ← hold, ← hm.tally, htally]
    rw [hm.term, hterm, hlog]
    exact (h.tally i n votes hact.node hvotes p hp).cons
  intro p hp
  cases n.after_shift e with
  | stay h' => exact hkept h' rfl rfl p hp
  | vote args he hargs hfree h' => exact hkept h' rfl rfl p hp
  | adopt hid hsize hterm hvote hkind => rw [hkind] at hcand; cases hcand
  | yield _ _ _ _ hsize hterm hvote hold hkind => rw [hkind] at hcand; cases hcand
  | stand _ hsize hterm hvote hold hstand hprec =>
      rcases hstand with ⟨hsingle, -⟩ | ⟨hkind, -⟩
      · obtain rfl := Role.candidate.inj (hrole.symm.trans hsingle)
        obtain rfl := Tally.mem_single.mp hp
        refine ⟨c', List.mem_cons_self, n.after e, ?_, rfl, ?_, hrule.1 _⟩
        · rw [hid]
          exact hact.node_self
        · rw [hvote, hid]
      · rw [hkind] at hcand
        cases hcand
  | count before sender reply he hgranted hbefore h' =>
      have hadd : votes = before.add sender := by
        have htal := h'.tally
        rw [htally] at htal
        exact Option.some.inj htal
      rw [h'.term, hlog]
      subst he
      subst hadd
      rcases Tally.mem_add.mp hp with hp | rfl
      · exact (h.tally i n before hact.node hbefore p hp).cons
      · cases hact.cause with
        | voteReturned hreply =>
            obtain ⟨k, hk, -, hvoted⟩ := h.reply _ _ _ _ hreply hgranted
            obtain rfl : n = k := Option.some.inj (hact.node.symm.trans hk)
            exact (hvoted rfl (by rw [hbefore]; rfl)).cons
  | win before sender reply he hgranted hbefore hmajority _ hsize hterm hvote hkind =>
      rw [hkind] at hcand
      cases hcand

/-- Whoever leads has been elected, now or earlier. -/
theorem act_elected (hrule : rule.Vets good) (h : c.Ballots good size ds) (hact : c.Acts i n e c')
    (hc : c ∈ ds) (hid : n.id = i) (hsize : n.clusterSize = size) (hobey : rule c n e)
    (hleader : (n.after e).isLeader) :
    ∃ D, D <+: (n.after e).log ∧ Elected good size (c' :: ds) (n.after e).term D i := by
  have hkind : (n.after e).role.kind = .leader := Role.isLeader_iff.mp hleader
  have hgrow := (n.after_writes e).of_leader hleader
  have hkept (hold : (n.after e).role.kind = n.role.kind) (hterm : (n.after e).term = n.term) :
      ∃ D, D <+: (n.after e).log ∧ Elected good size (c' :: ds) (n.after e).term D i := by
    obtain ⟨D, hD, hvotes⟩ :=
      h.elected i n hact.node (Role.isLeader_iff.mpr (hold.symm.trans hkind))
    rw [hterm]
    exact ⟨D, hD.trans hgrow, hvotes.cons⟩
  cases n.after_shift e with
  | stay h' => exact hkept h'.kind h'.term
  | vote args he hargs hfree h' => exact hkept h'.kind h'.term
  | adopt _ _ hterm hvote hfollower => rw [hfollower] at hkind; cases hkind
  | yield _ _ _ _ _ hterm hvote hold hfollower => rw [hfollower] at hkind; cases hkind
  | stand _ hsame hterm hvote hold hstand =>
      have hbefore : ¬ n.isLeader := fun h => hold (Role.isLeader_iff.mp h)
      have hlog := (n.after_writes e).of_accession hleader hbefore
      rcases hstand with ⟨hsingle, -⟩ | ⟨-, hmajority⟩
      · rw [hsingle] at hkind
        cases hkind
      · rw [hid, hsize] at hmajority
        have hlater := Term.lt_of_next hterm (hrule.2 _ _ _ hobey).1.1
        refine ⟨n.log, hgrow, ⟨c, List.mem_cons_of_mem _ hc, n, hact.node, rfl, Or.inl hlater⟩,
          .single i, hmajority, ?_⟩
        intro p hp
        obtain rfl := Tally.mem_single.mp hp
        refine ⟨c', List.mem_cons_self, n.after e, hact.node_self, rfl, ?_, ?_⟩
        · rw [hvote, hid]
        · rw [hlog]
          exact hrule.1 _
  | count votes sender reply he hgranted hbefore h' => rw [h'.kind] at hkind; cases hkind
  | win votes sender reply he hgranted hbefore hmajority _ hsame hterm =>
      rw [hsize] at hmajority
      rw [hterm]
      refine ⟨n.log, hgrow, ⟨c, List.mem_cons_of_mem _ hc, n, hact.node, rfl,
        Or.inr ⟨rfl, by rw [hbefore]; rfl⟩⟩, votes.add sender, hmajority, ?_⟩
      intro p hp
      subst he
      rcases Tally.mem_add.mp hp with hp | rfl
      · exact (h.tally i n votes hact.node hbefore p hp).cons
      · cases hact.cause with
        | voteReturned hreply =>
            obtain ⟨k, hk, -, hvoted⟩ := h.reply _ _ _ _ hreply hgranted
            obtain rfl : n = k := Option.some.inj (hact.node.symm.trans hk)
            exact (hvoted rfl (by rw [hbefore]; rfl)).cons

theorem act (hrule : rule.Vets good) (h : c.Ballots good size ds) (hact : c.Acts i n e c')
    (hc : c ∈ ds) (hid : n.id = i) (hsize : n.clusterSize = size) (hobey : rule c n e) :
    c'.Ballots good size (c' :: ds) where
  request := fun _ _ _ _ hp => h.act_request hact hid (hrule.2 _ _ _ hobey).1 hp
  reply := fun _ _ _ _ hp hgranted => h.act_reply hrule hact hobey hp hgranted
  tally := by
    intro j m votes hm hrole p hp
    rcases hact.node_cases hm with ⟨rfl, rfl⟩ | ⟨-, hold⟩
    · exact h.act_tally hrule hact hid hobey hrole p hp
    · exact (h.tally j m votes hold hrole p hp).cons
  elected := by
    intro j m hm hleader
    rcases hact.node_cases hm with ⟨rfl, rfl⟩ | ⟨-, hold⟩
    · exact h.act_elected hrule hact hc hid hsize hobey hleader
    · obtain ⟨D, hD, hvotes⟩ := h.elected j m hold hleader
      exact ⟨D, hD, hvotes.cons⟩

end Cluster.Ballots

/-- The votes of a run are in order. -/
theorem Run.ballots {rule : Rule α} {good : Log α → Log α → Prop} (hrule : rule.Vets good)
    {size : Nat} {c : Cluster α} {past : List (Cluster α)} (h : Run rule size c past) :
    c.Ballots good size (c :: past) := by
  refine h.invariant (P := fun c past => c.Ballots good size (c :: past)) ?_ ?_ ?_
  · exact .fresh size
  · intro c past c' _ ih hrest
    exact ih.rest hrest
  · intro c past i n e c' hrun ih hact hobey
    obtain ⟨-, hid, hsize⟩ := hrun.seat i n hact.node
    exact ih.act hrule hact List.mem_cons_self hid hsize hobey

/-- Two majorities of one cluster share a member. -/
theorem Tally.exists_shared {size : Nat} {s t : Tally} (hs : s.IsMajority size)
    (ht : t.IsMajority size) (hs' : ∀ p ∈ s.peers, p < size) (ht' : ∀ p ∈ t.peers, p < size) :
    ∃ p, p ∈ s.peers ∧ p ∈ t.peers := by
  by_contra hnone
  have hapart : ∀ p ∈ s.peers, ∀ q ∈ t.peers, p ≠ q := by
    rintro p hp _ hq rfl
    exact hnone ⟨p, hp, hq⟩
  have hnodup : (s.peers ++ t.peers).Nodup := List.nodup_append.mpr ⟨s.nodup, t.nodup, hapart⟩
  have hrange : s.peers ++ t.peers ⊆ List.range size := by
    intro p hp
    rcases List.mem_append.mp hp with hp | hp
    · exact List.mem_range.mpr (hs' p hp)
    · exact List.mem_range.mpr (ht' p hp)
  have hlength := (List.subperm_of_subset hnodup hrange).length_le
  rw [List.length_append, List.length_range] at hlength
  unfold IsMajority Tally.size at hs ht
  omega

section Uniqueness

variable {rule : Rule α} {good : Log α → Log α → Prop} {size : Nat} {c d₁ d₂ : Cluster α}
  {past : List (Cluster α)} {T : Term} {D₁ D₂ : Log α}

/-- Any two moments of a run are in order. -/
theorem Run.before_or_before (h : Run rule size c past)
    (hrule : ∀ c n e, rule c n e → inRange c n e) (hd₁ : d₁ ∈ c :: past) (hd₂ : d₂ ∈ c :: past)
    {p : PeerId} {k₁ k₂ : Node α} (hk₁ : d₁.nodes[p]? = some k₁) (hk₂ : d₂.nodes[p]? = some k₂) :
    k₁.Before k₂ ∨ k₂.Before k₁ := by
  induction h with
  | start =>
      obtain rfl := List.mem_singleton.mp hd₁
      obtain rfl := List.mem_singleton.mp hd₂
      obtain rfl := Option.some.inj (hk₁.symm.trans hk₂)
      exact Or.inl (.refl k₁)
  | @move c past m hrun hm ih =>
      have hlatest := (Run.move m hrun hm).before hrule
      rcases List.mem_cons.mp hd₁ with rfl | hold₁
      · obtain ⟨k, hk, hbefore⟩ := hlatest d₂ hd₂ p k₂ hk₂
        obtain rfl := Option.some.inj (hk₁.symm.trans hk)
        exact Or.inr hbefore
      · rcases List.mem_cons.mp hd₂ with rfl | hold₂
        · obtain ⟨k, hk, hbefore⟩ := hlatest d₁ hd₁ p k₁ hk₁
          obtain rfl := Option.some.inj (hk₂.symm.trans hk)
          exact Or.inl hbefore
        · exact ih hold₁ hold₂

/-- A member votes for one candidate in a term. -/
theorem Voted.unique (h : Run rule size c past) (hrule : ∀ c n e, rule c n e → inRange c n e)
    {p q₁ q₂ : PeerId} (h₁ : Voted good (c :: past) T D₁ p q₁)
    (h₂ : Voted good (c :: past) T D₂ p q₂) : q₁ = q₂ := by
  obtain ⟨d₁, hd₁, k₁, hk₁, hterm₁, hvote₁, -⟩ := h₁
  obtain ⟨d₂, hd₂, k₂, hk₂, hterm₂, hvote₂, -⟩ := h₂
  rcases h.before_or_before hrule hd₁ hd₂ hk₁ hk₂ with hbefore | hbefore
  · have hkept := hbefore.vote (hterm₂.trans hterm₁.symm) q₁ hvote₁
    exact Option.some.inj (hkept.symm.trans hvote₂)
  · have hkept := hbefore.vote (hterm₁.trans hterm₂.symm) q₂ hvote₂
    exact Option.some.inj (hvote₁.symm.trans hkept)

theorem Voted.lt_size (h : Run rule size c past) {p q : PeerId}
    (hvote : Voted good (c :: past) T D₁ p q) : p < size := by
  obtain ⟨d, hd, k, hk, -⟩ := hvote
  obtain ⟨before, hrun, -⟩ := h.of_mem hd
  exact (hrun.seat p k hk).1

/-- A term elects one member. -/
theorem Elected.unique (h : Run rule size c past) (hrule : ∀ c n e, rule c n e → inRange c n e)
    {i j : PeerId} (h₁ : Elected good size (c :: past) T D₁ i)
    (h₂ : Elected good size (c :: past) T D₂ j) : i = j := by
  obtain ⟨votes₁, hmajority₁, hvotes₁⟩ := h₁.votes
  obtain ⟨votes₂, hmajority₂, hvotes₂⟩ := h₂.votes
  obtain ⟨p, hp₁, hp₂⟩ := Tally.exists_shared hmajority₁ hmajority₂
    (fun p hp => (hvotes₁ p hp).lt_size h) (fun p hp => (hvotes₂ p hp).lt_size h)
  exact (hvotes₁ p hp₁).unique h hrule (hvotes₂ p hp₂)

end Uniqueness

/-- The member at `i` is the leader of the term `T`. -/
def Cluster.Leads (c : Cluster α) (i : PeerId) (T : Term) : Prop :=
  ∃ n ∈ c.nodes[i]?, n.isLeader ∧ n.term = T

instance (c : Cluster α) (i : PeerId) (T : Term) : Decidable (c.Leads i T) := by
  unfold Cluster.Leads
  cases c.nodes[i]? with
  | none => exact isFalse (by rintro ⟨n, hn, -⟩; cases hn)
  | some n => exact decidable_of_iff (n.isLeader ∧ n.term = T) (by simp)

/-- A leader at any moment of a run has been elected in the course of it. -/
theorem Run.elected_of_leads {rule : Rule α} {good : Log α → Log α → Prop}
    (hrule : rule.Vets good) {size : Nat} {c : Cluster α} {past : List (Cluster α)}
    (h : Run rule size c past) {d : Cluster α} (hd : d ∈ c :: past) {i : PeerId} {T : Term}
    (hlead : d.Leads i T) : ∃ D, Elected good size (c :: past) T D i := by
  obtain ⟨before, hrun, hsuffix⟩ := h.of_mem hd
  obtain ⟨n, hn, hleader, rfl⟩ := hlead
  obtain ⟨D, -, helected⟩ := (hrun.ballots hrule).elected i n hn hleader
  exact ⟨D, helected.mono hsuffix.subset⟩

/-- A term is led by one member, as it elects one. -/
theorem Run.leader_eq {rule : Rule α} {good : Log α → Log α → Prop} (hvets : rule.Vets good)
    (hrule : ∀ c n e, rule c n e → inRange c n e) {size : Nat} {c : Cluster α}
    {past : List (Cluster α)} (h : Run rule size c past) {d₁ d₂ : Cluster α}
    (hd₁ : d₁ ∈ c :: past) (hd₂ : d₂ ∈ c :: past) {i j : PeerId} {T : Term} (hi : d₁.Leads i T)
    (hj : d₂.Leads j T) : i = j := by
  obtain ⟨D₁, helected₁⟩ := h.elected_of_leads hvets hd₁ hi
  obtain ⟨D₂, helected₂⟩ := h.elected_of_leads hvets hd₂ hj
  exact helected₁.unique h hrule helected₂

theorem inRange_vets : Rule.Vets (inRange : Rule α) fun _ _ => True :=
  ⟨fun _ => trivial, fun _ _ _ h => ⟨h, fun _ _ _ _ _ _ _ => trivial⟩⟩

/-- Election safety: no two members lead the same term, be it at one moment of a run or at two. -/
theorem leads_unique {size : Nat} {c : Cluster α} {past : List (Cluster α)}
    (h : Run inRange size c past) {d₁ d₂ : Cluster α} (hd₁ : d₁ ∈ c :: past)
    (hd₂ : d₂ ∈ c :: past) {i j : PeerId} {T : Term} (hi : d₁.Leads i T) (hj : d₂.Leads j T) :
    i = j :=
  h.leader_eq inRange_vets (fun _ _ _ h => h) hd₁ hd₂ hi hj

/-- The first member is elected in term one, then the second in term two. The first one, cut off,
takes itself for a leader all the while. -/
def twoElections : List (Move Nat) :=
  [.electionTimeout 0, .deliver 0, .deliver 2, .isolate 0, .electionTimeout 1, .deliver 6,
    .deliver 7]

/-- After the first election and after both, term one has the same leader, and nobody else takes
itself for it. -/
theorem leads_unique_twoElections :
    let first := ((Cluster.fresh 3).course [] (twoElections.take 3)).1
    let last := ((Cluster.fresh 3).course [] twoElections).1
    (∃ i j, first.Leads i 1 ∧ last.Leads j 1 ∧ i = j) ∧ ¬ last.Leads 1 1 ∧ ¬ last.Leads 2 1 ∧
      last.Leads 1 2 := by
  intro first last
  have hrun : Run inRange 3 last ((Cluster.fresh 3).course [] twoElections).2 :=
    .course .start (by decide)
  have hpast : first ∈ last :: ((Cluster.fresh 3).course [] twoElections).2 := by decide
  have hfirst : first.Leads 0 1 := by decide
  have hlast : last.Leads 0 1 := by decide
  have hother (j : PeerId) (hj : last.Leads j 1) : 0 = j :=
    leads_unique hrun hpast List.mem_cons_self hfirst hj
  refine ⟨⟨0, 0, hfirst, hlast, leads_unique hrun hpast List.mem_cons_self hfirst hlast⟩, ?_, ?_,
    by decide⟩
  · exact fun h => absurd (hother 1 h) (by decide)
  · exact fun h => absurd (hother 2 h) (by decide)

/-- Three members, of which the first has stood for election in every term through `T` and has
reached nobody. -/
def Cluster.pumped (T : Term) : Cluster Nat :=
  { Cluster.fresh 3 with nodes :=
      [{ (Node.fresh 0 3).start.node with
          term := T, votedFor := some 0, role := .candidate (.single 0), generation := T },
        (Node.fresh 1 3).start.node, (Node.fresh 2 3).start.node] }

/-- Elections that reach nobody bring a member to any term. -/
theorem Run.pumped (rule : Rule Nat)
    (hrule : ∀ c n, ¬ (n.after .electionTimeout).isLeader → rule c n .electionTimeout) {T : Term}
    (hpos : 0 < T) (hT : T ≤ Term.last) : ∃ past, Run rule 3 (.pumped T) past := by
  have hfirst : (Cluster.fresh 3 : Cluster Nat).nodes[0]? = some (Node.fresh 0 3).start.node := rfl
  have hstart : Run rule 3 (Cluster.fresh 3) [] := .start
  obtain ⟨past, hrun, -⟩ := hstart.stand_often hfirst (by decide) (by decide) hrule T
  have hpumped : (Cluster.fresh 3).seat 0 (Node.stood^[T] (Node.fresh 0 3).start.node) =
      Cluster.pumped T := by
    obtain ⟨r, rfl⟩ := Nat.exists_eq_succ_of_ne_zero (Nat.ne_of_gt hpos)
    have hterm : min (0 + (r + 1)) Term.last = r + 1 := by
      rw [Nat.zero_add, Nat.min_eq_left hT]
    have hgen : (0 + (r + 1)) % 0x10000000000000000 = r + 1 := by
      rw [Nat.zero_add]
      exact Nat.mod_eq_of_lt (Nat.lt_succ_of_le hT)
    rw [Node.stood_iterate (Nat.zero_le _)]
    change Cluster.mk [{ (Node.fresh 0 3).start.node with
      term := min (0 + (r + 1)) Term.last, votedFor := some 0, role := .candidate (.single 0),
      generation := (0 + (r + 1)) % 0x10000000000000000 }, _, _] _ _ _ = _
    rw [hterm, hgen]
    rfl
  rw [hpumped] at hrun
  exact ⟨past, hrun⟩

/-- The first member stands again in the last term and is elected by the second one, which then
does the same with the vote of the third. -/
def lastElections : List (Move Nat) :=
  [.electionTimeout 0, .deliver 0, .deliver 2, .electionTimeout 1, .deliver 6, .deliver 7]

/-- The last term can be led by two: no term follows it. -/
theorem leads_twice : ∃ c past, Run (fun _ _ _ => True) 3 c past ∧
    (c : Cluster Nat).Leads 0 Term.last ∧ c.Leads 1 Term.last := by
  obtain ⟨past, hrun⟩ := Run.pumped (fun _ _ _ => True) (fun _ _ _ => trivial)
    (T := Term.last) (by decide) (Nat.le_refl _)
  have hmoves : (Cluster.pumped Term.last).AllObey (fun _ _ _ => True) lastElections := by decide
  refine ⟨_, _, hrun.course hmoves, ?_⟩
  rw [Cluster.course_last _ past []]
  exact ⟨by decide, by decide⟩

end Quorum
