import Quorum.Proofs.Shipping

/-!
The accounts of a leader. Whatever a leader counts for an entry, an acknowledgement or a match
index, is true of the member it is counted for, if the answers that come in are. Then what the
leader commits is confirmed by a majority.
-/

namespace Quorum

variable {α : Type}

/-- What a leader at `i` keeps is right: match indices and acknowledgements are confirmed, each
member is ready for the entries from its cursor on, and the entries on which agreement is sought
are the leader's own. -/
structure Leadership.Accounts (i : PeerId) (owns : LogIndex → Prop)
    (confirms ready : PeerId → LogIndex → Prop) (l : Leadership) : Prop where
  own : ∀ cursor, l.cursors[i]? = some cursor → cursor.matched = LogIndex.absent
  matched : ∀ (p : PeerId) cursor, l.cursors[p]? = some cursor → 0 ≤ cursor.matched →
    confirms p cursor.matched
  next : ∀ (p : PeerId) cursor, l.cursors[p]? = some cursor → ready p cursor.next
  agreement : ∀ a ∈ l.agreements, owns a.index ∧ ∀ p ∈ a.acks.peers, confirms p a.index
  waiting : ∀ j ∈ l.waiting, owns j

namespace Leadership.Accounts

variable {i : PeerId} {owns owns' : LogIndex → Prop}
  {confirms confirms' ready ready' : PeerId → LogIndex → Prop} {l : Leadership} {j : LogIndex}
  {p : PeerId}

theorem mono (h : l.Accounts i owns confirms ready) (howns : ∀ j, owns j → owns' j)
    (hconfirms : ∀ p j, confirms p j → confirms' p j)
    (hready : ∀ (p : PeerId) cursor, l.cursors[p]? = some cursor → ready p cursor.next →
      ready' p cursor.next) : l.Accounts i owns' confirms' ready' where
  own := h.own
  matched := fun p cursor hcursor hzero => hconfirms _ _ (h.matched p cursor hcursor hzero)
  next := fun p cursor hcursor => hready p cursor hcursor (h.next p cursor hcursor)
  agreement := by
    intro a ha
    obtain ⟨hindex, hacks⟩ := h.agreement a ha
    exact ⟨howns _ hindex, fun p hp => hconfirms _ _ (hacks p hp)⟩
  waiting := fun j hj => howns j (h.waiting j hj)

theorem fresh {size length : Nat} (i : PeerId) (hready : ∀ p, ready p (length : Int)) :
    (Leadership.fresh size length).Accounts i owns confirms ready where
  own := by
    intro cursor hcursor
    rw [Leadership.cursor_fresh hcursor]
  matched := by
    intro p cursor hcursor hzero
    rw [Leadership.cursor_fresh hcursor] at hzero
    cases hzero
  next := by
    intro p cursor hcursor
    rw [Leadership.cursor_fresh hcursor]
    exact hready p
  agreement := by
    intro a ha
    cases ha
  waiting := by
    intro j hj
    cases hj

theorem enqueue (h : l.Accounts i owns confirms ready) (hj : owns j) :
    (l.enqueue j).Accounts i owns confirms ready := by
  refine ⟨h.own, h.matched, h.next, h.agreement, ?_⟩
  intro k hk
  rcases mem_of_mem_insertByIndex hk with rfl | hold
  · exact hj
  · exact h.waiting k hold

theorem dequeue (h : l.Accounts i owns confirms ready) (j : LogIndex) :
    (l.dequeue j).Accounts i owns confirms ready :=
  ⟨h.own, h.matched, h.next, h.agreement, fun k hk => h.waiting k (List.mem_of_mem_erase hk)⟩

theorem openAgreement (h : l.Accounts i owns confirms ready) (hj : owns j) (hown : confirms p j) :
    (l.openAgreement j p).Accounts i owns confirms ready := by
  refine ⟨h.own, h.matched, h.next, ?_, h.waiting⟩
  intro a ha
  rcases mem_of_mem_insertByIndex ha with rfl | hold
  · refine ⟨hj, ?_⟩
    intro q hq
    obtain rfl := Tally.mem_single.mp hq
    exact hown
  · exact h.agreement a hold

theorem acknowledge (h : l.Accounts i owns confirms ready) (hp : confirms p j) :
    (l.acknowledge j p).Accounts i owns confirms ready := by
  refine ⟨h.own, h.matched, h.next, ?_, h.waiting⟩
  intro a ha
  obtain ⟨b, hb, rfl⟩ := List.mem_map.mp ha
  obtain ⟨hindex, hacks⟩ := h.agreement b hb
  split
  · rename_i hsame
    refine ⟨hindex, ?_⟩
    intro q hq
    rcases Tally.mem_add.mp hq with hq | rfl
    · exact hacks q hq
    · change confirms q b.index
      rw [hsame]
      exact hp
  · exact ⟨hindex, hacks⟩

theorem closeThrough (h : l.Accounts i owns confirms ready) (j : LogIndex) :
    (l.closeThrough j).Accounts i owns confirms ready :=
  ⟨h.own, h.matched, h.next, fun a ha => h.agreement a (List.mem_filter.mp ha).1, h.waiting⟩

theorem recordSuccess (h : l.Accounts i owns confirms ready) (hp : p ≠ i) (hj : confirms p j)
    (hready : ready p j.next) : (l.recordSuccess p j).Accounts i owns confirms ready := by
  refine ⟨?_, ?_, ?_, h.agreement, h.waiting⟩
  · intro cursor hcursor
    obtain ⟨old, hold, ⟨hi, -⟩ | ⟨-, rfl⟩⟩ := Leadership.cursor_recordSuccess hcursor
    · exact absurd hi.symm hp
    · exact h.own _ hold
  · intro q cursor hcursor hzero
    obtain ⟨old, hold, ⟨rfl, rfl⟩ | ⟨-, rfl⟩⟩ := Leadership.cursor_recordSuccess hcursor
    · change confirms q (max old.matched j)
      rcases Int.le_total old.matched j with hle | hle
      · rw [Int.max_eq_right hle]
        exact hj
      · have hmax : max old.matched j = old.matched := Int.max_eq_left hle
        rw [hmax]
        refine h.matched q old hold ?_
        change 0 ≤ max old.matched j at hzero
        rwa [hmax] at hzero
    · exact h.matched q _ hold hzero
  · intro q cursor hcursor
    obtain ⟨old, hold, ⟨rfl, rfl⟩ | ⟨-, rfl⟩⟩ := Leadership.cursor_recordSuccess hcursor
    · exact hready
    · exact h.next q _ hold

theorem recordFailure (h : l.Accounts i owns confirms ready) (p : PeerId)
    (hback : ∀ q j, 0 < j → ready q j → ready q (j - 1)) :
    (l.recordFailure p).Accounts i owns confirms ready := by
  refine ⟨?_, ?_, ?_, h.agreement, h.waiting⟩
  · intro cursor hcursor
    obtain ⟨old, hold, hmatched, -⟩ := Leadership.cursor_recordFailure hcursor
    rw [hmatched]
    exact h.own old hold
  · intro q cursor hcursor hzero
    obtain ⟨old, hold, hmatched, -⟩ := Leadership.cursor_recordFailure hcursor
    rw [hmatched] at hzero ⊢
    exact h.matched q old hold hzero
  · intro q cursor hcursor
    obtain ⟨old, hold, -, hsame | ⟨hpos, hnext⟩⟩ := Leadership.cursor_recordFailure hcursor
    · rw [hsame]
      exact h.next q old hold
    · rw [hnext]
      exact hback q _ hpos (h.next q old hold)

end Leadership.Accounts

/-- The positions of a list at which a property holds. -/
theorem exists_positions {β : Type} (l : List β) (P : β → Bool) :
    ∃ ps : List Nat, ps.Nodup ∧ ps.length = l.countP P ∧
      ∀ p, p ∈ ps ↔ ∃ x, l[p]? = some x ∧ P x = true := by
  refine ⟨(l.zipIdx.filter fun x => P x.1).map Prod.snd, ?_, ?_, ?_⟩
  · have hall : (l.zipIdx.map Prod.snd).Nodup := by
      rw [List.zipIdx_map_snd]
      exact List.nodup_range'
    exact hall.sublist (List.filter_sublist.map _)
  · rw [List.length_map, ← List.countP_eq_length_filter]
    conv_rhs => rw [← List.zipIdx_map_fst 0 l, List.countP_map]
    rfl
  · intro p
    constructor
    · intro hp
      obtain ⟨x, hx, rfl⟩ := List.mem_map.mp hp
      obtain ⟨hmem, hP⟩ := List.mem_filter.mp hx
      exact ⟨x.1, List.mem_zipIdx_iff_getElem?.mp hmem, hP⟩
    · rintro ⟨x, hx, hP⟩
      exact List.mem_map.mpr ⟨(x, p), List.mem_filter.mpr
        ⟨List.mem_zipIdx_iff_getElem?.mpr hx, hP⟩, rfl⟩

theorem foldl_max_mem (l : List LogIndex) (j : LogIndex) :
    l.foldl max j = j ∨ l.foldl max j ∈ l := by
  induction l generalizing j with
  | nil => exact Or.inl rfl
  | cons k rest ih =>
      rw [List.foldl_cons]
      rcases ih (max j k) with hsame | hmem
      · rw [hsame]
        rcases Int.le_total j k with hle | hle
        · rw [Int.max_eq_right hle]
          exact Or.inr List.mem_cons_self
        · rw [Int.max_eq_left hle]
          exact Or.inl rfl
      · exact Or.inr (List.mem_cons_of_mem _ hmem)

/-- A majority of a cluster of the given size confirms the entry at `j`. -/
def Backed (size : Nat) (confirms : PeerId → LogIndex → Prop) (j : LogIndex) : Prop :=
  ∃ votes : Tally, votes.IsMajority size ∧ ∀ p ∈ votes.peers, confirms p j

/-- Confirmation of an entry extends to those before it and to the leader at `i` itself. -/
structure Sound (i : PeerId) (confirms : PeerId → LogIndex → Prop) : Prop where
  back : ∀ p j k, confirms p j → 0 ≤ k → k ≤ j → confirms p k
  self : ∀ p j, confirms p j → confirms i j

section Commitment

variable {size : Nat} {i : PeerId} {owns : LogIndex → Prop} {confirms ready : PeerId → LogIndex → Prop}
  {l : Leadership} {j : LogIndex} {n : Node α} {t u : Turn α}

/-- Half of the match indices and the leader's own copy are a majority. -/
theorem Leadership.Accounts.backed_of_matched (h : l.Accounts i owns confirms ready)
    (hsound : Sound i confirms) (hj : 0 ≤ j)
    (hhalf : size ≤ (l.matchIndices.countP (j ≤ ·)) * 2) (hsome : ∃ k ∈ l.matchIndices, j ≤ k) :
    Backed size confirms j := by
  obtain ⟨ps, hnodup, hlength, hps⟩ := exists_positions l.cursors fun cursor => j ≤ cursor.matched
  have hcount : ps.length = l.matchIndices.countP (j ≤ ·) := by
    rw [hlength, Leadership.matchIndices, List.countP_map]
    rfl
  have hconfirms : ∀ p ∈ ps, confirms p j := by
    intro p hp
    obtain ⟨cursor, hcursor, hle⟩ := (hps p).mp hp
    have hle : j ≤ cursor.matched := by simpa using hle
    exact hsound.back p _ j (h.matched p cursor hcursor (Int.le_trans hj hle)) hj hle
  have hnew : i ∉ ps := by
    intro hi
    obtain ⟨cursor, hcursor, hle⟩ := (hps i).mp hi
    have hle : j ≤ cursor.matched := by simpa using hle
    have hown : cursor.matched = -1 := h.own cursor hcursor
    lia
  have hself : confirms i j := by
    obtain ⟨k, hk, hle⟩ := hsome
    obtain ⟨cursor, hmem, rfl⟩ := List.mem_map.mp hk
    obtain ⟨p, hp⟩ := List.mem_iff_getElem?.mp hmem
    have hmatched := h.matched p cursor hp (Int.le_trans hj hle)
    exact hsound.self p j (hsound.back p _ j hmatched hj hle)
  refine ⟨⟨i :: ps, List.nodup_cons.mpr ⟨hnew, hnodup⟩⟩, ?_, ?_⟩
  · change size < (i :: ps).length * 2
    rw [List.length_cons]
    omega
  · intro p hp
    rcases List.mem_cons.mp hp with rfl | hp
    · exact hself
    · exact hconfirms p hp

/-- A successful call acknowledges only what its recipient confirms. -/
theorem Leadership.Accounts.acknowledged (h : l.Accounts i owns confirms ready)
    (hsound : Sound i confirms) (howns : ∀ j, owns j → 0 ≤ j) {p : PeerId} {round : Round}
    (hround : ∀ j cursor, round = .replicate j cursor → confirms p j) :
    ∀ j ∈ Node.acknowledged l p round, confirms p j := by
  have hknown : ∀ j ∈ l.agreementsMatchedBy p, confirms p j := by
    intro j hj
    unfold agreementsMatchedBy at hj
    split at hj
    · cases hj
    · rename_i m hm
      obtain ⟨cursor, hcursor, rfl⟩ := Option.map_eq_some_iff.mp hm
      obtain ⟨hopen, hle⟩ := List.mem_filter.mp hj
      obtain ⟨a, ha, rfl⟩ := List.mem_map.mp hopen
      have hle : a.index ≤ cursor.matched := of_decide_eq_true hle
      have hzero := howns _ (h.agreement a ha).1
      exact hsound.back p _ _ (h.matched p cursor hcursor (Int.le_trans hzero hle)) hzero hle
  intro j hj
  cases round with
  | heartbeat => exact hknown j hj
  | replicate agreement cursor =>
      unfold Node.acknowledged at hj
      simp only at hj
      split at hj
      · exact hknown j hj
      · rcases List.mem_append.mp hj with hold | hnew
        · exact hknown j hold
        · obtain rfl := List.mem_singleton.mp hnew
          exact hround _ cursor rfl

/-- Whatever a leader with right accounts can commit is confirmed by a majority. -/
theorem Leadership.Accounts.backed (h : ∀ l, n.role = .leader l → l.Accounts i owns confirms ready)
    (hsound : Sound i confirms) (hsize : n.clusterSize = size)
    (habsent : LogIndex.absent ≤ n.commitIndex) (hj : n.CanCommit j) : Backed size confirms j := by
  obtain ⟨l, hrole, ⟨a, ha, hmajority⟩ | ⟨hlt, hcovered⟩⟩ := hj
  · have hindex : a.index = j := by simpa using List.find?_some ha
    obtain ⟨-, hacks⟩ := (h l hrole).agreement a (List.mem_of_find?_eq_some ha)
    rw [hsize] at hmajority
    rw [hindex] at hacks
    exact ⟨a.acks, hmajority, hacks⟩
  · have hzero : 0 ≤ j := by
      unfold LogIndex.absent at habsent
      lia
    rcases foldl_max_mem (l.matchIndices.filter fun v =>
        n.commitIndex < v ∧ n.clusterSize ≤ (l.matchIndices.countP (v ≤ ·)) * 2) n.commitIndex with
      hsame | hmem
    · have hcommit : j = n.commitIndex := hcovered.trans hsame
      lia
    · have hmem' : n.coveredIndex l ∈ _ := hmem
      rw [← hcovered] at hmem'
      obtain ⟨hmatch, hhalf⟩ := List.mem_filter.mp hmem'
      have hhalf := (of_decide_eq_true hhalf).2
      rw [hsize] at hhalf
      exact (h l hrole).backed_of_matched hsound hzero hhalf ⟨j, hmatch, Int.le_refl _⟩

/-- A turn of a leader with right accounts. What it has committed since `start` is confirmed. -/
structure Turn.Sound (size : Nat) (i : PeerId) (owns : LogIndex → Prop)
    (confirms ready : PeerId → LogIndex → Prop) (start : LogIndex) (t : Turn α) : Prop where
  seat : t.node.id = i
  width : t.node.clusterSize = size
  absent_le : LogIndex.absent ≤ t.node.commitIndex
  accounts : ∀ l, t.node.role = .leader l → l.Accounts i owns confirms ready
  commit : t.node.commitIndex = start ∨ ∃ j, t.node.commitIndex ≤ j ∧ Backed size confirms j

theorem Turn.Sound.mapLead (h : t.Sound size i owns confirms ready j) {f : Leadership → Leadership}
    (hf : ∀ l, l.Accounts i owns confirms ready → (f l).Accounts i owns confirms ready) :
    (t.mapLead f).Sound size i owns confirms ready j := by
  refine ⟨h.seat, h.width, h.absent_le, ?_, h.commit⟩
  intro l hl
  obtain ⟨lead, hlead, rfl⟩ := Role.of_mapLead hl
  exact hf lead (h.accounts lead hlead)

/-- Right accounts are kept by every step in the course of commitment. -/
theorem Turn.Sound.step (hsound : Quorum.Sound i confirms) (howns : ∀ j, owns j → confirms i j)
    (h : t.Sound size i owns confirms ready j)
    (hstep : t.Step owns (fun k p => confirms p k) u) : u.Sound size i owns confirms ready j := by
  cases hstep with
  | dequeue k => exact h.mapLead fun l hl => hl.dequeue k
  | openAgreement k hk hprev =>
      refine h.mapLead fun l hl => hl.openAgreement hk ?_
      rw [h.seat]
      exact howns k hk
  | ask k hk hprev => exact ⟨h.seat, h.width, h.absent_le, h.accounts, h.commit⟩
  | acknowledge k p hp => exact h.mapLead fun l hl => hl.acknowledge hp
  | commit k hk =>
      have hbacked := Leadership.Accounts.backed h.accounts hsound h.width h.absent_le hk
      have hraised : (applyCommitted { t with node :=
          { t.node with commitIndex := max t.node.commitIndex (min k t.node.log.lastIndex) } }).Sound
            size i owns confirms ready j := by
        refine ⟨h.seat, h.width, Int.le_trans h.absent_le (Int.le_max_left _ _), h.accounts, ?_⟩
        change max t.node.commitIndex (min k t.node.log.lastIndex) = j ∨
          ∃ j', max t.node.commitIndex (min k t.node.log.lastIndex) ≤ j' ∧ _
        rcases Int.le_total (min k t.node.log.lastIndex) t.node.commitIndex with hle | hle
        · rw [Int.max_eq_left hle]
          exact h.commit
        · rw [Int.max_eq_right hle]
          exact Or.inr ⟨k, Int.min_le_left _ _, hbacked⟩
      exact hraised.mapLead fun l hl => hl.closeThrough _

theorem Turn.Sound.steps (hsound : Quorum.Sound i confirms) (howns : ∀ j, owns j → confirms i j)
    (h : t.Sound size i owns confirms ready j)
    (hsteps : t.Steps owns (fun k p => confirms p k) u) : u.Sound size i owns confirms ready j := by
  induction hsteps with
  | refl => exact h
  | tail _ hstep ih => exact ih.step hsound howns hstep

end Commitment

/-- What it takes for a node at `i` to keep right accounts through an event: they were right if it
led before, a new leader finds the others ready, what is stored is its own, and a success that is
counted is the word of another member that confirms what the call claims. -/
structure Node.Accountable (i : PeerId) (owns : LogIndex → Prop)
    (confirms ready : PeerId → LogIndex → Prop) (n : Node α) (e : Event α) : Prop where
  sound : Sound i confirms
  own : ∀ j, owns j → 0 ≤ j ∧ confirms i j
  back : ∀ p j, 0 < j → ready p j → ready p (j - 1)
  kept : ∀ l, n.role = .leader l → l.Accounts i owns confirms ready
  fresh : ¬ n.isLeader → ∀ p, ready p (n.log.length : Int)
  stored : ∀ command, e = .submit command → n.isLeader → owns (n.log.length : Int)
  claimed : ∀ sender context reply, e = .appendReturned sender context (some reply) →
    reply.success = true → n.isLeader → context.generation = n.generation → sender ≠ i ∧
      (∀ k, context.Claims k → confirms sender k) ∧
      ∀ k, context.lastSent = some k → ready sender k.next

namespace Node.Accountable

variable {size : Nat} {i : PeerId} {owns : LogIndex → Prop} {confirms ready : PeerId → LogIndex → Prop}
  {n : Node α} {e : Event α}

/-- The accounts are right once the leader has recorded how far a member has followed. -/
theorem recorded (h : n.Accountable i owns confirms ready e) {sender : PeerId}
    {context : AppendContext} {reply : AppendReply}
    (he : e = .appendReturned sender context (some reply)) (hsuccess : reply.success = true)
    (hleader : n.isLeader) (hgen : context.generation = n.generation) {l : Leadership}
    (hl : (n.idle.record sender context).node.role = .leader l) :
    l.Accounts i owns confirms ready := by
  obtain ⟨hother, hclaimed, hready⟩ := h.claimed sender context reply he hsuccess hleader hgen
  unfold Turn.record at hl
  cases hlast : context.lastSent with
  | none =>
      rw [hlast] at hl
      exact h.kept l hl
  | some k =>
      rw [hlast] at hl
      obtain ⟨lead, hlead, rfl⟩ := Role.of_mapLead hl
      exact (h.kept lead hlead).recordSuccess hother (hclaimed k (Or.inl hlast)) (hready k hlast)

/-- Every acknowledgement that is counted then is confirmed. -/
theorem acknowledged (h : n.Accountable i owns confirms ready e) {sender : PeerId}
    {context : AppendContext} {reply : AppendReply}
    (he : e = .appendReturned sender context (some reply)) (hsuccess : reply.success = true)
    (hleader : n.isLeader) (hgen : context.generation = n.generation) {l : Leadership}
    (hl : (n.idle.record sender context).node.role = .leader l) :
    ∀ j ∈ acknowledged l sender context.round, confirms sender j := by
  obtain ⟨-, hclaimed, -⟩ := h.claimed sender context reply he hsuccess hleader hgen
  apply (h.recorded he hsuccess hleader hgen hl).acknowledged h.sound
  · intro j hj
    exact (h.own j hj).1
  · intro j cursor hround
    exact hclaimed j (Or.inr ⟨cursor, hround⟩)

/-- Whatever agreement may be sought on next is the leader's own. -/
theorem opens (h : n.Accountable i owns confirms ready e) (hleader : (n.after e).isLeader)
    {j : LogIndex}
    (hj : n.Awaits j ∨ (∃ command, e = .submit command) ∧ j = (n.log.length : Int)) : owns j := by
  rcases hj with ⟨l, hl, hj⟩ | ⟨⟨command, rfl⟩, rfl⟩
  · exact (h.kept l hl).waiting j hj
  · apply h.stored command rfl
    rw [← (n.submit_sameOffice command).isLeader]
    exact hleader

/-- A node that leads after the event keeps right accounts, and what it has committed in the event
is confirmed by a majority. -/
theorem after (h : n.Accountable i owns confirms ready e) (hid : n.id = i)
    (hsize : n.clusterSize = size) (habsent : LogIndex.absent ≤ n.commitIndex)
    (hleader : (n.after e).isLeader) :
    (∀ l, (n.after e).role = .leader l → l.Accounts i owns confirms ready) ∧
      ((n.after e).commitIndex = n.commitIndex ∨
        ∃ j, (n.after e).commitIndex ≤ j ∧ Backed size confirms j) := by
  have hturn {t : Turn α} (ht : t.Sound size i owns confirms ready n.commitIndex)
      (hsteps : t.Steps owns (fun k p => confirms p k) (n.handle e).2) :
      (∀ l, (n.after e).role = .leader l → l.Accounts i owns confirms ready) ∧
        ((n.after e).commitIndex = n.commitIndex ∨
          ∃ j, (n.after e).commitIndex ≤ j ∧ Backed size confirms j) := by
    have hend := ht.steps h.sound (fun j hj => (h.own j hj).2) hsteps
    exact ⟨hend.accounts, hend.commit⟩
  have hreign : n.Reign owns (fun k p => confirms p k) e := by
    apply after_reign hleader fun j hj => h.opens hleader hj
    intro sender context reply l he hsuccess hold hgen hl
    exact h.acknowledged he hsuccess hold hgen hl
  cases hreign with
  | hold hrole hlog hcommit =>
      refine ⟨?_, Or.inl hcommit⟩
      intro l hl
      rw [hrole] at hl
      exact h.kept l hl
  | accede hbefore hrole hlog hcommit hgen =>
      refine ⟨?_, Or.inl hcommit⟩
      intro l hl
      obtain rfl := Role.leader.inj (hrole.symm.trans hl)
      exact .fresh i (h.fresh hbefore)
  | store command he hold hsteps =>
      refine hturn ⟨hid, hsize, habsent, ?_, Or.inl rfl⟩ hsteps
      intro l hl
      obtain ⟨lead, hlead, rfl⟩ := Role.of_mapLead hl
      apply (h.kept lead hlead).enqueue
      apply h.opens hleader
      exact Or.inr ⟨⟨command, he⟩, Log.lastIndex_append_one _ _⟩
  | count sender context reply he hold hgen hsuccess hsteps =>
      have hoffice := record_sameOffice n.idle sender context
      have hcommit : (n.idle.record sender context).node.commitIndex = n.commitIndex := by
        unfold Turn.record
        split <;> rfl
      refine hturn ⟨hoffice.id.trans hid, hoffice.clusterSize.trans hsize, ?_, ?_, Or.inl hcommit⟩
        hsteps
      · rw [hcommit]
        exact habsent
      · intro l hl
        exact h.recorded he hsuccess hold hgen hl
  | retreat sender context reply he hold hrole hlog hcommit =>
      refine ⟨?_, Or.inl hcommit⟩
      intro l hl
      rw [hrole] at hl
      obtain ⟨lead, hlead, rfl⟩ := Role.of_mapLead hl
      exact (h.kept lead hlead).recordFailure sender h.back

end Node.Accountable

end Quorum
