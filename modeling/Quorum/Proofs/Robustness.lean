import Quorum.Proofs.Bounds
import Quorum.Proofs.Provenance

/-!
No message stops the machine. Within the bounds of what a node keeps, each checked handler goes
through and comes to what the node's own handler comes to; the only thing that can get in its way is
a list of members that is too long to be addressed. So it is for every life of a node, whatever
requests arrive and however its own calls are answered.
-/

namespace Quorum

variable {α β γ : Type}

theorem Tally.size_le {t : Tally} {size : Nat} (h : ∀ p ∈ t.peers, p < size) : t.size ≤ size := by
  have hsub : t.peers ⊆ List.range size := fun p hp => List.mem_range.mpr (h p hp)
  have hle := (List.subperm_of_subset t.nodup hsub).length_le
  rw [List.length_range] at hle
  exact hle

namespace Checked

theorem bind_ok (x : β) (f : β → Checked γ) : (Except.ok x : Checked β) >>= f = f x := rfl

theorem bind_error (e : Fault) (f : β → Checked γ) :
    (Except.error e : Checked β) >>= f = .error e := rfl

theorem mapM_eq {f : β → Checked γ} {g : β → γ} {xs : List β} (h : ∀ x ∈ xs, f x = .ok (g x)) :
    xs.mapM f = .ok (xs.map g) := by
  induction xs with
  | nil => rfl
  | cons x xs ih =>
      obtain ⟨hx, hxs⟩ := List.forall_mem_cons.mp h
      rw [List.mapM_cons, hx, bind_ok, ih hxs]
      rfl

theorem foldlM_eq {f : γ → β → Checked γ} {g : γ → β → γ} {xs : List β} (y : γ)
    (h : ∀ x ∈ xs, ∀ y, f y x = .ok (g y x)) : xs.foldlM f y = .ok (xs.foldl g y) := by
  induction xs generalizing y with
  | nil => rfl
  | cons x xs ih =>
      obtain ⟨hx, hxs⟩ := List.forall_mem_cons.mp h
      rw [List.foldlM_cons, hx, bind_ok]
      exact ih (g y x) hxs

/-- Twice the number of members fits a word, if a vector can hold all of them but one. -/
theorem double_fits {k size : Nat} (hk : k ≤ size) (hsize : size ≤ vectorLimit + 1) :
    k * 2 ≤ 0xFFFFFFFFFFFFFFFF := by
  unfold vectorLimit at hsize
  omega

section Leaders

variable {size : Nat} {l : Leadership}

theorem modify_eq_set {xs : List β} {p : Nat} {x : β} (h : xs[p]? = some x) (f : β → β) :
    xs.modify p f = xs.set p (f x) := by
  rw [List.modify_eq_set_getElem?, h]
  rfl

theorem set_self {xs : List β} {p : Nat} {x : β} (h : xs[p]? = some x) : xs.set p x = xs := by
  obtain ⟨hlt, rfl⟩ := List.getElem?_eq_some_iff.mp h
  exact List.set_getElem_self hlt

theorem recordSuccess_eq (l : Leadership) (p : PeerId) (k : LogIndex) :
    recordSuccess l p k = .ok (l.recordSuccess p k) := by
  unfold recordSuccess Leadership.recordSuccess
  split
  · rename_i hout
    have hsame : l.cursors.modify p (fun c => ⟨k.next, max c.matched k⟩) = l.cursors :=
      List.modify_eq_self hout
    rw [hsame]
    rfl
  · rename_i hin
    have hget : l.cursors[p]? = some l.cursors[p] := List.getElem?_eq_getElem (by omega)
    unfold item
    rw [modify_eq_set hget, hget]
    rfl

theorem recordFailure_eq (h : l.Fits size) (p : PeerId) :
    recordFailure l p = .ok (l.recordFailure p) := by
  unfold recordFailure Leadership.recordFailure
  cases hget : l.cursors[p]? with
  | none =>
      rw [List.modify_eq_self (List.getElem?_eq_none_iff.mp hget)]
      rfl
  | some c =>
      have hfits := h.cursor c (List.mem_of_getElem? hget)
      have habsent : LogIndex.absent ≤ c.next := Int.le_trans (by decide) hfits.nonneg
      rw [modify_eq_set hget]
      by_cases hpos : 0 < c.next
      · simp only [hpos, if_true, prev_eq habsent hfits.next_le]
        rfl
      · simp only [hpos, if_false, set_self hget]
        rfl

theorem mapLead_eq {t : Turn α} {f : Leadership → Checked Leadership} {g : Leadership → Leadership}
    (h : ∀ l, t.node.role = .leader l → f l = .ok (g l)) : mapLead t f = .ok (t.mapLead g) := by
  unfold mapLead Turn.mapLead
  cases hrole : t.node.role with
  | leader l =>
      simp only [h l hrole]
      rfl
  | follower leader =>
      simp only [Role.mapLead, ← hrole]
      rfl
  | candidate votes =>
      simp only [Role.mapLead, ← hrole]
      rfl

theorem freshLead_eq {clusterSize : Nat} {log : Log α} (hlog : (log.length : Int) ≤ LogIndex.last)
    (hsize : clusterSize ≤ vectorLimit) :
    freshLead clusterSize log.length = .ok (.fresh clusterSize log.length) := by
  unfold freshLead vector
  rw [if_pos (by rw [List.length_replicate]; exact hsize), ofWord_of_le hlog]
  rfl

theorem freshLead_error {clusterSize : Nat} (length : Nat) (hsize : vectorLimit < clusterSize) :
    freshLead clusterSize length = .error .capacity := by
  unfold freshLead vector
  rw [if_neg (by rw [List.length_replicate]; omega)]
  rfl

end Leaders

section Calls

variable {n : Node α}

/-- A piece of the log ends within the log. -/
theorem lastSent?_eq {next : LogIndex} {entries : List (Entry α)}
    (hreach : (next.toNat : Int) + entries.length ≤ LogIndex.last ∨ entries = []) :
    lastSent? next entries =
      .ok (if entries = [] then none else some (next.toNat + entries.length - 1)) := by
  unfold lastSent?
  rw [position?_getD]
  cases entries with
  | nil => rfl
  | cons e rest =>
      have hfits := hreach.resolve_right (List.cons_ne_nil e rest)
      have hlength : (e :: rest).length = rest.length + 1 := rfl
      rw [hlength] at hfits ⊢
      have hword : word ((next.toNat : Int) + ((rest.length + 1 : Nat) : Int)) =
          .ok (next.toNat + rest.length + 1) := by
        refine word_eq (by lia) ?_
        unfold LogIndex.last at hfits
        lia
      have hlast : word (((next.toNat + rest.length + 1 : Nat) : Int) - 1) =
          .ok (next.toNat + rest.length) := by
        refine word_eq (by lia) ?_
        unfold LogIndex.last at hfits
        lia
      have hindex : LogIndex.ofWord (next.toNat + rest.length) =
          (next.toNat : Int) + ((rest.length + 1 : Nat) : Int) - 1 := by
        rw [ofWord_of_le (by lia)]
        lia
      simp only [List.isEmpty_cons, Bool.false_eq_true, if_false, hword, bind_ok, hlast, hindex,
        reduceCtorEq]
      rfl

theorem appendCall?_eq (h : n.Fits) (peer : PeerId) (round : Round) (last : LogIndex) :
    appendCall? n peer round last = .ok (n.appendCall? peer round last) := by
  unfold appendCall? Node.appendCall?
  cases hrole : n.role with
  | follower leader => rfl
  | candidate votes => rfl
  | leader l =>
      simp only [Role.lead?, Option.bind_some, Option.bind_eq_bind]
      cases hnext : l.next? peer with
      | none => rfl
      | some next =>
          obtain ⟨hnonneg, hle, -⟩ := (h.lead l hrole).next_fits hnext
          have hprev := prev_eq (Int.le_trans (by decide) hnonneg : LogIndex.absent ≤ next) hle
          have hreach : (next.toNat : Int) + (n.log.slice next last).length ≤ LogIndex.last ∨
              n.log.slice next last = [] := by
            have hlog := h.log
            have hlength := n.log.length_slice_eq next last
            rw [← List.length_eq_zero_iff]
            lia
          simp only [slice_eq, bind_ok, hprev, lastSent?_eq hreach, Option.bind_some]
          rfl

theorem replicateCall?_eq (h : n.Fits) (peer : PeerId) (agreement cursor : LogIndex) :
    replicateCall? n peer agreement cursor = .ok (n.replicateCall? peer agreement cursor) := by
  have hnext : n.commitIndex.next = n.commitIndex + 1 := if_pos h.commit
  unfold replicateCall? Node.replicateCall?
  rw [lastIndex_eq h.log, bind_ok, hnext]
  exact appendCall?_eq h peer _ _

theorem length_others (h : n.id < n.clusterSize) : n.others.length + 1 = n.clusterSize := by
  have hmem : n.id ∈ List.range n.clusterSize := List.mem_range.mpr h
  have herase : n.others = (List.range n.clusterSize).erase n.id := by
    rw [List.nodup_range.erase_eq_filter]
    unfold Node.others
    exact List.filter_congr fun p _ => by by_cases hp : p = n.id <;> simp [hp]
  rw [herase, List.length_erase_of_mem hmem, List.length_range]
  exact Nat.sub_add_cancel (Nat.lt_of_le_of_lt (Nat.zero_le _) h)

theorem vector_others (h : n.id < n.clusterSize) (hlisted : n.clusterSize ≤ vectorLimit + 1) :
    vector n.others = .ok n.others := by
  have hlength := length_others h
  unfold vector
  rw [if_pos (by omega)]

theorem vector_others_error (h : n.id < n.clusterSize) (hlong : vectorLimit + 1 < n.clusterSize) :
    vector n.others = .error .capacity := by
  have hlength := length_others h
  unfold vector
  rw [if_neg (by omega)]

theorem callOthers_eq (h : n.Fits) (hlisted : n.clusterSize ≤ vectorLimit + 1)
    {call? : PeerId → Checked (Option (Action α))} {g : PeerId → Option (Action α)}
    (hcall : ∀ p, call? p = .ok (g p)) : callOthers n call? = .ok (n.others.filterMap g) := by
  unfold callOthers
  rw [vector_others h.member hlisted, bind_ok, mapM_eq fun p _ => hcall p, bind_ok,
    List.filterMap_map]
  rfl

theorem heartbeats_eq (h : n.Fits) (hlisted : n.clusterSize ≤ vectorLimit + 1) :
    heartbeats n = .ok n.heartbeats := by
  unfold heartbeats
  rw [lastIndex_eq h.log, bind_ok]
  exact callOthers_eq h hlisted fun p => appendCall?_eq h p _ _

end Calls

section Commitment

variable {size : Nat} {t : Turn α}

theorem listed_of_lead (h : t.Fits size) {l : Leadership} (hl : t.node.role = .leader l) :
    t.node.clusterSize ≤ vectorLimit + 1 := by
  refine h.node.listed ?_
  rw [hl]
  exact RoleKind.noConfusion

theorem acks_fit (h : t.Fits size) {l : Leadership} (hl : t.node.role = .leader l) {acks : Tally}
    (hacks : ∀ p ∈ acks.peers, p < t.node.clusterSize) : acks.size * 2 ≤ 0xFFFFFFFFFFFFFFFF :=
  double_fits (Tally.size_le hacks) (listed_of_lead h hl)

theorem commitThrough_eq (h : t.Fits size) (last : LogIndex) :
    commitThrough t last = .ok (t.commitThrough last) := by
  unfold commitThrough
  rw [lastIndex_eq h.node.log]
  rfl

/-- An agreement that can be found is a leader's. -/
theorem exists_lead_of_agreement {r : Role} {i : LogIndex} {a : Agreement}
    (h : r.lead?.bind (·.agreement? i) = some a) :
    ∃ l, r = .leader l ∧ a ∈ l.agreements := by
  obtain ⟨l, hlead, ha⟩ := Option.bind_eq_some_iff.mp h
  cases r with
  | leader lead =>
      obtain rfl := Option.some.inj hlead
      exact ⟨lead, rfl, List.mem_of_find?_eq_some ha⟩
  | _ => cases hlead

theorem startAgreement_eq (h : t.Fits size) (i : LogIndex) :
    startAgreement t i = .ok (t.startAgreement i) := by
  have hid : t.node.id < size := h.clusterSize ▸ h.node.member
  have hopened : (t.mapLead (·.openAgreement i t.node.id)).Fits size :=
    h.mapLead fun l hl => hl.openAgreement i hid
  unfold startAgreement Turn.startAgreement
  simp only
  cases ha : (t.mapLead (·.openAgreement i t.node.id)).node.role.lead?.bind (·.agreement? i) with
  | none => rfl
  | some a =>
      obtain ⟨l, hl, hmem⟩ := exists_lead_of_agreement ha
      have hlisted := listed_of_lead hopened hl
      simp only
      rw [isMajority_bind (acks_fit hopened hl ((hopened.node.lead l hl).acks a hmem))]
      split
      · exact commitThrough_eq hopened i
      · rw [callOthers_eq hopened.node hlisted fun p => replicateCall?_eq hopened.node p i i]
        rfl

theorem resumeFrom_eq (h : t.Fits size) {is : List LogIndex} (his : ∀ i ∈ is, LogIndex.Fits i) :
    resumeFrom is t = .ok (Turn.resumeFrom is t) := by
  induction is generalizing t with
  | nil => rfl
  | cons i rest ih =>
      obtain ⟨hi, hrest⟩ := List.forall_mem_cons.mp his
      have htaken : (t.mapLead (·.dequeue i)).Fits size := h.mapLead fun l hl => hl.dequeue i
      unfold resumeFrom Turn.resumeFrom
      rw [prev_eq hi.1 hi.2, bind_ok]
      by_cases hwait : t.node.commitIndex < i.prev
      · simp only [hwait, if_true]
        rfl
      · simp only [hwait, if_false]
        by_cases hdone : i.prev < (t.mapLead (·.dequeue i)).node.commitIndex
        · simp only [hdone, if_true]
          exact ih htaken hrest
        · simp only [hdone, if_false]
          have hprev : i.prev = (t.mapLead (·.dequeue i)).node.commitIndex :=
            Int.le_antisymm (Int.not_lt.mp hwait) (Int.not_lt.mp hdone)
          have hstarted : ((t.mapLead (·.dequeue i)).startAgreement i).Fits size :=
            htaken.steps (Turn.startAgreement_steps hi hprev)
          rw [startAgreement_eq htaken, bind_ok]
          exact ih hstarted hrest

theorem resumeAgreements_eq (h : t.Fits size) : resumeAgreements t = .ok t.resumeAgreements := by
  unfold resumeAgreements Turn.resumeAgreements
  cases hl : t.node.role with
  | leader l => exact resumeFrom_eq h (h.node.lead l hl).waiting
  | follower leader => rfl
  | candidate votes => rfl

theorem advanceCommit_eq (h : t.Fits size) (last : LogIndex) :
    advanceCommit t last = .ok (t.advanceCommit last) := by
  unfold advanceCommit
  rw [commitThrough_eq h, bind_ok]
  exact resumeAgreements_eq (h.commitThrough last)

theorem acknowledge_eq (h : t.Fits size) (i : LogIndex) {p : PeerId} (hp : p < size) :
    acknowledge t i p = .ok (t.acknowledge i p) := by
  have hcounted : (t.mapLead (·.acknowledge i p)).Fits size :=
    h.mapLead fun l hl => hl.acknowledge i hp
  unfold acknowledge Turn.acknowledge
  cases ha : t.node.role.lead?.bind (·.agreement? i) with
  | none => rfl
  | some a =>
      obtain ⟨l, hl, hmem⟩ := exists_lead_of_agreement ha
      have hpeers : ∀ q ∈ (a.acks.add p).peers,
          q < (t.mapLead (·.acknowledge i p)).node.clusterSize := by
        intro q hq
        rcases Tally.mem_add.mp hq with hold | rfl
        · exact (h.node.lead l hl).acks a hmem q hold
        · exact hcounted.clusterSize ▸ hp
      by_cases hknown : p ∈ a.acks.peers
      · simp only [hknown, if_true]
        rfl
      · simp only [hknown, if_false]
        rw [isMajority_bind (acks_fit hcounted (Turn.mapLead_role hl _) hpeers)]
        split
        · exact advanceCommit_eq hcounted i
        · rfl

theorem foldlM_acknowledge_eq (h : t.Fits size) (is : List LogIndex) {p : PeerId} (hp : p < size) :
    is.foldlM (acknowledge · · p) t = .ok (is.foldl (·.acknowledge · p) t) := by
  induction is generalizing t with
  | nil => rfl
  | cons i rest ih =>
      have hcounted : (t.acknowledge i p).Fits size :=
        h.steps (Turn.acknowledge_steps hp fun j hj => h.awaits hj)
      rw [List.foldlM_cons, acknowledge_eq h i hp, bind_ok]
      exact ih hcounted

theorem coveredIndex_eq {n : Node α} {l : Leadership} (hwidth : l.cursors.length = n.clusterSize)
    (hlisted : n.clusterSize ≤ vectorLimit + 1) :
    coveredIndex n l = .ok (n.coveredIndex l) := by
  have hcover (v highest : LogIndex) : cover n l highest v =
      .ok (if n.clusterSize ≤ l.matchIndices.countP (v ≤ ·) * 2 then max highest v
        else highest) := by
    have hcount : l.matchIndices.countP (v ≤ ·) ≤ n.clusterSize := by
      rw [← hwidth, ← List.length_map (·.matched)]
      exact List.countP_le_length
    have hword : word ((l.matchIndices.countP (v ≤ ·) : Int) * 2) =
        .ok (l.matchIndices.countP (v ≤ ·) * 2) := word_eq (by lia) (double_fits hcount hlisted)
    unfold cover
    rw [hword]
    rfl
  unfold coveredIndex Node.coveredIndex
  rw [foldlM_eq _ fun v _ highest => hcover v highest]
  congr 1
  rw [List.foldl_filter, List.foldl_filter]
  congr 1
  funext highest v
  by_cases hhigher : n.commitIndex < v
  · simp [hhigher]
  · simp [hhigher]

theorem commitCovered_eq (h : t.Fits size) : commitCovered t = .ok t.commitCovered := by
  unfold commitCovered Turn.commitCovered
  cases hl : t.node.role with
  | leader l =>
      simp only
      rw [coveredIndex_eq (h.node.lead l hl).width (listed_of_lead h hl), bind_ok]
      split
      · exact advanceCommit_eq h _
      · rfl
  | follower leader => rfl
  | candidate votes => rfl

end Commitment

section Handlers

variable {size : Nat} {t : Turn α} {n : Node α}

/-- Either all goes well, or the members are too many to be kept in a vector. -/
def Goes (size : Nat) (x : Checked β) (y : β) : Prop :=
  x = .ok y ∨ x = .error .capacity ∧ vectorLimit < size

theorem Goes.bind {x : Checked β} {y : β} (h : Goes size x y) {f : β → Checked γ} {z : γ}
    (hf : f y = .ok z) : Goes size (x >>= f) z := by
  rcases h with rfl | ⟨rfl, hsize⟩
  · exact Or.inl hf
  · exact Or.inr ⟨rfl, hsize⟩

theorem becomeLeader_eq (h : t.Fits size) (hsize : size ≤ vectorLimit) :
    becomeLeader t = .ok t.becomeLeader := by
  have hinstalled := h.installed (by omega)
  have hmembers : t.node.clusterSize ≤ vectorLimit := by
    rw [h.clusterSize]
    exact hsize
  have hlead := freshLead_eq h.node.log hmembers
  have hcalls := heartbeats_eq hinstalled.node (by rw [hinstalled.clusterSize]; omega)
  unfold becomeLeader Turn.becomeLeader
  rw [hlead, bind_ok]
  simp only
  rw [hcalls, bind_ok]
  rfl

theorem becomeLeader_goes (h : t.Fits size) : Goes size (becomeLeader t) t.becomeLeader := by
  by_cases hsize : size ≤ vectorLimit
  · exact Or.inl (becomeLeader_eq h hsize)
  · have hlong : vectorLimit < size := Nat.lt_of_not_le hsize
    refine Or.inr ⟨?_, hlong⟩
    unfold becomeLeader
    rw [freshLead_error _ (by rw [h.clusterSize]; exact hlong)]
    rfl

/-- The members are listed before anything else is done about an election. -/
theorem standForElection_steps (n : Node α) : standForElection n = (do
    let others ← vector n.others
    let won ← isMajority (.single n.id) n.clusterSize
    if won then becomeLeader (n.nominee.askVotes others)
    else return n.nominee.askVotes others) := rfl

theorem standForElection_eq (h : n.Fits) (hlisted : n.clusterSize ≤ vectorLimit + 1) :
    standForElection n = .ok n.standForElection := by
  have hasked := h.askVotes hlisted
  have hvote : (Tally.single n.id).size * 2 ≤ 0xFFFFFFFFFFFFFFFF := by
    change 1 * 2 ≤ 0xFFFFFFFFFFFFFFFF
    decide
  rw [standForElection_steps, vector_others h.member hlisted, bind_ok, isMajority_bind hvote,
    Node.standForElection_eq]
  split
  · rename_i hwon
    have hone : n.clusterSize ≤ vectorLimit := by
      have htwo : n.clusterSize < 2 := hwon
      unfold vectorLimit
      omega
    exact becomeLeader_eq hasked hone
  · rfl

theorem standForElection_error (h : n.Fits) (hlong : vectorLimit + 1 < n.clusterSize) :
    standForElection n = .error .capacity := by
  rw [standForElection_steps, vector_others_error h.member hlong]
  rfl

theorem heartbeatTimeout_eq (h : n.Fits) : heartbeatTimeout n = .ok n.heartbeatTimeout := by
  unfold heartbeatTimeout Node.heartbeatTimeout
  by_cases hleader : n.isLeader
  · obtain ⟨l, hl⟩ := Node.exists_lead hleader
    rw [if_pos hleader, if_pos hleader, heartbeats_eq h (listed_of_lead h.idle hl)]
    rfl
  · rw [if_neg hleader, if_neg hleader]
    rfl

theorem submit_eq (h : n.Fits) (command : α)
    (hlog : ((n.submit command).2.node.log.length : Int) ≤ LogIndex.last) :
    submit n command = .ok (n.submit command) := by
  by_cases hleader : n.isLeader
  · rw [Node.submit_log hleader] at hlog
    have hstored := h.stored (by rw [List.length_append] at hlog; exact hlog) command
    have hresumed : resumeAgreements (n.stored command) = .ok (n.stored command).resumeAgreements :=
      resumeAgreements_eq hstored
    unfold submit Node.submit
    rw [if_pos hleader, if_pos hleader]
    simp only
    rw [lastIndex_eq hlog, bind_ok]
    change (resumeAgreements (n.stored command) >>= fun t => pure (_, t)) = _
    rw [hresumed]
    rfl
  · unfold submit Node.submit
    rw [if_neg hleader, if_neg hleader]
    rfl

theorem voteReturned_goes (h : n.Fits) {sender : PeerId} (hsender : sender < n.clusterSize)
    (generation : Generation) (reply : Option VoteReply) :
    Goes n.clusterSize (voteReturned n sender generation reply)
      (n.voteReturned sender generation reply) := by
  cases reply with
  | none => exact Or.inl rfl
  | some r =>
      have hterm := h.idle.observeTerm r.term
      simp only [voteReturned, Node.voteReturned]
      cases hrole : (n.idle.observeTerm r.term).node.role with
      | follower leader => exact Or.inl rfl
      | leader l => exact Or.inl rfl
      | candidate votes =>
          simp only
          split
          · have hcounted := hterm.count hrole hsender
            have hvotes : (votes.add sender).size * 2 ≤ 0xFFFFFFFFFFFFFFFF :=
              double_fits (Tally.size_le (hcounted.node.votes _ rfl))
                (hcounted.node.listed RoleKind.noConfusion)
            rw [isMajority_bind hvotes]
            split
            · exact becomeLeader_goes hcounted
            · exact Or.inl rfl
          · exact Or.inl rfl

theorem record_eq (n : Node α) (sender : PeerId) (context : AppendContext) :
    record n.idle sender context = .ok (n.idle.record sender context) := by
  unfold record Turn.record
  cases context.lastSent with
  | none => rfl
  | some k => exact mapLead_eq fun l _ => recordSuccess_eq l sender k

theorem appendAccepted_eq (h : n.Fits) {sender : PeerId} (hsender : sender < n.clusterSize)
    {context : AppendContext} (hcontext : context.Fits) :
    appendAccepted n.idle sender context = .ok (Node.appendAccepted n.idle sender context) := by
  have hrecorded := h.record hcontext sender
  unfold appendAccepted
  rw [record_eq, bind_ok]
  cases hl : (n.idle.record sender context).node.role with
  | follower leader =>
      rw [Node.appendAccepted_of_not_leader fun l => by simp [hl]]
      rfl
  | candidate votes =>
      rw [Node.appendAccepted_of_not_leader fun l => by simp [hl]]
      rfl
  | leader lead =>
      have hcounted : ((Node.acknowledged lead sender context.round).foldl
          (·.acknowledge · sender) (n.idle.record sender context)).Fits n.clusterSize :=
        hrecorded.steps (Turn.foldl_acknowledge_steps (fun _ _ => hsender)
          fun j hj => hrecorded.awaits hj)
      rw [Node.appendAccepted_of_leader hl]
      simp only
      rw [foldlM_acknowledge_eq hrecorded _ hsender, bind_ok]
      exact commitCovered_eq hcounted

theorem appendRejected_eq (h : n.Fits) (sender : PeerId) {context : AppendContext}
    (hcontext : context.Fits) : appendRejected n.idle sender context.round =
      .ok (Node.appendRejected n.idle sender context.round) := by
  have hfailed : mapLead n.idle (recordFailure · sender) =
      .ok (n.idle.mapLead (·.recordFailure sender)) :=
    mapLead_eq fun l hl => recordFailure_eq (h.lead l hl) sender
  cases hround : context.round with
  | heartbeat => exact hfailed
  | replicate agreement cursor =>
      obtain ⟨habsent, hlast⟩ := hcontext.cursor agreement cursor hround
      have hnode := (h.idle.mapLead fun l hl => hl.recordFailure sender).node
      simp only [appendRejected, Node.appendRejected]
      split
      · rw [hfailed, bind_ok, prev_eq habsent hlast, bind_ok, replicateCall?_eq hnode]
        rfl
      · rfl

theorem appendReturned_eq (h : n.Fits) {sender : PeerId} (hsender : sender < n.clusterSize)
    {context : AppendContext} (hcontext : context.Fits) (reply : Option AppendReply) :
    appendReturned n sender context reply = .ok (n.appendReturned sender context reply) := by
  cases reply with
  | none => rfl
  | some r =>
      simp only [appendReturned, Node.appendReturned]
      split
      · rfl
      · rename_i hcurrent
        -- Only a node that still leads under the generation of the call gets here.
        have hle : r.term ≤ n.term := by
          refine Nat.le_of_not_lt fun hlater => hcurrent (Or.inr ?_)
          obtain ⟨leader, hrole⟩ := Turn.observeTerm_role (t := n.idle) hlater
          simp [Node.isLeader, hrole, Role.isLeader]
        rw [Turn.observeTerm_of_le (t := n.idle) hle]
        split
        · exact appendAccepted_eq h hsender hcontext
        · exact appendRejected_eq h sender hcontext

theorem reconcile?_eq {log : Log α} (hlog : (log.length : Int) ≤ LogIndex.last)
    (args : AppendRequest α) : reconcile? log args = .ok (Node.reconcile? log args) := by
  unfold reconcile? Node.reconcile?
  cases hposition : args.prevLogIndex.position? with
  | none => rfl
  | some k =>
      simp only
      cases hheld : log.termAt? args.prevLogIndex with
      | none => rfl
      | some held =>
          have hlt : args.prevLogIndex < log.length := (Log.lt_length_of_termAt? hheld).2
          have hk : (k : Int) ≤ args.prevLogIndex := by
            unfold LogIndex.position? at hposition
            split at hposition
            · rename_i hnonneg
              obtain rfl := Option.some.inj hposition
              exact Int.le_of_eq (Int.toNat_of_nonneg hnonneg)
            · cases hposition
          have hword : word ((k : Int) + 1) = .ok (k + 1) := by
            refine word_eq (by lia) ?_
            unfold LogIndex.last at hlog
            lia
          simp only [hword, bind_ok]
          split
          · rfl
          · rfl

/-- What is kept of a log reaches to where the received entries are written. -/
theorem le_length_of_reconcile? {log kept : Log α} {args : AppendRequest α} {start : Nat}
    (h : Node.reconcile? log args = some (kept, start)) : start ≤ kept.length := by
  unfold Node.reconcile? at h
  split at h
  · obtain ⟨-, rfl⟩ := Prod.mk.inj (Option.some.inj h)
    exact Nat.zero_le _
  · rename_i k hposition
    split at h
    · cases h
    · rename_i held hheld
      have hk : k < log.length := by
        obtain ⟨hnonneg, hlt⟩ := Log.lt_length_of_termAt? hheld
        unfold LogIndex.position? at hposition
        rw [if_pos hnonneg] at hposition
        obtain rfl := Option.some.inj hposition
        lia
      split at h
      · obtain ⟨rfl, rfl⟩ := Prod.mk.inj (Option.some.inj h)
        exact hk
      · obtain ⟨rfl, rfl⟩ := Prod.mk.inj (Option.some.inj h)
        exact (List.length_take_of_le (Nat.le_of_lt hk)).ge

/-- Writing nothing leaves the log as it is. -/
theorem write_eq {log : Log α} {start : Nat} {incoming : List (Entry α)} (h : start ≤ log.length)
    (hlog : ((log.merge start incoming).length : Int) ≤ LogIndex.last) :
    write log start incoming = .ok (log.merge start incoming) := by
  unfold LogIndex.last at hlog
  cases incoming with
  | nil =>
      rw [Log.merge_nil]
      rfl
  | cons e rest => exact merge_eq h (by lia)

theorem commitWith_eq (h : t.Fits size) (leaderCommit : LogIndex) : commitWith t leaderCommit =
    .ok (if t.node.commitIndex < leaderCommit then t.advanceCommit leaderCommit
      else t.applyCommitted) := by
  unfold commitWith
  split
  · exact advanceCommit_eq h leaderCommit
  · rfl

theorem answerAppend_eq (h : n.Fits) (args : AppendRequest α)
    (hlog : ((n.answerAppend args).2.node.log.length : Int) ≤ LogIndex.last) :
    answerAppend n args = .ok (n.answerAppend args) := by
  have hheld : ((n.follow args).node.log.length : Int) ≤ LogIndex.last :=
    (h.follow args).node.log
  by_cases hterm : args.term < n.term
  · unfold answerAppend Node.answerAppend
    rw [if_pos hterm, if_pos hterm]
    rfl
  · unfold answerAppend
    simp only [hterm, if_false, reconcile?_eq hheld, bind_ok]
    cases hkept : Node.reconcile? (n.follow args).node.log args with
    | none =>
        simp only [Node.answerAppend, hterm, if_false, hkept]
        rfl
    | some kept =>
        obtain ⟨log, start⟩ := kept
        have hturn : n.answerAppend args = (⟨args.term, true⟩,
            if (n.written args (log.merge start args.entries)).node.commitIndex <
                args.leaderCommit then
              (n.written args (log.merge start args.entries)).advanceCommit args.leaderCommit
            else (n.written args (log.merge start args.entries)).applyCommitted) := by
          simp only [Node.answerAppend, hterm, if_false, hkept]
          rfl
        have hfollower : (n.written args (log.merge start args.entries)).node.role =
            .follower (some args.leaderId) := rfl
        have hmerged : ((log.merge start args.entries).length : Int) ≤ LogIndex.last := by
          rw [hturn, Turn.advanceCommit_of_follower hfollower] at hlog
          split at hlog
          · exact hlog
          · exact hlog
        have hcommitted := commitWith_eq (h.written args hmerged) args.leaderCommit
        simp only [write_eq (le_length_of_reconcile? hkept) hmerged, bind_ok]
        change (commitWith (n.written args (log.merge start args.entries)) args.leaderCommit >>=
          fun t => pure (_, t)) = _
        rw [hcommitted, hturn]
        rfl

/-- Every event that fits is handled as by the node itself, unless the members are too many to be
kept in a vector. -/
theorem handle_goes (h : n.Fits) {e : Event α} (he : e.Fits n.clusterSize)
    (hlog : ((n.after e).log.length : Int) ≤ LogIndex.last)
    (hlisted : e = .electionTimeout → ¬ n.isLeader → n.clusterSize ≤ vectorLimit + 1) :
    Goes n.clusterSize (handle n e) (n.handle e) := by
  cases e with
  | start => exact Or.inl rfl
  | electionTimeout =>
      refine Goes.bind (y := n.electionTimeout) (Or.inl ?_) rfl
      unfold electionTimeout Node.electionTimeout
      split
      · rfl
      · rename_i hleader
        exact standForElection_eq h (hlisted rfl hleader)
  | heartbeatTimeout => exact Goes.bind (Or.inl (heartbeatTimeout_eq h)) rfl
  | submit command => exact Goes.bind (Or.inl (submit_eq h command hlog)) rfl
  | voteRequest args => exact Or.inl rfl
  | appendRequest args => exact Goes.bind (Or.inl (answerAppend_eq h args hlog)) rfl
  | voteReturned sender generation reply => exact (voteReturned_goes h he generation reply).bind rfl
  | appendReturned sender context reply =>
      exact Goes.bind (Or.inl (appendReturned_eq h he.1 he.2 reply)) rfl

theorem handle_error (h : n.Fits) (hleader : ¬ n.isLeader)
    (hlong : vectorLimit + 1 < n.clusterSize) : handle n .electionTimeout = .error .capacity := by
  have hstopped : electionTimeout n = .error .capacity := by
    unfold electionTimeout
    rw [if_neg hleader]
    exact standForElection_error h hlong
  unfold handle
  simp only
  rw [hstopped, bind_error]

/-- One event: the machine gets through it as the node does, which stays within its bounds, or it
cannot list the members. -/
theorem handle_cases (h : n.Fits) {e : Event α} (he : e.Fits n.clusterSize)
    (hlog : ((n.after e).log.length : Int) ≤ LogIndex.last) :
    handle n e = .ok (n.handle e) ∧ (n.handle e).2.Fits n.clusterSize ∨
      handle n e = .error .capacity ∧ vectorLimit < n.clusterSize := by
  by_cases hlisted : e = .electionTimeout → ¬ n.isLeader → n.clusterSize ≤ vectorLimit + 1
  · exact (handle_goes h he hlog hlisted).imp_left fun hok => ⟨hok, h.handle he hlog hlisted⟩
  · push Not at hlisted
    obtain ⟨rfl, hleader, hlong⟩ := hlisted
    exact Or.inr ⟨handle_error h (by simp [hleader]) hlong, by omega⟩

end Handlers

end Checked

/-- Whether an event can happen to a node that has made certain calls. Requests come from anywhere
and ask for anything; an answer, whatever it says, comes to a call that has been made. -/
def Event.Possible (made : List (Action α)) : Event α → Prop
  | .voteReturned peer generation _ => ∃ args, .requestVote peer generation args ∈ made
  | .appendReturned peer context _ => ∃ args, .appendEntries peer context args ∈ made
  | _ => True

/-- The lives of a node on the machine, with all that it has ever asked for. A life lasts as long as
the log is one that can be indexed. -/
inductive Lifetime (id : PeerId) (size : Nat) : Node α → List (Action α) → Prop
  | fresh : Lifetime id size (.fresh id size) []
  | step {n : Node α} {made : List (Action α)} {e : Event α} {answer : Answer} {t : Turn α}
      (h : Lifetime id size n made) (he : e.Possible made)
      (hlog : (n.after e).log.length < 0x8000000000000000)
      (hstep : Checked.handle n e = .ok (answer, t)) :
      Lifetime id size t.node (made ++ t.actions)

/-- No index that a node keeps, or goes back to when a call is answered, lies below the one that
stands for none. -/
structure Node.Grounded (n : Node α) (made : List (Action α)) : Prop where
  commitIndex : LogIndex.absent ≤ n.commitIndex
  lastApplied : LogIndex.absent ≤ n.lastApplied
  cursors : ∀ l, n.role = .leader l →
    ∀ c ∈ l.cursors, LogIndex.absent ≤ c.next ∧ LogIndex.absent ≤ c.matched
  rounds : ∀ peer context args, .appendEntries peer context args ∈ made →
    ∀ i cursor, context.round = .replicate i cursor → LogIndex.absent ≤ cursor

section Lifetimes

variable {id : PeerId} {size : Nat} {n : Node α} {made : List (Action α)} {e : Event α}

theorem Node.fresh_fits (hid : id < size) : (Node.fresh id size : Node α).Fits where
  member := hid
  log := by
    change (0 : Int) ≤ LogIndex.last
    decide
  commit := by
    change LogIndex.absent < LogIndex.last
    decide
  listed := fun hother => absurd rfl hother
  votes := by
    intro votes hrole
    cases hrole
  lead := by
    intro l hl
    cases hl

theorem Event.Possible.fits (h : e.Possible made) (hmade : ∀ a ∈ made, a.Fits size) :
    e.Fits size := by
  cases e with
  | voteReturned peer generation reply =>
      obtain ⟨args, hmem⟩ := h
      exact hmade _ hmem
  | appendReturned peer context reply =>
      obtain ⟨args, hmem⟩ := h
      exact hmade _ hmem
  | _ => trivial

theorem Log.length_le_last {log : Log α} (h : log.length < 0x8000000000000000) :
    (log.length : Int) ≤ LogIndex.last := by
  unfold LogIndex.last
  lia

/-- All that a node keeps and has asked for stays within bounds, all its life. -/
theorem Lifetime.fits (hid : id < size) (h : Lifetime id size n made) :
    Turn.Fits size ⟨n, made⟩ ∧ n.Settled := by
  induction h with
  | fresh =>
      refine ⟨⟨rfl, Node.fresh_fits hid, ?_⟩, Node.fresh_settled id size⟩
      intro a ha
      cases ha
  | step h he hlog hstep ih =>
      obtain ⟨⟨hsize, hnode, hmade⟩, hsettled⟩ := ih
      obtain rfl := hsize
      rcases Checked.handle_cases hnode (he.fits hmade) (Log.length_le_last hlog) with
        ⟨hok, hfits⟩ | ⟨hstopped, -⟩
      · rw [hok] at hstep
        obtain ⟨-, rfl⟩ := Prod.mk.inj (Except.ok.inj hstep)
        refine ⟨⟨hfits.clusterSize, hfits.node, ?_⟩, hsettled.after _⟩
        intro a ha
        rcases List.mem_append.mp ha with hold | hnew
        · exact hmade a hold
        · exact hfits.actions a hnew
      · rw [hstopped] at hstep
        cases hstep

/-- As long as the members can be listed, a life goes on. -/
theorem Lifetime.after (hid : id < size) (hsize : size ≤ Checked.vectorLimit)
    (h : Lifetime id size n made) (he : e.Possible made)
    (hlog : (n.after e).log.length < 0x8000000000000000) :
    Lifetime id size (n.after e) (made ++ (n.handle e).2.actions) := by
  obtain ⟨hfits, -⟩ := h.fits hid
  rcases Checked.handle_cases hfits.node (hfits.clusterSize ▸ he.fits hfits.actions)
    (Log.length_le_last hlog) with ⟨hok, -⟩ | ⟨-, hlong⟩
  · exact h.step he hlog hok
  · exact absurd (hfits.clusterSize ▸ hlong) (Nat.not_lt.mpr hsize)

theorem Turn.Fits.grounded {n : Node α} (h : Turn.Fits size ⟨n, made⟩) (hsettled : n.Settled) :
    n.Grounded made where
  commitIndex := hsettled.absent_le
  lastApplied := by
    rw [hsettled.lastApplied]
    exact hsettled.absent_le
  cursors := by
    intro l hl c hc
    have hcursor := (h.node.lead l hl).cursor c hc
    exact ⟨Int.le_trans (by decide) hcursor.nonneg, hcursor.absent_le⟩
  rounds := by
    intro peer context args hmem i cursor hround
    exact ((h.actions _ hmem).2.cursor i cursor hround).1

/-- No message stops a node. Whatever its life has been, the machine handles the next event as the
node does, and no index sinks below the one that stands for none. Only a cluster with more members
than a vector can hold stops it, when the node stands for election or wins one. -/
theorem messages_harmless (hid : id < size) (h : Lifetime id size n made) (he : e.Possible made)
    (hlog : (n.after e).log.length < 0x8000000000000000) :
    (Checked.handle n e = .ok (n.handle e) ∨
      Checked.handle n e = .error .capacity ∧ Checked.vectorLimit < size) ∧
    n.Grounded made := by
  obtain ⟨hfits, hsettled⟩ := h.fits hid
  refine ⟨?_, hfits.grounded hsettled⟩
  obtain rfl := hfits.clusterSize
  exact (Checked.handle_cases hfits.node (he.fits hfits.actions) (Log.length_le_last hlog)).imp_left
    fun hok => hok.1

/-- A leader that has committed a command is sent a request of a later term, with the least index
there is for the entry before, and the last one for what is committed. -/
theorem messages_harmless_wildRequest : ∃ (n : Node Nat) (made : List (Action Nat)),
    Lifetime 0 3 n made ∧ n.isLeader ∧ n.commitIndex = 0 ∧
      Checked.handle n
          (.appendRequest ⟨5, 77, -0x8000000000000000, some 9, [⟨3, 40⟩], LogIndex.last⟩) =
        .ok (n.handle
          (.appendRequest ⟨5, 77, -0x8000000000000000, some 9, [⟨3, 40⟩], LogIndex.last⟩)) := by
  have hsize : 3 ≤ Checked.vectorLimit := by decide
  have hfresh : Lifetime 0 3 (Node.fresh 0 3 : Node Nat) [] := .fresh
  have hstarted := hfresh.after (e := .start) (by decide) hsize trivial (by decide)
  have hasked := hstarted.after (e := .electionTimeout) (by decide) hsize trivial (by decide)
  have hwon := hasked.after (e := .voteReturned 1 1 (some ⟨1, true⟩)) (by decide) hsize
    ⟨⟨1, 0, -1, 0⟩, by decide⟩ (by decide)
  have hstored := hwon.after (e := .submit 7) (by decide) hsize trivial (by decide)
  have hcommitted := hstored.after (e := .appendReturned 1 ⟨2, .replicate 0 0, some 0⟩
    (some ⟨1, true⟩)) (by decide) hsize ⟨⟨1, 0, -1, none, [⟨1, 7⟩], -1⟩, by decide⟩ (by decide)
  refine ⟨_, _, hcommitted, by decide, by decide, ?_⟩
  obtain ⟨hgoes, -⟩ := messages_harmless (by decide) hcommitted
    (e := .appendRequest ⟨5, 77, -0x8000000000000000, some 9, [⟨3, 40⟩], LogIndex.last⟩)
    trivial (by decide)
  exact hgoes.resolve_right fun hstopped => absurd hstopped.2 (by decide)

end Lifetimes

end Quorum
