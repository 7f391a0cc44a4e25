import Quorum.Node.Event

/-!
The handlers of a node once more, on a machine with 64-bit words that stops where a word would
overflow, an assertion fails or a position lies outside of a vector. Sums that stick to the last
word, and counters that start over, never stop it. Memory does not run out, but a vector whose
length is given beforehand has to be one that can be addressed.
-/

namespace Quorum

/-- Why the machine stops. -/
inductive Fault where
  /-- A sum, difference or product does not fit its word. -/
  | overflow
  | assertion
  /-- A position or a range lies outside of a vector. -/
  | range
  /-- A vector of this length cannot be addressed. -/
  | capacity
  deriving DecidableEq, Repr

abbrev Checked (β : Type) := Except Fault β

variable {α β : Type}

namespace Checked

/-- The result of signed arithmetic. -/
def index (i : Int) : Checked LogIndex :=
  if -0x8000000000000000 ≤ i ∧ i ≤ LogIndex.last then .ok i else .error .overflow

/-- The result of unsigned arithmetic. -/
def word (k : Int) : Checked Nat :=
  if 0 ≤ k ∧ k ≤ 0xFFFFFFFFFFFFFFFF then .ok k.toNat else .error .overflow

def assert (p : Prop) [Decidable p] : Checked Unit := if p then .ok () else .error .assertion

def item (xs : List β) (k : Nat) : Checked β :=
  match xs[k]? with
  | none => .error .range
  | some x => .ok x

/-- The items from one position through another, both included. -/
def items (xs : List β) (first last : Nat) : Checked (List β) :=
  if first ≤ last + 1 ∧ last < xs.length then .ok ((xs.take (last + 1)).drop first)
  else .error .range

/-- How many words a vector can hold at most: its size in bytes is a signed word. -/
def vectorLimit : Nat := 0xFFFFFFFFFFFFFFF

def vector (xs : List β) : Checked (List β) :=
  if xs.length ≤ vectorLimit then .ok xs else .error .capacity

def prev (i : LogIndex) : Checked LogIndex := do
  let before ← index (i - 1)
  return max before LogIndex.absent

def lastIndex (log : Log α) : Checked LogIndex := index (LogIndex.ofWord log.length - 1)

def slice (log : Log α) (start through : LogIndex) : Checked (List (Entry α)) :=
  let first := start.position?.getD 0
  match through.position? with
  | none => return []
  | some through =>
    let last := min through (log.length - 1)
    if log.isEmpty ∨ last < first then return [] else items log first last

/-- Writes entries one by one, each over the one at its position if that is of another term. -/
def mergeFrom (log : Log α) (position : Nat) : List (Entry α) → Checked (Log α)
  | [] => return log
  | e :: rest => do
    let log := match log[position]? with
      | none => log ++ [e]
      | some held => if held.term = e.term then log else log.take position ++ [e]
    let position ← word (position + 1)
    mergeFrom log position rest

def merge (log : Log α) (start : Nat) (incoming : List (Entry α)) : Checked (Log α) := do
  assert (start ≤ log.length)
  mergeFrom log (min start log.length) incoming

def isMajority (t : Tally) (clusterSize : Nat) : Checked Bool := do
  let double ← word (t.size * 2)
  return decide (clusterSize < double)

def freshLead (clusterSize logLength : Nat) : Checked Leadership := do
  let cursors ← vector (List.replicate clusterSize ⟨LogIndex.ofWord logLength, LogIndex.absent⟩)
  return ⟨cursors, [], []⟩

def recordSuccess (l : Leadership) (p : PeerId) (lastSent : LogIndex) : Checked Leadership :=
  if l.cursors.length ≤ p then return l
  else do
    let c ← item l.cursors p
    return { l with cursors := l.cursors.set p ⟨lastSent.next, max c.matched lastSent⟩ }

def recordFailure (l : Leadership) (p : PeerId) : Checked Leadership :=
  match l.cursors[p]? with
  | none => return l
  | some c =>
    if 0 < c.next then do
      let next ← prev c.next
      return { l with cursors := l.cursors.set p { c with next } }
    else return l

/-- Changes what the node keeps as a leader, if it leads. -/
def mapLead (t : Turn α) (f : Leadership → Checked Leadership) : Checked (Turn α) :=
  match t.node.role with
  | .leader l => do
    let l ← f l
    return { t with node := { t.node with role := .leader l } }
  | _ => return t

/-- Index of the last of the entries that are sent from a cursor on, if there are any. -/
def lastSent? (next : LogIndex) (entries : List (Entry α)) : Checked (Option LogIndex) :=
  if entries.isEmpty then return none
  else do
    let reach ← word (next.position?.getD 0 + entries.length)
    let last ← word (reach - 1)
    return some (LogIndex.ofWord last)

def appendCall? (n : Node α) (peer : PeerId) (round : Round) (last : LogIndex) :
    Checked (Option (Action α)) :=
  match n.role.lead?.bind (·.next? peer) with
  | none => return none
  | some next => do
    let entries ← slice n.log next last
    let lastSent ← lastSent? next entries
    let prevLogIndex ← prev next
    return some (.appendEntries peer
      { generation := n.generation, round, lastSent }
      { term := n.term
        leaderId := n.id
        prevLogIndex
        prevLogTerm := n.log.termAt? prevLogIndex
        entries
        leaderCommit := n.commitIndex })

def replicateCall? (n : Node α) (peer : PeerId) (agreement cursor : LogIndex) :
    Checked (Option (Action α)) := do
  let last ← lastIndex n.log
  appendCall? n peer (.replicate agreement cursor) (min n.commitIndex.next last)

/-- The calls that all other members are made. -/
def callOthers (n : Node α) (call? : PeerId → Checked (Option (Action α))) :
    Checked (List (Action α)) := do
  let others ← vector n.others
  let calls ← others.mapM call?
  return calls.filterMap id

def heartbeats (n : Node α) : Checked (List (Action α)) := do
  let last ← lastIndex n.log
  callOthers n (appendCall? n · .heartbeat last)

def commitThrough (t : Turn α) (last : LogIndex) : Checked (Turn α) := do
  let bound ← lastIndex t.node.log
  let commit := max t.node.commitIndex (min last bound)
  return (Turn.applyCommitted { t with node := { t.node with commitIndex := commit } }).mapLead
    (·.closeThrough commit)

def startAgreement (t : Turn α) (i : LogIndex) : Checked (Turn α) :=
  let t := t.mapLead (·.openAgreement i t.node.id)
  match t.node.role.lead?.bind (·.agreement? i) with
  | none => return t
  | some a => do
    let reached ← isMajority a.acks t.node.clusterSize
    if reached then commitThrough t i
    else
      let calls ← callOthers t.node (replicateCall? t.node · i i)
      return t.emitAll calls

def resumeFrom : List LogIndex → Turn α → Checked (Turn α)
  | [], t => return t
  | i :: rest, t => do
    let before ← prev i
    if t.node.commitIndex < before then return t
    else
      let t := t.mapLead (·.dequeue i)
      if before < t.node.commitIndex then resumeFrom rest t
      else
        let t ← startAgreement t i
        resumeFrom rest t

def resumeAgreements (t : Turn α) : Checked (Turn α) :=
  match t.node.role with
  | .leader l => resumeFrom l.waiting t
  | _ => return t

def advanceCommit (t : Turn α) (last : LogIndex) : Checked (Turn α) := do
  let t ← commitThrough t last
  resumeAgreements t

def acknowledge (t : Turn α) (i : LogIndex) (p : PeerId) : Checked (Turn α) :=
  match t.node.role.lead?.bind (·.agreement? i) with
  | none => return t
  | some a =>
    if p ∈ a.acks.peers then return t
    else do
      let t := t.mapLead (·.acknowledge i p)
      let reached ← isMajority (a.acks.add p) t.node.clusterSize
      if reached then advanceCommit t i else return t

/-- Takes a match index for the highest yet, if at least half of the cluster has reached it. -/
def cover (n : Node α) (l : Leadership) (highest v : LogIndex) : Checked LogIndex := do
  let double ← word (l.matchIndices.countP (v ≤ ·) * 2)
  return if n.clusterSize ≤ double then max highest v else highest

def coveredIndex (n : Node α) (l : Leadership) : Checked LogIndex :=
  (l.matchIndices.filter (n.commitIndex < ·)).foldlM (cover n l) n.commitIndex

def commitCovered (t : Turn α) : Checked (Turn α) :=
  match t.node.role with
  | .leader l => do
    let covered ← coveredIndex t.node l
    if t.node.commitIndex < covered then advanceCommit t covered else return t
  | _ => return t

def becomeLeader (t : Turn α) : Checked (Turn α) := do
  let lead ← freshLead t.node.clusterSize t.node.log.length
  let t := (t.changeRole (.leader lead)).emit .cancelElectionTimer
  let calls ← heartbeats t.node
  return (t.emitAll calls).emit .scheduleHeartbeat

def standForElection (n : Node α) : Checked (Turn α) := do
  let votes := Tally.single n.id
  let t := Turn.changeRole
    (Node.idle { n with term := n.term.next, votedFor := some n.id }) (.candidate votes)
  let others ← vector t.node.others
  let calls := others.map fun p => .requestVote p t.node.generation t.node.voteRequest
  let t := (t.emitAll calls).emit .resetElectionTimer
  let won ← isMajority votes n.clusterSize
  if won then becomeLeader t else return t

def electionTimeout (n : Node α) : Checked (Turn α) :=
  if n.isLeader then return n.idle else standForElection n

def heartbeatTimeout (n : Node α) : Checked (Turn α) :=
  if n.isLeader then do
    let calls ← heartbeats n
    return ⟨n, calls ++ [.scheduleHeartbeat]⟩
  else return n.idle

def submit (n : Node α) (command : α) : Checked (Submission × Turn α) :=
  if n.isLeader then do
    let log : Log α := n.log ++ [⟨n.term, command⟩]
    let last ← lastIndex log
    let t : Turn α := Node.idle { n with log }
    let t ← resumeAgreements (t.mapLead (·.enqueue last))
    return (⟨last, n.term, true⟩, t)
  else return (⟨LogIndex.absent, n.term, false⟩, n.idle)

def voteReturned (n : Node α) (sender : PeerId) (generation : Generation)
    (reply : Option VoteReply) : Checked (Turn α) :=
  match reply with
  | none => return n.idle
  | some reply =>
    let t := n.idle.observeTerm reply.term
    match t.node.role with
    | .candidate votes =>
      if reply.voteGranted ∧ generation = t.node.generation then do
        let votes := votes.add sender
        let t := { t with node := { t.node with role := .candidate votes } }
        let won ← isMajority votes t.node.clusterSize
        if won then becomeLeader t else return t
      else return t
    | _ => return t

def record (t : Turn α) (sender : PeerId) (context : AppendContext) : Checked (Turn α) :=
  match context.lastSent with
  | some lastSent => mapLead t (recordSuccess · sender lastSent)
  | none => return t

def appendAccepted (t : Turn α) (sender : PeerId) (context : AppendContext) :
    Checked (Turn α) := do
  let t ← record t sender context
  match t.node.role with
  | .leader lead =>
    let t ← (Node.acknowledged lead sender context.round).foldlM (acknowledge · · sender) t
    commitCovered t
  | _ => return t

def appendRejected (t : Turn α) (sender : PeerId) : Round → Checked (Turn α)
  | .heartbeat => mapLead t (recordFailure · sender)
  | .replicate agreement cursor =>
    if 0 < cursor then do
      let t ← mapLead t (recordFailure · sender)
      let cursor ← prev cursor
      let call ← replicateCall? t.node sender agreement cursor
      return t.emitAll call.toList
    else return t

def appendReturned (n : Node α) (sender : PeerId) (context : AppendContext)
    (reply : Option AppendReply) : Checked (Turn α) :=
  match reply with
  | none => return n.idle
  | some reply =>
    let t := n.idle.observeTerm reply.term
    if context.generation ≠ t.node.generation ∨ ¬ t.node.isLeader then return t
    else if reply.success then appendAccepted t sender context
    else appendRejected t sender context.round

def reconcile? (log : Log α) (args : AppendRequest α) : Checked (Option (Log α × Nat)) :=
  match args.prevLogIndex.position? with
  | none => return some (log, 0)
  | some prev =>
    match log.termAt? args.prevLogIndex with
    | none => return none
    | some held =>
      if some held = args.prevLogTerm then do
        let start ← word (prev + 1)
        return some (log, start)
      else return some (log.take prev, prev)

/-- Writes what a call carries, if it carries anything. -/
def write (log : Log α) (start : Nat) (incoming : List (Entry α)) : Checked (Log α) :=
  if incoming.isEmpty then return log else merge log start incoming

/-- Commits what the leader has committed, or hands over what is left to be. -/
def commitWith (t : Turn α) (leaderCommit : LogIndex) : Checked (Turn α) :=
  if t.node.commitIndex < leaderCommit then advanceCommit t leaderCommit
  else return t.applyCommitted

def answerAppend (n : Node α) (args : AppendRequest α) : Checked (AppendReply × Turn α) :=
  if args.term < n.term then return (⟨n.term, false⟩, n.idle)
  else do
    let t := n.follow args
    let kept? ← reconcile? t.node.log args
    match kept? with
    | none => return (⟨t.node.term, false⟩, t)
    | some (log, start) =>
      let log ← write log start args.entries
      let t ← commitWith { t with node := { t.node with log } } args.leaderCommit
      return (⟨args.term, true⟩, t)

/-- What the machine makes of an event. Starting a node and answering a request for its vote compute
nothing that could go wrong. -/
def handle (n : Node α) : Event α → Checked (Answer × Turn α)
  | .start => return (.none, n.start)
  | .electionTimeout => do
    let t ← electionTimeout n
    return (.none, t)
  | .heartbeatTimeout => do
    let t ← heartbeatTimeout n
    return (.none, t)
  | .submit command => do
    let (s, t) ← submit n command
    return (.submission s, t)
  | .voteRequest args => let (reply, t) := n.answerVote args; return (.vote reply, t)
  | .appendRequest args => do
    let (reply, t) ← answerAppend n args
    return (.append reply, t)
  | .voteReturned sender generation reply => do
    let t ← voteReturned n sender generation reply
    return (.none, t)
  | .appendReturned sender context reply => do
    let t ← appendReturned n sender context reply
    return (.none, t)

section Words

theorem prev_eq {i : LogIndex} (h : LogIndex.absent ≤ i) (h' : i ≤ LogIndex.last) :
    prev i = .ok i.prev := by
  unfold LogIndex.absent at h
  unfold LogIndex.last at h'
  have hfits : -0x8000000000000000 ≤ i - 1 ∧ i - 1 ≤ LogIndex.last := by
    unfold LogIndex.last
    lia
  have hprev : max (i - 1) LogIndex.absent = i.prev := by
    unfold LogIndex.prev LogIndex.absent
    split <;> lia
  unfold prev index
  rw [if_pos hfits, ← hprev]
  rfl

theorem ofWord_of_le {k : Nat} (h : (k : Int) ≤ LogIndex.last) : LogIndex.ofWord k = k := by
  unfold LogIndex.last at h
  unfold LogIndex.ofWord
  rw [if_pos (by lia)]

theorem word_eq {x : Int} {k : Nat} (hx : x = k) (h : k ≤ 0xFFFFFFFFFFFFFFFF) :
    word x = .ok k := by
  unfold word
  rw [hx, if_pos (by lia)]
  rfl

theorem lastIndex_eq {log : Log α} (h : (log.length : Int) ≤ LogIndex.last) :
    lastIndex log = .ok log.lastIndex := by
  unfold lastIndex index
  rw [ofWord_of_le h, if_pos (by lia)]
  rfl

/-- What is done next may depend on a majority. -/
theorem isMajority_bind {t : Tally} (h : t.size * 2 ≤ 0xFFFFFFFFFFFFFFFF) (clusterSize : Nat)
    (x y : Checked β) : (isMajority t clusterSize >>= fun reached => if reached then x else y) =
      if t.IsMajority clusterSize then x else y := by
  have hword : word ((t.size : Int) * 2) = .ok (t.size * 2) := word_eq (by lia) h
  have hreached : isMajority t clusterSize = .ok (decide (t.IsMajority clusterSize)) := by
    unfold isMajority
    rw [hword]
    rfl
  rw [hreached]
  by_cases hmajority : t.IsMajority clusterSize
  · rw [if_pos hmajority, decide_eq_true hmajority]
    rfl
  · rw [if_neg hmajority, decide_eq_false hmajority]
    rfl

end Words

section Logs

theorem position?_getD (i : LogIndex) : i.position?.getD 0 = i.toNat := by
  unfold LogIndex.position?
  split
  · rfl
  · exact (Int.toNat_of_nonpos (by lia)).symm

/-- The bounds of a range are made to fit before it is taken. -/
theorem slice_eq (log : Log α) (start through : LogIndex) :
    slice log start through = .ok (log.slice start through) := by
  unfold slice
  simp only [position?_getD]
  by_cases hthrough : 0 ≤ through
  · have hposition : through.position? = some through.toNat := if_pos hthrough
    have hsucc : (through + 1).toNat = through.toNat + 1 := by lia
    simp only [hposition]
    unfold Log.slice
    rw [hsucc]
    split
    · rename_i hnone
      have hdrop : (log.take (through.toNat + 1)).drop start.toNat = [] := by
        rcases hnone with hempty | hless
        · rw [List.isEmpty_iff.mp hempty]
          simp
        · refine List.drop_eq_nil_of_le ?_
          rw [List.length_take]
          omega
      rw [hdrop]
      rfl
    · rename_i hsome
      have hpos : 0 < log.length := by
        rw [List.length_pos_iff]
        exact fun hnil => hsome (Or.inl (by rw [hnil]; rfl))
      have hle : start.toNat ≤ min through.toNat (log.length - 1) :=
        Nat.le_of_not_lt fun hless => hsome (Or.inr hless)
      have htake : log.take (min through.toNat (log.length - 1) + 1) =
          log.take (through.toNat + 1) := by
        rw [List.take_eq_take_iff]
        omega
      unfold items
      rw [if_pos (by omega), htake]
  · have hposition : through.position? = none := if_neg hthrough
    have hzero : (through + 1).toNat = 0 := Int.toNat_of_nonpos (by lia)
    have hnothing : (log.take 0).drop start.toNat = [] := by rw [List.take_zero, List.drop_nil]
    simp only [hposition]
    unfold Log.slice
    rw [hzero]
    exact congrArg Except.ok hnothing.symm

/-- An entry of the same term is kept. -/
theorem merge_keep {log : Log α} {position : Nat} {held e : Entry α} (h : log[position]? = some held)
    (hterm : held.term = e.term) (rest : List (Entry α)) :
    log.merge (position + 1) rest = log.merge position (e :: rest) := by
  obtain ⟨hlt, hget⟩ := List.getElem?_eq_some_iff.mp h
  have hdrop : log.drop position = held :: log.drop (position + 1) := by
    rw [← hget]
    exact List.drop_eq_getElem_cons hlt
  unfold Log.merge
  rw [hdrop, Log.overlay, if_pos hterm, List.take_add_one, h, Option.toList_some,
    List.append_assoc]
  rfl

/-- Any other one is written over, with all that follows it. -/
theorem merge_put {log : Log α} {position : Nat} {e : Entry α} (h : position ≤ log.length)
    (hterm : ∀ held, log[position]? = some held → held.term ≠ e.term) (rest : List (Entry α)) :
    Log.merge (log.take position ++ [e]) (position + 1) rest = log.merge position (e :: rest) := by
  have hwhole : (log.take position ++ [e]).length ≤ position + 1 := by
    rw [List.length_append, List.length_take_of_le h]
    exact Nat.le_refl _
  have hover : Log.overlay (log.drop position) (e :: rest) = e :: rest := by
    cases hdrop : log.drop position with
    | nil => rw [Log.overlay_nil_left]
    | cons held tail =>
        have hheld : log[position]? = some held := by
          rw [← List.head?_drop, hdrop]
          rfl
        rw [Log.overlay, if_neg (hterm held hheld)]
  unfold Log.merge
  rw [List.take_of_length_le hwhole, List.drop_eq_nil_of_le hwhole, Log.overlay_nil_left,
    List.append_assoc, hover]
  rfl

/-- Writing entry by entry lays the entries over the ones held. -/
theorem mergeFrom_eq {log : Log α} {position : Nat} {incoming : List (Entry α)}
    (h : position ≤ log.length) (hfits : position + incoming.length ≤ 0xFFFFFFFFFFFFFFFF) :
    mergeFrom log position incoming = .ok (log.merge position incoming) := by
  induction incoming generalizing log position with
  | nil =>
      rw [Log.merge_nil]
      rfl
  | cons e rest ih =>
      rw [List.length_cons] at hfits
      have hword : word ((position : Int) + 1) = .ok (position + 1) :=
        word_eq (by lia) (by omega)
      have hrest {written : Log α} (hlength : position + 1 ≤ written.length) :
          (do let position ← word ((position : Int) + 1); mergeFrom written position rest) =
            Except.ok (written.merge (position + 1) rest) := by
        rw [hword]
        exact ih hlength (by omega)
      have hlength : position + 1 ≤ (log.take position ++ [e]).length := by
        rw [List.length_append, List.length_take_of_le h]
        exact Nat.le_refl _
      unfold mergeFrom
      cases hheld : log[position]? with
      | none =>
          have hwhole : log.take position = log :=
            List.take_of_length_le (List.getElem?_eq_none_iff.mp hheld)
          have hnone : ∀ held, log[position]? = some held → held.term ≠ e.term := by
            intro held hsome
            rw [hheld] at hsome
            cases hsome
          rw [← merge_put h hnone]
          rw [hwhole] at hlength ⊢
          exact hrest hlength
      | some held =>
          by_cases hterm : held.term = e.term
          · rw [← merge_keep hheld hterm]
            simp only [hterm, if_true]
            exact hrest (List.getElem?_eq_some_iff.mp hheld).1
          · have hother : ∀ x, log[position]? = some x → x.term ≠ e.term := by
              intro x hx
              rw [hheld] at hx
              exact Option.some.inj hx ▸ hterm
            rw [← merge_put h hother]
            simp only [hterm, if_false]
            exact hrest hlength

theorem merge_eq {log : Log α} {start : Nat} {incoming : List (Entry α)}
    (h : start ≤ log.length) (hfits : (log.merge start incoming).length ≤ 0xFFFFFFFFFFFFFFFF) :
    merge log start incoming = .ok (log.merge start incoming) := by
  have hroom : start + incoming.length ≤ (log.merge start incoming).length := by
    unfold Log.merge
    rw [List.length_append, List.length_take, Nat.min_eq_left h]
    exact Nat.add_le_add_left (Log.length_le_overlay _ _) start
  unfold merge assert
  rw [if_pos h, Nat.min_eq_left h]
  exact mergeFrom_eq h (Nat.le_trans hroom hfits)

end Logs

end Checked

end Quorum
