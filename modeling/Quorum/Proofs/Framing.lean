import Quorum.Connection
import Quorum.Node.Event
import Quorum.Proofs.Transcription

/-!
Frames are read back off a stream whatever follows them. What does not come back is a value whose
text is nested too deep: the length of a body is limited on both sides, its nesting only for the
one who reads.
-/

namespace Quorum

open Json (Reader Reads)

namespace Frame

variable {β : Type}

/-- A complete frame that is read as the value `v`. -/
def Carries (r : Reader β) (frame : List UInt8) (v : β) : Prop :=
  ∃ body, frame = header body.length ++ body ∧ body.length ≤ maxLength ∧
    Json.decodeText r body = .ok v

theorem ofHeader_header {n : Nat} (h : n ≤ maxLength) :
    ofHeader (n / 0x1000000).toUInt8 (n / 0x10000).toUInt8 (n / 0x100).toUInt8 n.toUInt8 = n := by
  have hmax : n ≤ 16 * 1024 * 1024 := h
  simp only [ofHeader, UInt8.toNat_ofNat']
  omega

theorem header_ofHeader (a b c d : UInt8) : header (ofHeader a b c d) = [a, b, c, d] := by
  have ha := a.toNat_lt
  have hb := b.toNat_lt
  have hc := c.toNat_lt
  have hd := d.toNat_lt
  simp only [header, ofHeader, List.cons.injEq, ← UInt8.toNat_inj, UInt8.toNat_ofNat', and_true]
  omega

theorem head_append {body : List UInt8} (h : body.length ≤ maxLength) (more : List UInt8) :
    head (header body.length ++ body ++ more) = .frame body more := by
  have hread := ofHeader_header h
  simp only [header, List.cons_append, List.nil_append, head, hread]
  rw [if_neg (Nat.not_lt.mpr h), if_neg (by simp), List.take_left, List.drop_left]

theorem eq_of_head {stream body rest : List UInt8} (h : head stream = .frame body rest) :
    stream = header body.length ++ body ++ rest ∧ body.length ≤ maxLength := by
  unfold head at h
  split at h
  · rename_i a b c d after
    dsimp only at h
    split at h
    · cases h
    · rename_i hmax
      split at h
      · cases h
      · rename_i hlength
        obtain ⟨rfl, rfl⟩ := Head.frame.inj h
        have htake : (after.take (ofHeader a b c d)).length = ofHeader a b c d :=
          List.length_take_of_le (Nat.le_of_not_lt hlength)
        rw [htake, header_ofHeader, List.append_assoc, List.take_append_drop]
        exact ⟨rfl, Nat.le_of_not_lt hmax⟩
  · cases h

theorem head_append_of_frame {stream body rest : List UInt8} (h : head stream = .frame body rest)
    (more : List UInt8) : head (stream ++ more) = .frame body (rest ++ more) := by
  obtain ⟨rfl, hlength⟩ := eq_of_head h
  rw [List.append_assoc, head_append hlength]

theorem head_append_of_tooLarge {stream : List UInt8} {length : Nat}
    (h : head stream = .tooLarge length) (more : List UInt8) :
    head (stream ++ more) = .tooLarge length := by
  unfold head at h
  split at h
  · dsimp only at h
    split at h
    · rename_i hlarge
      cases h
      exact if_pos hlarge
    · split at h
      · cases h
      · cases h
  · cases h

/-- A frame at the head of a stream is read, and reading goes on right after it. -/
theorem Carries.read_append {r : Reader β} {frame : List UInt8} {v : β} (h : Carries r frame v)
    (more : List UInt8) : read r (frame ++ more) = .ok (v, more) := by
  obtain ⟨body, rfl, hlength, hbody⟩ := h
  rw [read, head_append hlength]
  simp only [hbody]

/-- Whatever is read off a stream stands there as a frame. -/
theorem exists_carries {r : Reader β} {stream rest : List UInt8} {v : β}
    (h : read r stream = .ok (v, rest)) : ∃ frame, stream = frame ++ rest ∧ Carries r frame v := by
  unfold read at h
  split at h
  · cases h
  · cases h
  · rename_i body after hhead
    split at h
    · rename_i hbody
      cases h
      obtain ⟨hstream, hlength⟩ := eq_of_head hhead
      exact ⟨_, hstream, body, rfl, hlength, hbody⟩
    · cases h

theorem Carries.pos {r : Reader β} {frame : List UInt8} {v : β} (h : Carries r frame v) :
    0 < frame.length := by
  obtain ⟨body, rfl, -, -⟩ := h
  simp [header]

/-- Where a frame ends does not depend on what follows it. -/
theorem Carries.ends {r : Reader β} {frame frame' more more' : List UInt8} {v v' : β}
    (h : Carries r frame v) (h' : Carries r frame' v') (heq : frame ++ more = frame' ++ more') :
    frame = frame' ∧ v = v' ∧ more = more' := by
  have hread := h.read_append more
  rw [heq, h'.read_append more'] at hread
  cases hread
  exact ⟨List.append_cancel_right heq, rfl, rfl⟩

/-- A stream taken apart: as many complete frames as it begins with, the values they carry, and the
remainder. -/
structure Splits (r : Reader β) (stream : List UInt8) (frames : List (List UInt8)) (vs : List β)
    (rest : List UInt8) : Prop where
  cover : stream = frames.flatten ++ rest
  carries : List.Forall₂ (Carries r) frames vs
  longest : ∀ frame v more, rest = frame ++ more → ¬ Carries r frame v

namespace Splits

variable {r : Reader β} {stream rest : List UInt8} {frames : List (List UInt8)} {vs : List β}

theorem cons {frame : List UInt8} {v : β} (h : Carries r frame v)
    (hs : Splits r stream frames vs rest) :
    Splits r (frame ++ stream) (frame :: frames) (v :: vs) rest where
  cover := by rw [hs.cover, List.flatten_cons, List.append_assoc]
  carries := .cons h hs.carries
  longest := hs.longest

/-- There is one way to take a stream apart. -/
theorem unique {frames' : List (List UInt8)} {vs' : List β} {rest' : List UInt8}
    (h : Splits r stream frames vs rest) (h' : Splits r stream frames' vs' rest') :
    frames' = frames ∧ vs' = vs ∧ rest' = rest := by
  obtain ⟨hcover, hcarries, hlongest⟩ := h
  obtain ⟨hcover', hcarries', hlongest'⟩ := h'
  induction hcarries generalizing stream frames' vs' with
  | nil =>
      rw [List.flatten_nil, List.nil_append] at hcover
      cases hcarries' with
      | nil => exact ⟨rfl, rfl, hcover'.symm.trans hcover⟩
      | cons hv' _ =>
          rw [List.flatten_cons, List.append_assoc, hcover] at hcover'
          exact absurd hv' (hlongest _ _ _ hcover')
  | cons hv _ ih =>
      rw [List.flatten_cons, List.append_assoc] at hcover
      cases hcarries' with
      | nil =>
          rw [List.flatten_nil, List.nil_append, hcover] at hcover'
          exact absurd hv (hlongest' _ _ _ hcover'.symm)
      | cons hv' hlater' =>
          rw [List.flatten_cons, List.append_assoc, hcover] at hcover'
          obtain ⟨rfl, rfl, hmore⟩ := hv.ends hv' hcover'
          obtain ⟨rfl, rfl, rfl⟩ := ih rfl hmore hlater'
          exact ⟨rfl, rfl, rfl⟩

end Splits

theorem exists_splits (r : Reader β) (stream : List UInt8) :
    ∃ frames vs rest, Splits r stream frames vs rest := by
  induction hn : stream.length using Nat.strong_induction_on generalizing stream with
  | _ n ih =>
      by_cases h : ∃ frame v more, stream = frame ++ more ∧ Carries r frame v
      · obtain ⟨frame, v, more, rfl, hv⟩ := h
        have hpos := hv.pos
        rw [List.length_append] at hn
        obtain ⟨frames, vs, rest, hs⟩ := ih more.length (by omega) more rfl
        exact ⟨frame :: frames, v :: vs, rest, hs.cons hv⟩
      · have hlongest : ∀ frame v more, stream = frame ++ more → ¬ Carries r frame v :=
          fun frame v more hstream hv => h ⟨frame, v, more, hstream, hv⟩
        exact ⟨[], [], stream, rfl, .nil, hlongest⟩

/-- Reads one frame after the other until that fails, and tells why it did. -/
def readAll (r : Reader β) (stream : List UInt8) : List β × TransportError :=
  match _h : read r stream with
  | .error e => ([], e)
  | .ok (v, rest) =>
    let (vs, e) := readAll r rest
    (v :: vs, e)
termination_by stream.length
decreasing_by
  obtain ⟨frame, rfl, hv⟩ := exists_carries _h
  have hpos := hv.pos
  rw [List.length_append]
  omega

theorem readAll_append {r : Reader β} {frame : List UInt8} {v : β} (h : Carries r frame v)
    (more : List UInt8) :
    readAll r (frame ++ more) = (v :: (readAll r more).1, (readAll r more).2) := by
  rw [readAll, h.read_append more]

/-- A stream of complete frames is read to its end. -/
theorem readAll_flatten {r : Reader β} {frames : List (List UInt8)} {vs : List β}
    (h : List.Forall₂ (Carries r) frames vs) :
    readAll r frames.flatten = (vs, .io .unexpectedEnd) := by
  induction h with
  | nil => rw [List.flatten_nil, readAll]; rfl
  | cons hv _ ih => rw [List.flatten_cons, readAll_append hv, ih]

theorem write_eq_ok {v : Json} {frame : List UInt8} : write v = .ok frame ↔
    v.print.length ≤ maxLength ∧ frame = header v.print.length ++ v.print := by
  unfold write
  dsimp only
  split
  · rename_i h
    simp [h, eq_comm]
  · rename_i h
    simp [h]

/-- What is written of a value is read back, if it is read back from its text. -/
theorem carries_of_write {r : Reader β} {v : Json} {x : β} {frame : List UInt8}
    (h : write v = .ok frame) (hread : Json.decodeText r v.print = .ok x) : Carries r frame x := by
  obtain ⟨hlength, rfl⟩ := write_eq_ok.mp h
  exact ⟨v.print, rfl, hlength, hread⟩

/-- A frame that was written is read back exactly if its body is not nested too deep. -/
theorem read_write {r : Reader β} {v : Json} {x : β} {frame : List UInt8} (hv : Reads r v x)
    (h : write v = .ok frame) (more : List UInt8) :
    read r (frame ++ more) =
      if v.depth ≤ Json.Outline.depthLimit then .ok (x, more)
      else .error (.serialization .malformed) := by
  obtain ⟨hlength, rfl⟩ := write_eq_ok.mp h
  rw [read, head_append hlength]
  by_cases hdepth : v.depth ≤ Json.Outline.depthLimit
  · simp only [Json.decodeText_print hv, if_pos hdepth]
  · simp only [Json.decodeText_print hv, if_neg hdepth]

end Frame

/-- Around a command, the frame of an append call opens four brackets: those of the call, of its
arguments, of the list of entries and of the entry. -/
theorem Call.depth_appendEntries_le_iff (m : AppendRequest Command) {d : Nat} (hd : 3 ≤ d) :
    ((Call.appendEntries m).toJson Command.toJson).depth ≤ d ↔
      ∀ e ∈ m.entries, e.command.toJson.depth + 4 ≤ d := by
  have hterm : (m.prevLogTerm.elim .null Term.toJson).depth = 0 := by
    cases m.prevLogTerm <;> rfl
  have hentry (e : Entry Command) :
      (e.toJson Command.toJson).depth = e.command.toJson.depth + 1 := by
    simp [Entry.toJson, Json.depth, Json.membersDepth, Term.toJson, Json.nat]
  have hargs : (m.toJson Command.toJson).depth =
      Json.itemsDepth (m.entries.map (Entry.toJson Command.toJson)) + 2 := by
    simp [AppendRequest.toJson, Json.depth, Json.membersDepth, hterm, Term.toJson, PeerId.toJson,
      LogIndex.toJson, Json.nat, Json.int]
  have hcall : ((Call.appendEntries m).toJson Command.toJson).depth =
      (m.toJson Command.toJson).depth + 1 := by
    simp [Call.toJson, Json.depth, Json.membersDepth]
  obtain ⟨k, rfl⟩ := Nat.exists_eq_add_of_le' hd
  rw [hcall, hargs, Nat.add_assoc, Nat.add_le_add_iff_right (n := 3), Json.itemsDepth_le_iff]
  simp only [List.forall_mem_map, hentry]
  exact forall₂_congr fun e _ => by omega

/-- The frame of an append call is read back exactly if no command in it is nested too deep. Writing
refuses no command for its nesting, and neither does a leader that stores it. -/
theorem append_frame_read {m : AppendRequest Command} (hm : m.WellFormed Command.WellFormed)
    {frame : List UInt8} (hwrite : (Call.appendEntries m).frame Command.toJson = .ok frame)
    (more : List UInt8) :
    Frame.read (Call.read Command.read) (frame ++ more) =
      if ∀ e ∈ m.entries, e.command.toJson.depth + 4 ≤ Json.Outline.depthLimit then
        .ok (.appendEntries m, more)
      else .error (.serialization .malformed) := by
  have hcall : Reads (Call.read Command.read) ((Call.appendEntries m).toJson Command.toJson)
      (.appendEntries m) := Call.reads (fun _ => Command.reads) hm
  rw [Frame.read_write hcall hwrite]
  simp only [Call.depth_appendEntries_le_iff m (show 3 ≤ Json.Outline.depthLimit by decide)]

/-- As many empty brackets, one in the other, and one more. -/
def Json.tower : Nat → Json
  | 0 => .array []
  | n + 1 => .array [tower n]

theorem Json.tower_free (n : Nat) : (tower n).Free := by
  induction n with
  | zero => exact .array nofun
  | succ n ih => exact .array (List.forall_mem_singleton.mpr ih)

/-- The first member of three, elected by the second. -/
def elected : Node Command :=
  (((Node.fresh 0 3).after .start).after .electionTimeout).after
    (.voteReturned 1 1 (some ⟨1, true⟩))

def storing (value : Json) : Command := .storageSet "p" "k" value

/-- The call with which the elected member sends the second one its first entry. -/
def firstCall (c : Command) : AppendRequest Command :=
  { term := 1, leaderId := 0, prevLogIndex := LogIndex.absent, prevLogTerm := none
    entries := [⟨1, c⟩], leaderCommit := LogIndex.absent }

theorem firstCall_wellFormed {c : Command} (h : c.WellFormed) :
    (firstCall c).WellFormed Command.WellFormed :=
  have hterm : 1 ≤ Term.last := by decide
  have hindex : LogIndex.absent.IsWord := by decide
  { term := hterm
    leaderId := Nat.zero_le _
    prevLogIndex := hindex
    prevLogTerm := nofun
    entries := List.forall_mem_singleton.mpr ⟨hterm, h⟩
    leaderCommit := hindex }

theorem firstCall_mem_submit (c : Command) :
    ∃ context, Action.appendEntries 1 context (firstCall c) ∈ (elected.submit c).2.actions :=
  ⟨_, List.mem_of_mem_head? rfl⟩

/-- A value of 121 nested arrays still gets through. -/
theorem append_frame_read_deepest :
    let m := firstCall (storing (.tower 120))
    m.WellFormed Command.WellFormed ∧
      ∃ frame, (Call.appendEntries m).frame Command.toJson = .ok frame ∧
        Frame.read (Call.read Command.read) (frame ++ []) = .ok (.appendEntries m, []) := by
  intro m
  have hm : m.WellFormed Command.WellFormed := firstCall_wellFormed (Json.tower_free 120)
  have hwrite : (Call.appendEntries m).frame Command.toJson = .ok _ :=
    Frame.write_eq_ok.mpr ⟨by decide +kernel, rfl⟩
  have hdepth : ∀ e ∈ m.entries, e.command.toJson.depth + 4 ≤ Json.Outline.depthLimit := by
    decide +kernel
  have hread := append_frame_read hm hwrite []
  rw [if_pos hdepth] at hread
  exact ⟨hm, _, hwrite, hread⟩

/-- One more is taken by the leader and sent, and read by nobody. -/
theorem append_frame_unread : ¬ ∀ (n : Node Command) (c : Command) (peer : PeerId)
    (context : AppendContext) (m : AppendRequest Command) (frame : List UInt8),
    (n.submit c).1.isLeader = true → c.WellFormed →
      Action.appendEntries peer context m ∈ (n.submit c).2.actions →
      (Call.appendEntries m).frame Command.toJson = .ok frame →
      Frame.read (Call.read Command.read) frame = .ok (.appendEntries m, []) := by
  intro hall
  let m := firstCall (storing (.tower 121))
  have hc : (storing (.tower 121)).WellFormed := Json.tower_free 121
  have hcall : Reads (Call.read Command.read) ((Call.appendEntries m).toJson Command.toJson)
      (.appendEntries m) := Call.reads (fun _ => Command.reads) (firstCall_wellFormed hc)
  obtain ⟨context, hsent⟩ := firstCall_mem_submit (storing (.tower 121))
  have hwrite : (Call.appendEntries m).frame Command.toJson = .ok _ :=
    Frame.write_eq_ok.mpr ⟨by decide +kernel, rfl⟩
  have hread := hall elected _ 1 context m _ rfl hc hsent hwrite
  have hbroken := Frame.read_write hcall hwrite []
  rw [List.append_nil, hread, if_neg (by decide +kernel)] at hbroken
  cases hbroken

end Quorum
