import Mathlib.Data.List.Infix
import Quorum.Member

/-!
Written forms of members. A text is read as a member exactly if it spells that member: the instance
id up to the first `=`, `tls://` for a secure member, the host up to the last `:`, and a numeral for
the port, which may have a plus sign and leading zeros. The form in which a member is shown is one
of its spellings, so it is read back as the same member exactly if the member can be spelled at all.
-/

namespace Quorum.Member

section Splitting

variable {c : Char} {cs before after : List Char}

theorem splitFirst?_append (h : c ∉ before) :
    splitFirst? c (before ++ c :: after) = some (before, after) := by
  induction before with
  | nil => rw [List.nil_append, splitFirst?, if_pos rfl]
  | cons b before ih =>
      obtain ⟨hb, hbefore⟩ := List.ne_and_not_mem_of_not_mem_cons h
      rw [List.cons_append, splitFirst?, if_neg (Ne.symm hb), ih hbefore]
      rfl

theorem eq_append_of_splitFirst? (h : splitFirst? c cs = some (before, after)) :
    cs = before ++ c :: after ∧ c ∉ before := by
  induction cs generalizing before with
  | nil => cases h
  | cons x cs ih =>
      rw [splitFirst?] at h
      split at h
      · rename_i hx
        cases h
        exact ⟨by rw [hx, List.nil_append], List.not_mem_nil⟩
      · rename_i hx
        obtain ⟨⟨b, a⟩, hrest, hparts⟩ := Option.map_eq_some_iff.mp h
        cases hparts
        obtain ⟨rfl, hb⟩ := ih hrest
        exact ⟨rfl, List.not_mem_cons_of_ne_of_not_mem (Ne.symm hx) hb⟩

theorem splitLast?_eq_none_iff : splitLast? c cs = none ↔ c ∉ cs := by
  induction cs with
  | nil => simp [splitLast?]
  | cons x cs ih =>
      rw [splitLast?]
      cases hrest : splitLast? c cs with
      | some parts =>
          have hlater : c ∈ cs := by simpa [hrest] using ih
          simp [hlater]
      | none =>
          have hnone : c ∉ cs := ih.mp hrest
          simp [hnone, eq_comm]

theorem splitLast?_append (h : c ∉ after) :
    splitLast? c (before ++ c :: after) = some (before, after) := by
  induction before with
  | nil =>
      rw [List.nil_append, splitLast?, splitLast?_eq_none_iff.mpr h]
      exact if_pos rfl
  | cons b before ih => rw [List.cons_append, splitLast?, ih]

theorem eq_append_of_splitLast? (h : splitLast? c cs = some (before, after)) :
    cs = before ++ c :: after ∧ c ∉ after := by
  induction cs generalizing before with
  | nil => cases h
  | cons x cs ih =>
      rw [splitLast?] at h
      cases hrest : splitLast? c cs with
      | some parts =>
          obtain ⟨b, a⟩ := parts
          rw [hrest] at h
          cases h
          obtain ⟨rfl, ha⟩ := ih hrest
          exact ⟨rfl, ha⟩
      | none =>
          simp only [hrest] at h
          split at h
          · rename_i hx
            cases h
            exact ⟨by rw [hx, List.nil_append], splitLast?_eq_none_iff.mp hrest⟩
          · cases h

theorem stripPrefix?_eq_some_iff {p s rest : List Char} :
    stripPrefix? p s = some rest ↔ s = p ++ rest := by
  induction p generalizing s with
  | nil => simp [stripPrefix?]
  | cons a p ih =>
      cases s with
      | nil => simp [stripPrefix?]
      | cons b s =>
          rw [stripPrefix?]
          split
          · rename_i hab
            simp [ih, hab]
          · rename_i hab
            simp [Ne.symm hab]

theorem stripPrefix?_eq_none_iff {p s : List Char} : stripPrefix? p s = none ↔ ¬ p <+: s := by
  refine Option.eq_none_iff_forall_ne_some.trans ?_
  simp only [ne_eq, stripPrefix?_eq_some_iff, List.prefix_iff_exists_eq_append, not_exists]

end Splitting

section Ports

variable {cs text : List Char} {n m port : Nat}

/-- Digits, of which there is at least one, and the number that they stand for. -/
structure Numeral (digits : List Char) (n : Nat) : Prop where
  ne_nil : digits ≠ []
  isDigit : ∀ c ∈ digits, c.isDigit = true
  value : Nat.ofDigitChars 10 digits 0 = n

theorem Numeral.toDigits (n : Nat) : Numeral (Nat.toDigits 10 n) n where
  ne_nil := Nat.toDigits_ne_nil
  isDigit _ hc := Nat.isDigit_of_mem_toDigits (by decide) (by decide) hc
  value := Nat.ofDigitChars_ten_toDigits

theorem digit?_eq (c : Char) :
    digit? c = if c.isDigit = true then some (c.toNat - '0'.toNat) else none := by
  have hbounds : c.isDigit = true ↔ '0' ≤ c ∧ c ≤ '9' := by
    simp [Char.isDigit, Char.le_def]
  unfold digit?
  simp only [hbounds]

theorem foldlM_digit?_eq_some_iff :
    cs.foldlM (fun n c => (digit? c).map (n * 10 + ·)) n = some m ↔
      (∀ c ∈ cs, c.isDigit = true) ∧ Nat.ofDigitChars 10 cs n = m := by
  induction cs generalizing n with
  | nil => simp
  | cons c cs ih =>
      rw [List.foldlM_cons, List.forall_mem_cons, Nat.ofDigitChars_cons, digit?_eq, Nat.mul_comm 10]
      by_cases hc : c.isDigit = true
      · rw [if_pos hc, and_iff_right hc]
        exact ih
      · simp [hc]

theorem number?_eq_some_iff : number? cs = some n ↔ Numeral cs n := by
  cases cs with
  | nil => exact ⟨nofun, fun h => absurd rfl h.ne_nil⟩
  | cons c cs =>
      rw [number?, foldlM_digit?_eq_some_iff]
      · exact ⟨fun h => ⟨List.cons_ne_nil c cs, h.1, h.2⟩, fun h => ⟨h.isDigit, h.value⟩⟩
      · nofun

/-- A numeral for a port, perhaps with a plus sign before it. -/
def NamesPort (text : List Char) (port : Nat) : Prop :=
  port < 0x10000 ∧ (Numeral text port ∨ ∃ digits, text = '+' :: digits ∧ Numeral digits port)

theorem port?_eq_some_iff : port? text = some port ↔ NamesPort text port := by
  unfold port?
  rw [Option.filter_eq_some_iff, and_comm, decide_eq_true_iff]
  refine and_congr_right fun _ => ?_
  split
  · rename_i digits
    have hsign : ¬ Numeral ('+' :: digits) port :=
      fun h => absurd (h.isDigit '+' List.mem_cons_self) (by decide)
    rw [number?_eq_some_iff, or_iff_right hsign]
    simp
  · rename_i hunsigned
    rw [number?_eq_some_iff, or_iff_left]
    rintro ⟨digits, htext, -⟩
    exact hunsigned digits htext

/-- A port is written with digits and a plus sign only. -/
theorem NamesPort.not_mem (h : NamesPort text port) {c : Char} (hdigit : ¬ c.isDigit = true)
    (hplus : c ≠ '+') : c ∉ text := by
  obtain ⟨-, hnumeral | ⟨digits, rfl, hnumeral⟩⟩ := h
  · exact fun hc => hdigit (hnumeral.isDigit c hc)
  · exact List.not_mem_cons_of_ne_of_not_mem hplus fun hc => hdigit (hnumeral.isDigit c hc)

end Ports

/-- What a member must be like to be spelled at all: its instance id is not empty and holds no `=`,
its host is not empty, and begins with `tls://` only if the member is secure. -/
structure Legible (m : Member) : Prop where
  named : m.instanceId ≠ ""
  unsplit : '=' ∉ m.instanceId.toList
  hosted : m.host ≠ ""
  unmistaken : m.secure = true ∨ ¬ tls <+: m.host.toList

instance (m : Member) : Decidable m.Legible :=
  decidable_of_iff (m.instanceId ≠ "" ∧ '=' ∉ m.instanceId.toList ∧ m.host ≠ "" ∧
      (m.secure = true ∨ ¬ tls <+: m.host.toList))
    ⟨fun ⟨hnamed, hunsplit, hhosted, hunmistaken⟩ => ⟨hnamed, hunsplit, hhosted, hunmistaken⟩,
      fun h => ⟨h.named, h.unsplit, h.hosted, h.unmistaken⟩⟩

/-- A text that stands for a member, with any of the numerals for its port. -/
def Spells (text : String) (m : Member) : Prop :=
  ∃ port, NamesPort port m.port ∧ text.toList = m.instanceId.toList ++ '=' ::
    ((if m.secure then tls else []) ++ (m.host.toList ++ ':' :: port))

/-- The scheme ends in a slash, which no port has, so it does not reach from the host into the
port. -/
theorem tls_isPrefix_append {host port : List Char} (h : '/' ∉ port) :
    tls <+: host ++ ':' :: port ↔ tls <+: host := by
  refine ⟨?_, fun hhost => hhost.trans (List.prefix_append _ _)⟩
  intro haddress
  rcases List.prefix_or_prefix_of_prefix haddress (List.prefix_append host _) with
    hhost | ⟨rest, hrest⟩
  · exact hhost
  · cases rest with
    | nil =>
        have hhost : host = tls := by rw [← hrest, List.append_nil]
        exact hhost ▸ List.prefix_refl host
    | cons x rest =>
        have hlast : (x :: rest).getLast? = some '/' := by
          rw [← List.getLast?_append_of_ne_nil host (List.cons_ne_nil x rest), hrest]
          rfl
        rw [← hrest, List.prefix_append_right_inj] at haddress
        have hslash : '/' ∈ ':' :: port := haddress.subset (List.mem_of_getLast? hlast)
        exact absurd hslash (List.not_mem_cons_of_ne_of_not_mem (by decide) h)

theorem spells_of_parse {text : String} {m : Member} (h : parse text = .ok m) :
    m.Legible ∧ Spells text m := by
  revert h
  fun_cases parse text
  case case6 instanceId address hfirst hnamed secure rest hscheme host port hlast hhosted number
      hport =>
    rintro ⟨⟩
    obtain ⟨htext, hunsplit⟩ := eq_append_of_splitFirst? hfirst
    obtain ⟨hrest, -⟩ := eq_append_of_splitLast? hlast
    have hnames : NamesPort port number := port?_eq_some_iff.mp hport
    have haddress : address = (if secure then tls else []) ++ rest ∧
        (secure = true ∨ ¬ tls <+: rest) := by
      -- What follows the scheme may begin with it once more; what has none may not.
      split at hscheme
      · rename_i stripped hstrip
        cases hscheme
        exact ⟨stripPrefix?_eq_some_iff.mp hstrip, Or.inl rfl⟩
      · rename_i hstrip
        cases hscheme
        exact ⟨rfl, Or.inr (stripPrefix?_eq_none_iff.mp hstrip)⟩
    rw [hrest, tls_isPrefix_append (hnames.not_mem (by decide) (by decide))] at haddress
    refine ⟨⟨?_, ?_, ?_, ?_⟩, port, hnames, ?_⟩
    · simpa using hnamed
    · simpa using hunsplit
    · simpa using hhosted
    · simpa using haddress.2
    · simp only [String.toList_ofList]
      rw [htext, haddress.1]
  all_goals nofun

theorem parse_of_spells {text : String} {m : Member} (hm : m.Legible) (h : Spells text m) :
    parse text = .ok m := by
  obtain ⟨host, number, secure, instanceId⟩ := m
  obtain ⟨port, hport, htext⟩ := h
  have hnamed : instanceId.toList ≠ [] := mt String.toList_eq_nil_iff.mp hm.named
  have hhosted : host.toList ≠ [] := mt String.toList_eq_nil_iff.mp hm.hosted
  have hlast : splitLast? ':' (host.toList ++ ':' :: port) = some (host.toList, port) :=
    splitLast?_append (hport.not_mem (by decide) (by decide))
  have hnumber : port? port = some number := port?_eq_some_iff.mpr hport
  unfold parse
  rw [htext, splitFirst?_append hm.unsplit]
  cases secure with
  | true =>
      have hstrip : stripPrefix? tls (tls ++ (host.toList ++ ':' :: port)) =
          some (host.toList ++ ':' :: port) := stripPrefix?_eq_some_iff.mpr rfl
      simp [hstrip, hlast, hnumber, hnamed, hhosted]
  | false =>
      have hplain : ¬ tls <+: host.toList := hm.unmistaken.resolve_left nofun
      have hstrip : stripPrefix? tls (host.toList ++ ':' :: port) = none := by
        rw [stripPrefix?_eq_none_iff, tls_isPrefix_append (hport.not_mem (by decide) (by decide))]
        exact hplain
      simp [hstrip, hlast, hnumber, hnamed, hhosted]

/-- A text is read as a member exactly if the member can be spelled and the text spells it. -/
theorem parse_eq_ok_iff {text : String} {m : Member} :
    parse text = .ok m ↔ m.Legible ∧ Spells text m :=
  ⟨spells_of_parse, fun h => parse_of_spells h.1 h.2⟩

/-- The form in which a member is shown spells it, without a plus sign or leading zeros. -/
theorem spells_text {m : Member} (h : m.port < 0x10000) : Spells m.text m := by
  refine ⟨Nat.toDigits 10 m.port, ⟨h, Or.inl (Numeral.toDigits m.port)⟩, ?_⟩
  have hscheme : (if m.secure then "tls://" else "").toList = if m.secure then tls else [] := by
    split <;> rfl
  unfold text address
  simp [hscheme]

/-- A member whose port is a word is read back from the form in which it is shown exactly if it is
legible. Whatever is read from a text is such a member, so showing it and reading it again gives it
back. -/
theorem shown_read_back :
    (∀ m : Member, m.port < 0x10000 → (parse m.text = .ok m ↔ m.Legible)) ∧
    ∀ (text : String) (m : Member), parse text = .ok m →
      m.port < 0x10000 ∧ m.Legible ∧ parse m.text = .ok m := by
  have hshown {m : Member} (hport : m.port < 0x10000) : parse m.text = .ok m ↔ m.Legible := by
    rw [parse_eq_ok_iff, and_iff_left (spells_text hport)]
  refine ⟨fun m => hshown, ?_⟩
  intro text m hparse
  obtain ⟨hm, port, hnames, -⟩ := parse_eq_ok_iff.mp hparse
  exact ⟨hnames.1, hm, (hshown hnames.1).mpr hm⟩

/-- A host with an equals sign and colons in it, before a port that is spelled at length; and a
member that is not secure but, as it is shown, is taken for one that is. -/
theorem shown_read_back_crowdedHost :
    let text := "node-a=tls:=[::1]:+07100"
    let m : Member := ⟨"tls:=[::1]", 7100, false, "node-a"⟩
    let mistaken : Member := ⟨"tls://b", 7100, false, "b"⟩
    (parse text = .ok m ∧ m.port < 0x10000 ∧ m.Legible ∧ parse m.text = .ok m) ∧
      mistaken.port < 0x10000 ∧ ¬ mistaken.Legible ∧ parse mistaken.text ≠ .ok mistaken := by
  intro text m mistaken
  obtain ⟨hshown, hread⟩ := shown_read_back
  have hparse : parse text = .ok m := by decide
  have hport : mistaken.port < 0x10000 := by decide
  have hillegible : ¬ mistaken.Legible := by decide
  exact ⟨⟨hparse, hread text m hparse⟩, hport, hillegible,
    mt (hshown mistaken hport).mp hillegible⟩

end Quorum.Member
