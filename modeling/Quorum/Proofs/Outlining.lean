import Mathlib.Order.Lattice
import Quorum.Json.Reader
import Quorum.Proofs.Quotation

/-!
The outline of a written value. Where the text never opens more brackets than may be open at once,
its outline is that of the value, and the text goes on right after it. Where it does, the outline is
cut off: it agrees with that of the value up to a bracket too many.
-/

namespace Quorum.Json

mutual

/-- How many brackets are open at once in the written form of a value, at most. -/
def depth : Json → Nat
  | .array items => itemsDepth items + 1
  | .object members => membersDepth members + 1
  | _ => 0

def itemsDepth : List Json → Nat
  | [] => 0
  | v :: rest => max v.depth (itemsDepth rest)

def membersDepth : List (String × Json) → Nat
  | [] => 0
  | (_, v) :: rest => max v.depth (membersDepth rest)

end

theorem itemsDepth_le_iff {items : List Json} {d : Nat} :
    itemsDepth items ≤ d ↔ ∀ v ∈ items, v.depth ≤ d := by
  induction items with
  | nil => simp [itemsDepth]
  | cons v rest ih => simp [itemsDepth, ih]

theorem membersDepth_le_iff {members : List (String × Json)} {d : Nat} :
    membersDepth members ≤ d ↔ ∀ m ∈ members, m.2.depth ≤ d := by
  induction members with
  | nil => simp [membersDepth]
  | cons m rest ih => simp [membersDepth, ih]

/-- A value all numbers of which are integers that fit a word. -/
inductive Whole : Json → Prop
  | null : Whole .null
  | bool (b : Bool) : Whole (.bool b)
  | integer {i : Int} (h : FitsWord i) : Whole (.number (.integer i))
  | string (s : String) : Whole (.string s)
  | array {items : List Json} (h : ∀ v ∈ items, Whole v) : Whole (.array items)
  | object {members : List (String × Json)} (h : ∀ m ∈ members, Whole m.2) :
      Whole (.object members)

/-- What is written after a value: nothing, or a comma or bracket. -/
def Follows (rest : List UInt8) : Prop :=
  ∀ b ∈ rest.head?, b = comma ∨ b = closeBracket ∨ b = closeBrace

theorem Follows.endsNumber {rest : List UInt8} (h : Follows rest) : EndsNumber rest := by
  intro b hb
  rcases h b hb with rfl | rfl | rfl
  · decide
  · decide
  · decide

theorem dropBlanks_cons {b : UInt8} (h : isBlank b = false) (rest : List UInt8) :
    dropBlanks (b :: rest) = b :: rest :=
  List.dropWhile_cons_of_neg (by simp [h])

theorem commas_cons (p : List UInt8) (ps : List (List UInt8)) :
    commas (p :: ps) = p ++ ps.flatMap (comma :: ·) := by
  induction ps generalizing p with
  | nil => simp [commas]
  | cons q ps ih => rw [commas, ih, List.flatMap_cons]; rfl

theorem printItems_eq (items : List Json) : printItems items = items.map print := by
  induction items with
  | nil => rfl
  | cons v rest ih => rw [printItems, ih, List.map_cons]

namespace Outline

theorem ofItems_eq (items : List Json) : ofItems items = items.map ofJson := by
  induction items with
  | nil => rfl
  | cons v rest ih => rw [ofItems, ih, List.map_cons]

theorem ofMembers_eq (members : List (String × Json)) :
    ofMembers members = members.map fun m => (m.1, ofJson m.2) := by
  induction members with
  | nil => rfl
  | cons m rest ih => rw [ofMembers, ih, List.map_cons]

/-- A number begins with none of the bytes with which another value begins. -/
theorem readScalar_number {b : UInt8} (h : isDigit b = true ∨ b = '-'.toUInt8) (rest : List UInt8) :
    (isBlank b = false ∧ b ≠ openBracket ∧ b ≠ openBrace ∧ b ≠ closeBracket) ∧
      readScalar b rest = (Number.read (b :: rest)).map fun (n, r) => (.number n, r) := by
  have hne (c : UInt8) (hc : ¬ (isDigit c = true ∨ c = '-'.toUInt8)) : b ≠ c := by
    rintro rfl
    exact hc h
  refine ⟨⟨?_, hne _ (by decide), hne _ (by decide), hne _ (by decide)⟩, ?_⟩
  · simp [isBlank, hne ' '.toUInt8 (by decide), hne '\n'.toUInt8 (by decide),
      hne '\t'.toUInt8 (by decide), hne '\r'.toUInt8 (by decide)]
  · unfold readScalar
    rw [if_neg (hne 'n'.toUInt8 (by decide)), if_neg (hne 't'.toUInt8 (by decide)),
      if_neg (hne 'f'.toUInt8 (by decide)), if_neg (hne Quoted.quote (by decide)), if_pos h]

/-- A value that is no array and no object is read from its first byte on. -/
theorem readScalar_print {v : Json} (hv : v.Whole) (hdepth : v.depth = 0) {rest : List UInt8}
    (hrest : Follows rest) : ∃ b text, v.print = b :: text ∧ isBlank b = false ∧
      b ≠ openBracket ∧ b ≠ openBrace ∧ b ≠ closeBracket ∧
      readScalar b (text ++ rest) = .ok (ofJson v, rest) := by
  cases hv with
  | null => exact ⟨_, _, rfl, by decide, by decide, by decide, by decide, rfl⟩
  | bool b =>
      cases b with
      | true => exact ⟨_, _, rfl, by decide, by decide, by decide, by decide, rfl⟩
      | false => exact ⟨_, _, rfl, by decide, by decide, by decide, by decide, rfl⟩
  | @integer i h =>
      obtain ⟨b, text, htext, hb⟩ := Number.print_head i
      obtain ⟨⟨hblank, hbracket, hbrace, hclose⟩, hread⟩ := readScalar_number hb (text ++ rest)
      refine ⟨b, text, htext, hblank, hbracket, hbrace, hclose, ?_⟩
      rw [hread, ← List.cons_append, ← htext, Number.read_print h hrest.endsNumber]
      rfl
  | string s =>
      have hprint : (Json.string s).print = Quoted.quote ::
          (s.toByteArray.data.toList.flatMap Quoted.escape ++ [Quoted.quote]) := rfl
      refine ⟨_, _, hprint, by decide, by decide, by decide, by decide, ?_⟩
      rw [List.append_assoc, List.singleton_append, readScalar, if_neg (by decide),
        if_neg (by decide), if_neg (by decide), if_pos rfl, Quoted.read_print]
      rfl
  | array h => simp [depth] at hdepth
  | object h => simp [depth] at hdepth

/-- A written value begins with neither a blank nor a closing bracket. -/
theorem print_head {v : Json} (hv : v.Whole) :
    ∃ b text, v.print = b :: text ∧ isBlank b = false ∧ b ≠ closeBracket := by
  have hscalar (hdepth : v.depth = 0) :
      ∃ b text, v.print = b :: text ∧ isBlank b = false ∧ b ≠ closeBracket := by
    obtain ⟨b, text, hprint, hblank, -, -, hclose, -⟩ :=
      readScalar_print hv hdepth (show Follows [] by simp [Follows])
    exact ⟨b, text, hprint, hblank, hclose⟩
  cases hv with
  | array h => exact ⟨_, _, rfl, by decide, by decide⟩
  | object h => exact ⟨_, _, rfl, by decide, by decide⟩
  | _ => exact hscalar rfl

/-- With `d` brackets more to open, the written form of a value is read back. -/
def Recovers (d : Nat) (v : Json) : Prop :=
  ∀ fuel rest, 2 * v.print.length ≤ fuel → Follows rest →
    readValue fuel d (v.print ++ rest) = (ofJson v, some rest)

theorem recovers_scalar {v : Json} (hv : v.Whole) (hdepth : v.depth = 0) (d : Nat) :
    Recovers d v := by
  intro fuel rest hfuel hrest
  obtain ⟨b, text, hprint, hblank, hbracket, hbrace, -, hread⟩ := readScalar_print hv hdepth hrest
  rw [hprint] at hfuel ⊢
  cases fuel with
  | zero => simp at hfuel
  | succ fuel =>
      rw [List.cons_append, readValue, dropBlanks_cons hblank]
      simp only [if_neg hbracket, if_neg hbrace, hread]

/-- What is written after the first item of an array. -/
def moreItems (items : List Json) (rest : List UInt8) : List UInt8 :=
  (items.map print).flatMap (comma :: ·) ++ closeBracket :: rest

theorem moreItems_cons (v : Json) (items : List Json) (rest : List UInt8) :
    moreItems (v :: items) rest = comma :: (v.print ++ moreItems items rest) := by
  simp [moreItems]

theorem follows_moreItems (items : List Json) (rest : List UInt8) :
    Follows (moreItems items rest) := by
  cases items with
  | nil => simp [moreItems, Follows]
  | cons v items => simp [moreItems, Follows]

/-- The item at the head of a text is read, and a comma leads on to the next. -/
theorem readItems_cons {d : Nat} {v : Json} (hv : v.Whole) (h : Recovers d v) {fuel : Nat}
    (first : Bool) {items : List Json} {rest : List UInt8} (hfuel : 2 * v.print.length ≤ fuel) :
    readItems (fuel + 1) d first (v.print ++ moreItems items rest) =
      match items with
      | [] => ([ofJson v], .closed, some rest)
      | w :: items =>
        let (os, ending, rest) := readItems fuel d false (w.print ++ moreItems items rest)
        (ofJson v :: os, ending, rest) := by
  obtain ⟨b, text, hprint, hblank, hclose⟩ := print_head hv
  have hread := h fuel (moreItems items rest) hfuel (follows_moreItems items rest)
  rw [hprint, List.cons_append] at hread ⊢
  rw [readItems, dropBlanks_cons hblank]
  simp only [if_neg hclose, hread]
  cases items with
  | nil => rfl
  | cons w items =>
      have hcomma : comma ≠ closeBracket := by decide
      rw [moreItems_cons, dropBlanks_cons (by decide)]
      simp only [if_neg hcomma, if_true]

theorem readItems_print {d : Nat} {v : Json} {items : List Json}
    (hwhole : ∀ w ∈ v :: items, w.Whole) (h : ∀ w ∈ v :: items, Recovers d w) {fuel : Nat}
    (first : Bool) (rest : List UInt8) (hfuel : 2 * (v.print ++ moreItems items []).length ≤ fuel) :
    readItems fuel d first (v.print ++ moreItems items rest) =
      ((v :: items).map ofJson, .closed, some rest) := by
  obtain ⟨hv, hitems⟩ := List.forall_mem_cons.mp hwhole
  obtain ⟨hfirst, hlater⟩ := List.forall_mem_cons.mp h
  induction items generalizing v fuel first with
  | nil =>
      rw [List.length_append, moreItems, List.length_append, List.length_singleton] at hfuel
      obtain ⟨fuel, rfl⟩ : ∃ f, fuel = f + 1 := Nat.exists_eq_succ_of_ne_zero (by omega)
      rw [readItems_cons hv hfirst _ (by omega)]
      rfl
  | cons w items ih =>
      rw [moreItems_cons, List.length_append, List.length_cons] at hfuel
      obtain ⟨fuel, rfl⟩ : ∃ f, fuel = f + 1 := Nat.exists_eq_succ_of_ne_zero (by omega)
      obtain ⟨hw, hitems'⟩ := List.forall_mem_cons.mp hitems
      obtain ⟨hnext, hlater'⟩ := List.forall_mem_cons.mp hlater
      have hroom : 2 * (w.print ++ moreItems items []).length ≤ fuel := by omega
      have htail := ih hitems hlater false hroom hw hitems' hnext hlater'
      rw [readItems_cons hv hfirst _ (by omega)]
      simp only [htail]
      rfl

/-- What is written of a key after its opening quote. -/
def keyText (k : String) : List UInt8 :=
  k.toByteArray.data.toList.flatMap Quoted.escape ++ [Quoted.quote]

/-- What is written after the first member of an object. -/
def moreMembers (members : List (String × Json)) (rest : List UInt8) : List UInt8 :=
  (printMembers members).flatMap (comma :: ·) ++ closeBrace :: rest

/-- What is written of an object after its first quote. -/
def fromKey (m : String × Json) (members : List (String × Json)) (rest : List UInt8) :
    List UInt8 :=
  keyText m.1 ++ colon :: (m.2.print ++ moreMembers members rest)

theorem moreMembers_cons (m : String × Json) (members : List (String × Json)) (rest : List UInt8) :
    moreMembers (m :: members) rest = comma :: Quoted.quote :: fromKey m members rest := by
  simp [moreMembers, fromKey, printMembers, Quoted.print, keyText]
  rfl

theorem follows_moreMembers (members : List (String × Json)) (rest : List UInt8) :
    Follows (moreMembers members rest) := by
  cases members with
  | nil => simp [moreMembers, Follows, printMembers]
  | cons v members => simp [moreMembers, Follows, printMembers]

theorem readMembers_cons {d : Nat} {m : String × Json} (h : Recovers d m.2) {fuel : Nat}
    {members : List (String × Json)} {rest : List UInt8} (hfuel : 2 * m.2.print.length ≤ fuel) :
    readMembers (fuel + 1) d (fromKey m members rest) =
      match members with
      | [] => ([(m.1, ofJson m.2)], .closed, some rest)
      | m' :: members =>
        let (os, ending, rest) := readMembers fuel d (fromKey m' members rest)
        ((m.1, ofJson m.2) :: os, ending, rest) := by
  have hread := h fuel (moreMembers members rest) hfuel (follows_moreMembers members rest)
  have hkey : Quoted.read (fromKey m members rest) =
      .ok (m.1, colon :: (m.2.print ++ moreMembers members rest)) := by
    rw [fromKey, keyText, List.append_assoc, List.singleton_append, Quoted.read_print]
  rw [readMembers]
  simp only [hkey, dropBlanks_cons (show isBlank colon = false by decide), if_true, hread,
    Option.elim_some]
  cases members with
  | nil => rfl
  | cons w members =>
      have hcomma : comma ≠ closeBrace := by decide
      rw [moreMembers_cons, dropBlanks_cons (by decide)]
      simp only [if_neg hcomma, if_true,
        dropBlanks_cons (show isBlank Quoted.quote = false by decide)]

theorem readMembers_print {d : Nat} {m : String × Json} {members : List (String × Json)}
    (h : ∀ m' ∈ m :: members, Recovers d m'.2) {fuel : Nat} (rest : List UInt8)
    (hfuel : 2 * (fromKey m members []).length ≤ fuel) :
    readMembers fuel d (fromKey m members rest) =
      ((m :: members).map fun m => (m.1, ofJson m.2), .closed, some rest) := by
  obtain ⟨hfirst, hlater⟩ := List.forall_mem_cons.mp h
  induction members generalizing m fuel with
  | nil =>
      simp only [fromKey, List.length_append, List.length_cons] at hfuel
      obtain ⟨fuel, rfl⟩ : ∃ f, fuel = f + 1 := Nat.exists_eq_succ_of_ne_zero (by omega)
      rw [readMembers_cons hfirst (by omega)]
      rfl
  | cons m' members ih =>
      rw [fromKey, moreMembers_cons] at hfuel
      simp only [List.length_append, List.length_cons] at hfuel
      obtain ⟨fuel, rfl⟩ : ∃ f, fuel = f + 1 := Nat.exists_eq_succ_of_ne_zero (by omega)
      obtain ⟨hnext, hlater'⟩ := List.forall_mem_cons.mp hlater
      have hroom : 2 * (fromKey m' members []).length ≤ fuel := by omega
      have htail := ih hlater hroom hnext hlater'
      rw [readMembers_cons hfirst (by omega)]
      simp only [htail]
      rfl

theorem print_array (v : Json) (items : List Json) (rest : List UInt8) :
    (Json.array (v :: items)).print ++ rest = openBracket :: (v.print ++ moreItems items rest) := by
  rw [print, printItems_eq, List.map_cons, commas_cons]
  simp [moreItems, openBracket, closeBracket]

theorem print_object (m : String × Json) (members : List (String × Json)) (rest : List UInt8) :
    (Json.object (m :: members)).print ++ rest =
      openBrace :: Quoted.quote :: fromKey m members rest := by
  rw [print, printMembers, commas_cons]
  simp [moreMembers, fromKey, keyText, Quoted.print, openBrace, closeBrace, colon]

theorem recovers_array {d : Nat} {items : List Json} (hwhole : ∀ v ∈ items, v.Whole)
    (h : ∀ v ∈ items, Recovers d v) : Recovers (d + 1) (.array items) := by
  intro fuel rest hfuel _
  cases items with
  | nil =>
      obtain ⟨fuel, rfl⟩ : ∃ f, fuel = f + 2 :=
        Nat.exists_eq_add_of_le' (Nat.le_trans (by decide) hfuel)
      rfl
  | cons v items =>
      have hlength := congrArg List.length (print_array v items [])
      rw [List.append_nil, List.length_cons] at hlength
      obtain ⟨fuel, rfl⟩ : ∃ f, fuel = f + 1 := Nat.exists_eq_succ_of_ne_zero (by omega)
      have hroom : 2 * (v.print ++ moreItems items []).length ≤ fuel := by omega
      have hread := readItems_print hwhole h true rest hroom
      rw [print_array, readValue, dropBlanks_cons (by decide)]
      simp only [if_true, Nat.add_sub_cancel, hread]
      rw [ofJson, ofItems_eq]
      rfl

theorem recovers_object {d : Nat} {members : List (String × Json)}
    (h : ∀ m ∈ members, Recovers d m.2) : Recovers (d + 1) (.object members) := by
  intro fuel rest hfuel _
  cases members with
  | nil =>
      obtain ⟨fuel, rfl⟩ : ∃ f, fuel = f + 1 :=
        Nat.exists_eq_add_of_le' (Nat.le_trans (by decide) hfuel)
      rfl
  | cons m members =>
      have hbracket : openBrace ≠ openBracket := by decide
      have hbrace : Quoted.quote ≠ closeBrace := by decide
      have hlength := congrArg List.length (print_object m members [])
      rw [List.append_nil, List.length_cons, List.length_cons] at hlength
      obtain ⟨fuel, rfl⟩ : ∃ f, fuel = f + 1 := Nat.exists_eq_succ_of_ne_zero (by omega)
      have hroom : 2 * (fromKey m members []).length ≤ fuel := by omega
      have hread := readMembers_print h rest hroom
      rw [print_object, readValue, dropBlanks_cons (by decide)]
      simp only [if_neg hbracket, if_true,
        dropBlanks_cons (show isBlank Quoted.quote = false by decide), if_neg hbrace,
        Nat.add_sub_cancel, hread]
      rw [ofJson, ofMembers_eq]
      rfl

/-- A value whose form opens no more than `d` brackets at once is read back. -/
theorem recovers {v : Json} (hv : v.Whole) {d : Nat} (h : v.depth ≤ d) : Recovers d v := by
  induction hv generalizing d with
  | @array items hitems ih =>
      rw [depth] at h
      obtain ⟨d, rfl⟩ := Nat.exists_eq_add_of_le' (Nat.le_trans (Nat.le_add_left 1 _) h)
      exact recovers_array hitems fun v hv => ih v hv
        (itemsDepth_le_iff.mp (Nat.le_of_succ_le_succ h) v hv)
  | @object members hmembers ih =>
      rw [depth] at h
      obtain ⟨d, rfl⟩ := Nat.exists_eq_add_of_le' (Nat.le_trans (Nat.le_add_left 1 _) h)
      exact recovers_object fun m hm => ih m hm
        (membersDepth_le_iff.mp (Nat.le_of_succ_le_succ h) m hm)
  | null => exact recovers_scalar .null rfl d
  | bool b => exact recovers_scalar (.bool b) rfl d
  | integer hi => exact recovers_scalar (.integer hi) rfl d
  | string s => exact recovers_scalar (.string s) rfl d

/-- An outline that agrees with another one up to a bracket that must not be opened. -/
inductive Cut : Outline → Outline → Prop
  | array {items : List Outline} {ending : Ending} :
      Cut (.broken openBracket .malformed) (.array items ending)
  | object {members : List (String × Outline)} {ending : Ending} :
      Cut (.broken openBrace .malformed) (.object members ending)
  | item (before : List Outline) {more after : List Outline} {o p : Outline} {e ending : Ending}
      (h : Cut o p) :
      Cut (.array (before ++ o :: more) e) (.array (before ++ p :: after) ending)
  | member (before : List (String × Outline)) {more after : List (String × Outline)} {k : String}
      {o p : Outline} {e ending : Ending} (h : Cut o p) :
      Cut (.object (before ++ (k, o) :: more) e) (.object (before ++ (k, p) :: after) ending)

theorem Cut.of_array {o : Outline} {ps : List Outline} {ending : Ending}
    (h : Cut o (.array ps ending)) : o = .broken openBracket .malformed ∨
      ∃ before o' more p after e, ps = before ++ p :: after ∧ Cut o' p ∧
        o = .array (before ++ o' :: more) e := by
  cases h with
  | array => exact .inl rfl
  | item before h => exact .inr ⟨_, _, _, _, _, _, rfl, h, rfl⟩

theorem Cut.of_object {o : Outline} {ps : List (String × Outline)} {ending : Ending}
    (h : Cut o (.object ps ending)) : o = .broken openBrace .malformed ∨
      ∃ before k o' more p after e, ps = before ++ (k, p) :: after ∧ Cut o' p ∧
        o = .object (before ++ (k, o') :: more) e := by
  cases h with
  | object => exact .inl rfl
  | member before h => exact .inr ⟨_, _, _, _, _, _, _, rfl, h, rfl⟩

/-- With `d` brackets more to open, the outline of the written form of a value is cut off. -/
def CutsOff (d : Nat) (v : Json) : Prop :=
  ∀ fuel rest, 2 * v.print.length ≤ fuel → Follows rest →
    Cut (readValue fuel d (v.print ++ rest)).1 (ofJson v)

/-- The first item of an array is the value at the head of the text, whatever may follow. -/
theorem readItems_head (d fuel : Nat) (first : Bool) {b : UInt8} (hblank : isBlank b = false)
    (hclose : b ≠ closeBracket) (text : List UInt8) : ∃ more ending next,
      readItems (fuel + 1) d first (b :: text) =
        ((readValue fuel d (b :: text)).1 :: more, ending, next) := by
  rw [readItems, dropBlanks_cons hblank]
  simp only [if_neg hclose]
  rcases readValue fuel d (b :: text) with ⟨o, _ | after⟩
  · exact ⟨[], _, _, rfl⟩
  · dsimp only
    split
    · exact ⟨[], _, _, rfl⟩
    · split
      · exact ⟨[], _, _, rfl⟩
      · split
        · exact ⟨_, _, _, rfl⟩
        · exact ⟨[], _, _, rfl⟩

/-- The first member of an object has the value after its colon, whatever may follow. -/
theorem readMembers_head (d fuel : Nat) (k : String) (text : List UInt8) :
    ∃ more ending next, readMembers (fuel + 1) d (keyText k ++ colon :: text) =
      ((k, (readValue fuel d text).1) :: more, ending, next) := by
  have hkey : Quoted.read (keyText k ++ colon :: text) = .ok (k, colon :: text) := by
    rw [keyText, List.append_assoc, List.singleton_append, Quoted.read_print]
  rw [readMembers]
  simp only [hkey, dropBlanks_cons (show isBlank colon = false by decide), if_true]
  rcases readValue fuel d text with ⟨o, next⟩
  dsimp only
  split
  · exact ⟨[], _, _, rfl⟩
  · split
    · exact ⟨[], _, _, rfl⟩
    · split
      · exact ⟨[], _, _, rfl⟩
      · split
        · split
          · exact ⟨[], _, _, rfl⟩
          · split
            · exact ⟨_, _, _, rfl⟩
            · exact ⟨[], _, _, rfl⟩
        · exact ⟨[], _, _, rfl⟩

theorem Cut.cons_item {o : Outline} {os ps : List Outline} {e ending : Ending}
    (h : Cut (.array os e) (.array ps ending)) :
    Cut (.array (o :: os) e) (.array (o :: ps) ending) := by
  cases h with
  | item before h => exact .item (o :: before) h

theorem Cut.cons_member {m : String × Outline} {os ps : List (String × Outline)}
    {e ending : Ending} (h : Cut (.object os e) (.object ps ending)) :
    Cut (.object (m :: os) e) (.object (m :: ps) ending) := by
  cases h with
  | member before h => exact .member (m :: before) h

theorem readItems_cut_head {d fuel : Nat} {v : Json} (hv : v.Whole) (hcut : CutsOff d v)
    (hfuel : 2 * v.print.length ≤ fuel) {first : Bool} {items : List Json} {rest : List UInt8} :
    Cut (.array (readItems (fuel + 1) d first (v.print ++ moreItems items rest)).1
      (readItems (fuel + 1) d first (v.print ++ moreItems items rest)).2.1)
      (.array ((v :: items).map ofJson) .closed) := by
  have h := hcut fuel (moreItems items rest) hfuel (follows_moreItems items rest)
  obtain ⟨b, text, hprint, hblank, hclose⟩ := print_head hv
  rw [hprint, List.cons_append] at h ⊢
  obtain ⟨more, ending, next, hread⟩ := readItems_head d fuel first
    hblank hclose (text ++ moreItems items rest)
  rw [hread]
  exact .item [] h

theorem readMembers_cut_head {d fuel : Nat} {m : String × Json} (hcut : CutsOff d m.2)
    (hfuel : 2 * m.2.print.length ≤ fuel) {members : List (String × Json)} {rest : List UInt8} :
    Cut (.object (readMembers (fuel + 1) d (fromKey m members rest)).1
      (readMembers (fuel + 1) d (fromKey m members rest)).2.1)
      (.object ((m :: members).map fun m => (m.1, ofJson m.2)) .closed) := by
  have h := hcut fuel (moreMembers members rest) hfuel (follows_moreMembers members rest)
  obtain ⟨more, ending, next, hread⟩ := readMembers_head d fuel m.1
    (m.2.print ++ moreMembers members rest)
  rw [fromKey, hread]
  exact .member [] h

/-- An item with brackets too many cuts the items off, whichever it is. -/
theorem readItems_cut {d : Nat} {v : Json} {items : List Json}
    (hwhole : ∀ w ∈ v :: items, w.Whole) (hcut : ∀ w ∈ v :: items, d < w.depth → CutsOff d w)
    (hdeep : d < itemsDepth (v :: items)) {fuel : Nat} (first : Bool) (rest : List UInt8)
    (hfuel : 2 * (v.print ++ moreItems items []).length ≤ fuel) :
    Cut (.array (readItems fuel d first (v.print ++ moreItems items rest)).1
      (readItems fuel d first (v.print ++ moreItems items rest)).2.1)
      (.array ((v :: items).map ofJson) .closed) := by
  obtain ⟨hv, hitems⟩ := List.forall_mem_cons.mp hwhole
  induction items generalizing v fuel first with
  | nil =>
      have hdeep : d < v.depth := by simpa [itemsDepth] using hdeep
      rw [List.length_append, moreItems, List.length_append, List.length_singleton] at hfuel
      obtain ⟨fuel, rfl⟩ : ∃ f, fuel = f + 1 := Nat.exists_eq_succ_of_ne_zero (by omega)
      exact readItems_cut_head hv (hcut v List.mem_cons_self hdeep) (by omega)
  | cons w items ih =>
      have hlength := hfuel
      rw [moreItems_cons, List.length_append, List.length_cons] at hlength
      obtain ⟨fuel, rfl⟩ : ∃ f, fuel = f + 1 := Nat.exists_eq_succ_of_ne_zero (by omega)
      by_cases hd : d < v.depth
      · exact readItems_cut_head hv (hcut v List.mem_cons_self hd) (by omega)
      · have hdeep : d < itemsDepth (w :: items) := by
          rw [itemsDepth] at hdeep
          omega
        obtain ⟨hw, hitems'⟩ := List.forall_mem_cons.mp hitems
        have hroom : 2 * (w.print ++ moreItems items []).length ≤ fuel := by omega
        have htail := ih hitems (fun u hu => hcut u (List.mem_cons_of_mem v hu)) hdeep false hroom
          hw hitems'
        rw [readItems_cons hv (recovers hv (Nat.le_of_not_lt hd)) _ (by omega)]
        exact htail.cons_item

/-- A member with brackets too many cuts the members off, whichever it is. -/
theorem readMembers_cut {d : Nat} {m : String × Json} {members : List (String × Json)}
    (hwhole : ∀ w ∈ m :: members, w.2.Whole)
    (hcut : ∀ w ∈ m :: members, d < w.2.depth → CutsOff d w.2)
    (hdeep : d < membersDepth (m :: members)) {fuel : Nat} (rest : List UInt8)
    (hfuel : 2 * (fromKey m members []).length ≤ fuel) :
    Cut (.object (readMembers fuel d (fromKey m members rest)).1
      (readMembers fuel d (fromKey m members rest)).2.1)
      (.object ((m :: members).map fun m => (m.1, ofJson m.2)) .closed) := by
  obtain ⟨hm, hmembers⟩ := List.forall_mem_cons.mp hwhole
  induction members generalizing m fuel with
  | nil =>
      have hdeep : d < m.2.depth := by simpa [membersDepth] using hdeep
      simp only [fromKey, List.length_append, List.length_cons] at hfuel
      obtain ⟨fuel, rfl⟩ : ∃ f, fuel = f + 1 := Nat.exists_eq_succ_of_ne_zero (by omega)
      exact readMembers_cut_head (hcut m List.mem_cons_self hdeep) (by omega)
  | cons m' members ih =>
      have hlength : 2 * m.2.print.length + 2 * (fromKey m' members []).length + 2 ≤ fuel := by
        rw [fromKey, moreMembers_cons] at hfuel
        simp only [List.length_append, List.length_cons] at hfuel
        omega
      obtain ⟨fuel, rfl⟩ : ∃ f, fuel = f + 1 := Nat.exists_eq_succ_of_ne_zero (by omega)
      by_cases hd : d < m.2.depth
      · exact readMembers_cut_head (hcut m List.mem_cons_self hd) (by omega)
      · have hdeep : d < membersDepth (m' :: members) := by
          rw [membersDepth] at hdeep
          omega
        obtain ⟨hm', hmembers'⟩ := List.forall_mem_cons.mp hmembers
        have hroom : 2 * (fromKey m' members []).length ≤ fuel := by omega
        have htail := ih hmembers (fun u hu => hcut u (List.mem_cons_of_mem m hu)) hdeep hroom
          hm' hmembers'
        rw [readMembers_cons (recovers hm (Nat.le_of_not_lt hd)) (by omega)]
        exact htail.cons_member

theorem cutsOff_array {d : Nat} {items : List Json} (hwhole : ∀ v ∈ items, v.Whole)
    (hcut : ∀ v ∈ items, ∀ d, d < v.depth → CutsOff d v) (hdeep : d < itemsDepth items + 1) :
    CutsOff d (.array items) := by
  intro fuel rest hfuel _
  obtain ⟨fuel, rfl⟩ : ∃ f, fuel = f + 1 := by
    simp only [print, List.length_append, List.length_cons] at hfuel
    exact Nat.exists_eq_succ_of_ne_zero (by omega)
  cases d with
  | zero =>
      have hread : (readValue (fuel + 1) 0 ((Json.array items).print ++ rest)).1 =
          .broken openBracket .malformed := by
        rw [print, List.cons_append, List.cons_append, readValue, dropBlanks_cons (by decide)]
        rfl
      rw [hread]
      exact .array
  | succ d =>
      cases items with
      | nil => simp [itemsDepth] at hdeep
      | cons v items =>
          have hlength := congrArg List.length (print_array v items [])
          rw [List.append_nil, List.length_cons] at hlength
          have hroom : 2 * (v.print ++ moreItems items []).length ≤ fuel := by omega
          have hread := readItems_cut hwhole (fun w hw => hcut w hw d)
            (Nat.lt_of_succ_lt_succ hdeep) true rest hroom
          rw [print_array, readValue, dropBlanks_cons (by decide), ofJson, ofItems_eq]
          simpa using hread

theorem cutsOff_object {d : Nat} {members : List (String × Json)}
    (hwhole : ∀ m ∈ members, m.2.Whole)
    (hcut : ∀ m ∈ members, ∀ d, d < m.2.depth → CutsOff d m.2)
    (hdeep : d < membersDepth members + 1) : CutsOff d (.object members) := by
  intro fuel rest hfuel _
  obtain ⟨fuel, rfl⟩ : ∃ f, fuel = f + 1 := by
    simp only [print, List.length_append, List.length_cons] at hfuel
    exact Nat.exists_eq_succ_of_ne_zero (by omega)
  have hbracket : openBrace ≠ openBracket := by decide
  cases d with
  | zero =>
      have hread : (readValue (fuel + 1) 0 ((Json.object members).print ++ rest)).1 =
          .broken openBrace .malformed := by
        rw [print, List.cons_append, List.cons_append, readValue, dropBlanks_cons (by decide)]
        rfl
      rw [hread]
      exact .object
  | succ d =>
      cases members with
      | nil => simp [membersDepth] at hdeep
      | cons m members =>
          have hbrace : Quoted.quote ≠ closeBrace := by decide
          have hlength := congrArg List.length (print_object m members [])
          rw [List.append_nil, List.length_cons, List.length_cons] at hlength
          have hroom : 2 * (fromKey m members []).length ≤ fuel := by omega
          have hread := readMembers_cut hwhole (fun w hw => hcut w hw d)
            (Nat.lt_of_succ_lt_succ hdeep) rest hroom
          rw [print_object, readValue, dropBlanks_cons (by decide), ofJson, ofMembers_eq]
          simp only [if_neg hbracket, if_true,
            dropBlanks_cons (show isBlank Quoted.quote = false by decide), if_neg hbrace]
          simpa using hread

/-- A value whose form opens more than `d` brackets at once is cut off. -/
theorem cutsOff {v : Json} (hv : v.Whole) {d : Nat} (h : d < v.depth) : CutsOff d v := by
  induction hv generalizing d with
  | array hitems ih => exact cutsOff_array hitems (fun v hv d hd => ih v hv hd) h
  | object hmembers ih => exact cutsOff_object hmembers (fun m hm d hd => ih m hm hd) h
  | _ => exact absurd h (Nat.not_lt_zero d)

/-- The outline of the written form of a value that is nested within the limit. -/
theorem ofText_print {v : Json} (hv : v.Whole) (h : v.depth ≤ depthLimit) :
    ofText v.print = (ofJson v, some []) := by
  have hread := recovers hv h (2 * v.print.length + 2) [] (by omega) (by simp [Follows])
  rwa [List.append_nil] at hread

/-- The outline of the written form of a value that is nested beyond the limit. -/
theorem ofText_print_cut {v : Json} (hv : v.Whole) (h : depthLimit < v.depth) :
    Cut (ofText v.print).1 (ofJson v) := by
  have hread := cutsOff hv h (2 * v.print.length + 2) [] (by omega) (by simp [Follows])
  rwa [List.append_nil] at hread

end Outline

end Quorum.Json
