import Mathlib.Data.List.Basic
import Quorum.Json.Print

/-!
Written integers. The decimal form of an integer is read back as it was, wherever the text goes on
with something that cannot belong to a number.
-/

namespace Quorum

open Json

theorem ascii_append (s t : String) : ascii (s ++ t) = ascii s ++ ascii t := by
  unfold ascii
  rw [String.toByteArray_append, ByteArray.data_append, Array.toList_append]

namespace Json

section Except

variable {ε β γ : Type}

@[simp] theorem ok_bind (x : β) (f : β → Except ε γ) : (Except.ok x >>= f) = f x := rfl

@[simp] theorem error_bind (e : ε) (f : β → Except ε γ) :
    ((Except.error e : Except ε β) >>= f) = .error e := rfl

theorem bind_eq_ok {x : Except ε β} {f : β → Except ε γ} {y : γ} :
    (x >>= f) = .ok y ↔ ∃ a, x = .ok a ∧ f a = .ok y := by
  cases x with
  | error e => simp
  | ok a => simp

theorem map_eq_ok {x : Except ε β} {f : β → γ} {y : γ} :
    f <$> x = .ok y ↔ ∃ a, x = .ok a ∧ f a = y := by
  rw [map_eq_pure_bind, bind_eq_ok]
  exact exists_congr fun a => and_congr_right fun _ => ⟨Except.ok.inj, congrArg _⟩

end Except

theorem toNat_toUInt8 {c : Char} (h : c.isDigit = true) : c.toUInt8.toNat = c.toNat := by
  have hhigh : c.toNat ≤ 57 := (Char.isDigit_iff_toNat.mp h).2
  change c.toNat % 256 = c.toNat
  omega

theorem isDigit_toUInt8 {c : Char} (h : c.isDigit = true) : isDigit c.toUInt8 = true := by
  have hbounds := Char.isDigit_iff_toNat.mp h
  rw [← toNat_toUInt8 h] at hbounds
  exact decide_eq_true hbounds

theorem ascii_digits {cs : List Char} (h : ∀ c ∈ cs, c.isDigit = true) :
    ascii (String.ofList cs) = cs.map Char.toUInt8 := by
  unfold ascii
  rw [String.toByteArray_ofList, List.utf8Encode, List.toList_data_toByteArray]
  induction cs with
  | nil => rfl
  | cons c cs ih =>
      obtain ⟨hc, hcs⟩ := List.forall_mem_cons.mp h
      have hhigh : c.toNat ≤ 57 := (Char.isDigit_iff_toNat.mp hc).2
      have hsize : c.utf8Size = 1 := by
        rw [Char.utf8Size_eq_one_iff, UInt32.le_iff_toNat_le]
        exact Nat.le_trans hhigh (by decide)
      rw [List.flatMap_cons, ih hcs, String.utf8EncodeChar_eq_singleton hsize]
      rfl

/-- The digits of a number as they are written. -/
def decimal (n : Nat) : List UInt8 := (Nat.toDigits 10 n).map Char.toUInt8

theorem isDigit_of_mem_decimal {n : Nat} {b : UInt8} (h : b ∈ decimal n) : isDigit b = true := by
  obtain ⟨c, hc, rfl⟩ := List.mem_map.mp h
  exact isDigit_toUInt8 (Nat.isDigit_of_mem_toDigits (by decide) (by decide) hc)

theorem decimal_ne_nil (n : Nat) : decimal n ≠ [] := by
  simp [decimal, Nat.toDigits_ne_nil]

theorem ascii_repr (n : Nat) : ascii n.repr = decimal n :=
  ascii_digits fun _ hc => Nat.isDigit_of_mem_toDigits (by decide) (by decide) hc

theorem Number.print_integer (i : Int) : (Number.integer i).print =
    if 0 ≤ i then decimal i.toNat else '-'.toUInt8 :: decimal (-i).toNat := by
  change ascii (toString i) = _
  rw [Int.toString_eq_repr, Int.repr_eq_if]
  split
  · exact ascii_repr _
  · rw [ascii_append, ascii_repr]
    rfl

/-- An integer begins with a digit or a minus sign. -/
theorem Number.print_head (i : Int) : ∃ b text, (Number.integer i).print = b :: text ∧
    (isDigit b = true ∨ b = '-'.toUInt8) := by
  rw [Number.print_integer]
  split
  · obtain ⟨b, text, htext⟩ := List.exists_cons_of_ne_nil (decimal_ne_nil i.toNat)
    exact ⟨b, text, htext, Or.inl (isDigit_of_mem_decimal (htext ▸ List.mem_cons_self))⟩
  · exact ⟨_, _, rfl, Or.inr rfl⟩

/-- What the digits of a number stand for. -/
def digits (n : Nat) : List Nat := (Nat.toDigits 10 n).map fun c => c.toNat - '0'.toNat

/-- A number above zero does not begin with a zero. -/
theorem digits_of_pos {n : Nat} (h : 0 < n) : ∃ d ds, digits n = (d + 1) :: ds := by
  induction n using Nat.strongRecOn with
  | ind n ih =>
      rcases Nat.lt_or_ge n 10 with hlt | hge
      · have hone : digits n = [n] := by
          rw [digits, Nat.toDigits_of_lt_base hlt]
          exact congrArg (fun d => [d]) (Nat.toNat_digitChar_sub_48_of_lt_ten hlt)
        exact ⟨n - 1, [], by rw [hone, Nat.sub_add_cancel h]⟩
      · have hsplit : digits n = digits (n / 10) ++ [n % 10] := by
          rw [digits, Nat.toDigits_of_base_le (by decide) hge, List.map_append]
          exact congrArg (fun d => digits (n / 10) ++ [d])
            (Nat.toNat_digitChar_sub_48_of_lt_ten (Nat.mod_lt n (by decide)))
        obtain ⟨d, ds, hds⟩ := ih (n / 10) (by omega) (by omega)
        exact ⟨d, ds ++ [n % 10], by rw [hsplit, hds]; rfl⟩

/-- A text that goes on with nothing that could belong to a number before it. -/
def EndsNumber (rest : List UInt8) : Prop :=
  ∀ b ∈ rest.head?, isDigit b = false ∧ b ≠ '.'.toUInt8 ∧ b ≠ 'e'.toUInt8 ∧ b ≠ 'E'.toUInt8

theorem takeDigits_append {cs : List Char} (h : ∀ c ∈ cs, c.isDigit = true) {rest : List UInt8}
    (hrest : EndsNumber rest) : takeDigits (cs.map Char.toUInt8 ++ rest) =
      (cs.map fun c => c.toNat - '0'.toNat, rest) := by
  induction cs with
  | nil =>
      cases rest with
      | nil => rfl
      | cons b rest => simp [takeDigits, (hrest b rfl).1]
  | cons c cs ih =>
      obtain ⟨hc, hcs⟩ := List.forall_mem_cons.mp h
      simp [takeDigits, isDigit_toUInt8 hc, ih hcs, digitValue, toNat_toUInt8 hc]

namespace Literal

/-- Digits are absorbed as long as the number that they make fits its word. -/
theorem absorb_eq {n : Nat} {ds : List Nat}
    (h : ds.foldl (fun n d => n * 10 + d) n < 0x10000000000000000) :
    absorb n ds = (ds.foldl (fun n d => n * 10 + d) n, []) := by
  have hgrows (ds : List Nat) (n : Nat) : n ≤ ds.foldl (fun n d => n * 10 + d) n := by
    induction ds generalizing n with
    | nil => exact Nat.le_refl n
    | cons d ds ih => exact Nat.le_trans (by omega) (ih (n * 10 + d))
  induction ds generalizing n with
  | nil => rfl
  | cons d ds ih =>
      have hfits : n * 10 + d < 0x10000000000000000 := Nat.lt_of_le_of_lt (hgrows ds _) h
      rw [absorb, if_pos hfits, ih h]
      rfl

theorem absorb_digits {n : Nat} (h : n < 0x10000000000000000) : absorb 0 (digits n) = (n, []) := by
  have hvalue : (digits n).foldl (fun n d => n * 10 + d) 0 = n := by
    rw [digits, List.foldl_map]
    simpa only [Nat.ofDigitChars_eq_foldl, Nat.mul_comm 10] using
      Nat.ofDigitChars_ten_toDigits (n := n)
  rw [absorb_eq (by rw [hvalue]; exact h), hvalue]

theorem readWhole_decimal (n : Nat) {rest : List UInt8} (hrest : EndsNumber rest) :
    readWhole (decimal n ++ rest) = .ok (digits n, rest) := by
  have htake : takeDigits (decimal n ++ rest) = (digits n, rest) :=
    takeDigits_append (fun c hc => Nat.isDigit_of_mem_toDigits (by decide) (by decide) hc) hrest
  unfold readWhole
  rw [htake]
  rcases Nat.eq_zero_or_pos n with rfl | hpos
  · rfl
  · obtain ⟨d, ds, hds⟩ := digits_of_pos hpos
    rw [hds]
    rfl

theorem readMinus_decimal (n : Nat) (rest : List UInt8) :
    readMinus (decimal n ++ rest) = (false, decimal n ++ rest) := by
  cases hdecimal : decimal n with
  | nil => exact absurd hdecimal (decimal_ne_nil n)
  | cons b bs =>
      have hb : isDigit b = true := isDigit_of_mem_decimal (hdecimal ▸ List.mem_cons_self)
      have hne : b ≠ '-'.toUInt8 := by rintro rfl; exact absurd hb (by decide)
      rw [List.cons_append, readMinus, if_neg hne]

/-- After the digits of an integer neither a fraction nor an exponent follows. -/
theorem read_of_readMinus {text rest : List UInt8} {negative : Bool} {n : Nat}
    (h : readMinus text = (negative, decimal n ++ rest)) (hrest : EndsNumber rest) :
    read text = .ok (⟨negative, digits n, none, none⟩, rest) := by
  have hfraction : readFraction rest = .ok (none, rest) := by
    cases rest with
    | nil => rfl
    | cons b rest => rw [readFraction, if_neg (hrest b rfl).2.1]
  have hexponent : readExponent rest = .ok (none, rest) := by
    cases rest with
    | nil => rfl
    | cons b rest =>
        obtain ⟨-, -, hlow, hhigh⟩ := hrest b rfl
        rw [readExponent, if_neg (not_or.mpr ⟨hlow, hhigh⟩)]
  unfold read
  simp only [h, readWhole_decimal n hrest, hfraction, hexponent, ok_bind]
  rfl

theorem value?_digits {negative : Bool} {n : Nat} (hn : n < 0x10000000000000000)
    (hsign : negative = true → 0 < n ∧ n ≤ 0x8000000000000000) :
    value? ⟨negative, digits n, none, none⟩ =
      some (.integer (if negative then -(n : Int) else (n : Int))) := by
  unfold value?
  simp only [absorb_digits hn]
  rw [if_pos ⟨trivial, trivial, trivial, hsign⟩]

end Literal

/-- An integer that fits a signed or an unsigned 64-bit word. -/
def FitsWord (i : Int) : Prop := -0x8000000000000000 ≤ i ∧ i < 0x10000000000000000

instance (i : Int) : Decidable (FitsWord i) := inferInstanceAs (Decidable (_ ∧ _))

theorem Number.read_of_readMinus {text rest : List UInt8} {negative : Bool} {n : Nat}
    (h : Literal.readMinus text = (negative, decimal n ++ rest)) (hn : n < 0x10000000000000000)
    (hsign : negative = true → 0 < n ∧ n ≤ 0x8000000000000000) (hrest : EndsNumber rest) :
    Number.read text = .ok (.integer (if negative then -(n : Int) else (n : Int)), rest) := by
  unfold Number.read
  rw [Literal.read_of_readMinus h hrest, ok_bind]
  simp only [Literal.value?_digits hn hsign]
  rfl

/-- An integer is read as it was written. -/
theorem Number.read_print {i : Int} (hi : FitsWord i) {rest : List UInt8}
    (hrest : EndsNumber rest) :
    Number.read ((Number.integer i).print ++ rest) = .ok (.integer i, rest) := by
  obtain ⟨hlow, hhigh⟩ := hi
  rw [Number.print_integer]
  split
  · rename_i hnonneg
    rw [Number.read_of_readMinus (Literal.readMinus_decimal _ _) (by omega) (by simp) hrest]
    simp [Int.toNat_of_nonneg hnonneg]
  · rename_i hnegative
    have hminus : Literal.readMinus ('-'.toUInt8 :: decimal (-i).toNat ++ rest) =
        (true, decimal (-i).toNat ++ rest) := rfl
    have hvalue : -((-i).toNat : Int) = i := by omega
    rw [Number.read_of_readMinus hminus (by omega) (by omega) hrest, if_pos rfl, hvalue]

end Json

end Quorum
