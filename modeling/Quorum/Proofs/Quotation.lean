import Quorum.Json.Quoted
import Quorum.Proofs.Numeral

/-!
Written strings. Every byte of a string is read back as it was, escaped or not, up to the closing
quote.
-/

namespace Quorum.Json.Quoted

theorem hexValue?_hexDigit : ∀ n < 16, hexValue? (hexDigit n) = some n := by decide

theorem hexUnit?_control {b : UInt8} (h : b < 32) :
    hexUnit? '0'.toUInt8 '0'.toUInt8 (hexDigit (b.toNat / 16)) (hexDigit (b.toNat % 16)) =
      some b.toNat := by
  have hb : b.toNat < 32 := UInt8.lt_iff_toNat_lt.mp h
  have hzero : hexValue? '0'.toUInt8 = some 0 := by decide
  simp only [hexUnit?, hzero, hexValue?_hexDigit (b.toNat / 16) (by omega),
    hexValue?_hexDigit (b.toNat % 16) (by omega), Option.pure_def, Option.bind_eq_bind,
    Option.bind_some, Option.some.injEq]
  omega

section Scan

variable {b e : UInt8} (rest : List UInt8)

theorem scan_plain (hquote : b ≠ quote) (hbackslash : b ≠ backslash) (hcontrol : ¬ b < 32) :
    scan (b :: rest) = (.byte b :: (scan rest).1, (scan rest).2) := by
  rw [scan.eq_def]
  simp only [if_neg hquote, if_neg hbackslash, if_neg hcontrol]

theorem scan_letter (hunit : e ≠ 'u'.toUInt8) (h : letter? e = some b) :
    scan (backslash :: e :: rest) = (.byte b :: (scan rest).1, (scan rest).2) := by
  have hquote : backslash ≠ quote := by decide
  rw [scan.eq_def]
  simp only [if_neg hquote, if_true, if_neg hunit, h]

theorem scan_unit {h₁ h₂ h₃ h₄ : UInt8} {u : Nat} (h : hexUnit? h₁ h₂ h₃ h₄ = some u) :
    scan (backslash :: 'u'.toUInt8 :: h₁ :: h₂ :: h₃ :: h₄ :: rest) =
      (.unit u :: (scan rest).1, (scan rest).2) := by
  have hquote : backslash ≠ quote := by decide
  rw [scan.eq_def]
  simp only [if_neg hquote, if_true, h]

/-- A byte is written as a letter that stands for it, by its number, or as it is. -/
theorem escape_cases (b : UInt8) :
    (∃ e, e ≠ 'u'.toUInt8 ∧ letter? e = some b ∧ escape b = [backslash, e]) ∨
    (b < 32 ∧ escape b = [backslash, 'u'.toUInt8, '0'.toUInt8, '0'.toUInt8,
      hexDigit (b.toNat / 16), hexDigit (b.toNat % 16)]) ∨
    (b ≠ quote ∧ b ≠ backslash ∧ ¬ b < 32) ∧ escape b = [b] := by
  fun_cases escape b
  case case1 h => exact Or.inl ⟨quote, by decide, by rw [h]; decide, rfl⟩
  case case2 h => exact Or.inl ⟨backslash, by decide, by rw [h]; decide, rfl⟩
  case case3 h => exact Or.inl ⟨'b'.toUInt8, by decide, by rw [h]; decide, rfl⟩
  case case4 h => exact Or.inl ⟨'t'.toUInt8, by decide, by rw [h]; decide, rfl⟩
  case case5 h => exact Or.inl ⟨'n'.toUInt8, by decide, by rw [h]; decide, rfl⟩
  case case6 h => exact Or.inl ⟨'f'.toUInt8, by decide, by rw [h]; decide, rfl⟩
  case case7 h => exact Or.inl ⟨'r'.toUInt8, by decide, by rw [h]; decide, rfl⟩
  case case8 hcontrol => exact Or.inr (Or.inl ⟨hcontrol, rfl⟩)
  case case9 hquote hbackslash _ _ _ _ _ hcontrol =>
    exact Or.inr (Or.inr ⟨⟨hquote, hbackslash, hcontrol⟩, rfl⟩)

/-- A written byte is scanned as a piece that stands for it. -/
theorem scan_escape (b : UInt8) : ∃ p, (p = .byte b ∨ p = .unit b.toNat ∧ b < 32) ∧
    scan (escape b ++ rest) = (p :: (scan rest).1, (scan rest).2) := by
  rcases escape_cases b with
    ⟨e, hunit, hletter, h⟩ | ⟨hcontrol, h⟩ | ⟨⟨hquote, hbackslash, hcontrol⟩, h⟩
  · exact ⟨_, Or.inl rfl, h ▸ scan_letter rest hunit hletter⟩
  · exact ⟨_, Or.inr ⟨rfl, hcontrol⟩, h ▸ scan_unit rest (hexUnit?_control hcontrol)⟩
  · exact ⟨_, Or.inl rfl, h ▸ scan_plain rest hquote hbackslash hcontrol⟩

end Scan

theorem utf8_of_lt {b : UInt8} (h : b.toNat < 128) : utf8 b.toNat = [b] := by
  have hvalid : b.toNat.isValidChar := Or.inl (by omega)
  have hvalue : (Char.ofNat b.toNat).val.toNat = b.toNat := by
    rw [Char.ofNat, dif_pos hvalid]
    rfl
  unfold utf8 String.utf8EncodeChar
  simp only [hvalue]
  rw [if_pos (by omega), UInt8.ofNat_toNat]

theorem resolve_piece {ending : Except Fault (List UInt8)} {b : UInt8} {p : Piece}
    (hp : p = .byte b ∨ p = .unit b.toNat ∧ b < 32) (ps : List Piece) :
    resolve ending (p :: ps) = (resolve ending ps).map fun (bs, rest) => (b :: bs, rest) := by
  rcases hp with rfl | ⟨rfl, hcontrol⟩
  · rfl
  · have hb : b.toNat < 32 := UInt8.lt_iff_toNat_lt.mp hcontrol
    have htrailing : isTrailing b.toNat = false := by simp [isTrailing]; omega
    have hleading : isLeading b.toNat = false := by simp [isLeading]; omega
    have hutf8 : utf8 b.toNat = [b] := utf8_of_lt (by omega)
    rw [resolve.eq_def]
    simp only [htrailing, hleading, hutf8, Bool.false_eq_true, if_false]
    rfl

/-- What has been written is scanned up to its closing quote, as pieces that stand for it. -/
theorem scan_print (bs : List UInt8) (rest : List UInt8) :
    ∃ ps, scan (bs.flatMap escape ++ quote :: rest) = (ps, .ok rest) ∧
      resolve (.ok rest) ps = .ok (bs, rest) := by
  induction bs with
  | nil => exact ⟨[], by rw [List.flatMap_nil, List.nil_append, scan.eq_def]; simp, rfl⟩
  | cons b bs ih =>
      obtain ⟨ps, hscan, hresolve⟩ := ih
      obtain ⟨p, hp, hfirst⟩ := scan_escape (bs.flatMap escape ++ quote :: rest) b
      refine ⟨p :: ps, ?_, ?_⟩
      · rw [List.flatMap_cons, List.append_assoc, hfirst, hscan]
      · rw [resolve_piece hp, hresolve]
        rfl

/-- A string is read as it was written, after its opening quote. -/
theorem read_print (s : String) (rest : List UInt8) :
    read (s.toByteArray.data.toList.flatMap escape ++ quote :: rest) = .ok (s, rest) := by
  obtain ⟨ps, hscan, hresolve⟩ := scan_print s.toByteArray.data.toList rest
  have hbytes : s.toByteArray.data.toList.toByteArray = s.toByteArray := by
    rw [ByteArray.ext_iff, List.data_toByteArray, Array.toArray_toList]
  have hstring : String.fromUTF8? s.toByteArray = some s := dif_pos s.isValidUTF8
  unfold read
  simp only [hscan, hresolve, ok_bind, hbytes, hstring]
  rfl

end Quorum.Json.Quoted
