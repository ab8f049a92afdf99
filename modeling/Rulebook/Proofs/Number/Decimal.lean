/-
  Proofs/Number/Decimal.lean --- whole numbers that are written in decimal.

  The text of a whole number is read back as that number (`int?_toString`), and no number
  but zero begins with a zero.
-/
import Rulebook.Number.Decimal
import Rulebook.Value

set_option autoImplicit false

namespace Rulebook

/-! ## Runs of characters -/

/-- A text of a class ends in front of a text that begins with none of the class. -/
theorem takeWhile_append {p : Char → Bool} {text s : List Char} (htext : ∀ c ∈ text, p c = true)
    (hs : ∀ c ∈ s.head?, p c = false) : (text ++ s).takeWhile p = text := by
  rw [List.takeWhile_append_of_pos htext]
  cases s with
  | nil => simp
  | cons c r => simp [hs c rfl]

theorem dropWhile_append {p : Char → Bool} {text s : List Char} (htext : ∀ c ∈ text, p c = true)
    (hs : ∀ c ∈ s.head?, p c = false) : (text ++ s).dropWhile p = s := by
  rw [List.dropWhile_append_of_pos htext]
  cases s with
  | nil => simp
  | cons c r => simp [hs c rfl]

namespace Decimal

theorem digitsValue_toDigits (n : Nat) : digitsValue (Nat.toDigits 10 n) = n :=
  Nat.ofDigitChars_ten_toDigits

theorem isDigit_of_mem_toDigits {n : Nat} {c : Char} (h : c ∈ Nat.toDigits 10 n) :
    c.isDigit = true :=
  Nat.isDigit_of_mem_toDigits (by decide) (by decide) h

theorem digitChar_ne_zero {n : Nat} (hpos : 0 < n) (hlt : n < 10) : n.digitChar ≠ '0' := by
  intro hzero
  have hdigit : n.digitChar.toNat - '0'.toNat = n := Nat.toNat_digitChar_sub_48_of_lt_ten hlt
  rw [hzero] at hdigit
  omega

/-- The first digit of a number is zero only if the number is. -/
theorem toDigits_head {n : Nat} (hpos : 0 < n) :
    ∃ c r, Nat.toDigits 10 n = c :: r ∧ c ≠ '0' := by
  induction n using Nat.strongRecOn with
  | _ n ih =>
      rw [Nat.toDigits_eq_if (by decide)]
      by_cases hlt : n < 10
      · rw [if_pos hlt]
        exact ⟨_, [], rfl, digitChar_ne_zero hpos hlt⟩
      · obtain ⟨c, r, hdigits, hzero⟩ := ih (n / 10) (by omega) (by omega)
        rw [if_neg hlt, hdigits]
        exact ⟨c, _, rfl, hzero⟩

/-! ## Texts of numbers -/

theorem toList_toString_nat (n : Nat) : (toString n).toList = Nat.toDigits 10 n := by
  rw [Nat.toString_eq_ofList_toDigits, String.toList_ofList]

theorem toList_toString_ofNat (n : Nat) :
    (toString (Int.ofNat n)).toList = Nat.toDigits 10 n :=
  toList_toString_nat n

theorem toList_toString_negSucc (n : Nat) :
    (toString (Int.negSucc n)).toList = '-' :: Nat.toDigits 10 (n + 1) := by
  show ("-" ++ toString (n + 1)).toList = _
  rw [String.toList_append, toList_toString_nat]
  rfl

/-- Digits are a number without a sign. -/
theorem int?_of_digits {cs : List Char} (hne : cs ≠ []) (hdigits : ∀ c ∈ cs, c.isDigit = true) :
    int? cs = some (digitsValue cs : Int) := by
  have hsign : splitSign cs = (false, cs) := by
    unfold splitSign
    split
    · cases hdigits '-' (by simp)
    · cases hdigits '+' (by simp)
    · rfl
  unfold int?
  rw [hsign]
  simp [hne, List.all_eq_true.mpr hdigits]

theorem int?_of_minus {cs : List Char} (hne : cs ≠ [])
    (hdigits : ∀ c ∈ cs, c.isDigit = true) :
    int? ('-' :: cs) = some (-(digitsValue cs : Int)) := by
  unfold int? splitSign
  simp [hne, List.all_eq_true.mpr hdigits]

/-- The text of a whole number is read back. -/
theorem int?_toString (n : Int) : int? (toString n).toList = some n := by
  cases n with
  | ofNat n =>
      rw [toList_toString_ofNat,
        int?_of_digits Nat.toDigits_ne_nil fun c => isDigit_of_mem_toDigits,
        digitsValue_toDigits]
      rfl
  | negSucc n =>
      rw [toList_toString_negSucc,
        int?_of_minus Nat.toDigits_ne_nil fun c => isDigit_of_mem_toDigits,
        digitsValue_toDigits]
      rfl

end Decimal

/-- A number of 64 bits fits into 64 bits. -/
theorem Value.int64?_toInt (n : Int64) : int64? n.toInt = some n := by
  have hle : n.toInt ≤ Int64.maxValue.toInt := n.toInt_le
  have hge : Int64.minValue.toInt ≤ n.toInt := n.le_toInt
  unfold int64?
  rw [decide_eq_true hle, decide_eq_true hge, Int64.ofInt_toInt]
  rfl

end Rulebook
