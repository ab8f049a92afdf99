/-
  Proofs/Number/Numeral.lean --- the texts that write numbers in decimal.

  A numeral is a sign, digits, a point with digits and an exponent, where all but one digit
  may be left out (`Decimal.Writes`).  What it writes is a number, given by the digits before
  the point, those behind it and the power of ten.  The relation does not mention a reader.
  `Numeral.ofChars?` takes exactly these texts and keeps the number (`ofChars?_sound`,
  `ofChars?_complete`), and `Decimal.int?` takes those that are a sign and digits only
  (`int?_eq_some_iff`).
-/
import Mathlib.Data.List.TakeWhile
import Mathlib.Tactic.FieldSimp
import Rulebook.Proofs.Number.Decimal
import Rulebook.Proofs.Number.Nearest

set_option autoImplicit false

namespace Rulebook

namespace Decimal

/-! ## The grammar -/

/-- A sign that may be left out, and whether it is a minus. -/
inductive WritesSign : List Char → Bool → Prop
  | absent : WritesSign [] false
  | plus : WritesSign ['+'] false
  | minus : WritesSign ['-'] true

/-- A whole number: digits behind a sign. -/
inductive WritesInt : List Char → Int → Prop
  | intro {sign digits : List Char} {negative : Bool} : WritesSign sign negative → digits ≠ [] →
      (∀ c ∈ digits, c.isDigit = true) →
      WritesInt (sign ++ digits)
        (if negative then -(digitsValue digits : Int) else digitsValue digits)

/-- A point, and the digits behind it. -/
inductive WritesFraction : List Char → List Char → Prop
  | absent : WritesFraction [] []
  | point {digits : List Char} : (∀ c ∈ digits, c.isDigit = true) →
      WritesFraction ('.' :: digits) digits

/-- A power of ten by its exponent. -/
inductive WritesExponent : List Char → Int → Prop
  | absent : WritesExponent [] 0
  | scaled {mark : Char} {cs : List Char} {e : Int} : mark = 'e' ∨ mark = 'E' → WritesInt cs e →
      WritesExponent (mark :: cs) e

/-- A number in decimal, with a digit before or behind the point. -/
inductive Writes : List Char → ℚ → Prop
  | intro {sign whole fraction digits scale : List Char} {negative : Bool} {e : Int} :
      WritesSign sign negative → (∀ c ∈ whole, c.isDigit = true) → WritesFraction fraction digits →
      ¬ (whole = [] ∧ digits = []) → WritesExponent scale e →
      Writes (sign ++ (whole ++ (fraction ++ scale))) (Binary64.signFactor negative *
        ((digitsValue whole + digitsValue digits / 10 ^ digits.length) * 10 ^ e))

/-! ## Signs and whole numbers -/

/-- A sign is taken off if none follows it. -/
theorem splitSign_append {sign rest : List Char} {negative : Bool} (h : WritesSign sign negative)
    (hrest : ∀ c ∈ rest.head?, c ≠ '-' ∧ c ≠ '+') : splitSign (sign ++ rest) = (negative, rest) := by
  cases h with
  | absent =>
      show splitSign rest = (false, rest)
      unfold splitSign
      split
      · exact absurd rfl (hrest '-' rfl).1
      · exact absurd rfl (hrest '+' rfl).2
      · rfl
  | plus => rfl
  | minus => rfl

theorem exists_splitSign (cs : List Char) :
    ∃ sign, WritesSign sign (splitSign cs).1 ∧ cs = sign ++ (splitSign cs).2 := by
  unfold splitSign
  split
  · exact ⟨_, .minus, rfl⟩
  · exact ⟨_, .plus, rfl⟩
  · exact ⟨_, .absent, rfl⟩

theorem not_sign_of_isDigit {c : Char} (h : c.isDigit = true) : c ≠ '-' ∧ c ≠ '+' := by
  constructor <;> rintro rfl <;> cases h

/-- Digits behind a sign are read, and nothing else. -/
theorem int?_eq_some_iff {cs : List Char} {n : Int} : int? cs = some n ↔ WritesInt cs n := by
  constructor
  · intro h
    obtain ⟨sign, hsign, hcs⟩ := exists_splitSign cs
    unfold int? at h
    generalize splitSign cs = parts at h hsign hcs
    obtain ⟨negative, digits⟩ := parts
    subst hcs
    dsimp only at h
    split at h
    · cases h
    · rename_i hdigits
      simp only [Bool.or_eq_true, List.isEmpty_iff, Bool.not_eq_true', not_or, Bool.not_eq_false,
        List.all_eq_true] at hdigits
      obtain rfl := Option.some.inj h
      exact .intro hsign hdigits.1 hdigits.2
  · rintro (@⟨sign, digits, negative, hsign, hne, hdigits⟩)
    have hsplit : splitSign (sign ++ digits) = (negative, digits) :=
      splitSign_append hsign fun c hc => not_sign_of_isDigit (hdigits c (List.mem_of_mem_head? hc))
    unfold int?
    rw [hsplit]
    simp [hne, List.all_eq_true.mpr hdigits]

theorem exponentPart?_eq_some_iff {cs : List Char} {e : Int} :
    Numeral.exponentPart? cs = some e ↔ WritesExponent cs e := by
  constructor
  · intro h
    unfold Numeral.exponentPart? at h
    split at h
    · obtain rfl := Option.some.inj h
      exact .absent
    · split at h
      · rename_i hmark
        refine .scaled ?_ (int?_eq_some_iff.mp h)
        simpa using hmark
      · cases h
  · rintro (_ | ⟨hmark, hint⟩)
    · rfl
    · rw [Numeral.exponentPart?, if_pos (by simpa using hmark)]
      exact int?_eq_some_iff.mpr hint

/-! ## Numerals -/

theorem digitsValue_append (cs ds : List Char) :
    digitsValue (cs ++ ds) = 10 ^ ds.length * digitsValue cs + digitsValue ds :=
  (Nat.ofDigitChars_append 0).trans Nat.ofDigitChars_eq_ofDigitChars_zero

/-- The point can be left out if the exponent makes up for the digits behind it. -/
theorem value_joined (negative : Bool) (whole digits : List Char) (e : Int) :
    Numeral.value ⟨negative, digitsValue (whole ++ digits), e - digits.length⟩ =
      Binary64.signFactor negative *
        ((digitsValue whole + digitsValue digits / 10 ^ digits.length) * 10 ^ e) := by
  have hten : (10 : ℚ) ^ digits.length ≠ 0 := by positivity
  rw [Numeral.value, digitsValue_append, zpow_sub₀ (by norm_num), zpow_natCast]
  push_cast
  field_simp

/-- The characters at which the digits before them end. -/
def marks : List Char := ['.', 'e', 'E']

theorem not_isDigit_of_mem_marks : ∀ c ∈ marks, c.isDigit = false := by simp [marks]

theorem not_sign_of_mem_marks : ∀ c ∈ marks, c ≠ '-' ∧ c ≠ '+' := by simp [marks]

theorem WritesExponent.head {scale : List Char} {e : Int} (h : WritesExponent scale e) :
    ∀ c ∈ scale.head?, c ∈ marks := by
  rintro c hc
  cases h with
  | absent => cases hc
  | scaled hmark _ =>
      obtain rfl := Option.some.inj hc
      rcases hmark with rfl | rfl <;> decide

theorem WritesFraction.head {fraction digits scale : List Char} {e : Int}
    (h : WritesFraction fraction digits) (hscale : WritesExponent scale e) :
    ∀ c ∈ (fraction ++ scale).head?, c ∈ marks := by
  cases h with
  | absent => exact hscale.head
  | point _ =>
      rintro c hc
      obtain rfl := Option.some.inj hc
      decide

/-- The digits behind a point, and what follows them. -/
def splitFraction : List Char → List Char × List Char
  | '.' :: r => (r.takeWhile Char.isDigit, r.dropWhile Char.isDigit)
  | r => ([], r)

theorem splitFraction_append {fraction digits scale : List Char} {e : Int}
    (h : WritesFraction fraction digits) (hscale : WritesExponent scale e) :
    splitFraction (fraction ++ scale) = (digits, scale) := by
  cases h with
  | absent =>
      cases hscale with
      | absent => rfl
      | scaled hmark _ => rcases hmark with rfl | rfl <;> rfl
  | point hdigits =>
      have hends : ∀ c ∈ scale.head?, c.isDigit = false := fun c hc =>
        not_isDigit_of_mem_marks c (hscale.head c hc)
      exact Prod.ext (takeWhile_append hdigits hends) (dropWhile_append hdigits hends)

theorem exists_splitFraction (cs : List Char) :
    ∃ fraction, WritesFraction fraction (splitFraction cs).1 ∧
      cs = fraction ++ (splitFraction cs).2 := by
  unfold splitFraction
  split
  · rename_i r
    refine ⟨_, .point fun c => List.mem_takeWhile_imp, ?_⟩
    rw [List.cons_append, List.takeWhile_append_dropWhile]
  · exact ⟨_, .absent, rfl⟩

end Decimal

namespace Numeral

open Decimal

theorem ofChars?_eq (cs : List Char) : ofChars? cs =
    let unsigned := (splitSign cs).2
    let whole := unsigned.takeWhile Char.isDigit
    let behind := splitFraction (unsigned.dropWhile Char.isDigit)
    if whole.isEmpty && behind.1.isEmpty then none
    else (exponentPart? behind.2).map fun e =>
      ⟨(splitSign cs).1, digitsValue (whole ++ behind.1), e - behind.1.length⟩ :=
  rfl

/-- Only texts that write a number are read, and as that number. -/
theorem ofChars?_sound {cs : List Char} {n : Numeral} (h : ofChars? cs = some n) :
    Writes cs n.value := by
  obtain ⟨sign, hsign, hcs⟩ := exists_splitSign cs
  rw [ofChars?_eq] at h
  generalize splitSign cs = parts at h hsign hcs
  obtain ⟨negative, unsigned⟩ := parts
  obtain ⟨fraction, hfraction, hbehind⟩ := exists_splitFraction (unsigned.dropWhile Char.isDigit)
  have hunsigned := List.takeWhile_append_dropWhile (p := Char.isDigit) (l := unsigned)
  dsimp only at h hsign hcs
  generalize splitFraction (unsigned.dropWhile Char.isDigit) = behind at h hfraction hbehind
  split at h
  · cases h
  · rename_i hne
    obtain ⟨e, he, rfl⟩ := Option.map_eq_some_iff.mp h
    have hwrites := Writes.intro hsign (fun c => List.mem_takeWhile_imp) hfraction
      (by simpa using hne) (exponentPart?_eq_some_iff.mp he)
    rwa [← hbehind, hunsigned, ← hcs, ← value_joined] at hwrites

/-- Every text that writes a number is read as that number. -/
theorem ofChars?_complete {cs : List Char} {q : ℚ} (h : Writes cs q) :
    ∃ n, ofChars? cs = some n ∧ n.value = q := by
  obtain @⟨sign, whole, fraction, digits, scale, negative, e, hsign, hwhole, hfraction, hne,
    hscale⟩ := h
  have hafter : ∀ c ∈ (fraction ++ scale).head?, c.isDigit = false := fun c hc =>
    not_isDigit_of_mem_marks c (hfraction.head hscale c hc)
  have hrest : ∀ c ∈ (whole ++ (fraction ++ scale)).head?, c ≠ '-' ∧ c ≠ '+' := by
    cases whole with
    | nil => exact fun c hc => not_sign_of_mem_marks c (hfraction.head hscale c hc)
    | cons first _ =>
        rintro c hc
        obtain rfl := Option.some.inj hc
        exact not_sign_of_isDigit (hwhole _ List.mem_cons_self)
  refine ⟨_, ?_, value_joined negative whole digits e⟩
  rw [ofChars?_eq, splitSign_append hsign hrest]
  dsimp only
  rw [takeWhile_append hwhole hafter, dropWhile_append hwhole hafter,
    splitFraction_append hfraction hscale, exponentPart?_eq_some_iff.mpr hscale]
  simp [hne]

/-- A text writes one number at most. -/
theorem value_eq_of_writes {cs : List Char} {p q : ℚ} (hp : Writes cs p) (hq : Writes cs q) :
    p = q := by
  obtain ⟨m, hm, rfl⟩ := ofChars?_complete hp
  obtain ⟨n, hn, rfl⟩ := ofChars?_complete hq
  rw [Option.some.inj (hm.symm.trans hn)]

end Numeral

namespace Decimal

/-- A whole number is a numeral without a point and an exponent. -/
theorem WritesInt.writes {cs : List Char} {n : Int} (h : WritesInt cs n) : Writes cs n := by
  obtain @⟨sign, digits, negative, hsign, hne, hdigits⟩ := h
  have hwrites := Writes.intro hsign hdigits .absent (fun hempty => hne hempty.1) .absent
  rw [List.append_nil, List.append_nil] at hwrites
  convert hwrites using 1
  cases negative <;> simp [Binary64.signFactor, digitsValue]

end Decimal

end Rulebook
