/-
  Proofs/Binding/Exactness.lean --- whole numbers are bound as they are.

  A JSON number stands for itself, and a text for the numeral between its blanks
  (`Json.Denotes`).  Numbers, and texts that are plainly whole numbers of 64 bits, are bound
  exactly.  Every other numeral is rounded to a double first (`Json.RoundedTo`), and the field
  takes the double if that is a whole number of 64 bits (`Coercion.int?_of_roundedTo`).  So a
  numeral can be bound to a number that it does not write (`Json.Misread`), and nothing else
  can (`Binding.int_fields_exact`).
-/
import Rulebook.Proofs.Binding.Diagnostics
import Rulebook.Proofs.Binding.Rebinding
import Rulebook.Proofs.Number.Numeral
import Rulebook.Proofs.Number.Whole

set_option autoImplicit false

namespace Rulebook

/-! ## The number of a JSON value -/

namespace Json

/-- The number that a JSON value stands for: a number for itself, and a text for the numeral
between its blanks. -/
inductive Denotes : Json → ℚ → Prop
  | int (n : Int) : Denotes (.number (.int n)) n
  | float {x : Binary64} : x.isFinite = true → Denotes (.number (.float x)) x.value
  | text {s : String} {q : ℚ} : Decimal.Writes (Text.trimChars s.toList) q → Denotes (.string s) q

theorem Denotes.unique {raw : Json} {p q : ℚ} (hp : raw.Denotes p) (hq : raw.Denotes q) : p = q := by
  cases hp with
  | int n => cases hq; rfl
  | float _ => cases hq; rfl
  | text hp =>
      cases hq with
      | text hq => exact Numeral.value_eq_of_writes hp hq

/-- A text whose number is rounded before it is taken for a whole number: it is a numeral, but
not plainly a whole number of 64 bits, and the double is the nearest one. -/
inductive RoundedTo : Json → ℚ → Binary64 → Prop
  | text {s : String} {q : ℚ} {x : Binary64} : Decimal.Writes (Text.trimChars s.toList) q →
      (∀ n : Int64, ¬ Decimal.WritesInt (Text.trimChars s.toList) n.toInt) →
      Binary64.Rounds q x → RoundedTo (.string s) q x

/-- A text writes another number than the whole number that it is rounded to. -/
def Misread (raw : Json) (n : Int64) : Prop :=
  ∃ q x, raw.RoundedTo q x ∧ x.value = n.toInt ∧ q ≠ n.toInt

theorem RoundedTo.denotes {raw : Json} {q : ℚ} {x : Binary64} (h : raw.RoundedTo q x) :
    raw.Denotes q := by
  obtain ⟨hwrites, -, -⟩ := h
  exact .text hwrites

theorem Misread.not_denotes {raw : Json} {n : Int64} (h : raw.Misread n) : ¬ raw.Denotes n.toInt := by
  obtain ⟨q, x, hrounded, -, hne⟩ := h
  exact fun hdenotes => hne (hrounded.denotes.unique hdenotes)

end Json

/-! ## Reading a whole number -/

namespace Coercion

variable {raw : Json} {n : Int64}

/-- From `2 ^ 63` on no whole number is rounded to one of 64 bits. -/
theorem integral?_ofInt_of_le {m : Int} (h : 2 ^ 63 ≤ m) : integral? (.ofInt m) = none := by
  refine Option.eq_none_iff_forall_ne_some.mpr fun n hn => ?_
  have hend : (Binary64.ofInt (2 ^ 63)).value = ((2 ^ 63 : Int) : ℚ) :=
    (Binary64.toInt?_eq_some_iff.mp (by decide +kernel)).2
  have hle := (Binary64.rounds_ofInt (2 ^ 63)).value_mono (Binary64.rounds_ofInt m)
    (Int.cast_le.mpr h)
  rw [hend, integral?_eq_some_iff.mp hn, Int.cast_le] at hle
  exact absurd n.toInt_lt (not_lt.mpr hle)

theorem int?_number {k : JsonNumber} (hk : k.Representable) :
    int? (.number k) = some n ↔ (Json.number k).Denotes n.toInt := by
  cases k with
  | int m =>
      have hdenotes : (Json.number (.int m)).Denotes n.toInt ↔ m = n.toInt := by
        refine ⟨fun h => ?_, fun h => h ▸ .int m⟩
        exact_mod_cast (Json.Denotes.int m).unique h
      rw [hdenotes, ← Value.int64?_eq_some_iff, int?]
      cases hfits : Value.int64? m with
      | some i => rfl
      | none =>
          have hfar : 2 ^ 63 ≤ m := by
            by_contra hlt
            have hin := Value.int64?_eq_some_iff.mpr
              (Int64.toInt_ofInt_of_le (n := m) hk.1 (not_le.mp hlt)).symm
            cases hfits.symm.trans hin
          simp [integral?_ofInt_of_le hfar]
  | float x =>
      have hdenotes : (Json.number (.float x)).Denotes n.toInt ↔ x.value = n.toInt :=
        ⟨fun h => (Json.Denotes.float hk).unique h, fun h => h ▸ .float hk⟩
      rw [hdenotes, ← integral?_eq_some_iff, int?]

theorem int?_of_plain {s : String} (h : Decimal.WritesInt (Text.trimChars s.toList) n.toInt) :
    int? (.string s) = some n := by
  rw [int?, Decimal.int?_eq_some_iff.mpr h, Option.bind_some, Value.int64?_toInt]
  rfl

/-- What is not plainly a whole number of 64 bits is read through a double. -/
theorem int?_of_not_plain {s : String}
    (h : ∀ k : Int64, ¬ Decimal.WritesInt (Text.trimChars s.toList) k.toInt) :
    int? (.string s) = (binary64OfChars? (Text.trimChars s.toList)).bind integral? := by
  have hnone : (Decimal.int? (Text.trimChars s.toList)).bind Value.int64? = none := by
    refine Option.eq_none_iff_forall_ne_some.mpr fun k hk => ?_
    obtain ⟨m, hm, hfits⟩ := Option.bind_eq_some_iff.mp hk
    obtain rfl := Value.int64?_eq_some_iff.mp hfits
    exact h k (Decimal.int?_eq_some_iff.mp hm)
  rw [int?, hnone]
  rfl

theorem int?_of_roundedTo {q : ℚ} {x : Binary64} (h : raw.RoundedTo q x) :
    int? raw = some n ↔ x.value = n.toInt := by
  obtain ⟨hwrites, hplain, hrounds⟩ := h
  obtain ⟨num, hnum, rfl⟩ := Numeral.ofChars?_complete hwrites
  rw [int?_of_not_plain hplain, binary64OfChars?, hnum, Option.map_some, Option.bind_some,
    integral?_eq_some_iff, num.rounds_toBinary64.value_unique hrounds]

/-- Only a numeral that is misread gives a number that it does not write. -/
theorem denotes_or_misread (hraw : raw.Representable) (h : int? raw = some n) :
    raw.Denotes n.toInt ∨ raw.Misread n := by
  cases raw with
  | number k => exact .inl ((int?_number (hraw [] k (.here _))).mp h)
  | string s =>
      by_cases hplain : ∃ k : Int64, Decimal.WritesInt (Text.trimChars s.toList) k.toInt
      · obtain ⟨k, hk⟩ := hplain
        obtain rfl := Option.some.inj ((int?_of_plain hk).symm.trans h)
        exact .inl (.text hk.writes)
      · have hplain := not_exists.mp hplain
        rw [int?_of_not_plain hplain] at h
        obtain ⟨x, hx, hn⟩ := Option.bind_eq_some_iff.mp h
        obtain ⟨num, hnum, rfl⟩ := Option.map_eq_some_iff.mp hx
        have hwrites := Numeral.ofChars?_sound hnum
        by_cases hexact : num.value = n.toInt
        · exact .inl (.text (hexact ▸ hwrites))
        · exact .inr ⟨_, _, .text hwrites hplain num.rounds_toBinary64,
            integral?_eq_some_iff.mp hn, hexact⟩
  | null | bool _ | array _ | object _ => cases h

theorem int?_of_misread (h : raw.Misread n) : int? raw = some n := by
  obtain ⟨q, x, hrounded, hvalue, -⟩ := h
  exact (int?_of_roundedTo hrounded).mpr hvalue

/-- A whole number of 64 bits is read, if no rounding comes between. -/
theorem int?_of_denotes (hraw : raw.Representable) (h : raw.Denotes n.toInt)
    (hexact : ∀ q x, raw.RoundedTo q x → x.value = q) : int? raw = some n := by
  cases raw with
  | number k => exact (int?_number (hraw [] k (.here _))).mpr h
  | string s =>
      have hwrites : Decimal.Writes (Text.trimChars s.toList) n.toInt := by
        cases h with
        | text hwrites => exact hwrites
      by_cases hplain : ∃ k : Int64, Decimal.WritesInt (Text.trimChars s.toList) k.toInt
      · obtain ⟨k, hk⟩ := hplain
        have hvalue := Numeral.value_eq_of_writes hk.writes hwrites
        rw [int?_of_plain hk, Int64.toInt_inj.mp (Int.cast_inj.mp hvalue)]
      · obtain ⟨num, hnum, hvalue⟩ := Numeral.ofChars?_complete hwrites
        have hrounded := Json.RoundedTo.text hwrites (not_exists.mp hplain)
          (hvalue ▸ num.rounds_toBinary64)
        exact (int?_of_roundedTo hrounded).mpr (hexact _ _ hrounded)
  | null | bool _ | array _ | object _ => cases h

/-- A whole number of at most fifty-three bits is not changed by rounding, however it is
written. -/
theorem value_eq_of_small (h : raw.Denotes n.toInt) (hn : n.toInt.natAbs ≤ 2 ^ 53) {q : ℚ}
    {x : Binary64} (hrounded : raw.RoundedTo q x) : x.value = q := by
  obtain rfl := hrounded.denotes.unique h
  obtain ⟨-, -, hrounds⟩ := hrounded
  exact (hrounds.value_unique (Binary64.rounds_ofInt _)).trans (Binary64.value_ofInt hn)

/-- What is reported of a value that is not taken for a whole number. -/
def intProblem (raw : Json) : BindProblem :=
  if raw.kind = "null" then .nullValue else .cannotConvert raw.kind .int

theorem scalar_int (raw : Json) : scalar .int raw =
    match int? raw with
    | some n => .ok (.int n)
    | none => .error (intProblem raw) := by
  cases raw with
  | null => rfl
  | bool _ | number _ | string _ | array _ | object _ =>
      simp only [scalar, intProblem, Json.kind, String.reduceEq, if_false]
      cases int? _ <;> rfl

end Coercion

/-! ## Fields of whole numbers -/

namespace Binding

variable {groups : List ShapeGroup} {params : Json.Members}

theorem representable_of_reaches {fields : List Field} {site : Site} {raw : Json}
    (h : Reaches groups fields params site) (hparams : (Json.object params).Representable)
    (hraw : site.raw = some raw) : raw.Representable := by
  induction h with
  | field _ => exact hparams.member hraw
  | nested _ hnested _ ih =>
      obtain ⟨-, hobject, -⟩ := nested?_eq_some hnested
      exact ih (hparams.member hobject) hraw

theorem read_int (groups : List ShapeGroup) (raw : Json) :
    read groups .int raw = (Coercion.scalar .int raw).map .scalar :=
  (read_of_scalar groups fun _ _ htype => FieldType.noConfusion htype).2

theorem value?_int_of_some {raw : Json} {n : Int64} (h : Coercion.int? raw = some n) :
    value? groups .int (some raw) = some (.scalar (.int n)) :=
  value?_of_read (by rw [read_int, Coercion.scalar_int, h]; rfl)

theorem refused_int_of_none (groups : List ShapeGroup) {raw : Json} (h : Coercion.int? raw = none) :
    value? groups .int (some raw) = some (.scalar (.int 0)) ∧
      problem? groups .int (some raw) = some (Coercion.intProblem raw) := by
  have hread : read groups .int raw = .error (Coercion.intProblem raw) := by
    rw [read_int, Coercion.scalar_int, h]
    rfl
  constructor
  · rw [value?, Option.map_some, hread]
    rfl
  · rw [problem?, Option.map_some, hread]

/-- What is refused of a field is in the report. -/
theorem mem_diagnostics {s : Shape} {site : Site} (h : Reaches groups s.fields params site)
    {problem : BindProblem} (hproblem : problem? groups site.type site.raw = some problem) :
    ⟨(Path.ofString s.name).descend site.names, problem⟩ ∈ (instantiate groups s params).2 := by
  have hreport : (instantiate groups s params).2 =
      (sites groups params s.fields).filterMap (Site.diagnostic? groups (Path.ofString s.name)) :=
    settings_snd groups _ params s.fields
  rw [hreport]
  refine List.mem_filterMap.mpr ⟨site, (mem_sites_iff groups params s.fields).mpr h, ?_⟩
  rw [Site.diagnostic?, hproblem, Option.map_some]

/-- **Whole numbers are bound as they are, unless a numeral is misread.**  No shape declares a
name twice, and the numbers among the parameters are those that JSON values have.  At every
field of whole numbers that binding comes to, what coercion yields is the value of the field,
and it is the number that the parameter stands for, or the one that a numeral is misread as;
misread numerals are always taken, for a number that they do not write.  A number of 64 bits
is taken, if no rounding changes it.  A parameter that stands for no number of 64 bits and is
not misread leaves the default and is reported. -/
theorem int_fields_exact
    (hgroups : ∀ g ∈ groups, ∀ s ∈ g.shapes, (s.fields.map (·.name)).Nodup) {s : Shape}
    (hs : (s.fields.map (·.name)).Nodup) (hparams : (Json.object params).Representable)
    {names : List String} {raw : Json}
    (h : Reaches groups s.fields params ⟨names, .int, some raw⟩) :
    let bound := instantiate groups s params
    (∀ n, Coercion.int? raw = some n →
      bound.1.fieldAt? names = some (.scalar (.int n)) ∧ (raw.Denotes n.toInt ∨ raw.Misread n)) ∧
    (∀ n, raw.Misread n → Coercion.int? raw = some n ∧ ¬ raw.Denotes n.toInt) ∧
    (∀ n, raw.Denotes n.toInt → (∀ q x, raw.RoundedTo q x → x.value = q) →
      Coercion.int? raw = some n) ∧
    ((∀ n : Int64, ¬ raw.Denotes n.toInt ∧ ¬ raw.Misread n) →
      bound.1.fieldAt? names = some (.scalar (.int 0)) ∧
        ⟨(Path.ofString s.name).descend names, Coercion.intProblem raw⟩ ∈ bound.2) := by
  intro bound
  have hraw := representable_of_reaches h hparams rfl
  have hvalue : bound.1.fieldAt? names = value? groups .int (some raw) :=
    fieldAt?_of_reaches hgroups hs h s.name (Path.ofString s.name)
  refine ⟨fun n hn => ⟨?_, Coercion.denotes_or_misread hraw hn⟩,
    fun n hn => ⟨Coercion.int?_of_misread hn, hn.not_denotes⟩,
    fun n hn => Coercion.int?_of_denotes hraw hn, fun hno => ?_⟩
  · rw [hvalue, value?_int_of_some hn]
  · have hnone : Coercion.int? raw = none := Option.eq_none_iff_forall_ne_some.mpr fun n hn =>
      (Coercion.denotes_or_misread hraw hn).elim (hno n).1 (hno n).2
    obtain ⟨hdefault, hproblem⟩ := refused_int_of_none groups hnone
    exact ⟨hvalue.trans hdefault, mem_diagnostics h hproblem⟩

/-- A parent whose age is written with an exponent. -/
def scientific : Json.Members := [("parent", .object [("age", .string " 9.007199254740992e15 ")])]

theorem representable_scientific : (Json.object scientific).Representable := by
  intro keys n hfound
  cases hfound with
  | member hmem hfound =>
      obtain ⟨rfl, rfl⟩ := Prod.mk.inj (List.mem_singleton.mp hmem)
      cases hfound with
      | member hmem hfound =>
          obtain ⟨rfl, rfl⟩ := Prod.mk.inj (List.mem_singleton.mp hmem)
          cases hfound

theorem int_fields_exact_scientific :
    (∀ g ∈ [ShapeGroup.mk "family" true [person]], ∀ s ∈ g.shapes, (s.fields.map (·.name)).Nodup) ∧
      (person.fields.map (·.name)).Nodup ∧ (Json.object scientific).Representable ∧
      Reaches [⟨"family", true, [person]⟩] person.fields scientific
        ⟨["parent", "age"], .int, some (.string " 9.007199254740992e15 ")⟩ ∧
      (instantiate [⟨"family", true, [person]⟩] person scientific).1.fieldAt? ["parent", "age"] =
        some (.scalar (.int 9007199254740992)) := by
  have hreaches : Reaches [⟨"family", true, [person]⟩] person.fields scientific
      ⟨["parent", "age"], .int, some (.string " 9.007199254740992e15 ")⟩ := by
    have hinner : Reaches [⟨"family", true, [person]⟩] person.fields
        [("age", .string " 9.007199254740992e15 ")]
        ⟨["age"], .int, some (.string " 9.007199254740992e15 ")⟩ :=
      .field (f := ⟨"age", .int⟩) (by decide)
    exact .nested (f := ⟨"parent", .shape "person"⟩) (by decide) rfl hinner
  have hread : Numeral.ofChars? (Text.trimChars " 9.007199254740992e15 ".toList) =
      some ⟨false, 9007199254740992, 0⟩ := by decide
  have hdenotes : (Json.string " 9.007199254740992e15 ").Denotes
      ((9007199254740992 : Int64).toInt : ℚ) := by
    have hvalue : Numeral.value ⟨false, 9007199254740992, 0⟩ =
        ((9007199254740992 : Int64).toInt : ℚ) := by
      have hn : (9007199254740992 : Int64).toInt = 9007199254740992 := by decide
      norm_num [Numeral.value, Binary64.signFactor, hn]
    exact hvalue ▸ .text (Numeral.ofChars?_sound hread)
  obtain ⟨htaken, -, hexact, -⟩ := int_fields_exact names_family_nodup names_person_nodup
    representable_scientific hreaches
  have hyields := hexact 9007199254740992 hdenotes fun _ _ =>
    Coercion.value_eq_of_small hdenotes (by decide)
  exact ⟨names_family_nodup, names_person_nodup, representable_scientific, hreaches,
    (htaken _ hyields).1⟩

/-- A number below all numbers of 64 bits is bound to the least of them, and not reported. -/
theorem least_number_overrun :
    (Json.string "-9223372036854775809").Denotes (-9223372036854775809) ∧
      Coercion.int? (.string "-9223372036854775809") = some Int64.minValue ∧
      instantiate [⟨"family", true, [person]⟩] person [("age", .string "-9223372036854775809")] =
        (⟨"person", [("age", .scalar (.int Int64.minValue)), ("name", .scalar (.string ""))]⟩,
          []) := by
  have hwrites : Decimal.int? (Text.trimChars "-9223372036854775809".toList) =
      some (-9223372036854775809) := by decide +kernel
  have hvalue : ((-9223372036854775809 : Int) : ℚ) = -9223372036854775809 := by norm_num
  have hyields : Coercion.int? (.string "-9223372036854775809") = some Int64.minValue := by
    decide +kernel
  have hscalar : Coercion.scalar .int (.string "-9223372036854775809") =
      .ok (.int Int64.minValue) := by
    rw [Coercion.scalar_int, hyields]
  have hfields : Instance.fieldsOf
      [("name", .scalar (.string "")), ("age", .scalar (.int Int64.minValue))] =
        [("age", .scalar (.int Int64.minValue)), ("name", .scalar (.string ""))] := by
    simp only [Instance.fieldsOf, Instance.setField, List.foldl_cons, List.foldl_nil,
      String.reduceEq, String.reduceLT, if_true, if_false]
  refine ⟨hvalue ▸ .text (Decimal.int?_eq_some_iff.mp hwrites).writes, hyields, ?_⟩
  simp [instantiate, person, settings, Table.get?, Coercion.default?, hscalar, hfields]

end Binding

end Rulebook
