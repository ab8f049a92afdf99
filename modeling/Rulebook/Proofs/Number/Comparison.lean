/-
  Proofs/Number/Comparison.lean --- the order of whole numbers and doubles together.

  Two whole numbers compare as they are.  As soon as a double takes part, both sides compare
  as doubles, a whole number as the nearest one (`ints_or_stands_iff`).  Rounding is monotone
  and thus never reverses an order, but it can bring two whole numbers to one double
  (`Merged`), and a law of the order breaks where one of its comparisons sees the two
  numbers and another sees that double, and only there (`comparison_coherent`).
-/
import Rulebook.Proofs.Number.Whole

set_option autoImplicit false

namespace Rulebook

/-! ## Relations -/

namespace Comparator

variable {α : Type} [LinearOrder α]

/-- What a comparison asks of two members of a linear order. -/
def Relates : Comparator → α → α → Prop
  | .equal, a, b => a = b
  | .different, a, b => a ≠ b
  | .greater, a, b => b < a
  | .greaterOrEqual, a, b => b ≤ a
  | .less, a, b => a < b
  | .lessOrEqual, a, b => a ≤ b

theorem holds_compare (op : Comparator) (a b : α) :
    op.holds (compare a b) = true ↔ op.Relates a b := by
  rcases lt_trichotomy a b with h | rfl | h
  · rw [compare_lt_iff_lt.mpr h]
    cases op <;> simp [holds, Relates, h, h.le, h.ne]
  · rw [compare_eq_iff_eq.mpr rfl]
    cases op <;> simp [holds, Relates]
  · rw [compare_gt_iff_gt.mpr h]
    cases op <;> simp [holds, Relates, h, h.le, h.ne']

end Comparator

/-! ## The nearest double of a whole number -/

namespace Binary64

/-- Being nearest is a matter of the value: of two zeros both are. -/
theorem Rounds.of_value_eq {q : ℚ} {x y : Binary64} (h : Rounds q x) (hy : y.isNaN = false)
    (hvalue : y.value = x.value) : Rounds q y := by
  have hmagnitude : y.magnitude = x.magnitude := by
    rw [← natAbs_rank, ← natAbs_rank, value_eq_iff.mp hvalue]
  refine ⟨hy, ?_, ?_⟩
  · rw [hvalue]
    exact h.nearest
  · rw [hvalue, hmagnitude]
    exact h.even

end Binary64

namespace Value

theorem rounds_widen (n : Int64) : Binary64.Rounds n.toInt (widen n) :=
  Binary64.rounds_ofInt n.toInt

theorem value_widen_eq_iff {n : Int64} {x : Binary64} (hx : x.isNaN = false) :
    (widen n).value = x.value ↔ Binary64.Rounds n.toInt x :=
  ⟨fun h => (rounds_widen n).of_value_eq hx h.symm, (rounds_widen n).value_unique⟩

theorem value_widen_mono {m n : Int64} (h : m.toInt ≤ n.toInt) :
    (widen m).value ≤ (widen n).value :=
  (rounds_widen m).value_mono (rounds_widen n) (Int.cast_le.mpr h)

/-- A strict order of the doubles is the order of the numbers. -/
theorem toInt_lt_of_value_lt {m n : Int64} (h : (widen m).value < (widen n).value) :
    m.toInt < n.toInt :=
  lt_of_not_ge fun hle => absurd (value_widen_mono hle) (not_le.mpr h)

/-! ## Merged numbers -/

/-- One double is the nearest to two different whole numbers. -/
structure Merged (m n : Int64) (x : Binary64) : Prop where
  different : m ≠ n
  left : Binary64.Rounds m.toInt x
  right : Binary64.Rounds n.toInt x

theorem Merged.symm {m n : Int64} {x : Binary64} (h : Merged m n x) : Merged n m x :=
  ⟨h.different.symm, h.right, h.left⟩

theorem merged_of_value_eq {m n : Int64} {x : Binary64} (hx : x.isNaN = false)
    (hm : (widen m).value = x.value) (hn : (widen n).value = x.value) (hne : m ≠ n) :
    Merged m n x :=
  ⟨hne, (value_widen_eq_iff hx).mp hm, (value_widen_eq_iff hx).mp hn⟩

/-- Only whole numbers of magnitude `2 ^ 53` and more are merged with others. -/
theorem Merged.two_pow_le {m n : Int64} {x : Binary64} (h : Merged m n x) :
    2 ^ 53 ≤ m.toInt.natAbs := by
  by_contra hsmall
  have hm : x.value = (m.toInt : ℚ) :=
    (h.left.value_unique (rounds_widen m)).trans (Binary64.value_ofInt (by omega))
  have hends : ∀ k : Int, k.natAbs = 2 ^ 53 → (Binary64.ofInt k).value = (k : ℚ) := fun k hk =>
    Binary64.value_ofInt hk.le
  rcases lt_or_ge (2 ^ 53) n.toInt with hhigh | hhigh
  · have hle := (Binary64.rounds_ofInt (2 ^ 53)).value_mono h.right (Int.cast_le.mpr hhigh.le)
    rw [hends _ rfl, hm, Int.cast_le] at hle
    omega
  rcases lt_or_ge n.toInt (-2 ^ 53) with hlow | hlow
  · have hle := h.right.value_mono (Binary64.rounds_ofInt (-2 ^ 53)) (Int.cast_le.mpr hlow.le)
    rw [hends _ rfl, hm, Int.cast_le] at hle
    omega
  · have hn : x.value = (n.toInt : ℚ) :=
      (h.right.value_unique (rounds_widen n)).trans (Binary64.value_ofInt (by omega))
    rw [hm, Int.cast_inj] at hn
    exact h.different (Int64.toInt_inj.mp hn)

/-- Of three values two are different whole numbers, and the third is the double nearest to
both. -/
inductive HasMerged : Value → Value → Value → Prop
  | first {m n : Int64} {x : Binary64} (h : Merged m n x) : HasMerged (.float x) (.int m) (.int n)
  | second {m n : Int64} {x : Binary64} (h : Merged m n x) : HasMerged (.int m) (.float x) (.int n)
  | third {m n : Int64} {x : Binary64} (h : Merged m n x) : HasMerged (.int m) (.int n) (.float x)

/-! ## Comparing numbers -/

/-- A number: any whole number, and any double but NaN. -/
def IsNumber : Value → Prop
  | .int _ => True
  | .float x => x.isNaN = false
  | _ => False

theorem isNumber_int (n : Int64) : IsNumber (.int n) := trivial

theorem isNumber_float {x : Binary64} (h : x.isNaN = false) : IsNumber (.float x) := h

/-- The double that a number is compared as. -/
def double : Value → Binary64
  | .int n => widen n
  | .float x => x
  | _ => .zero

/-- A comparison has a result, and it is that the relation holds. -/
def Stands (op : Comparator) (a b : Value) : Prop := a.compare? op b = some true

variable {a b c : Value} {op : Comparator}

theorem IsNumber.int_or_float (h : a.IsNumber) :
    (∃ n, a = .int n) ∨ ∃ x, x.isNaN = false ∧ a = .float x := by
  cases a with
  | int n => exact .inl ⟨n, rfl⟩
  | float x => exact .inr ⟨x, h, rfl⟩
  | bool b => exact h.elim
  | string s => exact h.elim

theorem IsNumber.isNaN_double (h : a.IsNumber) : a.double.isNaN = false := by
  rcases h.int_or_float with ⟨n, rfl⟩ | ⟨x, hx, rfl⟩
  · exact (rounds_widen n).number
  · exact hx

theorem stands_ints_iff {m n : Int64} :
    Stands op (.int m) (.int n) ↔ op.Relates m.toInt n.toInt := by
  rw [← Comparator.holds_compare]
  exact Option.some_inj

theorem ints_or_order?_eq (ha : a.IsNumber) (hb : b.IsNumber) :
    (∃ m n, a = .int m ∧ b = .int n) ∨ a.order? b = a.double.compare? b.double := by
  rcases ha.int_or_float with ⟨m, rfl⟩ | ⟨x, -, rfl⟩ <;>
    rcases hb.int_or_float with ⟨n, rfl⟩ | ⟨y, -, rfl⟩
  · exact .inl ⟨m, n, rfl, rfl⟩
  all_goals exact .inr rfl

/-- Two numbers are compared as doubles, unless they are two whole numbers. -/
theorem ints_or_stands_iff (ha : a.IsNumber) (hb : b.IsNumber) :
    (∃ m n, a = .int m ∧ b = .int n) ∨
      ∀ op, Stands op a b ↔ op.Relates a.double.value b.double.value := by
  refine (ints_or_order?_eq ha hb).imp_right fun horder op => ?_
  rw [Stands, compare?, horder, Binary64.compare?_eq ha.isNaN_double hb.isNaN_double,
    ← Comparator.holds_compare]
  exact Option.some_inj

theorem value_eq_of_equal (ha : a.IsNumber) (hb : b.IsNumber) (h : Stands .equal a b) :
    a.double.value = b.double.value := by
  rcases ints_or_stands_iff ha hb with ⟨m, n, rfl, rfl⟩ | hiff
  · rw [Int64.toInt_inj.mp (stands_ints_iff.mp h)]
  · exact (hiff _).mp h

/-- Whole numbers in order are doubles in order, though perhaps equal ones. -/
theorem value_le_of_lessOrEqual (ha : a.IsNumber) (hb : b.IsNumber) (h : Stands .lessOrEqual a b) :
    a.double.value ≤ b.double.value := by
  rcases ints_or_stands_iff ha hb with ⟨m, n, rfl, rfl⟩ | hiff
  · exact value_widen_mono (stands_ints_iff.mp h)
  · exact (hiff _).mp h

/-- With a double in it a strict order is that of the values. -/
theorem value_lt_of_less (ha : a.IsNumber) (hb : b.IsNumber)
    (hfloat : ¬ ∃ m n, a = .int m ∧ b = .int n) (h : Stands .less a b) :
    a.double.value < b.double.value :=
  ((ints_or_stands_iff ha hb).resolve_left hfloat .less).mp h

theorem lessOrEqual_of_less (h : Stands .less a b) : Stands .lessOrEqual a b := by
  obtain ⟨o, horder, ho⟩ := Option.map_eq_some_iff.mp h
  refine Option.map_eq_some_iff.mpr ⟨o, horder, ?_⟩
  cases o <;> first | rfl | cases ho

/-! ## The laws of the order -/

/-- Equality is passed on, unless through a double on which two numbers are merged. -/
theorem equal_iff_of_equal_equal (ha : a.IsNumber) (hb : b.IsNumber) (hc : c.IsNumber)
    (hab : Stands .equal a b) (hbc : Stands .equal b c) :
    Stands .equal a c ↔ ¬ HasMerged a b c := by
  constructor
  · rintro hac (h | h | h)
    · exact h.different (Int64.toInt_inj.mp (stands_ints_iff.mp hbc))
    · exact h.different (Int64.toInt_inj.mp (stands_ints_iff.mp hac))
    · exact h.different (Int64.toInt_inj.mp (stands_ints_iff.mp hab))
  · intro hmerged
    rcases ints_or_stands_iff ha hc with ⟨m, n, rfl, rfl⟩ | hiff
    · rcases hb.int_or_float with ⟨k, rfl⟩ | ⟨x, hx, rfl⟩
      · exact stands_ints_iff.mpr ((stands_ints_iff.mp hab).trans (stands_ints_iff.mp hbc))
      · refine stands_ints_iff.mpr (Int64.toInt_inj.mpr ?_)
        by_contra hne
        exact hmerged (.second (merged_of_value_eq hx (value_eq_of_equal ha hb hab)
          (value_eq_of_equal hb hc hbc).symm hne))
    · exact (hiff _).mpr ((value_eq_of_equal ha hb hab).trans (value_eq_of_equal hb hc hbc))

/-- A strict order is passed on, unless to a double on which the two numbers before it are
merged. -/
theorem less_iff_of_less_lessOrEqual (ha : a.IsNumber) (hb : b.IsNumber) (hc : c.IsNumber)
    (hab : Stands .less a b) (hbc : Stands .lessOrEqual b c) :
    Stands .less a c ↔ ¬ HasMerged a b c := by
  have hleab := value_le_of_lessOrEqual ha hb (lessOrEqual_of_less hab)
  have hlebc := value_le_of_lessOrEqual hb hc hbc
  constructor
  · rintro hac (h | h | h)
    · exact (value_lt_of_less ha hb nofun hab).ne (h.left.value_unique (rounds_widen _))
    · exact (value_lt_of_less ha hb nofun hab).ne ((rounds_widen _).value_unique h.left)
    · exact (value_lt_of_less ha hc nofun hac).ne ((rounds_widen _).value_unique h.left)
  · intro hmerged
    rcases ints_or_stands_iff ha hc with ⟨m, n, rfl, rfl⟩ | hiff
    · refine stands_ints_iff.mpr ?_
      rcases hb.int_or_float with ⟨k, rfl⟩ | ⟨x, hx, rfl⟩
      · exact (stands_ints_iff.mp hab).trans_le (stands_ints_iff.mp hbc)
      · exact toInt_lt_of_value_lt ((value_lt_of_less ha hb nofun hab).trans_le hlebc)
    · refine (hiff _).mpr ((hleab.trans hlebc).lt_of_ne fun hsame => ?_)
      have heqab := hleab.antisymm (hlebc.trans hsame.ge)
      rcases ints_or_stands_iff ha hb with ⟨m, n, rfl, rfl⟩ | hiffab
      · rcases hc.int_or_float with ⟨k, rfl⟩ | ⟨x, hx, rfl⟩
        · have hlt : m.toInt < k.toInt :=
            (stands_ints_iff.mp hab).trans_le (stands_ints_iff.mp hbc)
          exact ((hiff .less).mp (stands_ints_iff.mpr hlt)).ne hsame
        · refine hmerged (.third (merged_of_value_eq hx hsame (heqab.symm.trans hsame) ?_))
          rintro rfl
          exact lt_irrefl _ (stands_ints_iff.mp hab)
      · exact heqab.not_lt ((hiffab _).mp hab)

/-- Through a double two whole numbers are ordered as they are, or it is nearest to both. -/
theorem int_le_of_through {m n : Int64} {x : Binary64} (hx : x.isNaN = false)
    (hmx : Stands .lessOrEqual (.int m) (.float x))
    (hxn : Stands .lessOrEqual (.float x) (.int n)) :
    m.toInt ≤ n.toInt ∨ Merged m n x := by
  have hm := value_le_of_lessOrEqual (isNumber_int m) (isNumber_float hx) hmx
  have hn := value_le_of_lessOrEqual (isNumber_float hx) (isNumber_int n) hxn
  refine or_iff_not_imp_left.mpr fun hgt => ?_
  have hback := value_widen_mono (not_le.mp hgt).le
  refine merged_of_value_eq hx (hm.antisymm (hn.trans hback)) (hn.antisymm (hback.trans hm)).symm ?_
  rintro rfl
  exact hgt le_rfl

theorem int_lt_of_through {m n : Int64} {x : Binary64} (hx : x.isNaN = false)
    (hmx : Stands .lessOrEqual (.int m) (.float x)) (hxn : Stands .lessOrEqual (.float x) (.int n))
    (hstrict : Stands .less (.int m) (.float x) ∨ Stands .less (.float x) (.int n)) :
    m.toInt < n.toInt := by
  have hm := value_le_of_lessOrEqual (isNumber_int m) (isNumber_float hx) hmx
  have hn := value_le_of_lessOrEqual (isNumber_float hx) (isNumber_int n) hxn
  refine toInt_lt_of_value_lt ?_
  rcases hstrict with h | h
  · have hlt := value_lt_of_less (isNumber_int m) (isNumber_float hx) nofun h
    exact hlt.trans_le hn
  · have hlt := value_lt_of_less (isNumber_float hx) (isNumber_int n) nofun h
    exact hm.trans_lt hlt

/-- The order of all numbers is coherent, but for whole numbers of at least `2 ^ 53` that are
merged on a double.  Equality and the strict order are passed on unless two of the three
numbers are merged on the third.  Two whole numbers on either side of a double, the one at
most, the other at least as great, are ordered as they are or merged on it, and not merged if
one of the two comparisons is strict. -/
theorem comparison_coherent (ha : a.IsNumber) (hb : b.IsNumber) (hc : c.IsNumber) :
    (Stands .equal a b → Stands .equal b c → (Stands .equal a c ↔ ¬ HasMerged a b c)) ∧
    (Stands .less a b → Stands .lessOrEqual b c → (Stands .less a c ↔ ¬ HasMerged a b c)) ∧
    (HasMerged a b c → ∀ n, .int n ∈ [a, b, c] → 2 ^ 53 ≤ n.toInt.natAbs) ∧
    ∀ m x n, a = .int m → b = .float x → c = .int n →
      Stands .lessOrEqual a b → Stands .lessOrEqual b c →
        (Stands .lessOrEqual a c ∨ HasMerged a b c) ∧
        (Stands .less a b ∨ Stands .less b c → Stands .less a c) := by
  refine ⟨equal_iff_of_equal_equal ha hb hc, less_iff_of_less_lessOrEqual ha hb hc, ?_, ?_⟩
  · rintro (h | h | h) n hn
    all_goals
      simp only [List.mem_cons, Value.int.injEq, reduceCtorEq, List.not_mem_nil, or_false,
        false_or] at hn
      rcases hn with rfl | rfl
      · exact h.two_pow_le
      · exact h.symm.two_pow_le
  · rintro m x n rfl rfl rfl hab hbc
    refine ⟨?_, fun hstrict => stands_ints_iff.mpr (int_lt_of_through hb hab hbc hstrict)⟩
    exact (int_le_of_through hb hab hbc).imp stands_ints_iff.mpr .second

instance : Decidable (Stands op a b) := inferInstanceAs (Decidable (_ = _))

/-- The first two whole numbers that are merged, and the double between. -/
theorem comparison_coherent_merged :
    Stands .less (.int 9007199254740992) (.int 9007199254740993) ∧
      Stands .lessOrEqual (.int 9007199254740993) (.float ⟨0x4340000000000000⟩) ∧
      HasMerged (.int 9007199254740992) (.int 9007199254740993) (.float ⟨0x4340000000000000⟩) := by
  have hless : Stands .less (.int 9007199254740992) (.int 9007199254740993) := by decide
  have hle : Stands .lessOrEqual (.int 9007199254740993) (.float ⟨0x4340000000000000⟩) := by
    decide +kernel
  obtain ⟨-, hlaw, -⟩ := comparison_coherent (isNumber_int 9007199254740992)
    (isNumber_int 9007199254740993) (isNumber_float (x := ⟨0x4340000000000000⟩) (by decide))
  exact ⟨hless, hle, not_not.mp (mt (hlaw hless hle).mpr (by decide +kernel))⟩

/-- Neither law holds of all numbers. -/
theorem merged_numbers_incoherent :
    (Stands .equal (.int 9007199254740992) (.float ⟨0x4340000000000000⟩) ∧
      Stands .equal (.float ⟨0x4340000000000000⟩) (.int 9007199254740993) ∧
      ¬ Stands .equal (.int 9007199254740992) (.int 9007199254740993)) ∧
    (Stands .less (.int 9007199254740992) (.int 9007199254740993) ∧
      Stands .lessOrEqual (.int 9007199254740993) (.float ⟨0x4340000000000000⟩) ∧
      ¬ Stands .less (.int 9007199254740992) (.float ⟨0x4340000000000000⟩)) := by
  decide +kernel

end Value

end Rulebook
