/-
  Proofs/Source/Literal.lean --- the literals of rule texts are comparable.

  A literal that is read is never a NaN: doubles are written in decimal, and decimals are
  rounded to numbers.  So is every literal of a condition that is read, and of the rules of
  a text.
-/
import Rulebook.Program.Check
import Rulebook.Proofs.Number.Binary64
import Rulebook.Proofs.Source.Condition

set_option autoImplicit false

namespace Rulebook

/-- No comparison of the condition is with a NaN. -/
def Condition.Comparable (c : Condition) : Prop :=
  ∀ comparison ∈ c.comparisons, ¬ comparison.2.2.IsNaN

namespace Source

open Reader

/-! ## Literals -/

theorem orReject_gives {α : Type} {P : α → Prop} {o : Option α} (h : ∀ a, o = some a → P a) :
    (orReject o).Gives P := by
  cases o with
  | none =>
      intro s a r hread
      cases hread
  | some a => exact .pure (h a rfl)

theorem negativeNumber_gives : negativeNumber.Gives fun v => ¬ v.IsNaN := by
  refine .after fun _ => .after fun digits => ?_
  split
  · refine orReject_gives fun v hv => ?_
    obtain ⟨n, -, rfl⟩ := Option.map_eq_some_iff.mp hv
    simp [Value.IsNaN, Numeral.toBinary64, Binary64.isNaN_ofDecimal]
  · refine orReject_gives fun v hv => ?_
    obtain ⟨n, -, rfl⟩ := Option.map_eq_some_iff.mp hv
    exact id

theorem pointNumber_gives : pointNumber.Gives fun v => ¬ v.IsNaN := by
  refine .after fun _ => .after fun _ => .after fun _ => .pure ?_
  simp [Value.IsNaN, Binary64.isNaN_ofDecimal]

theorem value_gives : value.Gives fun v => ¬ v.IsNaN := by
  have hany {α : Type} (p : Reader α) : p.Gives fun _ => True := fun _ _ _ _ => trivial
  have hstring : (Value.string <$> stringLiteral).Gives fun v => ¬ v.IsNaN :=
    (hany _).map fun _ _ => id
  have hinteger : (Value.int <$> integer).Gives fun v => ¬ v.IsNaN :=
    (hany _).map fun _ _ => id
  have hword (text : List Char) (b : Bool) :
      (do word text; return .bool b : Reader Value).Gives fun v => ¬ v.IsNaN :=
    .after fun _ => .pure id
  exact .after fun _ => (hstring.orElse ((hword _ true).orElse ((hword _ false).orElse
    (negativeNumber_gives.orElse (pointNumber_gives.orElse hinteger))))).expecting _

/-! ## Conditions -/

theorem hereditary_comparable : Hereditary Condition.Comparable where
  and hl hr comparison hmem := (List.mem_append.mp hmem).elim (hl comparison) (hr comparison)
  or hl hr comparison hmem := (List.mem_append.mp hmem).elim (hl comparison) (hr comparison)
  not h := h

theorem term_comparable {s : List Char} (c : Condition) (r : List Char)
    (h : comparisonOrReference.Reads s c r) : c.Comparable := by
  obtain ⟨name, rest, hname, -⟩ := h.of_bind
  unfold Reads at h
  rw [comparisonOrReference_apply hname] at h
  split at h
  · obtain ⟨literal, hliteral, rfl⟩ := Reads.of_map h
    intro comparison hmem
    obtain rfl := List.mem_singleton.mp hmem
    exact value_gives _ _ _ hliteral.of_commit
  · cases h
    intro comparison hmem
    cases hmem

theorem condition_comparable : condition.Gives Condition.Comparable :=
  disjunction_gives hereditary_comparable
    (unary_gives hereditary_comparable fun _ _ => term_comparable)

/-! ## Rules -/

theorem item_comparable : item.Gives fun i => ∀ r, i = .rule r → r.condition.Comparable := by
  have hpackage : packageItem.Gives fun i => ∀ r, i = .rule r → r.condition.Comparable :=
    .after fun _ => .after fun _ => .after fun _ => .after fun _ => .pure (by simp)
  have hshape : shapeItem.Gives fun i => ∀ r, i = .rule r → r.condition.Comparable :=
    .after fun _ => .after fun _ => .after fun _ => .after fun _ => .after fun _ =>
      .after fun _ => .after fun _ => .pure (by simp)
  have hrule : ruleItem.Gives fun i => ∀ r, i = .rule r → r.condition.Comparable :=
    .after fun _ => .after fun _ => .after fun _ => .after fun _ => .after fun _ =>
      .after fun _ => .after fun _ =>
        (condition_comparable.commit.expecting _).bind fun condition hcondition =>
          .after fun actions => .pure fun r hr => by
            obtain rfl := Item.rule.inj hr
            exact hcondition
  exact hpackage.orElse (hshape.orElse hrule)

namespace Grouping

/-- The rules that were taken in. -/
def rules (g : Grouping) : List Rule := Package.allRules (g.closed ++ [g.current])

theorem mem_rules_of_packages {g : Grouping} {r : Rule} (h : r ∈ Package.allRules g.packages) :
    r ∈ g.rules := by
  unfold packages at h
  split at h
  · obtain ⟨p, hp, hr⟩ := List.mem_flatMap.mp h
    exact List.mem_flatMap.mpr ⟨p, List.mem_append_left _ hp, hr⟩
  · exact h

theorem mem_rules_add {g : Grouping} {i : Item} {r : Rule} (h : r ∈ (g.add i).rules) :
    r ∈ g.rules ∨ i = .rule r := by
  cases i with
  | package name =>
      simp only [rules, add, Package.allRules] at h ⊢
      split at h
      · simp only [List.flatMap_append, List.mem_append] at h ⊢
        exact Or.inl (h.imp_right fun hempty => absurd hempty (by simp [Package.empty]))
      · simp only [List.flatMap_append, List.mem_append] at h ⊢
        exact Or.inl (h.resolve_right (by simp [Package.empty]))
  | shape s => exact Or.inl (by simpa [rules, add, Package.allRules] using h)
  | rule other =>
      simp only [rules, add, Package.allRules, List.flatMap_append, List.flatMap_singleton,
        List.mem_append, List.mem_singleton] at h ⊢
      rcases h with hclosed | hcurrent | rfl
      · exact Or.inl (Or.inl hclosed)
      · exact Or.inl (Or.inr hcurrent)
      · exact Or.inr rfl

theorem mem_rules_foldl {items : List Item} {g : Grouping} {r : Rule}
    (h : r ∈ (items.foldl add g).rules) : r ∈ g.rules ∨ .rule r ∈ items := by
  induction items generalizing g with
  | nil => exact Or.inl h
  | cons i items ih =>
      rcases ih h with hadd | hitems
      · rcases mem_rules_add hadd with hold | rfl
        · exact Or.inl hold
        · exact Or.inr List.mem_cons_self
      · exact Or.inr (List.mem_cons_of_mem _ hitems)

end Grouping

/-- The rules of the packages of items are among the items. -/
theorem mem_of_mem_rules {items : List Item} {r : Rule}
    (h : r ∈ Package.allRules (group items)) : .rule r ∈ items :=
  (Grouping.mem_rules_foldl (Grouping.mem_rules_of_packages h)).resolve_left (by
    simp [Grouping.rules, Grouping.start, Package.allRules, Package.empty])

/-- No comparison of a rule that is read is with a NaN. -/
theorem comparable_of_packages {source : List Char} {ps : List Package}
    (h : packages source = .ok ps) : ∀ r ∈ Package.allRules ps, r.condition.Comparable := by
  unfold packages at h
  split at h
  · cases h
  · rename_i items rest hread
    split at h
    · cases h
      intro r hr
      exact item_comparable.many _ _ _ hread _ (mem_of_mem_rules hr) r rfl
    · cases h

end Source

end Rulebook
