/-
  Proofs/Program/Acyclic.lean --- when the order of evaluation has every rule.

  Rules that refer to one another in a circle are never evaluated, and they are the only
  ones: as long as a rule can be evaluated, it is done or waits (`Swept`), and if nothing
  waits any more, then a rule that is not done refers to another one that is not done.
-/
import Mathlib.Data.Fintype.Card
import Mathlib.Data.Set.Finite.Basic
import Mathlib.Logic.Relation
import Rulebook.Proofs.Program.Order

set_option autoImplicit false

namespace Rulebook

namespace Dependency

/-- The rule of one name refers to another name. -/
def Refers (graph : List Dependency) (a b : String) : Prop :=
  ∃ d ∈ graph, d.name = a ∧ b ∈ d.references

/-- No name refers to itself, in however many steps. -/
def Acyclic (graph : List Dependency) : Prop :=
  ∀ name, ¬ Relation.TransGen (Refers graph) name name

section

variable {graph : List Dependency}

/-! ## Orders have no circles -/

/-- What a name refers to, in however many steps, stands before it. -/
theorem Ordered.earlier {names : List String} (h : Ordered graph names)
    (hnames : (graph.map (·.name)).Nodup) {a b : String}
    (hrefers : Relation.TransGen (Refers graph) a b) {i : Nat} (hi : names[i]? = some a) :
    ∃ j < i, names[j]? = some b := by
  have hstep {a b : String} (hab : Refers graph a b) {i : Nat} (hi : names[i]? = some a) :
      ∃ j < i, names[j]? = some b := by
    obtain ⟨d, hd, hname, hmem⟩ := hab
    obtain ⟨d', hd', hname', hbefore⟩ := h i a hi
    obtain rfl : d = d' := eq_of_name_eq hnames hd hd' (hname.trans hname'.symm)
    exact hbefore b hmem
  induction hrefers with
  | single hab => exact hstep hab hi
  | tail _ hbc ih =>
      obtain ⟨j, hj, hb⟩ := ih
      obtain ⟨k, hk, hc⟩ := hstep hbc hb
      exact ⟨k, hk.trans hj, hc⟩

/-- Names in order have no circle, if they are the names of all rules. -/
theorem Ordered.acyclic {names : List String} (h : Ordered graph names)
    (hnames : (graph.map (·.name)).Nodup) (hall : graph.map (·.name) ⊆ names) :
    Acyclic graph := by
  intro name hcircle
  -- a name on a circle would stand before itself, again and again
  have hnone : ∀ i : Nat, names[i]? ≠ some name := by
    intro i
    induction i using Nat.strong_induction_on with
    | _ i ih =>
        intro hi
        obtain ⟨j, hj, hsame⟩ := h.earlier hnames hcircle hi
        exact ih j hj hsame
  have hmem : name ∈ names := by
    obtain ⟨_, ⟨d, hd, hname, _⟩, _⟩ := Relation.TransGen.head'_iff.mp hcircle
    exact hall (List.mem_map.mpr ⟨d, hd, hname⟩)
  obtain ⟨i, hi⟩ := List.mem_iff_getElem?.mp hmem
  exact hnone i hi

theorem acyclic_of_order_length (hnames : (graph.map (·.name)).Nodup)
    (hlength : (order graph).length = graph.length) : Acyclic graph :=
  (order_ordered hnames).acyclic hnames (order_perm hnames hlength).symm.subset

/-! ## Without circles nothing is left over -/

/-- Every rule that can be evaluated is done or waits. -/
def Swept (graph : List Dependency) (waiting done : List String) : Prop :=
  ∀ d ∈ graph, (∀ r ∈ d.references, r ∈ done) → d.name ∈ done ++ waiting

theorem swept_start : Swept graph ((graph.filter (·.references.isEmpty)).map (·.name)) [] := by
  intro d hd hrefs
  have hempty : d.references = [] :=
    List.eq_nil_iff_forall_not_mem.mpr fun r hr => List.not_mem_nil (hrefs r hr)
  rw [List.nil_append]
  exact List.mem_map.mpr ⟨d, List.mem_filter.mpr ⟨hd, by simp [hempty]⟩, rfl⟩

/-- A rule that can be evaluated only now refers to the rule that was just taken. -/
theorem Swept.take {waiting done : List String} {name : String}
    (h : Swept graph (name :: waiting) done) :
    Swept graph (waiting ++ released graph done name) (done ++ [name]) := by
  intro d hd hrefs
  have hsplit : ∀ r ∈ d.references, r = name ∨ r ∈ done := by
    intro r hr
    rcases List.mem_append.mp (hrefs r hr) with hdone | hlast
    · exact Or.inr hdone
    · exact Or.inl (List.mem_singleton.mp hlast)
  by_cases hnew : name ∈ d.references
  · have hreleased : d.name ∈ released graph done name :=
      mem_released.mpr ⟨d, hd, rfl, hnew, hsplit⟩
    simp [hreleased]
  · have hready : ∀ r ∈ d.references, r ∈ done := by
      intro r hr
      refine (hsplit r hr).resolve_left ?_
      rintro rfl
      exact hnew hr
    have hknown := h d hd hready
    simp only [List.mem_append, List.mem_cons, List.not_mem_nil, or_false] at hknown ⊢
    tauto

/-- Names in order, none of them twice, are at most as many as there are rules. -/
theorem Ordered.length_le {names : List String} (h : Ordered graph names)
    (hnodup : names.Nodup) : names.length ≤ graph.length := by
  simpa using (h.subperm hnodup).length_le

/-- With as much fuel as rules are left, the loop ends with all rules done, or with no rule
that can be evaluated and is not done. -/
theorem Swept.run (hnames : (graph.map (·.name)).Nodup) (fuel : Nat)
    {waiting done : List String} (h : Swept graph waiting done) (hsweep : Sweep graph waiting done)
    (hfuel : graph.length ≤ done.length + fuel) :
    (Dependency.run graph fuel waiting done).length = graph.length ∨
      Swept graph [] (Dependency.run graph fuel waiting done) := by
  induction fuel generalizing waiting done with
  | zero =>
      have hdone : done.Nodup := hsweep.nodup.sublist (List.sublist_append_left _ _)
      exact Or.inl (Nat.le_antisymm (hsweep.ordered.length_le hdone) hfuel)
  | succ fuel ih =>
      cases waiting with
      | nil => exact Or.inr h
      | cons name waiting =>
          refine ih h.take (hsweep.take hnames) ?_
          rw [List.length_append, List.length_singleton]
          omega

/-- There are finitely many rules, so references can be followed to their ends. -/
theorem Acyclic.wellFounded (h : Acyclic graph) :
    WellFounded fun a b : {d // d ∈ graph} => Relation.TransGen (Refers graph) b.1.name a.1.name := by
  have hirrefl : Std.Irrefl fun a b : {d // d ∈ graph} =>
      Relation.TransGen (Refers graph) b.1.name a.1.name :=
    ⟨fun a hcircle => h a.1.name hcircle⟩
  have htrans : IsTrans {d // d ∈ graph} fun a b =>
      Relation.TransGen (Refers graph) b.1.name a.1.name :=
    ⟨fun _ _ _ hab hbc => hbc.trans hab⟩
  have hfinite : Finite {d // d ∈ graph} := (List.finite_toSet graph).to_subtype
  exact Finite.wellFounded_of_trans_of_irrefl _

/-- If no circle keeps a rule back and nothing waits, then everything is done. -/
theorem Swept.mem_of_acyclic {done : List String} (h : Swept graph [] done)
    (hclosed : ∀ d ∈ graph, ∀ r ∈ d.references, r ∈ graph.map (·.name))
    (hacyclic : Acyclic graph) {d : Dependency} (hd : d ∈ graph) : d.name ∈ done := by
  have hall : ∀ a : {d // d ∈ graph}, a.1.name ∈ done := by
    intro a
    induction a using hacyclic.wellFounded.induction with
    | _ a ih =>
        have hrefs : ∀ r ∈ a.1.references, r ∈ done := by
          intro r hr
          obtain ⟨b, hb, rfl⟩ := List.mem_map.mp (hclosed a.1 a.2 r hr)
          exact ih ⟨b, hb⟩ (.single ⟨a.1, a.2, rfl, hr⟩)
        simpa using h a.1 a.2 hrefs
  exact hall ⟨d, hd⟩

theorem order_length_of_acyclic (hnames : (graph.map (·.name)).Nodup)
    (hclosed : ∀ d ∈ graph, ∀ r ∈ d.references, r ∈ graph.map (·.name))
    (hacyclic : Acyclic graph) : (order graph).length = graph.length := by
  rcases swept_start.run hnames graph.length (sweep_start hnames) (by simp) with hdone | hswept
  · exact hdone
  · have hsub : graph.map (·.name) ⊆ order graph := by
      intro name hmem
      obtain ⟨d, hd, rfl⟩ := List.mem_map.mp hmem
      exact hswept.mem_of_acyclic hclosed hacyclic hd
    have hle : (order graph).length ≤ graph.length :=
      (order_ordered hnames).length_le (order_nodup hnames)
    have hge : graph.length ≤ (order graph).length := by
      simpa using (List.subperm_of_subset hnames hsub).length_le
    exact Nat.le_antisymm hle hge

/-- The order has every rule if and only if no rules refer to one another in a circle. -/
theorem order_length_iff_acyclic (hnames : (graph.map (·.name)).Nodup)
    (hclosed : ∀ d ∈ graph, ∀ r ∈ d.references, r ∈ graph.map (·.name)) :
    (order graph).length = graph.length ↔ Acyclic graph :=
  ⟨acyclic_of_order_length hnames, order_length_of_acyclic hnames hclosed⟩

end

end Dependency

end Rulebook
