/-
  Proofs/Program/Rearrangement.lean --- packages whose rules are declared in another order.

  Whether packages are well-formed is said of their rules without an order, so packages
  compile whenever they compile with their rules rearranged.  The program is another one:
  the order of evaluation, the table of positions and the agenda follow the order of
  declaration.  But both programs arrange the same rules, over the same shapes.
-/
import Mathlib.Data.List.Forall2
import Rulebook.Proofs.Program.WellFormed

set_option autoImplicit false

namespace Rulebook

/-! ## Rules in another order -/

namespace Rule

variable {rules rules' : List Rule}

theorem refers_perm (h : rules.Perm rules') : Refers rules' = Refers rules := by
  funext a b
  simp only [Refers, h.mem_iff]

/-- Rules are well-formed in every order. -/
theorem WellFormed.perm {shapes : List Shape} (hwf : WellFormed shapes rules)
    (h : rules.Perm rules') : WellFormed shapes rules' where
  names_nodup := (h.map (·.name)).nodup_iff.mp hwf.names_nodup
  references_declared r hr name hname :=
    (h.map (·.name)).subset (hwf.references_declared r (h.mem_iff.mpr hr) name hname)
  acyclic := by
    rw [refers_perm h]
    exact hwf.acyclic
  paths_lead r hr := hwf.paths_lead r (h.mem_iff.mpr hr)
  literals_admitted r hr := hwf.literals_admitted r (h.mem_iff.mpr hr)

end Rule

/-! ## Packages with their rules in another order -/

namespace Package

/-- A package with its rules in another order. -/
structure Rearranged (a b : Package) : Prop where
  /-- The name stays. -/
  name_eq : b.name = a.name
  /-- The shapes stay as they are. -/
  shapes_eq : b.shapes = a.shapes
  /-- The rules are the same ones. -/
  rules_perm : a.rules.Perm b.rules

section

variable {packages packages' : List Package}

theorem allShapes_rearranged (h : List.Forall₂ Rearranged packages packages') :
    allShapes packages' = allShapes packages := by
  induction h with
  | nil => rfl
  | cons hab _ ih =>
      simp only [allShapes, List.flatMap_cons] at ih ⊢
      rw [ih, hab.shapes_eq]

theorem allRules_rearranged (h : List.Forall₂ Rearranged packages packages') :
    (allRules packages).Perm (allRules packages') := by
  induction h with
  | nil => exact .refl _
  | cons hab _ ih =>
      simp only [allRules, List.flatMap_cons] at ih ⊢
      exact hab.rules_perm.append ih

/-- Facts are made of the same shapes. -/
theorem groupsOf_rearranged (h : List.Forall₂ Rearranged packages packages') :
    Program.groupsOf packages' = Program.groupsOf packages := by
  induction h with
  | nil => rfl
  | cons hab _ ih =>
      simp only [Program.groupsOf, List.map_cons] at ih ⊢
      have hempty := hab.rules_perm.isEmpty_eq
      rw [ih, hab.name_eq, hab.shapes_eq, hempty]

theorem WellFormed.rearranged (hwf : WellFormed packages)
    (h : List.Forall₂ Rearranged packages packages') : WellFormed packages' where
  shapes := by
    rw [allShapes_rearranged h]
    exact hwf.shapes
  rules := by
    rw [allShapes_rearranged h]
    exact hwf.rules.perm (allRules_rearranged h)

end

end Package

namespace Program

/-- An arrangement of rules arranges them in whatever order they are declared. -/
theorem Arranges.of_perm {p : Program} {rules rules' : List Rule} (h : p.Arranges rules)
    (hperm : rules.Perm rules') : p.Arranges rules' :=
  { h with perm := h.perm.trans hperm }

section

variable {packages packages' : List Package}

/-- Rearranging rules makes no defect. -/
theorem defects_rearranged (h : List.Forall₂ Package.Rearranged packages packages')
    (hdefects : defects packages = []) : defects packages' = [] :=
  (defects_eq_nil_iff packages').mpr (((defects_eq_nil_iff packages).mp hdefects).rearranged h)

theorem compile_rearranged (h : List.Forall₂ Package.Rearranged packages packages')
    (hdefects : defects packages = []) (digest : Digest) :
    compile packages' digest = .ok (lower packages' digest) := by
  simp only [compile, defects_rearranged h hdefects, List.isEmpty_nil, if_true]

/-- The program of rearranged packages arranges the rules as they were declared. -/
theorem arranges_rearranged (h : List.Forall₂ Package.Rearranged packages packages')
    (hdefects : defects packages = []) (digest : Digest) :
    (lower packages' digest).Arranges (Package.allRules packages) :=
  (arranges_lower digest (defects_rearranged h hdefects)).of_perm
    (Package.allRules_rearranged h).symm

end

end Program

end Rulebook
