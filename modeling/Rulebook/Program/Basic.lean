/-
  Program/Basic.lean --- compiled rule texts.

  A program holds its rules in the order of evaluation, and the agenda: the rules
  with actions in the order in which they act.
-/
import Rulebook.Digest
import Rulebook.Program.Check
import Rulebook.Program.Order
import Rulebook.Source.Report

set_option autoImplicit false

namespace Rulebook

/-- A rule of a program. -/
structure CompiledRule where
  /-- The name of the rule. -/
  name : String
  /-- When it holds. -/
  condition : Condition
  /-- What it does when it holds. -/
  actions : List Action
  /-- The priority it was given. -/
  priority : Option UInt32
  /-- Its position in the order of evaluation. -/
  index : Nat
  /-- Its position in the text. -/
  declared : Nat
deriving DecidableEq, Repr

namespace CompiledRule

/-- The rank of rules without a priority. -/
def lastPriority : UInt32 := 0xFFFFFFFF

/-- Whether a rule acts before another or at its place: by priority, then by position
in the text. -/
def actsBefore (a b : CompiledRule) : Bool :=
  let p := a.priority.getD lastPriority
  let q := b.priority.getD lastPriority
  p < q || (p == q && a.declared ≤ b.declared)

end CompiledRule

/-- A compiled rule text. -/
structure Program where
  /-- The rules in the order of evaluation. -/
  rules : List CompiledRule
  /-- The positions of the rules by their names. -/
  positions : Table String Nat
  /-- The positions of the rules with actions, in the order in which they act. -/
  agenda : List Nat
  /-- The shapes by package. -/
  groups : List ShapeGroup
  /-- The digest of the text. -/
  digest : Digest

namespace Program

/-- The defects of the packages of a text, in the order in which they are reported. -/
def defects (packages : List Package) : List Defect :=
  let shapes := Check.declared (Package.allShapes packages)
  let rules := Package.allRules packages
  let duplicates := Check.duplicateDefects [] rules
  let graph := Dependency.ofRules rules
  let circle :=
    if !duplicates.isEmpty || (Dependency.order graph).length = rules.length then []
    else [Defect.cycle ((Dependency.cycle? graph).getD [])]
  Check.nameDefects [] (Package.allShapes packages)
    ++ Check.allFieldDefects shapes
    ++ duplicates
    ++ Check.referenceDefects rules
    ++ rules.flatMap (Check.pathDefects shapes)
    ++ circle

/-- The rules of a text in the order of evaluation. -/
def lowerRules (rules : List Rule) : List CompiledRule :=
  ((Dependency.order (Dependency.ofRules rules)).filterMap fun name =>
    (rules.zipIdx.find? fun (r, _) => r.name = name)).mapIdx fun index (r, declared) =>
      { name := r.name
        condition := r.condition
        actions := r.actions
        priority := r.priority
        index
        declared }

/-- The positions of the rules with actions, in the order in which they act. -/
def agendaOf (rules : List CompiledRule) : List Nat :=
  ((rules.filter (!·.actions.isEmpty)).mergeSort CompiledRule.actsBefore).map (·.index)

/-- The shapes of the packages. -/
def groupsOf (packages : List Package) : List ShapeGroup :=
  packages.map fun p => ⟨p.name, !p.rules.isEmpty, p.shapes⟩

/-- The program of packages without defects. -/
def lower (packages : List Package) (digest : Digest) : Program :=
  let rules := lowerRules (Package.allRules packages)
  { rules
    positions := rules.map fun r => (r.name, r.index)
    agenda := agendaOf rules
    groups := groupsOf packages
    digest }

/-- Compile packages: their program, or all their defects. -/
def compile (packages : List Package) (digest : Digest) : Except (List Defect) Program :=
  let found := defects packages
  if found.isEmpty then .ok (lower packages digest) else .error found

/-- Compile a text.  A text that cannot be read has one message. -/
def ofSource (source : String) : Except Diagnostics Program :=
  match Source.packages source.toList with
  | .error failure => .error ⟨["parse error: " ++ failure.message source.toList]⟩
  | .ok packages =>
    match compile packages (Digest.ofText source) with
    | .error found => .error ⟨found.map Defect.message⟩
    | .ok program => .ok program

/-! ## Looking into a program -/

/-- Whether a program was compiled from a text. -/
def compiledFrom (p : Program) (source : String) : Bool := p.digest = Digest.ofText source

/-- The names of the rules in the order of evaluation. -/
def executionOrder (p : Program) : List String := p.rules.map (·.name)

/-- The names of the rules with actions, in the order in which they act. -/
def agendaOrder (p : Program) : List String :=
  p.agenda.filterMap fun i => (p.rules[i]?).map (·.name)

/-- The rule of a name. -/
def rule? (p : Program) (name : String) : Option CompiledRule :=
  (p.positions.get? name).bind fun i => p.rules[i]?

/-- The rules that a rule refers to. -/
def dependenciesOf? (p : Program) (name : String) : Option (List String) :=
  (p.rule? name).map (·.condition.references)

/-- The first shape of a name. -/
def shape? (p : Program) (name : String) : Option Shape := ShapeGroup.findShape? p.groups name

/-- A line about a program. -/
def text (p : Program) : String :=
  "RuleProgram(" ++ toString p.rules.length ++ " rules, " ++ toString p.agenda.length
    ++ " activations, " ++ toString p.groups.length ++ " packages)"

end Program

end Rulebook
