/-
  Program/Order.lean --- in which order rules are evaluated.

  A rule is evaluated after all rules that it refers to.  `order` releases rules
  whose references are all evaluated, in the order of declaration as far as that
  allows; rules that refer to one another in a circle are never released, and
  `cycle?` then finds such a circle.
-/
import Rulebook.Rule.Action

set_option autoImplicit false

namespace Rulebook

/-- A rule with the rules it refers to, as often as it refers to them. -/
structure Dependency where
  /-- The name of the rule. -/
  name : String
  /-- The names of the rules it refers to. -/
  references : List String
deriving DecidableEq, Repr

namespace Dependency

/-- The dependencies among rules; references to other names are left out. -/
def ofRules (rules : List Rule) : List Dependency :=
  let names := rules.map (·.name)
  rules.map fun r => ⟨r.name, r.condition.references.filter (· ∈ names)⟩

/-- The rules that become free when `name` is evaluated after `done`: those that
refer to it and otherwise only to rules that are done. -/
def released (graph : List Dependency) (done : List String) (name : String) : List String :=
  (graph.filter fun d =>
    name ∈ d.references && d.references.all fun r => r = name || r ∈ done).map (·.name)

/-- Evaluate the waiting rules one after the other, at most `fuel` of them; those
that become free wait behind them. -/
def run (graph : List Dependency) : Nat → List String → List String → List String
  | 0, _, done => done
  | _ + 1, [], done => done
  | fuel + 1, name :: waiting, done =>
    run graph fuel (waiting ++ released graph done name) (done ++ [name])

/-- The rules that can be evaluated, in their order.  Every rule waits at most once,
so the fuel suffices. -/
def order (graph : List Dependency) : List String :=
  run graph graph.length ((graph.filter (·.references.isEmpty)).map (·.name)) []

/-! ## Circles -/

/-- The names that a name refers to. -/
def referencesOf (graph : List Dependency) (name : String) : List String :=
  match graph.find? (·.name = name) with
  | some d => d.references
  | none => []

/-- Follow the references from a name at the end of a path.  A reference back into
the path closes a circle, which is given as an error; `finished` are names from
which no circle is reached.  A path has no name twice, so as much fuel as there
are names suffices. -/
def follow (graph : List Dependency) :
    Nat → List String → List String → String → Except (List String) (List String)
  | 0, _, finished, _ => .ok finished
  | fuel + 1, path, finished, name => do
    let path := path ++ [name]
    let finished ← (referencesOf graph name).foldlM
      (fun finished next =>
        if next ∈ path then .error (path.dropWhile (· ≠ next) ++ [next])
        else if next ∈ finished then .ok finished
        else follow graph fuel path finished next)
      finished
    return name :: finished

/-- A circle, if there is one: the first that is found from the rules in the order of
declaration. -/
def cycle? (graph : List Dependency) : Option (List String) :=
  let found := (graph.map (·.name)).foldlM
    (fun finished name =>
      if name ∈ finished then .ok finished else follow graph graph.length [] finished name)
    []
  match found with
  | .error path => some path
  | .ok _ => none

end Dependency

end Rulebook
