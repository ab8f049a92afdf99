/-
  Proofs/Service/Transparency.lean --- the cache cannot be told from its absence.

  Whatever callers ask for, one after the other, they are told what they would be told
  without a cache (`transparent`).  The state between two commands is coherent, so each
  command is answered from the stored rules alone.

  A rule is run under the key that the caller gave, and the run names its logger for it.
  Since results do not depend on the name of the logger, it does not matter whether a rule
  is executed by its name or by its identifier.

  Time is the one thing that stops a pass half way here.  So all this is said for any clock
  under which sessions fire (`Engine.clocked`); a rule is executed alike by its name and by
  its identifier if the clock does not read the name of the logger either.
-/
import Rulebook.Proofs.Service.Sequential
import Rulebook.Proofs.Session.Relabel

set_option autoImplicit false

namespace Rulebook

/-! ## Clocks -/

/-- The engine of the rule language under a clock, which says of a session that fires when
its deadline passes. -/
def Engine.clocked (clock : Session → Option Deadline → Option Deadline) :
    Engine Program Session :=
  { Engine.rules with fire := fun s deadline => Engine.rules.fire s (clock s deadline) }

/-- Under the clock of a pass that takes no time it is the engine of the rule language. -/
theorem Engine.clocked_id : clocked (fun _ deadline => deadline) = rules := rfl

/-- The clock does not read the names of loggers. -/
def Engine.LabelBlind (clock : Session → Option Deadline → Option Deadline) : Prop :=
  ∀ label s deadline, clock (s.relabel label) deadline = clock s deadline

/-! ## Labels -/

theorem Binding.relabel_facts (label : String) (groups : List ShapeGroup) (params : Json.Members)
    (handle : ResultHandle) :
    (facts groups params handle).1.map (Fact.relabel label) = (facts groups params handle).1 := by
  simp only [facts, List.map_append, List.map_map]
  rfl

/-- A session of the rule language with the facts of a request, before it fires. -/
def Execution.bound (c : Config) (label : String) (p : Program) (params : Json.Members) : Session :=
  (Binding.bind Session.insert p.groups params handle
    ((globals c label).foldl Session.insert (.new p))).1

theorem Execution.bound_relabel (c : Config) (label other : String) (p : Program)
    (params : Json.Members) : bound c other p params = (bound c label p params).relabel other := by
  have hglobals : (globals c other).foldl Session.insert (.new p) =
      ((globals c label).foldl Session.insert (.new p)).relabel other :=
    Session.foldl_insert_relabel other (.new p) (globals c label)
  have hfacts := Session.foldl_insert_relabel other
    ((globals c label).foldl Session.insert (.new p)) (Binding.facts p.groups params handle).1
  rw [Binding.relabel_facts, ← hglobals] at hfacts
  exact hfacts

/-- The run that ends with a firing pass. -/
def Execution.finish (fired : Session × Except FireError Nat) : Run Session where
  session := some fired.1.dispose
  answer := (fired.2.map fun _ => fired.1.dispose.outcome handle).mapError fun e =>
    .failed e.message

section

variable (clock : Session → Option Deadline → Option Deadline) (c : Config)

theorem Execution.run_clocked (label : String) (p : Program) (params : Json.Members) :
    run ⟨.clocked clock, c⟩ label p params =
      finish ((bound c label p params).fireAll
        (clock (bound c label p params) c.deadline?)) := by
  simp only [run, Engine.clocked, Engine.rules]
  rw [bound]
  rcases Session.fireAll _ (clock _ c.deadline?) with ⟨session, answer⟩
  cases answer <;> rfl

variable {clock}

/-- A run under another label is the same but for the name of its logger. -/
theorem Execution.run_relabel (hblind : Engine.LabelBlind clock) (label other : String)
    (p : Program) (params : Json.Members) :
    run ⟨.clocked clock, c⟩ other p params =
      ⟨(run ⟨.clocked clock, c⟩ label p params).session.map (Session.relabel other),
        (run ⟨.clocked clock, c⟩ label p params).answer⟩ := by
  rw [run_clocked clock c other, run_clocked clock c label, bound_relabel c label other, hblind,
    Session.fireAll_relabel, finish, Session.dispose_relabel]
  rfl

end

/-! ## Commands -/

namespace Facade

variable {π τ : Type} {d : Deployment π τ} {w : Shared MemoryStore π}

/-- From a coherent state a command is answered, and changes the stored rules, as without
a cache. -/
theorem perform_eq (hw : w.Coherent d) (command : Command) :
    ∃ w', perform d w command = (w', some (Uncached.perform d w.store command).2) ∧
      w'.store = (Uncached.perform d w.store command).1 ∧ w'.Coherent d := by
  cases command with
  | save draft now =>
      obtain ⟨w', hrun, hstore, hcoherent⟩ := Saving.run_eq hw draft now
      rw [perform, hrun, Uncached.perform]
      dsimp only
      exact ⟨w', rfl, hstore, hcoherent⟩
  | delete id =>
      obtain ⟨w', hrun, hstore, hcoherent⟩ := Deleting.run_eq hw id
      rw [perform, hrun, Uncached.perform]
      dsimp only
      exact ⟨w', rfl, hstore, hcoherent⟩
  | invalidate id => exact ⟨_, rfl, rfl, hw.invalidate id⟩
  | find key =>
      obtain ⟨w', found, hrun, hstore, hcoherent, hfound⟩ := Lookup.run_eq hw key
      rw [perform, hrun, Uncached.perform, ← hfound]
      exact ⟨w', rfl, hstore, hcoherent⟩
  | execute key params =>
      obtain ⟨w', found, hrun, hstore, hcoherent, hfound⟩ := Lookup.run_eq hw key
      rw [perform, Execution.execute, hrun, Uncached.perform, Uncached.outcome, ← hfound]
      refine ⟨w', ?_, hstore, hcoherent⟩
      cases found <;> rfl

theorem performAll_eq (hw : w.Coherent d) (commands : List Command) :
    ∃ w', performAll d w commands =
        (w', (Uncached.performAll d w.store commands).2.map some) ∧
      w'.store = (Uncached.performAll d w.store commands).1 ∧ w'.Coherent d := by
  induction commands generalizing w with
  | nil => exact ⟨w, rfl, rfl, hw⟩
  | cons command rest ih =>
      obtain ⟨w₁, hperform, hstore₁, hw₁⟩ := perform_eq hw command
      obtain ⟨w₂, hrest, hstore₂, hw₂⟩ := ih hw₁
      rw [hstore₁] at hrest hstore₂
      refine ⟨w₂, ?_, hstore₂, hw₂⟩
      rw [performAll, hperform]
      simp only
      rw [hrest]
      rfl

/-- An execution by name answers what an execution by identifier answers. -/
theorem outcome_name_eq {clock : Session → Option Deadline → Option Deadline}
    (hblind : Engine.LabelBlind clock) (c : Config) {w : Shared MemoryStore Program}
    (hw : w.Coherent ⟨.clocked clock, c⟩) {name : String} {id : RuleId} {rule : Definition}
    (hentry : Uncached.entry? w.store (.name name) = some (id, rule)) (params : Json.Members) :
    Uncached.outcome ⟨.clocked clock, c⟩ w.store (.name name) params =
      Uncached.outcome ⟨.clocked clock, c⟩ w.store (.id id) params := by
  rw [Uncached.outcome, Uncached.outcome, hw.program_name hentry]
  cases Uncached.program ⟨.clocked clock, c⟩ w.store (.id id) with
  | error e => rfl
  | ok p =>
      have hrun := Execution.run_relabel c hblind (RuleKey.id id).label (RuleKey.name name).label
        p params
      simp only [hrun]

/-- **Transparency of the cache.**  Callers ask the service over the rule language for
whatever they like, one after the other, starting on an empty store.  With any settings and
under any clock, each is told what it would be told without a cache, and the same rules are
stored then.  At every such moment a rule can be executed by its name as well as by its
identifier: unless the clock reads the names of loggers, the results are the same. -/
theorem transparent (clock : Session → Option Deadline → Option Deadline) (c : Config)
    (commands : List Command) :
    let d : Deployment Program Session := ⟨.clocked clock, c⟩
    let w := (performAll d (.start .empty) commands).1
    (performAll d (.start .empty) commands).2 =
        (Uncached.performAll d .empty commands).2.map some ∧
      w.store = (Uncached.performAll d .empty commands).1 ∧
      (Engine.LabelBlind clock → ∀ name rule id params,
        w.store.findByName name = some rule → rule.id = some id →
        (perform d w (.execute (.name name) params)).2 =
          (perform d w (.execute (.id id) params)).2) := by
  intro d w
  obtain ⟨reached, hall, hstore, hcoherent⟩ :=
    performAll_eq (Shared.coherent_start d) commands
  have hw : w = reached := congrArg Prod.fst hall
  rw [hall, hw]
  refine ⟨rfl, hstore, ?_⟩
  intro hblind name rule id params hfind hid
  rw [MemoryStore.findByName_eq] at hfind
  obtain ⟨⟨other, rule⟩, hentry, rfl⟩ := Option.map_eq_some_iff.mp hfind
  have hown := hcoherent.keyed.own_id _ (List.mem_of_find?_eq_some hentry)
  obtain rfl : other = id := Option.some.inj (hown.symm.trans hid)
  obtain ⟨byName, hbyName, -, -⟩ := perform_eq hcoherent (.execute (.name name) params)
  obtain ⟨byId, hbyId, -, -⟩ := perform_eq hcoherent (.execute (.id other) params)
  rw [hbyName, hbyId]
  exact congrArg (fun outcome => some (Reply.executed outcome))
    (outcome_name_eq hblind c hcoherent hentry params)

/-- Settings under which texts are stored unread. -/
def unverified : Config := { verifyBeforeSave := false }

/-- A clock under which deadlines pass when three looks have been taken. -/
def hasty (_ : Session) (_ : Option Deadline) : Option Deadline := some ⟨some 3⟩

/-- A rule is saved, found by its name, and renamed. -/
def renamed : List Command :=
  [.save (.new "door" "rule open:params.x==1") ⟨0, 0⟩, .find (.name "door"),
    .save { Definition.new "gate" "rule open:params.x==2" with id := some ⟨1⟩ } ⟨1, 0⟩]

/-- A request with one parameter. -/
def request : Json.Members := [("x", .number (.int 2))]

theorem transparent_renamed :
    let d : Deployment Program Session := ⟨.clocked hasty, unverified⟩
    Engine.LabelBlind hasty ∧
      (perform d (performAll d (.start .empty) renamed).1 (.execute (.name "gate") request)).2 =
        (perform d (performAll d (.start .empty) renamed).1 (.execute (.id ⟨1⟩) request)).2 := by
  intro d
  have hblind : Engine.LabelBlind hasty := fun _ _ _ => rfl
  obtain ⟨-, hstore, hexecute⟩ := transparent hasty unverified renamed
  have hfind : ∃ rule, (Uncached.performAll d .empty renamed).1.findByName "gate" = some rule ∧
      rule.id = some ⟨1⟩ := ⟨_, rfl, rfl⟩
  obtain ⟨rule, hrule, hid⟩ := hfind
  rw [← hstore] at hrule
  exact ⟨hblind, hexecute hblind "gate" rule ⟨1⟩ request hrule hid⟩

end Facade

end Rulebook
