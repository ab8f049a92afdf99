/-
  Service/Execution.lean --- running programs over the parameters of a request.

  A run has a session of its own, which is disposed of however the run ends.  A run
  that fails gives a result without payload; what actions had put into theirs is
  dropped.
-/
import Rulebook.Service.Mutation

set_option autoImplicit false

namespace Rulebook

/-- A run: the session as it was left, if there was one, and the answer. -/
structure Run (τ : Type) where
  /-- The session. -/
  session : Option τ
  /-- The result. -/
  answer : Except RuleError Outcome

namespace Config

/-- The deadline of a firing pass that begins now.  A pass takes no time but for a
timeout of zero, which has passed at once. -/
def deadline? (c : Config) : Option Deadline :=
  c.fireTimeoutMs.map fun ms => if ms = 0 then .past else .far

end Config

namespace Execution

variable {σ π τ : Type} [RuleStore σ]

/-- The text that callers see of failures whose detail is not for them. -/
def failedText : String := "rule execution failed"

/-- The handle of the result of a run. -/
def handle : ResultHandle := ⟨"result"⟩

/-- The facts that every session has, whatever the request. -/
def globals (c : Config) (label : String) : List Fact := [.logger label, .context c.context, .store]

/-- Run a program: insert the globals and the facts of the request, fire and dispose
of the session. -/
def run (d : Deployment π τ) (label : String) (program : π) (params : Json.Members) : Run τ :=
  match d.engine.begin program with
  | .error crash => ⟨none, .error (.failed crash.message)⟩
  | .ok session =>
    let session := (globals d.config label).foldl d.engine.insert session
    let (session, _) :=
      Binding.bind d.engine.insert (d.engine.groups program) params handle session
    let (session, fired) := d.engine.fire session d.config.deadline?
    let guarded := (Guarded.new session).dispose d.engine.dispose
    let answer := match fired with
      | .ok _ => .ok (d.engine.outcome guarded.session handle)
      | .error failure => .error (.failed failure.message)
    ⟨some guarded.session, answer⟩

/-- The run that follows a lookup; a lookup without program has none. -/
def runFound (d : Deployment π τ) (key : RuleKey) (params : Json.Members)
    (found : Except RuleError (Compiled π)) : Run τ :=
  match found with
  | .ok p => run d key.label p.program params
  | .error e => ⟨none, .error e⟩

/-- The result that a caller sees.  That a rule is not there is said in any case. -/
def respond (c : Config) (answer : Except RuleError Outcome) : Outcome :=
  match answer with
  | .ok o => o
  | .error e =>
    if e.isNotFound || c.exposeFailureDetail then .failure e.message else .failure failedText

/-- Execute a rule without another operation in between; none if the lookup waits for
a lock that another operation holds. -/
def execute (d : Deployment π τ) (w : Shared σ π) (key : RuleKey) (params : Json.Members) :
    Shared σ π × Option (Run τ) :=
  let (w, found) := Lookup.run d w key
  (w, found.map (runFound d key params))

end Execution

/-! ## Listing -/

namespace Listing

variable {σ : Type} [RuleStore σ]

/-- The stored rule with an identifier. -/
def get (store : σ) (id : RuleId) : Except RuleError (Option Definition) :=
  (RuleStore.findById store id).mapError .store

/-- A page of the stored rules; pages are counted from one and are no larger than
the settings allow.  A blank filter is none. -/
def page (c : Config) (store : σ) (number size : UInt32) (filter : Option String) :
    Except RuleError Page :=
  if number = 0 || size = 0 then .error (.invalid "page number and page size start at 1")
  else
    let size := min size (max c.maxPageSize 1)
    let filter := (filter.map Text.trim).filter fun s => !s.isEmpty
    (RuleStore.page store number size filter).mapError .store

end Listing

end Rulebook
