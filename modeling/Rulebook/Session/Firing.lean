/-
  Session/Firing.lean --- one firing pass over working memory.

  A pass first decides which rules hold, in the order of evaluation, and then runs
  the actions of those that hold, in the order of the agenda.  It stops at the
  first action that needs a result where there is none, and when its deadline has
  passed; what earlier actions did remains done.
-/
import Rulebook.Fact.Memory
import Rulebook.Outcome
import Rulebook.Program.Basic

set_option autoImplicit false

namespace Rulebook

/-! ## Conditions -/

/-- Whether a condition holds, given the values at paths and which rules hold.  A
comparison without a value at its path does not hold, nor does one with a value
that is not comparable. -/
def Condition.holds (value? : Path → Option Value) (rule : String → Bool) : Condition → Bool
  | .compare path op literal => ((value? path).bind (Value.compare? op · literal)).getD false
  | .rule name => rule name
  | .and l r => l.holds value? rule && r.holds value? rule
  | .or l r => l.holds value? rule || r.holds value? rule
  | .not e => !e.holds value? rule

namespace Program

/-- Whether a rule is known to hold. -/
def verdict (p : Program) (verdicts : Array Bool) (name : String) : Bool :=
  ((p.positions.get? name).bind fun i => verdicts[i]?).getD false

/-- Which rules hold, by position. -/
def verdicts (p : Program) (memory : Memory) : Array Bool :=
  p.rules.foldl
    (fun found r =>
      found.setIfInBounds r.index (r.condition.holds memory.get? (p.verdict found)))
    (Array.replicate p.rules.length false)

end Program

/-! ## Deadlines -/

/-- A deadline as a firing pass meets it: how many looks at the clock come before it
has passed, or none if it is too far away for any pass. -/
structure Deadline where
  /-- The number of looks. -/
  looks : Option Nat
deriving DecidableEq, Repr

namespace Deadline

/-- A deadline that has passed. -/
def past : Deadline := ⟨some 0⟩

/-- A deadline that no pass reaches. -/
def far : Deadline := ⟨none⟩

/-- Whether a deadline, if there is one, has passed at a look; the looks are counted
from zero. -/
def passed (deadline : Option Deadline) (look : Nat) : Bool :=
  match deadline with
  | some ⟨some n⟩ => n ≤ look
  | _ => false

end Deadline

/-- Why a session did not complete a firing pass. -/
inductive FireError
  | alreadyFired
  | disposed
  | deadlineExceeded (fired : Nat)
  | failed (rule message : String)
deriving DecidableEq, Repr

/-- The message for an error. -/
def FireError.message : FireError → String
  | .alreadyFired => "session has already fired"
  | .disposed => "session has been disposed"
  | .deadlineExceeded fired =>
    "firing exceeded its deadline after " ++ toString fired ++ " activations"
  | .failed rule message => "rule '" ++ rule ++ "' failed: " ++ message

/-! ## Actions -/

/-- A message that a log action handed to a logger. -/
structure LogEntry where
  /-- The rule that the logger is named for. -/
  logger : String
  /-- The rule whose action it was. -/
  firedBy : String
  /-- The message. -/
  message : String
deriving DecidableEq, Repr

/-- What actions work on. -/
structure Effects where
  /-- The result, if the session has one. -/
  result : Option Outcome
  /-- The name of the logger, if the session has one. -/
  logger : Option String
  /-- The messages so far. -/
  log : List LogEntry
deriving DecidableEq

namespace Effects

/-- Change the result; an error of the rule if there is none. -/
def update (e : Effects) (rule : String) (f : Outcome → Outcome) :
    Effects × Except FireError Unit :=
  match e.result with
  | some o => ({ e with result := some (f o) }, .ok ())
  | none => (e, .error (.failed rule "no result fact in session"))

/-- The value of an operand as JSON; none for a path without a value. -/
def operandJson? (memory : Memory) : Operand → Option Json
  | .literal v => some v.toJson
  | .path p => (memory.get? p).map Value.toJson

/-- Run an action of a rule.  A set action without a value does nothing. -/
def act (memory : Memory) (rule : String) (e : Effects) : Action → Effects × Except FireError Unit
  | .set key operand =>
    match operandJson? memory operand with
    | some v => e.update rule (·.put key v)
    | none => (e, .ok ())
  | .fail message => e.update rule (·.fail message)
  | .log message =>
    match e.logger with
    | some name => ({ e with log := e.log ++ [⟨name, rule, message⟩] }, .ok ())
    | none => (e, .ok ())

/-- Run the actions of a rule up to the first that fails. -/
def actAll (memory : Memory) (rule : String) (e : Effects) :
    List Action → Effects × Except FireError Unit
  | [] => (e, .ok ())
  | a :: rest =>
    match e.act memory rule a with
    | (e, .ok ()) => actAll memory rule e rest
    | (e, .error err) => (e, .error err)

end Effects

namespace Program

/-- Run the actions of rules of which `fired` have run before. -/
def activate (memory : Memory) (deadline : Option Deadline) (looked : Nat) :
    List CompiledRule → Nat → Effects → Effects × Except FireError Nat
  | [], fired, e => (e, .ok fired)
  | r :: rest, fired, e =>
    if Deadline.passed deadline (looked + fired) then (e, .error (.deadlineExceeded fired))
    else
      match e.actAll memory r.name r.actions with
      | (e, .ok ()) => activate memory deadline looked rest (fired + 1) e
      | (e, .error err) => (e, .error err)

/-- The rules that act, in the order of the agenda. -/
def activations (p : Program) (memory : Memory) : List CompiledRule :=
  let found := p.verdicts memory
  (p.agenda.filter fun i => found[i]?.getD false).filterMap fun i => p.rules[i]?

/-- One firing pass: the effects and the number of rules that acted.  The clock is
looked at before each rule is decided and before each rule acts; once past, a
deadline stays past, so of the first looks the last one decides. -/
def fire (p : Program) (memory : Memory) (deadline : Option Deadline) (e : Effects) :
    Effects × Except FireError Nat :=
  if p.rules ≠ [] ∧ Deadline.passed deadline (p.rules.length - 1) then
    (e, .error (.deadlineExceeded 0))
  else activate memory deadline p.rules.length (p.activations memory) 0 e

end Program

end Rulebook
