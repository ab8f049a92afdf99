/-
  Engine.lean --- what the service asks of a rule engine.

  An engine compiles texts into programs and runs sessions over them.  The service
  knows programs and sessions only through it.  `Engine.rules` is the engine of the
  rule language.
-/
import Rulebook.Binding.Basic
import Rulebook.Session.Basic

set_option autoImplicit false

namespace Rulebook

/-- A failure that escapes an engine, other than the errors it reports. -/
inductive Crash
  | text (message : String)
  /-- A failure that says nothing. -/
  | silent
deriving DecidableEq, Repr

/-- The message for a crash. -/
def Crash.message : Crash → String
  | .text message => "engine panicked: " ++ message
  | .silent => "engine panicked"

/-- Why a firing pass of an engine did not complete. -/
inductive FireFailure
  | error (e : FireError)
  | crash (c : Crash)
deriving DecidableEq, Repr

/-- The message for a failure. -/
def FireFailure.message : FireFailure → String
  | .error e => e.message
  | .crash c => c.message

/-- A rule engine with programs of type `π` and sessions of type `σ`. -/
structure Engine (π σ : Type) where
  /-- Compile a text. -/
  compile : String → Except Diagnostics π
  /-- The declared shapes of a program. -/
  groups : π → List ShapeGroup
  /-- Begin a session over a program. -/
  begin : π → Except Crash σ
  /-- Insert a fact. -/
  insert : σ → Fact → σ
  /-- Fire: the number of rules that acted. -/
  fire : σ → Option Deadline → σ × Except FireFailure Nat
  /-- Release what the session holds. -/
  dispose : σ → σ
  /-- The result under a handle, as its holder sees it. -/
  outcome : σ → ResultHandle → Outcome

/-- The engine of the rule language. -/
def Engine.rules : Engine Program Session where
  compile := Program.ofSource
  groups := Program.groups
  begin p := .ok (.new p)
  insert := Session.insert
  fire s deadline :=
    let (s, answer) := s.fireAll deadline
    (s, answer.mapError .error)
  dispose := Session.dispose
  outcome := Session.outcome

end Rulebook
