/-
  Session/Basic.lean --- sessions over a program.

  A session takes facts in, fires once and is disposed of.  Facts are flattened into
  working memory; the result, the logger and the store are kept aside.  A disposed
  session takes nothing in and fires no more; what callers keep under a result
  handle stays theirs.
-/
import Rulebook.Fact.Basic
import Rulebook.Session.Firing

set_option autoImplicit false

namespace Rulebook

/-- A session over a program. -/
structure Session where
  /-- The program. -/
  program : Program
  /-- The flattened facts. -/
  memory : Memory
  /-- Where actions put the result. -/
  result : Option ResultHandle
  /-- The name of the logger. -/
  logger : Option String
  /-- Whether the session has access to the stored rules. -/
  hasStore : Bool
  /-- The number of facts taken in. -/
  facts : Nat
  /-- Whether the session has fired. -/
  fired : Bool
  /-- Whether the session is disposed of. -/
  disposed : Bool
  /-- The results by handle, as their holders see them. -/
  outcomes : Table ResultHandle Outcome
  /-- The messages that the logger was handed. -/
  log : List LogEntry

namespace Session

/-- A fresh session. -/
def new (program : Program) : Session where
  program := program
  memory := .empty
  result := none
  logger := none
  hasStore := false
  facts := 0
  fired := false
  disposed := false
  outcomes := []
  log := []

/-- The result under a handle; a success until actions change it. -/
def outcome (s : Session) (handle : ResultHandle) : Outcome :=
  (s.outcomes.get? handle).getD .success

/-- The writes of members below a root. -/
def rootWrites (root : String) (members : Json.Members) : List Write :=
  Write.ofMembers (Path.ofString root) members

/-- Take a fact in. -/
def insert (s : Session) (fact : Fact) : Session :=
  if s.disposed then s
  else
    let s := { s with facts := s.facts + 1 }
    match fact with
    | .record i => { s with memory := s.memory.write (Write.ofInstance i) }
    | .params members => { s with memory := s.memory.write (rootWrites "params" members) }
    | .result handle => { s with result := some handle }
    | .logger rule => { s with logger := some rule }
    | .context members => { s with memory := s.memory.write (rootWrites "context" members) }
    | .store => { s with hasStore := true }

/-- Fire: the number of rules that acted. -/
def fireAll (s : Session) (deadline : Option Deadline) : Session × Except FireError Nat :=
  if s.disposed then (s, .error .disposed)
  else if s.fired then (s, .error .alreadyFired)
  else
    let start : Effects := ⟨s.result.map s.outcome, s.logger, s.log⟩
    let (e, answer) := s.program.fire s.memory deadline start
    let outcomes := match s.result, e.result with
      | some handle, some o => s.outcomes.put handle o
      | _, _ => s.outcomes
    ({ s with fired := true, outcomes, log := e.log }, answer)

/-- Dispose of the session. -/
def dispose (s : Session) : Session :=
  if s.disposed then s
  else
    { s with
      disposed := true
      memory := .empty
      result := none
      logger := none
      hasStore := false }

end Session

/-! ## Guards -/

/-- A session with its owner, who disposes of it once. -/
structure Guarded (σ : Type) where
  /-- The session. -/
  session : σ
  /-- Whether the owner has disposed of it. -/
  disposed : Bool

namespace Guarded

variable {σ : Type}

/-- Take a session over. -/
def new (session : σ) : Guarded σ := ⟨session, false⟩

/-- Dispose of the session unless that was done before. -/
def dispose (disposeOf : σ → σ) (g : Guarded σ) : Guarded σ :=
  if g.disposed then g else ⟨disposeOf g.session, true⟩

end Guarded

end Rulebook
