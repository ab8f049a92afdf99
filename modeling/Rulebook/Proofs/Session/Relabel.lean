/-
  Proofs/Session/Relabel.lean --- the name of the logger does not matter.

  A session hands its logger messages under the logger's name and does nothing else with
  that name.  So giving the logger another name commutes with everything that happens to a
  session, and leaves results as they are.
-/
import Rulebook.Session.Basic

set_option autoImplicit false

namespace Rulebook

/-! ## Effects -/

/-- A message under another logger. -/
def LogEntry.relabel (label : String) (entry : LogEntry) : LogEntry := { entry with logger := label }

namespace Effects

/-- Effects under another logger. -/
def relabel (label : String) (e : Effects) : Effects :=
  { e with logger := e.logger.map fun _ => label, log := e.log.map (·.relabel label) }

variable (label : String) (memory : Memory) (rule : String) (e : Effects)

theorem update_relabel (f : Outcome → Outcome) :
    (e.relabel label).update rule f = ((e.update rule f).1.relabel label, (e.update rule f).2) := by
  obtain ⟨result, logger, log⟩ := e
  cases result <;> rfl

theorem act_relabel (a : Action) :
    (e.relabel label).act memory rule a =
      ((e.act memory rule a).1.relabel label, (e.act memory rule a).2) := by
  cases a with
  | set key operand =>
      simp only [act]
      cases operandJson? memory operand with
      | none => rfl
      | some v => exact update_relabel label rule e _
  | fail message => exact update_relabel label rule e _
  | log message =>
      obtain ⟨result, logger, log⟩ := e
      cases logger with
      | none => rfl
      | some name => simp [act, relabel, LogEntry.relabel]

theorem actAll_relabel (actions : List Action) :
    (e.relabel label).actAll memory rule actions =
      ((e.actAll memory rule actions).1.relabel label, (e.actAll memory rule actions).2) := by
  induction actions generalizing e with
  | nil => rfl
  | cons a rest ih =>
      simp only [actAll, act_relabel]
      rcases e.act memory rule a with ⟨e', answer⟩
      cases answer with
      | error _ => rfl
      | ok _ => exact ih e'

end Effects

namespace Program

variable (label : String) (memory : Memory) (deadline : Option Deadline)

theorem activate_relabel (looked : Nat) (rules : List CompiledRule) (fired : Nat) (e : Effects) :
    activate memory deadline looked rules fired (e.relabel label) =
      ((activate memory deadline looked rules fired e).1.relabel label,
        (activate memory deadline looked rules fired e).2) := by
  induction rules generalizing fired e with
  | nil => rfl
  | cons r rest ih =>
      simp only [activate]
      split
      · rfl
      · rw [Effects.actAll_relabel]
        rcases e.actAll memory r.name r.actions with ⟨e', answer⟩
        cases answer with
        | error _ => rfl
        | ok _ => exact ih (fired + 1) e'

theorem fire_relabel (p : Program) (e : Effects) :
    p.fire memory deadline (e.relabel label) =
      ((p.fire memory deadline e).1.relabel label, (p.fire memory deadline e).2) := by
  unfold fire
  split
  · rfl
  · exact activate_relabel label memory deadline _ _ 0 e

end Program

/-! ## Sessions -/

/-- A fact under another logger. -/
def Fact.relabel (label : String) : Fact → Fact
  | .logger _ => .logger label
  | fact => fact

namespace Session

/-- A session under another logger. -/
def relabel (label : String) (s : Session) : Session :=
  { s with logger := s.logger.map fun _ => label, log := s.log.map (·.relabel label) }

variable (label : String) (s : Session)

theorem insert_relabel (fact : Fact) :
    (s.relabel label).insert (fact.relabel label) = (s.insert fact).relabel label := by
  by_cases hdisposed : s.disposed = true
  · have hrelabel : (s.relabel label).disposed = true := hdisposed
    rw [insert, if_pos hrelabel, insert, if_pos hdisposed]
  · have hrelabel : ¬ (s.relabel label).disposed = true := hdisposed
    rw [insert, if_neg hrelabel, insert, if_neg hdisposed]
    cases fact <;> rfl

theorem foldl_insert_relabel (facts : List Fact) :
    (facts.map (Fact.relabel label)).foldl insert (s.relabel label) =
      (facts.foldl insert s).relabel label := by
  induction facts generalizing s with
  | nil => rfl
  | cons fact rest ih =>
      rw [List.map_cons, List.foldl_cons, insert_relabel, ih, List.foldl_cons]

/-- What a firing pass works on. -/
def effects : Effects := ⟨s.result.map s.outcome, s.logger, s.log⟩

/-- A session after a firing pass. -/
def afterFiring (e : Effects) : Session :=
  { s with
    fired := true
    outcomes := match s.result, e.result with
      | some handle, some o => s.outcomes.put handle o
      | _, _ => s.outcomes
    log := e.log }

theorem fireAll_eq (hdisposed : ¬ s.disposed = true) (hfired : ¬ s.fired = true)
    (deadline : Option Deadline) :
    s.fireAll deadline =
      (s.afterFiring (s.program.fire s.memory deadline s.effects).1,
        (s.program.fire s.memory deadline s.effects).2) := by
  rw [fireAll, if_neg hdisposed, if_neg hfired]
  rfl

/-- A change of sessions that a firing pass does not touch, and that does not touch the pass,
can be made before firing or after it. -/
theorem fireAll_map {f : Session → Session} (hdisposed : (f s).disposed = s.disposed)
    (hfired : (f s).fired = s.fired) {deadline : Option Deadline}
    (hpass : (f s).afterFiring ((f s).program.fire (f s).memory deadline (f s).effects).1 =
      f (s.afterFiring (s.program.fire s.memory deadline s.effects).1))
    (hanswer : ((f s).program.fire (f s).memory deadline (f s).effects).2 =
      (s.program.fire s.memory deadline s.effects).2) :
    (f s).fireAll deadline = (f (s.fireAll deadline).1, (s.fireAll deadline).2) := by
  by_cases hgone : s.disposed = true
  · rw [fireAll, if_pos (hdisposed.trans hgone), fireAll, if_pos hgone]
  · have hgone' : ¬ (f s).disposed = true := hdisposed ▸ hgone
    by_cases hdone : s.fired = true
    · rw [fireAll, if_neg hgone', if_pos (hfired.trans hdone), fireAll, if_neg hgone, if_pos hdone]
    · have hdone' : ¬ (f s).fired = true := hfired ▸ hdone
      rw [fireAll_eq (f s) hgone' hdone', fireAll_eq s hgone hdone, hpass, hanswer]

theorem fireAll_relabel (deadline : Option Deadline) :
    (s.relabel label).fireAll deadline =
      ((s.fireAll deadline).1.relabel label, (s.fireAll deadline).2) := by
  have hfire : (s.relabel label).program.fire (s.relabel label).memory deadline
        (s.relabel label).effects =
      ((s.program.fire s.memory deadline s.effects).1.relabel label,
        (s.program.fire s.memory deadline s.effects).2) :=
    Program.fire_relabel label s.memory deadline s.program s.effects
  refine fireAll_map s rfl rfl ?_ ?_
  · rw [hfire]
    rfl
  · rw [hfire]

theorem dispose_relabel : (s.relabel label).dispose = s.dispose.relabel label := by
  by_cases hdisposed : s.disposed = true
  · have hrelabel : (s.relabel label).disposed = true := hdisposed
    rw [dispose, if_pos hrelabel, dispose, if_pos hdisposed]
  · have hrelabel : ¬ (s.relabel label).disposed = true := hdisposed
    rw [dispose, if_neg hrelabel, dispose, if_neg hdisposed]
    rfl

end Session

end Rulebook
