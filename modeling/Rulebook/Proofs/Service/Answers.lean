/-
  Proofs/Service/Answers.lean --- what an execution answers is all of a piece.

  A result is whole if its code is 0 or 1, if it has a message just when the code is 1, and
  if its payload, where there is one, is an object.  Actions keep a result whole, whatever
  they are and whoever runs them, so the result of a session is whole before, during and
  after a pass (`Session.Whole`).  But an execution only shows the result of a pass that
  went through.  If anything failed on the way, it answers with a fresh failure, and what
  actions had put into the result by then is dropped (`execution_whole`).
-/
import Rulebook.Proofs.Service.Transparency
import Rulebook.Proofs.Session.Agenda

set_option autoImplicit false

namespace Rulebook

/-! ## Results -/

namespace Outcome

/-- A result is all of a piece. -/
structure Whole (o : Outcome) : Prop where
  code : o.code = 0 ∨ o.code = 1
  message_iff : o.message.isSome = true ↔ o.code = 1
  data : o.data = none ∨ ∃ members, o.data = some (.object members)

theorem whole_success : success.Whole := ⟨Or.inl rfl, by decide, Or.inl rfl⟩

theorem whole_failure (message : String) : (failure message).Whole :=
  ⟨Or.inr rfl, by simp [failure], Or.inl rfl⟩

variable {o : Outcome}

theorem Whole.put (h : o.Whole) (key : String) (value : Json) : (o.put key value).Whole :=
  ⟨h.code, h.message_iff, Or.inr ⟨_, rfl⟩⟩

theorem Whole.fail (h : o.Whole) (message : String) : (o.fail message).Whole :=
  ⟨Or.inr rfl, by simp [Outcome.fail], h.data⟩

end Outcome

/-! ## Passes -/

namespace Effects

variable {e : Effects}

/-- The result that actions work on is whole, if there is one. -/
def Whole (e : Effects) : Prop := ∀ o, e.result = some o → o.Whole

theorem Whole.update (h : e.Whole) (rule : String) {f : Outcome → Outcome}
    (hf : ∀ o, o.Whole → (f o).Whole) : (e.update rule f).1.Whole := by
  unfold Effects.update
  split
  · rename_i o ho
    intro changed hchanged
    obtain rfl := Option.some.inj hchanged
    exact hf o (h o ho)
  · exact h

theorem Whole.act (h : e.Whole) (memory : Memory) (rule : String) (a : Action) :
    (e.act memory rule a).1.Whole := by
  cases a with
  | set key operand =>
      simp only [Effects.act]
      split
      · exact h.update rule fun o ho => ho.put key _
      · exact h
  | fail message => exact h.update rule fun o ho => ho.fail message
  | log message =>
      simp only [Effects.act]
      split <;> exact h

theorem Whole.actAll (h : e.Whole) (memory : Memory) (rule : String) (actions : List Action) :
    (e.actAll memory rule actions).1.Whole := by
  induction actions generalizing e with
  | nil => exact h
  | cons a rest ih =>
      have ha := h.act memory rule a
      rw [Effects.actAll]
      split
      · rename_i after hafter
        rw [hafter] at ha
        exact ih ha
      · rename_i after err hafter
        rwa [hafter] at ha

theorem Whole.activate (h : e.Whole) (memory : Memory) (deadline : Option Deadline)
    (looked : Nat) (acting : List CompiledRule) (fired : Nat) :
    (Program.activate memory deadline looked acting fired e).1.Whole := by
  induction acting generalizing fired e with
  | nil => exact h
  | cons r rest ih =>
      have hr := h.actAll memory r.name r.actions
      rw [Program.activate]
      split
      · exact h
      · split
        · rename_i after hafter
          rw [hafter] at hr
          exact ih hr (fired + 1)
        · rename_i after err hafter
          rwa [hafter] at hr

theorem Whole.fire (h : e.Whole) (p : Program) (memory : Memory) (deadline : Option Deadline) :
    (p.fire memory deadline e).1.Whole := by
  unfold Program.fire
  split
  · exact h
  · exact h.activate memory deadline _ _ 0

end Effects

/-! ## Sessions -/

namespace Session

variable {s : Session}

/-- The results that a session holds are whole. -/
def Whole (s : Session) : Prop := ∀ handle, (s.outcome handle).Whole

theorem whole_new (p : Program) : (new p).Whole := fun _ => Outcome.whole_success

theorem outcomes_insert (s : Session) (fact : Fact) : (s.insert fact).outcomes = s.outcomes := by
  unfold insert
  split
  · rfl
  · cases fact <;> rfl

theorem Whole.insert (h : s.Whole) (fact : Fact) : (s.insert fact).Whole := by
  intro handle
  rw [outcome, outcomes_insert]
  exact h handle

theorem Whole.foldl_insert (h : s.Whole) (facts : List Fact) :
    (facts.foldl Session.insert s).Whole := by
  induction facts generalizing s with
  | nil => exact h
  | cons fact rest ih => exact ih (h.insert fact)

theorem Whole.afterFiring (h : s.Whole) {e : Effects} (he : e.Whole) :
    (s.afterFiring e).Whole := by
  intro handle
  unfold Session.afterFiring outcome
  simp only
  split
  · rename_i own o hown ho
    rw [Table.get?_put]
    split
    · exact he o ho
    · exact h handle
  · exact h handle

theorem Whole.fireAll (h : s.Whole) (deadline : Option Deadline) :
    (s.fireAll deadline).1.Whole := by
  by_cases hdisposed : s.disposed = true
  · rw [Session.fireAll, if_pos hdisposed]
    exact h
  · by_cases hfired : s.fired = true
    · rw [Session.fireAll, if_neg hdisposed, if_pos hfired]
      exact h
    · rw [s.fireAll_eq hdisposed hfired]
      have hstart : s.effects.Whole := by
        intro o ho
        obtain ⟨handle, -, rfl⟩ := Option.map_eq_some_iff.mp ho
        exact h handle
      exact h.afterFiring (hstart.fire s.program s.memory deadline)

theorem outcome_dispose (s : Session) (handle : ResultHandle) :
    s.dispose.outcome handle = s.outcome handle := by
  unfold dispose
  split <;> rfl

end Session

/-! ## Runs -/

namespace Execution

variable (c : Config)

theorem whole_bound (label : String) (p : Program) (params : Json.Members) :
    (bound c label p params).Whole :=
  ((Session.whole_new p).foldl_insert _).foldl_insert _

/-- What an execution answers, once its lookup has. -/
def outcomeFound {π τ : Type} (d : Deployment π τ) (key : RuleKey) (params : Json.Members)
    (found : Except RuleError (Compiled π)) : Outcome :=
  respond d.config (runFound d key params found).answer

/-- An error is answered with a failure, which tells it if it may. -/
theorem respond_error (e : RuleError) :
    respond c (.error e) =
      .failure (if e.isNotFound || c.exposeFailureDetail then e.message else failedText) := by
  simp only [respond]
  split <;> rfl

/-- A pass that went through is answered with the result, and any other with a failure. -/
theorem respond_finish (fired : Session × Except FireError Nat) :
    respond c (finish fired).answer =
      match fired.2 with
      | .ok _ => fired.1.outcome handle
      | .error e => respond c (.error (.failed e.message)) := by
  obtain ⟨after, n | e⟩ := fired
  · rfl
  · exact after.outcome_dispose handle

end Execution

/-! ## Commands -/

namespace Uncached

variable {π τ : Type} {d : Deployment π τ} {s : MemoryStore} {key : RuleKey} {e : RuleError}

/-- A rule has no program if it is not there, or if its text does not compile. -/
theorem program_error (h : program d s key = .error e) :
    e = .notFound key ∨ ∃ id diagnostics, e = .uncompilable id diagnostics := by
  unfold program at h
  split at h
  · exact Or.inl (Except.error.inj h).symm
  · rename_i id rule _
    cases hcompile : d.engine.compile rule.source with
    | ok p => simp [hcompile, Except.mapError] at h
    | error diagnostics =>
        rw [hcompile] at h
        exact Or.inr ⟨id, diagnostics, (Except.error.inj h).symm⟩

end Uncached

namespace Facade

open Execution

/-- **Executions answer with whole results.**  Callers ask the service over the rule language
for whatever they like, one after the other, starting on an empty store.  With any settings
and under any clock, an execution of any rule comes to an answer; and if it finds no program,
the rule is not there or its text does not compile.  Whatever its lookup finds, the answer is
whole.  If there is no program, or the pass fails, the answer is a failure without payload,
and unless the settings expose more it says no more than that the rule is not there, or that
the execution failed.  If the pass goes through, the answer is what it made of the result. -/
theorem execution_whole (clock : Session → Option Deadline → Option Deadline) (c : Config)
    (commands : List Command) (key : RuleKey) (params : Json.Members) :
    let d : Deployment Program Session := ⟨.clocked clock, c⟩
    let w := (performAll d (.start .empty) commands).1
    (∃ w' found, Lookup.run d w key = (w', some found) ∧
      perform d w (.execute key params) =
        (w', some (.executed (outcomeFound d key params found))) ∧
      ∀ e, found = .error e →
        e = .notFound key ∨ ∃ id diagnostics, e = .uncompilable id diagnostics) ∧
    ∀ found,
      (outcomeFound d key params found).Whole ∧
      (∀ e, found = .error e → ∃ text, outcomeFound d key params found = .failure text ∧
        (c.exposeFailureDetail = false →
          text = failedText ∨ ∃ other, e = .notFound other ∧ text = e.message)) ∧
      ∀ p, found = .ok p →
        let session := bound c key.label p.program params
        let fired := session.fireAll (clock session c.deadline?)
        (∀ e, fired.2 = .error e → ∃ text, outcomeFound d key params found = .failure text ∧
          (c.exposeFailureDetail = false → text = failedText)) ∧
        (∀ n, fired.2 = .ok n → outcomeFound d key params found = fired.1.outcome handle) := by
  intro d w
  refine ⟨?_, fun found => ?_⟩
  · obtain ⟨reached, hall, -, hcoherent⟩ := performAll_eq (Shared.coherent_start d) commands
    have hw : w = reached := congrArg Prod.fst hall
    rw [hw]
    obtain ⟨w', found, hrun, -, -, hfound⟩ := Lookup.run_eq hcoherent key
    refine ⟨w', found, hrun, ?_, ?_⟩
    · rw [perform, execute, hrun]
      rfl
    · rintro e rfl
      exact Uncached.program_error hfound.symm
  · cases found with
    | error e =>
        have houtcome : outcomeFound d key params (.error e) = _ := respond_error c e
        rw [houtcome]
        refine ⟨Outcome.whole_failure _, ?_, fun p hp => by cases hp⟩
        rintro _ ⟨⟩
        refine ⟨_, rfl, fun hhidden => ?_⟩
        rw [hhidden, Bool.or_false]
        cases e with
        | notFound other => exact Or.inr ⟨other, rfl, rfl⟩
        | _ => exact Or.inl rfl
    | ok p =>
        have houtcome : outcomeFound d key params (.ok p) = _ :=
          congrArg (fun r : Run Session => respond c r.answer)
            (run_clocked clock c key.label p.program params)
        rw [houtcome, respond_finish]
        have hwhole := (whole_bound c key.label p.program params).fireAll
          (clock (bound c key.label p.program params) c.deadline?)
        refine ⟨?_, fun e he => (by cases he), ?_⟩
        · split
          · exact hwhole handle
          · rw [respond_error]
            exact Outcome.whole_failure _
        · rintro _ ⟨⟩
          refine ⟨fun e he => ?_, fun n hn => ?_⟩
          · rw [he]
            refine ⟨_, respond_error c (.failed e.message), fun hhidden => ?_⟩
            rw [hhidden]
            rfl
          · rw [hn]

/-- A text of two rules that put something into the payload. -/
def halved : String :=
  "rule first:params.x>0 then set k=1\nrule second:params.x>0 then set g=2 fail \"late\""

/-- The rules of `halved`. -/
def halvedRules : List Rule :=
  [⟨"first", .compare ⟨["params", "x"]⟩ .greater (.int 0), none, [.set "k" (.literal (.int 1))]⟩,
    ⟨"second", .compare ⟨["params", "x"]⟩ .greater (.int 0), none,
      [.set "g" (.literal (.int 2)), .fail "late"]⟩]

/-- The program of `halved`. -/
def halvedProgram : Program :=
  .lower [⟨Package.defaultName, [], halvedRules⟩] (Digest.ofText halved)

/-- The rule `halved` is saved. -/
def halvedSaved : List Command := [.save (.new "door" halved) ⟨0, 0⟩]

theorem execution_whole_halved :
    let d : Deployment Program Session := ⟨.clocked hasty, unverified⟩
    let fired := (bound unverified "door" halvedProgram request).fireAll (some ⟨some 3⟩)
    fired.2 = .error (.deadlineExceeded 1) ∧ (fired.1.outcome handle).data ≠ none ∧
      (perform d (performAll d (.start .empty) halvedSaved).1
        (.execute (.name "door") request)).2 = some (.executed (.failure failedText)) := by
  intro d fired
  let stored : Definition := ⟨some ⟨1⟩, "door", none, halved, some ⟨0, 0⟩, some ⟨0, 0⟩⟩
  have hread : Source.packages halved.toList = .ok [⟨Package.defaultName, [], halvedRules⟩] := by
    decide +kernel
  have hdefects : Program.defects [⟨Package.defaultName, [], halvedRules⟩] = [] := by decide +kernel
  have hcompile : Program.ofSource halved = .ok halvedProgram :=
    Program.ofSource_of_packages hread hdefects
  have hagenda : halvedProgram.agenda = [0, 1] :=
    (Program.agendaOf_eq (.refl _) (by decide +kernel) (by decide +kernel)).trans
      (by decide +kernel)
  have hprogram : halvedProgram = { halvedProgram with agenda := [0, 1] } :=
    congrArg (fun agenda => { halvedProgram with agenda }) hagenda
  have hlate : fired.2 = .error (.deadlineExceeded 1) := by
    simp only [fired]
    rw [hprogram]
    decide +kernel
  have hwritten : (fired.1.outcome handle).data =
      some (.object [("k", .number (.int 1))]) := by
    simp only [fired]
    rw [hprogram]
    decide +kernel
  obtain ⟨⟨w', found, hrun, hperform, -⟩, hanswers⟩ :=
    execution_whole hasty unverified halvedSaved (.name "door") request
  obtain ⟨p, hp, hprogram⟩ : ∃ p, found = .ok p ∧ p.program = halvedProgram := by
    obtain ⟨w, hall, -, hw⟩ := performAll_eq (Shared.coherent_start d) halvedSaved
    obtain rfl : (performAll d (.start .empty) halvedSaved).1 = w := congrArg Prod.fst hall
    obtain ⟨w'', found', hrun', -, -, hfound⟩ := Lookup.run_eq hw (.name "door")
    obtain ⟨-, hsame⟩ := Prod.mk.inj (hrun'.symm.trans hrun)
    obtain rfl := Option.some.inj hsame
    have hentry : Uncached.entry? (performAll d (.start .empty) halvedSaved).1.store
        (.name "door") = some (⟨1⟩, stored) := rfl
    have hprogram : Uncached.program d (performAll d (.start .empty) halvedSaved).1.store
        (.name "door") = .ok halvedProgram := by
      simp only [Uncached.program, hentry]
      exact congrArg (Except.mapError (RuleError.uncompilable ⟨1⟩)) hcompile
    rw [hprogram] at hfound
    cases found' with
    | error e => cases hfound
    | ok p => exact ⟨p, rfl, Except.ok.inj hfound⟩
  obtain ⟨-, -, hpass⟩ := hanswers found
  obtain ⟨herror, -⟩ := hpass p hp
  rw [hprogram] at herror
  obtain ⟨text, htext, hhidden⟩ := herror _ hlate
  refine ⟨hlate, by simp [hwritten], ?_⟩
  rw [hperform, htext, hhidden rfl]

end Facade

end Rulebook
