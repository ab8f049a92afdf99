/-
  Proofs/Session/LifeCycle.lean --- what any sequence of calls makes of a session.

  A session has two flags, and its guard has a third one.  The calls that set them can be made
  in any order, also behind the back of the guard.  What the flags say after a sequence of calls
  is a property of the sequence (`Tells`): whether something in it disposes of the session,
  whether something fires it, and whether the guard is among what disposes.  Each call keeps
  that property, so it holds after every sequence, and all else is read from it.

  The guard is told apart from others by counting what it does (`Watched`).
-/
import Rulebook.Proofs.Program.Arrangement
import Rulebook.Proofs.Session.Relabel

set_option autoImplicit false

namespace Rulebook

namespace Session

/-! ## Firing passes -/

/-- What a firing pass over the session does. -/
def pass (s : Session) (deadline : Option Deadline) : Effects × Except FireError Nat :=
  s.program.fire s.memory deadline s.effects

end Session

/-- The answer of a session that does not fire. -/
def FireError.Refuses : FireError → Prop
  | .alreadyFired | .disposed => True
  | .deadlineExceeded _ | .failed .. => False

instance : DecidablePred FireError.Refuses
  | .alreadyFired | .disposed => instDecidableTrue
  | .deadlineExceeded _ | .failed .. => instDecidableFalse

/-- The answer is that of a firing pass. -/
def Fired (answer : Except FireError Nat) : Prop := ∀ e, answer = .error e → ¬ e.Refuses

instance : DecidablePred Fired
  | .ok _ => isTrue (by simp [Fired])
  | .error e => decidable_of_iff (¬ e.Refuses) (by simp [Fired])

theorem Effects.update_fired (e : Effects) (rule : String) (f : Outcome → Outcome) {err : FireError}
    (h : (e.update rule f).2 = .error err) : ¬ err.Refuses := by
  unfold update at h
  split at h <;> cases h
  exact id

theorem Effects.act_fired (memory : Memory) (rule : String) (e : Effects) (a : Action)
    {err : FireError} (h : (e.act memory rule a).2 = .error err) : ¬ err.Refuses := by
  unfold act at h
  split at h
  · split at h
    · exact update_fired e rule _ h
    · cases h
  · exact update_fired e rule _ h
  · split at h <;> cases h

theorem Effects.actAll_fired (memory : Memory) (rule : String) (e : Effects)
    (actions : List Action) {err : FireError}
    (h : (e.actAll memory rule actions).2 = .error err) : ¬ err.Refuses := by
  induction actions generalizing e with
  | nil => cases h
  | cons a rest ih =>
      have hact := @act_fired memory rule e a err
      unfold actAll at h
      rcases heq : e.act memory rule a with ⟨e', answer⟩
      rw [heq] at h hact
      cases answer with
      | ok _ => exact ih e' h
      | error other => exact hact h

theorem Program.activate_fired (memory : Memory) (deadline : Option Deadline) (looked : Nat)
    (rules : List CompiledRule) (fired : Nat) (e : Effects) :
    Fired (activate memory deadline looked rules fired e).2 := by
  induction rules generalizing fired e with
  | nil =>
      intro err h
      cases h
  | cons r rest ih =>
      intro err h
      unfold activate at h
      split at h
      · cases h
        exact id
      · have hact := @Effects.actAll_fired memory r.name e r.actions err
        rcases heq : e.actAll memory r.name r.actions with ⟨e', answer⟩
        rw [heq] at h hact
        cases answer with
        | ok _ => exact ih (fired + 1) e' err h
        | error other =>
            cases h
            exact hact rfl

/-- A pass that ends in an error is no refusal to fire. -/
theorem Program.fire_fired (p : Program) (memory : Memory) (deadline : Option Deadline)
    (e : Effects) : Fired (p.fire memory deadline e).2 := by
  unfold fire
  split
  · intro err h
    cases h
    exact id
  · exact activate_fired memory deadline _ _ 0 e

namespace Session

/-! ## Calls on a guarded session -/

/-- A session and how often its guard disposed of it. -/
structure Watched where
  /-- The session. -/
  session : Session
  /-- The number of times. -/
  disposals : Nat

/-- A call on a guarded session. -/
inductive Call
  /-- Take a fact in. -/
  | insert (fact : Fact)
  /-- Fire. -/
  | fire (deadline : Option Deadline)
  /-- Dispose of the session through its guard, as the guard does when it is dropped. -/
  | dispose
  /-- Dispose of the session itself. -/
  | disposeInner

namespace Call

/-- The call fires. -/
def fires : Call → Bool
  | .fire _ => true
  | _ => false

/-- The call is for the guard. -/
def isDispose : Call → Bool
  | .dispose => true
  | _ => false

/-- The call disposes of the session. -/
def disposes : Call → Bool
  | .dispose | .disposeInner => true
  | _ => false

end Call

end Session

open Session

namespace Guarded

/-- A new session under a guard; results and messages are those of its surroundings. -/
def start (program : Program) (outcomes : Table ResultHandle Outcome) (log : List LogEntry) :
    Guarded Watched :=
  .new ⟨{ Session.new program with outcomes, log }, 0⟩

/-- The session under the guard. -/
def inner (g : Guarded Watched) : Session := g.session.session

/-- Change the session without asking the guard. -/
def reach (f : Session → Session) (g : Guarded Watched) : Guarded Watched :=
  { g with session := { g.session with session := f g.inner } }

@[simp] theorem inner_reach (f : Session → Session) (g : Guarded Watched) :
    (g.reach f).inner = f g.inner := rfl

theorem reach_eq_self {f : Session → Session} {g : Guarded Watched} (h : f g.inner = g.inner) :
    g.reach f = g := by
  unfold reach
  rw [h]
  rfl

@[simp] theorem disposed_reach (f : Session → Session) (g : Guarded Watched) :
    (g.reach f).disposed = g.disposed := rfl

/-- Dispose of the session and count it. -/
def release (w : Watched) : Watched := ⟨w.session.dispose, w.disposals + 1⟩

/-- Make a call; only firing has an answer. -/
def perform (g : Guarded Watched) : Call → Guarded Watched × Option (Except FireError Nat)
  | .insert fact => (g.reach (·.insert fact), none)
  | .fire deadline =>
    (g.reach fun s => (s.fireAll deadline).1, some (g.inner.fireAll deadline).2)
  | .dispose => (g.dispose release, none)
  | .disposeInner => (g.reach Session.dispose, none)

/-- Make calls one after the other. -/
def after (g : Guarded Watched) (calls : List Call) : Guarded Watched :=
  calls.foldl (fun g c => (g.perform c).1) g

/-- The answers to calls. -/
def answers (g : Guarded Watched) : List Call → List (Except FireError Nat)
  | [] => []
  | c :: calls => (g.perform c).2.toList ++ (g.perform c).1.answers calls

/-! ## What the calls tell -/

/-- What a sequence of calls tells of a guarded session. -/
structure Tells (calls : List Call) (g : Guarded Watched) : Prop where
  /-- The session is disposed of if some call did it. -/
  disposed : g.inner.disposed = calls.any Call.disposes
  /-- A session that is not disposed of has fired if some call was to fire. -/
  fired : g.inner.disposed = false → g.inner.fired = calls.any Call.fires
  /-- A session that is disposed of holds nothing. -/
  emptied : g.inner.disposed = true → g.inner.memory = .empty ∧ g.inner.hasStore = false
  /-- The guard knows what it was called for. -/
  guard : g.disposed = calls.any Call.isDispose
  /-- The guard disposed of the session once if it was called at all. -/
  once : g.session.disposals = if g.disposed then 1 else 0

theorem tells_start (program : Program) (outcomes : Table ResultHandle Outcome)
    (log : List LogEntry) : Tells [] (start program outcomes log) where
  disposed := rfl
  fired _ := rfl
  emptied h := by cases h
  guard := rfl
  once := rfl

section

variable {calls : List Call} {g : Guarded Watched}

/-- Whether a session has fired does not matter once it is disposed of. -/
theorem Tells.of_disposed (hdisposed : g.inner.disposed = true)
    (hcalls : calls.any Call.disposes = true)
    (hemptied : g.inner.memory = .empty ∧ g.inner.hasStore = false)
    (hguard : g.disposed = calls.any Call.isDispose)
    (honce : g.session.disposals = if g.disposed then 1 else 0) : Tells calls g where
  disposed := hdisposed.trans hcalls.symm
  fired hopen := by
    rw [hdisposed] at hopen
    cases hopen
  emptied _ := hemptied
  guard := hguard
  once := honce

/-- A call that the guard does not see tells what it does to the session. -/
theorem Tells.reach (h : Tells calls g) {c : Call} (hc : c.isDispose = false)
    {f : Session → Session} (hdisposed : (f g.inner).disposed = (g.inner.disposed || c.disposes))
    (hfired : (f g.inner).disposed = false → (f g.inner).fired = (g.inner.fired || c.fires))
    (hemptied : (f g.inner).disposed = true →
      (f g.inner).memory = .empty ∧ (f g.inner).hasStore = false) :
    Tells (calls ++ [c]) (g.reach f) where
  disposed := by
    rw [List.any_append, ← h.disposed]
    simpa using hdisposed
  fired hopen := by
    have hbefore : g.inner.disposed = false := by
      have hopen' := hdisposed.symm.trans hopen
      simp_all
    rw [List.any_append, ← h.fired hbefore]
    simpa using hfired hopen
  emptied := hemptied
  guard := by
    rw [List.any_append, ← h.guard]
    simp [hc]
  once := h.once

theorem insert_of_disposed {s : Session} (h : s.disposed = true) (fact : Fact) :
    s.insert fact = s := by
  rw [Session.insert, if_pos h]

/-- Taking in a fact sets no flag. -/
theorem insert_flags (s : Session) (fact : Fact) :
    (s.insert fact).disposed = s.disposed ∧ (s.insert fact).fired = s.fired := by
  unfold Session.insert
  split
  · exact ⟨rfl, rfl⟩
  · cases fact <;> exact ⟨rfl, rfl⟩

theorem fireAll_disposed (s : Session) (deadline : Option Deadline) :
    (s.fireAll deadline).1.disposed = s.disposed := by
  unfold Session.fireAll
  split
  · rfl
  · split <;> rfl

theorem fireAll_fired {s : Session} (h : s.disposed = false) (deadline : Option Deadline) :
    (s.fireAll deadline).1.fired = true := by
  rw [Session.fireAll, if_neg (by simp [h])]
  split
  · assumption
  · rfl

theorem fireAll_of_disposed {s : Session} (h : s.disposed = true) (deadline : Option Deadline) :
    s.fireAll deadline = (s, .error .disposed) := by
  rw [Session.fireAll, if_pos h]

theorem dispose_disposed (s : Session) : s.dispose.disposed = true := by
  unfold Session.dispose
  split
  · assumption
  · rfl

theorem dispose_emptied {s : Session}
    (h : s.disposed = true → s.memory = .empty ∧ s.hasStore = false) :
    s.dispose.memory = .empty ∧ s.dispose.hasStore = false := by
  unfold Session.dispose
  split
  · rename_i hdisposed
    exact h hdisposed
  · exact ⟨rfl, rfl⟩

/-- What has happened to a session decides what firing it does. -/
theorem Tells.fireAll_eq (h : Tells calls g) (deadline : Option Deadline) :
    g.inner.fireAll deadline =
      if calls.any Call.disposes then (g.inner, .error .disposed)
      else if calls.any Call.fires then (g.inner, .error .alreadyFired)
      else (g.inner.afterFiring (g.inner.pass deadline).1, (g.inner.pass deadline).2) := by
  split
  · rename_i hdisposes
    have hdisposed : g.inner.disposed = true := h.disposed.trans hdisposes
    rw [Session.fireAll, if_pos hdisposed]
  · rename_i hdisposes
    have hopen : g.inner.disposed = false := h.disposed.trans (by simpa using hdisposes)
    split
    · rename_i hfires
      have hfired : g.inner.fired = true := (h.fired hopen).trans hfires
      rw [Session.fireAll, if_neg (by simp [hopen]), if_pos hfired]
    · rename_i hfires
      have hfresh : g.inner.fired = false := (h.fired hopen).trans (by simpa using hfires)
      exact Session.fireAll_eq g.inner (by simp [hopen]) (by simp [hfresh]) deadline

/-- A call for the guard disposes of the session. -/
theorem any_disposes_of_isDispose (h : calls.any Call.isDispose = true) :
    calls.any Call.disposes = true := by
  obtain ⟨c, hc, hdispose⟩ := List.any_eq_true.mp h
  refine List.any_eq_true.mpr ⟨c, hc, ?_⟩
  cases c with
  | dispose => rfl
  | insert _ | fire _ | disposeInner => cases hdispose

/-- The guard disposes of the session if it did not before. -/
theorem Tells.dispose (h : Tells calls g) : Tells (calls ++ [.dispose]) (g.dispose release) := by
  have hcalls : (calls ++ [Call.dispose]).any Call.disposes = true := by simp [Call.disposes]
  unfold Guarded.dispose
  split
  · rename_i hguard
    -- the session is disposed of already, and nothing more happens
    have hcalled : calls.any Call.isDispose = true := h.guard.symm.trans hguard
    have hdisposed : g.inner.disposed = true :=
      h.disposed.trans (any_disposes_of_isDispose hcalled)
    refine .of_disposed hdisposed hcalls (h.emptied hdisposed) ?_ h.once
    simp [hguard, Call.isDispose]
  · rename_i hguard
    refine .of_disposed (dispose_disposed g.inner) hcalls (dispose_emptied h.emptied) ?_ ?_
    · simp [Call.isDispose]
    · have honce := h.once
      rw [if_neg hguard] at honce
      simp [release, honce]

/-- **Each call tells what it should.** -/
theorem Tells.perform (h : Tells calls g) (c : Call) : Tells (calls ++ [c]) (g.perform c).1 := by
  cases c with
  | insert fact =>
      obtain ⟨hdisposed, hfired⟩ := insert_flags g.inner fact
      refine h.reach (c := .insert fact) (f := (·.insert fact)) rfl ?_ ?_ ?_
      · simp [hdisposed, Call.disposes]
      · simp [hfired, Call.fires]
      · intro hd
        rw [hdisposed] at hd
        rw [insert_of_disposed hd]
        exact h.emptied hd
  | fire deadline =>
      have hdisposed := fireAll_disposed g.inner deadline
      refine h.reach (c := .fire deadline) (f := fun s => (s.fireAll deadline).1) rfl ?_ ?_ ?_
      · simp [hdisposed, Call.disposes]
      · intro hopen
        rw [hdisposed] at hopen
        simp [fireAll_fired hopen, Call.fires]
      · intro hd
        rw [hdisposed] at hd
        rw [fireAll_of_disposed hd]
        exact h.emptied hd
  | dispose => exact h.dispose
  | disposeInner =>
      have hdisposed := dispose_disposed g.inner
      refine h.reach (c := .disposeInner) (f := Session.dispose) rfl ?_ ?_ ?_
      · simp [hdisposed, Call.disposes]
      · intro hopen
        rw [hdisposed] at hopen
        cases hopen
      · exact fun _ => dispose_emptied h.emptied

/-- So every sequence of calls does. -/
theorem Tells.after {before : List Call} (h : Tells before g) (calls : List Call) :
    Tells (before ++ calls) (g.after calls) := by
  induction calls generalizing before g with
  | nil => simpa [Guarded.after] using h
  | cons c calls ih =>
      have hrest := ih (h.perform c)
      rw [List.append_assoc] at hrest
      exact hrest

/-! ## Answers -/

/-- What has happened to a session decides what a call to fire makes of it. -/
theorem Tells.perform_fire (h : Tells calls g) (deadline : Option Deadline) :
    g.perform (.fire deadline) =
      if calls.any Call.disposes then (g, some (.error .disposed))
      else if calls.any Call.fires then (g, some (.error .alreadyFired))
      else (g.reach fun s => s.afterFiring (s.pass deadline).1,
        some (g.inner.pass deadline).2) := by
  have hperform : g.perform (.fire deadline) =
      (g.reach fun _ => (g.inner.fireAll deadline).1, some (g.inner.fireAll deadline).2) := rfl
  rw [hperform, h.fireAll_eq deadline]
  split
  · rfl
  · split <;> rfl

/-- After a call that fires or disposes, no call to fire is answered by a pass. -/
theorem Tells.answers_refused (h : Tells calls g)
    (hclosed : calls.any Call.disposes = true ∨ calls.any Call.fires = true) (more : List Call) :
    (g.answers more).countP (Fired ·) = 0 := by
  induction more generalizing calls g with
  | nil => rfl
  | cons c more ih =>
      have hstill : (calls ++ [c]).any Call.disposes = true ∨
          (calls ++ [c]).any Call.fires = true := by
        simp only [List.any_append, Bool.or_eq_true]
        exact hclosed.imp Or.inl Or.inl
      have hrest := ih (h.perform c) hstill
      rw [answers, List.countP_append, hrest, Nat.add_zero]
      cases c with
      | fire deadline =>
          rw [h.perform_fire deadline]
          split
          · simp [Fired, FireError.Refuses]
          · rename_i hopen
            rw [if_pos (hclosed.resolve_left hopen)]
            simp [Fired, FireError.Refuses]
      | insert _ | dispose | disposeInner => rfl

/-- **One call fires, if there is one in front of what disposes, and no other.** -/
theorem Tells.answers_fired (h : Tells calls g) (hopen : calls.any Call.disposes = false)
    (hfresh : calls.any Call.fires = false) (more : List Call) :
    (g.answers more).countP (Fired ·) =
      if (more.takeWhile (!·.disposes)).any Call.fires then 1 else 0 := by
  induction more generalizing calls g with
  | nil => rfl
  | cons c more ih =>
      rw [answers, List.countP_append]
      have hperform := h.perform c
      cases c with
      | fire deadline =>
          have hanswer : (g.perform (.fire deadline)).2 = some (g.inner.pass deadline).2 := by
            rw [h.perform_fire deadline, hopen, hfresh]
            rfl
          have hpass : Fired (g.inner.pass deadline).2 :=
            Program.fire_fired g.inner.program g.inner.memory deadline g.inner.effects
          rw [hperform.answers_refused (Or.inr (by simp [Call.fires])), hanswer]
          simp [hpass, Call.fires, Call.disposes]
      | dispose =>
          rw [hperform.answers_refused (Or.inl (by simp [Call.disposes]))]
          rfl
      | disposeInner =>
          rw [hperform.answers_refused (Or.inl (by simp [Call.disposes]))]
          rfl
      | insert fact =>
          rw [ih hperform (by simp [hopen, Call.disposes]) (by simp [hfresh, Call.fires])]
          simp [Guarded.perform, Call.disposes, Call.fires]

end

/-! ## The program -/

theorem perform_program (g : Guarded Watched) (c : Call) :
    (g.perform c).1.inner.program = g.inner.program := by
  cases c with
  | insert fact =>
      show (g.inner.insert fact).program = _
      unfold Session.insert
      split
      · rfl
      · cases fact <;> rfl
  | fire deadline =>
      show (g.inner.fireAll deadline).1.program = _
      unfold Session.fireAll
      split
      · rfl
      · split <;> rfl
  | dispose =>
      show (g.dispose release).inner.program = _
      unfold Guarded.dispose
      split
      · rfl
      · show g.inner.dispose.program = _
        unfold Session.dispose
        split <;> rfl
  | disposeInner =>
      show g.inner.dispose.program = _
      unfold Session.dispose
      split <;> rfl

theorem after_program (g : Guarded Watched) (calls : List Call) :
    (g.after calls).inner.program = g.inner.program := by
  induction calls generalizing g with
  | nil => rfl
  | cons c calls ih => exact (ih _).trans (perform_program g c)

/-- **The life of a session.**  Whatever calls were made on a guarded session:

* the next call to fire is refused if something disposed of the session, and then as disposed, or
  if it was called to fire before; a call that is refused changes nothing.  Otherwise it runs
  a pass of the program and answers what the pass answers, which is no refusal;
* of all calls so far one ran a pass, if there was one to fire in front of the first one to
  dispose, and none else;
* the session is disposed of if and only if some call did it, and then it takes nothing in, no
  path has a value, and it has no store;
* the guard disposed of the session once if it was called at all, as it is when it is dropped. -/
theorem life_cycle (program : Program) (outcomes : Table ResultHandle Outcome)
    (log : List LogEntry) (calls : List Call) :
    let g := (start program outcomes log).after calls
    (∀ deadline, g.perform (.fire deadline) =
        (if calls.any Call.disposes then (g, some (.error .disposed))
        else if calls.any Call.fires then (g, some (.error .alreadyFired))
        else (g.reach fun s => s.afterFiring (s.pass deadline).1,
          some (g.inner.pass deadline).2)) ∧
      g.inner.pass deadline = program.fire g.inner.memory deadline g.inner.effects ∧
      Fired (g.inner.pass deadline).2) ∧
    ((start program outcomes log).answers calls).countP (Fired ·) =
      (if (calls.takeWhile (!·.disposes)).any Call.fires then 1 else 0) ∧
    g.inner.disposed = calls.any Call.disposes ∧
    (calls.any Call.disposes = true →
      (∀ fact, g.perform (.insert fact) = (g, none)) ∧
      (∀ path, g.inner.memory.get? path = none) ∧ g.inner.hasStore = false) ∧
    g.session.disposals = if calls.any Call.isDispose then 1 else 0 := by
  intro g
  have htells : Tells calls g := (tells_start program outcomes log).after calls
  have hprogram : g.inner.program = program := after_program _ calls
  refine ⟨fun deadline => ⟨htells.perform_fire deadline, ?_, ?_⟩, ?_, htells.disposed, ?_, ?_⟩
  · rw [Session.pass, hprogram]
  · exact Program.fire_fired _ _ _ _
  · exact (tells_start program outcomes log).answers_fired rfl rfl calls
  · intro hdisposes
    have hdisposed : g.inner.disposed = true := htells.disposed.trans hdisposes
    obtain ⟨hmemory, hstore⟩ := htells.emptied hdisposed
    refine ⟨fun fact => ?_, fun path => ?_, hstore⟩
    · exact congrArg (·, none) (reach_eq_self (insert_of_disposed hdisposed fact))
    · rw [hmemory]
      rfl
  · rw [htells.once, htells.guard]

/-- A text of a rule that holds without a request, and needs a result. -/
def demanding : String := "rule r:not params.x==1 then fail \"stop\""

/-- The rule of `demanding`. -/
def demandingRule : Rule :=
  ⟨"r", .not (.compare ⟨["params", "x"]⟩ .equal (.int 1)), none, [.fail "stop"]⟩

/-- The program of `demanding`. -/
def demandingProgram : Program :=
  .lower [⟨Package.defaultName, [], [demandingRule]⟩] (Digest.ofText demanding)

/-- A pass that fails, a second attempt, and disposals behind the back of the guard. -/
def disorderly : List Call :=
  [.insert (.logger "r"), .fire none, .fire none, .disposeInner, .fire none, .insert .store,
    .dispose, .dispose]

/-- A pass that fails is the only one; the guard disposes of the session once all the same. -/
theorem life_cycle_disorderly :
    Program.ofSource demanding = .ok demandingProgram ∧
      (start demandingProgram [] []).answers disorderly =
        [.error (.failed "r" "no result fact in session"), .error .alreadyFired,
          .error .disposed] ∧
      ((start demandingProgram [] []).answers disorderly).countP (Fired ·) = 1 ∧
      ((start demandingProgram [] []).after disorderly).inner.disposed = true ∧
      ((start demandingProgram [] []).after disorderly).inner.hasStore = false ∧
      ((start demandingProgram [] []).after disorderly).session.disposals = 1 := by
  obtain ⟨-, hcount, hdisposed, hclosed, hdisposals⟩ := life_cycle demandingProgram [] [] disorderly
  have hread : Source.packages demanding.toList =
      .ok [⟨Package.defaultName, [], [demandingRule]⟩] := by decide +kernel
  have hdefects : Program.defects [⟨Package.defaultName, [], [demandingRule]⟩] = [] := by
    decide +kernel
  have hanswers : (start demandingProgram [] []).answers disorderly =
      [.error (.failed "r" "no result fact in session"), .error .alreadyFired,
        .error .disposed] := by decide +kernel
  have hcalls : disorderly.any Call.disposes = true ∧ disorderly.any Call.isDispose = true ∧
      (disorderly.takeWhile (!·.disposes)).any Call.fires = true := ⟨rfl, rfl, rfl⟩
  rw [hcalls.2.2] at hcount
  rw [hcalls.1] at hdisposed
  rw [hcalls.2.1] at hdisposals
  exact ⟨Program.ofSource_of_packages hread hdefects, hanswers, hcount, hdisposed,
    (hclosed hcalls.1).2.2, hdisposals⟩

end Guarded

end Rulebook
