/-
  Proofs/Session/WithoutResult.lean --- a firing pass without a result.

  A pass that meets no deadline runs deeds one after the other, up to the first that fails
  (`Effects.runDeeds`).  Without a result that is the first deed which needs one: an action
  that fails, or one that sets a value which is there.  A set action from a path without a
  value, and a log action, need none.  So the pass answers with an error just if some rule
  that holds has an action in need of a result; then the error names the rule of the first
  one, and the deeds before it are done (`runDeeds_withoutResult_of_needs`).
-/
import Rulebook.Proofs.Session.Agenda

set_option autoImplicit false

namespace Rulebook

/-! ## Actions that need a result -/

/-- Whether an action changes the result. -/
def Action.NeedsResult (memory : Memory) : Action → Prop
  | .set _ (.literal _) => True
  | .set _ (.path p) => ∃ v, memory.get? p = some v
  | .fail _ => True
  | .log _ => False

theorem Action.needsResult_set_iff {memory : Memory} {key : String} {operand : Operand} :
    (Action.set key operand).NeedsResult memory ↔
      ∃ v, Effects.operandJson? memory operand = some v := by
  cases operand with
  | literal v => simp [NeedsResult, Effects.operandJson?]
  | path p => simp [NeedsResult, Effects.operandJson?]

/-! ## Deeds one after the other -/

namespace Effects

variable (memory : Memory)

/-- Run deeds up to the first that fails. -/
def runDeeds (e : Effects) : List Deed → Effects × Except FireError Unit
  | [] => (e, .ok ())
  | (rule, a) :: rest =>
    match e.act memory rule a with
    | (e, .ok ()) => runDeeds e rest
    | (e, .error err) => (e, .error err)

theorem runDeeds_append (e : Effects) (deeds more : List Deed) :
    e.runDeeds memory (deeds ++ more) =
      match e.runDeeds memory deeds with
      | (e, .ok ()) => e.runDeeds memory more
      | (e, .error err) => (e, .error err) := by
  induction deeds generalizing e with
  | nil => rfl
  | cons deed rest ih =>
      obtain ⟨rule, a⟩ := deed
      simp only [List.cons_append, runDeeds]
      rcases e.act memory rule a with ⟨e', err | ⟨⟩⟩
      · rfl
      · exact ih e'

/-- The actions of a rule are deeds of the rule. -/
theorem actAll_eq_runDeeds (e : Effects) (rule : String) (actions : List Action) :
    e.actAll memory rule actions = e.runDeeds memory (actions.map fun a => (rule, a)) := by
  induction actions generalizing e with
  | nil => rfl
  | cons a rest ih =>
      simp only [List.map_cons, actAll, runDeeds]
      rcases e.act memory rule a with ⟨e', err | ⟨⟩⟩
      · rfl
      · exact ih e'

end Effects

namespace Program

variable {memory : Memory}

/-- Without a deadline the rules that act run their deeds one after the other. -/
theorem activate_eq_runDeeds (looked : Nat) (acting : List CompiledRule) (fired : Nat)
    (e : Effects) :
    activate memory none looked acting fired e =
      match e.runDeeds memory (Deed.ofRules (acting.map CompiledRule.rule)) with
      | (e, .ok ()) => (e, .ok (fired + acting.length))
      | (e, .error err) => (e, .error err) := by
  induction acting generalizing fired e with
  | nil => rfl
  | cons r rest ih =>
      have hdeeds : Deed.ofRules ((r :: rest).map CompiledRule.rule) =
          (r.actions.map fun a => (r.name, a)) ++ Deed.ofRules (rest.map CompiledRule.rule) := rfl
      have hnow : Deadline.passed none (looked + fired) = false := rfl
      rw [hdeeds, Effects.runDeeds_append, ← Effects.actAll_eq_runDeeds, activate, hnow,
        if_neg Bool.false_ne_true]
      rcases e.actAll memory r.name r.actions with ⟨e', err | ⟨⟩⟩
      · rfl
      · simp only
        rw [ih (fired + 1) e', List.length_cons, Nat.add_right_comm, Nat.add_assoc]

/-- Rules that meet no deadline act as without one. -/
theorem activate_eq_in_time {deadline : Option Deadline} (looked : Nat)
    (acting : List CompiledRule) (fired : Nat) (e : Effects)
    (htime : ∀ n, (activate memory deadline looked acting fired e).2 ≠
      .error (.deadlineExceeded n)) :
    activate memory deadline looked acting fired e =
      activate memory none looked acting fired e := by
  induction acting generalizing fired e with
  | nil => rfl
  | cons r rest ih =>
      have hnever : Deadline.passed none (looked + fired) = false := rfl
      rw [activate] at htime ⊢
      rw [activate, hnever, if_neg Bool.false_ne_true]
      by_cases hpassed : Deadline.passed deadline (looked + fired) = true
      · rw [if_pos hpassed] at htime
        exact absurd rfl (htime fired)
      · rw [if_neg hpassed] at htime ⊢
        rcases hact : e.actAll memory r.name r.actions with ⟨e', err | ⟨⟩⟩
        · rfl
        · rw [hact] at htime
          exact ih (fired + 1) e' htime

/-- A pass that meets no deadline runs the deeds of the rules that act, one after the
other. -/
theorem fire_eq_runDeeds (p : Program) {deadline : Option Deadline} (e : Effects)
    (htime : ∀ n, (p.fire memory deadline e).2 ≠ .error (.deadlineExceeded n)) :
    p.fire memory deadline e =
      match e.runDeeds memory (Deed.ofRules ((p.activations memory).map CompiledRule.rule)) with
      | (e, .ok ()) => (e, .ok (p.activations memory).length)
      | (e, .error err) => (e, .error err) := by
  unfold fire at htime ⊢
  split at htime
  · exact absurd rfl (htime 0)
  · rename_i hlooks
    rw [if_neg hlooks, activate_eq_in_time _ _ _ _ htime, activate_eq_runDeeds, Nat.zero_add]

end Program

/-! ## Deeds without a result -/

namespace Effects

variable (memory : Memory) (logger : Option String) (log : List LogEntry)

/-- The state of a pass without a result, after deeds. -/
def withoutResult (deeds : List Deed) : Effects :=
  ⟨none, logger, log ++ Deed.entries logger deeds⟩

/-- The error of a rule that needs a result. -/
def noResult (rule : String) : FireError := .failed rule "no result fact in session"

variable {memory logger log}

/-- An action that needs no result adds itself to the deeds, -/
theorem act_withoutResult_of_not_needs (deeds : List Deed) (rule : String) {a : Action}
    (h : ¬ a.NeedsResult memory) :
    (withoutResult logger log deeds).act memory rule a =
      (withoutResult logger log (deeds ++ [(rule, a)]), .ok ()) := by
  simp only [withoutResult, Deed.entries, List.filterMap_append, List.filterMap_cons,
    List.filterMap_nil]
  cases a with
  | set key operand =>
      have hnone : operandJson? memory operand = none := by
        rw [Action.needsResult_set_iff, not_exists] at h
        exact Option.eq_none_iff_forall_ne_some.mpr h
      simp [act, hnone, Deed.logged?]
  | fail message => exact absurd trivial h
  | log message => cases logger <;> simp [act, Deed.logged?]

/-- and one that needs a result is an error of its rule, which changes nothing. -/
theorem act_withoutResult_of_needs (deeds : List Deed) (rule : String) {a : Action}
    (h : a.NeedsResult memory) :
    (withoutResult logger log deeds).act memory rule a =
      (withoutResult logger log deeds, .error (noResult rule)) := by
  cases a with
  | set key operand =>
      obtain ⟨v, hv⟩ := Action.needsResult_set_iff.mp h
      simp only [act, hv]
      rfl
  | fail message => rfl
  | log message => exact absurd h id

/-- Deeds that need no result are all done. -/
theorem runDeeds_withoutResult (past deeds : List Deed)
    (h : ∀ deed ∈ deeds, ¬ deed.2.NeedsResult memory) :
    (withoutResult logger log past).runDeeds memory deeds =
      (withoutResult logger log (past ++ deeds), .ok ()) := by
  induction deeds generalizing past with
  | nil => rw [List.append_nil, runDeeds]
  | cons deed rest ih =>
      obtain ⟨hdeed, hrest⟩ := List.forall_mem_cons.mp h
      rw [runDeeds, act_withoutResult_of_not_needs past deed.1 hdeed]
      simp only
      rw [ih _ hrest, List.append_assoc, List.singleton_append]

/-- The first deed that needs a result ends the pass. -/
theorem runDeeds_withoutResult_of_needs {past before after : List Deed} {rule : String}
    {a : Action} (hbefore : ∀ deed ∈ before, ¬ deed.2.NeedsResult memory)
    (ha : a.NeedsResult memory) :
    (withoutResult logger log past).runDeeds memory (before ++ (rule, a) :: after) =
      (withoutResult logger log (past ++ before), .error (noResult rule)) := by
  rw [runDeeds_append, runDeeds_withoutResult past before hbefore]
  simp only [runDeeds, act_withoutResult_of_needs _ rule ha]

end Effects

/-- Of deeds either none needs a result, or one is the first that does. -/
theorem Deed.exists_first_needs (memory : Memory) (deeds : List Deed) :
    (∀ deed ∈ deeds, ¬ deed.2.NeedsResult memory) ∨
      ∃ before rule a after, deeds = before ++ (rule, a) :: after ∧
        (∀ deed ∈ before, ¬ deed.2.NeedsResult memory) ∧ a.NeedsResult memory := by
  induction deeds with
  | nil => exact Or.inl fun deed hdeed => absurd hdeed List.not_mem_nil
  | cons deed rest ih =>
      by_cases hdeed : deed.2.NeedsResult memory
      · exact Or.inr ⟨[], deed.1, deed.2, rest, rfl, fun _ h => absurd h List.not_mem_nil, hdeed⟩
      · rcases ih with hnone | ⟨before, rule, a, after, rfl, hbefore, ha⟩
        · exact Or.inl (List.forall_mem_cons.mpr ⟨hdeed, hnone⟩)
        · exact Or.inr ⟨deed :: before, rule, a, after, rfl,
            List.forall_mem_cons.mpr ⟨hdeed, hbefore⟩, ha⟩

theorem Deed.mem_ofRules {rules : List Rule} {deed : Deed} :
    deed ∈ ofRules rules ↔ ∃ r ∈ rules, deed.1 = r.name ∧ deed.2 ∈ r.actions := by
  simp only [ofRules, List.mem_flatMap, List.mem_map]
  refine exists_congr fun r => and_congr_right fun _ => ?_
  constructor
  · rintro ⟨a, ha, rfl⟩
    exact ⟨rfl, ha⟩
  · rintro ⟨hname, ha⟩
    exact ⟨deed.2, ha, Prod.ext hname.symm rfl⟩

/-! ## Sessions -/

namespace Session

/-- **Firing without a result.**  Take a session over a text that compiles, which has no
result and has neither fired nor been disposed of, with whatever facts.  The rules that act
are the rules of the text that have actions and hold, each once, in the order of the agenda.
A pass that meets no deadline answers with an error just if some rule that holds has an
action that needs a result.  Then the error names the rule of the first such action, and the
logger is handed the messages of the actions before it; else the pass answers with the
number of the rules that act, and the logger is handed all their messages. -/
theorem fireAll_without_result {source : String} (s : Session)
    (h : Program.ofSource source = .ok s.program) (hdisposed : s.disposed = false)
    (hfired : s.fired = false) (hresult : s.result = none) :
    ∃ packages acting, Source.packages source.toList = .ok packages ∧
      acting.Nodup ∧
      (∀ r, r ∈ acting ↔ r ∈ Package.allRules packages ∧ r.actions ≠ [] ∧
        r.condition.Means (Package.allRules packages) s.memory true) ∧
      (acting.map (·.name)).Sublist s.program.agendaOrder ∧
      ∀ deadline, (∀ n, (s.fireAll deadline).2 ≠ .error (.deadlineExceeded n)) →
        ((∃ e, (s.fireAll deadline).2 = .error e) ↔
          ∃ r ∈ Package.allRules packages,
            r.condition.Means (Package.allRules packages) s.memory true ∧
            ∃ a ∈ r.actions, a.NeedsResult s.memory) ∧
        (∀ before rule a after, Deed.ofRules acting = before ++ (rule, a) :: after →
          (∀ deed ∈ before, ¬ deed.2.NeedsResult s.memory) → a.NeedsResult s.memory →
          (s.fireAll deadline).2 = .error (.failed rule "no result fact in session") ∧
            (s.fireAll deadline).1.log = s.log ++ Deed.entries s.logger before) ∧
        ((∀ deed ∈ Deed.ofRules acting, ¬ deed.2.NeedsResult s.memory) →
          (s.fireAll deadline).2 = .ok acting.length ∧
            (s.fireAll deadline).1.log = s.log ++ Deed.entries s.logger (Deed.ofRules acting)) := by
  obtain ⟨packages, hpackages, hdefects, hlower⟩ := Program.lower_of_ofSource h
  have harranges : s.program.Arranges (Package.allRules packages) := by
    rw [hlower]
    exact Program.arranges_lower _ hdefects
  have hagenda : s.program.agenda = Program.agendaOf s.program.rules := by
    rw [hlower]
    rfl
  have hstart : s.effects = .withoutResult s.logger s.log [] := by
    simp [effects, Effects.withoutResult, hresult, Deed.entries]
  refine ⟨packages, (s.program.activations s.memory).map CompiledRule.rule, hpackages,
    harranges.activations_nodup hagenda s.memory, harranges.mem_acting_rules hagenda s.memory,
    ?_, ?_⟩
  · rw [harranges.agendaOrder_eq hagenda, harranges.activations_eq hagenda, List.map_map]
    exact List.filter_sublist.map _
  · intro deadline htime
    have hfire := s.fireAll_eq (by simp [hdisposed]) (by simp [hfired]) deadline
    rw [hfire] at htime ⊢
    rw [hstart] at htime ⊢
    rw [Program.fire_eq_runDeeds _ _ htime, List.length_map]
    generalize hacting : (s.program.activations s.memory).map CompiledRule.rule = acting
    -- an action of a rule that holds is an action of a rule that acts
    have hneeds : (∃ deed ∈ Deed.ofRules acting, deed.2.NeedsResult s.memory) ↔
        ∃ r ∈ Package.allRules packages,
          r.condition.Means (Package.allRules packages) s.memory true ∧
          ∃ a ∈ r.actions, a.NeedsResult s.memory := by
      have hmem := harranges.mem_acting_rules hagenda s.memory
      rw [hacting] at hmem
      constructor
      · rintro ⟨deed, hdeed, ha⟩
        obtain ⟨r, hr, -, haction⟩ := Deed.mem_ofRules.mp hdeed
        obtain ⟨hrule, -, hmeans⟩ := (hmem r).mp hr
        exact ⟨r, hrule, hmeans, deed.2, haction, ha⟩
      · rintro ⟨r, hrule, hmeans, a, haction, ha⟩
        have hr : r ∈ acting := (hmem r).mpr ⟨hrule, List.ne_nil_of_mem haction, hmeans⟩
        exact ⟨(r.name, a), Deed.mem_ofRules.mpr ⟨r, hr, rfl, haction⟩, ha⟩
    refine ⟨?_, ?_, ?_⟩
    · rw [← hneeds]
      rcases Deed.exists_first_needs s.memory (Deed.ofRules acting) with
        hnone | ⟨before, rule, a, after, hdeeds, hbefore, ha⟩
      · rw [Effects.runDeeds_withoutResult [] _ hnone]
        constructor
        · rintro ⟨e, he⟩
          cases he
        · rintro ⟨deed, hdeed, ha⟩
          exact absurd ha (hnone deed hdeed)
      · rw [hdeeds, Effects.runDeeds_withoutResult_of_needs hbefore ha]
        exact ⟨fun _ => ⟨(rule, a), by simp, ha⟩, fun _ => ⟨_, rfl⟩⟩
    · intro before rule a after hdeeds hbefore ha
      rw [hdeeds, Effects.runDeeds_withoutResult_of_needs hbefore ha]
      exact ⟨rfl, rfl⟩
    · intro hnone
      rw [Effects.runDeeds_withoutResult [] _ hnone]
      exact ⟨rfl, rfl⟩

/-- A text in which the rule that acts first sets what is not there, and the other one what
is there. -/
def messages : String :=
  "rule stop:greet then log \"stop\" set k=params.x log \"late\"\n" ++
    "rule greet(priority 1):params.x>1 then log \"hello\" set k=params.y"

/-- The rule of `messages` that acts first. -/
def greet : Rule :=
  ⟨"greet", .compare ⟨["params", "x"]⟩ .greater (.int 1), some 1,
    [.log "hello", .set "k" (.path ⟨["params", "y"]⟩)]⟩

/-- The rule of `messages` that acts after it. -/
def stop : Rule :=
  ⟨"stop", .rule "greet", none, [.log "stop", .set "k" (.path ⟨["params", "x"]⟩), .log "late"]⟩

/-- A session over `messages` with one parameter and a logger, and no result. -/
def talking : Session :=
  ((Session.new (.lower [⟨Package.defaultName, [], [stop, greet]⟩]
    (Digest.ofText messages))).insert (.params [("x", .number (.int 2))])).insert (.logger "talk")

theorem fireAll_without_result_talking :
    Program.ofSource messages = .ok talking.program ∧ talking.disposed = false ∧
      talking.fired = false ∧ talking.result = none ∧
      (∀ n, (talking.fireAll none).2 ≠ .error (.deadlineExceeded n)) ∧
      (talking.fireAll none).2 = .error (.failed "stop" "no result fact in session") ∧
      (talking.fireAll none).1.log = [⟨"talk", "greet", "hello"⟩, ⟨"talk", "stop", "stop"⟩] := by
  have hread : Source.packages messages.toList =
      .ok [⟨Package.defaultName, [], [stop, greet]⟩] := by decide +kernel
  have hdefects : Program.defects [⟨Package.defaultName, [], [stop, greet]⟩] = [] := by
    decide +kernel
  have hcompile : Program.ofSource messages = .ok talking.program :=
    Program.ofSource_of_packages hread hdefects
  have hagenda : talking.program.agenda = [0, 1] :=
    (Program.agendaOf_eq (.refl _) (by decide +kernel) (by decide +kernel)).trans
      (by decide +kernel)
  have hlisted : talking.program.agendaOrder = ["greet", "stop"] := by
    rw [Program.agendaOrder, hagenda]
    decide +kernel
  have hanswer : (talking.fireAll none).2 =
      .error (.failed "stop" "no result fact in session") := by
    have htalking :
        talking = { talking with program := { talking.program with agenda := [0, 1] } } :=
      congrArg (fun agenda => { talking with program := { talking.program with agenda } }) hagenda
    rw [htalking]
    decide +kernel
  have htime (n : Nat) : (talking.fireAll none).2 ≠ .error (.deadlineExceeded n) := by
    simp [hanswer]
  obtain ⟨packages, acting, hpackages, -, hmem, horder, hpass⟩ :=
    fireAll_without_result talking hcompile rfl rfl rfl
  obtain rfl := Except.ok.inj (hread.symm.trans hpackages)
  have hx : talking.memory.get? ⟨["params", "x"]⟩ = some (.int 2) := rfl
  have hy : talking.memory.get? ⟨["params", "y"]⟩ = none := rfl
  have hholds : greet.condition.Means [stop, greet] talking.memory true := .compared hx rfl
  have hgreet : greet ∈ acting :=
    (hmem _).mpr ⟨by simp [Package.allRules], by simp [greet], hholds⟩
  have hstop : stop ∈ acting :=
    (hmem _).mpr ⟨by simp [Package.allRules], by simp [stop], .rule (by simp) hholds⟩
  have hlength : [greet, stop].length ≤ acting.length :=
    (List.subperm_of_subset (by simp [greet, stop]) (by simp [hgreet, hstop])).length_le
  rw [hlisted] at horder
  have hnames : acting.map (·.name) = ["greet", "stop"] :=
    horder.eq_of_length_le (by simpa using hlength)
  have hrule : ∀ r ∈ acting, r = stop ∨ r = greet := by
    intro r hr
    simpa [Package.allRules] using ((hmem r).mp hr).1
  have hacting : acting = [greet, stop] := by
    obtain ⟨first, rest, rfl, hfirst, hrest⟩ := List.map_eq_cons_iff.mp hnames
    obtain ⟨second, rest, rfl, hsecond, hnil⟩ := List.map_eq_cons_iff.mp hrest
    obtain rfl := List.map_eq_nil_iff.mp hnil
    rcases hrule first (by simp) with rfl | rfl
    · simp [stop] at hfirst
    · rcases hrule second (by simp) with rfl | rfl
      · rfl
      · simp [greet] at hsecond
  obtain ⟨-, herror, -⟩ := hpass none htime
  refine ⟨hcompile, rfl, rfl, rfl, htime, ?_⟩
  refine herror [("greet", .log "hello"), ("greet", .set "k" (.path ⟨["params", "y"]⟩)),
    ("stop", .log "stop")] "stop" (.set "k" (.path ⟨["params", "x"]⟩)) [("stop", .log "late")]
    (by rw [hacting]; rfl) ?_ ⟨_, hx⟩
  simp [Action.NeedsResult, hy]

end Session

end Rulebook
