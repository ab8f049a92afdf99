/-
  Proofs/Session/Effect.lean --- what a firing pass does.

  A pass that no deadline stops runs the actions of the rules that have actions and hold,
  one rule after the other in the order of the agenda.  Actions only ever add to what was
  done: a failure replaces the message, a value goes into the payload, a message goes to
  the logger.  So the state of a pass is told from the actions that it has run
  (`Effects.after`); running one more action adds it to them, and the result of the whole
  pass is read off the list of all of them (`Outcome.Tells`).
-/
import Rulebook.Proofs.Session.Meaning
import Rulebook.Proofs.Session.Relabel

set_option autoImplicit false

namespace Rulebook

/-! ## The rules that act -/

namespace Program

/-- The rules with actions, in the order in which they act. -/
def acting (rules : List CompiledRule) : List CompiledRule :=
  (rules.filter (!·.actions.isEmpty)).mergeSort CompiledRule.actsBefore

theorem mem_acting {rules : List CompiledRule} {r : CompiledRule} :
    r ∈ acting rules ↔ r ∈ rules ∧ r.actions ≠ [] := by
  simp [acting, List.mem_mergeSort]

section

variable {p : Program} {rules : List Rule}

theorem Arranges.getElem?_index (h : p.Arranges rules) {r : CompiledRule} (hr : r ∈ p.rules) :
    p.rules[r.index]? = some r := by
  obtain ⟨i, hi⟩ := List.mem_iff_getElem?.mp hr
  rw [h.index_eq i r hi]
  exact hi

theorem Arranges.rules_nodup (h : p.Arranges rules) : (p.rules.map CompiledRule.rule).Nodup :=
  h.perm.nodup_iff.mpr h.names_nodup.of_map

/-- Rules are found at their positions. -/
theorem Arranges.filterMap_index (h : p.Arranges rules) {chosen : List CompiledRule}
    (hchosen : ∀ r ∈ chosen, r ∈ p.rules) :
    (chosen.map (·.index)).filterMap (fun i => p.rules[i]?) = chosen := by
  rw [List.filterMap_map]
  have hself : ∀ r ∈ chosen, ((fun i => p.rules[i]?) ∘ (·.index)) r = some r :=
    fun r hr => h.getElem?_index (hchosen r hr)
  exact (List.filterMap_congr hself).trans List.filterMap_some

theorem Arranges.agendaOrder_eq (h : p.Arranges rules) (hagenda : p.agenda = agendaOf p.rules) :
    p.agendaOrder = (acting p.rules).map (·.name) := by
  have hfound : ((acting p.rules).map (·.index)).filterMap (fun i => p.rules[i]?) = acting p.rules :=
    h.filterMap_index fun r hr => (mem_acting.mp hr).1
  have hmap : p.agendaOrder = (p.agenda.filterMap fun i => p.rules[i]?).map (·.name) := by
    rw [agendaOrder, List.map_filterMap]
  rw [hmap, hagenda]
  exact congrArg (List.map (·.name)) hfound

theorem Arranges.activations_eq (h : p.Arranges rules) (hagenda : p.agenda = agendaOf p.rules)
    (memory : Memory) :
    p.activations memory =
      (acting p.rules).filter fun r => (p.verdicts memory)[r.index]?.getD false := by
  unfold activations
  simp only
  rw [hagenda, agendaOf, List.filter_map]
  exact h.filterMap_index fun r hr => (mem_acting.mp (List.mem_filter.mp hr).1).1

/-- The verdict of a rule is the meaning of its condition. -/
theorem Arranges.verdict_eq_true_iff (h : p.Arranges rules) (memory : Memory)
    {r : CompiledRule} (hr : r ∈ p.rules) :
    (p.verdicts memory)[r.index]?.getD false = true ↔ r.condition.Means rules memory true := by
  have hplace := h.getElem?_index hr
  obtain ⟨i, b, hposition, hverdict, hmeans⟩ := h.means_verdicts memory (h.rule_mem hplace)
  obtain ⟨r', hr', hname⟩ := (h.positions_iff _ _).mp hposition
  have hindex : p.positions.get? r.rule.name = some r.index :=
    (h.positions_iff _ _).mpr ⟨r, hplace, rfl⟩
  obtain rfl : i = r.index := Option.some.inj (hposition.symm.trans hindex)
  rw [hverdict, Option.getD_some]
  constructor
  · rintro rfl
    exact hmeans
  · intro htrue
    exact hmeans.unique h.names_nodup htrue

/-- Every rule acts at most once. -/
theorem Arranges.activations_nodup (h : p.Arranges rules) (hagenda : p.agenda = agendaOf p.rules)
    (memory : Memory) : ((p.activations memory).map CompiledRule.rule).Nodup := by
  have hacting : ((acting p.rules).map CompiledRule.rule).Nodup := by
    rw [acting, ((List.mergeSort_perm _ _).map CompiledRule.rule).nodup_iff]
    exact h.rules_nodup.sublist (List.filter_sublist.map _)
  rw [h.activations_eq hagenda]
  exact hacting.sublist (List.filter_sublist.map _)

theorem Arranges.mem_activations (h : p.Arranges rules) (hagenda : p.agenda = agendaOf p.rules)
    (memory : Memory) {r : CompiledRule} :
    r ∈ p.activations memory ↔
      r ∈ p.rules ∧ r.actions ≠ [] ∧ r.condition.Means rules memory true := by
  rw [h.activations_eq hagenda, List.mem_filter, mem_acting, and_assoc]
  constructor
  · rintro ⟨hr, hactions, hverdict⟩
    exact ⟨hr, hactions, (h.verdict_eq_true_iff memory hr).mp hverdict⟩
  · rintro ⟨hr, hactions, hmeans⟩
    exact ⟨hr, hactions, (h.verdict_eq_true_iff memory hr).mpr hmeans⟩

/-- The rules that act are the arranged rules that have actions and hold. -/
theorem Arranges.mem_acting_rules (h : p.Arranges rules) (hagenda : p.agenda = agendaOf p.rules)
    (memory : Memory) (r : Rule) :
    r ∈ (p.activations memory).map CompiledRule.rule ↔
      r ∈ rules ∧ r.actions ≠ [] ∧ r.condition.Means rules memory true := by
  rw [List.mem_map]
  constructor
  · rintro ⟨compiled, hmem, rfl⟩
    obtain ⟨hrule, hactions, hmeans⟩ := (h.mem_activations hagenda memory).mp hmem
    exact ⟨h.perm.subset (List.mem_map_of_mem hrule), hactions, hmeans⟩
  · rintro ⟨hmem, hactions, hmeans⟩
    obtain ⟨compiled, hrule, rfl⟩ := List.mem_map.mp (h.perm.symm.subset hmem)
    exact ⟨compiled, (h.mem_activations hagenda memory).mpr ⟨hrule, hactions, hmeans⟩, rfl⟩

end

end Program

/-! ## Deeds -/

/-- An action that was run, with the name of the rule that ran it. -/
abbrev Deed : Type := String × Action

namespace Deed

/-- The actions of rules, one rule after the other. -/
def ofRules (rules : List Rule) : List Deed :=
  rules.flatMap fun r => r.actions.map fun a => (r.name, a)

/-- What a deed puts into the payload.  A set action from a path without a value puts
nothing there. -/
def setting? (memory : Memory) (deed : Deed) : Option (String × Json) :=
  match deed.2 with
  | .set key (.literal v) => some (key, v.toJson)
  | .set key (.path p) => (memory.get? p).map fun v => (key, v.toJson)
  | _ => none

/-- The message of a deed that turns the result into a failure. -/
def failure? (deed : Deed) : Option String :=
  match deed.2 with
  | .fail message => some message
  | _ => none

/-- What a deed hands to the logger, if there is one. -/
def logged? (logger : Option String) (deed : Deed) : Option LogEntry :=
  match deed.2 with
  | .log message => logger.map fun name => ⟨name, deed.1, message⟩
  | _ => none

/-- What deeds put into the payload, in order. -/
def settings (memory : Memory) (deeds : List Deed) : List (String × Json) :=
  deeds.filterMap (setting? memory)

/-- The messages of failures, in order. -/
def failures (deeds : List Deed) : List String := deeds.filterMap failure?

/-- What the logger is handed, in order. -/
def entries (logger : Option String) (deeds : List Deed) : List LogEntry :=
  deeds.filterMap (logged? logger)

end Deed

/-- A result tells what deeds did: whether one of them was a failure, and the last message;
and, if one put something into the payload, each key where it was put first with the value
that was put last. -/
structure Outcome.Tells (o : Outcome) (memory : Memory) (deeds : List Deed) : Prop where
  failed : (∃ rule message, (rule, .fail message) ∈ deeds) → o.code = 1
  succeeded : (¬ ∃ rule message, (rule, .fail message) ∈ deeds) → o.code = 0
  message_eq : o.message = (Deed.failures deeds).getLast?
  data_absent : Deed.settings memory deeds = [] → o.data = none
  data_present : Deed.settings memory deeds ≠ [] → ∃ members, o.data = some (.object members) ∧
    members.map Prod.fst = ((Deed.settings memory deeds).map Prod.fst).eraseDups ∧
    ∀ key value, (key, value) ∈ members ↔ ∃ before after,
      Deed.settings memory deeds = before ++ (key, value) :: after ∧ key ∉ after.map Prod.fst

/-! ## Results -/

namespace Outcome

/-- The result that failures and settings build from a fresh one. -/
def built (failures : List String) (settings : List (String × Json)) : Outcome where
  code := if failures = [] then 0 else 1
  message := failures.getLast?
  data := if settings = [] then none else some (.object (Table.ofEntries settings))

theorem built_nil : built [] [] = success := rfl

theorem fail_built (failures : List String) (settings : List (String × Json)) (message : String) :
    (built failures settings).fail message = built (failures ++ [message]) settings := by
  simp [built, fail]

theorem put_built (failures : List String) (settings : List (String × Json)) (key : String)
    (value : Json) :
    (built failures settings).put key value = built failures (settings ++ [(key, value)]) := by
  have hmembers : (built failures settings).members = Table.ofEntries settings := by
    unfold members built
    by_cases hnone : settings = []
    · simp [hnone, Table.ofEntries]
    · simp [hnone]
  unfold put
  rw [hmembers, ← Table.ofEntries_append_singleton settings (key, value)]
  simp [built]

end Outcome

theorem Deed.failures_eq_nil_iff {deeds : List Deed} :
    failures deeds = [] ↔ ¬ ∃ rule message, (rule, .fail message) ∈ deeds := by
  rw [failures, List.filterMap_eq_nil_iff]
  constructor
  · rintro hnone ⟨rule, message, hmem⟩
    simpa [failure?] using hnone _ hmem
  · rintro hnone ⟨rule, a⟩ hmem
    cases a with
    | fail message => exact absurd ⟨rule, message, hmem⟩ hnone
    | set | log => rfl

theorem Outcome.tells_built (memory : Memory) (deeds : List Deed) :
    (built (Deed.failures deeds) (Deed.settings memory deeds)).Tells memory deeds where
  failed hfail := by
    simp [built, Deed.failures_eq_nil_iff, hfail]
  succeeded hnone := by
    simp [built, Deed.failures_eq_nil_iff, hnone]
  message_eq := rfl
  data_absent hnone := by
    simp [built, hnone]
  data_present hsome := by
    refine ⟨Table.ofEntries (Deed.settings memory deeds), by simp [built, hsome],
      Table.keys_ofEntries _, ?_⟩
    intro key value
    rw [← Table.get?_ofEntries_iff]
    exact (Table.get?_eq_some_iff (Table.keys_ofEntries_nodup _)).symm

/-! ## Running actions -/

namespace Effects

variable (memory : Memory) (logger : Option String) (log : List LogEntry)

/-- The state of a pass that began with a fresh result, after deeds. -/
def after (deeds : List Deed) : Effects where
  result := some (.built (Deed.failures deeds) (Deed.settings memory deeds))
  logger := logger
  log := log ++ Deed.entries logger deeds

theorem operandJson?_eq_setting? (rule key : String) (operand : Operand) :
    Deed.setting? memory (rule, .set key operand) =
      (operandJson? memory operand).map fun v => (key, v) := by
  cases operand with
  | literal v => rfl
  | path p => cases hget : memory.get? p <;> simp [Deed.setting?, operandJson?, hget]

/-- Running an action adds it to the deeds. -/
theorem act_after (deeds : List Deed) (rule : String) (a : Action) :
    (after memory logger log deeds).act memory rule a =
      (after memory logger log (deeds ++ [(rule, a)]), .ok ()) := by
  simp only [after, Deed.failures, Deed.settings, Deed.entries, List.filterMap_append,
    List.filterMap_cons, List.filterMap_nil]
  cases a with
  | set key operand =>
      rw [operandJson?_eq_setting?]
      cases hvalue : operandJson? memory operand with
      | none => simp [act, hvalue, Deed.failure?, Deed.logged?]
      | some v => simp [act, hvalue, update, Outcome.put_built, Deed.failure?, Deed.logged?]
  | fail message =>
      simp [act, update, Outcome.fail_built, Deed.setting?, Deed.failure?, Deed.logged?]
  | log message =>
      cases logger <;> simp [act, Deed.setting?, Deed.failure?, Deed.logged?]

theorem actAll_after (deeds : List Deed) (rule : String) (actions : List Action) :
    (after memory logger log deeds).actAll memory rule actions =
      (after memory logger log (deeds ++ actions.map fun a => (rule, a)), .ok ()) := by
  induction actions generalizing deeds with
  | nil => simp [actAll]
  | cons a rest ih =>
      simp only [actAll, act_after, ih, List.map_cons, List.append_assoc, List.singleton_append]

end Effects

/-! ## Deadlines -/

theorem Deadline.passed_mono {deadline : Option Deadline} {look later : Nat}
    (h : passed deadline look = true) (hle : look ≤ later) : passed deadline later = true := by
  unfold passed at h ⊢
  split at h
  · simp only [decide_eq_true_eq] at h ⊢
    omega
  · simp at h

/-! ## Passes -/

namespace Program

variable {memory : Memory} {deadline : Option Deadline}

/-- Rules that act before the deadline add their actions to the deeds. -/
theorem activate_after (logger : Option String) (log : List LogEntry) (looked : Nat)
    (acting : List CompiledRule) (fired : Nat) (deeds : List Deed)
    (htime : ∀ k < acting.length, Deadline.passed deadline (looked + fired + k) = false) :
    activate memory deadline looked acting fired (.after memory logger log deeds) =
      (.after memory logger log (deeds ++ Deed.ofRules (acting.map CompiledRule.rule)),
        .ok (fired + acting.length)) := by
  induction acting generalizing fired deeds with
  | nil => simp [activate, Deed.ofRules]
  | cons r rest ih =>
      have hnow : Deadline.passed deadline (looked + fired) = false := by
        simpa using htime 0 (by simp)
      have hlater : ∀ k < rest.length,
          Deadline.passed deadline (looked + (fired + 1) + k) = false := by
        intro k hk
        rw [show looked + (fired + 1) + k = looked + fired + (k + 1) by omega]
        exact htime (k + 1) (by simpa using hk)
      rw [activate, hnow, if_neg Bool.false_ne_true, Effects.actAll_after]
      simp only
      rw [ih (fired + 1) _ hlater]
      simp [Deed.ofRules, CompiledRule.rule, Nat.add_comm, Nat.add_left_comm]

/-- A pass that no deadline stops does what the rules that act do. -/
theorem fire_after (p : Program) (logger : Option String) (log : List LogEntry)
    (htime : ∀ look < p.rules.length + (p.activations memory).length,
      Deadline.passed deadline look = false) :
    p.fire memory deadline (.after memory logger log []) =
      (.after memory logger log (Deed.ofRules ((p.activations memory).map CompiledRule.rule)),
        .ok (p.activations memory).length) := by
  unfold fire
  rw [if_neg]
  · rw [activate_after]
    · simp
    · intro k hk
      exact htime _ (by omega)
  · rintro ⟨hrules, hpassed⟩
    have hpos : 0 < p.rules.length := List.length_pos_iff.mpr hrules
    rw [htime (p.rules.length - 1) (by omega)] at hpassed
    exact Bool.false_ne_true hpassed

/-- A pass whose deadline is past does nothing. -/
theorem fire_past (p : Program) (e : Effects) (hrules : p.rules ≠ [])
    (hpast : Deadline.passed deadline 0 = true) :
    p.fire memory deadline e = (e, .error (.deadlineExceeded 0)) := by
  unfold fire
  rw [if_pos ⟨hrules, Deadline.passed_mono hpast (Nat.zero_le _)⟩]

end Program

/-! ## Sessions -/

namespace Session

variable {s : Session} {handle : ResultHandle}

theorem outcome_afterFiring_of_none (s : Session) (e : Effects)
    (hsame : e.result = s.effects.result) (other : ResultHandle) :
    (s.afterFiring e).outcome other = s.outcome other := by
  unfold afterFiring outcome
  simp only [hsame, effects]
  cases hresult : s.result with
  | none => rfl
  | some handle =>
      simp only [Option.map_some, Table.get?_put]
      split
      · rename_i heq
        subst heq
        rfl
      · rfl

theorem outcome_afterFiring (s : Session) (e : Effects) {o : Outcome}
    (hresult : s.result = some handle) (he : e.result = some o) :
    (s.afterFiring e).outcome handle = o := by
  simp [afterFiring, outcome, hresult, he, Table.get?_put]

/-- **The effect of a firing pass.**  Take a session over a text that compiles, which has
neither fired nor been disposed of, with whatever facts.  The rules that act are the rules
of the text that have actions and hold, each once, in the order of the agenda.  With a
fresh result, and unless the deadline passes while the clock is looked at, a pass answers
with their number; the result tells what their actions did, in the order of the agenda and
of the text of each rule; and the logger is handed their messages.  A pass whose deadline
is past before the first rule does nothing. -/
theorem effect_of_pass {source : String} (s : Session)
    (h : Program.ofSource source = .ok s.program) (hdisposed : s.disposed = false)
    (hfired : s.fired = false) :
    ∃ packages acting, Source.packages source.toList = .ok packages ∧
      acting.Nodup ∧
      (∀ r, r ∈ acting ↔ r ∈ Package.allRules packages ∧ r.actions ≠ [] ∧
        r.condition.Means (Package.allRules packages) s.memory true) ∧
      (acting.map (·.name)).Sublist s.program.agendaOrder ∧
      (∀ handle deadline, s.result = some handle → s.outcome handle = .success →
        (∀ look < s.program.rules.length + acting.length,
          Deadline.passed deadline look = false) →
        (s.fireAll deadline).2 = .ok acting.length ∧
          ((s.fireAll deadline).1.outcome handle).Tells s.memory (Deed.ofRules acting) ∧
          (s.fireAll deadline).1.log = s.log ++ Deed.entries s.logger (Deed.ofRules acting)) ∧
      ∀ deadline, Deadline.passed deadline 0 = true → s.program.rules ≠ [] →
        (s.fireAll deadline).2 = .error (.deadlineExceeded 0) ∧
          (∀ handle, (s.fireAll deadline).1.outcome handle = s.outcome handle) ∧
          (s.fireAll deadline).1.log = s.log := by
  obtain ⟨packages, hpackages, hdefects, hlower⟩ := Program.lower_of_ofSource h
  have harranges : s.program.Arranges (Package.allRules packages) := by
    rw [hlower]
    exact Program.arranges_lower _ hdefects
  have hagenda : s.program.agenda = Program.agendaOf s.program.rules := by
    rw [hlower]
    rfl
  have hfire (deadline : Option Deadline) :
      s.fireAll deadline = (s.afterFiring (s.program.fire s.memory deadline s.effects).1,
        (s.program.fire s.memory deadline s.effects).2) :=
    s.fireAll_eq (by simp [hdisposed]) (by simp [hfired]) deadline
  refine ⟨packages, (s.program.activations s.memory).map CompiledRule.rule, hpackages,
    harranges.activations_nodup hagenda s.memory, harranges.mem_acting_rules hagenda s.memory,
    ?_, ?_, ?_⟩
  · rw [harranges.agendaOrder_eq hagenda, harranges.activations_eq hagenda, List.map_map]
    exact List.filter_sublist.map _
  · intro handle deadline hresult hfresh htime
    rw [List.length_map] at htime ⊢
    have hstart : s.effects = .after s.memory s.logger s.log [] := by
      simp [effects, Effects.after, hresult, hfresh, Deed.failures, Deed.settings,
        Deed.entries, Outcome.built_nil]
    rw [hfire, hstart, Program.fire_after _ _ _ htime]
    refine ⟨rfl, ?_, rfl⟩
    rw [outcome_afterFiring s _ hresult rfl]
    exact Outcome.tells_built _ _
  · intro deadline hpast hrules
    rw [hfire, Program.fire_past _ _ hrules hpast]
    exact ⟨rfl, fun handle => s.outcome_afterFiring_of_none _ rfl handle, rfl⟩

/-- A text in which the rule that acts first asks for the other and refuses. -/
def refusal : String :=
  "rule late:params.x>1 then set k=params.x log \"late\"\nrule early(priority 1):late then fail \"stop\" set k=1 set g=params.y"

/-- The rules of `refusal`. -/
def refusalRules : List Rule :=
  [⟨"late", .compare ⟨["params", "x"]⟩ .greater (.int 1), none,
      [.set "k" (.path ⟨["params", "x"]⟩), .log "late"]⟩,
    ⟨"early", .rule "late", some 1,
      [.fail "stop", .set "k" (.literal (.int 1)), .set "g" (.path ⟨["params", "y"]⟩)]⟩]

/-- A session over `refusal` with one parameter and a fresh result. -/
def refused : Session :=
  ((Session.new (.lower [⟨Package.defaultName, [], refusalRules⟩] (Digest.ofText refusal))).insert
    (.params [("x", .number (.int 2))])).insert (.result ⟨"result"⟩)

theorem effect_of_pass_refused :
    Program.ofSource refusal = .ok refused.program ∧ refused.disposed = false ∧
      refused.fired = false ∧ refused.outcome ⟨"result"⟩ = .success ∧
      (∃ n, (refused.fireAll none).2 = .ok n ∧ 0 < n) ∧
      ((refused.fireAll none).1.outcome ⟨"result"⟩).code = 1 := by
  have hread : Source.packages refusal.toList = .ok [⟨Package.defaultName, [], refusalRules⟩] := by
    decide +kernel
  have hdefects : Program.defects [⟨Package.defaultName, [], refusalRules⟩] = [] := by
    decide +kernel
  have hcompile : Program.ofSource refusal = .ok refused.program := by
    simp only [Program.ofSource, hread, Program.compile, hdefects, List.isEmpty_nil, if_true]
    rfl
  obtain ⟨packages, acting, hpackages, -, hacting, -, hpass, -⟩ :=
    effect_of_pass refused hcompile rfl rfl
  obtain rfl := Except.ok.inj (hread.symm.trans hpackages)
  obtain ⟨hanswer, htells, -⟩ := hpass ⟨"result"⟩ none rfl rfl fun _ _ => rfl
  have hget : refused.memory.get? ⟨["params", "x"]⟩ = some (.int 2) := rfl
  have hlate : (Condition.rule "late").Means refusalRules refused.memory true :=
    .rule (r := refusalRules[0]) (by simp [refusalRules]) (.compared hget rfl)
  have hearly : refusalRules[1] ∈ acting :=
    (hacting _).mpr ⟨by simp [refusalRules, Package.allRules], by simp [refusalRules], hlate⟩
  refine ⟨hcompile, rfl, rfl, rfl, ⟨acting.length, hanswer, List.length_pos_of_mem hearly⟩, ?_⟩
  apply htells.failed
  refine ⟨"early", "stop", List.mem_flatMap.mpr ⟨refusalRules[1], hearly, ?_⟩⟩
  simp [refusalRules]

end Session

end Rulebook
