/-
  Proofs/Session/Rearrangement.lean --- firing two arrangements of the same rules.

  Verdicts are meanings, and meanings do not know an order, so two arrangements of the same
  rules decide them in the same way.  The rules that act are the same ones, each once, but
  the order in which they act may differ; with a result to work on no action fails, so at
  least the number of rules that act is the same under every deadline.  Priorities that tell
  all rules with actions apart settle the order as well, and then nothing differs.
-/
import Rulebook.Proofs.Program.Rearrangement
import Rulebook.Proofs.Session.Agenda

set_option autoImplicit false

namespace Rulebook

/-! ## The agenda -/

/-- Every rule with actions was given a priority that no other one has. -/
def Rule.PrioritiesApart (rules : List Rule) : Prop :=
  ∀ r ∈ rules, r.actions ≠ [] → (∃ n, r.priority = some n) ∧
    ∀ s ∈ rules, s.actions ≠ [] → s.priority = r.priority → s = r

/-- Such priorities are different ranks. -/
theorem Rule.PrioritiesApart.eq_of_rank {rules : List Rule} (h : PrioritiesApart rules)
    {r s : Rule} (hr : r ∈ rules) (hs : s ∈ rules) (hactsr : r.actions ≠ [])
    (hactss : s.actions ≠ []) (hrank : r.rank = s.rank) : r = s := by
  obtain ⟨⟨n, hn⟩, -⟩ := h r hr hactsr
  obtain ⟨⟨m, hm⟩, hunique⟩ := h s hs hactss
  rw [rank, rank, hn, hm, Option.getD_some, Option.getD_some] at hrank
  have hsame : n = m := UInt32.toNat_inj.mp hrank
  exact hunique r hr hactsr (by rw [hn, hm, hsame])

namespace Program

/-! ## Two arrangements -/

section

variable {p q : Program} {rules : List Rule} (hp : p.Arranges rules) (hq : q.Arranges rules)

include hp in
/-- The verdict under a name is the meaning of the rule; names without a rule have none. -/
theorem Arranges.verdict_iff (memory : Memory) (name : String) :
    p.verdict (p.verdicts memory) name = true ↔
      ∃ r ∈ rules, r.name = name ∧ r.condition.Means rules memory true := by
  constructor
  · intro htrue
    cases hposition : p.positions.get? name with
    | none => simp [verdict, hposition] at htrue
    | some i =>
        obtain ⟨compiled, hi, rfl⟩ := (hp.positions_iff name i).mp hposition
        have hmem := hp.rule_mem hi
        obtain ⟨j, b, hj, hb, hmeans⟩ := hp.means_verdicts memory hmem
        have hb' : b = true := (verdict_of_get? hj hb).symm.trans htrue
        exact ⟨compiled.rule, hmem, rfl, hb' ▸ hmeans⟩
  · rintro ⟨r, hr, rfl, hmeans⟩
    obtain ⟨j, b, hj, hb, hmeans'⟩ := hp.means_verdicts memory hr
    rw [verdict_of_get? hj hb]
    exact hmeans'.unique hp.names_nodup hmeans

include hp hq

/-- The same rules hold. -/
theorem Arranges.verdict_eq (memory : Memory) (name : String) :
    p.verdict (p.verdicts memory) name = q.verdict (q.verdicts memory) name := by
  rw [Bool.eq_iff_iff, hp.verdict_iff, hq.verdict_iff]

theorem Arranges.length_eq : p.rules.length = q.rules.length := by
  have hpq := (hp.perm.trans hq.perm.symm).length_eq
  rwa [List.length_map, List.length_map] at hpq

variable (hagendap : p.agenda = agendaOf p.rules) (hagendaq : q.agenda = agendaOf q.rules)

include hagendap hagendaq

/-- The same rules act, in whatever order. -/
theorem Arranges.activations_perm (memory : Memory) :
    ((p.activations memory).map CompiledRule.rule).Perm
      ((q.activations memory).map CompiledRule.rule) := by
  refine (List.perm_ext_iff_of_nodup (hp.activations_nodup hagendap memory)
    (hq.activations_nodup hagendaq memory)).mpr ?_
  intro r
  rw [hp.mem_acting_rules hagendap, hq.mem_acting_rules hagendaq]

theorem Arranges.activations_length (memory : Memory) :
    (p.activations memory).length = (q.activations memory).length := by
  have hlength := (hp.activations_perm hq hagendap hagendaq memory).length_eq
  rwa [List.length_map, List.length_map] at hlength

/-- If their priorities tell them apart, they act in the same order. -/
theorem Arranges.activations_eq_of_apart (hapart : Rule.PrioritiesApart rules) (memory : Memory) :
    (p.activations memory).map CompiledRule.rule =
      (q.activations memory).map CompiledRule.rule := by
  have hranked {p : Program} (hp : p.Arranges rules) (hagenda : p.agenda = agendaOf p.rules) :
      ((p.activations memory).map CompiledRule.rule).Pairwise fun a b => a.rank ≤ b.rank := by
    rw [hp.activations_eq hagenda]
    exact (acting_pairwise p.rules).sublist (List.filter_sublist.map _)
  refine List.Perm.eq_of_pairwise ?_ (hranked hp hagendap) (hranked hq hagendaq)
    (hp.activations_perm hq hagendap hagendaq memory)
  intro a b ha hb hab hba
  obtain ⟨hmema, hactsa, -⟩ := (hp.mem_acting_rules hagendap memory a).mp ha
  obtain ⟨hmemb, hactsb, -⟩ := (hq.mem_acting_rules hagendaq memory b).mp hb
  exact hapart.eq_of_rank hmema hmemb hactsa hactsb (Nat.le_antisymm hab hba)

end

end Program

/-! ## Passes with a result -/

namespace Effects

variable {e : Effects}

/-- With a result no action fails, and the result stays one. -/
theorem act_of_result (memory : Memory) (rule : String) (h : e.result.isSome = true)
    (a : Action) :
    (e.act memory rule a).2 = .ok () ∧ (e.act memory rule a).1.result.isSome = true := by
  obtain ⟨o, ho⟩ := Option.isSome_iff_exists.mp h
  have hupdate (f : Outcome → Outcome) :
      (e.update rule f).2 = .ok () ∧ (e.update rule f).1.result.isSome = true := by
    simp [update, ho]
  cases a with
  | set key operand =>
      simp only [act]
      cases operandJson? memory operand with
      | none => exact ⟨rfl, h⟩
      | some v => exact hupdate _
  | fail message => exact hupdate _
  | log message =>
      simp only [act]
      cases e.logger with
      | none => exact ⟨rfl, h⟩
      | some name => exact ⟨rfl, h⟩

theorem actAll_of_result (memory : Memory) (rule : String) (h : e.result.isSome = true)
    (actions : List Action) :
    (e.actAll memory rule actions).2 = .ok () ∧
      (e.actAll memory rule actions).1.result.isSome = true := by
  induction actions generalizing e with
  | nil => exact ⟨rfl, h⟩
  | cons a rest ih =>
      obtain ⟨hanswer, hresult⟩ := act_of_result memory rule h a
      rw [actAll]
      rcases hact : e.act memory rule a with ⟨e', answer⟩
      rw [hact] at hanswer hresult
      obtain rfl : answer = .ok () := hanswer
      exact ih hresult

end Effects

namespace Program

variable {memory : Memory} {deadline : Option Deadline}

/-- With a result it depends on the number of rules alone what running them answers. -/
theorem activate_answer_eq (looked : Nat) {acting acting' : List CompiledRule}
    (hlength : acting.length = acting'.length) (fired : Nat) {e e' : Effects}
    (h : e.result.isSome = true) (h' : e'.result.isSome = true) :
    (activate memory deadline looked acting fired e).2 =
      (activate memory deadline looked acting' fired e').2 := by
  induction acting generalizing acting' fired e e' with
  | nil =>
      obtain rfl := List.length_eq_zero_iff.mp hlength.symm
      rfl
  | cons r rest ih =>
      cases acting' with
      | nil => cases hlength
      | cons r' rest' =>
          obtain ⟨hanswer, hresult⟩ := Effects.actAll_of_result memory r.name h r.actions
          obtain ⟨hanswer', hresult'⟩ := Effects.actAll_of_result memory r'.name h' r'.actions
          rw [activate, activate]
          split
          · rfl
          · rcases hact : e.actAll memory r.name r.actions with ⟨e₁, answer⟩
            rcases hact' : e'.actAll memory r'.name r'.actions with ⟨e₁', answer'⟩
            rw [hact] at hanswer hresult
            rw [hact'] at hanswer' hresult'
            obtain rfl : answer = .ok () := hanswer
            obtain rfl : answer' = .ok () := hanswer'
            exact ih (Nat.succ.inj hlength) (fired + 1) hresult hresult'

/-- Running rules depends on what stands in the text of them alone. -/
theorem activate_congr (looked : Nat) {acting acting' : List CompiledRule}
    (hrules : acting.map CompiledRule.rule = acting'.map CompiledRule.rule) (fired : Nat)
    (e : Effects) :
    activate memory deadline looked acting fired e =
      activate memory deadline looked acting' fired e := by
  induction acting generalizing acting' fired e with
  | nil =>
      obtain rfl := List.map_eq_nil_iff.mp hrules.symm
      rfl
  | cons r rest ih =>
      cases acting' with
      | nil => cases hrules
      | cons r' rest' =>
          rw [List.map_cons, List.map_cons] at hrules
          obtain ⟨hrule, hrest⟩ := List.cons.inj hrules
          have hname : r.name = r'.name := congrArg Rule.name hrule
          have hactions : r.actions = r'.actions := congrArg Rule.actions hrule
          rw [activate, activate, hname, hactions]
          split
          · rfl
          · rcases e.actAll memory r'.name r'.actions with ⟨e', answer⟩
            cases answer with
            | ok _ => exact ih hrest (fired + 1) e'
            | error _ => rfl

section

variable {p q : Program} {rules : List Rule} (hp : p.Arranges rules) (hq : q.Arranges rules)
  (hagendap : p.agenda = agendaOf p.rules) (hagendaq : q.agenda = agendaOf q.rules)

include hp hq

/-- A pass is stopped before the first action in both arrangements or in none. -/
theorem Arranges.stopped_iff :
    (p.rules ≠ [] ∧ Deadline.passed deadline (p.rules.length - 1) = true) ↔
      (q.rules ≠ [] ∧ Deadline.passed deadline (q.rules.length - 1) = true) := by
  rw [← List.length_pos_iff, ← List.length_pos_iff, hp.length_eq hq]

include hagendap hagendaq

/-- Two arrangements answer a pass with a result alike. -/
theorem Arranges.fire_answer_eq {e : Effects} (h : e.result.isSome = true) :
    (p.fire memory deadline e).2 = (q.fire memory deadline e).2 := by
  unfold fire
  simp only [hp.stopped_iff hq]
  split
  · rfl
  · rw [hp.length_eq hq]
    exact activate_answer_eq _ (hp.activations_length hq hagendap hagendaq memory) 0 h h

/-- If the priorities tell the rules apart, two arrangements do the same. -/
theorem Arranges.fire_eq_of_apart (hapart : Rule.PrioritiesApart rules) (e : Effects) :
    p.fire memory deadline e = q.fire memory deadline e := by
  unfold fire
  simp only [hp.stopped_iff hq]
  split
  · rfl
  · rw [hp.length_eq hq]
    exact activate_congr _ (hp.activations_eq_of_apart hq hagendap hagendaq hapart memory) 0 e

end

end Program

/-! ## Sessions -/

namespace Session

variable {s : Session}

/-- A session over another program. -/
def withProgram (s : Session) (q : Program) : Session := { s with program := q }

theorem insert_withProgram (q : Program) (fact : Fact) : (s.withProgram q).insert fact = (s.insert fact).withProgram q := by
  by_cases hdisposed : s.disposed = true
  · have hdisposed' : (s.withProgram q).disposed = true := hdisposed
    rw [insert, if_pos hdisposed', insert, if_pos hdisposed]
  · have hdisposed' : ¬ (s.withProgram q).disposed = true := hdisposed
    rw [insert, if_neg hdisposed', insert, if_neg hdisposed]
    cases fact <;> rfl

/-- What facts do to a session does not depend on its program. -/
theorem foldl_insert_withProgram (q : Program) (facts : List Fact) :
    facts.foldl insert (s.withProgram q) = (facts.foldl insert s).withProgram q := by
  induction facts generalizing s with
  | nil => rfl
  | cons fact rest ih => rw [List.foldl_cons, insert_withProgram, ih, List.foldl_cons]

section

variable {q : Program} {rules : List Rule} (hp : s.program.Arranges rules) (hq : q.Arranges rules)
  (hagendap : s.program.agenda = Program.agendaOf s.program.rules)
  (hagendaq : q.agenda = Program.agendaOf q.rules)

include hp hq hagendap hagendaq

/-- With a result to work on, as many rules fire over another arrangement. -/
theorem fireAll_answer_withProgram (hresult : s.result.isSome = true) (deadline : Option Deadline) :
    ((s.withProgram q).fireAll deadline).2 = (s.fireAll deadline).2 := by
  have heffects : s.effects.result.isSome = true := by
    rw [effects, Option.isSome_map]
    exact hresult
  by_cases hdisposed : s.disposed = true
  · have hdisposed' : (s.withProgram q).disposed = true := hdisposed
    rw [fireAll, if_pos hdisposed', fireAll, if_pos hdisposed]
  · have hdisposed' : ¬ (s.withProgram q).disposed = true := hdisposed
    by_cases hfired : s.fired = true
    · have hfired' : (s.withProgram q).fired = true := hfired
      rw [fireAll, if_neg hdisposed', if_pos hfired', fireAll, if_neg hdisposed, if_pos hfired]
    · rw [fireAll_eq (s.withProgram q) hdisposed' hfired, fireAll_eq s hdisposed hfired]
      exact (hp.fire_answer_eq hq hagendap hagendaq heffects).symm

/-- If the priorities tell the rules apart, firing over another arrangement does the same. -/
theorem fireAll_withProgram (hapart : Rule.PrioritiesApart rules) (deadline : Option Deadline) :
    (s.withProgram q).fireAll deadline = ((s.fireAll deadline).1.withProgram q, (s.fireAll deadline).2) := by
  have hfire : (s.withProgram q).program.fire (s.withProgram q).memory deadline
      (s.withProgram q).effects = s.program.fire s.memory deadline s.effects :=
    (hp.fire_eq_of_apart hq hagendap hagendaq hapart s.effects).symm
  refine fireAll_map (f := (·.withProgram q)) s rfl rfl ?_ ?_
  · rw [hfire]
    rfl
  · rw [hfire]

end

theorem dispose_withProgram (q : Program) : (s.withProgram q).dispose = s.dispose.withProgram q := by
  by_cases hdisposed : s.disposed = true
  · have hdisposed' : (s.withProgram q).disposed = true := hdisposed
    rw [dispose, if_pos hdisposed', dispose, if_pos hdisposed]
  · have hdisposed' : ¬ (s.withProgram q).disposed = true := hdisposed
    rw [dispose, if_neg hdisposed', dispose, if_neg hdisposed]
    rfl

end Session

end Rulebook
