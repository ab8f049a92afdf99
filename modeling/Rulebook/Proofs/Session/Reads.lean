/-
  Proofs/Session/Reads.lean --- what rules do not read does not matter.

  A firing pass looks at working memory only where its rules do: at the paths of their
  comparisons and of their set actions.  Over two memories with the same values there
  (`Memory.SameFor`) conditions hold alike, the same rules act, and their actions do the
  same (`fire_of_sameFor`).  A session keeps nothing else of its memory when it is
  disposed of, so that it ends in the same state (`fireAll_withMemory`).
-/
import Rulebook.Proofs.Program.Arrangement
import Rulebook.Proofs.Program.WellFormed
import Rulebook.Proofs.Session.Relabel

set_option autoImplicit false

namespace Rulebook

/-- Two memories with the same values at all paths that rules read. -/
def Memory.SameFor (rules : List CompiledRule) (m m' : Memory) : Prop :=
  ∀ r ∈ rules, ∀ path, r.rule.ReadsPath path → m.get? path = m'.get? path

/-! ## Conditions -/

/-- A condition is decided by the values that it compares. -/
theorem Condition.holds_congr {value? value?' : Path → Option Value} (rule : String → Bool)
    {c : Condition} (h : ∀ path op literal, (path, op, literal) ∈ c.comparisons →
      value? path = value?' path) : c.holds value? rule = c.holds value?' rule := by
  induction c with
  | compare path op literal =>
      rw [holds, holds, h path op literal (List.mem_singleton_self _)]
  | rule name => rfl
  | and l r ihl ihr =>
      rw [holds, holds, ihl fun path op literal hl => h path op literal (List.mem_append_left _ hl),
        ihr fun path op literal hr => h path op literal (List.mem_append_right _ hr)]
  | or l r ihl ihr =>
      rw [holds, holds, ihl fun path op literal hl => h path op literal (List.mem_append_left _ hl),
        ihr fun path op literal hr => h path op literal (List.mem_append_right _ hr)]
  | not e ih => rw [holds, holds, ih h]

/-! ## Actions -/

namespace Effects

variable {m m' : Memory} {rule : String}

theorem act_congr {e : Effects} {a : Action}
    (h : ∀ key path, a = .set key (.path path) → m.get? path = m'.get? path) :
    e.act m rule a = e.act m' rule a := by
  cases a with
  | set key operand =>
      cases operand with
      | literal v => rfl
      | path path => rw [act, act, operandJson?, operandJson?, h key path rfl]
  | fail _ | log _ => rfl

theorem actAll_congr {e : Effects} {actions : List Action}
    (h : ∀ key path, .set key (.path path) ∈ actions → m.get? path = m'.get? path) :
    e.actAll m rule actions = e.actAll m' rule actions := by
  induction actions generalizing e with
  | nil => rfl
  | cons a rest ih =>
      have hact : e.act m rule a = e.act m' rule a := act_congr fun key path ha =>
        h key path (List.mem_cons.mpr (.inl ha.symm))
      rw [actAll, actAll, hact]
      rcases e.act m' rule a with ⟨e', answer⟩
      cases answer with
      | error _ => rfl
      | ok _ => exact ih fun key path hmem => h key path (List.mem_cons_of_mem _ hmem)

end Effects

/-! ## Passes -/

namespace Program

variable {p : Program} {m m' : Memory} {deadline : Option Deadline}

theorem verdicts_of_sameFor (h : m.SameFor p.rules m') : p.verdicts m = p.verdicts m' := by
  refine List.foldl_ext _ _ _ fun found r hr => ?_
  have hholds : r.condition.holds m.get? (p.verdict found) =
      r.condition.holds m'.get? (p.verdict found) :=
    Condition.holds_congr _ fun path op literal hcomparison =>
      h r hr path (.inl ⟨op, literal, hcomparison⟩)
  rw [hholds]

theorem mem_rules_of_mem_activations {r : CompiledRule} (h : r ∈ p.activations m) : r ∈ p.rules := by
  obtain ⟨i, -, hi⟩ := List.mem_filterMap.mp h
  exact List.mem_of_getElem? hi

theorem activate_of_sameFor {rules : List CompiledRule} (h : m.SameFor rules m') (looked fired : Nat)
    (e : Effects) :
    activate m deadline looked rules fired e = activate m' deadline looked rules fired e := by
  induction rules generalizing fired e with
  | nil => rfl
  | cons r rest ih =>
      obtain ⟨hr, hrest⟩ := List.forall_mem_cons.mp h
      have hact : e.actAll m r.name r.actions = e.actAll m' r.name r.actions :=
        Effects.actAll_congr fun key path hmem => hr path (.inr ⟨key, hmem⟩)
      rw [activate, activate, hact]
      split
      · rfl
      · rcases e.actAll m' r.name r.actions with ⟨e', answer⟩
        cases answer with
        | error _ => rfl
        | ok _ => exact ih hrest (fired + 1) e'

/-- A firing pass does the same over memories that are the same for its rules. -/
theorem fire_of_sameFor (h : m.SameFor p.rules m') (e : Effects) :
    p.fire m deadline e = p.fire m' deadline e := by
  have hacting : p.activations m = p.activations m' := by
    unfold activations
    rw [verdicts_of_sameFor h]
  unfold fire
  split
  · rfl
  · rw [hacting]
    exact activate_of_sameFor (fun r hr => h r (mem_rules_of_mem_activations hr)) _ 0 e

end Program

/-! ## Sessions -/

namespace Session

/-- A session over another memory. -/
def withMemory (s : Session) (m : Memory) : Session := { s with memory := m }

variable {s : Session} {m : Memory}

/-- Firing over another memory does the same if rules cannot tell the two apart. -/
theorem fireAll_withMemory (h : m.SameFor s.program.rules s.memory) (deadline : Option Deadline) :
    (s.withMemory m).fireAll deadline =
      ((s.fireAll deadline).1.withMemory m, (s.fireAll deadline).2) := by
  have hfire : (s.withMemory m).program.fire (s.withMemory m).memory deadline
      (s.withMemory m).effects = s.program.fire s.memory deadline s.effects :=
    Program.fire_of_sameFor h s.effects
  refine fireAll_map (f := (·.withMemory m)) s rfl rfl ?_ ?_
  · rw [hfire]
    rfl
  · rw [hfire]

/-- Disposing of a session empties its memory. -/
theorem dispose_withMemory (hdisposed : s.disposed = false) : (s.withMemory m).dispose = s.dispose := by
  have hdisposed' : (s.withMemory m).disposed = false := hdisposed
  rw [dispose, dispose, hdisposed, hdisposed']
  rfl

theorem disposed_fireAll (s : Session) (deadline : Option Deadline) :
    (s.fireAll deadline).1.disposed = s.disposed := by
  unfold fireAll
  split
  · rfl
  · split <;> rfl

end Session

end Rulebook
