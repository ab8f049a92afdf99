/-
  Proofs/Service/Progress.lean --- no lookup is stuck.

  A lookup waits for the lock of a flight only while another lookup has it (`Locks`), and
  that one does not wait.  Steps of lookups leave the generations alone, so each of them
  lowers what lookups have left to do (`work`).  So at every moment of a run all lookups can
  be brought to their ends by steps of the lookups that are under way (`exists_turns`).
-/
import Mathlib.Algebra.BigOperators.Group.List.Basic
import Mathlib.Algebra.GroupWithZero.Nat
import Rulebook.Proofs.Service.History

set_option autoImplicit false

namespace Rulebook

/-! ## Locks -/

/-- The rule whose lock a lookup has. -/
def Lookup.holds? {π : Type} : Lookup π → Option RuleId
  | .check id | .read id _ | .compile id _ _ | .keep id _ _ | .release id _ => some id
  | _ => none

/-- The rule whose lock an operation has. -/
def Operation.holds? {π : Type} : Operation π → Option RuleId
  | .lookup _ phase => phase.holds?
  | _ => none

theorem Operation.joined?_of_holds? {π : Type} {op : Operation π} {id : RuleId}
    (h : op.holds? = some id) : op.joined? = some id := by
  cases op with
  | lookup key l =>
      cases l <;> first | exact h | exact absurd h (Option.some_ne_none id).symm
  | save _ _ _ => exact absurd h (Option.some_ne_none id).symm
  | delete _ _ => exact absurd h (Option.some_ne_none id).symm

theorem Operation.holds?_of_joined? {π : Type} {op : Operation π} (h : op.joined? = none) :
    op.holds? = none := by
  cases hholds : op.holds? with
  | none => rfl
  | some id => exact absurd (joined?_of_holds? hholds) (h ▸ (Option.some_ne_none id).symm)

/-- How a step changes who has which lock. -/
inductive Operation.LockEffect {π : Type} (w : Shared MemoryStore π) (op : Operation π)
    (w' : Shared MemoryStore π) (op' : Operation π) : Prop
  | same (hholds : op'.holds? = op.holds?)
      (hlocked : ∀ other, w'.cache.locked other = w.cache.locked other)
  | taken (id : RuleId) (hholds : op.holds? = none) (hholds' : op'.holds? = some id)
      (hfree : w.cache.locked id = false)
      (hlocked : ∀ other, w'.cache.locked other = if id = other then true else w.cache.locked other)
  | given (id : RuleId) (hholds : op.holds? = some id) (hholds' : op'.holds? = none)
      (hlocked : ∀ other, w'.cache.locked other = if id = other then false else w.cache.locked other)
  | left (id : RuleId) (hholds : op.holds? = none) (hholds' : op'.holds? = none)
      (hjoined : op.joined? = some id) (hcache : w'.cache = w.cache.leave id)

namespace Operation

variable {π τ : Type} {d : Deployment π τ} {w w' : Shared MemoryStore π} {op op' : Operation π}

theorem lockEffect_of_step {key : RuleKey} {l l' : Lookup π} (h : Lookup.Step d w l w' l') :
    LockEffect w (.lookup key l) w' (.lookup key l') := by
  cases h with
  | joined => exact .same rfl (Cache.locked_join w.cache _)
  | acquired hacquire =>
      obtain ⟨hfree, hlocked⟩ := Cache.locked_acquire hacquire
      exact .taken _ rfl rfl hfree hlocked
  | @released id answer flights hrelease =>
      refine .given id rfl rfl ?_
      intro other
      rw [← Cache.locked_release, hrelease]
  | left hleave => exact .left _ rfl rfl rfl hleave.symm
  | _ => exact .same rfl fun _ => rfl

theorem Effect.lock (h : Effect d w op w' op') : LockEffect w op w' op' := by
  cases h with
  | looked hstep => exact lockEffect_of_step hstep
  | saved => exact .same rfl fun _ => rfl
  | deleted => exact .same rfl fun _ => rfl
  | quiet hstore hcache hpending hpending' hsettled hjoined hjoined' =>
      refine .same ?_ fun other => by rw [hcache]
      rw [holds?_of_joined? hjoined, holds?_of_joined? hjoined']
  | settled hpending hpending' hsettled hsettled' hjoined hjoined' =>
      refine .same ?_ fun _ => rfl
      rw [holds?_of_joined? hjoined, holds?_of_joined? hjoined']

end Operation

namespace System

variable {π τ : Type} {d : Deployment π τ} {s s' : System π} {id : RuleId} {n : Nat}

/-- How many operations have the lock of a rule. -/
def holding (s : System π) (id : RuleId) : Nat := s.operations.countP (·.holds? = some id)

/-- A lock is held exactly while one operation has it. -/
def Locks (s : System π) : Prop :=
  ∀ id, s.holding id = if s.shared.cache.locked id then 1 else 0

/-- An operation that takes part in a flight without its lock is not the one with it. -/
theorem holding_lt_joined {op : Operation π} (hop : op ∈ s.operations)
    (hjoined : op.joined? = some id) (hholds : op.holds? = none) :
    s.holding id < s.joined id := by
  obtain ⟨before, later, heq⟩ := List.mem_iff_append.mp hop
  have hle : ∀ ops : List (Operation π),
      ops.countP (·.holds? = some id) ≤ ops.countP (·.joined? = some id) := by
    intro ops
    apply List.countP_mono_left
    intro other _ hother
    simp only [decide_eq_true_eq] at hother ⊢
    exact Operation.joined?_of_holds? hother
  have hbefore := hle before
  have hlater := hle later
  simp only [holding, joined, heq, List.countP_append, List.countP_cons, hjoined, hholds]
  simp only [decide_true, reduceCtorEq, decide_false, if_true, Bool.false_eq_true, if_false]
  omega

/-- The last lookup of a flight leaves no lock behind. -/
theorem Locks.locked_eq_false (hsound : s.Sound) (h : s.Locks) {op : Operation π}
    (hop : op ∈ s.operations) (hjoined : op.joined? = some id) (hholds : op.holds? = none)
    (hlast : (s.shared.cache.holders? id).getD 0 ≤ 1) : s.shared.cache.locked id = false := by
  have hlt := holding_lt_joined hop hjoined hholds
  have hjoinedLe : s.joined id ≤ 1 := by
    rw [hsound.flights, holdersOf, if_neg (Nat.ne_zero_of_lt hlt)] at hlast
    exact hlast
  have hcount := h id
  cases hlocked : s.shared.cache.locked id with
  | false => rfl
  | true =>
      rw [hlocked, if_pos rfl] at hcount
      omega

theorem Locks.start (d : Deployment π τ) (store : MemoryStore) : (after d store []).Locks :=
  fun _ => rfl

theorem Locks.move (hsound : s.Sound) (h : s.Locks) (hmove : Move d s s') : s'.Locks := by
  intro id
  have hlocks := h id
  cases hmove with
  | idle => exact hlocks
  | invalidated => exact hlocks
  | called request =>
      have hnone : (request.operation : Operation π).holds? = none :=
        Operation.holds?_of_joined? (Operation.joined?_operation request)
      have hsame : holding { s with operations := s.operations ++ [request.operation] } id =
          s.holding id := by
        simp [holding, hnone]
      rw [hsame]
      exact hlocks
  | @stepped n op op' w hop hstep =>
      have hcount := countP_set_add (p := fun op => op.holds? = some id) hop op'
      change holding ⟨w, s.operations.set n op'⟩ id + _ = s.holding id + _ at hcount
      generalize holding ⟨w, s.operations.set n op'⟩ id = after at hcount ⊢
      rw [hlocks] at hcount
      cases (hsound.effect hop hstep).lock with
      | same hholds hlocked =>
          rw [hholds] at hcount
          rw [hlocked]
          exact Nat.add_right_cancel hcount
      | taken other hholds hholds' hfree hlocked =>
          rw [hlocked]
          by_cases hid : other = id
          · subst hid
            simpa [hholds, hholds', hfree] using hcount
          · simpa [hholds, hholds', hid] using hcount
      | given other hholds hholds' hlocked =>
          rw [hlocked]
          by_cases hid : other = id
          · subst hid
            cases hheld : s.shared.cache.locked other <;> simp [hholds, hholds', hheld] at hcount ⊢
            exact hcount
          · simpa [hholds, hholds', hid] using hcount
      | left other hholds hholds' hjoined hcache =>
          have hlocked := Cache.locked_leave
            (h.locked_eq_false hsound (List.mem_of_getElem? hop) hjoined hholds) id
          rw [hcache, hlocked]
          simpa [hholds, hholds'] using hcount

end System

/-! ## Work -/

theorem sum_set_lt {values : List Nat} {n a b : Nat} (ha : values[n]? = some a) (hlt : b < a) :
    (values.set n b).sum < values.sum := by
  obtain ⟨hn, rfl⟩ := List.getElem?_eq_some_iff.mp ha
  have hsame : values.sum = (values.set n values[n]).sum := by rw [List.set_getElem_self]
  rw [hsame, List.sum_set, List.sum_set, if_pos hn, if_pos hn]
  omega

/-- How many steps a lookup has left at most if no rule is invalidated from now on. -/
def Lookup.work {π : Type} (generation : RuleId → Nat) : Lookup π → Nat
  | .byName _ => 13
  | .noteEpoch _ => 12
  | .findName _ _ => 11
  | .recordName _ _ _ => 10
  | .byId _ => 9
  | .join _ => 8
  | .acquire _ => 7
  | .check _ => 6
  -- A lookup that noted an outdated generation starts over.
  | .read id noted => if generation id = noted then 5 else 9
  | .compile id noted _ => if generation id = noted then 4 else 8
  | .keep id noted _ => if generation id = noted then 3 else 7
  | .release _ _ => 2
  | .leave _ _ => 1
  | .done _ => 0

/-- How many steps an operation has left at most as a lookup. -/
def Operation.work {π : Type} (generation : RuleId → Nat) : Operation π → Nat
  | .lookup _ phase => phase.work generation
  | _ => 0

section

variable {π τ : Type} {d : Deployment π τ} {w w' : Shared MemoryStore π} {l l' : Lookup π}

/-- Every step of a lookup is one less to make. -/
theorem Lookup.Step.work_lt (h : Step d w l w' l') :
    l'.work w.cache.generation < l.work w.cache.generation := by
  cases h with
  | missedStill => simp [Lookup.work]
  | absent | found | refused | compiled =>
      simp only [Lookup.work]
      split <;> decide
  | kept hsame | outdated hsame => simp [Lookup.work, hsame]
  | _ => simp [Lookup.work]

/-- A lookup that has the lock of a flight does not wait. -/
theorem Lookup.exists_step_of_holds? {id : RuleId} (h : l.holds? = some id) :
    ∃ next, l.step d w = some next := by
  cases l with
  | check _ | read _ _ | compile _ _ _ | keep _ _ _ =>
      simp only [step, RuleStore.findById]
      split <;> exact ⟨_, rfl⟩
  | release _ _ => exact ⟨_, rfl⟩
  | _ => cases h

/-- A lookup waits for nothing but a lock. -/
theorem Lookup.exists_step (hdone : ∀ answer, l ≠ .done answer)
    (hfree : ∀ id, l = .acquire id → ∃ c, w.cache.acquire? id = some c) :
    ∃ next, l.step d w = some next := by
  cases l with
  | acquire id =>
      obtain ⟨c, hc⟩ := hfree id rfl
      exact ⟨_, by rw [step, hc, Option.map_some]⟩
  | done answer => exact absurd rfl (hdone answer)
  | byName _ | findName _ _ | byId _ =>
      simp only [step, RuleStore.findByName]
      split <;> exact ⟨_, rfl⟩
  | noteEpoch _ | recordName _ _ _ | join _ | leave _ _ => exact ⟨_, rfl⟩
  | _ => exact exists_step_of_holds? rfl

end

/-! ## Runs -/

namespace System

variable {π τ : Type} {d : Deployment π τ} {s : System π} {n : Nat} {key : RuleKey} {l : Lookup π}

/-- How many steps the lookups of a system have left at most. -/
def work (s : System π) : Nat :=
  (s.operations.map (·.work s.shared.cache.generation)).sum

/-- While a lookup is not done, it or the one that it waits for can make a step. -/
theorem Sound.exists_turn (hsound : s.Sound) (hlocks : s.Locks)
    (hop : s.operations[n]? = some (.lookup key l)) (hdone : ∀ answer, l ≠ .done answer) :
    ∃ (m : Nat) (key' : RuleKey) (l' : Lookup π) (next : Shared MemoryStore π × Lookup π),
      s.operations[m]? = some (.lookup key' l') ∧ l'.step d s.shared = some next := by
  by_cases hfree : ∀ id, l = .acquire id → ∃ c, s.shared.cache.acquire? id = some c
  · obtain ⟨next, hnext⟩ := Lookup.exists_step (d := d) hdone hfree
    exact ⟨n, key, l, next, hop, hnext⟩
  · push Not at hfree
    obtain ⟨id, rfl, hwaits⟩ := hfree
    have hflight : s.shared.cache.holders? id ≠ none :=
      hsound.holders?_ne_none (List.mem_of_getElem? hop) rfl
    have hlocked : s.shared.cache.locked id = true := by
      by_contra hnot
      obtain ⟨c, hc⟩ := Cache.acquire?_of_free hflight (Bool.eq_false_iff.mpr hnot)
      exact hwaits c hc
    have hheld : 0 < s.operations.countP (·.holds? = some id) := by
      have hone := hlocks id
      rw [hlocked, if_pos rfl] at hone
      exact Nat.lt_of_lt_of_eq Nat.zero_lt_one hone.symm
    obtain ⟨holder, hmem, hholds⟩ := List.countP_pos_iff.mp hheld
    obtain ⟨m, hm⟩ := List.mem_iff_getElem?.mp hmem
    rw [decide_eq_true_eq] at hholds
    cases holder with
    | lookup key' l' =>
        obtain ⟨next, hnext⟩ := Lookup.exists_step_of_holds? (d := d) (w := s.shared) hholds
        exact ⟨m, key', l', next, hm, hnext⟩
    | save _ _ _ => cases hholds
    | delete _ _ => cases hholds

/-- A step of a lookup is one less for all of them together. -/
theorem work_lt {w : Shared MemoryStore π} {l' : Lookup π}
    (hop : s.operations[n]? = some (.lookup key l)) (hstep : Lookup.Step d s.shared l w l') :
    work ⟨w, s.operations.set n (.lookup key l')⟩ < s.work := by
  have hgeneration : w.cache.generation = s.shared.cache.generation := by
    funext id
    rw [Cache.generation, hstep.frame.2.2.1, Cache.generation]
  rw [work, hgeneration, List.map_set, work]
  refine sum_set_lt (a := l.work s.shared.cache.generation) ?_ hstep.work_lt
  rw [List.getElem?_map, hop]
  rfl

variable {store : MemoryStore}

theorem locks_after (hkeyed : store.Keyed) (events : List Event) :
    (after d store events).Locks := by
  induction events using List.reverseRecOn with
  | nil => exact .start d store
  | append_singleton past event ih =>
      rw [after_append_singleton]
      exact ih.move (sound_after hkeyed past) (move_next d _ event)

/-- What was called for as a lookup is one at every later moment. -/
theorem Move.lookup {s' : System π} (hmove : Move d s s')
    (hop : s.operations[n]? = some (.lookup key l)) :
    ∃ l', s'.operations[n]? = some (.lookup key l') := by
  obtain ⟨op', hop', rfl | hstep⟩ := hmove.getElem? hop
  · exact ⟨l, hop'⟩
  · obtain ⟨next, -, heq⟩ := Option.map_eq_some_iff.mp hstep
    obtain ⟨-, rfl⟩ := Prod.mk.inj heq
    exact ⟨next.2, hop'⟩

/-- A lookup is one at every later moment. -/
theorem lookup_later {past events : List Event} (hpast : past <+: events)
    (hop : (after d store past).operations[n]? = some (.lookup key l)) :
    ∃ l', (after d store events).operations[n]? = some (.lookup key l') := by
  induction events using List.reverseRecOn with
  | nil =>
      obtain rfl := List.prefix_nil.mp hpast
      exact ⟨l, hop⟩
  | append_singleton recent event ih =>
      rcases List.prefix_concat_iff.mp hpast with rfl | hrecent
      · exact ⟨l, hop⟩
      · obtain ⟨l₁, hl₁⟩ := ih hrecent
        rw [after_append_singleton]
        exact (move_next d _ event).lookup hl₁

/-- **Progress.**  At every moment of a run, all lookups that were called for can be brought
to their ends by steps of lookups that are under way. -/
theorem exists_turns (d : Deployment π τ) (hkeyed : store.Keyed) (events : List Event) :
    ∃ turns : List Nat,
      (∀ m ∈ turns, ∃ key l, (after d store events).operations[m]? = some (.lookup key l)) ∧
      ∀ key l, .lookup key l ∈ (after d store (events ++ turns.map .step)).operations →
        ∃ answer, l = .done answer := by
  induction hwork : (after d store events).work using Nat.strongRecOn generalizing events with
  | ind k ih =>
      by_cases hdone : ∀ key l, .lookup key l ∈ (after d store events).operations →
          ∃ answer, l = .done answer
      · exact ⟨[], by simp, by rwa [List.map_nil, List.append_nil]⟩
      · push Not at hdone
        obtain ⟨key, l, hmem, hdone⟩ := hdone
        obtain ⟨n, hop⟩ := List.mem_iff_getElem?.mp hmem
        obtain ⟨m, key', l', ⟨w, l''⟩, hm, hnext⟩ := (sound_after (d := d) hkeyed events).exists_turn
          (locks_after hkeyed events) hop hdone
        have hafter : after d store (events ++ [.step m]) =
            ⟨w, (after d store events).operations.set m (.lookup key' l'')⟩ := by
          have hstep : (Operation.lookup key' l').step d (after d store events).shared =
              some (w, .lookup key' l'') := by
            rw [Operation.step, hnext, Option.map_some]
          simp only [after_append_singleton, next, hm, hstep]
        have hlt := work_lt hm (Lookup.of_step hnext)
        rw [← hafter, hwork] at hlt
        obtain ⟨turns, hlookups, hends⟩ := ih _ hlt _ rfl
        refine ⟨m :: turns, ?_, by rwa [List.map_cons, List.append_cons]⟩
        intro other hother
        rcases List.mem_cons.mp hother with rfl | hlater
        · exact ⟨key', l', hm⟩
        · obtain ⟨key₁, l₁, hl₁⟩ := hlookups other hlater
          rw [hafter] at hl₁
          by_cases heq : m = other
          · exact ⟨key', l', heq ▸ hm⟩
          · exact ⟨key₁, l₁, (List.getElem?_set_ne heq).symm.trans hl₁⟩

/-- At every moment of a run, a lookup that was called for can be brought to its end. -/
theorem exists_done (d : Deployment π τ) (hkeyed : store.Keyed) (events : List Event)
    (hop : (after d store events).operations[n]? = some (.lookup key l)) :
    ∃ (turns : List Nat) (answer : Except RuleError (Compiled π)),
      (after d store (events ++ turns.map .step)).operations[n]? =
        some (.lookup key (.done answer)) := by
  obtain ⟨turns, -, hends⟩ := exists_turns d hkeyed events
  obtain ⟨l', hop'⟩ := lookup_later (List.prefix_append events (turns.map .step)) hop
  obtain ⟨answer, rfl⟩ := hends key l' (List.mem_of_getElem? hop')
  exact ⟨turns, answer, hop'⟩

end System

end Rulebook
