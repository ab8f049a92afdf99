/-
  Proofs/Service/Generations.lean --- which rules have a generation.

  An invalidation counts in the generation of its rule if the rule has a flight, and drops
  the generation if it has none.  Nothing else changes it; in particular the end of a flight
  does not.  So a rule has a generation just if its last invalidation came while a lookup of
  it was in flight (`has_generation_iff`), however long ago that was: the generation of a
  rule that is deleted while it is compiled stays (`generations_outlive_flights`).
-/
import Mathlib.Data.List.Induction
import Rulebook.Proofs.Service.SingleFlight

set_option autoImplicit false

namespace Rulebook

/-- Whether a rule has a generation after an invalidation. -/
theorem Cache.has_generations_invalidate {π : Type} (c : Cache π) (id other : RuleId) :
    (c.invalidate other).generations.has id =
      if other = id then (c.holders? id).isSome else c.generations.has id := by
  have hgenerations : (c.invalidate other).generations =
      if (c.holders? other).isSome then c.generations.put other (c.generation other + 1)
      else c.generations.erase other := by
    rw [holders?, Option.isSome_map]
    rfl
  rw [hgenerations, Table.has]
  by_cases hid : other = id
  · subst hid
    cases (c.holders? other).isSome <;> simp [Table.get?_put, Table.get?_erase]
  · cases (c.holders? other).isSome <;>
      simp [Table.get?_put, Table.get?_erase, hid, Table.has]

/-- A mutation that has written does not wait. -/
theorem Operation.pending?_of_step_none {π τ : Type} {d : Deployment π τ}
    {w : Shared MemoryStore π} {op : Operation π} (h : op.step d w = none) :
    op.pending? = none := by
  cases op with
  | lookup _ _ => rfl
  | save draft now phase =>
      cases phase with
      | invalidate id => cases h
      | _ => rfl
  | delete id phase =>
      cases phase with
      | invalidate id removed => cases h
      | _ => rfl

namespace System

variable {π τ : Type} {d : Deployment π τ} {s : System π} {event : Event} {id : RuleId}

theorem Sound.isSome_holders? (h : s.Sound) (id : RuleId) :
    (s.shared.cache.holders? id).isSome = true ↔ s.joined id ≠ 0 := by
  rw [h.flights, holdersOf]
  split <;> simp_all

/-- An event invalidates a rule, or leaves the generations alone. -/
theorem Sound.generations_next (h : s.Sound) (d : Deployment π τ) (event : Event) :
    (∃ other, s.invalidated? event = some other ∧
      (s.next d event).shared.cache = s.shared.cache.invalidate other) ∨
    (s.invalidated? event = none ∧
      (s.next d event).shared.cache.generations = s.shared.cache.generations) := by
  cases event with
  | call request => exact Or.inr ⟨rfl, rfl⟩
  | invalidate other => exact Or.inl ⟨other, rfl, rfl⟩
  | step n =>
      simp only [next, invalidated?]
      cases hop : s.operations[n]? with
      | none => exact Or.inr ⟨rfl, rfl⟩
      | some op =>
          simp only [Option.bind_some]
          cases hstep : op.step d s.shared with
          | none => exact Or.inr ⟨Operation.pending?_of_step_none hstep, rfl⟩
          | some result =>
              obtain ⟨w, op'⟩ := result
              cases h.effect hop hstep with
              | looked hlook => exact Or.inr ⟨rfl, hlook.frame.2.2.1⟩
              | quiet hstore hcache hpending =>
                  exact Or.inr ⟨hpending, congrArg Cache.generations hcache⟩
              | saved hphase => exact Or.inr ⟨hphase.1, rfl⟩
              | deleted hphase => exact Or.inr ⟨by simp [Operation.pending?, hphase.1], rfl⟩
              | settled hpending => exact Or.inl ⟨_, hpending, rfl⟩

/-- Invalidations of a rule decide whether it has a generation, and nothing else does. -/
theorem Sound.has_generations_next (h : s.Sound) (d : Deployment π τ) (event : Event)
    (id : RuleId) :
    (s.next d event).shared.cache.generations.has id = true ↔
      s.invalidated? event = some id ∧ s.joined id ≠ 0 ∨
        s.invalidated? event ≠ some id ∧ s.shared.cache.generations.has id = true := by
  rcases h.generations_next d event with ⟨other, hother, hcache⟩ | ⟨hnone, hsame⟩
  · rw [hcache, Cache.has_generations_invalidate, hother]
    by_cases hid : other = id
    · simp [hid, h.isSome_holders?]
    · simp [hid]
  · simp [hsame, hnone]

variable {store : MemoryStore}

/-- **Which rules have a generation.**  Whatever callers do at the same time, a rule has a
generation just if it was invalidated while a lookup of it was in flight, and not again
since.  It does not matter whether a lookup of it is in flight now. -/
theorem has_generation_iff (d : Deployment π τ) (hkeyed : store.Keyed) (events : List Event)
    (id : RuleId) :
    (after d store events).shared.cache.generations.has id = true ↔
      ∃ past event later, events = past ++ event :: later ∧
        (after d store past).invalidated? event = some id ∧ (after d store past).joined id ≠ 0 ∧
        id ∉ log d invalidated? (after d store (past ++ [event])) later := by
  induction events using List.reverseRecOn with
  | nil =>
      constructor
      · intro hhas
        cases hhas
      · rintro ⟨past, event, later, hevents, -⟩
        simp at hevents
  | append_singleton run event ih =>
      have hsound : (after d store run).Sound := sound_after hkeyed run
      rw [after_append_singleton, hsound.has_generations_next, ih]
      constructor
      · -- the last event is the invalidation that we look for, or comes after it
        rintro (⟨hlast, hjoined⟩ | ⟨hother, past, first, later, rfl, hfirst, hjoined, hsince⟩)
        · exact ⟨run, event, [], rfl, hlast, hjoined, List.not_mem_nil⟩
        · refine ⟨past, first, later ++ [event], by simp, hfirst, hjoined, ?_⟩
          rw [invalidated_append_singleton, List.mem_append, not_or]
          refine ⟨hsince, ?_⟩
          simpa using hother
      · rintro ⟨past, first, later, hevents, hfirst, hjoined, hsince⟩
        rcases List.eq_nil_or_concat later with rfl | ⟨rest, last, rfl⟩
        · obtain ⟨rfl, heq⟩ := List.append_inj' hevents rfl
          obtain rfl := List.singleton_inj.mp heq
          exact Or.inl ⟨hfirst, hjoined⟩
        · have hsplit : run ++ [event] = (past ++ first :: rest) ++ [last] := by
            simpa using hevents
          obtain ⟨rfl, heq⟩ := List.append_inj' hsplit rfl
          obtain rfl := List.singleton_inj.mp heq
          rw [List.concat_eq_append, invalidated_append_singleton, List.mem_append,
            not_or] at hsince
          refine Or.inr ⟨?_, past, first, rest, rfl, hfirst, hjoined, hsince.1⟩
          simpa using hsince.2

/-- A rule is saved, and deleted while a lookup of it hands its text to the engine.  The three
operations have the numbers from `n` on. -/
def deletionInFlight (n : Nat) (id : RuleId) : List Event :=
  List.flatten
    [[.call (.save (.new "door" "open") ⟨0, 0⟩)], List.replicate 6 (.step n),
      [.call (.lookup (.id id))], List.replicate 5 (.step (n + 1)),
      [.call (.delete id)], List.replicate 5 (.step (n + 2)), List.replicate 7 (.step (n + 1))]

/-- This happens to two rules, one after the other. -/
def deletedInFlight : List Event := deletionInFlight 0 ⟨1⟩ ++ deletionInFlight 3 ⟨2⟩

theorem has_generation_iff_deletedInFlight :
    MemoryStore.empty.Keyed ∧
      ∃ past event later, deletedInFlight = past ++ event :: later ∧
        (after .unread .empty past).invalidated? event = some ⟨1⟩ ∧
        (after .unread .empty past).joined ⟨1⟩ ≠ 0 ∧
        ⟨1⟩ ∉ log .unread invalidated? (after .unread .empty (past ++ [event])) later := by
  have hkept : (after .unread .empty deletedInFlight).shared.cache.generations.has ⟨1⟩ = true := by
    decide +kernel
  exact ⟨MemoryStore.keyed_empty,
    (has_generation_iff .unread MemoryStore.keyed_empty deletedInFlight ⟨1⟩).mp hkept⟩

/-- With all flights over and all rules gone, the generations of the deleted rules are still
there. -/
theorem generations_outlive_flights :
    let s := after .unread .empty deletedInFlight
    s.shared.store.rules = [] ∧ s.shared.cache.flights = [] ∧
      s.shared.cache.generations = [(⟨1⟩, 1), (⟨2⟩, 1)] ∧
      ¬ ∀ id, s.shared.cache.generations.has id = true → s.joined id ≠ 0 := by
  intro s
  refine ⟨by decide +kernel, by decide +kernel, by decide +kernel, fun hclaim => ?_⟩
  have hkept : s.shared.cache.generations.has ⟨1⟩ = true := by decide +kernel
  have hover : s.joined ⟨1⟩ = 0 := by decide +kernel
  exact hclaim ⟨1⟩ hkept hover

end System

end Rulebook
