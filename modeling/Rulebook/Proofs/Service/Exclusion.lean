/-
  Proofs/Service/Exclusion.lean --- mutations exclude one another, and come to their end.

  A mutation takes the lock of mutations before it looks at the store, and gives it back
  when it has invalidated what it wrote, or failed.  The flag that operations share is set
  exactly while one mutation is between the two (`Exclusive`), so a mutation that waits
  waits for another one that can go on; and every step of a mutation leaves it less to do.
  Hence a mutation can always be brought to its end by steps of mutations that are under
  way (`exists_returned`).
-/
import Rulebook.Proofs.Service.Progress

set_option autoImplicit false

namespace Rulebook

/-! ## The lock of mutations -/

/-- Whether a save has the lock of mutations. -/
def Saving.mutates : Saving → Bool
  | .find _ _ | .checkName _ _ | .write _ _ | .invalidate _ | .unlock _ => true
  | _ => false

/-- Whether a deletion has the lock of mutations. -/
def Deleting.mutates : Deleting → Bool
  | .find _ | .remove _ _ | .invalidate _ _ | .unlock _ => true
  | _ => false

/-- How many steps a save has left at most. -/
def Saving.left : Saving → Nat
  | .normalize _ => 8
  | .verify _ => 7
  | .lock _ => 6
  | .find _ _ => 5
  | .checkName _ _ => 4
  | .write _ _ => 3
  | .invalidate _ => 2
  | .unlock _ => 1
  | .done _ => 0

/-- How many steps a deletion has left at most. -/
def Deleting.left : Deleting → Nat
  | .lock _ => 5
  | .find _ => 4
  | .remove _ _ => 3
  | .invalidate _ _ => 2
  | .unlock _ => 1
  | .done _ => 0

/-- How a step changes who has the lock of mutations. -/
inductive Exclusion (before after : Bool) (free free' : Bool) : Prop
  /-- It stays with whom it was. -/
  | same (hmutates : after = before) (hfree : free' = free)
  /-- It is taken. -/
  | taken (hbefore : before = false) (hafter : after = true) (hfree : free = true)
      (hfree' : free' = false)
  /-- It is given back. -/
  | given (hbefore : before = true) (hafter : after = false) (hfree' : free' = true)

section

variable {π τ : Type} {d : Deployment π τ} {now : Timestamp} {w w' : Shared MemoryStore π}

theorem Saving.exclusion_of_step {s s' : Saving} (h : s.step d now w = some (w', s')) :
    Exclusion s.mutates s'.mutates (!w.mutating) (!w'.mutating) ∧ s'.left < s.left := by
  cases s with
  | normalize draft =>
      simp only [step] at h
      split at h <;> obtain ⟨rfl, rfl⟩ := Prod.mk.inj (Option.some.inj h)
      · exact ⟨.same rfl rfl, by simp [left]⟩
      · split <;> exact ⟨.same rfl rfl, by simp [left]⟩
  | verify draft =>
      simp only [step] at h
      split at h <;> obtain ⟨rfl, rfl⟩ := Prod.mk.inj (Option.some.inj h) <;>
        exact ⟨.same rfl rfl, by simp [left]⟩
  | lock draft =>
      simp only [step] at h
      split at h
      · cases h
      · rename_i hfree
        have hfree : w.mutating = false := Bool.eq_false_iff.mpr hfree
        obtain ⟨rfl, rfl⟩ := Prod.mk.inj (Option.some.inj h)
        cases draft.id <;> exact ⟨.taken rfl rfl (by simp [hfree]) rfl, by simp [left]⟩
  | find draft id =>
      simp only [step, RuleStore.findById] at h
      split at h <;> obtain ⟨rfl, rfl⟩ := Prod.mk.inj (Option.some.inj h) <;>
        exact ⟨.same rfl rfl, by simp [left]⟩
  | checkName draft existing =>
      simp only [step, RuleStore.existsByName] at h
      split at h <;> obtain ⟨rfl, rfl⟩ := Prod.mk.inj (Option.some.inj h) <;>
        exact ⟨.same rfl rfl, by simp [left]⟩
  | write draft existing =>
      simp only [step] at h
      split at h <;> obtain ⟨rfl, rfl⟩ := Prod.mk.inj (Option.some.inj h) <;>
        exact ⟨.same rfl rfl, by simp [left]⟩
  | invalidate id =>
      obtain ⟨rfl, rfl⟩ := Prod.mk.inj (Option.some.inj h)
      exact ⟨.same rfl rfl, by simp [left]⟩
  | unlock answer =>
      obtain ⟨rfl, rfl⟩ := Prod.mk.inj (Option.some.inj h)
      exact ⟨.given rfl rfl rfl, by simp [left]⟩
  | done answer => cases h

theorem Deleting.exclusion_of_step {x x' : Deleting} (h : x.step w = some (w', x')) :
    Exclusion x.mutates x'.mutates (!w.mutating) (!w'.mutating) ∧ x'.left < x.left := by
  cases x with
  | lock id =>
      simp only [step] at h
      split at h
      · cases h
      · rename_i hfree
        have hfree : w.mutating = false := Bool.eq_false_iff.mpr hfree
        obtain ⟨rfl, rfl⟩ := Prod.mk.inj (Option.some.inj h)
        exact ⟨.taken rfl rfl (by simp [hfree]) rfl, by simp [left]⟩
  | find id =>
      simp only [step, RuleStore.findById] at h
      split at h <;> obtain ⟨rfl, rfl⟩ := Prod.mk.inj (Option.some.inj h) <;>
        exact ⟨.same rfl rfl, by simp [left]⟩
  | remove id existing =>
      simp only [step, RuleStore.delete] at h
      obtain ⟨rfl, rfl⟩ := Prod.mk.inj (Option.some.inj h)
      exact ⟨.same rfl rfl, by simp [left]⟩
  | invalidate id removed =>
      obtain ⟨rfl, rfl⟩ := Prod.mk.inj (Option.some.inj h)
      exact ⟨.same rfl rfl, by simp [left]⟩
  | unlock answer =>
      obtain ⟨rfl, rfl⟩ := Prod.mk.inj (Option.some.inj h)
      exact ⟨.given rfl rfl rfl, by simp [left]⟩
  | done answer => cases h

/-- A save waits for nothing but the lock of mutations. -/
theorem Saving.exists_step (now : Timestamp) {s : Saving} (hdone : s.left ≠ 0)
    (hfree : s.mutates = true ∨ w.mutating = false) : ∃ next, s.step d now w = some next := by
  cases s with
  | lock draft =>
      have hfree : w.mutating = false := hfree.resolve_left (by simp [mutates])
      exact ⟨_, by rw [step, hfree, if_neg Bool.false_ne_true]⟩
  | done answer => exact absurd rfl hdone
  | invalidate _ | unlock _ => exact ⟨_, rfl⟩
  | _ =>
      simp only [step, RuleStore.findById, RuleStore.existsByName]
      split <;> exact ⟨_, rfl⟩

theorem Deleting.exists_step {x : Deleting} (hdone : x.left ≠ 0)
    (hfree : x.mutates = true ∨ w.mutating = false) : ∃ next, x.step w = some next := by
  cases x with
  | lock id =>
      have hfree : w.mutating = false := hfree.resolve_left (by simp [mutates])
      exact ⟨_, by rw [step, hfree, if_neg Bool.false_ne_true]⟩
  | done answer => exact absurd rfl hdone
  | invalidate _ _ | unlock _ | remove _ _ => exact ⟨_, rfl⟩
  | find _ =>
      simp only [step, RuleStore.findById]
      split <;> exact ⟨_, rfl⟩

end

/-! ## Operations -/

namespace Operation

variable {π τ : Type} {d : Deployment π τ} {w w' : Shared MemoryStore π} {op op' : Operation π}

/-- Whether an operation has the lock of mutations. -/
def mutates : Operation π → Bool
  | .lookup _ _ => false
  | .save _ _ phase => phase.mutates
  | .delete _ phase => phase.mutates

/-- How many steps an operation has left at most as a mutation. -/
def left : Operation π → Nat
  | .lookup _ _ => 0
  | .save _ _ phase => phase.left
  | .delete _ phase => phase.left

theorem exclusion_of_step (h : op.step d w = some (w', op')) :
    Exclusion op.mutates op'.mutates (!w.mutating) (!w'.mutating) ∧
      (op'.left < op.left ∨ op'.left = 0 ∧ op.left = 0) := by
  cases op with
  | lookup key l =>
      obtain ⟨⟨w', l'⟩, hstep, heq⟩ := Option.map_eq_some_iff.mp h
      obtain ⟨rfl, rfl⟩ := Prod.mk.inj heq
      have hsame : w'.mutating = w.mutating := (Lookup.of_step hstep).frame.2.1
      exact ⟨.same rfl (by rw [hsame]), Or.inr ⟨rfl, rfl⟩⟩
  | save draft now s =>
      obtain ⟨⟨w', s'⟩, hstep, heq⟩ := Option.map_eq_some_iff.mp h
      obtain ⟨rfl, rfl⟩ := Prod.mk.inj heq
      have hsave := Saving.exclusion_of_step hstep
      exact ⟨hsave.1, Or.inl hsave.2⟩
  | delete id x =>
      obtain ⟨⟨w', x'⟩, hstep, heq⟩ := Option.map_eq_some_iff.mp h
      obtain ⟨rfl, rfl⟩ := Prod.mk.inj heq
      have hdelete := Deleting.exclusion_of_step hstep
      exact ⟨hdelete.1, Or.inl hdelete.2⟩

theorem exists_step (hleft : op.left ≠ 0) (hfree : op.mutates = true ∨ w.mutating = false) :
    ∃ next, op.step d w = some next := by
  cases op with
  | lookup key l => exact absurd rfl hleft
  | save draft now s =>
      obtain ⟨next, hnext⟩ := Saving.exists_step (d := d) now hleft hfree
      exact ⟨_, by rw [step, hnext, Option.map_some]⟩
  | delete id x =>
      obtain ⟨next, hnext⟩ := Deleting.exists_step (w := w) hleft hfree
      exact ⟨_, by rw [step, hnext, Option.map_some]⟩

theorem left_pos_of_mutates (h : op.mutates = true) : op.left ≠ 0 := by
  cases op with
  | lookup key l => cases h
  | save draft now s => cases s <;> first | exact Nat.succ_ne_zero _ | cases h
  | delete id x => cases x <;> first | exact Nat.succ_ne_zero _ | cases h

end Operation

/-! ## Systems -/

namespace System

variable {π τ : Type} {d : Deployment π τ} {s s' : System π} {n : Nat} {op : Operation π}

/-- The flag is set exactly while one operation has the lock of mutations. -/
def Exclusive (s : System π) : Prop :=
  s.operations.countP Operation.mutates = if s.shared.mutating then 1 else 0

theorem Exclusive.move (h : s.Exclusive) (hmove : Move d s s') : s'.Exclusive := by
  cases hmove with
  | idle => exact h
  | invalidated => exact h
  | called request =>
      have hnew : (request.operation : Operation π).mutates = false := by
        cases request <;> rfl
      simpa [Exclusive, hnew] using h
  | @stepped n op op' w hop hstep =>
      have hcount : (s.operations.set n op').countP Operation.mutates +
          (if op.mutates then 1 else 0) =
          s.operations.countP Operation.mutates + (if op'.mutates then 1 else 0) :=
        countP_set_add hop op'
      rw [h] at hcount
      show (s.operations.set n op').countP Operation.mutates = if w.mutating then 1 else 0
      generalize (s.operations.set n op').countP Operation.mutates = after at hcount ⊢
      cases (Operation.exclusion_of_step hstep).1 with
      | same hmutates hfree =>
          have hsame : w.mutating = s.shared.mutating := Bool.not_inj hfree
          rw [hmutates] at hcount
          rw [hsame]
          exact Nat.add_right_cancel hcount
      | taken hbefore hafter hfree hfree' =>
          simp only [Bool.not_eq_true', Bool.not_eq_false'] at hfree hfree'
          simpa [hbefore, hafter, hfree, hfree'] using hcount
      | given hbefore hafter hfree' =>
          simp only [Bool.not_eq_true'] at hfree'
          cases hheld : s.shared.mutating <;> simp [hbefore, hafter, hheld] at hcount
          rw [hcount, hfree', if_neg Bool.false_ne_true]

theorem exclusive_after (d : Deployment π τ) (store : MemoryStore) (events : List Event) :
    (after d store events).Exclusive := by
  induction events using List.reverseRecOn with
  | nil => rfl
  | append_singleton past event ih =>
      rw [after_append_singleton]
      exact ih.move (move_next d _ event)

/-- While a mutation has steps left, it or the one that it waits for can make one. -/
theorem Exclusive.exists_turn (h : s.Exclusive) (hop : s.operations[n]? = some op)
    (hleft : op.left ≠ 0) :
    ∃ (m : Nat) (other : Operation π) (next : Shared MemoryStore π × Operation π),
      s.operations[m]? = some other ∧ other.left ≠ 0 ∧ other.step d s.shared = some next := by
  cases hmutating : s.shared.mutating with
  | false =>
      obtain ⟨next, hnext⟩ := Operation.exists_step (d := d) hleft (Or.inr hmutating)
      exact ⟨n, op, next, hop, hleft, hnext⟩
  | true =>
      have hheld : 0 < s.operations.countP Operation.mutates := by
        rw [h, hmutating, if_pos rfl]
        exact Nat.zero_lt_one
      obtain ⟨holder, hmem, hmutates⟩ := List.countP_pos_iff.mp hheld
      obtain ⟨m, hm⟩ := List.mem_iff_getElem?.mp hmem
      have hholder := Operation.left_pos_of_mutates hmutates
      obtain ⟨next, hnext⟩ :=
        Operation.exists_step (d := d) (w := s.shared) hholder (Or.inl hmutates)
      exact ⟨m, holder, next, hm, hholder, hnext⟩

/-- How many steps the mutations of a system have left at most. -/
def left (s : System π) : Nat := (s.operations.map Operation.left).sum

/-- What becomes of an operation was called for with the same request. -/
theorem Move.request (hmove : Move d s s') (hop : s.operations[n]? = some op) :
    ∃ op', s'.operations[n]? = some op' ∧ op'.request = op.request := by
  obtain ⟨op', hop', rfl | hstep⟩ := hmove.getElem? hop
  · exact ⟨op', hop', rfl⟩
  · exact ⟨op', hop', Operation.request_of_step hstep⟩

/-- At every moment of a run, a mutation that was called for can be brought to its end by
steps of mutations that are under way. -/
theorem exists_returned (d : Deployment π τ) {store : MemoryStore} (events : List Event)
    (hop : (after d store events).operations[n]? = some op) :
    ∃ (turns : List Nat) (op' : Operation π),
      (after d store (events ++ turns.map .step)).operations[n]? = some op' ∧
        op'.request = op.request ∧ op'.left = 0 := by
  induction hwork : (after d store events).left using Nat.strongRecOn generalizing events op with
  | ind k ih =>
      by_cases hleft : op.left = 0
      · exact ⟨[], op, by rw [List.map_nil, List.append_nil, hop], rfl, hleft⟩
      · obtain ⟨m, other, ⟨w, other'⟩, hm, hother, hnext⟩ :=
          (exclusive_after d store events).exists_turn (d := d) hop hleft
        have hafter : after d store (events ++ [.step m]) =
            ⟨w, (after d store events).operations.set m other'⟩ := by
          simp only [after_append_singleton, next, hm, hnext]
        have hless : other'.left < other.left := by
          rcases (Operation.exclusion_of_step hnext).2 with hlt | ⟨-, hzero⟩
          · exact hlt
          · exact absurd hzero hother
        have hlt : (after d store (events ++ [.step m])).left < k := by
          rw [← hwork, hafter, left, List.map_set, left]
          refine sum_set_lt (a := other.left) ?_ hless
          rw [List.getElem?_map, hm]
          rfl
        obtain ⟨op₁, hop₁, hrequest₁⟩ := (move_next d (after d store events) (.step m)).request hop
        rw [← after_append_singleton] at hop₁
        obtain ⟨turns, op', hop', hrequest', hdone⟩ := ih _ hlt _ hop₁ rfl
        refine ⟨m :: turns, op', ?_, hrequest'.trans hrequest₁, hdone⟩
        rw [List.map_cons, List.append_cons, hop']

end System

end Rulebook
