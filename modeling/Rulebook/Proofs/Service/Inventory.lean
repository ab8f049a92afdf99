/-
  Proofs/Service/Inventory.lean --- the stored rules while mutations are under way.

  A save brings its draft into order before it waits for the lock of mutations, and checks
  the name once it has the lock.  Nobody else writes between that check and the write,
  since mutations exclude one another; so what a save has checked still holds when it
  writes (`Saving.Checked`).  Hence the stored rules are in order at every moment of every
  run: each of them stands under its own identifier, all of them stand in the order of
  their identifiers, and no two have one name (`orderly_after`).
-/
import Rulebook.Proofs.Service.Admission
import Rulebook.Proofs.Service.Exclusion

set_option autoImplicit false

namespace Rulebook

/-! ## Stores -/

namespace MemoryStore

/-- The stored rules are in order, each by itself and all of them together. -/
structure Orderly (s : MemoryStore) : Prop where
  keyed : s.Keyed
  ascending : s.Ascending
  namesDistinct : s.NamesDistinct
  normal : ∀ entry ∈ s.rules, entry.2.Normal

theorem orderly_empty : empty.Orderly :=
  ⟨keyed_empty, ascending_empty, namesDistinct_empty, fun _ h => absurd h List.not_mem_nil⟩

variable {s t : MemoryStore} {r : Definition} {id : RuleId}

theorem Orderly.save (h : s.Orderly) (hr : r.Normal)
    (hfree : s.existsByName r.name r.id = false) (hsave : s.save r = .ok (t, id)) :
    t.Orderly where
  keyed := h.keyed.save hsave
  ascending := h.ascending.save hsave
  namesDistinct := h.namesDistinct.save h.keyed hfree hsave
  normal := by
    obtain ⟨created, hrules, -⟩ := stored_of_save hsave
    intro entry hentry
    rw [hrules] at hentry
    rcases mem_place hentry with rfl | hold
    · exact ⟨hr.name_length, hr.name_chars, hr.source_not_blank, hr.description_trimmed⟩
    · exact h.normal entry hold

theorem Orderly.delete (h : s.Orderly) (id : RuleId) : (s.delete id).1.Orderly where
  keyed := h.keyed.delete id
  ascending := h.ascending.delete id
  namesDistinct := h.namesDistinct.delete id
  normal entry hentry := h.normal entry (Table.mem_erase.mp hentry).1

end MemoryStore

/-! ## Operations -/

section

variable {π τ : Type} {d : Deployment π τ} {now : Timestamp} {w w' : Shared MemoryStore π}

/-- What a save has checked so far: that its draft is in order, and in the end that the
store has no other rule of its name. -/
def Saving.Checked (store : MemoryStore) : Saving → Prop
  | .verify r | .lock r | .find r _ | .checkName r _ => r.Normal
  | .write r _ => r.Normal ∧ store.existsByName r.name r.id = false
  | _ => True

theorem Saving.Checked.step {s s' : Saving} (h : s.Checked w.store)
    (hstep : s.step d now w = some (w', s')) : s'.Checked w'.store := by
  cases s with
  | normalize draft =>
      simp only [Saving.step] at hstep
      split at hstep <;> obtain ⟨rfl, rfl⟩ := Prod.mk.inj (Option.some.inj hstep)
      · trivial
      · rename_i stored hstored
        have hnormal := Definition.normal_of_normalize hstored
        split <;> exact hnormal
  | verify draft =>
      simp only [Saving.step] at hstep
      split at hstep <;> obtain ⟨rfl, rfl⟩ := Prod.mk.inj (Option.some.inj hstep)
      · trivial
      · exact h
  | lock draft =>
      simp only [Saving.step] at hstep
      split at hstep
      · cases hstep
      · obtain ⟨rfl, rfl⟩ := Prod.mk.inj (Option.some.inj hstep)
        split <;> exact h
  | find draft id =>
      simp only [Saving.step] at hstep
      split at hstep <;> obtain ⟨rfl, rfl⟩ := Prod.mk.inj (Option.some.inj hstep)
      · trivial
      · trivial
      · exact h
  | checkName draft existing =>
      simp only [Saving.step, RuleStore.existsByName] at hstep
      split at hstep <;> obtain ⟨rfl, rfl⟩ := Prod.mk.inj (Option.some.inj hstep)
      · trivial
      · trivial
      · rename_i hfree
        exact ⟨h, Except.ok.inj hfree⟩
  | write draft existing =>
      simp only [Saving.step] at hstep
      split at hstep <;> obtain ⟨rfl, rfl⟩ := Prod.mk.inj (Option.some.inj hstep) <;> trivial
  | invalidate _ | unlock _ =>
      obtain ⟨rfl, rfl⟩ := Prod.mk.inj (Option.some.inj hstep)
      trivial
  | done _ => cases hstep

namespace Operation

variable {op op' : Operation π}

/-- What an operation has checked so far, if it is a save. -/
def Checked (store : MemoryStore) : Operation π → Prop
  | .save _ _ phase => phase.Checked store
  | _ => True

theorem Checked.step (h : op.Checked w.store) (hstep : op.step d w = some (w', op')) :
    op'.Checked w'.store := by
  cases op with
  | save draft now phase =>
      obtain ⟨⟨w', s'⟩, hphase, heq⟩ := Option.map_eq_some_iff.mp hstep
      obtain ⟨rfl, rfl⟩ := Prod.mk.inj heq
      exact Saving.Checked.step h hphase
  | lookup _ _ | delete _ _ =>
      obtain ⟨next, -, heq⟩ := Option.map_eq_some_iff.mp hstep
      obtain ⟨-, rfl⟩ := Prod.mk.inj heq
      trivial

/-- Without the lock of mutations an operation has checked nothing of the store. -/
theorem Checked.of_mutates_eq_false {store store' : MemoryStore} (h : op.Checked store)
    (hidle : op.mutates = false) : op.Checked store' := by
  cases op with
  | lookup _ _ | delete _ _ => trivial
  | save draft now phase =>
      cases phase with
      | write _ _ => cases hidle
      | _ => exact h

/-- The store changes through operations that have the lock of mutations, and stays in
order. -/
theorem store_of_step (hchecked : op.Checked w.store) (hstore : w.store.Orderly)
    (hstep : op.step d w = some (w', op')) :
    w'.store = w.store ∨ op.mutates = true ∧ w'.store.Orderly := by
  cases op with
  | lookup key l =>
      obtain ⟨⟨w', l'⟩, hphase, heq⟩ := Option.map_eq_some_iff.mp hstep
      obtain ⟨rfl, rfl⟩ := Prod.mk.inj heq
      exact Or.inl (Lookup.of_step hphase).frame.1
  | save draft now s =>
      obtain ⟨⟨w', s'⟩, hphase, heq⟩ := Option.map_eq_some_iff.mp hstep
      obtain ⟨rfl, rfl⟩ := Prod.mk.inj heq
      rcases Saving.step_cases hphase with ⟨hsame, -⟩ |
        ⟨r, existing, store, id, rfl, hsave, rfl, -⟩ | ⟨id, -, rfl, -⟩
      · exact Or.inl hsame
      · obtain ⟨hnormal, hfree⟩ := hchecked
        have hstamped : (r.stamp existing now).Normal :=
          ⟨hnormal.name_length, hnormal.name_chars, hnormal.source_not_blank,
            hnormal.description_trimmed⟩
        exact Or.inr ⟨rfl, hstore.save hstamped hfree hsave⟩
      · exact Or.inl rfl
  | delete id x =>
      obtain ⟨⟨w', x'⟩, hphase, heq⟩ := Option.map_eq_some_iff.mp hstep
      obtain ⟨rfl, rfl⟩ := Prod.mk.inj heq
      cases x with
      | remove other existing =>
          obtain ⟨rfl, -⟩ := Prod.mk.inj (Option.some.inj hphase)
          exact Or.inr ⟨rfl, hstore.delete other⟩
      | lock other =>
          simp only [Deleting.step] at hphase
          split at hphase
          · cases hphase
          · obtain ⟨rfl, -⟩ := Prod.mk.inj (Option.some.inj hphase)
            exact Or.inl rfl
      | find other =>
          simp only [Deleting.step] at hphase
          split at hphase <;> obtain ⟨rfl, -⟩ := Prod.mk.inj (Option.some.inj hphase) <;>
            exact Or.inl rfl
      | invalidate _ _ | unlock _ =>
          obtain ⟨rfl, -⟩ := Prod.mk.inj (Option.some.inj hphase)
          exact Or.inl rfl
      | done _ => cases hphase

end Operation

end

/-! ## Systems -/

namespace System

variable {π τ : Type} {d : Deployment π τ} {s s' : System π} {n m : Nat} {op op' : Operation π}

/-- No two operations have the lock of mutations. -/
theorem Exclusive.mutates_eq_false (h : s.Exclusive) (hop : s.operations[n]? = some op)
    (hop' : s.operations[m]? = some op') (hne : n ≠ m) (hmutates : op.mutates = true) :
    op'.mutates = false := by
  -- without the one that has it nobody has it, so we put a lookup in its place
  let others := s.operations.set n (.lookup (.id ⟨0⟩) (.byId ⟨0⟩))
  have hcount : others.countP Operation.mutates + 1 = s.operations.countP Operation.mutates := by
    have hadd := countP_set_add (p := Operation.mutates) hop (.lookup (.id ⟨0⟩) (.byId ⟨0⟩))
    rwa [hmutates, if_pos rfl] at hadd
  have hone : s.operations.countP Operation.mutates ≤ 1 := by
    rw [h]
    split <;> simp
  have hnone : others.countP Operation.mutates = 0 := by omega
  have hmem : op' ∈ others :=
    List.mem_of_getElem? (by rw [List.getElem?_set_ne hne]; exact hop')
  exact Bool.eq_false_iff.mpr (List.countP_eq_zero.mp hnone op' hmem)

/-- The stored rules are in order, and what saves have checked holds. -/
structure Orderly (s : System π) : Prop where
  store : s.shared.store.Orderly
  checked : ∀ op ∈ s.operations, op.Checked s.shared.store

theorem Orderly.move (h : s.Orderly) (hexclusive : s.Exclusive) (hmove : Move d s s') :
    s'.Orderly := by
  cases hmove with
  | idle => exact h
  | invalidated => exact ⟨h.store, h.checked⟩
  | called request =>
      refine ⟨h.store, fun op hop => ?_⟩
      rcases List.mem_append.mp hop with hold | hnew
      · exact h.checked op hold
      · rw [List.mem_singleton.mp hnew]
        cases request <;> trivial
  | @stepped n op op' w hop hstep =>
      have hchecked := h.checked op (List.mem_of_getElem? hop)
      have hstore := Operation.store_of_step hchecked h.store hstep
      refine ⟨?_, fun other hother => ?_⟩
      · rcases hstore with hsame | ⟨-, horderly⟩
        · rw [hsame]
          exact h.store
        · exact horderly
      · obtain ⟨m, hm⟩ := List.mem_iff_getElem?.mp hother
        by_cases hne : n = m
        · subst hne
          obtain ⟨hlt, -⟩ := List.getElem?_eq_some_iff.mp hop
          obtain rfl : op' = other := Option.some.inj ((List.getElem?_set_self hlt).symm.trans hm)
          exact hchecked.step hstep
        · -- another operation has looked at the store only if the store is the same
          rw [List.getElem?_set_ne hne] at hm
          have hold := h.checked other (List.mem_of_getElem? hm)
          rcases hstore with hsame | ⟨hmutates, -⟩
          · rwa [hsame]
          · exact hold.of_mutates_eq_false (hexclusive.mutates_eq_false hop hm hne hmutates)

/-- Whatever callers do at the same time, the stored rules are in order at every moment. -/
theorem orderly_after (d : Deployment π τ) (events : List Event) :
    (after d .empty events).Orderly := by
  induction events using List.reverseRecOn with
  | nil => exact ⟨MemoryStore.orderly_empty, fun _ h => absurd h List.not_mem_nil⟩
  | append_singleton past event ih =>
      rw [after_append_singleton]
      exact ih.move (exclusive_after d .empty past) (move_next d _ event)

end System

end Rulebook
