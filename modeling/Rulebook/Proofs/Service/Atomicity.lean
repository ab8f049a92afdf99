/-
  Proofs/Service/Atomicity.lean --- a mutation changes one rule, or nothing.

  A save goes through its phases on its own.  Until it writes, it has changed nothing and
  holds the lock of mutations at most; what it writes it invalidates before it gives the
  lock back (`Saving.Passes`, one step after the other in `Saving.Passes.step`).  So
  wherever it fails, all is as it was before, the counter of identifiers included, and if it
  succeeds, store and cache differ at its rule alone (`Shared.ChangedAt`).  Deletions go the
  same way.  Both are said of every store first, so that a store which fails on its own is
  no exception.
-/
import Rulebook.Proofs.Service.Transparency

set_option autoImplicit false

namespace Rulebook

section

variable {σ π τ : Type} [RuleStore σ] {d : Deployment π τ} {now : Timestamp}
  {w w₁ w₂ : Shared σ π}

/-! ## Saves -/

namespace Saving

variable {draft : Definition} {s s' : Saving}

/-- The store takes a draft in its stored form, with its times, and gives it an
identifier. -/
def Writes (now : Timestamp) (w : Shared σ π) (draft : Definition) (store : σ) (id : RuleId) :
    Prop :=
  ∃ stored existing, draft.normalize = .ok stored ∧
    RuleStore.save w.store (stored.stamp existing now) = .ok (store, id)

/-- The states and phases that a save passes from a state on, without another operation in
between. -/
inductive Passes (now : Timestamp) (w : Shared σ π) (draft : Definition) :
    Shared σ π → Saving → Prop
  | normalize : Passes now w draft w (.normalize draft)
  | verify {stored : Definition} : draft.normalize = .ok stored →
      Passes now w draft w (.verify stored)
  | lock {stored : Definition} : draft.normalize = .ok stored →
      Passes now w draft w (.lock stored)
  | find {stored : Definition} {id : RuleId} : draft.normalize = .ok stored →
      w.mutating = false → Passes now w draft { w with mutating := true } (.find stored id)
  | checkName {stored : Definition} {existing : Option Definition} :
      draft.normalize = .ok stored → w.mutating = false →
      Passes now w draft { w with mutating := true } (.checkName stored existing)
  | write {stored : Definition} {existing : Option Definition} :
      draft.normalize = .ok stored → w.mutating = false →
      Passes now w draft { w with mutating := true } (.write stored existing)
  | invalidate {store : σ} {id : RuleId} : w.mutating = false → Writes now w draft store id →
      Passes now w draft { w with store, mutating := true } (.invalidate id)
  | settled {store : σ} {id : RuleId} : w.mutating = false → Writes now w draft store id →
      Passes now w draft { w with store, cache := w.cache.invalidate id, mutating := true }
        (.unlock (.ok id))
  | saved {store : σ} {id : RuleId} : Writes now w draft store id →
      Passes now w draft { w with store, cache := w.cache.invalidate id } (.done (.ok id))
  | refused {e : RuleError} : w.mutating = false →
      Passes now w draft { w with mutating := true } (.unlock (.error e))
  | failed {e : RuleError} : Passes now w draft w (.done (.error e))

/-- A step leads from one of them to another. -/
theorem Passes.step (h : Passes now w draft w₁ s) (hstep : s.step d now w₁ = some (w₂, s')) :
    Passes now w draft w₂ s' := by
  cases h with
  | normalize =>
      simp only [Saving.step] at hstep
      split at hstep
      · obtain ⟨rfl, rfl⟩ := Prod.mk.inj (Option.some.inj hstep)
        exact .failed
      · rename_i stored hstored
        obtain ⟨rfl, rfl⟩ := Prod.mk.inj (Option.some.inj hstep)
        split
        · exact .verify hstored
        · exact .lock hstored
  | verify hstored =>
      simp only [Saving.step] at hstep
      split at hstep <;> obtain ⟨rfl, rfl⟩ := Prod.mk.inj (Option.some.inj hstep)
      · exact .failed
      · exact .lock hstored
  | @lock stored hstored =>
      simp only [Saving.step] at hstep
      split at hstep
      · cases hstep
      · rename_i hidle
        obtain ⟨rfl, rfl⟩ := Prod.mk.inj (Option.some.inj hstep)
        have hidle : w.mutating = false := Bool.eq_false_iff.mpr hidle
        cases stored.id with
        | none => exact .checkName hstored hidle
        | some id => exact .find hstored hidle
  | find hstored hidle =>
      simp only [Saving.step] at hstep
      split at hstep <;> obtain ⟨rfl, rfl⟩ := Prod.mk.inj (Option.some.inj hstep)
      · exact .refused hidle
      · exact .refused hidle
      · exact .checkName hstored hidle
  | checkName hstored hidle =>
      simp only [Saving.step] at hstep
      split at hstep <;> obtain ⟨rfl, rfl⟩ := Prod.mk.inj (Option.some.inj hstep)
      · exact .refused hidle
      · exact .refused hidle
      · exact .write hstored hidle
  | write hstored hidle =>
      simp only [Saving.step] at hstep
      split at hstep
      · obtain ⟨rfl, rfl⟩ := Prod.mk.inj (Option.some.inj hstep)
        exact .refused hidle
      · rename_i hsave
        obtain ⟨rfl, rfl⟩ := Prod.mk.inj (Option.some.inj hstep)
        exact .invalidate hidle ⟨_, _, hstored, hsave⟩
  | invalidate hidle hwrites =>
      obtain ⟨rfl, rfl⟩ := Prod.mk.inj (Option.some.inj hstep)
      exact .settled hidle hwrites
  | settled hidle hwrites =>
      obtain ⟨rfl, rfl⟩ := Prod.mk.inj (Option.some.inj hstep)
      rw [← hidle]
      exact .saved hwrites
  | refused hidle =>
      obtain ⟨rfl, rfl⟩ := Prod.mk.inj (Option.some.inj hstep)
      rw [← hidle]
      exact .failed
  | saved _ => cases hstep
  | failed => cases hstep

theorem Passes.advance (h : Passes now w draft w₁ s) (n : Nat) :
    Passes now w draft (Saving.advance d now n w₁ s).1 (Saving.advance d now n w₁ s).2 := by
  induction n generalizing w₁ s with
  | zero => exact h
  | succ n ih =>
      rw [Saving.advance]
      cases hstep : s.step d now w₁ with
      | none => exact h
      | some next => exact ih (h.step hstep)

theorem passes_run {answer : Except RuleError RuleId}
    (h : run d now w draft = (w₁, some answer)) : Passes now w draft w₁ (.done answer) := by
  have hstart : Passes now w draft w (.normalize draft) := .normalize
  have hpasses := hstart.advance (d := d) maxSteps
  unfold run at h
  rcases hadvance : Saving.advance d now maxSteps w (.normalize draft) with ⟨w', s⟩
  rw [hadvance] at h hpasses
  obtain ⟨rfl, hanswer⟩ := Prod.mk.inj h
  cases s with
  | done other =>
      obtain rfl : other = answer := Option.some.inj hanswer
      exact hpasses
  | normalize | verify | lock | find | checkName | write | invalidate | unlock => cases hanswer

/-- A save that fails leaves everything as it was. -/
theorem eq_of_run_error {e : RuleError} (h : run d now w draft = (w₁, some (.error e))) :
    w₁ = w := by
  cases passes_run h with
  | failed => rfl

/-- A save that succeeds has written its rule and invalidated it, and done nothing else. -/
theorem of_run_ok {id : RuleId} (h : run d now w draft = (w₁, some (.ok id))) :
    ∃ store, Writes now w draft store id ∧
      w₁ = { w with store, cache := w.cache.invalidate id } := by
  cases passes_run h with
  | saved hwrites => exact ⟨_, hwrites, rfl⟩

end Saving

/-! ## Deletions -/

namespace Deleting

variable {id : RuleId} {x x' : Deleting}

/-- The store deletes a rule that it has, and the answer is what was deleted. -/
def Removes (w : Shared σ π) (id : RuleId) (store : σ) (answer : Definition) : Prop :=
  ∃ existing removed, RuleStore.findById w.store id = .ok (some existing) ∧
    RuleStore.delete w.store id = .ok (store, removed) ∧ answer = removed.getD existing

/-- The states and phases that a deletion passes from a state on. -/
inductive Passes (w : Shared σ π) (id : RuleId) : Shared σ π → Deleting → Prop
  | lock : Passes w id w (.lock id)
  | find : w.mutating = false → Passes w id { w with mutating := true } (.find id)
  | remove {existing : Definition} : w.mutating = false →
      RuleStore.findById w.store id = .ok (some existing) →
      Passes w id { w with mutating := true } (.remove id existing)
  | invalidate {store : σ} {answer : Definition} : w.mutating = false →
      Removes w id store answer →
      Passes w id { w with store, mutating := true } (.invalidate id answer)
  | settled {store : σ} {answer : Definition} : w.mutating = false →
      Removes w id store answer →
      Passes w id { w with store, cache := w.cache.invalidate id, mutating := true }
        (.unlock (.ok answer))
  | deleted {store : σ} {answer : Definition} : Removes w id store answer →
      Passes w id { w with store, cache := w.cache.invalidate id } (.done (.ok answer))
  | refused {e : RuleError} : w.mutating = false →
      Passes w id { w with mutating := true } (.unlock (.error e))
  | failed {e : RuleError} : Passes w id w (.done (.error e))

theorem Passes.step (h : Passes w id w₁ x) (hstep : x.step w₁ = some (w₂, x')) :
    Passes w id w₂ x' := by
  cases h with
  | lock =>
      simp only [Deleting.step] at hstep
      split at hstep
      · cases hstep
      · rename_i hidle
        obtain ⟨rfl, rfl⟩ := Prod.mk.inj (Option.some.inj hstep)
        exact .find (Bool.eq_false_iff.mpr hidle)
  | find hidle =>
      simp only [Deleting.step] at hstep
      split at hstep
      · obtain ⟨rfl, rfl⟩ := Prod.mk.inj (Option.some.inj hstep)
        exact .refused hidle
      · obtain ⟨rfl, rfl⟩ := Prod.mk.inj (Option.some.inj hstep)
        exact .refused hidle
      · rename_i hfind
        obtain ⟨rfl, rfl⟩ := Prod.mk.inj (Option.some.inj hstep)
        exact .remove hidle hfind
  | remove hidle hfind =>
      simp only [Deleting.step] at hstep
      split at hstep
      · obtain ⟨rfl, rfl⟩ := Prod.mk.inj (Option.some.inj hstep)
        exact .refused hidle
      · rename_i hdelete
        obtain ⟨rfl, rfl⟩ := Prod.mk.inj (Option.some.inj hstep)
        exact .invalidate hidle ⟨_, _, hfind, hdelete, rfl⟩
  | invalidate hidle hremoves =>
      obtain ⟨rfl, rfl⟩ := Prod.mk.inj (Option.some.inj hstep)
      exact .settled hidle hremoves
  | settled hidle hremoves =>
      obtain ⟨rfl, rfl⟩ := Prod.mk.inj (Option.some.inj hstep)
      rw [← hidle]
      exact .deleted hremoves
  | refused hidle =>
      obtain ⟨rfl, rfl⟩ := Prod.mk.inj (Option.some.inj hstep)
      rw [← hidle]
      exact .failed
  | deleted _ => cases hstep
  | failed => cases hstep

theorem Passes.advance (h : Passes w id w₁ x) (n : Nat) :
    Passes w id (Deleting.advance n w₁ x).1 (Deleting.advance n w₁ x).2 := by
  induction n generalizing w₁ x with
  | zero => exact h
  | succ n ih =>
      rw [Deleting.advance]
      cases hstep : x.step w₁ with
      | none => exact h
      | some next => exact ih (h.step hstep)

theorem passes_run {answer : Except RuleError Definition} (h : run w id = (w₁, some answer)) :
    Passes w id w₁ (.done answer) := by
  have hstart : Passes w id w (.lock id) := .lock
  have hpasses := hstart.advance maxSteps
  unfold run at h
  rcases hadvance : Deleting.advance maxSteps w (.lock id) with ⟨w', x⟩
  rw [hadvance] at h hpasses
  obtain ⟨rfl, hanswer⟩ := Prod.mk.inj h
  cases x with
  | done other =>
      obtain rfl : other = answer := Option.some.inj hanswer
      exact hpasses
  | lock | find | remove | invalidate | unlock => cases hanswer

/-- A deletion that fails leaves everything as it was. -/
theorem eq_of_run_error {e : RuleError} (h : run w id = (w₁, some (.error e))) : w₁ = w := by
  cases passes_run h with
  | failed => rfl

/-- A deletion that succeeds has deleted its rule and invalidated it, and done nothing
else. -/
theorem of_run_ok {answer : Definition} (h : run w id = (w₁, some (.ok answer))) :
    ∃ store, Removes w id store answer ∧
      w₁ = { w with store, cache := w.cache.invalidate id } := by
  cases passes_run h with
  | deleted hremoves => exact ⟨_, hremoves, rfl⟩

end Deleting

end

/-! ## Over the store in memory -/

theorem Definition.text_of_normalize {draft stored : Definition}
    (h : draft.normalize = .ok stored) :
    stored.name = Text.trim draft.name ∧ stored.source = draft.source := by
  unfold normalize at h
  simp only at h
  split at h
  · cases h
  · split at h
    · cases h
    · rw [← Except.ok.inj h]
      exact ⟨rfl, rfl⟩

section

variable {π τ : Type} {d : Deployment π τ} {w w' : Shared MemoryStore π} {id : RuleId}

/-- Between commands a name leads where the index says. -/
theorem Shared.Coherent.idOf?_iff (hw : w.Coherent d) {name : String} :
    w.cache.idOf? name = some id ↔ (name, id) ∈ w.cache.names := by
  refine ⟨Table.mem_of_get?, fun hmem => ?_⟩
  cases hfound : w.cache.idOf? name with
  | none =>
      exact absurd (List.mem_map.mpr ⟨_, hmem, rfl⟩) (Table.get?_eq_none_iff.mp hfound)
  | some other =>
      -- two entries of one name lead to the first rule that has it
      obtain ⟨rule, hrule⟩ := hw.names name id hmem
      obtain ⟨rule', hrule'⟩ := hw.names name other (Table.mem_of_get? hfound)
      rw [(Prod.mk.inj (Option.some.inj (hrule.symm.trans hrule'))).1]

/-- Store and cache differ at one rule alone, and nothing is cached of it. -/
structure Shared.ChangedAt (w w' : Shared MemoryStore π) (id : RuleId) : Prop where
  /-- The other rules are the same, in the same order. -/
  stored_elsewhere : w'.store.rules.erase id = w.store.rules.erase id
  /-- There is no program of the rule. -/
  program_forgotten : w'.cache.program? id = none
  /-- No name leads to the rule. -/
  names_forgotten : ∀ name, w'.cache.idOf? name ≠ some id
  /-- The other programs are the same. -/
  program_elsewhere : ∀ other, other ≠ id → w'.cache.program? other = w.cache.program? other
  /-- The same names lead to the other rules. -/
  names_elsewhere : ∀ name other, other ≠ id →
    (w'.cache.idOf? name = some other ↔ w.cache.idOf? name = some other)

theorem Shared.Coherent.changedAt (hw : w.Coherent d) (hw' : w'.Coherent d)
    (hstore : w'.store.rules.erase id = w.store.rules.erase id)
    (hcache : w'.cache = w.cache.invalidate id) : w.ChangedAt w' id where
  stored_elsewhere := hstore
  program_forgotten := by rw [hcache, Cache.program?_invalidate, if_pos rfl]
  names_forgotten name := by
    rw [ne_eq, hw'.idOf?_iff, hcache, Cache.mem_names_invalidate]
    exact fun h => h.2 rfl
  program_elsewhere other hne := by
    rw [hcache, Cache.program?_invalidate, if_neg (Ne.symm hne)]
  names_elsewhere name other hne := by
    rw [hw'.idOf?_iff, hw.idOf?_iff, hcache, Cache.mem_names_invalidate]
    exact and_iff_left hne

/-- What is different after a save, by its answer. -/
def Saving.Leaves (draft : Definition) (w w' : Shared MemoryStore π) :
    Except RuleError RuleId → Prop
  | .error _ => w' = w
  | .ok id => w.ChangedAt w' id ∧
      (∃ rule, w'.store.findById id = some rule ∧ rule.name = Text.trim draft.name ∧
        rule.source = draft.source) ∧
      (draft.id = some id ∧ w'.store.nextId = w.store.nextId ∨
        draft.id = none ∧ id = ⟨w.store.nextId⟩ ∧ w'.store.nextId = w.store.nextId + 1)

/-- What is different after a deletion, by its answer. -/
def Deleting.Leaves (id : RuleId) (w w' : Shared MemoryStore π) :
    Except RuleError Definition → Prop
  | .error _ => w' = w
  | .ok removed => w.ChangedAt w' id ∧ w.store.findById id = some removed ∧
      w'.store.findById id = none ∧ w'.store.nextId = w.store.nextId

theorem Saving.leaves_run (hw : w.Coherent d) (draft : Definition) (now : Timestamp) :
    ∃ w' answer, run d now w draft = (w', some answer) ∧ Leaves draft w w' answer := by
  obtain ⟨w', hrun, -, hw'⟩ := run_eq hw draft now
  refine ⟨w', _, hrun, ?_⟩
  cases hanswer : (Uncached.save d w.store draft now).map Prod.snd with
  | error e => exact eq_of_run_error (hanswer ▸ hrun)
  | ok id =>
      obtain ⟨store, ⟨stored, existing, hstored, hsave⟩, rfl⟩ := of_run_ok (hanswer ▸ hrun)
      obtain ⟨rule, hrules, -, hname, hsource, hcases⟩ := MemoryStore.save_cases hsave
      obtain ⟨hnameOf, hsourceOf⟩ := Definition.text_of_normalize hstored
      refine ⟨hw.changedAt hw' ?_ rfl, ⟨rule, ?_, hname.trans hnameOf, hsource.trans hsourceOf⟩, ?_⟩
      · rw [hrules, MemoryStore.erase_place]
      · rw [MemoryStore.findById, hrules, MemoryStore.get?_place, if_pos rfl]
      · rw [← Definition.id_of_normalize hstored]
        exact hcases.imp_left fun hupdate => ⟨hupdate.1, hupdate.2.2⟩

theorem Deleting.leaves_run (hw : w.Coherent d) (id : RuleId) :
    ∃ w' answer, run w id = (w', some answer) ∧ Leaves id w w' answer := by
  obtain ⟨w', hrun, -, hw'⟩ := run_eq hw id
  refine ⟨w', _, hrun, ?_⟩
  cases hanswer : (Uncached.delete w.store id).map Prod.snd with
  | error e => exact eq_of_run_error (hanswer ▸ hrun)
  | ok removed =>
      obtain ⟨store, ⟨existing, found, hfind, hdelete, rfl⟩, rfl⟩ := of_run_ok (hanswer ▸ hrun)
      obtain ⟨rfl, rfl⟩ := Prod.mk.inj (Except.ok.inj hdelete)
      have hfind : w.store.findById id = some existing := Except.ok.inj hfind
      refine ⟨hw.changedAt hw' (Table.erase_erase _ _) rfl, ?_, ?_, rfl⟩
      · rw [hfind]
        exact congrArg (fun found => some (found.getD existing)) hfind.symm
      · exact (MemoryStore.findById_delete w.store id id).trans (if_pos rfl)

namespace Facade

/-- **Mutations change one rule, or nothing.**  Callers ask the service for whatever they
like, one after the other, starting on an empty store.  Then a save or a deletion is
answered.  If the answer is an error, whatever it is, everything is as it was: the rules,
the counter of identifiers, the programs and the names.  If it is not, store and cache
differ at the rule of the answer alone, and of that rule nothing is cached. -/
theorem mutations_atomic (d : Deployment π τ) (commands : List Command) :
    (∀ draft now, ∃ w' answer,
      perform d (performAll d (.start .empty) commands).1 (.save draft now) =
          (w', some (.saved answer)) ∧
        Saving.Leaves draft (performAll d (.start .empty) commands).1 w' answer) ∧
      ∀ id, ∃ w' answer,
        perform d (performAll d (.start .empty) commands).1 (.delete id) =
            (w', some (.deleted answer)) ∧
          Deleting.Leaves id (performAll d (.start .empty) commands).1 w' answer := by
  obtain ⟨w, hall, -, hw⟩ := performAll_eq (Shared.coherent_start d) commands
  rw [hall]
  constructor
  · intro draft now
    obtain ⟨w', answer, hrun, hleaves⟩ := Saving.leaves_run hw draft now
    exact ⟨w', answer, by rw [perform, hrun]; rfl, hleaves⟩
  · intro id
    obtain ⟨w', answer, hrun, hleaves⟩ := Deleting.leaves_run hw id
    exact ⟨w', answer, by rw [perform, hrun]; rfl, hleaves⟩

end Facade

end

end Rulebook
