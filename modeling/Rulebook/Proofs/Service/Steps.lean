/-
  Proofs/Service/Steps.lean --- what one step of an operation can do.

  Lookups, saves and deletions are machines of atomic steps.  For each machine there is
  one statement that lists its steps with what they change of what operations share
  (`Lookup.of_step`, `Saving.step_cases`, `Deleting.step_cases`), and what holds of
  every step is read off it.
-/
import Rulebook.Proofs.Service.Cache
import Rulebook.Proofs.Store.Memory
import Rulebook.Service.Mutation

set_option autoImplicit false

namespace Rulebook

/-! ## Lookups -/

/-- The rule in whose flight a lookup takes part. -/
def Lookup.joined? {π : Type} : Lookup π → Option RuleId
  | .acquire id | .check id | .read id _ | .compile id _ _ | .keep id _ _ | .release id _
  | .leave id _ => some id
  | _ => none

/-- Whether a lookup is one of the rule with an identifier. -/
def Lookup.IsOf {π : Type} (id : RuleId) : Lookup π → Prop
  | .byName _ | .noteEpoch _ | .findName _ _ | .recordName _ _ _ => False
  | .byId other | .join other | .acquire other | .check other | .read other _
  | .compile other _ _ | .keep other _ _ | .release other _ | .leave other _ => other = id
  | .done _ => True

/-- The steps of a lookup over a store in memory. -/
inductive Lookup.Step {π τ : Type} (d : Deployment π τ) (w : Shared MemoryStore π) :
    Lookup π → Shared MemoryStore π → Lookup π → Prop
  | indexed {name : String} {id : RuleId} (h : w.cache.idOf? name = some id) :
      Step d w (.byName name) w (.byId id)
  | unindexed {name : String} (h : w.cache.idOf? name = none) :
      Step d w (.byName name) w (.noteEpoch name)
  | noted {name : String} : Step d w (.noteEpoch name) w (.findName name w.cache.epoch)
  | unnamed {name : String} {epoch : Nat} (h : (w.store.findByName name).bind (·.id) = none) :
      Step d w (.findName name epoch) w (.done (.error (.notFound (.name name))))
  | named {name : String} {epoch : Nat} {rule : Definition} {id : RuleId}
      (hrule : w.store.findByName name = some rule) (hid : rule.id = some id) :
      Step d w (.findName name epoch) w (.recordName name epoch id)
  | recorded {name : String} {epoch : Nat} {id : RuleId} {names : Table String RuleId}
      (h : w.cache.recordName name epoch id = { w.cache with names }) :
      Step d w (.recordName name epoch id) { w with cache := { w.cache with names } } (.byId id)
  | hit {id : RuleId} {p : Compiled π} (h : w.cache.program? id = some p) :
      Step d w (.byId id) w (.done (.ok p))
  | missed {id : RuleId} (h : w.cache.program? id = none) : Step d w (.byId id) w (.join id)
  | joined {id : RuleId} : Step d w (.join id) { w with cache := w.cache.join id } (.acquire id)
  | acquired {id : RuleId} {flights : Table RuleId Flight}
      (h : w.cache.acquire? id = some { w.cache with flights }) :
      Step d w (.acquire id) { w with cache := { w.cache with flights } } (.check id)
  | hitMeanwhile {id : RuleId} {p : Compiled π} (h : w.cache.program? id = some p) :
      Step d w (.check id) w (.release id (.ok p))
  | missedStill {id : RuleId} (h : w.cache.program? id = none) :
      Step d w (.check id) w (.read id (w.cache.generation id))
  | absent {id : RuleId} {generation : Nat} (h : compilable? (w.store.findById id) = none) :
      Step d w (.read id generation) w (.release id (.error (.notFound (.id id))))
  | found {id : RuleId} {generation : Nat} {rule : Definition}
      (h : compilable? (w.store.findById id) = some rule) :
      Step d w (.read id generation) w (.compile id generation rule)
  | refused {id : RuleId} {generation : Nat} {rule : Definition} {diagnostics : Diagnostics}
      (h : d.engine.compile rule.source = .error diagnostics) :
      Step d w (.compile id generation rule) w
        (.release id (.error (.uncompilable id diagnostics)))
  | compiled {id : RuleId} {generation : Nat} {rule : Definition} {program : π}
      (h : d.engine.compile rule.source = .ok program) :
      Step d w (.compile id generation rule) { w with compilations := w.compilations + 1 }
        (.keep id generation ⟨w.compilations, program⟩)
  | kept {id : RuleId} {generation : Nat} {p : Compiled π}
      (h : w.cache.generation id = generation) :
      Step d w (.keep id generation p)
        { w with cache := { w.cache with programs := w.cache.programs.put id p } }
        (.release id (.ok p))
  | outdated {id : RuleId} {generation : Nat} {p : Compiled π}
      (h : w.cache.generation id ≠ generation) : Step d w (.keep id generation p) w (.check id)
  | released {id : RuleId} {answer : Except RuleError (Compiled π)}
      {flights : Table RuleId Flight} (h : w.cache.release id = { w.cache with flights }) :
      Step d w (.release id answer) { w with cache := { w.cache with flights } }
        (.leave id answer)
  | left {id : RuleId} {answer : Except RuleError (Compiled π)} {flights : Table RuleId Flight}
      (h : w.cache.leave id = { w.cache with flights }) :
      Step d w (.leave id answer) { w with cache := { w.cache with flights } } (.done answer)

section

variable {π τ : Type} {d : Deployment π τ} {w w' : Shared MemoryStore π} {l l' : Lookup π}

theorem Lookup.of_step (h : l.step d w = some (w', l')) : Step d w l w' l' := by
  cases l with
  | byName name =>
      simp only [step] at h
      split at h <;> obtain ⟨rfl, rfl⟩ := Prod.mk.inj (Option.some.inj h)
      · rename_i hid
        exact .indexed hid
      · rename_i hnone
        exact .unindexed hnone
  | noteEpoch name =>
      obtain ⟨rfl, rfl⟩ := Prod.mk.inj (Option.some.inj h)
      exact .noted
  | findName name epoch =>
      simp only [step, RuleStore.findByName] at h
      split at h <;> obtain ⟨rfl, rfl⟩ := Prod.mk.inj (Option.some.inj h)
      · rename_i id hid
        obtain ⟨rule, hrule, hid⟩ := Option.bind_eq_some_iff.mp hid
        exact .named hrule hid
      · rename_i hnone
        exact .unnamed hnone
  | recordName name epoch id =>
      have heq := Cache.recordName_eq w.cache name epoch id
      obtain ⟨rfl, rfl⟩ := Prod.mk.inj (Option.some.inj h)
      rw [heq]
      exact .recorded heq
  | byId id =>
      simp only [step] at h
      split at h <;> obtain ⟨rfl, rfl⟩ := Prod.mk.inj (Option.some.inj h)
      · rename_i hp
        exact .hit hp
      · rename_i hnone
        exact .missed hnone
  | join id =>
      obtain ⟨rfl, rfl⟩ := Prod.mk.inj (Option.some.inj h)
      exact .joined
  | acquire id =>
      obtain ⟨cache, hcache, heq⟩ := Option.map_eq_some_iff.mp h
      obtain ⟨rfl, rfl⟩ := Prod.mk.inj heq
      have hflights := Cache.acquire?_eq hcache
      rw [hflights] at hcache ⊢
      exact .acquired hcache
  | check id =>
      simp only [step] at h
      split at h <;> obtain ⟨rfl, rfl⟩ := Prod.mk.inj (Option.some.inj h)
      · rename_i hp
        exact .hitMeanwhile hp
      · rename_i hnone
        exact .missedStill hnone
  | read id generation =>
      simp only [step, RuleStore.findById] at h
      split at h <;> obtain ⟨rfl, rfl⟩ := Prod.mk.inj (Option.some.inj h)
      · rename_i hrule
        exact .found hrule
      · rename_i hrule
        exact .absent hrule
  | compile id generation rule =>
      simp only [step] at h
      split at h <;> obtain ⟨rfl, rfl⟩ := Prod.mk.inj (Option.some.inj h)
      · rename_i hcompile
        exact .refused hcompile
      · rename_i hcompile
        exact .compiled hcompile
  | keep id generation p =>
      simp only [step] at h
      split at h <;> obtain ⟨rfl, rfl⟩ := Prod.mk.inj (Option.some.inj h)
      · rename_i hkeep
        obtain ⟨hgeneration, rfl⟩ := Cache.keep?_eq_some_iff.mp hkeep
        exact .kept hgeneration
      · rename_i hkeep
        apply Step.outdated
        intro hsame
        rw [Cache.keep?_eq_some_iff.mpr ⟨hsame, rfl⟩] at hkeep
        exact Option.some_ne_none _ hkeep
  | release id answer =>
      have heq := Cache.release_eq w.cache id
      obtain ⟨rfl, rfl⟩ := Prod.mk.inj (Option.some.inj h)
      rw [heq]
      exact .released heq
  | leave id answer =>
      have heq := Cache.leave_eq w.cache id
      obtain ⟨rfl, rfl⟩ := Prod.mk.inj (Option.some.inj h)
      rw [heq]
      exact .left heq
  | done answer => simp [step] at h

theorem Lookup.advance_of_step (h : l.step d w = some (w', l')) (n : Nat) :
    advance d (n + 1) w l = advance d n w' l' := by
  rw [advance, h]

theorem Lookup.advance_done (n : Nat) (answer : Except RuleError (Compiled π)) :
    advance d n w (.done answer) = (w, .done answer) := by
  cases n <;> rfl

namespace Lookup.Step

/-- A lookup by identifier stays with its rule. -/
theorem isOf {id : RuleId} (h : Step d w l w' l') (hof : l.IsOf id) : l'.IsOf id := by
  cases h with
  | indexed | unindexed | noted | unnamed | named | recorded => exact hof.elim
  | hit | left => trivial
  | _ => exact hof

/-- Lookups neither write to the store nor invalidate. -/
theorem frame (h : Step d w l w' l') :
    w'.store = w.store ∧ w'.mutating = w.mutating ∧
      w'.cache.generations = w.cache.generations ∧ w'.cache.epoch = w.cache.epoch := by
  cases h <;> exact ⟨rfl, rfl, rfl, rfl⟩

/-- A program comes into the cache by a lookup that noted the generation that its rule
still has. -/
theorem mem_programs (h : Step d w l w' l') {id : RuleId} {p : Compiled π}
    (hmem : (id, p) ∈ w'.cache.programs) :
    (id, p) ∈ w.cache.programs ∨ l = .keep id (w.cache.generation id) p := by
  cases h with
  | kept hgeneration =>
      rcases Table.mem_put hmem with heq | hold
      · obtain ⟨rfl, rfl⟩ := Prod.mk.inj heq
        rw [hgeneration]
        exact Or.inr rfl
      · exact Or.inl hold
  | _ => exact Or.inl hmem

/-- A name comes into the index by a lookup that noted the epoch that still is. -/
theorem mem_names (h : Step d w l w' l') {name : String} {id : RuleId}
    (hmem : (name, id) ∈ w'.cache.names) :
    (name, id) ∈ w.cache.names ∨ l = .recordName name w.cache.epoch id := by
  cases h with
  | @recorded other epoch target names hrecord =>
      have hnames : (w.cache.recordName other epoch target).names = names := by
        rw [hrecord]
      rw [← hnames] at hmem
      rcases Cache.mem_names_recordName hmem with ⟨heq, hepoch⟩ | hold
      · obtain ⟨rfl, rfl⟩ := Prod.mk.inj heq
        rw [hepoch]
        exact Or.inr rfl
      · exact Or.inl hold
  | _ => exact Or.inl hmem

/-- The size of a flight follows the lookups that join and leave it. -/
theorem holders? (h : Step d w l w' l') :
    (l'.joined? = l.joined? ∧ ∀ other, w'.cache.holders? other = w.cache.holders? other) ∨
      (∃ id, l.joined? = none ∧ l'.joined? = some id ∧ w'.cache = w.cache.join id) ∨
      (∃ id, l.joined? = some id ∧ l'.joined? = none ∧ w'.cache = w.cache.leave id) := by
  cases h with
  | joined => exact Or.inr (Or.inl ⟨_, rfl, rfl, rfl⟩)
  | acquired hacquire => exact Or.inl ⟨rfl, Cache.holders?_acquire hacquire⟩
  | @released id answer flights hrelease =>
      refine Or.inl ⟨rfl, ?_⟩
      intro other
      show ({ w.cache with flights } : Cache π).holders? other = w.cache.holders? other
      rw [← hrelease, Cache.holders?_release]
  | left hleave => exact Or.inr (Or.inr ⟨_, rfl, rfl, hleave.symm⟩)
  | _ => exact Or.inl ⟨rfl, fun _ => rfl⟩

end Lookup.Step

end

/-! ## Answers -/

/-- The answer of a lookup that finds in the store what is given. -/
def Deployment.answer {π τ : Type} (d : Deployment π τ) (id : RuleId)
    (found : Option Definition) : Except RuleError π :=
  match Lookup.compilable? found with
  | none => .error (.notFound (.id id))
  | some rule => (d.engine.compile rule.source).mapError (.uncompilable id)

section

variable {π τ : Type} {d : Deployment π τ} {id : RuleId} {found : Option Definition}

theorem Deployment.answer_of_none (h : Lookup.compilable? found = none) :
    d.answer id found = .error (.notFound (.id id)) := by
  rw [answer, h]

theorem Deployment.answer_of_some {rule : Definition} (h : Lookup.compilable? found = some rule) :
    d.answer id found = (d.engine.compile rule.source).mapError (.uncompilable id) := by
  rw [answer, h]

/-- A program is the answer if it was compiled from the text that is there. -/
theorem Deployment.of_answer_ok {program : π} (h : d.answer id found = .ok program) :
    ∃ rule, found = some rule ∧ d.engine.compile rule.source = .ok program := by
  cases hfound : Lookup.compilable? found with
  | none => simp [answer_of_none hfound] at h
  | some rule =>
      rw [answer_of_some hfound] at h
      refine ⟨rule, (Option.filter_eq_some_iff.mp hfound).1, ?_⟩
      cases hcompile : d.engine.compile rule.source with
      | error diagnostics =>
          rw [hcompile] at h
          have hrefused : (.error (.uncompilable id diagnostics) : Except RuleError π) =
            .ok program := h
          simp at hrefused
      | ok compiled =>
          rw [hcompile] at h
          have hcompiled : (.ok compiled : Except RuleError π) = .ok program := h
          rw [Except.ok.inj hcompiled]

end

/-! ## Mutations -/

namespace Saving

/-- The rule that a save has written and not yet invalidated. -/
def pending? : Saving → Option RuleId
  | .invalidate id => some id
  | _ => none

/-- The rule that a save has written and invalidated. -/
def settled? : Saving → Option RuleId
  | .unlock (.ok id) | .done (.ok id) => some id
  | _ => none

/-- The draft that a save has yet to write. -/
def draft? : Saving → Option Definition
  | .normalize draft | .verify draft | .lock draft | .find draft _ | .checkName draft _
  | .write draft _ => some draft
  | _ => none

end Saving

namespace Deleting

/-- Whether a deletion is one of the rule with an identifier. -/
def IsOf (id : RuleId) : Deleting → Prop
  | .lock other | .find other | .remove other _ | .invalidate other _ => other = id
  | _ => True

/-- Whether the rule is deleted and not yet invalidated. -/
def isPending : Deleting → Bool
  | .invalidate _ _ => true
  | _ => false

/-- Whether the rule is deleted and invalidated. -/
def isSettled : Deleting → Bool
  | .unlock (.ok _) | .done (.ok _) => true
  | _ => false

end Deleting

section

variable {π τ : Type} {d : Deployment π τ} {now : Timestamp} {w w' : Shared MemoryStore π}

theorem Definition.id_of_normalize {draft stored : Definition}
    (h : draft.normalize = .ok stored) : stored.id = draft.id := by
  unfold normalize at h
  simp only at h
  split at h
  · simp at h
  · split at h
    · simp at h
    · rw [← Except.ok.inj h]

/-- A save writes to the store in one step, invalidates in one, and else leaves store
and cache alone. -/
theorem Saving.step_cases {s s' : Saving} (h : s.step d now w = some (w', s')) :
    (w'.store = w.store ∧ w'.cache = w.cache ∧ s.pending? = none ∧ s'.pending? = none ∧
        s'.settled? = s.settled?) ∨
      (∃ draft existing store id, s = .write draft existing ∧
        w.store.save (draft.stamp existing now) = .ok (store, id) ∧
        w' = { w with store } ∧ s' = .invalidate id) ∨
      (∃ id, s = .invalidate id ∧ w' = { w with cache := w.cache.invalidate id } ∧
        s' = .unlock (.ok id)) := by
  cases s with
  | normalize draft =>
      left
      simp only [step] at h
      split at h
      · obtain ⟨rfl, rfl⟩ := Prod.mk.inj (Option.some.inj h)
        exact ⟨rfl, rfl, rfl, rfl, rfl⟩
      · obtain ⟨rfl, rfl⟩ := Prod.mk.inj (Option.some.inj h)
        split <;> exact ⟨rfl, rfl, rfl, rfl, rfl⟩
  | verify draft =>
      left
      simp only [step] at h
      split at h <;> obtain ⟨rfl, rfl⟩ := Prod.mk.inj (Option.some.inj h) <;>
        exact ⟨rfl, rfl, rfl, rfl, rfl⟩
  | lock draft =>
      left
      simp only [step] at h
      split at h
      · simp at h
      · obtain ⟨rfl, rfl⟩ := Prod.mk.inj (Option.some.inj h)
        cases draft.id <;> exact ⟨rfl, rfl, rfl, rfl, rfl⟩
  | find draft id =>
      left
      simp only [step] at h
      split at h <;> obtain ⟨rfl, rfl⟩ := Prod.mk.inj (Option.some.inj h) <;>
        exact ⟨rfl, rfl, rfl, rfl, rfl⟩
  | checkName draft existing =>
      left
      simp only [step] at h
      split at h <;> obtain ⟨rfl, rfl⟩ := Prod.mk.inj (Option.some.inj h) <;>
        exact ⟨rfl, rfl, rfl, rfl, rfl⟩
  | write draft existing =>
      simp only [step] at h
      split at h
      · obtain ⟨rfl, rfl⟩ := Prod.mk.inj (Option.some.inj h)
        exact Or.inl ⟨rfl, rfl, rfl, rfl, rfl⟩
      · rename_i store id hsave
        obtain ⟨rfl, rfl⟩ := Prod.mk.inj (Option.some.inj h)
        exact Or.inr (Or.inl ⟨draft, existing, store, id, rfl, hsave, rfl, rfl⟩)
  | invalidate id =>
      obtain ⟨rfl, rfl⟩ := Prod.mk.inj (Option.some.inj h)
      exact Or.inr (Or.inr ⟨id, rfl, rfl, rfl⟩)
  | unlock answer =>
      left
      obtain ⟨rfl, rfl⟩ := Prod.mk.inj (Option.some.inj h)
      cases answer <;> exact ⟨rfl, rfl, rfl, rfl, rfl⟩
  | done answer => simp [step] at h

/-- A save does not change which rule its draft is for. -/
theorem Saving.draft?_of_step {s s' : Saving} (h : s.step d now w = some (w', s'))
    {draft' : Definition} (hdraft' : s'.draft? = some draft') :
    ∃ draft, s.draft? = some draft ∧ draft'.id = draft.id := by
  cases s with
  | normalize draft =>
      refine ⟨draft, rfl, ?_⟩
      simp only [step] at h
      split at h
      · obtain ⟨-, rfl⟩ := Prod.mk.inj (Option.some.inj h)
        simp [draft?] at hdraft'
      · rename_i stored hstored
        obtain ⟨-, rfl⟩ := Prod.mk.inj (Option.some.inj h)
        have hsame : stored = draft' := by
          split at hdraft' <;> exact Option.some.inj hdraft'
        rw [← hsame, Definition.id_of_normalize hstored]
  | verify draft | find draft _ | checkName draft _ | write draft _ =>
      refine ⟨draft, rfl, ?_⟩
      simp only [step] at h
      split at h <;> obtain ⟨-, rfl⟩ := Prod.mk.inj (Option.some.inj h) <;>
        simp_all [draft?]
  | lock draft =>
      refine ⟨draft, rfl, ?_⟩
      simp only [step] at h
      split at h
      · simp at h
      · obtain ⟨-, rfl⟩ := Prod.mk.inj (Option.some.inj h)
        have hsame : draft = draft' := by
          split at hdraft' <;> exact Option.some.inj hdraft'
        rw [hsame]
  | invalidate _ | unlock _ =>
      obtain ⟨-, rfl⟩ := Prod.mk.inj (Option.some.inj h)
      simp [draft?] at hdraft'
  | done _ => simp [step] at h

/-- A deletion deletes in one step, invalidates in one, and else leaves store and cache
alone. -/
theorem Deleting.step_cases {id : RuleId} {s s' : Deleting} (hof : s.IsOf id)
    (h : s.step w = some (w', s')) :
    s'.IsOf id ∧
      ((w'.store = w.store ∧ w'.cache = w.cache ∧ s.isPending = false ∧
          s'.isPending = false ∧ s'.isSettled = s.isSettled) ∨
        (s.isPending = false ∧ s.isSettled = false ∧
          w' = { w with store := (w.store.delete id).1 } ∧ s'.isPending = true ∧
          s'.isSettled = false) ∨
        (s.isPending = true ∧ s.isSettled = false ∧
          w' = { w with cache := w.cache.invalidate id } ∧ s'.isPending = false ∧
          s'.isSettled = true)) := by
  cases s with
  | lock other =>
      obtain rfl : other = id := hof
      simp only [step] at h
      split at h
      · simp at h
      · obtain ⟨rfl, rfl⟩ := Prod.mk.inj (Option.some.inj h)
        exact ⟨rfl, Or.inl ⟨rfl, rfl, rfl, rfl, rfl⟩⟩
  | find other =>
      obtain rfl : other = id := hof
      simp only [step] at h
      split at h <;> obtain ⟨rfl, rfl⟩ := Prod.mk.inj (Option.some.inj h)
      · exact ⟨trivial, Or.inl ⟨rfl, rfl, rfl, rfl, rfl⟩⟩
      · exact ⟨trivial, Or.inl ⟨rfl, rfl, rfl, rfl, rfl⟩⟩
      · exact ⟨rfl, Or.inl ⟨rfl, rfl, rfl, rfl, rfl⟩⟩
  | remove other existing =>
      obtain rfl : other = id := hof
      obtain ⟨rfl, rfl⟩ := Prod.mk.inj (Option.some.inj h)
      exact ⟨rfl, Or.inr (Or.inl ⟨rfl, rfl, rfl, rfl, rfl⟩)⟩
  | invalidate other removed =>
      obtain rfl : other = id := hof
      obtain ⟨rfl, rfl⟩ := Prod.mk.inj (Option.some.inj h)
      exact ⟨trivial, Or.inr (Or.inr ⟨rfl, rfl, rfl, rfl, rfl⟩)⟩
  | unlock answer =>
      obtain ⟨rfl, rfl⟩ := Prod.mk.inj (Option.some.inj h)
      cases answer <;> exact ⟨trivial, Or.inl ⟨rfl, rfl, rfl, rfl, rfl⟩⟩
  | done answer => simp [step] at h

end

end Rulebook
