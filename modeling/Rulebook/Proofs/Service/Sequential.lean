/-
  Proofs/Service/Sequential.lean --- one command after the other.

  Between two commands no operation is under way: there is no flight, no mutation, and
  what the cache holds agrees with the store (`Coherent`).  From such a state every
  operation runs to its end, and leaves such a state.  That an index of names leads to
  the rule that a search by name finds first rests on names being distinct in the store,
  which saves see to.
-/
import Rulebook.Proofs.Service.Facade
import Rulebook.Proofs.Service.Steps

set_option autoImplicit false

namespace Rulebook

variable {π τ : Type} {d : Deployment π τ} {w : Shared MemoryStore π}

/-- What holds between commands. -/
structure Shared.Coherent (d : Deployment π τ) (w : Shared MemoryStore π) : Prop where
  idle : w.mutating = false
  landed : w.cache.flights = []
  keyed : w.store.Keyed
  namesDistinct : w.store.NamesDistinct
  not_blank : ∀ entry ∈ w.store.rules, Text.isBlankText entry.2.source = false
  programs : ∀ id p, (id, p) ∈ w.cache.programs →
    Uncached.program d w.store (.id id) = .ok p.program
  names : ∀ name id, (name, id) ∈ w.cache.names →
    ∃ rule, Uncached.entry? w.store (.name name) = some (id, rule)

theorem Shared.coherent_start (d : Deployment π τ) : (Shared.start .empty).Coherent d where
  idle := rfl
  landed := rfl
  keyed := MemoryStore.keyed_empty
  namesDistinct := MemoryStore.namesDistinct_empty
  not_blank _ hmem := absurd hmem List.not_mem_nil
  programs _ _ hmem := absurd hmem List.not_mem_nil
  names _ _ hmem := absurd hmem List.not_mem_nil

/-! ## Finding rules -/

namespace MemoryStore

variable {s : MemoryStore} {id : RuleId} {name : String} {rule : Definition}

theorem entry?_id (s : MemoryStore) (id : RuleId) :
    Uncached.entry? s (.id id) = (s.findById id).map fun rule => (id, rule) :=
  Table.find?_key s.rules id

theorem findByName_eq (s : MemoryStore) (name : String) :
    s.findByName name = (Uncached.entry? s (.name name)).map Prod.snd := by
  rw [findByName, definitions, List.find?_map]
  rfl

/-- If names are distinct, a rule is the first with its name. -/
theorem Keyed.entry?_name_iff (h : s.Keyed) (hnames : s.NamesDistinct) :
    Uncached.entry? s (.name name) = some (id, rule) ↔
      s.findById id = some rule ∧ rule.name = name := by
  constructor
  · intro hentry
    refine ⟨h.findById_iff.mpr (List.mem_of_find?_eq_some hentry), ?_⟩
    simpa using List.find?_some hentry
  · rintro ⟨hfind, rfl⟩
    have hmem := mem_of_findById hfind
    cases hentry : Uncached.entry? s (.name rule.name) with
    | none =>
        have hnone := List.find?_eq_none.mp hentry _ hmem
        simp at hnone
    | some entry =>
        have hfound := List.mem_of_find?_eq_some hentry
        have hname : entry.2.name = rule.name := by simpa using List.find?_some hentry
        have hid : entry.1 = id := hnames entry hfound (id, rule) hmem hname
        subst hid
        rw [← Option.some.inj ((h.findById_iff.mpr hfound).symm.trans hfind)]

end MemoryStore

namespace Shared.Coherent

variable {id : RuleId} {rule : Definition}

/-- A lookup that asks the store finds the program of the stored rule. -/
theorem answer_eq (hw : w.Coherent d) (id : RuleId) :
    d.answer id (w.store.findById id) = Uncached.program d w.store (.id id) := by
  unfold Uncached.program
  rw [MemoryStore.entry?_id]
  cases hfind : w.store.findById id with
  | none => rfl
  | some rule =>
      have hnot : Text.isBlankText rule.source = false :=
        hw.not_blank _ (MemoryStore.mem_of_findById hfind)
      have hcompilable : Lookup.compilable? (some rule) = some rule := by
        simp [Lookup.compilable?, hnot]
      rw [Deployment.answer_of_some hcompilable]
      rfl

/-- The program that a name leads to is the one of the rule with that name. -/
theorem program_name (hw : w.Coherent d) {name : String}
    (hentry : Uncached.entry? w.store (.name name) = some (id, rule)) :
    Uncached.program d w.store (.name name) = Uncached.program d w.store (.id id) := by
  obtain ⟨hfind, -⟩ := (hw.keyed.entry?_name_iff hw.namesDistinct).mp hentry
  rw [Uncached.program, hentry, Uncached.program, MemoryStore.entry?_id, hfind]
  rfl

/-- What was compiled from the store may be kept. -/
theorem keep (hw : w.Coherent d) {p : Compiled π}
    (hp : Uncached.program d w.store (.id id) = .ok p.program) :
    Shared.Coherent d { w with
      cache := { w.cache with programs := w.cache.programs.put id p }
      compilations := w.compilations + 1 } where
  idle := hw.idle
  landed := hw.landed
  keyed := hw.keyed
  namesDistinct := hw.namesDistinct
  not_blank := hw.not_blank
  programs other q hmem := by
    rcases Table.mem_put hmem with heq | hold
    · obtain ⟨rfl, rfl⟩ := Prod.mk.inj heq
      exact hp
    · exact hw.programs other q hold
  names := hw.names

/-- What was found by name in the store may be recorded. -/
theorem record (hw : w.Coherent d) {name : String}
    (hentry : Uncached.entry? w.store (.name name) = some (id, rule)) (epoch : Nat) :
    Shared.Coherent d { w with cache := w.cache.recordName name epoch id } where
  idle := hw.idle
  landed := by
    rw [Cache.recordName_eq]
    exact hw.landed
  keyed := hw.keyed
  namesDistinct := hw.namesDistinct
  not_blank := hw.not_blank
  programs other q hmem := by
    rw [Cache.recordName_eq] at hmem
    exact hw.programs other q hmem
  names other target hmem := by
    rcases Cache.mem_names_recordName hmem with ⟨heq, -⟩ | hold
    · obtain ⟨rfl, rfl⟩ := Prod.mk.inj heq
      exact ⟨rule, hentry⟩
    · exact hw.names other target hold

end Shared.Coherent

/-! ## Lookups -/

/-- The same with one lookup under way, which takes part in the flight of a rule. -/
def Shared.inFlight (w : Shared MemoryStore π) (id : RuleId) (locked : Bool) :
    Shared MemoryStore π :=
  { w with cache := { w.cache with flights := [(id, ⟨1, locked⟩)] } }

section

variable {id : RuleId} (hlanded : w.cache.flights = [])

include hlanded

theorem Cache.join_landed : w.cache.join id = (w.inFlight id false).cache := by
  simp [join, hlanded, Table.put, Shared.inFlight]

theorem Cache.leave_inFlight : (w.inFlight id false).cache.leave id = w.cache := by
  have hleave : (w.inFlight id false).cache.leave id = { w.cache with flights := [] } := by
    simp [leave, Shared.inFlight, Table.get?, Table.erase]
  rw [hleave, ← hlanded]

end

theorem Cache.acquire?_inFlight (w : Shared MemoryStore π) (id : RuleId) :
    (w.inFlight id false).cache.acquire? id = some (w.inFlight id true).cache := by
  simp [acquire?, Shared.inFlight, Table.get?, Table.put]

theorem Cache.release_inFlight (w : Shared MemoryStore π) (id : RuleId) :
    (w.inFlight id true).cache.release id = (w.inFlight id false).cache := by
  simp [release, Shared.inFlight, Table.get?, Table.put]

namespace Lookup

variable {id : RuleId}

/-- With its answer a lookup leaves the flight, and nothing of it remains. -/
theorem advance_release (hlanded : w.cache.flights = []) (n : Nat)
    (answer : Except RuleError (Compiled π)) :
    advance d (n + 2) (w.inFlight id true) (.release id answer) = (w, .done answer) := by
  have hrelease : (Lookup.release id answer).step d (w.inFlight id true) =
      some (w.inFlight id false, .leave id answer) := by
    rw [step, Cache.release_inFlight]
    rfl
  have hleave : (Lookup.leave id answer).step d (w.inFlight id false) =
      some (w, .done answer) := by
    rw [step, Cache.leave_inFlight hlanded]
    rfl
  rw [advance_of_step hrelease, advance_of_step hleave, advance_done]

/-- A state after the end of a lookup that kept a program, or none. -/
def Leaves (w : Shared MemoryStore π) (id : RuleId) (answer : Except RuleError (Compiled π))
    (w' : Shared MemoryStore π) : Prop :=
  w' = w ∨ ∃ p, answer = .ok p ∧
    w' = { w with
      cache := { w.cache with programs := w.cache.programs.put id p }
      compilations := w.compilations + 1 }

/-- A lookup that has read a rule answers with its program, which it keeps, or with what
keeps it from compiling. -/
theorem advance_compile (hlanded : w.cache.flights = []) (id : RuleId) (rule : Definition)
    (n : Nat) :
    ∃ w' answer, advance d (n + 4) (w.inFlight id true)
        (.compile id (w.cache.generation id) rule) = (w', .done answer) ∧
      answer.map (·.program) = (d.engine.compile rule.source).mapError (.uncompilable id) ∧
      Leaves w id answer w' := by
  cases hcompile : d.engine.compile rule.source with
  | error diagnostics =>
      have hrefused : (Lookup.compile id (w.cache.generation id) rule).step d
          (w.inFlight id true) = some (w.inFlight id true,
            .release id (.error (.uncompilable id diagnostics))) := by
        simp only [step, hcompile]
      rw [advance_of_step hrefused, advance_release hlanded]
      exact ⟨w, _, rfl, rfl, Or.inl rfl⟩
  | ok program =>
      let p : Compiled π := ⟨w.compilations, program⟩
      let counted : Shared MemoryStore π := { w with compilations := w.compilations + 1 }
      let kept : Shared MemoryStore π :=
        { counted with cache := { w.cache with programs := w.cache.programs.put id p } }
      have hcompiled : (Lookup.compile id (w.cache.generation id) rule).step d
          (w.inFlight id true) =
            some (counted.inFlight id true, .keep id (w.cache.generation id) p) := by
        simp only [step, hcompile]
        rfl
      have hkeep : (Lookup.keep id (w.cache.generation id) p).step d
          (counted.inFlight id true) = some (kept.inFlight id true, .release id (.ok p)) := by
        have hsame : (counted.inFlight id true).cache.keep? id (w.cache.generation id) p =
            some (kept.inFlight id true).cache :=
          Cache.keep?_eq_some_iff.mpr ⟨rfl, rfl⟩
        rw [step, hsame]
        rfl
      have hkept : kept.cache.flights = [] := hlanded
      rw [advance_of_step hcompiled, advance_of_step hkeep, advance_release hkept]
      exact ⟨kept, _, rfl, rfl, Or.inr ⟨p, rfl, rfl⟩⟩

/-- A lookup that has the lock answers with what the store has. -/
theorem advance_check (hlanded : w.cache.flights = []) (hmiss : w.cache.program? id = none)
    (n : Nat) :
    ∃ w' answer, advance d (n + 6) (w.inFlight id true) (.check id) = (w', .done answer) ∧
      answer.map (·.program) = d.answer id (w.store.findById id) ∧ Leaves w id answer w' := by
  have hcheck : (Lookup.check id).step d (w.inFlight id true) =
      some (w.inFlight id true, .read id (w.cache.generation id)) := by
    have hsame : (w.inFlight id true).cache.program? id = none := hmiss
    rw [step, hsame]
    rfl
  rw [advance_of_step hcheck]
  cases hfound : compilable? (w.store.findById id) with
  | none =>
      have hread : (Lookup.read id (w.cache.generation id)).step d (w.inFlight id true) =
          some (w.inFlight id true, .release id (.error (.notFound (.id id)))) := by
        simp only [step, RuleStore.findById, Shared.inFlight, hfound]
      rw [advance_of_step hread, advance_release hlanded, Deployment.answer_of_none hfound]
      exact ⟨w, _, rfl, rfl, Or.inl rfl⟩
  | some rule =>
      have hread : (Lookup.read id (w.cache.generation id)).step d (w.inFlight id true) =
          some (w.inFlight id true, .compile id (w.cache.generation id) rule) := by
        simp only [step, RuleStore.findById, Shared.inFlight, hfound]
      rw [advance_of_step hread, Deployment.answer_of_some hfound]
      exact advance_compile hlanded id rule n

/-- A lookup by identifier answers with the program of the stored rule. -/
theorem advance_byId (hw : w.Coherent d) (id : RuleId) (n : Nat) :
    ∃ w' answer, advance d (n + 9) w (.byId id) = (w', .done answer) ∧
      w'.store = w.store ∧ w'.Coherent d ∧
      answer.map (·.program) = Uncached.program d w.store (.id id) := by
  cases hprogram : w.cache.program? id with
  | some p =>
      have hhit : (Lookup.byId id).step d w = some (w, .done (.ok p)) := by
        rw [step, hprogram]
      rw [advance_of_step hhit, advance_done]
      exact ⟨w, _, rfl, rfl, hw, (hw.programs id p (Table.mem_of_get? hprogram)).symm⟩
  | none =>
      have hmiss : (Lookup.byId id).step d w = some (w, .join id) := by
        rw [step, hprogram]
      have hjoin : (Lookup.join id).step d w = some (w.inFlight id false, .acquire id) := by
        rw [step, Cache.join_landed hw.landed]
        rfl
      have hacquire : (Lookup.acquire id).step d (w.inFlight id false) =
          some (w.inFlight id true, .check id) := by
        rw [step, Cache.acquire?_inFlight]
        rfl
      obtain ⟨w', answer, hrun, hanswer, hleaves⟩ := advance_check (d := d) hw.landed hprogram n
      rw [advance_of_step hmiss, advance_of_step hjoin, advance_of_step hacquire, hrun]
      rw [hw.answer_eq] at hanswer
      refine ⟨w', answer, rfl, ?_, ?_, hanswer⟩
      · rcases hleaves with rfl | ⟨p, -, rfl⟩ <;> rfl
      · rcases hleaves with rfl | ⟨p, rfl, rfl⟩
        · exact hw
        · exact hw.keep hanswer.symm

/-- A lookup by name answers with the program of the stored rule with that name. -/
theorem advance_byName (hw : w.Coherent d) (name : String) (n : Nat) :
    ∃ w' answer, advance d (n + 13) w (.byName name) = (w', .done answer) ∧
      w'.store = w.store ∧ w'.Coherent d ∧
      answer.map (·.program) = Uncached.program d w.store (.name name) := by
  cases hindex : w.cache.idOf? name with
  | some id =>
      have hhit : (Lookup.byName name).step d w = some (w, .byId id) := by
        rw [step, hindex]
      obtain ⟨rule, hentry⟩ := hw.names name id (Table.mem_of_get? hindex)
      obtain ⟨w', answer, hrun, hstore, hcoherent, hanswer⟩ := advance_byId hw id (n + 3)
      rw [advance_of_step hhit, hrun, hw.program_name hentry]
      exact ⟨w', answer, rfl, hstore, hcoherent, hanswer⟩
  | none =>
      have hmiss : (Lookup.byName name).step d w = some (w, .noteEpoch name) := by
        rw [step, hindex]
      have hepoch : (Lookup.noteEpoch name).step d w =
          some (w, .findName name w.cache.epoch) := rfl
      rw [advance_of_step hmiss, advance_of_step hepoch]
      cases hentry : Uncached.entry? w.store (.name name) with
      | none =>
          have hfind : (Lookup.findName name w.cache.epoch).step d w =
              some (w, .done (.error (.notFound (.name name)))) := by
            simp only [step, RuleStore.findByName, MemoryStore.findByName_eq, hentry]
            rfl
          rw [advance_of_step hfind, advance_done, Uncached.program, hentry]
          exact ⟨w, _, rfl, rfl, hw, rfl⟩
      | some entry =>
          obtain ⟨id, rule⟩ := entry
          have hid : rule.id = some id :=
            hw.keyed.own_id (id, rule) (List.mem_of_find?_eq_some hentry)
          have hfind : (Lookup.findName name w.cache.epoch).step d w =
              some (w, .recordName name w.cache.epoch id) := by
            simp only [step, RuleStore.findByName, MemoryStore.findByName_eq, hentry,
              Option.map_some, Option.bind_some, hid]
          have hrecord : (Lookup.recordName name w.cache.epoch id).step d w = some
              ({ w with cache := w.cache.recordName name w.cache.epoch id }, .byId id) := rfl
          obtain ⟨w', answer, hrun, hstore, hcoherent, hanswer⟩ :=
            advance_byId (hw.record hentry w.cache.epoch) id n
          rw [advance_of_step hfind, advance_of_step hrecord, hrun, hw.program_name hentry]
          exact ⟨w', answer, rfl, hstore, hcoherent, hanswer⟩

/-- A lookup answers with the program of the stored rule. -/
theorem run_eq (hw : w.Coherent d) (key : RuleKey) :
    ∃ w' answer, run d w key = (w', some answer) ∧ w'.store = w.store ∧ w'.Coherent d ∧
      answer.map (·.program) = Uncached.program d w.store key := by
  have hadvance : ∃ w' answer, advance d maxSteps w (start key) = (w', .done answer) ∧
      w'.store = w.store ∧ w'.Coherent d ∧
      answer.map (·.program) = Uncached.program d w.store key := by
    cases key with
    | id id => exact advance_byId hw id 4
    | name name => exact advance_byName hw name 0
  obtain ⟨w', answer, hrun, hstore, hcoherent, hanswer⟩ := hadvance
  refine ⟨w', answer, ?_, hstore, hcoherent, hanswer⟩
  rw [run, hrun]
  rfl

end Lookup

/-! ## Mutations -/

/-- A mutation invalidates the one rule that it may have changed. -/
theorem Shared.Coherent.mutate (hw : w.Coherent d) {t : MemoryStore} {id : RuleId}
    (hkeyed : t.Keyed) (hnames : t.NamesDistinct)
    (hnot : ∀ entry ∈ t.rules, Text.isBlankText entry.2.source = false)
    (hother : ∀ other, other ≠ id → t.findById other = w.store.findById other) :
    Shared.Coherent d { w with store := t, cache := w.cache.invalidate id } where
  idle := hw.idle
  landed := hw.landed
  keyed := hkeyed
  namesDistinct := hnames
  not_blank := hnot
  programs other p hmem := by
    obtain ⟨hold, hne⟩ := Cache.mem_programs_invalidate.mp hmem
    have hp := hw.programs other p hold
    rwa [Uncached.program, MemoryStore.entry?_id, ← hother other hne,
      ← MemoryStore.entry?_id] at hp
  names name target hmem := by
    obtain ⟨hold, hne⟩ := Cache.mem_names_invalidate.mp hmem
    obtain ⟨rule, hentry⟩ := hw.names name target hold
    obtain ⟨hfind, hname⟩ := (hw.keyed.entry?_name_iff hw.namesDistinct).mp hentry
    refine ⟨rule, (hkeyed.entry?_name_iff hnames).mpr ⟨?_, hname⟩⟩
    exact (hother target hne).trans hfind

theorem Shared.Coherent.invalidate (hw : w.Coherent d) (id : RuleId) :
    Shared.Coherent d { w with cache := w.cache.invalidate id } :=
  hw.mutate hw.keyed hw.namesDistinct hw.not_blank fun _ _ => rfl

/-- The same with a mutation under way. -/
def Shared.locked (w : Shared MemoryStore π) : Shared MemoryStore π := { w with mutating := true }

namespace Saving

variable {now : Timestamp} {w' : Shared MemoryStore π} {s s' : Saving}

theorem advance_of_step (h : s.step d now w = some (w', s')) (n : Nat) :
    advance d now (n + 1) w s = advance d now n w' s' := by
  rw [advance, h]

theorem advance_done (n : Nat) (answer : Except RuleError RuleId) :
    advance d now n w (.done answer) = (w, .done answer) := by
  cases n <;> rfl

theorem advance_unlock (hidle : w.mutating = false) (n : Nat) (answer : Except RuleError RuleId) :
    advance d now (n + 1) w.locked (.unlock answer) = (w, .done answer) := by
  have hunlock : (Saving.unlock answer).step d now w.locked = some (w, .done answer) := by
    rw [step, Shared.locked, ← hidle]
  rw [advance_of_step hunlock, advance_done]

/-- A save has come to its end, and did what is given. -/
def Ends (d : Deployment π τ) (w : Shared MemoryStore π)
    (did : Except RuleError (MemoryStore × RuleId)) (result : Shared MemoryStore π × Saving) :
    Prop :=
  ∃ w', result = (w', .done (did.map Prod.snd)) ∧ w'.store = Uncached.stored w.store did ∧
    w'.Coherent d

theorem ends_unlock (hw : w.Coherent d) (n : Nat) (e : RuleError) :
    Ends d w (.error e) (advance d now (n + 1) w.locked (.unlock (.error e))) := by
  rw [advance_unlock hw.idle]
  exact ⟨w, rfl, rfl, hw⟩

/-- Once its name is checked, a save writes and invalidates. -/
theorem ends_checkName (hw : w.Coherent d) {draft : Definition} (existing : Option Definition)
    (hnot : Text.isBlankText draft.source = false) (n : Nat) :
    Ends d w (Uncached.write w.store draft existing now)
      (advance d now (n + 4) w.locked (.checkName draft existing)) := by
  unfold Uncached.write
  cases hfree : w.store.existsByName draft.name draft.id with
  | true =>
      have hcheck : (Saving.checkName draft existing).step d now w.locked =
          some (w.locked, .unlock (.error (.nameTaken draft.name))) := by
        simp only [step, RuleStore.existsByName, Shared.locked, hfree]
      rw [advance_of_step hcheck, if_pos rfl]
      exact ends_unlock hw (n + 2) _
  | false =>
      have hcheck : (Saving.checkName draft existing).step d now w.locked =
          some (w.locked, .write draft existing) := by
        simp only [step, RuleStore.existsByName, Shared.locked, hfree]
      rw [advance_of_step hcheck, if_neg Bool.false_ne_true]
      cases hsave : w.store.save (draft.stamp existing now) with
      | error e =>
          have hwrite : (Saving.write draft existing).step d now w.locked =
              some (w.locked, .unlock (.error (.store e))) := by
            simp only [step, RuleStore.save, Shared.locked, hsave]
          rw [advance_of_step hwrite]
          exact ends_unlock hw (n + 1) _
      | ok saved =>
          obtain ⟨store, id⟩ := saved
          let written : Shared MemoryStore π := { w with store }
          let settled : Shared MemoryStore π := { w with store, cache := w.cache.invalidate id }
          have hwrite : (Saving.write draft existing).step d now w.locked =
              some (written.locked, .invalidate id) := by
            simp only [step, RuleStore.save, Shared.locked, hsave]
            rfl
          have hinvalidate : (Saving.invalidate id).step d now written.locked =
              some (settled.locked, .unlock (.ok id)) := rfl
          have hidle : settled.mutating = false := hw.idle
          rw [advance_of_step hwrite, advance_of_step hinvalidate, advance_unlock hidle]
          refine ⟨settled, rfl, rfl, ?_⟩
          obtain ⟨stored, hrules, -, -, hsource, -⟩ := MemoryStore.save_cases hsave
          have hname : w.store.existsByName (draft.stamp existing now).name
            (draft.stamp existing now).id = false := hfree
          refine hw.mutate (hw.keyed.save hsave) (hw.namesDistinct.save hw.keyed hname hsave) ?_
            fun other hne => MemoryStore.findById_save_of_ne hsave hne
          intro entry hentry
          rw [hrules] at hentry
          rcases MemoryStore.mem_place hentry with rfl | hold
          · show Text.isBlankText stored.source = false
            rw [hsource]
            exact hnot
          · exact hw.not_blank entry hold

/-- Once it has the lock, a save finds the rule that it replaces. -/
theorem ends_lock (hw : w.Coherent d) {draft : Definition}
    (hnot : Text.isBlankText draft.source = false) (n : Nat) :
    Ends d w (do Uncached.write w.store draft (← Uncached.replaced w.store draft) now)
      (advance d now (n + 6) w (.lock draft)) := by
  cases hid : draft.id with
  | none =>
      have hreplaced : Uncached.replaced w.store draft = .ok none := by
        simp only [Uncached.replaced, hid]
      have hlock : (Saving.lock draft).step d now w = some (w.locked, .checkName draft none) := by
        simp only [step, hw.idle, hid]
        rfl
      rw [advance_of_step hlock, hreplaced]
      exact ends_checkName hw none hnot (n + 1)
  | some id =>
      have hlock : (Saving.lock draft).step d now w = some (w.locked, .find draft id) := by
        simp only [step, hw.idle, hid]
        rfl
      rw [advance_of_step hlock]
      cases hfound : w.store.findById id with
      | none =>
          have hreplaced : Uncached.replaced w.store draft = .error (.notFound (.id id)) := by
            simp only [Uncached.replaced, hid, hfound]
          have hfind : (Saving.find draft id).step d now w.locked =
              some (w.locked, .unlock (.error (.notFound (.id id)))) := by
            simp only [step, RuleStore.findById, Shared.locked, hfound]
          rw [advance_of_step hfind, hreplaced]
          exact ends_unlock hw (n + 3) _
      | some existing =>
          have hreplaced : Uncached.replaced w.store draft = .ok (some existing) := by
            simp only [Uncached.replaced, hid, hfound]
          have hfind : (Saving.find draft id).step d now w.locked =
              some (w.locked, .checkName draft (some existing)) := by
            simp only [step, RuleStore.findById, Shared.locked, hfound]
          rw [advance_of_step hfind, hreplaced]
          exact ends_checkName hw (some existing) hnot n

/-- A save that needs to compile its text does so before it waits for the lock. -/
theorem ends_verify (hw : w.Coherent d) {draft : Definition}
    (hnot : Text.isBlankText draft.source = false) (n : Nat) :
    Ends d w
      (do
        Uncached.verify d draft.source
        Uncached.write w.store draft (← Uncached.replaced w.store draft) now)
      (advance d now (n + 7) w (if d.config.verifyBeforeSave then .verify draft else .lock draft)) := by
  unfold Uncached.verify
  split
  · cases hcompile : d.engine.compile draft.source with
    | error diagnostics =>
        have hverify : (Saving.verify draft).step d now w =
            some (w, .done (.error (.rejected diagnostics))) := by
          simp only [step, hcompile]
        rw [advance_of_step hverify, advance_done]
        exact ⟨w, rfl, rfl, hw⟩
    | ok program =>
        have hverify : (Saving.verify draft).step d now w = some (w, .lock draft) := by
          simp only [step, hcompile]
        rw [advance_of_step hverify]
        exact ends_lock hw hnot n
  · exact ends_lock hw hnot (n + 1)

/-- What is saved is not blank. -/
theorem not_blank_of_normalize {draft stored : Definition} (h : draft.normalize = .ok stored) :
    Text.isBlankText stored.source = false := by
  unfold Definition.normalize at h
  simp only at h
  split at h
  · simp at h
  · split at h
    · simp at h
    · rename_i hblank
      rw [← Except.ok.inj h]
      exact Bool.eq_false_iff.mpr hblank

/-- A save does what it does without a cache. -/
theorem run_eq (hw : w.Coherent d) (draft : Definition) (now : Timestamp) :
    ∃ w', run d now w draft = (w', some ((Uncached.save d w.store draft now).map Prod.snd)) ∧
      w'.store = Uncached.stored w.store (Uncached.save d w.store draft now) ∧ w'.Coherent d := by
  have hends : Ends d w (Uncached.save d w.store draft now)
      (advance d now maxSteps w (.normalize draft)) := by
    unfold Uncached.save
    cases hnormalize : draft.normalize with
    | error e =>
        have hstep : (Saving.normalize draft).step d now w = some (w, .done (.error e)) := by
          simp only [step, hnormalize]
        rw [maxSteps, advance_of_step hstep, advance_done]
        exact ⟨w, rfl, rfl, hw⟩
    | ok stored =>
        have hstep : (Saving.normalize draft).step d now w =
            some (w, if d.config.verifyBeforeSave then .verify stored else .lock stored) := by
          simp only [step, hnormalize]
        rw [maxSteps, advance_of_step hstep]
        exact ends_verify hw (not_blank_of_normalize hnormalize) 0
  obtain ⟨w', hrun, hstore, hcoherent⟩ := hends
  refine ⟨w', ?_, hstore, hcoherent⟩
  rw [run, hrun]
  rfl

end Saving

namespace Deleting

variable {w' : Shared MemoryStore π} {x x' : Deleting}

theorem advance_of_step (h : x.step w = some (w', x')) (n : Nat) :
    advance (n + 1) w x = advance n w' x' := by
  rw [advance, h]

/-- A deletion does what it does without a cache. -/
theorem run_eq (hw : w.Coherent d) (id : RuleId) :
    ∃ w', run w id = (w', some ((Uncached.delete w.store id).map Prod.snd)) ∧
      w'.store = Uncached.stored w.store (Uncached.delete w.store id) ∧ w'.Coherent d := by
  have hlock : (Deleting.lock id).step w = some (w.locked, .find id) := by
    simp only [step, hw.idle]
    rfl
  unfold Uncached.delete run
  rw [maxSteps, advance_of_step hlock]
  cases hfound : w.store.findById id with
  | none =>
      have hfind : (Deleting.find id).step w.locked =
          some (w.locked, .unlock (.error (.notFound (.id id)))) := by
        simp only [step, RuleStore.findById, Shared.locked, hfound]
      have hunlock : (Deleting.unlock (.error (.notFound (.id id)))).step w.locked =
          some (w, .done (.error (.notFound (.id id)))) := by
        rw [step, Shared.locked, ← hw.idle]
      rw [advance_of_step hfind, advance_of_step hunlock]
      exact ⟨w, rfl, rfl, hw⟩
  | some rule =>
      let removed : Shared MemoryStore π := { w with store := (w.store.delete id).1 }
      let settled : Shared MemoryStore π :=
        { w with store := (w.store.delete id).1, cache := w.cache.invalidate id }
      have hfind : (Deleting.find id).step w.locked = some (w.locked, .remove id rule) := by
        simp only [step, RuleStore.findById, Shared.locked, hfound]
      have hremove : (Deleting.remove id rule).step w.locked =
          some (removed.locked, .invalidate id rule) := by
        have hdelete : w.store.delete id = ((w.store.delete id).1, some rule) :=
          Prod.ext rfl hfound
        simp only [step, RuleStore.delete, Shared.locked]
        rw [hdelete]
        rfl
      have hinvalidate : (Deleting.invalidate id rule).step removed.locked =
          some (settled.locked, .unlock (.ok rule)) := rfl
      have hunlock : (Deleting.unlock (.ok rule)).step settled.locked =
          some (settled, .done (.ok rule)) := by
        rw [step, Shared.locked, ← hw.idle]
      rw [advance_of_step hfind, advance_of_step hremove, advance_of_step hinvalidate,
        advance_of_step hunlock]
      refine ⟨settled, rfl, rfl, hw.mutate (hw.keyed.delete id) (hw.namesDistinct.delete id) ?_ ?_⟩
      · intro entry hentry
        exact hw.not_blank entry (Table.mem_erase.mp hentry).1
      · intro other hne
        rw [MemoryStore.findById_delete, if_neg (Ne.symm hne)]

end Deleting

end Rulebook
