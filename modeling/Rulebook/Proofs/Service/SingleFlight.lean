/-
  Proofs/Service/SingleFlight.lean --- lookups of one rule share one compilation.

  A lookup of a rule builds a program only while there is none, and holds the lock of the
  flight from its look at the cache until the program is there.  So unless the rule is
  invalidated in between, whoever comes after the first finds a program: in a run without
  invalidations of a rule whose text compiles, either no text of the rule was handed to the
  engine so far, or one was and its program is in the cache or about to be put there
  (`Undisturbed.handed`).
-/
import Mathlib.Data.List.Infix
import Rulebook.Proofs.Service.Handles
import Rulebook.Proofs.Service.Monotonicity

set_option autoImplicit false

namespace Rulebook

/-! ## What a run hands to the engine, and what it invalidates -/

/-- The text of a rule that a lookup hands to the engine in its next step, if it does. -/
def Lookup.handedText? {π : Type} (id : RuleId) : Lookup π → Option String
  | .compile other _ rule => if other = id then some rule.source else none
  | _ => none

/-- The text of a rule that an operation hands to the engine for a lookup, if it does. -/
def Operation.handedText? {π : Type} (id : RuleId) : Operation π → Option String
  | .lookup _ phase => phase.handedText? id
  | _ => none

/-- The error that a lookup answers with. -/
def Lookup.error? {π : Type} : Lookup π → Option RuleError
  | .release _ (.error e) | .leave _ (.error e) | .done (.error e) => some e
  | _ => none

/-- Whether the generation of a rule that a lookup has noted is the one given. -/
def Lookup.Notes {π : Type} (id : RuleId) (generation : Nat) : Lookup π → Prop
  | .read other noted | .compile other noted _ | .keep other noted _ =>
    other = id → noted = generation
  | _ => True

/-- A lookup leaves the cached program of a rule alone that it is not building. -/
theorem Lookup.Step.program?_of_not_building {π τ : Type} {d : Deployment π τ}
    {w w' : Shared MemoryStore π} {l l' : Lookup π} (h : Step d w l w' l') {id : RuleId}
    {p : Compiled π} (hl : l.building? ≠ some id) (hp : w.cache.program? id = some p) :
    w'.cache.program? id = some p := by
  cases h with
  | @kept other generation q =>
      have hne : other ≠ id := fun heq => hl (congrArg some heq)
      show Table.get? (w.cache.programs.put other q) id = some p
      rw [Table.get?_put, if_neg hne]
      exact hp
  | _ => exact hp

namespace System

variable {π τ : Type}

/-- The text of a rule that a lookup hands to the engine with an event. -/
def handedText? (id : RuleId) (s : System π) : Event → Option String
  | .step n => s.operations[n]?.bind (·.handedText? id)
  | _ => none

/-- The texts of a rule that lookups hand to the engine in a run from a moment on. -/
def handedTexts (d : Deployment π τ) (store : MemoryStore) (before run : List Event)
    (id : RuleId) : List String :=
  log d (handedText? id) (after d store before) run

/-- Whether lookups of a rule handed one text to the engine in a run, which the rule had at
some moment of it, and a program was compiled from this text. -/
def CompiledOnce (d : Deployment π τ) (store : MemoryStore) (before run : List Event)
    (id : RuleId) (p : Compiled π) : Prop :=
  ∃ text, handedTexts d store before run id = [text] ∧ d.engine.compile text = .ok p.program ∧
    ∃ past, past <+: run ∧
      ((after d store (before ++ past)).shared.store.findById id).map (·.source) = some text

/-- The rule that an event invalidates: for a caller, or as the end of a mutation. -/
def invalidated? (s : System π) : Event → Option RuleId
  | .invalidate id => some id
  | .step n => s.operations[n]?.bind (·.pending?)
  | .call _ => none

/-- Lookups of a rule that begin without a program and without a flight, and are not
disturbed. -/
structure Undisturbed (d : Deployment π τ) (store : MemoryStore) (before run : List Event)
    (id : RuleId) : Prop where
  /-- The run begins without a cached program of the rule ... -/
  uncached : (after d store before).shared.cache.program? id = none
  /-- ... and with nobody in a flight of it. -/
  unjoined : (after d store before).joined id = 0
  /-- The rule is not invalidated in the run. -/
  valid : id ∉ log d invalidated? (after d store before) run
  /-- At every moment of the run the rule has a text, and the engine takes it. -/
  compiles : ∀ past, past <+: run → ∃ program,
    d.answer id ((after d store (before ++ past)).shared.store.findById id) = .ok program

end System

/-! ## One event -/

namespace System

variable {π τ : Type} {d : Deployment π τ} {s : System π} {event : Event} {id : RuleId}
  {p q : Compiled π}

/-- The cache changes by the steps of lookups and by invalidations. -/
theorem Sound.cache_next (h : s.Sound) (d : Deployment π τ) (event : Event) :
    (∃ (n : Nat) (key : RuleKey) (l l' : Lookup π), s.operations[n]? = some (.lookup key l) ∧
      Lookup.Step d s.shared l (s.next d event).shared l') ∨
    (s.next d event).shared.cache = s.shared.cache ∨
    ∃ other, s.invalidated? event = some other ∧
      (s.next d event).shared.cache = s.shared.cache.invalidate other := by
  cases event with
  | call request => exact Or.inr (Or.inl rfl)
  | invalidate other => exact Or.inr (Or.inr ⟨other, rfl, rfl⟩)
  | step n =>
      simp only [next, invalidated?]
      cases hop : s.operations[n]? with
      | none => exact Or.inr (Or.inl rfl)
      | some op =>
          simp only [Option.bind_some]
          cases hstep : op.step d s.shared with
          | none => exact Or.inr (Or.inl rfl)
          | some result =>
              obtain ⟨w, op'⟩ := result
              cases h.effect hop hstep with
              | @looked key l l' _ hlook => exact Or.inl ⟨n, key, l, l', hop, hlook⟩
              | quiet hstore hcache => exact Or.inr (Or.inl hcache)
              | saved | deleted => exact Or.inr (Or.inl rfl)
              | settled hpending => exact Or.inr (Or.inr ⟨_, hpending, rfl⟩)

/-- The generation of a rule is the same until the rule is invalidated. -/
theorem Sound.generation_next (h : s.Sound) (hvalid : s.invalidated? event ≠ some id) :
    (s.next d event).shared.cache.generation id = s.shared.cache.generation id := by
  rcases h.cache_next d event with ⟨n, key, l, l', -, hstep⟩ | hcache | ⟨other, hother, hcache⟩
  · rw [Cache.generation, hstep.frame.2.2.1, Cache.generation]
  · rw [hcache]
  · rw [hcache]
    refine Cache.generation_invalidate_of_ne ?_
    rintro rfl
    exact hvalid hother

/-- A cached program stays until its rule is invalidated. -/
theorem Sound.program?_next (h : s.Sound) (hbuilt : s.Built)
    (hvalid : s.invalidated? event ≠ some id) (hp : s.shared.cache.program? id = some p) :
    (s.next d event).shared.cache.program? id = some p := by
  rcases h.cache_next d event with ⟨n, key, l, l', hop, hstep⟩ | hcache | ⟨other, hother, hcache⟩
  · refine hstep.program?_of_not_building ?_ hp
    intro hbuilding
    rw [hbuilt key l id (List.mem_of_getElem? hop) hbuilding] at hp
    cases hp
  · rw [hcache, hp]
  · have hne : other ≠ id := by
      rintro rfl
      exact hvalid hother
    rw [hcache, Cache.program?, Cache.invalidate, Table.get?_erase, if_neg hne]
    exact hp

/-- Whether a program of a rule is cached, or a lookup is about to put it there. -/
def Carries (s : System π) (id : RuleId) (p : Compiled π) : Prop :=
  s.shared.cache.program? id = some p ∨
    ∃ (n : Nat) (key : RuleKey) (generation : Nat),
      s.operations[n]? = some (.lookup key (.keep id generation p))

/-- There is at most one program of a rule. -/
theorem Carries.unique (hbuilt : s.Built) (hlocks : s.Locks) (hp : s.Carries id p)
    (hq : s.Carries id q) : p = q := by
  rcases hp with hp | ⟨n, key, generation, hn⟩ <;> rcases hq with hq | ⟨m, key', generation', hm⟩
  · exact Option.some.inj (hp.symm.trans hq)
  · rw [hbuilt _ _ id (List.mem_of_getElem? hm) rfl] at hp
    cases hp
  · rw [hbuilt _ _ id (List.mem_of_getElem? hn) rfl] at hq
    cases hq
  · obtain rfl := hlocks.unique hn hm rfl rfl
    obtain ⟨-, hphase⟩ := Operation.lookup.inj (Option.some.inj (hn.symm.trans hm))
    exact (Lookup.keep.inj hphase).2.2

/-- A lookup compiles a text only while there is no program of the rule. -/
theorem not_carries_of_compile (hbuilt : s.Built) (hlocks : s.Locks) {n : Nat} {key : RuleKey}
    {generation : Nat} {rule : Definition}
    (hop : s.operations[n]? = some (.lookup key (.compile id generation rule))) :
    ¬ s.Carries id p := by
  rintro (hp | ⟨m, key', generation', hm⟩)
  · rw [hbuilt _ _ id (List.mem_of_getElem? hop) rfl] at hp
    cases hp
  · obtain rfl := hlocks.unique hop hm rfl rfl
    cases hop.symm.trans hm

/-- A lookup that compiles a text has its program next. -/
theorem carries_of_compile {n : Nat} {key : RuleKey} {generation : Nat} {rule : Definition}
    {program : π} (hop : s.operations[n]? = some (.lookup key (.compile id generation rule)))
    (hcompile : d.engine.compile rule.source = .ok program) :
    (s.next d (.step n)).Carries id ⟨s.shared.compilations, program⟩ := by
  refine Or.inr ⟨n, key, generation, ?_⟩
  obtain ⟨hlt, -⟩ := List.getElem?_eq_some_iff.mp hop
  simp only [next, hop, Operation.step, Lookup.step, hcompile, Option.map_some]
  exact List.getElem?_set_self hlt

/-- A program that is there stays until its rule is invalidated. -/
theorem Carries.next (h : s.Sound) (hbuilt : s.Built) (hvalid : s.invalidated? event ≠ some id)
    (hnotes : ∀ key l, .lookup key l ∈ s.operations → l.Notes id (s.shared.cache.generation id))
    (hp : s.Carries id p) : (s.next d event).Carries id p := by
  rcases hp with hp | ⟨n, key, generation, hop⟩
  · exact Or.inl (h.program?_next hbuilt hvalid hp)
  · obtain ⟨op', hop', rfl | hstep⟩ := (move_next d s event).getElem? hop
    · exact Or.inr ⟨n, key, generation, hop'⟩
    · obtain ⟨⟨w, l'⟩, hl, heq⟩ := Option.map_eq_some_iff.mp hstep
      obtain ⟨hshared, -⟩ := Prod.mk.inj heq
      have hnoted : generation = s.shared.cache.generation id :=
        hnotes key _ (List.mem_of_getElem? hop) rfl
      left
      rw [← hshared]
      cases Lookup.of_step hl with
      | kept => simp [Cache.program?, Table.get?_put]
      | outdated hne => exact absurd hnoted.symm hne

/-- A program that is there after an event was there before, or the event compiled it. -/
theorem Carries.of_next (h : s.Sound) (hp : (s.next d event).Carries id p) :
    s.Carries id p ∨ ∃ text, s.handedText? id event = some text ∧
      d.engine.compile text = .ok p.program := by
  rcases hp with hp | ⟨n, key, generation, hop'⟩
  · left
    rcases h.cache_next d event with ⟨n, key, l, l', hop, hstep⟩ | hcache | ⟨other, -, hcache⟩
    · rcases hstep.program? hp with hold | ⟨generation, rfl⟩
      · exact Or.inl hold
      · exact Or.inr ⟨n, key, generation, hop⟩
    · exact Or.inl (hcache ▸ hp)
    · rw [hcache, Cache.program?, Cache.invalidate, Table.get?_erase] at hp
      split at hp
      · cases hp
      · exact Or.inl hp
  · rcases (move_next d s event).of_lookup hop' with hold | hnew | ⟨l, hop, hlook⟩
    · exact Or.inl (Or.inr ⟨n, key, generation, hold⟩)
    · cases key <;> cases hnew
    · generalize (s.next d event).shared = w at hlook
      cases hlook with
      | @compiled _ _ rule program hcompile =>
          obtain rfl := eq_step_of_looked hop (by simp) hop'
          refine Or.inr ⟨rule.source, ?_, hcompile⟩
          simp [handedText?, hop, Operation.handedText?, Lookup.handedText?]

/-! ## Runs -/

variable {store : MemoryStore} {before run : List Event}

theorem invalidated_append_singleton :
    log d invalidated? (after d store before) (run ++ [event]) =
      log d invalidated? (after d store before) run ++
        (invalidated? (after d store (before ++ run)) event).toList := by
  rw [log_append_singleton, after_append]

theorem handedTexts_append_singleton :
    handedTexts d store before (run ++ [event]) id =
      handedTexts d store before run id ++
        (handedText? id (after d store (before ++ run)) event).toList := by
  rw [handedTexts, log_append_singleton, handedTexts, after_append]

theorem of_handedText? {text : String} (h : s.handedText? id event = some text) :
    ∃ (n : Nat) (key : RuleKey) (generation : Nat) (rule : Definition), event = .step n ∧
      s.operations[n]? = some (.lookup key (.compile id generation rule)) ∧
      rule.source = text := by
  cases event with
  | call _ | invalidate _ => cases h
  | step n =>
      obtain ⟨op, hop, htext⟩ := Option.bind_eq_some_iff.mp h
      cases op with
      | lookup key l =>
          cases l with
          | compile other generation rule =>
              simp only [Operation.handedText?, Lookup.handedText?] at htext
              split at htext
              · rename_i hid
                exact ⟨n, key, generation, rule, rfl, hid ▸ hop, Option.some.inj htext⟩
              · cases htext
          | _ => cases htext
      | save _ _ _ | delete _ _ => cases htext

namespace Undisturbed

theorem init (h : Undisturbed d store before (run ++ [event]) id) :
    Undisturbed d store before run id where
  uncached := h.uncached
  unjoined := h.unjoined
  valid hmem := h.valid (by
    rw [invalidated_append_singleton]
    exact List.mem_append_left _ hmem)
  compiles past hpast := h.compiles past (hpast.trans (List.prefix_append _ _))

theorem last (h : Undisturbed d store before (run ++ [event]) id) :
    invalidated? (after d store (before ++ run)) event ≠ some id := by
  intro hevent
  refine h.valid ?_
  rw [invalidated_append_singleton, hevent]
  exact List.mem_append_right _ List.mem_cons_self

/-- At the beginning no lookup is building a program of the rule. -/
theorem not_building (h : Undisturbed d store before run id) {key : RuleKey} {l : Lookup π}
    (hmem : .lookup key l ∈ (after d store before).operations) : l.building? ≠ some id := by
  intro hbuilding
  have hjoined : (Operation.lookup key l).joined? = some id :=
    Operation.joined?_of_holds? (Lookup.holds?_of_building? hbuilding)
  have hnone := List.countP_eq_zero.mp h.unjoined _ hmem
  simp [hjoined] at hnone

/-- What a lookup of the rule has noted is not outdated. -/
theorem notes (hkeyed : store.Keyed) (h : Undisturbed d store before run id) {key : RuleKey}
    {l : Lookup π} (hmem : .lookup key l ∈ (after d store (before ++ run)).operations) :
    l.Notes id ((after d store (before ++ run)).shared.cache.generation id) := by
  induction run using List.reverseRecOn generalizing key l with
  | nil =>
      rw [List.append_nil] at hmem
      have hnot := h.not_building hmem
      cases l with
      | read _ _ | compile _ _ _ | keep _ _ _ => exact fun hid => absurd (congrArg some hid) hnot
      | _ => trivial
  | append_singleton recent event ih =>
      have hsound := sound_after (d := d) hkeyed (before ++ recent)
      rw [← List.append_assoc, after_append_singleton] at hmem ⊢
      rw [hsound.generation_next h.last]
      cases hsound.turn (move_next d _ event) with
      | @looked n key' l₁ l₂ hop hstep hoperations =>
          rw [hoperations] at hmem
          rcases List.mem_or_eq_of_mem_set hmem with hold | heq
          · exact ih h.init hold
          · obtain ⟨rfl, rfl⟩ := Operation.lookup.inj heq
            have hbefore := ih h.init (List.mem_of_getElem? hop)
            generalize (next d (after d store (before ++ recent)) event).shared = w at hstep
            cases hstep with
            | missedStill => rintro rfl; rfl
            | found | compiled => exact hbefore
            | _ => trivial
      | kept hcache hsettled hlookups =>
          rcases hlookups key l hmem with hold | rfl
          · exact ih h.init hold
          · cases key <;> trivial
      | invalidated other hcache hsettled hlookups => exact ih h.init (hlookups key l hmem)

/-- What is cached of the rule, or on its way there, was read in the run. -/
theorem since (hkeyed : store.Keyed) (h : Undisturbed d store before run id) :
    Since d store before (before ++ run) id := by
  have hbegin : Since d store before before id := by
    constructor
    · intro p hp
      rw [h.uncached] at hp
      cases hp
    · intro key l hmem
      exact carriesSince_of_not_building (h.not_building hmem)
  exact hbegin.later hkeyed (List.prefix_refl _) (List.prefix_append _ _)

/-- The engine takes a text that a lookup of the rule compiles, and the rule had it at some
moment of the run. -/
theorem compile (hkeyed : store.Keyed) (h : Undisturbed d store before run id) {key : RuleKey}
    {generation : Nat} {rule : Definition}
    (hmem : .lookup key (.compile id generation rule) ∈
      (after d store (before ++ run)).operations) :
    (∃ program, d.engine.compile rule.source = .ok program) ∧
      ∃ past, past <+: run ∧
        (after d store (before ++ past)).shared.store.findById id = some rule := by
  obtain ⟨moment, ⟨past, rfl⟩, hpast, hrule⟩ := (h.since hkeyed).lookups _ _ hmem rfl
  have hpast : past <+: run := (List.prefix_append_right_inj before).mp hpast
  refine ⟨?_, past, hpast, hrule⟩
  obtain ⟨program, hanswer⟩ := h.compiles past hpast
  obtain ⟨found, hfound, hcompile⟩ := Deployment.of_answer_ok hanswer
  obtain rfl : rule = found := Option.some.inj (hrule.symm.trans hfound)
  exact ⟨program, hcompile⟩

/-- Either nothing was handed to the engine and there is no program, or one text was and
there is its program. -/
theorem handed (hkeyed : store.Keyed) (h : Undisturbed d store before run id) :
    (handedTexts d store before run id = [] ∧
      ∀ p, ¬ (after d store (before ++ run)).Carries id p) ∨
    ∃ p, (after d store (before ++ run)).Carries id p ∧ CompiledOnce d store before run id p := by
  induction run using List.reverseRecOn with
  | nil =>
      refine Or.inl ⟨rfl, ?_⟩
      rw [List.append_nil]
      rintro p (hp | ⟨n, key, generation, hop⟩)
      · rw [h.uncached] at hp
        cases hp
      · exact h.not_building (List.mem_of_getElem? hop) rfl
  | append_singleton recent event ih =>
      have hsound := sound_after (d := d) hkeyed (before ++ recent)
      have hbuilt := built_after (d := d) hkeyed (before ++ recent)
      unfold CompiledOnce
      rw [← List.append_assoc, after_append_singleton, handedTexts_append_singleton]
      cases hnote : handedText? id (after d store (before ++ recent)) event with
      | none =>
          rw [Option.toList_none, List.append_nil]
          rcases ih h.init with ⟨hnothing, hnone⟩ | ⟨p, hp, text, htext, hcompile, past, hpast, hrule⟩
          · refine Or.inl ⟨hnothing, ?_⟩
            intro p hp
            rcases hp.of_next hsound with hbefore | ⟨text, htext, -⟩
            · exact hnone p hbefore
            · cases hnote.symm.trans htext
          · refine Or.inr ⟨p, hp.next hsound hbuilt h.last fun key l => h.init.notes hkeyed, ?_⟩
            exact ⟨text, htext, hcompile, past, hpast.trans (List.prefix_append _ _), hrule⟩
      | some text =>
          obtain ⟨n, key, generation, rule, rfl, hop, rfl⟩ := of_handedText? hnote
          have hlocks := locks_after (d := d) hkeyed (before ++ recent)
          obtain ⟨⟨program, hcompile⟩, past, hpast, hrule⟩ :=
            h.init.compile hkeyed (List.mem_of_getElem? hop)
          rcases ih h.init with ⟨hnothing, -⟩ | ⟨p, hp, -⟩
          · refine Or.inr ⟨_, carries_of_compile hop hcompile, rule.source, ?_, hcompile,
              past, hpast.trans (List.prefix_append _ _), by rw [hrule, Option.map_some]⟩
            rw [hnothing, List.nil_append, Option.toList_some]
          · exact absurd hp (not_carries_of_compile hbuilt hlocks hop)

/-- A program that is cached in the run stays. -/
theorem program?_later (hkeyed : store.Keyed) (h : Undisturbed d store before run id)
    {past : List Event} (hpast : past <+: run)
    (hp : (after d store (before ++ past)).shared.cache.program? id = some p) :
    (after d store (before ++ run)).shared.cache.program? id = some p := by
  induction run using List.reverseRecOn with
  | nil => rwa [List.prefix_nil.mp hpast] at hp
  | append_singleton recent event ih =>
      rcases List.prefix_concat_iff.mp hpast with rfl | hrecent
      · exact hp
      · rw [← List.append_assoc, after_append_singleton]
        exact (sound_after hkeyed _).program?_next (built_after hkeyed _) h.last
          (ih h.init hrecent)

/-- A lookup of the rule does not come to fail in the run. -/
theorem error?_step (hkeyed : store.Keyed) (h : Undisturbed d store before run id) {key : RuleKey}
    {l l' : Lookup π} {w : Shared MemoryStore π}
    (hmem : .lookup key l ∈ (after d store (before ++ run)).operations) (hof : l.IsOf id)
    (hstep : Lookup.Step d (after d store (before ++ run)).shared l w l')
    (hl : l.error? = none) : l'.error? = none := by
  cases hstep with
  | @absent other generation hnone =>
      obtain rfl : other = id := hof
      obtain ⟨program, hanswer⟩ := h.compiles run (List.prefix_refl _)
      rw [Deployment.answer_of_none hnone] at hanswer
      cases hanswer
  | @refused other generation rule diagnostics hcompile =>
      obtain rfl : other = id := hof
      obtain ⟨⟨program, hprogram⟩, -⟩ := h.compile hkeyed hmem
      cases hcompile.symm.trans hprogram
  | unnamed => exact hof.elim
  | @released _ answer _ _ | @left _ answer _ _ => cases answer <;> first | rfl | cases hl
  | _ => rfl

/-- No lookup of the rule that begins in the run fails. -/
theorem error?_eq_none (hkeyed : store.Keyed) (h : Undisturbed d store before run id) {n : Nat}
    (hn : (after d store before).operations.length ≤ n) {l : Lookup π}
    (hop : (after d store (before ++ run)).operations[n]? = some (.lookup (.id id) l)) :
    l.error? = none := by
  induction run using List.reverseRecOn generalizing l with
  | nil =>
      rw [List.append_nil] at hop
      obtain ⟨hlt, -⟩ := List.getElem?_eq_some_iff.mp hop
      omega
  | append_singleton recent event ih =>
      have hsound := sound_after (d := d) hkeyed (before ++ recent)
      rw [← List.append_assoc, after_append_singleton] at hop
      rcases (move_next d _ event).of_lookup hop with hold | rfl | ⟨before, hold, hstep⟩
      · exact ih h.init hold
      · rfl
      · have hmem := List.mem_of_getElem? hold
        exact h.init.error?_step hkeyed hmem (hsound.faithful _ hmem) hstep (ih h.init hold)

/-- A lookup of the rule that begins in the run answers with the one program. -/
theorem answered (hkeyed : store.Keyed) (h : Undisturbed d store before run id) {n : Nat}
    (hn : (after d store before).operations.length ≤ n) {answer : Except RuleError (Compiled π)}
    (hop : (after d store (before ++ run)).operations[n]? =
      some (.lookup (.id id) (.done answer))) :
    ∃ p, answer = .ok p ∧ (after d store (before ++ run)).shared.cache.program? id = some p ∧
      CompiledOnce d store before run id p := by
  have herror := h.error?_eq_none hkeyed hn hop
  cases answer with
  | error e => cases herror
  | ok p =>
      obtain ⟨moment, ⟨past, rfl⟩, hpast, hp⟩ :=
        cached_of_answer hkeyed (List.prefix_append _ _) hn hop rfl
      have hcached := h.program?_later hkeyed ((List.prefix_append_right_inj before).mp hpast) hp
      refine ⟨p, rfl, hcached, ?_⟩
      rcases h.handed hkeyed with ⟨-, hnone⟩ | ⟨q, hq, honce⟩
      · exact absurd (Or.inl hcached) (hnone p)
      · obtain rfl := hq.unique (built_after hkeyed _) (locks_after hkeyed _) (Or.inl hcached)
        exact honce

/-- Steps of lookups do not disturb. -/
theorem step (h : Undisturbed d store before run id) {n : Nat} {key : RuleKey} {l : Lookup π}
    (hop : (after d store (before ++ run)).operations[n]? = some (.lookup key l)) :
    Undisturbed d store before (run ++ [.step n]) id where
  uncached := h.uncached
  unjoined := h.unjoined
  valid := by
    have hnone : invalidated? (after d store (before ++ run)) (.step n) = none := by
      rw [invalidated?, hop]
      rfl
    rw [invalidated_append_singleton, hnone, Option.toList_none, List.append_nil]
    exact h.valid
  compiles past hpast := by
    rcases List.prefix_concat_iff.mp hpast with rfl | hrecent
    · have hstore : ((after d store (before ++ run)).next d (.step n)).shared.store =
          (after d store (before ++ run)).shared.store := by
        simp only [next, hop]
        split
        · rfl
        · rename_i hstep
          obtain ⟨next, hnext, heq⟩ := Option.map_eq_some_iff.mp hstep
          obtain ⟨rfl, -⟩ := Prod.mk.inj heq
          exact (Lookup.of_step hnext).frame.1
      rw [← List.append_assoc, after_append_singleton, hstore]
      exact h.compiles run (List.prefix_refl _)
    · exact h.compiles past hrecent

theorem steps (h : Undisturbed d store before run id) {turns : List Nat}
    (hturns : ∀ m ∈ turns, ∃ key l,
      (after d store (before ++ run)).operations[m]? = some (.lookup key l)) :
    Undisturbed d store before (run ++ turns.map .step) id := by
  induction turns using List.reverseRecOn with
  | nil => rwa [List.map_nil, List.append_nil]
  | append_singleton turns m ih =>
      rw [List.map_append, List.map_singleton, ← List.append_assoc]
      obtain ⟨key, l, hm⟩ := hturns m (by simp)
      have hpast : before ++ run <+: before ++ (run ++ turns.map .step) := by
        rw [← List.append_assoc]
        exact List.prefix_append _ _
      obtain ⟨l', hm'⟩ := lookup_later hpast hm
      exact (ih fun k hk => hturns k (by simp [hk])).step hm'

end Undisturbed

/-- **Single flight.**  Any number of lookups of one rule are called for in a run, which begins
without a program of the rule and without a flight, and in which the rule is not invalidated and
has a text that compiles.  At every moment of the run at most one text of the rule was handed
to the engine, and every lookup that is done has answered with the program that is cached,
the one that was compiled from this text.  All that hold the lock of the flight or wait for it
have handles of the same lock, and the map of flights has none when nobody takes part.  And
from every moment the lookups can be brought to their ends by steps of lookups, where all
have answered with the one program and the map has no lock. -/
theorem single_flight (d : Deployment π τ) (hkeyed : store.Keyed)
    (h : Undisturbed d store before run id) :
    (handedTexts d store before run id).length ≤ 1 ∧
    (∀ (n : Nat) (answer : Except RuleError (Compiled π)),
      (after d store before).operations.length ≤ n →
      (after d store (before ++ run)).operations[n]? =
        some (.lookup (.id id) (.done answer)) →
      ∃ p, answer = .ok p ∧ (after d store (before ++ run)).shared.cache.program? id = some p ∧
        CompiledOnce d store before run id p) ∧
    (Handled.after d store (before ++ run)).system = after d store (before ++ run) ∧
    (Handled.after d store (before ++ run)).OneLock id ∧
    ∃ turns : List Nat,
      (Handled.after d store (before ++ (run ++ turns.map .step))).handles.locks.get? id = none ∧
      ∀ (n : Nat) (l : Lookup π), (after d store before).operations.length ≤ n →
        (after d store (before ++ run)).operations[n]? = some (.lookup (.id id) l) →
        ∃ p, (after d store (before ++ (run ++ turns.map .step))).operations[n]? =
            some (.lookup (.id id) (.done (.ok p))) ∧
          (after d store (before ++ (run ++ turns.map .step))).shared.cache.program? id = some p ∧
          CompiledOnce d store before (run ++ turns.map .step) id p := by
  refine ⟨?_, fun n answer hn hop => h.answered hkeyed hn hop, (Handled.system_after hkeyed _).1,
    Handled.oneLock_after d hkeyed _ id, ?_⟩
  · rcases h.handed hkeyed with ⟨hnothing, -⟩ | ⟨p, -, text, htext, -⟩
    · rw [hnothing]
      exact Nat.zero_le 1
    · rw [htext, List.length_singleton]
  · obtain ⟨turns, hturns, hends⟩ := exists_turns d hkeyed (before ++ run)
    have hrest := h.steps hturns
    rw [List.append_assoc] at hends
    refine ⟨turns, ?_, ?_⟩
    · refine (Handled.oneLock_after d hkeyed _ id).landed ?_
      rw [(Handled.system_after hkeyed _).1]
      intro op hop hjoined
      cases op with
      | lookup key l =>
          obtain ⟨answer, rfl⟩ := hends key l hop
          cases hjoined
      | save _ _ _ | delete _ _ => cases hjoined
    · intro n l hn hop
      have hpast : before ++ run <+: before ++ (run ++ turns.map .step) := by
        rw [← List.append_assoc]
        exact List.prefix_append _ _
      obtain ⟨l', hop'⟩ := lookup_later hpast hop
      obtain ⟨answer, rfl⟩ := hends _ _ (List.mem_of_getElem? hop')
      obtain ⟨p, rfl, hp, honce⟩ := hrest.answered hkeyed hn hop'
      exact ⟨p, hop', hp, honce⟩

/-- A rule is saved. -/
def savedOnce : List Event :=
  .call (.save (.new "door" "open") ⟨0, 0⟩) :: List.replicate 6 (.step 0)

/-- Three lookups miss.  The second waits for the lock when the first leaves, and the third
comes to the flight only then. -/
def joinedLate : List Event :=
  List.flatten
    [List.replicate 3 (.call (.lookup (.id ⟨1⟩))), [.step 1, .step 2, .step 3, .step 1, .step 2],
      List.replicate 7 (.step 1), [.step 3], List.replicate 4 (.step 2),
      List.replicate 4 (.step 3)]

theorem single_flight_joinedLate :
    Undisturbed .unread .empty savedOnce joinedLate ⟨1⟩ ∧
      handedTexts .unread .empty savedOnce joinedLate ⟨1⟩ = ["open"] ∧
      (after .unread .empty (savedOnce ++ joinedLate)).operations.drop 1 =
        List.replicate 3 (.lookup (.id ⟨1⟩) (.done (.ok ⟨0, "open"⟩))) := by
  have hstore : ∀ past ∈ joinedLate.inits, Deployment.unread.answer ⟨1⟩
      ((after .unread .empty (savedOnce ++ past)).shared.store.findById ⟨1⟩) = .ok "open" := by
    decide +kernel
  have h : Undisturbed .unread .empty savedOnce joinedLate ⟨1⟩ :=
    { uncached := rfl
      unjoined := rfl
      valid := by decide +kernel
      compiles := fun past hpast => ⟨"open", hstore past ((List.mem_inits _ _).mpr hpast)⟩ }
  have hbegin : (after .unread .empty savedOnce).operations.length ≤ 1 := by decide +kernel
  have hdone : (after .unread .empty (savedOnce ++ joinedLate)).operations[1]? =
      some (.lookup (.id ⟨1⟩) (.done (.ok ⟨0, "open"⟩))) := by rfl
  have hall : (after .unread .empty (savedOnce ++ joinedLate)).operations.drop 1 =
      List.replicate 3 (.lookup (.id ⟨1⟩) (.done (.ok ⟨0, "open"⟩))) := by rfl
  obtain ⟨-, hanswers, -⟩ := single_flight .unread MemoryStore.keyed_empty h
  obtain ⟨p, hp, -, text, honce, hcompile, -⟩ := hanswers 1 _ hbegin hdone
  obtain rfl := Except.ok.inj hp
  obtain rfl : text = "open" := Except.ok.inj hcompile
  exact ⟨h, honce, hall⟩

end System

end Rulebook
