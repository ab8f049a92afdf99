/-
  Proofs/Service/Log.lean --- what a run has saved and compiled.

  Two lists are kept of a run: the texts that a rule has had (`texts`) and the texts that
  lookups have compiled (`compiledTexts`).  Both only grow.  The last text of the first is
  the one that the store has, and the serial number of a compiled program is its place in
  the second.
-/
import Rulebook.Proofs.Service.History

set_option autoImplicit false

namespace Rulebook

/-! ## Compilations -/

/-- The text that a lookup compiles in its next step, if the engine takes it. -/
def Lookup.compiledText? {π τ : Type} (d : Deployment π τ) : Lookup π → Option String
  | .compile _ _ rule =>
    match d.engine.compile rule.source with
    | .ok _ => some rule.source
    | .error _ => none
  | _ => none

/-- The text that an operation compiles into the cache in its next step, if any. -/
def Operation.compiledText? {π τ : Type} (d : Deployment π τ) : Operation π → Option String
  | .lookup _ phase => phase.compiledText? d
  | _ => none

section

variable {π τ : Type} {d : Deployment π τ} {now : Timestamp} {w w' : Shared MemoryStore π}

/-- Lookups count what they compile. -/
theorem Lookup.Step.compilations {l l' : Lookup π} (h : Step d w l w' l') :
    w'.compilations = w.compilations + (l.compiledText? d).toList.length := by
  cases h with
  | compiled hcompile | refused hcompile => simp [Lookup.compiledText?, hcompile]
  | _ => rfl

theorem Saving.compilations_of_step {s s' : Saving} (h : s.step d now w = some (w', s')) :
    w'.compilations = w.compilations := by
  cases s with
  | normalize _ | verify _ | find _ _ | checkName _ _ | write _ _ =>
      simp only [step] at h
      split at h <;> obtain ⟨rfl, -⟩ := Prod.mk.inj (Option.some.inj h) <;> rfl
  | lock _ =>
      simp only [step] at h
      split at h
      · cases h
      · obtain ⟨rfl, -⟩ := Prod.mk.inj (Option.some.inj h)
        rfl
  | invalidate _ | unlock _ =>
      obtain ⟨rfl, -⟩ := Prod.mk.inj (Option.some.inj h)
      rfl
  | done _ => cases h

theorem Deleting.compilations_of_step {x x' : Deleting} (h : x.step w = some (w', x')) :
    w'.compilations = w.compilations := by
  cases x with
  | lock _ =>
      simp only [step] at h
      split at h
      · cases h
      · obtain ⟨rfl, -⟩ := Prod.mk.inj (Option.some.inj h)
        rfl
  | find _ | remove _ _ =>
      simp only [step] at h
      split at h <;> obtain ⟨rfl, -⟩ := Prod.mk.inj (Option.some.inj h) <;> rfl
  | invalidate _ _ | unlock _ =>
      obtain ⟨rfl, -⟩ := Prod.mk.inj (Option.some.inj h)
      rfl
  | done _ => cases h

/-- An operation that compiles a text is not held up. -/
theorem Operation.compiledText?_of_step_none {op : Operation π} (h : op.step d w = none) :
    op.compiledText? d = none := by
  cases op with
  | lookup key l =>
      cases l with
      | compile id generation rule =>
          simp only [step, Lookup.step, Option.map_eq_none_iff] at h
          split at h <;> cases h
      | _ => rfl
  | _ => rfl

theorem Operation.compilations_of_step {op op' : Operation π} (h : op.step d w = some (w', op')) :
    w'.compilations = w.compilations + (op.compiledText? d).toList.length := by
  cases op with
  | lookup key l =>
      obtain ⟨next, hnext, heq⟩ := Option.map_eq_some_iff.mp h
      obtain ⟨rfl, -⟩ := Prod.mk.inj heq
      exact (Lookup.of_step hnext).compilations
  | save draft now s =>
      obtain ⟨next, hnext, heq⟩ := Option.map_eq_some_iff.mp h
      obtain ⟨rfl, -⟩ := Prod.mk.inj heq
      exact Saving.compilations_of_step hnext
  | delete id x =>
      obtain ⟨next, hnext, heq⟩ := Option.map_eq_some_iff.mp h
      obtain ⟨rfl, -⟩ := Prod.mk.inj heq
      exact Deleting.compilations_of_step hnext

end

namespace System

variable {π τ : Type} {d : Deployment π τ} {store : MemoryStore} {past events : List Event}
  {event : Event} {id : RuleId}

/-! ## Logs -/

/-- What is noted of the events from a moment on, one after the other. -/
def log {α : Type} (d : Deployment π τ) (note : System π → Event → Option α) (s : System π) :
    List Event → List α
  | [] => []
  | event :: rest => (note s event).toList ++ log d note (s.next d event) rest

theorem log_append_singleton {α : Type} (note : System π → Event → Option α) (s : System π)
    (events : List Event) (event : Event) :
    log d note s (events ++ [event]) =
      log d note s events ++ (note (events.foldl (next d) s) event).toList := by
  induction events generalizing s with
  | nil => simp [log]
  | cons first rest ih => simp [log, ih]

/-- The text that a lookup compiles with an event, if any. -/
def compiledText? (d : Deployment π τ) (s : System π) : Event → Option String
  | .step n => s.operations[n]?.bind (·.compiledText? d)
  | _ => none

/-- The texts that lookups have compiled in a run, in order. -/
def compiledTexts (d : Deployment π τ) (store : MemoryStore) (events : List Event) : List String :=
  log d (compiledText? d) ⟨.start store, []⟩ events

/-- How many operations have written a rule. -/
def writers (s : System π) (id : RuleId) : Nat := s.operations.countP (·.written? = some id)

/-- The text that an event saves under an identifier, if it does: what the store has there
if the event is the write of an operation. -/
def savedText? (d : Deployment π τ) (id : RuleId) (s : System π) (event : Event) :
    Option String :=
  if s.writers id < (s.next d event).writers id then
    ((s.next d event).shared.store.findById id).map (·.source)
  else none

/-- The texts that a rule has had in a run, in order: the one that it had before, and all
that were saved. -/
def texts (d : Deployment π τ) (store : MemoryStore) (id : RuleId) (events : List Event) :
    List String :=
  ((store.findById id).map (·.source)).toList ++
    log d (savedText? d id) ⟨.start store, []⟩ events

/-! ## Compiled texts -/

theorem compiledTexts_append_singleton :
    compiledTexts d store (events ++ [event]) =
      compiledTexts d store events ++ (compiledText? d (after d store events) event).toList :=
  log_append_singleton _ _ _ _

theorem compilations_next (s : System π) (event : Event) :
    (s.next d event).shared.compilations =
      s.shared.compilations + (compiledText? d s event).toList.length := by
  cases event with
  | call _ | invalidate _ => rfl
  | step n =>
      simp only [next, compiledText?]
      cases hop : s.operations[n]? with
      | none => rfl
      | some op =>
          simp only [Option.bind_some]
          cases hstep : op.step d s.shared with
          | none => simp [Operation.compiledText?_of_step_none hstep]
          | some result => exact Operation.compilations_of_step hstep

/-- The next compiled program gets the place behind all compiled texts as its number. -/
theorem length_compiledTexts (events : List Event) :
    (compiledTexts d store events).length = (after d store events).shared.compilations := by
  induction events using List.reverseRecOn with
  | nil => rfl
  | append_singleton past event ih =>
      rw [compiledTexts_append_singleton, List.length_append, ih, after_append_singleton,
        compilations_next]

theorem compiledTexts_later (hpast : past <+: events) {serial : Nat} {text : String}
    (h : (compiledTexts d store past)[serial]? = some text) :
    (compiledTexts d store events)[serial]? = some text := by
  induction events using List.reverseRecOn with
  | nil => rwa [List.prefix_nil.mp hpast] at h
  | append_singleton recent event ih =>
      rcases List.prefix_concat_iff.mp hpast with rfl | hrecent
      · exact h
      · rw [compiledTexts_append_singleton]
        obtain ⟨hlt, -⟩ := List.getElem?_eq_some_iff.mp (ih hrecent)
        rw [List.getElem?_append_left hlt]
        exact ih hrecent

/-- An event that changes the phase of a lookup is its step. -/
theorem eq_step_of_looked {s : System π} {n : Nat} {key : RuleKey} {l l' : Lookup π}
    (hop : s.operations[n]? = some (.lookup key l)) (hne : l' ≠ l)
    (hop' : (s.next d event).operations[n]? = some (.lookup key l')) : event = .step n := by
  have hchanged : (s.next d event).operations[n]? ≠ s.operations[n]? := by
    rw [hop, hop']
    intro hsame
    exact hne (Operation.lookup.inj (Option.some.inj hsame)).2
  cases event with
  | invalidate _ => exact absurd rfl hchanged
  | call request =>
      obtain ⟨hlt, -⟩ := List.getElem?_eq_some_iff.mp hop
      exact absurd (List.getElem?_append_left hlt) hchanged
  | step m =>
      by_cases hm : m = n
      · rw [hm]
      · refine absurd ?_ hchanged
        unfold next
        simp only
        split
        · rfl
        · split
          · rfl
          · exact List.getElem?_set_ne hm

/-- The text that a lookup has compiled stands at the place that its program has as its
number. -/
theorem compiledTexts_of_compiled {n : Nat} {key : RuleKey} {generation : Nat}
    {rule : Definition} {program : π}
    (hop : (after d store events).operations[n]? = some (.lookup key (.compile id generation rule)))
    (hcompile : d.engine.compile rule.source = .ok program)
    (hop' : (after d store (events ++ [event])).operations[n]? = some (.lookup key
      (.keep id generation ⟨(after d store events).shared.compilations, program⟩))) :
    (compiledTexts d store (events ++ [event]))[(after d store events).shared.compilations]? =
      some rule.source := by
  rw [after_append_singleton] at hop'
  obtain rfl := eq_step_of_looked hop (by simp) hop'
  have hnote : compiledText? d (after d store events) (.step n) = some rule.source := by
    simp [compiledText?, hop, Operation.compiledText?, Lookup.compiledText?, hcompile]
  rw [compiledTexts_append_singleton, hnote, ← length_compiledTexts]
  exact List.getElem?_concat_length

/-! ## Saved texts -/

theorem texts_append_singleton :
    texts d store id (events ++ [event]) =
      texts d store id events ++ (savedText? d id (after d store events) event).toList := by
  rw [texts, log_append_singleton, ← List.append_assoc]
  rfl

theorem texts_later (hpast : past <+: events) :
    texts d store id past <+: texts d store id events := by
  induction events using List.reverseRecOn with
  | nil =>
      obtain rfl := List.prefix_nil.mp hpast
      exact List.prefix_refl _
  | append_singleton recent event ih =>
      rcases List.prefix_concat_iff.mp hpast with rfl | hrecent
      · exact List.prefix_refl _
      · rw [texts_append_singleton]
        exact (ih hrecent).trans (List.prefix_append _ _)

/-- A rule that no further operation has written is the same. -/
theorem Sound.findById_of_writers {s s' : System π} (h : s.Sound) (hmove : Move d s s')
    (hwriters : ¬ s.writers id < s'.writers id) :
    s'.shared.store.findById id = s.shared.store.findById id := by
  cases hmove with
  | idle | called _ | invalidated _ => rfl
  | @stepped n op op' w hop hstep =>
      rcases (h.effect hop hstep).findById id with hsame | ⟨hbefore, hafter⟩
      · exact hsame
      · have hcount := countP_set_add (p := fun op => op.written? = some id) hop op'
        change writers ⟨w, s.operations.set n op'⟩ id + _ = s.writers id + _ at hcount
        simp only [hbefore, hafter, reduceCtorEq, decide_false, decide_true, Bool.false_eq_true,
          if_false, if_true] at hcount
        omega

/-- The text that the store has is the last that was saved. -/
theorem getLast?_texts (hkeyed : store.Keyed) {rule : Definition}
    (h : (after d store events).shared.store.findById id = some rule) :
    (texts d store id events).getLast? = some rule.source := by
  induction events using List.reverseRecOn with
  | nil =>
      have hfound : store.findById id = some rule := h
      simp [texts, log, hfound]
  | append_singleton past event ih =>
      rw [texts_append_singleton, savedText?]
      rw [after_append_singleton] at h
      split
      · simp [h]
      · rename_i hwriters
        have hsame := (sound_after (d := d) hkeyed past).findById_of_writers
          (move_next d _ event) hwriters
        rw [hsame] at h
        simpa using ih h

/-- The text that the store has at a moment has a number, the later the moment the larger. -/
theorem exists_texts (hkeyed : store.Keyed) (hpast : past <+: events) {rule : Definition}
    (h : (after d store past).shared.store.findById id = some rule) :
    (texts d store id events)[(texts d store id past).length - 1]? = some rule.source := by
  have hlast := getLast?_texts hkeyed h
  rw [List.getLast?_eq_getElem?] at hlast
  obtain ⟨rest, hrest⟩ : texts d store id past <+: texts d store id events := texts_later hpast
  obtain ⟨hlt, -⟩ := List.getElem?_eq_some_iff.mp hlast
  rw [← hrest, List.getElem?_append_left hlt, hlast]

end System

end Rulebook
