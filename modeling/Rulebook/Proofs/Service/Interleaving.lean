/-
  Proofs/Service/Interleaving.lean --- operations that are under way at the same time.

  Callers call for lookups, saves and deletions, and may invalidate rules themselves.
  A schedule is a list of events: a call, or a step of one of the operations called for
  so far.  An operation that is done or has to wait for a lock makes no step; naming it
  in a schedule changes nothing.  Every interleaving is such a list, and its prefixes
  are the moments of the run.

  `Operation.Effect` says once what a step of an operation can do; invariants of runs
  are proved from it.
-/
import Mathlib.Data.List.Induction
import Rulebook.Proofs.Service.Steps

set_option autoImplicit false

namespace Rulebook

/-- What a caller asks for. -/
inductive Request
  | lookup (key : RuleKey)
  | save (draft : Definition) (now : Timestamp)
  | delete (id : RuleId)

/-- An operation that was called for: what it was, and the step that comes next. -/
inductive Operation (π : Type)
  | lookup (key : RuleKey) (phase : Lookup π)
  | save (draft : Definition) (now : Timestamp) (phase : Saving)
  | delete (id : RuleId) (phase : Deleting)

/-- The operation that a request begins. -/
def Request.operation {π : Type} : Request → Operation π
  | .lookup key => .lookup key (.start key)
  | .save draft now => .save draft now (.normalize draft)
  | .delete id => .delete id (.lock id)

/-- Whether a request is for a new rule. -/
def Request.isInsert : Request → Bool
  | .save draft _ => draft.id.isNone
  | _ => false

namespace Operation

variable {π τ : Type}

/-- The next step of an operation; none if it is done or has to wait. -/
def step (d : Deployment π τ) (w : Shared MemoryStore π) :
    Operation π → Option (Shared MemoryStore π × Operation π)
  | .lookup key phase => (phase.step d w).map fun next => (next.1, .lookup key next.2)
  | .save draft now phase => (phase.step d now w).map fun next => (next.1, .save draft now next.2)
  | .delete id phase => (phase.step w).map fun next => (next.1, .delete id next.2)

/-- The rule in whose flight an operation takes part. -/
def joined? : Operation π → Option RuleId
  | .lookup _ phase => phase.joined?
  | _ => none

/-- The rule that an operation has written and not yet invalidated. -/
def pending? : Operation π → Option RuleId
  | .lookup _ _ => none
  | .save _ _ phase => phase.pending?
  | .delete id phase => if phase.isPending then some id else none

/-- The rule that an operation has written and invalidated. -/
def settled? : Operation π → Option RuleId
  | .lookup _ _ => none
  | .save _ _ phase => phase.settled?
  | .delete id phase => if phase.isSettled then some id else none

/-- Whether a save or a deletion has returned, with success, for a rule. -/
def HasMutated (id : RuleId) : Operation π → Prop
  | .save _ _ (.done (.ok saved)) => saved = id
  | .delete deleted (.done (.ok _)) => deleted = id
  | _ => False

/-- What an operation was called for with. -/
def request : Operation π → Request
  | .lookup key _ => .lookup key
  | .save draft now _ => .save draft now
  | .delete id _ => .delete id

/-- Whether an operation does what was asked for. -/
def Faithful : Operation π → Prop
  | .lookup (.id id) phase => phase.IsOf id
  | .lookup (.name _) _ => True
  | .save draft _ phase => ∀ current, phase.draft? = some current → current.id = draft.id
  | .delete id phase => phase.IsOf id

/-- How a step of an operation changes what operations share. -/
inductive Effect (d : Deployment π τ) (w : Shared MemoryStore π) :
    Operation π → Shared MemoryStore π → Operation π → Prop
  /-- A step of a lookup. -/
  | looked {key : RuleKey} {l l' : Lookup π} {w' : Shared MemoryStore π}
      (h : Lookup.Step d w l w' l') : Effect d w (.lookup key l) w' (.lookup key l')
  /-- A step of a mutation between its write and its invalidation, or outside both. -/
  | quiet {op op' : Operation π} {w' : Shared MemoryStore π} (hstore : w'.store = w.store)
      (hcache : w'.cache = w.cache) (hpending : op.pending? = none)
      (hpending' : op'.pending? = none) (hsettled : op'.settled? = op.settled?)
      (hjoined : op.joined? = none) (hjoined' : op'.joined? = none)
      (hlookup : ∀ key l, op' ≠ .lookup key l) : Effect d w op w' op'
  /-- A save writes. -/
  | saved {draft stored : Definition} {now : Timestamp} {phase : Saving} {store : MemoryStore}
      {id : RuleId} (hphase : phase.pending? = none ∧ phase.settled? = none)
      (hdraft : stored.id = draft.id) (hsave : w.store.save stored = .ok (store, id)) :
      Effect d w (.save draft now phase) { w with store } (.save draft now (.invalidate id))
  /-- A deletion writes. -/
  | deleted {id : RuleId} {phase phase' : Deleting}
      (hphase : phase.isPending = false ∧ phase.isSettled = false)
      (hphase' : phase'.isPending = true ∧ phase'.isSettled = false) :
      Effect d w (.delete id phase) { w with store := (w.store.delete id).1 } (.delete id phase')
  /-- A mutation invalidates what it wrote. -/
  | settled {op op' : Operation π} {id : RuleId} (hpending : op.pending? = some id)
      (hpending' : op'.pending? = none) (hsettled : op.settled? = none)
      (hsettled' : op'.settled? = some id) (hjoined : op.joined? = none)
      (hjoined' : op'.joined? = none) (hlookup : ∀ key l, op' ≠ .lookup key l) :
      Effect d w op { w with cache := w.cache.invalidate id } op'

variable {d : Deployment π τ} {w w' : Shared MemoryStore π} {op op' : Operation π}

theorem effect_of_step (hfaithful : op.Faithful) (h : op.step d w = some (w', op')) :
    Effect d w op w' op' := by
  cases op with
  | lookup key l =>
      obtain ⟨⟨w', l'⟩, hstep, heq⟩ := Option.map_eq_some_iff.mp h
      obtain ⟨rfl, rfl⟩ := Prod.mk.inj heq
      exact .looked (Lookup.of_step hstep)
  | save draft now s =>
      obtain ⟨⟨w', s'⟩, hstep, heq⟩ := Option.map_eq_some_iff.mp h
      obtain ⟨rfl, rfl⟩ := Prod.mk.inj heq
      rcases Saving.step_cases hstep with ⟨hstore, hcache, hpending, hpending', hsettled⟩ |
        ⟨current, existing, store, id, rfl, hsave, rfl, rfl⟩ | ⟨id, rfl, rfl, rfl⟩
      · exact .quiet hstore hcache hpending hpending' hsettled rfl rfl (by simp)
      · have hdraft : (current.stamp existing now).id = draft.id := hfaithful current rfl
        exact .saved ⟨rfl, rfl⟩ hdraft hsave
      · exact .settled rfl rfl rfl rfl rfl rfl (by simp)
  | delete id x =>
      obtain ⟨⟨w', x'⟩, hstep, heq⟩ := Option.map_eq_some_iff.mp h
      obtain ⟨rfl, rfl⟩ := Prod.mk.inj heq
      rcases (Deleting.step_cases hfaithful hstep).2 with
        ⟨hstore, hcache, hpending, hpending', hsettled⟩ | ⟨hp, hs, rfl, hp', hs'⟩ |
        ⟨hp, hs, rfl, hp', hs'⟩
      · exact .quiet hstore hcache (by simp [pending?, hpending]) (by simp [pending?, hpending'])
          (by simp [settled?, hsettled]) rfl rfl (by simp)
      · exact .deleted ⟨hp, hs⟩ ⟨hp', hs'⟩
      · exact .settled (by simp [pending?, hp]) (by simp [pending?, hp'])
          (by simp [settled?, hs]) (by simp [settled?, hs']) rfl rfl (by simp)

theorem Faithful.step (hfaithful : op.Faithful) (h : op.step d w = some (w', op')) :
    op'.Faithful := by
  cases op with
  | lookup key l =>
      obtain ⟨⟨w', l'⟩, hstep, heq⟩ := Option.map_eq_some_iff.mp h
      obtain ⟨-, rfl⟩ := Prod.mk.inj heq
      cases key with
      | name _ => trivial
      | id id => exact (Lookup.of_step hstep).isOf hfaithful
  | save draft now s =>
      obtain ⟨⟨w', s'⟩, hstep, heq⟩ := Option.map_eq_some_iff.mp h
      obtain ⟨-, rfl⟩ := Prod.mk.inj heq
      intro current hcurrent
      obtain ⟨before, hbefore, hid⟩ := Saving.draft?_of_step hstep hcurrent
      exact hid.trans (hfaithful before hbefore)
  | delete id x =>
      obtain ⟨⟨w', x'⟩, hstep, heq⟩ := Option.map_eq_some_iff.mp h
      obtain ⟨-, rfl⟩ := Prod.mk.inj heq
      exact (Deleting.step_cases hfaithful hstep).1

/-- What is a lookup after a step was one before it. -/
theorem of_step_lookup {key : RuleKey} {l' : Lookup π}
    (h : op.step d w = some (w', .lookup key l')) :
    ∃ l, op = .lookup key l ∧ Lookup.Step d w l w' l' := by
  cases op with
  | lookup _ l =>
      obtain ⟨⟨w', l'⟩, hstep, heq⟩ := Option.map_eq_some_iff.mp h
      obtain ⟨rfl, hphase⟩ := Prod.mk.inj heq
      obtain ⟨rfl, rfl⟩ := lookup.inj hphase
      exact ⟨l, rfl, Lookup.of_step hstep⟩
  | save _ _ _ | delete _ _ =>
      obtain ⟨next, -, heq⟩ := Option.map_eq_some_iff.mp h
      cases (Prod.mk.inj heq).2

theorem request_of_step (h : op.step d w = some (w', op')) : op'.request = op.request := by
  cases op <;>
    obtain ⟨next, -, heq⟩ := Option.map_eq_some_iff.mp h <;>
    obtain ⟨-, rfl⟩ := Prod.mk.inj heq <;> rfl

end Operation

theorem Request.request_operation {π : Type} (r : Request) :
    (r.operation : Operation π).request = r := by
  cases r <;> rfl

theorem Request.faithful_operation {π : Type} (r : Request) :
    (r.operation : Operation π).Faithful := by
  cases r with
  | lookup key =>
      cases key with
      | id _ => rfl
      | name _ => trivial
  | save draft now =>
      intro current hcurrent
      rw [← Option.some.inj hcurrent]
  | delete id => rfl

/-! ## Schedules -/

/-- Something that happens in a run. -/
inductive Event
  /-- A caller calls for an operation. -/
  | call (request : Request)
  /-- The operation of a number makes its next step, if it can. -/
  | step (n : Nat)
  /-- A caller invalidates a rule. -/
  | invalidate (id : RuleId)

/-- What an event calls for. -/
def Event.request? : Event → Option Request
  | .call request => some request
  | _ => none

/-- What operations share, and the operations called for, in the order of the calls. -/
structure System (π : Type) where
  /-- What operations share. -/
  shared : Shared MemoryStore π
  /-- The operations, done or not. -/
  operations : List (Operation π)

namespace System

variable {π τ : Type}

/-- The system after one more event. -/
def next (d : Deployment π τ) (s : System π) : Event → System π
  | .call request => { s with operations := s.operations ++ [request.operation] }
  | .step n =>
    match s.operations[n]? with
    | none => s
    | some op =>
      match op.step d s.shared with
      | none => s
      | some (w, op) => ⟨w, s.operations.set n op⟩
  | .invalidate id => { s with shared := { s.shared with cache := s.shared.cache.invalidate id } }

/-- The system after a schedule, over a store and with nothing cached before. -/
def after (d : Deployment π τ) (store : MemoryStore) (events : List Event) : System π :=
  events.foldl (next d) ⟨.start store, []⟩

variable {d : Deployment π τ} {store : MemoryStore} {events : List Event}

theorem after_append (d : Deployment π τ) (store : MemoryStore) (past later : List Event) :
    after d store (past ++ later) = later.foldl (next d) (after d store past) :=
  List.foldl_append

theorem after_append_singleton (event : Event) :
    after d store (events ++ [event]) = (after d store events).next d event :=
  after_append d store events [event]

/-- What an event can do to a system. -/
inductive Move (d : Deployment π τ) (s : System π) : System π → Prop
  | idle : Move d s s
  | called (request : Request) :
      Move d s { s with operations := s.operations ++ [request.operation] }
  | invalidated (id : RuleId) :
      Move d s { s with shared := { s.shared with cache := s.shared.cache.invalidate id } }
  | stepped {n : Nat} {op op' : Operation π} {w : Shared MemoryStore π}
      (hop : s.operations[n]? = some op) (hstep : op.step d s.shared = some (w, op')) :
      Move d s ⟨w, s.operations.set n op'⟩

theorem move_next (d : Deployment π τ) (s : System π) (event : Event) :
    Move d s (s.next d event) := by
  cases event with
  | call request => exact .called request
  | invalidate id => exact .invalidated id
  | step n =>
      unfold next
      simp only
      split
      · exact .idle
      · rename_i op hop
        split
        · exact .idle
        · rename_i w op' hstep
          exact .stepped hop hstep

/-- What an operation keeps through a step the list of them keeps. -/
theorem map_of_set {α : Type} {f : Operation π → α} {operations : List (Operation π)} {n : Nat}
    {op op' : Operation π} (hop : operations[n]? = some op) (hsame : f op' = f op) :
    (operations.set n op').map f = operations.map f := by
  obtain ⟨hn, rfl⟩ := List.getElem?_eq_some_iff.mp hop
  rw [List.map_set, hsame, ← List.getElem_map f]
  exact List.set_getElem_self (by simpa using hn)

/-- The operations are those that were called for, in the order of the calls. -/
theorem requests_after (d : Deployment π τ) (store : MemoryStore) (events : List Event) :
    (after d store events).operations.map Operation.request =
      events.filterMap Event.request? := by
  induction events using List.reverseRecOn with
  | nil => rfl
  | append_singleton past event ih =>
      rw [after_append_singleton, List.filterMap_append, ← ih]
      cases event with
      | call request => simp [next, Event.request?, Request.request_operation]
      | invalidate id => simp [next, Event.request?]
      | step n =>
          simp only [next, Event.request?, List.filterMap_cons, List.filterMap_nil,
            List.append_nil]
          split
          · rfl
          · rename_i op hop
            split
            · rfl
            · rename_i w op' hstep
              exact map_of_set hop (Operation.request_of_step hstep)

end System

end Rulebook
