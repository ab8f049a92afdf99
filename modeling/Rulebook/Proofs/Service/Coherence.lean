/-
  Proofs/Service/Coherence.lean --- the cache agrees with the store.

  What the cache holds of a rule was read from the store at some moment of the past.
  It is good enough if every mutation of the rule that is settled by now had written by
  then (`Recalls`): such an entry can be outdated only while a mutation stands between
  its write and its invalidation.

  A lookup carries what it read from one step to the next, and mutations may be settled
  in the meantime.  It is told so by what it noted before it read: the epoch for a name,
  the generation of the rule for a program.  So what it remembers is good enough, or its
  note is outdated (`Lookup.Remembers`).  Generations can tell because they are kept
  while the rule has a flight, and it has one while the lookup takes part in it.
-/
import Rulebook.Proofs.Service.History

set_option autoImplicit false

namespace Rulebook

/-- An engine whose programs are the texts, none of which it refuses. -/
def Engine.echo : Engine String Unit where
  compile := .ok
  groups _ := []
  begin _ := .ok ()
  insert session _ := session
  fire session _ := (session, .ok 0)
  dispose := id
  outcome _ _ := .success

/-- A service over `Engine.echo` that stores texts unread. -/
def Deployment.unread : Deployment String Unit := ⟨.echo, { verifyBeforeSave := false }⟩

/-! ## Turns -/

namespace System

variable {π τ : Type} {d : Deployment π τ} {s s' : System π}

/-- What a move is to the cache: a step of a lookup, an invalidation, or nothing. -/
inductive Turn (d : Deployment π τ) (s s' : System π) : Prop
  | looked {n : Nat} {key : RuleKey} {l l' : Lookup π}
      (hop : s.operations[n]? = some (.lookup key l))
      (hstep : Lookup.Step d s.shared l s'.shared l')
      (hoperations : s'.operations = s.operations.set n (.lookup key l'))
  | kept (hcache : s'.shared.cache = s.shared.cache)
      (hsettled : ∀ n id, s'.Settled n id → s.Settled n id)
      (hlookups : ∀ key l, .lookup key l ∈ s'.operations →
        .lookup key l ∈ s.operations ∨ l = .start key)
  | invalidated (id : RuleId) (hcache : s'.shared.cache = s.shared.cache.invalidate id)
      (hsettled : ∀ n other, other ≠ id → s'.Settled n other → s.Settled n other)
      (hlookups : ∀ key l, .lookup key l ∈ s'.operations → .lookup key l ∈ s.operations)

theorem settled_of_set {n m : Nat} {op op' : Operation π} {w : Shared MemoryStore π} {id : RuleId}
    (hop : s.operations[n]? = some op) (h : Settled ⟨w, s.operations.set n op'⟩ m id) :
    s.Settled m id ∨ op'.settled? = some id := by
  obtain ⟨found, hfound, hid⟩ := h
  by_cases hm : n = m
  · subst hm
    obtain ⟨hlt, -⟩ := List.getElem?_eq_some_iff.mp hop
    obtain rfl : op' = found := Option.some.inj ((List.getElem?_set_self hlt).symm.trans hfound)
    exact Or.inr hid
  · exact Or.inl ⟨found, (List.getElem?_set_ne hm).symm.trans hfound, hid⟩

theorem settled_of_set_same {n m : Nat} {op op' : Operation π} {w : Shared MemoryStore π}
    {id : RuleId} (hop : s.operations[n]? = some op) (hsame : op'.settled? = op.settled?)
    (h : Settled ⟨w, s.operations.set n op'⟩ m id) : s.Settled m id := by
  obtain ⟨found, hfound, hid⟩ := h
  by_cases hm : n = m
  · subst hm
    obtain ⟨hlt, -⟩ := List.getElem?_eq_some_iff.mp hop
    obtain rfl : op' = found := Option.some.inj ((List.getElem?_set_self hlt).symm.trans hfound)
    exact ⟨op, hop, hsame.symm.trans hid⟩
  · exact ⟨found, (List.getElem?_set_ne hm).symm.trans hfound, hid⟩

theorem lookup_of_set {n : Nat} {op' : Operation π} {w : Shared MemoryStore π} {key : RuleKey}
    {l : Lookup π} (hlookup : ∀ key l, op' ≠ .lookup key l)
    (h : .lookup key l ∈ (System.mk w (s.operations.set n op')).operations) :
    .lookup key l ∈ s.operations :=
  (List.mem_or_eq_of_mem_set h).resolve_right fun heq => hlookup key l heq.symm

theorem Sound.turn (h : s.Sound) (hmove : Move d s s') : Turn d s s' := by
  cases hmove with
  | idle => exact .kept rfl (fun _ _ h => h) fun _ _ h => Or.inl h
  | invalidated id => exact .invalidated id rfl (fun _ _ _ h => h) fun _ _ h => h
  | called request =>
      refine .kept rfl ?_ ?_
      · rintro n id ⟨op, hop, hid⟩
        change (s.operations ++ [request.operation])[n]? = some op at hop
        rw [List.getElem?_append] at hop
        split at hop
        · exact ⟨op, hop, hid⟩
        · obtain rfl := List.mem_singleton.mp (List.mem_of_getElem? hop)
          simp [Operation.settled?_operation] at hid
      · intro key l hl
        rcases List.mem_append.mp hl with hold | hnew
        · exact Or.inl hold
        · cases request with
          | lookup key' =>
              obtain ⟨rfl, rfl⟩ := Operation.lookup.inj (List.mem_singleton.mp hnew)
              exact Or.inr rfl
          | save _ _ => simp [Request.operation] at hnew
          | delete _ => simp [Request.operation] at hnew
  | @stepped n op op' w hop hstep =>
      cases h.effect hop hstep with
      | looked hlook => exact .looked hop hlook rfl
      | quiet hstore hcache hpending hpending' hsettled hjoined hjoined' hlookup =>
          exact .kept hcache (fun _ _ => settled_of_set_same hop hsettled) fun _ _ hl =>
            Or.inl (lookup_of_set hlookup hl)
      | saved hphase =>
          refine .kept rfl (fun _ _ => settled_of_set_same hop ?_) fun _ _ hl =>
            Or.inl (lookup_of_set (by simp) hl)
          exact hphase.2.symm
      | deleted hphase hphase' =>
          refine .kept rfl (fun _ _ => settled_of_set_same hop ?_) fun _ _ hl =>
            Or.inl (lookup_of_set (by simp) hl)
          simp [Operation.settled?, hphase, hphase']
      | @settled _ _ id hpending hpending' hsettled hsettled' hjoined hjoined' hlookup =>
          refine .invalidated id rfl ?_ fun _ _ hl => lookup_of_set hlookup hl
          intro m other hne hother
          refine (settled_of_set hop hother).resolve_right fun heq => hne ?_
          exact Option.some.inj (heq.symm.trans hsettled')

/-! ## Reading the store in time -/

variable {store : MemoryStore} {events : List Event} {event : Event} {id : RuleId}
  {P Q : Option Definition → Prop}

/-- At some moment of the run the store had under an identifier what is described, and
by then every mutation of the rule had written that is settled by now. -/
def Recalls (d : Deployment π τ) (store : MemoryStore) (events : List Event) (id : RuleId)
    (P : Option Definition → Prop) : Prop :=
  ∃ past, past <+: events ∧ P ((after d store past).shared.store.findById id) ∧
    ∀ n, (after d store events).Settled n id → (after d store past).Wrote n id

theorem Recalls.now (h : P ((after d store events).shared.store.findById id)) :
    Recalls d store events id P :=
  ⟨events, List.prefix_refl events, h, fun _ hsettled => hsettled.wrote⟩

theorem Recalls.imp (h : Recalls d store events id P) (himp : ∀ found, P found → Q found) :
    Recalls d store events id Q := by
  obtain ⟨past, hpast, hP, hwrote⟩ := h
  exact ⟨past, hpast, himp _ hP, hwrote⟩

/-- What was read in time was read in time until a mutation of the rule is settled. -/
theorem Recalls.next (h : Recalls d store events id P)
    (hsettled : ∀ n, (after d store (events ++ [event])).Settled n id →
      (after d store events).Settled n id) : Recalls d store (events ++ [event]) id P := by
  obtain ⟨past, hpast, hP, hwrote⟩ := h
  exact ⟨past, hpast.trans (List.prefix_append events [event]), hP,
    fun n hn => hwrote n (hsettled n hn)⟩

/-- What was read in time is what the store has, if no mutation of the rule stands
between its write and its invalidation. -/
theorem Recalls.current (hkeyed : store.Keyed) (h : Recalls d store events id P)
    (hrest : ∀ op ∈ (after d store events).operations, op.pending? ≠ some id) :
    P ((after d store events).shared.store.findById id) := by
  obtain ⟨past, hpast, hP, hwrote⟩ := h
  have hsame : (after d store events).shared.store.findById id =
      (after d store past).shared.store.findById id := by
    refine findById_of_past hkeyed hpast fun n hn => hwrote n ?_
    obtain ⟨op, hop, hwritten⟩ := hn
    exact ⟨op, hop, Operation.settled?_of_written? hwritten (hrest op (List.mem_of_getElem? hop))⟩
  rwa [hsame]

/-! ## Notes -/

/-- What lookups note before they read. -/
inductive Counter
  | epoch
  | generation (id : RuleId)

/-- What a counter shows. -/
def count (s : System π) : Counter → Nat
  | .epoch => s.shared.cache.epoch
  | .generation id => s.shared.cache.generation id

/-- A counter was noted before something was read from the store: either the counter has
risen since, or what was read was read in time. -/
def Noted (d : Deployment π τ) (store : MemoryStore) (events : List Event) (counter : Counter)
    (note : Nat) (id : RuleId) (P : Option Definition → Prop) : Prop :=
  note ≤ (after d store events).count counter ∧
    (note = (after d store events).count counter → Recalls d store events id P)

/-- Whether a counter rises with an event, or else no mutation of a rule is settled by
it. -/
def Tells (d : Deployment π τ) (store : MemoryStore) (events : List Event) (event : Event)
    (counter : Counter) (id : RuleId) : Prop :=
  (after d store events).count counter < (after d store (events ++ [event])).count counter ∨
    ((after d store (events ++ [event])).count counter = (after d store events).count counter ∧
      ∀ n, (after d store (events ++ [event])).Settled n id → (after d store events).Settled n id)

theorem count_of_cache_eq (h : s'.shared.cache = s.shared.cache) (counter : Counter) :
    s'.count counter = s.count counter := by
  cases counter <;> rw [count, h, count]

variable {counter : Counter} {note : Nat}

theorem Tells.le (h : Tells d store events event counter id)
    (hle : note ≤ (after d store events).count counter) :
    note ≤ (after d store (events ++ [event])).count counter := by
  rcases h with hlt | ⟨hsame, -⟩ <;> omega

theorem Noted.next (h : Noted d store events counter note id P)
    (htells : Tells d store events event counter id) :
    Noted d store (events ++ [event]) counter note id P := by
  refine ⟨htells.le h.1, ?_⟩
  intro heq
  rcases htells with hlt | ⟨hsame, hsettled⟩
  · have hle := h.1
    omega
  · exact (h.2 (heq.trans hsame)).next hsettled

theorem Noted.now (hle : note ≤ (after d store events).count counter)
    (h : P ((after d store events).shared.store.findById id)) :
    Noted d store events counter note id P :=
  ⟨hle, fun _ => .now h⟩

theorem Noted.imp (h : Noted d store events counter note id P)
    (himp : ∀ found, P found → Q found) : Noted d store events counter note id Q :=
  ⟨h.1, fun heq => (h.2 heq).imp himp⟩

end System

/-! ## What lookups remember -/

namespace Lookup

variable {π τ : Type} {d : Deployment π τ} {store : MemoryStore} {events : List Event}
  {event : Event} {l l' : Lookup π}

/-- What a lookup remembers was read after what it noted. -/
def Remembers (d : Deployment π τ) (store : MemoryStore) (events : List Event) : Lookup π → Prop
  | .findName _ epoch => epoch ≤ (System.after d store events).count .epoch
  | .recordName name epoch id =>
    System.Noted d store events .epoch epoch id fun found => found.map (·.name) = some name
  | .read id generation => generation ≤ (System.after d store events).count (.generation id)
  | .compile id generation rule =>
    System.Noted d store events (.generation id) generation id fun found =>
      compilable? found = some rule
  | .keep id generation p =>
    System.Noted d store events (.generation id) generation id fun found =>
      d.answer id found = .ok p.program
  | _ => True

/-- A lookup that makes a step remembers what it notes and reads. -/
theorem Remembers.step {w : Shared MemoryStore π} (hkeyed : store.Keyed)
    (h : Remembers d store events l)
    (hstep : Step d (System.after d store events).shared l w l') :
    Remembers d store events l' := by
  cases hstep with
  | noted | missedStill => exact Nat.le_refl _
  | @named name epoch rule id hrule hid =>
      obtain ⟨hname, id', hid', hfind⟩ :=
        (System.sound_after hkeyed events).keyed.findById_of_findByName hrule
      obtain rfl : id' = id := Option.some.inj (hid'.symm.trans hid)
      refine System.Noted.now h ?_
      rw [hfind, Option.map_some, hname]
  | @found id generation rule hrule =>
      exact System.Noted.now (P := fun found => compilable? found = some rule) h hrule
  | @compiled id generation rule program hcompile =>
      have hnoted : System.Noted d store events (.generation id) generation id
        fun found => compilable? found = some rule := h
      refine hnoted.imp ?_
      intro found hfound
      rw [Deployment.answer_of_some hfound, hcompile]
      rfl
  | _ => trivial

/-- A lookup that makes no step is told if it is to be told of what is settled. -/
theorem Remembers.next (h : Remembers d store events l)
    (hepoch : ∀ id, System.Tells d store events event .epoch id)
    (hgeneration : ∀ id, l.joined? = some id →
      System.Tells d store events event (.generation id) id) :
    Remembers d store (events ++ [event]) l := by
  cases l with
  | findName name epoch => exact (hepoch default).le h
  | recordName name epoch id =>
      have hnoted : System.Noted d store events .epoch epoch id
        fun found => found.map (·.name) = some name := h
      exact hnoted.next (hepoch id)
  | read id generation => exact (hgeneration id rfl).le h
  | compile id generation rule =>
      have hnoted : System.Noted d store events (.generation id) generation id
        fun found => compilable? found = some rule := h
      exact hnoted.next (hgeneration id rfl)
  | keep id generation p =>
      have hnoted : System.Noted d store events (.generation id) generation id
        fun found => d.answer id found = .ok p.program := h
      exact hnoted.next (hgeneration id rfl)
  | _ => trivial

end Lookup

/-! ## Consistency -/

namespace System

variable {π τ : Type} {d : Deployment π τ} {store : MemoryStore} {events : List Event}

/-- Everything that was read from the store was read in time. -/
structure Consistent (d : Deployment π τ) (store : MemoryStore) (events : List Event) : Prop where
  programs : ∀ id p, (id, p) ∈ (after d store events).shared.cache.programs →
    Recalls d store events id fun found => d.answer id found = .ok p.program
  names : ∀ name id, (name, id) ∈ (after d store events).shared.cache.names →
    Recalls d store events id fun found => found.map (·.name) = some name
  lookups : ∀ key l, .lookup key l ∈ (after d store events).operations →
    l.Remembers d store events

theorem Consistent.start : Consistent d store [] where
  programs _ _ hmem := absurd hmem List.not_mem_nil
  names _ _ hmem := absurd hmem List.not_mem_nil
  lookups _ _ hmem := absurd hmem List.not_mem_nil

theorem remembers_start (key : RuleKey) : (Lookup.start key).Remembers d store events := by
  cases key <;> trivial

/-- A step of a lookup moves what it read in time into the cache. -/
theorem Consistent.looked (hkeyed : store.Keyed) (h : Consistent d store events) {event : Event}
    {n : Nat} {key : RuleKey} {l l' : Lookup π}
    (hop : (after d store events).operations[n]? = some (.lookup key l))
    (hstep : Lookup.Step d (after d store events).shared l
      (after d store (events ++ [event])).shared l')
    (hoperations : (after d store (events ++ [event])).operations =
      (after d store events).operations.set n (.lookup key l')) :
    Consistent d store (events ++ [event]) := by
  obtain ⟨-, -, hgenerations, hepoch⟩ := hstep.frame
  have hremembers : l.Remembers d store events := h.lookups key l (List.mem_of_getElem? hop)
  have hsame : (Operation.lookup key l').settled? = (Operation.lookup key l).settled? := rfl
  have hsettled : ∀ m id, (after d store (events ++ [event])).Settled m id →
      (after d store events).Settled m id := by
    rintro m id ⟨op, hm, hid⟩
    rw [hoperations] at hm
    exact settled_of_set_same (w := (after d store events).shared) hop hsame ⟨op, hm, hid⟩
  have hcount : ∀ counter, (after d store (events ++ [event])).count counter =
      (after d store events).count counter := by
    intro counter
    cases counter with
    | epoch => exact hepoch
    | generation id => simp only [count, Cache.generation, hgenerations]
  have hnext : ∀ other : Lookup π, other.Remembers d store events →
      other.Remembers d store (events ++ [event]) := fun other hother =>
    hother.next (fun id => Or.inr ⟨hcount _, fun m => hsettled m id⟩)
      fun id _ => Or.inr ⟨hcount _, fun m => hsettled m id⟩
  refine ⟨?_, ?_, ?_⟩
  · intro id p hmem
    rcases hstep.mem_programs hmem with hold | rfl
    · exact (h.programs id p hold).next fun m => hsettled m id
    · exact (hremembers.2 rfl).next fun m => hsettled m id
  · intro name id hmem
    rcases hstep.mem_names hmem with hold | rfl
    · exact (h.names name id hold).next fun m => hsettled m id
    · exact (hremembers.2 rfl).next fun m => hsettled m id
  · intro key' other hmem
    rw [hoperations] at hmem
    rcases List.mem_or_eq_of_mem_set hmem with hold | heq
    · exact hnext other (h.lookups key' other hold)
    · obtain ⟨rfl, rfl⟩ := Operation.lookup.inj heq
      exact hnext other (hremembers.step hkeyed hstep)

/-- An invalidation drops what may be outdated, and tells the lookups that carry some. -/
theorem Consistent.invalidated (hkeyed : store.Keyed) (h : Consistent d store events)
    {event : Event} {id : RuleId}
    (hcache : (after d store (events ++ [event])).shared.cache =
      (after d store events).shared.cache.invalidate id)
    (hsettled : ∀ n other, other ≠ id → (after d store (events ++ [event])).Settled n other →
      (after d store events).Settled n other)
    (hlookups : ∀ key l, .lookup key l ∈ (after d store (events ++ [event])).operations →
      .lookup key l ∈ (after d store events).operations) :
    Consistent d store (events ++ [event]) := by
  refine ⟨?_, ?_, ?_⟩
  · intro other p hmem
    rw [hcache, Cache.mem_programs_invalidate] at hmem
    exact (h.programs other p hmem.1).next fun n => hsettled n other hmem.2
  · intro name other hmem
    rw [hcache, Cache.mem_names_invalidate] at hmem
    exact (h.names name other hmem.1).next fun n => hsettled n other hmem.2
  · intro key l hmem
    have hold := hlookups key l hmem
    refine (h.lookups key l hold).next (fun _ => Or.inl ?_) fun other hjoined => ?_
    · show _ < (after d store (events ++ [event])).shared.cache.epoch
      rw [hcache]
      exact Nat.lt_succ_self _
    · by_cases hid : other = id
      · subst hid
        left
        show _ < (after d store (events ++ [event])).shared.cache.generation other
        rw [hcache, Cache.generation_invalidate_self
          ((sound_after hkeyed events).holders?_ne_none hold hjoined)]
        exact Nat.lt_succ_self _
      · refine Or.inr ⟨?_, fun n => hsettled n other hid⟩
        show (after d store (events ++ [event])).shared.cache.generation other = _
        rw [hcache]
        exact Cache.generation_invalidate_of_ne hid

theorem consistent_after (hkeyed : store.Keyed) (events : List Event) :
    Consistent d store events := by
  induction events using List.reverseRecOn with
  | nil => exact .start
  | append_singleton past event ih =>
      have hturn : Turn d (after d store past) (after d store (past ++ [event])) := by
        rw [after_append_singleton]
        exact (sound_after hkeyed past).turn (move_next d _ event)
      cases hturn with
      | looked hop hstep hoperations => exact ih.looked hkeyed hop hstep hoperations
      | invalidated id hcache hsettled hlookups =>
          exact ih.invalidated hkeyed hcache hsettled hlookups
      | kept hcache hsettled hlookups =>
          refine ⟨?_, ?_, ?_⟩
          · intro id p hmem
            rw [hcache] at hmem
            exact (ih.programs id p hmem).next fun n => hsettled n id
          · intro name id hmem
            rw [hcache] at hmem
            exact (ih.names name id hmem).next fun n => hsettled n id
          · intro key l hmem
            have hold : l.Remembers d store past := by
              rcases hlookups key l hmem with hold | rfl
              · exact ih.lookups key l hold
              · exact remembers_start key
            have hcount := count_of_cache_eq hcache
            exact hold.next (fun id => Or.inr ⟨hcount _, fun n => hsettled n id⟩)
              fun id _ => Or.inr ⟨hcount _, fun n => hsettled n id⟩

/-- Whether no mutation stands between its write and its invalidation. -/
def AtRest (s : System π) : Prop := ∀ op ∈ s.operations, op.pending? = none

instance (s : System π) : Decidable s.AtRest :=
  inferInstanceAs (Decidable (∀ op ∈ s.operations, op.pending? = none))

/-- **Coherence at rest.**  In every run, at every moment at which no mutation stands
between its write and its invalidation, a cached program was compiled from the text
that the store has under its identifier, and an indexed name leads to a rule that the
store has under that identifier and that name. -/
theorem coherent_at_rest (d : Deployment π τ) (hkeyed : store.Keyed) (events : List Event)
    (hrest : (after d store events).AtRest) :
    (∀ id p, (after d store events).shared.cache.program? id = some p →
      ∃ rule, (after d store events).shared.store.findById id = some rule ∧
        d.engine.compile rule.source = .ok p.program) ∧
    (∀ name id, (after d store events).shared.cache.idOf? name = some id →
      ∃ rule, (after d store events).shared.store.findById id = some rule ∧
        rule.name = name) := by
  have hconsistent := consistent_after (d := d) hkeyed events
  have hnone : ∀ id, ∀ op ∈ (after d store events).operations, op.pending? ≠ some id := by
    intro id op hop
    rw [hrest op hop]
    exact (Option.some_ne_none id).symm
  constructor
  · intro id p hp
    have hrecalls := hconsistent.programs id p (Table.mem_of_get? hp)
    exact Deployment.of_answer_ok (hrecalls.current hkeyed (hnone id))
  · intro name id hname
    have hrecalls := hconsistent.names name id (Table.mem_of_get? hname)
    exact Option.map_eq_some_iff.mp (hrecalls.current hkeyed (hnone id))

/-- A rule is saved, and then renamed while a lookup by its old name, which has just been
resolved, is about to record it. -/
def renamedMeanwhile : List Event :=
  [.call (.save (.new "door" "open") ⟨0, 0⟩)] ++ List.replicate 6 (.step 0) ++
    [.call (.lookup (.name "door"))] ++ List.replicate 3 (.step 1) ++
    [.call (.save { Definition.new "gate" "shut" with id := some ⟨1⟩ } ⟨1, 0⟩)] ++
    List.replicate 7 (.step 2) ++ List.replicate 10 (.step 1)

theorem coherent_at_rest_renamedMeanwhile :
    (after .unread .empty renamedMeanwhile).AtRest ∧
      (after .unread .empty renamedMeanwhile).shared.cache.names = [] ∧
      ∃ rule, (after .unread .empty renamedMeanwhile).shared.store.findById ⟨1⟩ = some rule ∧
        rule.source = "shut" := by
  have hrest : (after .unread .empty renamedMeanwhile).AtRest := by decide +kernel
  have hnames : (after .unread .empty renamedMeanwhile).shared.cache.names = [] := rfl
  have hprogram : (after .unread .empty renamedMeanwhile).shared.cache.program? ⟨1⟩ =
      some ⟨0, "shut"⟩ := rfl
  obtain ⟨hprograms, -⟩ :=
    coherent_at_rest .unread MemoryStore.keyed_empty renamedMeanwhile hrest
  obtain ⟨rule, hrule, hsource⟩ := hprograms ⟨1⟩ _ hprogram
  exact ⟨hrest, hnames, rule, hrule, Except.ok.inj hsource⟩

end System

end Rulebook
