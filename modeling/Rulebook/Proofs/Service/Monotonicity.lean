/-
  Proofs/Service/Monotonicity.lean --- no lookup answers with what is older than an answer.

  A program that a lookup answers with was in the cache at a moment since its call
  (`cached_of_answer`).  So it is enough that what the cache holds of a rule never gets
  older than it was.  It comes into the cache by lookups that have read the store before,
  and between the write of a save and its invalidation generations do not tell whether
  they did before the write.  But a lookup reads only while there is no program, and with
  the lock of the flight; so when a program is in the cache no lookup carries an older
  text of the rule (`not_building`), and whatever is put there later was read later.
-/
import Rulebook.Proofs.Service.Coherence
import Rulebook.Proofs.Service.Log
import Rulebook.Proofs.Service.Progress

set_option autoImplicit false

namespace Rulebook

namespace Lookup

variable {π τ : Type} {d : Deployment π τ} {w w' : Shared MemoryStore π} {l l' : Lookup π}

/-- The rule that a lookup is building a program of. -/
def building? : Lookup π → Option RuleId
  | .read id _ | .compile id _ _ | .keep id _ _ => some id
  | _ => none

/-- The program that a lookup answers with. -/
def answered? : Lookup π → Option (Compiled π)
  | .release _ answer | .leave _ answer | .done answer => answer.toOption
  | _ => none

theorem holds?_of_building? {id : RuleId} (h : l.building? = some id) : l.holds? = some id := by
  cases l <;> first | exact h | cases h

theorem answered?_start (key : RuleKey) : (start key : Lookup π).answered? = none := by
  cases key <;> rfl

theorem building?_start (key : RuleKey) : (start key : Lookup π).building? = none := by
  cases key <;> rfl

/-- A lookup begins to build a program of a rule only if there is none. -/
theorem Step.building (h : Step d w l w' l') {id : RuleId} (hbuilding : l'.building? = some id) :
    w'.cache.programs = w.cache.programs ∧
      (w.cache.program? id = none ∨ l.building? = some id) := by
  cases h with
  | missedStill hnone =>
      obtain rfl := Option.some.inj hbuilding
      exact ⟨rfl, Or.inl hnone⟩
  | found | compiled => exact ⟨rfl, Or.inr hbuilding⟩
  | _ => cases hbuilding

/-- A program is in the cache if it was there before or a lookup puts it there. -/
theorem Step.program? (h : Step d w l w' l') {id : RuleId} {p : Compiled π}
    (hp : w'.cache.program? id = some p) :
    w.cache.program? id = some p ∨ ∃ generation, l = .keep id generation p := by
  cases h with
  | @kept other generation q =>
      simp only [Cache.program?, Table.get?_put] at hp
      split at hp
      · rename_i hid
        obtain rfl := Option.some.inj hp
        exact Or.inr ⟨generation, by rw [hid]⟩
      · exact Or.inl hp
  | _ => exact Or.inl hp

/-- A lookup comes to answer with a program that is in the cache before or after its
step. -/
theorem Step.answered? (h : Step d w l w' l') {id : RuleId} (hof : l.IsOf id) {p : Compiled π}
    (hp : l'.answered? = some p) :
    l.answered? = some p ∨ w.cache.program? id = some p ∨ w'.cache.program? id = some p := by
  cases h with
  | hit hcached | hitMeanwhile hcached =>
      obtain rfl := Option.some.inj hp
      obtain rfl := hof
      exact Or.inr (Or.inl hcached)
  | kept =>
      obtain rfl := Option.some.inj hp
      obtain rfl := hof
      exact Or.inr (Or.inr (by simp [Cache.program?, Table.get?_put]))
  | released | left => exact Or.inl hp
  | _ => cases hp

end Lookup

namespace System

variable {π τ : Type} {d : Deployment π τ} {store : MemoryStore} {floor past events : List Event}
  {event : Event} {id : RuleId}

/-! ## One lookup at a time -/

/-- A lock is held by one operation. -/
theorem Locks.unique {s : System π} (h : s.Locks) {n m : Nat} {op op' : Operation π}
    (hop : s.operations[n]? = some op) (hop' : s.operations[m]? = some op')
    (hholds : op.holds? = some id) (hholds' : op'.holds? = some id) : n = m := by
  by_contra hne
  -- Were the first to hold nothing, the second would still hold the lock.
  have hcount := countP_set_add (p := fun op => op.holds? = some id) hop (.delete id (.lock id))
  have hnone : (.delete id (.lock id) : Operation π).holds? = none := rfl
  have hpos : 0 < (s.operations.set n (.delete id (.lock id))).countP (·.holds? = some id) := by
    refine List.countP_pos_iff.mpr ⟨op', ?_, by simpa using hholds'⟩
    exact List.mem_of_getElem? ((List.getElem?_set_ne hne).trans hop')
  have hheld : s.operations.countP (·.holds? = some id) ≤ 1 := by
    have hlocks := h id
    rw [holding] at hlocks
    split at hlocks <;> omega
  simp only [hholds, hnone, decide_true, if_true, reduceCtorEq, decide_false, Bool.false_eq_true,
    if_false] at hcount
  omega

/-- While there is a program of a rule, no lookup is building one. -/
def Built (s : System π) : Prop :=
  ∀ (key : RuleKey) (l : Lookup π) (id : RuleId), .lookup key l ∈ s.operations →
    l.building? = some id → s.shared.cache.program? id = none

theorem Built.looked {s s' : System π} (h : s.Built) (hlocks : s.Locks) {n : Nat} {key : RuleKey}
    {l l' : Lookup π} (hop : s.operations[n]? = some (.lookup key l))
    (hstep : Lookup.Step d s.shared l s'.shared l')
    (hoperations : s'.operations = s.operations.set n (.lookup key l')) : s'.Built := by
  intro key' other id hmem hbuilding
  obtain ⟨m, hm⟩ := List.mem_iff_getElem?.mp hmem
  rw [hoperations] at hm
  by_cases hnm : n = m
  · subst hnm
    obtain ⟨hlt, -⟩ := List.getElem?_eq_some_iff.mp hop
    rw [List.getElem?_set_self hlt] at hm
    obtain ⟨rfl, rfl⟩ := Operation.lookup.inj (Option.some.inj hm)
    obtain ⟨hprograms, hnone⟩ := hstep.building hbuilding
    rw [Cache.program?, hprograms]
    rcases hnone with hnone | hbefore
    · exact hnone
    · exact h key l id (List.mem_of_getElem? hop) hbefore
  · rw [List.getElem?_set_ne hnm] at hm
    cases hp : s'.shared.cache.program? id with
    | none => rfl
    | some p =>
        rcases hstep.program? hp with hcached | ⟨generation, rfl⟩
        · rw [h key' other id (List.mem_of_getElem? hm) hbuilding] at hcached
          cases hcached
        · exact absurd (hlocks.unique hop hm rfl (Lookup.holds?_of_building? hbuilding)) hnm

theorem built_after (hkeyed : store.Keyed) (events : List Event) :
    (after d store events).Built := by
  induction events using List.reverseRecOn with
  | nil => intro _ _ _ hmem _; exact absurd hmem List.not_mem_nil
  | append_singleton past event ih =>
      rw [after_append_singleton]
      cases (sound_after hkeyed past).turn (move_next d (after d store past) event) with
      | looked hop hstep hoperations =>
          exact ih.looked (locks_after hkeyed past) hop hstep hoperations
      | kept hcache hsettled hlookups =>
          intro key l id hmem hbuilding
          rw [hcache]
          rcases hlookups key l hmem with hold | rfl
          · exact ih key l id hold hbuilding
          · rw [Lookup.building?_start] at hbuilding
            cases hbuilding
      | invalidated other hcache hsettled hlookups =>
          intro key l id hmem hbuilding
          rw [hcache, Cache.program?, Cache.invalidate, Table.get?_erase]
          split
          · rfl
          · exact ih key l id (hlookups key l hmem) hbuilding

/-! ## What is newer than a moment -/

/-- A program was compiled from the text that a rule had at some moment since an earlier
one. -/
def CompiledSince (d : Deployment π τ) (store : MemoryStore) (floor events : List Event)
    (id : RuleId) (p : Compiled π) : Prop :=
  ∃ past rule, floor <+: past ∧ past <+: events ∧
    (after d store past).shared.store.findById id = some rule ∧
    (compiledTexts d store events)[p.serial]? = some rule.source ∧
    d.engine.compile rule.source = .ok p.program

theorem CompiledSince.later {p : Compiled π} (h : CompiledSince d store floor past id p)
    (hpast : past <+: events) : CompiledSince d store floor events id p := by
  obtain ⟨moment, rule, hfloor, hmoment, hrule, htext, hcompile⟩ := h
  exact ⟨moment, rule, hfloor, hmoment.trans hpast, hrule, compiledTexts_later hpast htext,
    hcompile⟩

theorem CompiledSince.next {p : Compiled π} (h : CompiledSince d store floor events id p) :
    CompiledSince d store floor (events ++ [event]) id p :=
  h.later (List.prefix_append _ _)

/-- What a lookup carries of a rule the rule had at some moment since an earlier one. -/
def CarriesSince (d : Deployment π τ) (store : MemoryStore) (floor events : List Event)
    (id : RuleId) : Lookup π → Prop
  | .compile other _ rule => other = id →
    ∃ past, floor <+: past ∧ past <+: events ∧
      (after d store past).shared.store.findById id = some rule
  | .keep other _ p => other = id → CompiledSince d store floor events id p
  | _ => True

theorem CarriesSince.next {l : Lookup π} (h : CarriesSince d store floor events id l) :
    CarriesSince d store floor (events ++ [event]) id l := by
  cases l with
  | compile other generation rule =>
      intro hid
      obtain ⟨past, hfloor, hpast, hrule⟩ := h hid
      exact ⟨past, hfloor, hpast.trans (List.prefix_append _ _), hrule⟩
  | keep other generation p => exact fun hid => (h hid).next
  | _ => trivial

theorem carriesSince_of_not_building {l : Lookup π} (h : l.building? ≠ some id) :
    CarriesSince d store floor events id l := by
  cases l with
  | compile _ _ _ | keep _ _ _ => exact fun hid => absurd (congrArg some hid) h
  | _ => trivial

/-- What is in the cache, or on its way there, is newer than a moment. -/
structure Since (d : Deployment π τ) (store : MemoryStore) (floor events : List Event)
    (id : RuleId) : Prop where
  program : ∀ p, (after d store events).shared.cache.program? id = some p →
    CompiledSince d store floor events id p
  lookups : ∀ key l, .lookup key l ∈ (after d store events).operations →
    CarriesSince d store floor events id l

/-- A lookup that makes a step carries what the store has, or what it carried before. -/
theorem CarriesSince.step (hfloor : floor <+: events) {n : Nat} {key : RuleKey} {l l' : Lookup π}
    (h : CarriesSince d store floor events id l)
    (hop : (after d store events).operations[n]? = some (.lookup key l))
    (hstep : Lookup.Step d (after d store events).shared l
      (after d store (events ++ [event])).shared l')
    (hop' : (after d store (events ++ [event])).operations[n]? = some (.lookup key l')) :
    CarriesSince d store floor (events ++ [event]) id l' := by
  generalize hw : (after d store (events ++ [event])).shared = w at hstep
  cases hstep with
  | found hrule =>
      rintro rfl
      exact ⟨events, hfloor, List.prefix_append _ _, (Option.filter_eq_some_iff.mp hrule).1⟩
  | compiled hcompile =>
      rintro rfl
      obtain ⟨past, hfloor, hpast, hrule⟩ := h rfl
      exact ⟨past, _, hfloor, hpast.trans (List.prefix_append _ _), hrule,
        compiledTexts_of_compiled hop hcompile hop', hcompile⟩
  | _ => trivial

/-- What gets into the cache after a moment is newer if all that is on its way there is. -/
theorem Since.next (hkeyed : store.Keyed) (hfloor : floor <+: events)
    (h : Since d store floor events id) : Since d store floor (events ++ [event]) id := by
  have hturn : Turn d (after d store events) (after d store (events ++ [event])) := by
    rw [after_append_singleton]
    exact (sound_after hkeyed events).turn (move_next d _ event)
  cases hturn with
  | @looked n key l l' hop hstep hoperations =>
      have hmem := List.mem_of_getElem? hop
      obtain ⟨hlt, -⟩ := List.getElem?_eq_some_iff.mp hop
      have hop' : (after d store (events ++ [event])).operations[n]? = some (.lookup key l') := by
        rw [hoperations, List.getElem?_set_self hlt]
      constructor
      · intro p hp
        rcases hstep.program? hp with hcached | ⟨generation, rfl⟩
        · exact (h.program p hcached).next
        · exact (h.lookups key _ hmem rfl).next
      · intro key' other hother
        rw [hoperations] at hother
        rcases List.mem_or_eq_of_mem_set hother with hold | heq
        · exact (h.lookups key' other hold).next
        · obtain ⟨rfl, rfl⟩ := Operation.lookup.inj heq
          exact (h.lookups key' l hmem).step hfloor hop hstep hop'
  | kept hcache hsettled hlookups =>
      constructor
      · intro p hp
        rw [hcache] at hp
        exact (h.program p hp).next
      · intro key l hl
        rcases hlookups key l hl with hold | rfl
        · exact (h.lookups key l hold).next
        · refine carriesSince_of_not_building ?_
          rw [Lookup.building?_start]
          exact (Option.some_ne_none id).symm
  | invalidated other hcache hsettled hlookups =>
      constructor
      · intro p hp
        rw [hcache, Cache.program?, Cache.invalidate, Table.get?_erase] at hp
        split at hp
        · cases hp
        · exact (h.program p hp).next
      · intro key l hl
        exact (h.lookups key l (hlookups key l hl)).next

theorem Since.later (hkeyed : store.Keyed) (hfloor : floor <+: past) (hpast : past <+: events)
    (h : Since d store floor past id) : Since d store floor events id := by
  induction events using List.reverseRecOn with
  | nil => rwa [List.prefix_nil.mp hpast] at h
  | append_singleton recent event ih =>
      rcases List.prefix_concat_iff.mp hpast with rfl | hrecent
      · exact h
      · exact (ih hrecent).next hkeyed (hfloor.trans hrecent)

/-- All of a run is newer than its beginning. -/
theorem since_start (hkeyed : store.Keyed) (events : List Event) :
    Since d store [] events id := by
  refine Since.later hkeyed (List.prefix_refl _) List.nil_prefix ⟨?_, ?_⟩
  · intro p hp
    cases hp
  · intro key l hl
    exact absurd hl List.not_mem_nil

/-- A program in the cache is a moment of the store, and all that is in the cache from then
on is newer than that moment. -/
theorem since_of_cached (hkeyed : store.Keyed) {p : Compiled π}
    (hp : (after d store events).shared.cache.program? id = some p) :
    ∃ past rule, past <+: events ∧ (after d store past).shared.store.findById id = some rule ∧
      (compiledTexts d store events)[p.serial]? = some rule.source ∧
      d.engine.compile rule.source = .ok p.program ∧ Since d store past events id := by
  have hstart : Since d store [] events id := since_start hkeyed events
  obtain ⟨past, rule, -, hpast, hrule, htext, hcompile⟩ := hstart.program p hp
  refine ⟨past, rule, hpast, hrule, htext, hcompile, ?_, ?_⟩
  · intro q hq
    obtain rfl : p = q := Option.some.inj (hp.symm.trans hq)
    exact ⟨past, rule, List.prefix_refl _, hpast, hrule, htext, hcompile⟩
  · intro key l hl
    refine carriesSince_of_not_building ?_
    intro hbuilding
    rw [built_after hkeyed events key l id hl hbuilding] at hp
    cases hp

/-! ## Answers -/

/-- A program that a lookup by identifier answers with was in the cache at some moment
since the lookup was called for. -/
theorem cached_of_answer (hkeyed : store.Keyed) {mark : List Event} (hmark : mark <+: events)
    {n : Nat} (hn : (after d store mark).operations.length ≤ n) {l : Lookup π} {p : Compiled π}
    (hop : (after d store events).operations[n]? = some (.lookup (.id id) l))
    (hanswer : l.answered? = some p) :
    ∃ moment, mark <+: moment ∧ moment <+: events ∧
      (after d store moment).shared.cache.program? id = some p := by
  induction events using List.reverseRecOn generalizing l with
  | nil => cases hop
  | append_singleton recent event ih =>
      rcases List.prefix_concat_iff.mp hmark with rfl | hrecent
      · obtain ⟨hlt, -⟩ := List.getElem?_eq_some_iff.mp hop
        omega
      · have hlater : ∀ {l : Lookup π},
            (after d store recent).operations[n]? = some (.lookup (.id id) l) →
            l.answered? = some p → ∃ moment, mark <+: moment ∧ moment <+: recent ++ [event] ∧
              (after d store moment).shared.cache.program? id = some p := by
          intro l hop hanswer
          obtain ⟨moment, hmoment, hpast, hcached⟩ := ih hrecent hop hanswer
          exact ⟨moment, hmoment, hpast.trans (List.prefix_append _ _), hcached⟩
        rw [after_append_singleton] at hop
        rcases (move_next d (after d store recent) event).of_lookup hop with
          hold | rfl | ⟨before, hold, hstep⟩
        · exact hlater hold hanswer
        · rw [Lookup.answered?_start] at hanswer
          cases hanswer
        · have hof := (sound_after (d := d) hkeyed recent).faithful _ (List.mem_of_getElem? hold)
          rw [← after_append_singleton] at hstep
          rcases hstep.answered? hof hanswer with hbefore | hcached | hcached
          · exact hlater hold hbefore
          · exact ⟨recent, hrecent, List.prefix_append _ _, hcached⟩
          · exact ⟨_, hmark, List.prefix_refl _, hcached⟩

/-- Whether a program was compiled from the text of a number among those that a rule has
had. -/
def CompiledFrom (d : Deployment π τ) (store : MemoryStore) (events : List Event) (id : RuleId)
    (p : Compiled π) (k : Nat) : Prop :=
  ∃ text, (texts d store id events)[k]? = some text ∧
    (compiledTexts d store events)[p.serial]? = some text ∧
    d.engine.compile text = .ok p.program

theorem CompiledFrom.unique (hdistinct : (texts d store id events).Nodup) {p : Compiled π}
    {k j : Nat} (hk : CompiledFrom d store events id p k)
    (hj : CompiledFrom d store events id p j) : k = j := by
  obtain ⟨text, htext, hserial, -⟩ := hk
  obtain ⟨other, hother, hserial', -⟩ := hj
  obtain rfl : text = other := Option.some.inj (hserial.symm.trans hserial')
  obtain ⟨hlt, -⟩ := List.getElem?_eq_some_iff.mp htext
  exact (List.getElem?_inj hlt hdistinct).mp (htext.trans hother.symm)

/-- **Monotonic reads.**  In a run in which a rule never has the same text twice, a lookup
by its identifier has returned a program.  Then whatever program a lookup that begins
later returns, each of the two was compiled from one of the texts that the rule has had,
and the second not from an earlier one than the first. -/
theorem reads_monotone (d : Deployment π τ) (hkeyed : store.Keyed) {before events : List Event}
    (hbefore : before <+: events) (hdistinct : (texts d store id events).Nodup) {n m : Nat}
    {p q : Compiled π}
    (hfirst : (after d store before).operations[n]? = some (.lookup (.id id) (.done (.ok p))))
    (hlater : (after d store before).operations.length ≤ m)
    (hsecond : (after d store events).operations[m]? = some (.lookup (.id id) (.done (.ok q)))) :
    (∃ k, CompiledFrom d store events id p k) ∧ (∃ j, CompiledFrom d store events id q j) ∧
      ∀ k j, CompiledFrom d store events id p k → CompiledFrom d store events id q j → k ≤ j := by
  obtain ⟨moment, -, hmoment, hp⟩ :=
    cached_of_answer hkeyed (List.nil_prefix) (Nat.zero_le n) hfirst rfl
  obtain ⟨moment', hmoment', hevents, hq⟩ := cached_of_answer hkeyed hbefore hlater hsecond rfl
  obtain ⟨past, rule, hpast, hrule, htext, hcompile, hsince⟩ := since_of_cached hkeyed hp
  have hsince' := hsince.later hkeyed hpast (hmoment.trans hmoment')
  obtain ⟨past', rule', hnewer, hpast', hrule', htext', hcompile'⟩ := hsince'.program q hq
  have hfrom : CompiledFrom d store events id p ((texts d store id past).length - 1) :=
    ⟨rule.source, exists_texts hkeyed (hpast.trans (hmoment.trans hbefore)) hrule,
      compiledTexts_later (hmoment.trans hbefore) htext, hcompile⟩
  have hfrom' : CompiledFrom d store events id q ((texts d store id past').length - 1) :=
    ⟨rule'.source, exists_texts hkeyed (hpast'.trans hevents) hrule',
      compiledTexts_later hevents htext', hcompile'⟩
  refine ⟨⟨_, hfrom⟩, ⟨_, hfrom'⟩, ?_⟩
  intro k j hk hj
  rw [hk.unique hdistinct hfrom, hj.unique hdistinct hfrom']
  have hprefix : texts d store id past <+: texts d store id past' := texts_later hnewer
  have hlength := hprefix.length_le
  omega

/-- A rule is saved, and another text of it is written while a lookup compiles the first,
with which it returns before that text is invalidated. -/
def answeredMeanwhile : List Event :=
  List.flatten
    [[.call (.save (.new "door" "open") ⟨0, 0⟩)], List.replicate 6 (.step 0),
      [.call (.lookup (.id ⟨1⟩))], List.replicate 5 (.step 1),
      [.call (.save { Definition.new "door" "shut" with id := some ⟨1⟩ } ⟨1, 0⟩)],
      List.replicate 5 (.step 2), List.replicate 4 (.step 1)]

/-- Another lookup begins then.  It misses, since the first text is invalidated. -/
def answeredAgain : List Event :=
  List.flatten
    [answeredMeanwhile, [.call (.lookup (.id ⟨1⟩)), .step 2], List.replicate 9 (.step 3)]

theorem reads_monotone_answeredAgain :
    (texts .unread .empty ⟨1⟩ answeredAgain).Nodup ∧
      (after .unread .empty answeredMeanwhile).operations[1]? =
        some (.lookup (.id ⟨1⟩) (.done (.ok ⟨0, "open"⟩))) ∧
      (after .unread .empty answeredAgain).operations[3]? =
        some (.lookup (.id ⟨1⟩) (.done (.ok ⟨1, "shut"⟩))) ∧
      ∃ k j, CompiledFrom .unread .empty answeredAgain ⟨1⟩ ⟨0, "open"⟩ k ∧
        CompiledFrom .unread .empty answeredAgain ⟨1⟩ ⟨1, "shut"⟩ j ∧ k ≤ j := by
  have hbefore : answeredMeanwhile <+: answeredAgain := by simp [answeredAgain]
  have htexts : texts .unread .empty ⟨1⟩ answeredAgain = ["open", "shut"] := by decide +kernel
  have hdistinct : (texts .unread .empty ⟨1⟩ answeredAgain).Nodup := by
    rw [htexts]
    decide
  have hfirst : (after .unread .empty answeredMeanwhile).operations[1]? =
      some (.lookup (.id ⟨1⟩) (.done (.ok ⟨0, "open"⟩))) := rfl
  have hlater : (after .unread .empty answeredMeanwhile).operations.length ≤ 3 := by
    decide +kernel
  have hsecond : (after .unread .empty answeredAgain).operations[3]? =
      some (.lookup (.id ⟨1⟩) (.done (.ok ⟨1, "shut"⟩))) := by
    rw [answeredAgain, List.flatten_cons, after_append]
    rfl
  obtain ⟨⟨k, hk⟩, ⟨j, hj⟩, hle⟩ := reads_monotone .unread MemoryStore.keyed_empty hbefore
    hdistinct hfirst hlater hsecond
  exact ⟨hdistinct, hfirst, hsecond, k, j, hk, hj, hle k j hk hj⟩

end System

end Rulebook
