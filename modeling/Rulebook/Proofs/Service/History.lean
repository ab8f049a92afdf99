/-
  Proofs/Service/History.lean --- who has written what.

  An operation has written a rule from its write to the store on, and is settled from
  its invalidation on.  Both last: what an operation has written at one moment of a run
  it has written at every later one.  A rule of the store changes only at the moment
  at which some operation comes to have written it, so it is the same at two moments
  with the same writers (`findById_of_past`).
-/
import Rulebook.Proofs.Service.Interleaving

set_option autoImplicit false

namespace Rulebook

/-- Replacing one element of a list changes a count by that element alone. -/
theorem countP_set_add {α : Type} {p : α → Bool} {l : List α} {n : Nat} {a : α}
    (ha : l[n]? = some a) (b : α) :
    (l.set n b).countP p + (if p a then 1 else 0) = l.countP p + (if p b then 1 else 0) := by
  obtain ⟨hn, rfl⟩ := List.getElem?_eq_some_iff.mp ha
  rw [List.countP_set hn]
  split
  · rename_i hp
    have hpos : 0 < l.countP p := List.countP_pos_iff.mpr ⟨l[n], List.getElem_mem hn, hp⟩
    omega
  · rfl

/-! ## Operations -/

namespace Operation

variable {π τ : Type} {d : Deployment π τ} {w w' : Shared MemoryStore π} {op op' : Operation π}
  {id : RuleId}

/-- The rule that an operation has written. -/
def written? (op : Operation π) : Option RuleId := op.pending?.or op.settled?

theorem pending?_of_settled? (h : op.settled? = some id) : op.pending? = none := by
  cases op with
  | lookup key l => rfl
  | save draft now s =>
      cases s <;> simp_all [settled?, pending?, Saving.settled?, Saving.pending?]
  | delete deleted x =>
      cases x <;> simp_all [settled?, pending?, Deleting.isSettled, Deleting.isPending]

theorem written?_of_settled? (h : op.settled? = some id) : op.written? = some id := by
  rw [written?, pending?_of_settled? h, Option.none_or, h]

theorem settled?_of_written? (h : op.written? = some id) (hpending : op.pending? ≠ some id) :
    op.settled? = some id := by
  unfold written? at h
  cases hp : op.pending? with
  | none => rwa [hp, Option.none_or] at h
  | some other =>
      rw [hp, Option.some_or] at h
      exact absurd (hp.trans h) hpending

theorem settled?_of_hasMutated (h : op.HasMutated id) : op.settled? = some id := by
  cases op with
  | lookup key l => exact h.elim
  | save draft now s =>
      cases s with
      | done answer =>
          cases answer with
          | ok saved => exact congrArg some h
          | error _ => exact h.elim
      | _ => exact h.elim
  | delete deleted x =>
      cases x with
      | done answer =>
          cases answer with
          | ok _ => exact congrArg some h
          | error _ => exact h.elim
      | _ => exact h.elim

theorem settled?_operation (r : Request) : (r.operation : Operation π).settled? = none := by
  cases r <;> rfl

theorem joined?_operation (r : Request) : (r.operation : Operation π).joined? = none := by
  cases r with
  | lookup key => cases key <;> rfl
  | save draft now => rfl
  | delete id => rfl

/-- What an operation has written it has written for good. -/
theorem Effect.written? (h : Effect d w op w' op') (hwritten : op.written? = some id) :
    op'.written? = some id := by
  cases h with
  | looked => simp [Operation.written?, pending?, settled?] at hwritten
  | quiet hstore hcache hpending hpending' hsettled =>
      rw [Operation.written?, hpending, Option.none_or] at hwritten
      rw [Operation.written?, hpending', Option.none_or, hsettled, hwritten]
  | saved hphase =>
      simp [Operation.written?, pending?, settled?, hphase] at hwritten
  | deleted hphase =>
      simp [Operation.written?, pending?, settled?, hphase] at hwritten
  | settled hpending hpending' hsettled hsettled' =>
      rw [Operation.written?, hpending, Option.some_or] at hwritten
      rw [Operation.written?, hpending', Option.none_or, hsettled', hwritten]

/-- An operation that is settled stays settled. -/
theorem Effect.settled? (h : Effect d w op w' op') (hop : op.settled? = some id) :
    op'.settled? = some id := by
  cases h with
  | looked => simp [Operation.settled?] at hop
  | quiet hstore hcache hpending hpending' hsettled => rw [hsettled, hop]
  | saved hphase => simp [Operation.settled?, hphase] at hop
  | deleted hphase => simp [Operation.settled?, hphase] at hop
  | settled hpending hpending' hsettled => simp [hsettled] at hop

/-- A rule of the store changes only when an operation comes to have written it. -/
theorem Effect.findById (h : Effect d w op w' op') (id : RuleId) :
    w'.store.findById id = w.store.findById id ∨
      (op.written? = none ∧ op'.written? = some id) := by
  cases h with
  | looked hstep => exact Or.inl (by rw [hstep.frame.1])
  | quiet hstore => exact Or.inl (by rw [hstore])
  | @saved draft stored now phase store written hphase hdraft hsave =>
      by_cases hid : id = written
      · subst hid
        refine Or.inr ⟨?_, rfl⟩
        simp [Operation.written?, pending?, Operation.settled?, hphase]
      · exact Or.inl (MemoryStore.findById_save_of_ne hsave hid)
  | @deleted deleted phase phase' hphase hphase' =>
      by_cases hid : deleted = id
      · subst hid
        refine Or.inr ⟨?_, ?_⟩
        · simp [Operation.written?, pending?, Operation.settled?, hphase]
        · simp [Operation.written?, pending?, hphase']
      · left
        show (w.store.delete deleted).1.findById id = w.store.findById id
        rw [MemoryStore.findById_delete, if_neg hid]
  | settled => exact Or.inl rfl

theorem Effect.keyed (h : Effect d w op w' op') (hkeyed : w.store.Keyed) : w'.store.Keyed := by
  cases h with
  | looked hstep => rwa [hstep.frame.1]
  | quiet hstore => rwa [hstore]
  | saved hphase hdraft hsave => exact hkeyed.save hsave
  | deleted => exact hkeyed.delete _
  | settled => exact hkeyed

/-- The size of a flight follows the operations that join and leave it. -/
theorem Effect.holders? (h : Effect d w op w' op') :
    (op'.joined? = op.joined? ∧ ∀ other, w'.cache.holders? other = w.cache.holders? other) ∨
      (∃ id, op.joined? = none ∧ op'.joined? = some id ∧ w'.cache = w.cache.join id) ∨
      (∃ id, op.joined? = some id ∧ op'.joined? = none ∧ w'.cache = w.cache.leave id) := by
  cases h with
  | looked hstep => exact hstep.holders?
  | quiet hstore hcache hpending hpending' hsettled hjoined hjoined' =>
      exact Or.inl ⟨hjoined'.trans hjoined.symm, fun other => by rw [hcache]⟩
  | saved => exact Or.inl ⟨rfl, fun _ => rfl⟩
  | deleted => exact Or.inl ⟨rfl, fun _ => rfl⟩
  | settled hpending hpending' hsettled hsettled' hjoined hjoined' =>
      exact Or.inl ⟨hjoined'.trans hjoined.symm, fun _ => rfl⟩

end Operation

/-! ## Systems -/

namespace System

variable {π τ : Type} {d : Deployment π τ} {s s' : System π} {id : RuleId} {n : Nat}

/-- Whether the operation of a number has written a rule. -/
def Wrote (s : System π) (n : Nat) (id : RuleId) : Prop :=
  ∃ op, s.operations[n]? = some op ∧ op.written? = some id

/-- Whether the operation of a number has written and invalidated a rule. -/
def Settled (s : System π) (n : Nat) (id : RuleId) : Prop :=
  ∃ op, s.operations[n]? = some op ∧ op.settled? = some id

/-- How many operations take part in the flight of a rule. -/
def joined (s : System π) (id : RuleId) : Nat := s.operations.countP (·.joined? = some id)

/-- The size that a flight shows: there is none without operations. -/
def holdersOf (joined : Nat) : Option Nat := if joined = 0 then none else some joined

theorem holdersOf_succ (k : Nat) : holdersOf (k + 1) = some ((holdersOf k).getD 0 + 1) := by
  cases k <;> rfl

theorem holdersOf_pred (k : Nat) :
    ((holdersOf (k + 1)).bind fun n => if n ≤ 1 then none else some (n - 1)) = holdersOf k := by
  cases k <;> rfl

/-- What holds of a system at every moment. -/
structure Sound (s : System π) : Prop where
  faithful : ∀ op ∈ s.operations, op.Faithful
  keyed : s.shared.store.Keyed
  /-- A rule has a flight exactly while some operation takes part in it. -/
  flights : ∀ id, s.shared.cache.holders? id = holdersOf (s.joined id)

theorem Settled.wrote (h : s.Settled n id) : s.Wrote n id := by
  obtain ⟨op, hop, hsettled⟩ := h
  exact ⟨op, hop, Operation.written?_of_settled? hsettled⟩

/-- What becomes of an operation. -/
theorem Move.getElem? (hmove : Move d s s') {op : Operation π} (hop : s.operations[n]? = some op) :
    ∃ op', s'.operations[n]? = some op' ∧
      (op' = op ∨ op.step d s.shared = some (s'.shared, op')) := by
  cases hmove with
  | idle => exact ⟨op, hop, Or.inl rfl⟩
  | invalidated => exact ⟨op, hop, Or.inl rfl⟩
  | called request =>
      obtain ⟨hlt, -⟩ := List.getElem?_eq_some_iff.mp hop
      exact ⟨op, by rw [List.getElem?_append_left hlt]; exact hop, Or.inl rfl⟩
  | @stepped m other op' w hother hstep =>
      by_cases hm : m = n
      · subst hm
        obtain rfl : other = op := Option.some.inj (hother.symm.trans hop)
        obtain ⟨hlt, -⟩ := List.getElem?_eq_some_iff.mp hop
        exact ⟨op', List.getElem?_set_self hlt, Or.inr hstep⟩
      · exact ⟨op, by rw [List.getElem?_set_ne hm]; exact hop, Or.inl rfl⟩

/-- Where an operation comes from. -/
theorem Move.of_getElem? (hmove : Move d s s') {op' : Operation π}
    (hop' : s'.operations[n]? = some op') :
    s.operations[n]? = some op' ∨
      (∃ request, op' = Request.operation request ∧ s'.shared = s.shared) ∨
      (∃ op, s.operations[n]? = some op ∧ op.step d s.shared = some (s'.shared, op')) := by
  cases hmove with
  | idle => exact Or.inl hop'
  | invalidated => exact Or.inl hop'
  | called request =>
      rw [List.getElem?_append] at hop'
      split at hop'
      · exact Or.inl hop'
      · have hnew : op' = request.operation := List.mem_singleton.mp (List.mem_of_getElem? hop')
        exact Or.inr (Or.inl ⟨request, hnew, rfl⟩)
  | @stepped m other op'' w hother hstep =>
      by_cases hm : m = n
      · subst hm
        obtain ⟨hlt, -⟩ := List.getElem?_eq_some_iff.mp hother
        obtain rfl : op'' = op' := Option.some.inj ((List.getElem?_set_self hlt).symm.trans hop')
        exact Or.inr (Or.inr ⟨other, hother, hstep⟩)
      · rw [List.getElem?_set_ne hm] at hop'
        exact Or.inl hop'

/-- Where a lookup comes from. -/
theorem Move.of_lookup (hmove : Move d s s') {key : RuleKey} {l' : Lookup π}
    (hop' : s'.operations[n]? = some (.lookup key l')) :
    s.operations[n]? = some (.lookup key l') ∨ l' = .start key ∨
      ∃ l, s.operations[n]? = some (.lookup key l) ∧ Lookup.Step d s.shared l s'.shared l' := by
  rcases hmove.of_getElem? hop' with hold | ⟨request, hnew, -⟩ | ⟨op, hop, hstep⟩
  · exact Or.inl hold
  · cases request with
    | lookup key =>
        obtain ⟨rfl, rfl⟩ := Operation.lookup.inj hnew
        exact Or.inr (Or.inl rfl)
    | save _ _ | delete _ => cases hnew
  · obtain ⟨l, rfl, hlook⟩ := Operation.of_step_lookup hstep
    exact Or.inr (Or.inr ⟨l, hop, hlook⟩)

/-- An operation of a number is one that was there, perhaps after a step, or a new one. -/
theorem Move.mem (hmove : Move d s s') {op' : Operation π} (hop' : op' ∈ s'.operations) :
    op' ∈ s.operations ∨ (∃ request, op' = Request.operation request) ∨
      (∃ op ∈ s.operations, op.step d s.shared = some (s'.shared, op')) := by
  obtain ⟨n, hn⟩ := List.mem_iff_getElem?.mp hop'
  rcases hmove.of_getElem? hn with hold | ⟨request, hnew, -⟩ | ⟨op, hop, hstep⟩
  · exact Or.inl (List.mem_of_getElem? hold)
  · exact Or.inr (Or.inl ⟨request, hnew⟩)
  · exact Or.inr (Or.inr ⟨op, List.mem_of_getElem? hop, hstep⟩)

theorem Sound.effect (h : s.Sound) {op op' : Operation π} {w : Shared MemoryStore π}
    (hop : s.operations[n]? = some op) (hstep : op.step d s.shared = some (w, op')) :
    op.Effect d s.shared w op' :=
  Operation.effect_of_step (h.faithful op (List.mem_of_getElem? hop)) hstep

/-- The lookups in a flight are counted by it through every move. -/
theorem Sound.flights_move (h : s.Sound) (hmove : Move d s s') (id : RuleId) :
    s'.shared.cache.holders? id = holdersOf (s'.joined id) := by
  have hflights := h.flights id
  cases hmove with
  | idle => exact hflights
  | invalidated => exact hflights
  | called request =>
      have hjoined : System.joined { s with operations := s.operations ++ [request.operation] } id
          = s.joined id := by
        simp [joined, Operation.joined?_operation]
      rw [hjoined]
      exact hflights
  | @stepped n op op' w hop hstep =>
      have hcount := countP_set_add (p := fun op => op.joined? = some id) hop op'
      change System.joined ⟨w, s.operations.set n op'⟩ id + _ = s.joined id + _ at hcount
      generalize System.joined ⟨w, s.operations.set n op'⟩ id = after at hcount ⊢
      rcases (h.effect hop hstep).holders? with ⟨hsame, hholders⟩ | ⟨other, hbefore, hafter, hcache⟩ |
        ⟨other, hbefore, hafter, hcache⟩
      · rw [hsame] at hcount
        obtain rfl : after = s.joined id := Nat.add_right_cancel hcount
        rw [hholders, hflights]
      · rw [hcache, Cache.holders?_join]
        by_cases hid : other = id
        · subst hid
          obtain rfl : after = s.joined other + 1 := by simpa [hbefore, hafter] using hcount
          rw [if_pos rfl, hflights, holdersOf_succ]
        · obtain rfl : after = s.joined id := by simpa [hbefore, hafter, hid] using hcount
          rw [if_neg hid, hflights]
      · rw [hcache, Cache.holders?_leave]
        by_cases hid : other = id
        · subst hid
          have hlast : after + 1 = s.joined other := by simpa [hbefore, hafter] using hcount
          rw [if_pos rfl, hflights, ← hlast, holdersOf_pred]
        · obtain rfl : after = s.joined id := by simpa [hbefore, hafter, hid] using hcount
          rw [if_neg hid, hflights]

theorem Sound.move (h : s.Sound) (hmove : Move d s s') : s'.Sound where
  faithful op hop := by
    rcases hmove.mem hop with hold | ⟨request, rfl⟩ | ⟨before, hbefore, hstep⟩
    · exact h.faithful op hold
    · exact request.faithful_operation
    · exact (h.faithful before hbefore).step hstep
  keyed := by
    cases hmove with
    | idle => exact h.keyed
    | called => exact h.keyed
    | invalidated => exact h.keyed
    | stepped hop hstep => exact (h.effect hop hstep).keyed h.keyed
  flights := h.flights_move hmove

theorem Sound.start {store : MemoryStore} (hkeyed : store.Keyed) :
    (after d store []).Sound where
  faithful _ hop := absurd hop List.not_mem_nil
  keyed := hkeyed
  flights _ := rfl

/-- A flight lasts while a lookup takes part in it. -/
theorem Sound.holders?_ne_none (h : s.Sound) {op : Operation π} (hop : op ∈ s.operations)
    (hjoined : op.joined? = some id) : s.shared.cache.holders? id ≠ none := by
  have hpos : 0 < s.joined id := List.countP_pos_iff.mpr ⟨op, hop, by simpa using hjoined⟩
  rw [h.flights, holdersOf, if_neg (Nat.ne_of_gt hpos)]
  exact Option.some_ne_none _

theorem Sound.wrote (h : s.Sound) (hmove : Move d s s') (hwrote : s.Wrote n id) :
    s'.Wrote n id := by
  obtain ⟨op, hop, hwritten⟩ := hwrote
  obtain ⟨op', hop', rfl | hstep⟩ := hmove.getElem? hop
  · exact ⟨op', hop', hwritten⟩
  · exact ⟨op', hop', (h.effect hop hstep).written? hwritten⟩

theorem Sound.settled (h : s.Sound) (hmove : Move d s s') (hsettled : s.Settled n id) :
    s'.Settled n id := by
  obtain ⟨op, hop, hid⟩ := hsettled
  obtain ⟨op', hop', rfl | hstep⟩ := hmove.getElem? hop
  · exact ⟨op', hop', hid⟩
  · exact ⟨op', hop', (h.effect hop hstep).settled? hid⟩

/-- A rule of the store changes only when some operation comes to have written it. -/
theorem Sound.findById (h : s.Sound) (hmove : Move d s s') (id : RuleId) :
    s'.shared.store.findById id = s.shared.store.findById id ∨
      ∃ n, ¬ s.Wrote n id ∧ s'.Wrote n id := by
  cases hmove with
  | idle => exact Or.inl rfl
  | called => exact Or.inl rfl
  | invalidated => exact Or.inl rfl
  | @stepped n op op' w hop hstep =>
      rcases (h.effect hop hstep).findById id with hsame | ⟨hbefore, hafter⟩
      · exact Or.inl hsame
      · refine Or.inr ⟨n, ?_, op', ?_, hafter⟩
        · rintro ⟨other, hother, hwritten⟩
          obtain rfl : op = other := Option.some.inj (hop.symm.trans hother)
          simp [hbefore] at hwritten
        · obtain ⟨hlt, -⟩ := List.getElem?_eq_some_iff.mp hop
          exact List.getElem?_set_self hlt

/-! ## Runs -/

variable {store : MemoryStore} {events past : List Event}

theorem sound_after (hkeyed : store.Keyed) (events : List Event) :
    (after d store events).Sound := by
  induction events using List.reverseRecOn with
  | nil => exact .start hkeyed
  | append_singleton past event ih =>
      rw [after_append_singleton]
      exact ih.move (move_next d _ event)

theorem Wrote.later (hkeyed : store.Keyed) (hpast : past <+: events)
    (h : (after d store past).Wrote n id) : (after d store events).Wrote n id := by
  induction events using List.reverseRecOn with
  | nil => rwa [List.prefix_nil.mp hpast] at h
  | append_singleton recent event ih =>
      rcases List.prefix_concat_iff.mp hpast with rfl | hrecent
      · exact h
      · rw [after_append_singleton]
        exact (sound_after hkeyed recent).wrote (move_next d _ event) (ih hrecent)

theorem Settled.later (hkeyed : store.Keyed) (hpast : past <+: events)
    (h : (after d store past).Settled n id) : (after d store events).Settled n id := by
  induction events using List.reverseRecOn with
  | nil => rwa [List.prefix_nil.mp hpast] at h
  | append_singleton recent event ih =>
      rcases List.prefix_concat_iff.mp hpast with rfl | hrecent
      · exact h
      · rw [after_append_singleton]
        exact (sound_after hkeyed recent).settled (move_next d _ event) (ih hrecent)

/-- A rule that no more operations have written is the same as before. -/
theorem findById_of_past (hkeyed : store.Keyed) (hpast : past <+: events)
    (hwrote : ∀ n, (after d store events).Wrote n id → (after d store past).Wrote n id) :
    (after d store events).shared.store.findById id =
      (after d store past).shared.store.findById id := by
  induction events using List.reverseRecOn with
  | nil => rw [List.prefix_nil.mp hpast]
  | append_singleton recent event ih =>
      rcases List.prefix_concat_iff.mp hpast with rfl | hrecent
      · rfl
      · rw [after_append_singleton] at hwrote ⊢
        have hsound := sound_after (d := d) hkeyed recent
        have hmove := move_next d (after d store recent) event
        rw [← ih hrecent fun n h => hwrote n (hsound.wrote hmove h)]
        rcases hsound.findById hmove id with hsame | ⟨n, hbefore, hafter⟩
        · exact hsame
        · exact absurd (Wrote.later hkeyed hrecent (hwrote n hafter)) hbefore

end System

end Rulebook
