/-
  Proofs/Service/Retirement.lean --- identifiers are not given twice.

  A new rule gets the number after all that were given out, so a run that has not used
  up the numbers never gives one twice.  A deletion that got as far as to find its rule
  is one of a number that was given out; and an update needs the rule to be there.  So
  what a deletion has deleted stays deleted, whatever comes in between (`Retired`).
-/
import Rulebook.Proofs.Service.History

set_option autoImplicit false

namespace Rulebook

/-- Whether a deletion has found its rule. -/
def Deleting.hasFound : Deleting → Bool
  | .remove _ _ | .invalidate _ _ | .unlock (.ok _) | .done (.ok _) => true
  | _ => false

theorem Deleting.hasFound_of_step {π : Type} {w w' : Shared MemoryStore π} {id : RuleId}
    {x x' : Deleting} (hof : x.IsOf id) (h : x.step w = some (w', x'))
    (hfound : x'.hasFound = true) :
    x.hasFound = true ∨ ∃ rule, w.store.findById id = some rule := by
  cases x with
  | lock other =>
      simp only [step] at h
      split at h
      · simp at h
      · obtain ⟨-, rfl⟩ := Prod.mk.inj (Option.some.inj h)
        simp [hasFound] at hfound
  | find other =>
      obtain rfl : other = id := hof
      simp only [step] at h
      split at h <;> obtain ⟨-, rfl⟩ := Prod.mk.inj (Option.some.inj h)
      · simp [hasFound] at hfound
      · simp [hasFound] at hfound
      · rename_i rule hrule
        exact Or.inr ⟨rule, Except.ok.inj hrule⟩
  | remove _ _ | invalidate _ _ => exact Or.inl rfl
  | unlock answer =>
      obtain ⟨-, rfl⟩ := Prod.mk.inj (Option.some.inj h)
      cases answer with
      | ok _ => exact Or.inl rfl
      | error _ => simp [hasFound] at hfound
  | done _ => simp [step] at h

/-! ## Numbers -/

namespace Operation

variable {π τ : Type} {d : Deployment π τ} {w w' : Shared MemoryStore π} {op op' : Operation π}

theorem of_step_delete {id : RuleId} {x' : Deleting}
    (h : op.step d w = some (w', .delete id x')) :
    ∃ x, op = .delete id x ∧ x.step w = some (w', x') := by
  cases op with
  | delete id x =>
      obtain ⟨next, hnext, heq⟩ := Option.map_eq_some_iff.mp h
      obtain ⟨rfl, hop⟩ := Prod.mk.inj heq
      obtain ⟨rfl, rfl⟩ := Operation.delete.inj hop
      exact ⟨x, rfl, hnext⟩
  | lookup key l =>
      obtain ⟨next, -, heq⟩ := Option.map_eq_some_iff.mp h
      simp at heq
  | save draft now x =>
      obtain ⟨next, -, heq⟩ := Option.map_eq_some_iff.mp h
      simp at heq

/-- Whether an operation has given out an identifier. -/
def inserted (op : Operation π) : Bool := op.request.isInsert && op.written?.isSome

theorem inserted_eq (hrequest : op'.request = op.request)
    (hwritten : op'.written?.isSome = op.written?.isSome) : op'.inserted = op.inserted := by
  rw [inserted, hrequest, hwritten, inserted]

/-- An operation that gives out an identifier gives out the next one, and none brings a
rule back that is not there. -/
theorem Effect.numbered (h : Effect d w op w' op') (hrequest : op'.request = op.request) {n : Nat}
    (hnumbered : w.store.Numbered n)
    (hroom : n + (if op'.inserted then 1 else 0) ≤
      UInt64.size + (if op.inserted then 1 else 0)) :
    ∃ n', n' + (if op.inserted then 1 else 0) = n + (if op'.inserted then 1 else 0) ∧
      n ≤ n' ∧ w'.store.Numbered n' ∧
      ∀ id : RuleId, id.val.toNat < n → w.store.findById id = none →
        w'.store.findById id = none := by
  cases h with
  | looked hstep =>
      rw [hstep.frame.1]
      exact ⟨n, rfl, Nat.le_refl n, hnumbered, fun _ _ hnone => hnone⟩
  | quiet hstore hcache hpending hpending' hsettled =>
      have hwritten : op'.written? = op.written? := by
        rw [Operation.written?, hpending', hsettled, Operation.written?, hpending]
      rw [inserted_eq hrequest (congrArg Option.isSome hwritten), hstore]
      exact ⟨n, rfl, Nat.le_refl n, hnumbered, fun _ _ hnone => hnone⟩
  | settled hpending hpending' hsettled hsettled' =>
      have hwritten : op'.written?.isSome = op.written?.isSome := by
        rw [Operation.written?, hpending', hsettled', Operation.written?, hpending]
        rfl
      rw [inserted_eq hrequest hwritten]
      exact ⟨n, rfl, Nat.le_refl n, hnumbered, fun _ _ hnone => hnone⟩
  | @deleted id phase phase' =>
      refine ⟨n, rfl, Nat.le_refl n, hnumbered.delete id, ?_⟩
      intro other _ hnone
      show (w.store.delete id).1.findById other = none
      rw [MemoryStore.findById_delete, hnone, ite_self]
  | @saved draft stored now phase store id hphase hdraft hsave =>
      have hbefore : (Operation.save (π := π) draft now phase).inserted = false := by
        simp [inserted, Operation.written?, pending?, Operation.settled?, hphase]
      have hafter : (Operation.save (π := π) draft now (.invalidate id)).inserted =
          stored.id.isNone := by
        simp [inserted, request, Request.isInsert, hdraft, Operation.written?, pending?,
          Saving.pending?]
      rw [hbefore, hafter] at hroom ⊢
      have hn : stored.id = none → n < UInt64.size := by
        intro hnone
        simp [hnone] at hroom
        omega
      rcases hnumbered.save hsave hn with ⟨hinsert, hid, hnext⟩ | ⟨hupdate, hid, hnext⟩
      · refine ⟨n + 1, by simp [hinsert], Nat.le_succ n, hnext, ?_⟩
        intro other hlt hnone
        have hne : other ≠ id := by
          rintro rfl
          omega
        rwa [← MemoryStore.findById_save_of_ne hsave hne] at hnone
      · refine ⟨n, by simp [hupdate], Nat.le_refl n, hnext, ?_⟩
        intro other _ hnone
        have hne : other ≠ id := by
          rintro rfl
          obtain ⟨-, -, -, -, -, hcases⟩ := MemoryStore.save_cases hsave
          rcases hcases with ⟨-, ⟨r, hr⟩, -⟩ | ⟨hinsert, -⟩
          · simp [hnone] at hr
          · simp [hupdate] at hinsert
        rwa [← MemoryStore.findById_save_of_ne hsave hne] at hnone

end Operation

/-! ## Deleted rules -/

namespace System

variable {π τ : Type} {d : Deployment π τ} {s s' : System π} {first : Nat}

/-- How many identifiers were given out. -/
def inserted (s : System π) : Nat := s.operations.countP Operation.inserted

/-- How many new rules were called for. -/
def inserts (s : System π) : Nat := s.operations.countP (·.request.isInsert)

/-- What was deleted was given out before, and is gone. -/
structure Retired (first : Nat) (s : System π) : Prop where
  numbered : s.shared.store.Numbered (first + s.inserted)
  known : ∀ id x, .delete id x ∈ s.operations → x.hasFound = true →
    id.val.toNat < first + s.inserted
  gone : ∀ id x, .delete id x ∈ s.operations → (Operation.delete (π := π) id x).written? = some id →
    s.shared.store.findById id = none

theorem inserted_le_inserts (s : System π) : s.inserted ≤ s.inserts := by
  apply List.countP_mono_left
  intro op _ hop
  simp only [Operation.inserted, Bool.and_eq_true] at hop
  exact hop.1

theorem hasFound_of_written? {id other : RuleId} {x : Deleting}
    (h : (Operation.delete (π := π) id x).written? = some other) : x.hasFound = true := by
  cases x with
  | invalidate _ _ => rfl
  | unlock answer | done answer =>
      cases answer with
      | ok _ => rfl
      | error _ => simp [Operation.written?, Operation.pending?, Operation.settled?,
          Deleting.isPending, Deleting.isSettled] at h
  | _ => simp [Operation.written?, Operation.pending?, Operation.settled?,
      Deleting.isPending, Deleting.isSettled] at h

/-- A deletion that has written has deleted its rule just now or before. -/
theorem gone_of_step {id : RuleId} {x x' : Deleting} {w w' : Shared MemoryStore π}
    (hof : x.IsOf id) (hstep : x.step w = some (w', x'))
    (hgone : (Operation.delete (π := π) id x).written? = some id → w.store.findById id = none)
    (hwritten : (Operation.delete (π := π) id x').written? = some id) :
    w'.store.findById id = none := by
  rcases (Deleting.step_cases hof hstep).2 with ⟨hstore, -, hpending, hpending', hsettled⟩ |
    ⟨-, -, rfl, -, -⟩ | ⟨hpending, -, rfl, -, -⟩
  · rw [hstore]
    refine hgone ?_
    simpa [Operation.written?, Operation.pending?, Operation.settled?, hpending, hpending',
      hsettled] using hwritten
  · show (w.store.delete id).1.findById id = none
    rw [MemoryStore.findById_delete, if_pos rfl]
  · exact hgone (by simp [Operation.written?, Operation.pending?, hpending])

theorem Retired.stepped (hsound : s.Sound) (h : s.Retired first) {n : Nat} {op op' : Operation π}
    {w : Shared MemoryStore π} (hop : s.operations[n]? = some op)
    (hstep : op.step d s.shared = some (w, op'))
    (hroom : first + System.inserted ⟨w, s.operations.set n op'⟩ ≤ UInt64.size) :
    Retired first ⟨w, s.operations.set n op'⟩ := by
  have hmem : op ∈ s.operations := List.mem_of_getElem? hop
  have heffect := hsound.effect hop hstep
  have hcount : System.inserted ⟨w, s.operations.set n op'⟩ + (if op.inserted then 1 else 0) =
      s.inserted + (if op'.inserted then 1 else 0) := countP_set_add hop op'
  obtain ⟨n', hn', hle, hnumbered, hgone⟩ :=
    heffect.numbered (Operation.request_of_step hstep) h.numbered (by omega)
  obtain rfl : n' = first + System.inserted ⟨w, s.operations.set n op'⟩ := by omega
  refine ⟨hnumbered, ?_, ?_⟩
  · intro id x' hx' hfound
    refine Nat.lt_of_lt_of_le ?_ hle
    rcases List.mem_or_eq_of_mem_set hx' with hold | rfl
    · exact h.known id x' hold hfound
    · obtain ⟨x, rfl, hx⟩ := Operation.of_step_delete hstep
      rcases Deleting.hasFound_of_step (hsound.faithful _ hmem) hx hfound with hbefore | ⟨rule, hrule⟩
      · exact h.known id x hmem hbefore
      · exact h.numbered.lt_next _ (MemoryStore.mem_of_findById hrule)
  · intro id x' hx' hwritten
    rcases List.mem_or_eq_of_mem_set hx' with hold | rfl
    · exact hgone id (h.known id x' hold (hasFound_of_written? hwritten)) (h.gone id x' hold hwritten)
    · obtain ⟨x, rfl, hx⟩ := Operation.of_step_delete hstep
      exact gone_of_step (hsound.faithful _ hmem) hx (h.gone id x hmem) hwritten

theorem Retired.called (h : s.Retired first) (request : Request) :
    Retired first { s with operations := s.operations ++ [request.operation] } := by
  have hnew : (request.operation : Operation π).inserted = false := by
    cases request <;> simp [Operation.inserted, Operation.written?, Operation.pending?,
      Operation.settled?, Request.operation, Saving.pending?, Saving.settled?, Deleting.isPending,
      Deleting.isSettled]
  have hsame : System.inserted { s with operations := s.operations ++ [request.operation] } =
      s.inserted := by
    simp [inserted, hnew]
  have hold : ∀ id x, .delete id x ∈ s.operations ++ [request.operation] → x.hasFound = true →
      .delete id x ∈ s.operations := by
    intro id x hx hfound
    rcases List.mem_append.mp hx with hold | hlast
    · exact hold
    · cases request with
      | delete other =>
          obtain ⟨rfl, rfl⟩ := Operation.delete.inj (List.mem_singleton.mp hlast)
          simp [Deleting.hasFound] at hfound
      | lookup _ => simp [Request.operation] at hlast
      | save _ _ => simp [Request.operation] at hlast
  refine ⟨?_, ?_, ?_⟩
  · rw [hsame]
    exact h.numbered
  · intro id x hx hfound
    rw [hsame]
    exact h.known id x (hold id x hx hfound) hfound
  · intro id x hx hwritten
    exact h.gone id x (hold id x hx (hasFound_of_written? hwritten)) hwritten

/-- As long as the numbers are not used up, what was deleted stays deleted. -/
theorem retired_after {store : MemoryStore} (hkeyed : store.Keyed) (hnumbered : store.Numbered first)
    (events : List Event) (hroom : first + (after d store events).inserts ≤ UInt64.size) :
    (after d store events).Retired first := by
  induction events using List.reverseRecOn with
  | nil => exact ⟨hnumbered, fun _ _ h => absurd h List.not_mem_nil,
      fun _ _ h => absurd h List.not_mem_nil⟩
  | append_singleton past event ih =>
      rw [after_append_singleton] at hroom ⊢
      have hsound := sound_after (d := d) hkeyed past
      generalize after d store past = s at hroom hsound ih ⊢
      have hmove := move_next d s event
      generalize s.next d event = s' at hmove hroom ⊢
      cases hmove with
      | idle => exact ih hroom
      | invalidated id =>
          have hbefore := ih hroom
          exact ⟨hbefore.numbered, hbefore.known, hbefore.gone⟩
      | called request =>
          have hgrows : s.inserts ≤
              System.inserts { s with operations := s.operations ++ [request.operation] } := by
            simp [inserts]
          exact (ih (by omega)).called request
      | @stepped n op op' w hop hstep =>
          have hsame : System.inserts ⟨w, s.operations.set n op'⟩ = s.inserts := by
            have hcount := countP_set_add (p := fun op => op.request.isInsert) hop op'
            rw [Operation.request_of_step hstep] at hcount
            exact Nat.add_right_cancel hcount
          have hbound := inserted_le_inserts ⟨w, s.operations.set n op'⟩
          exact (ih (by omega)).stepped hsound hop hstep (by omega)

end System

end Rulebook
