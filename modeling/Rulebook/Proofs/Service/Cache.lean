/-
  Proofs/Service/Cache.lean --- what the sections of the cache change.

  The cache is looked at in five ways: its entries of programs and of names, the
  generations, the epoch, how many lookups take part in a flight (`holders?`), and
  whether one of them has its lock (`locked`).
  For every section there is a lemma for each view that it changes; the views that it
  leaves alone are the same by definition.
-/
import Rulebook.Proofs.Table
import Rulebook.Service.Cache

set_option autoImplicit false

namespace Rulebook

namespace Cache

variable {π : Type} {c c' : Cache π} {id other : RuleId}

/-- How many lookups take part in the flight of a rule; none if it has no flight. -/
def holders? (c : Cache π) (id : RuleId) : Option Nat := (c.flights.get? id).map (·.holders)

theorem has_flight_iff : c.flights.has id = true ↔ c.holders? id ≠ none := by
  rw [holders?, Table.has, Option.isSome_iff_ne_none]
  exact not_congr Option.map_eq_none_iff.symm

/-! ## Invalidating -/

theorem mem_programs_invalidate {entry : RuleId × Compiled π} :
    entry ∈ (c.invalidate id).programs ↔ entry ∈ c.programs ∧ entry.1 ≠ id :=
  Table.mem_erase

theorem program?_invalidate (c : Cache π) (id other : RuleId) :
    (c.invalidate id).program? other = if id = other then none else c.program? other :=
  Table.get?_erase c.programs id other

theorem mem_names_invalidate {entry : String × RuleId} :
    entry ∈ (c.invalidate id).names ↔ entry ∈ c.names ∧ entry.2 ≠ id := by
  simp [invalidate]

/-- The generation of an invalidated rule rises while it has a flight. -/
theorem generation_invalidate_self (hflight : c.holders? id ≠ none) :
    (c.invalidate id).generation id = c.generation id + 1 := by
  have hhas : c.flights.has id = true := has_flight_iff.mpr hflight
  simp [invalidate, generation, hhas, Table.get?_put]

theorem generation_invalidate_of_ne (hne : other ≠ id) :
    (c.invalidate id).generation other = c.generation other := by
  simp only [invalidate, generation]
  split
  · rw [Table.get?_put, if_neg (Ne.symm hne)]
  · rw [Table.get?_erase, if_neg (Ne.symm hne)]

/-! ## Keeping and recording -/

/-- A program is kept only if its generation is still that of the rule. -/
theorem keep?_eq_some_iff {generation : Nat} {p : Compiled π} :
    c.keep? id generation p = some c' ↔
      c.generation id = generation ∧ c' = { c with programs := c.programs.put id p } := by
  unfold keep?
  split
  · rename_i h
    simp [h, eq_comm]
  · rename_i h
    simp [h]

/-- A name is recorded only if the epoch is still the same. -/
theorem mem_names_recordName {name : String} {epoch : Nat} {entry : String × RuleId}
    (h : entry ∈ (c.recordName name epoch id).names) :
    (entry = (name, id) ∧ c.epoch = epoch) ∨ entry ∈ c.names := by
  unfold recordName at h
  split at h
  · rename_i hguard
    simp only [Bool.and_eq_true, decide_eq_true_eq] at hguard
    exact (Table.mem_put h).imp_left fun heq => ⟨heq, hguard.1⟩
  · exact Or.inr h

theorem recordName_eq (c : Cache π) (name : String) (epoch : Nat) (id : RuleId) :
    c.recordName name epoch id = { c with names := (c.recordName name epoch id).names } := by
  unfold recordName
  split <;> rfl

/-! ## Flights -/

theorem holders?_join (c : Cache π) (id other : RuleId) :
    (c.join id).holders? other =
      if id = other then some ((c.holders? id).getD 0 + 1) else c.holders? other := by
  simp only [holders?, join, Table.get?_put]
  split
  · cases c.flights.get? id <;> rfl
  · rfl

theorem holders?_put_flight (c : Cache π) {f f' : Flight} (hf : c.flights.get? id = some f)
    (hsame : f'.holders = f.holders) (other : RuleId) :
    ({ c with flights := c.flights.put id f' } : Cache π).holders? other = c.holders? other := by
  simp only [holders?, Table.get?_put]
  split
  · rename_i hid
    subst hid
    rw [hf, Option.map_some, Option.map_some, hsame]
  · rfl

theorem holders?_acquire (h : c.acquire? id = some c') (other : RuleId) :
    c'.holders? other = c.holders? other := by
  unfold acquire? at h
  split at h
  · rename_i f hf
    split at h
    · simp at h
    · rw [← Option.some.inj h]
      refine holders?_put_flight c hf ?_ other
      rfl
  · simp at h

/-- Taking the lock of a flight changes nothing but the flight. -/
theorem acquire?_eq (h : c.acquire? id = some c') : c' = { c with flights := c'.flights } := by
  unfold acquire? at h
  split at h
  · split at h
    · simp at h
    · rw [← Option.some.inj h]
  · simp at h

theorem holders?_release (c : Cache π) (id other : RuleId) :
    (c.release id).holders? other = c.holders? other := by
  unfold release
  split
  · rename_i f hf
    refine holders?_put_flight c hf ?_ other
    rfl
  · rfl

theorem release_eq (c : Cache π) (id : RuleId) :
    c.release id = { c with flights := (c.release id).flights } := by
  unfold release
  split <;> rfl

/-- The flight ends with the last lookup that leaves. -/
theorem holders?_leave (c : Cache π) (id other : RuleId) :
    (c.leave id).holders? other =
      if id = other then
        (c.holders? id).bind fun n => if n ≤ 1 then none else some (n - 1)
      else c.holders? other := by
  unfold leave
  cases hf : c.flights.get? id with
  | none =>
      by_cases hid : id = other
      · subst hid
        simp [holders?, hf]
      · simp [hid]
  | some f =>
      by_cases hlast : f.holders ≤ 1
      · simp only [hlast, if_true, holders?, Table.get?_erase]
        split <;> simp [hf, hlast]
      · simp only [hlast, if_false, holders?, Table.get?_put]
        split <;> simp [hf, hlast]

theorem leave_eq (c : Cache π) (id : RuleId) :
    c.leave id = { c with flights := (c.leave id).flights } := by
  unfold leave
  split
  · split <;> rfl
  · rfl

theorem keys_acquire (h : c.acquire? id = some c') : c'.flights.keys = c.flights.keys := by
  unfold acquire? at h
  split at h
  · rename_i f hf
    split at h
    · cases h
    · obtain rfl := Option.some.inj h
      exact Table.keys_put_of_get? hf _
  · cases h

theorem keys_release (c : Cache π) (id : RuleId) :
    (c.release id).flights.keys = c.flights.keys := by
  unfold release
  split
  · rename_i f hf
    exact Table.keys_put_of_get? hf _
  · rfl

theorem keys_leave {n : Nat} (h : c.holders? id = some n) :
    (c.leave id).flights.keys =
      if n ≤ 1 then c.flights.keys.filter (· ≠ id) else c.flights.keys := by
  obtain ⟨f, hf, rfl⟩ := Option.map_eq_some_iff.mp h
  unfold leave
  simp only [hf]
  split
  · exact Table.keys_erase c.flights id
  · exact Table.keys_put_of_get? hf _

/-! ## Locks -/

/-- Whether the lock of the flight of a rule is held. -/
def locked (c : Cache π) (id : RuleId) : Bool := ((c.flights.get? id).map (·.locked)).getD false

theorem locked_put_flight (c : Cache π) (id other : RuleId) (f : Flight) :
    ({ c with flights := c.flights.put id f } : Cache π).locked other =
      if id = other then f.locked else c.locked other := by
  simp only [locked, Table.get?_put]
  split <;> rfl

theorem locked_join (c : Cache π) (id other : RuleId) :
    (c.join id).locked other = c.locked other := by
  rw [join, locked_put_flight]
  split
  · rename_i hid
    subst hid
    rw [locked]
    cases c.flights.get? id <;> rfl
  · rfl

theorem locked_acquire (h : c.acquire? id = some c') :
    c.locked id = false ∧
      ∀ other, c'.locked other = if id = other then true else c.locked other := by
  unfold acquire? at h
  split at h
  · rename_i f hf
    split at h
    · simp at h
    · rename_i hfree
      obtain rfl := Option.some.inj h
      refine ⟨?_, fun other => locked_put_flight c id other _⟩
      rw [locked, hf, Option.map_some, Option.getD_some]
      exact Bool.eq_false_iff.mpr hfree
  · simp at h

theorem acquire?_of_free (hflight : c.holders? id ≠ none) (hfree : c.locked id = false) :
    ∃ c', c.acquire? id = some c' := by
  unfold acquire?
  cases hf : c.flights.get? id with
  | none => simp [holders?, hf] at hflight
  | some f =>
      rw [locked, hf, Option.map_some, Option.getD_some] at hfree
      simp [hfree]

theorem locked_release (c : Cache π) (id other : RuleId) :
    (c.release id).locked other = if id = other then false else c.locked other := by
  unfold release
  cases hf : c.flights.get? id with
  | some f => exact locked_put_flight c id other _
  | none =>
      simp only
      split
      · rename_i hid
        subst hid
        rw [locked, hf]
        rfl
      · rfl

/-- A flight whose lock is free when it ends leaves no lock behind. -/
theorem locked_leave (hlast : (c.holders? id).getD 0 ≤ 1 → c.locked id = false)
    (other : RuleId) : (c.leave id).locked other = c.locked other := by
  unfold leave
  cases hf : c.flights.get? id with
  | none => rfl
  | some f =>
      simp only
      split
      · rename_i hholders
        by_cases hid : id = other
        · subst hid
          rw [hlast (by simpa [holders?, hf] using hholders), locked, Table.get?_erase, if_pos rfl]
          rfl
        · rw [locked, Table.get?_erase, if_neg hid, locked]
      · rw [locked_put_flight]
        split
        · rename_i hid
          subst hid
          rw [locked, hf]
          rfl
        · rfl

end Cache

end Rulebook
