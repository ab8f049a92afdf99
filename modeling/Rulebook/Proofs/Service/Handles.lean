/-
  Proofs/Service/Handles.lean --- flights as locks that are shared by handles.

  The cache says of a flight how many lookups take part and whether its lock is held.  Here
  the map of flights has a lock under the identifier of a rule, and every lookup that takes
  part has a handle of a lock: the one that it found in the map, or a new one that it put
  there.  It waits for the lock that it has a handle of, whatever the map says by then.  When
  it leaves, it takes the entry out of the map if the entry has its lock and there is no
  handle of it left but these two.

  That an entry is not taken out too early, nor left behind, is that the two are the same
  (`system_after`): whoever takes part in a flight has a handle of the lock that the map has
  for the rule, so the handles of the lock are counted by the flight.
-/
import Rulebook.Proofs.Service.Progress

set_option autoImplicit false

namespace Rulebook

/-- A lock, by its number among all that were made. -/
abbrev Lock := Nat

/-! ## Handles -/

/-- The locks of flights, and who has a handle of which. -/
structure Handles where
  /-- The map of flights: a lock for each rule that has one. -/
  locks : Table RuleId Lock
  /-- The lock that each operation has a handle of, in the order of the operations. -/
  taken : List (Option Lock)
  /-- The locks that are held. -/
  held : List Lock
  /-- The number of the next lock. -/
  fresh : Lock

namespace Handles

/-- No locks. -/
def start : Handles := ⟨[], [], [], 0⟩

/-- How many handles of a lock there are, the ones in the map among them. -/
def strong (h : Handles) (lock : Lock) : Nat :=
  h.locks.countP (·.2 = lock) + h.taken.countP (· = some lock)

/-- The lock that the operation of a number has a handle of. -/
def handle? (h : Handles) (n : Nat) : Option Lock := h.taken[n]?.join

/-- Take a handle of the lock of a rule, which is made if there is none. -/
def take (h : Handles) (n : Nat) (id : RuleId) : Handles :=
  match h.locks.get? id with
  | some lock => { h with taken := h.taken.set n (some lock) }
  | none =>
    { h with
      locks := h.locks.put id h.fresh
      taken := h.taken.set n (some h.fresh)
      fresh := h.fresh + 1 }

/-- Take the lock that an operation has a handle of; none while it is held. -/
def acquire? (h : Handles) (n : Nat) : Option Handles :=
  match h.handle? n with
  | some lock => if lock ∈ h.held then none else some { h with held := lock :: h.held }
  | none => none

/-- Give the lock back that an operation has a handle of. -/
def release (h : Handles) (n : Nat) : Handles :=
  match h.handle? n with
  | some lock => { h with held := h.held.filter (· ≠ lock) }
  | none => h

/-- Give a handle back, and take the lock out of the map if this and the one in the map are
the last. -/
def drop (h : Handles) (n : Nat) (id : RuleId) : Handles :=
  match h.handle? n with
  | some lock =>
    let last := h.strong lock = 2 ∧ h.locks.get? id = some lock
    { h with
      locks := if last then h.locks.erase id else h.locks
      taken := h.taken.set n none }
  | none => h

/-- The flights that the handles make up: all handles of a lock but the one in the map are
of lookups that take part. -/
def flights (h : Handles) : Table RuleId Flight :=
  h.locks.map fun entry => (entry.1, ⟨h.strong entry.2 - 1, entry.2 ∈ h.held⟩)

end Handles

/-- A system in which lookups take part in flights by handles. -/
structure Handled (π : Type) where
  /-- The system, with the flights that the handles make up. -/
  system : System π
  /-- The handles. -/
  handles : Handles

namespace Handled

variable {π τ : Type}

/-- The operation of a number goes on after a change of the handles. -/
def turn (s : Handled π) (n : Nat) (op : Operation π) (h : Handles) : Handled π where
  system :=
    ⟨{ s.system.shared with cache := { s.system.shared.cache with flights := h.flights } },
      s.system.operations.set n op⟩
  handles := h

/-- The system after one more event. -/
def next (d : Deployment π τ) (s : Handled π) : Event → Handled π
  | .call request =>
    ⟨s.system.next d (.call request), { s.handles with taken := s.handles.taken ++ [none] }⟩
  | .invalidate id => ⟨s.system.next d (.invalidate id), s.handles⟩
  | .step n =>
    match s.system.operations[n]? with
    | some (.lookup key (.join id)) =>
      s.turn n (.lookup key (.acquire id)) (s.handles.take n id)
    | some (.lookup key (.acquire id)) =>
      match s.handles.acquire? n with
      | some h => s.turn n (.lookup key (.check id)) h
      | none => s
    | some (.lookup key (.release id answer)) =>
      s.turn n (.lookup key (.leave id answer)) (s.handles.release n)
    | some (.lookup key (.leave id answer)) =>
      s.turn n (.lookup key (.done answer)) (s.handles.drop n id)
    | _ => ⟨s.system.next d (.step n), s.handles⟩

/-- The system after a schedule, over a store and with nothing cached before. -/
def after (d : Deployment π τ) (store : MemoryStore) (events : List Event) : Handled π :=
  events.foldl (next d) ⟨⟨.start store, []⟩, .start⟩

end Handled

/-! ## Who has which handle -/

/-- The lock that a map has for the rule in whose flight an operation takes part. -/
def Operation.lock? {π : Type} (locks : Table RuleId Lock) (op : Operation π) : Option Lock :=
  op.joined?.bind locks.get?

namespace Handles

variable {π τ : Type} {d : Deployment π τ} {handles : Handles} {s : System π} {n : Nat}
  {id : RuleId} {lock : Lock}

/-- Handles and flights say the same: each operation has a handle of the lock that the map
has for its flight. -/
structure Agrees (handles : Handles) (s : System π) : Prop where
  /-- The map has one lock for a rule. -/
  ids : handles.locks.keys.Nodup
  /-- Different rules have different locks. -/
  distinct : (handles.locks.map Prod.snd).Nodup
  made : ∀ entry ∈ handles.locks, entry.2 < handles.fresh
  heldMade : ∀ lock ∈ handles.held, lock < handles.fresh
  taken : handles.taken = s.operations.map (Operation.lock? handles.locks)
  keys : handles.locks.keys = s.shared.cache.flights.keys
  locked : ∀ id lock, handles.locks.get? id = some lock →
    s.shared.cache.locked id = decide (lock ∈ handles.held)

theorem Agrees.start (store : MemoryStore) : start.Agrees (System.after d store []) where
  ids := List.nodup_nil
  distinct := List.nodup_nil
  made _ hmem := absurd hmem List.not_mem_nil
  heldMade _ hmem := absurd hmem List.not_mem_nil
  taken := rfl
  keys := rfl
  locked _ _ hlock := by cases hlock

/-- The map has a lock for a rule exactly while some operation takes part in its flight. -/
theorem Agrees.get?_eq_none_iff (h : handles.Agrees s) (hsound : s.Sound) :
    handles.locks.get? id = none ↔ s.joined id = 0 := by
  rw [Table.get?_eq_none_iff, h.keys, ← Table.get?_eq_none_iff, ← Option.map_eq_none_iff]
  change s.shared.cache.holders? id = none ↔ _
  rw [hsound.flights, System.holdersOf]
  split <;> simp_all

/-- Who takes part in a flight has a handle of the lock that the map has for it. -/
theorem Agrees.handle? (h : handles.Agrees s) (hsound : s.Sound) {op : Operation π}
    (hop : s.operations[n]? = some op) (hjoined : op.joined? = some id) :
    ∃ lock, handles.locks.get? id = some lock ∧ handles.handle? n = some lock := by
  have hpos : s.joined id ≠ 0 := by
    have hcount : 0 < s.joined id :=
      List.countP_pos_iff.mpr ⟨op, List.mem_of_getElem? hop, by simpa using hjoined⟩
    omega
  obtain ⟨lock, hlock⟩ := Option.ne_none_iff_exists'.mp
    (fun hnone => hpos ((h.get?_eq_none_iff hsound).mp hnone))
  refine ⟨lock, hlock, ?_⟩
  rw [Handles.handle?, h.taken, List.getElem?_map, hop]
  simp [Operation.lock?, hjoined, hlock]

/-- A lock belongs to one rule. -/
theorem Agrees.id_eq (h : handles.Agrees s) {other : RuleId}
    (hlock : handles.locks.get? id = some lock) (hother : handles.locks.get? other = some lock) :
    id = other :=
  (Prod.mk.inj (List.inj_on_of_nodup_map h.distinct (Table.mem_of_get? hlock)
    (Table.mem_of_get? hother) rfl)).1

/-- The handles of a lock are the one in the map and those of the operations that take part
in the flight. -/
theorem Agrees.strong (h : handles.Agrees s) (hlock : handles.locks.get? id = some lock) :
    handles.strong lock = 1 + s.joined id := by
  have hmap : handles.locks.countP (·.2 = lock) = 1 := by
    have hmem : lock ∈ handles.locks.map Prod.snd :=
      List.mem_map.mpr ⟨_, Table.mem_of_get? hlock, rfl⟩
    rw [← List.count_eq_one_of_mem h.distinct hmem, List.count, List.countP_map]
    rfl
  have htaken : handles.taken.countP (· = some lock) = s.joined id := by
    rw [h.taken, List.countP_map, System.joined]
    apply List.countP_congr
    intro op _
    simp only [Function.comp_apply, decide_eq_true_eq]
    constructor
    · intro hop
      obtain ⟨other, hjoined, hother⟩ := Option.bind_eq_some_iff.mp hop
      rw [hjoined, h.id_eq hlock hother]
    · intro hjoined
      rw [Operation.lock?, hjoined, Option.bind_some, hlock]
  rw [Handles.strong, hmap, htaken]

/-- The handles make up the flights that the cache counts. -/
theorem Agrees.flights (h : handles.Agrees s) (hsound : s.Sound) :
    handles.flights = s.shared.cache.flights := by
  have hkeys : Table.keys handles.flights = handles.locks.keys := by
    simp [Handles.flights, Table.keys]
  refine Table.eq_of_keys (hkeys ▸ h.ids) (hkeys.trans h.keys) ?_
  intro id
  rw [Handles.flights,
    Table.get?_map _ fun lock => Flight.mk (handles.strong lock - 1) (lock ∈ handles.held)]
  cases hlock : handles.locks.get? id with
  | none =>
      rw [Table.get?_eq_none_iff, h.keys] at hlock
      exact (Table.get?_eq_none_iff.mpr hlock).symm
  | some lock =>
      have hjoined : s.joined id ≠ 0 := by
        rw [Ne, ← h.get?_eq_none_iff hsound, hlock]
        exact Option.some_ne_none _
      have hholders := hsound.flights id
      have hlocked := h.locked id lock hlock
      rw [System.holdersOf, if_neg hjoined] at hholders
      obtain ⟨flight, hflight, hcount⟩ := Option.map_eq_some_iff.mp hholders
      rw [Cache.locked, hflight] at hlocked
      rw [Option.map_some, hflight, h.strong hlock, Nat.add_sub_cancel_left, ← hcount]
      exact congrArg some (congrArg (Flight.mk flight.holders) hlocked.symm)

/-! ## Steps that leave flights alone -/

/-- What changes neither flights nor who takes part in them leaves the handles alone. -/
theorem Agrees.same (h : handles.Agrees s) {s' : System π}
    (hflights : s'.shared.cache.flights = s.shared.cache.flights)
    (htaken : s'.operations.map (Operation.lock? handles.locks) =
      s.operations.map (Operation.lock? handles.locks)) : handles.Agrees s' where
  ids := h.ids
  distinct := h.distinct
  made := h.made
  heldMade := h.heldMade
  taken := h.taken.trans htaken.symm
  keys := by rw [hflights, h.keys]
  locked id lock hlock := by rw [Cache.locked, hflights, ← Cache.locked, h.locked id lock hlock]

theorem Agrees.called (h : handles.Agrees s) (request : Request) :
    Agrees { handles with taken := handles.taken ++ [none] }
      { s with operations := s.operations ++ [request.operation] } where
  ids := h.ids
  distinct := h.distinct
  made := h.made
  heldMade := h.heldMade
  taken := by simp [h.taken, Operation.lock?, Operation.joined?_operation]
  keys := h.keys
  locked := h.locked

end Handles

/-- Whether the next step of a lookup is one of those by which it takes part in a flight. -/
def Lookup.handles {π : Type} : Lookup π → Bool
  | .join _ | .acquire _ | .release _ _ | .leave _ _ => true
  | _ => false

section

variable {π τ : Type} {d : Deployment π τ} {w w' : Shared MemoryStore π} {l l' : Lookup π}

theorem Lookup.Step.flights_of_not_handles (h : Step d w l w' l') (hl : l.handles = false) :
    w'.cache.flights = w.cache.flights ∧ l'.joined? = l.joined? := by
  cases h with
  | joined | acquired | released | left => cases hl
  | _ => exact ⟨rfl, rfl⟩

theorem Operation.Effect.flights_of_not_handles {op op' : Operation π} (h : Effect d w op w' op')
    (hop : ∀ key l, op = .lookup key l → l.handles = false) :
    w'.cache.flights = w.cache.flights ∧ op'.joined? = op.joined? := by
  cases h with
  | looked hstep => exact hstep.flights_of_not_handles (hop _ _ rfl)
  | quiet hstore hcache hpending hpending' hsettled hjoined hjoined' =>
      exact ⟨by rw [hcache], hjoined'.trans hjoined.symm⟩
  | saved | deleted => exact ⟨rfl, rfl⟩
  | settled hpending hpending' hsettled hsettled' hjoined hjoined' =>
      exact ⟨rfl, hjoined'.trans hjoined.symm⟩

end

namespace Handles

variable {π τ : Type} {d : Deployment π τ} {handles : Handles} {s : System π} {n : Nat}
  {id : RuleId} {lock : Lock} {op op' : Operation π}

theorem Agrees.taken_set (h : handles.Agrees s) (hop : s.operations[n]? = some op)
    (hsame : op'.joined? = op.joined?) :
    handles.taken = (s.operations.set n op').map (Operation.lock? handles.locks) := by
  have hlock : op'.lock? handles.locks = op.lock? handles.locks := by
    rw [Operation.lock?, hsame, Operation.lock?]
  rw [h.taken, System.map_of_set hop hlock]

theorem Agrees.step (h : handles.Agrees s) (hsound : s.Sound) (hop : s.operations[n]? = some op)
    (hhandles : ∀ key l, op = .lookup key l → l.handles = false) :
    handles.Agrees (s.next d (.step n)) := by
  simp only [System.next, hop]
  split
  · exact h
  · rename_i w op' hstep
    obtain ⟨hflights, hjoined⟩ := (hsound.effect hop hstep).flights_of_not_handles hhandles
    exact h.same hflights ((h.taken_set hop hjoined).symm.trans h.taken)

/-! ## Steps in flights -/

/-- Operations that take part in no flight of a rule have no handle of its lock. -/
theorem map_lock?_congr {locks locks' : Table RuleId Lock} {operations : List (Operation π)}
    (hsame : ∀ other, other ≠ id → locks'.get? other = locks.get? other)
    (hnone : operations.countP (·.joined? = some id) = 0) :
    operations.map (Operation.lock? locks') = operations.map (Operation.lock? locks) := by
  apply List.map_congr_left
  intro op hop
  have hne : op.joined? ≠ some id := by simpa using List.countP_eq_zero.mp hnone op hop
  cases hjoined : op.joined? with
  | none => rw [Operation.lock?, Operation.lock?, hjoined, Option.bind_none, Option.bind_none]
  | some other =>
      have hother : other ≠ id := fun heq => hne (heq ▸ hjoined)
      rw [Operation.lock?, Operation.lock?, hjoined, Option.bind_some, Option.bind_some,
        hsame other hother]

theorem Agrees.take_found (h : handles.Agrees s) (hlock : handles.locks.get? id = some lock)
    (n : Nat) (op' : Operation π) (hop' : op'.joined? = some id) :
    Agrees { handles with taken := handles.taken.set n (some lock) }
      ⟨{ s.shared with cache := s.shared.cache.join id }, s.operations.set n op'⟩ where
  ids := h.ids
  distinct := h.distinct
  made := h.made
  heldMade := h.heldMade
  taken := by simp [h.taken, List.map_set, Operation.lock?, hop', hlock]
  keys := by
    have hmem : id ∈ handles.locks.keys := List.mem_map.mpr ⟨_, Table.mem_of_get? hlock, rfl⟩
    rw [Cache.join, Table.keys_put, ← h.keys, if_pos hmem]
  locked other lock hother :=
    (Cache.locked_join s.shared.cache id other).trans (h.locked other lock hother)

/-- The first to come makes the lock. -/
theorem Agrees.take_made (h : handles.Agrees s) (hsound : s.Sound)
    (hlock : handles.locks.get? id = none) (n : Nat) (op' : Operation π)
    (hop' : op'.joined? = some id) :
    Agrees
      { handles with
        locks := handles.locks.put id handles.fresh
        taken := handles.taken.set n (some handles.fresh)
        fresh := handles.fresh + 1 }
      ⟨{ s.shared with cache := s.shared.cache.join id }, s.operations.set n op'⟩ where
  ids := Table.keys_put_nodup id _ h.ids
  distinct := by
    rw [Table.put_of_not_mem (Table.get?_eq_none_iff.mp hlock), List.map_append, List.nodup_append]
    refine ⟨h.distinct, List.nodup_singleton _, ?_⟩
    rintro lock hlock _ hfresh rfl
    obtain ⟨entry, hentry, rfl⟩ := List.mem_map.mp hlock
    have hlt := h.made entry hentry
    rw [List.mem_singleton.mp hfresh] at hlt
    exact Nat.lt_irrefl _ hlt
  made := by
    intro entry hentry
    rcases Table.mem_put hentry with rfl | hold
    · exact Nat.lt_succ_self _
    · exact Nat.lt_succ_of_lt (h.made entry hold)
  heldMade lock hheld := Nat.lt_succ_of_lt (h.heldMade lock hheld)
  taken := by
    have hnone : s.joined id = 0 := (h.get?_eq_none_iff hsound).mp hlock
    have hsame : s.operations.map (Operation.lock? (handles.locks.put id handles.fresh)) =
        s.operations.map (Operation.lock? handles.locks) :=
      map_lock?_congr (fun other hne => by rw [Table.get?_put, if_neg (Ne.symm hne)]) hnone
    simp only [h.taken, List.map_set, hsame]
    rw [Operation.lock?, hop', Option.bind_some, Table.get?_put, if_pos rfl]
  keys := by rw [Cache.join, Table.keys_put, Table.keys_put, h.keys]
  locked other lock hother := by
    refine (Cache.locked_join s.shared.cache id other).trans ?_
    rw [Table.get?_put] at hother
    split at hother
    · rename_i hid
      subst hid
      obtain rfl := Option.some.inj hother
      have hfree : handles.fresh ∉ handles.held := fun hheld =>
        Nat.lt_irrefl _ (h.heldMade _ hheld)
      have hflight : s.shared.cache.flights.get? id = none := by
        rwa [Table.get?_eq_none_iff, ← h.keys, ← Table.get?_eq_none_iff]
      rw [Cache.locked, hflight, decide_eq_false hfree]
      rfl
    · exact h.locked other lock hother

/-- Who joins a flight takes a handle of its lock. -/
theorem Agrees.take (h : handles.Agrees s) (hsound : s.Sound) (n : Nat) (op' : Operation π)
    (hop' : op'.joined? = some id) :
    (handles.take n id).Agrees
      ⟨{ s.shared with cache := s.shared.cache.join id }, s.operations.set n op'⟩ := by
  unfold Handles.take
  cases hlock : handles.locks.get? id with
  | some lock => exact h.take_found hlock n op' hop'
  | none => exact h.take_made hsound hlock n op' hop'

/-- The lock of a flight is taken or given back. -/
theorem Agrees.hold (h : handles.Agrees s) (hop : s.operations[n]? = some op)
    (hsame : op'.joined? = op.joined?) (hlock : handles.locks.get? id = some lock)
    {held : List Lock} {cache : Cache π}
    (hheld : ∀ other, other ≠ lock → (other ∈ held ↔ other ∈ handles.held))
    (hkeys : cache.flights.keys = s.shared.cache.flights.keys)
    (hlocked : ∀ other, cache.locked other =
      if id = other then decide (lock ∈ held) else s.shared.cache.locked other) :
    Agrees { handles with held } ⟨{ s.shared with cache }, s.operations.set n op'⟩ where
  ids := h.ids
  distinct := h.distinct
  made := h.made
  heldMade other hother := by
    by_cases heq : other = lock
    · exact heq ▸ h.made _ (Table.mem_of_get? hlock)
    · exact h.heldMade other ((hheld other heq).mp hother)
  taken := h.taken_set hop hsame
  keys := h.keys.trans hkeys.symm
  locked other lock' hother := by
    refine (hlocked other).trans ?_
    split
    · rename_i hid
      subst hid
      rw [Option.some.inj (hlock.symm.trans hother)]
    · rename_i hid
      have hne : lock' ≠ lock := by
        rintro rfl
        exact hid (h.id_eq hlock hother)
      rw [h.locked other lock' hother]
      exact decide_eq_decide.mpr (hheld lock' hne).symm

/-- Who waits for the lock of a flight waits for the lock that it has a handle of. -/
theorem Agrees.acquire? (h : handles.Agrees s) (hsound : s.Sound)
    (hop : s.operations[n]? = some op) (hjoined : op.joined? = some id) (op' : Operation π)
    (hop' : op'.joined? = some id) :
    (handles.acquire? n = none ∧ s.shared.cache.acquire? id = none) ∨
      ∃ handles' cache, handles.acquire? n = some handles' ∧
        s.shared.cache.acquire? id = some cache ∧
        handles'.Agrees ⟨{ s.shared with cache }, s.operations.set n op'⟩ := by
  obtain ⟨lock, hlock, hhandle⟩ := h.handle? hsound hop hjoined
  have hlocked := h.locked id lock hlock
  unfold Handles.acquire?
  rw [hhandle]
  by_cases hheld : lock ∈ handles.held
  · refine Or.inl ⟨if_pos hheld, ?_⟩
    rw [decide_eq_true hheld] at hlocked
    cases hacquire : s.shared.cache.acquire? id with
    | none => rfl
    | some cache =>
        rw [(Cache.locked_acquire hacquire).1] at hlocked
        cases hlocked
  · rw [decide_eq_false hheld] at hlocked
    have hflight : s.shared.cache.holders? id ≠ none :=
      hsound.holders?_ne_none (List.mem_of_getElem? hop) hjoined
    obtain ⟨cache, hacquire⟩ := Cache.acquire?_of_free hflight hlocked
    refine Or.inr ⟨_, cache, if_neg hheld, hacquire, ?_⟩
    refine h.hold hop (hop'.trans hjoined.symm) hlock ?_ (Cache.keys_acquire hacquire) ?_
    · intro other hne
      simp [hne]
    · intro other
      rw [(Cache.locked_acquire hacquire).2 other, decide_eq_true List.mem_cons_self]

/-- Who gives the lock of a flight back gives back the lock that it has a handle of. -/
theorem Agrees.release (h : handles.Agrees s) (hsound : s.Sound)
    (hop : s.operations[n]? = some op) (hjoined : op.joined? = some id) (op' : Operation π)
    (hop' : op'.joined? = some id) :
    (handles.release n).Agrees
      ⟨{ s.shared with cache := s.shared.cache.release id }, s.operations.set n op'⟩ := by
  obtain ⟨lock, hlock, hhandle⟩ := h.handle? hsound hop hjoined
  unfold Handles.release
  rw [hhandle]
  refine h.hold hop (hop'.trans hjoined.symm) hlock ?_ (Cache.keys_release _ id) ?_
  · intro other hne
    simp [hne]
  · intro other
    rw [Cache.locked_release, decide_eq_false (by simp)]

/-- The last to leave takes the lock out of the map. -/
theorem Agrees.drop_last (h : handles.Agrees s) (op' : Operation π)
    (hop' : op'.joined? = none)
    (hnone : (s.operations.set n op').countP (·.joined? = some id) = 0) {cache : Cache π}
    (hkeys : cache.flights.keys = s.shared.cache.flights.keys.filter (· ≠ id))
    (hlocked : ∀ other, cache.locked other = s.shared.cache.locked other) :
    Agrees { handles with locks := handles.locks.erase id, taken := handles.taken.set n none }
      ⟨{ s.shared with cache }, s.operations.set n op'⟩ where
  ids := Table.keys_erase_nodup id h.ids
  distinct := h.distinct.sublist (List.filter_sublist.map Prod.snd)
  made entry hentry := h.made entry (Table.mem_erase.mp hentry).1
  heldMade := h.heldMade
  taken := by
    have hgone : handles.taken.set n none =
        (s.operations.set n op').map (Operation.lock? handles.locks) := by
      rw [List.map_set, ← h.taken, Operation.lock?, hop', Option.bind_none]
    refine hgone.trans (map_lock?_congr (fun other hne => ?_) hnone).symm
    exact (Table.get?_erase _ _ _).trans (if_neg (Ne.symm hne))
  keys := by rw [hkeys, ← h.keys, Table.keys_erase]
  locked other lock' hother := by
    rw [Table.get?_erase] at hother
    split at hother
    · cases hother
    · exact (hlocked other).trans (h.locked other lock' hother)

theorem Agrees.drop_more (h : handles.Agrees s) (n : Nat) (op' : Operation π)
    (hop' : op'.joined? = none) {cache : Cache π}
    (hkeys : cache.flights.keys = s.shared.cache.flights.keys)
    (hlocked : ∀ other, cache.locked other = s.shared.cache.locked other) :
    Agrees { handles with taken := handles.taken.set n none }
      ⟨{ s.shared with cache }, s.operations.set n op'⟩ where
  ids := h.ids
  distinct := h.distinct
  made := h.made
  heldMade := h.heldMade
  taken := by simp [h.taken, List.map_set, Operation.lock?, hop']
  keys := h.keys.trans hkeys.symm
  locked other lock' hother := (hlocked other).trans (h.locked other lock' hother)

/-- Who leaves a flight gives its handle back, and takes the lock out of the map if it was the
last to take part. -/
theorem Agrees.drop (h : handles.Agrees s) (hsound : s.Sound) (hlocks : s.Locks)
    (hop : s.operations[n]? = some op) (hjoined : op.joined? = some id) (hholds : op.holds? = none)
    (op' : Operation π) (hop' : op'.joined? = none) :
    (handles.drop n id).Agrees
      ⟨{ s.shared with cache := s.shared.cache.leave id }, s.operations.set n op'⟩ := by
  obtain ⟨lock, hlock, hhandle⟩ := h.handle? hsound hop hjoined
  have hcount : (s.operations.set n op').countP (·.joined? = some id) + 1 = s.joined id := by
    have hset := countP_set_add (p := fun op => op.joined? = some id) hop op'
    simpa [hjoined, hop', System.joined] using hset
  have hholders : s.shared.cache.holders? id = some (s.joined id) := by
    rw [hsound.flights, System.holdersOf, if_neg (by omega)]
  have hlocked : ∀ other, (s.shared.cache.leave id).locked other = s.shared.cache.locked other :=
    Cache.locked_leave (hlocks.locked_eq_false hsound (List.mem_of_getElem? hop) hjoined hholds)
  have hkeys := Cache.keys_leave hholders
  unfold Handles.drop
  rw [hhandle]
  by_cases hlast : s.joined id = 1
  · -- The handle in the map and the one that is given back are the last two.
    have htwo : handles.strong lock = 2 ∧ handles.locks.get? id = some lock :=
      ⟨by rw [h.strong hlock, hlast], hlock⟩
    rw [hlast, if_pos (Nat.le_refl 1)] at hkeys
    simp only [if_pos htwo]
    exact h.drop_last op' hop' (by omega) hkeys hlocked
  · have hmore : ¬ (handles.strong lock = 2 ∧ handles.locks.get? id = some lock) := by
      rw [h.strong hlock]
      omega
    rw [if_neg (show ¬ s.joined id ≤ 1 by omega)] at hkeys
    simp only [if_neg hmore]
    exact h.drop_more n op' hop' hkeys hlocked

end Handles

/-! ## Runs -/

namespace Handled

variable {π τ : Type} {d : Deployment π τ} {store : MemoryStore}

/-- A change of the handles is the change of the flights that agrees with it. -/
theorem agrees_turn {s : Handled π} {n : Nat} {op : Operation π} {handles : Handles}
    {cache : Cache π} (hsound : s.system.Sound)
    (hnext : s.next d (.step n) = s.turn n op handles)
    (hsystem : s.system.next d (.step n) =
      ⟨{ s.system.shared with cache }, s.system.operations.set n op⟩)
    (hcache : cache = { s.system.shared.cache with flights := cache.flights })
    (h : handles.Agrees ⟨{ s.system.shared with cache }, s.system.operations.set n op⟩) :
    (s.next d (.step n)).system = s.system.next d (.step n) ∧
      (s.next d (.step n)).handles.Agrees (s.system.next d (.step n)) := by
  have hsound' := hsound.move (System.move_next d s.system (.step n))
  rw [hsystem] at hsound' ⊢
  have hflights : handles.flights = cache.flights := h.flights hsound'
  rw [hnext, turn, hflights, ← hcache]
  exact ⟨rfl, h⟩

theorem next_of_not_handles {s : Handled π} {n : Nat} {op : Operation π}
    (hop : s.system.operations[n]? = some op)
    (hhandles : ∀ key l, op = .lookup key l → l.handles = false) :
    s.next d (.step n) = ⟨s.system.next d (.step n), s.handles⟩ := by
  unfold next
  simp only [hop]
  split <;> first | rfl | (rename_i heq; cases hhandles _ _ (Option.some.inj heq))

/-- The handles agree with the flights after an event if they did before, and what becomes of
the system is what becomes of one that counts. -/
theorem agrees_next {s : Handled π} (h : s.handles.Agrees s.system) (hsound : s.system.Sound)
    (hlocks : s.system.Locks) (event : Event) :
    (s.next d event).system = s.system.next d event ∧
      (s.next d event).handles.Agrees (s.system.next d event) := by
  cases event with
  | call request => exact ⟨rfl, h.called request⟩
  | invalidate id => exact ⟨rfl, h.same rfl rfl⟩
  | step n =>
      cases hop : s.system.operations[n]? with
      | none =>
          simp only [next, System.next, hop, true_and]
          exact h
      | some op =>
          by_cases hhandles : ∀ key l, op = .lookup key l → l.handles = false
          · rw [next_of_not_handles hop hhandles]
            exact ⟨rfl, h.step hsound hop hhandles⟩
          · push Not at hhandles
            obtain ⟨key, l, rfl, hl⟩ := hhandles
            cases l with
            | join id =>
                have hagrees := h.take hsound n (.lookup key (.acquire id)) rfl
                exact agrees_turn hsound (by simp only [next, hop])
                  (by simp only [System.next, hop, Operation.step, Lookup.step, Option.map_some])
                  rfl hagrees
            | acquire id =>
                rcases h.acquire? hsound hop rfl (.lookup key (.check id)) rfl with
                  ⟨hwaits, hlocked⟩ | ⟨handles, cache, hacquire, hcache, hagrees⟩
                · simp only [next, System.next, hop, hwaits, Operation.step, Lookup.step, hlocked,
                    Option.map_none, true_and]
                  exact h
                · exact agrees_turn hsound (by simp only [next, hop, hacquire])
                    (by simp only [System.next, hop, Operation.step, Lookup.step, hcache,
                      Option.map_some])
                    (Cache.acquire?_eq hcache) hagrees
            | release id answer =>
                have hagrees := h.release hsound hop rfl (.lookup key (.leave id answer)) rfl
                exact agrees_turn hsound (by simp only [next, hop])
                  (by simp only [System.next, hop, Operation.step, Lookup.step, Option.map_some])
                  (Cache.release_eq _ id) hagrees
            | leave id answer =>
                have hagrees := h.drop hsound hlocks hop rfl rfl (.lookup key (.done answer)) rfl
                exact agrees_turn hsound (by simp only [next, hop])
                  (by simp only [System.next, hop, Operation.step, Lookup.step, Option.map_some])
                  (Cache.leave_eq _ id) hagrees
            | _ => exact absurd rfl hl

theorem after_append_singleton (events : List Event) (event : Event) :
    after d store (events ++ [event]) = (after d store events).next d event :=
  List.foldl_append

/-- Whether flights are counted or shared by handles, what becomes of a system is the same. -/
theorem system_after (hkeyed : store.Keyed) (events : List Event) :
    (after d store events).system = System.after d store events ∧
      (after d store events).handles.Agrees (System.after d store events) := by
  induction events using List.reverseRecOn with
  | nil => exact ⟨rfl, .start store⟩
  | append_singleton past event ih =>
      obtain ⟨hsystem, hagrees⟩ := ih
      rw [← hsystem] at hagrees
      have hsound : (after d store past).system.Sound := hsystem ▸ System.sound_after hkeyed past
      have hlocks : (after d store past).system.Locks := hsystem ▸ System.locks_after hkeyed past
      rw [after_append_singleton, System.after_append_singleton, ← hsystem]
      exact agrees_next hagrees hsound hlocks event

/-- There is one lock for the flight of a rule, and none without a flight. -/
structure OneLock (s : Handled π) (id : RuleId) : Prop where
  /-- Whoever holds a lock of the flight, waits for one or has yet to leave has a handle of
  the lock that the map has for the rule. -/
  shared : ∀ n op, s.system.operations[n]? = some op → op.joined? = some id →
    ∃ lock, s.handles.locks.get? id = some lock ∧ s.handles.handle? n = some lock
  /-- At most one operation holds it. -/
  exclusive : s.system.holding id ≤ 1
  /-- The map has no lock for the rule when nobody takes part in its flight. -/
  landed : (∀ op ∈ s.system.operations, op.joined? ≠ some id) → s.handles.locks.get? id = none

/-- **One lock for a flight.**  At every moment of a run all operations that take part in the
flight of a rule share one lock, and the map has no lock of a rule without a flight. -/
theorem oneLock_after (d : Deployment π τ) (hkeyed : store.Keyed) (events : List Event)
    (id : RuleId) : (after d store events).OneLock id := by
  obtain ⟨hsystem, hagrees⟩ := system_after (d := d) hkeyed events
  rw [← hsystem] at hagrees
  have hsound : (after d store events).system.Sound := hsystem ▸ System.sound_after hkeyed events
  have hlocks : (after d store events).system.Locks := hsystem ▸ System.locks_after hkeyed events
  refine ⟨fun n op hop hjoined => hagrees.handle? hsound hop hjoined, ?_, ?_⟩
  · rw [hlocks id]
    split <;> omega
  · intro hnone
    refine (hagrees.get?_eq_none_iff hsound).mpr (List.countP_eq_zero.mpr ?_)
    intro op hop
    simpa using hnone op hop

end Handled

end Rulebook
