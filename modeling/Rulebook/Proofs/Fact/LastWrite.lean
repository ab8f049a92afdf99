/-
  Proofs/Fact/LastWrite.lean --- the last write wins.

  A write is in force if nothing was written since then at its path, on the way to its path
  or below it (`Write.InForce`).  Whatever takes writes one after the other has just the
  writes in force if one further write does three things: it puts its value at its path, it
  takes away what it displaces, and it leaves the rest (`Write.Recorded`).  Working memory
  is of that kind (`Memory.recorded`).  So writes that neither stand at a path nor displace
  it cannot be told there from no writes (`Memory.get?_write_skip`).
-/
import Mathlib.Data.List.Induction
import Rulebook.Fact.Memory

set_option autoImplicit false

namespace Rulebook

namespace Path

/-- A path that is not the other one leads on from it, or lies on the way to it. -/
def Displaces (p q : Path) : Prop :=
  p ≠ q ∧ (p.segments <+: q.segments ∨ q.segments <+: p.segments)

instance (p q : Path) : Decidable (p.Displaces q) :=
  inferInstanceAs (Decidable (p ≠ q ∧ (p.segments <+: q.segments ∨ q.segments <+: p.segments)))

theorem isWithin_iff {p q : Path} : p.isWithin q = true ↔ q.segments <+: p.segments :=
  List.isPrefixOf_iff_prefix

/-- What memory keeps beside a path is what the path does not displace. -/
theorem apart_iff {p q : Path} :
    (!q.isWithin p && !p.isWithin q) = true ↔ p ≠ q ∧ ¬ p.Displaces q := by
  simp only [Bool.and_eq_true, Bool.not_eq_true', Bool.eq_false_iff, ne_eq, isWithin_iff,
    Displaces]
  constructor
  · rintro ⟨hbelow, habove⟩
    refine ⟨?_, fun h => h.2.elim hbelow habove⟩
    rintro rfl
    exact hbelow (List.prefix_refl _)
  · rintro ⟨hne, hfree⟩
    exact ⟨fun h => hfree ⟨hne, .inl h⟩, fun h => hfree ⟨hne, .inr h⟩⟩

end Path

namespace Write

variable {log : List Write} {p q : Path} {u v : Value}

/-! ## Writes in force -/

/-- A value was written at a path, and nothing since then at the path, on the way to it or
below it. -/
def InForce (log : List Write) (q : Path) (v : Value) : Prop :=
  ∃ earlier later, log = earlier ++ (q, v) :: later ∧
    ∀ w ∈ later, w.1 ≠ q ∧ ¬ w.1.Displaces q

theorem not_inForce_nil : ¬ InForce [] q v := by
  rintro ⟨earlier, later, hlog, -⟩
  exact List.append_ne_nil_of_right_ne_nil earlier (List.cons_ne_nil _ _) hlog.symm

/-- What is in force after one further write. -/
theorem inForce_concat_iff : InForce (log ++ [(p, u)]) q v ↔
    p = q ∧ u = v ∨ p ≠ q ∧ ¬ p.Displaces q ∧ InForce log q v := by
  constructor
  · rintro ⟨earlier, later, hlog, hlater⟩
    rcases List.eq_nil_or_concat later with rfl | ⟨later, last, rfl⟩
    · obtain ⟨-, hlast⟩ := List.append_inj' hlog rfl
      exact .inl (Prod.mk.inj (List.singleton_inj.mp hlast))
    · rw [List.concat_eq_append, ← List.cons_append, ← List.append_assoc] at hlog
      obtain ⟨rfl, hlast⟩ := List.append_inj' hlog rfl
      obtain rfl := List.singleton_inj.mp hlast
      obtain ⟨hne, hfree⟩ := hlater (p, u) (by simp)
      exact .inr ⟨hne, hfree, earlier, later, rfl, fun w hw => hlater w (by simp [hw])⟩
  · rintro (⟨rfl, rfl⟩ | ⟨hne, hfree, earlier, later, rfl, hlater⟩)
    · exact ⟨log, [], rfl, fun w hw => absurd hw List.not_mem_nil⟩
    · refine ⟨earlier, later ++ [(p, u)], by simp, fun w hw => ?_⟩
      rcases List.mem_append.mp hw with hw | hw
      · exact hlater w hw
      · obtain rfl := List.mem_singleton.mp hw
        exact ⟨hne, hfree⟩

/-! ## Stores that take writes -/

/-- How a store answers that has taken no write, and how it answers after one further
write. -/
structure Recorded {σ : Type} (empty : σ) (insert : σ → Path → Value → σ)
    (get? : σ → Path → Option Value) : Prop where
  none_of_empty : ∀ q, get? empty q = none
  insert : ∀ m p v q, p.segments ≠ [] → q.segments ≠ [] →
    get? (insert m p v) q =
      if p = q then some v else if p.Displaces q then none else get? m q

/-- **The last write wins.**  A store has the writes in force. -/
theorem Recorded.get?_iff {σ : Type} {empty : σ} {insert : σ → Path → Value → σ}
    {get? : σ → Path → Option Value} (h : Recorded empty insert get?)
    (hlog : ∀ w ∈ log, w.1.segments ≠ []) (hq : q.segments ≠ []) :
    get? (log.foldl (fun m w => insert m w.1 w.2) empty) q = some v ↔ InForce log q v := by
  -- from the end of the log: the last write decides, or leaves the question to the others
  induction log using List.reverseRecOn with
  | nil =>
      rw [List.foldl_nil, h.none_of_empty]
      exact ⟨fun h => absurd h.symm (Option.some_ne_none v), fun h => absurd h not_inForce_nil⟩
  | append_singleton log w ih =>
      obtain ⟨p, u⟩ := w
      have ih := ih fun w hw => hlog w (List.mem_append_left _ hw)
      have hp : p.segments ≠ [] := hlog (p, u) (List.mem_append_right _ List.mem_cons_self)
      rw [List.foldl_append, List.foldl_cons, List.foldl_nil, h.insert _ _ _ _ hp hq,
        inForce_concat_iff]
      by_cases hpq : p = q
      · simp [hpq]
      · by_cases hdisplaces : p.Displaces q
        · simp [hpq, hdisplaces]
        · simp [hpq, hdisplaces, ih]

end Write

/-! ## Working memory -/

namespace Memory

/-- Of the cells that a write keeps, those at one path are all or none. -/
theorem find?_kept (cells : List Write) (p q : Path) :
    (cells.filter fun cell => !cell.1.isWithin p && !p.isWithin cell.1).find? (·.1 = q) =
      if p ≠ q ∧ ¬ p.Displaces q then cells.find? (·.1 = q) else none := by
  rw [List.find?_filter]
  split
  · rename_i hapart
    congr 1
    funext cell
    by_cases hcell : cell.1 = q
    · simp only [hcell, Path.apart_iff.mpr hapart, decide_true, and_self]
    · simp [hcell]
  · rename_i hapart
    refine List.find?_eq_none.mpr fun cell _ => ?_
    rw [decide_eq_true_eq, decide_eq_true_eq]
    rintro ⟨hkept, rfl⟩
    exact hapart (Path.apart_iff.mp hkept)

theorem get?_insert (m : Memory) (p : Path) (v : Value) (q : Path) : (m.insert p v).get? q =
    if p = q then some v else if p.Displaces q then none else m.get? q := by
  rw [get?, insert, List.find?_append, find?_kept]
  by_cases hpq : p = q
  · simp [hpq]
  · by_cases hdisplaces : p.Displaces q
    · simp [hpq, hdisplaces]
    · simp [hpq, hdisplaces, get?]

theorem recorded : Write.Recorded empty insert get? where
  none_of_empty _ := rfl
  insert m p v q _ _ := get?_insert m p v q

/-- Working memory has the writes in force. -/
theorem get?_write_iff {log : List Write} (hlog : ∀ w ∈ log, w.1.segments ≠ []) {q : Path}
    (hq : q.segments ≠ []) {v : Value} :
    (empty.write log).get? q = some v ↔ Write.InForce log q v :=
  recorded.get?_iff hlog hq

/-! ## Writes elsewhere -/

variable {m m' : Memory} {q : Path} {writes : List Write}

/-- The value at a path after writes depends on memory at that path only. -/
theorem get?_write_congr (h : m.get? q = m'.get? q) (writes : List Write) :
    (m.write writes).get? q = (m'.write writes).get? q := by
  induction writes generalizing m m' with
  | nil => exact h
  | cons w rest ih => exact ih (by rw [get?_insert, get?_insert, h])

theorem get?_write_of_apart (h : ∀ w ∈ writes, w.1 ≠ q ∧ ¬ w.1.Displaces q) :
    (m.write writes).get? q = m.get? q := by
  induction writes generalizing m with
  | nil => rfl
  | cons w rest ih =>
      obtain ⟨⟨hne, hfree⟩, hrest⟩ := List.forall_mem_cons.mp h
      have hstep : (m.insert w.1 w.2).get? q = m.get? q := by
        rw [get?_insert, if_neg hne, if_neg hfree]
      exact (ih hrest).trans hstep

/-- Writes elsewhere can be left out, wherever they stand among others. -/
theorem get?_write_skip (h : ∀ w ∈ writes, w.1 ≠ q ∧ ¬ w.1.Displaces q)
    (before after : List Write) :
    (m.write (before ++ (writes ++ after))).get? q = (m.write (before ++ after)).get? q := by
  simp only [write, List.foldl_append]
  exact get?_write_congr (get?_write_of_apart h) after

end Memory

end Rulebook
