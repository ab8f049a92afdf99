/-
  Proofs/Fact/Memory.lean --- what working memory has after writes.

  Two things are read off the writes.  A value was written at its path (`mem_of_get?_write`).
  And what memory has below a root depends on the writes below that root alone, in their
  order (`below_write`): writes displace each other only along one path.

  The writes of a fact stand at the paths that its names lead to (`found_of_mem_ofJson`,
  `mem_ofFields`), where a name with dots is several segments.
-/
import Rulebook.Fact.Memory

set_option autoImplicit false

namespace Rulebook

/-! ## Paths -/

namespace Path

/-- The path begins with a segment. -/
def Under (root : String) (p : Path) : Prop := p.segments.head? = some root

instance (root : String) (p : Path) : Decidable (p.Under root) :=
  inferInstanceAs (Decidable (p.segments.head? = some root))

/-- The path of a member of a member, and so on. -/
def descend (p : Path) (names : List String) : Path := names.foldl child p

theorem segments_descend (p : Path) (names : List String) :
    (p.descend names).segments = p.segments ++ names.flatMap fun name => (ofString name).segments := by
  induction names generalizing p with
  | nil => simp [descend]
  | cons name rest ih =>
      have hrest : (p.descend (name :: rest)).segments = ((p.child name).descend rest).segments := rfl
      rw [hrest, ih, child, List.flatMap_cons, List.append_assoc]

theorem segments_descend_ne_nil {p : Path} (h : p.segments ≠ []) (names : List String) :
    (p.descend names).segments ≠ [] := by
  rw [segments_descend]
  exact List.append_ne_nil_of_left_ne_nil h _

theorem under_descend_iff {root : String} {p : Path} (h : p.segments ≠ []) (names : List String) :
    (p.descend names).Under root ↔ p.Under root := by
  obtain ⟨first, rest, hp⟩ := List.exists_cons_of_ne_nil h
  rw [Under, Under, segments_descend, hp]
  rfl

/-- Paths below two roots do not continue each other. -/
theorem not_isWithin_of_under {root : String} {p q : Path} (hp : p.Under root)
    (hq : ¬ q.Under root) (hne : q.segments ≠ []) :
    p.isWithin q = false ∧ q.isWithin p = false := by
  obtain ⟨rest, hrest⟩ := List.head?_eq_some_iff.mp hp
  obtain ⟨other, more, hmore⟩ := List.exists_cons_of_ne_nil hne
  have hother : other ≠ root := by
    rintro rfl
    exact hq (by rw [Under, hmore, List.head?_cons])
  simp [isWithin, hrest, hmore, List.isPrefixOf, hother, Ne.symm hother]

end Path

/-! ## Memory -/

namespace Memory

variable {m : Memory} {p q : Path} {v : Value} {writes : List Write} {root : String}

theorem mem_of_get? (h : m.get? p = some v) : (p, v) ∈ m.cells := by
  obtain ⟨⟨q, w⟩, hfound, rfl⟩ := Option.map_eq_some_iff.mp h
  obtain rfl : q = p := by simpa using List.find?_some hfound
  exact List.mem_of_find?_eq_some hfound

/-- Whatever is in memory was there or was written. -/
theorem mem_cells_write {cell : Write} (h : cell ∈ (m.write writes).cells) :
    cell ∈ m.cells ∨ cell ∈ writes := by
  induction writes generalizing m with
  | nil => exact Or.inl h
  | cons first rest ih =>
      rcases ih h with hcell | hrest
      · rcases List.mem_append.mp hcell with hold | hnew
        · exact Or.inl (List.mem_filter.mp hold).1
        · exact Or.inr (List.mem_cons.mpr (Or.inl (List.mem_singleton.mp hnew)))
      · exact Or.inr (List.mem_cons_of_mem _ hrest)

theorem mem_of_mem_write_empty {cell : Write} (h : cell ∈ (Memory.empty.write writes).cells) :
    cell ∈ writes :=
  (mem_cells_write h).resolve_left List.not_mem_nil

theorem mem_of_get?_write (h : (Memory.empty.write writes).get? p = some v) : (p, v) ∈ writes :=
  mem_of_mem_write_empty (mem_of_get? h)

/-- The part of memory below a root. -/
def below (m : Memory) (root : String) : Memory := ⟨m.cells.filter (·.1.Under root)⟩

theorem get?_below (h : p.Under root) : (m.below root).get? p = m.get? p := by
  rw [get?, below, List.find?_filter, get?]
  congr 2
  funext cell
  by_cases hcell : cell.1 = p <;> simp [hcell, h]

theorem below_insert_of_under (h : p.Under root) :
    (m.insert p v).below root = (m.below root).insert p v := by
  simp only [below, insert, List.filter_append, List.filter_filter, Bool.and_comm]
  simp [h]

/-- A write elsewhere does not touch what is below a root. -/
theorem below_insert_of_not_under (h : ¬ p.Under root) (hne : p.segments ≠ []) :
    (m.insert p v).below root = m.below root := by
  have hfilter : (m.cells.filter fun cell => !cell.1.isWithin p && !p.isWithin cell.1).filter
      (·.1.Under root) = m.cells.filter (·.1.Under root) := by
    rw [List.filter_filter]
    apply List.filter_congr
    intro cell _
    by_cases hunder : cell.1.Under root
    · obtain ⟨hwithin, hcontains⟩ := Path.not_isWithin_of_under hunder h hne
      simp [hwithin, hcontains]
    · simp [hunder]
  simp only [below, insert, List.filter_append, hfilter]
  simp [h]

/-- What is below a root after writes comes from the writes below that root. -/
theorem below_write (hne : ∀ w ∈ writes, w.1.segments ≠ []) :
    (m.write writes).below root = (m.below root).write (writes.filter (·.1.Under root)) := by
  induction writes generalizing m with
  | nil => rfl
  | cons first rest ih =>
      obtain ⟨hfirst, hrest⟩ := List.forall_mem_cons.mp hne
      have hstep : (m.write (first :: rest)).below root =
          ((m.insert first.1 first.2).write rest).below root := rfl
      rw [hstep, ih hrest]
      by_cases hunder : first.1.Under root
      · rw [below_insert_of_under hunder, List.filter_cons_of_pos (by simpa using hunder)]
        rfl
      · rw [below_insert_of_not_under hunder hfirst,
          List.filter_cons_of_neg (by simpa using hunder)]

end Memory

/-! ## Writes of JSON values -/

/-- A part of a JSON value, found by keys of objects and positions in arrays. -/
inductive Json.Found : Json → List String → Json → Prop
  | here (v : Json) : Found v [] v
  | item {items : List Json} {i : Nat} {v w : Json} {keys : List String} :
      items[i]? = some v → Found v keys w → Found (.array items) (toString i :: keys) w
  | member {members : Json.Members} {key : String} {v w : Json} {keys : List String} :
      (key, v) ∈ members → Found v keys w → Found (.object members) (key :: keys) w

namespace Write

variable {path q : Path} {v : Value} {w : Write}

theorem mem_ofItems {items : List Json} {position : Nat} (h : w ∈ ofItems path position items) :
    ∃ i item, items[i]? = some item ∧ w ∈ ofJson (path.child (toString (position + i))) item := by
  induction items generalizing position with
  | nil => exact absurd h List.not_mem_nil
  | cons first rest ih =>
      rw [ofItems] at h
      rcases List.mem_append.mp h with hfirst | hrest
      · exact ⟨0, first, rfl, hfirst⟩
      · obtain ⟨i, item, hitem, hw⟩ := ih hrest
        refine ⟨i + 1, item, hitem, ?_⟩
        rwa [Nat.add_right_comm, Nat.add_assoc] at hw

theorem mem_ofMembers {members : Json.Members} (h : w ∈ ofMembers path members) :
    ∃ key value, (key, value) ∈ members ∧ w ∈ ofJson (path.child key) value := by
  induction members with
  | nil => exact absurd h List.not_mem_nil
  | cons entry rest ih =>
      obtain ⟨key, value⟩ := entry
      rw [ofMembers] at h
      rcases List.mem_append.mp h with hfirst | hrest
      · exact ⟨key, value, List.mem_cons_self, hfirst⟩
      · obtain ⟨key', value', hmem, hw⟩ := ih hrest
        exact ⟨key', value', List.mem_cons_of_mem _ hmem, hw⟩

theorem ofMembers_append (path : Path) (members others : Json.Members) :
    ofMembers path (members ++ others) = ofMembers path members ++ ofMembers path others := by
  induction members with
  | nil => rw [List.nil_append, ofMembers, List.nil_append]
  | cons entry rest ih => rw [List.cons_append, ofMembers, ih, ofMembers, List.append_assoc]

/-- A JSON value writes its scalars where its keys and positions lead. -/
theorem found_of_mem_ofJson : ∀ (json : Json) (path : Path), (q, v) ∈ ofJson path json →
    ∃ keys part, json.Found keys part ∧ Value.ofJson? part = some v ∧ q = path.descend keys
  | .null, _, h => absurd h List.not_mem_nil
  | .bool _, _, h | .number _, _, h | .string _, _, h => by
      obtain ⟨rfl, rfl⟩ := Prod.mk.inj (List.mem_singleton.mp h)
      exact ⟨[], _, .here _, rfl, rfl⟩
  | .array items, path, h => by
      obtain ⟨i, item, hitem, hw⟩ := mem_ofItems h
      have hlt := List.sizeOf_lt_of_mem (List.mem_of_getElem? hitem)
      obtain ⟨keys, part, hfound, hpart, rfl⟩ := found_of_mem_ofJson item _ hw
      rw [Nat.zero_add]
      exact ⟨toString i :: keys, part, .item hitem hfound, hpart, rfl⟩
  | .object members, path, h => by
      obtain ⟨key, value, hmem, hw⟩ := mem_ofMembers h
      have hlt := List.sizeOf_lt_of_mem hmem
      obtain ⟨keys, part, hfound, hpart, rfl⟩ := found_of_mem_ofJson value _ hw
      exact ⟨key :: keys, part, .member hmem hfound, hpart, rfl⟩
termination_by json => sizeOf json
decreasing_by
  · simp only [Json.array.sizeOf_spec]
    omega
  · simp only [Prod.mk.sizeOf_spec] at hlt
    simp only [Json.object.sizeOf_spec]
    omega

/-! ## Writes of instances -/

theorem mem_ofFields {fields : List (String × FieldValue)} (h : w ∈ ofFields path fields) :
    ∃ name value, (name, value) ∈ fields ∧ w ∈ ofFieldValue (path.child name) value := by
  induction fields with
  | nil => exact absurd h List.not_mem_nil
  | cons entry rest ih =>
      obtain ⟨name, value⟩ := entry
      rw [ofFields] at h
      rcases List.mem_append.mp h with hfirst | hrest
      · exact ⟨name, value, List.mem_cons_self, hfirst⟩
      · obtain ⟨name', value', hmem, hw⟩ := ih hrest
        exact ⟨name', value', List.mem_cons_of_mem _ hmem, hw⟩

/-- A field value writes at paths that go on from its own. -/
theorem descend_of_mem_ofFieldValue : ∀ (value : FieldValue) (path : Path),
    w ∈ ofFieldValue path value → ∃ names, w.1 = path.descend names
  | .scalar _, _, h => by
      obtain rfl := List.mem_singleton.mp h
      exact ⟨[], rfl⟩
  | .record _ fields, _, h => by
      obtain ⟨name, value, hmem, hw⟩ := mem_ofFields h
      have hlt := List.sizeOf_lt_of_mem hmem
      obtain ⟨names, hnames⟩ := descend_of_mem_ofFieldValue value _ hw
      exact ⟨name :: names, hnames⟩
termination_by value => sizeOf value
decreasing_by
  simp only [Prod.mk.sizeOf_spec] at hlt
  simp only [FieldValue.record.sizeOf_spec]
  omega

/-- An instance writes at paths that go on from the name of its shape. -/
theorem descend_of_mem_ofInstance {i : Instance} (h : w ∈ ofInstance i) :
    ∃ names, w.1 = (Path.ofString i.shape).descend names := by
  obtain ⟨name, value, -, hw⟩ := mem_ofFields h
  obtain ⟨names, hnames⟩ := descend_of_mem_ofFieldValue value _ hw
  exact ⟨name :: names, hnames⟩

end Write

end Rulebook
