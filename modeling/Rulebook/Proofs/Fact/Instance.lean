/-
  Proofs/Fact/Instance.lean --- the fields of typed facts.

  Setting a field keeps the names ascending (`setField_ascending`), adds one name and makes
  up no other value (`mem_names_setField`, `mem_setField`).  So the fields that settings
  give have the names of the settings and values among theirs (`mem_names_fieldsOf`,
  `mem_fieldsOf`), and facts built by setting fields are ordered at every level.
-/
import Mathlib.Data.List.Induction
import Rulebook.Fact.Instance
import Rulebook.Proofs.Table

set_option autoImplicit false

namespace Rulebook

/-- The names of fields ascend, at every level. -/
inductive FieldValue.Ordered : FieldValue → Prop
  | scalar (v : Value) : Ordered (.scalar v)
  | record {shape : String} {fields : List (String × FieldValue)} :
      fields.Pairwise (·.1 < ·.1) → (∀ entry ∈ fields, Ordered entry.2) →
      Ordered (.record shape fields)

namespace Instance

variable {fields settings : List (String × FieldValue)} {name : String} {value : FieldValue}
  {entry : String × FieldValue}

/-! ## Setting one field -/

theorem mem_setField (h : entry ∈ setField fields name value) :
    entry ∈ fields ∨ entry = (name, value) := by
  induction fields with
  | nil => exact Or.inr (List.mem_singleton.mp h)
  | cons other rest ih =>
      obtain ⟨otherName, old⟩ := other
      rw [setField] at h
      split at h
      · rcases List.mem_cons.mp h with hnew | hrest
        · exact Or.inr hnew
        · exact Or.inl (List.mem_cons_of_mem _ hrest)
      · split at h
        · rcases List.mem_cons.mp h with hnew | hold
          · exact Or.inr hnew
          · exact Or.inl hold
        · rcases List.mem_cons.mp h with hother | hrest
          · exact Or.inl (List.mem_cons.mpr (Or.inl hother))
          · exact (ih hrest).imp_left (List.mem_cons_of_mem _)

theorem mem_names_setField {other : String} :
    other ∈ (setField fields name value).map Prod.fst ↔ other = name ∨ other ∈ fields.map Prod.fst := by
  induction fields with
  | nil => simp [setField]
  | cons first rest ih =>
      obtain ⟨firstName, old⟩ := first
      rw [setField]
      split
      · rename_i heq
        simp [heq]
      · split
        · simp
        · rw [List.map_cons, List.mem_cons, ih, List.map_cons, List.mem_cons]
          exact or_left_comm

theorem setField_ascending (h : fields.Pairwise (·.1 < ·.1)) :
    (setField fields name value).Pairwise (·.1 < ·.1) := by
  induction fields with
  | nil => exact List.pairwise_singleton _ _
  | cons first rest ih =>
      obtain ⟨firstName, old⟩ := first
      obtain ⟨hfirst, hrest⟩ := List.pairwise_cons.mp h
      rw [setField]
      split
      · rename_i heq
        exact List.pairwise_cons.mpr ⟨heq ▸ hfirst, hrest⟩
      · rename_i hne
        split
        · rename_i hlt
          refine List.pairwise_cons.mpr ⟨fun entry hentry => ?_, h⟩
          rcases List.mem_cons.mp hentry with rfl | hentry
          · exact hlt
          · exact String.lt_trans hlt (hfirst entry hentry)
        · rename_i hge
          have hlt : firstName < name := Std.lt_of_le_of_ne (String.not_lt.mp hge) (Ne.symm hne)
          refine List.pairwise_cons.mpr ⟨fun entry hentry => ?_, ih hrest⟩
          rcases mem_setField hentry with hold | rfl
          · exact hfirst entry hold
          · exact hlt

/-! ## Setting one after the other -/

theorem fieldsOf_concat (settings : List (String × FieldValue)) (entry : String × FieldValue) :
    fieldsOf (settings ++ [entry]) = setField (fieldsOf settings) entry.1 entry.2 := by
  rw [fieldsOf, List.foldl_append]
  rfl

/-- The fields of an instance are among the settings. -/
theorem mem_fieldsOf (h : entry ∈ fieldsOf settings) : entry ∈ settings := by
  induction settings using List.reverseRecOn with
  | nil => exact h
  | append_singleton settings last ih =>
      rw [fieldsOf_concat] at h
      rcases mem_setField h with hold | rfl
      · exact List.mem_append_left _ (ih hold)
      · exact List.mem_append_right _ (List.mem_singleton_self _)

/-- Every name that is set names a field. -/
theorem mem_names_fieldsOf :
    name ∈ (fieldsOf settings).map Prod.fst ↔ name ∈ settings.map Prod.fst := by
  induction settings using List.reverseRecOn with
  | nil => rfl
  | append_singleton settings last ih =>
      rw [fieldsOf_concat, mem_names_setField, ih, List.map_append, List.mem_append, or_comm]
      simp

theorem fieldsOf_ascending (settings : List (String × FieldValue)) :
    (fieldsOf settings).Pairwise (·.1 < ·.1) := by
  induction settings using List.reverseRecOn with
  | nil => exact .nil
  | append_singleton settings last ih =>
      rw [fieldsOf_concat]
      exact setField_ascending ih

/-- A field of each name. -/
theorem names_fieldsOf_nodup (settings : List (String × FieldValue)) :
    ((fieldsOf settings).map Prod.fst).Nodup := by
  refine List.pairwise_map.mpr ((fieldsOf_ascending settings).imp ?_)
  rintro first second hlt heq
  exact String.lt_irrefl _ (heq ▸ hlt)

/-- The value of a field is looked up under its name. -/
theorem field?_eq_get? (i : Instance) (name : String) : i.field? name = Table.get? i.fields name := by
  rw [field?, Table.find?_key, Option.map_map]
  exact Option.map_id'

/-! ## Ordered facts -/

/-- A fact as the value of a field. -/
def asField (i : Instance) : FieldValue := .record i.shape i.fields

/-- The fields of a fact stand in the order of their names, at every level. -/
def Ordered (i : Instance) : Prop := i.asField.Ordered

end Instance

end Rulebook
