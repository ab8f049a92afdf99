/-
  Proofs/Binding/Settings.lean --- what binding can do with a field.

  A parameter is read as a scalar of the type of its field or refused
  (`Coercion.reads_of_scalar`).  A field takes the default of its type, a scalar that was
  read, or an instance bound from an object (`Binding.Sets`), and it stays without a value
  only if its type has no default (`Binding.mem_names_settings`).  What binding gives is read
  off these cases.
-/
import Rulebook.Proofs.Binding.Fields

set_option autoImplicit false

namespace Rulebook

namespace Coercion

/-- A parameter and the scalar of a type that is read from it. -/
inductive Reads : FieldType → Json → Value → Prop
  | int {raw : Json} {n : Int64} : int? raw = some n → Reads .int raw (.int n)
  | float {raw : Json} {x : Binary64} : float? raw = some x → Reads .float raw (.float x)
  | bool {raw : Json} {b : Bool} : bool? raw = some b → Reads .bool raw (.bool b)
  | string {raw : Json} {s : String} : string? raw = some s → Reads .string raw (.string s)
  | variant {variants : List String} {s : String} : s ∈ variants →
      Reads (.enum variants) (.string s) (.string s)

/-- What is not refused is a value that was read. -/
theorem exists_of_not_refused {α : Type} {read : Option α} {make : α → Value}
    {refused : BindProblem} {v : Value}
    (h : (match read.map make with
      | some v => Except.ok v
      | none => .error refused) = .ok v) : ∃ a, read = some a ∧ make a = v := by
  cases read with
  | none => cases h
  | some a => exact ⟨a, rfl, Except.ok.inj h⟩

theorem reads_of_scalar {type : FieldType} {raw : Json} {v : Value}
    (h : scalar type raw = .ok v) : Reads type raw v := by
  unfold scalar at h
  simp only at h
  split at h
  · cases h
  · split at h
    · obtain ⟨n, hn, rfl⟩ := exists_of_not_refused h
      exact .int hn
    · obtain ⟨x, hx, rfl⟩ := exists_of_not_refused h
      exact .float hx
    · obtain ⟨b, hb, rfl⟩ := exists_of_not_refused h
      exact .bool hb
    · obtain ⟨s, hs, rfl⟩ := exists_of_not_refused h
      exact .string hs
    · split at h
      · rename_i hmem
        cases h
        exact .variant hmem
      · cases h
    · cases h

end Coercion

namespace Binding

variable {groups : List ShapeGroup} {path : Path} {params : Json.Members} {f : Field}
  {rest : List Field} {entry : String × FieldValue}

/-- How a field comes to its value. -/
inductive Sets (groups : List ShapeGroup) (path : Path) (params : Json.Members) (f : Field) :
    FieldValue → Prop
  | default {v : Value} (h : Coercion.default? f.type = some v) : Sets groups path params f (.scalar v)
  | scalar {raw : Json} {v : Value} (hraw : Table.get? params f.name = some raw)
      (h : Coercion.scalar f.type raw = .ok v) : Sets groups path params f (.scalar v)
  | record {members : Json.Members} {name : String} {shape : Shape}
      (hraw : Table.get? params f.name = some (.object members)) (htype : f.type = .shape name)
      (hshape : ShapeGroup.findShape? groups name = some shape) :
      Sets groups path params f (.record shape.name
        (Instance.fieldsOf (settings groups (path.child f.name) members shape.fields).1))

theorem sets_of_value? {v : FieldValue} (h : value? groups f.type (Table.get? params f.name) = some v) :
    Sets groups path params f v := by
  rcases value?_cases groups f.type (Table.get? params f.name) with
    ⟨json, w, hjson, hread, hvalue⟩ | hdefault
  · obtain rfl : w = v := Option.some.inj (hvalue.symm.trans h)
    cases hnested : nested? groups f.type (some json) with
    | none =>
        obtain ⟨u, hscalar, rfl⟩ := scalar_of_read hnested hread
        exact .scalar hjson hscalar
    | some inner =>
        obtain ⟨shape, members⟩ := inner
        obtain ⟨htype, hobject, hshape⟩ := nested?_eq_some hnested
        obtain ⟨-, hinstance⟩ := read_of_nested? hnested
        obtain rfl : json = .object members := Option.some.inj hobject
        obtain rfl : (instantiate groups shape members).1.asField = w :=
          Except.ok.inj (hinstance.symm.trans hread)
        simp only [Instance.asField, instantiate]
        rw [settings_fst_congr groups _ (path.child f.name)]
        exact .record hjson htype hshape
  · obtain ⟨w, hw, rfl⟩ := Option.map_eq_some_iff.mp (hdefault.symm.trans h)
    exact .default hw

theorem sets_of_mem_settings (h : entry ∈ (settings groups path params (f :: rest)).1) :
    (entry.1 = f.name ∧ Sets groups path params f entry.2) ∨
      entry ∈ (settings groups path params rest).1 := by
  rw [settings_cons_fst] at h
  rcases List.mem_append.mp h with hfirst | hrest
  · obtain ⟨v, hv, rfl⟩ := List.mem_map.mp hfirst
    exact .inl ⟨rfl, sets_of_value? (Option.mem_toList.mp hv)⟩
  · exact .inr hrest

/-- A field whose type has a default is set. -/
theorem mem_names_settings {fields : List Field} (hf : f ∈ fields) {v : Value}
    (hdefault : Coercion.default? f.type = some v) :
    f.name ∈ (settings groups path params fields).1.map Prod.fst := by
  cases hvalue : value? groups f.type (Table.get? params f.name) with
  | none => exact absurd (hdefault.symm.trans (default?_of_value?_none hvalue)) (Option.some_ne_none v)
  | some w => exact List.mem_map.mpr ⟨(f.name, w), mem_settings_iff.mpr ⟨f, hf, rfl, hvalue⟩, rfl⟩

/-- **Induction over what binding sets.**  A property of parameters, a field and its value
holds of all that is set if it holds of defaults, of scalars that are read, and of instances
if it holds of all that is set in them. -/
theorem forall_mem_settings {P : Json.Members → Field → FieldValue → Prop}
    (hdefault : ∀ {params f v}, Coercion.default? f.type = some v → P params f (.scalar v))
    (hscalar : ∀ {params f raw v}, Table.get? params f.name = some raw →
      Coercion.scalar f.type raw = .ok v → P params f (.scalar v))
    (hrecord : ∀ {params f members name shape path},
      Table.get? params f.name = some (.object members) → f.type = .shape name →
      ShapeGroup.findShape? groups name = some shape →
      (∀ entry ∈ (settings groups path members shape.fields).1,
        ∃ g ∈ shape.fields, g.name = entry.1 ∧ P members g entry.2) →
      P params f (.record shape.name
        (Instance.fieldsOf (settings groups path members shape.fields).1)))
    (path : Path) (params : Json.Members) (fields : List Field) :
    ∀ entry ∈ (settings groups path params fields).1,
      ∃ f ∈ fields, f.name = entry.1 ∧ P params f entry.2 := by
  induction path, params, fields using settings.induct groups with
  | case1 path params => simp [settings]
  | case2 path params f rest field nested diagnostics _ ihNested ihRest =>
      intro entry hentry
      rcases sets_of_mem_settings hentry with ⟨hname, hsets⟩ | hrest
      · refine ⟨f, List.mem_cons_self, hname.symm, ?_⟩
        obtain ⟨name, value⟩ := entry
        cases hsets with
        | default h => exact hdefault h
        | scalar hraw h => exact hscalar hraw h
        | @record members target shape hraw htype hshape =>
            exact hrecord hraw htype hshape (ihNested members hraw shape)
      · obtain ⟨f', hf', hP⟩ := ihRest entry hrest
        exact ⟨f', List.mem_cons_of_mem _ hf', hP⟩

/-- The induction for a property that is the same for all fields, and holds of all scalars. -/
theorem forall_value_settings {P : Json.Members → FieldValue → Prop}
    (hscalar : ∀ {params v}, P params (.scalar v))
    (hrecord : ∀ {params key members path} {shape : Shape},
      Table.get? params key = some (.object members) →
      (∀ entry ∈ (settings groups path members shape.fields).1, P members entry.2) →
      P params (.record shape.name
        (Instance.fieldsOf (settings groups path members shape.fields).1)))
    (path : Path) (params : Json.Members) (fields : List Field) :
    ∀ entry ∈ (settings groups path params fields).1, P params entry.2 := by
  intro entry hentry
  have hall : ∃ f ∈ fields, f.name = entry.1 ∧ P params entry.2 := by
    refine forall_mem_settings (P := fun params _ v => P params v) (fun _ => hscalar)
      (fun _ _ => hscalar) (fun hraw _ _ hinner => hrecord hraw fun entry hentry => ?_)
      path params fields entry hentry
    obtain ⟨f, -, -, hP⟩ := hinner entry hentry
    exact hP
  obtain ⟨f, -, -, hP⟩ := hall
  exact hP

end Binding

end Rulebook
