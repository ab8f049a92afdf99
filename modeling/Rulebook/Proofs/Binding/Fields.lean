/-
  Proofs/Binding/Fields.lean --- fields are bound one by one.

  A parameter is read as a value of the type of its field or refused (`Binding.read`), and
  that alone decides the value of the field (`Binding.value?`) and its own diagnostic
  (`Binding.problem?`).  An object of a known shape is read member by member, and what its
  members are refused for is reported between the diagnostics of the fields around it
  (`settings_cons_fst`, `settings_cons_snd`).  If no name is declared twice, the instance
  has in each field the value that the field came to (`get?_fieldsOf_settings`).
-/
import Rulebook.Binding.Basic
import Rulebook.Proofs.Fact.Instance
import Rulebook.Proofs.Table

set_option autoImplicit false

namespace Rulebook

namespace Binding

variable {groups : List ShapeGroup} {path : Path} {params : Json.Members} {f : Field}
  {rest fields : List Field} {type : FieldType} {raw : Option Json}

/-! ## One field -/

/-- A parameter as a value of a type: an object as the instance of a known shape, and
everything else as a scalar. -/
def read (groups : List ShapeGroup) : FieldType → Json → Except BindProblem FieldValue
  | .shape name, .object members =>
    match ShapeGroup.findShape? groups name with
    | none => .error (.unknownType name)
    | some shape => .ok (instantiate groups shape members).1.asField
  | type, raw => (Coercion.scalar type raw).map .scalar

/-- The value of a field: what its parameter is read as, or else the default of its type. -/
def value? (groups : List ShapeGroup) (type : FieldType) (raw : Option Json) : Option FieldValue :=
  match raw.map (read groups type) with
  | some (.ok v) => some v
  | _ => (Coercion.default? type).map .scalar

/-- What the parameter of a field is refused for. -/
def problem? (groups : List ShapeGroup) (type : FieldType) (raw : Option Json) :
    Option BindProblem :=
  match raw.map (read groups type) with
  | some (.error problem) => some problem
  | _ => none

/-- The shape and the members that a field is bound from, if it takes an object. -/
def nested? (groups : List ShapeGroup) : FieldType → Option Json → Option (Shape × Json.Members)
  | .shape name, some (.object members) =>
    (ShapeGroup.findShape? groups name).map fun shape => (shape, members)
  | _, _ => none

theorem value?_of_read {json : Json} {v : FieldValue} (h : read groups type json = .ok v) :
    value? groups type (some json) = some v := by
  rw [value?, Option.map_some, h]

theorem problem?_of_read {json : Json} {v : FieldValue} (h : read groups type json = .ok v) :
    problem? groups type (some json) = none := by
  rw [problem?, Option.map_some, h]

/-- A field has the value that its parameter is read as, or its default. -/
theorem value?_cases (groups : List ShapeGroup) (type : FieldType) (raw : Option Json) :
    (∃ json v, raw = some json ∧ read groups type json = .ok v ∧ value? groups type raw = some v) ∨
      value? groups type raw = (Coercion.default? type).map .scalar := by
  cases raw with
  | none => exact .inr rfl
  | some json =>
      cases hread : read groups type json with
      | ok v => exact .inl ⟨json, v, rfl, hread, value?_of_read hread⟩
      | error problem => exact .inr (by rw [value?, Option.map_some, hread])

/-- A field without a value has no default. -/
theorem default?_of_value?_none (h : value? groups type raw = none) : Coercion.default? type = none := by
  rcases value?_cases groups type raw with ⟨json, v, -, -, hvalue⟩ | hdefault
  · exact absurd (h.symm.trans hvalue) (Option.some_ne_none v).symm
  · exact Option.map_eq_none_iff.mp (hdefault.symm.trans h)

theorem nested?_eq_some {shape : Shape} {members : Json.Members}
    (h : nested? groups type raw = some (shape, members)) :
    type = .shape shape.name ∧ raw = some (.object members) ∧
      ShapeGroup.findShape? groups shape.name = some shape := by
  unfold nested? at h
  split at h
  · obtain ⟨found, hfound, hpair⟩ := Option.map_eq_some_iff.mp h
    obtain ⟨rfl, rfl⟩ := Prod.mk.inj hpair
    rename_i name members
    obtain rfl : found.name = name := by simpa using List.find?_some hfound
    exact ⟨rfl, rfl, hfound⟩
  · cases h

theorem nested?_of_shape {shape : Shape} (htype : type = .shape shape.name)
    (hshape : ShapeGroup.findShape? groups shape.name = some shape) (members : Json.Members) :
    nested? groups type (some (.object members)) = some (shape, members) := by
  rw [htype, nested?, hshape, Option.map_some]

theorem read_of_nested? {shape : Shape} {members : Json.Members}
    (h : nested? groups type raw = some (shape, members)) :
    raw = some (.object members) ∧
      read groups type (.object members) = .ok (instantiate groups shape members).1.asField := by
  obtain ⟨rfl, rfl, hshape⟩ := nested?_eq_some h
  exact ⟨rfl, by rw [read, hshape]⟩

theorem value?_of_nested? {shape : Shape} {members : Json.Members}
    (h : nested? groups type raw = some (shape, members)) :
    value? groups type raw = some (instantiate groups shape members).1.asField := by
  obtain ⟨rfl, hread⟩ := read_of_nested? h
  exact value?_of_read hread

theorem problem?_of_nested? {shape : Shape} {members : Json.Members}
    (h : nested? groups type raw = some (shape, members)) : problem? groups type raw = none := by
  obtain ⟨rfl, hread⟩ := read_of_nested? h
  exact problem?_of_read hread

/-- What is not read member by member is read as a scalar. -/
theorem read_of_scalar (groups : List ShapeGroup) {raw : Json}
    (h : ∀ name members, type = .shape name → raw ≠ .object members) :
    nested? groups type (some raw) = none ∧
      read groups type raw = (Coercion.scalar type raw).map .scalar := by
  unfold nested? read
  split
  · rename_i name members hraw
    exact absurd (Option.some.inj hraw) (h name members rfl)
  · split
    · rename_i name members _
      exact absurd rfl (h name members rfl)
    · exact ⟨rfl, rfl⟩

theorem scalar_of_read {json : Json} {v : FieldValue} (hnested : nested? groups type (some json) = none)
    (h : read groups type json = .ok v) : ∃ w, Coercion.scalar type json = .ok w ∧ v = .scalar w := by
  unfold read at h
  split at h
  · split at h
    · cases h
    · rename_i shape hshape
      rw [nested?, hshape] at hnested
      cases hnested
  · cases hscalar : Coercion.scalar type json with
    | ok w =>
        rw [hscalar] at h
        exact ⟨w, rfl, (Except.ok.inj h).symm⟩
    | error _ =>
        rw [hscalar] at h
        cases h

/-! ## All fields -/

/-- **Induction over fields and the objects that they are bound from.** -/
theorem fields_induction (groups : List ShapeGroup) {P : Json.Members → List Field → Prop}
    (nil : ∀ params, P params [])
    (cons : ∀ params f rest,
      (∀ shape members, nested? groups f.type (Table.get? params f.name) = some (shape, members) →
        P members shape.fields) → P params rest → P params (f :: rest))
    (params : Json.Members) (fields : List Field) : P params fields := by
  induction Path.ofString "", params, fields using settings.induct groups with
  | case1 path params => exact nil params
  | case2 path params f rest field nested diagnostics _ ihNested ihRest =>
      refine cons params f rest (fun shape members hnested => ?_) ihRest
      obtain ⟨-, hraw, -⟩ := nested?_eq_some hnested
      exact ihNested members hraw shape

/-- One field after the other is bound, and an object member by member. -/
theorem settings_cons_eq (groups : List ShapeGroup) (path : Path) (params : Json.Members)
    (f : Field) (rest : List Field) :
    let raw := Table.get? params f.name
    let bound : Option FieldValue × List BindDiagnostic :=
      match nested? groups f.type raw with
      | some (shape, members) =>
        let nested := settings groups (path.child f.name) members shape.fields
        (some (.record shape.name (Instance.fieldsOf nested.1)), nested.2)
      | none =>
        (value? groups f.type raw, (problem? groups f.type raw).toList.map (⟨path.child f.name, ·⟩))
    settings groups path params (f :: rest) =
      (bound.1.toList.map (fun v => (f.name, v)) ++ (settings groups path params rest).1,
        bound.2 ++ (settings groups path params rest).2) := by
  rw [settings]
  dsimp only
  split
  · rename_i hraw
    cases htype : f.type <;> simp [hraw, nested?, value?, problem?]
  · split
    · rename_i name members _ htype hraw
      cases hshape : ShapeGroup.findShape? groups name <;>
        simp [hraw, htype, nested?, value?, problem?, read, hshape]
    · rename_i raw _ _ _ hother hraw
      have hscalar : ∀ name members, f.type = .shape name → raw ≠ .object members := by
        rintro name members htype rfl
        exact hother name members hraw htype rfl HEq.rfl
      obtain ⟨hnested, hread⟩ := read_of_scalar groups hscalar
      cases hvalue : Coercion.scalar f.type raw <;>
        simp [hraw, hnested, hread, hvalue, value?, problem?, Except.map]

/-- The values do not depend on where the fields are. -/
theorem settings_fst_congr (groups : List ShapeGroup) (path path' : Path) (params : Json.Members)
    (fields : List Field) :
    (settings groups path params fields).1 = (settings groups path' params fields).1 := by
  induction params, fields using fields_induction groups generalizing path path' with
  | nil params => simp [settings]
  | cons params f rest ihNested ihRest =>
      rw [settings_cons_eq, settings_cons_eq, ihRest path path']
      cases hnested : nested? groups f.type (Table.get? params f.name) with
      | none => rfl
      | some inner =>
          obtain ⟨shape, members⟩ := inner
          simp only [ihNested shape members hnested (path.child f.name) (path'.child f.name)]

theorem settings_cons_fst (groups : List ShapeGroup) (path : Path) (params : Json.Members)
    (f : Field) (rest : List Field) :
    (settings groups path params (f :: rest)).1 =
      (value? groups f.type (Table.get? params f.name)).toList.map (fun v => (f.name, v)) ++
        (settings groups path params rest).1 := by
  rw [settings_cons_eq]
  cases hnested : nested? groups f.type (Table.get? params f.name) with
  | none => rfl
  | some inner =>
      obtain ⟨shape, members⟩ := inner
      simp only [value?_of_nested? hnested, Instance.asField, instantiate]
      rw [settings_fst_congr]

/-- The diagnostics of a field stand before those of the next one: its own, or those of the
members that it is bound from. -/
theorem settings_cons_snd (groups : List ShapeGroup) (path : Path) (params : Json.Members)
    (f : Field) (rest : List Field) :
    (settings groups path params (f :: rest)).2 =
      (problem? groups f.type (Table.get? params f.name)).toList.map (⟨path.child f.name, ·⟩) ++
        ((nested? groups f.type (Table.get? params f.name)).toList.flatMap fun inner =>
          (settings groups (path.child f.name) inner.2 inner.1.fields).2) ++
        (settings groups path params rest).2 := by
  rw [settings_cons_eq]
  cases hnested : nested? groups f.type (Table.get? params f.name) with
  | none => simp
  | some inner => simp [problem?_of_nested? hnested]

/-! ## The values -/

/-- A field has a value in the settings only if it came to one. -/
theorem mem_settings_iff {fields : List Field} {entry : String × FieldValue} :
    entry ∈ (settings groups path params fields).1 ↔
      ∃ f ∈ fields, entry.1 = f.name ∧
        value? groups f.type (Table.get? params f.name) = some entry.2 := by
  induction fields with
  | nil => simp [settings]
  | cons f rest ih =>
      obtain ⟨name, v⟩ := entry
      rw [settings_cons_fst, List.mem_append, ih]
      simp [and_comm, eq_comm]

/-- If no name is declared twice, the instance has the values that the fields came to. -/
theorem get?_fieldsOf_settings (hfields : (fields.map (·.name)).Nodup) (hf : f ∈ fields) :
    Table.get? (Instance.fieldsOf (settings groups path params fields).1) f.name =
      value? groups f.type (Table.get? params f.name) := by
  have hkeys := Instance.names_fieldsOf_nodup (settings groups path params fields).1
  refine Option.ext fun v => (Table.get?_eq_some_iff hkeys).trans ⟨fun hmem => ?_, fun hvalue => ?_⟩
  · obtain ⟨f', hf', hname, hvalue⟩ := mem_settings_iff.mp (Instance.mem_fieldsOf hmem)
    obtain rfl : f' = f := List.inj_on_of_nodup_map hfields hf' hf hname.symm
    exact hvalue
  · have hset : (f.name, v) ∈ (settings groups path params fields).1 :=
      mem_settings_iff.mpr ⟨f, hf, rfl, hvalue⟩
    obtain ⟨⟨name, w⟩, hmem, rfl⟩ :=
      List.mem_map.mp (Instance.mem_names_fieldsOf.mpr (List.mem_map_of_mem hset))
    obtain ⟨f', hf', hname, hw⟩ := mem_settings_iff.mp (Instance.mem_fieldsOf hmem)
    obtain rfl : f' = f := List.inj_on_of_nodup_map hfields hf' hf hname.symm
    obtain rfl : w = v := Option.some.inj (hw.symm.trans hvalue)
    exact hmem

end Binding

end Rulebook
