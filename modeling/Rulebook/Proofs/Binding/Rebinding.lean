/-
  Proofs/Binding/Rebinding.lean --- bound facts can be bound again.

  An instance written back as JSON has a member for each field that has a value
  (`FieldValue.toMembers`).  Every value that binding gives is read from its JSON as
  itself (`Coercion.scalar_toJson`, `Binding.rebinds`), and a field without a value has no
  default either, so binding the members gives the instance again and reports nothing
  (`instantiate_toMembers`).
-/
import Rulebook.Proofs.Binding.Conformity
import Rulebook.Proofs.Binding.Fields
import Rulebook.Proofs.Binding.Typing
import Rulebook.Proofs.Number.Whole

set_option autoImplicit false

namespace Rulebook

/-! ## Values as JSON -/

mutual

/-- The value of a field as JSON: a nested instance is an object. -/
def FieldValue.toJson : FieldValue → Json
  | .scalar v => v.toJson
  | .record _ fields => .object (FieldValue.toMembers fields)

/-- Fields as members of an object. -/
def FieldValue.toMembers : List (String × FieldValue) → Json.Members
  | [] => []
  | (name, v) :: rest => (name, FieldValue.toJson v) :: FieldValue.toMembers rest

end

theorem FieldValue.toMembers_eq_map (fields : List (String × FieldValue)) :
    toMembers fields = fields.map fun entry => (entry.1, entry.2.toJson) := by
  induction fields with
  | nil => rw [toMembers, List.map_nil]
  | cons entry rest ih => rw [toMembers, ih, List.map_cons]

theorem FieldValue.get?_toMembers (fields : List (String × FieldValue)) (name : String) :
    Table.get? (toMembers fields) name = (Table.get? fields name).map toJson := by
  rw [toMembers_eq_map]
  exact Table.get?_map fields toJson name

theorem Value.toJson_ne_object (v : Value) (members : Json.Members) : v.toJson ≠ .object members := by
  cases v with
  | int _ | bool _ | string _ => exact Json.noConfusion
  | float x =>
      rw [toJson]
      split <;> exact Json.noConfusion

/-! ## Numbers of JSON -/

/-- The numbers that JSON values have: whole numbers of the two 64-bit ranges, and finite
doubles. -/
def JsonNumber.Representable : JsonNumber → Prop
  | .int n => -2 ^ 63 ≤ n ∧ n < 2 ^ 64
  | .float x => x.isFinite = true

/-- All numbers in the value are numbers of JSON. -/
def Json.Representable (json : Json) : Prop :=
  ∀ keys n, json.Found keys (.number n) → n.Representable

theorem Json.Representable.member {members : Json.Members} (h : (Json.object members).Representable)
    {key : String} {v : Json} (hv : Table.get? members key = some v) : v.Representable :=
  fun keys n hfound => h (key :: keys) n (.member (Table.mem_of_get? hv) hfound)

theorem Json.Representable.finite {json : Json} (h : json.Representable) : json.Finite :=
  fun keys x hfound => h keys (.float x) hfound

namespace Coercion

theorem isFinite_numberToBinary64 {n : JsonNumber} (h : n.Representable) :
    (numberToBinary64 n).isFinite = true := by
  cases n with
  | int n =>
      obtain ⟨hlow, hhigh⟩ := h
      have hsize : UInt64.size = 2 ^ 64 := rfl
      exact Binary64.isFinite_ofInt (by omega)
  | float x => exact h

theorem isFinite_of_float? {raw : Json} (hraw : raw.Representable) {x : Binary64}
    (h : float? raw = some x) : x.isFinite = true := by
  cases raw with
  | number n =>
      obtain rfl := Option.some.inj h
      exact isFinite_numberToBinary64 (hraw [] n (.here _))
  | string s => exact (Option.filter_eq_some_iff.mp h).2
  | null | bool _ | array _ | object _ => cases h

/-- A value of a type is read from its JSON as itself. -/
theorem scalar_toJson {type : FieldType} {v : Value} (h : type.Holds v)
    (hfinite : ∀ x, v = .float x → x.isFinite = true) : scalar type v.toJson = .ok v := by
  cases h with
  | int n => simp [scalar, Value.toJson, Json.kind, int?, Value.int64?_toInt]
  | float x _ => simp [scalar, Value.toJson, hfinite x rfl, Json.kind, float?, numberToBinary64]
  | bool b => simp [scalar, Value.toJson, Json.kind, bool?]
  | string s => simp [scalar, Value.toJson, Json.kind, string?]
  | variant hmem => simp [scalar, Value.toJson, Json.kind, hmem]

theorem default_toJson {type : FieldType} {v : Value} (h : default? type = some v) :
    scalar type v.toJson = .ok v := by
  refine scalar_toJson (holds_of_default? h) ?_
  rintro x rfl
  cases type with
  | float => obtain rfl := Value.float.inj (Option.some.inj h); decide
  | int | bool | string | enum _ | shape _ => cases h

theorem taken_toJson {type : FieldType} {raw : Json} (hraw : raw.Representable) {v : Value}
    (h : scalar type raw = .ok v) : scalar type v.toJson = .ok v := by
  refine scalar_toJson (holds_of_scalar hraw.finite h) ?_
  rintro x rfl
  cases reads_of_scalar h with
  | float hx => exact isFinite_of_float? hraw hx

end Coercion

namespace Binding

variable {groups : List ShapeGroup} {params : Json.Members} {type : FieldType} {raw : Option Json}
  {fields : List Field}

/-- The parameter of a field whose value is written back is bound to that value, and
nothing is reported. -/
structure Rebinds (groups : List ShapeGroup) (type : FieldType) (raw : Option Json) : Prop where
  value : value? groups type ((value? groups type raw).map FieldValue.toJson) = value? groups type raw
  problem : problem? groups type ((value? groups type raw).map FieldValue.toJson) = none
  below : ∀ path shape members,
    nested? groups type ((value? groups type raw).map FieldValue.toJson) = some (shape, members) →
      (settings groups path members shape.fields).2 = []

theorem rebinds_of_scalar {v : Value} (hvalue : value? groups type raw = some (.scalar v))
    (hread : Coercion.scalar type v.toJson = .ok v) : Rebinds groups type raw := by
  have hflat : ∀ name members, type = .shape name → v.toJson ≠ .object members :=
    fun _ members _ => Value.toJson_ne_object v members
  obtain ⟨hnested, hscalar⟩ := read_of_scalar groups hflat
  have hok : read groups type v.toJson = .ok (.scalar v) := by
    rw [hscalar, hread]
    rfl
  have hjson : (value? groups type raw).map FieldValue.toJson = some v.toJson := by
    rw [hvalue, Option.map_some, FieldValue.toJson]
  refine ⟨?_, ?_, fun path shape members h => ?_⟩
  · rw [hjson, hvalue]
    exact value?_of_read hok
  · rw [hjson]
    exact problem?_of_read hok
  · rw [hjson, hnested] at h
    cases h

theorem rebinds_of_none (h : value? groups type raw = none) : Rebinds groups type raw := by
  have hjson : (value? groups type raw).map FieldValue.toJson = none := by rw [h, Option.map_none]
  refine ⟨?_, ?_, fun path shape members hnested => ?_⟩
  · rw [hjson, h, value?, Option.map_none, default?_of_value?_none h]
    rfl
  · rw [hjson]
    rfl
  · obtain ⟨-, hraw, -⟩ := nested?_eq_some hnested
    rw [hjson] at hraw
    cases hraw

/-- What is bound from the members that are written back. -/
theorem settings_toMembers (hfields : (fields.map (·.name)).Nodup)
    (h : ∀ f ∈ fields, Rebinds groups f.type (Table.get? params f.name)) (path path' : Path) :
    settings groups path
        (FieldValue.toMembers (Instance.fieldsOf (settings groups path' params fields).1)) fields =
      ((settings groups path' params fields).1, []) := by
  have hget : ∀ f ∈ fields, Table.get? (FieldValue.toMembers
      (Instance.fieldsOf (settings groups path' params fields).1)) f.name =
        (value? groups f.type (Table.get? params f.name)).map FieldValue.toJson := by
    intro f hf
    rw [FieldValue.get?_toMembers, get?_fieldsOf_settings hfields hf]
  -- The members are those of all fields, so they stay while the fields are taken one by one.
  generalize FieldValue.toMembers (Instance.fieldsOf (settings groups path' params fields).1) =
    members at hget ⊢
  clear hfields
  induction fields with
  | nil => simp [settings]
  | cons f rest ih =>
      obtain ⟨hf, hrest⟩ := List.forall_mem_cons.mp h
      obtain ⟨hgetf, hgetrest⟩ := List.forall_mem_cons.mp hget
      have hothers := ih hrest hgetrest
      refine Prod.ext ?_ ?_
      · rw [settings_cons_fst, settings_cons_fst, hgetf, hf.value, hothers]
      · rw [settings_cons_snd, hgetf, hf.problem, hothers]
        cases hnested : nested? groups f.type
            ((value? groups f.type (Table.get? params f.name)).map FieldValue.toJson) with
        | none => rfl
        | some inner => simp [hf.below _ inner.1 inner.2 hnested]

/-- A field that is not bound member by member comes to a scalar that is read from its JSON,
or to its default. -/
theorem rebinds_of_flat (hnested : nested? groups type raw = none)
    (hraw : ∀ json, raw = some json → json.Representable) : Rebinds groups type raw := by
  rcases value?_cases groups type raw with ⟨json, v, rfl, hread, hvalue⟩ | hdefault
  · obtain ⟨w, hw, rfl⟩ := scalar_of_read hnested hread
    exact rebinds_of_scalar hvalue (Coercion.taken_toJson (hraw json rfl) hw)
  · cases hkind : Coercion.default? type with
    | none => exact rebinds_of_none (by rw [hdefault, hkind, Option.map_none])
    | some v =>
        rw [hkind, Option.map_some] at hdefault
        exact rebinds_of_scalar hdefault (Coercion.default_toJson hkind)

/-- Each field is bound to its value again. -/
theorem rebinds (hgroups : ∀ g ∈ groups, ∀ s ∈ g.shapes, (s.fields.map (·.name)).Nodup)
    (params : Json.Members) (fields : List Field) (hparams : (Json.object params).Representable) :
    ∀ f ∈ fields, Rebinds groups f.type (Table.get? params f.name) := by
  induction params, fields using fields_induction groups with
  | nil params => exact fun _ hf => absurd hf List.not_mem_nil
  | cons params f rest ihNested ihRest =>
      refine List.forall_mem_cons.mpr ⟨?_, ihRest hparams⟩
      cases hnested : nested? groups f.type (Table.get? params f.name) with
      | none => exact rebinds_of_flat hnested fun json hjson => hparams.member hjson
      | some inner =>
          obtain ⟨shape, members⟩ := inner
          obtain ⟨htype, hraw, hshape⟩ := nested?_eq_some hnested
          have hagain := settings_toMembers (nodup_of_findShape? hgroups hshape)
            (ihNested shape members hnested (hparams.member hraw))
          have hnested' := nested?_of_shape htype hshape
            (FieldValue.toMembers (instantiate groups shape members).1.fields)
          have hjson : (value? groups f.type (Table.get? params f.name)).map FieldValue.toJson =
              some (.object (FieldValue.toMembers (instantiate groups shape members).1.fields)) := by
            rw [value?_of_nested? hnested, Option.map_some, Instance.asField, FieldValue.toJson]
          refine ⟨?_, ?_, fun path shape' members' hbelow => ?_⟩
          · rw [hjson, value?_of_nested? hnested', value?_of_nested? hnested]
            simp only [instantiate, hagain]
          · rw [hjson, problem?_of_nested? hnested']
          · rw [hjson, hnested'] at hbelow
            obtain ⟨rfl, rfl⟩ := Prod.mk.inj (Option.some.inj hbelow)
            exact congrArg Prod.snd (hagain path (Path.ofString shape.name))

/-- **Binding is idempotent.**  No shape declares a name twice, and the numbers among the
parameters are those that JSON values have.  Then the members that an instance is written back
to are bound to exactly that instance, whatever was reported the first time, and nothing is
reported. -/
theorem instantiate_toMembers
    (hgroups : ∀ g ∈ groups, ∀ s ∈ g.shapes, (s.fields.map (·.name)).Nodup) {s : Shape}
    (hs : (s.fields.map (·.name)).Nodup) (params : Json.Members)
    (hparams : (Json.object params).Representable) :
    instantiate groups s (FieldValue.toMembers (instantiate groups s params).1.fields) =
      ((instantiate groups s params).1, []) := by
  have hsettings := settings_toMembers hs (rebinds hgroups params s.fields hparams)
    (Path.ofString s.name) (Path.ofString s.name)
  simp only [instantiate, hsettings]

theorem representable_generations : (Json.object generations).Representable := by
  intro keys n hfound
  cases hfound with
  | member hmem hfound =>
      simp only [generations, List.mem_cons, List.not_mem_nil, or_false, Prod.mk.injEq] at hmem
      rcases hmem with ⟨rfl, rfl⟩ | ⟨rfl, rfl⟩ | ⟨rfl, rfl⟩
      · cases hfound
      · cases hfound
      · cases hfound with
        | member hmem hfound =>
            simp only [List.mem_cons, List.not_mem_nil, or_false, Prod.mk.injEq] at hmem
            rcases hmem with ⟨rfl, rfl⟩ | ⟨rfl, rfl⟩ | ⟨rfl, rfl⟩
            · cases hfound
              exact ⟨by decide, by decide⟩
            · cases hfound
            · cases hfound

theorem instantiate_toMembers_person :
    (∀ g ∈ [ShapeGroup.mk "family" true [person]], ∀ s ∈ g.shapes, (s.fields.map (·.name)).Nodup) ∧
      (person.fields.map (·.name)).Nodup ∧ (Json.object generations).Representable ∧
      instantiate [⟨"family", true, [person]⟩] person
          [("age", .number (.int 41)), ("name", .string ""),
            ("parent", .object [("age", .number (.int 0)), ("name", .string "7"),
              ("tier", .string "gold")])] =
        ((instantiate [⟨"family", true, [person]⟩] person generations).1, []) := by
  have hmembers : FieldValue.toMembers
      (instantiate [⟨"family", true, [person]⟩] person generations).1.fields =
        [("age", .number (.int 41)), ("name", .string ""),
          ("parent", .object [("age", .number (.int 0)), ("name", .string "7"),
            ("tier", .string "gold")])] := by
    rw [instantiate_generations]
    rfl
  have hagain := instantiate_toMembers names_family_nodup names_person_nodup generations
    representable_generations
  rw [hmembers] at hagain
  exact ⟨names_family_nodup, names_person_nodup, representable_generations, hagain⟩

end Binding

end Rulebook
