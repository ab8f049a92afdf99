/-
  Proofs/Binding/Conformity.lean --- bound facts conform to their shapes.

  Shapes may lead back to themselves, so that an instance conforms is not said along the
  shapes but along the instance: its fields are declared, their values are of the declared
  types, and a nested instance conforms to the shape that it is named for
  (`Shape.Conforms`).  Every instance that binding gives conforms, and it nests no deeper
  than its parameters do, which is why binding ends (`instantiate_conforms`).
-/
import Rulebook.Proofs.Binding.Settings
import Rulebook.Proofs.Fact.Instance
import Rulebook.Proofs.Table

set_option autoImplicit false

namespace Rulebook

/-! ## Conformity -/

/-- The types whose fields always have a value. -/
def FieldType.IsPlain (type : FieldType) : Prop :=
  type = .int ∨ type = .float ∨ type = .bool ∨ type = .string

mutual

/-- Fields that conform to a shape: each is declared and has a value of the declared type,
and those of the plain types are all there. -/
inductive Shape.Conforms (groups : List ShapeGroup) : Shape → List (String × FieldValue) → Prop
  | intro {s : Shape} {fields : List (String × FieldValue)}
      (declared : ∀ entry ∈ fields, ∃ f ∈ s.fields, f.name = entry.1)
      (typed : ∀ f ∈ s.fields, ∀ v, (f.name, v) ∈ fields → FieldType.Conforms groups f.type v)
      (present : ∀ f ∈ s.fields, f.type.IsPlain → ∃ v, (f.name, v) ∈ fields) :
      Shape.Conforms groups s fields

/-- Values of a type.  One of a shape is an instance that is named after the shape and
conforms to it. -/
inductive FieldType.Conforms (groups : List ShapeGroup) : FieldType → FieldValue → Prop
  | int (n : Int64) : FieldType.Conforms groups .int (.scalar (.int n))
  | float (x : Binary64) : FieldType.Conforms groups .float (.scalar (.float x))
  | bool (b : Bool) : FieldType.Conforms groups .bool (.scalar (.bool b))
  | string (s : String) : FieldType.Conforms groups .string (.scalar (.string s))
  | variant {variants : List String} {s : String} : s ∈ variants →
      FieldType.Conforms groups (.enum variants) (.scalar (.string s))
  | record {name : String} {s : Shape} {fields : List (String × FieldValue)} :
      ShapeGroup.findShape? groups name = some s → Shape.Conforms groups s fields →
      FieldType.Conforms groups (.shape name) (.record name fields)

end

namespace Coercion

variable {groups : List ShapeGroup} {type : FieldType} {v : Value}

theorem conforms_of_scalar {raw : Json} (h : scalar type raw = .ok v) :
    type.Conforms groups (.scalar v) := by
  cases reads_of_scalar h with
  | int _ => exact .int _
  | float _ => exact .float _
  | bool _ => exact .bool _
  | string _ => exact .string _
  | variant hmem => exact .variant hmem

theorem conforms_of_default? (h : default? type = some v) : type.Conforms groups (.scalar v) := by
  cases type with
  | int => obtain rfl := Option.some.inj h; exact .int 0
  | float => obtain rfl := Option.some.inj h; exact .float .zero
  | bool => obtain rfl := Option.some.inj h; exact .bool false
  | string => obtain rfl := Option.some.inj h; exact .string ""
  | enum _ => cases h
  | shape _ => cases h

theorem exists_default? (h : type.IsPlain) : ∃ v, default? type = some v := by
  rcases h with rfl | rfl | rfl | rfl <;> exact ⟨_, rfl⟩

end Coercion

/-! ## Depth -/

mutual

/-- How many objects stand in one another. -/
def Json.depth : Json → Nat
  | .object members => Json.depthOfMembers members + 1
  | _ => 0

/-- How deep the values of members are. -/
def Json.depthOfMembers : List (String × Json) → Nat
  | [] => 0
  | (_, v) :: rest => max (Json.depth v) (Json.depthOfMembers rest)

end

mutual

/-- How many instances stand in one another. -/
def FieldValue.depth : FieldValue → Nat
  | .scalar _ => 0
  | .record _ fields => FieldValue.depthOfFields fields + 1

/-- How deep the values of fields are. -/
def FieldValue.depthOfFields : List (String × FieldValue) → Nat
  | [] => 0
  | (_, v) :: rest => max (FieldValue.depth v) (FieldValue.depthOfFields rest)

end

theorem Json.depth_le_of_get? {members : Json.Members} {key : String} {v : Json}
    (h : Table.get? members key = some v) : v.depth ≤ Json.depthOfMembers members := by
  have hmem := Table.mem_of_get? h
  clear h
  induction members with
  | nil => exact absurd hmem List.not_mem_nil
  | cons entry rest ih =>
      rw [depthOfMembers]
      rcases List.mem_cons.mp hmem with rfl | hrest
      · exact Nat.le_max_left _ _
      · exact Nat.le_trans (ih hrest) (Nat.le_max_right _ _)

theorem FieldValue.depthOfFields_le {fields : List (String × FieldValue)} {n : Nat}
    (h : ∀ entry ∈ fields, entry.2.depth ≤ n) : depthOfFields fields ≤ n := by
  induction fields with
  | nil => exact Nat.zero_le n
  | cons entry rest ih =>
      obtain ⟨hfirst, hrest⟩ := List.forall_mem_cons.mp h
      exact Nat.max_le.mpr ⟨hfirst, ih hrest⟩

/-! ## Binding -/

namespace Binding

variable {groups : List ShapeGroup} {path : Path} {params : Json.Members}

/-- Settings of the declared types give fields that conform, if no name is declared
twice. -/
theorem conforms_fieldsOf {s : Shape} (hs : (s.fields.map (·.name)).Nodup)
    (hsettings : ∀ entry ∈ (settings groups path params s.fields).1,
      ∃ f ∈ s.fields, f.name = entry.1 ∧ f.type.Conforms groups entry.2) :
    s.Conforms groups (Instance.fieldsOf (settings groups path params s.fields).1) := by
  refine .intro (fun entry hentry => ?_) (fun f hf v hv => ?_) (fun f hf hplain => ?_)
  · obtain ⟨f, hf, hname, -⟩ := hsettings entry (Instance.mem_fieldsOf hentry)
    exact ⟨f, hf, hname⟩
  · obtain ⟨f', hf', hname, hconforms⟩ := hsettings (f.name, v) (Instance.mem_fieldsOf hv)
    obtain rfl : f' = f := List.inj_on_of_nodup_map hs hf' hf hname
    exact hconforms
  · obtain ⟨w, hw⟩ := Coercion.exists_default? hplain
    have hname : f.name ∈ (Instance.fieldsOf (settings groups path params s.fields).1).map Prod.fst :=
      Instance.mem_names_fieldsOf.mpr (mem_names_settings hf hw)
    obtain ⟨⟨name, v⟩, hentry, rfl⟩ := List.mem_map.mp hname
    exact ⟨v, hentry⟩

theorem nodup_of_findShape? (hgroups : ∀ g ∈ groups, ∀ s ∈ g.shapes, (s.fields.map (·.name)).Nodup)
    {name : String} {s : Shape} (h : ShapeGroup.findShape? groups name = some s) :
    (s.fields.map (·.name)).Nodup := by
  obtain ⟨g, hg, hs⟩ := List.mem_flatMap.mp (List.mem_of_find?_eq_some h)
  exact hgroups g hg s hs

/-- What is set has the type of a declared field. -/
theorem conforms_of_mem_settings
    (hgroups : ∀ g ∈ groups, ∀ s ∈ g.shapes, (s.fields.map (·.name)).Nodup) (path : Path)
    (params : Json.Members) (fields : List Field) :
    ∀ entry ∈ (settings groups path params fields).1,
      ∃ f ∈ fields, f.name = entry.1 ∧ f.type.Conforms groups entry.2 := by
  refine forall_mem_settings (P := fun _ f v => f.type.Conforms groups v)
    Coercion.conforms_of_default? (fun _ h => Coercion.conforms_of_scalar h) ?_ path params fields
  intro params f members name shape path hraw htype hshape hinner
  have hconforms := conforms_fieldsOf (nodup_of_findShape? hgroups hshape) hinner
  obtain rfl : shape.name = name := by simpa using List.find?_some hshape
  rw [htype]
  exact .record hshape hconforms

/-- What is set nests no deeper than the parameters that it is set from. -/
theorem depth_le_of_mem_settings (groups : List ShapeGroup) (path : Path) (params : Json.Members)
    (fields : List Field) : ∀ entry ∈ (settings groups path params fields).1,
      entry.2.depth ≤ Json.depthOfMembers params := by
  refine forall_value_settings (P := fun params v => v.depth ≤ Json.depthOfMembers params)
    (Nat.zero_le _) ?_ path params fields
  intro params key members path shape hraw hinner
  have hfields : FieldValue.depthOfFields
      (Instance.fieldsOf (settings groups path members shape.fields).1) ≤
        Json.depthOfMembers members :=
    FieldValue.depthOfFields_le fun entry hentry => hinner entry (Instance.mem_fieldsOf hentry)
  exact Nat.le_trans (Nat.succ_le_succ hfields) (Json.depth_le_of_get? hraw)

theorem ordered_of_mem_settings (groups : List ShapeGroup) (path : Path) (params : Json.Members)
    (fields : List Field) : ∀ entry ∈ (settings groups path params fields).1, entry.2.Ordered := by
  refine forall_value_settings (P := fun _ v => v.Ordered) (.scalar _) ?_ path params fields
  intro params key members path shape _ hinner
  exact .record (Instance.fieldsOf_ascending _) fun entry hentry =>
    hinner entry (Instance.mem_fieldsOf hentry)

/-- The fields of bound instances stand in the order of their names. -/
theorem ordered_instantiate (groups : List ShapeGroup) (s : Shape) (params : Json.Members) :
    (instantiate groups s params).1.Ordered :=
  .record (Instance.fieldsOf_ascending _) fun entry hentry =>
    ordered_of_mem_settings groups _ params s.fields entry (Instance.mem_fieldsOf hentry)

/-- **Bound instances conform to their shapes.**  If no shape declares a name twice, then
whatever the parameters and however the shapes refer to each other, the instance of a shape
is named after it and conforms to it, has each field once, and nests no deeper than the
parameters. -/
theorem instantiate_conforms
    (hgroups : ∀ g ∈ groups, ∀ s ∈ g.shapes, (s.fields.map (·.name)).Nodup) {s : Shape}
    (hs : (s.fields.map (·.name)).Nodup) (params : Json.Members) :
    (instantiate groups s params).1.shape = s.name ∧
      s.Conforms groups (instantiate groups s params).1.fields ∧
      (instantiate groups s params).1.Ordered ∧
      (instantiate groups s params).1.asField.depth ≤ (Json.object params).depth := by
  refine ⟨rfl, ?_, ordered_instantiate groups s params, ?_⟩
  · exact conforms_fieldsOf hs (conforms_of_mem_settings hgroups (Path.ofString s.name) params s.fields)
  · have hinner := FieldValue.depthOfFields_le fun entry hentry =>
      depth_le_of_mem_settings groups (Path.ofString s.name) params s.fields entry
        (Instance.mem_fieldsOf hentry)
    rw [Instance.asField, FieldValue.depth, Json.depth]
    exact Nat.succ_le_succ hinner

/-- A shape that nests itself. -/
def person : Shape :=
  ⟨"person", [⟨"name", .string⟩, ⟨"age", .int⟩, ⟨"tier", .enum ["gold"]⟩, ⟨"parent", .shape "person"⟩]⟩

/-- A person, and one generation before. -/
def generations : Json.Members :=
  [("age", .string "41"), ("tier", .string "lead"),
    ("parent", .object [("name", .number (.int 7)), ("tier", .string "gold"), ("parent", .null)])]

theorem names_person_nodup : (person.fields.map (·.name)).Nodup := by decide

theorem names_family_nodup : ∀ g ∈ [ShapeGroup.mk "family" true [person]], ∀ s ∈ g.shapes,
    (s.fields.map (·.name)).Nodup := by
  simpa using names_person_nodup

theorem instantiate_generations :
    instantiate [⟨"family", true, [person]⟩] person generations =
      (⟨"person", [("age", .scalar (.int 41)), ("name", .scalar (.string "")),
          ("parent", .record "person" [("age", .scalar (.int 0)), ("name", .scalar (.string "7")),
            ("tier", .scalar (.string "gold"))])]⟩,
        [⟨⟨["person", "tier"]⟩, .notAVariant "lead" ["gold"]⟩,
          ⟨⟨["person", "parent", "parent"]⟩, .nullValue⟩]) := by
  have hage : Coercion.scalar .int (.string "41") = .ok (.int 41) := by decide +kernel
  have htier : Coercion.scalar (.enum ["gold"]) (.string "lead") =
      .error (.notAVariant "lead" ["gold"]) := by decide +kernel
  have hname : Coercion.scalar .string (.number (.int 7)) = .ok (.string "7") := by
    decide +kernel
  have hgold : Coercion.scalar (.enum ["gold"]) (.string "gold") = .ok (.string "gold") := by
    decide +kernel
  have hnull : Coercion.scalar (.shape "person") .null = .error .nullValue := by decide +kernel
  have hpaths : (Path.ofString "person").child "tier" = ⟨["person", "tier"]⟩ ∧
      ((Path.ofString "person").child "parent").child "parent" =
        ⟨["person", "parent", "parent"]⟩ := by decide +kernel
  have hnested : Instance.fieldsOf [("name", .scalar (.string "7")), ("age", .scalar (.int 0)),
      ("tier", .scalar (.string "gold"))] = [("age", .scalar (.int 0)),
        ("name", .scalar (.string "7")), ("tier", .scalar (.string "gold"))] := by
    simp only [Instance.fieldsOf, Instance.setField, List.foldl_cons, List.foldl_nil,
      String.reduceEq, String.reduceLT, if_true, if_false]
  have hfields (nested : FieldValue) : Instance.fieldsOf [("name", .scalar (.string "")),
      ("age", .scalar (.int 41)), ("parent", nested)] = [("age", .scalar (.int 41)),
        ("name", .scalar (.string "")), ("parent", nested)] := by
    simp only [Instance.fieldsOf, Instance.setField, List.foldl_cons, List.foldl_nil,
      String.reduceEq, String.reduceLT, if_true, if_false]
  simp [instantiate, settings, person, generations, Table.get?, Coercion.default?,
    ShapeGroup.findShape?, hage, htier, hname, hgold, hnull, hpaths, hnested, hfields]

theorem instantiate_conforms_person :
    (∀ g ∈ [ShapeGroup.mk "family" true [person]], ∀ s ∈ g.shapes, (s.fields.map (·.name)).Nodup) ∧
      (person.fields.map (·.name)).Nodup ∧
      person.Conforms [⟨"family", true, [person]⟩] [("age", .scalar (.int 41)),
        ("name", .scalar (.string "")), ("parent", .record "person" [("age", .scalar (.int 0)),
          ("name", .scalar (.string "7")), ("tier", .scalar (.string "gold"))])] := by
  obtain ⟨-, hconforms, -, -⟩ := instantiate_conforms names_family_nodup names_person_nodup generations
  rw [instantiate_generations] at hconforms
  exact ⟨names_family_nodup, names_person_nodup, hconforms⟩

end Binding

end Rulebook
