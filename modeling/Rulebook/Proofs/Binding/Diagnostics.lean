/-
  Proofs/Binding/Diagnostics.lean --- bind diagnostics are exact.

  Binding comes to the fields of a shape and, where a parameter is an object of a known
  shape, to the fields of that shape (`Binding.Reaches`).  Listed depth first in the order
  of declaration (`Binding.sites`), each has its own value and its own diagnostic or none
  (`Binding.Outcome`), and the report is the diagnostics of the list
  (`settings_snd`).  What stands under other keys is never looked at
  (`settings_of_agree`).
-/
import Rulebook.Proofs.Binding.Conformity
import Rulebook.Proofs.Binding.Fields
import Rulebook.Proofs.Fact.Memory

set_option autoImplicit false

namespace Rulebook

/-- What names of fields lead to in a fact.  Every name but the last names a nested one. -/
def Instance.fieldAt? (i : Instance) : List String → Option FieldValue
  | [] => none
  | [last] => i.field? last
  | name :: rest => (i.record? name).bind (fieldAt? · rest)

theorem Instance.fieldAt?_cons {i : Instance} {name : String} {rest : List String} (h : rest ≠ []) :
    i.fieldAt? (name :: rest) = (i.record? name).bind (fieldAt? · rest) := by
  cases rest with
  | nil => exact absurd rfl h
  | cons _ _ => rfl

theorem Instance.record?_of_field? {i inner : Instance} {name : String}
    (h : i.field? name = some inner.asField) : i.record? name = some inner := by
  rw [record?, h]
  rfl

namespace Binding

variable {groups : List ShapeGroup} {params others : Json.Members}

/-! ## The fields that binding comes to -/

/-- A declared field that binding comes to. -/
structure Site where
  /-- The names of fields that lead to it. -/
  names : List String
  /-- Its type. -/
  type : FieldType
  /-- Its parameter, if there is one. -/
  raw : Option Json

namespace Site

/-- The field below another one. -/
def under (name : String) (site : Site) : Site := { site with names := name :: site.names }

/-- The diagnostic of the field itself, if its parameter is refused. -/
def diagnostic? (groups : List ShapeGroup) (root : Path) (site : Site) : Option BindDiagnostic :=
  (problem? groups site.type site.raw).map (⟨root.descend site.names, ·⟩)

theorem diagnostic?_under (groups : List ShapeGroup) (root : Path) (name : String) (site : Site) :
    (site.under name).diagnostic? groups root = site.diagnostic? groups (root.child name) :=
  rfl

end Site

/-- The fields that binding comes to, depth first in the order of declaration. -/
def sites (groups : List ShapeGroup) (params : Json.Members) : List Field → List Site
  | [] => []
  | f :: rest =>
    let inner := match _h : nested? groups f.type (Table.get? params f.name) with
      | some (shape, members) => (sites groups members shape.fields).map (Site.under f.name)
      | none => []
    ⟨[f.name], f.type, Table.get? params f.name⟩ :: (inner ++ sites groups params rest)
termination_by fields => (sizeOf params, fields.length)
decreasing_by
  · obtain ⟨-, hraw, -⟩ := nested?_eq_some _h
    have := sizeOf_of_get? hraw
    simp only [Json.object.sizeOf_spec] at this
    exact Prod.Lex.left _ _ (by omega)
  · exact Prod.Lex.right _ (by simp)

/-- Binding comes to a field: it is one of those that are bound, or one of the shape of
another one whose parameter is an object. -/
inductive Reaches (groups : List ShapeGroup) : List Field → Json.Members → Site → Prop
  | field {fields : List Field} {params : Json.Members} {f : Field} : f ∈ fields →
      Reaches groups fields params ⟨[f.name], f.type, Table.get? params f.name⟩
  | nested {fields : List Field} {params members : Json.Members} {f : Field} {shape : Shape}
      {site : Site} : f ∈ fields →
      nested? groups f.type (Table.get? params f.name) = some (shape, members) →
      Reaches groups shape.fields members site → Reaches groups fields params (site.under f.name)

theorem sites_cons (groups : List ShapeGroup) (params : Json.Members) (f : Field)
    (rest : List Field) :
    sites groups params (f :: rest) = ⟨[f.name], f.type, Table.get? params f.name⟩ ::
      (((nested? groups f.type (Table.get? params f.name)).toList.flatMap fun inner =>
        (sites groups inner.2 inner.1.fields).map (Site.under f.name)) ++
        sites groups params rest) := by
  rw [sites]
  split
  · rename_i shape members hnested
    simp [hnested]
  · rename_i hnested
    simp [hnested]

theorem mem_sites_cons {f : Field} {rest : List Field} {site : Site} :
    site ∈ sites groups params (f :: rest) ↔
      site = ⟨[f.name], f.type, Table.get? params f.name⟩ ∨
      (∃ shape members, nested? groups f.type (Table.get? params f.name) = some (shape, members) ∧
        ∃ inner ∈ sites groups members shape.fields, site = inner.under f.name) ∨
      site ∈ sites groups params rest := by
  rw [sites_cons, List.mem_cons, List.mem_append]
  simp [eq_comm]

theorem mem_sites_of_mem {fields : List Field} {f : Field} (hf : f ∈ fields) {site : Site}
    (h : site = ⟨[f.name], f.type, Table.get? params f.name⟩ ∨
      ∃ shape members, nested? groups f.type (Table.get? params f.name) = some (shape, members) ∧
        ∃ inner ∈ sites groups members shape.fields, site = inner.under f.name) :
    site ∈ sites groups params fields := by
  induction fields with
  | nil => exact absurd hf List.not_mem_nil
  | cons first rest ih =>
      rcases List.mem_cons.mp hf with rfl | hf
      · exact mem_sites_cons.mpr (h.imp_right .inl)
      · exact mem_sites_cons.mpr (.inr (.inr (ih hf)))

/-- The list has the fields that binding comes to and no others. -/
theorem mem_sites_iff (groups : List ShapeGroup) (params : Json.Members) (fields : List Field)
    {site : Site} : site ∈ sites groups params fields ↔ Reaches groups fields params site := by
  constructor
  · intro h
    induction params, fields using fields_induction groups generalizing site with
    | nil params => simp [sites] at h
    | cons params f rest ihNested ihRest =>
        rcases mem_sites_cons.mp h with rfl | ⟨shape, members, hnested, inner, hinner, rfl⟩ | hrest
        · exact .field List.mem_cons_self
        · exact .nested List.mem_cons_self hnested (ihNested shape members hnested hinner)
        · cases ihRest hrest with
          | field hf => exact .field (List.mem_cons_of_mem _ hf)
          | nested hf hnested hinner => exact .nested (List.mem_cons_of_mem _ hf) hnested hinner
  · intro h
    induction h with
    | field hf => exact mem_sites_of_mem hf (.inl rfl)
    | @nested fields params members f shape site hf hnested _ ihInner =>
        exact mem_sites_of_mem hf (.inr ⟨shape, members, hnested, site, ihInner, rfl⟩)

/-! ## Their diagnostics -/

/-- The diagnostics are those of the fields, in their order. -/
theorem settings_snd (groups : List ShapeGroup) (path : Path) (params : Json.Members)
    (fields : List Field) :
    (settings groups path params fields).2 =
      (sites groups params fields).filterMap (Site.diagnostic? groups path) := by
  induction params, fields using fields_induction groups generalizing path with
  | nil params => simp [settings, sites]
  | cons params f rest ihNested ihRest =>
      rw [settings_cons_snd, sites_cons, ← List.singleton_append, List.filterMap_append,
        List.filterMap_append, ← ihRest path, List.append_assoc]
      congr 1
      · cases hproblem : problem? groups f.type (Table.get? params f.name) with
        | none => simp [Site.diagnostic?, hproblem]
        | some problem => simp [Site.diagnostic?, hproblem, Path.descend]
      · cases hnested : nested? groups f.type (Table.get? params f.name) with
        | none => rfl
        | some inner =>
            obtain ⟨shape, members⟩ := inner
            simp [ihNested shape members hnested, List.filterMap_map, Function.comp_def,
              Site.diagnostic?_under]

theorem names_ne_nil {fields : List Field} {site : Site} (h : Reaches groups fields params site) :
    site.names ≠ [] := by
  cases h with
  | field _ => exact List.cons_ne_nil _ _
  | nested _ _ _ => exact List.cons_ne_nil _ _

theorem head_names {fields : List Field} {site : Site} (h : Reaches groups fields params site) :
    ∃ f ∈ fields, site.names.head? = some f.name := by
  cases h with
  | field hf => exact ⟨_, hf, rfl⟩
  | nested hf _ _ => exact ⟨_, hf, rfl⟩

/-- The fields below a field have more names than its own. -/
theorem names_below {f : Field} {raw : Option Json} {names : List String}
    (h : names ∈ ((nested? groups f.type raw).toList.flatMap fun inner =>
      (sites groups inner.2 inner.1.fields).map (Site.under f.name)).map Site.names) :
    ∃ tail, tail ≠ [] ∧ names = f.name :: tail := by
  obtain ⟨site, hsite, rfl⟩ := List.mem_map.mp h
  obtain ⟨inner, -, hsite⟩ := List.mem_flatMap.mp hsite
  obtain ⟨below, hbelow, rfl⟩ := List.mem_map.mp hsite
  exact ⟨below.names, names_ne_nil ((mem_sites_iff ..).mp hbelow), rfl⟩

/-- Binding comes to each field once. -/
theorem names_sites_nodup
    (hgroups : ∀ g ∈ groups, ∀ s ∈ g.shapes, (s.fields.map (·.name)).Nodup)
    (params : Json.Members) {fields : List Field} (hfields : (fields.map (·.name)).Nodup) :
    ((sites groups params fields).map Site.names).Nodup := by
  induction params, fields using fields_induction groups with
  | nil params => simp [sites]
  | cons params f rest ihNested ihRest =>
      obtain ⟨hfresh, hrest⟩ := List.nodup_cons.mp hfields
      have hothers : ∀ names ∈ (sites groups params rest).map Site.names,
          names.head? ≠ some f.name := by
        intro names hnames hhead
        obtain ⟨site, hsite, rfl⟩ := List.mem_map.mp hnames
        obtain ⟨g, hg, hname⟩ := head_names ((mem_sites_iff groups params rest).mp hsite)
        exact hfresh (List.mem_map.mpr ⟨g, hg, Option.some.inj (hname.symm.trans hhead)⟩)
      rw [sites_cons, List.map_cons, List.map_append]
      refine List.nodup_cons.mpr ⟨fun hmem => ?_, List.nodup_append.mpr ⟨?_, ihRest hrest, ?_⟩⟩
      · rcases List.mem_append.mp hmem with hbelow | hmem
        · obtain ⟨tail, htail, heq⟩ := names_below hbelow
          exact htail (List.cons.inj heq).2.symm
        · exact hothers _ hmem rfl
      · cases hnested : nested? groups f.type (Table.get? params f.name) with
        | none => exact List.nodup_nil
        | some inner =>
            obtain ⟨shape, members⟩ := inner
            obtain ⟨-, -, hshape⟩ := nested?_eq_some hnested
            have hinner := ihNested shape members hnested (nodup_of_findShape? hgroups hshape)
            have hnames : ((sites groups members shape.fields).map (Site.under f.name)).map Site.names =
                ((sites groups members shape.fields).map Site.names).map (f.name :: ·) := by
              rw [List.map_map, List.map_map]
              rfl
            simpa [hnames] using hinner.map List.cons_injective
      · rintro names hbelow _ hmem rfl
        obtain ⟨tail, -, rfl⟩ := names_below hbelow
        exact hothers _ hmem rfl

/-! ## Their values -/

/-- What becomes of a field, by its parameter: its value and its diagnostic. -/
inductive Outcome (groups : List ShapeGroup) (type : FieldType) :
    Option Json → Option FieldValue → Option BindProblem → Prop
  /-- Without a parameter the field has its default, if its type has one. -/
  | absent : Outcome groups type none ((Coercion.default? type).map .scalar) none
  /-- A parameter that can be read gives its value. -/
  | taken {raw : Json} {v : FieldValue} : read groups type raw = .ok v →
      Outcome groups type (some raw) (some v) none
  /-- One that cannot is reported, and the field has its default. -/
  | refused {raw : Json} {problem : BindProblem} : read groups type raw = .error problem →
      Outcome groups type (some raw) ((Coercion.default? type).map .scalar) (some problem)

theorem outcome (groups : List ShapeGroup) (type : FieldType) (raw : Option Json) :
    Outcome groups type raw (value? groups type raw) (problem? groups type raw) := by
  cases raw with
  | none => exact .absent
  | some raw =>
      cases hread : read groups type raw with
      | ok v => simpa [value?, problem?, hread] using Outcome.taken hread
      | error problem => simpa [value?, problem?, hread] using Outcome.refused hread

theorem problem?_null (groups : List ShapeGroup) (type : FieldType) :
    problem? groups type (some .null) = some .nullValue := by
  cases type <;> rfl

/-- The instance has at each field that binding comes to the value of the field. -/
theorem fieldAt?_of_reaches
    (hgroups : ∀ g ∈ groups, ∀ s ∈ g.shapes, (s.fields.map (·.name)).Nodup)
    {fields : List Field} (hfields : (fields.map (·.name)).Nodup) {site : Site}
    (h : Reaches groups fields params site) (shape : String) (path : Path) :
    Instance.fieldAt? ⟨shape, Instance.fieldsOf (settings groups path params fields).1⟩ site.names =
      value? groups site.type site.raw := by
  induction h generalizing shape path with
  | field hf =>
      rw [Instance.fieldAt?, Instance.field?_eq_get?]
      exact get?_fieldsOf_settings hfields hf
  | @nested fields params members f inner site hf hnested hinner ih =>
      have hvalue : Instance.field? ⟨shape, Instance.fieldsOf (settings groups path params fields).1⟩
          f.name = some (instantiate groups inner members).1.asField := by
        rw [Instance.field?_eq_get?, get?_fieldsOf_settings hfields hf, value?_of_nested? hnested]
      obtain ⟨-, -, hinnerShape⟩ := nested?_eq_some hnested
      rw [Site.under, Instance.fieldAt?_cons (names_ne_nil hinner), Instance.record?_of_field? hvalue]
      exact ih (nodup_of_findShape? hgroups hinnerShape) inner.name (Path.ofString inner.name)

/-! ## Other keys -/

/-- Parameters that are the same at every field that binding comes to. -/
inductive Agree (groups : List ShapeGroup) : List Field → Json.Members → Json.Members → Prop
  | nil {params others : Json.Members} : Agree groups [] params others
  | same {f : Field} {rest : List Field} {params others : Json.Members} :
      Table.get? params f.name = Table.get? others f.name → Agree groups rest params others →
      Agree groups (f :: rest) params others
  /-- Objects of a shape need only be the same at its fields. -/
  | nested {f : Field} {rest : List Field} {params others members others' : Json.Members}
      {shape : Shape} :
      nested? groups f.type (Table.get? params f.name) = some (shape, members) →
      nested? groups f.type (Table.get? others f.name) = some (shape, others') →
      Agree groups shape.fields members others' → Agree groups rest params others →
      Agree groups (f :: rest) params others

theorem agree_of_get? {fields : List Field}
    (h : ∀ f ∈ fields, Table.get? params f.name = Table.get? others f.name) :
    Agree groups fields params others := by
  induction fields with
  | nil => exact .nil
  | cons f rest ih =>
      obtain ⟨hf, hrest⟩ := List.forall_mem_cons.mp h
      exact .same hf (ih hrest)

/-- Parameters that agree are bound in the same way. -/
theorem settings_of_agree {fields : List Field} (h : Agree groups fields params others)
    (path : Path) : settings groups path params fields = settings groups path others fields := by
  induction h generalizing path with
  | nil => simp [settings]
  | same hget _ ih => rw [settings_cons_eq, settings_cons_eq, hget, ih]
  | nested hparams hothers _ _ ihInner ihRest =>
      rw [settings_cons_eq, settings_cons_eq, hparams, hothers, ihRest]
      simp only [ihInner]

/-- A key that is no field can stand anywhere among the parameters. -/
theorem agree_of_undeclared {fields : List Field} {k : String} (hk : ∀ f ∈ fields, f.name ≠ k)
    (before after : Json.Members) (v : Json) :
    Agree groups fields (before ++ after) (before ++ (k, v) :: after) :=
  agree_of_get? fun f hf => (Table.get?_insert_of_ne (hk f hf).symm before after v).symm

/-! ## What is reported -/

/-- What is taken from one item of a list only. -/
theorem filterMap_eq_toList {α β : Type} {as : List α} {g : α → Option β} (has : as.Nodup) {a : α}
    (ha : a ∈ as) (hothers : ∀ b ∈ as, b ≠ a → g b = none) : as.filterMap g = (g a).toList := by
  induction as with
  | nil => exact absurd ha List.not_mem_nil
  | cons first rest ih =>
      obtain ⟨hfresh, hrest⟩ := List.nodup_cons.mp has
      rcases List.mem_cons.mp ha with rfl | ha
      · have hnone : rest.filterMap g = [] := List.filterMap_eq_nil_iff.mpr fun b hb =>
          hothers b (List.mem_cons_of_mem _ hb) fun heq => hfresh (heq ▸ hb)
        rw [List.filterMap_cons, hnone]
        cases g a <;> rfl
      · have hfirst : g first = none :=
          hothers first List.mem_cons_self fun heq => hfresh (heq ▸ ha)
        rw [List.filterMap_cons, hfirst]
        exact ih hrest ha fun b hb => hothers b (List.mem_cons_of_mem _ hb)

/-- A path that no other field has is reported if and only if its field is. -/
theorem filter_diagnostics {reached : List Site} (hreached : (reached.map Site.names).Nodup)
    (root : Path) {site : Site} (hsite : site ∈ reached)
    (hpath : ∀ other ∈ reached, root.descend other.names = root.descend site.names → other = site) :
    (reached.filterMap (Site.diagnostic? groups root)).filter (·.field = root.descend site.names) =
      (site.diagnostic? groups root).toList := by
  rw [List.filter_filterMap, filterMap_eq_toList hreached.of_map hsite]
  · cases hproblem : problem? groups site.type site.raw <;> simp [Site.diagnostic?, hproblem]
  · intro other hother hne
    cases hproblem : problem? groups other.type other.raw with
    | none => simp [Site.diagnostic?, hproblem]
    | some problem =>
        have hother' : root.descend other.names ≠ root.descend site.names :=
          fun heq => hne (hpath other hother heq)
        simp [Site.diagnostic?, hproblem, hother']

/-- **Bind diagnostics are exact.**  If no shape declares a name twice, then the fields that
binding comes to, each listed once, depth first in the order of declaration, have these
outcomes: a field without a parameter has its default and no diagnostic, one whose parameter
can be read has what was read and no diagnostic of its own, and any other has its default and
one diagnostic.  There are no diagnostics but those, in that order; null is always refused;
and parameters that are the same at these fields are bound to the same instance with the
same diagnostics.  Names with dots can give two fields one path, which then stands for
both; a path of one field is reported once or not at all. -/
theorem instantiate_diagnostics_exact
    (hgroups : ∀ g ∈ groups, ∀ s ∈ g.shapes, (s.fields.map (·.name)).Nodup) {s : Shape}
    (hs : (s.fields.map (·.name)).Nodup) (params : Json.Members) :
    let root := Path.ofString s.name
    let reached := sites groups params s.fields
    let bound := instantiate groups s params
    bound.2 = reached.filterMap (Site.diagnostic? groups root) ∧
      (∀ site, site ∈ reached ↔ Reaches groups s.fields params site) ∧
      (reached.map Site.names).Nodup ∧
      (∀ site ∈ reached, Outcome groups site.type site.raw (bound.1.fieldAt? site.names)
        (problem? groups site.type site.raw)) ∧
      (∀ type, problem? groups type (some .null) = some .nullValue) ∧
      (∀ site ∈ reached,
        (∀ other ∈ reached, root.descend other.names = root.descend site.names → other = site) →
        bound.2.filter (·.field = root.descend site.names) = (site.diagnostic? groups root).toList) ∧
      ∀ others, Agree groups s.fields params others → instantiate groups s others = bound := by
  intro root reached bound
  have hreport : bound.2 = reached.filterMap (Site.diagnostic? groups root) :=
    settings_snd groups root params s.fields
  have hmem : ∀ site, site ∈ reached ↔ Reaches groups s.fields params site :=
    fun _ => mem_sites_iff groups params s.fields
  have honce : (reached.map Site.names).Nodup := names_sites_nodup hgroups params hs
  refine ⟨hreport, hmem, honce, fun site hsite => ?_, problem?_null groups, fun site hsite hpath => ?_,
    fun others hagree => ?_⟩
  · have hvalue : bound.1.fieldAt? site.names = value? groups site.type site.raw :=
      fieldAt?_of_reaches hgroups hs ((hmem site).mp hsite) s.name root
    rw [hvalue]
    exact outcome groups site.type site.raw
  · rw [hreport]
    exact filter_diagnostics honce root hsite hpath
  · simp only [bound, instantiate, settings_of_agree hagree]

theorem instantiate_diagnostics_exact_person :
    (∀ g ∈ [ShapeGroup.mk "family" true [person]], ∀ s ∈ g.shapes, (s.fields.map (·.name)).Nodup) ∧
      (person.fields.map (·.name)).Nodup ∧
      (instantiate [⟨"family", true, [person]⟩] person generations).2 =
        [⟨⟨["person", "tier"]⟩, .notAVariant "lead" ["gold"]⟩,
          ⟨⟨["person", "parent", "parent"]⟩, .nullValue⟩] ∧
      instantiate [⟨"family", true, [person]⟩] person (("pet", .null) :: generations) =
        instantiate [⟨"family", true, [person]⟩] person generations := by
  obtain ⟨-, -, -, -, -, -, hagree⟩ :=
    instantiate_diagnostics_exact names_family_nodup names_person_nodup generations
  refine ⟨names_family_nodup, names_person_nodup, by rw [instantiate_generations], hagree _ ?_⟩
  exact agree_of_undeclared (k := "pet") (by decide) [] generations .null

end Binding

end Rulebook
