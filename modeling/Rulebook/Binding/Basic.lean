/-
  Binding/Basic.lean --- typed facts from untyped parameters.

  Binding is best effort.  A parameter that does not fit its field is reported with
  the path of the field, which keeps its default; a key that is no field is ignored.
-/
import Rulebook.Binding.Coercion
import Rulebook.Fact.Basic

set_option autoImplicit false

namespace Rulebook

/-- A parameter that was not bound. -/
structure BindDiagnostic where
  /-- The path of the field, from the name of the shape on. -/
  field : Path
  /-- Why it was not bound. -/
  problem : BindProblem
deriving DecidableEq, Repr

/-- The message for a diagnostic. -/
def BindDiagnostic.text (d : BindDiagnostic) : String := d.field.text ++ ": " ++ d.problem.message

/-- What binding did. -/
structure BindReport where
  /-- The package whose shapes were bound, if any package has rules. -/
  package : Option String
  /-- The number of typed facts. -/
  facts : Nat
  /-- The parameters that were not bound. -/
  diagnostics : List BindDiagnostic
deriving DecidableEq, Repr

namespace Binding

theorem sizeOf_of_get? {members : Json.Members} {key : String} {v : Json}
    (h : Table.get? members key = some v) : sizeOf v < sizeOf members := by
  induction members with
  | nil => simp at h
  | cons entry rest ih =>
    obtain ⟨k, w⟩ := entry
    simp only [Table.get?] at h
    split at h
    · simp only [Option.some.injEq] at h
      subst h
      simp only [List.cons.sizeOf_spec, Prod.mk.sizeOf_spec]
      omega
    · have := ih h
      simp only [List.cons.sizeOf_spec]
      omega

/-- The fields that are set from parameters, with what could not be bound.  A field of
a nested shape takes an object, whose members are bound the same way. -/
def settings (groups : List ShapeGroup) (path : Path) (params : Json.Members) :
    List Field → List (String × FieldValue) × List BindDiagnostic
  | [] => ([], [])
  | f :: rest =>
    let field := path.child f.name
    let default := (Coercion.default? f.type).map FieldValue.scalar
    let bound : Option FieldValue × List BindDiagnostic :=
      match _h : Table.get? params f.name with
      | none => (default, [])
      | some raw =>
        match f.type, raw with
        | .shape name, .object members =>
          match ShapeGroup.findShape? groups name with
          | none => (default, [⟨field, .unknownType name⟩])
          | some shape =>
            let (nested, diagnostics) := settings groups field members shape.fields
            (some (.record shape.name (Instance.fieldsOf nested)), diagnostics)
        | type, raw =>
          match Coercion.scalar type raw with
          | .ok v => (some (.scalar v), [])
          | .error problem => (default, [⟨field, problem⟩])
    let (others, diagnostics) := settings groups path params rest
    (bound.1.toList.map (fun v => (f.name, v)) ++ others, bound.2 ++ diagnostics)
termination_by fields => (sizeOf params, fields.length)
decreasing_by
  · have := sizeOf_of_get? _h
    simp only [Json.object.sizeOf_spec] at this
    exact Prod.Lex.left _ _ (by omega)
  · exact Prod.Lex.right _ (by simp)

/-- The instance of a shape that parameters give. -/
def instantiate (groups : List ShapeGroup) (shape : Shape) (params : Json.Members) :
    Instance × List BindDiagnostic :=
  let (fields, diagnostics) := settings groups (Path.ofString shape.name) params shape.fields
  (⟨shape.name, Instance.fieldsOf fields⟩, diagnostics)

/-- The facts of a request, in the order in which they are inserted: an instance of
each shape of the active group, the parameters, and the result. -/
def facts (groups : List ShapeGroup) (params : Json.Members) (handle : ResultHandle) :
    List Fact × BindReport :=
  let group := ShapeGroup.active? groups
  let bound := match group with
    | some g => g.shapes.map fun s => instantiate groups s params
    | none => []
  (bound.map (fun b => Fact.record b.1) ++ [.params params, .result handle],
    { package := group.map (·.package)
      facts := bound.length
      diagnostics := bound.flatMap Prod.snd })

/-- Insert the facts of a request into a session. -/
def bind {σ : Type} (insert : σ → Fact → σ) (groups : List ShapeGroup) (params : Json.Members)
    (handle : ResultHandle) (session : σ) : σ × BindReport :=
  let (inserted, report) := facts groups params handle
  (inserted.foldl insert session, report)

end Binding

end Rulebook
