/-
  Proofs/Program/WellFormed.lean --- which packages compile.

  Packages compile if and only if they are well-formed (`Package.WellFormed`).  Every check
  is silent if and only if one of the conditions holds; the checks of paths are about the
  table of declared shapes, which lists the shapes as they are once the checks of shapes are
  silent (`get?_declared_of_wellFormed`).
-/
import Rulebook.Proofs.Program.Acyclic
import Rulebook.Proofs.Program.Arrangement

set_option autoImplicit false

namespace Rulebook

/-! ## Well-formed packages -/

/-- Shapes that facts can be made of. -/
structure Shape.WellFormed (shapes : List Shape) : Prop where
  unreserved : ∀ s ∈ shapes, s.name ≠ "params" ∧ s.name ≠ "context"
  names_nodup : (shapes.map (·.name)).Nodup
  fields_nodup : ∀ s ∈ shapes, (s.fields.map (·.name)).Nodup
  types_declared : ∀ s ∈ shapes, ∀ f ∈ s.fields, ∀ target, f.type = .shape target →
    target ∈ shapes.map (·.name)

/-- The names of fields that lead from a shape through nested shapes to a scalar field, with
the type of that field. -/
inductive Shape.Leads (shapes : List Shape) : Shape → List String → FieldType → Prop
  | field {s : Shape} {f : Field} : f ∈ s.fields → f.type.isScalar = true →
      Leads shapes s [f.name] f.type
  | nested {s next : Shape} {f : Field} {rest : List String} {type : FieldType} :
      f ∈ s.fields → f.type = .shape next.name → next ∈ shapes →
      Leads shapes next rest type → Leads shapes s (f.name :: rest) type

/-- The path starts at one of the two dynamic roots and goes on. -/
def Path.Dynamic (p : Path) : Prop :=
  ∃ root rest, p.segments = root :: rest ∧ (root = "params" ∨ root = "context") ∧ rest ≠ []

/-- The path starts at a declared shape and leads to a field of a scalar type. -/
def Path.Reads (shapes : List Shape) (p : Path) (type : FieldType) : Prop :=
  ∃ s ∈ shapes, ∃ rest, p.segments = s.name :: rest ∧ s.Leads shapes rest type

/-- The literals that fields of a type are compared with. -/
inductive FieldType.Admits : FieldType → Value → Prop
  | intInt (n : Int64) : Admits .int (.int n)
  | intFloat (x : Binary64) : Admits .int (.float x)
  | floatInt (n : Int64) : Admits .float (.int n)
  | floatFloat (x : Binary64) : Admits .float (.float x)
  | bool (b : Bool) : Admits .bool (.bool b)
  | string (s : String) : Admits .string (.string s)
  | variant {variants : List String} {s : String} : s ∈ variants →
      Admits (.enum variants) (.string s)

/-- The paths that a rule reads: those of its comparisons and those of its set actions. -/
def Rule.ReadsPath (r : Rule) (p : Path) : Prop :=
  (∃ op literal, (p, op, literal) ∈ r.condition.comparisons) ∨
    ∃ key, .set key (.path p) ∈ r.actions

/-- The rule of one name refers to another name. -/
def Rule.Refers (rules : List Rule) (a b : String) : Prop :=
  ∃ r ∈ rules, r.name = a ∧ b ∈ r.condition.references

/-- The rule of one name refers to the rule of another. -/
def Rule.Links (rules : List Rule) (a b : String) : Prop :=
  ∃ r ∈ rules, ∃ s ∈ rules, r.name = a ∧ s.name = b ∧ b ∈ r.condition.references

/-- Rules over shapes that can be evaluated. -/
structure Rule.WellFormed (shapes : List Shape) (rules : List Rule) : Prop where
  names_nodup : (rules.map (·.name)).Nodup
  references_declared : ∀ r ∈ rules, ∀ name ∈ r.condition.references,
    name ∈ rules.map (·.name)
  acyclic : ∀ name, ¬ Relation.TransGen (Rule.Refers rules) name name
  paths_lead : ∀ r ∈ rules, ∀ p, r.ReadsPath p → p.Dynamic ∨ ∃ type, p.Reads shapes type
  literals_admitted : ∀ r ∈ rules, ∀ p op literal, (p, op, literal) ∈ r.condition.comparisons →
    ∀ type, p.Reads shapes type → type.Admits literal

/-- Packages whose shapes and rules are well-formed. -/
structure Package.WellFormed (packages : List Package) : Prop where
  shapes : Shape.WellFormed (allShapes packages)
  rules : Rule.WellFormed (allShapes packages) (allRules packages)

namespace Check

/-! ## Shapes -/

theorem nameDefects_eq_nil_iff (earlier : List String) (shapes : List Shape) :
    nameDefects earlier shapes = [] ↔ (∀ s ∈ shapes, s.name ∉ dynamicRoots) ∧
      (shapes.map (·.name)).Nodup ∧ ∀ s ∈ shapes, s.name ∉ earlier := by
  induction shapes generalizing earlier with
  | nil => simp [nameDefects]
  | cons s rest ih =>
      rw [nameDefects, List.forall_mem_cons, distinct_cons Shape.name]
      by_cases hroot : s.name ∈ dynamicRoots
      · simp [hroot]
      by_cases hearlier : s.name ∈ earlier
      · simp [hroot, hearlier]
      · simp only [hroot, hearlier, if_false, ih, not_false_eq_true, true_and]

theorem fieldDefects_cons (table : Table String Shape) (shape : String) (earlier : List String)
    (f : Field) (rest : List Field) :
    fieldDefects table shape earlier (f :: rest) =
      fieldDefects table shape earlier [f] ++ fieldDefects table shape (f.name :: earlier) rest := by
  simp [fieldDefects]

theorem fieldDefects_singleton_eq_nil_iff (table : Table String Shape) (shape : String)
    (earlier : List String) (f : Field) :
    fieldDefects table shape earlier [f] = [] ↔
      f.name ∉ earlier ∧ ∀ target, f.type = .shape target → table.has target = true := by
  simp only [fieldDefects, List.append_eq_nil_iff, ite_eq_right_iff, List.cons_ne_nil, imp_false,
    and_true]
  cases f.type with
  | shape target => cases hhas : table.has target <;> simp [hhas]
  | int | float | bool | string | enum => simp

theorem fieldDefects_eq_nil_iff (table : Table String Shape) (shape : String)
    (earlier : List String) (fields : List Field) :
    fieldDefects table shape earlier fields = [] ↔ (fields.map (·.name)).Nodup ∧
      (∀ f ∈ fields, f.name ∉ earlier) ∧
      ∀ f ∈ fields, ∀ target, f.type = .shape target → table.has target = true := by
  induction fields generalizing earlier with
  | nil => simp [fieldDefects]
  | cons f rest ih =>
      have hdistinct := distinct_cons Field.name earlier f rest
      rw [fieldDefects_cons, List.append_eq_nil_iff, fieldDefects_singleton_eq_nil_iff, ih,
        ← and_assoc (a := ((f :: rest).map Field.name).Nodup), hdistinct, List.forall_mem_cons]
      tauto

theorem not_mem_dynamicRoots {name : String} :
    name ∉ dynamicRoots ↔ name ≠ "params" ∧ name ≠ "context" := by
  simp [dynamicRoots]

/-- Shapes with good names are all declared. -/
theorem declared_eq {shapes : List Shape} (hroots : ∀ s ∈ shapes, s.name ∉ dynamicRoots)
    (hnames : (shapes.map (·.name)).Nodup) :
    declared shapes = shapes.map fun s => (s.name, s) := by
  have hkept : shapes.filter (·.name ∉ dynamicRoots) = shapes :=
    List.filter_eq_self.mpr fun s hs => by simpa using hroots s hs
  rw [declared, hkept]
  apply Table.ofEntries_of_nodup
  simpa [Function.comp_def] using hnames

theorem get?_declared {shapes : List Shape} (hroots : ∀ s ∈ shapes, s.name ∉ dynamicRoots)
    (hnames : (shapes.map (·.name)).Nodup) {name : String} {s : Shape} :
    (declared shapes).get? name = some s ↔ s ∈ shapes ∧ s.name = name := by
  have hkeys : ((declared shapes).keys).Nodup := Table.keys_ofEntries_nodup _
  rw [Table.get?_eq_some_iff hkeys, declared_eq hroots hnames, List.mem_map]
  constructor
  · rintro ⟨s', hs', heq⟩
    obtain ⟨rfl, rfl⟩ := Prod.mk.inj heq
    exact ⟨hs', rfl⟩
  · rintro ⟨hs, rfl⟩
    exact ⟨s, hs, rfl⟩

theorem has_declared {shapes : List Shape} (hroots : ∀ s ∈ shapes, s.name ∉ dynamicRoots)
    (hnames : (shapes.map (·.name)).Nodup) {name : String} :
    (declared shapes).has name = true ↔ name ∈ shapes.map (·.name) := by
  rw [Table.has, Option.isSome_iff_exists, List.mem_map]
  exact exists_congr fun s => get?_declared hroots hnames

/-- Whether the fields have defects does not depend on the order of the shapes. -/
theorem allFieldDefects_eq_nil_iff {shapes : Table String Shape} :
    allFieldDefects shapes = [] ↔
      ∀ s ∈ shapes.map Prod.snd, fieldDefects shapes s.name [] s.fields = [] := by
  rw [allFieldDefects, List.flatMap_eq_nil_iff]
  simp only [List.mem_mergeSort]

theorem shapeDefects_eq_nil_iff (shapes : List Shape) :
    nameDefects [] shapes = [] ∧ allFieldDefects (declared shapes) = [] ↔
      Shape.WellFormed shapes := by
  rw [nameDefects_eq_nil_iff]
  have hfields (hroots : ∀ s ∈ shapes, s.name ∉ dynamicRoots)
      (hnames : (shapes.map (·.name)).Nodup) :
      allFieldDefects (declared shapes) = [] ↔ ∀ s ∈ shapes, (s.fields.map (·.name)).Nodup ∧
        ∀ f ∈ s.fields, ∀ target, f.type = .shape target → target ∈ shapes.map (·.name) := by
    have hvalues : (declared shapes).map Prod.snd = shapes := by
      rw [declared_eq hroots hnames, List.map_map]
      exact List.map_id _
    rw [allFieldDefects_eq_nil_iff, hvalues]
    simp only [fieldDefects_eq_nil_iff, has_declared hroots hnames,
      List.not_mem_nil, not_false_eq_true, implies_true, true_and]
  constructor
  · rintro ⟨⟨hroots, hnames, -⟩, hsilent⟩
    have hall := (hfields hroots hnames).mp hsilent
    exact ⟨fun s hs => not_mem_dynamicRoots.mp (hroots s hs), hnames,
      fun s hs => (hall s hs).1, fun s hs => (hall s hs).2⟩
  · intro h
    have hroots : ∀ s ∈ shapes, s.name ∉ dynamicRoots :=
      fun s hs => not_mem_dynamicRoots.mpr (h.unreserved s hs)
    refine ⟨⟨hroots, h.names_nodup, by simp⟩, (hfields hroots h.names_nodup).mpr ?_⟩
    exact fun s hs => ⟨h.fields_nodup s hs, h.types_declared s hs⟩

end Check

/-! ## Paths -/

namespace Shape

section

variable {shapes : List Shape}

theorem not_leads_nil {s : Shape} {type : FieldType} : ¬ s.Leads shapes [] type := by
  rintro ⟨⟩

theorem leads_singleton_iff {s : Shape} {name : String} {type : FieldType} :
    s.Leads shapes [name] type ↔
      ∃ f ∈ s.fields, f.name = name ∧ f.type.isScalar = true ∧ f.type = type := by
  constructor
  · intro h
    cases h with
    | field hf hscalar => exact ⟨_, hf, rfl, hscalar, rfl⟩
    | nested _ _ _ hrest => exact absurd hrest not_leads_nil
  · rintro ⟨f, hf, rfl, hscalar, rfl⟩
    exact .field hf hscalar

theorem leads_cons_cons_iff {s : Shape} {first second : String} {rest : List String}
    {type : FieldType} :
    s.Leads shapes (first :: second :: rest) type ↔ ∃ f ∈ s.fields, f.name = first ∧
      ∃ next ∈ shapes, f.type = .shape next.name ∧ next.Leads shapes (second :: rest) type := by
  constructor
  · intro h
    cases h with
    | nested hf htype hnext hrest => exact ⟨_, hf, rfl, _, hnext, htype, hrest⟩
  · rintro ⟨f, hf, rfl, next, hnext, htype, hrest⟩
    exact .nested hf htype hnext hrest

end

end Shape

namespace Check

section

variable {shapes : List Shape} (h : Shape.WellFormed shapes)

include h

theorem get?_declared_of_wellFormed {name : String} {s : Shape} :
    (declared shapes).get? name = some s ↔ s ∈ shapes ∧ s.name = name :=
  get?_declared (fun s hs => not_mem_dynamicRoots.mpr (h.unreserved s hs)) h.names_nodup

/-- Behind a declared shape every name is known: names of fields lead to a scalar field, or
they are undefined. -/
theorem resolveIn_eq_typed_iff {s : Shape} (hs : s ∈ shapes) (segments : List String)
    (type : FieldType) :
    resolveIn (declared shapes) s segments = .typed type ↔ s.Leads shapes segments type := by
  induction segments generalizing s with
  | nil => simp [resolveIn, Shape.not_leads_nil]
  | cons first rest ih =>
      have hfound (f : Field) : s.field? first = some f ↔ f ∈ s.fields ∧ f.name = first :=
        find?_iff_of_nodup (h.fields_nodup s hs)
      cases rest with
      | nil =>
          rw [Shape.leads_singleton_iff]
          constructor
          · intro hresolve
            simp only [resolveIn] at hresolve
            split at hresolve
            · rename_i f hf
              split at hresolve
              · rename_i hscalar
                obtain ⟨hmem, hname⟩ := (hfound f).mp hf
                exact ⟨f, hmem, hname, hscalar, PathType.typed.inj hresolve⟩
              · cases hresolve
            · cases hresolve
          · rintro ⟨f, hmem, hname, hscalar, rfl⟩
            simp only [resolveIn, (hfound f).mpr ⟨hmem, hname⟩, hscalar, if_true]
      | cons second rest =>
          rw [Shape.leads_cons_cons_iff]
          constructor
          · intro hresolve
            simp only [resolveIn] at hresolve
            split at hresolve
            · rename_i f hf
              split at hresolve
              · rename_i target htype
                split at hresolve
                · rename_i next hnext
                  obtain ⟨hmem, hname⟩ := (hfound f).mp hf
                  obtain ⟨hdeclared, rfl⟩ := (get?_declared_of_wellFormed h).mp hnext
                  exact ⟨f, hmem, hname, next, hdeclared, htype, (ih hdeclared).mp hresolve⟩
                · cases hresolve
              · cases hresolve
            · cases hresolve
          · rintro ⟨f, hmem, hname, next, hnext, htype, hrest⟩
            simp only [resolveIn, (hfound f).mpr ⟨hmem, hname⟩, htype,
              (get?_declared_of_wellFormed h).mpr ⟨hnext, rfl⟩]
            exact (ih hnext).mpr hrest

theorem resolveIn_ne_untyped {s : Shape} (hs : s ∈ shapes) (segments : List String) :
    resolveIn (declared shapes) s segments ≠ .untyped := by
  induction segments generalizing s with
  | nil => simp [resolveIn]
  | cons first rest ih =>
      cases rest with
      | nil =>
          simp only [resolveIn]
          split
          · split <;> simp
          · simp
      | cons second rest =>
          simp only [resolveIn]
          split
          · rename_i f hf
            split
            · rename_i target htype
              have htarget : target ∈ shapes.map (·.name) :=
                h.types_declared s hs f (List.mem_of_find?_eq_some hf) target htype
              obtain ⟨next, hnext, rfl⟩ := List.mem_map.mp htarget
              rw [(get?_declared_of_wellFormed h).mpr ⟨hnext, rfl⟩]
              exact ih hnext
            · simp
          · simp

theorem resolve_eq_typed_iff (p : Path) (type : FieldType) :
    resolve (declared shapes) p = .typed type ↔ p.Reads shapes type := by
  obtain ⟨segments⟩ := p
  cases segments with
  | nil => simp [resolve, Path.Reads]
  | cons root rest =>
      simp only [resolve]
      by_cases hroot : root ∈ dynamicRoots
      · -- no declared shape has the name of a dynamic root
        have hnone : ¬ Path.Reads shapes ⟨root :: rest⟩ type := by
          rintro ⟨s, hs, rest', heq, -⟩
          obtain ⟨rfl, -⟩ := List.cons.inj heq
          exact not_mem_dynamicRoots.mpr (h.unreserved s hs) hroot
        rw [if_pos hroot]
        split <;> simp [hnone]
      · rw [if_neg hroot]
        constructor
        · intro hresolve
          split at hresolve
          · rename_i s hget
            obtain ⟨hs, rfl⟩ := (get?_declared_of_wellFormed h).mp hget
            exact ⟨s, hs, rest, rfl, (resolveIn_eq_typed_iff h hs rest type).mp hresolve⟩
          · cases hresolve
        · rintro ⟨s, hs, rest', heq, hleads⟩
          obtain ⟨rfl, rfl⟩ := List.cons.inj heq
          rw [(get?_declared_of_wellFormed h).mpr ⟨hs, rfl⟩]
          exact (resolveIn_eq_typed_iff h hs rest type).mpr hleads

theorem resolve_eq_untyped_iff (p : Path) :
    resolve (declared shapes) p = .untyped ↔ p.Dynamic := by
  obtain ⟨segments⟩ := p
  cases segments with
  | nil => simp [resolve, Path.Dynamic]
  | cons root rest =>
      have hdynamic : Path.Dynamic ⟨root :: rest⟩ ↔ root ∈ dynamicRoots ∧ rest ≠ [] := by
        simp [Path.Dynamic, dynamicRoots]
      rw [hdynamic]
      simp only [resolve]
      by_cases hroot : root ∈ dynamicRoots
      · cases rest <;> simp [hroot]
      · rw [if_neg hroot]
        simp only [hroot, false_and, iff_false]
        split
        · rename_i s hget
          exact resolveIn_ne_untyped h ((get?_declared_of_wellFormed h).mp hget).1 rest
        · simp

/-- A path is defined if it is dynamic or reads a scalar field. -/
theorem resolve_ne_undefined_iff (p : Path) :
    resolve (declared shapes) p ≠ .undefined ↔ p.Dynamic ∨ ∃ type, p.Reads shapes type := by
  rw [← resolve_eq_untyped_iff h]
  simp only [← resolve_eq_typed_iff h]
  cases resolve (declared shapes) p <;> simp

/-! ## Literals -/

omit h in
theorem literalDefect?_eq_none_iff (rule field : String) (type : FieldType) (literal : Value) :
    literalDefect? rule field type literal = none ↔ type.Admits literal := by
  constructor
  · intro hnone
    cases type <;> cases literal <;> simp only [literalDefect?, reduceCtorEq] at hnone
    case int.int => exact .intInt _
    case int.float => exact .intFloat _
    case float.int => exact .floatInt _
    case float.float => exact .floatFloat _
    case bool.bool => exact .bool _
    case string.string => exact .string _
    case enum.string => exact .variant (by simpa using hnone)
  · intro hadmits
    cases hadmits with
    | variant hmem => simp [literalDefect?, hmem]
    | intInt | intFloat | floatInt | floatFloat | bool | string => rfl

theorem comparisonDefect?_eq_none_iff (rule : String) (p : Path) (literal : Value) :
    comparisonDefect? (declared shapes) rule p literal = none ↔
      (p.Dynamic ∨ ∃ type, p.Reads shapes type) ∧
        ∀ type, p.Reads shapes type → type.Admits literal := by
  rw [← resolve_ne_undefined_iff h]
  simp only [← resolve_eq_typed_iff h, comparisonDefect?]
  cases resolve (declared shapes) p with
  | typed type => simp [literalDefect?_eq_none_iff]
  | untyped | undefined => simp

theorem actionDefect?_eq_none_iff (rule : String) (a : Action) :
    actionDefect? (declared shapes) rule a = none ↔ ∀ key p, a = .set key (.path p) →
      p.Dynamic ∨ ∃ type, p.Reads shapes type := by
  simp only [← resolve_ne_undefined_iff h]
  cases a with
  | set key operand =>
      cases operand with
      | literal v => simp [actionDefect?]
      | path p => simp [actionDefect?]
  | fail | log => simp [actionDefect?]

theorem pathDefects_eq_nil_iff (r : Rule) :
    pathDefects (declared shapes) r = [] ↔
      (∀ p, r.ReadsPath p → p.Dynamic ∨ ∃ type, p.Reads shapes type) ∧
        ∀ p op literal, (p, op, literal) ∈ r.condition.comparisons →
          ∀ type, p.Reads shapes type → type.Admits literal := by
  simp only [pathDefects, List.append_eq_nil_iff, List.filterMap_eq_nil_iff,
    comparisonDefect?_eq_none_iff h, actionDefect?_eq_none_iff h]
  constructor
  · rintro ⟨hcomparisons, hactions⟩
    refine ⟨?_, fun p op literal hmem => (hcomparisons (p, op, literal) hmem).2⟩
    rintro p (⟨op, literal, hmem⟩ | ⟨key, hmem⟩)
    · exact (hcomparisons (p, op, literal) hmem).1
    · exact hactions _ hmem key p rfl
  · rintro ⟨hpaths, hliterals⟩
    refine ⟨?_, ?_⟩
    · rintro ⟨p, op, literal⟩ hmem
      exact ⟨hpaths p (Or.inl ⟨op, literal, hmem⟩), hliterals p op literal hmem⟩
    · rintro a hmem key p rfl
      exact hpaths p (Or.inr ⟨key, hmem⟩)

end

end Check

/-! ## Rules -/

namespace Dependency

/-- The references that are followed are those between rules. -/
theorem refers_ofRules_eq_links (rules : List Rule) : Refers (ofRules rules) = Rule.Links rules := by
  funext a b
  apply propext
  constructor
  · rintro ⟨_, hd, rfl, hb⟩
    obtain ⟨r, hr, rfl⟩ := List.mem_map.mp hd
    obtain ⟨hrefers, hdeclared⟩ := List.mem_filter.mp hb
    obtain ⟨s, hs, rfl⟩ := List.mem_map.mp (of_decide_eq_true hdeclared)
    exact ⟨r, hr, s, hs, rfl, rfl, hrefers⟩
  · rintro ⟨r, hr, s, hs, rfl, rfl, hrefers⟩
    refine ⟨_, List.mem_map_of_mem hr, rfl, List.mem_filter.mpr ⟨hrefers, ?_⟩⟩
    exact decide_eq_true (List.mem_map_of_mem hs)

/-- Of declared references none is left out. -/
theorem refers_ofRules {rules : List Rule}
    (hknown : ∀ r ∈ rules, ∀ name ∈ r.condition.references, name ∈ rules.map (·.name)) :
    Refers (ofRules rules) = Rule.Refers rules := by
  rw [refers_ofRules_eq_links]
  funext a b
  apply propext
  constructor
  · rintro ⟨r, hr, -, -, hname, -, hb⟩
    exact ⟨r, hr, hname, hb⟩
  · rintro ⟨r, hr, hname, hb⟩
    obtain ⟨s, hs, hsname⟩ := List.mem_map.mp (hknown r hr b hb)
    exact ⟨r, hr, s, hs, hname, hsname, hb⟩

theorem mem_names_of_mem_references {rules : List Rule} :
    ∀ d ∈ ofRules rules, ∀ r ∈ d.references, r ∈ (ofRules rules).map (·.name) := by
  intro d hd name hname
  obtain ⟨r, -, rfl⟩ := List.mem_map.mp hd
  rw [map_name_ofRules]
  simpa using (List.mem_filter.mp hname).2

/-- The order has all rules if and only if no rule refers to itself. -/
theorem order_length_iff {rules : List Rule} (hnames : (rules.map (·.name)).Nodup)
    (hknown : ∀ r ∈ rules, ∀ name ∈ r.condition.references, name ∈ rules.map (·.name)) :
    (order (ofRules rules)).length = rules.length ↔
      ∀ name, ¬ Relation.TransGen (Rule.Refers rules) name name := by
  have hgraph : ((ofRules rules).map (·.name)).Nodup := by
    rw [map_name_ofRules]
    exact hnames
  rw [← length_ofRules rules, order_length_iff_acyclic hgraph mem_names_of_mem_references,
    Acyclic, refers_ofRules hknown]

end Dependency

namespace Program

/-- No defect is found if and only if the packages are well-formed. -/
theorem defects_eq_nil_iff (packages : List Package) :
    defects packages = [] ↔ Package.WellFormed packages := by
  simp only [defects, List.append_eq_nil_iff, List.flatMap_eq_nil_iff]
  constructor
  · rintro ⟨⟨⟨⟨hshapes, hduplicates⟩, hreferences⟩, hpaths⟩, hcircle⟩
    have hwf := (Check.shapeDefects_eq_nil_iff _).mp hshapes
    have hnames := ((Check.duplicateDefects_eq_nil_iff [] _).mp hduplicates).1
    have hknown := (Check.referenceDefects_eq_nil_iff _).mp hreferences
    simp only [Check.pathDefects_eq_nil_iff hwf] at hpaths
    refine ⟨hwf, hnames, hknown, ?_, fun r hr => (hpaths r hr).1, fun r hr => (hpaths r hr).2⟩
    rw [← Dependency.order_length_iff hnames hknown]
    by_contra hlength
    simp [hduplicates, hlength] at hcircle
  · rintro ⟨hwf, hrules⟩
    have hduplicates := (Check.duplicateDefects_eq_nil_iff [] _).mpr ⟨hrules.names_nodup, by simp⟩
    have hlength := (Dependency.order_length_iff hrules.names_nodup
      hrules.references_declared).mpr hrules.acyclic
    refine ⟨⟨⟨⟨(Check.shapeDefects_eq_nil_iff _).mpr hwf, hduplicates⟩, ?_⟩, ?_⟩, ?_⟩
    · exact (Check.referenceDefects_eq_nil_iff _).mpr hrules.references_declared
    · intro r hr
      exact (Check.pathDefects_eq_nil_iff hwf r).mpr
        ⟨hrules.paths_lead r hr, hrules.literals_admitted r hr⟩
    · simp [hlength]

/-- **Exactly the well-formed packages compile.**  Packages that do not compile are refused
with at least one defect. -/
theorem compile_iff_wellFormed (packages : List Package) (digest : Digest) :
    ((∃ p, compile packages digest = .ok p) ↔ Package.WellFormed packages) ∧
      ∀ found, compile packages digest = .error found → found ≠ [] := by
  rw [← defects_eq_nil_iff]
  unfold compile
  simp only
  by_cases hnone : (defects packages).isEmpty = true
  · rw [if_pos hnone]
    exact ⟨⟨fun _ => List.isEmpty_iff.mp hnone, fun _ => ⟨_, rfl⟩⟩, fun found h => by cases h⟩
  · rw [if_neg hnone]
    rw [List.isEmpty_iff] at hnone
    refine ⟨⟨?_, fun h => absurd h hnone⟩, ?_⟩
    · rintro ⟨p, h⟩
      cases h
    · rintro found h
      cases h
      exact hnone

end Program

end Rulebook
