/-
  Proofs/Binding/Typing.lean --- typed facts have the declared types.

  The check of a comparison follows the segments of its path through the declared shapes.
  Binding follows the declared shapes, too, but it joins their names and those of their
  fields with dots, and working memory knows only the segments in between.  Whatever is
  bound stands at a path that declared names spell, and has the type of the field that they
  lead to (`leads_of_mem_settings`).  If a path is spelled only by its own segments, the
  type is the one that was checked (`typed_comparison_comparable`).  Names with dots can
  spell the path of another field, of another type (`spelled_by_other_names`).
-/
import Rulebook.Proofs.Binding.Settings
import Rulebook.Proofs.Fact.Instance
import Rulebook.Proofs.Program.WellFormed
import Rulebook.Proofs.Session.Facts
import Rulebook.Proofs.Source.Literal

set_option autoImplicit false

namespace Rulebook

/-! ## Values of a type -/

/-- The values that fields of a type take. -/
inductive FieldType.Holds : FieldType → Value → Prop
  | int (n : Int64) : Holds .int (.int n)
  | float (x : Binary64) : x.isNaN = false → Holds .float (.float x)
  | bool (b : Bool) : Holds .bool (.bool b)
  | string (s : String) : Holds .string (.string s)
  | variant {variants : List String} {s : String} : s ∈ variants →
      Holds (.enum variants) (.string s)

/-- A value of a type can be compared with the literals that the type admits. -/
theorem FieldType.Holds.comparable {type : FieldType} {v literal : Value} (h : type.Holds v)
    (hadmits : type.Admits literal) (hliteral : ¬ literal.IsNaN) (op : Comparator) :
    (v.compare? op literal).isSome = true := by
  rw [Value.compare?, Option.isSome_map]
  cases h with
  | int n =>
      cases hadmits with
      | intInt m => rfl
      | intFloat y =>
          obtain ⟨o, ho⟩ := Binary64.exists_compare? (Binary64.isNaN_ofInt n.toInt)
            (Bool.eq_false_iff.mpr hliteral)
          exact Option.isSome_iff_exists.mpr ⟨o, ho⟩
  | float x hx =>
      cases hadmits with
      | floatInt m =>
          obtain ⟨o, ho⟩ := Binary64.exists_compare? hx (Binary64.isNaN_ofInt m.toInt)
          exact Option.isSome_iff_exists.mpr ⟨o, ho⟩
      | floatFloat y =>
          obtain ⟨o, ho⟩ := Binary64.exists_compare? hx (Bool.eq_false_iff.mpr hliteral)
          exact Option.isSome_iff_exists.mpr ⟨o, ho⟩
  | bool b => cases hadmits; rfl
  | string s => cases hadmits; rfl
  | variant _ => cases hadmits; rfl

/-- All doubles in the value are finite, as those of JSON texts are. -/
def Json.Finite (json : Json) : Prop :=
  ∀ keys x, json.Found keys (.number (.float x)) → x.isFinite = true

theorem Json.Finite.member {members : Json.Members} (h : (Json.object members).Finite)
    {key : String} {v : Json} (hv : Table.get? members key = some v) : v.Finite :=
  fun keys x hfound => h (key :: keys) x (.member (Table.mem_of_get? hv) hfound)

namespace Coercion

theorem float_not_nan {raw : Json} (hraw : raw.Finite) {x : Binary64} (h : float? raw = some x) :
    x.isNaN = false := by
  cases raw with
  | number n =>
      obtain rfl := Option.some.inj h
      cases n with
      | int n => exact Binary64.isNaN_ofInt n
      | float x => exact Binary64.isNaN_of_isFinite (hraw [] x (.here _))
  | string s => exact Binary64.isNaN_of_isFinite (Option.filter_eq_some_iff.mp h).2
  | null | bool _ | array _ | object _ => cases h

/-- A parameter that is taken has the declared type. -/
theorem holds_of_scalar {type : FieldType} {raw : Json} (hraw : raw.Finite) {v : Value}
    (h : scalar type raw = .ok v) : type.Holds v := by
  cases reads_of_scalar h with
  | int _ => exact .int _
  | float hx => exact .float _ (float_not_nan hraw hx)
  | bool _ => exact .bool _
  | string _ => exact .string _
  | variant hmem => exact .variant hmem

/-- The default of a field has its type. -/
theorem holds_of_default? {type : FieldType} {v : Value} (h : default? type = some v) :
    type.Holds v := by
  cases type with
  | int => obtain rfl := Option.some.inj h; exact .int 0
  | float => obtain rfl := Option.some.inj h; exact .float _ (Binary64.isNaN_ofMagnitude (Nat.zero_le _))
  | bool => obtain rfl := Option.some.inj h; exact .bool false
  | string => obtain rfl := Option.some.inj h; exact .string ""
  | enum _ => cases h
  | shape _ => cases h

end Coercion

theorem FieldType.Holds.isScalar {type : FieldType} {v : Value} (h : type.Holds v) :
    type.isScalar = true := by
  cases h <;> rfl

/-! ## Settings -/

namespace Binding

/-- **What is bound has the declared type.**  A value that a setting writes stands where
names of declared fields lead, and is one of the type of the field at the end. -/
theorem leads_of_mem_settings (groups : List ShapeGroup) (path : Path) (params : Json.Members)
    (fields : List Field) (hparams : (Json.object params).Finite) {s : Shape}
    (hfields : ∀ f ∈ fields, f ∈ s.fields) {entry : String × FieldValue}
    (hentry : entry ∈ (settings groups path params fields).1) {root : Path} {w : Write}
    (hw : w ∈ Write.ofFieldValue (root.child entry.1) entry.2) :
    ∃ names type, s.Leads (groups.flatMap (·.shapes)) names type ∧ w.1 = root.descend names ∧
      type.Holds w.2 := by
  induction path, params, fields using settings.induct groups generalizing s entry root with
  | case1 path params => simp [settings] at hentry
  | case2 path params f rest field nested diagnostics _ ihNested ihRest =>
      have hf : f ∈ s.fields := hfields f List.mem_cons_self
      have hscalar {v : Value} (hv : f.type.Holds v) (hname : entry.1 = f.name)
          (hw : w ∈ Write.ofFieldValue (root.child entry.1) (.scalar v)) :
          ∃ names type, s.Leads (groups.flatMap (·.shapes)) names type ∧
            w.1 = root.descend names ∧ type.Holds w.2 := by
        obtain rfl := List.mem_singleton.mp hw
        exact ⟨[f.name], f.type, .field hf hv.isScalar, by rw [hname]; rfl, hv⟩
      rcases sets_of_mem_settings hentry with ⟨hname, hsets⟩ | hrest
      · obtain ⟨name, value⟩ := entry
        cases hsets with
        | default h => exact hscalar (Coercion.holds_of_default? h) hname hw
        | scalar hraw h => exact hscalar (Coercion.holds_of_scalar (hparams.member hraw) h) hname hw
        | @record members target shape hraw htype hshape =>
            obtain ⟨inner, value, hmem, hinner⟩ := Write.mem_ofFields hw
            obtain ⟨names, type, hleads, hpath, hholds⟩ := ihNested members hraw shape
              (hparams.member hraw) (fun _ h => h) (Instance.mem_fieldsOf hmem) hinner
            obtain rfl : shape.name = target := by simpa using List.find?_some hshape
            obtain rfl : name = f.name := hname
            exact ⟨f.name :: names, type,
              .nested hf htype (List.mem_of_find?_eq_some hshape) hleads, hpath, hholds⟩
      · exact ihRest hparams (fun f h => hfields f (List.mem_cons_of_mem _ h)) hrest hw

end Binding

/-! ## Paths that names spell -/

/-- The names of a declared shape and of fields that lead to a scalar field, joined with
dots, give the path. -/
def Path.Spelled (shapes : List Shape) (p : Path) (type : FieldType) : Prop :=
  ∃ s ∈ shapes, ∃ names, s.Leads shapes names type ∧ p = (ofString s.name).descend names

theorem Path.splitDots_of_not_mem {cs : List Char} (h : '.' ∉ cs) : splitDots cs = [cs] := by
  induction cs with
  | nil => rfl
  | cons c rest ih =>
      obtain ⟨hc, hrest⟩ := not_or.mp (List.mem_cons.not.mp h)
      simp [splitDots, Ne.symm hc, ih hrest]

theorem Path.segments_ofString {name : String} (h : '.' ∉ name.toList) :
    (ofString name).segments = [name] := by
  simp [ofString, splitDots_of_not_mem h]

section

variable {shapes : List Shape}
  (hshapes : ∀ s ∈ shapes, '.' ∉ s.name.toList ∧ ∀ f ∈ s.fields, '.' ∉ f.name.toList)
include hshapes

/-- Names of fields without dots are the segments that they become. -/
theorem Shape.Leads.segments {s : Shape} (hs : s ∈ shapes) {names : List String}
    {type : FieldType} (h : s.Leads shapes names type) :
    (names.flatMap fun name => (Path.ofString name).segments) = names := by
  induction h with
  | field hf _ => simp [Path.segments_ofString ((hshapes _ hs).2 _ hf)]
  | nested hf _ hnext _ ih =>
      rw [List.flatMap_cons, Path.segments_ofString ((hshapes _ hs).2 _ hf), ih hnext]
      rfl

/-- Names without dots spell a path only as its own segments. -/
theorem Path.reads_of_spelled {p : Path} {type : FieldType} (h : p.Spelled shapes type) :
    p.Reads shapes type := by
  obtain ⟨s, hs, names, hleads, rfl⟩ := h
  refine ⟨s, hs, names, ?_, hleads⟩
  rw [segments_descend, segments_ofString (hshapes s hs).1, hleads.segments hshapes hs]
  rfl

end

/-- The shapes of all packages. -/
def Program.shapes (p : Program) : List Shape := p.groups.flatMap (·.shapes)

theorem Binding.spelled_of_mem_instances {groups : List ShapeGroup} {params : Json.Members}
    (hparams : (Json.object params).Finite) {i : Instance} (hi : i ∈ instances groups params)
    {w : Write} (hw : w ∈ Write.ofInstance i) :
    ∃ type, w.1.Spelled (groups.flatMap (·.shapes)) type ∧ type.Holds w.2 := by
  obtain ⟨g, s, hg, hs, rfl⟩ := mem_instances hi
  obtain ⟨name, value, hentry, hvalue⟩ := Write.mem_ofFields hw
  obtain ⟨names, type, hleads, hpath, hholds⟩ := leads_of_mem_settings groups
    (Path.ofString s.name) params s.fields hparams (fun _ h => h) (Instance.mem_fieldsOf hentry)
    hvalue
  have hmem : s ∈ groups.flatMap (·.shapes) :=
    List.mem_flatMap.mpr ⟨g, List.mem_of_find?_eq_some hg, hs⟩
  exact ⟨type, ⟨s, hmem, names, hleads, hpath⟩, hholds⟩

namespace Program

theorem shapes_lower (packages : List Package) (digest : Digest) :
    (lower packages digest).shapes = Package.allShapes packages :=
  List.flatMap_map ..

/-- **Typed comparisons are comparisons.**  A text compiles, and facts that are not typed
were inserted before a request is bound.  Take a comparison of a rule whose path starts at
a declared shape, where all names that spell the path are its own segments.  Then working
memory has at that path no value, or one that can be compared with the literal. -/
theorem typed_comparison_comparable {source : String} {p : Program}
    (hp : ofSource source = .ok p) (earlier : List Fact)
    (hearlier : ∀ fact ∈ earlier, ∀ i, fact ≠ .record i) (params : Json.Members)
    (hparams : (Json.object params).Finite) (handle : ResultHandle) {r : CompiledRule}
    (hr : r ∈ p.rules) {path : Path} {op : Comparator} {literal : Value}
    (hcomparison : (path, op, literal) ∈ r.condition.comparisons) {s : Shape} (hs : s ∈ p.shapes)
    (hroot : path.Under s.name)
    (hspelled : ∀ type, path.Spelled p.shapes type → path.Reads p.shapes type) :
    ∀ v, (Binding.bind Session.insert p.groups params handle
        (earlier.foldl Session.insert (.new p))).1.memory.get? path = some v →
      (v.compare? op literal).isSome = true := by
  intro v hv
  obtain ⟨packages, hread, hdefects, rfl⟩ := lower_of_ofSource hp
  have hwf := (defects_eq_nil_iff packages).mp hdefects
  rw [shapes_lower] at hs
  obtain ⟨hnotParams, hnotContext⟩ := hwf.shapes.unreserved s hs
  have helsewhere : ¬ (path.Under "params" ∨ path.Under "context") := by
    rintro (hparams | hcontext)
    · exact hnotParams (Option.some.inj (hroot.symm.trans hparams))
    · exact hnotContext (Option.some.inj (hroot.symm.trans hcontext))
  have hrule : r.rule ∈ Package.allRules packages :=
    (arranges_lower _ hdefects).perm.mem_iff.mp (List.mem_map_of_mem hr)
  obtain ⟨hmemory, hdisposed⟩ := Session.memory_foldl_insert
    (s := .new (lower packages (Digest.ofText source))) rfl earlier
  rw [Binding.memory_bind hdisposed, hmemory] at hv
  rcases Memory.mem_cells_write (Memory.mem_of_get? hv) with hbefore | hbound
  · obtain ⟨fact, hfact, hw⟩ := List.mem_flatMap.mp (Memory.mem_of_mem_write_empty hbefore)
    exact absurd (Fact.under_of_mem_writes (hearlier fact hfact) hw) helsewhere
  · rcases List.mem_append.mp hbound with hinstance | hparam
    · obtain ⟨i, hi, hw⟩ := List.mem_flatMap.mp hinstance
      obtain ⟨type, hpath, hholds⟩ := Binding.spelled_of_mem_instances hparams hi hw
      have hreads := hspelled type hpath
      rw [shapes_lower] at hreads
      have hadmits : type.Admits literal :=
        hwf.rules.literals_admitted r.rule hrule path op literal hcomparison type hreads
      exact hholds.comparable hadmits
        (Source.comparable_of_packages hread r.rule hrule _ hcomparison) op
    · exact absurd (Or.inl ((Session.under_of_mem_rootWrites hparam "params").2.mpr rfl)) helsewhere

/-- A nested shape, and comparisons with fields of both. -/
def customers : String :=
  "declare order amount:float customer:person end declare person name:string end\n" ++
    "rule r:order.customer.name==\"Ada\" AND order.amount>=2"

/-- The packages of `customers`. -/
def customersPackages : List Package :=
  [⟨Package.defaultName,
    [⟨"order", [⟨"amount", .float⟩, ⟨"customer", .shape "person"⟩]⟩, ⟨"person", [⟨"name", .string⟩]⟩],
    [⟨"r", .and (.compare ⟨["order", "customer", "name"]⟩ .equal (.string "Ada"))
      (.compare ⟨["order", "amount"]⟩ .greaterOrEqual (.int 2)), none, []⟩]⟩]

/-- Parameters that name a customer. -/
def named : Json.Members := [("customer", .object [("name", .string "Bob")])]

theorem typed_comparison_comparable_customers :
    ∃ p, ofSource customers = .ok p ∧
      (Binding.bind Session.insert p.groups named ⟨"result"⟩ (.new p)).1.memory.get?
        ⟨["order", "customer", "name"]⟩ = some (.string "Bob") ∧
      ((Value.string "Bob").compare? .equal (.string "Ada")).isSome = true := by
  have hread : Source.packages customers.toList = .ok customersPackages := by decide +kernel
  have hfields :
      Check.allFieldDefects (Check.declared (Package.allShapes customersPackages)) = [] :=
    Check.allFieldDefects_eq_nil_iff.mpr (by decide +kernel)
  have hdefects : defects customersPackages = [] := by
    simp only [defects, hfields]
    decide +kernel
  have hcompile : ofSource customers =
      .ok (lower customersPackages (Digest.ofText customers)) :=
    ofSource_of_packages hread hdefects
  have hrules : lowerRules (Package.allRules customersPackages) =
      [⟨"r", .and (.compare ⟨["order", "customer", "name"]⟩ .equal (.string "Ada"))
        (.compare ⟨["order", "amount"]⟩ .greaterOrEqual (.int 2)), [], none, 0, 0⟩] := by
    decide +kernel
  have hinstances : Binding.instances (groupsOf customersPackages) named =
      [⟨"order", [("amount", .scalar (.float .zero)),
        ("customer", .record "person" [("name", .scalar (.string "Bob"))])]⟩,
        ⟨"person", [("name", .scalar (.string ""))]⟩] := by
    have hname : Coercion.scalar .string (.string "Bob") = .ok (.string "Bob") := by
      decide +kernel
    have hone : ∀ entry : String × FieldValue, Instance.fieldsOf [entry] = [entry] := fun _ => rfl
    have htwo : Instance.fieldsOf [("amount", .scalar (.float .zero)),
        ("customer", .record "person" [("name", .scalar (.string "Bob"))])] =
        [("amount", .scalar (.float .zero)),
          ("customer", .record "person" [("name", .scalar (.string "Bob"))])] := by
      simp only [Instance.fieldsOf, Instance.setField, List.foldl_cons, List.foldl_nil,
        String.reduceEq, String.reduceLT, if_false]
    simp [Binding.instances, groupsOf, ShapeGroup.active?, Binding.instantiate, Binding.settings,
      customersPackages, named, Table.get?, Coercion.default?, ShapeGroup.findShape?, hname, hone,
      htwo]
  have hget : (Binding.bind Session.insert (groupsOf customersPackages) named ⟨"result"⟩
      (.new (lower customersPackages (Digest.ofText customers)))).1.memory.get?
        ⟨["order", "customer", "name"]⟩ = some (.string "Bob") := by
    rw [Binding.memory_bind rfl, hinstances]
    decide +kernel
  have hfinite : (Json.object named).Finite := by
    intro keys x hfound
    cases hfound with
    | member hmem hfound =>
        obtain ⟨rfl, rfl⟩ := Prod.mk.inj (List.mem_singleton.mp hmem)
        cases hfound with
        | member hmem hfound =>
            obtain ⟨rfl, rfl⟩ := Prod.mk.inj (List.mem_singleton.mp hmem)
            cases hfound
  have hshapes : ∀ s ∈ Package.allShapes customersPackages, '.' ∉ s.name.toList ∧
      ∀ f ∈ s.fields, '.' ∉ f.name.toList := by decide +kernel
  refine ⟨_, hcompile, hget, ?_⟩
  refine typed_comparison_comparable hcompile [] (by simp) named hfinite ⟨"result"⟩
    (hrules ▸ List.mem_singleton_self _) List.mem_cons_self
    (s := ⟨"order", [⟨"amount", .float⟩, ⟨"customer", .shape "person"⟩]⟩) ?_ ?_ ?_ _ hget
  · rw [shapes_lower]
    exact List.mem_cons_self
  · rfl
  · rw [shapes_lower]
    exact fun type => Path.reads_of_spelled hshapes

/-- A field of a nested shape, and a field of another type of a shape with a dot in its
name. -/
def ambiguous : String :=
  "declare A\n  b: B\nend\ndeclare B\n  x: int\nend\ndeclare A.b\n  x: string\nend\n" ++
    "rule r:\n  A.b.x == 5\n  then set hit = true"

/-- The packages of `ambiguous`. -/
def ambiguousPackages : List Package :=
  [⟨Package.defaultName,
    [⟨"A", [⟨"b", .shape "B"⟩]⟩, ⟨"B", [⟨"x", .int⟩]⟩, ⟨"A.b", [⟨"x", .string⟩]⟩],
    [⟨"r", .compare ⟨["A", "b", "x"]⟩ .equal (.int 5), none,
      [.set "hit" (.literal (.bool true))]⟩]⟩]

/-- The path is checked as that of a whole number, and has a text, although the parameters
give the number that it is compared with. -/
theorem spelled_by_other_names :
    ∃ p, ofSource ambiguous = .ok p ∧
      (∃ r ∈ p.rules, (⟨["A", "b", "x"]⟩, .equal, .int 5) ∈ r.condition.comparisons) ∧
      (∃ s ∈ p.shapes, Path.Under s.name ⟨["A", "b", "x"]⟩) ∧
      (Binding.bind Session.insert p.groups [("b", .object [("x", .number (.int 5))])] ⟨"result"⟩
        (.new p)).1.memory.get? ⟨["A", "b", "x"]⟩ = some (.string "") ∧
      (Value.string "").compare? .equal (.int 5) = none := by
  have hread : Source.packages ambiguous.toList = .ok ambiguousPackages := by decide +kernel
  have hfields :
      Check.allFieldDefects (Check.declared (Package.allShapes ambiguousPackages)) = [] :=
    Check.allFieldDefects_eq_nil_iff.mpr (by decide +kernel)
  have hdefects : defects ambiguousPackages = [] := by
    simp only [defects, hfields]
    decide +kernel
  have hcompile : ofSource ambiguous =
      .ok (lower ambiguousPackages (Digest.ofText ambiguous)) :=
    ofSource_of_packages hread hdefects
  have hrules : lowerRules (Package.allRules ambiguousPackages) =
      [⟨"r", .compare ⟨["A", "b", "x"]⟩ .equal (.int 5), [.set "hit" (.literal (.bool true))],
        none, 0, 0⟩] := by decide +kernel
  have hinstances : Binding.instances (groupsOf ambiguousPackages)
      [("b", .object [("x", .number (.int 5))])] =
      [⟨"A", [("b", .record "B" [("x", .scalar (.int 5))])]⟩,
        ⟨"B", [("x", .scalar (.int 0))]⟩, ⟨"A.b", [("x", .scalar (.string ""))]⟩] := by
    have hnumber : Coercion.scalar .int (.number (.int 5)) = .ok (.int 5) := by decide +kernel
    simp [Binding.instances, groupsOf, ShapeGroup.active?, Binding.instantiate, Binding.settings,
      ambiguousPackages, Table.get?, Coercion.default?, ShapeGroup.findShape?,
      Instance.fieldsOf, Instance.setField, hnumber]
  refine ⟨_, hcompile, ⟨_, hrules ▸ List.mem_singleton_self _, List.mem_singleton_self _⟩,
    ⟨_, List.mem_cons_self, rfl⟩, ?_, rfl⟩
  rw [Binding.memory_bind rfl]
  change (Memory.empty.write ((Binding.instances (groupsOf ambiguousPackages) _).flatMap _ ++ _)).get?
    _ = _
  rw [hinstances]
  decide +kernel

end Program

end Rulebook
