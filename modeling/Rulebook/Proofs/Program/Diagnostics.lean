/-
  Proofs/Program/Diagnostics.lean --- which defects are reported.

  The defects of packages are reported stage by stage (`filter_defects`), and within
  a stage each defect as often as it is there.  The names of rules and their references are
  checked as they are written.  The fields of shapes are checked shape by shape in the table
  of declared shapes, which has one shape of each name: the last, unless the name is
  reserved (`Shape.InForce`).  Of the other shapes only the names are reported, and not what
  is wrong with their fields (`overwritten_shape_unreported`).
-/
import Rulebook.Proofs.Program.WellFormed

set_option autoImplicit false

namespace Rulebook

/-! ## Stages -/

/-- The checks, in the order in which they report. -/
inductive Check.Stage
  | names
  | fields
  | duplicates
  | references
  | paths
  | cycles
deriving DecidableEq

/-- The check that reports a defect. -/
def Defect.stage : Defect → Check.Stage
  | .reservedShape _ | .duplicateShape _ => .names
  | .duplicateField _ _ | .unknownType _ _ _ => .fields
  | .duplicateRule _ => .duplicates
  | .undefinedReference _ _ => .references
  | .undefinedField _ _ | .typeMismatch _ _ _ _ | .unknownVariant _ _ _ => .paths
  | .cycle _ => .cycles

/-- The shape with whose fields something is wrong. -/
def Defect.shape? : Defect → Option String
  | .duplicateField shape _ | .unknownType shape _ _ => some shape
  | _ => none

namespace Check

theorem stage_of_mem_nameDefects {earlier : List String} {shapes : List Shape} {d : Defect}
    (h : d ∈ nameDefects earlier shapes) : d.stage = .names := by
  induction shapes generalizing earlier with
  | nil => cases h
  | cons s rest ih =>
      rw [nameDefects] at h
      split at h
      · rcases List.mem_cons.mp h with rfl | h
        · rfl
        · exact ih h
      · split at h
        · rcases List.mem_cons.mp h with rfl | h
          · rfl
          · exact ih h
        · exact ih h

/-- The checks of the fields of a shape name the shape. -/
theorem shape?_of_mem_fieldDefects {table : Table String Shape} {shape : String}
    {earlier : List String} {fields : List Field} {d : Defect}
    (h : d ∈ fieldDefects table shape earlier fields) :
    d.stage = .fields ∧ d.shape? = some shape := by
  induction fields generalizing earlier with
  | nil => cases h
  | cons f rest ih =>
      rw [fieldDefects] at h
      rcases List.mem_append.mp h with h | h
      · rcases List.mem_append.mp h with h | h
        · split at h
          · obtain rfl := List.mem_singleton.mp h
            exact ⟨rfl, rfl⟩
          · cases h
        · split at h
          · split at h
            · cases h
            · obtain rfl := List.mem_singleton.mp h
              exact ⟨rfl, rfl⟩
          · cases h
      · exact ih h

theorem stage_of_mem_allFieldDefects {table : Table String Shape} {d : Defect}
    (h : d ∈ allFieldDefects table) : d.stage = .fields := by
  obtain ⟨s, -, hd⟩ := List.mem_flatMap.mp h
  exact (shape?_of_mem_fieldDefects hd).1

theorem stage_of_mem_duplicateDefects {earlier : List String} {rules : List Rule} {d : Defect}
    (h : d ∈ duplicateDefects earlier rules) : d.stage = .duplicates := by
  induction rules generalizing earlier with
  | nil => cases h
  | cons r rest ih =>
      rw [duplicateDefects] at h
      rcases List.mem_append.mp h with h | h
      · split at h
        · obtain rfl := List.mem_singleton.mp h
          rfl
        · cases h
      · exact ih h

theorem stage_of_mem_referenceDefects {rules : List Rule} {d : Defect}
    (h : d ∈ referenceDefects rules) : d.stage = .references := by
  obtain ⟨r, -, hd⟩ := List.mem_flatMap.mp h
  obtain ⟨name, -, rfl⟩ := List.mem_map.mp hd
  rfl

theorem stage_of_literalDefect? {rule field : String} {type : FieldType} {literal : Value}
    {d : Defect} (h : literalDefect? rule field type literal = some d) : d.stage = .paths := by
  unfold literalDefect? at h
  split at h
  · cases h
  · cases h
  · cases h
  · cases h
  · cases h
  · cases h
  · split at h
    · cases h
    · obtain rfl := Option.some.inj h
      rfl
  · obtain rfl := Option.some.inj h
    rfl

theorem stage_of_mem_pathDefects {table : Table String Shape} {r : Rule} {d : Defect}
    (h : d ∈ pathDefects table r) : d.stage = .paths := by
  rcases List.mem_append.mp h with h | h
  · obtain ⟨⟨path, op, literal⟩, -, hd⟩ := List.mem_filterMap.mp h
    simp only [comparisonDefect?] at hd
    split at hd
    · exact stage_of_literalDefect? hd
    · cases hd
    · obtain rfl := Option.some.inj hd
      rfl
  · obtain ⟨a, -, hd⟩ := List.mem_filterMap.mp h
    unfold actionDefect? at hd
    split at hd
    · split at hd
      · obtain rfl := Option.some.inj hd
        rfl
      · cases hd
    · cases hd

/-- Of what one check finds the stage selects all or nothing. -/
theorem filter_stage {found : List Defect} {stage : Stage} (h : ∀ d ∈ found, d.stage = stage)
    (other : Stage) :
    found.filter (·.stage = other) = if stage = other then found else [] := by
  split
  · rename_i hsame
    exact List.filter_eq_self.mpr fun d hd => decide_eq_true ((h d hd).trans hsame)
  · rename_i hne
    exact List.filter_eq_nil_iff.mpr fun d hd => by simpa [h d hd] using hne

end Check

namespace Program

/-- What the check of a stage finds. -/
def found (packages : List Package) : Check.Stage → List Defect
  | .names => Check.nameDefects [] (Package.allShapes packages)
  | .fields => Check.allFieldDefects (Check.declared (Package.allShapes packages))
  | .duplicates => Check.duplicateDefects [] (Package.allRules packages)
  | .references => Check.referenceDefects (Package.allRules packages)
  | .paths =>
    (Package.allRules packages).flatMap
      (Check.pathDefects (Check.declared (Package.allShapes packages)))
  | .cycles =>
    let rules := Package.allRules packages
    let graph := Dependency.ofRules rules
    if !(Check.duplicateDefects [] rules).isEmpty
        || (Dependency.order graph).length = rules.length then []
    else [.cycle ((Dependency.cycle? graph).getD [])]

theorem stage_of_mem_found {packages : List Package} {stage : Check.Stage} {d : Defect}
    (h : d ∈ found packages stage) : d.stage = stage := by
  cases stage with
  | names => exact Check.stage_of_mem_nameDefects h
  | fields => exact Check.stage_of_mem_allFieldDefects h
  | duplicates => exact Check.stage_of_mem_duplicateDefects h
  | references => exact Check.stage_of_mem_referenceDefects h
  | paths =>
      obtain ⟨r, -, hd⟩ := List.mem_flatMap.mp h
      exact Check.stage_of_mem_pathDefects hd
  | cycles =>
      simp only [found] at h
      split at h
      · cases h
      · obtain rfl := List.mem_singleton.mp h
        rfl

/-- The defects of a stage are those that its check finds. -/
theorem filter_defects (packages : List Package) (stage : Check.Stage) :
    (defects packages).filter (·.stage = stage) = found packages stage := by
  have hdefects : defects packages = found packages .names ++ found packages .fields
      ++ found packages .duplicates ++ found packages .references ++ found packages .paths
      ++ found packages .cycles := rfl
  have hfilter (other : Check.Stage) :=
    Check.filter_stage (fun d (hd : d ∈ found packages other) => stage_of_mem_found hd) stage
  simp only [hdefects, List.filter_append, hfilter]
  cases stage <;> simp

theorem filter_stage_defects (packages : List Package) :
    (defects packages).filter (·.stage = .fields) =
        Check.allFieldDefects (Check.declared (Package.allShapes packages)) ∧
      (defects packages).filter (·.stage = .duplicates) =
        Check.duplicateDefects [] (Package.allRules packages) ∧
      (defects packages).filter (·.stage = .references) =
        Check.referenceDefects (Package.allRules packages) :=
  ⟨filter_defects packages .fields, filter_defects packages .duplicates,
    filter_defects packages .references⟩

end Program

/-! ## Repeated names -/

namespace Check

/-- The names of a list that stand there, or among earlier ones, before. -/
def repeats (earlier : List String) : List String → List String
  | [] => []
  | name :: rest => (if name ∈ earlier then [name] else []) ++ repeats (name :: earlier) rest

/-- A name is repeated as often as it stands there, but for the first time. -/
theorem count_repeats (earlier names : List String) (name : String) :
    (repeats earlier names).count name =
      if name ∈ earlier then names.count name else names.count name - 1 := by
  induction names generalizing earlier with
  | nil => simp [repeats]
  | cons first rest ih =>
      rw [repeats, List.count_append, ih]
      by_cases hfirst : first = name
      · subst hfirst
        by_cases hearlier : first ∈ earlier
        · simp [hearlier, Nat.add_comm]
        · simp [hearlier]
      · have hnone : (if first ∈ earlier then [first] else []).count name = 0 := by
          split <;> simp [hfirst]
        simp [hnone, hfirst, Ne.symm hfirst]

theorem duplicateDefects_eq (earlier : List String) (rules : List Rule) :
    duplicateDefects earlier rules =
      (repeats earlier (rules.map (·.name))).map Defect.duplicateRule := by
  induction rules generalizing earlier with
  | nil => rfl
  | cons r rest ih =>
      rw [duplicateDefects, ih, List.map_cons, repeats, List.map_append]
      congr 1
      split <;> rfl

theorem count_duplicateDefects (rules : List Rule) (name : String) :
    (duplicateDefects [] rules).count (.duplicateRule name) =
      (rules.map (·.name)).count name - 1 := by
  rw [duplicateDefects_eq, List.count_map_of_injective _ _ fun _ _ h => Defect.duplicateRule.inj h,
    count_repeats]
  simp

/-! ## Fields -/

section

variable (table : Table String Shape) (shape : String) (earlier : List String)

theorem count_duplicateField (fields : List Field) (name : String) :
    (fieldDefects table shape earlier fields).count (.duplicateField shape name) =
      (repeats earlier (fields.map (·.name))).count name := by
  induction fields generalizing earlier with
  | nil => rfl
  | cons f rest ih =>
      have hfirst : (fieldDefects table shape earlier [f]).count (.duplicateField shape name) =
          (if f.name ∈ earlier then [f.name] else []).count name := by
        obtain ⟨field, type⟩ := f
        by_cases hearlier : field ∈ earlier <;> cases type with
        | shape target =>
            cases hhas : table.has target <;>
              simp [fieldDefects, hearlier, hhas, List.count_cons]
        | int | float | bool | string | enum =>
            simp [fieldDefects, hearlier, List.count_cons]
      rw [fieldDefects_cons, List.count_append, hfirst, ih, ← List.count_append]
      rfl

theorem count_unknownType (fields : List Field) (name target : String) :
    (fieldDefects table shape earlier fields).count (.unknownType shape name target) =
      if table.has target then 0 else fields.count ⟨name, .shape target⟩ := by
  induction fields generalizing earlier with
  | nil => simp [fieldDefects]
  | cons f rest ih =>
      have hfirst : (fieldDefects table shape earlier [f]).count (.unknownType shape name target) =
          if table.has target then 0 else [f].count ⟨name, .shape target⟩ := by
        obtain ⟨field, type⟩ := f
        cases type with
        | shape other =>
            by_cases hsame : other = target
            · subst hsame
              by_cases hearlier : field ∈ earlier <;> cases hhas : table.has other <;>
                simp [fieldDefects, hearlier, hhas, List.count_cons]
            · by_cases hearlier : field ∈ earlier <;> cases hhas : table.has other <;>
                simp [fieldDefects, hearlier, hhas, hsame]
        | int | float | bool | string | enum =>
            by_cases hearlier : field ∈ earlier <;> simp [fieldDefects, hearlier]
      have hcount : (f :: rest).count ⟨name, .shape target⟩ =
          [f].count ⟨name, .shape target⟩ + rest.count ⟨name, .shape target⟩ := by
        rw [← List.count_append, List.singleton_append]
      rw [fieldDefects_cons, List.count_append, hfirst, ih, hcount]
      split <;> rfl

end

/-! ## References -/

theorem count_references (names : List String) (rules : List Rule) (name reference : String) :
    (rules.flatMap fun r => (r.condition.references.filter (· ∉ names)).map
        (Defect.undefinedReference r.name)).count (.undefinedReference name reference) =
      if reference ∈ names then 0
      else ((rules.filter (·.name = name)).flatMap (·.condition.references)).count reference := by
  induction rules with
  | nil => simp
  | cons r rest ih =>
      rw [List.flatMap_cons, List.count_append, ih]
      by_cases hname : r.name = name
      · subst hname
        rw [List.count_map_of_injective _ _ fun _ _ h => (Defect.undefinedReference.inj h).2]
        by_cases hdeclared : reference ∈ names
        · have hnone : reference ∉ r.condition.references.filter (· ∉ names) := by
            simp [hdeclared]
          rw [List.count_eq_zero.mpr hnone, if_pos hdeclared, if_pos hdeclared]
        · rw [List.count_filter (by simpa using hdeclared), if_neg hdeclared, if_neg hdeclared,
            List.filter_cons_of_pos (by simp), List.flatMap_cons, List.count_append]
      · have hnone : Defect.undefinedReference name reference ∉
            (r.condition.references.filter (· ∉ names)).map (Defect.undefinedReference r.name) := by
          intro hmem
          obtain ⟨_, -, heq⟩ := List.mem_map.mp hmem
          exact hname (Defect.undefinedReference.inj heq).1
        rw [List.count_eq_zero.mpr hnone, Nat.zero_add,
          List.filter_cons_of_neg (by simpa using hname)]

end Check

/-! ## Shapes in force -/

/-- The shape that counts among the shapes of its name. -/
structure Shape.InForce (shapes : List Shape) (s : Shape) : Prop where
  unreserved : s.name ∉ dynamicRoots
  last : ∃ before after, shapes = before ++ s :: after ∧ s.name ∉ after.map (·.name)

namespace Check

variable {shapes : List Shape} {s : Shape}

/-- The table of declared shapes holds the shapes in force. -/
theorem get?_declared_iff_inForce {name : String} :
    (declared shapes).get? name = some s ↔ s.InForce shapes ∧ s.name = name := by
  rw [declared, Table.get?_ofEntries_iff]
  constructor
  · rintro ⟨entriesBefore, entriesAfter, heq, hlast⟩
    obtain ⟨_, kept, hkept, -, hentries⟩ := List.map_eq_append_iff.mp heq
    obtain ⟨t, keptAfter, rfl, hentry, rfl⟩ := List.map_eq_cons_iff.mp hentries
    obtain ⟨rfl, rfl⟩ := Prod.mk.inj hentry
    obtain ⟨before, rest, rfl, -, hrest⟩ := List.filter_eq_append_iff.mp hkept
    obtain ⟨between, after, rfl, -, hunreserved, rfl⟩ := List.filter_eq_cons_iff.mp hrest
    refine ⟨⟨by simpa using hunreserved, before ++ between, after, by simp, ?_⟩, rfl⟩
    intro hmem
    obtain ⟨u, hu, hname⟩ := List.mem_map.mp hmem
    exact hlast (by simpa using ⟨u, ⟨hu, by simpa [hname] using hunreserved⟩, hname⟩)
  · rintro ⟨⟨hunreserved, before, after, rfl, hlast⟩, rfl⟩
    refine ⟨(before.filter (·.name ∉ dynamicRoots)).map fun t => (t.name, t),
      (after.filter (·.name ∉ dynamicRoots)).map fun t => (t.name, t), ?_, ?_⟩
    · rw [List.filter_append, List.filter_cons_of_pos (by simpa using hunreserved),
        List.map_append, List.map_cons]
    · intro hmem
      rw [List.map_map] at hmem
      obtain ⟨u, hu, hname⟩ := List.mem_map.mp hmem
      exact hlast (List.mem_map.mpr ⟨u, List.mem_of_mem_filter hu, hname⟩)

/-- The names of shapes in force are those that some shape has and that are not reserved. -/
theorem has_declared_iff (shapes : List Shape) (name : String) :
    (declared shapes).has name = true ↔
      name ∈ shapes.map (·.name) ∧ name ∉ dynamicRoots := by
  have hkeys : name ∈ (declared shapes).keys ↔
      name ∈ shapes.map (·.name) ∧ name ∉ dynamicRoots := by
    rw [declared, Table.keys_ofEntries, List.mem_eraseDups]
    simp only [List.mem_map, List.mem_filter, decide_eq_true_eq]
    constructor
    · rintro ⟨_, ⟨s, ⟨hs, hunreserved⟩, rfl⟩, rfl⟩
      exact ⟨⟨s, hs, rfl⟩, hunreserved⟩
    · rintro ⟨⟨s, hs, rfl⟩, hunreserved⟩
      exact ⟨_, ⟨s, ⟨hs, hunreserved⟩, rfl⟩, rfl⟩
  rw [← hkeys, Table.has, Option.isSome_iff_exists, Table.keys, List.mem_map]
  constructor
  · rintro ⟨s, hs⟩
    exact ⟨_, Table.mem_of_get? hs, rfl⟩
  · rintro ⟨⟨_, s⟩, hs, rfl⟩
    exact ⟨s, Table.get?_of_mem (Table.keys_ofEntries_nodup _) hs⟩

theorem mem_values_declared_iff :
    s ∈ (declared shapes).map Prod.snd ↔ s.InForce shapes := by
  have hkeys : (declared shapes).keys.Nodup := Table.keys_ofEntries_nodup _
  constructor
  · intro hs
    obtain ⟨⟨name, _⟩, hentry, rfl⟩ := List.mem_map.mp hs
    exact (get?_declared_iff_inForce.mp (Table.get?_of_mem hkeys hentry)).1
  · intro hs
    exact List.mem_map.mpr
      ⟨_, Table.mem_of_get? (get?_declared_iff_inForce.mpr ⟨hs, rfl⟩), rfl⟩

/-- The shapes in force are told apart by their names. -/
theorem names_values_declared_nodup (shapes : List Shape) :
    (((declared shapes).map Prod.snd).map (·.name)).Nodup := by
  have hkeys : (declared shapes).keys.Nodup := Table.keys_ofEntries_nodup _
  have hnames : ((declared shapes).map Prod.snd).map (·.name) = (declared shapes).keys := by
    rw [List.map_map]
    refine List.map_congr_left fun entry hentry => ?_
    exact (get?_declared_iff_inForce.mp (Table.get?_of_mem hkeys hentry)).2
  rwa [hnames]

/-- What is wrong with the fields of a shape in force is reported as its own check finds it. -/
theorem count_allFieldDefects (h : s.InForce shapes) {d : Defect}
    (hshape : d.shape? = some s.name) :
    (allFieldDefects (declared shapes)).count d =
      (fieldDefects (declared shapes) s.name [] s.fields).count d := by
  obtain ⟨before, after, hvalues⟩ := List.append_of_mem (mem_values_declared_iff.mpr h)
  have hnodup := names_values_declared_nodup shapes
  rw [hvalues, List.map_append, List.map_cons, List.nodup_middle, List.nodup_cons,
    ← List.map_append] at hnodup
  have hothers (others : List Shape) (hsub : ∀ t ∈ others, t ∈ before ++ after) :
      (others.flatMap fun t => fieldDefects (declared shapes) t.name [] t.fields).count d = 0 := by
    refine List.count_eq_zero.mpr fun hmem => ?_
    obtain ⟨t, ht, hd⟩ := List.mem_flatMap.mp hmem
    have hname : t.name = s.name :=
      Option.some.inj ((shape?_of_mem_fieldDefects hd).2.symm.trans hshape)
    exact hnodup.1 (List.mem_map.mpr ⟨t, hsub t ht, hname⟩)
  have hsorted := List.mergeSort_perm ((declared shapes).map Prod.snd) fun a b => a.name ≤ b.name
  rw [allFieldDefects, (hsorted.flatMap_right _).count_eq, hvalues, List.flatMap_append,
    List.flatMap_cons, List.count_append, List.count_append,
    hothers before fun t ht => List.mem_append_left _ ht,
    hothers after fun t ht => List.mem_append_right _ ht, Nat.zero_add, Nat.add_zero]

/-! ## Names of shapes -/

theorem reservedShape_mem {earlier : List String} (hs : s ∈ shapes)
    (hreserved : s.name ∈ dynamicRoots) : .reservedShape s.name ∈ nameDefects earlier shapes := by
  induction shapes generalizing earlier with
  | nil => cases hs
  | cons t rest ih =>
      rw [nameDefects]
      rcases List.mem_cons.mp hs with rfl | hs
      · rw [if_pos hreserved]
        exact List.mem_cons_self
      · split
        · exact List.mem_cons_of_mem _ (ih hs)
        · split
          · exact List.mem_cons_of_mem _ (ih hs)
          · exact ih hs

theorem duplicateShape_mem {earlier : List String} {name : String} (hname : name ∉ dynamicRoots)
    (h : name ∈ earlier ∧ name ∈ shapes.map (·.name) ∨ 2 ≤ (shapes.map (·.name)).count name) :
    .duplicateShape name ∈ nameDefects earlier shapes := by
  induction shapes generalizing earlier with
  | nil => simp at h
  | cons t rest ih =>
      rw [nameDefects]
      by_cases hfirst : t.name = name
      · subst hfirst
        rw [if_neg hname]
        split
        · exact List.mem_cons_self
        · rename_i hearlier
          have hcount : 2 ≤ ((t :: rest).map (·.name)).count t.name :=
            h.resolve_left fun h => hearlier h.1
          rw [List.map_cons, List.count_cons_self] at hcount
          exact ih (.inl ⟨List.mem_cons_self, List.count_pos_iff.mp (by omega)⟩)
      · have hrest : name ∈ earlier ∧ name ∈ rest.map (·.name) ∨
            2 ≤ (rest.map (·.name)).count name := by
          simpa [Ne.symm hfirst, List.count_cons, hfirst] using h
        split
        · exact List.mem_cons_of_mem _ (ih hrest)
        · split
          · exact List.mem_cons_of_mem _ (ih hrest)
          · exact ih (hrest.imp_left fun h => ⟨List.mem_cons_of_mem _ h.1, h.2⟩)

/-- Of a shape that is not in force the name is reported. -/
theorem name_reported (hs : s ∈ shapes) (h : ¬ s.InForce shapes) :
    .reservedShape s.name ∈ nameDefects [] shapes ∨
      .duplicateShape s.name ∈ nameDefects [] shapes := by
  by_cases hreserved : s.name ∈ dynamicRoots
  · exact .inl (reservedShape_mem hs hreserved)
  · obtain ⟨before, after, rfl⟩ := List.append_of_mem hs
    have hagain : s.name ∈ after.map (·.name) := by
      by_contra hlast
      exact h ⟨hreserved, before, after, rfl, hlast⟩
    have hcount : 0 < (after.map (·.name)).count s.name := List.count_pos_iff.mpr hagain
    refine .inr (duplicateShape_mem hreserved (.inr ?_))
    rw [List.map_append, List.map_cons, List.count_append, List.count_cons_self]
    omega

end Check

namespace Program

/-! ## The report -/

/-- The defects that are reported of packages: none if they compile. -/
def reported (packages : List Package) (digest : Digest) : List Defect :=
  match compile packages digest with
  | .ok _ => []
  | .error found => found

theorem reported_eq (packages : List Package) (digest : Digest) :
    reported packages digest = defects packages := by
  rw [reported, compile]
  cases hfound : defects packages <;> simp

theorem count_defects {packages : List Package} {stage : Check.Stage} {found : List Defect}
    (h : (defects packages).filter (·.stage = stage) = found) {d : Defect}
    (hd : d.stage = stage) : (defects packages).count d = found.count d := by
  rw [← h, List.count_filter (by simpa using hd)]

/-- Whatever else is wrong, every repeated name of a rule and every reference to a name that no
rule has is reported, as often as it is there, and so is every repeated name of a field and
every field of a type that is not declared, of the shapes in force.  Of the other shapes the
name is reported, and nothing about their fields. -/
theorem report_complete (packages : List Package) (digest : Digest) :
    (∀ name,
      (reported packages digest).count (.duplicateRule name) =
        ((Package.allRules packages).map (·.name)).count name - 1 ∧
      ∀ reference, (reported packages digest).count (.undefinedReference name reference) =
        if reference ∈ (Package.allRules packages).map (·.name) then 0
        else (((Package.allRules packages).filter (·.name = name)).flatMap
          (·.condition.references)).count reference) ∧
    (∀ s : Shape, s.InForce (Package.allShapes packages) → ∀ name,
      (reported packages digest).count (.duplicateField s.name name) =
        (s.fields.map (·.name)).count name - 1 ∧
      ∀ target, (reported packages digest).count (.unknownType s.name name target) =
        if target ∈ (Package.allShapes packages).map (·.name) ∧ target ∉ dynamicRoots then 0
        else s.fields.count ⟨name, .shape target⟩) ∧
    (∀ s ∈ Package.allShapes packages, ¬ s.InForce (Package.allShapes packages) →
      .reservedShape s.name ∈ reported packages digest ∨
        .duplicateShape s.name ∈ reported packages digest) ∧
    ∀ d ∈ reported packages digest, ∀ shape, d.shape? = some shape →
      ∃ s : Shape, s.InForce (Package.allShapes packages) ∧ s.name = shape := by
  rw [reported_eq]
  obtain ⟨hfields, hduplicates, hreferences⟩ := filter_stage_defects packages
  refine ⟨fun name => ⟨?_, fun reference => ?_⟩, fun s hs name => ⟨?_, fun target => ?_⟩, ?_, ?_⟩
  · rw [count_defects hduplicates rfl, Check.count_duplicateDefects]
  · rw [count_defects hreferences rfl]
    exact Check.count_references _ _ _ _
  · rw [count_defects hfields rfl, Check.count_allFieldDefects hs rfl, Check.count_duplicateField,
      Check.count_repeats, if_neg List.not_mem_nil]
  · rw [count_defects hfields rfl, Check.count_allFieldDefects hs rfl, Check.count_unknownType]
    simp only [Check.has_declared_iff]
  · intro s hs hother
    have hnames (d : Defect) (hd : d ∈ Check.nameDefects [] (Package.allShapes packages)) :
        d ∈ defects packages := by
      simp only [defects, List.mem_append]
      exact .inl (.inl (.inl (.inl (.inl hd))))
    exact (Check.name_reported hs hother).imp (hnames _) (hnames _)
  · intro d hd shape hshape
    have hstage : d.stage = .fields := by
      cases d with
      | duplicateField | unknownType => rfl
      | undefinedReference | cycle | duplicateRule | duplicateShape | reservedShape
        | undefinedField | typeMismatch | unknownVariant => cases hshape
    have hfound : d ∈ Check.allFieldDefects (Check.declared (Package.allShapes packages)) := by
      rw [← hfields]
      exact List.mem_filter.mpr ⟨hd, by simpa using hstage⟩
    obtain ⟨s, hs, hown⟩ := List.mem_flatMap.mp hfound
    refine ⟨s, Check.mem_values_declared_iff.mp (List.mem_mergeSort.mp hs), ?_⟩
    exact Option.some.inj ((Check.shape?_of_mem_fieldDefects hown).2.symm.trans hshape)

/-- A repeated field of an unknown type, a reference to no rule, a field that is not there, and
a repeated name of a rule. -/
def mistaken : String :=
  "declare A\n  x: int\n  x: Missing\nend\nrule r:\n  nope AND A.y == 1\n" ++
    "rule r:\n  params.q == 1"

/-- The packages of `mistaken`. -/
def mistakenPackages : List Package :=
  [⟨Package.defaultName, [⟨"A", [⟨"x", .int⟩, ⟨"x", .shape "Missing"⟩]⟩],
    [⟨"r", .and (.rule "nope") (.compare ⟨["A", "y"]⟩ .equal (.int 1)), none, []⟩,
      ⟨"r", .compare ⟨["params", "q"]⟩ .equal (.int 1), none, []⟩]⟩]

theorem report_complete_mistaken :
    Source.packages mistaken.toList = .ok mistakenPackages ∧
      ∀ digest, (reported mistakenPackages digest).count (.duplicateRule "r") = 1 ∧
        (reported mistakenPackages digest).count (.undefinedReference "r" "nope") = 1 ∧
        (reported mistakenPackages digest).count (.duplicateField "A" "x") = 1 ∧
        (reported mistakenPackages digest).count (.unknownType "A" "x" "Missing") = 1 := by
  refine ⟨by decide +kernel, fun digest => ?_⟩
  obtain ⟨hrules, hfields, -, -⟩ := report_complete mistakenPackages digest
  have hforce : Shape.InForce (Package.allShapes mistakenPackages)
      ⟨"A", [⟨"x", .int⟩, ⟨"x", .shape "Missing"⟩]⟩ :=
    ⟨by decide, [], [], rfl, List.not_mem_nil⟩
  exact ⟨(hrules "r").1, (hrules "r").2 "nope", (hfields _ hforce "x").1,
    (hfields _ hforce "x").2 "Missing"⟩

/-- A shape with a field of an unknown type, and a later one of its name. -/
def overwritten : String :=
  "declare A\n  x: Missing\nend\ndeclare A\n  y: int\nend\nrule r:\n  params.q == 1"

/-- The type of a field is not declared and not reported, since the shape is not in force. -/
theorem overwritten_shape_unreported :
    ∃ packages, Source.packages overwritten.toList = .ok packages ∧
      (∃ s ∈ Package.allShapes packages, s.name = "A" ∧ ⟨"x", .shape "Missing"⟩ ∈ s.fields) ∧
      "Missing" ∉ (Package.allShapes packages).map (·.name) ∧
      ∀ digest, reported packages digest = [.duplicateShape "A"] := by
  refine ⟨[⟨Package.defaultName, [⟨"A", [⟨"x", .shape "Missing"⟩]⟩, ⟨"A", [⟨"y", .int⟩]⟩],
    [⟨"r", .compare ⟨["params", "q"]⟩ .equal (.int 1), none, []⟩]⟩], by decide +kernel,
    ⟨_, List.mem_cons_self, rfl, List.mem_cons_self⟩, by decide, fun digest => ?_⟩
  rw [reported_eq]
  decide +kernel

end Program

end Rulebook
