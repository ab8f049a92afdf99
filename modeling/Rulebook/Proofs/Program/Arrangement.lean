/-
  Proofs/Program/Arrangement.lean --- how the rules of a text stand in its program.

  A program arranges the rules of a text if it holds each of them once, at the place
  that its index and the table of positions say, behind all rules that it refers to
  (`Program.Arranges`).  `arranges_of_ofSource` says that every program that is
  compiled from a text arranges the rules of the text.  Other orders of the same rules
  are arrangements as well, and nothing is said here about which one is chosen.
-/
import Rulebook.Program.Basic
import Rulebook.Proofs.Program.Order
import Rulebook.Proofs.Table

set_option autoImplicit false

namespace Rulebook

/-- The rule as it stands in the text. -/
def CompiledRule.rule (r : CompiledRule) : Rule := ⟨r.name, r.condition, r.priority, r.actions⟩

/-- The rule with its position in the text. -/
def CompiledRule.placed (r : CompiledRule) : Rule × Nat := (r.rule, r.declared)

@[simp] theorem CompiledRule.rule_name (r : CompiledRule) : r.rule.name = r.name := rfl

@[simp] theorem CompiledRule.rule_condition (r : CompiledRule) :
    r.rule.condition = r.condition := rfl

/-! ## Names of rules -/

namespace Check

/-- Names are distinct, and others than the earlier ones, if the first is another one than the
earlier ones and the rest are so with the first among the earlier ones. -/
theorem distinct_cons {α : Type} (name : α → String) (earlier : List String) (a : α)
    (rest : List α) :
    (((a :: rest).map name).Nodup ∧ ∀ b ∈ a :: rest, name b ∉ earlier) ↔
      name a ∉ earlier ∧ (rest.map name).Nodup ∧ ∀ b ∈ rest, name b ∉ name a :: earlier := by
  simp only [List.map_cons, List.nodup_cons, List.forall_mem_cons]
  simp only [List.mem_cons, List.mem_map, not_or]
  constructor
  · rintro ⟨⟨hunique, hnodup⟩, hfresh, hrest⟩
    refine ⟨hfresh, hnodup, fun b hb => ⟨?_, hrest b hb⟩⟩
    intro hname
    exact hunique ⟨b, hb, hname⟩
  · rintro ⟨hfresh, hnodup, hrest⟩
    refine ⟨⟨?_, hnodup⟩, hfresh, fun b hb => (hrest b hb).2⟩
    rintro ⟨b, hb, hname⟩
    exact (hrest b hb).1 hname

theorem duplicateDefects_eq_nil_iff (earlier : List String) (rules : List Rule) :
    duplicateDefects earlier rules = [] ↔
      (rules.map (·.name)).Nodup ∧ ∀ r ∈ rules, r.name ∉ earlier := by
  induction rules generalizing earlier with
  | nil => simp [duplicateDefects]
  | cons r rest ih =>
      rw [duplicateDefects, List.append_eq_nil_iff, ih, distinct_cons Rule.name]
      simp

theorem referenceDefects_eq_nil_iff (rules : List Rule) :
    referenceDefects rules = [] ↔
      ∀ r ∈ rules, ∀ name ∈ r.condition.references, name ∈ rules.map (·.name) := by
  simp only [referenceDefects, List.flatMap_eq_nil_iff, List.map_eq_nil_iff,
    List.filter_eq_nil_iff, decide_eq_true_eq, not_not]

end Check

/-! ## Dependencies of the rules of a text -/

namespace Dependency

theorem map_name_ofRules (rules : List Rule) :
    (ofRules rules).map (·.name) = rules.map (·.name) := by
  simp [ofRules, Function.comp_def]

theorem length_ofRules (rules : List Rule) : (ofRules rules).length = rules.length := by
  simp [ofRules]

/-- Of a rule that refers to declared rules only, no reference is left out. -/
theorem mem_ofRules {rules : List Rule} {d : Dependency} (h : d ∈ ofRules rules)
    (hknown : ∀ r ∈ rules, ∀ name ∈ r.condition.references, name ∈ rules.map (·.name)) :
    ∃ r ∈ rules, r.name = d.name ∧ r.condition.references = d.references := by
  obtain ⟨r, hr, rfl⟩ := List.mem_map.mp h
  refine ⟨r, hr, rfl, ?_⟩
  symm
  exact List.filter_eq_self.mpr fun name hname => by simpa using hknown r hr name hname

end Dependency

namespace Program

/-- A program holds the rules of a text in an order in which they can be evaluated. -/
structure Arranges (p : Program) (rules : List Rule) : Prop where
  /-- Every rule knows its place. -/
  index_eq : ∀ (i : Nat) (r : CompiledRule), p.rules[i]? = some r → r.index = i
  /-- The table of positions says where the rules are, and has no other names. -/
  positions_iff : ∀ (name : String) (i : Nat),
    p.positions.get? name = some i ↔ ∃ r, p.rules[i]? = some r ∧ r.name = name
  /-- The rules are those of the text, each once. -/
  perm : (p.rules.map CompiledRule.rule).Perm rules
  /-- What a rule refers to stands before it. -/
  earlier : ∀ (i : Nat) (r : CompiledRule), p.rules[i]? = some r →
    ∀ name ∈ r.condition.references, ∃ j < i, p.positions.get? name = some j

/-! ## Arranging by a list of names -/

/-- The first rule of a name is the one at the first position of the name. -/
theorem find?_zipIdx_map_fst (rules : List Rule) (name : String) :
    (rules.zipIdx.find? fun (r, _) => r.name = name).map Prod.fst =
      rules.find? (·.name = name) := by
  have hmap : (rules.zipIdx.map Prod.fst).find? (·.name = name) =
      rules.find? (·.name = name) := by
    rw [List.zipIdx_map_fst]
  rw [← hmap, List.find?_map]
  rfl

/-- Lowering gives back the rules that the order names, with their positions. -/
theorem map_placed_lowerRules (rules : List Rule) :
    (lowerRules rules).map CompiledRule.placed =
      (Dependency.order (Dependency.ofRules rules)).filterMap
        fun name => rules.zipIdx.find? fun (r, _) => r.name = name := by
  apply List.ext_getElem?
  intro i
  rw [lowerRules, List.getElem?_map, List.getElem?_mapIdx, Option.map_map]
  exact Option.map_id_apply

theorem map_rule_lowerRules (rules : List Rule) :
    (lowerRules rules).map CompiledRule.rule =
      (Dependency.order (Dependency.ofRules rules)).filterMap
        fun name => rules.find? (·.name = name) := by
  have hplaced : (lowerRules rules).map CompiledRule.rule =
      ((lowerRules rules).map CompiledRule.placed).map Prod.fst := by
    rw [List.map_map]
    rfl
  rw [hplaced, map_placed_lowerRules, List.map_filterMap]
  simp only [find?_zipIdx_map_fst]

/-- Every name of a list of rule names finds its rule. -/
theorem map_name_filterMap_find? (rules : List Rule) (names : List String)
    (hknown : ∀ name ∈ names, name ∈ rules.map (·.name)) :
    (names.filterMap fun name => rules.find? (·.name = name)).map (·.name) = names := by
  induction names with
  | nil => rfl
  | cons name rest ih =>
      obtain ⟨r, hr, hname⟩ := List.mem_map.mp (hknown name List.mem_cons_self)
      obtain ⟨r', hfind⟩ : ∃ r', rules.find? (·.name = name) = some r' :=
        Option.isSome_iff_exists.mp (List.find?_isSome.mpr ⟨r, hr, by simpa using hname⟩)
      have hname' : r'.name = name := by simpa using List.find?_some hfind
      have hrest := ih fun n hn => hknown n (List.mem_cons_of_mem _ hn)
      simp only [List.filterMap_cons, hfind, List.map_cons, hname', hrest]

/-- What is found by all keys is everything, if the keys are distinct. -/
theorem filterMap_find?_map_key {α : Type} {key : α → String} {as : List α}
    (hkeys : (as.map key).Nodup) :
    ((as.map key).filterMap fun k => as.find? (key · = k)) = as := by
  rw [List.filterMap_map]
  have hself : ∀ a ∈ as, ((fun k => as.find? (key · = k)) ∘ key) a = some a :=
    fun a ha => (find?_iff_of_nodup hkeys).mpr ⟨ha, rfl⟩
  exact (List.filterMap_congr hself).trans List.filterMap_some

/-! ## Programs of texts without defects -/

/-- What the absence of defects says about the names of rules and their references. -/
theorem names_of_defects_eq_nil {packages : List Package} (h : defects packages = []) :
    ((Package.allRules packages).map (·.name)).Nodup ∧
      (∀ r ∈ Package.allRules packages, ∀ name ∈ r.condition.references,
        name ∈ (Package.allRules packages).map (·.name)) ∧
      (Dependency.order (Dependency.ofRules (Package.allRules packages))).length =
        (Package.allRules packages).length := by
  simp only [defects, List.append_eq_nil_iff] at h
  obtain ⟨⟨⟨⟨-, hduplicates⟩, hreferences⟩, -⟩, hcircle⟩ := h
  have hnames := ((Check.duplicateDefects_eq_nil_iff [] _).mp hduplicates).1
  refine ⟨hnames, (Check.referenceDefects_eq_nil_iff _).mp hreferences, ?_⟩
  by_contra hlength
  simp [hduplicates, hlength] at hcircle

theorem index_of_getElem?_lowerRules {rules : List Rule} {i : Nat} {r : CompiledRule}
    (h : (lowerRules rules)[i]? = some r) : r.index = i := by
  rw [lowerRules, List.getElem?_mapIdx, Option.map_eq_some_iff] at h
  obtain ⟨_, -, rfl⟩ := h
  rfl

section

variable {rules : List Rule} (hnames : (rules.map (·.name)).Nodup)
  (horder : (Dependency.order (Dependency.ofRules rules)).length = rules.length)

include hnames horder

theorem order_perm_names :
    (Dependency.order (Dependency.ofRules rules)).Perm (rules.map (·.name)) := by
  rw [← Dependency.map_name_ofRules] at hnames ⊢
  exact Dependency.order_perm hnames (by rw [horder, Dependency.length_ofRules])

/-- The lowered rules are those of the text, and know their positions there. -/
theorem lowerRules_placed_perm :
    ((lowerRules rules).map CompiledRule.placed).Perm rules.zipIdx := by
  have hkeys : rules.zipIdx.map (fun (r, _) => r.name) = rules.map (·.name) := by
    have hfst : rules.zipIdx.map (fun (r, _) => r.name) =
        (rules.zipIdx.map Prod.fst).map (·.name) := by
      rw [List.map_map]
      rfl
    rw [hfst, List.zipIdx_map_fst]
  have hperm := (order_perm_names hnames horder).filterMap
    fun name => rules.zipIdx.find? fun (r, _) => r.name = name
  rw [map_placed_lowerRules]
  rwa [← hkeys, filterMap_find?_map_key (by rwa [hkeys])] at hperm

theorem lowerRules_perm : ((lowerRules rules).map CompiledRule.rule).Perm rules := by
  have hperm := (lowerRules_placed_perm hnames horder).map Prod.fst
  rwa [List.map_map, List.zipIdx_map_fst] at hperm

/-- The lowered rules stand in the order that was found. -/
theorem map_name_lowerRules :
    (lowerRules rules).map (·.name) = Dependency.order (Dependency.ofRules rules) := by
  have hrule : (lowerRules rules).map (·.name) =
      ((lowerRules rules).map CompiledRule.rule).map (·.name) := by
    rw [List.map_map]
    rfl
  rw [hrule, map_rule_lowerRules]
  exact map_name_filterMap_find? rules _ fun name hname =>
    (order_perm_names hnames horder).subset hname

end

/-- The table of positions sees every rule at its place. -/
theorem get?_positions_iff {compiled : List CompiledRule}
    (hnames : (compiled.map (·.name)).Nodup)
    (hindex : ∀ (i : Nat) (r : CompiledRule), compiled[i]? = some r → r.index = i)
    (name : String) (i : Nat) :
    Table.get? (compiled.map fun r => (r.name, r.index)) name = some i ↔
      ∃ r, compiled[i]? = some r ∧ r.name = name := by
  have hkeys : (Table.keys (compiled.map fun r => (r.name, r.index))).Nodup := by
    simpa [Table.keys, Function.comp_def] using hnames
  rw [Table.get?_eq_some_iff hkeys, List.mem_map]
  constructor
  · rintro ⟨r, hr, heq⟩
    obtain ⟨hname, hi⟩ := Prod.mk.inj heq
    obtain ⟨j, hj⟩ := List.mem_iff_getElem?.mp hr
    have hij : i = j := by rw [← hi, hindex j r hj]
    exact ⟨r, hij ▸ hj, hname⟩
  · rintro ⟨r, hr, hname⟩
    exact ⟨r, List.mem_of_getElem? hr, by rw [hname, hindex i r hr]⟩

/-- The program of packages without defects arranges their rules. -/
theorem arranges_lower {packages : List Package} (digest : Digest)
    (h : defects packages = []) :
    (lower packages digest).Arranges (Package.allRules packages) := by
  obtain ⟨hnames, hknown, horder⟩ := names_of_defects_eq_nil h
  have hordered : Dependency.Ordered (Dependency.ofRules (Package.allRules packages))
      (Dependency.order (Dependency.ofRules (Package.allRules packages))) :=
    Dependency.order_ordered (by rw [Dependency.map_name_ofRules]; exact hnames)
  have hlowered := map_name_lowerRules hnames horder
  have hperm := lowerRules_perm hnames horder
  have hpositions : ∀ name i, (lower packages digest).positions.get? name = some i ↔
      ∃ r, (lower packages digest).rules[i]? = some r ∧ r.name = name := by
    refine get?_positions_iff ?_ fun i r => index_of_getElem?_lowerRules
    rw [hlowered]
    exact (order_perm_names hnames horder).nodup_iff.mpr hnames
  refine ⟨fun i r => index_of_getElem?_lowerRules, hpositions, hperm, ?_⟩
  intro i r hr name hname
  -- the rule at `i` is the `i`-th of the order, so what it refers to stands before `i` there
  have hi : (Dependency.order (Dependency.ofRules (Package.allRules packages)))[i]? =
      some r.name := by
    rw [← hlowered, List.getElem?_map]
    exact congrArg (Option.map _) hr
  obtain ⟨d, hd, hdname, hbefore⟩ := hordered i r.name hi
  obtain ⟨r', hr', hname', hrefs⟩ := Dependency.mem_ofRules hd hknown
  have hmem : r.rule ∈ Package.allRules packages :=
    hperm.subset (List.mem_map.mpr ⟨r, List.mem_of_getElem? hr, rfl⟩)
  have hsame : r' = r.rule :=
    List.inj_on_of_nodup_map hnames hr' hmem (hname'.trans hdname)
  subst hsame
  obtain ⟨j, hj, hget⟩ := hbefore name (hrefs ▸ hname)
  refine ⟨j, hj, (hpositions name j).mpr ?_⟩
  rw [← hlowered, List.getElem?_map, Option.map_eq_some_iff] at hget
  exact hget

/-- The program of a text that compiles is that of its packages, which have no defect. -/
theorem lower_of_ofSource {source : String} {p : Program} (h : ofSource source = .ok p) :
    ∃ packages, Source.packages source.toList = .ok packages ∧ defects packages = [] ∧
      p = lower packages (Digest.ofText source) := by
  unfold ofSource at h
  split at h
  · simp at h
  · rename_i packages hpackages
    refine ⟨packages, hpackages, ?_⟩
    unfold compile at h
    simp only at h
    split at h
    · simp at h
    · rename_i program hcompile
      obtain rfl := Except.ok.inj h
      split at hcompile
      · rename_i hdefects
        exact ⟨List.isEmpty_iff.mp hdefects, (Except.ok.inj hcompile).symm⟩
      · simp at hcompile

/-- A text of packages without defects compiles. -/
theorem ofSource_of_packages {source : String} {packages : List Package}
    (hread : Source.packages source.toList = .ok packages) (hdefects : defects packages = []) :
    ofSource source = .ok (lower packages (Digest.ofText source)) := by
  simp only [ofSource, hread, compile, hdefects, List.isEmpty_nil, if_true]

/-- A text that compiles can be read, and its program arranges its rules. -/
theorem arranges_of_ofSource {source : String} {p : Program} (h : ofSource source = .ok p) :
    ∃ packages, Source.packages source.toList = .ok packages ∧
      p.Arranges (Package.allRules packages) := by
  obtain ⟨packages, hpackages, hdefects, rfl⟩ := lower_of_ofSource h
  exact ⟨packages, hpackages, arranges_lower _ hdefects⟩

end Program

end Rulebook
