/-
  Proofs/Program/Circle.lean --- reported circles are circles.

  The order of evaluation tells whether rules refer to one another in a circle, and the
  search along references then has to find one.  The search follows a path without
  repetitions (`Trail`), so it closes a circle when it comes back to the path and never runs
  out of fuel.  The names that it has finished stand behind all that they refer to, and such
  names have no circle (`Ordered.acyclic`), so a search that finishes every name leaves no
  circle over (`cycle?_spec`).
-/
import Mathlib.Data.List.Chain
import Rulebook.Proofs.Program.Diagnostics

set_option autoImplicit false

namespace Rulebook

/-- Names each of which refers to the next, from a name back to itself, and none of the
others twice. -/
structure Circle (refers : String → String → Prop) (path : List String) : Prop where
  two_le : 2 ≤ path.length
  closed : path.head? = path.getLast?
  nodup : path.dropLast.Nodup
  isChain : path.IsChain refers

/-- A circle leads from a name to itself. -/
theorem Circle.exists_transGen {refers : String → String → Prop} {path : List String}
    (h : Circle refers path) : ∃ name, Relation.TransGen refers name name := by
  obtain ⟨htwo, hclosed, -, hchain⟩ := h
  match path with
  | [] | [_] => simp at htwo
  | first :: second :: rest =>
      obtain ⟨hfirst, hrest⟩ := List.isChain_cons_cons.mp hchain
      have hlast : (second :: rest).getLast (List.cons_ne_nil _ _) = first := by
        rw [List.getLast?_cons_cons, List.getLast?_eq_some_getLast (List.cons_ne_nil _ _)] at hclosed
        exact (Option.some.inj hclosed).symm
      exact ⟨first, .head' hfirst (List.relationReflTransGen_of_exists_isChain_cons rest hrest hlast)⟩

namespace Dependency

section

variable {graph : List Dependency} {path : List String} {name next : String}

/-! ## The path of the search -/

/-- A path along references without repetitions. -/
structure Trail (graph : List Dependency) (path : List String) : Prop where
  nodup : path.Nodup
  declared : path ⊆ graph.map (·.name)
  isChain : path.IsChain (Refers graph)

theorem Trail.length_le (h : Trail graph path) : path.length ≤ graph.length := by
  simpa using (List.subperm_of_subset h.nodup h.declared).length_le

/-- A single rule is a path. -/
theorem Trail.singleton (h : name ∈ graph.map (·.name)) : Trail graph [name] :=
  ⟨List.nodup_singleton name, by simpa using h, List.isChain_singleton name⟩

/-- What the last name of a path refers to continues the chain. -/
theorem isChain_concat {refers : String → String → Prop}
    (h : (path ++ [name]).IsChain refers) (hrefers : refers name next) :
    (path ++ [name] ++ [next]).IsChain refers := by
  refine List.isChain_append.mpr ⟨h, List.isChain_singleton next, ?_⟩
  simpa using hrefers

/-- A reference to a rule that is not on the path makes it longer. -/
theorem Trail.extend (h : Trail graph (path ++ [name])) (hrefers : Refers graph name next)
    (hfresh : next ∉ path ++ [name]) (hnext : next ∈ graph.map (·.name)) :
    Trail graph (path ++ [name] ++ [next]) where
  nodup := by
    rw [List.nodup_append]
    refine ⟨h.nodup, List.nodup_singleton next, ?_⟩
    rintro a ha b hb rfl
    exact hfresh (List.mem_singleton.mp hb ▸ ha)
  declared := List.append_subset.mpr ⟨h.declared, by simpa using hnext⟩
  isChain := isChain_concat h.isChain hrefers

/-- A reference back into the path closes a circle. -/
theorem Trail.closes (h : Trail graph (path ++ [name])) (hrefers : Refers graph name next)
    (hback : next ∈ path ++ [name]) :
    Circle (Refers graph) ((path ++ [name]).dropWhile (· ≠ next) ++ [next]) := by
  obtain ⟨before, rest, hsplit, hfirst⟩ := List.eq_append_cons_of_mem hback
  have hdrop : (path ++ [name]).dropWhile (· ≠ next) = next :: rest := by
    rw [hsplit, List.dropWhile_append_of_pos, List.dropWhile_cons_of_neg (by simp)]
    intro a ha
    have hne : a ≠ next := fun heq => hfirst (heq ▸ ha)
    simpa using hne
  have hchain : (before ++ (next :: rest ++ [next])).IsChain (Refers graph) := by
    rw [← List.append_assoc, ← hsplit]
    exact isChain_concat h.isChain hrefers
  have hnodup : (before ++ next :: rest).Nodup := hsplit ▸ h.nodup
  rw [hdrop]
  exact
    { two_le := by simp
      closed := by rw [List.getLast?_concat]; rfl
      nodup := by
        rw [List.dropLast_concat]
        exact hnodup.of_append_right
      isChain := hchain.right_of_append }

/-! ## The search -/

/-- What the search answers when it looks at names: a circle, or the names that are
finished then, these among them.  A finished name comes in front of all it refers to. -/
inductive Explored (graph : List Dependency) (finished names : List String) :
    Except (List String) (List String) → Prop
  | circle {path : List String} : Circle (Refers graph) path →
      Explored graph finished names (.error path)
  | finished {all : List String} : Ordered graph all.reverse → finished ⊆ all → names ⊆ all →
      Explored graph finished names (.ok all)

/-- The search goes on from finished names only. -/
theorem Explored.bind {finished names others : List String}
    {answer : Except (List String) (List String)} (h : Explored graph finished names answer)
    {next : List String → Except (List String) (List String)}
    (hnext : ∀ all, Ordered graph all.reverse → finished ⊆ all → names ⊆ all →
      Explored graph finished others (next all)) :
    Explored graph finished others (answer >>= next) := by
  cases h with
  | circle hcircle => exact .circle hcircle
  | finished hordered hkept hnames => exact hnext _ hordered hkept hnames

/-- What was finished before the names were looked at is finished as well. -/
theorem Explored.also {finished known names : List String}
    {answer : Except (List String) (List String)} (h : Explored graph known names answer)
    (hkept : finished ⊆ known) (hnext : next ∈ known) :
    Explored graph finished (next :: names) answer := by
  cases h with
  | circle hcircle => exact .circle hcircle
  | finished hordered hknown hnames =>
      exact .finished hordered (List.Subset.trans hkept hknown)
        (List.cons_subset.mpr ⟨hknown hnext, hnames⟩)

/-- Names are looked at one after the other until a circle is found. -/
theorem explored_foldlM {visit : List String → String → Except (List String) (List String)}
    {names : List String}
    (hvisit : ∀ next ∈ names, ∀ finished, Ordered graph finished.reverse →
      Explored graph finished [next] (visit finished next))
    {finished : List String} (hfinished : Ordered graph finished.reverse) :
    Explored graph finished names (names.foldlM visit finished) := by
  induction names generalizing finished with
  | nil => exact .finished hfinished (List.Subset.refl _) (List.nil_subset _)
  | cons next rest ih =>
      rw [List.foldlM_cons]
      refine (hvisit next List.mem_cons_self finished hfinished).bind ?_
      intro known hknown hkept hnext
      have hrest := ih (fun n hn => hvisit n (List.mem_cons_of_mem _ hn)) hknown
      exact hrest.also hkept (hnext List.mem_cons_self)

theorem mem_referencesOf (hnext : next ∈ referencesOf graph name) : Refers graph name next := by
  unfold referencesOf at hnext
  split at hnext
  · rename_i d hfind
    exact ⟨d, List.mem_of_find?_eq_some hfind, by simpa using List.find?_some hfind, hnext⟩
  · cases hnext

/-- All references of a rule are looked at. -/
theorem exists_referencesOf (hname : name ∈ graph.map (·.name)) :
    ∃ d ∈ graph, d.name = name ∧ d.references = referencesOf graph name := by
  obtain ⟨d, hd, rfl⟩ := List.mem_map.mp hname
  obtain ⟨d', hfind⟩ : ∃ d', graph.find? (·.name = d.name) = some d' :=
    Option.isSome_iff_exists.mp (List.find?_isSome.mpr ⟨d, hd, by simp⟩)
  exact ⟨d', List.mem_of_find?_eq_some hfind, by simpa using List.find?_some hfind,
    by simp [referencesOf, hfind]⟩

section

variable (hclosed : ∀ d ∈ graph, ∀ r ∈ d.references, r ∈ graph.map (·.name))
include hclosed

/-- With as much fuel as there are names that are not on the path, following references
from a name finishes it or closes a circle. -/
theorem explored_follow (fuel : Nat) {path finished : List String} {name : String}
    (hpath : Trail graph (path ++ [name])) (hfuel : graph.length ≤ path.length + fuel)
    (hfinished : Ordered graph finished.reverse) :
    Explored graph finished [name] (follow graph fuel path finished name) := by
  induction fuel generalizing path finished name with
  | zero =>
      have hlength := hpath.length_le
      rw [List.length_append, List.length_singleton] at hlength
      omega
  | succ fuel ih =>
      have hreferences : Explored graph finished (referencesOf graph name)
          ((referencesOf graph name).foldlM
            (fun finished next =>
              if next ∈ path ++ [name] then
                .error ((path ++ [name]).dropWhile (· ≠ next) ++ [next])
              else if next ∈ finished then .ok finished
              else follow graph fuel (path ++ [name]) finished next)
            finished) := by
        refine explored_foldlM ?_ hfinished
        intro next hnext finished hfinished
        have hrefers := mem_referencesOf hnext
        split
        · rename_i hback
          exact .circle (hpath.closes hrefers hback)
        · rename_i hfresh
          split
          · rename_i hdone
            exact .finished hfinished (List.Subset.refl _) (by simpa using hdone)
          · have hdeclared : next ∈ graph.map (·.name) := by
              obtain ⟨d, hd, -, hr⟩ := hrefers
              exact hclosed d hd next hr
            refine ih (hpath.extend hrefers hfresh hdeclared) ?_ hfinished
            rw [List.length_append, List.length_singleton]
            omega
      rw [follow]
      refine hreferences.bind ?_
      intro all hall hkept hreferences
      obtain ⟨d, hd, rfl, hrefs⟩ := exists_referencesOf
        (hpath.declared (List.mem_append_right _ List.mem_cons_self))
      refine .finished ?_ (List.Subset.trans hkept (List.subset_cons_self _ _)) (by simp)
      rw [List.reverse_cons]
      refine hall.append_singleton hd fun r hr => List.mem_reverse.mpr (hreferences ?_)
      rwa [← hrefs]

/-- The search finds a circle, or there is none. -/
theorem cycle?_spec (hnames : (graph.map (·.name)).Nodup) :
    (∃ path, cycle? graph = some path ∧ Circle (Refers graph) path) ∨
      cycle? graph = none ∧ Acyclic graph := by
  have hall : Explored graph [] (graph.map (·.name)) ((graph.map (·.name)).foldlM
      (fun finished name =>
        if name ∈ finished then .ok finished else follow graph graph.length [] finished name)
      []) := by
    refine explored_foldlM ?_ ?_
    · intro name hname finished hfinished
      split
      · rename_i hdone
        exact .finished hfinished (List.Subset.refl _) (by simpa using hdone)
      · exact explored_follow hclosed graph.length (Trail.singleton hname) (by simp) hfinished
    · intro i name hi
      simp at hi
  unfold cycle?
  simp only
  split
  · rename_i path hfound
    rw [hfound] at hall
    cases hall with
    | circle hcircle => exact .inl ⟨path, rfl, hcircle⟩
  · rename_i all hfound
    rw [hfound] at hall
    cases hall with
    | finished hordered _ hfinished =>
        refine .inr ⟨rfl, hordered.acyclic hnames fun name hname => ?_⟩
        exact List.mem_reverse.mpr (hfinished hname)

end

end

end Dependency

namespace Program

/-- The check for circles reports one, or there is none. -/
theorem found_cycles {packages : List Package}
    (hnames : ((Package.allRules packages).map (·.name)).Nodup) :
    (∃ path, found packages .cycles = [.cycle path] ∧
        Circle (Rule.Links (Package.allRules packages)) path) ∨
      found packages .cycles = [] ∧
        ∀ name, ¬ Relation.TransGen (Rule.Links (Package.allRules packages)) name name := by
  have hduplicates := (Check.duplicateDefects_eq_nil_iff [] _).mpr ⟨hnames, by simp⟩
  have hgraph : ((Dependency.ofRules (Package.allRules packages)).map (·.name)).Nodup := by
    rwa [Dependency.map_name_ofRules]
  have hsorted := Dependency.order_length_iff_acyclic hgraph Dependency.mem_names_of_mem_references
  rw [Dependency.length_ofRules, Dependency.Acyclic, Dependency.refers_ofRules_eq_links] at hsorted
  by_cases hlength : (Dependency.order (Dependency.ofRules (Package.allRules packages))).length =
      (Package.allRules packages).length
  · exact .inr ⟨by simp [found, hlength], hsorted.mp hlength⟩
  · have hsearch := Dependency.cycle?_spec Dependency.mem_names_of_mem_references hgraph
    rw [Dependency.Acyclic, Dependency.refers_ofRules_eq_links] at hsearch
    obtain ⟨path, hpath, hcircle⟩ := hsearch.resolve_right fun hnone => hlength (hsorted.mpr hnone.2)
    exact .inl ⟨path, by simp [found, hduplicates, hlength, hpath], hcircle⟩

/-- **Reported circles are circles.**  Of rules with distinct names a circle is reported if
and only if the references between them have one, and then only once: names of rules each
of which refers to the next, the last of which is the first, and no other stands there
twice. -/
theorem cycle_reported_iff (packages : List Package) (digest : Digest)
    (hnames : ((Package.allRules packages).map (·.name)).Nodup) :
    ((∃ path, .cycle path ∈ reported packages digest) ↔
      ∃ name, Relation.TransGen (Rule.Links (Package.allRules packages)) name name) ∧
    ∀ path, .cycle path ∈ reported packages digest →
      (reported packages digest).filter (·.stage = .cycles) = [.cycle path] ∧
        Circle (Rule.Links (Package.allRules packages)) path := by
  rw [reported_eq, filter_defects]
  have hmem (path : List String) :
      .cycle path ∈ defects packages ↔ .cycle path ∈ found packages .cycles := by
    rw [← filter_defects, List.mem_filter]
    simp [Defect.stage]
  simp only [hmem]
  rcases found_cycles hnames with ⟨path, hfound, hcircle⟩ | ⟨hfound, hacyclic⟩
  · rw [hfound]
    refine ⟨⟨fun _ => hcircle.exists_transGen, fun _ => ⟨path, List.mem_singleton_self _⟩⟩, ?_⟩
    intro other hother
    obtain rfl := Defect.cycle.inj (List.mem_singleton.mp hother)
    exact ⟨rfl, hcircle⟩
  · rw [hfound]
    refine ⟨⟨fun ⟨_, h⟩ => absurd h List.not_mem_nil, ?_⟩, fun _ h => absurd h List.not_mem_nil⟩
    rintro ⟨name, hcircle⟩
    exact absurd hcircle (hacyclic name)

/-- Two rules in a circle, one that refers to it, one that it refers to, and a name without a
rule. -/
def circular : String :=
  "rule entry:left\nrule left:leaf AND right\nrule right:nobody OR NOT left\n" ++
    "rule leaf:params.x==1"

/-- The packages of `circular`. -/
def circularPackages : List Package :=
  [⟨Package.defaultName, [],
    [⟨"entry", .rule "left", none, []⟩, ⟨"left", .and (.rule "leaf") (.rule "right"), none, []⟩,
      ⟨"right", .or (.rule "nobody") (.not (.rule "left")), none, []⟩,
      ⟨"leaf", .compare ⟨["params", "x"]⟩ .equal (.int 1), none, []⟩]⟩]

theorem cycle_reported_iff_circular :
    Source.packages circular.toList = .ok circularPackages ∧
      ∀ digest, .cycle ["left", "right", "left"] ∈ reported circularPackages digest ∧
        (∃ name, Relation.TransGen (Rule.Links (Package.allRules circularPackages)) name name) ∧
        (reported circularPackages digest).filter (·.stage = .cycles) =
          [.cycle ["left", "right", "left"]] ∧
        Circle (Rule.Links (Package.allRules circularPackages)) ["left", "right", "left"] := by
  refine ⟨by decide +kernel, fun digest => ?_⟩
  have hfound : .cycle ["left", "right", "left"] ∈ reported circularPackages digest := by
    rw [reported_eq]
    have hdefects : defects circularPackages =
        [.undefinedReference "right" "nobody", .cycle ["left", "right", "left"]] := by
      decide +kernel
    simp [hdefects]
  obtain ⟨hiff, hgenuine⟩ := cycle_reported_iff circularPackages digest (by decide)
  obtain ⟨honce, hcircle⟩ := hgenuine _ hfound
  exact ⟨hfound, hiff.mp ⟨_, hfound⟩, honce, hcircle⟩

end Program

end Rulebook
