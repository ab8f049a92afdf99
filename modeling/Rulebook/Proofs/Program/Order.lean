/-
  Proofs/Program/Order.lean --- what the order of evaluation guarantees.

  `order` lists no rule twice, lists only rules of the graph, and lists a rule after
  all that it refers to.  The three hold of the rules that are done at every moment
  of `run`, together with one fact about the rules that wait: all they refer to is
  done (`Sweep`).  An order as long as the graph is therefore an order of all rules.
-/
import Mathlib.Data.List.Nodup
import Mathlib.Data.List.Perm.Subperm
import Rulebook.Program.Order

set_option autoImplicit false

namespace Rulebook

namespace Dependency

/-- Every name of a list is that of a rule, whose references stand before it. -/
def Ordered (graph : List Dependency) (names : List String) : Prop :=
  ∀ (i : Nat) (name : String), names[i]? = some name →
    ∃ d ∈ graph, d.name = name ∧ ∀ r ∈ d.references, ∃ j < i, names[j]? = some r

theorem Ordered.append_singleton {graph : List Dependency} {names : List String}
    {d : Dependency} (h : Ordered graph names) (hd : d ∈ graph)
    (hrefs : ∀ r ∈ d.references, r ∈ names) : Ordered graph (names ++ [d.name]) := by
  intro i name hi
  -- a position before the end keeps its references; the new last one has them all in front
  rcases Nat.lt_or_ge i names.length with hlt | hge
  · rw [List.getElem?_append_left hlt] at hi
    obtain ⟨d', hd', hname, hbefore⟩ := h i name hi
    refine ⟨d', hd', hname, ?_⟩
    intro r hr
    obtain ⟨j, hj, hget⟩ := hbefore r hr
    exact ⟨j, hj, by rw [List.getElem?_append_left (by omega)]; exact hget⟩
  · rw [List.getElem?_append_right hge] at hi
    have hlast : i - names.length = 0 ∧ d.name = name := by
      simpa [List.getElem?_singleton] using hi
    refine ⟨d, hd, hlast.2, ?_⟩
    intro r hr
    obtain ⟨j, hj⟩ := List.mem_iff_getElem?.mp (hrefs r hr)
    have hlt : j < names.length := (List.getElem?_eq_some_iff.mp hj).1
    exact ⟨j, by omega, by rw [List.getElem?_append_left hlt]; exact hj⟩

theorem Ordered.mem_graph {graph : List Dependency} {names : List String} {name : String}
    (h : Ordered graph names) (hmem : name ∈ names) :
    ∃ d ∈ graph, d.name = name ∧ ∀ r ∈ d.references, r ∈ names := by
  obtain ⟨i, hi⟩ := List.mem_iff_getElem?.mp hmem
  obtain ⟨d, hd, hname, hrefs⟩ := h i name hi
  refine ⟨d, hd, hname, ?_⟩
  intro r hr
  obtain ⟨j, _, hj⟩ := hrefs r hr
  exact List.mem_of_getElem? hj

/-- Names in order, none of them twice, are names of the graph. -/
theorem Ordered.subperm {graph : List Dependency} {names : List String}
    (h : Ordered graph names) (hnodup : names.Nodup) :
    names.Subperm (graph.map (·.name)) := by
  refine List.subperm_of_subset hnodup ?_
  intro name hmem
  obtain ⟨d, hd, hname, _⟩ := h.mem_graph hmem
  exact List.mem_map.mpr ⟨d, hd, hname⟩

/-! ## The loop -/

/-- What holds whenever the next rule is taken: no rule was or will be taken twice,
what is done is in order, and what waits refers only to what is done. -/
structure Sweep (graph : List Dependency) (waiting done : List String) : Prop where
  nodup : (done ++ waiting).Nodup
  ordered : Ordered graph done
  ready : ∀ name ∈ waiting, ∃ d ∈ graph, d.name = name ∧ ∀ r ∈ d.references, r ∈ done

/-- Rules of one name are one rule. -/
theorem eq_of_name_eq {graph : List Dependency} (hnames : (graph.map (·.name)).Nodup)
    {a b : Dependency} (ha : a ∈ graph) (hb : b ∈ graph) (h : a.name = b.name) : a = b :=
  List.inj_on_of_nodup_map hnames ha hb h

theorem mem_released {graph : List Dependency} {done : List String} {name other : String} :
    other ∈ released graph done name ↔
      ∃ d ∈ graph, d.name = other ∧ name ∈ d.references ∧
        ∀ r ∈ d.references, r = name ∨ r ∈ done := by
  simp only [released, List.mem_map, List.mem_filter, Bool.and_eq_true, decide_eq_true_eq,
    List.all_eq_true, Bool.or_eq_true]
  constructor
  · rintro ⟨d, ⟨hd, hrefers, hall⟩, hname⟩
    exact ⟨d, hd, hname, hrefers, hall⟩
  · rintro ⟨d, hd, hname, hrefers, hall⟩
    exact ⟨d, ⟨hd, hrefers, hall⟩, hname⟩

theorem released_nodup {graph : List Dependency} (hnames : (graph.map (·.name)).Nodup)
    (done : List String) (name : String) : (released graph done name).Nodup :=
  hnames.sublist (List.filter_sublist.map _)

/-- The rule that is taken next was not taken before. -/
theorem Sweep.next_fresh {graph : List Dependency} {waiting done : List String} {name : String}
    (h : Sweep graph (name :: waiting) done) : name ∉ done := by
  have hnodup := h.nodup
  rw [List.nodup_append] at hnodup
  exact fun hmem => hnodup.2.2 name hmem name List.mem_cons_self rfl

/-- What is done or waits is a rule that refers only to what is done. -/
theorem Sweep.mem_graph {graph : List Dependency} {waiting done : List String} {name : String}
    (h : Sweep graph waiting done) (hmem : name ∈ done ++ waiting) :
    ∃ d ∈ graph, d.name = name ∧ ∀ r ∈ d.references, r ∈ done := by
  rcases List.mem_append.mp hmem with hdone | hwaits
  · exact h.ordered.mem_graph hdone
  · exact h.ready name hwaits

/-- A rule that is released was neither done nor waiting: it refers to the rule that
has just been taken, and those refer only to what was done before. -/
theorem Sweep.not_mem_of_released {graph : List Dependency} {waiting done : List String}
    {name other : String} (hnames : (graph.map (·.name)).Nodup)
    (h : Sweep graph (name :: waiting) done) (hother : other ∈ released graph done name) :
    other ∉ done ++ name :: waiting := by
  obtain ⟨d, hd, hdname, hrefers, _⟩ := mem_released.mp hother
  intro hmem
  obtain ⟨d', hd', hname', hrefs⟩ := h.mem_graph hmem
  have hsame : d = d' := eq_of_name_eq hnames hd hd' (hdname.trans hname'.symm)
  subst hsame
  exact h.next_fresh (hrefs name hrefers)

/-- Taking a rule keeps the invariant. -/
theorem Sweep.take {graph : List Dependency} {waiting done : List String} {name : String}
    (hnames : (graph.map (·.name)).Nodup) (h : Sweep graph (name :: waiting) done) :
    Sweep graph (waiting ++ released graph done name) (done ++ [name]) := by
  obtain ⟨d, hd, hname, hrefs⟩ := h.ready name List.mem_cons_self
  subst hname
  refine ⟨?_, h.ordered.append_singleton hd hrefs, ?_⟩
  · have hrest : (done ++ [d.name] ++ (waiting ++ released graph done d.name)) =
        (done ++ d.name :: waiting) ++ released graph done d.name := by simp
    rw [hrest, List.nodup_append]
    refine ⟨h.nodup, released_nodup hnames done d.name, ?_⟩
    rintro a ha b hb rfl
    exact h.not_mem_of_released hnames hb ha
  · intro other hmem
    rcases List.mem_append.mp hmem with hwaits | hreleased
    · obtain ⟨d', hd', hname', hrefs'⟩ := h.ready other (List.mem_cons_of_mem _ hwaits)
      exact ⟨d', hd', hname', fun r hr => List.mem_append_left _ (hrefs' r hr)⟩
    · obtain ⟨d', hd', hname', _, hall⟩ := mem_released.mp hreleased
      refine ⟨d', hd', hname', ?_⟩
      intro r hr
      rcases hall r hr with heq | hdone
      · exact List.mem_append_right _ (by simp [heq])
      · exact List.mem_append_left _ hdone

theorem Sweep.run {graph : List Dependency} (hnames : (graph.map (·.name)).Nodup)
    (fuel : Nat) {waiting done : List String} (h : Sweep graph waiting done) :
    (Dependency.run graph fuel waiting done).Nodup ∧
      Ordered graph (Dependency.run graph fuel waiting done) := by
  induction fuel generalizing waiting done with
  | zero => exact ⟨h.nodup.sublist (List.sublist_append_left _ _), h.ordered⟩
  | succ fuel ih =>
      cases waiting with
      | nil => exact ⟨h.nodup.sublist (List.sublist_append_left _ _), h.ordered⟩
      | cons name waiting => exact ih (h.take hnames)

/-! ## The order -/

/-- No rule waits before those without references. -/
theorem sweep_start {graph : List Dependency} (hnames : (graph.map (·.name)).Nodup) :
    Sweep graph ((graph.filter (·.references.isEmpty)).map (·.name)) [] := by
  refine ⟨?_, ?_, ?_⟩
  · exact hnames.sublist (List.filter_sublist.map _)
  · intro i name hi
    simp at hi
  · intro name hmem
    obtain ⟨d, hd, hname⟩ := List.mem_map.mp hmem
    obtain ⟨hgraph, hempty⟩ := List.mem_filter.mp hd
    refine ⟨d, hgraph, hname, ?_⟩
    intro r hr
    rw [List.isEmpty_iff.mp hempty] at hr
    simp at hr

theorem order_nodup {graph : List Dependency} (hnames : (graph.map (·.name)).Nodup) :
    (order graph).Nodup :=
  ((sweep_start hnames).run hnames graph.length).1

theorem order_ordered {graph : List Dependency} (hnames : (graph.map (·.name)).Nodup) :
    Ordered graph (order graph) :=
  ((sweep_start hnames).run hnames graph.length).2

/-- An order as long as the graph lists every rule. -/
theorem order_perm {graph : List Dependency} (hnames : (graph.map (·.name)).Nodup)
    (hlength : (order graph).length = graph.length) :
    (order graph).Perm (graph.map (·.name)) := by
  have hsubperm := (order_ordered hnames).subperm (order_nodup hnames)
  exact hsubperm.perm_of_length_le (by simp [hlength])

end Dependency

end Rulebook
