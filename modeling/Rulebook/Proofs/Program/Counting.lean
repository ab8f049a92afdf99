/-
  Proofs/Program/Counting.lean --- finding the order by counting references.

  The order of evaluation is found with one number for each rule: how many of its
  references are still open.  A reference counts as often as it is written.  Taking a
  rule counts down once for each reference to it, and a rule waits as soon as its number
  is zero.  `countedOrder` is this loop; it has no answer if a number would fall below
  zero or if rules still wait when the fuel is spent.  Neither happens, and the loop
  finds `order` (`countedOrder_eq`): at every moment the numbers say how many references
  lead to rules that are not done (`Counted`).
-/
import Mathlib.Logic.Function.Basic
import Rulebook.Proofs.Program.Order

set_option autoImplicit false

namespace Rulebook

namespace Dependency

/-! ## The loop -/

/-- The rules that refer to a name, each as often as it does. -/
def dependents (graph : List Dependency) (name : String) : List String :=
  graph.flatMap fun d => List.replicate (d.references.count name) d.name

/-- Count down once for each name of a list.  The names whose number becomes zero are
given in order, with the new numbers; no answer if a number is zero before. -/
def countDown : List String → (String → Nat) → Option (List String × (String → Nat))
  | [], pending => some ([], pending)
  | name :: rest, pending =>
    if pending name = 0 then none
    else
      (countDown rest (Function.update pending name (pending name - 1))).map
        fun (free, pending') => (if pending name = 1 then name :: free else free, pending')

/-- Evaluate the waiting rules one after the other until none waits; no answer if the fuel
does not suffice. -/
def runCounted (graph : List Dependency) :
    Nat → List String → List String → (String → Nat) → Option (List String)
  | _, [], done, _ => some done
  | 0, _ :: _, _, _ => none
  | fuel + 1, name :: waiting, done, pending =>
    (countDown (dependents graph name) pending).bind fun (free, pending') =>
      runCounted graph fuel (waiting ++ free) (done ++ [name]) pending'

/-- How many references a name has. -/
def degree (graph : List Dependency) (name : String) : Nat :=
  (referencesOf graph name).length

/-- The order of evaluation, found by counting. -/
def countedOrder (graph : List Dependency) : Option (List String) :=
  runCounted graph graph.length
    ((graph.map (·.name)).filter fun name => degree graph name = 0) [] (degree graph)

/-! ## Counting down -/

/-- Counting down as often as a name is repeated makes it wait if that was its number. -/
theorem countDown_replicate (name : String) (rest : List String) (k : Nat)
    (pending : String → Nat) (hk : k ≤ pending name) :
    countDown (List.replicate k name ++ rest) pending =
      (countDown rest (Function.update pending name (pending name - k))).map
        fun (free, pending') =>
          (if 0 < k ∧ pending name = k then name :: free else free, pending') := by
  induction k generalizing pending with
  | zero => simp
  | succ k ih =>
      have hopen : pending name ≠ 0 := by omega
      have hleft : k ≤ Function.update pending name (pending name - 1) name := by
        rw [Function.update_self]
        omega
      rw [List.replicate_succ, List.cons_append, countDown, if_neg hopen, ih _ hleft,
        Function.update_idem, Function.update_self, Option.map_map,
        show pending name - 1 - k = pending name - (k + 1) by omega]
      congr 1
      funext x
      simp only [Function.comp_apply, Prod.mk.injEq, and_true]
      -- the name waits at the last of its repetitions, if at all
      by_cases hlast : pending name = k + 1
      · rcases Nat.eq_zero_or_pos k with rfl | hpos
        · simp [hlast]
        · simp [hlast, hpos, Nat.ne_of_gt hpos]
      · have hnow : ¬ (0 < k ∧ pending name - 1 = k) := by omega
        have hfirst : ¬ (pending name = 1 ∧ k = 0) := by omega
        by_cases hone : pending name = 1
        · have hk0 : k = 0 := by omega
          exact absurd ⟨hone, hk0⟩ hfirst
        · simp [hlast, hnow, hone]

/-- Counting down for all references to a name. -/
theorem countDown_dependents (name : String) {graph : List Dependency}
    (hnames : (graph.map (·.name)).Nodup) (pending : String → Nat)
    (hle : ∀ d ∈ graph, d.references.count name ≤ pending d.name) :
    ∃ pending',
      countDown (dependents graph name) pending =
        some ((graph.filter fun d =>
          0 < d.references.count name ∧ pending d.name = d.references.count name).map (·.name),
          pending') ∧
      (∀ d ∈ graph, pending' d.name = pending d.name - d.references.count name) ∧
      ∀ other, other ∉ graph.map (·.name) → pending' other = pending other := by
  induction graph generalizing pending with
  | nil => exact ⟨pending, rfl, by simp, fun _ _ => rfl⟩
  | cons d rest ih =>
      rw [List.map_cons, List.nodup_cons] at hnames
      obtain ⟨hfresh, hrest⟩ := hnames
      have hhead : d.references.count name ≤ pending d.name := hle d List.mem_cons_self
      let counted := Function.update pending d.name (pending d.name - d.references.count name)
      -- the other rules have other names, so their numbers are as they were
      have hsame : ∀ e ∈ rest, counted e.name = pending e.name := by
        intro e he
        refine Function.update_of_ne ?_ _ _
        intro hname
        exact hfresh (hname ▸ List.mem_map_of_mem he)
      obtain ⟨pending', hdown, hnumbers, hothers⟩ := ih hrest counted fun e he => by
        rw [hsame e he]
        exact hle e (List.mem_cons_of_mem _ he)
      refine ⟨pending', ?_, ?_, ?_⟩
      · have hfilter : (rest.filter fun e => 0 < e.references.count name ∧
            counted e.name = e.references.count name) =
            rest.filter fun e => 0 < e.references.count name ∧
              pending e.name = e.references.count name := by
          apply List.filter_congr
          intro e he
          rw [hsame e he]
        rw [dependents, List.flatMap_cons, countDown_replicate d.name _ _ pending hhead,
          List.filter_cons]
        rw [dependents, hfilter] at hdown
        rw [show countDown _ counted = _ from hdown]
        simp only [Option.map_some, decide_eq_true_eq]
        split <;> rfl
      · intro e he
        rcases List.mem_cons.mp he with rfl | hmem
        · rw [hothers _ hfresh]
          exact Function.update_self _ _ _
        · rw [hnumbers e hmem, hsame e hmem]
      · intro other hother
        rw [List.map_cons, List.mem_cons, not_or] at hother
        rw [hothers other hother.2]
        exact Function.update_of_ne hother.1 _ _

/-! ## What the numbers say -/

/-- The number of every rule says how many of its references are not done. -/
def Counted (graph : List Dependency) (done : List String) (pending : String → Nat) : Prop :=
  ∀ d ∈ graph, pending d.name = d.references.countP (· ∉ done)

/-- References that are not done lead to the next rule, or are still not done after it. -/
theorem countP_not_mem_append {name : String} {done : List String} (hfresh : name ∉ done)
    (references : List String) :
    references.countP (· ∉ done) =
      references.count name + references.countP (· ∉ done ++ [name]) := by
  induction references with
  | nil => rfl
  | cons r rest ih =>
      rw [List.countP_cons, List.count_cons, List.countP_cons, ih]
      by_cases hname : r = name
      · subst hname
        simp [hfresh]
        omega
      · by_cases hdone : r ∈ done
        · simp [hname, hdone]
        · simp [hname, hdone]
          omega

section

variable {graph : List Dependency}

theorem referencesOf_eq (hnames : (graph.map (·.name)).Nodup) {d : Dependency} (hd : d ∈ graph) :
    referencesOf graph d.name = d.references := by
  obtain ⟨e, hfind⟩ : ∃ e, graph.find? (·.name = d.name) = some e :=
    Option.isSome_iff_exists.mp (List.find?_isSome.mpr ⟨d, hd, by simp⟩)
  have hname : e.name = d.name := by simpa using List.find?_some hfind
  have hsame : e = d := eq_of_name_eq hnames (List.mem_of_find?_eq_some hfind) hd hname
  rw [referencesOf, hfind, hsame]

/-- At the start no reference is done. -/
theorem counted_start (hnames : (graph.map (·.name)).Nodup) : Counted graph [] (degree graph) := by
  intro d hd
  rw [degree, referencesOf_eq hnames hd]
  simp

/-- Taking a rule counts down without falling below zero; the rules that it makes wait are
those that it releases. -/
theorem Counted.take {name : String} {done : List String} {pending : String → Nat}
    (hnames : (graph.map (·.name)).Nodup) (h : Counted graph done pending)
    (hfresh : name ∉ done) :
    ∃ pending', countDown (dependents graph name) pending =
        some (released graph done name, pending') ∧
      Counted graph (done ++ [name]) pending' := by
  have hsplit (d : Dependency) (hd : d ∈ graph) : pending d.name =
      d.references.count name + d.references.countP (· ∉ done ++ [name]) := by
    rw [h d hd, countP_not_mem_append hfresh]
  obtain ⟨pending', hdown, hnumbers, -⟩ := countDown_dependents name hnames pending fun d hd => by
    rw [hsplit d hd]
    exact Nat.le_add_right _ _
  refine ⟨pending', ?_, ?_⟩
  · rw [hdown, released]
    congr 3
    apply List.filter_congr
    intro d hd
    have hall : d.references.countP (· ∉ done ++ [name]) = 0 ↔
        ∀ r ∈ d.references, r = name ∨ r ∈ done := by
      simp only [List.countP_eq_zero, decide_eq_true_eq, not_not, List.mem_append,
        List.mem_singleton, or_comm]
    have hzero : pending d.name = d.references.count name ↔
        d.references.countP (· ∉ done ++ [name]) = 0 := by
      rw [hsplit d hd]
      omega
    rw [Bool.eq_iff_iff]
    simp only [decide_eq_true_eq, Bool.and_eq_true, List.all_eq_true, Bool.or_eq_true,
      List.count_pos_iff, hzero, hall]
  · intro d hd
    rw [hnumbers d hd, hsplit d hd]
    omega

/-- The loop that counts does what the loop does that looks at what is done. -/
theorem Counted.run (hnames : (graph.map (·.name)).Nodup) (fuel : Nat)
    {waiting done : List String} {pending : String → Nat} (h : Counted graph done pending)
    (hsweep : Sweep graph waiting done) (hfuel : graph.length ≤ done.length + fuel) :
    runCounted graph fuel waiting done pending =
      some (Dependency.run graph fuel waiting done) := by
  induction fuel generalizing waiting done pending with
  | zero =>
      -- as many names are done as there are rules, so none of them can wait
      cases waiting with
      | nil => rfl
      | cons name waiting =>
          have hsub : done ++ name :: waiting ⊆ graph.map (·.name) := by
            intro other hother
            obtain ⟨d, hd, hname, -⟩ := hsweep.mem_graph hother
            exact List.mem_map.mpr ⟨d, hd, hname⟩
          have hlength := (List.subperm_of_subset hsweep.nodup hsub).length_le
          simp only [List.length_append, List.length_cons, List.length_map] at hlength
          omega
  | succ fuel ih =>
      cases waiting with
      | nil => rfl
      | cons name waiting =>
          obtain ⟨pending', hdown, hcounted⟩ := h.take hnames hsweep.next_fresh
          have hlength : graph.length ≤ (done ++ [name]).length + fuel := by
            rw [List.length_append, List.length_singleton]
            omega
          rw [runCounted, hdown, Option.bind_some]
          exact ih hcounted (hsweep.take hnames) hlength

/-- Counting finds the order of evaluation: no number falls below zero, and the loop ends
after at most as many rounds as there are rules. -/
theorem countedOrder_eq (hnames : (graph.map (·.name)).Nodup) :
    countedOrder graph = some (order graph) := by
  have hstart : (graph.map (·.name)).filter (fun name => degree graph name = 0) =
      (graph.filter (·.references.isEmpty)).map (·.name) := by
    rw [List.filter_map]
    congr 1
    apply List.filter_congr
    intro d hd
    rw [Function.comp_apply, degree, referencesOf_eq hnames hd]
    cases d.references <;> rfl
  rw [countedOrder, hstart]
  exact (counted_start hnames).run hnames graph.length (sweep_start hnames) (by simp)

end

end Dependency

end Rulebook
