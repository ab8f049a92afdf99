/-
  Proofs/Session/Layout.lean --- how a program is laid out, and that nothing is looked
  for outside of it.

  A program holds its rules in the order of evaluation, a table from names to positions
  in it, and an agenda of positions (`LaidOut`).  Firing a program and asking it for its
  agenda or for the dependencies of a rule look up positions that come from these three;
  that every such position is there, and that no entry is passed over, is `InBounds`.
-/
import Rulebook.Proofs.Program.Counting
import Rulebook.Proofs.Session.Effect

set_option autoImplicit false

namespace Rulebook

namespace Program

/-- How a program holds the rules of a text. -/
structure LaidOut (p : Program) (rules : List Rule) : Prop where
  /-- The order of evaluation has the names of the rules. -/
  order_perm : p.executionOrder.Perm (rules.map (·.name))
  /-- It has each of them once. -/
  order_nodup : p.executionOrder.Nodup
  /-- Counting open references finds it, and never counts below zero. -/
  order_counted : Dependency.countedOrder (Dependency.ofRules rules) = some p.executionOrder
  /-- A rule comes after all rules that its condition refers to. -/
  after_references : ∀ r ∈ rules, ∀ name ∈ r.condition.references, ∃ i j : Nat,
    j < i ∧ p.executionOrder[i]? = some r.name ∧ p.executionOrder[j]? = some name
  /-- The rules are those of the text. -/
  rules_perm : (p.rules.map CompiledRule.rule).Perm rules
  /-- Every rule knows its position. -/
  index_eq : ∀ (i : Nat) (r : CompiledRule), p.rules[i]? = some r → r.index = i
  /-- The table leads from every name to the position of its rule. -/
  positions_iff : ∀ (name : String) (i : Nat),
    p.positions.get? name = some i ↔ p.executionOrder[i]? = some name
  /-- It has no other names. -/
  positions_keys : p.positions.keys = p.executionOrder
  /-- The agenda has no rule twice. -/
  agenda_nodup : p.agenda.Nodup
  /-- It has the rules with actions and no others. -/
  mem_agenda_iff : ∀ i, i ∈ p.agenda ↔ ∃ r, p.rules[i]? = some r ∧ r.actions ≠ []

/-- Whatever position is looked up is there. -/
structure InBounds (p : Program) (rules : List Rule) : Prop where
  /-- A rule has a place for its verdict. -/
  index_lt : ∀ r ∈ p.rules, r.index < p.rules.length
  /-- There are as many places for verdicts as rules, whenever a rule is decided. -/
  verdicts_size : ∀ (memory : Memory) (k : Nat),
    (p.verdictsAfter memory k).size = p.rules.length
  /-- A reference leads to the verdict of a rule that was decided before. -/
  reference_position : ∀ r ∈ p.rules, ∀ name ∈ r.condition.references,
    ∃ j < r.index, p.positions.get? name = some j
  /-- A name leads to a rule. -/
  position_lt : ∀ (name : String) (i : Nat), p.positions.get? name = some i → i < p.rules.length
  /-- An entry of the agenda leads to a rule and to a verdict. -/
  agenda_lt : ∀ i ∈ p.agenda, i < p.rules.length
  /-- No entry of the agenda is passed over when it is listed. -/
  agendaOrder_eq : p.agendaOrder.map some = p.agenda.map fun i => p.executionOrder[i]?
  /-- None whose rule holds is passed over when the rules act. -/
  activations_eq : ∀ memory : Memory, (p.activations memory).map (·.index) =
    p.agenda.filter fun i => (p.verdicts memory)[i]?.getD false
  /-- The dependencies of a rule are the references of its condition, and no other name has any. -/
  dependenciesOf?_iff : ∀ (name : String) (references : List String),
    p.dependenciesOf? name = some references ↔
      ∃ r ∈ rules, r.name = name ∧ r.condition.references = references

section

variable {p : Program} {rules : List Rule}

theorem getElem?_executionOrder {i : Nat} {name : String} :
    p.executionOrder[i]? = some name ↔ ∃ r, p.rules[i]? = some r ∧ r.name = name := by
  rw [executionOrder, List.getElem?_map, Option.map_eq_some_iff]

theorem Arranges.mem_agenda_iff (h : p.Arranges rules) (hagenda : p.agenda = agendaOf p.rules)
    (i : Nat) : i ∈ p.agenda ↔ ∃ r, p.rules[i]? = some r ∧ r.actions ≠ [] := by
  rw [show p.agenda = (acting p.rules).map (·.index) from hagenda, List.mem_map]
  constructor
  · rintro ⟨r, hr, rfl⟩
    obtain ⟨hmem, hactions⟩ := mem_acting.mp hr
    exact ⟨r, h.getElem?_index hmem, hactions⟩
  · rintro ⟨r, hr, hactions⟩
    exact ⟨r, mem_acting.mpr ⟨List.mem_of_getElem? hr, hactions⟩, h.index_eq i r hr⟩

/-- Rules at different positions have different positions as their own. -/
theorem Arranges.map_index_nodup (h : p.Arranges rules) : (p.rules.map (·.index)).Nodup := by
  have hrange : p.rules.map (·.index) = List.range p.rules.length := by
    apply List.ext_getElem (by simp)
    intro i hi _
    rw [List.length_map] at hi
    rw [List.getElem_map, List.getElem_range]
    exact h.index_eq i _ (List.getElem?_eq_getElem hi)
  rw [hrange]
  exact List.nodup_range

theorem Arranges.agenda_nodup (h : p.Arranges rules) (hagenda : p.agenda = agendaOf p.rules) :
    p.agenda.Nodup := by
  rw [show p.agenda = (acting p.rules).map (·.index) from hagenda, acting,
    ((List.mergeSort_perm _ _).map _).nodup_iff]
  exact h.map_index_nodup.sublist (List.filter_sublist.map _)

/-- The dependencies of a rule are what its condition in the text refers to. -/
theorem Arranges.dependenciesOf?_iff (h : p.Arranges rules) (name : String)
    (references : List String) :
    p.dependenciesOf? name = some references ↔
      ∃ r ∈ rules, r.name = name ∧ r.condition.references = references := by
  simp only [dependenciesOf?, rule?, Option.map_eq_some_iff, Option.bind_eq_some_iff]
  constructor
  · rintro ⟨r, ⟨i, hposition, hr⟩, hrefs⟩
    obtain ⟨r', hr', hname⟩ := (h.positions_iff name i).mp hposition
    obtain rfl : r' = r := Option.some.inj (hr'.symm.trans hr)
    exact ⟨r'.rule, h.rule_mem hr, hname, hrefs⟩
  · rintro ⟨r, hmem, rfl, rfl⟩
    obtain ⟨i, compiled, hposition, hi, rfl⟩ := h.exists_position hmem
    exact ⟨compiled, ⟨i, hposition, hi⟩, rfl⟩

/-- An arrangement of rules with their agenda is in bounds. -/
theorem Arranges.inBounds (h : p.Arranges rules) (hagenda : p.agenda = agendaOf p.rules) :
    p.InBounds rules where
  index_lt r hr := (List.getElem?_eq_some_iff.mp (h.getElem?_index hr)).1
  verdicts_size := p.size_verdictsAfter
  reference_position r hr := h.earlier r.index r (h.getElem?_index hr)
  position_lt name i hposition := by
    obtain ⟨r, hr, -⟩ := (h.positions_iff name i).mp hposition
    exact (List.getElem?_eq_some_iff.mp hr).1
  agenda_lt i hi := by
    obtain ⟨r, hr, -⟩ := (h.mem_agenda_iff hagenda i).mp hi
    exact (List.getElem?_eq_some_iff.mp hr).1
  agendaOrder_eq := by
    rw [h.agendaOrder_eq hagenda, show p.agenda = (acting p.rules).map (·.index) from hagenda,
      List.map_map, List.map_map]
    apply List.map_congr_left
    intro r hr
    exact (getElem?_executionOrder.mpr ⟨r, h.getElem?_index (mem_acting.mp hr).1, rfl⟩).symm
  activations_eq memory := by
    rw [h.activations_eq hagenda, show p.agenda = (acting p.rules).map (·.index) from hagenda,
      List.filter_map]
    rfl
  dependenciesOf?_iff := h.dependenciesOf?_iff

end

/-- The program of packages without defects is laid out. -/
theorem laidOut_lower {packages : List Package} (digest : Digest) (h : defects packages = []) :
    (lower packages digest).LaidOut (Package.allRules packages) := by
  obtain ⟨hnames, -, horder⟩ := names_of_defects_eq_nil h
  have harranges := arranges_lower digest h
  have hexecution : (lower packages digest).executionOrder =
      Dependency.order (Dependency.ofRules (Package.allRules packages)) :=
    map_name_lowerRules hnames horder
  have hperm := order_perm_names hnames horder
  rw [← hexecution] at hperm
  refine
    { order_perm := hperm
      order_nodup := hperm.nodup_iff.mpr hnames
      order_counted := ?_
      after_references := ?_
      rules_perm := harranges.perm
      index_eq := harranges.index_eq
      positions_iff := ?_
      positions_keys := ?_
      agenda_nodup := harranges.agenda_nodup rfl
      mem_agenda_iff := harranges.mem_agenda_iff rfl }
  · rw [hexecution]
    exact Dependency.countedOrder_eq (by rwa [Dependency.map_name_ofRules])
  · intro r hr name hname
    obtain ⟨i, compiled, -, hi, rfl⟩ := harranges.exists_position hr
    obtain ⟨j, hj, hposition⟩ := harranges.earlier i compiled hi name hname
    exact ⟨i, j, hj, getElem?_executionOrder.mpr ⟨compiled, hi, rfl⟩,
      getElem?_executionOrder.mpr ((harranges.positions_iff name j).mp hposition)⟩
  · intro name i
    rw [harranges.positions_iff, getElem?_executionOrder]
  · simp only [lower, Table.keys, executionOrder, List.map_map]
    rfl

/-- **The layout of a program.**  The program of every text that compiles has the rules of
the text in an order in which each comes after all that it refers to, a table that leads
from their names to their positions and has no other names, and an agenda with the
position of each rule that has actions.  Hence no position that firing, the agenda or the
dependencies of a rule look up is out of bounds. -/
theorem laidOut_of_ofSource {source : String} {p : Program} (h : ofSource source = .ok p) :
    ∃ packages, Source.packages source.toList = .ok packages ∧
      p.LaidOut (Package.allRules packages) ∧ p.InBounds (Package.allRules packages) := by
  obtain ⟨packages, hpackages, hdefects, rfl⟩ := lower_of_ofSource h
  exact ⟨packages, hpackages, laidOut_lower _ hdefects, (arranges_lower _ hdefects).inBounds rfl⟩

/-- A text whose first rule refers twice to one rule and once to another, which both wait for
the last; the other one acts first. -/
def relay : String :=
  "rule a:b AND c AND b then set k=1\nrule b:NOT d\nrule c(priority 2):d OR b then fail \"c\"\nrule d:params.x==1"

/-- The rules of `relay`. -/
def relayRules : List Rule :=
  [⟨"a", .and (.and (.rule "b") (.rule "c")) (.rule "b"), none, [.set "k" (.literal (.int 1))]⟩,
    ⟨"b", .not (.rule "d"), none, []⟩,
    ⟨"c", .or (.rule "d") (.rule "b"), some 2, [.fail "c"]⟩,
    ⟨"d", .compare ⟨["params", "x"]⟩ .equal (.int 1), none, []⟩]

theorem laidOut_of_ofSource_relay :
    ∃ p, ofSource relay = .ok p ∧ p.executionOrder = ["d", "b", "c", "a"] ∧
      p.positions.get? "a" = some 3 ∧ p.dependenciesOf? "a" = some ["b", "c", "b"] ∧
      p.agendaOrder.length = p.agenda.length := by
  have hread : Source.packages relay.toList = .ok [⟨Package.defaultName, [], relayRules⟩] := by
    decide +kernel
  have hdefects : defects [⟨Package.defaultName, [], relayRules⟩] = [] := by decide +kernel
  have hcompile := ofSource_of_packages hread hdefects
  obtain ⟨packages, hpackages, hlaid, hbounds⟩ := laidOut_of_ofSource hcompile
  obtain rfl := Except.ok.inj (hread.symm.trans hpackages)
  have hcounted : Dependency.countedOrder
      (Dependency.ofRules (Package.allRules [⟨Package.defaultName, [], relayRules⟩])) =
      some ["d", "b", "c", "a"] := by decide
  have horder := Option.some.inj (hlaid.order_counted.symm.trans hcounted)
  refine ⟨_, hcompile, horder, ?_, ?_, ?_⟩
  · rw [hlaid.positions_iff, horder]
    rfl
  · exact (hbounds.dependenciesOf?_iff "a" _).mpr
      ⟨relayRules[0], by simp [relayRules, Package.allRules], rfl, rfl⟩
  · simpa using congrArg List.length hbounds.agendaOrder_eq

end Program

end Rulebook
