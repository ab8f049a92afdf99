/-
  Proofs/Session/Facts.lean --- the working memory of a session.

  The working memory of a session is what the facts that it took in write, one after the
  other (`memory_foldl_insert`).  A request adds typed facts, which write below the names
  of their shapes, and its parameters, which write below a root of their own.
-/
import Rulebook.Binding.Basic
import Rulebook.Proofs.Fact.Memory
import Rulebook.Session.Basic

set_option autoImplicit false

namespace Rulebook

/-- The writes of a fact to working memory. -/
def Fact.writes : Fact → List Write
  | .record i => Write.ofInstance i
  | .params members => Session.rootWrites "params" members
  | .context members => Session.rootWrites "context" members
  | .result _ | .logger _ | .store => []

namespace Session

/-- A session that is not disposed of takes facts in. -/
theorem memory_foldl_insert {s : Session} (h : s.disposed = false) (facts : List Fact) :
    (facts.foldl insert s).memory = s.memory.write (facts.flatMap Fact.writes) ∧
      (facts.foldl insert s).disposed = false := by
  induction facts generalizing s with
  | nil => exact ⟨rfl, h⟩
  | cons fact rest ih =>
      have hinsert : (s.insert fact).memory = s.memory.write fact.writes ∧
          (s.insert fact).disposed = false := by
        unfold insert
        rw [if_neg (by simp [h])]
        cases fact <;> exact ⟨rfl, h⟩
      obtain ⟨hmemory, hdisposed⟩ := ih hinsert.2
      rw [List.foldl_cons, hmemory, hinsert.1, List.flatMap_cons]
      exact ⟨List.foldl_append.symm, hdisposed⟩

/-- Members below a root write what is found in them, below that root. -/
theorem found_of_mem_rootWrites {root : String} {members : Json.Members} {q : Path} {v : Value}
    (h : (q, v) ∈ rootWrites root members) :
    ∃ keys part, (Json.object members).Found keys part ∧ Value.ofJson? part = some v ∧
      q = (Path.ofString root).descend keys :=
  Write.found_of_mem_ofJson (.object members) _ h

theorem under_of_mem_rootWrites {root : String} {members : Json.Members} {w : Write}
    (h : w ∈ rootWrites root members) (other : String) :
    w.1.segments ≠ [] ∧ (w.1.Under other ↔ (Path.ofString root).Under other) := by
  obtain ⟨keys, part, -, -, hpath⟩ := found_of_mem_rootWrites h
  have hroot := Path.segments_ofString_ne_nil root
  rw [hpath]
  exact ⟨Path.segments_descend_ne_nil hroot keys, Path.under_descend_iff hroot keys⟩

end Session

/-- Only typed facts write elsewhere than below the dynamic roots. -/
theorem Fact.under_of_mem_writes {fact : Fact} (hfact : ∀ i, fact ≠ .record i) {w : Write}
    (h : w ∈ fact.writes) : w.1.Under "params" ∨ w.1.Under "context" := by
  cases fact with
  | record i => exact absurd rfl (hfact i)
  | params members => exact Or.inl ((Session.under_of_mem_rootWrites h "params").2.mpr rfl)
  | context members => exact Or.inr ((Session.under_of_mem_rootWrites h "context").2.mpr rfl)
  | result _ | logger _ | store => exact absurd h List.not_mem_nil

namespace Binding

/-- The typed facts of a request: an instance of each shape of the active group. -/
def instances (groups : List ShapeGroup) (params : Json.Members) : List Instance :=
  match ShapeGroup.active? groups with
  | some g => g.shapes.map fun s => (instantiate groups s params).1
  | none => []

theorem instantiate_fst (groups : List ShapeGroup) (s : Shape) (params : Json.Members) :
    (instantiate groups s params).1 =
      ⟨s.name, Instance.fieldsOf (settings groups (Path.ofString s.name) params s.fields).1⟩ := rfl

theorem mem_instances {groups : List ShapeGroup} {params : Json.Members} {i : Instance}
    (h : i ∈ instances groups params) :
    ∃ g s, ShapeGroup.active? groups = some g ∧ s ∈ g.shapes ∧
      i = (instantiate groups s params).1 := by
  unfold instances at h
  split at h
  · rename_i g hg
    obtain ⟨s, hs, rfl⟩ := List.mem_map.mp h
    exact ⟨g, s, hg, hs, rfl⟩
  · cases h

/-- The facts of a request: its typed facts, its parameters, and the result. -/
theorem facts_fst (groups : List ShapeGroup) (params : Json.Members) (handle : ResultHandle) :
    (facts groups params handle).1 =
      (instances groups params).map Fact.record ++ [.params params, .result handle] := by
  unfold facts instances
  cases ShapeGroup.active? groups <;> simp [Function.comp_def]

/-- A request writes its typed facts, and then its parameters. -/
theorem writes_facts (groups : List ShapeGroup) (params : Json.Members) (handle : ResultHandle) :
    (facts groups params handle).1.flatMap Fact.writes =
      (instances groups params).flatMap Write.ofInstance ++
        Session.rootWrites "params" params := by
  rw [facts_fst]
  simp [Fact.writes, List.flatMap_map]

/-- After binding, working memory has what was written before and the facts of the
request. -/
theorem memory_bind {s : Session} (h : s.disposed = false) (groups : List ShapeGroup)
    (params : Json.Members) (handle : ResultHandle) :
    (bind Session.insert groups params handle s).1.memory =
      s.memory.write ((instances groups params).flatMap Write.ofInstance ++
        Session.rootWrites "params" params) := by
  rw [← writes_facts groups params handle]
  exact (Session.memory_foldl_insert h _).1

/-- After binding, actions have the result of the request to work on. -/
theorem result_bind {s : Session} (h : s.disposed = false) (groups : List ShapeGroup)
    (params : Json.Members) (handle : ResultHandle) :
    (bind Session.insert groups params handle s).1.result = some handle := by
  obtain ⟨earlier, hfacts⟩ : ∃ earlier,
      (facts groups params handle).1 = earlier ++ [.result handle] := by
    rw [facts_fst]
    exact ⟨_, (List.append_assoc _ [Fact.params params] [.result handle]).symm⟩
  have hdisposed := (Session.memory_foldl_insert h earlier).2
  have hinsert (s : Session) (h : s.disposed = false) :
      (s.insert (.result handle)).result = some handle := by
    simp [Session.insert, h]
  have hbind : (bind Session.insert groups params handle s).1 =
      (facts groups params handle).1.foldl Session.insert s := rfl
  rw [hbind, hfacts, List.foldl_append]
  exact hinsert _ hdisposed

end Binding

end Rulebook
