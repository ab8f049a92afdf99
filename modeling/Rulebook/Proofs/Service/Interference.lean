/-
  Proofs/Service/Interference.lean --- parameters that nobody asks for.

  A parameter writes below its own key among the parameters, however deep its value is
  (`Write.prefix_of_mem_ofJson`).  If no rule reads there, these writes displace no
  value that a rule reads (`Path.apart_of_segments`), and if no bound field has the name of
  the key, the typed facts are the same.  So a run with the parameter is the run without it
  (`Execution.unread_parameter_ignored`).
-/
import Rulebook.Proofs.Binding.Diagnostics
import Rulebook.Proofs.Fact.LastWrite
import Rulebook.Proofs.Service.Rearrangement
import Rulebook.Proofs.Service.Roots
import Rulebook.Proofs.Session.Reads

set_option autoImplicit false

namespace Rulebook

/-! ## Paths -/

/-- A path that begins with two segments keeps clear of a path that does not, unless that one
ends before the second. -/
theorem Path.apart_of_segments {p q : Path} {root first : String}
    (hp : [root, first] <+: p.segments) (hq : ¬ [root, first] <+: q.segments)
    (hnil : q.segments ≠ []) (hroot : q.segments ≠ [root]) : p ≠ q ∧ ¬ p.Displaces q := by
  have hbelow : ¬ p.segments <+: q.segments := fun h => hq (hp.trans h)
  have habove : ¬ q.segments <+: p.segments := by
    intro h
    obtain ⟨rest, hrest⟩ := hp
    rw [← hrest, List.cons_append, List.cons_append] at h
    rcases List.prefix_cons_iff.mp h with hnone | ⟨tail, htail, h⟩
    · exact hnil hnone
    · rcases List.prefix_cons_iff.mp h with hone | ⟨tail', htail', -⟩
      · exact hroot (htail.trans (congrArg (root :: ·) hone))
      · exact hq ⟨tail', by rw [htail, htail']; rfl⟩
  refine ⟨?_, fun h => h.2.elim hbelow habove⟩
  rintro rfl
  exact hbelow (List.prefix_refl _)

/-- Compiled rules read below the names of shapes and behind the dynamic roots. -/
theorem Program.segments_ne_of_reads {source : String} {p : Program} (h : ofSource source = .ok p)
    {r : CompiledRule} (hr : r ∈ p.rules) {path : Path} (hpath : r.rule.ReadsPath path) :
    path.segments ≠ [] ∧ path.segments ≠ ["params"] := by
  obtain ⟨packages, -, hdefects, rfl⟩ := lower_of_ofSource h
  have hwf := (defects_eq_nil_iff packages).mp hdefects
  have hrule : r.rule ∈ Package.allRules packages :=
    (arranges_lower _ hdefects).perm.subset (List.mem_map_of_mem hr)
  rcases hwf.rules.paths_lead r.rule hrule path hpath with
    ⟨root, rest, hsegments, -, hrest⟩ | ⟨type, s, hs, rest, hsegments, -⟩
  · rw [hsegments]
    exact ⟨List.cons_ne_nil _ _, fun heq => hrest (List.cons.inj heq).2⟩
  · rw [hsegments]
    exact ⟨List.cons_ne_nil _ _, fun heq => (hwf.shapes.unreserved s hs).1 (List.cons.inj heq).1⟩

/-! ## One more parameter -/

/-- What a parameter writes begins with the root and the first segment of its key. -/
theorem Write.prefix_of_mem_ofJson {root first k : String}
    (hroot : (Path.ofString root).segments = [root])
    (hfirst : (Path.ofString k).segments.head? = some first) {v : Json} {w : Write}
    (hw : w ∈ ofJson ((Path.ofString root).child k) v) : [root, first] <+: w.1.segments := by
  obtain ⟨q, value⟩ := w
  obtain ⟨keys, part, -, -, rfl⟩ := found_of_mem_ofJson v _ hw
  obtain ⟨more, hmore⟩ := List.head?_eq_some_iff.mp hfirst
  rw [Path.segments_descend, Path.child, hroot, hmore]
  exact ⟨_, rfl⟩

namespace Binding

/-- Requests with the same typed facts give sessions that differ in memory only. -/
theorem bind_withMemory {s : Session} (h : s.disposed = false) {groups : List ShapeGroup}
    {params others : Json.Members} (hinstances : instances groups others = instances groups params)
    (handle : ResultHandle) :
    (bind Session.insert groups others handle s).1 =
      (bind Session.insert groups params handle s).1.withMemory
        (bind Session.insert groups others handle s).1.memory := by
  have hdisposed := (Session.memory_foldl_insert h ((instances groups params).map Fact.record)).2
  simp only [bind, facts_fst, hinstances, List.foldl_append, List.foldl_cons, List.foldl_nil]
  generalize ((instances groups params).map Fact.record).foldl Session.insert s = t at hdisposed ⊢
  simp [Session.insert, hdisposed, Session.withMemory]

variable {groups : List ShapeGroup} {k : String}

/-- The bound shapes have no field of a name. -/
def Undeclared (groups : List ShapeGroup) (k : String) : Prop :=
  ∀ g, ShapeGroup.active? groups = some g → ∀ s ∈ g.shapes, ∀ f ∈ s.fields, f.name ≠ k

/-- A parameter that is no field is bound to nothing and not reported. -/
theorem facts_of_undeclared (hk : Undeclared groups k) (before after : Json.Members) (v : Json)
    (handle : ResultHandle) :
    instances groups (before ++ (k, v) :: after) = instances groups (before ++ after) ∧
      (facts groups (before ++ (k, v) :: after) handle).2 =
        (facts groups (before ++ after) handle).2 := by
  unfold instances facts
  cases hactive : ShapeGroup.active? groups with
  | none => exact ⟨rfl, rfl⟩
  | some g =>
      have hsame : ∀ s ∈ g.shapes, instantiate groups s (before ++ (k, v) :: after) =
          instantiate groups s (before ++ after) := by
        intro s hs
        have hagree : Agree groups s.fields (before ++ after) (before ++ (k, v) :: after) :=
          agree_of_undeclared (hk g hactive s hs) before after v
        simp only [instantiate, settings_of_agree hagree]
      have hmap : g.shapes.map (fun s => instantiate groups s (before ++ (k, v) :: after)) =
          g.shapes.map fun s => instantiate groups s (before ++ after) := List.map_congr_left hsame
      simp only [hmap, and_true]
      exact List.map_congr_left fun s hs => congrArg Prod.fst (hsame s hs)

end Binding

namespace Execution

/-- No rule reads below a segment behind the root of the parameters. -/
def Unread (p : Program) (first : String) : Prop :=
  ∀ r ∈ p.rules, ∀ path, r.rule.ReadsPath path → ¬ ["params", first] <+: path.segments

/-- Rules cannot tell from working memory whether a parameter is there that none of them
reads. -/
theorem sameFor_bound (c : Config) (label : String) {source : String} {p : Program}
    (hp : Program.ofSource source = .ok p) {k first : String}
    (hk : Binding.Undeclared p.groups k) (hfirst : (Path.ofString k).segments.head? = some first)
    (hunread : Unread p first) (before after : Json.Members) (v : Json) :
    (bound c label p (before ++ (k, v) :: after)).memory.SameFor p.rules
      (bound c label p (before ++ after)).memory := by
  intro r hr path hpath
  have hroot : (Path.ofString "params").segments = ["params"] := by decide +kernel
  obtain ⟨hnil, hone⟩ := Program.segments_ne_of_reads hp hr hpath
  have hapart : ∀ w ∈ Write.ofJson ((Path.ofString "params").child k) v,
      w.1 ≠ path ∧ ¬ w.1.Displaces path := fun w hw =>
    Path.apart_of_segments (Write.prefix_of_mem_ofJson hroot hfirst hw)
      (hunread r hr path hpath) hnil hone
  obtain ⟨hinstances, -⟩ := Binding.facts_of_undeclared hk before after v handle
  have hmembers : Session.rootWrites "params" (before ++ (k, v) :: after) =
      Session.rootWrites "params" before ++
        (Write.ofJson ((Path.ofString "params").child k) v ++ Session.rootWrites "params" after) := by
    rw [Session.rootWrites, Write.ofMembers_append, Write.ofMembers]
    rfl
  have hothers : Session.rootWrites "params" (before ++ after) =
      Session.rootWrites "params" before ++ Session.rootWrites "params" after :=
    Write.ofMembers_append _ before after
  rw [memory_bound, memory_bound, writes, writes, hinstances, hmembers, hothers,
    ← List.append_assoc, ← List.append_assoc, Memory.get?_write_skip hapart]
  simp only [List.append_assoc]

theorem disposed_bound (c : Config) (label : String) (p : Program) (params : Json.Members) :
    (bound c label p params).disposed = false :=
  (Session.memory_foldl_insert (Session.memory_foldl_insert rfl (globals c label)).2 _).2

/-- A run keeps no memory. -/
theorem finish_withMemory {fired : Session × Except FireError Nat} (h : fired.1.disposed = false)
    (m : Memory) : finish (fired.1.withMemory m, fired.2) = finish fired := by
  rw [finish, Session.dispose_withMemory h]
  rfl

/-- **Parameters that nobody asks for do not interfere.**  A text compiles.  No field of a
bound shape has the name of a key, and no rule reads below the first segment of the key
behind `params`.  Then with any settings and any deadline, any other parameters, any place of
the key among them and any value, however nested, binding reports the same with the key as
without it, and the run is the same: its answer, the session that it leaves, and the messages
in the log. -/
theorem unread_parameter_ignored (clock : Option Deadline → Option Deadline) (c : Config)
    (label : String) {source : String} {p : Program}
    (hp : Program.ofSource source = .ok p) {k first : String}
    (hk : Binding.Undeclared p.groups k) (hfirst : (Path.ofString k).segments.head? = some first)
    (hunread : Unread p first) (before after : Json.Members) (v : Json) :
    (Binding.facts p.groups (before ++ (k, v) :: after) handle).2 =
        (Binding.facts p.groups (before ++ after) handle).2 ∧
      run ⟨.clocked fun _ => clock, c⟩ label p (before ++ (k, v) :: after) =
        run ⟨.clocked fun _ => clock, c⟩ label p (before ++ after) := by
  obtain ⟨hinstances, hreport⟩ := Binding.facts_of_undeclared hk before after v handle
  refine ⟨hreport, ?_⟩
  have hbound : bound c label p (before ++ (k, v) :: after) =
      (bound c label p (before ++ after)).withMemory
        (bound c label p (before ++ (k, v) :: after)).memory :=
    Binding.bind_withMemory (Session.memory_foldl_insert rfl (globals c label)).2 hinstances handle
  have hsame : (bound c label p (before ++ (k, v) :: after)).memory.SameFor
      (bound c label p (before ++ after)).program.rules
      (bound c label p (before ++ after)).memory := by
    rw [program_bound]
    exact sameFor_bound c label hp hk hfirst hunread before after v
  have hdisposed : ∀ deadline,
      ((bound c label p (before ++ after)).fireAll deadline).1.disposed = false := by
    intro deadline
    rw [Session.disposed_fireAll, disposed_bound]
  rw [run_clocked, run_clocked, hbound, Session.fireAll_withMemory hsame,
    finish_withMemory (hdisposed _)]

theorem unread_parameter_ignored_overlapping :
    ∃ p, Program.ofSource overlapping = .ok p ∧
      run ⟨.clocked fun _ _ => some .past, limited⟩ "r" p [("amount", .number (.int 7)),
          ("order.amount", .object [("gross", .number (.int 1))]), ("limit", .null)] =
        run ⟨.clocked fun _ _ => some .past, limited⟩ "r" p
          [("amount", .number (.int 7)), ("limit", .null)] ∧
      run ⟨.rules, limited⟩ "r" p [("amount", .number (.int 7)),
          ("order.amount", .object [("gross", .number (.int 1))]), ("limit", .null)] =
        run ⟨.rules, limited⟩ "r" p [("amount", .number (.int 7)), ("limit", .null)] := by
  have hrules : Program.lowerRules (Package.allRules overlappingPackages) =
      [⟨"r", .and (.compare ⟨["order", "amount"]⟩ .equal (.int 0))
        (.compare ⟨["params", "amount"]⟩ .equal (.int 7)), [], none, 0, 0⟩] := by decide +kernel
  have hundeclared : Binding.Undeclared (Program.groupsOf overlappingPackages) "order.amount" := by
    intro g hg s hs f hf
    obtain rfl := Option.some.inj hg
    obtain rfl := List.mem_singleton.mp hs
    obtain rfl := List.mem_singleton.mp hf
    decide
  have hunread : Unread (Program.lower overlappingPackages (Digest.ofText overlapping)) "order" := by
    intro r hr path hpath
    have hr : r ∈ Program.lowerRules (Package.allRules overlappingPackages) := hr
    rw [hrules] at hr
    obtain rfl := List.mem_singleton.mp hr
    rcases hpath with ⟨op, literal, hcomparison⟩ | ⟨key, hset⟩
    · simp only [CompiledRule.rule, Condition.comparisons, List.cons_append, List.nil_append,
        List.mem_cons, List.not_mem_nil, or_false, Prod.mk.injEq] at hcomparison
      rcases hcomparison with ⟨rfl, -⟩ | ⟨rfl, -⟩ <;> decide
    · cases hset
  have hfirst : (Path.ofString "order.amount").segments.head? = some "order" := by decide +kernel
  have hrun := fun clock =>
    (unread_parameter_ignored clock limited "r" ofSource_overlapping hundeclared hfirst hunread
      [("amount", .number (.int 7))] [("limit", .null)]
      (.object [("gross", .number (.int 1))])).2
  exact ⟨_, ofSource_overlapping, hrun fun _ => some .past, hrun fun deadline => deadline⟩

end Execution

end Rulebook
