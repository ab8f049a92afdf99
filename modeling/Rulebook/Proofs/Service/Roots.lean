/-
  Proofs/Service/Roots.lean --- what rules find below the two dynamic roots.

  A run writes the properties of the application below `context`, then typed facts below
  the names of their shapes, then the parameters below `params`.  No shape has the name of
  a dynamic root, so typed facts stay out of the two roots, unless the name of a shape goes
  on behind one of them: that is a name of its own for the check, but the same root for
  working memory (`dynamic_root_shadowed`).
-/
import Rulebook.Proofs.Program.WellFormed
import Rulebook.Proofs.Service.Transparency
import Rulebook.Proofs.Session.Facts

set_option autoImplicit false

namespace Rulebook

/-- Below a root, memory has what members give there and nothing else: every value is found
in the members, by keys of objects and positions in arrays. -/
def Memory.Mirrors (m : Memory) (root : String) (members : Json.Members) : Prop :=
  ∀ q : Path, q.Under root →
    m.get? q = (Memory.empty.write (Session.rootWrites root members)).get? q ∧
      ∀ v, m.get? q = some v → ∃ keys part, (Json.object members).Found keys part ∧
        Value.ofJson? part = some v ∧ q = (Path.ofString root).descend keys

namespace Session

variable {root : String} {members : Json.Members}

theorem filter_rootWrites (other : String) :
    (rootWrites root members).filter (·.1.Under other) =
      if (Path.ofString root).Under other then rootWrites root members else [] := by
  split
  · rename_i hunder
    rw [List.filter_eq_self]
    intro w hw
    exact decide_eq_true ((under_of_mem_rootWrites hw other).2.mpr hunder)
  · rename_i hunder
    rw [List.filter_eq_nil_iff]
    intro w hw
    rw [decide_eq_true_eq, (under_of_mem_rootWrites hw other).2]
    exact hunder

/-- Members mirror what is written below their root if nothing else is written there. -/
theorem mirrors_of_filter {writes : List Write} (hne : ∀ w ∈ writes, w.1.segments ≠ [])
    (h : writes.filter (·.1.Under root) = rootWrites root members) :
    (Memory.empty.write writes).Mirrors root members := by
  have hbelow : ∀ q : Path, q.Under root → (Memory.empty.write writes).get? q =
      (Memory.empty.write (rootWrites root members)).get? q := by
    intro q hq
    rw [← Memory.get?_below hq, Memory.below_write hne, h]
    rfl
  intro q hq
  refine ⟨hbelow q hq, ?_⟩
  intro v hv
  rw [hbelow q hq] at hv
  exact found_of_mem_rootWrites (Memory.mem_of_get?_write hv)

end Session

namespace Program

/-- The bound shapes of a text that compiles have names other than the dynamic roots. -/
theorem name_ne_of_ofSource {source : String} {p : Program} (h : ofSource source = .ok p)
    {g : ShapeGroup} (hg : ShapeGroup.active? p.groups = some g) {s : Shape} (hs : s ∈ g.shapes) :
    s.name ≠ "params" ∧ s.name ≠ "context" := by
  obtain ⟨packages, -, hdefects, rfl⟩ := lower_of_ofSource h
  obtain ⟨package, hpackage, rfl⟩ := List.mem_map.mp (List.mem_of_find?_eq_some hg)
  have hwf := (defects_eq_nil_iff packages).mp hdefects
  exact hwf.shapes.unreserved s (List.mem_flatMap.mpr ⟨package, hpackage, hs⟩)

end Program

/-- A name that is not a dynamic root, and does not go on behind it, is not below it. -/
theorem Path.not_under_of_name {name root : String} (hroot : root = "params" ∨ root = "context")
    (hname : name ≠ root) (hdynamic : ¬ (ofString name).Dynamic) : ¬ (ofString name).Under root := by
  intro hunder
  obtain ⟨rest, hrest⟩ := List.head?_eq_some_iff.mp hunder
  by_cases hnil : rest = []
  · apply hname
    rw [← text_ofString name, text, hrest, hnil]
    simp [joinDots]
  · exact hdynamic ⟨root, rest, hrest, hroot, hnil⟩

namespace Execution

/-- What a run writes before it fires. -/
def writes (c : Config) (p : Program) (params : Json.Members) : List Write :=
  Session.rootWrites "context" c.context ++
    ((Binding.instances p.groups params).flatMap Write.ofInstance ++
      Session.rootWrites "params" params)

theorem memory_bound (c : Config) (label : String) (p : Program) (params : Json.Members) :
    (bound c label p params).memory = Memory.empty.write (writes c p params) := by
  obtain ⟨hmemory, hdisposed⟩ :=
    Session.memory_foldl_insert (s := .new p) rfl (globals c label)
  have hcontext : (globals c label).flatMap Fact.writes = Session.rootWrites "context" c.context :=
    List.append_nil _
  rw [bound, Binding.memory_bind hdisposed, hmemory, hcontext]
  exact List.foldl_append.symm

/-- **The dynamic roots belong to the request and the application.**  A text compiles, and
no shape that is bound has a name that goes on behind a dynamic root.  With any properties
and any parameters, when the rules fire, working memory has below `params` what the
parameters give and below `context` what the properties give, and no other value. -/
theorem dynamic_roots_mirrored (c : Config) (label : String) {source : String} {p : Program}
    (hp : Program.ofSource source = .ok p) (params : Json.Members)
    (hnames : ∀ g, ShapeGroup.active? p.groups = some g → ∀ s ∈ g.shapes,
      ¬ (Path.ofString s.name).Dynamic) :
    (bound c label p params).memory.Mirrors "params" params ∧
      (bound c label p params).memory.Mirrors "context" c.context := by
  have hinstances : ∀ w ∈ (Binding.instances p.groups params).flatMap Write.ofInstance,
      w.1.segments ≠ [] ∧ ¬ w.1.Under "params" ∧ ¬ w.1.Under "context" := by
    intro w hw
    obtain ⟨i, hi, hw⟩ := List.mem_flatMap.mp hw
    obtain ⟨g, s, hg, hs, rfl⟩ := Binding.mem_instances hi
    obtain ⟨names, hpath⟩ := Write.descend_of_mem_ofInstance hw
    have hshape := Path.segments_ofString_ne_nil s.name
    obtain ⟨hparams, hcontext⟩ := Program.name_ne_of_ofSource hp hg hs
    rw [Binding.instantiate_fst] at hpath
    rw [hpath]
    refine ⟨Path.segments_descend_ne_nil hshape names, ?_, ?_⟩
    · rw [Path.under_descend_iff hshape]
      exact Path.not_under_of_name (Or.inl rfl) hparams (hnames g hg s hs)
    · rw [Path.under_descend_iff hshape]
      exact Path.not_under_of_name (Or.inr rfl) hcontext (hnames g hg s hs)
  have hne : ∀ w ∈ writes c p params, w.1.segments ≠ [] := by
    intro w hw
    rcases List.mem_append.mp hw with hw | hw
    · exact (Session.under_of_mem_rootWrites hw "context").1
    · rcases List.mem_append.mp hw with hw | hw
      · exact (hinstances w hw).1
      · exact (Session.under_of_mem_rootWrites hw "params").1
  have hempty : ∀ root, root = "params" ∨ root = "context" →
      ((Binding.instances p.groups params).flatMap Write.ofInstance).filter (·.1.Under root) = [] := by
    rintro root hroot
    rw [List.filter_eq_nil_iff]
    intro w hw
    obtain ⟨-, hparams, hcontext⟩ := hinstances w hw
    rcases hroot with rfl | rfl
    · simpa using hparams
    · simpa using hcontext
  rw [memory_bound]
  constructor
  · refine Session.mirrors_of_filter hne ?_
    rw [writes, List.filter_append, List.filter_append, hempty "params" (Or.inl rfl),
      Session.filter_rootWrites, Session.filter_rootWrites, if_neg (by decide), if_pos (by decide)]
    rfl
  · refine Session.mirrors_of_filter hne ?_
    rw [writes, List.filter_append, List.filter_append, hempty "context" (Or.inr rfl),
      Session.filter_rootWrites, Session.filter_rootWrites, if_pos (by decide), if_neg (by decide)]
    exact List.append_nil _

/-- A shape with a field of a name that the parameters have, too. -/
def overlapping : String :=
  "declare order\n  amount: int\nend\nrule r:\n  order.amount == 0 AND params.amount == 7"

/-- The packages of `overlapping`. -/
def overlappingPackages : List Package :=
  [⟨Package.defaultName, [⟨"order", [⟨"amount", .int⟩]⟩],
    [⟨"r", .and (.compare ⟨["order", "amount"]⟩ .equal (.int 0))
      (.compare ⟨["params", "amount"]⟩ .equal (.int 7)), none, []⟩]⟩]

/-- Settings with one property of the application. -/
def limited : Config := { context := [("limit", .number (.int 9))] }

theorem ofSource_overlapping : Program.ofSource overlapping =
    .ok (Program.lower overlappingPackages (Digest.ofText overlapping)) := by
  have hread : Source.packages overlapping.toList = .ok overlappingPackages := by decide +kernel
  have hdefects : Program.defects overlappingPackages = [] := by decide +kernel
  exact Program.ofSource_of_packages hread hdefects

theorem dynamic_roots_mirrored_overlapping :
    ∃ p, Program.ofSource overlapping = .ok p ∧
      (bound limited "r" p [("amount", .number (.int 7))]).memory.get? ⟨["params", "amount"]⟩ =
        some (.int 7) ∧
      (bound limited "r" p [("amount", .number (.int 7))]).memory.get? ⟨["context", "limit"]⟩ =
        some (.int 9) ∧
      (bound limited "r" p [("amount", .number (.int 7))]).memory.get? ⟨["context", "amount"]⟩ =
        none := by
  have hnames : ∀ g, ShapeGroup.active? (Program.groupsOf overlappingPackages) = some g →
      ∀ s ∈ g.shapes, ¬ (Path.ofString s.name).Dynamic := by
    rintro g hg s hs ⟨root, rest, hsegments, hroot, -⟩
    obtain rfl := Option.some.inj hg
    obtain rfl := List.mem_singleton.mp hs
    have hname : (Path.ofString "order").segments = ["order"] := by decide +kernel
    obtain ⟨rfl, -⟩ := List.cons.inj (hname.symm.trans hsegments)
    simp at hroot
  obtain ⟨hparams, hcontext⟩ := dynamic_roots_mirrored limited "r" ofSource_overlapping
    [("amount", .number (.int 7))] hnames
  refine ⟨_, ofSource_overlapping, ?_, ?_, ?_⟩
  · rw [(hparams ⟨["params", "amount"]⟩ rfl).1]
    decide +kernel
  · rw [(hcontext ⟨["context", "limit"]⟩ rfl).1]
    decide +kernel
  · rw [(hcontext ⟨["context", "amount"]⟩ rfl).1]
    decide +kernel

/-- A shape whose name goes on behind a dynamic root. -/
def shadowing : String :=
  "declare params.x\n  y: int\nend\nrule r:\n  params.x.y == 0\n  then set hit = true"

/-- The packages of `shadowing`. -/
def shadowingPackages : List Package :=
  [⟨Package.defaultName, [⟨"params.x", [⟨"y", .int⟩]⟩],
    [⟨"r", .compare ⟨["params", "x", "y"]⟩ .equal (.int 0), none,
      [.set "hit" (.literal (.bool true))]⟩]⟩]

/-- The default of a field of that shape stands among the parameters, of which there are
none. -/
theorem dynamic_root_shadowed :
    ∃ p, Program.ofSource shadowing = .ok p ∧
      (bound .standard "r" p []).memory.get? ⟨["params", "x", "y"]⟩ = some (.int 0) ∧
      ¬ ∃ keys part, (Json.object []).Found keys part ∧ Value.ofJson? part = some (.int 0) ∧
        (⟨["params", "x", "y"]⟩ : Path) = (Path.ofString "params").descend keys := by
  have hread : Source.packages shadowing.toList = .ok shadowingPackages := by decide +kernel
  have hdefects : Program.defects shadowingPackages = [] := by decide +kernel
  have hcompile : Program.ofSource shadowing =
      .ok (Program.lower shadowingPackages (Digest.ofText shadowing)) :=
    Program.ofSource_of_packages hread hdefects
  refine ⟨_, hcompile, ?_, ?_⟩
  · have hgroups : (Program.lower shadowingPackages (Digest.ofText shadowing)).groups =
        Program.groupsOf shadowingPackages := rfl
    have hinstances : Binding.instances (Program.groupsOf shadowingPackages) [] =
        [⟨"params.x", [("y", .scalar (.int 0))]⟩] := by
      simp [Binding.instances, Program.groupsOf, ShapeGroup.active?, Binding.instantiate,
        Binding.settings, shadowingPackages, Coercion.default?, Instance.fieldsOf,
        Instance.setField]
    rw [memory_bound, writes, hgroups, hinstances]
    decide +kernel
  · rintro ⟨keys, part, hfound, hpart, -⟩
    cases hfound with
    | here => cases hpart
    | member hmem => cases hmem

end Execution

end Rulebook
