/-
  Proofs/Service/Rearrangement.lean --- the order of declaration is not observed.

  A request is bound to the shapes of a program, which do not depend on the order of its
  rules.  So the sessions over a program and over the one with its rules rearranged differ
  in the program alone before they fire, and what is known of firing two arrangements of
  the same rules carries over to requests (`declaration_order_unobserved`).
-/
import Rulebook.Proofs.Session.Facts
import Rulebook.Proofs.Session.Rearrangement
import Rulebook.Proofs.Service.Transparency

set_option autoImplicit false

namespace Rulebook

namespace Execution

/-- A request binds the same facts over every program with the same shapes. -/
theorem bound_withProgram (c : Config) (label : String) {p q : Program}
    (hgroups : q.groups = p.groups) (params : Json.Members) :
    bound c label q params = (bound c label p params).withProgram q := by
  have hglobals : (globals c label).foldl Session.insert (.new q) =
      ((globals c label).foldl Session.insert (.new p)).withProgram q :=
    Session.foldl_insert_withProgram (s := .new p) q (globals c label)
  rw [bound, hgroups, hglobals]
  exact Session.foldl_insert_withProgram q (Binding.facts p.groups params handle).1

theorem result_bound (c : Config) (label : String) (p : Program) (params : Json.Members) :
    (bound c label p params).result = some handle :=
  Binding.result_bind (Session.memory_foldl_insert (s := .new p) rfl (globals c label)).2 _ _ _

theorem program_bound (c : Config) (label : String) (p : Program) (params : Json.Members) :
    (bound c label p params).program = p := by
  rw [bound_withProgram c label rfl params]
  rfl

/-- The run that ends with firing over another program is the same but for the program. -/
theorem finish_withProgram (q : Program) (fired : Session × Except FireError Nat) :
    finish (fired.1.withProgram q, fired.2) =
      ⟨(finish fired).session.map (·.withProgram q), (finish fired).answer⟩ := by
  rw [finish, Session.dispose_withProgram]
  rfl

section

variable {p q : Program} {rules : List Rule} (hp : p.Arranges rules) (hq : q.Arranges rules)
  (hagendap : p.agenda = Program.agendaOf p.rules) (hagendaq : q.agenda = Program.agendaOf q.rules)
  (hgroups : q.groups = p.groups)

include hp hq hagendap hagendaq hgroups

theorem fired_rearranged (c : Config) (label : String) (params : Json.Members)
    (deadline : Option Deadline) :
    ((bound c label q params).fireAll deadline).2 =
      ((bound c label p params).fireAll deadline).2 := by
  rw [bound_withProgram c label hgroups params]
  have hprogram := program_bound c label p params
  have hbound : (bound c label p params).program.Arranges rules := by rwa [hprogram]
  refine Session.fireAll_answer_withProgram hbound hq ?_ hagendaq ?_ deadline
  · rwa [hprogram]
  · rw [result_bound, Option.isSome_some]

theorem run_rearranged (hapart : Rule.PrioritiesApart rules)
    (clock : Option Deadline → Option Deadline) (c : Config) (label : String)
    (params : Json.Members) :
    run ⟨.clocked fun _ => clock, c⟩ label q params =
      ⟨(run ⟨.clocked fun _ => clock, c⟩ label p params).session.map (·.withProgram q),
        (run ⟨.clocked fun _ => clock, c⟩ label p params).answer⟩ := by
  have hprogram := program_bound c label p params
  have hfire : ∀ deadline, ((bound c label p params).withProgram q).fireAll deadline =
      (((bound c label p params).fireAll deadline).1.withProgram q,
        ((bound c label p params).fireAll deadline).2) := by
    have hbound : (bound c label p params).program.Arranges rules := by rwa [hprogram]
    refine Session.fireAll_withProgram hbound hq ?_ hagendaq hapart
    rwa [hprogram]
  rw [run_clocked _ c label q, run_clocked _ c label p, bound_withProgram c label hgroups params,
    hfire, finish_withProgram]

end

/-- **The order of declaration is not observed.**  Take a text that compiles and rearrange
the rules inside of its packages.  The packages compile as well.  Over every memory, and so
for every request, the same rules hold, and a pass answers with the same number of rules
that fired.  If the rules with actions were given priorities, each its own, then every
request is answered with the same result, with its payload in the same order, and logs
the same messages in the same order.  That goes for every deadline. -/
theorem declaration_order_unobserved {source : String} {p : Program}
    {packages packages' : List Package} (h : Program.ofSource source = .ok p)
    (hread : Source.packages source.toList = .ok packages)
    (hrearranged : List.Forall₂ Package.Rearranged packages packages') (digest : Digest) :
    ∃ q, Program.compile packages' digest = .ok q ∧
      (∀ source', Source.packages source'.toList = .ok packages' → digest = Digest.ofText source' →
        Program.ofSource source' = .ok q) ∧
      (∀ (memory : Memory) (name : String),
        q.verdict (q.verdicts memory) name = p.verdict (p.verdicts memory) name) ∧
      (∀ (c : Config) (label : String) (params : Json.Members),
        (bound c label q params).memory = (bound c label p params).memory ∧
        ∀ deadline, ((bound c label q params).fireAll deadline).2 =
          ((bound c label p params).fireAll deadline).2) ∧
      (Rule.PrioritiesApart (Package.allRules packages) →
        ∀ (clock : Option Deadline → Option Deadline) (c : Config) (label : String)
          (params : Json.Members),
          (run ⟨.clocked fun _ => clock, c⟩ label q params).answer =
            (run ⟨.clocked fun _ => clock, c⟩ label p params).answer ∧
          (run ⟨.clocked fun _ => clock, c⟩ label q params).session.map (·.log) =
            (run ⟨.clocked fun _ => clock, c⟩ label p params).session.map (·.log)) := by
  obtain ⟨packages₀, hread₀, hdefects, rfl⟩ := Program.lower_of_ofSource h
  obtain rfl := Except.ok.inj (hread.symm.trans hread₀)
  have hp := Program.arranges_lower (Digest.ofText source) hdefects
  have hq := Program.arranges_rearranged hrearranged hdefects digest
  have hgroups : (Program.lower packages' digest).groups =
      (Program.lower packages (Digest.ofText source)).groups :=
    Package.groupsOf_rearranged hrearranged
  refine ⟨_, Program.compile_rearranged hrearranged hdefects digest, ?_,
    hq.verdict_eq hp, ?_, ?_⟩
  · rintro source' hread' rfl
    exact Program.ofSource_of_packages hread'
      (Program.defects_rearranged hrearranged hdefects)
  · intro c label params
    refine ⟨?_, fired_rearranged hp hq rfl rfl hgroups c label params⟩
    rw [bound_withProgram c label hgroups params]
    rfl
  · intro hapart clock c label params
    rw [run_rearranged hp hq rfl rfl hgroups hapart clock c label params]
    refine ⟨rfl, ?_⟩
    rw [Option.map_map]
    rfl

/-- A text whose rule with the lower rank refers to the rule behind it. -/
def deferred : String :=
  "rule b(priority 2):a then set y=1 log \"b\"\nrule a(priority 1):params.x==1 then set x=1"

/-- The rules of `deferred`. -/
def deferredRules : List Rule :=
  [⟨"b", .rule "a", some 2, [.set "y" (.literal (.int 1)), .log "b"]⟩,
    ⟨"a", .compare ⟨["params", "x"]⟩ .equal (.int 1), some 1, [.set "x" (.literal (.int 1))]⟩]

theorem declaration_order_unobserved_deferred :
    ∃ p q, Program.ofSource deferred = .ok p ∧
      Program.compile [⟨Package.defaultName, [], deferredRules.reverse⟩] (Digest.ofText deferred) =
        .ok q ∧
      Rule.PrioritiesApart deferredRules ∧
      ∀ deadline c label params, ((bound c label q params).fireAll deadline).2 =
          ((bound c label p params).fireAll deadline).2 ∧
        (run ⟨.clocked fun _ _ => deadline, c⟩ label q params).answer =
          (run ⟨.clocked fun _ _ => deadline, c⟩ label p params).answer := by
  have hread : Source.packages deferred.toList =
      .ok [⟨Package.defaultName, [], deferredRules⟩] := by decide +kernel
  have hdefects : Program.defects [⟨Package.defaultName, [], deferredRules⟩] = [] := by
    decide +kernel
  have hcompile := Program.ofSource_of_packages hread hdefects
  have hrearranged : List.Forall₂ Package.Rearranged [⟨Package.defaultName, [], deferredRules⟩]
      [⟨Package.defaultName, [], deferredRules.reverse⟩] :=
    .cons ⟨rfl, rfl, (List.reverse_perm _).symm⟩ .nil
  have hapart : Rule.PrioritiesApart deferredRules := by
    simp [Rule.PrioritiesApart, deferredRules]
  obtain ⟨q, hq, -, -, hfired, hsame⟩ :=
    declaration_order_unobserved hcompile hread hrearranged (Digest.ofText deferred)
  have hrules : Package.allRules [⟨Package.defaultName, [], deferredRules⟩] = deferredRules := rfl
  rw [hrules] at hsame
  exact ⟨_, q, hcompile, hq, hapart, fun deadline c label params =>
    ⟨(hfired c label params).2 deadline, (hsame hapart (fun _ => deadline) c label params).1⟩⟩

end Execution

end Rulebook
