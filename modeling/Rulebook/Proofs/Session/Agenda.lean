/-
  Proofs/Session/Agenda.lean --- in which order rules act.

  Rules with a priority are meant to act before rules without one, lesser priorities first,
  and otherwise rules act in the order of the text (`Rule.Precedes`).  The agenda sorts by
  one number and by positions in the text.  A rule without a priority has the greatest
  number, which is a priority as well, so it is told apart from all rules with a priority
  but those of the greatest one (`Rule.Confused`).  Among those the text alone decides
  (`agendaOrder_precedes`), and a rule without a priority can act first
  (`unranked_before_greatest`).
-/
import Rulebook.Proofs.Session.Effect

set_option autoImplicit false

namespace Rulebook

/-! ## The order that is meant -/

namespace Rule

/-- The rank of a rule in the agenda. -/
def rank (r : Rule) : Nat := (r.priority.getD CompiledRule.lastPriority).toNat

/-- A rule at its position in the text is meant to act before another one. -/
inductive Precedes (a b : Rule × Nat) : Prop
  | lesser {n m : UInt32} : a.1.priority = some n → b.1.priority = some m → n < m → Precedes a b
  | given {n : UInt32} : a.1.priority = some n → b.1.priority = none → Precedes a b
  | earlier : a.1.priority = b.1.priority → a.2 < b.2 → Precedes a b

/-- One rule has no priority, and the other one the rank of rules without one. -/
def Confused (a b : Rule) : Prop :=
  a.priority = none ∧ b.priority = some CompiledRule.lastPriority ∨
    a.priority = some CompiledRule.lastPriority ∧ b.priority = none

theorem rank_of_some {r : Rule} {n : UInt32} (h : r.priority = some n) : r.rank = n.toNat := by
  rw [rank, h, Option.getD_some]

theorem rank_of_none {r : Rule} (h : r.priority = none) :
    r.rank = CompiledRule.lastPriority.toNat := by
  rw [rank, h, Option.getD_none]

/-- No rule comes behind those without a priority. -/
theorem rank_le (r : Rule) : r.rank ≤ CompiledRule.lastPriority.toNat := by
  have hlast : CompiledRule.lastPriority.toNat = 2 ^ 32 - 1 := rfl
  have hlt := (r.priority.getD CompiledRule.lastPriority).toNat_lt
  rw [rank, hlast]
  omega

end Rule

/-! ## The order of the agenda -/

namespace CompiledRule

theorem actsBefore_iff {a b : CompiledRule} : a.actsBefore b = true ↔
    a.rule.rank < b.rule.rank ∨ a.rule.rank = b.rule.rank ∧ a.declared ≤ b.declared := by
  simp only [actsBefore, rule, Rule.rank, Bool.or_eq_true, Bool.and_eq_true, decide_eq_true_eq,
    beq_iff_eq, UInt32.lt_iff_toNat_lt, UInt32.toNat_inj]

theorem actsBefore_trans (a b c : CompiledRule) (hab : a.actsBefore b = true)
    (hbc : b.actsBefore c = true) : a.actsBefore c = true := by
  rw [actsBefore_iff] at *
  omega

theorem actsBefore_total (a b : CompiledRule) : (a.actsBefore b || b.actsBefore a) = true := by
  rw [Bool.or_eq_true, actsBefore_iff, actsBefore_iff]
  omega

/-- Sorting by ranks and positions does what is meant, but for ranks that stand for two
priorities. -/
theorem precedes_of_actsBefore {a b : CompiledRule} (h : a.actsBefore b = true)
    (hne : a.declared ≠ b.declared) :
    (¬ a.rule.Confused b.rule → Rule.Precedes a.placed b.placed) ∧
      (a.rule.Confused b.rule → a.declared < b.declared) := by
  rw [actsBefore_iff] at h
  have hearlier (hrank : a.rule.rank = b.rule.rank) : a.declared < b.declared := by omega
  have hconfused (hc : a.rule.Confused b.rule) : a.rule.rank = b.rule.rank := by
    rcases hc with ⟨ha, hb⟩ | ⟨ha, hb⟩
    · rw [Rule.rank_of_none ha, Rule.rank_of_some hb]
    · rw [Rule.rank_of_some ha, Rule.rank_of_none hb]
  refine ⟨fun hnot => ?_, fun hc => hearlier (hconfused hc)⟩
  cases ha : a.rule.priority with
  | none =>
      cases hb : b.rule.priority with
      | none =>
          exact .earlier (ha.trans hb.symm)
            (hearlier ((Rule.rank_of_none ha).trans (Rule.rank_of_none hb).symm))
      | some m =>
          -- nothing ranks behind a rule without a priority, so the two ranks are one
          have hle := b.rule.rank_le
          rw [Rule.rank_of_none ha, Rule.rank_of_some hb] at h
          rw [Rule.rank_of_some hb] at hle
          have hlast : m = CompiledRule.lastPriority := UInt32.toNat_inj.mp (by omega)
          exact absurd (.inl ⟨ha, hlast ▸ hb⟩) hnot
  | some n =>
      cases hb : b.rule.priority with
      | none => exact .given ha hb
      | some m =>
          rw [Rule.rank_of_some ha, Rule.rank_of_some hb] at h hearlier
          rcases h with hlt | ⟨heq, -⟩
          · exact .lesser ha hb (UInt32.lt_iff_toNat_lt.mpr hlt)
          · have hsame : n = m := UInt32.toNat_inj.mp heq
            exact .earlier (by rw [placed, placed, ha, hb, hsame]) (hearlier heq)

end CompiledRule

namespace Program

theorem acting_sorted (rules : List CompiledRule) :
    (acting rules).Pairwise fun a b => a.actsBefore b = true :=
  List.pairwise_mergeSort CompiledRule.actsBefore_trans CompiledRule.actsBefore_total _

/-- There is one arrangement of the rules with actions in which each acts before those
behind it. -/
theorem agendaOf_eq {rules listed : List CompiledRule}
    (hperm : listed.Perm (rules.filter (!·.actions.isEmpty)))
    (hdeclared : (listed.map (·.declared)).Nodup)
    (hsorted : listed.Pairwise fun a b => a.actsBefore b = true) :
    agendaOf rules = listed.map (·.index) := by
  have hacting : (acting rules).Perm listed := (List.mergeSort_perm _ _).trans hperm.symm
  have hsame : acting rules = listed := by
    refine List.Perm.eq_of_pairwise ?_ (acting_sorted rules) hsorted hacting
    intro a b ha hb hab hba
    rw [CompiledRule.actsBefore_iff] at hab hba
    exact List.inj_on_of_nodup_map hdeclared (hacting.subset ha) hb (by omega)
  rw [← hsame]
  rfl

/-- Rules act in the order of their ranks. -/
theorem acting_pairwise (rules : List CompiledRule) :
    ((acting rules).map CompiledRule.rule).Pairwise fun a b => a.rank ≤ b.rank := by
  rw [List.pairwise_map]
  refine (acting_sorted rules).imp fun {a b} hab => ?_
  rcases CompiledRule.actsBefore_iff.mp hab with hlt | ⟨heq, -⟩
  · exact Nat.le_of_lt hlt
  · exact Nat.le_of_eq heq

/-- The rules that act are those of the text that have actions. -/
theorem acting_placed_perm {rules : List Rule} (hnames : (rules.map (·.name)).Nodup)
    (horder : (Dependency.order (Dependency.ofRules rules)).length = rules.length) :
    ((acting (lowerRules rules)).map CompiledRule.placed).Perm
      (rules.zipIdx.filter (·.1.actions ≠ [])) := by
  have hfilter : ((lowerRules rules).filter (!·.actions.isEmpty)).map CompiledRule.placed =
      ((lowerRules rules).map CompiledRule.placed).filter (·.1.actions ≠ []) := by
    rw [List.filter_map]
    congr 2
    funext r
    cases h : r.actions <;> simp [CompiledRule.placed, CompiledRule.rule, h]
  have hsorted := (List.mergeSort_perm ((lowerRules rules).filter (!·.actions.isEmpty))
    CompiledRule.actsBefore).map CompiledRule.placed
  rw [hfilter] at hsorted
  exact hsorted.trans ((lowerRules_placed_perm hnames horder).filter _)

/-- **The order of the agenda.**  The agenda of every text that compiles lists the rules with
actions, each once, and every rule before all that it is meant to act before.  Only between
a rule without a priority and one with the greatest priority the text alone decides. -/
theorem agendaOrder_precedes {source : String} {p : Program} (h : ofSource source = .ok p) :
    ∃ packages, Source.packages source.toList = .ok packages ∧
      ∃ listed : List (Rule × Nat), p.agendaOrder = listed.map (·.1.name) ∧
        listed.Perm ((Package.allRules packages).zipIdx.filter (·.1.actions ≠ [])) ∧
        listed.Pairwise fun a b => (¬ a.1.Confused b.1 → Rule.Precedes a b) ∧
          (a.1.Confused b.1 → a.2 < b.2) := by
  obtain ⟨packages, hpackages, hdefects, rfl⟩ := lower_of_ofSource h
  obtain ⟨hnames, -, horder⟩ := names_of_defects_eq_nil hdefects
  have hperm := acting_placed_perm hnames horder
  refine ⟨packages, hpackages, _, ?_, hperm, ?_⟩
  · rw [(arranges_lower _ hdefects).agendaOrder_eq rfl, List.map_map]
    rfl
  · have hpositions : ((acting (lowerRules (Package.allRules packages))).map (·.declared)).Nodup := by
      have hsnd := hperm.map Prod.snd
      rw [List.map_map] at hsnd
      refine hsnd.nodup_iff.mpr (List.Nodup.sublist (List.filter_sublist.map _) ?_)
      rw [List.zipIdx_map_snd]
      exact List.nodup_range'
    rw [List.pairwise_map]
    exact ((acting_sorted _).and (List.pairwise_map.mp hpositions)).imp
      fun ⟨hbefore, hne⟩ => CompiledRule.precedes_of_actsBefore hbefore hne

/-- A rule without a priority, which waits for the one behind it, and two rules with
priorities. -/
def staged : String :=
  "rule last:early then set a=1\nrule early(priority 7):params.x==1 then set b=2\n" ++
    "rule first(priority 0):NOT last then log \"first\""

/-- The rules of `staged`. -/
def stagedRules : List Rule :=
  [⟨"last", .rule "early", none, [.set "a" (.literal (.int 1))]⟩,
    ⟨"early", .compare ⟨["params", "x"]⟩ .equal (.int 1), some 7, [.set "b" (.literal (.int 2))]⟩,
    ⟨"first", .not (.rule "last"), some 0, [.log "first"]⟩]

theorem agendaOrder_precedes_staged :
    ∃ p, ofSource staged = .ok p ∧ p.executionOrder = ["early", "last", "first"] ∧
      p.agendaOrder = ["first", "early", "last"] ∧
      ∃ listed : List (Rule × Nat), p.agendaOrder = listed.map (·.1.name) ∧
        listed.Perm (stagedRules.zipIdx.filter (·.1.actions ≠ [])) ∧
        listed.Pairwise fun a b => (¬ a.1.Confused b.1 → Rule.Precedes a b) ∧
          (a.1.Confused b.1 → a.2 < b.2) := by
  have hread : Source.packages staged.toList = .ok [⟨Package.defaultName, [], stagedRules⟩] := by
    decide +kernel
  have hdefects : defects [⟨Package.defaultName, [], stagedRules⟩] = [] := by decide +kernel
  have hperm : List.Perm
      [⟨"first", .not (.rule "last"), [.log "first"], some 0, 2, 2⟩,
        ⟨"early", .compare ⟨["params", "x"]⟩ .equal (.int 1), [.set "b" (.literal (.int 2))],
          some 7, 0, 1⟩,
        ⟨"last", .rule "early", [.set "a" (.literal (.int 1))], none, 1, 0⟩]
      ((lowerRules stagedRules).filter (!·.actions.isEmpty)) := by decide +kernel
  have hagenda : (lower [⟨Package.defaultName, [], stagedRules⟩] (Digest.ofText staged)).agenda =
      [2, 0, 1] := agendaOf_eq hperm (by decide) (by decide)
  have horders :
      (lower [⟨Package.defaultName, [], stagedRules⟩] (Digest.ofText staged)).executionOrder =
          ["early", "last", "first"] ∧
        (lower [⟨Package.defaultName, [], stagedRules⟩] (Digest.ofText staged)).agendaOrder =
          ["first", "early", "last"] := by
    rw [agendaOrder, hagenda]
    decide +kernel
  have hcompile := ofSource_of_packages hread hdefects
  obtain ⟨packages, hpackages, hlisted⟩ := agendaOrder_precedes hcompile
  obtain rfl := Except.ok.inj (hread.symm.trans hpackages)
  exact ⟨_, hcompile, horders.1, horders.2, hlisted⟩

/-- A rule without a priority in front of one with the greatest priority. -/
def greatest : String :=
  "rule free:\n  params.x == 1\n  then set a = 1\n" ++
    "rule ranked (priority 4294967295):\n  params.x == 1\n  then set a = 2"

/-- The rules of `greatest`. -/
def greatestRules : List Rule :=
  [⟨"free", .compare ⟨["params", "x"]⟩ .equal (.int 1), none, [.set "a" (.literal (.int 1))]⟩,
    ⟨"ranked", .compare ⟨["params", "x"]⟩ .equal (.int 1), some 4294967295,
      [.set "a" (.literal (.int 2))]⟩]

/-- The rule without a priority acts first, so the agenda is not in the order that is meant. -/
theorem unranked_before_greatest :
    ∃ p, ofSource greatest = .ok p ∧
      Source.packages greatest.toList = .ok [⟨Package.defaultName, [], greatestRules⟩] ∧
      p.agendaOrder = ["free", "ranked"] ∧
      ¬ ∃ listed : List (Rule × Nat), p.agendaOrder = listed.map (·.1.name) ∧
        listed.Perm (greatestRules.zipIdx.filter (·.1.actions ≠ [])) ∧
        listed.Pairwise Rule.Precedes := by
  have hread : Source.packages greatest.toList =
      .ok [⟨Package.defaultName, [], greatestRules⟩] := by decide +kernel
  have hdefects : defects [⟨Package.defaultName, [], greatestRules⟩] = [] := by decide +kernel
  have hagenda :
      (lower [⟨Package.defaultName, [], greatestRules⟩] (Digest.ofText greatest)).agenda = [0, 1] :=
    (agendaOf_eq (.refl _) (by decide +kernel) (by decide +kernel)).trans (by decide +kernel)
  have horder :
      (lower [⟨Package.defaultName, [], greatestRules⟩] (Digest.ofText greatest)).agendaOrder =
        ["free", "ranked"] := by
    rw [agendaOrder, hagenda]
    decide +kernel
  refine ⟨_, ofSource_of_packages hread hdefects, hread, horder, ?_⟩
  rintro ⟨listed, hnames, hperm, hprecedes⟩
  rw [horder] at hnames
  obtain _ | ⟨a, _ | ⟨b, _ | ⟨c, rest⟩⟩⟩ := listed
  · simp at hnames
  · simp at hnames
  · have ha : a ∈ greatestRules.zipIdx := List.mem_of_mem_filter (hperm.subset List.mem_cons_self)
    have hb : b ∈ greatestRules.zipIdx :=
      List.mem_of_mem_filter (hperm.subset (List.mem_cons_of_mem _ List.mem_cons_self))
    simp only [greatestRules, List.zipIdx_cons, List.zipIdx_nil, List.mem_cons, List.not_mem_nil,
      or_false] at ha hb
    rcases ha with rfl | rfl <;> rcases hb with rfl | rfl <;> simp at hnames
    cases List.rel_of_pairwise_cons hprecedes List.mem_cons_self with
    | lesser hfree => cases hfree
    | given hfree => cases hfree
    | earlier hsame => cases hsame
  · simp at hnames

end Program

end Rulebook
