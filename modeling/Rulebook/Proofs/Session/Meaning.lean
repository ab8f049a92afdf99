/-
  Proofs/Session/Meaning.lean --- what conditions mean, and that firing finds it out.

  The meaning of a condition is read off the text alone: a reference stands for the
  condition of the rule that it names, and nothing is said about an order.  It is a
  relation, `Condition.Means`, because rules that refer to one another in a circle have
  no meaning.

  A firing pass decides the rules one after the other and looks references up among
  the verdicts so far.  In an arrangement of the rules every reference is decided
  before it is looked up, so the verdicts are the meanings (`Arranges.verdicts`),
  whichever arrangement it is.
-/
import Rulebook.Proofs.Program.Arrangement
import Rulebook.Session.Firing

set_option autoImplicit false

namespace Rulebook

namespace Condition

/-- The truth value of a condition over the rules of a text and working memory. -/
inductive Means (rules : List Rule) (memory : Memory) : Condition → Bool → Prop
  /-- The value at the path stands in the relation to the literal, or it does not. -/
  | compared {path : Path} {op : Comparator} {literal actual : Value} {b : Bool}
      (hget : memory.get? path = some actual) (hcompare : Value.compare? op actual literal = some b) :
      Means rules memory (.compare path op literal) b
  /-- The value at the path is not comparable with the literal. -/
  | incomparable {path : Path} {op : Comparator} {literal actual : Value}
      (hget : memory.get? path = some actual) (hcompare : Value.compare? op actual literal = none) :
      Means rules memory (.compare path op literal) false
  /-- The path has no value. -/
  | absent {path : Path} {op : Comparator} {literal : Value} (hget : memory.get? path = none) :
      Means rules memory (.compare path op literal) false
  /-- A reference means what the condition of its rule means. -/
  | rule {r : Rule} {b : Bool} (hr : r ∈ rules) (h : Means rules memory r.condition b) :
      Means rules memory (.rule r.name) b
  | and {left right : Condition} {a b : Bool} (ha : Means rules memory left a)
      (hb : Means rules memory right b) : Means rules memory (.and left right) (a && b)
  | or {left right : Condition} {a b : Bool} (ha : Means rules memory left a)
      (hb : Means rules memory right b) : Means rules memory (.or left right) (a || b)
  | not {inner : Condition} {b : Bool} (h : Means rules memory inner b) :
      Means rules memory (.not inner) (!b)

variable {rules : List Rule} {memory : Memory}

/-- A condition has at most one meaning. -/
theorem Means.unique (hnames : (rules.map (·.name)).Nodup) {c : Condition} {a b : Bool}
    (ha : c.Means rules memory a) (hb : c.Means rules memory b) : a = b := by
  induction ha generalizing b with
  | compared hget hcompare => cases hb <;> simp_all
  | incomparable hget hcompare => cases hb <;> simp_all
  | absent hget => cases hb <;> simp_all
  | @rule r a hr _ ih =>
      generalize hc : Condition.rule r.name = c at hb
      cases hb with
      | @rule r' _ hr' h' =>
          have hname : r'.name = r.name := (Condition.rule.inj hc).symm
          have hsame : r' = r := List.inj_on_of_nodup_map hnames hr' hr hname
          exact ih (hsame ▸ h')
      | _ => simp at hc
  | and _ _ iha ihb =>
      cases hb with
      | and h₁ h₂ => rw [iha h₁, ihb h₂]
  | or _ _ iha ihb =>
      cases hb with
      | or h₁ h₂ => rw [iha h₁, ihb h₂]
  | not _ ih =>
      cases hb with
      | not h => rw [ih h]

/-- Deciding a condition finds its meaning if every reference is looked up rightly. -/
theorem means_holds (known : String → Bool) (c : Condition)
    (hknown : ∀ name ∈ c.references, ∃ r ∈ rules, r.name = name ∧
      r.condition.Means rules memory (known name)) :
    c.Means rules memory (c.holds memory.get? known) := by
  induction c with
  | compare path op literal =>
      cases hget : memory.get? path with
      | none =>
          simp only [holds, hget, Option.bind_none, Option.getD_none]
          exact .absent hget
      | some actual =>
          simp only [holds, hget, Option.bind_some]
          cases hcompare : Value.compare? op actual literal with
          | none => exact .incomparable hget hcompare
          | some b => exact .compared hget hcompare
  | rule name =>
      obtain ⟨r, hr, rfl, hmeans⟩ := hknown name (by simp [references])
      exact .rule hr hmeans
  | and l r ihl ihr =>
      simp only [references, List.mem_append] at hknown
      exact .and (ihl fun n hn => hknown n (Or.inl hn)) (ihr fun n hn => hknown n (Or.inr hn))
  | or l r ihl ihr =>
      simp only [references, List.mem_append] at hknown
      exact .or (ihl fun n hn => hknown n (Or.inl hn)) (ihr fun n hn => hknown n (Or.inr hn))
  | not e ih => exact .not (ih hknown)

end Condition

namespace Program

/-! ## Deciding the rules one after the other -/

/-- Decide a rule, given the verdicts so far. -/
def judge (p : Program) (memory : Memory) (found : Array Bool) (r : CompiledRule) : Array Bool :=
  found.setIfInBounds r.index (r.condition.holds memory.get? (p.verdict found))

/-- The verdicts after the first `k` rules. -/
def verdictsAfter (p : Program) (memory : Memory) (k : Nat) : Array Bool :=
  (p.rules.take k).foldl (p.judge memory) (Array.replicate p.rules.length false)

theorem verdicts_eq_verdictsAfter (p : Program) (memory : Memory) :
    p.verdicts memory = p.verdictsAfter memory p.rules.length := by
  rw [verdictsAfter, List.take_length]
  rfl

theorem verdictsAfter_succ {p : Program} {memory : Memory} {k : Nat} {r : CompiledRule}
    (hr : p.rules[k]? = some r) :
    p.verdictsAfter memory (k + 1) = p.judge memory (p.verdictsAfter memory k) r := by
  rw [verdictsAfter, List.take_add_one, hr, List.foldl_append]
  rfl

theorem size_foldl_judge (p : Program) (memory : Memory) (rules : List CompiledRule)
    (found : Array Bool) : (rules.foldl (p.judge memory) found).size = found.size := by
  induction rules generalizing found with
  | nil => rfl
  | cons r rest ih => rw [List.foldl_cons, ih, judge, Array.size_setIfInBounds]

theorem size_verdictsAfter (p : Program) (memory : Memory) (k : Nat) :
    (p.verdictsAfter memory k).size = p.rules.length := by
  rw [verdictsAfter, size_foldl_judge, Array.size_replicate]

theorem verdict_of_get? {p : Program} {found : Array Bool} {name : String} {i : Nat} {b : Bool}
    (hposition : p.positions.get? name = some i) (hfound : found[i]? = some b) :
    p.verdict found name = b := by
  simp [verdict, hposition, hfound]

/-! ## Verdicts are meanings -/

section

variable {p : Program} {rules : List Rule}

theorem Arranges.rule_mem (h : p.Arranges rules) {i : Nat} {r : CompiledRule}
    (hr : p.rules[i]? = some r) : r.rule ∈ rules :=
  h.perm.subset (List.mem_map.mpr ⟨r, List.mem_of_getElem? hr, rfl⟩)

/-- Every rule of the text has its place in the program. -/
theorem Arranges.exists_position (h : p.Arranges rules) {r : Rule} (hr : r ∈ rules) :
    ∃ i compiled, p.positions.get? r.name = some i ∧ p.rules[i]? = some compiled ∧
      compiled.rule = r := by
  obtain ⟨compiled, hmem, hrule⟩ := List.mem_map.mp (h.perm.symm.subset hr)
  obtain ⟨i, hi⟩ := List.mem_iff_getElem?.mp hmem
  subst hrule
  exact ⟨i, compiled, (h.positions_iff _ _).mpr ⟨compiled, hi, rfl⟩, hi, rfl⟩

/-- What is decided after `k` rules is the meaning of each of them. -/
theorem Arranges.means_verdictsAfter (h : p.Arranges rules) (memory : Memory) (k : Nat) :
    ∀ (i : Nat) (r : CompiledRule), i < k → p.rules[i]? = some r →
      ∃ b, (p.verdictsAfter memory k)[i]? = some b ∧ r.condition.Means rules memory b := by
  induction k with
  | zero =>
      intro i r hi
      omega
  | succ k ih =>
      intro i r hi hr
      have hlength : i < p.rules.length := (List.getElem?_eq_some_iff.mp hr).1
      rcases Nat.lt_or_ge k p.rules.length with hk | hk
      · obtain ⟨next, hnext⟩ : ∃ next, p.rules[k]? = some next :=
          ⟨p.rules[k], List.getElem?_eq_getElem hk⟩
        rw [verdictsAfter_succ hnext, judge, h.index_eq k next hnext]
        rcases Nat.lt_or_ge i k with hik | hik
        · -- what was decided before stays as it is
          rw [Array.getElem?_setIfInBounds_ne (by omega)]
          exact ih i r hik hr
        · have heq : i = k := by omega
          subst heq
          obtain rfl : next = r := Option.some.inj (hnext.symm.trans hr)
          refine ⟨_, Array.getElem?_setIfInBounds_self_of_lt (by rwa [size_verdictsAfter]), ?_⟩
          apply Condition.means_holds
          intro name hname
          obtain ⟨j, hj, hposition⟩ := h.earlier i next hr name hname
          obtain ⟨r', hr', hname'⟩ := (h.positions_iff name j).mp hposition
          obtain ⟨b, hb, hmeans⟩ := ih j r' hj hr'
          refine ⟨r'.rule, h.rule_mem hr', hname', ?_⟩
          rw [verdict_of_get? hposition hb]
          exact hmeans
      · have hsame : p.verdictsAfter memory (k + 1) = p.verdictsAfter memory k := by
          rw [verdictsAfter, verdictsAfter, List.take_of_length_le hk,
            List.take_of_length_le (by omega)]
        rw [hsame]
        exact ih i r (by omega) hr

/-- After a pass the verdict of every rule of the text is its meaning. -/
theorem Arranges.means_verdicts (h : p.Arranges rules) (memory : Memory) {r : Rule}
    (hr : r ∈ rules) :
    ∃ i b, p.positions.get? r.name = some i ∧ (p.verdicts memory)[i]? = some b ∧
      r.condition.Means rules memory b := by
  obtain ⟨i, compiled, hposition, hi, rfl⟩ := h.exists_position hr
  have hlength : i < p.rules.length := (List.getElem?_eq_some_iff.mp hi).1
  obtain ⟨b, hb, hmeans⟩ := h.means_verdictsAfter memory p.rules.length i compiled hlength hi
  exact ⟨i, b, hposition, by rw [verdicts_eq_verdictsAfter]; exact hb, hmeans⟩

theorem Arranges.names_nodup (h : p.Arranges rules) : (rules.map (·.name)).Nodup := by
  have hperm : (p.rules.map (·.name)).Perm (rules.map (·.name)) := by
    have := h.perm.map (·.name)
    rwa [List.map_map] at this
  rw [← hperm.nodup_iff, List.Nodup, List.pairwise_iff_getElem]
  intro i j hi hj hij heq
  rw [List.length_map] at hi hj
  -- one name at two places would have two positions
  have hposition (k : Nat) (hk : k < p.rules.length) :
      p.positions.get? p.rules[k].name = some k :=
    (h.positions_iff _ _).mpr ⟨p.rules[k], List.getElem?_eq_getElem hk, rfl⟩
  have hi' := hposition i hi
  have hj' := hposition j hj
  rw [List.getElem_map, List.getElem_map] at heq
  rw [heq, hj'] at hi'
  have hji : j = i := Option.some.inj hi'
  omega

/-- A verdict that was reached is not changed by the rules behind. -/
theorem Arranges.verdict_settled (h : p.Arranges rules) (memory : Memory) {i j : Nat}
    {name : String} (hj : j < i) (hposition : p.positions.get? name = some j) :
    ∃ b, (p.verdictsAfter memory i)[j]? = some b ∧ (p.verdicts memory)[j]? = some b := by
  obtain ⟨r, hr, -⟩ := (h.positions_iff name j).mp hposition
  have hlength : j < p.rules.length := (List.getElem?_eq_some_iff.mp hr).1
  obtain ⟨b, hb, hmeans⟩ := h.means_verdictsAfter memory i j r hj hr
  obtain ⟨b', hb', hmeans'⟩ := h.means_verdictsAfter memory p.rules.length j r hlength hr
  obtain rfl : b = b' := hmeans.unique h.names_nodup hmeans'
  exact ⟨b, hb, by rw [verdicts_eq_verdictsAfter]; exact hb'⟩

end

/-- **Verdicts are meanings.**  After a pass over a text that compiles, the verdict of
every rule is the one meaning of its condition; whatever a rule refers to was decided
when the rule was, and not changed since; and another order of the same rules gives
the same verdicts. -/
theorem verdicts_are_meanings {source : String} {p : Program} (h : ofSource source = .ok p)
    (memory : Memory) :
    ∃ packages, Source.packages source.toList = .ok packages ∧
      (∀ r ∈ Package.allRules packages, ∃ i b, p.positions.get? r.name = some i ∧
        (p.verdicts memory)[i]? = some b ∧
        ∀ v, r.condition.Means (Package.allRules packages) memory v ↔ v = b) ∧
      (∀ (i : Nat) (r : CompiledRule), p.rules[i]? = some r →
        ∀ name ∈ r.condition.references, ∃ j < i, ∃ b, p.positions.get? name = some j ∧
          (p.verdictsAfter memory i)[j]? = some b ∧ (p.verdicts memory)[j]? = some b) ∧
      ∀ q : Program, q.Arranges (Package.allRules packages) →
        ∀ r ∈ Package.allRules packages, ∃ i j b,
          p.positions.get? r.name = some i ∧ (p.verdicts memory)[i]? = some b ∧
          q.positions.get? r.name = some j ∧ (q.verdicts memory)[j]? = some b := by
  obtain ⟨packages, hpackages, harranges⟩ := arranges_of_ofSource h
  have hnames := harranges.names_nodup
  refine ⟨packages, hpackages, ?_, ?_, ?_⟩
  · intro r hr
    obtain ⟨i, b, hposition, hverdict, hmeans⟩ := harranges.means_verdicts memory hr
    refine ⟨i, b, hposition, hverdict, fun v => ⟨fun hv => hv.unique hnames hmeans, ?_⟩⟩
    rintro rfl
    exact hmeans
  · intro i r hr name hname
    obtain ⟨j, hj, hposition⟩ := harranges.earlier i r hr name hname
    obtain ⟨b, hearly, hfinal⟩ := harranges.verdict_settled memory hj hposition
    exact ⟨j, hj, b, hposition, hearly, hfinal⟩
  · intro q hq r hr
    obtain ⟨i, b, hposition, hverdict, hmeans⟩ := harranges.means_verdicts memory hr
    obtain ⟨j, b', hposition', hverdict', hmeans'⟩ := hq.means_verdicts memory hr
    obtain rfl : b = b' := hmeans.unique hnames hmeans'
    exact ⟨i, j, b, hposition, hverdict, hposition', hverdict'⟩

/-- A text whose first rule refers to the last along two ways, and twice along one. -/
def diamond : String :=
  "rule a:b AND c AND b\nrule b:NOT d\nrule c:d OR params.x>1\nrule d:params.x==1"

/-- The rules of `diamond`. -/
def diamondRules : List Rule :=
  [⟨"a", .and (.and (.rule "b") (.rule "c")) (.rule "b"), none, []⟩,
    ⟨"b", .not (.rule "d"), none, []⟩,
    ⟨"c", .or (.rule "d") (.compare ⟨["params", "x"]⟩ .greater (.int 1)), none, []⟩,
    ⟨"d", .compare ⟨["params", "x"]⟩ .equal (.int 1), none, []⟩]

/-- Working memory with one value. -/
def diamondMemory : Memory := ⟨[(⟨["params", "x"]⟩, .int 2)]⟩

theorem verdicts_are_meanings_diamond :
    ∃ p i, ofSource diamond = .ok p ∧ p.positions.get? "a" = some i ∧
      (p.verdicts diamondMemory)[i]? = some true := by
  have hread : Source.packages diamond.toList = .ok [⟨Package.defaultName, [], diamondRules⟩] := by
    decide +kernel
  have hdefects : defects [⟨Package.defaultName, [], diamondRules⟩] = [] := by decide +kernel
  have hcompile : ofSource diamond =
      .ok (lower [⟨Package.defaultName, [], diamondRules⟩] (Digest.ofText diamond)) := by
    simp only [ofSource, hread, compile, hdefects, List.isEmpty_nil, if_true]
  obtain ⟨packages, hpackages, hverdicts, -, -⟩ :=
    verdicts_are_meanings hcompile diamondMemory
  obtain rfl := Except.ok.inj (hread.symm.trans hpackages)
  obtain ⟨i, b, hposition, hverdict, hmeans⟩ :=
    hverdicts diamondRules[0] (by simp [diamondRules, Package.allRules])
  have hget : diamondMemory.get? ⟨["params", "x"]⟩ = some (.int 2) := rfl
  have hd : (Condition.rule "d").Means diamondRules diamondMemory false :=
    .rule (r := diamondRules[3]) (by simp [diamondRules]) (.compared hget rfl)
  have hb : (Condition.rule "b").Means diamondRules diamondMemory true :=
    .rule (r := diamondRules[1]) (by simp [diamondRules]) (.not hd)
  have hc : (Condition.rule "c").Means diamondRules diamondMemory true :=
    .rule (r := diamondRules[2]) (by simp [diamondRules])
      (.or hd (.compared hget rfl))
  obtain rfl : true = b := (hmeans true).mp (.and (.and hb hc) hb)
  exact ⟨_, i, hcompile, hposition, hverdict⟩

end Program

end Rulebook
