/-
  Proofs/Source/Operand.lean --- what a set action takes its value from.

  Behind the equals sign a literal is tried first, and then a path.  The two truth values are
  the only literals that look like the beginning of a name, and they are read as they stand,
  also in front of more letters.  So the paths that can be written are those that begin with
  neither (`IsOperand`); of any other path the truth value is read, and its remaining letters are
  left over.
-/
import Rulebook.Proofs.Source.Precedence

set_option autoImplicit false

namespace Rulebook.Source

open Reader

/-! ## Operands -/

section

variable {name : String} {r : List Char}

/-- A name that begins with a truth value is that value with the rest of the name behind it. -/
theorem operand_reads_bool {b : Bool} {s more : List Char}
    (hs : skipBlanks s = printValue (.bool b) ++ more) :
    operand.Reads s (.literal (.bool b)) more := by
  refine after_blanks (.expecting _ (Reads.orElse (.map _ (value_reads_bool b ?_))))
  rw [skipBlanks_skipBlanks, hs]

/-- The truth value that a name begins with, if it can be no operand. -/
theorem exists_bool_of_not_isOperand (hname : IsName name) (h : ¬ IsOperand name) :
    ∃ b more, name.toList = printValue (.bool b) ++ more := by
  by_cases htrue : "true".toList <+: name.toList
  · obtain ⟨more, hmore⟩ := htrue
    exact ⟨true, more, hmore.symm⟩
  by_cases hfalse : "false".toList <+: name.toList
  · obtain ⟨more, hmore⟩ := hfalse
    exact ⟨false, more, hmore.symm⟩
  · exact absurd ⟨hname, htrue, hfalse⟩ h

/-- A name is read as a path if and only if it begins with no truth value. -/
theorem operand_reads_path_iff (hname : IsName name) (hr : Ends r) {s : List Char}
    (hs : skipBlanks s = name.toList ++ r) :
    operand.Reads s (.path (Path.ofString name)) r ↔ IsOperand name := by
  constructor
  · intro h
    by_contra hnot
    obtain ⟨b, more, heq⟩ := exists_bool_of_not_isOperand hname hnot
    rw [heq, List.append_assoc] at hs
    have hliteral := operand_reads_bool hs
    cases h.symm.trans hliteral
  · intro hoperand
    refine operand_print (.path hoperand) (by simp) ?_ hr
    rw [printOperand, Path.text_ofString]
    exact hs

end

/-! ## Set actions -/

/-- How a set action is written, up to its operand. -/
inductive SetsKey (key : String) : List Char → Prop
  | mk {gap before after : List Char} : IsName key → gap ≠ [] → (∀ c ∈ gap, c = ' ' ∨ c = '\t') →
      Space before → Space after →
      SetsKey key ("set".toList ++ (gap ++ (key.toList ++ (before ++ '=' :: after))))

section

variable {key : String} {front s r x : List Char} {o : Operand}

/-- A set action reads its operand. -/
theorem action_reads_set (hfront : SetsKey key front) (hs : skipBlanks s = front ++ x)
    (ho : operand.Reads x o r) : action.Reads s (.set key o) r := by
  obtain @⟨gap, before, after, hkey, hne, hgap, hbefore, hafter⟩ := hfront
  have hequals : Ends ('=' :: (after ++ x)) := ends_cons rfl _
  have hskip : skipBlanks (before ++ '=' :: (after ++ x)) = '=' :: (after ++ x) := by
    rw [hbefore.skipBlanks_append]
    exact skipBlanks_of_solid _ rfl (by decide)
  have ho' : operand.Reads (after ++ x) o r := by
    refine after_blanks ?_
    rw [hafter.skipBlanks_append]
    exact of_after_blanks ho
  have hspaces : spaces.Reads (gap ++ (key.toList ++ (before ++ '=' :: (after ++ x)))) ()
      (key.toList ++ (before ++ '=' :: (after ++ x))) := by
    refine (takeWhile1_reads hne (by simpa using hgap) ?_).bind .pure
    obtain ⟨c, rest, heq, hc, -⟩ := hkey
    intro d hd
    rw [heq] at hd
    obtain rfl : c = d := Option.some.inj hd
    simp [ne_of_class hc (rfl : isNameStart ' ' = false),
      ne_of_class hc (rfl : isNameStart '\t' = false)]
  simp only [List.append_assoc, List.cons_append] at hs
  refine after_blanks ?_
  rw [hs]
  refine Reads.orElse ((word_reads "set".toList _).bind (hspaces.bind ?_))
  refine ((identifier_reads hkey (hbefore.ends hequals)).commit.expecting _).bind ?_
  refine (blanks_reads _).bind ?_
  rw [hskip]
  exact (char_reads '=' _).commit.bind (ho'.commit.bind .pure)

/-- A set action is read with a path if and only if the path begins with no truth value. -/
theorem action_reads_path_iff (hfront : SetsKey key front) {name : String} (hname : IsName name)
    (hr : Ends r) (hs : skipBlanks s = front ++ (name.toList ++ r)) :
    action.Reads s (.set key (.path (Path.ofString name))) r ↔ IsOperand name := by
  have hskip := hname.solid.skipBlanks_append r
  constructor
  · intro h
    by_contra hnot
    obtain ⟨b, more, heq⟩ := exists_bool_of_not_isOperand hname hnot
    rw [heq, List.append_assoc] at hskip hs
    have hliteral := action_reads_set hfront hs (operand_reads_bool hskip)
    cases h.symm.trans hliteral
  · intro hoperand
    exact action_reads_set hfront hs ((operand_reads_path_iff hname hr hskip).mpr hoperand)

end

/-! ## Rules with set actions -/

/-- How the word in front of the actions of a rule is written. -/
inductive WritesThen : List Char → Prop
  | mk {gap lines : List Char} : Gap gap → lines ≠ [] →
      (∀ c ∈ lines, c = ' ' ∨ c = '\t' ∨ c = '\r' ∨ c = '\n') →
      WritesThen (gap ++ ("then".toList ++ lines))

section

variable {between s x : List Char} {a : Action} {others : List Action}

/-- The actions of a rule are read behind their word. -/
theorem consequence_reads (hbetween : WritesThen between) {c : Char} (hc : isNameStart c = true)
    (ha : action.Reads (c :: s) a x) {rest : List Char}
    (hothers : Reads (many action) x others rest) :
    Closes (between ++ c :: s) ∧ consequence.Reads (between ++ c :: s) (a :: others) rest := by
  obtain @⟨gap, lines, hgap, hne, hlines⟩ := hbetween
  have hskip : skipBlanks (gap ++ ("then".toList ++ (lines ++ c :: s))) =
      "then".toList ++ (lines ++ c :: s) := by
    rw [hgap.space.skipBlanks_append]
    exact skipBlanks_of_solid _ rfl (by decide)
  have hspace : spacesOrLines.Reads (lines ++ c :: s) () (c :: s) := by
    refine (takeWhile1_reads hne (by simpa [or_assoc] using hlines) ?_).bind .pure
    intro d hd
    obtain rfl : c = d := Option.some.inj hd
    simp [ne_of_class hc (rfl : isNameStart ' ' = false),
      ne_of_class hc (rfl : isNameStart '\t' = false),
      ne_of_class hc (rfl : isNameStart '\r' = false),
      ne_of_class hc (rfl : isNameStart '\n' = false)]
  simp only [List.append_assoc]
  refine ⟨closes_of_skipBlanks (hgap.ends _) (by rw [hskip]; simp), after_blanks ?_⟩
  rw [hskip]
  exact (word_reads "then".toList _).bind (hspace.bind (.expecting _ (ha.many1 hothers).commit))

end

/-- **A path can be written behind an equals sign if and only if it begins with no truth
value.**  Then the action sets the key from the path, the actions behind it are read as they
are without it, and so is a whole rule.  Otherwise the action sets the key to the truth value, and
what is left of the path stands in front of everything else. -/
theorem set_from_path_iff {key : String} {front : List Char} (hfront : SetsKey key front)
    {name : String} (hname : IsName name) {r : List Char} (hr : Ends r) :
    (∀ s, skipBlanks s = front ++ (name.toList ++ r) →
      (action.Reads s (.set key (.path (Path.ofString name))) r ↔ IsOperand name)) ∧
    (∀ b more, name.toList = printValue (.bool b) ++ more →
      ∀ s, skipBlanks s = front ++ (name.toList ++ r) →
        action.Reads s (.set key (.literal (.bool b))) (more ++ r)) ∧
    (IsOperand name → ∀ others rest, Reads (many action) r others rest →
      (∀ s, skipBlanks s = front ++ (name.toList ++ r) →
        Reads (many action) s (.set key (.path (Path.ofString name)) :: others) rest) ∧
      ∀ (rule : String) (c : Condition) (before text between : List Char), IsName rule →
        c.Readable → ¬ c.HasFloat → Space before → Writes 0 c text → WritesThen between →
        skipBlanks rest = [] →
          packages ("rule ".toList ++ (rule.toList ++
              ':' :: (before ++ (text ++ (between ++ (front ++ (name.toList ++ r))))))) =
            .ok [⟨Package.defaultName, [], [⟨rule, c, none,
              .set key (.path (Path.ofString name)) :: others⟩]⟩]) := by
  refine ⟨fun s hs => action_reads_path_iff hfront hname hr hs, ?_, ?_⟩
  · intro b more heq s hs
    have hskip := hname.solid.skipBlanks_append r
    rw [heq, List.append_assoc] at hskip hs
    exact action_reads_set hfront hs (operand_reads_bool hskip)
  intro hoperand others rest hothers
  have haction (s : List Char) (hs : skipBlanks s = front ++ (name.toList ++ r)) :=
    (action_reads_path_iff hfront hname hr hs).mpr hoperand
  refine ⟨fun s hs => (haction s hs).many_cons (action_moves _ _ _ (haction s hs)) hothers, ?_⟩
  intro rule c before text between hrule hc hfloat hbefore htext hbetween hrest
  -- the action begins with its word, so there are no blanks in front of it
  obtain ⟨more, hmore⟩ : ∃ more, front = 's' :: more := by
    obtain @⟨gap, _, _, _, _, _, _, _⟩ := hfront
    exact ⟨_, rfl⟩
  have hsolid : skipBlanks (front ++ (name.toList ++ r)) = front ++ (name.toList ++ r) := by
    rw [hmore]
    exact skipBlanks_of_solid _ rfl (by decide)
  have hfirst := haction _ hsolid
  rw [hmore] at hfirst ⊢
  obtain ⟨hcloses, hconsequence⟩ := consequence_reads hbetween rfl hfirst hothers
  have hcondition := condition_reads_of_writes hc hfloat hbefore htext hcloses
  exact packages_rule hrule hcondition hconsequence.optional hrest

/-- A path that goes on behind its first letter as the truth values do not. -/
theorem set_from_path_iff_tireCost :
    action.Reads "set cost = tireCost.net".toList
        (.set "cost" (.path (Path.ofString "tireCost.net"))) [] ∧
      packages "rule r: paid\n  then set cost = tireCost.net log \"set\"".toList =
        .ok [⟨Package.defaultName, [], [⟨"r", .rule "paid", none,
          [.set "cost" (.path (Path.ofString "tireCost.net")), .log "set"]⟩]⟩] := by
  have hname : IsName "tireCost.net" := isName_of (by decide)
  have hoperand : IsOperand "tireCost.net" := ⟨hname, by decide, by decide⟩
  have hfront : SetsKey "cost" ("set".toList ++
      ([' '] ++ ("cost".toList ++ ([' '] ++ '=' :: [' '])))) :=
    .mk (isName_of (by decide)) (by simp) (by simp) gap_space.space gap_space.space
  have hbetween : WritesThen (['\n', ' ', ' '] ++ ("then".toList ++ [' '])) :=
    .mk ⟨by simp [Space, isBlank], by simp⟩ (by simp) (by simp)
  have hother : Reads (many action) " log \"set\"".toList [.log "set"] [] := by
    unfold Reads
    decide +kernel
  have hpaid : (Condition.rule "paid").Readable :=
    .rule ⟨isName_of (by decide), by decide, by decide⟩
  constructor
  · exact ((set_from_path_iff hfront hname (by simp [Ends])).1 _
      (skipBlanks_of_solid _ rfl (by decide))).mpr hoperand
  · exact ((set_from_path_iff hfront hname (ends_space _)).2.2 hoperand _ _ hother).2 "r" _ [' '] _
      _ (isName_of (by decide)) hpaid (by decide) gap_space.space .rule hbetween skipBlanks_nil

/-- The source of the rule would set the cost from the field of its shape. -/
def swallowed : String :=
  "declare trueCost\n  net: int\nend\nrule r:\n  trueCost.net >= 0\n  then set cost = trueCost.net"

/-- The truth value at the front of a longer name is taken for the operand, and the text is
refused at the letters that are left. -/
theorem truth_value_swallows_name :
    IsName "trueCost.net" ∧ "trueCost.net" ≠ "true" ∧ "trueCost.net" ≠ "false" ∧
      ¬ action.Reads "set cost = trueCost.net".toList
        (.set "cost" (.path (Path.ofString "trueCost.net"))) [] ∧
      action.Reads "set cost = trueCost.net".toList
        (.set "cost" (.literal (.bool true))) "Cost.net".toList ∧
      packages swallowed.toList = .error ⟨"Cost.net".toList, false, []⟩ := by
  have hread : action.Reads "set cost = trueCost.net".toList
      (.set "cost" (.literal (.bool true))) "Cost.net".toList := by
    unfold Reads
    decide +kernel
  refine ⟨isName_of (by decide), by decide, by decide, ?_, hread, by decide +kernel⟩
  intro h
  cases h.symm.trans hread

end Rulebook.Source
