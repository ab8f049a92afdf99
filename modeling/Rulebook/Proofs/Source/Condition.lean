/-
  Proofs/Source/Condition.lean --- conditions are read as they are printed.

  A printed condition shows its structure: behind an opening parenthesis there is one
  comparison, one negation or two conditions with a keyword between them, and the reader of
  chains stops at the closing parenthesis.  What stands behind a whole condition must not go
  on with it (`Closes`).  Names of rules and paths cannot be the keyword of negations, since
  the reader tries that first (`IsTerm`); they can be any other keyword.
-/
import Rulebook.Proofs.Source.Token

set_option autoImplicit false

namespace Rulebook

namespace Source

/-- A name that a condition can begin with. -/
structure IsTerm (name : String) : Prop where
  isName : IsName name
  ne_upper : name ≠ "NOT"
  ne_lower : name ≠ "not"

end Source

/-- Conditions that rule texts can have. -/
inductive Condition.Readable : Condition → Prop
  | compare {name : String} {op : Comparator} {literal : Value} : Source.IsTerm name →
      Readable (.compare (Path.ofString name) op literal)
  | rule {name : String} : Source.IsTerm name → Readable (.rule name)
  | and {left right : Condition} : left.Readable → right.Readable → Readable (.and left right)
  | or {left right : Condition} : left.Readable → right.Readable → Readable (.or left right)
  | not {inner : Condition} : inner.Readable → Readable (.not inner)

/-- The condition compares something with a double. -/
def Condition.HasFloat (c : Condition) : Prop :=
  ∃ comparison ∈ c.comparisons, comparison.2.2.IsFloat

instance : DecidablePred Condition.HasFloat := fun c =>
  inferInstanceAs (Decidable (∃ comparison ∈ c.comparisons, comparison.2.2.IsFloat))

theorem Condition.hasFloat_and {left right : Condition} :
    (Condition.and left right).HasFloat ↔ left.HasFloat ∨ right.HasFloat := by
  simp only [HasFloat, comparisons, List.mem_append, or_and_right, exists_or]

theorem Condition.hasFloat_or {left right : Condition} :
    (Condition.or left right).HasFloat ↔ left.HasFloat ∨ right.HasFloat := by
  simp only [HasFloat, comparisons, List.mem_append, or_and_right, exists_or]

namespace Source

open Reader

/-- The reader of what is shorter than a text of some length. -/
def below (n : Nat) : Reader Condition := fun r => if r.length < n then unary r else fail r

theorem unary_apply (s : List Char) :
    unary s = (do
      blanks
      match ← optional (keyword "NOT" "not") with
      | some () => Condition.not <$> commit (below s.length)
      | none => primary (disjunction (below s.length)) : Reader Condition) s := by
  rw [unary]
  rfl

theorem below_reads {n : Nat} {s r : List Char} {c : Condition} (hlt : s.length < n)
    (h : Reads unary s c r) : (below n).Reads s c r := by
  unfold Reads below
  rw [if_pos hlt]
  exact h

theorem of_below_reads {n : Nat} {s r : List Char} {c : Condition} (h : (below n).Reads s c r) :
    s.length < n ∧ Reads unary s c r := by
  unfold Reads below at h
  split at h
  · rename_i hlt
    exact ⟨hlt, h⟩
  · cases h

/-- Behind a name the operator decides. -/
theorem comparisonOrReference_apply {s r : List Char} {name : String}
    (h : identifier.Reads s name r) :
    comparisonOrReference s = match comparator? (skipBlanks r) with
      | some (op, t) => (Condition.compare (Path.ofString name) op <$> commit value : Reader _) t
      | none => .ok (.rule name, r) :=
  bind_of_ok h

/-! ## Conditions that are read -/

/-- A property that conditions have if their parts have it. -/
structure Hereditary (P : Condition → Prop) : Prop where
  and : ∀ {left right : Condition}, P left → P right → P (.and left right)
  or : ∀ {left right : Condition}, P left → P right → P (.or left right)
  not : ∀ {inner : Condition}, P inner → P (.not inner)

section

variable {P : Condition → Prop} {operand : Reader Condition}

theorem chain_gives {upper lower : String} {join : Condition → Condition → Condition}
    (ho : operand.Gives P) (hjoin : ∀ a b : Condition, P a → P b → P (join a b)) :
    (chain upper lower join operand).Gives P := by
  have hothers : Gives (many do blanks; keyword upper lower; commit operand) fun others =>
      ∀ c ∈ others, P c :=
    (Gives.after fun _ => .after fun _ => ho.commit).many
  refine ho.bind fun first hfirst => hothers.bind fun others hall => .pure ?_
  induction others generalizing first with
  | nil => exact hfirst
  | cons c others ih =>
      obtain ⟨hc, hrest⟩ := List.forall_mem_cons.mp hall
      exact ih (join first c) (hjoin first c hfirst hc) hrest

theorem disjunction_gives (hP : Hereditary P) (ho : operand.Gives P) :
    (disjunction operand).Gives P :=
  .after fun _ => chain_gives (chain_gives ho fun _ _ => hP.and) fun _ _ => hP.or

theorem primary_gives (ho : operand.Gives P) {s r : List Char} {c : Condition}
    (hterm : ∀ c r, comparisonOrReference.Reads s c r → P c) (hs : skipBlanks s = s)
    (h : (primary operand).Reads s c r) : P c := by
  have h := of_after_blanks h
  rw [hs] at h
  rcases h.of_expecting.of_orElse with h | ⟨-, h⟩
  · have hparen : (do char '('; let e ← operand; blanks; char ')'; return e :
        Reader Condition).Gives P :=
      .after fun _ => ho.bind fun _ he => .after fun _ => .after fun _ => .pure he
    exact hparen s c r h
  · exact hterm c r h

/-- Conditions have a hereditary property if comparisons and references have it where no
negation begins. -/
theorem unary_gives (hP : Hereditary P)
    (hterm : ∀ s, (keyword "NOT" "not").Refuses s → ∀ c r,
      comparisonOrReference.Reads s c r → P c) : Gives unary P := by
  intro s
  induction hn : s.length using Nat.strongRecOn generalizing s with
  | _ n ih =>
      subst hn
      have hbelow : (below s.length).Gives P := by
        intro s' c r h
        obtain ⟨hlt, h⟩ := of_below_reads h
        exact ih s'.length hlt s' rfl c r h
      intro c r h
      unfold Reads at h
      rw [unary_apply] at h
      obtain ⟨found, rest, hfound, h⟩ := (of_after_blanks h).of_bind
      rcases hfound.of_optional with ⟨⟨⟩, rfl, -⟩ | ⟨rfl, rfl, hnot⟩
      · obtain ⟨inner, hinner, rfl⟩ := h.of_map
        exact hP.not (hbelow _ _ _ hinner.of_commit)
      · exact primary_gives (disjunction_gives hP hbelow) (hterm _ hnot) (skipBlanks_skipBlanks s) h

end

/-- A name is read where no keyword is, so it is none. -/
theorem term_readable {s : List Char} (hnot : (keyword "NOT" "not").Refuses s) (c : Condition)
    (r : List Char) (h : comparisonOrReference.Reads s c r) : c.Readable := by
  obtain ⟨name, rest, hname, -⟩ := h.of_bind
  obtain ⟨hisName, hsplit, hends⟩ := identifier_inv hname
  have hrun : s.takeWhile isNamePart = name.toList := by
    rw [hsplit]
    exact takeWhile_append hisName.isNamePart hends
  obtain ⟨hupper, hlower⟩ := (keyword_refuses_iff isKeyword_not).mp hnot
  have hterm : IsTerm name := by
    refine ⟨hisName, ?_, ?_⟩
    · rintro rfl
      exact hupper hrun
    · rintro rfl
      exact hlower hrun
  unfold Reads at h
  rw [comparisonOrReference_apply hname] at h
  split at h
  · obtain ⟨literal, -, rfl⟩ := Reads.of_map h
    exact .compare hterm
  · cases h
    exact .rule hterm

/-- Whatever is read as a condition is one that rule texts can have. -/
theorem condition_gives : condition.Gives Condition.Readable := by
  have hP : Hereditary Condition.Readable := ⟨.and, .or, .not⟩
  exact disjunction_gives hP (unary_gives hP fun _ => term_readable)

/-! ## Conditions that are printed -/

theorem comparator?_text (op : Comparator) (r : List Char) :
    comparator? (op.text.toList ++ ' ' :: r) = some (op, ' ' :: r) := by
  cases op <;> rfl

/-- A path with an operator and a literal behind it is a comparison. -/
theorem comparisonOrReference_compare {name : String} (hname : IsName name) (op : Comparator)
    {literal : Value} (hliteral : ¬ literal.IsFloat) {r : List Char} (hr : Ends r) :
    comparisonOrReference.Reads
      (name.toList ++ ' ' :: (op.text.toList ++ ' ' :: (printValue literal ++ r)))
      (.compare (Path.ofString name) op literal) r := by
  have hidentifier := identifier_reads hname
    (r := ' ' :: (op.text.toList ++ ' ' :: (printValue literal ++ r))) (by simp [Ends, isNamePart])
  have hop : skipBlanks (' ' :: (op.text.toList ++ ' ' :: (printValue literal ++ r))) =
      op.text.toList ++ ' ' :: (printValue literal ++ r) := by
    rw [skipBlanks_space]
    cases op <;> exact skipBlanks_of_solid _ rfl (by decide)
  unfold Reads
  rw [comparisonOrReference_apply hidentifier, hop, comparator?_text]
  refine (Reads.commit (value_reads hliteral ?_ hr)).map _
  rw [skipBlanks_space, (solid_printValue hliteral).skipBlanks_append]

/-- A name with no operator behind it is a reference. -/
theorem comparisonOrReference_rule {name : String} (hname : IsName name) {r : List Char}
    (hr : Ends r) (hcomparator : comparator? (skipBlanks r) = none) :
    comparisonOrReference.Reads (name.toList ++ r) (.rule name) r := by
  unfold Reads
  rw [comparisonOrReference_apply (identifier_reads hname hr), hcomparator]

/-! ### Chains -/

/-- What stands behind a condition does not go on with it. -/
structure Closes (r : List Char) : Prop where
  ends : Ends r
  comparator : comparator? (skipBlanks r) = none
  and_refuses : (keyword "AND" "and").Refuses (skipBlanks r)
  or_refuses : (keyword "OR" "or").Refuses (skipBlanks r)

/-- What begins with none of a few characters does not go on with a condition. -/
theorem closes_of_skipBlanks {r : List Char} (hr : Ends r)
    (hhead : ∀ c ∈ (skipBlanks r).head?, c ∉ ['<', '>', '=', '!', 'A', 'a', 'O', 'o']) :
    Closes r := by
  have hrun {c : Char} {text : List Char} (hc : c ∈ ['<', '>', '=', '!', 'A', 'a', 'O', 'o']) :
      (skipBlanks r).takeWhile isNamePart ≠ c :: text := by
    intro heq
    have hhead' : (skipBlanks r).head? = some c := by
      have hfilter := congrArg List.head? heq
      rw [List.head?_takeWhile, List.head?_cons, Option.filter_eq_some_iff] at hfilter
      exact hfilter.1
    exact hhead c hhead' hc
  refine ⟨hr, ?_, ?_, ?_⟩
  · cases hrest : skipBlanks r with
    | nil => rfl
    | cons c t =>
        have hc := hhead c (by simp [hrest])
        simp only [List.mem_cons, not_or] at hc
        simp [comparator?, hc]
  · exact (keyword_refuses_iff isKeyword_and).mpr
      ⟨hrun (c := 'A') (by simp), hrun (c := 'a') (by simp)⟩
  · exact (keyword_refuses_iff isKeyword_or).mpr
      ⟨hrun (c := 'O') (by simp), hrun (c := 'o') (by simp)⟩

theorem closes_paren (r : List Char) : Closes (')' :: r) := by
  have hsolid : skipBlanks (')' :: r) = ')' :: r := skipBlanks_of_solid r rfl (by decide)
  apply closes_of_skipBlanks
  · simp [Ends, isNamePart]
  · simp [hsolid]

section

variable {upper lower : String} {join : Condition → Condition → Condition}
  {operand : Reader Condition} {s r t u : List Char} {a b : Condition}

theorem chain_one (ho : operand.Reads s a r)
    (hstop : (keyword upper lower).Refuses (skipBlanks r)) :
    (chain upper lower join operand).Reads s a r :=
  ho.bind ((((blanks_reads r).bind_refuses hstop.bind).many_nil).bind .pure)

theorem chain_two (hk : IsKeyword upper lower) (ho : operand.Reads s a r)
    (hr : skipBlanks r = upper.toList ++ t) (ht : Ends t) (ho' : operand.Reads t b u)
    (hlt : u.length < r.length) (hstop : (keyword upper lower).Refuses (skipBlanks u)) :
    (chain upper lower join operand).Reads s (join a b) u := by
  have hkeyword : (keyword upper lower).Reads (skipBlanks r) () t := by
    have hrun : (upper.toList ++ t).takeWhile isNamePart = upper.toList :=
      takeWhile_append hk.upper_parts ht
    have hread := keyword_reads hk hrun
    rwa [dropWhile_append hk.upper_parts ht, ← hr] at hread
  have hother : (do blanks; keyword upper lower; commit operand : Reader Condition).Reads r b u :=
    (blanks_reads r).bind (hkeyword.bind ho'.commit)
  have hnone : (do blanks; keyword upper lower; commit operand : Reader Condition).Refuses u :=
    (blanks_reads u).bind_refuses hstop.bind
  exact ho.bind ((hother.many_cons hlt hnone.many_nil).bind .pure)

/-- One condition is no chain. -/
theorem disjunction_one (ho : operand.Reads (skipBlanks s) a r) (hr : Closes r) :
    (disjunction operand).Reads s a r :=
  after_blanks (chain_one (chain_one ho hr.and_refuses) hr.or_refuses)

theorem disjunction_and (ho : operand.Reads (skipBlanks s) a r)
    (hr : skipBlanks r = "AND".toList ++ t) (ht : Ends t) (ho' : operand.Reads t b u)
    (hlt : u.length < r.length) (hu : Closes u) :
    (disjunction operand).Reads s (.and a b) u :=
  after_blanks
    (chain_one (chain_two isKeyword_and ho hr ht ho' hlt hu.and_refuses) hu.or_refuses)

theorem disjunction_or (ho : operand.Reads (skipBlanks s) a r)
    (hr : skipBlanks r = "OR".toList ++ t) (ht : Ends t) (ho' : operand.Reads t b u)
    (hlt : u.length < r.length) (hu : Closes u) :
    (disjunction operand).Reads s (.or a b) u := by
  have hrun : (skipBlanks r).takeWhile isNamePart = "OR".toList := by
    rw [hr]
    exact takeWhile_append isKeyword_or.upper_parts ht
  have hand : (keyword "AND" "and").Refuses (skipBlanks r) := by
    rw [keyword_refuses_iff isKeyword_and, hrun]
    decide
  exact after_blanks
    (chain_two isKeyword_or (chain_one ho hand) hr ht (chain_one ho' hu.and_refuses) hlt
      hu.or_refuses)

end

/-! ### Parts of conditions -/

section

variable {s r t : List Char} {c : Condition}

/-- A name that is no negation begins a comparison or a reference. -/
theorem unary_term {name : String} (hname : IsTerm name)
    (hs : skipBlanks s = name.toList ++ t) (ht : Ends t)
    (h : comparisonOrReference.Reads (name.toList ++ t) c r) : Reads unary s c r := by
  have hnot : (keyword "NOT" "not").Refuses (name.toList ++ t) := by
    rw [keyword_refuses_iff isKeyword_not, takeWhile_append hname.isName.isNamePart ht]
    exact ⟨fun heq => hname.ne_upper (String.toList_inj.mp heq),
      fun heq => hname.ne_lower (String.toList_inj.mp heq)⟩
  have hparen : (name.toList ++ t).head? ≠ some '(' := by
    obtain ⟨d, _, heq, hstart, -⟩ := hname.isName
    rw [heq]
    exact head?_ne_of_class hstart rfl
  have hprimary : (primary (disjunction (below s.length))).Reads (name.toList ++ t) c r := by
    refine after_blanks (.expecting _ ?_)
    rw [hname.isName.solid.skipBlanks_append]
    exact (char_refuses hparen).bind.orElse h
  unfold Reads
  rw [unary_apply]
  refine (blanks_reads s).bind ?_
  rw [hs]
  exact hnot.optional.bind hprimary

/-- The keyword of negations makes a negation of what is read behind it. -/
theorem unary_not (hs : skipBlanks s = "NOT".toList ++ t) (ht : Ends t)
    (h : Reads unary t c r) : Reads unary s (.not c) r := by
  have hkeyword : (keyword "NOT" "not").Reads ("NOT".toList ++ t) () t := by
    have hread := keyword_reads isKeyword_not (takeWhile_append isKeyword_not.upper_parts ht)
    rwa [dropWhile_append isKeyword_not.upper_parts ht] at hread
  have hlt : t.length < s.length := by
    have hle := length_skipBlanks_le s
    rw [hs, List.length_append] at hle
    exact Nat.lt_of_lt_of_le (Nat.lt_add_of_pos_left (by decide)) hle
  unfold Reads
  rw [unary_apply]
  refine (blanks_reads s).bind ?_
  rw [hs]
  exact hkeyword.optional.bind ((below_reads hlt h).commit.map _)

/-- In parentheses anything can stand, as long as it is shorter. -/
theorem unary_paren (hs : skipBlanks s = '(' :: t)
    (h : (disjunction (below s.length)).Reads t c (')' :: r)) : Reads unary s c r := by
  have hnot : (keyword "NOT" "not").Refuses ('(' :: t) := by
    rw [keyword_refuses_iff isKeyword_not]
    exact ⟨by simp [isNamePart], by simp [isNamePart]⟩
  have hsolid : skipBlanks ('(' :: t) = '(' :: t := skipBlanks_of_solid t rfl (by decide)
  have hclose : skipBlanks (')' :: r) = ')' :: r := skipBlanks_of_solid r rfl (by decide)
  have hprimary : (primary (disjunction (below s.length))).Reads ('(' :: t) c r := by
    refine after_blanks (.expecting _ (.orElse ?_))
    rw [hsolid]
    refine (char_reads '(' t).bind (h.bind ((blanks_reads _).bind ?_))
    rw [hclose]
    exact (char_reads ')' r).bind .pure
  unfold Reads
  rw [unary_apply]
  refine (blanks_reads s).bind ?_
  rw [hs]
  exact hnot.optional.bind hprimary

end

/-! ### Whole conditions -/

theorem solid_printCondition {c : Condition} (hc : c.Readable) : Solid (printCondition c) := by
  cases hc with
  | rule hname => exact hname.isName.solid
  | compare | and | or | not => exact ⟨'(', _, rfl, rfl, by decide⟩

/-- What is inside the parentheses at the front of a text is shorter than the text. -/
theorem below_reads_of_paren {s t t' r : List Char} {c : Condition}
    (hs : skipBlanks s = '(' :: t) (ht : t'.length ≤ t.length) (h : Reads unary t' c r) :
    (below s.length).Reads t' c r := by
  have hle := length_skipBlanks_le s
  rw [hs, List.length_cons] at hle
  exact below_reads (by omega) h

/-- No name and no comparison goes on behind a space and a keyword. -/
theorem ends_space (r : List Char) : Ends (' ' :: r) := by
  simp [Ends, isNamePart]

theorem comparator?_of_keyword {upper lower : String} (hk : IsKeyword upper lower)
    (hne : upper.toList ≠ []) (r : List Char) :
    skipBlanks (' ' :: (upper.toList ++ r)) = upper.toList ++ r ∧
      comparator? (upper.toList ++ r) = none := by
  obtain ⟨c, text, heq⟩ := List.exists_cons_of_ne_nil hne
  have hc : isNamePart c = true := hk.upper_parts c (by simp [heq])
  rw [skipBlanks_space, heq, (solid_of_isNamePart text hc).skipBlanks_append]
  refine ⟨rfl, ?_⟩
  have hother (d : Char) (hd : isNamePart d = false) : c ≠ d := ne_of_class hc hd
  simp [comparator?, hother '<' rfl, hother '>' rfl, hother '=' rfl, hother '!' rfl]

/-- Two conditions with a keyword between them are read in parentheses, by the chain of that
keyword. -/
theorem unary_pair {upper lower : String} (hk : IsKeyword upper lower) (hne : upper.toList ≠ [])
    {join : Condition → Condition → Condition}
    (hchain : ∀ {operand : Reader Condition} {s r t u : List Char} {a b : Condition},
      operand.Reads (skipBlanks s) a r → skipBlanks r = upper.toList ++ t → Ends t →
      operand.Reads t b u → u.length < r.length → Closes u →
      (disjunction operand).Reads s (join a b) u)
    {left right : Condition} {s r : List Char}
    (hs : skipBlanks s = '(' :: (printCondition left ++
      ' ' :: (upper.toList ++ ' ' :: (printCondition right ++ ')' :: r))))
    (hleft : left.Readable) (hright : right.Readable)
    (ihleft : ∀ {s r : List Char}, skipBlanks s = printCondition left ++ r → Ends r →
      comparator? (skipBlanks r) = none → Reads unary s left r)
    (ihright : ∀ {s r : List Char}, skipBlanks s = printCondition right ++ r → Ends r →
      comparator? (skipBlanks r) = none → Reads unary s right r) :
    Reads unary s (join left right) r := by
  obtain ⟨hskip, hcomparator⟩ :=
    comparator?_of_keyword hk hne (' ' :: (printCondition right ++ ')' :: r))
  have hsolid := (solid_printCondition hleft).skipBlanks_append
    (' ' :: (upper.toList ++ ' ' :: (printCondition right ++ ')' :: r)))
  have hfirst : (below s.length).Reads (printCondition left ++
      ' ' :: (upper.toList ++ ' ' :: (printCondition right ++ ')' :: r))) left
      (' ' :: (upper.toList ++ ' ' :: (printCondition right ++ ')' :: r))) := by
    refine below_reads_of_paren hs (Nat.le_refl _) (ihleft hsolid (ends_space _) ?_)
    rw [hskip]
    exact hcomparator
  have hsecond : (below s.length).Reads (' ' :: (printCondition right ++ ')' :: r)) right
      (')' :: r) := by
    refine below_reads_of_paren hs ?_
      (ihright ?_ (closes_paren r).ends (closes_paren r).comparator)
    · simp only [List.length_append, List.length_cons]
      omega
    · rw [skipBlanks_space, (solid_printCondition hright).skipBlanks_append]
  rw [← hsolid] at hfirst
  refine unary_paren hs (hchain hfirst hskip (ends_space _) hsecond ?_ (closes_paren r))
  simp only [List.length_append, List.length_cons]
  omega

/-- A condition is read as it is printed, if no name and no operator goes on behind it. -/
theorem unary_print {c : Condition} (hc : c.Readable) (hfloat : ¬ c.HasFloat) {s r : List Char}
    (hs : skipBlanks s = printCondition c ++ r) (hr : Ends r)
    (hcomparator : comparator? (skipBlanks r) = none) : Reads unary s c r := by
  induction hc generalizing s r with
  | @compare name op literal hname =>
      have hliteral : ¬ literal.IsFloat :=
        fun hv => hfloat ⟨_, List.mem_singleton.mpr rfl, hv⟩
      have hparen : skipBlanks s = '(' :: (name.toList ++
          ' ' :: (op.text.toList ++ ' ' :: (printValue literal ++ ')' :: r))) := by
        unfold printCondition at hs
        simpa [Path.text_ofString] using hs
      have hsolid := hname.isName.solid.skipBlanks_append
        (' ' :: (op.text.toList ++ ' ' :: (printValue literal ++ ')' :: r)))
      have hinner := unary_term hname hsolid (ends_space _)
        (comparisonOrReference_compare hname.isName op hliteral (closes_paren r).ends)
      refine unary_paren hparen (disjunction_one ?_ (closes_paren r))
      rw [hsolid]
      exact below_reads_of_paren hparen (Nat.le_refl _) hinner
  | rule hname =>
      exact unary_term hname hs hr (comparisonOrReference_rule hname.isName hr hcomparator)
  | @and left right hleft hright ihleft ihright =>
      obtain ⟨hnoneLeft, hnoneRight⟩ := not_or.mp (Condition.hasFloat_and.not.mp hfloat)
      have hparen : skipBlanks s = '(' :: (printCondition left ++
          ' ' :: ("AND".toList ++ ' ' :: (printCondition right ++ ')' :: r))) := by
        unfold printCondition at hs
        simpa using hs
      exact unary_pair isKeyword_and (by decide) disjunction_and hparen hleft hright
        (ihleft hnoneLeft) (ihright hnoneRight)
  | @or left right hleft hright ihleft ihright =>
      obtain ⟨hnoneLeft, hnoneRight⟩ := not_or.mp (Condition.hasFloat_or.not.mp hfloat)
      have hparen : skipBlanks s = '(' :: (printCondition left ++
          ' ' :: ("OR".toList ++ ' ' :: (printCondition right ++ ')' :: r))) := by
        unfold printCondition at hs
        simpa using hs
      exact unary_pair isKeyword_or (by decide) disjunction_or hparen hleft hright
        (ihleft hnoneLeft) (ihright hnoneRight)
  | @not inner hinner ih =>
      have hparen : skipBlanks s =
          '(' :: ("NOT".toList ++ ' ' :: (printCondition inner ++ ')' :: r)) := by
        unfold printCondition at hs
        simpa using hs
      have hsolid : skipBlanks ("NOT".toList ++ ' ' :: (printCondition inner ++ ')' :: r)) =
          "NOT".toList ++ ' ' :: (printCondition inner ++ ')' :: r) :=
        skipBlanks_of_solid _ rfl (by decide)
      have hnegated : Reads unary (' ' :: (printCondition inner ++ ')' :: r)) inner (')' :: r) := by
        refine ih hfloat ?_ (closes_paren r).ends (closes_paren r).comparator
        rw [skipBlanks_space, (solid_printCondition hinner).skipBlanks_append]
      refine unary_paren hparen (disjunction_one ?_ (closes_paren r))
      rw [hsolid]
      exact below_reads_of_paren hparen (Nat.le_refl _)
        (unary_not hsolid (ends_space _) hnegated)

/-- **Conditions are read as they are printed**, if what stands behind them does not go on
with them. -/
theorem condition_print {c : Condition} (hc : c.Readable) (hfloat : ¬ c.HasFloat)
    {s r : List Char} (hs : skipBlanks s = printCondition c ++ r) (hr : Closes r) :
    condition.Reads s c r := by
  refine disjunction_one (unary_print hc hfloat ?_ hr.ends hr.comparator) hr
  rw [skipBlanks_skipBlanks]
  exact hs

/-! ### The display of conditions -/

/-- No character of the text has to be escaped. -/
def Plain (text : String) : Prop := '\"' ∉ text.toList ∧ '\\' ∉ text.toList

theorem flatMap_escapeChar {s : List Char} (hquote : '\"' ∉ s) (hslash : '\\' ∉ s) :
    s.flatMap escapeChar = s := by
  induction s with
  | nil => rfl
  | cons c s ih =>
      rw [List.mem_cons, not_or] at hquote hslash
      have hc : escapeChar c = [c] := by
        simp [escapeChar, Ne.symm hquote.1, Ne.symm hslash.1]
      rw [List.flatMap_cons, hc, ih hquote.2 hslash.2]
      rfl

theorem printString_eq_text {text : String} (h : Plain text) :
    printString text = (Value.string text).text.toList := by
  unfold printString
  rw [flatMap_escapeChar h.1 h.2]
  simp [Value.text]

/-- **Conditions are printed as they are displayed**, unless there is a text with a quotation
mark or a backslash, which the display leaves bare. -/
theorem printCondition_eq_text {c : Condition}
    (h : ∀ path op text, (path, op, .string text) ∈ c.comparisons → Plain text) :
    printCondition c = c.text.toList := by
  induction c with
  | compare path op literal =>
      have hliteral : printValue literal = literal.text.toList := by
        cases literal with
        | string text => exact printString_eq_text (h path op text List.mem_cons_self)
        | int _ | float _ | bool _ => rfl
      unfold printCondition Condition.text
      rw [hliteral]
      simp
  | rule name => rfl
  | and left right ihleft ihright | or left right ihleft ihright =>
      have hleft := ihleft fun path op text hmem =>
        h path op text (List.mem_append_left right.comparisons hmem)
      have hright := ihright fun path op text hmem =>
        h path op text (List.mem_append_right left.comparisons hmem)
      unfold printCondition Condition.text
      rw [hleft, hright]
      simp
  | not inner ih =>
      unfold printCondition Condition.text
      rw [ih h]
      simp

end Source

end Rulebook
