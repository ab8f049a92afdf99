/-
  Proofs/Source/Precedence.lean --- conditions without needless parentheses.

  `NOT` binds tighter than `AND`, and `AND` tighter than `OR`; both chain to the left.  So a
  condition can be written with parentheses around those parts only that bind less tightly
  than their place asks (`Writes`): the parts of `OR` stand at the places 0 and 1, those of
  `AND` at 1 and 2, and the part of `NOT` at 2.

  A chain is read from its front and joined from its front, while what is written is taken
  apart from its end.  What is proved of a chain therefore speaks of the operands that are
  still to come (`ReadsAt`).
-/
import Rulebook.Proofs.Source.Progress

set_option autoImplicit false

namespace Rulebook

/-- How tightly a condition binds. -/
def Condition.rank : Condition → Nat
  | .or .. => 0
  | .and .. => 1
  | .not _ | .compare .. | .rule _ => 2

namespace Source

open Reader

/-! ## Conditions that are written -/

/-- Blanks, or nothing. -/
def Space (text : List Char) : Prop := ∀ c ∈ text, isBlank c = true

/-- Blanks, one at least. -/
structure Gap (text : List Char) : Prop where
  space : Space text
  ne_nil : text ≠ []

/-- How a text stands between quotation marks: quotation marks and backslashes behind a
backslash, line feeds and tabs bare or as letters behind a backslash, all else bare. -/
inductive Escapes : List Char → List Char → Prop
  | nil : Escapes [] []
  | bare {c : Char} {cs text : List Char} : c ≠ '\"' → c ≠ '\\' → Escapes cs text →
      Escapes (c :: cs) (c :: text)
  | quote {cs text : List Char} : Escapes cs text → Escapes ('\"' :: cs) ('\\' :: '\"' :: text)
  | slash {cs text : List Char} : Escapes cs text → Escapes ('\\' :: cs) ('\\' :: '\\' :: text)
  | newline {cs text : List Char} : Escapes cs text → Escapes ('\n' :: cs) ('\\' :: 'n' :: text)
  | tab {cs text : List Char} : Escapes cs text → Escapes ('\t' :: cs) ('\\' :: 't' :: text)

/-- How a literal is written. -/
inductive WritesValue : Value → List Char → Prop
  | string {s : String} {text : List Char} : Escapes s.toList text →
      WritesValue (.string s) ('\"' :: text ++ ['\"'])
  | plain (v : Value) : WritesValue v (printValue v)

/-- How a condition is written at a place, with parentheses only where the place asks for
something that binds more tightly.  Keywords stand in either case and between blanks. -/
inductive Writes : Nat → Condition → List Char → Prop
  | rule {place : Nat} {name : String} : Writes place (.rule name) name.toList
  | compare {place : Nat} {path : Path} {op : Comparator} {literal : Value}
      {before after text : List Char} : Space before → Space after → WritesValue literal text →
      Writes place (.compare path op literal)
        (path.text.toList ++ (before ++ (op.text.toList ++ (after ++ text))))
  | not {place : Nat} {inner : Condition} {keyword : String} {gap text : List Char} :
      keyword = "NOT" ∨ keyword = "not" → Gap gap → Writes 2 inner text →
      Writes place (.not inner) (keyword.toList ++ (gap ++ text))
  | and {place : Nat} {left right : Condition} {keyword : String}
      {textl before after textr : List Char} : place ≤ 1 → Writes 1 left textl → Gap before →
      keyword = "AND" ∨ keyword = "and" → Gap after → Writes 2 right textr →
      Writes place (.and left right) (textl ++ (before ++ (keyword.toList ++ (after ++ textr))))
  | or {left right : Condition} {keyword : String} {textl before after textr : List Char} :
      Writes 0 left textl → Gap before → keyword = "OR" ∨ keyword = "or" → Gap after →
      Writes 1 right textr →
      Writes 0 (.or left right) (textl ++ (before ++ (keyword.toList ++ (after ++ textr))))
  | paren {place : Nat} {c : Condition} {before text after : List Char} : c.rank < place →
      Space before → Writes 0 c text → Space after →
      Writes place c ('(' :: (before ++ (text ++ (after ++ [')']))))

/-! ## Words that are written -/

theorem Space.skipBlanks_append {text : List Char} (h : Space text) (r : List Char) :
    skipBlanks (text ++ r) = skipBlanks r := by
  induction text with
  | nil => rfl
  | cons c text ih =>
      obtain ⟨hc, htext⟩ := List.forall_mem_cons.mp h
      rw [List.cons_append, skipBlanks_of_blank _ hc, ih htext]

theorem isNamePart_of_isBlank {c : Char} (h : isBlank c = true) : isNamePart c = false := by
  by_contra hpart
  obtain ⟨c', s, heq, hsolid, -⟩ := solid_of_isNamePart [] (by simpa using hpart)
  cases heq
  rw [h] at hsolid
  cases hsolid

theorem ends_cons {c : Char} (h : isNamePart c = false) (r : List Char) : Ends (c :: r) := by
  intro d hd
  obtain rfl : c = d := Option.some.inj hd
  exact h

/-- No name goes on behind blanks, unless there are none. -/
theorem Space.ends {text r : List Char} (h : Space text) (hr : Ends r) : Ends (text ++ r) := by
  cases text with
  | nil => exact hr
  | cons c text => exact ends_cons (isNamePart_of_isBlank (h c List.mem_cons_self)) _

theorem Gap.ends {text : List Char} (h : Gap text) (r : List Char) : Ends (text ++ r) := by
  obtain ⟨c, text, rfl⟩ := List.exists_cons_of_ne_nil h.ne_nil
  exact ends_cons (isNamePart_of_isBlank (h.space c List.mem_cons_self)) _

section

variable {upper lower word : String} {r : List Char}

/-- Either form of a keyword is a name. -/
theorem IsKeyword.parts (hk : IsKeyword upper lower) (hword : word = upper ∨ word = lower) :
    ∀ c ∈ word.toList, isNamePart c = true := by
  rcases hword with rfl | rfl
  · exact hk.upper_parts
  · exact hk.lower_parts

/-- Either form of a keyword is read. -/
theorem keyword_reads_append (hk : IsKeyword upper lower) (hword : word = upper ∨ word = lower)
    (hr : Ends r) : (keyword upper lower).Reads (word.toList ++ r) () r := by
  have hparts := hk.parts hword
  unfold Reads
  rw [keyword_apply hk, takeWhile_append hparts hr, dropWhile_append hparts hr, if_pos]
  exact hword.imp (congrArg String.toList) (congrArg String.toList)

/-- A keyword begins as a name does. -/
theorem solid_keyword (hk : IsKeyword upper lower) (hne : upper.toList ≠ [])
    (hword : word = upper ∨ word = lower) :
    ∃ c text, word.toList = c :: text ∧ isNamePart c = true := by
  have hparts := hk.parts hword
  have hlength : word.toList.length = upper.toList.length := by
    rcases hword with rfl | rfl
    · rfl
    · exact hk.length_eq.symm
  cases heq : word.toList with
  | nil =>
      rw [heq] at hlength
      exact absurd (List.eq_nil_of_length_eq_zero hlength.symm) hne
  | cons c text => exact ⟨c, text, rfl, hparts c (by simp [heq])⟩

end

/-! ### Literals -/

theorem stringBody_escapes {cs text : List Char} (h : Escapes cs text) (acc r : List Char) :
    stringBody (text ++ '\"' :: r) acc = .ok (String.ofList (acc.reverse ++ cs), r) := by
  induction h generalizing acc with
  | nil => simp [stringBody]
  | @bare c cs text hquote hslash _ ih =>
      have hacc : acc.reverse ++ c :: cs = (c :: acc).reverse ++ cs := by simp
      rw [hacc, ← ih, List.cons_append, stringBody]
      · exact hquote
      all_goals
        intros
        contradiction
  | quote _ ih | slash _ ih | newline _ ih | tab _ ih =>
      simp [stringBody, ih]

/-- The first character of a literal. -/
theorem writesValue_head {v : Value} {text : List Char} (h : WritesValue v text)
    (hv : ¬ v.IsFloat) :
    ∃ c rest, text = c :: rest ∧ (c = '\"' ∨ c = '-' ∨ isNamePart c = true) := by
  cases h with
  | string => exact ⟨'\"', _, rfl, Or.inl rfl⟩
  | plain =>
      cases v with
      | string s => exact ⟨'\"', _, rfl, Or.inl rfl⟩
      | bool b => cases b <;> exact ⟨_, _, rfl, Or.inr (Or.inr rfl)⟩
      | float x => exact absurd trivial hv
      | int n =>
          cases hn : n.toInt with
          | ofNat k =>
              obtain ⟨c, rest, heq, hdigit⟩ := toDigits_cons k
              rw [printValue_ofNat hn, heq]
              exact ⟨c, rest, rfl, Or.inr (Or.inr (isNamePart_of_isDigit hdigit))⟩
          | negSucc k =>
              rw [printValue_negSucc hn]
              exact ⟨'-', _, rfl, Or.inr (Or.inl rfl)⟩

theorem solid_writesValue {v : Value} {text : List Char} (h : WritesValue v text)
    (hv : ¬ v.IsFloat) : Solid text := by
  obtain ⟨c, rest, rfl, rfl | rfl | hpart⟩ := writesValue_head h hv
  · exact ⟨_, _, rfl, rfl, by decide⟩
  · exact ⟨_, _, rfl, rfl, by decide⟩
  · exact solid_of_isNamePart rest hpart

theorem value_writes {v : Value} {text s r : List Char} (h : WritesValue v text)
    (hv : ¬ v.IsFloat) (hs : skipBlanks s = text ++ r) (hr : Ends r) : value.Reads s v r := by
  cases h with
  | plain => exact value_reads hv hs hr
  | @string cs text hescapes =>
      have hbody : stringBody (text ++ '\"' :: r) [] = .ok (cs, r) := by
        rw [stringBody_escapes hescapes, List.reverse_nil, List.nil_append, String.ofList_toList]
      have htext : ('\"' :: text ++ ['\"']) ++ r = '\"' :: (text ++ '\"' :: r) := by simp
      refine after_blanks (.expecting _ (Reads.orElse (Reads.map _ ?_)))
      rw [hs, htext]
      exact (char_reads '\"' _).bind hbody

/-! ## Conditions that are read -/

/-- What stands behind a comparison or a reference does not go on with it. -/
structure Stops (r : List Char) : Prop where
  ends : Ends r
  comparator : comparator? (skipBlanks r) = none

theorem Closes.stops {r : List Char} (h : Closes r) : Stops r := ⟨h.ends, h.comparator⟩

/-- An operator is read if no second part of it follows. -/
theorem comparator?_append (op : Comparator) {r : List Char} (hr : r.head? ≠ some '=') :
    comparator? (op.text.toList ++ r) = some (op, r) := by
  cases r with
  | nil => cases op <;> rfl
  | cons c r =>
      have hc : c ≠ '=' := fun heq => hr (congrArg some heq)
      cases op <;> simp [Comparator.text, comparator?, hc]

/-- Operators are no blanks and no names. -/
theorem operator_head (op : Comparator) :
    ∃ c text, op.text.toList = c :: text ∧ isBlank c = false ∧ c ≠ '#' ∧ isNamePart c = false := by
  cases op <;> exact ⟨_, _, rfl, rfl, by decide, rfl⟩

theorem ends_operator (op : Comparator) (r : List Char) : Ends (op.text.toList ++ r) := by
  obtain ⟨c, rest, heq, -, -, hpart⟩ := operator_head op
  rw [heq]
  exact ends_cons hpart _

/-- A keyword behind blanks does not go on with what stands before them. -/
theorem stops_keyword {upper lower word : String} (hk : IsKeyword upper lower)
    (hne : upper.toList ≠ []) (hword : word = upper ∨ word = lower) {gap : List Char}
    (hgap : Gap gap) (r : List Char) :
    Stops (gap ++ (word.toList ++ r)) ∧
      skipBlanks (gap ++ (word.toList ++ r)) = word.toList ++ r := by
  obtain ⟨c, text, heq, hc⟩ := solid_keyword hk hne hword
  have hskip : skipBlanks (gap ++ (word.toList ++ r)) = word.toList ++ r := by
    rw [hgap.space.skipBlanks_append, heq, (solid_of_isNamePart text hc).skipBlanks_append]
  have hother (d : Char) (hd : isNamePart d = false) : c ≠ d := ne_of_class hc hd
  refine ⟨⟨hgap.ends _, ?_⟩, hskip⟩
  rw [hskip, heq]
  simp [comparator?, hother '<' rfl, hother '>' rfl, hother '=' rfl, hother '!' rfl]

/-- A closing parenthesis, also behind blanks, ends a condition. -/
theorem closes_space_paren {text : List Char} (h : Space text) (r : List Char) :
    Closes (text ++ ')' :: r) := by
  have hskip : skipBlanks (text ++ ')' :: r) = ')' :: r := by
    rw [h.skipBlanks_append, skipBlanks_of_solid r rfl (by decide)]
  apply closes_of_skipBlanks (h.ends (closes_paren r).ends)
  simp [hskip]

/-! ### Chains -/

/-- The operands of `OR`. -/
def conjunction : Reader Condition := chain "AND" "and" .and unary

section

variable {upper lower word : String} {operand : Reader Condition} {s r t u : List Char}
  {c : Condition}

/-- A chain is read from its front. -/
theorem chain_reads {join : Condition → Condition → Condition} {others : List Condition}
    (ho : operand.Reads s c r) (hothers : Reads (many (further upper lower operand)) r others t) :
    (chain upper lower join operand).Reads s (others.foldl join c) t :=
  ho.bind (hothers.bind .pure)

theorem further_reads (hk : IsKeyword upper lower) (hword : word = upper ∨ word = lower)
    (hr : skipBlanks r = word.toList ++ t) (ht : Ends t) (ho : operand.Reads t c u) :
    (further upper lower operand).Reads r c u := by
  refine (blanks_reads r).bind ?_
  rw [hr]
  exact (keyword_reads_append hk hword ht).bind ho.commit

theorem further_refuses (h : (keyword upper lower).Refuses (skipBlanks r)) :
    (further upper lower operand).Refuses r :=
  (blanks_reads r).bind_refuses h.bind

/-- The keyword of negations makes a negation of what is read behind it. -/
theorem unary_negation (hword : word = "NOT" ∨ word = "not")
    (hs : skipBlanks s = word.toList ++ t) (ht : Ends t) (h : Reads unary t c r) :
    Reads unary s (.not c) r := by
  unfold Reads
  rw [unary_eq]
  refine (blanks_reads s).bind ?_
  rw [hs]
  exact (keyword_reads_append isKeyword_not hword ht).optional.bind (h.commit.map _)

/-- A condition in parentheses is read, whatever it is. -/
theorem unary_enclosed (hs : skipBlanks s = '(' :: t) (ht : skipBlanks u = ')' :: r)
    (h : condition.Reads t c u) : Reads unary s c r := by
  have hnot : (keyword "NOT" "not").Refuses ('(' :: t) := by
    rw [keyword_refuses_iff isKeyword_not]
    exact ⟨by simp [isNamePart], by simp [isNamePart]⟩
  have hsolid : skipBlanks ('(' :: t) = '(' :: t := skipBlanks_of_solid t rfl (by decide)
  have hprimary : (primary condition).Reads ('(' :: t) c r := by
    refine after_blanks (.expecting _ (.orElse ?_))
    rw [hsolid]
    refine (char_reads '(' t).bind (h.bind ((blanks_reads u).bind ?_))
    rw [ht]
    exact (char_reads ')' r).bind .pure
  unfold Reads
  rw [unary_eq]
  refine (blanks_reads s).bind ?_
  rw [hs]
  exact hnot.optional.bind hprimary

end

/-! ### Places -/

/-- What is written at a place is read there: as a negation or primary at place 2, as the
first operand of a chain otherwise. -/
def ReadsAt : Nat → Condition → List Char → Prop
  | 0, c, text => ∀ (s r t : List Char) (others : List Condition), skipBlanks s = text ++ r →
      Stops r → (keyword "AND" "and").Refuses (skipBlanks r) →
      Reads (many (further "OR" "or" conjunction)) r others t →
      (chain "OR" "or" .or conjunction).Reads s (others.foldl .or c) t
  | 1, c, text => ∀ (s r t : List Char) (others : List Condition), skipBlanks s = text ++ r →
      Stops r → Reads (many (further "AND" "and" unary)) r others t →
      conjunction.Reads s (others.foldl .and c) t
  | _, c, text => ∀ s r : List Char, skipBlanks s = text ++ r → Stops r → Reads unary s c r

section

variable {c : Condition} {text : List Char}

/-- A chain stands at the place of a longer one. -/
theorem ReadsAt.of_one (h : ReadsAt 1 c text) {place : Nat} (hplace : place ≤ 1) :
    ReadsAt place c text := by
  match place, hplace with
  | 1, _ => exact h
  | 0, _ =>
      intro s r t others hs hr hand hothers
      have hfirst : conjunction.Reads s c r := h s r r [] hs hr (further_refuses hand).many_nil
      exact chain_reads hfirst hothers

/-- A negation or primary stands everywhere. -/
theorem ReadsAt.of_two (h : ReadsAt 2 c text) (place : Nat) : ReadsAt place c text := by
  have hone : ReadsAt 1 c text := fun s r t others hs hr hothers =>
    chain_reads (h s r hs hr) hothers
  match place with
  | 0 => exact hone.of_one (Nat.zero_le 1)
  | 1 => exact hone
  | n + 2 => exact h

/-- What can stand first in a condition is a condition, if nothing goes on with it. -/
theorem ReadsAt.condition (h : ReadsAt 0 c text) {s r : List Char} (hs : skipBlanks s = text ++ r)
    (hr : Closes r) : condition.Reads s c r := by
  refine after_blanks (h _ r r [] ?_ hr.stops hr.and_refuses
    (further_refuses hr.or_refuses).many_nil)
  rw [skipBlanks_skipBlanks, hs]

end

/-- Behind the blanks, a condition begins with what is no blank and no comment. -/
theorem solid_writes {place : Nat} {c : Condition} {text : List Char} (h : Writes place c text)
    (hc : c.Readable) : Solid text := by
  have happend {text : List Char} (ht : Solid text) (r : List Char) : Solid (text ++ r) := by
    obtain ⟨d, rest, rfl, hd⟩ := ht
    exact ⟨d, rest ++ r, rfl, hd⟩
  induction h with
  | rule =>
      cases hc with
      | rule hname => exact hname.isName.solid
  | compare =>
      cases hc with
      | compare hname =>
          rw [Path.text_ofString]
          exact happend hname.isName.solid _
  | not hword =>
      obtain ⟨d, rest, heq, hd⟩ := solid_keyword isKeyword_not (by decide) hword
      rw [heq]
      exact happend (solid_of_isNamePart rest hd) _
  | and _ _ _ _ _ _ ih _ =>
      cases hc with
      | and hleft _ => exact happend (ih hleft) _
  | or _ _ _ _ _ ih _ =>
      cases hc with
      | or hleft _ => exact happend (ih hleft) _
  | paren => exact ⟨'(', _, rfl, rfl, by decide⟩

/-- A comparison is read as it is written. -/
theorem comparisonOrReference_writes {name : String} (hname : IsName name) {op : Comparator}
    {literal : Value} (hliteral : ¬ literal.IsFloat) {before after text r : List Char}
    (hbefore : Space before) (hafter : Space after) (htext : WritesValue literal text)
    (hr : Ends r) :
    comparisonOrReference.Reads
      (name.toList ++ (before ++ (op.text.toList ++ (after ++ (text ++ r)))))
      (.compare (Path.ofString name) op literal) r := by
  obtain ⟨c, rest, hop, hblank, hcomment, -⟩ := operator_head op
  have hends := hbefore.ends (ends_operator op (after ++ (text ++ r)))
  have hskip : skipBlanks (before ++ (op.text.toList ++ (after ++ (text ++ r)))) =
      op.text.toList ++ (after ++ (text ++ r)) := by
    rw [hbefore.skipBlanks_append, hop]
    exact skipBlanks_of_solid _ hblank hcomment
  -- neither a blank nor a literal makes a longer operator
  have hequals : (after ++ (text ++ r)).head? ≠ some '=' := by
    cases after with
    | nil =>
        obtain ⟨d, more, rfl, rfl | rfl | hd⟩ := writesValue_head htext hliteral
        · simp
        · simp
        · exact head?_ne_of_class hd rfl
    | cons d after => exact head?_ne_of_class (hafter d List.mem_cons_self) rfl
  unfold Reads
  rw [comparisonOrReference_apply (identifier_reads hname hends), hskip,
    comparator?_append op hequals]
  refine (Reads.commit (value_writes htext hliteral ?_ hr)).map _
  rw [hafter.skipBlanks_append, (solid_writesValue htext hliteral).skipBlanks_append]

/-- What stands behind an operator is one more operand of its chain. -/
theorem further_writes {upper lower word : String} (hk : IsKeyword upper lower)
    (hne : upper.toList ≠ []) (hword : word = upper ∨ word = lower) {operand : Reader Condition}
    (ho : operand.Shrinks) {c : Condition} {others : List Condition}
    {before after text r t : List Char} (hbefore : Gap before) (hafter : Gap after)
    (hread : operand.Reads (after ++ (text ++ r)) c r)
    (hothers : Reads (many (further upper lower operand)) r others t) :
    Reads (many (further upper lower operand))
      (before ++ (word.toList ++ (after ++ (text ++ r)))) (c :: others) t := by
  have hskip := (stops_keyword hk hne hword hbefore (after ++ (text ++ r))).2
  have hfirst := further_reads hk hword hskip (hafter.ends _) hread
  exact hfirst.many_cons (further_moves hk hne ho _ _ _ hfirst) hothers

theorem conjunction_shrinks : conjunction.Shrinks := chain_shrinks _ _ _ unary_moves.shrinks

/-- The keyword of alternatives is not that of conjunctions. -/
theorem and_refuses_or {word : String} (hword : word = "OR" ∨ word = "or") {r : List Char}
    (hr : Ends r) : (keyword "AND" "and").Refuses (word.toList ++ r) := by
  have hparts := isKeyword_or.parts hword
  rw [keyword_refuses_iff isKeyword_and, takeWhile_append hparts hr]
  rcases hword with rfl | rfl <;> decide

/-- **What is written at a place is read there.** -/
theorem readsAt_of_writes {place : Nat} {c : Condition} {text : List Char}
    (h : Writes place c text) (hc : c.Readable) (hfloat : ¬ c.HasFloat) : ReadsAt place c text := by
  induction h with
  | rule =>
      cases hc with
      | rule hname =>
          refine ReadsAt.of_two (fun s r hs hr => ?_) _
          exact unary_term hname hs hr.ends
            (comparisonOrReference_rule hname.isName hr.ends hr.comparator)
  | @compare _ path op literal before after text hbefore hafter htext =>
      cases hc with
      | @compare name _ _ hname =>
          have hliteral : ¬ literal.IsFloat :=
            fun hv => hfloat ⟨_, List.mem_singleton.mpr rfl, hv⟩
          refine ReadsAt.of_two (fun s r hs hr => ?_) _
          rw [Path.text_ofString] at hs
          simp only [List.append_assoc] at hs
          refine unary_term hname hs ?_ (comparisonOrReference_writes hname.isName hliteral hbefore
            hafter htext hr.ends)
          exact hbefore.ends (ends_operator op _)
  | @not _ inner word gap text hword hgap htext ih =>
      cases hc with
      | not hinner =>
          refine ReadsAt.of_two (fun s r hs hr => ?_) _
          rw [List.append_assoc, List.append_assoc] at hs
          refine unary_negation hword hs (hgap.ends _) (ih hinner hfloat _ r ?_ hr)
          rw [hgap.space.skipBlanks_append, (solid_writes htext hinner).skipBlanks_append]
  | @and _ left right word textl before after textr hplace hl hbefore hword hafter hr ihl ihr =>
      cases hc with
      | and hleft hright =>
          obtain ⟨hnoneLeft, hnoneRight⟩ := not_or.mp (Condition.hasFloat_and.not.mp hfloat)
          refine ReadsAt.of_one (fun s r t others hs hstops hothers => ?_) hplace
          simp only [List.append_assoc] at hs
          have hright' : Reads unary (after ++ (textr ++ r)) right r := by
            refine ihr hright hnoneRight _ r ?_ hstops
            rw [hafter.space.skipBlanks_append, (solid_writes hr hright).skipBlanks_append]
          have hchain := further_writes isKeyword_and (by decide) hword unary_moves.shrinks hbefore
            hafter hright' hothers
          -- the right operand is the first of those that stand behind the left one
          exact ihl hleft hnoneLeft s _ t (right :: others) hs
            (stops_keyword isKeyword_and (by decide) hword hbefore _).1 hchain
  | @or left right word textl before after textr hl hbefore hword hafter hr ihl ihr =>
      cases hc with
      | or hleft hright =>
          obtain ⟨hnoneLeft, hnoneRight⟩ := not_or.mp (Condition.hasFloat_or.not.mp hfloat)
          intro s r t others hs hstops hand hothers
          simp only [List.append_assoc] at hs
          have hright' : conjunction.Reads (after ++ (textr ++ r)) right r := by
            refine ihr hright hnoneRight _ r r [] ?_ hstops (further_refuses hand).many_nil
            rw [hafter.space.skipBlanks_append, (solid_writes hr hright).skipBlanks_append]
          have hchain := further_writes isKeyword_or (by decide) hword conjunction_shrinks hbefore
            hafter hright' hothers
          obtain ⟨hstops', hskip⟩ :=
            stops_keyword isKeyword_or (by decide) hword hbefore (after ++ (textr ++ r))
          refine ihl hleft hnoneLeft s _ t (right :: others) hs hstops' ?_ hchain
          rw [hskip]
          exact and_refuses_or hword (hafter.ends _)
  | @paren _ c before text after _ hbefore htext hafter ih =>
      refine ReadsAt.of_two (fun s r hs hr => ?_) _
      simp only [List.cons_append, List.append_assoc, List.nil_append] at hs
      have hclose := closes_space_paren hafter r
      have hskip : skipBlanks (after ++ ')' :: r) = ')' :: r := by
        rw [hafter.skipBlanks_append, skipBlanks_of_solid r rfl (by decide)]
      refine unary_enclosed hs hskip ((ih hc hfloat).condition ?_ hclose)
      rw [hbefore.skipBlanks_append, (solid_writes htext hc).skipBlanks_append]

/-! ## The text of a condition -/

/-- A text in parentheses, if its place asks for something that binds more tightly. -/
def enclose (place : Nat) (c : Condition) (text : List Char) : List Char :=
  if c.rank < place then '(' :: (text ++ [')']) else text

/-- The text of a condition at a place, with single spaces and keywords in upper case. -/
def printTerse (place : Nat) : Condition → List Char
  | .rule name => name.toList
  | .compare path op literal =>
    path.text.toList ++ (' ' :: (op.text.toList ++ (' ' :: printValue literal)))
  | .not inner => "NOT".toList ++ (' ' :: printTerse 2 inner)
  | .and left right => enclose place (.and left right)
      (printTerse 1 left ++ (' ' :: ("AND".toList ++ (' ' :: printTerse 2 right))))
  | .or left right => enclose place (.or left right)
      (printTerse 0 left ++ (' ' :: ("OR".toList ++ (' ' :: printTerse 1 right))))

theorem gap_space : Gap [' '] := ⟨by simp [Space, isBlank], by simp⟩

/-- What binds less tightly than its place asks is put into parentheses. -/
theorem writes_enclose {place : Nat} {c : Condition} {text : List Char} (hzero : Writes 0 c text)
    (hplace : place ≤ c.rank → Writes place c text) : Writes place c (enclose place c text) := by
  unfold enclose
  split
  · rename_i hrank
    have hnone : Space [] := List.forall_mem_nil _
    exact .paren hrank hnone hzero hnone
  · rename_i hrank
    exact hplace (Nat.le_of_not_lt hrank)

/-- Every condition can be written at every place. -/
theorem writes_printTerse (place : Nat) (c : Condition) : Writes place c (printTerse place c) := by
  induction c generalizing place with
  | rule name => exact .rule
  | compare path op literal => exact .compare gap_space.space gap_space.space (.plain literal)
  | not inner ih => exact .not (Or.inl rfl) gap_space (ih 2)
  | and left right ihleft ihright =>
      have hat (p : Nat) (hp : p ≤ 1) := Writes.and hp (ihleft 1) gap_space
        (Or.inl rfl : "AND" = "AND" ∨ "AND" = "and") gap_space (ihright 2)
      exact writes_enclose (hat 0 (Nat.zero_le 1)) (hat place)
  | or left right ihleft ihright =>
      have hzero := Writes.or (ihleft 0) gap_space (Or.inl rfl : "OR" = "OR" ∨ "OR" = "or")
        gap_space (ihright 1)
      refine writes_enclose hzero fun hplace => ?_
      obtain rfl : place = 0 := Nat.le_zero.mp hplace
      exact hzero

/-! ## Whole texts -/

theorem closes_space {text : List Char} (h : Space text) : Closes text := by
  have hskip : skipBlanks text = [] := by
    simpa using h.skipBlanks_append []
  have hends : Ends text := by simpa using h.ends (r := []) (by simp [Ends])
  exact closes_of_skipBlanks hends (by simp [hskip])

/-- A rule without priority is read from its name, its condition and its actions. -/
theorem packages_rule {name : String} (hname : IsName name) {c : Condition}
    {body after rest : List Char} {o : Option (List Action)} (h : condition.Reads body c after)
    (ho : consequence.optional.Reads after o rest) (hrest : skipBlanks rest = []) :
    packages ("rule ".toList ++ (name.toList ++ ':' :: body)) =
      .ok [⟨Package.defaultName, [], [⟨name, c, none, o.getD []⟩]⟩] := by
  have hskip : skipBlanks ("rule ".toList ++ (name.toList ++ ':' :: body)) =
      "rule".toList ++ ' ' :: (name.toList ++ ':' :: body) :=
    skipBlanks_of_solid _ rfl (by decide)
  have hcolon : Ends (':' :: body) := ends_cons rfl body
  have hrule : ruleItem.Reads ("rule ".toList ++ (name.toList ++ ':' :: body))
      (.rule ⟨name, c, none, o.getD []⟩) rest := by
    refine after_blanks ?_
    rw [hskip]
    refine (word_reads "rule".toList _).bind ((spaces_solid hname.solid).bind ?_)
    refine ((identifier_reads hname hcolon).commit.expecting _).bind ?_
    refine (priority_print none body).bind ((blanks_reads _).bind ?_)
    rw [skipBlanks_of_solid body rfl (by decide)]
    refine (char_reads ':' body).commit.bind ?_
    exact (h.commit.expecting _).bind (ho.bind .pure)
  have hhead (d : Char) (hd : 'r' ≠ d) :
      (skipBlanks ("rule ".toList ++ (name.toList ++ ':' :: body))).head? ≠ some d := by
    rw [hskip]
    exact fun heq => hd (Option.some.inj heq)
  have hpackage : packageItem.Refuses ("rule ".toList ++ (name.toList ++ ':' :: body)) :=
    blanks_word_refuses (hhead 'p' (by decide))
  have hshape : shapeItem.Refuses ("rule ".toList ++ (name.toList ++ ':' :: body)) :=
    blanks_word_refuses (hhead 'd' (by decide))
  have hitem : item.Reads ("rule ".toList ++ (name.toList ++ ':' :: body))
      (.rule ⟨name, c, none, o.getD []⟩) rest := hpackage.orElse (hshape.orElse hrule)
  have hitems := hitem.many_cons (item_moves _ _ _ hitem) (item_refuses_end hrest).many_nil
  unfold packages
  rw [hitems]
  simp [hrest, group, Grouping.add, Grouping.start, Grouping.packages, Package.empty,
    Package.isEmpty]

/-- However a condition is written, it is read in front of what does not go on with it. -/
theorem condition_reads_of_writes {c : Condition} (hc : c.Readable) (hfloat : ¬ c.HasFloat)
    {before text r : List Char} (hbefore : Space before) (htext : Writes 0 c text)
    (hr : Closes r) : condition.Reads (before ++ (text ++ r)) c r := by
  refine (readsAt_of_writes htext hc hfloat).condition ?_ hr
  rw [hbefore.skipBlanks_append, (solid_writes htext hc).skipBlanks_append]

/-- **Conditions need no parentheses but those of their precedence.**  Every condition can be
written with these alone.  However it is written so, it is read as itself: in front of
everything that does not go on with it, and as the condition of a whole text. -/
theorem condition_writes {c : Condition} (hc : c.Readable) (hfloat : ¬ c.HasFloat) :
    Writes 0 c (printTerse 0 c) ∧
      ∀ text, Writes 0 c text → ∀ before, Space before →
        (∀ r, Closes r → condition.Reads (before ++ (text ++ r)) c r) ∧
        ∀ (name : String) (after : List Char), IsName name → Space after →
          packages ("rule ".toList ++ (name.toList ++ ':' :: (before ++ (text ++ after)))) =
            .ok [⟨Package.defaultName, [], [⟨name, c, none, []⟩]⟩] := by
  refine ⟨writes_printTerse 0 c, fun text htext before hbefore => ?_⟩
  have hread (r : List Char) (hr : Closes r) : condition.Reads (before ++ (text ++ r)) c r :=
    condition_reads_of_writes hc hfloat hbefore htext hr
  refine ⟨hread, fun name after hname hafter => ?_⟩
  have hnothing : skipBlanks after = [] := by simpa using hafter.skipBlanks_append []
  have hnone : consequence.Refuses after := blanks_word_refuses (c := 't') (by simp [hnothing])
  exact packages_rule hname (hread after (closes_space hafter)) hnone.optional hnothing

/-- A condition with names that begin with keywords, or are keywords. -/
def entangled : Condition :=
  .or (.and (.not (.rule "notify")) (.or (.rule "order") (.rule "AND")))
    (.and (.compare (Path.ofString "android.or") .greaterOrEqual (.int (-3))) (.rule "or"))

theorem condition_writes_entangled :
    condition.Reads " NOT notify and (order OR AND) or\tandroid.or>= -3 AND or".toList
        entangled [] ∧
      packages "rule NOT: NOT notify and (order OR AND) or\tandroid.or>= -3 AND or".toList =
        .ok [⟨Package.defaultName, [], [⟨"NOT", entangled, none, []⟩]⟩] := by
  have hterm (name : String) (hname : (name.toList.head?.any isNameStart &&
      name.toList.all isNamePart) = true) (hupper : name ≠ "NOT") (hlower : name ≠ "not") :
      IsTerm name := ⟨isName_of hname, hupper, hlower⟩
  have hc : entangled.Readable :=
    .or
      (.and (.not (.rule (hterm "notify" (by decide) (by decide) (by decide))))
        (.or (.rule (hterm "order" (by decide) (by decide) (by decide)))
          (.rule (hterm "AND" (by decide) (by decide) (by decide)))))
      (.and (.compare (hterm "android.or" (by decide) (by decide) (by decide)))
        (.rule (hterm "or" (by decide) (by decide) (by decide))))
  have htab : Gap ['\t'] := ⟨by simp [Space, isBlank], by simp⟩
  have hnone : Space [] := List.forall_mem_nil _
  have hnot : Writes 1 (.not (.rule "notify")) "NOT notify".toList :=
    .not (Or.inl rfl : "NOT" = "NOT" ∨ _) gap_space .rule
  have horder : Writes 0 (.or (.rule "order") (.rule "AND")) "order OR AND".toList :=
    .or .rule gap_space (Or.inl rfl : "OR" = "OR" ∨ _) gap_space .rule
  have hleft : Writes 0 (.and (.not (.rule "notify")) (.or (.rule "order") (.rule "AND")))
      "NOT notify and (order OR AND)".toList :=
    .and (Nat.zero_le 1) hnot gap_space (Or.inr rfl : "and" = "AND" ∨ _) gap_space
      (.paren (by decide) hnone horder hnone)
  have hcompare : Writes 1
      (.compare (Path.ofString "android.or") .greaterOrEqual (.int (-3)))
      "android.or>= -3".toList :=
    .compare hnone gap_space.space (.plain (.int (-3)))
  have htext : Writes 0 entangled
      "NOT notify and (order OR AND) or\tandroid.or>= -3 AND or".toList :=
    .or hleft gap_space (Or.inr rfl : "or" = "OR" ∨ _) htab
      (.and (Nat.le_refl 1) hcompare gap_space (Or.inl rfl : "AND" = "AND" ∨ _) gap_space .rule)
  have h := (condition_writes hc (by decide)).2 _ htext [' '] gap_space.space
  exact ⟨h.1 [] (closes_space (by simp [Space])),
    h.2 "NOT" [] (isName_of (by decide)) (by simp [Space])⟩

end Source

end Rulebook
