/-
  Proofs/Source/Progress.lean --- readers move on, and conditions follow their grammar.

  Two statements are made about how much a reader leaves:

      p.Shrinks : p leaves no more than there was
      p.Moves   : p reads something

  The reader of negations and primaries reads its parts from what is shorter than its own
  text.  Since no reader leaves more than there was, that bound is always kept: the reader
  satisfies the equation of the grammar, in which it does not stand (`unary_eq`).
-/
import Rulebook.Proofs.Source.Item

set_option autoImplicit false

namespace Rulebook.Source

namespace Reader

variable {α β : Type}

/-- The reader leaves no more than there was. -/
def Shrinks (p : Reader α) : Prop := ∀ s a r, p.Reads s a r → r.length ≤ s.length

/-- The reader reads something. -/
def Moves (p : Reader α) : Prop := ∀ s a r, p.Reads s a r → r.length < s.length

section

variable {p q : Reader α} {f : α → Reader β}

theorem Moves.shrinks (hp : p.Moves) : p.Shrinks := fun s a r h => (hp s a r h).le

theorem Shrinks.pure (a : α) : Shrinks (Pure.pure a) := by
  intro s a' r h
  cases h
  exact Nat.le_refl _

theorem Shrinks.bind (hp : p.Shrinks) (hf : ∀ a, (f a).Shrinks) : (p >>= f).Shrinks := by
  intro s b t h
  obtain ⟨a, r, hread, hrest⟩ := h.of_bind
  exact Nat.le_trans (hf a r b t hrest) (hp s a r hread)

/-- A first part that reads something is enough. -/
theorem Moves.bind (hp : p.Moves) (hf : ∀ a, (f a).Shrinks) : (p >>= f).Moves := by
  intro s b t h
  obtain ⟨a, r, hread, hrest⟩ := h.of_bind
  exact Nat.lt_of_le_of_lt (hf a r b t hrest) (hp s a r hread)

/-- So is a later part. -/
theorem Shrinks.bind_moves (hp : p.Shrinks) (hf : ∀ a, (f a).Moves) : (p >>= f).Moves := by
  intro s b t h
  obtain ⟨a, r, hread, hrest⟩ := h.of_bind
  exact Nat.lt_of_lt_of_le (hf a r b t hrest) (hp s a r hread)

theorem Shrinks.map (g : α → β) (hp : p.Shrinks) : (g <$> p).Shrinks := hp.bind fun _ => .pure _

theorem Moves.map (g : α → β) (hp : p.Moves) : (g <$> p).Moves := hp.bind fun _ => .pure _

theorem Shrinks.commit (hp : p.Shrinks) : p.commit.Shrinks :=
  fun s a r h => hp s a r h.of_commit

theorem Shrinks.expecting (what : Expectation) (hp : p.Shrinks) : (p.expecting what).Shrinks :=
  fun s a r h => hp s a r h.of_expecting

theorem Moves.expecting (what : Expectation) (hp : p.Moves) : (p.expecting what).Moves :=
  fun s a r h => hp s a r h.of_expecting

theorem Shrinks.orElse (hp : p.Shrinks) (hq : q.Shrinks) : (p <|> q).Shrinks := by
  intro s a r h
  rcases h.of_orElse with h | ⟨-, h⟩
  · exact hp s a r h
  · exact hq s a r h

theorem Moves.orElse (hp : p.Moves) (hq : q.Moves) : (p <|> q).Moves := by
  intro s a r h
  rcases h.of_orElse with h | ⟨-, h⟩
  · exact hp s a r h
  · exact hq s a r h

theorem Shrinks.optional (hp : p.Shrinks) : p.optional.Shrinks := by
  intro s o r h
  rcases h.of_optional with ⟨a, -, h⟩ | ⟨-, rfl, -⟩
  · exact hp s a r h
  · exact Nat.le_refl _

/-- What a repetition reads first, it reads by moving on. -/
theorem Reads.of_many_cons_lt {s t : List Char} {a : α} {as : List α}
    (h : Reads (many p) s (a :: as) t) :
    ∃ r, p.Reads s a r ∧ r.length < s.length ∧ Reads (many p) r as t := by
  unfold Reads at h
  rw [many] at h
  split at h
  · rename_i a' r hp
    split at h
    · rename_i hlt
      split at h
      · rename_i as' t' hrest
        cases h
        exact ⟨r, hp, hlt, hrest⟩
      · cases h
    · cases h
  · split at h <;> cases h

/-- A repetition that reads nothing leaves everything; its reader is refused there, if it
would move on. -/
theorem Reads.of_many_nil {s t : List Char} (hp : p.Moves) (h : Reads (many p) s [] t) :
    t = s ∧ p.Refuses s := by
  unfold Reads at h
  rw [many] at h
  split at h
  · rename_i a r hread
    rw [if_pos (hp s a r hread)] at h
    split at h <;> cases h
  · rename_i e herror
    split at h
    · cases h
    · rename_i hfree
      cases h
      exact ⟨rfl, e, herror, by simpa using hfree⟩

/-- A repetition never leaves more than there was, since only what moves on counts. -/
theorem Shrinks.many (p : Reader α) : Shrinks (Reader.many p) := by
  intro s as t h
  induction as generalizing s with
  | nil =>
      unfold Reads at h
      rw [Reader.many] at h
      split at h
      · split at h
        · split at h <;> cases h
        · cases h
          exact Nat.le_refl _
      · split at h <;> cases h
        exact Nat.le_refl _
  | cons a as ih =>
      obtain ⟨r, -, hlt, hrest⟩ := h.of_many_cons_lt
      exact Nat.le_trans (ih r hrest) hlt.le

theorem Moves.many1 (hp : p.Moves) : p.many1.Moves :=
  hp.bind fun _ => (Shrinks.many p).bind fun _ => .pure _

/-! ### Readers that agree -/

theorem bind_congr {f' : α → Reader β} {s : List Char} (hp : p s = q s)
    (hf : ∀ a r, q.Reads s a r → f a r = f' a r) : (p >>= f) s = (q >>= f') s := by
  rw [bind_apply, bind_apply, hp]
  cases hq : q s with
  | error e => rfl
  | ok result => exact hf result.1 result.2 hq

theorem commit_congr {s : List Char} (h : p s = q s) : p.commit s = q.commit s := by
  unfold Reader.commit
  rw [h]

theorem expecting_congr {what : Expectation} {s : List Char} (h : p s = q s) :
    p.expecting what s = q.expecting what s := by
  unfold Reader.expecting
  rw [h]

theorem orElse_congr {p' q' : Reader α} {s t : List Char} (h : p s = q t) (h' : p' s = q' t) :
    (p <|> p') s = (q <|> q') t := by
  show Reader.orElse p (fun _ => p') s = Reader.orElse q (fun _ => q') t
  unfold Reader.orElse
  rw [h]
  split
  · rfl
  · split
    · rfl
    · exact h'

/-- Readers that agree on a text and on all shorter ones agree in repetitions. -/
theorem many_congr {s : List Char} (h : ∀ t : List Char, t.length ≤ s.length → p t = q t) :
    many p s = many q s := by
  induction hn : s.length using Nat.strongRecOn generalizing s with
  | _ n ih =>
      subst hn
      rw [many, many, h s (Nat.le_refl _)]
      split
      · rename_i a r hread
        split
        · rename_i hlt
          rw [ih r.length hlt (fun t ht => h t (Nat.le_trans ht hlt.le)) rfl]
        · rfl
      · rfl

end

end Reader

open Reader

/-! ## Tokens -/

theorem blanks_shrinks : blanks.Shrinks := by
  intro s a r h
  cases h
  exact length_skipBlanks_le s

theorem word_moves {text : List Char} (hne : text ≠ []) : (word text).Moves := by
  intro s a r h
  unfold Reads word at h
  split at h
  · rename_i r' hfront
    cases h
    obtain rfl := List.isPrefixOf?_eq_some_iff_append_eq.mp hfront
    have hpos : 0 < text.length := List.length_pos_iff.mpr hne
    rw [List.length_append]
    omega
  · cases h

theorem char_moves (c : Char) : (char c).Moves := word_moves (by simp)

theorem takeWhile1_moves (p : Char → Bool) : (takeWhile1 p).Moves := by
  intro s a r h
  unfold Reads takeWhile1 at h
  split at h
  · cases h
  · rename_i hne
    cases h
    have hlength := congrArg List.length (List.takeWhile_append_dropWhile (p := p) (l := s))
    have hpos : 0 < (s.takeWhile p).length := List.length_pos_iff.mpr (by simpa using hne)
    rw [List.length_append] at hlength
    omega

theorem spaces_moves : spaces.Moves := (takeWhile1_moves _).bind fun _ => .pure _

theorem spacesOrLines_moves : spacesOrLines.Moves := (takeWhile1_moves _).bind fun _ => .pure _

theorem identifier_moves : identifier.Moves := by
  intro s name r h
  obtain ⟨⟨c, text, heq, -⟩, rfl, -⟩ := identifier_inv h
  rw [heq, List.length_append, List.length_cons]
  omega

theorem keyword_moves {upper lower : String} (hk : IsKeyword upper lower)
    (hne : upper.toList ≠ []) : (keyword upper lower).Moves := by
  intro s a r h
  unfold Reads at h
  rw [keyword_apply hk] at h
  split at h
  · rename_i hrun
    cases h
    have hpos : 0 < upper.toList.length := List.length_pos_iff.mpr hne
    have hsize : (s.takeWhile isNamePart).length = upper.toList.length := by
      rcases hrun with hrun | hrun
      · rw [hrun]
      · rw [hrun, hk.length_eq]
    have hlength := congrArg List.length
      (List.takeWhile_append_dropWhile (p := isNamePart) (l := s))
    rw [List.length_append] at hlength
    omega
  · cases h

/-- The text between quotation marks ends with the closing one, whatever stands behind it. -/
theorem stringBody_split {s r acc : List Char} {text : String}
    (h : stringBody s acc = .ok (text, r)) :
    ∃ body, s = body ++ r ∧ ∀ t, stringBody (body ++ t) acc = .ok (text, t) := by
  fun_induction stringBody s acc with
  | case1 => cases h
  | case2 =>
      cases h
      exact ⟨['\"'], rfl, fun t => by simp [stringBody]⟩
  | case3 _ _ ih | case4 _ _ ih | case5 _ _ ih | case6 _ _ ih =>
      obtain ⟨body, rfl, hbody⟩ := ih h
      exact ⟨_ :: _ :: body, rfl, fun t => (by simp [stringBody] : _ = _).trans (hbody t)⟩
  | case7 c r acc hquote hslash hn ht ih =>
      obtain ⟨body, rfl, hbody⟩ := ih h
      refine ⟨'\\' :: c :: body, rfl, fun t => ?_⟩
      rw [List.cons_append, List.cons_append, stringBody]
      · exact hbody t
      all_goals assumption
  | case8 c r acc hquote _ _ _ _ hescape ih =>
      have hslash : c ≠ '\\' := by
        rintro rfl
        cases r with
        | nil => cases h
        | cons d r => exact hescape d r rfl rfl
      obtain ⟨body, rfl, hbody⟩ := ih h
      refine ⟨c :: body, rfl, fun t => ?_⟩
      rw [List.cons_append, stringBody]
      · exact hbody t
      · exact hquote
      all_goals
        intros
        contradiction

theorem stringLiteral_moves : stringLiteral.Moves :=
  (char_moves _).bind fun _ s text r h => by
    obtain ⟨body, rfl, -⟩ := stringBody_split h
    simp

theorem orReject_shrinks {α : Type} (o : Option α) : (orReject o).Shrinks := by
  cases o with
  | some a => exact .pure a
  | none =>
      intro s a r h
      cases h

theorem negativeNumber_moves : negativeNumber.Moves :=
  (char_moves _).bind fun _ => (takeWhile1_moves _).shrinks.bind fun digits => by
    split
    · exact orReject_shrinks _
    · exact orReject_shrinks _

theorem pointNumber_moves : pointNumber.Moves :=
  (takeWhile1_moves _).bind fun _ => (char_moves _).shrinks.bind fun _ =>
    (takeWhile1_moves _).shrinks.bind fun _ => .pure _

/-- The digits of a whole number behind its sign. -/
def digitsBehind? (sign : List Char) : List Char → Option (List Char × List Char)
  | '0' :: r => if sign.isEmpty then some (['0'], r) else none
  | c :: r =>
    if c.isDigit then some (sign ++ c :: r.takeWhile Char.isDigit, r.dropWhile Char.isDigit)
    else none
  | [] => none

/-- The sign of a whole number, and what is left behind it. -/
def splitSign : List Char → List Char × List Char
  | '+' :: r => (['+'], r)
  | '-' :: r => (['-'], r)
  | r => ([], r)

theorem integerDigits?_eq (s : List Char) :
    integerDigits? s = digitsBehind? (splitSign s).1 (splitSign s).2 := rfl

theorem length_splitSign_le (s : List Char) : (splitSign s).2.length ≤ s.length := by
  unfold splitSign
  split <;> simp

theorem length_of_digitsBehind? {sign s digits r : List Char}
    (h : digitsBehind? sign s = some (digits, r)) : r.length < s.length := by
  unfold digitsBehind? at h
  split at h
  · split at h <;> cases h
    simp
  · split at h <;> cases h
    exact Nat.lt_succ_of_le (List.length_dropWhile_le _ _)
  · cases h

theorem length_of_integerDigits? {s digits r : List Char}
    (h : integerDigits? s = some (digits, r)) : r.length < s.length := by
  rw [integerDigits?_eq] at h
  exact Nat.lt_of_lt_of_le (length_of_digitsBehind? h) (length_splitSign_le s)

theorem integer_moves : integer.Moves := by
  intro s n r h
  unfold Reads integer at h
  split at h
  · rename_i digits r' hdigits
    split at h
    · cases h
      exact length_of_integerDigits? hdigits
    · cases h
  · cases h

theorem value_moves : value.Moves :=
  blanks_shrinks.bind_moves fun _ => Moves.expecting _ <|
    (stringLiteral_moves.map _).orElse <|
      ((word_moves (by decide)).bind fun _ => .pure _).orElse <|
        ((word_moves (by decide)).bind fun _ => .pure _).orElse <|
          negativeNumber_moves.orElse <| pointNumber_moves.orElse <| integer_moves.map _

/-! ## Conditions -/

theorem length_of_comparator? {s r : List Char} {op : Comparator}
    (h : comparator? s = some (op, r)) : r.length < s.length := by
  unfold comparator? at h
  split at h <;> cases h <;> simp only [List.length_cons] <;> omega

theorem comparisonOrReference_moves : comparisonOrReference.Moves := by
  intro s c r h
  obtain ⟨name, rest, hname, -⟩ := h.of_bind
  have hlt := identifier_moves _ _ _ hname
  unfold Reads at h
  rw [comparisonOrReference_apply hname] at h
  split at h
  · rename_i op t hop
    obtain ⟨literal, hliteral, -⟩ := Reads.of_map h
    have hvalue := value_moves _ _ _ hliteral.of_commit
    have hoperator := length_of_comparator? hop
    have hblanks := length_skipBlanks_le rest
    omega
  · cases h
    exact hlt

section

variable {operand : Reader Condition}

theorem primary_moves {inner : Reader Condition} (hi : inner.Shrinks) : (primary inner).Moves :=
  blanks_shrinks.bind_moves fun _ => Moves.expecting _ <|
    ((char_moves _).bind fun _ => hi.bind fun _ => blanks_shrinks.bind fun _ =>
      (char_moves _).shrinks.bind fun _ => .pure _).orElse comparisonOrReference_moves

/-- Another operand of a chain. -/
def further (upper lower : String) (operand : Reader Condition) : Reader Condition := do
  blanks
  keyword upper lower
  commit operand

theorem further_moves {upper lower : String} (hk : IsKeyword upper lower)
    (hne : upper.toList ≠ []) (ho : operand.Shrinks) : (further upper lower operand).Moves :=
  blanks_shrinks.bind_moves fun _ => (keyword_moves hk hne).bind fun _ => ho.commit

theorem chain_shrinks (upper lower : String) (join : Condition → Condition → Condition)
    (ho : operand.Shrinks) : (chain upper lower join operand).Shrinks :=
  ho.bind fun _ => (Shrinks.many _).bind fun _ => .pure _

theorem disjunction_shrinks (ho : operand.Shrinks) : (disjunction operand).Shrinks :=
  blanks_shrinks.bind fun _ => chain_shrinks _ _ _ (chain_shrinks _ _ _ ho)

end

theorem unary_moves : Moves unary := by
  intro s
  induction hn : s.length using Nat.strongRecOn generalizing s with
  | _ n ih =>
      subst hn
      have hbelow : (below s.length).Shrinks := by
        intro t c r h
        obtain ⟨hlt, h⟩ := of_below_reads h
        exact (ih t.length hlt t rfl c r h).le
      intro c r h
      unfold Reads at h
      rw [unary_apply] at h
      -- what a bounded `unary` is made of moves on, whatever it reads
      refine (?_ : Moves _) s c r h
      intro t c r h
      obtain ⟨found, rest, hfound, h⟩ := (of_after_blanks h).of_bind
      have hle := length_skipBlanks_le t
      rcases hfound.of_optional with ⟨⟨⟩, rfl, hkeyword⟩ | ⟨rfl, rfl, -⟩
      · have hlt := keyword_moves isKeyword_not (by decide) _ _ _ hkeyword
        have hinner := hbelow.commit.map Condition.not _ _ _ h
        omega
      · have hlt := primary_moves (disjunction_shrinks hbelow) _ _ _ h
        omega

theorem condition_shrinks : condition.Shrinks := disjunction_shrinks unary_moves.shrinks

/-! ### The equation of the grammar -/

/-- Chains agree if their operands do, on the text and on all shorter ones. -/
theorem chain_congr {upper lower : String} (hk : IsKeyword upper lower)
    (hne : upper.toList ≠ []) {join : Condition → Condition → Condition}
    {p q : Reader Condition} (hq : q.Shrinks) {s : List Char}
    (h : ∀ t : List Char, t.length ≤ s.length → p t = q t) :
    chain upper lower join p s = chain upper lower join q s := by
  have hfurther (t : List Char) (ht : t.length ≤ s.length) :
      further upper lower p t = further upper lower q t := by
    refine bind_congr rfl fun _ r hblanks => bind_congr rfl fun _ r' hkeyword => ?_
    have hle := blanks_shrinks _ _ _ hblanks
    have hlt := keyword_moves hk hne _ _ _ hkeyword
    exact commit_congr (h r' (by omega))
  unfold chain
  refine bind_congr (h s (Nat.le_refl _)) fun first r hfirst => ?_
  have hmany : many (further upper lower p) r = many (further upper lower q) r :=
    many_congr fun t ht => hfurther t (Nat.le_trans ht (hq _ _ _ hfirst))
  exact bind_congr hmany fun _ _ _ => rfl

theorem disjunction_congr {p q : Reader Condition} (hq : q.Shrinks) {s : List Char}
    (h : ∀ t : List Char, t.length ≤ s.length → p t = q t) : disjunction p s = disjunction q s := by
  refine bind_congr rfl fun _ r hblanks => ?_
  have hle := blanks_shrinks _ _ _ hblanks
  refine chain_congr isKeyword_or (by decide) (chain_shrinks _ _ _ hq) fun t ht => ?_
  exact chain_congr isKeyword_and (by decide) hq fun t' ht' => h t' (by omega)

theorem below_eq {n : Nat} {s : List Char} (h : s.length < n) : below n s = unary s := by
  unfold below
  rw [if_pos h]

/-- **Negations and primaries are read as the grammar says.** -/
theorem unary_eq : unary = (do
    blanks
    match ← optional (keyword "NOT" "not") with
    | some () => Condition.not <$> commit unary
    | none => primary condition : Reader Condition) := by
  funext s
  rw [unary_apply]
  refine bind_congr rfl fun _ r hblanks => bind_congr rfl fun found r' hfound => ?_
  have hle := blanks_shrinks _ _ _ hblanks
  rcases hfound.of_optional with ⟨⟨⟩, rfl, hkeyword⟩ | ⟨rfl, rfl, -⟩
  · -- what stands behind the keyword is shorter
    have hlt := keyword_moves isKeyword_not (by decide) _ _ _ hkeyword
    exact bind_congr (commit_congr (below_eq (by omega))) fun _ _ _ => rfl
  · -- and so is what stands behind the parenthesis
    refine bind_congr rfl fun _ t hblanks' => expecting_congr (orElse_congr ?_ rfl)
    have hle' := blanks_shrinks _ _ _ hblanks'
    refine bind_congr rfl fun _ u hparen => bind_congr ?_ fun _ _ _ => rfl
    have hlt := char_moves _ _ _ _ hparen
    exact disjunction_congr unary_moves.shrinks fun v hv => below_eq (by omega)

/-! ## Items -/

theorem operand_moves : operand.Moves :=
  blanks_shrinks.bind_moves fun _ =>
    ((value_moves.map _).orElse (identifier_moves.map _)).expecting _

theorem action_moves : action.Moves :=
  blanks_shrinks.bind_moves fun _ =>
    ((word_moves (by decide)).bind fun _ => spaces_moves.shrinks.bind fun _ =>
      (identifier_moves.shrinks.commit.expecting _).bind fun _ => blanks_shrinks.bind fun _ =>
        (char_moves _).shrinks.commit.bind fun _ => operand_moves.shrinks.commit.bind fun _ =>
          .pure _).orElse <|
    ((word_moves (by decide)).bind fun _ => spaces_moves.shrinks.bind fun _ =>
      (stringLiteral_moves.shrinks.commit.expecting _).bind fun _ => .pure _).orElse <|
    (word_moves (by decide)).bind fun _ => spaces_moves.shrinks.bind fun _ =>
      (stringLiteral_moves.shrinks.commit.expecting _).bind fun _ => .pure _

theorem enumType_shrinks : enumType.Shrinks := by
  have hvariant : variant.Shrinks :=
    blanks_shrinks.bind fun _ => identifier_moves.shrinks.bind fun _ => blanks_shrinks.bind
      fun _ => .pure _
  have hvariants : variants.Shrinks :=
    hvariant.bind fun _ => (Shrinks.many _).bind fun _ => .pure _
  exact (word_moves (by decide)).shrinks.bind fun _ => blanks_shrinks.bind fun _ =>
    (char_moves _).shrinks.bind fun _ => (hvariants.commit.expecting _).bind fun _ =>
      (char_moves _).shrinks.commit.bind fun _ => .pure _

theorem field_moves : field.Moves := by
  have htype : fieldType.Shrinks :=
    blanks_shrinks.bind fun _ =>
      (enumType_shrinks.orElse (identifier_moves.shrinks.map _)).expecting _
  exact blanks_shrinks.bind_moves fun _ => identifier_moves.bind fun _ => blanks_shrinks.bind
    fun _ => (char_moves _).shrinks.bind fun _ => htype.commit.bind fun _ => .pure _

theorem item_moves : item.Moves := by
  have hpriority : priority.Shrinks :=
    blanks_shrinks.bind fun _ => (char_moves _).shrinks.bind fun _ => blanks_shrinks.bind fun _ =>
      (word_moves (by decide)).shrinks.bind fun _ => blanks_shrinks.bind fun _ =>
        integer_moves.shrinks.commit.bind fun _ => blanks_shrinks.bind fun _ =>
          (char_moves _).shrinks.commit.bind fun _ => orReject_shrinks _
  have hconsequence : consequence.Shrinks :=
    blanks_shrinks.bind fun _ => (word_moves (by decide)).shrinks.bind fun _ =>
      spacesOrLines_moves.shrinks.bind fun _ => action_moves.many1.shrinks.commit.expecting _
  have hname (what : Expectation) : (identifier.commit.expecting what).Shrinks :=
    identifier_moves.shrinks.commit.expecting what
  have hpackage : packageItem.Moves :=
    blanks_shrinks.bind_moves fun _ => (word_moves (by decide)).bind fun _ =>
      spaces_moves.shrinks.bind fun _ => (hname _).bind fun _ => .pure _
  have hshape : shapeItem.Moves :=
    blanks_shrinks.bind_moves fun _ => (word_moves (by decide)).bind fun _ =>
      spaces_moves.shrinks.bind fun _ => (hname _).bind fun _ => (Shrinks.many _).bind fun _ =>
        blanks_shrinks.bind fun _ =>
          ((word_moves (by decide)).shrinks.commit.expecting _).bind fun _ => .pure _
  have hrule : ruleItem.Moves :=
    blanks_shrinks.bind_moves fun _ => (word_moves (by decide)).bind fun _ =>
      spaces_moves.shrinks.bind fun _ => (hname _).bind fun _ => hpriority.optional.bind fun _ =>
        blanks_shrinks.bind fun _ => (char_moves _).shrinks.commit.bind fun _ =>
          (condition_shrinks.commit.expecting _).bind fun _ => hconsequence.optional.bind fun _ =>
            .pure _
  exact hpackage.orElse (hshape.orElse hrule)

end Rulebook.Source
