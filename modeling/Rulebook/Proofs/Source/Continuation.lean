/-
  Proofs/Source/Continuation.lean --- what is read does not depend on what follows on later lines.

  A text `s` with a line end and a text `t` behind it is `s ++ '\n' :: t`.  Most tokens do not
  look beyond their line (`InLine`).  Blanks do, and so do all readers that try something
  behind blanks, at the end of `s` in particular; what they find there is the beginning of `t`,
  which is an item or the end (`Fronts`).  What is said of such readers is therefore conditional
  on what they leave, and tells what they began with, so that it carries over from one
  reader to the one before it (`Carries`).
-/
import Rulebook.Proofs.Source.Progress

set_option autoImplicit false

namespace Rulebook.Source

open Reader

/-! ## Blanks in front of more text -/

/-- The text begins with a character of a class. -/
def Begins (P : Char → Bool) (s : List Char) : Prop := ∃ c r, s = c :: r ∧ P c = true

/-- Behind the blanks, the text begins with a character of a class. -/
def Behind (P : Char → Bool) (s : List Char) : Prop := Begins P (skipBlanks s)

section

variable {P P' : Char → Bool} {s t : List Char}

theorem Begins.imp (h : Begins P s) (himp : ∀ c, P c = true → P' c = true) : Begins P' s := by
  obtain ⟨c, r, rfl, hc⟩ := h
  exact ⟨c, r, rfl, himp c hc⟩

theorem Behind.imp (h : Behind P s) (himp : ∀ c, P c = true → P' c = true) : Behind P' s :=
  Begins.imp h himp

/-- A character that the class does not have is not at the front, whatever is appended. -/
theorem Begins.head?_ne (h : Begins P s) {c : Char} (hc : P c = false) (r : List Char) :
    (s ++ r).head? ≠ some c := by
  obtain ⟨d, x, rfl, hd⟩ := h
  exact head?_ne_of_class hd hc

theorem afterComment?_line {r : List Char} (h : afterComment? s = some r) :
    afterComment? (s ++ '\n' :: t) = some (r ++ '\n' :: t) := by
  induction s using afterComment?.induct generalizing r with
  | case1 =>
      cases h
      simp [afterComment?]
  | case2 s | case3 s =>
      cases h
      simp [afterComment?]
  | case4 s hne =>
      rw [afterComment?] at h
      · cases h
      · exact hne
  | case5 c s hnewline hpair hreturn ih =>
      rw [afterComment?] at h
      · rw [List.cons_append, afterComment?]
        · exact ih h
        all_goals simp_all
      all_goals simp_all

/-- A comment that is open at the end of a text either stays open, or its carriage return is
completed by the line feed. -/
theorem afterComment?_line_of_none (h : afterComment? s = none) :
    afterComment? (s ++ '\n' :: t) = none ∨
      afterComment? (s ++ '\n' :: t) = some ('\r' :: '\n' :: t) := by
  induction s using afterComment?.induct with
  | case1 | case2 | case3 => simp [afterComment?] at h
  | case4 s hne =>
      cases s with
      | nil => exact Or.inr (by simp [afterComment?])
      | cons c s =>
          refine Or.inl ?_
          rw [List.cons_append, List.cons_append, afterComment?]
          rintro r hr
          cases hr
          exact hne s rfl
  | case5 c s hnewline hpair hreturn ih =>
      rw [afterComment?] at h
      · rw [List.cons_append, afterComment?]
        · exact ih h
        all_goals simp_all
      all_goals simp_all

/-- **Behind the blanks of a longer text** there is what was there, or the text that was
appended: that, if nothing but blanks was there, or a comment that is open. -/
theorem skipBlanks_line (s t : List Char) :
    skipBlanks s ≠ [] ∧ skipBlanks (s ++ '\n' :: t) = skipBlanks s ++ '\n' :: t ∨
      (skipBlanks s = [] ∨ (skipBlanks s).head? = some '#') ∧
        skipBlanks (s ++ '\n' :: t) = skipBlanks t := by
  induction s using skipBlanks.induct with
  | case1 => exact Or.inr ⟨Or.inl skipBlanks_nil, skipBlanks_newline t⟩
  | case2 c r hblank ih =>
      rw [List.cons_append, skipBlanks_of_blank _ hblank, skipBlanks_of_blank _ hblank]
      exact ih
  | case3 r r' hcomment _ ih =>
      rw [List.cons_append, skipBlanks_of_comment hcomment,
        skipBlanks_of_comment (afterComment?_line hcomment)]
      exact ih
  | case4 r hcomment _ =>
      rw [List.cons_append, skipBlanks_of_open_comment hcomment]
      rcases afterComment?_line_of_none (t := t) hcomment with hopen | hclosed
      · rw [skipBlanks_of_open_comment hopen]
        exact Or.inl ⟨List.cons_ne_nil _ _, rfl⟩
      · rw [skipBlanks_of_comment hclosed, skipBlanks_of_blank _ (by rfl), skipBlanks_newline]
        exact Or.inr ⟨Or.inr rfl, rfl⟩
  | case5 c r hblank hcomment =>
      have hsolid : isBlank c = false := by simpa using hblank
      rw [List.cons_append, skipBlanks_of_solid _ hsolid hcomment,
        skipBlanks_of_solid _ hsolid hcomment]
      exact Or.inl ⟨List.cons_ne_nil _ _, rfl⟩

/-- What begins with no comment behind its blanks still stands there. -/
theorem Behind.skipBlanks_line (h : Behind P s) (hcomment : P '#' = false) :
    skipBlanks (s ++ '\n' :: t) = skipBlanks s ++ '\n' :: t := by
  rcases Source.skipBlanks_line s t with ⟨-, heq⟩ | ⟨hnone, -⟩
  · exact heq
  · obtain ⟨c, r, hs, hc⟩ := h
    rw [hs] at hnone
    rcases hnone with hnone | hnone
    · cases hnone
    · exact absurd hnone (head?_ne_of_class hc hcomment)

theorem skipBlanks_line_of_nil (h : skipBlanks s = []) :
    skipBlanks (s ++ '\n' :: t) = skipBlanks t := by
  rcases skipBlanks_line s t with ⟨hne, -⟩ | ⟨-, heq⟩
  · exact absurd h hne
  · exact heq

/-- If an item or the end follows on a later line, a character that begins none is behind the
blanks only if it was there. -/
theorem head?_skipBlanks_line (ht : Fronts t) {c : Char} (hc : c ∉ ['p', 'd', 'r'])
    (h : (skipBlanks s).head? ≠ some c) : (skipBlanks (s ++ '\n' :: t)).head? ≠ some c := by
  rcases skipBlanks_line s t with ⟨hne, heq⟩ | ⟨-, heq⟩
  · obtain ⟨d, r, hs⟩ := List.exists_cons_of_ne_nil hne
    rw [heq, hs]
    rw [hs] at h
    exact h
  · rw [heq]
    exact ht.head?_ne hc

theorem Fronts.line (hs : Fronts s) (ht : Fronts t) : Fronts (s ++ '\n' :: t) := by
  intro c hc
  by_contra hnone
  exact head?_skipBlanks_line ht hnone (hs.head?_ne hnone) hc

end

/-! ## Tokens in front of more text -/

namespace Reader

variable {α β : Type}

/-- Whether the reader reads or refuses is decided within the line, and so is what it reads. -/
structure InLine (t : List Char) (p : Reader α) : Prop where
  reads : ∀ {s a r}, p.Reads s a r → p.Reads (s ++ '\n' :: t) a (r ++ '\n' :: t)
  refuses : ∀ {s}, p.Refuses s → p.Refuses (s ++ '\n' :: t)

section

variable {t : List Char} {p q : Reader α} {f : α → Reader β}

theorem Refuses.of_bind {s : List Char} (h : (p >>= f).Refuses s) :
    p.Refuses s ∨ ∃ a r, p.Reads s a r ∧ (f a).Refuses r := by
  obtain ⟨e, herror, hfree⟩ := h
  rw [bind_apply] at herror
  split at herror
  · rename_i a r hread
    exact Or.inr ⟨a, r, hread, e, herror, hfree⟩
  · rename_i e' hp
    cases herror
    exact Or.inl ⟨e, hp, hfree⟩

theorem Refuses.of_map {g : α → β} {s : List Char} (h : (g <$> p).Refuses s) : p.Refuses s := by
  rcases h.of_bind with h | ⟨a, r, -, h⟩
  · exact h
  · exact absurd h Reads.pure.not_refuses

theorem Refuses.of_expecting {what : Expectation} {s : List Char}
    (h : (p.expecting what).Refuses s) : p.Refuses s := by
  obtain ⟨e, herror, hfree⟩ := h
  unfold Reader.expecting at herror
  split at herror
  · cases herror
  · rename_i e' hp
    cases herror
    exact ⟨e', hp, hfree⟩

theorem Refuses.of_orElse {s : List Char} (h : (p <|> q).Refuses s) :
    p.Refuses s ∧ q.Refuses s := by
  obtain ⟨e, herror, hfree⟩ := h
  change Reader.orElse p (fun _ => q) s = _ at herror
  unfold Reader.orElse at herror
  split at herror
  · cases herror
  · rename_i e' hp
    split at herror
    · rename_i hcommitted
      cases herror
      rw [hfree] at hcommitted
      cases hcommitted
    · rename_i hfree'
      exact ⟨⟨e', hp, by simpa using hfree'⟩, e, herror, hfree⟩

/-- Who is committed does not refuse. -/
theorem not_refuses_commit {s : List Char} : ¬ p.commit.Refuses s := by
  rintro ⟨e, herror, hfree⟩
  unfold Reader.commit at herror
  split at herror
  · cases herror
  · cases herror
    cases hfree

theorem InLine.pure (a : α) : InLine t (Pure.pure a) where
  reads h := by
    cases h
    exact .pure
  refuses h := absurd h Reads.pure.not_refuses

theorem InLine.bind (hp : InLine t p) (hf : ∀ a, InLine t (f a)) : InLine t (p >>= f) where
  reads h := by
    obtain ⟨a, r, hread, hrest⟩ := h.of_bind
    exact (hp.reads hread).bind ((hf a).reads hrest)
  refuses h := by
    rcases h.of_bind with hp' | ⟨a, r, hread, hrest⟩
    · exact (hp.refuses hp').bind
    · exact (hp.reads hread).bind_refuses ((hf a).refuses hrest)

theorem InLine.map (g : α → β) (hp : InLine t p) : InLine t (g <$> p) := hp.bind fun _ => .pure _

theorem InLine.orElse (hp : InLine t p) (hq : InLine t q) : InLine t (p <|> q) where
  reads h := by
    rcases h.of_orElse with h | ⟨hrefuse, h⟩
    · exact (hp.reads h).orElse
    · exact (hp.refuses hrefuse).orElse (hq.reads h)
  refuses h := by
    obtain ⟨h, h'⟩ := h.of_orElse
    exact (hp.refuses h).orElse_refuses (hq.refuses h')

end

end Reader

section

variable {t : List Char}

theorem takeWhile_line {P : Char → Bool} (hP : P '\n' = false) (s : List Char) :
    (s ++ '\n' :: t).takeWhile P = s.takeWhile P := by
  induction s with
  | nil => simp [hP]
  | cons c s ih => simp only [List.cons_append, List.takeWhile_cons, ih]

theorem dropWhile_line {P : Char → Bool} (hP : P '\n' = false) (s : List Char) :
    (s ++ '\n' :: t).dropWhile P = s.dropWhile P ++ '\n' :: t := by
  induction s with
  | nil => simp [hP]
  | cons c s ih =>
      simp only [List.cons_append, List.dropWhile_cons, ih]
      split <;> rfl

theorem inLine_takeWhile {P : Char → Bool} (hP : P '\n' = false) : InLine t (takeWhile P) where
  reads h := by
    cases h
    unfold Reads takeWhile
    rw [takeWhile_line hP, dropWhile_line hP]
  refuses h := by
    obtain ⟨e, herror, -⟩ := h
    cases herror

theorem inLine_takeWhile1 {P : Char → Bool} (hP : P '\n' = false) :
    InLine t (takeWhile1 P) where
  reads h := by
    unfold Reads takeWhile1 at h ⊢
    rw [takeWhile_line hP, dropWhile_line hP]
    split at h
    · cases h
    · rename_i hsome
      cases h
      rw [if_neg hsome]
  refuses {s} h := by
    obtain ⟨e, herror, -⟩ := h
    refine ⟨⟨s ++ '\n' :: t, false, []⟩, ?_, rfl⟩
    unfold takeWhile1 at herror ⊢
    rw [takeWhile_line hP]
    split at herror
    · rename_i hnone
      rw [if_pos hnone]
    · cases herror

theorem inLine_word {text : List Char} (hline : '\n' ∉ text) : InLine t (word text) where
  reads {s a r} h := by
    unfold Reads word at h
    split at h
    · rename_i r' hfront
      cases h
      obtain rfl := List.isPrefixOf?_eq_some_iff_append_eq.mp hfront
      rw [List.append_assoc]
      exact word_reads text _
    · cases h
  refuses {s} h := by
    refine word_refuses fun hfront => ?_
    have hnone : ¬ text <+: s := by
      rintro ⟨r, rfl⟩
      exact (word_reads text r).not_refuses h
    rcases List.prefix_or_prefix_of_prefix hfront (List.prefix_append s ('\n' :: t)) with h' | h'
    · exact hnone h'
    · -- the word would reach beyond the text, over the line end
      obtain ⟨x, rfl⟩ := h'
      rw [List.prefix_append_right_inj] at hfront
      cases x with
      | nil => exact hnone (by simp)
      | cons c x =>
          obtain ⟨rfl, -⟩ := List.cons_prefix_cons.mp hfront
          exact hline (by simp)

theorem inLine_char {c : Char} (hc : c ≠ '\n') : InLine t (char c) :=
  inLine_word (by simpa using hc.symm)

theorem inLine_spaces : InLine t spaces := (inLine_takeWhile1 rfl).bind fun _ => .pure _

theorem inLine_identifier : InLine t identifier :=
  (inLine_takeWhile1 rfl).bind fun _ => (inLine_takeWhile rfl).bind fun _ => .pure _

theorem inLine_keyword {upper lower : String} (hk : IsKeyword upper lower) :
    InLine t (keyword upper lower) where
  reads {s a r} h := by
    unfold Reads at h ⊢
    rw [keyword_apply hk] at h ⊢
    rw [takeWhile_line rfl, dropWhile_line rfl]
    split at h
    · rename_i hword
      cases h
      rw [if_pos hword]
    · cases h
  refuses {s} h := by
    rw [keyword_refuses_iff hk] at h ⊢
    rwa [takeWhile_line rfl]

/-! ### Numbers -/

theorem inLine_orReject {α : Type} (o : Option α) : InLine t (orReject o) := by
  cases o with
  | some a => exact .pure a
  | none =>
      refine ⟨fun h => ?_, fun h => ?_⟩
      · cases h
      · obtain ⟨e, herror, hfree⟩ := h
        cases herror
        cases hfree

theorem inLine_negativeNumber : InLine t negativeNumber :=
  (inLine_char (by decide)).bind fun _ => (inLine_takeWhile1 rfl).bind fun digits => by
    split
    · exact inLine_orReject _
    · exact inLine_orReject _

theorem inLine_pointNumber : InLine t pointNumber :=
  (inLine_takeWhile1 rfl).bind fun _ => (inLine_char (by decide)).bind fun _ =>
    (inLine_takeWhile1 rfl).bind fun _ => .pure _

/-- What is left of a text, in front of more text. -/
def leaveLine (t : List Char) (digits : List Char × List Char) : List Char × List Char :=
  (digits.1, digits.2 ++ '\n' :: t)

theorem digitsBehind?_line (sign s : List Char) :
    digitsBehind? sign (s ++ '\n' :: t) = (digitsBehind? sign s).map (leaveLine t) := by
  cases s with
  | nil => rfl
  | cons c r =>
      by_cases hzero : c = '0'
      · subst hzero
        rw [List.cons_append, digitsBehind?, digitsBehind?]
        split <;> rfl
      · have hstep (x : List Char) : digitsBehind? sign (c :: x) =
            if c.isDigit then some (sign ++ c :: x.takeWhile Char.isDigit, x.dropWhile Char.isDigit)
            else none := by
          rw [digitsBehind?]
          exact hzero
        rw [List.cons_append, hstep, hstep, takeWhile_line rfl, dropWhile_line rfl]
        split <;> rfl

theorem splitSign_line (s : List Char) :
    splitSign (s ++ '\n' :: t) = leaveLine t (splitSign s) := by
  cases s with
  | nil => rfl
  | cons c r =>
      by_cases hplus : c = '+'
      · subst hplus
        rfl
      by_cases hminus : c = '-'
      · subst hminus
        rfl
      · simp [splitSign, leaveLine, hplus, hminus]

theorem integerDigits?_line (s : List Char) :
    integerDigits? (s ++ '\n' :: t) = (integerDigits? s).map (leaveLine t) := by
  rw [integerDigits?_eq, splitSign_line]
  exact digitsBehind?_line _ _

theorem inLine_integer : InLine t integer where
  reads {s n r} h := by
    unfold Reads integer at h ⊢
    rw [integerDigits?_line]
    split at h
    · rename_i digits r' hdigits
      rw [hdigits]
      split at h
      · rename_i m hvalue
        cases h
        simp [leaveLine, hvalue]
      · cases h
    · cases h
  refuses {s} h := by
    obtain ⟨e, herror, -⟩ := h
    refine ⟨⟨s ++ '\n' :: t, false, []⟩, ?_, rfl⟩
    unfold integer at herror ⊢
    rw [integerDigits?_line]
    split at herror
    · rename_i digits r' hdigits
      rw [hdigits]
      split at herror
      · cases herror
      · rename_i hvalue
        simp [leaveLine, hvalue]
    · rename_i hnone
      rw [hnone]
      rfl

end

/-! ## Readers in front of more text -/

namespace Reader

variable {α β : Type}

/-- What the reader reads begins with a character of a class. -/
def Opens (p : Reader α) (P : Char → Bool) : Prop := ∀ s a r, p.Reads s a r → Begins P s

section

variable {p q : Reader α} {f : α → Reader β} {P P' : Char → Bool}

theorem Opens.imp (hp : p.Opens P) (himp : ∀ c, P c = true → P' c = true) : p.Opens P' :=
  fun s a r h => (hp s a r h).imp himp

theorem Opens.bind (hp : p.Opens P) : (p >>= f).Opens P := by
  intro s b t h
  obtain ⟨a, r, hread, -⟩ := h.of_bind
  exact hp s a r hread

theorem Opens.map (g : α → β) (hp : p.Opens P) : (g <$> p).Opens P := hp.bind

theorem Opens.orElse (hp : p.Opens P) (hq : q.Opens P) : (p <|> q).Opens P := by
  intro s a r h
  rcases h.of_orElse with h | ⟨-, h⟩
  · exact hp s a r h
  · exact hq s a r h

end

/-- What the first reader reads from a text, leaving a rest with one property, the second one
reads in front of more text, and the text has another property. -/
def Carries (t : List Char) (p q : Reader α) (Q R : List Char → Prop) : Prop :=
  ∀ s a r, p.Reads s a r → R r → Q s ∧ q.Reads (s ++ '\n' :: t) a (r ++ '\n' :: t)

section

variable {t : List Char} {p q p' q' : Reader α} {f g : α → Reader β}
  {Q Q' M R R' : List Char → Prop}

theorem Carries.mono (h : Carries t p q Q R) (hQ : ∀ s, Q s → Q' s) (hR : ∀ r, R' r → R r) :
    Carries t p q Q' R' := by
  intro s a r hread hr
  obtain ⟨hs, hread'⟩ := h s a r hread (hR r hr)
  exact ⟨hQ s hs, hread'⟩

theorem Carries.weaken (h : Carries t p q Q R) (hQ : ∀ s, Q s → Q' s) : Carries t p q Q' R :=
  h.mono hQ fun _ => id

theorem InLine.carries {P : Char → Bool} (h : InLine t p) (hP : p.Opens P) :
    Carries t p p (Begins P) R :=
  fun s a r hread _ => ⟨hP s a r hread, h.reads hread⟩

theorem Carries.pure (a : α) : Carries t (Pure.pure a) (Pure.pure a) R R := by
  intro s a' r h hr
  cases h
  exact ⟨hr, .pure⟩

theorem Carries.bind (hp : Carries t p q Q M) (hf : ∀ a, Carries t (f a) (g a) M R) :
    Carries t (p >>= f) (q >>= g) Q R := by
  intro s b x h hx
  obtain ⟨a, r, hread, hrest⟩ := h.of_bind
  obtain ⟨hr, hrest'⟩ := hf a r b x hrest hx
  obtain ⟨hs, hread'⟩ := hp s a r hread hr
  exact ⟨hs, hread'.bind hrest'⟩

theorem Carries.map (g : α → β) (hp : Carries t p q Q R) : Carries t (g <$> p) (g <$> q) Q R :=
  hp.bind fun _ => .pure _

theorem Carries.commit (hp : Carries t p q Q R) : Carries t p.commit q.commit Q R := by
  intro s a r h hr
  obtain ⟨hs, hread⟩ := hp s a r h.of_commit hr
  exact ⟨hs, hread.commit⟩

theorem Carries.expecting (what : Expectation) (hp : Carries t p q Q R) :
    Carries t (p.expecting what) (q.expecting what) Q R := by
  intro s a r h hr
  obtain ⟨hs, hread⟩ := hp s a r h.of_expecting hr
  exact ⟨hs, hread.expecting what⟩

/-- Where the second branch reads, the first one must be refused in front of more text, too. -/
theorem Carries.orElse (hp : Carries t p q Q R) (hp' : Carries t p' q' Q' R)
    (hrefuse : ∀ s, Q' s → p.Refuses s → q.Refuses (s ++ '\n' :: t)) (hQ : ∀ s, Q' s → Q s) :
    Carries t (p <|> p') (q <|> q') Q R := by
  intro s a r h hr
  rcases h.of_orElse with h | ⟨hfirst, h⟩
  · obtain ⟨hs, hread⟩ := hp s a r h hr
    exact ⟨hs, hread.orElse⟩
  · obtain ⟨hs, hread⟩ := hp' s a r h hr
    exact ⟨hQ s hs, (hrefuse s hs hfirst).orElse hread⟩

theorem Carries.optional (hp : Carries t p q Q R)
    (hrefuse : ∀ s, R s → p.Refuses s → q.Refuses (s ++ '\n' :: t)) (hQ : ∀ s, Q s → M s)
    (hR : ∀ s, R s → M s) : Carries t p.optional q.optional M R := by
  intro s o r h hr
  rcases h.of_optional with ⟨a, rfl, hsome⟩ | ⟨rfl, rfl, hnone⟩
  · obtain ⟨hs, hread⟩ := hp s a r hsome hr
    exact ⟨hQ s hs, hread.optional⟩
  · exact ⟨hR r hr, (hrefuse r hr hnone).optional⟩

/-- A repetition ends in the same place if its reader is refused there in front of more text,
too. -/
theorem Carries.many (hmoves : p.Moves) (hp : Carries t p q Q M)
    (hrefuse : ∀ s, R s → p.Refuses s → q.Refuses (s ++ '\n' :: t)) (hQ : ∀ s, Q s → M s)
    (hR : ∀ s, R s → M s) : Carries t (Reader.many p) (Reader.many q) M R := by
  intro s as x h hx
  induction as generalizing s with
  | nil =>
      obtain ⟨rfl, hnone⟩ := Reads.of_many_nil hmoves h
      exact ⟨hR x hx, (hrefuse x hx hnone).many_nil⟩
  | cons a as ih =>
      obtain ⟨r, hread, hlt, hrest⟩ := h.of_many_cons_lt
      obtain ⟨hr, hrest'⟩ := ih r hrest
      obtain ⟨hs, hread'⟩ := hp s a r hread hr
      refine ⟨hQ s hs, hread'.many_cons ?_ hrest'⟩
      rw [List.length_append, List.length_append]
      exact Nat.add_lt_add_right hlt _

end

end Reader

/-! ### Tokens -/

section

variable {t : List Char} {P : Char → Bool} {R : List Char → Prop}

/-- Any text. -/
def Anything (_ : List Char) : Prop := True

/-- The text begins with no comment. -/
abbrev Fresh : Char → Bool := (· != '#')

theorem Begins.fresh {s : List Char} (h : Begins P s) (hP : P '#' = false) : Begins Fresh s :=
  h.imp fun c hc => by simpa [Fresh] using ne_of_class hc hP

theorem Behind.fresh {s : List Char} (h : Behind P s) (hP : P '#' = false) : Behind Fresh s :=
  Begins.fresh h hP

/-- What begins as a name goes on has no blanks in front of it. -/
theorem Begins.behind {s : List Char} (h : Begins P s)
    (hP : ∀ c, P c = true → isNamePart c = true) : Behind P s := by
  obtain ⟨c, r, rfl, hc⟩ := h
  have hsolid := (solid_of_isNamePart r (hP c hc)).skipBlanks_append []
  rw [List.append_nil] at hsolid
  exact ⟨c, r, hsolid, hc⟩

/-- Blanks in front of what is no comment. -/
theorem blanks_carries (hP : P '#' = false) : Carries t blanks blanks (Behind P) (Begins P) := by
  intro s a r h hr
  cases h
  refine ⟨hr, ?_⟩
  unfold Reads
  rw [← Behind.skipBlanks_line hr hP]
  rfl

theorem blanks_carries_behind (hP : P '#' = false) :
    Carries t blanks blanks (Behind P) (Behind P) := by
  intro s a r h hr
  cases h
  refine blanks_carries hP s () (skipBlanks s) rfl ?_
  unfold Behind at hr
  rwa [skipBlanks_skipBlanks] at hr

theorem word_opens (c : Char) (text : List Char) : (word (c :: text)).Opens (· == c) := by
  intro s a r h
  unfold Reads word at h
  split at h
  · rename_i r' hfront
    obtain rfl := List.isPrefixOf?_eq_some_iff_append_eq.mp hfront
    exact ⟨c, _, rfl, by simp⟩
  · cases h

theorem word_carries {c : Char} {text : List Char} (hline : '\n' ∉ c :: text) :
    Carries t (word (c :: text)) (word (c :: text)) (Begins (· == c)) R :=
  (inLine_word hline).carries (word_opens c text)

theorem char_carries {c : Char} (hc : c ≠ '\n') : Carries t (char c) (char c) (Begins (· == c)) R :=
  word_carries (by simpa using hc.symm)

/-- What a run of characters was read from. -/
theorem takeWhile1_inv {s r text : List Char} (h : (takeWhile1 P).Reads s text r) :
    text ≠ [] ∧ (∀ c ∈ text, P c = true) ∧ (∀ c ∈ r.head?, P c = false) ∧ s = text ++ r := by
  unfold Reads takeWhile1 at h
  split at h
  · cases h
  · rename_i hsome
    cases h
    refine ⟨by simpa using hsome, fun c => List.mem_takeWhile_imp, ?_,
      List.takeWhile_append_dropWhile.symm⟩
    intro c hc
    have hnot := List.head?_dropWhile_not P s
    rw [hc] at hnot
    simpa using hnot

theorem takeWhile1_opens (P : Char → Bool) : (takeWhile1 P).Opens P := by
  intro s text r h
  obtain ⟨hne, htext, -, rfl⟩ := takeWhile1_inv h
  obtain ⟨c, x, rfl⟩ := List.exists_cons_of_ne_nil hne
  exact ⟨c, x ++ r, rfl, htext c List.mem_cons_self⟩

theorem spaces_carries : Carries t spaces spaces Anything R :=
  (inLine_spaces.carries (takeWhile1_opens _).bind).weaken fun _ _ => trivial

/-- Spaces and line ends in front of something else. -/
theorem spacesOrLines_carries : Carries t spacesOrLines spacesOrLines Anything (· ≠ []) := by
  refine Carries.bind (M := (· ≠ [])) (fun s text r h hr => ⟨trivial, ?_⟩) fun _ => .pure _
  obtain ⟨hne, htext, hend, rfl⟩ := takeWhile1_inv h
  rw [List.append_assoc]
  refine takeWhile1_reads hne htext fun d hd => hend d ?_
  obtain ⟨c, x, rfl⟩ := List.exists_cons_of_ne_nil hr
  exact hd

theorem identifier_carries : Carries t identifier identifier (Begins isNameStart) R :=
  inLine_identifier.carries (takeWhile1_opens _).bind

theorem keyword_opens {upper lower : String} (hk : IsKeyword upper lower)
    (hne : upper.toList ≠ []) : (keyword upper lower).Opens isNamePart := by
  intro s a r h
  unfold Reads at h
  rw [keyword_apply hk] at h
  split at h
  · rename_i hword
    have hlower : lower.toList ≠ [] := by
      intro hnil
      have hlength := hk.length_eq
      rw [hnil] at hlength
      exact hne (List.eq_nil_of_length_eq_zero hlength)
    have hrun : s.takeWhile isNamePart ≠ [] := by
      rcases hword with hword | hword
      · rwa [hword]
      · rwa [hword]
    cases s with
    | nil => simp at hrun
    | cons c s => exact ⟨c, s, rfl, by simpa using hrun⟩
  · cases h

theorem keyword_carries {upper lower : String} (hk : IsKeyword upper lower)
    (hne : upper.toList ≠ []) :
    Carries t (keyword upper lower) (keyword upper lower) (Begins isNamePart) R :=
  (inLine_keyword hk).carries (keyword_opens hk hne)

theorem stringLiteral_carries : Carries t stringLiteral stringLiteral (Begins (· == '\"')) R := by
  refine (char_carries (R := Anything) (by decide)).bind fun _ s text r h _ => ⟨trivial, ?_⟩
  obtain ⟨body, rfl, hbody⟩ := stringBody_split h
  rw [List.append_assoc]
  exact hbody _

end

/-! ### Literals -/

section

variable {t : List Char} {R : List Char → Prop}

theorem integer_opens : integer.Opens fun c => c.isDigit || c == '+' || c == '-' := by
  have hdigits {sign x : List Char} {result : List Char × List Char}
      (h : digitsBehind? sign x = some result) : Begins Char.isDigit x := by
    unfold digitsBehind? at h
    split at h
    · exact ⟨'0', _, rfl, rfl⟩
    · rename_i c x _
      split at h
      · rename_i hc
        exact ⟨c, x, rfl, hc⟩
      · cases h
    · cases h
  intro s n r h
  unfold Reads integer at h
  split at h
  · rename_i result hresult
    rw [integerDigits?_eq] at hresult
    unfold splitSign at hresult
    split at hresult
    · exact ⟨'+', _, rfl, rfl⟩
    · exact ⟨'-', _, rfl, rfl⟩
    · exact (hdigits hresult).imp fun c hc => by simp [hc]
  · cases h

theorem integer_carries : Carries t integer integer (Begins Fresh) R :=
  (inLine_integer.carries integer_opens).weaken fun _ h => h.fresh rfl

/-- The literals that are no texts. -/
def plainValue : Reader Value :=
  (do word "true".toList; return .bool true)
    <|> (do word "false".toList; return .bool false)
    <|> negativeNumber
    <|> pointNumber
    <|> (Value.int <$> integer)

theorem inLine_plainValue : InLine t plainValue :=
  ((inLine_word (by decide)).bind fun _ => .pure _).orElse <|
    ((inLine_word (by decide)).bind fun _ => .pure _).orElse <|
      inLine_negativeNumber.orElse <| inLine_pointNumber.orElse <| inLine_integer.map _

/-- A literal that is no text begins neither as texts nor as comments do. -/
theorem plainValue_opens : plainValue.Opens fun c => c != '\"' && c != '#' := by
  have hother {P : Char → Bool} (hquote : P '\"' = false) (hcomment : P '#' = false) (c : Char)
      (hc : P c = true) : (c != '\"' && c != '#') = true := by
    simp [ne_of_class hc hquote, ne_of_class hc hcomment]
  refine ((word_opens 't' _).bind.imp (hother rfl rfl)).orElse ?_
  refine ((word_opens 'f' _).bind.imp (hother rfl rfl)).orElse ?_
  refine ((word_opens '-' _).bind.imp (hother rfl rfl)).orElse ?_
  refine ((takeWhile1_opens _).bind.imp (hother rfl rfl)).orElse ?_
  exact (integer_opens.map _).imp (hother rfl rfl)

theorem value_carries : Carries t value value (Behind Fresh) R := by
  refine (blanks_carries rfl).bind fun _ => .expecting _ ?_
  have htext := (stringLiteral_carries (t := t) (R := R)).map Value.string
  refine (htext.weaken fun s hs => hs.fresh rfl).orElse
    (inLine_plainValue.carries plainValue_opens) ?_ ?_
  · intro s hs _
    exact (stringLiteral_refuses (hs.head?_ne rfl _)).map
  · intro s hs
    exact hs.fresh rfl

/-- A reader that is refused behind blanks is refused there. -/
theorem refuses_of_after_blanks {α : Type} {p : Reader α} {s : List Char}
    (h : (blanks >>= fun _ => p).Refuses s) : p.Refuses (skipBlanks s) := by
  rcases h.of_bind with hblanks | ⟨_, _, hblanks, h⟩
  · exact absurd hblanks (blanks_reads s).not_refuses
  · cases hblanks
    exact h

/-- A name that is read as no literal is read as none in front of more text. -/
theorem value_refuses_line {s : List Char} (hs : Behind isNameStart s) (h : value.Refuses s) :
    value.Refuses (s ++ '\n' :: t) := by
  have hplain : plainValue.Refuses (skipBlanks s) :=
    (refuses_of_after_blanks h).of_expecting.of_orElse.2
  refine (blanks_reads _).bind_refuses (.expecting _ ?_)
  rw [hs.skipBlanks_line rfl]
  exact (stringLiteral_refuses (hs.head?_ne rfl _)).map.orElse_refuses
    (inLine_plainValue.refuses hplain)

end

/-! ### Conditions -/

section

variable {t : List Char} {R : List Char → Prop}

theorem comparator?_line (s : List Char) : comparator? (s ++ '\n' :: t) =
    (comparator? s).map fun result => (result.1, result.2 ++ '\n' :: t) := by
  fun_cases comparator? s with
  | case1 | case3 | case5 | case6 => rfl
  | case2 r h | case4 r h =>
      cases r with
      | nil => rfl
      | cons d r =>
          have hd : d ≠ '=' := by
            rintro rfl
            exact h r rfl
          simp [comparator?, hd]
  | case7 s _ hgreater _ hless hequal hdifferent =>
      rcases s with _ | ⟨c, s⟩
      · rfl
      · have hc : c ≠ '<' ∧ c ≠ '>' := by
          refine ⟨?_, ?_⟩
          · rintro rfl
            exact hless s rfl
          · rintro rfl
            exact hgreater s rfl
        rcases s with _ | ⟨d, r⟩
        · simp [comparator?, hc]
        · by_cases hd : d = '='
          · subst hd
            have hc' : c ≠ '=' ∧ c ≠ '!' := by
              refine ⟨?_, ?_⟩
              · rintro rfl
                exact hequal r rfl
              · rintro rfl
                exact hdifferent r rfl
            simp [comparator?, hc, hc']
          · simp [comparator?, hc, hd]

/-- Operators begin with no comment. -/
theorem comparator?_fresh {s : List Char} {result : Comparator × List Char}
    (h : comparator? s = some result) : Begins Fresh s := by
  unfold comparator? at h
  split at h <;> first | exact ⟨_, _, rfl, rfl⟩ | cases h

theorem primary_carries {p q : Reader Condition}
    (hinner : Carries t p q (Behind Fresh) (Behind (· == ')')))
    (hterm : Carries t comparisonOrReference comparisonOrReference (Begins isNameStart) R) :
    Carries t (primary p) (primary q) (Behind Fresh) R := by
  refine (blanks_carries rfl).bind fun _ => .expecting _ ?_
  have hparen : Carries t (do char '('; let e ← p; blanks; char ')'; return e)
      (do char '('; let e ← q; blanks; char ')'; return e) (Begins (· == '(')) R :=
    (char_carries (by decide)).bind fun _ => hinner.bind fun _ => (blanks_carries rfl).bind fun _ =>
      (char_carries (by decide)).bind fun _ => .pure _
  refine (hparen.weaken fun s hs => hs.fresh rfl).orElse hterm ?_ ?_
  · intro s hs _
    exact (char_refuses (hs.head?_ne rfl _)).bind
  · intro s hs
    exact hs.fresh rfl

section

variable {upper lower : String} {p q : Reader Condition}

/-- A chain ends in front of more text where it ended before: behind the blanks there is the
same or the beginning of an item. -/
theorem further_refuses_line (hk : IsKeyword upper lower)
    (hfront : (keyword upper lower).Refuses (skipBlanks t)) {s : List Char}
    (h : (further upper lower p).Refuses s) :
    (further upper lower q).Refuses (s ++ '\n' :: t) := by
  have hkeyword : (keyword upper lower).Refuses (skipBlanks s) := by
    rcases (refuses_of_after_blanks h).of_bind with hkeyword | ⟨_, _, -, h⟩
    · exact hkeyword
    · exact absurd h not_refuses_commit
  refine (blanks_reads _).bind_refuses (Refuses.bind ?_)
  rcases skipBlanks_line s t with ⟨-, heq⟩ | ⟨-, heq⟩
  · rw [heq]
    exact (inLine_keyword hk).refuses hkeyword
  · rwa [heq]

theorem chain_carries (hk : IsKeyword upper lower) (hne : upper.toList ≠ [])
    (hfront : (keyword upper lower).Refuses (skipBlanks t))
    {join : Condition → Condition → Condition} (hmoves : p.Moves)
    (hp : ∀ R, Carries t p q (Behind Fresh) R) :
    Carries t (chain upper lower join p) (chain upper lower join q) (Behind Fresh) R := by
  have hfurther : Carries t (further upper lower p) (further upper lower q) Anything Anything :=
    ((blanks_carries rfl).bind fun _ => (keyword_carries hk hne).bind fun _ =>
      (hp _).commit).weaken fun _ _ => trivial
  refine (hp Anything).bind fun first => Carries.bind (M := R) ?_ fun others => .pure _
  exact hfurther.many (further_moves hk hne hmoves.shrinks)
    (fun s _ => further_refuses_line hk hfront) (fun _ => id) (fun _ _ => trivial)

end

variable (ht : Fronts t)

include ht

/-- No operator and no keyword of chains follows on a later line. -/
theorem comparator?_skipBlanks_line {s : List Char} (h : comparator? (skipBlanks s) = none) :
    comparator? (skipBlanks (s ++ '\n' :: t)) = none := by
  rcases skipBlanks_line s t with ⟨-, heq⟩ | ⟨-, heq⟩
  · rw [heq, comparator?_line, h]
    rfl
  · have hnone := ht.closes.comparator
    rwa [skipBlanks_newline, ← heq] at hnone

theorem comparisonOrReference_carries :
    Carries t comparisonOrReference comparisonOrReference (Begins isNameStart) R := by
  intro s c x h hx
  obtain ⟨name, r, hname, -⟩ := h.of_bind
  obtain ⟨hs, hname'⟩ := identifier_carries (R := Anything) s name r hname trivial
  refine ⟨hs, ?_⟩
  unfold Reads at h ⊢
  rw [comparisonOrReference_apply hname] at h
  rw [comparisonOrReference_apply hname']
  split at h
  · rename_i op r' hop
    have hfresh : Behind Fresh r := comparator?_fresh hop
    have hvalue := (value_carries (t := t) (R := R)).commit.map
      (Condition.compare (Path.ofString name) op)
    rw [hfresh.skipBlanks_line rfl, comparator?_line, hop]
    exact (hvalue r' c x h hx).2
  · rename_i hnone
    cases h
    rw [comparator?_skipBlanks_line ht hnone]

theorem disjunction_carries {p q : Reader Condition} (hmoves : p.Moves)
    (hp : ∀ R, Carries t p q (Behind Fresh) R) :
    Carries t (disjunction p) (disjunction q) (Behind Fresh) R := by
  have hclose := ht.closes
  have hand := hclose.and_refuses
  have hor := hclose.or_refuses
  rw [skipBlanks_newline] at hand hor
  refine (blanks_carries_behind rfl).bind fun _ =>
    chain_carries isKeyword_or (by decide) hor ?_ fun _ =>
      chain_carries isKeyword_and (by decide) hand hmoves hp
  exact hmoves.bind fun _ => (Shrinks.many _).bind fun _ => .pure _

/-- What is read as a negation or a primary is read so in front of more text. -/
theorem unary_carries : Carries t unary unary (Behind Fresh) R := by
  intro s
  induction hn : s.length using Nat.strongRecOn generalizing R s with
  | _ n ih =>
      subst hn
      have hbelow (R : List Char → Prop) : Carries t (below s.length) unary (Behind Fresh) R := by
        intro x c r h hr
        obtain ⟨hlt, h⟩ := of_below_reads h
        exact ih x.length hlt x rfl c r h hr
      have hmoves : (below s.length).Moves := by
        intro x c r h
        exact unary_moves x c r (of_below_reads h).2
      intro c r h hr
      unfold Reads at h
      rw [unary_apply] at h
      -- the bound is for the text alone: with more behind, the reader is `unary` itself
      refine (?_ : Carries t _ unary (Behind Fresh) R) s c r h hr
      rw [unary_eq]
      refine (blanks_carries_behind rfl).bind fun _ =>
        Carries.bind (M := Behind Fresh) ?_ fun found => ?_
      · exact (keyword_carries isKeyword_not (by decide)).optional
          (fun _ _ => (inLine_keyword isKeyword_not).refuses)
          (fun _ h => (h.behind fun _ => id).fresh rfl) (fun _ => id)
      · cases found with
        | some => exact (hbelow R).commit.map _
        | none =>
            exact primary_carries (disjunction_carries ht hmoves hbelow)
              (comparisonOrReference_carries ht)

theorem condition_carries : Carries t condition condition (Behind Fresh) R :=
  disjunction_carries ht unary_moves fun _ => unary_carries ht

end

end Rulebook.Source
