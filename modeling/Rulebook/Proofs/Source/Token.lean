/-
  Proofs/Source/Token.lean --- what the readers of tokens do.

  A token that is written and does not run on into what follows is read, and nothing more
  than it.  What a name runs on into is known from its first character: `Ends` says that no
  name goes on there.  A keyword is a whole name, so keywords are told apart by the longest
  run of name characters at the front of a text.
-/
import Mathlib.Data.List.Basic
import Mathlib.Data.List.TakeWhile
import Mathlib.Tactic.Tauto
import Rulebook.Proofs.Number.Decimal
import Rulebook.Proofs.Source.Reader
import Rulebook.Source.Printer

set_option autoImplicit false

namespace Rulebook

/-- The value is a double. -/
def Value.IsFloat : Value → Prop
  | .float _ => True
  | _ => False

instance : DecidablePred Value.IsFloat
  | .float _ => instDecidableTrue
  | .int _ | .bool _ | .string _ => instDecidableFalse

namespace Source

open Reader

/-! ## Blanks -/

@[simp] theorem skipBlanks_nil : skipBlanks [] = [] := by
  rw [skipBlanks]

theorem skipBlanks_of_blank {c : Char} (r : List Char) (h : isBlank c = true) :
    skipBlanks (c :: r) = skipBlanks r := by
  rw [skipBlanks, if_pos h]

theorem skipBlanks_of_solid {c : Char} (r : List Char) (h : isBlank c = false) (hc : c ≠ '#') :
    skipBlanks (c :: r) = c :: r := by
  rw [skipBlanks, if_neg (by simp [h]), if_neg hc]

@[simp] theorem skipBlanks_space (r : List Char) : skipBlanks (' ' :: r) = skipBlanks r :=
  skipBlanks_of_blank r rfl

@[simp] theorem skipBlanks_newline (r : List Char) : skipBlanks ('\n' :: r) = skipBlanks r :=
  skipBlanks_of_blank r rfl

theorem skipBlanks_of_comment {r r' : List Char} (h : afterComment? r = some r') :
    skipBlanks ('#' :: r) = skipBlanks r' := by
  rw [skipBlanks, if_neg (by decide), if_pos rfl]
  split
  · rename_i r'' hsome
    cases h.symm.trans hsome
    rfl
  · rename_i hnone
    cases h.symm.trans hnone

theorem skipBlanks_of_open_comment {r : List Char} (h : afterComment? r = none) :
    skipBlanks ('#' :: r) = '#' :: r := by
  rw [skipBlanks, if_neg (by decide), if_pos rfl]
  split
  · rename_i r' hsome
    cases h.symm.trans hsome
  · rfl

theorem length_skipBlanks_le (s : List Char) : (skipBlanks s).length ≤ s.length := by
  induction s using skipBlanks.induct with
  | case1 => simp
  | case2 c r hblank ih =>
      rw [skipBlanks_of_blank r hblank]
      exact Nat.le_succ_of_le ih
  | case3 r r' hcomment _ ih =>
      rw [skipBlanks_of_comment hcomment]
      exact Nat.le_succ_of_le (Nat.le_trans ih (length_afterComment?_le hcomment))
  | case4 r hcomment _ => exact (congrArg List.length (skipBlanks_of_open_comment hcomment)).le
  | case5 c r hblank hcomment =>
      exact (congrArg List.length (skipBlanks_of_solid r (by simpa using hblank) hcomment)).le

/-- Behind the blanks there are none. -/
@[simp] theorem skipBlanks_skipBlanks (s : List Char) :
    skipBlanks (skipBlanks s) = skipBlanks s := by
  induction s using skipBlanks.induct with
  | case1 => simp
  | case2 c r hblank ih => rw [skipBlanks_of_blank r hblank, ih]
  | case3 r r' hcomment _ ih => rw [skipBlanks_of_comment hcomment, ih]
  | case4 r hcomment _ =>
      rw [skipBlanks_of_open_comment hcomment, skipBlanks_of_open_comment hcomment]
  | case5 c r hblank hcomment =>
      rw [skipBlanks_of_solid r (by simpa using hblank) hcomment,
        skipBlanks_of_solid r (by simpa using hblank) hcomment]

/-- The text begins with no blank and no comment. -/
def Solid (text : List Char) : Prop :=
  ∃ c s, text = c :: s ∧ isBlank c = false ∧ c ≠ '#'

theorem Solid.skipBlanks_append {text : List Char} (h : Solid text) (r : List Char) :
    skipBlanks (text ++ r) = text ++ r := by
  obtain ⟨c, s, rfl, hblank, hcomment⟩ := h
  exact skipBlanks_of_solid _ hblank hcomment

theorem blanks_reads (s : List Char) : blanks.Reads s () (skipBlanks s) := rfl

/-- A reader behind blanks reads what it reads behind them. -/
theorem after_blanks {α : Type} {p : Reader α} {s r : List Char} {a : α}
    (h : p.Reads (skipBlanks s) a r) : (blanks >>= fun _ => p).Reads s a r :=
  (blanks_reads s).bind h

theorem of_after_blanks {α : Type} {p : Reader α} {s r : List Char} {a : α}
    (h : (blanks >>= fun _ => p).Reads s a r) : p.Reads (skipBlanks s) a r := by
  obtain ⟨_, _, hblanks, h⟩ := h.of_bind
  cases hblanks
  exact h

/-! ## Lines -/

/-- The reader reads a value from the front of a text and moves on; up to blanks, a given
rest is left. -/
def ReadsLine {α : Type} (p : Reader α) (s : List Char) (a : α) (r : List Char) : Prop :=
  ∃ t, p.Reads s a t ∧ skipBlanks t = skipBlanks r ∧ t.length < s.length

/-- A line is read if its end is left. -/
theorem readsLine_of_reads {α : Type} {p : Reader α} {s line r : List Char} {a : α}
    (hs : skipBlanks s = line ++ '\n' :: r) (hne : line ≠ []) (h : p.Reads s a ('\n' :: r)) :
    ReadsLine p s a r := by
  refine ⟨'\n' :: r, h, skipBlanks_newline r, ?_⟩
  have hle := length_skipBlanks_le s
  have hpos : 0 < line.length := List.length_pos_iff.mpr hne
  rw [hs, List.length_append] at hle
  omega

/-- If every round of a repetition reads a value and leaves what is printed behind it, then
the repetition reads all values; it stops where it is refused. -/
theorem many_print {α : Type} {p : Reader α} {print : α → List Char} {P : α → Prop}
    {rest : List Char}
    (hread : ∀ (a : α) (as : List α) (s : List Char), P a → (∀ b ∈ as, P b) →
      skipBlanks s = skipBlanks (print a ++ (as.flatMap print ++ rest)) →
      ReadsLine p s a (as.flatMap print ++ rest))
    (hstop : ∀ s, skipBlanks s = skipBlanks rest → p.Refuses s)
    (as : List α) (has : ∀ a ∈ as, P a) {s : List Char}
    (hs : skipBlanks s = skipBlanks (as.flatMap print ++ rest)) :
    ∃ t, Reads (many p) s as t ∧ skipBlanks t = skipBlanks rest ∧ t.length ≤ s.length := by
  induction as generalizing s with
  | nil => exact ⟨s, (hstop s hs).many_nil, hs, Nat.le_refl _⟩
  | cons a as ih =>
      obtain ⟨ha, has⟩ := List.forall_mem_cons.mp has
      rw [List.flatMap_cons, List.append_assoc] at hs
      obtain ⟨t, hfirst, ht, hlt⟩ := hread a as s ha has hs
      obtain ⟨u, hrest, hu, hle⟩ := ih has ht
      exact ⟨u, hfirst.many_cons hlt hrest, hu, Nat.le_trans hle hlt.le⟩

/-! ## Words -/

/-- A character of a class is none that the class does not have. -/
theorem ne_of_class {p : Char → Bool} {c d : Char} (hc : p c = true) (hd : p d = false) :
    c ≠ d := by
  rintro rfl
  rw [hc] at hd
  cases hd

theorem head?_ne_of_class {p : Char → Bool} {c d : Char} {s : List Char} (hc : p c = true)
    (hd : p d = false) : (c :: s).head? ≠ some d :=
  fun heq => ne_of_class hc hd (Option.some.inj heq)

theorem word_reads (text r : List Char) : (word text).Reads (text ++ r) () r := by
  have hfront : text.isPrefixOf? (text ++ r) = some r :=
    List.isPrefixOf?_eq_some_iff_append_eq.mpr rfl
  unfold Reads word
  rw [hfront]

theorem word_refuses {text s : List Char} (h : ¬ text <+: s) : (word text).Refuses s := by
  refine ⟨⟨s, false, []⟩, ?_, rfl⟩
  unfold word
  split
  · rename_i r hfront
    exact absurd ⟨r, List.isPrefixOf?_eq_some_iff_append_eq.mp hfront⟩ h
  · rfl

theorem char_reads (c : Char) (r : List Char) : (char c).Reads (c :: r) () r :=
  word_reads [c] r

theorem char_refuses {c : Char} {s : List Char} (h : s.head? ≠ some c) :
    (char c).Refuses s := by
  apply word_refuses
  rintro ⟨r, rfl⟩
  exact h rfl

theorem takeWhile1_reads {p : Char → Bool} {text s : List Char} (hne : text ≠ [])
    (htext : ∀ c ∈ text, p c = true) (hs : ∀ c ∈ s.head?, p c = false) :
    (takeWhile1 p).Reads (text ++ s) text s := by
  unfold Reads takeWhile1
  rw [takeWhile_append htext hs, dropWhile_append htext hs]
  simp [hne]

theorem takeWhile1_refuses {p : Char → Bool} {s : List Char} (hs : ∀ c ∈ s.head?, p c = false) :
    (takeWhile1 p).Refuses s := by
  refine ⟨⟨s, false, []⟩, ?_, rfl⟩
  unfold takeWhile1
  have hnone : s.takeWhile p = [] := takeWhile_append (List.forall_mem_nil _) hs
  simp [hnone]

theorem spaces_reads {r : List Char} (h : ∀ c ∈ r.head?, (c = ' ' || c = '\t') = false) :
    spaces.Reads (' ' :: r) () r := by
  have hread : (takeWhile1 fun c => c = ' ' || c = '\t').Reads ([' '] ++ r) [' '] r :=
    takeWhile1_reads (by simp) (by simp) h
  exact hread.bind .pure

/-! ## Names -/

/-- A text that an identifier can be. -/
def IsName (name : String) : Prop :=
  ∃ c r, name.toList = c :: r ∧ isNameStart c = true ∧ ∀ d ∈ r, isNamePart d = true

theorem isName_of {name : String}
    (h : (name.toList.head?.any isNameStart && name.toList.all isNamePart) = true) :
    IsName name := by
  cases heq : name.toList with
  | nil => simp [heq] at h
  | cons c r =>
      rw [heq] at h
      simp only [List.head?_cons, Option.any_some, Bool.and_eq_true, List.all_cons,
        List.all_eq_true] at h
      exact ⟨c, r, heq, h.1, h.2.2⟩

/-- No name goes on at the front of a text. -/
def Ends (s : List Char) : Prop := ∀ c ∈ s.head?, isNamePart c = false

theorem isNamePart_of_isNameStart {c : Char} (h : isNameStart c = true) :
    isNamePart c = true := by
  simp only [isNameStart, isNamePart, Bool.or_eq_true, Char.isAlphanum] at h ⊢
  tauto

/-- No blank and no comment begins as a name goes on. -/
theorem solid_of_isNamePart {c : Char} (s : List Char) (hc : isNamePart c = true) :
    Solid (c :: s) := by
  have hne (d : Char) (hd : isNamePart d = false) : c ≠ d := ne_of_class hc hd
  have hblank : isBlank c = false := by
    simp [isBlank, hne ' ' rfl, hne '\t' rfl, hne '\n' rfl, hne '\r' rfl, hne '\x0c' rfl]
  exact ⟨c, s, rfl, hblank, hne '#' rfl⟩

theorem IsName.isNamePart {name : String} (h : IsName name) :
    ∀ c ∈ name.toList, isNamePart c = true := by
  obtain ⟨c, r, heq, hstart, hparts⟩ := h
  rw [heq]
  exact List.forall_mem_cons.mpr ⟨isNamePart_of_isNameStart hstart, hparts⟩

theorem IsName.solid {name : String} (h : IsName name) : Solid name.toList := by
  obtain ⟨c, r, heq, hstart, -⟩ := h
  rw [heq]
  exact solid_of_isNamePart r (isNamePart_of_isNameStart hstart)

theorem takeWhile_isNameStart_append (s : List Char) :
    s.takeWhile isNameStart ++ (s.dropWhile isNameStart).takeWhile isNamePart =
      s.takeWhile isNamePart := by
  induction s with
  | nil => rfl
  | cons c r ih =>
      by_cases hstart : isNameStart c = true
      · simp [hstart, isNamePart_of_isNameStart hstart, ih]
      · simp [hstart]

theorem dropWhile_isNameStart_dropWhile (s : List Char) :
    (s.dropWhile isNameStart).dropWhile isNamePart = s.dropWhile isNamePart := by
  induction s with
  | nil => rfl
  | cons c r ih =>
      by_cases hstart : isNameStart c = true
      · simp [hstart, isNamePart_of_isNameStart hstart, ih]
      · simp [hstart]

/-- An identifier is the longest run of name characters, if that begins as a name does. -/
theorem identifier_apply (s : List Char) :
    identifier s = if s.head?.any isNameStart then
      .ok (String.ofList (s.takeWhile isNamePart), s.dropWhile isNamePart)
    else .error ⟨s, false, []⟩ := by
  cases s with
  | nil => rfl
  | cons c r =>
      by_cases hstart : isNameStart c = true
      · have hread : (takeWhile1 isNameStart).Reads (c :: r)
            ((c :: r).takeWhile isNameStart) ((c :: r).dropWhile isNameStart) := by
          unfold Reads takeWhile1
          simp [hstart]
        rw [if_pos (by simpa using hstart)]
        unfold identifier
        rw [bind_of_ok hread]
        rw [← takeWhile_isNameStart_append, ← dropWhile_isNameStart_dropWhile]
        rfl
      · have hrefuse : takeWhile1 isNameStart (c :: r) = .error ⟨c :: r, false, []⟩ := by
          unfold takeWhile1
          simp [hstart]
        rw [if_neg (by simpa using hstart)]
        unfold identifier
        rw [bind_of_error hrefuse]

theorem identifier_reads {name : String} (h : IsName name) {r : List Char} (hr : Ends r) :
    identifier.Reads (name.toList ++ r) name r := by
  have hparts := h.isNamePart
  obtain ⟨c, r', heq, hstart, -⟩ := h
  unfold Reads
  rw [identifier_apply, takeWhile_append hparts hr, dropWhile_append hparts hr,
    String.ofList_toList, heq, if_pos (by simpa using hstart)]

/-- What an identifier was read from. -/
theorem identifier_inv {s r : List Char} {name : String} (h : identifier.Reads s name r) :
    IsName name ∧ s = name.toList ++ r ∧ Ends r := by
  unfold Reads at h
  rw [identifier_apply] at h
  split at h
  · rename_i hstart
    cases h
    refine ⟨?_, ?_, ?_⟩
    · cases s with
      | nil => simp at hstart
      | cons c r =>
          have hc : isNameStart c = true := by simpa using hstart
          refine ⟨c, r.takeWhile isNamePart, ?_, hc, ?_⟩
          · simp [isNamePart_of_isNameStart hc]
          · intro d hd
            exact List.mem_takeWhile_imp hd
    · rw [String.toList_ofList, List.takeWhile_append_dropWhile]
    · intro c hc
      have hnot := List.head?_dropWhile_not isNamePart s
      rw [hc] at hnot
      simpa using hnot
  · cases h

theorem identifier_gives : identifier.Gives IsName :=
  fun _ _ _ h => (identifier_inv h).1

/-! ## Keywords -/

/-- A word of name characters is a whole word if it is the longest run of them. -/
theorem afterWord?_eq {text : List Char} (htext : ∀ c ∈ text, isNamePart c = true)
    (s : List Char) :
    afterWord? text s =
      if s.takeWhile isNamePart = text then some (s.dropWhile isNamePart) else none := by
  unfold afterWord?
  split
  · rename_i c r hfront
    obtain rfl := List.isPrefixOf?_eq_some_iff_append_eq.mp hfront
    by_cases hpart : isNamePart c = true
    · -- the run goes on behind the word
      rw [if_pos hpart, List.takeWhile_append_of_pos htext, if_neg]
      simp [hpart]
    · have hends : Ends (c :: r) := by simpa [Ends] using hpart
      rw [if_neg hpart, takeWhile_append htext hends, dropWhile_append htext hends, if_pos rfl]
  · rename_i hfront
    obtain rfl := List.isPrefixOf?_eq_some_iff_append_eq.mp hfront
    have hends : Ends [] := by simp [Ends]
    rw [takeWhile_append htext hends, dropWhile_append htext hends, if_pos rfl]
  · rename_i hfront
    rw [if_neg]
    rintro rfl
    have hsome := List.isPrefixOf?_eq_some_iff_append_eq.mpr
      (List.takeWhile_append_dropWhile (p := isNamePart) (l := s))
    rw [hfront] at hsome
    cases hsome

/-- The two forms of a keyword are words of one length. -/
structure IsKeyword (upper lower : String) : Prop where
  upper_parts : ∀ c ∈ upper.toList, isNamePart c = true
  lower_parts : ∀ c ∈ lower.toList, isNamePart c = true
  length_eq : upper.toList.length = lower.toList.length

theorem isKeyword_not : IsKeyword "NOT" "not" :=
  ⟨List.all_eq_true.mp (by decide), List.all_eq_true.mp (by decide), rfl⟩

theorem isKeyword_and : IsKeyword "AND" "and" :=
  ⟨List.all_eq_true.mp (by decide), List.all_eq_true.mp (by decide), rfl⟩

theorem isKeyword_or : IsKeyword "OR" "or" :=
  ⟨List.all_eq_true.mp (by decide), List.all_eq_true.mp (by decide), rfl⟩

section

variable {upper lower : String} (hk : IsKeyword upper lower) {s : List Char}

include hk

/-- A keyword is read if it is the longest run of name characters. -/
theorem keyword_apply (s : List Char) :
    keyword upper lower s =
      if s.takeWhile isNamePart = upper.toList ∨ s.takeWhile isNamePart = lower.toList then
        .ok ((), s.dropWhile isNamePart)
      else .error ⟨s, false, []⟩ := by
  unfold keyword
  simp only
  by_cases hupper : upper.toList.isPrefixOf s = true
  · -- a longer word that begins with the upper form is not the lower form either
    have hlower : s.takeWhile isNamePart = lower.toList →
        s.takeWhile isNamePart = upper.toList := by
      obtain ⟨r, rfl⟩ := List.isPrefixOf_iff_prefix.mp hupper
      rw [List.takeWhile_append_of_pos hk.upper_parts]
      intro heq
      have hlength := congrArg List.length heq
      rw [List.length_append, hk.length_eq] at hlength
      have hnil : r.takeWhile isNamePart = [] := List.eq_nil_of_length_eq_zero (by omega)
      rw [hnil, List.append_nil]
    rw [if_pos hupper, afterWord?_eq hk.upper_parts]
    by_cases hrun : s.takeWhile isNamePart = upper.toList
    · rw [if_pos hrun, if_pos (Or.inl hrun)]
    · rw [if_neg hrun, if_neg (fun h => hrun (h.elim id hlower))]
  · have hother : s.takeWhile isNamePart ≠ upper.toList := by
      intro heq
      exact hupper (List.isPrefixOf_iff_prefix.mpr (heq ▸ List.takeWhile_prefix _))
    rw [if_neg hupper, afterWord?_eq hk.lower_parts]
    by_cases hrun : s.takeWhile isNamePart = lower.toList
    · rw [if_pos hrun, if_pos (Or.inr hrun)]
    · rw [if_neg hrun, if_neg (fun h => h.elim hother hrun)]

theorem keyword_reads (h : s.takeWhile isNamePart = upper.toList) :
    (keyword upper lower).Reads s () (s.dropWhile isNamePart) := by
  unfold Reads
  rw [keyword_apply hk, if_pos (Or.inl h)]

theorem keyword_refuses_iff :
    (keyword upper lower).Refuses s ↔
      s.takeWhile isNamePart ≠ upper.toList ∧ s.takeWhile isNamePart ≠ lower.toList := by
  rw [← not_or]
  constructor
  · rintro ⟨e, herror, -⟩ hword
    rw [keyword_apply hk, if_pos hword] at herror
    cases herror
  · intro hword
    refine ⟨⟨s, false, []⟩, ?_, rfl⟩
    rw [keyword_apply hk, if_neg hword]

end

/-! ## Texts between quotation marks -/

/-- What escapes write is read up to the quotation mark behind it. -/
theorem stringBody_escaped (cs acc r : List Char) :
    stringBody (cs.flatMap escapeChar ++ '\"' :: r) acc =
      .ok (String.ofList (acc.reverse ++ cs), r) := by
  induction cs generalizing acc with
  | nil => simp [stringBody]
  | cons c cs ih =>
      rw [List.flatMap_cons, List.append_assoc]
      have hacc : acc.reverse ++ c :: cs = (c :: acc).reverse ++ cs := by simp
      rw [hacc, ← ih]
      by_cases hquote : c = '\"'
      · subst hquote
        rfl
      by_cases hslash : c = '\\'
      · subst hslash
        rfl
      · have hplain : escapeChar c = [c] := by simp [escapeChar, hquote, hslash]
        rw [hplain, List.singleton_append]
        rw [stringBody]
        · exact hquote
        all_goals
          intros
          contradiction

theorem stringLiteral_reads (s : String) (r : List Char) :
    stringLiteral.Reads (printString s ++ r) s r := by
  have hbody : stringBody (s.toList.flatMap escapeChar ++ '\"' :: r) [] = .ok (s, r) := by
    rw [stringBody_escaped, List.reverse_nil, List.nil_append, String.ofList_toList]
  have hprint : printString s ++ r = '\"' :: (s.toList.flatMap escapeChar ++ '\"' :: r) := by
    simp [printString]
  rw [hprint]
  exact (char_reads _ _).bind hbody

theorem stringLiteral_refuses {s : List Char} (h : s.head? ≠ some '\"') :
    stringLiteral.Refuses s :=
  (char_refuses h).bind

/-! ## Numbers -/

theorem isNamePart_of_isDigit {c : Char} (h : c.isDigit = true) : isNamePart c = true := by
  simp [isNamePart, Char.isAlphanum, h]

theorem not_isDigit_of_isNameStart {c : Char} (h : isNameStart c = true) :
    c.isDigit = false := by
  by_contra hdigit
  delta isNameStart Char.isAlpha Char.isUpper Char.isLower at h
  simp only [Char.isDigit, Bool.or_eq_true, Bool.and_eq_true, decide_eq_true_eq,
    Bool.not_eq_false, ge_iff_le, UInt32.le_iff_toNat_le] at h hdigit
  rcases h with (hupper | hlower) | rfl
  · exact absurd (hupper.1.trans hdigit.2) (by decide)
  · exact absurd (hlower.1.trans hdigit.2) (by decide)
  · exact absurd hdigit (by decide)

theorem Ends.not_digit {s : List Char} (h : Ends s) : ∀ c ∈ s.head?, c.isDigit = false := by
  intro c hc
  by_contra hdigit
  have hpart := isNamePart_of_isDigit (by simpa using hdigit)
  rw [h c hc] at hpart
  cases hpart

theorem Ends.head?_ne {s : List Char} (h : Ends s) {c : Char} (hc : isNamePart c = true) :
    s.head? ≠ some c := by
  intro hhead
  rw [h c hhead] at hc
  cases hc

theorem integerDigits?_toDigits (n : Nat) {r : List Char}
    (hr : ∀ c ∈ r.head?, c.isDigit = false) :
    integerDigits? (Nat.toDigits 10 n ++ r) = some (Nat.toDigits 10 n, r) := by
  rcases Nat.eq_zero_or_pos n with rfl | hpos
  · rfl
  · obtain ⟨c, digits, heq, hzero⟩ := Decimal.toDigits_head hpos
    have hall : ∀ d ∈ c :: digits, d.isDigit = true := by
      intro d hd
      exact Decimal.isDigit_of_mem_toDigits (heq ▸ hd)
    have hc : c.isDigit = true := hall c List.mem_cons_self
    have hrest : ∀ d ∈ digits, d.isDigit = true := fun d hd => hall d (List.mem_cons_of_mem _ hd)
    rw [heq, List.cons_append]
    have hplus : c ≠ '+' := by
      rintro rfl
      exact absurd hc (by decide)
    have hminus : c ≠ '-' := by
      rintro rfl
      exact absurd hc (by decide)
    simp [integerDigits?, hplus, hminus, hc, takeWhile_append hrest hr,
      dropWhile_append hrest hr]

/-- A number of 64 bits without a sign is read. -/
theorem integer_reads {n : Int64} {k : Nat} (hn : n.toInt = k) {r : List Char}
    (hr : ∀ c ∈ r.head?, c.isDigit = false) :
    integer.Reads (Nat.toDigits 10 k ++ r) n r := by
  have hvalue : Decimal.int? (Nat.toDigits 10 k) = some n.toInt := by
    rw [hn, ← Decimal.toList_toString_ofNat]
    exact Decimal.int?_toString _
  unfold Reads integer
  rw [integerDigits?_toDigits k hr]
  simp only [hvalue, Option.bind_some, Value.int64?_toInt]

theorem negativeNumber_reads {n : Int64} {k : Nat} (hn : n.toInt = Int.negSucc k)
    {r : List Char} (hr : Ends r) :
    negativeNumber.Reads ('-' :: Nat.toDigits 10 (k + 1) ++ r) (.int n) r := by
  have hdigits : ∀ c ∈ Nat.toDigits 10 (k + 1), (c.isDigit || c = '.') = true := by
    intro c hc
    simp [Decimal.isDigit_of_mem_toDigits hc]
  have hends : ∀ c ∈ r.head?, (c.isDigit || c = '.') = false := by
    intro c hc
    have hpoint : c ≠ '.' := by
      rintro rfl
      exact hr.head?_ne rfl hc
    simp [hr.not_digit c hc, hpoint]
  have hvalue : Decimal.int? ('-' :: Nat.toDigits 10 (k + 1)) = some n.toInt := by
    rw [hn, ← Decimal.toList_toString_negSucc]
    exact Decimal.int?_toString _
  have hpoint : '.' ∉ Nat.toDigits 10 (k + 1) :=
    fun hmem => absurd (Decimal.isDigit_of_mem_toDigits hmem) (by decide)
  refine (char_reads '-' _).bind ((takeWhile1_reads Nat.toDigits_ne_nil hdigits hends).bind ?_)
  rw [if_neg (by simp [hpoint]), hvalue, Option.bind_some, Value.int64?_toInt]
  rfl

/-! ## Literals -/

/-- Digits are not mistaken for a number with a point if no point follows. -/
theorem pointNumber_refuses {digits r : List Char} (hne : digits ≠ [])
    (hdigits : ∀ c ∈ digits, c.isDigit = true) (hr : Ends r) :
    pointNumber.Refuses (digits ++ r) :=
  (takeWhile1_reads hne hdigits hr.not_digit).bind_refuses
    (char_refuses (hr.head?_ne rfl)).bind

theorem integer_refuses {s : List Char}
    (hs : ∀ c ∈ s.head?, c ≠ '+' ∧ c ≠ '-' ∧ c.isDigit = false) : integer.Refuses s := by
  have hnone : integerDigits? s = none := by
    cases s with
    | nil => rfl
    | cons c r =>
        obtain ⟨hplus, hminus, hdigit⟩ := hs c rfl
        have hzero : c ≠ '0' := by
          rintro rfl
          exact absurd hdigit (by decide)
        simp [integerDigits?, hplus, hminus, hdigit]
  refine ⟨⟨s, false, []⟩, ?_, rfl⟩
  unfold integer
  rw [hnone]

/-- A word of a literal is not read from what begins with another character. -/
theorem word_refuses_of_head {c : Char} {text s : List Char} (h : s.head? ≠ some c) :
    (word (c :: text)).Refuses s := by
  apply word_refuses
  rintro ⟨r, rfl⟩
  exact h rfl

/-- A reader that begins with a word refuses what begins with another character behind the
blanks. -/
theorem blanks_word_refuses {α : Type} {f : Unit → Reader α} {c : Char} {text s : List Char}
    (h : (skipBlanks s).head? ≠ some c) :
    (blanks >>= fun _ => word (c :: text) >>= f).Refuses s :=
  (blanks_reads s).bind_refuses (word_refuses_of_head h).bind

/-- What begins as a name does, and as neither of the two truth values, is no literal. -/
theorem value_refuses {c : Char} {s : List Char} (hc : isNameStart c = true)
    (htrue : ¬ "true".toList <+: c :: s) (hfalse : ¬ "false".toList <+: c :: s) :
    value.Refuses (c :: s) := by
  have hne {d : Char} (hd : isNameStart d = false) : (c :: s).head? ≠ some d :=
    head?_ne_of_class hc hd
  have hdigit : c.isDigit = false := not_isDigit_of_isNameStart hc
  have hsolid : Solid [c] := solid_of_isNamePart [] (isNamePart_of_isNameStart hc)
  refine (blanks_reads _).bind_refuses (.expecting _ ?_)
  rw [← List.singleton_append, hsolid.skipBlanks_append]
  refine (stringLiteral_refuses (hne rfl)).map.orElse_refuses ?_
  refine (word_refuses htrue).bind.orElse_refuses ?_
  refine (word_refuses hfalse).bind.orElse_refuses ?_
  refine (char_refuses (hne rfl)).bind.orElse_refuses ?_
  refine (takeWhile1_refuses (by simpa using hdigit)).bind.orElse_refuses ?_
  refine (integer_refuses ?_).map
  intro d hd
  obtain rfl := Option.some.inj hd
  exact ⟨ne_of_class hc rfl, ne_of_class hc rfl, hdigit⟩

theorem printValue_ofNat {n : Int64} {k : Nat} (hn : n.toInt = Int.ofNat k) :
    printValue (.int n) = Nat.toDigits 10 k := by
  rw [← Decimal.toList_toString_ofNat, ← hn]
  rfl

theorem printValue_negSucc {n : Int64} {k : Nat} (hn : n.toInt = Int.negSucc k) :
    printValue (.int n) = '-' :: Nat.toDigits 10 (k + 1) := by
  rw [← Decimal.toList_toString_negSucc, ← hn]
  rfl

/-- The digits of a number begin with a digit. -/
theorem toDigits_cons (k : Nat) : ∃ c s, Nat.toDigits 10 k = c :: s ∧ c.isDigit = true := by
  obtain ⟨c, s, heq⟩ := List.exists_cons_of_ne_nil (Nat.toDigits_ne_nil (n := k) (b := 10))
  refine ⟨c, s, heq, Decimal.isDigit_of_mem_toDigits (n := k) ?_⟩
  rw [heq]
  exact List.mem_cons_self

theorem solid_printValue {v : Value} (hv : ¬ v.IsFloat) : Solid (printValue v) := by
  cases v with
  | string text => exact ⟨'\"', _, rfl, rfl, by decide⟩
  | bool b => cases b <;> exact solid_of_isNamePart _ rfl
  | float x => exact absurd trivial hv
  | int n =>
      cases hn : n.toInt with
      | ofNat k =>
          obtain ⟨c, s, heq, hdigit⟩ := toDigits_cons k
          rw [printValue_ofNat hn, heq]
          exact solid_of_isNamePart s (isNamePart_of_isDigit hdigit)
      | negSucc k =>
          rw [printValue_negSucc hn]
          exact ⟨'-', _, rfl, rfl, by decide⟩

/-- A truth value is read whatever stands behind it. -/
theorem value_reads_bool (b : Bool) {s r : List Char}
    (hs : skipBlanks s = printValue (.bool b) ++ r) : value.Reads s (.bool b) r := by
  refine after_blanks (.expecting _ ?_)
  rw [hs]
  refine (stringLiteral_refuses (by cases b <;> simp [printValue, Value.text])).map.orElse ?_
  cases b with
  | true =>
      refine .orElse ?_
      exact (word_reads "true".toList r).bind .pure
  | false =>
      have hother : (word "true".toList).Refuses ("false".toList ++ r) :=
        word_refuses_of_head (c := 't') (by simp)
      refine hother.bind.orElse (.orElse ?_)
      exact (word_reads "false".toList r).bind .pure

/-- A literal that is no double is read as it is printed. -/
theorem value_reads {v : Value} (hv : ¬ v.IsFloat) {s r : List Char}
    (hs : skipBlanks s = printValue v ++ r) (hr : Ends r) : value.Reads s v r := by
  cases v with
  | string text =>
      refine after_blanks (.expecting _ ?_)
      rw [hs]
      exact ((stringLiteral_reads text r).map Value.string).orElse
  | bool b => exact value_reads_bool b hs
  | float x => exact absurd trivial hv
  | int n =>
      refine after_blanks (.expecting _ ?_)
      rw [hs]
      cases hn : n.toInt with
      | ofNat k =>
          have hne {d : Char} (hd : d.isDigit = false) :
              (Nat.toDigits 10 k ++ r).head? ≠ some d := by
            obtain ⟨c, s, heq, hdigit⟩ := toDigits_cons k
            rw [heq]
            exact head?_ne_of_class hdigit hd
          have hdigits : ∀ c ∈ Nat.toDigits 10 k, c.isDigit = true :=
            fun c => Decimal.isDigit_of_mem_toDigits
          rw [printValue_ofNat hn]
          refine (stringLiteral_refuses (hne rfl)).map.orElse ?_
          refine (word_refuses_of_head (hne rfl)).bind.orElse ?_
          refine (word_refuses_of_head (hne rfl)).bind.orElse ?_
          refine (char_refuses (hne rfl)).bind.orElse ?_
          refine (pointNumber_refuses Nat.toDigits_ne_nil hdigits hr).orElse ?_
          exact (integer_reads hn hr.not_digit).map Value.int
      | negSucc k =>
          rw [printValue_negSucc hn]
          refine (stringLiteral_refuses (by simp)).map.orElse ?_
          refine (word_refuses_of_head (c := 't') (by simp)).bind.orElse ?_
          refine (word_refuses_of_head (c := 'f') (by simp)).bind.orElse ?_
          exact (negativeNumber_reads hn hr).orElse

end Source

end Rulebook
