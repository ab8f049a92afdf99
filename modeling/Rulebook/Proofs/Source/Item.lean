/-
  Proofs/Source/Item.lean --- actions, shapes and rules are read as they are printed.

  Every item ends with its line, and so does every field and every action.  The line end is
  not read with it, so a repetition goes on from there, up to blanks (`many_print`).  What
  must not stand behind an item is told by the first character there, which is that of one
  of the three words that items begin with (`Fronts`).
-/
import Rulebook.Proofs.Source.Condition

set_option autoImplicit false

namespace Rulebook

/-! ## What rule texts can have -/

namespace Source

/-- A name that is not mistaken for a truth value. -/
structure IsOperand (name : String) : Prop where
  isName : IsName name
  not_true : ¬ "true".toList <+: name.toList
  not_false : ¬ "false".toList <+: name.toList

end Source

/-- Operands that rule texts can have. -/
inductive Operand.Readable : Operand → Prop
  | literal (v : Value) : Readable (.literal v)
  | path {name : String} : Source.IsOperand name → Readable (.path (Path.ofString name))

/-- Actions that rule texts can have. -/
inductive Action.Readable : Action → Prop
  | set {key : String} {operand : Operand} : Source.IsName key → operand.Readable →
      Readable (.set key operand)
  | fail (message : String) : Readable (.fail message)
  | log (message : String) : Readable (.log message)

/-- The action sets a double. -/
def Action.HasFloat : Action → Prop
  | .set _ (.literal v) => v.IsFloat
  | _ => False

instance : DecidablePred Action.HasFloat
  | .set _ (.literal v) => inferInstanceAs (Decidable v.IsFloat)
  | .set _ (.path _) => instDecidableFalse
  | .fail _ => instDecidableFalse
  | .log _ => instDecidableFalse

/-- Field types that rule texts can have. -/
inductive FieldType.Readable : FieldType → Prop
  | enum {variants : List String} : variants ≠ [] → (∀ v ∈ variants, Source.IsName v) →
      Readable (.enum variants)
  | named {name : String} : Source.IsName name → Readable (.ofName name)

/-- Fields that rule texts can have. -/
structure Field.Readable (f : Field) : Prop where
  name : Source.IsName f.name
  type : f.type.Readable

/-- Shapes that rule texts can have. -/
structure Shape.Readable (s : Shape) : Prop where
  name : Source.IsName s.name
  fields : ∀ f ∈ s.fields, f.Readable

/-- Rules that rule texts can have. -/
structure Rule.Readable (r : Rule) : Prop where
  name : Source.IsName r.name
  condition : r.condition.Readable
  actions : ∀ a ∈ r.actions, a.Readable

/-- The rule compares something with a double, or sets one. -/
def Rule.HasFloat (r : Rule) : Prop :=
  r.condition.HasFloat ∨ ∃ a ∈ r.actions, a.HasFloat

instance : DecidablePred Rule.HasFloat := fun r =>
  inferInstanceAs (Decidable (r.condition.HasFloat ∨ ∃ a ∈ r.actions, a.HasFloat))

namespace Source

open Reader

/-- Items that rule texts can have. -/
inductive Item.Readable : Item → Prop
  | package {name : String} : IsName name → Readable (.package name)
  | shape {s : Shape} : s.Readable → Readable (.shape s)
  | rule {r : Rule} : r.Readable → Readable (.rule r)

/-! ## Items that are read -/

theorem operand_gives : operand.Gives Operand.Readable := by
  intro s o r h
  rcases (of_after_blanks h).of_expecting.of_orElse with h | ⟨hvalue, h⟩
  · obtain ⟨v, -, rfl⟩ := h.of_map
    exact .literal v
  · obtain ⟨name, hname, rfl⟩ := h.of_map
    obtain ⟨hisName, hsplit, -⟩ := identifier_inv hname
    -- a name that begins with a truth value would have been read as the truth value
    have hnot (b : Bool) : ¬ printValue (.bool b) <+: name.toList := by
      rintro ⟨more, hmore⟩
      have hread : value.Reads (skipBlanks s) (.bool b) (more ++ r) := by
        apply value_reads_bool
        rw [skipBlanks_skipBlanks, hsplit, ← hmore, List.append_assoc]
      exact (hread.map Operand.literal).not_refuses hvalue
    exact .path ⟨hisName, hnot true, hnot false⟩

theorem action_gives : action.Gives Action.Readable := by
  have hset : setAction.Gives Action.Readable :=
    .after fun _ => .after fun _ => (identifier_gives.commit.expecting _).bind fun _ hkey =>
      .after fun _ => .after fun _ => operand_gives.commit.bind fun _ hoperand =>
        .pure (.set hkey hoperand)
  have hfail : failAction.Gives Action.Readable :=
    .after fun _ => .after fun _ => .after fun _ => .pure (.fail _)
  have hlog : logAction.Gives Action.Readable :=
    .after fun _ => .after fun _ => .after fun _ => .pure (.log _)
  exact .after fun _ => hset.orElse (hfail.orElse hlog)

theorem fieldType_gives : fieldType.Gives FieldType.Readable := by
  have hvariant : variant.Gives IsName :=
    .after fun _ => identifier_gives.bind fun _ hname => .after fun _ => .pure hname
  have hvariants : variants.Gives fun names => names ≠ [] ∧ ∀ name ∈ names, IsName name :=
    hvariant.bind fun _ hfirst =>
      (Gives.many (.after fun _ => hvariant)).bind fun _ hothers =>
        .pure ⟨by simp, List.forall_mem_cons.mpr ⟨hfirst, hothers⟩⟩
  have henum : enumType.Gives FieldType.Readable :=
    .after fun _ => .after fun _ => .after fun _ =>
      (hvariants.commit.expecting _).bind fun _ hnames =>
        .after fun _ => .pure (.enum hnames.1 hnames.2)
  have hnamed : (FieldType.ofName <$> identifier : Reader FieldType).Gives FieldType.Readable :=
    identifier_gives.map fun _ hname => .named hname
  exact .after fun _ => (henum.orElse hnamed).expecting _

theorem field_gives : field.Gives Field.Readable :=
  .after fun _ => identifier_gives.bind fun _ hname => .after fun _ => .after fun _ =>
    fieldType_gives.commit.bind fun _ htype => .pure ⟨hname, htype⟩

theorem consequence_gives : consequence.Gives fun actions => ∀ a ∈ actions, a.Readable :=
  .after fun _ => .after fun _ => .after fun _ =>
    ((action_gives.many1.imp fun _ h => h.2).commit).expecting _

/-- Whatever is read as an item is one that rule texts can have. -/
theorem item_gives : item.Gives Item.Readable := by
  have hpackage : packageItem.Gives Item.Readable :=
    .after fun _ => .after fun _ => .after fun _ =>
      (identifier_gives.commit.expecting _).bind fun _ hname => .pure (.package hname)
  have hshape : shapeItem.Gives Item.Readable :=
    .after fun _ => .after fun _ => .after fun _ =>
      (identifier_gives.commit.expecting _).bind fun _ hname =>
        field_gives.many.bind fun _ hfields =>
          .after fun _ => .after fun _ => .pure (.shape ⟨hname, hfields⟩)
  have hrule : ruleItem.Gives Item.Readable :=
    .after fun _ => .after fun _ => .after fun _ =>
      (identifier_gives.commit.expecting _).bind fun _ hname =>
        .after fun _ => .after fun _ => .after fun _ =>
          (condition_gives.commit.expecting _).bind fun _ hcondition =>
            consequence_gives.optional.bind fun actions hactions => by
              refine .pure (.rule ⟨hname, hcondition, ?_⟩)
              cases actions with
              | none => simp
              | some as => exact hactions as rfl
  exact hpackage.orElse (hshape.orElse hrule)

/-! ## Actions that are printed -/

theorem solid_printOperand {o : Operand} (ho : o.Readable)
    (hfloat : ∀ v, o = .literal v → ¬ v.IsFloat) : Solid (printOperand o) := by
  cases ho with
  | literal v => exact solid_printValue (hfloat v rfl)
  | path hname =>
      rw [printOperand, Path.text_ofString]
      exact hname.isName.solid

theorem operand_print {o : Operand} (ho : o.Readable)
    (hfloat : ∀ v, o = .literal v → ¬ v.IsFloat) {s r : List Char}
    (hs : skipBlanks s = printOperand o ++ r) (hr : Ends r) : operand.Reads s o r := by
  refine after_blanks (.expecting _ ?_)
  cases ho with
  | literal v =>
      refine Reads.orElse (.map _ (value_reads (hfloat v rfl) ?_ hr))
      rw [skipBlanks_skipBlanks]
      exact hs
  | @path name hname =>
      rw [printOperand, Path.text_ofString] at hs
      rw [hs]
      -- the run of name characters is the name, so it begins with no truth value
      have hnot {word : List Char} (hparts : ∀ c ∈ word, isNamePart c = true)
          (hword : ¬ word <+: name.toList) : ¬ word <+: name.toList ++ r := by
        rintro ⟨more, hmore⟩
        apply hword
        have hrun := congrArg (List.takeWhile isNamePart) hmore
        rw [takeWhile_append hname.isName.isNamePart hr, List.takeWhile_append_of_pos hparts]
          at hrun
        exact ⟨_, hrun⟩
      have hvalue : value.Refuses (name.toList ++ r) := by
        have htrue := hnot (List.all_eq_true.mp (by decide)) hname.not_true
        have hfalse := hnot (List.all_eq_true.mp (by decide)) hname.not_false
        obtain ⟨c, t, heq, hstart, -⟩ := hname.isName
        rw [heq] at htrue hfalse ⊢
        exact value_refuses hstart htrue hfalse
      exact hvalue.map.orElse ((identifier_reads hname.isName hr).map _)

theorem spaces_solid {text r : List Char} (h : Solid text) :
    spaces.Reads (' ' :: (text ++ r)) () (text ++ r) := by
  obtain ⟨c, t, rfl, hblank, -⟩ := h
  apply spaces_reads
  intro d hd
  obtain rfl : c = d := Option.some.inj hd
  simp only [isBlank, Bool.or_eq_false_iff] at hblank ⊢
  exact hblank.1.1.1

theorem solid_printString (s : String) : Solid (printString s) :=
  ⟨'\"', _, rfl, rfl, by decide⟩

/-- **Actions are read as they are printed**, if no name goes on behind them. -/
theorem action_print {a : Action} (ha : a.Readable) (hfloat : ¬ a.HasFloat) {s r : List Char}
    (hs : skipBlanks s = printAction a ++ r) (hr : Ends r) : action.Reads s a r := by
  refine after_blanks ?_
  rw [hs]
  cases ha with
  | @set key operand hkey hoperand =>
      have htext : printAction (.set key operand) ++ r = "set".toList ++
          ' ' :: (key.toList ++ ' ' :: '=' :: ' ' :: (printOperand operand ++ r)) := by
        unfold printAction
        simp
      have hliteral : ∀ v, operand = .literal v → ¬ v.IsFloat := by
        rintro v rfl
        exact hfloat
      have hoperand' : skipBlanks (' ' :: (printOperand operand ++ r)) =
          printOperand operand ++ r := by
        rw [skipBlanks_space, (solid_printOperand hoperand hliteral).skipBlanks_append]
      have hequals : skipBlanks (' ' :: '=' :: ' ' :: (printOperand operand ++ r)) =
          '=' :: ' ' :: (printOperand operand ++ r) := by
        rw [skipBlanks_space, skipBlanks_of_solid _ rfl (by decide)]
      rw [htext]
      refine Reads.orElse ((word_reads "set".toList _).bind ((spaces_solid hkey.solid).bind ?_))
      refine ((identifier_reads hkey (ends_space _)).commit.expecting _).bind ?_
      refine (blanks_reads _).bind ?_
      rw [hequals]
      refine (char_reads '=' _).commit.bind ?_
      exact (operand_print hoperand hliteral hoperand' hr).commit.bind .pure
  | fail message =>
      have htext : printAction (.fail message) ++ r =
          "fail".toList ++ ' ' :: (printString message ++ r) := by
        unfold printAction
        simp
      rw [htext]
      refine (word_refuses_of_head (c := 's') (by simp)).bind.orElse (.orElse ?_)
      refine (word_reads "fail".toList _).bind ((spaces_solid (solid_printString _)).bind ?_)
      exact ((stringLiteral_reads message r).commit.expecting _).bind .pure
  | log message =>
      have htext : printAction (.log message) ++ r =
          "log".toList ++ ' ' :: (printString message ++ r) := by
        unfold printAction
        simp
      rw [htext]
      refine (word_refuses_of_head (c := 's') (by simp)).bind.orElse ?_
      refine (word_refuses_of_head (c := 'f') (by simp)).bind.orElse ?_
      refine (word_reads "log".toList _).bind ((spaces_solid (solid_printString _)).bind ?_)
      exact ((stringLiteral_reads message r).commit.expecting _).bind .pure

theorem solid_printAction {a : Action} (ha : a.Readable) : Solid (printAction a) := by
  cases ha with
  | set => exact ⟨'s', _, rfl, rfl, by decide⟩
  | fail => exact ⟨'f', _, rfl, rfl, by decide⟩
  | log => exact ⟨'l', _, rfl, rfl, by decide⟩

/-! ## Fields that are printed -/

/-- Names with commas and spaces between them. -/
theorem intercalate_names (name : String) (names : List String) :
    (", ".intercalate (name :: names)).toList =
      name.toList ++ names.flatMap fun other => ", ".toList ++ other.toList := by
  rw [String.toList_intercalate]
  induction names generalizing name with
  | nil => simp
  | cons other names ih =>
      rw [List.map_cons, List.map_cons, List.intercalate_cons_cons, ← List.map_cons, ih]
      simp

theorem variant_reads {name : String} (hname : IsName name) {s r : List Char}
    (hs : skipBlanks s = name.toList ++ r) (hr : Ends r) (hsolid : skipBlanks r = r) :
    variant.Reads s name r := by
  refine after_blanks ?_
  rw [hs]
  refine (identifier_reads hname hr).bind ((blanks_reads r).bind ?_)
  rw [hsolid]
  exact .pure

/-- The other variants, each behind a comma, and the closing parenthesis. -/
def variantsTail (names : List String) (r : List Char) : List Char :=
  (names.flatMap fun name => ", ".toList ++ name.toList) ++ ')' :: r

theorem variantsTail_head (names : List String) (r : List Char) :
    Ends (variantsTail names r) ∧ skipBlanks (variantsTail names r) = variantsTail names r := by
  cases names with
  | nil => exact ⟨(closes_paren r).ends, skipBlanks_of_solid r rfl (by decide)⟩
  | cons name names =>
      have htext : variantsTail (name :: names) r =
          ',' :: ' ' :: (name.toList ++ variantsTail names r) := by
        simp [variantsTail]
      rw [htext]
      exact ⟨by simp [Ends, isNamePart], skipBlanks_of_solid _ rfl (by decide)⟩

theorem variantsTail_reads {names : List String} (hnames : ∀ name ∈ names, IsName name)
    (r : List Char) :
    Reads (many do char ','; variant) (variantsTail names r) names (')' :: r) := by
  induction names with
  | nil => exact Refuses.many_nil (char_refuses (by simp [variantsTail])).bind
  | cons name names ih =>
      obtain ⟨hname, hrest⟩ := List.forall_mem_cons.mp hnames
      obtain ⟨hends, hsolid⟩ := variantsTail_head names r
      have htext : variantsTail (name :: names) r =
          ',' :: ' ' :: (name.toList ++ variantsTail names r) := by
        simp [variantsTail]
      have hvariant : variant.Reads (' ' :: (name.toList ++ variantsTail names r)) name
          (variantsTail names r) := by
        refine variant_reads hname ?_ hends hsolid
        rw [skipBlanks_space, hname.solid.skipBlanks_append]
      rw [htext]
      refine Reads.many_cons ((char_reads ',' _).bind hvariant) ?_ (ih hrest)
      simp only [List.length_cons, List.length_append]
      omega

theorem enumType_reads {names : List String} (hne : names ≠ [])
    (hnames : ∀ name ∈ names, IsName name) (r : List Char) :
    enumType.Reads ((FieldType.enum names).text.toList ++ r) (.enum names) r := by
  obtain ⟨first, others, rfl⟩ := List.exists_cons_of_ne_nil hne
  obtain ⟨hfirst, hothers⟩ := List.forall_mem_cons.mp hnames
  have htext : (FieldType.enum (first :: others)).text.toList ++ r =
      "enum".toList ++ '(' :: (first.toList ++ variantsTail others r) := by
    rw [FieldType.text, String.toList_append, String.toList_append, intercalate_names]
    simp [variantsTail]
  obtain ⟨hends, hsolid⟩ := variantsTail_head others r
  have hvariants : variants.Reads (first.toList ++ variantsTail others r) (first :: others)
      (')' :: r) :=
    (variant_reads hfirst (hfirst.solid.skipBlanks_append _) hends hsolid).bind
      ((variantsTail_reads hothers r).bind .pure)
  have hparen : skipBlanks ('(' :: (first.toList ++ variantsTail others r)) =
      '(' :: (first.toList ++ variantsTail others r) :=
    skipBlanks_of_solid _ rfl (by decide)
  rw [htext]
  refine (word_reads "enum".toList _).bind ((blanks_reads _).bind ?_)
  rw [hparen]
  exact (char_reads '(' _).bind ((hvariants.commit.expecting _).bind
    ((char_reads ')' r).commit.bind .pure))

/-- A name is no enumeration, even if it begins as one. -/
theorem enumType_refuses {name : String} (hname : IsName name) {r : List Char} (hr : Ends r)
    (hparen : (skipBlanks r).head? ≠ some '(') : enumType.Refuses (name.toList ++ r) := by
  by_cases hword : "enum".toList <+: name.toList ++ r
  · obtain ⟨t, ht⟩ := hword
    have henum : ∀ c ∈ "enum".toList, isNamePart c = true := List.all_eq_true.mp (by decide)
    have hsplit : t = t.takeWhile isNamePart ++ r := by
      have hdrop := congrArg (List.dropWhile isNamePart) ht
      rw [List.dropWhile_append_of_pos henum, dropWhile_append hname.isNamePart hr] at hdrop
      rw [← hdrop, List.takeWhile_append_dropWhile]
    have hhead : (skipBlanks t).head? ≠ some '(' := by
      cases hrun : t.takeWhile isNamePart with
      | nil =>
          rw [hsplit, hrun]
          exact hparen
      | cons c u =>
          have hc : isNamePart c = true := List.mem_takeWhile_imp (l := t) (by simp [hrun])
          rw [hsplit, hrun, (solid_of_isNamePart u hc).skipBlanks_append]
          exact head?_ne_of_class hc rfl
    rw [← ht]
    exact (word_reads _ t).bind_refuses ((blanks_reads t).bind_refuses (char_refuses hhead).bind)
  · exact (word_refuses hword).bind

/-- The text of a type that a name stands for is a name that stands for it. -/
theorem text_ofName {name : String} (hname : IsName name) :
    IsName (FieldType.ofName name).text ∧
      FieldType.ofName (FieldType.ofName name).text = FieldType.ofName name := by
  by_cases hint : name = "int" ∨ name = "long"
  · rcases hint with rfl | rfl <;> exact ⟨isName_of (by decide), rfl⟩
  by_cases hfloat : name = "float" ∨ name = "double"
  · rcases hfloat with rfl | rfl <;> exact ⟨isName_of (by decide), rfl⟩
  by_cases hbool : name = "bool" ∨ name = "boolean"
  · rcases hbool with rfl | rfl <;> exact ⟨isName_of (by decide), rfl⟩
  by_cases hstring : name = "string" ∨ name = "String"
  · rcases hstring with rfl | rfl <;> exact ⟨isName_of (by decide), rfl⟩
  · have hshape : FieldType.ofName name = .shape name := by
      simp [FieldType.ofName, not_or.mp hint, not_or.mp hfloat, not_or.mp hbool,
        not_or.mp hstring]
    rw [hshape]
    exact ⟨hname, hshape⟩

theorem solid_text {type : FieldType} (ht : type.Readable) : Solid type.text.toList := by
  cases ht with
  | enum =>
      rw [FieldType.text, String.toList_append, String.toList_append, List.append_assoc]
      exact ⟨'e', _, rfl, rfl, by decide⟩
  | named hname => exact (text_ofName hname).1.solid

theorem fieldType_print {type : FieldType} (ht : type.Readable) {s r : List Char}
    (hs : skipBlanks s = type.text.toList ++ r) (hr : Ends r)
    (hparen : (skipBlanks r).head? ≠ some '(') : fieldType.Reads s type r := by
  refine after_blanks (.expecting _ ?_)
  rw [hs]
  cases ht with
  | enum hne hnames => exact (enumType_reads hne hnames r).orElse
  | @named name hname =>
      obtain ⟨hisName, hsame⟩ := text_ofName hname
      refine (enumType_refuses hisName hr hparen).orElse ?_
      have hread := (identifier_reads hisName hr).map FieldType.ofName
      rwa [hsame] at hread

theorem ends_newline (r : List Char) : Ends ('\n' :: r) := by
  simp [Ends, isNamePart]

/-- Behind the blanks, a field begins with its name. -/
theorem skipBlanks_printField {f : Field} (hf : f.Readable) (r : List Char) :
    skipBlanks (printField f ++ r) =
      f.name.toList ++ (':' :: ' ' :: f.type.text.toList) ++ '\n' :: r := by
  have hline : printField f ++ r =
      ' ' :: ' ' :: (f.name.toList ++ ((':' :: ' ' :: f.type.text.toList) ++ '\n' :: r)) := by
    unfold printField
    simp
  rw [hline, skipBlanks_space, skipBlanks_space, hf.name.solid.skipBlanks_append,
    List.append_assoc]

/-- A field is read up to the end of its line. -/
theorem field_print {f : Field} (hf : f.Readable) {s r : List Char}
    (hs : skipBlanks s = skipBlanks (printField f ++ r))
    (hparen : (skipBlanks r).head? ≠ some '(') : ReadsLine field s f r := by
  have htype : (skipBlanks (' ' :: (f.type.text.toList ++ '\n' :: r))) =
      f.type.text.toList ++ '\n' :: r := by
    rw [skipBlanks_space, (solid_text hf.type).skipBlanks_append]
  rw [skipBlanks_printField hf] at hs
  refine readsLine_of_reads hs (by simp) (after_blanks ?_)
  rw [hs, List.append_assoc]
  refine (identifier_reads hf.name (by simp [Ends, isNamePart])).bind ((blanks_reads _).bind ?_)
  rw [List.cons_append, skipBlanks_of_solid _ rfl (by decide)]
  refine (char_reads ':' _).bind ?_
  refine (fieldType_print hf.type htype (ends_newline r) ?_).commit.bind .pure
  rw [skipBlanks_newline]
  exact hparen

/-- The word that ends a shape is no field, since no colon stands behind it. -/
theorem field_refuses_end {s r : List Char} (hs : skipBlanks s = "end".toList ++ '\n' :: r)
    (hcolon : (skipBlanks r).head? ≠ some ':') : field.Refuses s := by
  have hisName : IsName "end" := isName_of (by decide)
  refine (blanks_reads s).bind_refuses ?_
  rw [hs]
  refine (identifier_reads hisName (ends_newline r)).bind_refuses ?_
  refine (blanks_reads _).bind_refuses (char_refuses ?_).bind
  rw [skipBlanks_newline]
  exact hcolon

/-! ## Items that are printed -/

/-- The canonical text of a package line. -/
def printLine (name : String) : List Char := "package ".toList ++ name.toList ++ ['\n']

/-- The canonical text of an item. -/
def printItem : Item → List Char
  | .package name => printLine name
  | .shape s => printShape s
  | .rule r => printRule r

/-- Up to blanks, an item begins here or the text ends. -/
def Fronts (r : List Char) : Prop := ∀ c ∈ (skipBlanks r).head?, c ∈ ['p', 'd', 'r']

theorem Fronts.head?_ne {r : List Char} (h : Fronts r) {c : Char} (hc : c ∉ ['p', 'd', 'r']) :
    (skipBlanks r).head? ≠ some c :=
  fun hhead => hc (h c hhead)

theorem Fronts.closes {r : List Char} (h : Fronts r) : Closes ('\n' :: r) := by
  apply closes_of_skipBlanks (ends_newline r)
  intro c hc
  rw [skipBlanks_newline] at hc
  have hfront := h c hc
  simp only [List.mem_cons, List.not_mem_nil, or_false] at hfront
  rcases hfront with rfl | rfl | rfl <;> decide

theorem fronts_append {c : Char} {text : List Char} (htext : text.head? = some c)
    (hc : c ∈ ['p', 'd', 'r']) (r : List Char) : Fronts (text ++ r) := by
  have hpart : isNamePart c = true := by
    simp only [List.mem_cons, List.not_mem_nil, or_false] at hc
    rcases hc with rfl | rfl | rfl <;> rfl
  cases text with
  | nil => cases htext
  | cons c' u =>
      obtain rfl := Option.some.inj htext
      intro d hd
      rw [(solid_of_isNamePart u hpart).skipBlanks_append] at hd
      obtain rfl : c' = d := Option.some.inj hd
      exact hc

theorem fronts_printItem (i : Item) (r : List Char) : Fronts (printItem i ++ r) := by
  cases i with
  | package name =>
      show Fronts (printLine name ++ r)
      unfold printLine
      rw [List.append_assoc, List.append_assoc]
      exact fronts_append (c := 'p') (by decide) (by simp) _
  | shape s =>
      show Fronts (printShape s ++ r)
      unfold printShape
      simp only [List.append_assoc]
      exact fronts_append (c := 'd') (by decide) (by simp) _
  | rule rule =>
      show Fronts (printRule rule ++ r)
      unfold printRule
      simp only [List.append_assoc]
      exact fronts_append (c := 'r') (by decide) (by simp) _

/-! ### Packages and shapes -/

theorem packageItem_print {name : String} (hname : IsName name) {s r : List Char}
    (hs : skipBlanks s = skipBlanks (printLine name ++ r)) :
    ReadsLine item s (.package name) r := by
  have hline : printLine name ++ r =
      "package".toList ++ (' ' :: name.toList ++ '\n' :: r) := by
    unfold printLine
    simp
  have hword : Solid "package".toList := (isName_of (by decide)).solid
  rw [hline, hword.skipBlanks_append, ← List.append_assoc] at hs
  refine readsLine_of_reads hs (by simp) (Reads.orElse (after_blanks ?_))
  rw [hs, List.append_assoc, List.cons_append]
  refine (word_reads "package".toList _).bind ((spaces_solid hname.solid).bind ?_)
  exact ((identifier_reads hname (ends_newline r)).commit.expecting _).bind .pure

/-- All fields of a shape are read, and what is left is the word that ends it. -/
theorem fields_print {fields : List Field} (hfields : ∀ f ∈ fields, f.Readable)
    {s r : List Char} (hcolon : (skipBlanks r).head? ≠ some ':')
    (hs : skipBlanks s = skipBlanks (fields.flatMap printField ++ ("end\n".toList ++ r))) :
    ∃ t, Reads (many field) s fields t ∧ skipBlanks t = "end".toList ++ '\n' :: r ∧
      t.length ≤ s.length := by
  have hend : skipBlanks ("end\n".toList ++ r) = "end".toList ++ '\n' :: r :=
    skipBlanks_of_solid _ rfl (by decide)
  have hparen (fs : List Field) (hfs : ∀ f ∈ fs, f.Readable) :
      (skipBlanks (fs.flatMap printField ++ ("end\n".toList ++ r))).head? ≠ some '(' := by
    cases fs with
    | nil =>
        rw [List.flatMap_nil, List.nil_append, hend]
        simp
    | cons f fs =>
        have hf : f.Readable := hfs f List.mem_cons_self
        rw [List.flatMap_cons, List.append_assoc, skipBlanks_printField hf]
        obtain ⟨c, u, hc, hstart, -⟩ := hf.name
        rw [hc]
        exact head?_ne_of_class hstart rfl
  obtain ⟨t, hread, ht, hle⟩ := many_print
    (fun f fs s hf hfs hs => field_print hf hs (hparen fs hfs))
    (fun s hs => field_refuses_end (hs.trans hend) hcolon) fields hfields hs
  exact ⟨t, hread, ht.trans hend, hle⟩

theorem shapeItem_print {shape : Shape} (hshape : shape.Readable) {s r : List Char}
    (hs : skipBlanks s = skipBlanks (printShape shape ++ r)) (hr : Fronts r) :
    ReadsLine item s (.shape shape) r := by
  have hline : printShape shape ++ r = "declare".toList ++
      ' ' :: (shape.name.toList ++
        '\n' :: (shape.fields.flatMap printField ++ ("end\n".toList ++ r))) := by
    unfold printShape
    simp
  have hword : Solid "declare".toList := (isName_of (by decide)).solid
  rw [hline, hword.skipBlanks_append] at hs
  obtain ⟨t, hfields, ht, hle⟩ := fields_print hshape.fields (hr.head?_ne (by decide))
    (skipBlanks_newline (shape.fields.flatMap printField ++ ("end\n".toList ++ r)))
  have hpackage : packageItem.Refuses s := blanks_word_refuses (c := 'p') (by simp [hs])
  have hread : shapeItem.Reads s (.shape shape) ('\n' :: r) := by
    refine after_blanks ?_
    rw [hs]
    refine (word_reads "declare".toList _).bind ((spaces_solid hshape.name.solid).bind ?_)
    refine ((identifier_reads hshape.name (ends_newline _)).commit.expecting _).bind ?_
    refine hfields.bind ((blanks_reads t).bind ?_)
    rw [ht]
    exact ((word_reads "end".toList _).commit.expecting _).bind .pure
  refine ⟨'\n' :: r, hpackage.orElse hread.orElse, skipBlanks_newline r, ?_⟩
  have hlength := length_skipBlanks_le s
  rw [hs] at hlength
  simp only [List.length_append, List.length_cons] at hlength ⊢
  omega

/-! ### Rules -/

/-- A priority, or none, is read up to the colon behind it. -/
theorem priority_print (p : Option UInt32) (r : List Char) :
    priority.optional.Reads (printPriority p ++ ':' :: r) p (':' :: r) := by
  cases p with
  | none =>
      have hrefuse : priority.Refuses (':' :: r) := by
        refine (blanks_reads _).bind_refuses (char_refuses ?_).bind
        rw [skipBlanks_of_solid _ rfl (by decide)]
        simp
      exact hrefuse.optional
  | some n =>
      have htext : printPriority (some n) ++ ':' :: r =
          ' ' :: '(' :: ("priority".toList ++
            ' ' :: (Nat.toDigits 10 n.toNat ++ ')' :: ':' :: r)) := by
        rw [← Decimal.toList_toString_nat]
        unfold printPriority
        simp
      have hword : Solid "priority".toList := (isName_of (by decide)).solid
      have hdigits : skipBlanks (' ' :: (Nat.toDigits 10 n.toNat ++ ')' :: ':' :: r)) =
          Nat.toDigits 10 n.toNat ++ ')' :: ':' :: r := by
        obtain ⟨c, u, heq, hdigit⟩ := toDigits_cons n.toNat
        rw [skipBlanks_space, heq,
          (solid_of_isNamePart u (isNamePart_of_isDigit hdigit)).skipBlanks_append]
      have hlt : n.toNat < 2 ^ 32 := n.toNat_lt
      have hvalue : (Int64.ofNat n.toNat).toInt = n.toNat :=
        Int64.toInt_ofNat_of_lt (Nat.lt_trans hlt (by decide))
      have hends : ∀ c ∈ (')' :: ':' :: r).head?, c.isDigit = false :=
        (closes_paren (':' :: r)).ends.not_digit
      rw [htext]
      refine Reads.optional (after_blanks ?_)
      rw [skipBlanks_space, skipBlanks_of_solid _ rfl (by decide)]
      refine (char_reads '(' _).bind ((blanks_reads _).bind ?_)
      rw [hword.skipBlanks_append]
      refine (word_reads "priority".toList _).bind ((blanks_reads _).bind ?_)
      rw [hdigits]
      refine (integer_reads hvalue hends).commit.bind ((blanks_reads _).bind ?_)
      rw [skipBlanks_of_solid _ rfl (by decide)]
      refine (char_reads ')' _).commit.bind ?_
      -- what is printed fits into a priority again
      have hfits : (0 ≤ (n.toNat : Int) && (n.toNat : Int) < UInt32.size) = true := by
        simp only [Bool.and_eq_true, decide_eq_true_eq, UInt32.size]
        omega
      simp only [hvalue]
      rw [if_pos hfits, Int.toNat_natCast, UInt32.ofNat_toNat]
      exact .pure

theorem ends_printPriority (p : Option UInt32) (r : List Char) :
    Ends (printPriority p ++ ':' :: r) := by
  cases p with
  | none =>
      show Ends (':' :: r)
      simp [Ends, isNamePart]
  | some n => exact ends_space _

theorem action_refuses {s r : List Char} (hs : skipBlanks s = skipBlanks r) (hr : Fronts r) :
    action.Refuses s := by
  refine (blanks_reads s).bind_refuses ?_
  rw [hs]
  refine (word_refuses_of_head (c := 's') (hr.head?_ne (by decide))).bind.orElse_refuses ?_
  refine (word_refuses_of_head (c := 'f') (hr.head?_ne (by decide))).bind.orElse_refuses ?_
  exact (word_refuses_of_head (c := 'l') (hr.head?_ne (by decide))).bind

/-- The line of an action. -/
def printActionLine (a : Action) : List Char := "    ".toList ++ printAction a ++ ['\n']

/-- The line of an action, from the first blank to the line end. -/
theorem printActionLine_append (a : Action) (r : List Char) :
    printActionLine a ++ r = ' ' :: ' ' :: ' ' :: ' ' :: (printAction a ++ '\n' :: r) := by
  unfold printActionLine
  simp

theorem skipBlanks_printActionLine {a : Action} (ha : a.Readable) (r : List Char) :
    skipBlanks (printActionLine a ++ r) = printAction a ++ '\n' :: r := by
  rw [printActionLine_append]
  simp only [skipBlanks_space]
  exact (solid_printAction ha).skipBlanks_append _

/-- All actions of a rule are read. -/
theorem actions_print {actions : List Action} (hactions : ∀ a ∈ actions, a.Readable ∧ ¬ a.HasFloat)
    {s r : List Char} (hr : Fronts r)
    (hs : skipBlanks s = skipBlanks (actions.flatMap printActionLine ++ r)) :
    ∃ t, Reads (many action) s actions t ∧ skipBlanks t = skipBlanks r ∧
      t.length ≤ s.length := by
  have hline (a : Action) (as : List Action) (s : List Char) (ha : a.Readable ∧ ¬ a.HasFloat)
      (_ : ∀ b ∈ as, b.Readable ∧ ¬ b.HasFloat)
      (hs : skipBlanks s = skipBlanks (printActionLine a ++ (as.flatMap printActionLine ++ r))) :
      ReadsLine action s a (as.flatMap printActionLine ++ r) := by
    rw [skipBlanks_printActionLine ha.1] at hs
    obtain ⟨c, u, heq, -⟩ := solid_printAction ha.1
    exact readsLine_of_reads hs (by simp [heq]) (action_print ha.1 ha.2 hs (ends_newline _))
  exact many_print hline (fun s hs => action_refuses hs hr) actions hactions hs

/-- The consequence of a rule is read with all its actions. -/
theorem consequence_print {actions : List Action} (hne : actions ≠ [])
    (hactions : ∀ a ∈ actions, a.Readable ∧ ¬ a.HasFloat) {s r : List Char} (hr : Fronts r)
    (hs : skipBlanks s = "then".toList ++ '\n' :: (printActions actions ++ r)) :
    ∃ t, consequence.Reads s actions t ∧ skipBlanks t = skipBlanks r ∧
      t.length ≤ s.length := by
  obtain ⟨a, as, rfl⟩ := List.exists_cons_of_ne_nil hne
  obtain ⟨⟨ha, hfloat⟩, has⟩ := List.forall_mem_cons.mp hactions
  have hfirst : printActions (a :: as) ++ r =
      printActionLine a ++ (as.flatMap printActionLine ++ r) := by
    rw [← List.append_assoc]
    rfl
  rw [hfirst, printActionLine_append] at hs
  obtain ⟨t, hmany, ht, hle⟩ :=
    actions_print has hr (skipBlanks_newline (as.flatMap printActionLine ++ r))
  have hsolid := (solid_printAction ha).skipBlanks_append
    ('\n' :: (as.flatMap printActionLine ++ r))
  have hspace : spacesOrLines.Reads ("\n    ".toList ++
      (printAction a ++ '\n' :: (as.flatMap printActionLine ++ r))) ()
      (printAction a ++ '\n' :: (as.flatMap printActionLine ++ r)) := by
    obtain ⟨c, u, heq, hblank, -⟩ := solid_printAction ha
    refine (takeWhile1_reads (by decide) (List.all_eq_true.mp (by decide)) ?_).bind .pure
    intro d hd
    rw [heq] at hd
    obtain rfl : c = d := Option.some.inj hd
    simp only [isBlank, Bool.or_eq_false_iff] at hblank ⊢
    tauto
  refine ⟨t, after_blanks ?_, ht, ?_⟩
  · rw [hs]
    refine (word_reads "then".toList _).bind (hspace.bind (.expecting _ (Reads.commit ?_)))
    exact (action_print ha hfloat hsolid (ends_newline _)).many1 hmany
  · have hlength := length_skipBlanks_le s
    rw [hs] at hlength
    simp only [List.length_append, List.length_cons] at hlength hle
    omega

/-- What stands behind the line of a condition: nothing if there are no actions. -/
def printConsequence (actions : List Action) : List Char :=
  if actions.isEmpty then [] else "  then\n".toList ++ printActions actions

theorem skipBlanks_printConsequence {actions : List Action} (hne : actions ≠ [])
    (r : List Char) : skipBlanks (printConsequence actions ++ r) =
      "then".toList ++ '\n' :: (printActions actions ++ r) := by
  have htext : printConsequence actions ++ r =
      ' ' :: ' ' :: ("then".toList ++ '\n' :: (printActions actions ++ r)) := by
    unfold printConsequence
    simp [hne]
  have hword : Solid "then".toList := (isName_of (by decide)).solid
  rw [htext, skipBlanks_space, skipBlanks_space, hword.skipBlanks_append]

/-- A condition does not go on behind its line. -/
theorem closes_printConsequence (actions : List Action) {r : List Char} (hr : Fronts r) :
    Closes ('\n' :: (printConsequence actions ++ r)) := by
  cases actions with
  | nil => exact hr.closes
  | cons a as =>
      apply closes_of_skipBlanks (ends_newline _)
      rw [skipBlanks_newline, skipBlanks_printConsequence (List.cons_ne_nil a as)]
      simp

theorem optional_consequence_print {actions : List Action}
    (hactions : ∀ a ∈ actions, a.Readable ∧ ¬ a.HasFloat) {s r : List Char} (hr : Fronts r)
    (hs : skipBlanks s = skipBlanks (printConsequence actions ++ r)) :
    ∃ o t, consequence.optional.Reads s o t ∧ o.getD [] = actions ∧
      skipBlanks t = skipBlanks r ∧ t.length ≤ s.length := by
  cases actions with
  | nil =>
      have hhead : (skipBlanks s).head? ≠ some 't' := by
        rw [hs]
        exact hr.head?_ne (by decide)
      have hrefuse : consequence.Refuses s := blanks_word_refuses hhead
      exact ⟨none, s, hrefuse.optional, rfl, hs, Nat.le_refl _⟩
  | cons a as =>
      have hne : a :: as ≠ [] := List.cons_ne_nil a as
      rw [skipBlanks_printConsequence hne] at hs
      obtain ⟨t, hread, ht, hle⟩ := consequence_print hne hactions hr hs
      exact ⟨some (a :: as), t, hread.optional, rfl, ht, hle⟩

/-- **Rules are read as they are printed**, up to blanks, in front of another item or the
end of the text. -/
theorem ruleItem_print {rule : Rule} (hrule : rule.Readable) (hfloat : ¬ rule.HasFloat)
    {s r : List Char} (hs : skipBlanks s = skipBlanks (printRule rule ++ r)) (hr : Fronts r) :
    ReadsLine item s (.rule rule) r := by
  obtain ⟨hcondition, hactions⟩ := not_or.mp hfloat
  have hline : printRule rule ++ r = "rule".toList ++
      ' ' :: (rule.name.toList ++ (printPriority rule.priority ++
        ':' :: '\n' :: ' ' :: ' ' :: (printCondition rule.condition ++
          '\n' :: (printConsequence rule.actions ++ r)))) := by
    have hname : "rule ".toList = "rule".toList ++ [' '] := rfl
    have hcolon : ":\n  ".toList = [':', '\n', ' ', ' '] := rfl
    unfold printRule
    rw [hname, hcolon]
    simp only [List.append_assoc, List.cons_append, List.nil_append]
    rfl
  have hword : Solid "rule".toList := (isName_of (by decide)).solid
  rw [hline, hword.skipBlanks_append] at hs
  have hbody : skipBlanks ('\n' :: ' ' :: ' ' :: (printCondition rule.condition ++
      '\n' :: (printConsequence rule.actions ++ r))) =
        printCondition rule.condition ++ '\n' :: (printConsequence rule.actions ++ r) := by
    rw [skipBlanks_newline, skipBlanks_space, skipBlanks_space,
      (solid_printCondition hrule.condition).skipBlanks_append]
  obtain ⟨o, t, hoptional, ho, ht, hle⟩ := optional_consequence_print
    (fun a ha => ⟨hrule.actions a ha, fun h => hactions ⟨a, ha, h⟩⟩) hr
    (skipBlanks_newline (printConsequence rule.actions ++ r))
  have hpackage : packageItem.Refuses s := blanks_word_refuses (c := 'p') (by simp [hs])
  have hshape : shapeItem.Refuses s := blanks_word_refuses (c := 'd') (by simp [hs])
  have hread : ruleItem.Reads s (.rule rule) t := by
    refine after_blanks ?_
    rw [hs]
    refine (word_reads "rule".toList _).bind ((spaces_solid hrule.name.solid).bind ?_)
    refine ((identifier_reads hrule.name (ends_printPriority _ _)).commit.expecting _).bind ?_
    refine (priority_print rule.priority _).bind ((blanks_reads _).bind ?_)
    rw [skipBlanks_of_solid _ rfl (by decide)]
    refine (char_reads ':' _).commit.bind ?_
    refine ((condition_print hrule.condition hcondition hbody
      (closes_printConsequence _ hr)).commit.expecting _).bind (hoptional.bind ?_)
    rw [ho]
    exact .pure
  refine ⟨t, hpackage.orElse (hshape.orElse hread), ht, ?_⟩
  have hlength := length_skipBlanks_le s
  rw [hs] at hlength
  simp only [List.length_append, List.length_cons] at hlength hle
  omega

/-- **Items are read as they are printed**, up to blanks, in front of another item or the
end of the text. -/
theorem item_print {i : Item} (hi : i.Readable) (hfloat : ∀ rule, i = .rule rule → ¬ rule.HasFloat)
    {s r : List Char} (hs : skipBlanks s = skipBlanks (printItem i ++ r)) (hr : Fronts r) :
    ReadsLine item s i r := by
  cases hi with
  | package hname => exact packageItem_print hname hs
  | shape hshape => exact shapeItem_print hshape hs hr
  | rule hrule => exact ruleItem_print hrule (hfloat _ rfl) hs hr

/-- No item begins at the end of the text. -/
theorem item_refuses_end {s : List Char} (hs : skipBlanks s = []) : item.Refuses s := by
  have hhead (c : Char) : (skipBlanks s).head? ≠ some c := by simp [hs]
  have hpackage : packageItem.Refuses s := blanks_word_refuses (hhead 'p')
  have hshape : shapeItem.Refuses s := blanks_word_refuses (hhead 'd')
  have hrule : ruleItem.Refuses s := blanks_word_refuses (hhead 'r')
  exact hpackage.orElse_refuses (hshape.orElse_refuses hrule)

end Source

end Rulebook
