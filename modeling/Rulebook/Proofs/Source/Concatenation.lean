/-
  Proofs/Source/Concatenation.lean --- one text behind another.

  A text with a line end and another text behind it has the items of both, in order: items
  have no end of their own, but what could go on with one never begins the next one
  (`item_carries`).  Packages are not simply listed one after another, since the second text
  begins without a package line: its first items join the package that the first text opened
  last.  That package may be empty so far, and then reading the first text alone drops it;
  so packages are compared before the empty ones are dropped (`opened`, `settle`).
-/
import Rulebook.Program.Check
import Rulebook.Proofs.Source.Continuation

set_option autoImplicit false

namespace Rulebook

namespace Source

open Reader

/-! ## Items in front of more text -/

section

variable {t : List Char} {R : List Char → Prop}

/-! ### Actions -/

theorem operand_carries : Carries t operand operand (Behind Fresh) R := by
  refine (blanks_carries_behind rfl).bind fun _ => .expecting _ ?_
  have hfront {s : List Char} (hs : Begins isNameStart s) : Behind isNameStart s :=
    hs.behind fun _ => isNamePart_of_isNameStart
  exact (value_carries.map _).orElse (identifier_carries.map _)
    (fun s hs h => (value_refuses_line (hfront hs) (Refuses.of_map h)).map)
    (fun s hs => (hfront hs).fresh rfl)

theorem setAction_carries : Carries t setAction setAction (Begins (· == 's')) R :=
  (word_carries (by decide)).bind fun _ => spaces_carries.bind fun _ =>
    (identifier_carries.commit.expecting _ |>.weaken fun _ _ => trivial).bind fun _ =>
      (blanks_carries rfl).bind fun _ => (char_carries (by decide)).commit.bind fun _ =>
        operand_carries.commit.bind fun _ => .pure _

theorem failAction_carries : Carries t failAction failAction (Begins (· == 'f')) R :=
  (word_carries (by decide)).bind fun _ => spaces_carries.bind fun _ =>
    (stringLiteral_carries.commit.expecting _).bind fun _ => .pure _

theorem logAction_carries : Carries t logAction logAction (Begins (· == 'l')) R :=
  (word_carries (by decide)).bind fun _ => spaces_carries.bind fun _ =>
    (stringLiteral_carries.commit.expecting _).bind fun _ => .pure _

theorem action_carries : Carries t action action (Behind Fresh) R := by
  refine (blanks_carries rfl).bind fun _ => ?_
  have hlog := logAction_carries (t := t) (R := R)
  have hfail : Carries t (failAction <|> logAction) (failAction <|> logAction)
      (Begins fun c => c == 'f' || c == 'l') R := by
    refine (failAction_carries.weaken fun s hs => hs.imp (by simp)).orElse hlog ?_ ?_
    · intro s hs _
      exact (word_refuses_of_head (hs.head?_ne rfl _)).bind
    · intro s hs
      exact hs.imp (by simp)
  refine (setAction_carries.weaken fun s hs => hs.fresh rfl).orElse hfail ?_ ?_
  · intro s hs _
    exact (word_refuses_of_head (hs.head?_ne rfl _)).bind
  · intro s hs
    exact hs.fresh rfl

/-- The actions of a rule end in front of an item or the end. -/
theorem consequence_carries (ht : Fronts t) :
    Carries t consequence consequence (Behind (· == 't')) Fronts := by
  refine (blanks_carries rfl).bind fun _ => (word_carries (by decide)).bind fun _ =>
    (spacesOrLines_carries.weaken fun _ _ => trivial).bind fun _ => .expecting _ (.commit ?_)
  have hmany : Carries t (many action) (many action) Anything Fronts :=
    action_carries.many action_moves (fun s hs _ => action_refuses rfl (hs.line ht))
      (fun _ _ => trivial) (fun _ _ => trivial)
  have hmany1 : Carries t action.many1 action.many1 (Behind Fresh) Fronts :=
    action_carries.bind fun _ => hmany.bind fun _ => .pure _
  refine hmany1.weaken ?_
  rintro s ⟨c, r, hs, -⟩ rfl
  rw [skipBlanks_nil] at hs
  cases hs

/-! ### Fields -/

theorem variant_carries : Carries t variant variant (Behind Fresh) (Begins Fresh) :=
  ((blanks_carries rfl).bind fun _ => identifier_carries.bind fun _ => (blanks_carries rfl).bind
    fun _ => .pure _).weaken fun _ hs => hs.fresh rfl

theorem variants_carries : Carries t variants variants (Behind Fresh) (Begins (· == ')')) := by
  have hother : Carries t (do char ','; variant) (do char ','; variant) (Begins (· == ','))
      (Begins Fresh) := (char_carries (by decide)).bind fun _ => variant_carries
  have hmoves : (do char ','; variant : Reader String).Moves :=
    (char_moves _).bind fun _ => blanks_shrinks.bind fun _ => identifier_moves.shrinks.bind
      fun _ => blanks_shrinks.bind fun _ => .pure _
  refine variant_carries.bind fun _ => Carries.bind (M := Begins (· == ')')) ?_ fun _ => .pure _
  exact hother.many hmoves (fun s hs _ => (char_refuses (hs.head?_ne rfl _)).bind)
    (fun s hs => hs.fresh rfl) (fun s hs => hs.fresh rfl)

theorem enumType_carries : Carries t enumType enumType (Begins (· == 'e')) R :=
  (word_carries (by decide)).bind fun _ => (blanks_carries rfl).bind fun _ =>
    (char_carries (by decide)).bind fun _ => (variants_carries.commit.expecting _).bind fun _ =>
      (char_carries (by decide)).commit.bind fun _ => .pure _

/-- The type of a field ends in front of the next name. -/
theorem fieldType_carries :
    Carries t fieldType fieldType (Behind Fresh) (Behind isNameStart) := by
  refine (blanks_carries rfl).bind fun _ => .expecting _ ?_
  have hnamed : Carries t (FieldType.ofName <$> identifier) (FieldType.ofName <$> identifier)
      (fun s => Begins isNameStart s ∧ enumType.Refuses (s ++ '\n' :: t))
      (Behind isNameStart) := by
    intro s type r h hr
    obtain ⟨name, hname, rfl⟩ := h.of_map
    obtain ⟨hs, hname'⟩ := identifier_carries (t := t) (R := Behind isNameStart) s name r hname hr
    obtain ⟨hisName, hsplit, hends⟩ := identifier_inv hname'
    refine ⟨⟨hs, ?_⟩, hname'.map _⟩
    rw [hsplit]
    refine enumType_refuses hisName hends ?_
    rw [hr.skipBlanks_line rfl]
    exact hr.head?_ne rfl _
  exact (enumType_carries.weaken fun s hs => hs.fresh rfl).orElse hnamed
    (fun s hs _ => hs.2) (fun s hs => hs.1.fresh rfl)

theorem field_carries :
    Carries t field field (Behind isNameStart) (Behind isNameStart) :=
  (blanks_carries rfl).bind fun _ => identifier_carries.bind fun _ => (blanks_carries rfl).bind
    fun _ => (char_carries (by decide)).bind fun _ => fieldType_carries.commit.bind fun _ => .pure _

theorem head?_ne_of_refuses {c : Char} {s : List Char} (h : (char c).Refuses s) :
    s.head? ≠ some c := by
  intro hhead
  cases s with
  | nil => cases hhead
  | cons d s =>
      cases hhead
      exact (char_reads c s).not_refuses h

/-- What is no field for want of a colon is none in front of more text. -/
theorem field_refuses_line (ht : Fronts t) {s : List Char} (hs : Behind isNameStart s)
    (h : field.Refuses s) : field.Refuses (s ++ '\n' :: t) := by
  refine (blanks_reads _).bind_refuses ?_
  rw [hs.skipBlanks_line rfl]
  rcases (refuses_of_after_blanks h).of_bind with hname | ⟨name, r, hname, h⟩
  · exact (inLine_identifier.refuses hname).bind
  refine (inLine_identifier.reads hname).bind_refuses ?_
  rcases (refuses_of_after_blanks h).of_bind with hcolon | ⟨_, _, -, h⟩
  · have hhead := head?_skipBlanks_line ht (by decide) (head?_ne_of_refuses hcolon)
    exact (blanks_reads _).bind_refuses (char_refuses hhead).bind
  · rcases h.of_bind with h | ⟨_, _, -, h⟩
    · exact absurd h not_refuses_commit
    · exact absurd h Reads.pure.not_refuses

/-! ### Items -/

theorem packageItem_carries : Carries t packageItem packageItem (Behind (· == 'p')) R :=
  (blanks_carries rfl).bind fun _ => (word_carries (by decide)).bind fun _ =>
    (spaces_carries.weaken fun _ _ => trivial).bind fun _ =>
      (identifier_carries.commit.expecting _).bind fun _ => .pure _

theorem priority_carries : Carries t priority priority (Behind (· == '(')) R := by
  have hnumber (o : Option UInt32) : Carries t (orReject o) (orReject o) Anything R :=
    fun s n r h _ => ⟨trivial, (inLine_orReject o).reads h⟩
  exact (blanks_carries rfl).bind fun _ => (char_carries (by decide)).bind fun _ =>
    (blanks_carries rfl).bind fun _ => (word_carries (by decide)).bind fun _ =>
      (blanks_carries rfl).bind fun _ => integer_carries.commit.bind fun _ =>
        (blanks_carries rfl).bind fun _ => (char_carries (by decide)).commit.bind fun _ =>
          hnumber _

variable (ht : Fronts t)

include ht

theorem shapeItem_carries : Carries t shapeItem shapeItem (Behind (· == 'd')) R := by
  have hname {c : Char} (hc : (c == 'e') = true) : isNameStart c = true := by
    rw [eq_of_beq hc]
    rfl
  have hfields : Carries t (many field) (many field) (Behind isNameStart) (Behind (· == 'e')) :=
    field_carries.many field_moves
      (fun s hs => field_refuses_line ht (hs.imp fun c => hname)) (fun _ => id)
      (fun s hs => hs.imp fun c => hname)
  exact (blanks_carries rfl).bind fun _ => (word_carries (by decide)).bind fun _ =>
    (spaces_carries.weaken fun _ _ => trivial).bind fun _ =>
      (identifier_carries.commit.expecting _).bind fun _ => hfields.bind fun _ =>
        (blanks_carries rfl).bind fun _ =>
          ((word_carries (by decide)).commit.expecting _).bind fun _ => .pure _

/-- A rule ends in front of an item or the end. -/
theorem ruleItem_carries : Carries t ruleItem ruleItem (Behind (· == 'r')) Fronts := by
  have hpriority : Carries t priority.optional priority.optional Anything (Behind (· == ':')) := by
    refine priority_carries.optional (fun s hs _ => ?_) (fun _ _ => trivial) (fun _ _ => trivial)
    refine (blanks_reads _).bind_refuses (char_refuses ?_).bind
    rw [hs.skipBlanks_line rfl]
    exact hs.head?_ne rfl _
  have hconsequence : Carries t consequence.optional consequence.optional Anything Fronts := by
    refine (consequence_carries ht).optional (fun s hs _ => ?_) (fun _ _ => trivial)
      (fun _ _ => trivial)
    exact blanks_word_refuses (c := 't') ((hs.line ht).head?_ne (by decide))
  exact (blanks_carries rfl).bind fun _ => (word_carries (by decide)).bind fun _ =>
    (spaces_carries.weaken fun _ _ => trivial).bind fun _ =>
      (identifier_carries.commit.expecting _).bind fun _ => hpriority.bind fun _ =>
        (blanks_carries rfl).bind fun _ => (char_carries (by decide)).commit.bind fun _ =>
          ((condition_carries ht).commit.expecting _).bind fun _ => hconsequence.bind fun _ =>
            .pure _

/-- **An item does not depend on what follows**, as long as this is another item or the end. -/
theorem item_carries : Carries t item item Fronts Fronts := by
  have hfronts {P : Char → Bool} (hP : ∀ c, P c = true → c ∈ ['p', 'd', 'r']) {s : List Char}
      (hs : Behind P s) : Fronts s := by
    obtain ⟨c, r, heq, hc⟩ := hs
    intro d hd
    rw [heq] at hd
    obtain rfl : c = d := Option.some.inj hd
    exact hP c hc
  have hhead {P : Char → Bool} (hcomment : P '#' = false) {c : Char} (hc : P c = false)
      {s : List Char} (hs : Behind P s) : (skipBlanks (s ++ '\n' :: t)).head? ≠ some c := by
    rw [hs.skipBlanks_line hcomment]
    exact hs.head?_ne hc _
  have hrest : Carries t (shapeItem <|> ruleItem) (shapeItem <|> ruleItem)
      (Behind fun c => c == 'd' || c == 'r') Fronts := by
    refine ((shapeItem_carries ht).weaken fun s hs => hs.imp (by simp)).orElse
      (ruleItem_carries ht) ?_ ?_
    · intro s hs _
      exact blanks_word_refuses (hhead rfl rfl hs)
    · intro s hs
      exact hs.imp (by simp)
  refine (packageItem_carries.weaken fun s hs => hfronts (by simp) hs).orElse hrest ?_ ?_
  · intro s hs _
    exact blanks_word_refuses (hhead rfl rfl hs)
  · intro s hs
    exact hfronts (by simp) hs

end

/-! ## Texts in front of more text -/

/-- The items of a whole text. -/
def IsText (s : List Char) (items : List Item) : Prop :=
  ∃ r, Reads (many item) s items r ∧ skipBlanks r = []

theorem packages_eq_ok {s : List Char} {ps : List Package} :
    packages s = .ok ps ↔ ∃ items, IsText s items ∧ group items = ps := by
  unfold packages IsText Reads
  cases many item s with
  | error e => simp
  | ok result =>
      obtain ⟨items, r⟩ := result
      by_cases hr : skipBlanks r = []
      · simp [hr]
      · simp [hr]

/-- Up to its blanks, a text begins with an item or ends. -/
theorem IsText.fronts {s : List Char} {items : List Item} (h : IsText s items) : Fronts s := by
  obtain ⟨r, hread, hr⟩ := h
  have hend {x : List Char} (hx : skipBlanks x = []) : Fronts x := by simp [Fronts, hx]
  -- in front of the empty text nothing changes
  induction items generalizing s with
  | nil =>
      obtain ⟨rfl, -⟩ := Reads.of_many_nil item_moves hread
      exact hend hr
  | cons i items ih =>
      obtain ⟨x, hfirst, hrest⟩ := hread.of_many_cons
      exact (item_carries (hend skipBlanks_nil) s i x hfirst (ih hrest)).1

/-- Readers that begin with blanks do not see them. -/
theorem item_congr {s t : List Char} (h : skipBlanks s = skipBlanks t) : item s = item t := by
  have hblanks {α : Type} (p : Reader α) :
      (do blanks; p : Reader α) s = (do blanks; p : Reader α) t := by
    show p (skipBlanks s) = p (skipBlanks t)
    rw [h]
  have hpackage : packageItem s = packageItem t := hblanks _
  have hshape : shapeItem s = shapeItem t := hblanks _
  have hrule : ruleItem s = ruleItem t := hblanks _
  exact orElse_congr hpackage (orElse_congr hshape hrule)

theorem IsText.congr {s t : List Char} {items : List Item} (h : IsText t items)
    (hst : skipBlanks s = skipBlanks t) : IsText s items := by
  obtain ⟨r, hread, hr⟩ := h
  cases items with
  | nil =>
      obtain ⟨rfl, hnone⟩ := Reads.of_many_nil item_moves hread
      obtain ⟨e, herror, hfree⟩ := hnone
      exact ⟨s, Refuses.many_nil ⟨e, (item_congr hst).trans herror, hfree⟩, hst.trans hr⟩
  | cons i items =>
      obtain ⟨x, hfirst, hrest⟩ := hread.of_many_cons
      have hfirst' : item.Reads s i x := (item_congr hst).trans hfirst
      exact ⟨r, hfirst'.many_cons (item_moves _ _ _ hfirst') hrest, hr⟩

/-- **A text behind another one has the items of both.** -/
theorem IsText.append {s t : List Char} {is js : List Item} (hs : IsText s is)
    (ht : IsText t js) : IsText (s ++ '\n' :: t) (is ++ js) := by
  obtain ⟨r, hread, hr⟩ := hs
  induction is generalizing s with
  | nil =>
      obtain ⟨rfl, -⟩ := Reads.of_many_nil item_moves hread
      exact ht.congr (skipBlanks_line_of_nil hr)
  | cons i is ih =>
      obtain ⟨x, hfirst, hrest⟩ := hread.of_many_cons
      have hx : IsText x is := ⟨r, hrest, hr⟩
      obtain ⟨y, hmore, hy⟩ := ih hrest
      have hfirst' := (item_carries ht.fronts s i x hfirst hx.fronts).2
      exact ⟨y, hfirst'.many_cons (item_moves _ _ _ hfirst') hmore, hy⟩

end Source

/-! ## Packages that are opened -/

namespace Package

/-- Two packages as one, under the name of the first. -/
def join (p q : Package) : Package :=
  { p with shapes := p.shapes ++ q.shapes, rules := p.rules ++ q.rules }

theorem isEmpty_iff {p : Package} : p.isEmpty = true ↔ p.shapes = [] ∧ p.rules = [] := by
  simp [isEmpty]

/-- The packages of a sequence that are kept: those that are not empty, or the last one if all
are. -/
def settle (ps : List Package) : List Package :=
  if ps.all isEmpty then ps.getLast?.toList else ps.filter (!·.isEmpty)

/-- An empty package is dropped if others are opened behind it. -/
theorem settle_of_isEmpty {p : Package} (hp : p.isEmpty = true) (ps : List Package)
    {qs : List Package} (hqs : qs ≠ []) : settle (ps ++ p :: qs) = settle (ps ++ qs) := by
  obtain ⟨q, qs, rfl⟩ := List.exists_cons_of_ne_nil hqs
  simp [settle, hp, List.getLast?_append, List.getLast?_cons_cons]

/-- Nothing gets lost with empty packages. -/
theorem flatMap_settle {α : Type} {f : Package → List α}
    (hf : ∀ p : Package, p.isEmpty = true → f p = []) (ps : List Package) :
    (settle ps).flatMap f = ps.flatMap f := by
  have hnone {ps : List Package} (h : ∀ p ∈ ps, p.isEmpty = true) : ps.flatMap f = [] := by
    rw [List.flatMap_eq_nil_iff]
    exact fun p hp => hf p (h p hp)
  unfold settle
  split
  · rename_i hall
    have hall : ∀ p ∈ ps, p.isEmpty = true := List.all_eq_true.mp hall
    rw [hnone hall, hnone]
    intro p hp
    exact hall p (List.mem_of_getLast? (by simpa using hp))
  · rename_i hsome
    clear hsome
    induction ps with
    | nil => rfl
    | cons p ps ih =>
        cases hp : p.isEmpty with
        | true => simp [hp, hf p hp, ih]
        | false => simp [hp, ih]

end Package

namespace Source

open Package

/-- The packages that items open behind an open one, with the empty ones. -/
def opened (p : Package) : List Item → List Package
  | [] => [p]
  | .package name :: items => p :: opened (.empty name) items
  | .shape s :: items => opened { p with shapes := p.shapes ++ [s] } items
  | .rule r :: items => opened { p with rules := p.rules ++ [r] } items

/-- The last package that is opened stays open for what follows. -/
theorem opened_append (p : Package) (is : List Item) :
    ∃ before last, opened p is = before ++ [last] ∧
      ∀ js, opened p (is ++ js) = before ++ opened last js := by
  fun_induction opened p is with
  | case1 p => exact ⟨[], p, rfl, fun js => rfl⟩
  | case2 p name is ih =>
      obtain ⟨before, last, heq, happend⟩ := ih
      refine ⟨p :: before, last, by rw [heq]; rfl, fun js => ?_⟩
      exact congrArg (p :: ·) (happend js)
  | case3 p s is ih | case4 p r is ih => exact ih

/-- What items open first joins the package that is open. -/
theorem opened_join (p q : Package) (items : List Item) :
    ∃ first after, opened q items = first :: after ∧
      opened (p.join q) items = p.join first :: after := by
  fun_induction opened q items with
  | case1 q => exact ⟨q, [], rfl, rfl⟩
  | case2 q name items _ => exact ⟨q, opened (.empty name) items, rfl, rfl⟩
  | case3 q s items ih | case4 q r items ih =>
      obtain ⟨first, after, heq, hjoin⟩ := ih
      refine ⟨first, after, heq, ?_⟩
      rw [← hjoin, opened]
      simp [join]

theorem opened_ne_nil (p : Package) (items : List Item) : opened p items ≠ [] := by
  obtain ⟨first, after, heq, -⟩ := opened_join p p items
  rw [heq]
  exact List.cons_ne_nil _ _

theorem packages_eq_settle {g : Grouping} (hg : ∀ p ∈ g.closed, p.isEmpty = false) :
    g.packages = settle (g.closed ++ [g.current]) := by
  obtain ⟨closed, current⟩ := g
  have hfilter : closed.filter (!·.isEmpty) = closed :=
    List.filter_eq_self.mpr fun p hp => by simp [hg p hp]
  cases hcurrent : current.isEmpty with
  | false => simp [Grouping.packages, settle, hcurrent, hfilter]
  | true =>
      cases closed with
      | nil => simp [Grouping.packages, settle, hcurrent]
      | cons p ps =>
          have hp : p.isEmpty = false := hg p List.mem_cons_self
          simp only [Grouping.packages, settle, hcurrent]
          simpa [hp, hcurrent] using hfilter.symm

theorem packages_foldl_add (items : List Item) {g : Grouping}
    (hg : ∀ p ∈ g.closed, p.isEmpty = false) :
    (items.foldl Grouping.add g).packages = settle (g.closed ++ opened g.current items) := by
  induction items generalizing g with
  | nil => exact packages_eq_settle hg
  | cons i items ih =>
      cases i with
      | package name =>
          have hne := opened_ne_nil (.empty name) items
          rw [List.foldl_cons, opened]
          cases hcurrent : g.current.isEmpty with
          | true =>
              rw [settle_of_isEmpty hcurrent _ hne]
              have hadd : g.add (.package name) = ⟨g.closed, .empty name⟩ := by
                simp [Grouping.add, hcurrent]
              rw [hadd]
              exact ih hg
          | false =>
              have hadd : g.add (.package name) = ⟨g.closed ++ [g.current], .empty name⟩ := by
                simp [Grouping.add, hcurrent]
              rw [hadd, List.append_cons g.closed g.current (opened (.empty name) items)]
              have hclosed : ∀ p ∈ g.closed ++ [g.current], p.isEmpty = false :=
                List.forall_mem_append.mpr ⟨hg, by simpa using hcurrent⟩
              exact ih (g := ⟨g.closed ++ [g.current], .empty name⟩) hclosed
      | shape s | rule r => exact ih hg

/-- Grouping keeps the packages that items open, but for the empty ones. -/
theorem group_eq_settle (items : List Item) :
    group items = settle (opened (.empty defaultName) items) :=
  packages_foldl_add items (List.forall_mem_nil _)

/-! ## One text behind another -/

/-- The packages that a text opens, the one without a line first, with the empty ones. -/
def Opens (s : List Char) (ps : List Package) : Prop :=
  ∃ items, IsText s items ∧ opened (.empty defaultName) items = ps

theorem packages_iff_opens {s : List Char} {ps : List Package} :
    packages s = .ok ps ↔ ∃ ws, Opens s ws ∧ settle ws = ps := by
  rw [packages_eq_ok]
  constructor
  · rintro ⟨items, htext, rfl⟩
    exact ⟨_, ⟨items, htext, rfl⟩, (group_eq_settle items).symm⟩
  · rintro ⟨ws, ⟨items, htext, rfl⟩, rfl⟩
    exact ⟨items, htext, group_eq_settle items⟩

theorem allRules_settle (ps : List Package) : allRules (settle ps) = allRules ps :=
  flatMap_settle (fun _ hp => (isEmpty_iff.mp hp).2) ps

theorem allShapes_settle (ps : List Package) : allShapes (settle ps) = allShapes ps :=
  flatMap_settle (fun _ hp => (isEmpty_iff.mp hp).1) ps

/-- The second text goes on with the package that the first one opened last. -/
theorem Opens.append {s t : List Char} {vs ws : List Package} (hs : Opens s vs)
    (ht : Opens t ws) : ∃ before last first after, vs = before ++ [last] ∧ ws = first :: after ∧
      Opens (s ++ '\n' :: t) (before ++ last.join first :: after) := by
  obtain ⟨is, his, rfl⟩ := hs
  obtain ⟨js, hjs, rfl⟩ := ht
  obtain ⟨before, last, hbefore, happend⟩ := opened_append (.empty defaultName) is
  obtain ⟨first, after, hfirst, hjoin⟩ := opened_join last (.empty defaultName) js
  have hlast : last.join (.empty defaultName) = last := by simp [join, Package.empty]
  refine ⟨before, last, first, after, hbefore, hfirst, is ++ js, his.append hjs, ?_⟩
  rw [happend, ← hjoin, hlast]

/-- **A text goes on where another one ends.**  If two texts can be read, so can the first
one with a line end and the second one behind it.  Its packages are those of both texts, with
one difference: what the second text has in front of its first package line joins the package
that the first text opened last, be that empty so far.  In particular its rules are those of the
first text and then those of the second one, and so are its shapes. -/
theorem packages_append {s t : List Char} {ps qs : List Package} (hs : packages s = .ok ps)
    (ht : packages t = .ok qs) :
    ∃ before last first after rs,
      Opens s (before ++ [last]) ∧ settle (before ++ [last]) = ps ∧
      Opens t (first :: after) ∧ settle (first :: after) = qs ∧
      Opens (s ++ '\n' :: t) (before ++ last.join first :: after) ∧
      packages (s ++ '\n' :: t) = .ok rs ∧
      settle (before ++ last.join first :: after) = rs ∧
      allRules rs = allRules ps ++ allRules qs ∧ allShapes rs = allShapes ps ++ allShapes qs := by
  obtain ⟨vs, hvs, rfl⟩ := packages_iff_opens.mp hs
  obtain ⟨ws, hws, rfl⟩ := packages_iff_opens.mp ht
  obtain ⟨before, last, first, after, rfl, rfl, happend⟩ := hvs.append hws
  refine ⟨before, last, first, after, _, hvs, rfl, hws, rfl, happend,
    packages_iff_opens.mpr ⟨_, happend, rfl⟩, rfl, ?_, ?_⟩
  · rw [allRules_settle, allRules_settle, allRules_settle]
    simp [allRules, join]
  · rw [allShapes_settle, allShapes_settle, allShapes_settle]
    simp [allShapes, join]

/-- A text whose last package is empty, with a comment at the end. -/
def unfinished : String := "rule first (priority 1):\n  a AND b\npackage late  # to be continued"

/-- A text that begins without a package line. -/
def sequel : String :=
  "declare Order\n  n: int\nend\nrule second: Order.n > 1 then log \"x\"\npackage last rule third: c"

/-- The package that is dropped from the first text alone has the first items of the second. -/
theorem packages_append_sequel :
    ∃ ps qs rs, packages unfinished.toList = .ok ps ∧ packages sequel.toList = .ok qs ∧
      packages (unfinished.toList ++ '\n' :: sequel.toList) = .ok rs ∧
      ps.map (·.name) = ["default"] ∧ qs.map (·.name) = ["default", "last"] ∧
      rs.map (·.name) = ["default", "late", "last"] ∧
      (allRules rs).map (·.name) = ["first", "second", "third"] := by
  have hs : packages unfinished.toList = .ok [⟨"default", [],
      [⟨"first", .and (.rule "a") (.rule "b"), some 1, []⟩]⟩] := by decide +kernel
  have ht : packages sequel.toList = .ok [⟨"default", [⟨"Order", [⟨"n", .int⟩]⟩],
      [⟨"second", .compare ⟨["Order", "n"]⟩ .greater (.int 1), none, [.log "x"]⟩]⟩,
      ⟨"last", [], [⟨"third", .rule "c", none, []⟩]⟩] := by decide +kernel
  obtain ⟨_, _, _, _, rs, _, _, _, _, _, hrs, _, hrules, _⟩ := packages_append hs ht
  have hread : packages (unfinished.toList ++ '\n' :: sequel.toList) = .ok [⟨"default", [],
      [⟨"first", .and (.rule "a") (.rule "b"), some 1, []⟩]⟩,
      ⟨"late", [⟨"Order", [⟨"n", .int⟩]⟩],
        [⟨"second", .compare ⟨["Order", "n"]⟩ .greater (.int 1), none, [.log "x"]⟩]⟩,
      ⟨"last", [], [⟨"third", .rule "c", none, []⟩]⟩] := by decide +kernel
  obtain rfl := Except.ok.inj (hrs.symm.trans hread)
  exact ⟨_, _, _, hs, ht, hrs, rfl, rfl, rfl, congrArg _ hrules⟩

end Source

end Rulebook
