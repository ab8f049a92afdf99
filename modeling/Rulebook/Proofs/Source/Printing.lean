/-
  Proofs/Source/Printing.lean --- what is printed is read again, and is the same.

  A text is read in two steps: into items, and from the items into packages.  Printing goes
  back along both: packages are laid out as items, and items as lines.  Items are read as
  they are printed (`item_print`), so it remains to see that grouping the items of packages
  gives the packages.  It does for those packages that reading can give: empty packages are
  dropped, so there is none of them beside others (`Grouped`).
-/
import Rulebook.Proofs.Source.Item

set_option autoImplicit false

namespace Rulebook

namespace Package

/-- Packages that rule texts can have. -/
structure Readable (p : Package) : Prop where
  name : Source.IsName p.name
  shapes : ∀ s ∈ p.shapes, s.Readable
  rules : ∀ r ∈ p.rules, r.Readable

/-- A rule of the package compares something with a double, or sets one. -/
def HasFloat (p : Package) : Prop := ∃ r ∈ p.rules, r.HasFloat

instance : DecidablePred HasFloat := fun p =>
  inferInstanceAs (Decidable (∃ r ∈ p.rules, r.HasFloat))

/-- The items of a package: its line, its shapes and its rules. -/
def items (p : Package) : List Source.Item :=
  .package p.name :: (p.shapes.map .shape ++ p.rules.map .rule)

end Package

namespace Source

open Reader

/-! ## The packages of a sequence of items -/

/-- Packages that a sequence of items can have: an empty one stands alone. -/
structure Grouped (ps : List Package) : Prop where
  ne_nil : ps ≠ []
  alone : (∀ p ∈ ps, p.isEmpty = false) ∨ ∃ p, ps = [p]

namespace Grouping

/-- The packages that are not dropped when the open one is closed. -/
def settled (g : Grouping) : List Package :=
  if g.current.isEmpty then g.closed else g.closed ++ [g.current]

theorem mem_settled {g : Grouping} {p : Package} (hp : p ∈ g.settled) :
    p ∈ g.closed ∨ p = g.current ∧ p.isEmpty = false := by
  unfold settled at hp
  split at hp
  · exact Or.inl hp
  · rename_i hcurrent
    rcases List.mem_append.mp hp with hp | hp
    · exact Or.inl hp
    · obtain rfl := List.mem_singleton.mp hp
      exact Or.inr ⟨rfl, by simpa using hcurrent⟩

/-- Some package is settled, or there is only the open one. -/
theorem packages_eq (g : Grouping) :
    g.settled ≠ [] ∧ g.packages = g.settled ∨ g.settled = [] ∧ g.packages = [g.current] := by
  obtain ⟨closed, current⟩ := g
  cases hempty : current.isEmpty with
  | false => exact Or.inl (by simp [settled, packages, hempty])
  | true =>
      cases closed with
      | nil => exact Or.inr (by simp [settled, packages, hempty])
      | cons p ps => exact Or.inl (by simp [settled, packages, hempty])

/-- All packages can be had by rule texts, and no closed one is empty. -/
structure Readable (g : Grouping) : Prop where
  filled : ∀ p ∈ g.closed, p.isEmpty = false
  closed : ∀ p ∈ g.closed, p.Readable
  current : g.current.Readable

theorem start_readable : start.Readable :=
  ⟨List.forall_mem_nil _, List.forall_mem_nil _, isName_of (by decide), List.forall_mem_nil _,
    List.forall_mem_nil _⟩

theorem settled_readable {g : Grouping} (h : g.Readable) :
    ∀ p ∈ g.settled, p.isEmpty = false ∧ p.Readable := by
  intro p hp
  rcases mem_settled hp with hp | ⟨rfl, hfilled⟩
  · exact ⟨h.filled p hp, h.closed p hp⟩
  · exact ⟨hfilled, h.current⟩

/-- An item that rule texts can have joins the open package, or closes it. -/
theorem add_readable {g : Grouping} (h : g.Readable) {i : Item} (hi : i.Readable) :
    (g.add i).Readable := by
  cases hi with
  | package hname =>
      have hsettled := settled_readable h
      exact ⟨fun p hp => (hsettled p hp).1, fun p hp => (hsettled p hp).2, hname,
        List.forall_mem_nil _, List.forall_mem_nil _⟩
  | shape hshape =>
      refine ⟨h.filled, h.closed, h.current.name, ?_, h.current.rules⟩
      exact List.forall_mem_append.mpr ⟨h.current.shapes, by simpa using hshape⟩
  | rule hrule =>
      refine ⟨h.filled, h.closed, h.current.name, h.current.shapes, ?_⟩
      exact List.forall_mem_append.mpr ⟨h.current.rules, by simpa using hrule⟩

theorem foldl_add_readable {g : Grouping} (h : g.Readable) {items : List Item}
    (hitems : ∀ i ∈ items, i.Readable) : (items.foldl add g).Readable := by
  induction items generalizing g with
  | nil => exact h
  | cons i items ih =>
      obtain ⟨hi, hitems⟩ := List.forall_mem_cons.mp hitems
      exact ih (add_readable h hi) hitems

theorem packages_readable {g : Grouping} (h : g.Readable) :
    Grouped g.packages ∧ ∀ p ∈ g.packages, p.Readable := by
  have hsettled := settled_readable h
  rcases g.packages_eq with ⟨hne, heq⟩ | ⟨-, heq⟩
  · rw [heq]
    exact ⟨⟨hne, Or.inl fun p hp => (hsettled p hp).1⟩, fun p hp => (hsettled p hp).2⟩
  · rw [heq]
    exact ⟨⟨List.cons_ne_nil _ _, Or.inr ⟨g.current, rfl⟩⟩, by simpa using h.current⟩

/-! ### The items of packages -/

theorem foldl_add_shapes (closed : List Package) (p : Package) (shapes : List Shape) :
    (shapes.map Item.shape).foldl add ⟨closed, p⟩ =
      ⟨closed, { p with shapes := p.shapes ++ shapes }⟩ := by
  induction shapes generalizing p with
  | nil => simp
  | cons s shapes ih =>
      rw [List.map_cons, List.foldl_cons]
      exact (ih _).trans (by simp)

theorem foldl_add_rules (closed : List Package) (p : Package) (rules : List Rule) :
    (rules.map Item.rule).foldl add ⟨closed, p⟩ =
      ⟨closed, { p with rules := p.rules ++ rules }⟩ := by
  induction rules generalizing p with
  | nil => simp
  | cons r rules ih =>
      rw [List.map_cons, List.foldl_cons]
      exact (ih _).trans (by simp)

/-- The items of a package settle what was there and open the package. -/
theorem foldl_add_items (g : Grouping) (p : Package) :
    p.items.foldl add g = ⟨g.settled, p⟩ := by
  have hline : g.add (.package p.name) = ⟨g.settled, .empty p.name⟩ := rfl
  rw [Package.items, List.foldl_cons, hline, List.foldl_append, foldl_add_shapes,
    foldl_add_rules]
  rfl

/-- The items of packages that are not empty settle the packages. -/
theorem settled_foldl_items {ps : List Package} (hps : ∀ p ∈ ps, p.isEmpty = false)
    (g : Grouping) :
    ((ps.flatMap Package.items).foldl add g).settled = g.settled ++ ps := by
  induction ps generalizing g with
  | nil => simp
  | cons p ps ih =>
      obtain ⟨hp, hps⟩ := List.forall_mem_cons.mp hps
      rw [List.flatMap_cons, List.foldl_append, foldl_add_items, ih hps]
      simp [settled, hp]

end Grouping

/-- Grouping gives packages that rule texts can have, and no empty one beside another. -/
theorem group_readable {items : List Item} (hitems : ∀ i ∈ items, i.Readable) :
    Grouped (group items) ∧ ∀ p ∈ group items, p.Readable :=
  Grouping.packages_readable (Grouping.foldl_add_readable Grouping.start_readable hitems)

/-- **Grouping the items of packages gives the packages.** -/
theorem group_items {ps : List Package} (hps : Grouped ps) :
    group (ps.flatMap Package.items) = ps := by
  have hstart : Grouping.start.settled = [] := rfl
  rcases hps.alone with hfilled | ⟨p, rfl⟩
  · have hsettled := Grouping.settled_foldl_items hfilled .start
    rw [hstart, List.nil_append] at hsettled
    unfold group
    rcases Grouping.packages_eq ((ps.flatMap Package.items).foldl Grouping.add .start)
      with ⟨-, heq⟩ | ⟨hnil, -⟩
    · rw [heq, hsettled]
    · exact absurd (hsettled.symm.trans hnil) hps.ne_nil
  · have hsingle : [p].flatMap Package.items = p.items := by simp
    unfold group
    rw [hsingle, Grouping.foldl_add_items, hstart]
    cases hempty : p.isEmpty <;> simp [Grouping.packages, hempty]

/-! ## Whole texts -/

/-- The text of packages is the text of their items. -/
theorem print_eq (ps : List Package) : print ps = (ps.flatMap Package.items).flatMap printItem := by
  have hpackage (p : Package) : printPackage p = p.items.flatMap printItem := by
    unfold Package.items
    rw [List.flatMap_cons, List.flatMap_append, List.flatMap_map, List.flatMap_map,
      ← List.append_assoc]
    rfl
  rw [print, List.flatMap_assoc]
  exact congrArg (List.flatMap · ps) (funext hpackage)

/-- What can be had by packages can be had by their items. -/
theorem items_readable {p : Package} (hp : p.Readable) (hfloat : ¬ p.HasFloat) :
    ∀ i ∈ p.items, i.Readable ∧ ∀ rule, i = .rule rule → ¬ rule.HasFloat := by
  intro i hi
  simp only [Package.items, List.mem_cons, List.mem_append, List.mem_map] at hi
  rcases hi with rfl | ⟨s, hs, rfl⟩ | ⟨r, hr, rfl⟩
  · exact ⟨.package hp.name, by simp⟩
  · exact ⟨.shape (hp.shapes s hs), by simp⟩
  · refine ⟨.rule (hp.rules r hr), ?_⟩
    rintro rule heq hrule
    cases heq
    exact hfloat ⟨r, hr, hrule⟩

/-- The items of a text are read as they are printed. -/
theorem items_print {items : List Item}
    (hitems : ∀ i ∈ items, i.Readable ∧ ∀ rule, i = .rule rule → ¬ rule.HasFloat) :
    ∃ r, Reads (many item) (items.flatMap printItem) items r ∧ skipBlanks r = [] := by
  have hfronts (is : List Item) : Fronts (is.flatMap printItem ++ []) := by
    cases is with
    | nil => simp [Fronts]
    | cons i is =>
        rw [List.flatMap_cons, List.append_assoc]
        exact fronts_printItem i _
  have hstart : skipBlanks (items.flatMap printItem) =
      skipBlanks (items.flatMap printItem ++ []) := by
    rw [List.append_nil]
  obtain ⟨r, hread, hr, -⟩ := many_print
    (fun i is s hi _ hs => item_print hi.1 hi.2 hs (hfronts is))
    (fun s hs => item_refuses_end (hs.trans skipBlanks_nil)) items hitems hstart
  exact ⟨r, hread, hr.trans skipBlanks_nil⟩

/-- **Packages are read as they are printed**, if rule texts can have them and none of them
has a double. -/
theorem packages_print {ps : List Package} (hps : Grouped ps)
    (hreadable : ∀ p ∈ ps, p.Readable) (hfloat : ∀ p ∈ ps, ¬ p.HasFloat) :
    packages (print ps) = .ok ps := by
  have hitems : ∀ i ∈ ps.flatMap Package.items,
      i.Readable ∧ ∀ rule, i = .rule rule → ¬ rule.HasFloat := by
    intro i hi
    obtain ⟨p, hp, hi⟩ := List.mem_flatMap.mp hi
    exact items_readable (hreadable p hp) (hfloat p hp) i hi
  obtain ⟨r, hread, hr⟩ := items_print hitems
  rw [← print_eq] at hread
  unfold packages
  rw [hread]
  simp [hr, group_items hps]

/-- Whatever is read from a text can be had by texts, and an empty package stands alone. -/
theorem packages_gives {source : List Char} {ps : List Package}
    (h : packages source = .ok ps) : Grouped ps ∧ ∀ p ∈ ps, p.Readable := by
  unfold packages at h
  split at h
  · cases h
  · rename_i items r hread
    split at h
    · cases h
      exact group_readable (item_gives.many _ _ _ hread)
    · cases h

/-- **Printing is undone by reading.**  Whatever a text is read as, unless it has a double:
its canonical text is read as the same packages.  The packages of which this holds are those
whose names can be written, with no empty package beside another one. -/
theorem packages_print_of_packages {ps : List Package} (hfloat : ∀ p ∈ ps, ¬ p.HasFloat) :
    (∀ source, packages source = .ok ps → packages (print ps) = .ok ps) ∧
      (packages (print ps) = .ok ps ↔ Grouped ps ∧ ∀ p ∈ ps, p.Readable) := by
  have hprint (h : Grouped ps ∧ ∀ p ∈ ps, p.Readable) : packages (print ps) = .ok ps :=
    packages_print h.1 h.2 hfloat
  refine ⟨?_, packages_gives, hprint⟩
  intro source h
  exact hprint (packages_gives h)

/-- A text that is far from canonical. -/
def untidy : String :=
  "# orders\ndeclare Order amount:int kind : enum( gift ,sale ) end rule NOTE: NOT(paid)or Order.amount>=-3 then log \"a\\\"b\""

/-- The packages of `untidy`. -/
def untidyPackages : List Package :=
  [⟨Package.defaultName, [⟨"Order", [⟨"amount", .int⟩, ⟨"kind", .enum ["gift", "sale"]⟩]⟩],
    [⟨"NOTE", .or (.not (.rule "paid"))
      (.compare ⟨["Order", "amount"]⟩ .greaterOrEqual (.int (-3))), none, [.log "a\"b"]⟩]⟩]

theorem packages_print_untidy :
    packages untidy.toList = .ok untidyPackages ∧
      packages (print untidyPackages) = .ok untidyPackages := by
  have hread : packages untidy.toList = .ok untidyPackages := by decide +kernel
  have hfloat : ∀ p ∈ untidyPackages, ¬ p.HasFloat := by decide
  exact ⟨hread, (packages_print_of_packages hfloat).1 untidy.toList hread⟩

end Source

end Rulebook
