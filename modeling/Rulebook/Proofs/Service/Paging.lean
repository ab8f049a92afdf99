/-
  Proofs/Service/Paging.lean --- pages of the listing.

  The listing of the stored rules under a filter is one list, whatever page is asked for:
  the rules whose names contain the filter, in the order of their identifiers.  A page is
  the part of it between two multiples of the page size (`page_eq`), so page after page
  gives the listing itself (`pages_partition`).

  A page counts its matches with 64 bits.  The count is right because names are distinct
  and short, and there are fewer names than such a count can tell apart: read as a number
  with a digit for each character, a name is below `76 ^ 10` (`code_lt`).
-/
import Mathlib.Data.Nat.Digits.Defs
import Rulebook.Proofs.Service.Inventory

set_option autoImplicit false

namespace Rulebook

/-! ## Texts within texts -/

namespace MemoryStore

theorem hasPart_iff (part cs : List Char) : hasPart part cs = true ↔ part <:+: cs := by
  induction cs with
  | nil => simp [hasPart]
  | cons c rest ih =>
      rw [hasPart, Bool.or_eq_true, ih, List.isPrefixOf_iff_prefix, List.infix_cons_iff]

theorem containsText_iff {text part : String} :
    containsText text part = true ↔ part.toList <:+: text.toList :=
  hasPart_iff part.toList text.toList

end MemoryStore

/-- What is trimmed of a text is empty if the text is blank. -/
theorem Text.isEmpty_trim (s : String) : (trim s).isEmpty = isBlankText s := by
  have hchars : trimChars s.toList = (s.toList.dropWhile isBlank).rdropWhile isBlank := rfl
  have hall : (∀ c ∈ s.toList.dropWhile isBlank, isBlank c = true) ↔
      ∀ c ∈ s.toList, isBlank c = true := by
    refine ⟨fun h => ?_, fun h c hc => h c ((List.dropWhile_sublist _).subset hc)⟩
    rw [← List.takeWhile_append_dropWhile (p := isBlank) (l := s.toList), List.forall_mem_append]
    exact ⟨fun c hc => List.mem_takeWhile_imp hc, h⟩
  rw [Bool.eq_iff_iff, String.isEmpty_iff, isBlankText, List.all_eq_true, ← hall,
    ← List.rdropWhile_eq_nil_iff, ← hchars, trim, String.ofList_eq_empty_iff]

/-! ## Names as numbers -/

namespace Definition

theorem toNat_of_isNameChar {c : Char} (h : IsNameChar c) : 47 < c.toNat ∧ c.toNat < 123 := by
  simp only [IsNameChar, Char.le_def, UInt32.le_iff_toNat_le] at h
  have hval : c.val.toNat = c.toNat := rfl
  rcases h with hdigit | hupper | hlower | rfl
  · simp at hdigit
    omega
  · simp at hupper
    omega
  · simp at hlower
    omega
  · decide

/-- The digits of a name, one for each character; none of them is zero. -/
def digits (name : String) : List Nat := name.toList.map fun c => c.toNat - 47

/-- A name as a number. -/
def code (name : String) : Nat := Nat.ofDigits 76 (digits name)

variable {r : Definition}

theorem Normal.digit_lt (h : r.Normal) {n : Nat} (hn : n ∈ digits r.name) : 0 < n ∧ n < 76 := by
  obtain ⟨c, hc, rfl⟩ := List.mem_map.mp hn
  have hbounds := toNat_of_isNameChar (h.name_chars c hc)
  omega

theorem Normal.code_lt (h : r.Normal) : code r.name < 76 ^ 10 := by
  have hlength : (digits r.name).length ≤ 10 := by
    rw [digits, List.length_map, String.length_toList]
    exact h.name_length.2
  calc code r.name < 76 ^ (digits r.name).length :=
        Nat.ofDigits_lt_base_pow_length (by decide) fun n hn => (h.digit_lt hn).2
    _ ≤ 76 ^ 10 := Nat.pow_le_pow_right (by decide) hlength

/-- A name can be read off its number. -/
theorem Normal.name_of_code (h : r.Normal) :
    String.ofList ((Nat.digits 76 (code r.name)).map fun n => Char.ofNat (n + 47)) = r.name := by
  have hdigits : Nat.digits 76 (code r.name) = digits r.name :=
    Nat.digits_ofDigits 76 (by decide) _ (fun n hn => (h.digit_lt hn).2) fun hne =>
      Nat.ne_of_gt (h.digit_lt (List.getLast_mem hne)).1
  have hself : ∀ c ∈ r.name.toList, Char.ofNat (c.toNat - 47 + 47) = c := by
    intro c hc
    rw [Nat.sub_add_cancel (Nat.le_of_lt (toNat_of_isNameChar (h.name_chars c hc)).1),
      Char.ofNat_toNat]
  have hchars := List.map_congr_left hself
  rw [List.map_id'] at hchars
  rw [hdigits, digits, List.map_map]
  exact (congrArg String.ofList hchars).trans String.ofList_toList

end Definition

/-- There are fewer stored rules than 64 bits can count. -/
theorem MemoryStore.Orderly.length_lt {s : MemoryStore} (h : s.Orderly) :
    s.rules.length < UInt64.size := by
  have hnames := h.keyed.names_nodup h.namesDistinct
  have hnormal : ∀ r ∈ s.definitions, r.Normal := by
    intro r hr
    obtain ⟨entry, hentry, rfl⟩ := List.mem_map.mp hr
    exact h.normal entry hentry
  have hcodes : (s.definitions.map fun r => Definition.code r.name).Nodup := by
    refine List.Nodup.map_on ?_ hnames.of_map
    intro a ha b hb hab
    refine List.inj_on_of_nodup_map hnames ha hb ?_
    rw [← (hnormal a ha).name_of_code, hab, (hnormal b hb).name_of_code]
  -- so many distinct numbers below `76 ^ 10` are no more than `76 ^ 10`
  have hbelow : (s.definitions.map fun r => Definition.code r.name) ⊆ List.range (76 ^ 10) := by
    intro n hn
    obtain ⟨r, hr, rfl⟩ := List.mem_map.mp hn
    exact List.mem_range.mpr (hnormal r hr).code_lt
  have hcount := (List.subperm_of_subset hcodes hbelow).length_le
  rw [List.length_map, definitions, List.length_map, List.length_range] at hcount
  exact Nat.lt_of_le_of_lt hcount (by decide)

/-! ## The listing -/

namespace Listing

/-- Whether a rule is listed under a filter: it is, if there is no filter or a blank one,
and else if its name contains the filter without the blanks around it. -/
def Matches (filter : Option String) (r : Definition) : Prop :=
  ∀ text, filter = some text → Text.isBlankText text = false →
    (Text.trim text).toList <:+: r.name.toList

/-- A stored rule as it is listed. -/
def line (entry : RuleId × Definition) : Summary :=
  ⟨entry.1, entry.2.name, entry.2.description, entry.2.createdAt⟩

/-- The filter that the store is asked with. -/
def passedOn (filter : Option String) : Option String :=
  (filter.map Text.trim).filter fun s => !s.isEmpty

/-- The entries of the rules that match what the store is asked for. -/
def entries (s : MemoryStore) (filter : Option String) : Table RuleId Definition :=
  s.rules.filter fun entry =>
    match filter with
    | some part => MemoryStore.containsText entry.2.name part
    | none => true

theorem matching_eq (s : MemoryStore) (filter : Option String) :
    s.matching filter = (entries s filter).map Prod.snd := by
  rw [MemoryStore.matching, MemoryStore.definitions, List.filter_map]
  rfl

theorem mem_entries_passedOn {s : MemoryStore} {filter : Option String}
    {entry : RuleId × Definition} :
    entry ∈ entries s (passedOn filter) ↔ entry ∈ s.rules ∧ Matches filter entry.2 := by
  rw [entries, List.mem_filter]
  refine and_congr_right fun _ => ?_
  cases filter with
  | none => simp [passedOn, Matches]
  | some text =>
      cases hblank : Text.isBlankText text with
      | true => simp [passedOn, Matches, Option.filter, Text.isEmpty_trim, hblank]
      | false =>
          simp [passedOn, Matches, Option.filter, Text.isEmpty_trim, hblank,
            MemoryStore.containsText_iff]

end Listing

/-- A page is a part of the matching rules, which are counted. -/
theorem MemoryStore.Keyed.page_eq {s : MemoryStore} (h : s.Keyed) (number size : UInt32)
    (filter : Option String) :
    s.page number size filter =
      { total := UInt64.ofNat (Listing.entries s filter).length
        items := (((Listing.entries s filter).drop ((number.toNat - 1) * size.toNat)).take
          size.toNat).map Listing.line } := by
  have hline : ∀ entry ∈ s.rules, entry.2.summary? = some (Listing.line entry) := by
    intro entry hentry
    rw [Definition.summary?, h.own_id entry hentry]
    rfl
  simp only [page, Listing.matching_eq, List.length_map, ← List.map_drop, ← List.map_take,
    List.filterMap_map, Page.mk.injEq, true_and]
  have hpart : ∀ entry ∈ ((Listing.entries s filter).drop ((number.toNat - 1) * size.toNat)).take
      size.toNat, (Definition.summary? ∘ Prod.snd) entry = (some ∘ Listing.line) entry := by
    intro entry hentry
    have hmem := List.mem_of_mem_drop (List.mem_of_mem_take hentry)
    exact hline entry (List.mem_filter.mp hmem).1
  rw [List.filterMap_congr hpart, List.filterMap_eq_map]

namespace Listing

variable {c : Config} {s : MemoryStore}

/-- How many rules are on a full page. -/
def pageSize (c : Config) (size : UInt32) : Nat := min size.toNat (max c.maxPageSize.toNat 1)

theorem pageSize_pos {size : UInt32} (h : size ≠ 0) : 0 < pageSize c size := by
  have hsize : 0 < size.toNat := UInt32.lt_iff_toNat_lt.mp (UInt32.pos_iff_ne_zero.mpr h)
  exact Nat.lt_min.mpr ⟨hsize, Nat.lt_of_lt_of_le Nat.one_pos (Nat.le_max_right _ _)⟩

/-- The lines of the first `n` pages, one page after the other. -/
def pages (c : Config) (s : MemoryStore) (size : UInt32) (filter : Option String) (n : Nat) :
    List Summary :=
  (List.range n).flatMap fun i =>
    match page c s (UInt32.ofNat (i + 1)) size filter with
    | .ok p => p.items
    | .error _ => []

/-- A page that can be asked for is given. -/
theorem page_eq (hs : s.Keyed) {number size : UInt32} (hnumber : number ≠ 0) (hsize : size ≠ 0)
    (filter : Option String) :
    page c s number size filter = .ok
      { total := UInt64.ofNat (entries s (passedOn filter)).length
        items := (((entries s (passedOn filter)).drop
          ((number.toNat - 1) * pageSize c size)).take (pageSize c size)).map line } := by
  have hasked : (number = 0 || size = 0) = false := by simp [hnumber, hsize]
  have hclamped : (min size (max c.maxPageSize 1)).toNat = pageSize c size := by
    rw [UInt32.toNat_min, UInt32.toNat_max]
    rfl
  unfold page
  simp only [hasked, Bool.false_eq_true, if_false, RuleStore.page, hs.page_eq, hclamped]
  rfl

/-- The first pages together are the first part of the listing. -/
theorem pages_eq (hs : s.Keyed) {size : UInt32} (hsize : size ≠ 0) (filter : Option String)
    {n : Nat} (hn : n < UInt32.size) :
    pages c s size filter n =
      ((entries s (passedOn filter)).take (n * pageSize c size)).map line := by
  induction n with
  | zero => simp [pages]
  | succ n ih =>
      have hnumber : (UInt32.ofNat (n + 1)).toNat = n + 1 := by
        rw [UInt32.toNat_ofNat']
        exact Nat.mod_eq_of_lt hn
      have hasked : UInt32.ofNat (n + 1) ≠ 0 := fun hzero => by
        rw [hzero] at hnumber
        simp at hnumber
      have hlast : pages c s size filter (n + 1) = pages c s size filter n ++
          (((entries s (passedOn filter)).drop (n * pageSize c size)).take
            (pageSize c size)).map line := by
        rw [pages, List.range_succ, List.flatMap_append, List.flatMap_singleton,
          page_eq hs hasked hsize, hnumber]
        rfl
      rw [hlast, ih (Nat.lt_of_succ_lt hn), ← List.map_append, ← List.take_add, Nat.succ_mul]

end Listing

namespace System

variable {π τ : Type}

/-- **Pages partition the listing.**  Whatever callers do at the same time, over a store that
was empty at first, there is one listing for a filter at every moment: it holds the stored
rules that match, in the order of their identifiers.  Whatever size of pages is asked for, a
page that has a number counts the whole listing and holds what stands there between two
multiples of the size that is allowed; and the pages up to the last one, one after the other,
are the listing. -/
theorem pages_partition (d : Deployment π τ) (events : List Event) (filter : Option String) :
    let store := (after d .empty events).shared.store
    ∃ listing : List (RuleId × Definition),
      listing.Pairwise (fun a b => a.1.val < b.1.val) ∧
      (∀ id r, (id, r) ∈ listing ↔ store.findById id = some r ∧ Listing.Matches filter r) ∧
      ∀ size : UInt32, size ≠ 0 →
        let full := min size.toNat (max d.config.maxPageSize.toNat 1)
        (∀ number : UInt32, number ≠ 0 → ∃ page,
          Listing.page d.config store number size filter = .ok page ∧
          page.total.toNat = listing.length ∧
          page.items =
            ((listing.drop ((number.toNat - 1) * full)).take full).map Listing.line) ∧
        (∀ n < UInt32.size, Listing.pages d.config store size filter n =
          (listing.take (n * full)).map Listing.line) ∧
        ((listing.length + full - 1) / full < UInt32.size →
          Listing.pages d.config store size filter ((listing.length + full - 1) / full) =
            listing.map Listing.line) := by
  intro store
  have horderly : store.Orderly := (orderly_after d events).store
  have hsublist : (Listing.entries store (Listing.passedOn filter)).Sublist store.rules :=
    List.filter_sublist
  have hcount : (Listing.entries store (Listing.passedOn filter)).length < UInt64.size :=
    Nat.lt_of_le_of_lt hsublist.length_le horderly.length_lt
  refine ⟨Listing.entries store (Listing.passedOn filter), ?_, ?_, ?_⟩
  · exact (List.pairwise_map.mp horderly.ascending).sublist hsublist
  · intro id r
    rw [Listing.mem_entries_passedOn, horderly.keyed.findById_iff]
  · intro size hsize full
    have hpages := fun n hn =>
      Listing.pages_eq (c := d.config) (n := n) horderly.keyed hsize filter hn
    refine ⟨fun number hnumber =>
      ⟨_, Listing.page_eq horderly.keyed hnumber hsize filter, ?_, rfl⟩, hpages, fun hlast => ?_⟩
    · exact (UInt64.toNat_ofNat').trans (Nat.mod_eq_of_lt hcount)
    · rw [hpages _ hlast, List.take_of_length_le]
      -- the last page ends no earlier than the listing
      have hquotient := Nat.lt_div_mul_add (Listing.pageSize_pos (c := d.config) hsize)
        (a := (Listing.entries store (Listing.passedOn filter)).length + full - 1)
      change _ < _ / full * full + full at hquotient
      change _ ≤ _ / full * full
      omega

/-- Two rules are saved, and a third one while a lookup is under way; two of the names end in
the same letters. -/
def doors : List Event :=
  [.call (.save (.new "door" "rule open:params.x==1") ⟨0, 0⟩),
    .call (.save (.new "gate" "rule open:params.x==2") ⟨1, 0⟩),
    .step 0, .step 1, .step 0, .step 1, .step 0, .step 0, .step 0, .step 0, .step 1, .step 1,
    .step 1, .step 1, .step 1,
    .call (.lookup (.name "door")), .step 2, .step 2,
    .call (.save (.new "floor" "rule open:params.x==3") ⟨2, 0⟩),
    .step 3, .step 3, .step 3, .step 3, .step 2]

theorem pages_partition_doors :
    let store := (after ⟨Engine.rules, Facade.unverified⟩ .empty doors).shared.store
    ∃ listing : List (RuleId × Definition), listing.length = 2 ∧
      (∃ r, (⟨3⟩, r) ∈ listing ∧ r.name = "floor") ∧ (1 : UInt32) ≠ 0 ∧
      Listing.pages Facade.unverified store 1 (some " oor ") 2 = listing.map Listing.line := by
  intro store
  obtain ⟨listing, -, hmem, hsizes⟩ :=
    pages_partition ⟨Engine.rules, Facade.unverified⟩ doors (some " oor ")
  obtain ⟨hpage, -, hlast⟩ := hsizes 1 (by decide)
  have hsecond : Listing.page Facade.unverified store 2 1 (some " oor ") =
      .ok (store.page 2 1 (some "oor")) := rfl
  have hcount : (store.page 2 1 (some "oor")).total = 2 := by decide +kernel
  have hlength : listing.length = 2 := by
    obtain ⟨page, hgiven, htotal, -⟩ := hpage 2 (by decide)
    cases hsecond.symm.trans hgiven
    rw [← htotal, hcount]
    rfl
  have hfloor : ∃ r, store.findById ⟨3⟩ = some r ∧ r.name = "floor" := ⟨_, rfl, rfl⟩
  obtain ⟨r, hr, hname⟩ := hfloor
  rw [hlength] at hlast
  refine ⟨listing, hlength, ⟨r, (hmem ⟨3⟩ r).mpr ⟨hr, ?_⟩, hname⟩, by decide, hlast (by decide)⟩
  intro text htext _
  cases htext
  rw [hname]
  decide

end System

end Rulebook
