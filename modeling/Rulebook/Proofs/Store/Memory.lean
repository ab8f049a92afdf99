/-
  Proofs/Store/Memory.lean --- what the store in memory keeps.

  In a keyed store every rule stands under its own identifier (`Keyed`), so what is
  found by name can be found again by the identifier it carries.  A write changes one
  identifier and no other, and keeps the order of identifiers (`Ascending`).  Names are
  another matter: the store takes any name, and `NamesDistinct` is kept by the writes
  that were checked with `existsByName`.

  New identifiers count upwards.  `Numbered` says which one comes next as a natural
  number, so that the first `UInt64.size` of them are told apart.
-/
import Mathlib.Data.List.TakeWhile
import Rulebook.Proofs.Table
import Rulebook.Store.Basic

set_option autoImplicit false

namespace Rulebook

namespace MemoryStore

/-- Every rule carries the identifier under which it stands, and none stands twice. -/
structure Keyed (s : MemoryStore) : Prop where
  keys_nodup : (Table.keys s.rules).Nodup
  own_id : ∀ entry ∈ s.rules, entry.2.id = some entry.1

/-- No two rules have one name. -/
def NamesDistinct (s : MemoryStore) : Prop :=
  ∀ a ∈ s.rules, ∀ b ∈ s.rules, a.2.name = b.2.name → a.1 = b.1

/-- The identifiers up to a number are given out, and the number is next. -/
structure Numbered (s : MemoryStore) (n : Nat) : Prop where
  next_eq : s.nextId = UInt64.ofNat n
  lt_next : ∀ entry ∈ s.rules, entry.1.val.toNat < n

/-- The rules stand in the order of their identifiers. -/
def Ascending (s : MemoryStore) : Prop := (Table.keys s.rules).Pairwise fun a b => a.val < b.val

theorem keyed_empty : empty.Keyed := ⟨by simp [Table.keys, empty], by simp [empty]⟩

theorem namesDistinct_empty : empty.NamesDistinct := by simp [NamesDistinct, empty]

theorem numbered_empty : empty.Numbered 1 := ⟨rfl, by simp [empty]⟩

theorem ascending_empty : empty.Ascending := List.Pairwise.nil

variable {s t : MemoryStore} {d r : Definition} {id other : RuleId} {name : String}

/-! ## Finding -/

theorem mem_of_findById (h : s.findById id = some r) : (id, r) ∈ s.rules := Table.mem_of_get? h

theorem Keyed.findById_iff (h : s.Keyed) : s.findById id = some r ↔ (id, r) ∈ s.rules :=
  Table.get?_eq_some_iff h.keys_nodup

theorem mem_definitions : r ∈ s.definitions ↔ ∃ id, (id, r) ∈ s.rules := by
  constructor
  · intro hr
    obtain ⟨⟨id, r'⟩, hmem, rfl⟩ := List.mem_map.mp hr
    exact ⟨id, hmem⟩
  · rintro ⟨id, hmem⟩
    exact List.mem_map.mpr ⟨(id, r), hmem, rfl⟩

/-- A rule that is found by its name is found by the identifier that it carries. -/
theorem Keyed.findById_of_findByName (h : s.Keyed) (hfind : s.findByName name = some r) :
    r.name = name ∧ ∃ id, r.id = some id ∧ s.findById id = some r := by
  have hname : r.name = name := by simpa using List.find?_some hfind
  obtain ⟨id, hmem⟩ := mem_definitions.mp (List.mem_of_find?_eq_some hfind)
  exact ⟨hname, id, h.own_id _ hmem, h.findById_iff.mpr hmem⟩

theorem existsByName_eq_false_iff {excluding : Option RuleId} :
    s.existsByName name excluding = false ↔
      ∀ entry ∈ s.rules, entry.2.name = name → excluding ≠ none ∧ entry.2.id = excluding := by
  simp only [existsByName, definitions, List.any_eq_false, List.forall_mem_map, Bool.and_eq_true,
    Bool.or_eq_true, decide_eq_true_eq, Option.isNone_iff_eq_none, not_and, not_or,
    Decidable.not_not, ne_eq]

/-! ## Placing -/

section

variable (rules : Table RuleId Definition) (id : RuleId) (d : Definition)

/-- A rule takes the place of the one under its identifier, or stands behind those with
smaller numbers. -/
theorem place_cases :
    (id ∈ Table.keys rules ∧ place rules id d = rules.put id d) ∨
      (id ∉ Table.keys rules ∧ ∃ before after, rules = before ++ after ∧
        place rules id d = before ++ (id, d) :: after ∧
        (∀ entry ∈ before, entry.1.val < id.val) ∧
        ∀ entry ∈ after.head?, ¬ entry.1.val < id.val) := by
  have hhas : rules.has id = true ↔ id ∈ Table.keys rules := by
    rw [Table.has, Option.isSome_iff_ne_none, ne_eq, Table.get?_eq_none_iff, not_not]
  unfold place
  split
  · rename_i h
    exact Or.inl ⟨hhas.mp h, rfl⟩
  · rename_i h
    refine Or.inr ⟨fun hmem => h (hhas.mpr hmem), _, _, List.takeWhile_append_dropWhile.symm, rfl,
      ?_, ?_⟩
    · intro entry hentry
      simpa using List.mem_takeWhile_imp hentry
    · intro entry hentry
      have hstop := List.head?_dropWhile_not (fun entry => decide (entry.1.val < id.val)) rules
      rw [Option.mem_def.mp hentry] at hstop
      simpa using hstop

theorem get?_place (other : RuleId) :
    Table.get? (place rules id d) other = if id = other then some d else rules.get? other := by
  rcases place_cases rules id d with ⟨-, hput⟩ | ⟨hnew, before, after, rfl, hplace, -, -⟩
  · rw [hput, Table.get?_put]
  · rw [hplace]
    split
    · rename_i hid
      subst hid
      have hbefore : id ∉ Table.keys before := fun hmem =>
        hnew (by simpa [Table.keys] using Or.inl (by simpa [Table.keys] using hmem))
      exact Table.get?_insert_self hbefore after d
    · rename_i hid
      exact Table.get?_insert_of_ne hid before after d

variable {rules id d}

theorem mem_place {entry : RuleId × Definition} (h : entry ∈ place rules id d) :
    entry = (id, d) ∨ entry ∈ rules := by
  rcases place_cases rules id d with ⟨-, hput⟩ | ⟨-, before, after, rfl, hplace, -, -⟩
  · exact Table.mem_put (hput ▸ h)
  · rw [hplace, List.mem_append, List.mem_cons] at h
    rw [List.mem_append]
    tauto

theorem keys_place_nodup (hkeys : (Table.keys rules).Nodup) :
    (Table.keys (place rules id d)).Nodup := by
  rcases place_cases rules id d with ⟨-, hput⟩ | ⟨hnew, before, after, rfl, hplace, -, -⟩
  · rw [hput]
    exact Table.keys_put_nodup id d hkeys
  · simp only [hplace, Table.keys, List.map_append, List.map_cons] at hkeys hnew ⊢
    exact List.nodup_middle.mpr (List.nodup_cons.mpr ⟨hnew, hkeys⟩)

theorem erase_place : Table.erase (place rules id d) id = Table.erase rules id := by
  rcases place_cases rules id d with ⟨-, hput⟩ | ⟨-, before, after, rfl, hplace, -, -⟩
  · rw [hput, Table.erase_put]
  · simp [hplace, Table.erase]

theorem keys_place_pairwise (h : (Table.keys rules).Pairwise fun a b => a.val < b.val) :
    (Table.keys (place rules id d)).Pairwise fun a b => a.val < b.val := by
  rcases place_cases rules id d with ⟨hold, hput⟩ | ⟨hnew, before, after, rfl, hplace, hlt, hge⟩
  · rwa [hput, Table.keys_put, if_pos hold]
  · simp only [hplace, Table.keys, List.map_append, List.map_cons] at h hnew ⊢
    obtain ⟨hbefore, hafter, hacross⟩ := List.pairwise_append.mp h
    have hrest : ∀ key ∈ after.map Prod.fst, id.val < key.val := by
      cases after with
      | nil => simp
      | cons head rest =>
          -- the first rule behind has a larger number, and all others follow it
          have hhead : id.val < head.1.val := by
            have hne : id.val ≠ head.1.val := fun heq =>
              hnew (by simp [show id = head.1 from congrArg RuleId.mk heq])
            exact UInt64.lt_of_le_of_ne (UInt64.not_lt.mp (hge head rfl)) hne
          simp only [List.map_cons, List.forall_mem_cons]
          refine ⟨hhead, fun key hkey => ?_⟩
          exact UInt64.lt_trans hhead ((List.pairwise_cons.mp hafter).1 key hkey)
    refine List.pairwise_append.mpr ⟨hbefore, List.pairwise_cons.mpr ⟨hrest, hafter⟩, ?_⟩
    intro key hkey other hother
    rcases List.mem_cons.mp hother with rfl | hother
    · obtain ⟨entry, hentry, rfl⟩ := List.mem_map.mp hkey
      exact hlt entry hentry
    · exact hacross key hkey other hother

end

/-! ## Saving -/

/-- A save replaces the rule of its identifier, or gives the next identifier to a new
rule; it stores what it was given, but for the identifier and the time of creation. -/
theorem save_cases (h : s.save d = .ok (t, id)) :
    ∃ stored, t.rules = place s.rules id stored ∧ stored.id = some id ∧ stored.name = d.name ∧
      stored.source = d.source ∧
      ((d.id = some id ∧ (∃ r, s.findById id = some r) ∧ t.nextId = s.nextId) ∨
        (d.id = none ∧ id = ⟨s.nextId⟩ ∧ t.nextId = s.nextId + 1)) := by
  unfold save at h
  cases hid : d.id with
  | none =>
      simp only [hid, Except.ok.injEq, Prod.mk.injEq] at h
      obtain ⟨rfl, rfl⟩ := h
      exact ⟨_, rfl, rfl, rfl, rfl, Or.inr ⟨rfl, rfl, rfl⟩⟩
  | some given =>
      simp only [hid] at h
      cases hfind : s.rules.get? given with
      | none => simp [hfind] at h
      | some existing =>
          simp only [hfind, Except.ok.injEq, Prod.mk.injEq] at h
          obtain ⟨rfl, rfl⟩ := h
          exact ⟨_, rfl, rfl, rfl, rfl, Or.inl ⟨rfl, ⟨existing, hfind⟩, rfl⟩⟩

theorem findById_save_of_ne (h : s.save d = .ok (t, id)) (hne : other ≠ id) :
    t.findById other = s.findById other := by
  obtain ⟨stored, hrules, -⟩ := save_cases h
  simp [findById, hrules, get?_place, Ne.symm hne]

theorem Keyed.save (hkeyed : s.Keyed) (h : s.save d = .ok (t, id)) : t.Keyed := by
  obtain ⟨stored, hrules, hid, -⟩ := save_cases h
  refine ⟨by rw [hrules]; exact keys_place_nodup hkeyed.keys_nodup, ?_⟩
  intro entry hentry
  rw [hrules] at hentry
  rcases mem_place hentry with rfl | hold
  · exact hid
  · exact hkeyed.own_id entry hold

theorem Ascending.save (hs : s.Ascending) (h : s.save d = .ok (t, id)) : t.Ascending := by
  obtain ⟨stored, hrules, -⟩ := save_cases h
  rw [Ascending, hrules]
  exact keys_place_pairwise hs

/-- Names stay distinct if the name of the saved rule was checked before. -/
theorem NamesDistinct.save (hkeyed : s.Keyed) (hnames : s.NamesDistinct)
    (hfree : s.existsByName d.name d.id = false) (h : s.save d = .ok (t, id)) :
    t.NamesDistinct := by
  obtain ⟨stored, hrules, -, hname, -, hcases⟩ := save_cases h
  rw [existsByName_eq_false_iff] at hfree
  have hown : ∀ entry ∈ s.rules, entry.2.name = stored.name → entry.1 = id := by
    intro entry hentry hsame
    obtain ⟨hsome, heq⟩ := hfree entry hentry (hsame.trans hname)
    rw [hkeyed.own_id entry hentry] at heq
    rcases hcases with ⟨hupdate, -⟩ | ⟨hinsert, -⟩
    · rw [hupdate] at heq
      exact Option.some.inj heq
    · exact absurd hinsert hsome
  intro a ha b hb hab
  rw [hrules] at ha hb
  rcases mem_place ha with rfl | ha <;> rcases mem_place hb with rfl | hb
  · rfl
  · exact (hown b hb hab.symm).symm
  · exact hown a ha hab
  · exact hnames a ha b hb hab

/-- The identifier of a new rule is the next one; one that is replaced was given out. -/
theorem Numbered.save {n : Nat} (hnumbered : s.Numbered n) (h : s.save d = .ok (t, id))
    (hn : d.id = none → n < UInt64.size) :
    (d.id = none ∧ id.val.toNat = n ∧ t.Numbered (n + 1)) ∨
      (d.id = some id ∧ id.val.toNat < n ∧ t.Numbered n) := by
  obtain ⟨stored, hrules, -, -, -, hcases⟩ := save_cases h
  rcases hcases with ⟨hupdate, ⟨r, hr⟩, hnext⟩ | ⟨hinsert, rfl, hnext⟩
  · have hlt : id.val.toNat < n := hnumbered.lt_next _ (mem_of_findById hr)
    refine Or.inr ⟨hupdate, hlt, hnext.trans hnumbered.next_eq, ?_⟩
    intro entry hentry
    rw [hrules] at hentry
    rcases mem_place hentry with rfl | hold
    · exact hlt
    · exact hnumbered.lt_next entry hold
  · have hval : s.nextId.toNat = n := by
      rw [hnumbered.next_eq, UInt64.toNat_ofNat']
      exact Nat.mod_eq_of_lt (hn hinsert)
    refine Or.inl ⟨hinsert, hval, ?_, ?_⟩
    · rw [hnext, hnumbered.next_eq, UInt64.ofNat_add]
      rfl
    · intro entry hentry
      rw [hrules] at hentry
      rcases mem_place hentry with rfl | hold
      · show s.nextId.toNat < n + 1
        omega
      · have := hnumbered.lt_next entry hold
        omega

/-! ## Deleting -/

theorem findById_delete (s : MemoryStore) (id other : RuleId) :
    (s.delete id).1.findById other = if id = other then none else s.findById other :=
  Table.get?_erase s.rules id other

theorem Keyed.delete (h : s.Keyed) (id : RuleId) : (s.delete id).1.Keyed :=
  ⟨Table.keys_erase_nodup id h.keys_nodup,
    fun entry hentry => h.own_id entry (Table.mem_erase.mp hentry).1⟩

theorem Ascending.delete (h : s.Ascending) (id : RuleId) : (s.delete id).1.Ascending :=
  h.sublist (List.filter_sublist.map Prod.fst)

theorem NamesDistinct.delete (h : s.NamesDistinct) (id : RuleId) :
    (s.delete id).1.NamesDistinct := fun a ha b hb =>
  h a (Table.mem_erase.mp ha).1 b (Table.mem_erase.mp hb).1

theorem Numbered.delete {n : Nat} (h : s.Numbered n) (id : RuleId) :
    (s.delete id).1.Numbered n :=
  ⟨h.next_eq, fun entry hentry => h.lt_next entry (Table.mem_erase.mp hentry).1⟩

end MemoryStore

end Rulebook
