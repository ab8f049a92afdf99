/-
  Proofs/Table.lean --- the entries of a table.

  A lookup sees the first entry of its key, so it says something about all entries
  only if no key comes twice.  Putting and erasing keep that: `keys_put_nodup` and
  `keys_erase_nodup`.  What holds of all entries is kept without it, since no
  operation makes up an entry: `mem_put` and `mem_erase`.
-/
import Mathlib.Data.List.Induction
import Mathlib.Data.List.Nodup
import Rulebook.Table

set_option autoImplicit false

namespace Rulebook

/-- What is searched by a key that comes only once is found. -/
theorem find?_iff_of_nodup {α : Type} {key : α → String} {as : List α}
    (hkeys : (as.map key).Nodup) {k : String} {a : α} :
    as.find? (key · = k) = some a ↔ a ∈ as ∧ key a = k := by
  constructor
  · intro h
    exact ⟨List.mem_of_find?_eq_some h, by simpa using List.find?_some h⟩
  · rintro ⟨ha, rfl⟩
    cases hfind : as.find? (key · = key a) with
    | none =>
        rw [List.find?_eq_none] at hfind
        exact absurd (hfind a ha) (by simp)
    | some b =>
        have hkey : key b = key a := by simpa using List.find?_some hfind
        have hsame : b = a := List.inj_on_of_nodup_map hkeys (List.mem_of_find?_eq_some hfind) ha hkey
        rw [hsame]

namespace Table

variable {κ α : Type} [DecidableEq κ]

/-! ## Entries and lookups -/

theorem mem_of_get? {t : Table κ α} {k : κ} {v : α} (h : get? t k = some v) :
    (k, v) ∈ t := by
  induction t with
  | nil => simp at h
  | cons entry rest ih =>
      obtain ⟨k', v'⟩ := entry
      simp only [get?] at h
      split at h
      · rename_i hk
        subst hk
        have hv : v' = v := Option.some.inj h
        subst hv
        exact List.mem_cons_self
      · exact List.mem_cons_of_mem _ (ih h)

theorem get?_of_mem {t : Table κ α} {k : κ} {v : α} (hkeys : (keys t).Nodup)
    (hmem : (k, v) ∈ t) : get? t k = some v := by
  induction t with
  | nil => simp at hmem
  | cons entry rest ih =>
      obtain ⟨k', v'⟩ := entry
      simp only [keys, List.map_cons, List.nodup_cons] at hkeys
      rcases List.mem_cons.mp hmem with heq | hrest
      · obtain ⟨rfl, rfl⟩ := Prod.mk.inj heq
        simp [get?]
      · have hne : k' ≠ k := by
          rintro rfl
          exact hkeys.1 (List.mem_map.mpr ⟨(k', v), hrest, rfl⟩)
        simp only [get?, hne, if_false]
        exact ih hkeys.2 hrest

/-- In a table without repeated keys lookups and entries say the same. -/
theorem get?_eq_some_iff {t : Table κ α} {k : κ} {v : α} (hkeys : (keys t).Nodup) :
    get? t k = some v ↔ (k, v) ∈ t :=
  ⟨mem_of_get?, get?_of_mem hkeys⟩

theorem get?_eq_none_iff {t : Table κ α} {k : κ} : get? t k = none ↔ k ∉ keys t := by
  induction t with
  | nil => simp [keys]
  | cons entry rest ih =>
      obtain ⟨k', v⟩ := entry
      by_cases hk : k' = k
      · simp [get?, keys, hk]
      · simpa [get?, keys, hk, Ne.symm hk] using ih

/-- A lookup in a table whose values are told from its entries. -/
theorem get?_map {β : Type} (t : Table κ α) (f : α → β) (k : κ) :
    get? (t.map fun entry => (entry.1, f entry.2)) k = (get? t k).map f := by
  induction t with
  | nil => rfl
  | cons entry rest ih =>
      obtain ⟨k', v⟩ := entry
      by_cases hk : k' = k
      · simp [get?, hk]
      · simp [get?, hk, ih]

/-- An entry changes no lookup of another key, wherever it stands. -/
theorem get?_insert_of_ne {k q : κ} (h : k ≠ q) (before after : Table κ α) (v : α) :
    get? (before ++ (k, v) :: after) q = get? (before ++ after) q := by
  induction before with
  | nil => simp [get?, h]
  | cons entry rest ih =>
      obtain ⟨k', v'⟩ := entry
      simp only [List.cons_append, get?, ih]

/-- An entry is found if no entry of its key stands before it. -/
theorem get?_insert_self {k : κ} {before : Table κ α} (hk : k ∉ keys before)
    (after : Table κ α) (v : α) : get? (before ++ (k, v) :: after) k = some v := by
  induction before with
  | nil => simp [get?]
  | cons entry rest ih =>
      obtain ⟨k', v'⟩ := entry
      simp only [keys, List.map_cons, List.mem_cons, not_or] at hk
      simp only [List.cons_append, get?, if_neg (Ne.symm hk.1)]
      exact ih hk.2

/-- Tables with the same keys in the same order are the same if lookups are. -/
theorem eq_of_keys {t u : Table κ α} (hnodup : (keys t).Nodup) (hkeys : keys t = keys u)
    (hget : ∀ k, get? t k = get? u k) : t = u := by
  induction t generalizing u with
  | nil => exact (List.map_eq_nil_iff.mp hkeys.symm).symm
  | cons entry rest ih =>
      obtain ⟨k, v⟩ := entry
      cases u with
      | nil => cases hkeys
      | cons entry' rest' =>
          obtain ⟨k', v'⟩ := entry'
          obtain ⟨rfl, hrest⟩ := List.cons.inj hkeys
          obtain ⟨hk, hnodup⟩ := List.nodup_cons.mp hnodup
          have hk' : k ∉ keys rest' := by rwa [keys, ← hrest]
          have hv : v = v' := by simpa [get?] using hget k
          have hsame : ∀ q, get? rest q = get? rest' q := by
            intro q
            by_cases hq : k = q
            · subst hq
              rw [get?_eq_none_iff.mpr hk, get?_eq_none_iff.mpr hk']
            · simpa [get?, hq] using hget q
          rw [hv, ih hnodup hrest hsame]

/-- A lookup is a search for the key. -/
theorem find?_key (t : Table κ α) (k : κ) :
    List.find? (fun entry => entry.1 = k) t = (get? t k).map fun v => (k, v) := by
  induction t with
  | nil => rfl
  | cons entry rest ih =>
      obtain ⟨k', v⟩ := entry
      by_cases hk : k' = k
      · subst hk
        simp [get?]
      · simp [get?, hk, ih]

/-! ## Putting -/

theorem mem_put {t : Table κ α} {k : κ} {v : α} {entry : κ × α} (h : entry ∈ put t k v) :
    entry = (k, v) ∨ entry ∈ t := by
  induction t with
  | nil => exact Or.inl (by simpa [put] using h)
  | cons head rest ih =>
      obtain ⟨k', v'⟩ := head
      simp only [put] at h
      split at h
      · rcases List.mem_cons.mp h with heq | hrest
        · exact Or.inl heq
        · exact Or.inr (List.mem_cons_of_mem _ hrest)
      · rcases List.mem_cons.mp h with heq | hrest
        · exact Or.inr (heq ▸ List.mem_cons_self)
        · exact (ih hrest).imp_right (List.mem_cons_of_mem _)

theorem mem_keys_put {t : Table κ α} {k q : κ} {v : α} :
    q ∈ keys (put t k v) ↔ q = k ∨ q ∈ keys t := by
  induction t with
  | nil => simp [put, keys]
  | cons head rest ih =>
      obtain ⟨k', v'⟩ := head
      simp only [put]
      split
      · rename_i hk
        subst hk
        simp [keys]
      · simp only [keys, List.map_cons, List.mem_cons] at ih ⊢
        rw [ih]
        exact or_left_comm

theorem keys_put_nodup {t : Table κ α} (k : κ) (v : α) (hkeys : (keys t).Nodup) :
    (keys (put t k v)).Nodup := by
  induction t with
  | nil => simp [put, keys]
  | cons head rest ih =>
      obtain ⟨k', v'⟩ := head
      simp only [keys, List.map_cons, List.nodup_cons] at hkeys
      simp only [put]
      split
      · rename_i hk
        subst hk
        simpa [keys] using hkeys
      · rename_i hk
        have hrest : k' ∉ keys (put rest k v) := by
          rw [mem_keys_put]
          exact fun h => h.elim hk hkeys.1
        simp only [keys, List.map_cons, List.nodup_cons]
        exact ⟨hrest, ih hkeys.2⟩

/-- A new key goes to the end. -/
theorem put_of_not_mem {t : Table κ α} {k : κ} {v : α} (hk : k ∉ keys t) :
    put t k v = t ++ [(k, v)] := by
  induction t with
  | nil => rfl
  | cons head rest ih =>
      obtain ⟨k', v'⟩ := head
      simp only [keys, List.map_cons, List.mem_cons, not_or] at hk
      simp only [put, if_neg (Ne.symm hk.1), List.cons_append, ih hk.2]

/-! ## Erasing -/

theorem mem_erase {t : Table κ α} {k : κ} {entry : κ × α} :
    entry ∈ erase t k ↔ entry ∈ t ∧ entry.1 ≠ k := by
  simp [erase]

/-- What is put under a key goes with the key. -/
theorem erase_put (t : Table κ α) (k : κ) (v : α) : erase (put t k v) k = erase t k := by
  induction t with
  | nil => simp [put, erase]
  | cons head rest ih =>
      obtain ⟨k', v'⟩ := head
      by_cases hk : k' = k
      · simp [put, erase, hk]
      · simpa [put, erase, hk] using ih

theorem erase_erase (t : Table κ α) (k : κ) : erase (erase t k) k = erase t k := by
  simp [erase, List.filter_filter]

theorem keys_erase (t : Table κ α) (k : κ) : keys (erase t k) = (keys t).filter (· ≠ k) := by
  rw [keys, keys, List.filter_map]
  rfl

theorem keys_erase_nodup {t : Table κ α} (k : κ) (hkeys : (keys t).Nodup) :
    (keys (erase t k)).Nodup :=
  hkeys.sublist (List.filter_sublist.map Prod.fst)

/-! ## Putting one entry after the other -/

theorem ofEntries_append_singleton (entries : List (κ × α)) (entry : κ × α) :
    ofEntries (entries ++ [entry]) = put (ofEntries entries) entry.1 entry.2 := by
  rw [ofEntries, List.foldl_append]
  rfl

theorem keys_put (t : Table κ α) (k : κ) (v : α) :
    keys (put t k v) = if k ∈ keys t then keys t else keys t ++ [k] := by
  induction t with
  | nil => simp [put, keys]
  | cons head rest ih =>
      obtain ⟨k', v'⟩ := head
      by_cases hk : k' = k
      · subst hk
        simp [put, keys]
      · simp only [keys] at ih
        simp only [put, hk, if_false, keys, List.map_cons, List.mem_cons, Ne.symm hk, false_or, ih]
        split <;> simp_all

theorem keys_put_of_get? {t : Table κ α} {k : κ} {old : α} (h : get? t k = some old) (v : α) :
    keys (put t k v) = keys t := by
  have hmem : k ∈ keys t := List.mem_map.mpr ⟨(k, old), mem_of_get? h, rfl⟩
  rw [keys_put, if_pos hmem]

/-- The keys stand in the order in which they were first put. -/
theorem keys_ofEntries (entries : List (κ × α)) :
    keys (ofEntries entries) = (entries.map Prod.fst).eraseDups := by
  induction entries using List.reverseRecOn with
  | nil => rfl
  | append_singleton entries entry ih =>
      rw [ofEntries_append_singleton, keys_put, ih, List.map_append, List.eraseDups_append]
      by_cases hmem : entry.1 ∈ entries.map Prod.fst
      · simp [hmem, List.removeAll]
      · simp [hmem, List.removeAll, List.eraseDups_cons]

theorem keys_ofEntries_nodup (entries : List (κ × α)) : (keys (ofEntries entries)).Nodup := by
  induction entries using List.reverseRecOn with
  | nil => exact List.nodup_nil
  | append_singleton entries entry ih =>
      rw [ofEntries_append_singleton]
      exact keys_put_nodup _ _ ih

/-- Entries of different keys are a table as they are. -/
theorem ofEntries_of_nodup {entries : List (κ × α)} (hkeys : (entries.map Prod.fst).Nodup) :
    ofEntries entries = entries := by
  induction entries using List.reverseRecOn with
  | nil => rfl
  | append_singleton entries entry ih =>
      rw [List.map_append, List.nodup_append] at hkeys
      obtain ⟨hrest, -, hnew⟩ := hkeys
      have hfresh : entry.1 ∉ keys entries := fun hmem => hnew _ hmem _ (by simp) rfl
      rw [ofEntries_append_singleton, ih hrest, put_of_not_mem hfresh]

/-- A lookup sees what was put last under its key. -/
theorem get?_ofEntries_iff {entries : List (κ × α)} {k : κ} {v : α} :
    get? (ofEntries entries) k = some v ↔
      ∃ before after, entries = before ++ (k, v) :: after ∧ k ∉ after.map Prod.fst := by
  induction entries using List.reverseRecOn with
  | nil => simp [ofEntries]
  | append_singleton entries entry ih =>
      obtain ⟨k', v'⟩ := entry
      rw [ofEntries_append_singleton, get?_put]
      constructor
      · intro h
        split at h
        · rename_i hk
          cases Option.some.inj h
          exact ⟨entries, [], by simp [← hk], List.not_mem_nil⟩
        · rename_i hk
          obtain ⟨before, after, rfl, hlast⟩ := ih.mp h
          refine ⟨before, after ++ [(k', v')], by simp, ?_⟩
          simpa [Ne.symm hk] using hlast
      · rintro ⟨before, after, heq, hlast⟩
        rcases List.eq_nil_or_concat after with rfl | ⟨after, last, rfl⟩
        · obtain ⟨-, hentry⟩ := List.append_inj' heq rfl
          cases List.singleton_inj.mp hentry
          simp
        · rw [List.concat_eq_append, ← List.cons_append, ← List.append_assoc] at heq
          obtain ⟨rfl, hentry⟩ := List.append_inj' heq rfl
          cases List.singleton_inj.mp hentry
          have hk : k' ≠ k := by
            rintro rfl
            simp at hlast
          rw [if_neg hk]
          exact ih.mpr ⟨before, after, rfl, fun hmem => hlast (by simp [hmem])⟩

end Table

end Rulebook
