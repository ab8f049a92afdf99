/-
  Proofs/Service/Admission.lean --- what the stored rules have in common.

  A rule gets into the store through a save alone, and a save lets in what is admissible:
  a valid name, a text that is not blank, a trimmed description, both times, and, if the
  settings ask for it, a text that compiles (`Definition.Admissible`).  Since an update is
  checked like a new rule, every stored rule stays admissible, whatever callers do.

  Names and identifiers concern several rules at once.  Names stay distinct because each
  save checks its name against all other rules; identifiers rise because a new one is the
  number after all that were given out.  `stored_rules_in_order` draws the conclusions
  for the searches by name and for executions.
-/
import Mathlib.Data.List.DropRight
import Mathlib.Tactic.Tauto
import Rulebook.Proofs.Service.Transparency

set_option autoImplicit false

namespace Rulebook

/-! ## Trimming -/

namespace Text

theorem dropWhile_rdropWhile_dropWhile (cs : List Char) (p : Char → Bool) :
    ((cs.dropWhile p).rdropWhile p).dropWhile p = (cs.dropWhile p).rdropWhile p := by
  rw [List.dropWhile_eq_self_iff]
  intro hpos
  -- what is left begins as the text without its leading blanks does
  have hfront : (cs.dropWhile p).rdropWhile p <+: cs.dropWhile p := List.rdropWhile_prefix p _
  have hlength : 0 < (cs.dropWhile p).length := Nat.lt_of_lt_of_le hpos hfront.length_le
  rw [hfront.getElem hpos]
  exact List.dropWhile_eq_self_iff.mp (List.dropWhile_idempotent p cs) hlength

/-- Trimming a trimmed text changes nothing. -/
theorem trim_trim (s : String) : trim (trim s) = trim s := by
  have hchars (cs : List Char) : trimChars cs = (cs.dropWhile isBlank).rdropWhile isBlank := rfl
  simp only [trim, String.toList_ofList, hchars, dropWhile_rdropWhile_dropWhile,
    List.rdropWhile_idempotent]

end Text

/-! ## Admissible rules -/

namespace Definition

/-- A letter, a digit or an underscore of ASCII. -/
def IsNameChar (c : Char) : Prop :=
  ('0' ≤ c ∧ c ≤ '9') ∨ ('A' ≤ c ∧ c ≤ 'Z') ∨ ('a' ≤ c ∧ c ≤ 'z') ∨ c = '_'

/-- What a caller gave for a rule is in order, or was brought into order. -/
structure Normal (r : Definition) : Prop where
  /-- The name has 4 to 10 characters, -/
  name_length : 4 ≤ r.name.length ∧ r.name.length ≤ 10
  /-- all of them letters, digits and underscores. -/
  name_chars : ∀ c ∈ r.name.toList, IsNameChar c
  /-- The text has something in it. -/
  source_not_blank : ∃ c ∈ r.source.toList, Text.isBlank c = false
  /-- A description is trimmed and not empty. -/
  description_trimmed : ∀ text, r.description = some text → text ≠ "" ∧ Text.trim text = text

/-- What is stored of a rule is in order. -/
structure Admissible {π τ : Type} (d : Deployment π τ) (r : Definition) : Prop extends
    r.Normal where
  /-- The text compiles, if texts are verified. -/
  compiles : d.config.verifyBeforeSave = true → ∃ p, d.engine.compile r.source = .ok p
  /-- It is known when the rule was saved first, -/
  created : r.createdAt.isSome = true
  /-- and when it was saved last. -/
  updated : r.updatedAt.isSome = true

theorem isNameChar_iff (c : Char) : isNameChar c = true ↔ IsNameChar c := by
  simp only [isNameChar, IsNameChar, Char.isAlphanum]
  delta Char.isAlpha Char.isUpper Char.isLower
  simp only [Char.isDigit, Char.le_def, Bool.or_eq_true, Bool.and_eq_true, decide_eq_true_eq,
    ge_iff_le]
  tauto

theorem validateName_eq_ok_iff (name : String) : validateName name = .ok () ↔
    (4 ≤ name.length ∧ name.length ≤ 10) ∧ ∀ c ∈ name.toList, IsNameChar c := by
  have hvalid : validateName name = .ok () ↔ isName name = true := by
    unfold validateName
    split <;> simp_all
  rw [hvalid]
  simp only [isName, Bool.and_eq_true, decide_eq_true_eq, List.all_eq_true, isNameChar_iff,
    String.length_toList]

theorem normal_of_normalize {draft r : Definition} (h : draft.normalize = .ok r) : r.Normal := by
  unfold normalize at h
  simp only at h
  split at h
  · simp at h
  · rename_i hname
    obtain ⟨hlength, hchars⟩ := (validateName_eq_ok_iff _).mp hname
    split at h
    · simp at h
    · rename_i hblank
      obtain rfl := Except.ok.inj h
      refine ⟨hlength, hchars, ?_, ?_⟩
      · simpa [Text.isBlankText] using hblank
      · intro text htext
        obtain ⟨hmap, hne⟩ := Option.filter_eq_some_iff.mp htext
        obtain ⟨given, -, rfl⟩ := Option.map_eq_some_iff.mp hmap
        exact ⟨by simpa using hne, Text.trim_trim given⟩

end Definition

/-! ## What a save stores -/

/-- The store keeps what it was given, but for the identifier and the time of creation. -/
theorem MemoryStore.stored_of_save {s t : MemoryStore} {r : Definition} {id : RuleId}
    (h : s.save r = .ok (t, id)) :
    ∃ created, t.rules = MemoryStore.place s.rules id { r with id := some id, createdAt := created } ∧
      (r.createdAt.isSome = true → created.isSome = true) := by
  unfold save at h
  cases hid : r.id with
  | none =>
      simp only [hid, Except.ok.injEq, Prod.mk.injEq] at h
      obtain ⟨rfl, rfl⟩ := h
      exact ⟨r.createdAt, rfl, id⟩
  | some given =>
      simp only [hid] at h
      cases hfind : s.rules.get? given with
      | none => simp [hfind] at h
      | some existing =>
          simp only [hfind, Except.ok.injEq, Prod.mk.injEq] at h
          obtain ⟨rfl, rfl⟩ := h
          refine ⟨existing.createdAt.orElse fun _ => r.createdAt, rfl, ?_⟩
          intro hsome
          cases existing.createdAt <;> simp [hsome]

/-- The identifier that a save gave. -/
def Reply.savedId? {π : Type} : Reply π → Option RuleId
  | .saved (.ok id) => some id
  | _ => none

namespace Uncached

variable {π τ : Type} {d : Deployment π τ} {s t : MemoryStore} {draft : Definition}
  {now : Timestamp} {id : RuleId}

/-- A save that succeeds has checked everything it could be refused for. -/
theorem save_cases (h : save d s draft now = .ok (t, id)) :
    ∃ r existing, draft.normalize = .ok r ∧ verify d r.source = .ok () ∧
      s.existsByName r.name r.id = false ∧ s.save (r.stamp existing now) = .ok (t, id) := by
  unfold save at h
  cases hnormalize : draft.normalize with
  | error e => simp [hnormalize, bind, Except.bind] at h
  | ok r =>
      cases hverify : verify d r.source with
      | error e => simp [hnormalize, hverify, bind, Except.bind] at h
      | ok _ =>
          cases hreplaced : replaced s r with
          | error e => simp [hnormalize, hverify, hreplaced, bind, Except.bind] at h
          | ok existing =>
              simp only [hnormalize, hverify, hreplaced, bind, Except.bind] at h
              unfold write at h
              split at h
              · simp at h
              · rename_i hfree
                cases hsave : s.save (r.stamp existing now) with
                | error e => simp [hsave, Except.mapError] at h
                | ok saved =>
                    simp only [hsave, Except.mapError, Except.ok.injEq] at h
                    subst h
                    exact ⟨r, existing, rfl, hverify, Bool.eq_false_iff.mpr hfree, hsave⟩

/-- A command that gives an identifier is a save that succeeds; any other leaves the stored
rules as they are, or deletes one. -/
theorem perform_cases (d : Deployment π τ) (s : MemoryStore) (command : Command) :
    (∃ draft now id, command = .save draft now ∧
        (perform d s command).2.savedId? = some id ∧
        save d s draft now = .ok ((perform d s command).1, id)) ∨
      ((perform d s command).2.savedId? = none ∧
        ((perform d s command).1 = s ∨ ∃ id, (perform d s command).1 = (s.delete id).1)) := by
  cases command with
  | save draft now =>
      rw [perform]
      cases hsave : save d s draft now with
      | error e => exact Or.inr ⟨rfl, Or.inl rfl⟩
      | ok saved => exact Or.inl ⟨draft, now, saved.2, rfl, rfl, hsave⟩
  | delete id =>
      rw [perform, delete]
      cases s.findById id with
      | none => exact Or.inr ⟨rfl, Or.inl rfl⟩
      | some rule => exact Or.inr ⟨rfl, Or.inr ⟨id, rfl⟩⟩
  | find | invalidate | execute => exact Or.inr ⟨rfl, Or.inl rfl⟩

/-! ### Contents -/

theorem compiles_of_verify {source : String} (h : verify d source = .ok ())
    (hverify : d.config.verifyBeforeSave = true) : ∃ p, d.engine.compile source = .ok p := by
  cases hcompile : d.engine.compile source with
  | ok p => exact ⟨p, rfl⟩
  | error diagnostics => simp [verify, hverify, hcompile, Except.mapError, Except.map] at h

/-- All stored rules are admissible. -/
def Admitted (d : Deployment π τ) (s : MemoryStore) : Prop :=
  ∀ entry ∈ s.rules, entry.2.Admissible d

theorem Admitted.save (hs : Admitted d s) (h : save d s draft now = .ok (t, id)) :
    Admitted d t := by
  obtain ⟨r, existing, hnormalize, hverify, -, hsave⟩ := save_cases h
  obtain ⟨created, hrules, hcreated⟩ := MemoryStore.stored_of_save hsave
  obtain ⟨hlength, hchars, hblank, hdescription⟩ := Definition.normal_of_normalize hnormalize
  have hstamp : (r.stamp existing now).createdAt.isSome = true := by
    simp only [Definition.stamp]
    cases existing.bind (·.createdAt) <;> rfl
  intro entry hentry
  rw [hrules] at hentry
  rcases MemoryStore.mem_place hentry with rfl | hold
  · exact ⟨⟨hlength, hchars, hblank, hdescription⟩, compiles_of_verify hverify,
      hcreated hstamp, rfl⟩
  · exact hs entry hold

theorem Admitted.perform (hs : Admitted d s) (command : Command) :
    Admitted d (Uncached.perform d s command).1 := by
  rcases perform_cases d s command with ⟨draft, now, id, -, -, hsave⟩ | ⟨-, hsame | ⟨id, hdelete⟩⟩
  · exact hs.save hsave
  · rw [hsame]
    exact hs
  · rw [hdelete]
    exact fun entry hentry => hs entry (Table.mem_erase.mp hentry).1

theorem Admitted.performAll (hs : Admitted d s) (commands : List Command) :
    Admitted d (Uncached.performAll d s commands).1 := by
  induction commands generalizing s with
  | nil => exact hs
  | cons command rest ih => exact ih (hs.perform command)

/-! ### Identifiers -/

end Uncached

/-- Whether a command has stored a new rule, by the reply to it. -/
def Command.inserted {π : Type} (command : Command) (reply : Option (Reply π)) : Bool :=
  match command with
  | .save draft _ => draft.id.isNone && (reply.bind Reply.savedId?).isSome
  | _ => false

/-- How many commands have stored a new rule, by the replies to them. -/
def Command.inserts {π : Type} (commands : List Command) (replies : List (Option (Reply π))) :
    Nat :=
  (commands.zip replies).countP fun asked => asked.1.inserted asked.2

theorem Command.inserts_cons {π : Type} (command : Command) (commands : List Command)
    (reply : Option (Reply π)) (replies : List (Option (Reply π))) :
    inserts (command :: commands) (reply :: replies) =
      (if command.inserted reply then 1 else 0) + inserts commands replies := by
  rw [inserts, List.zip_cons_cons, List.countP_cons, Nat.add_comm]
  rfl

namespace Uncached

variable {π τ : Type} {d : Deployment π τ} {s : MemoryStore} {n : Nat}

/-- A new rule is given the next identifier, and no command gives one that is still to come. -/
theorem numbered_perform (hs : s.Numbered n) (command : Command)
    (hroom : n + (if command.inserted (some (perform d s command).2) then 1 else 0) ≤
      UInt64.size) :
    ∃ n', n' = n + (if command.inserted (some (perform d s command).2) then 1 else 0) ∧
      (perform d s command).1.Numbered n' ∧
      ∀ id, (perform d s command).2.savedId? = some id → id.val.toNat < n' ∧
        (command.inserted (some (perform d s command).2) = true → id.val.toNat = n) := by
  rcases perform_cases d s command with ⟨draft, now, id, rfl, hid, hsave⟩ | ⟨hid, hstore⟩
  · obtain ⟨r, existing, hnormalize, -, -, hwrite⟩ := save_cases hsave
    have hdraft : r.id = draft.id := Definition.id_of_normalize hnormalize
    have hinserted : (Command.save draft now).inserted
        (some (perform d s (.save draft now)).2) = draft.id.isNone := by
      simp [Command.inserted, hid]
    rw [hinserted] at hroom ⊢
    rw [hid]
    have hn : r.id = none → n < UInt64.size := by
      intro hnone
      simp [← hdraft, hnone] at hroom
      omega
    rcases hs.save hwrite hn with ⟨hinsert, hval, hnext⟩ | ⟨hupdate, hval, hnext⟩
    · have hnone : draft.id = none := hdraft.symm.trans hinsert
      refine ⟨n + 1, by simp [hnone], hnext, ?_⟩
      rintro _ ⟨⟩
      exact ⟨by omega, fun _ => hval⟩
    · have hsome : draft.id = some id := hdraft.symm.trans hupdate
      refine ⟨n, by simp [hsome], hnext, ?_⟩
      rintro _ ⟨⟩
      exact ⟨hval, by simp [hsome]⟩
  · have hinserted : command.inserted (some (perform d s command).2) = false := by
      cases command <;> simp [Command.inserted, hid]
    rw [hinserted, hid]
    refine ⟨n, rfl, ?_, by simp⟩
    rcases hstore with hsame | ⟨id, hdelete⟩
    · rw [hsame]
      exact hs
    · rw [hdelete]
      exact hs.delete id

/-- The identifier that a command of a run gave. -/
def givenId? (d : Deployment π τ) (s : MemoryStore) (commands : List Command) (i : Nat) :
    Option RuleId :=
  (performAll d s commands).2[i]?.bind Reply.savedId?

/-- Whether a command of a run has stored a new rule. -/
def hasInserted (d : Deployment π τ) (s : MemoryStore) (commands : List Command) (i : Nat) : Bool :=
  commands[i]?.any fun command => command.inserted (performAll d s commands).2[i]?

/-- The identifiers of the new rules of a run rise above all that were given before. -/
theorem givenId?_rising (hs : s.Numbered n) (commands : List Command)
    (hroom : n + Command.inserts commands ((performAll d s commands).2.map some) ≤
      UInt64.size) :
    (∀ j b, hasInserted d s commands j = true → givenId? d s commands j = some b →
        n ≤ b.val.toNat) ∧
      ∀ i j a b, i < j → givenId? d s commands i = some a →
        hasInserted d s commands j = true → givenId? d s commands j = some b →
        a.val < b.val := by
  induction commands generalizing s n with
  | nil => simp [hasInserted]
  | cons command rest ih =>
      simp only [performAll, List.map_cons, Command.inserts_cons] at hroom
      obtain ⟨n', hn', hnumbered, hgiven⟩ := numbered_perform (d := d) hs command (by omega)
      obtain ⟨hnew, hrising⟩ := ih hnumbered (by omega)
      refine ⟨?_, ?_⟩
      · intro j b hinserted hid
        cases j with
        | zero => exact Nat.le_of_eq ((hgiven b hid).2 hinserted).symm
        | succ j =>
            have := hnew j b hinserted hid
            omega
      · intro i j a b hij ha hinserted hb
        cases j with
        | zero => omega
        | succ j =>
            cases i with
            | zero =>
                have hlt : a.val.toNat < n' := (hgiven a ha).1
                have hle : n' ≤ b.val.toNat := hnew j b hinserted hb
                exact UInt64.lt_iff_toNat_lt.mpr (by omega)
            | succ i => exact hrising i j a b (by omega) ha hinserted hb

end Uncached

/-! ## Searches by name -/

namespace MemoryStore

variable {s : MemoryStore} {name : String} {r : Definition}

theorem Keyed.names_nodup (h : s.Keyed) (hnames : s.NamesDistinct) :
    (s.definitions.map (·.name)).Nodup := by
  have hrules : s.rules.Nodup := List.Nodup.of_map _ h.keys_nodup
  rw [definitions, List.map_map]
  refine List.Nodup.map_on ?_ hrules
  intro a ha b hb hab
  exact List.inj_on_of_nodup_map h.keys_nodup ha hb (hnames a ha b hb hab)

/-- A search by name finds the one rule with the name. -/
theorem Keyed.findByName_iff (h : s.Keyed) (hnames : s.NamesDistinct) :
    s.findByName name = some r ↔ (∃ id, s.findById id = some r) ∧ r.name = name := by
  rw [findByName_eq, Option.map_eq_some_iff]
  constructor
  · rintro ⟨⟨id, r'⟩, hentry, rfl⟩
    obtain ⟨hfind, hname⟩ := (h.entry?_name_iff hnames).mp hentry
    exact ⟨⟨id, hfind⟩, hname⟩
  · rintro ⟨⟨id, hfind⟩, hname⟩
    exact ⟨(id, r), (h.entry?_name_iff hnames).mpr ⟨hfind, hname⟩, rfl⟩

/-- A name is taken if the one rule with the name is another one. -/
theorem Keyed.existsByName_iff (h : s.Keyed) (hnames : s.NamesDistinct)
    (excluding : Option RuleId) :
    s.existsByName name excluding = true ↔
      ∃ r, s.findByName name = some r ∧ r.id ≠ excluding := by
  simp only [existsByName, List.any_eq_true, Bool.and_eq_true, Bool.or_eq_true,
    decide_eq_true_eq, Option.isNone_iff_eq_none, h.findByName_iff hnames, mem_definitions,
    ← h.findById_iff]
  constructor
  · rintro ⟨r, ⟨id, hfind⟩, hname, hother⟩
    refine ⟨r, ⟨⟨id, hfind⟩, hname⟩, ?_⟩
    rcases hother with rfl | hother
    · rw [h.own_id _ (mem_of_findById hfind)]
      simp
    · exact hother
  · rintro ⟨r, ⟨⟨id, hfind⟩, hname⟩, hother⟩
    exact ⟨r, ⟨id, hfind⟩, hname, Or.inr hother⟩

end MemoryStore

/-! ## The store of the service -/

section

variable {π τ : Type} {d : Deployment π τ} {w : Shared MemoryStore π}

/-- If stored texts compile, a lookup does not fail for a text, -/
theorem Uncached.Admitted.program_ne (h : Uncached.Admitted d w.store)
    (hverify : d.config.verifyBeforeSave = true) (key : RuleKey) (id : RuleId)
    (diagnostics : Diagnostics) :
    Uncached.program d w.store key ≠ .error (.uncompilable id diagnostics) := by
  unfold Uncached.program
  cases hentry : Uncached.entry? w.store key with
  | none => simp
  | some entry =>
      have hmem : entry ∈ w.store.rules := by
        cases key <;> exact List.mem_of_find?_eq_some hentry
      obtain ⟨p, hp⟩ := (h entry hmem).compiles hverify
      simp [hp, Except.mapError]

/-- and a run fails for other reasons. -/
theorem Execution.runFound_ne (key : RuleKey) (params : Json.Members)
    {found : Except RuleError (Compiled π)} {id : RuleId} {diagnostics : Diagnostics}
    (hfound : found.map (·.program) ≠ .error (.uncompilable id diagnostics)) :
    (runFound d key params found).answer ≠ .error (.uncompilable id diagnostics) := by
  cases found with
  | error e => simpa [runFound, Except.map] using hfound
  | ok p =>
      simp only [runFound, run]
      split
      · simp
      · split <;> simp

end

namespace Facade

variable {π τ : Type}

/-- **The stored rules are in order.**  Whatever callers ask for, starting on an empty
store and without using up the identifiers, the stored rules are admissible, carry the
identifiers under which they stand and have distinct names; and each new rule was given
an identifier above all that were given before.  So a search by name finds the one rule
with the name, a name is taken if that rule is not the one that is excluded, and, where
texts are verified, no execution fails because a stored text does not compile. -/
theorem stored_rules_in_order (d : Deployment π τ) (commands : List Command)
    {w : Shared MemoryStore π} {replies : List (Option (Reply π))}
    (hrun : performAll d (.start .empty) commands = (w, replies))
    (hroom : Command.inserts commands replies < UInt64.size) :
    (w.store.definitions.map (·.name)).Nodup ∧
      (∀ id r, w.store.findById id = some r → r.Admissible d ∧ r.id = some id) ∧
      (∀ (i j : Nat) (draft : Definition) (now : Timestamp) (a b : RuleId), i < j →
        commands[j]? = some (.save draft now) → draft.id = none →
        replies[i]? = some (some (.saved (.ok a))) → replies[j]? = some (some (.saved (.ok b))) →
        a.val < b.val) ∧
      (∀ name r, w.store.findByName name = some r ↔
        (∃ id, w.store.findById id = some r) ∧ r.name = name) ∧
      (∀ name excluding, w.store.existsByName name excluding = true ↔
        ∃ r, w.store.findByName name = some r ∧ r.id ≠ excluding) ∧
      (d.config.verifyBeforeSave = true → ∀ key params, ∃ run,
        (Execution.execute d w key params).2 = some run ∧
        ∀ id diagnostics, run.answer ≠ .error (.uncompilable id diagnostics)) := by
  obtain ⟨w', hall, hstore, hw⟩ : ∃ w', performAll d (.start .empty) commands =
        (w', (Uncached.performAll d .empty commands).2.map some) ∧
      w'.store = (Uncached.performAll d .empty commands).1 ∧ w'.Coherent d :=
    performAll_eq (Shared.coherent_start d) commands
  obtain ⟨rfl, rfl⟩ := Prod.mk.inj (hall.symm.trans hrun)
  have hadmitted : Uncached.Admitted d w'.store := by
    rw [hstore]
    exact Uncached.Admitted.performAll (fun entry hentry => absurd hentry List.not_mem_nil) commands
  obtain ⟨-, hrising⟩ := Uncached.givenId?_rising (d := d) MemoryStore.numbered_empty commands
    (Nat.add_comm _ 1 ▸ hroom)
  refine ⟨hw.keyed.names_nodup hw.namesDistinct, ?_, ?_,
    fun name r => hw.keyed.findByName_iff hw.namesDistinct,
    fun name excluding => hw.keyed.existsByName_iff hw.namesDistinct excluding, ?_⟩
  · intro id r hfind
    have hmem := MemoryStore.mem_of_findById hfind
    exact ⟨hadmitted _ hmem, hw.keyed.own_id _ hmem⟩
  · intro i j draft now a b hij hcommand hnew ha hb
    simp only [List.getElem?_map, Option.map_eq_some_iff, Option.some.injEq,
      exists_eq_right] at ha hb
    refine hrising i j a b hij ?_ ?_ ?_
    · simp [Uncached.givenId?, ha, Reply.savedId?]
    · simp [Uncached.hasInserted, hcommand, Command.inserted, hnew, hb, Reply.savedId?]
    · simp [Uncached.givenId?, hb, Reply.savedId?]
  · intro hverify key params
    obtain ⟨w₂, found, hlookup, -, -, hfound⟩ := Lookup.run_eq hw key
    refine ⟨Execution.runFound d key params found, ?_, ?_⟩
    · rw [Execution.execute, hlookup]
      rfl
    · intro id diagnostics
      apply Execution.runFound_ne
      rw [hfound]
      exact hadmitted.program_ne hverify key id diagnostics

/-- A rule is saved and renamed, its name is used again, the second rule is deleted and a
third is saved. -/
def reused : List Command :=
  [.save { Definition.new " door " "rule open:params.x==1" with description := some " " } ⟨0, 0⟩,
    .save { Definition.new "gate" "rule open:params.x==2" with id := some ⟨1⟩ } ⟨1, 0⟩,
    .save (.new "door" "rule shut:params.x==3") ⟨2, 0⟩, .delete ⟨2⟩,
    .save (.new "door" "rule shut:params.x==4") ⟨3, 0⟩]

theorem stored_rules_in_order_reused :
    ∃ w replies, performAll ⟨Engine.rules, unverified⟩ (.start .empty) reused = (w, replies) ∧
      Command.inserts reused replies < UInt64.size ∧
      replies[2]? = some (some (.saved (.ok ⟨2⟩))) ∧
      replies[4]? = some (some (.saved (.ok ⟨3⟩))) ∧ (2 : UInt64) < 3 ∧
      (w.store.definitions.map (·.name)).Nodup ∧
      ∃ r, w.store.findByName "door" = some r ∧ r.id = some ⟨3⟩ ∧ r.name.length ≤ 10 := by
  let second : Definition :=
    ⟨some ⟨2⟩, "door", none, "rule shut:params.x==3", some ⟨2, 0⟩, some ⟨2, 0⟩⟩
  let third : Definition :=
    ⟨some ⟨3⟩, "door", none, "rule shut:params.x==4", some ⟨3, 0⟩, some ⟨3, 0⟩⟩
  let replies : List (Option (Reply Program)) :=
    [some (.saved (.ok ⟨1⟩)), some (.saved (.ok ⟨1⟩)), some (.saved (.ok ⟨2⟩)),
      some (.deleted (.ok second)), some (.saved (.ok ⟨3⟩))]
  have hrun : performAll ⟨Engine.rules, unverified⟩ (.start .empty) reused =
      ((performAll ⟨Engine.rules, unverified⟩ (.start .empty) reused).1, replies) := rfl
  have hroom : Command.inserts reused replies < UInt64.size := by decide
  obtain ⟨hnames, hadmissible, hrising, hfind, -, -⟩ :=
    stored_rules_in_order ⟨Engine.rules, unverified⟩ reused hrun hroom
  have hthird : (performAll ⟨Engine.rules, unverified⟩ (.start .empty) reused).1.store.findById
      ⟨3⟩ = some third := rfl
  refine ⟨_, replies, hrun, hroom, rfl, rfl, ?_, hnames, third, ?_, rfl, ?_⟩
  · exact hrising 2 4 (.new "door" "rule shut:params.x==4") ⟨3, 0⟩ ⟨2⟩ ⟨3⟩ (by decide) rfl rfl
      rfl rfl
  · exact (hfind "door" third).mpr ⟨⟨⟨3⟩, hthird⟩, rfl⟩
  · exact (hadmissible ⟨3⟩ third hthird).1.name_length.2

end Facade

end Rulebook
