/-
  Proofs/Source/Reader.lean --- what readers do, from what their parts do.

  Three statements are made about a reader `p`:

      p.Reads s a r   : p reads a from the front of s, and r is left
      p.Refuses s     : p fails on s, and another branch may be tried
      p.Gives P       : whatever p reads satisfies P

  Each has one rule for each way in which readers are put together, so that what a reader
  does follows the way in which it is written.
-/
import Rulebook.Source.Reader

set_option autoImplicit false

namespace Rulebook.Source.Reader

variable {α β : Type}

/-- The reader reads a value from the front of a text and leaves a rest. -/
def Reads (p : Reader α) (s : List Char) (a : α) (r : List Char) : Prop := p s = .ok (a, r)

/-- The reader fails on a text, and another branch may be tried. -/
def Refuses (p : Reader α) (s : List Char) : Prop := ∃ e, p s = .error e ∧ e.committed = false

/-- Whatever the reader reads has a property. -/
def Gives (p : Reader α) (P : α → Prop) : Prop := ∀ s a r, p.Reads s a r → P a

section

variable {p q : Reader α} {f : α → Reader β} {s r t : List Char} {a : α} {b : β}

/-! ## Texts that are read -/

theorem Reads.pure : Reads (Pure.pure a) s a s := rfl

theorem Reads.bind (hp : p.Reads s a r) (hf : (f a).Reads r b t) : (p >>= f).Reads s b t :=
  (bind_of_ok hp).trans hf

theorem Reads.map (g : α → β) (hp : p.Reads s a r) : (g <$> p).Reads s (g a) r :=
  bind_of_ok hp

theorem Reads.commit (hp : p.Reads s a r) : p.commit.Reads s a r := by
  unfold Reads Reader.commit
  rw [hp]

theorem Reads.expecting (what : Expectation) (hp : p.Reads s a r) :
    (p.expecting what).Reads s a r := by
  unfold Reads Reader.expecting
  rw [hp]

theorem Reads.orElse (hp : p.Reads s a r) : (p <|> q).Reads s a r := by
  show Reader.orElse p (fun _ => q) s = _
  unfold Reader.orElse
  rw [hp]

theorem Reads.optional (hp : p.Reads s a r) : p.optional.Reads s (some a) r := by
  unfold Reads Reader.optional
  rw [hp]

/-- Another value is read in front if reading it moves on. -/
theorem Reads.many_cons {as : List α} (hp : p.Reads s a r) (hlt : r.length < s.length)
    (hrest : Reads (many p) r as t) : Reads (many p) s (a :: as) t := by
  unfold Reads
  rw [many, hp]
  simp only [hlt, if_true]
  rw [hrest]

theorem Reads.many1 {as : List α} (hp : p.Reads s a r) (hrest : Reads (many p) r as t) :
    p.many1.Reads s (a :: as) t :=
  hp.bind (hrest.bind .pure)

/-! ## Texts that are refused -/

theorem Refuses.bind (hp : p.Refuses s) : (p >>= f).Refuses s := by
  obtain ⟨e, herror, hfree⟩ := hp
  exact ⟨e, bind_of_error herror, hfree⟩

theorem Reads.bind_refuses (hp : p.Reads s a r) (hf : (f a).Refuses r) :
    (p >>= f).Refuses s := by
  obtain ⟨e, herror, hfree⟩ := hf
  exact ⟨e, (bind_of_ok hp).trans herror, hfree⟩

theorem Refuses.map {g : α → β} (hp : p.Refuses s) : (g <$> p).Refuses s := hp.bind

theorem Refuses.expecting (what : Expectation) (hp : p.Refuses s) :
    (p.expecting what).Refuses s := by
  obtain ⟨e, herror, hfree⟩ := hp
  refine ⟨{ e with expected := e.expected ++ [what] }, ?_, hfree⟩
  unfold Reader.expecting
  rw [herror]

/-- The next branch is tried. -/
theorem Refuses.orElse_eq (hp : p.Refuses s) : (p <|> q) s = q s := by
  obtain ⟨e, herror, hfree⟩ := hp
  show Reader.orElse p (fun _ => q) s = _
  unfold Reader.orElse
  rw [herror]
  simp [hfree]

theorem Refuses.orElse (hp : p.Refuses s) (hq : q.Reads s a r) : (p <|> q).Reads s a r :=
  hp.orElse_eq.trans hq

theorem Refuses.orElse_refuses (hp : p.Refuses s) (hq : q.Refuses s) : (p <|> q).Refuses s := by
  obtain ⟨e, herror, hfree⟩ := hq
  exact ⟨e, hp.orElse_eq.trans herror, hfree⟩

theorem Refuses.optional (hp : p.Refuses s) : p.optional.Reads s none s := by
  obtain ⟨e, herror, hfree⟩ := hp
  unfold Reads Reader.optional
  rw [herror]
  simp [hfree]

theorem Refuses.many_nil (hp : p.Refuses s) : Reads (many p) s [] s := by
  obtain ⟨e, herror, hfree⟩ := hp
  unfold Reads
  rw [many, herror]
  simp [hfree]

/-- No text is both read and refused. -/
theorem Reads.not_refuses (hp : p.Reads s a r) : ¬ p.Refuses s := by
  rintro ⟨e, herror, -⟩
  cases hp.symm.trans herror

/-! ## Where a value comes from -/

theorem Reads.of_bind (h : (p >>= f).Reads s b t) : ∃ a r, p.Reads s a r ∧ (f a).Reads r b t := by
  unfold Reads at h ⊢
  rw [bind_apply] at h
  split at h
  · rename_i a r hp
    exact ⟨a, r, hp, h⟩
  · cases h

theorem Reads.of_map {g : α → β} (h : (g <$> p).Reads s b t) : ∃ a, p.Reads s a t ∧ g a = b := by
  obtain ⟨a, r, hp, hpure⟩ := Reads.of_bind h
  cases hpure
  exact ⟨a, hp, rfl⟩

theorem Reads.of_commit (h : p.commit.Reads s a r) : p.Reads s a r := by
  unfold Reads Reader.commit at h
  split at h
  · rename_i result hp
    exact hp.trans h
  · cases h

theorem Reads.of_expecting {what : Expectation} (h : (p.expecting what).Reads s a r) :
    p.Reads s a r := by
  unfold Reads Reader.expecting at h
  split at h
  · rename_i result hp
    exact hp.trans h
  · cases h

/-- The second branch reads only what the first one refuses. -/
theorem Reads.of_orElse (h : (p <|> q).Reads s a r) :
    p.Reads s a r ∨ p.Refuses s ∧ q.Reads s a r := by
  change Reader.orElse p (fun _ => q) s = _ at h
  unfold Reader.orElse at h
  split at h
  · rename_i result hp
    exact Or.inl (hp.trans h)
  · rename_i e herror
    split at h
    · cases h
    · rename_i hfree
      exact Or.inr ⟨⟨e, herror, by simpa using hfree⟩, h⟩

theorem Reads.of_optional {o : Option α} (h : p.optional.Reads s o r) :
    (∃ a, o = some a ∧ p.Reads s a r) ∨ o = none ∧ r = s ∧ p.Refuses s := by
  unfold Reads Reader.optional at h
  split at h
  · rename_i a r' hp
    cases h
    exact Or.inl ⟨a, rfl, hp⟩
  · rename_i e herror
    split at h
    · cases h
    · rename_i hfree
      cases h
      exact Or.inr ⟨rfl, rfl, e, herror, by simpa using hfree⟩

theorem Reads.of_many_cons {as : List α} (h : Reads (many p) s (a :: as) t) :
    ∃ r, p.Reads s a r ∧ Reads (many p) r as t := by
  unfold Reads at h
  rw [many] at h
  split at h
  · rename_i a' r hp
    split at h
    · split at h
      · rename_i as' t' hrest
        cases h
        exact ⟨r, hp, hrest⟩
      · cases h
    · cases h
  · split at h <;> cases h

/-! ## What is given -/

theorem Gives.bind {P : α → Prop} {Q : β → Prop} (hp : p.Gives P)
    (hf : ∀ a, P a → (f a).Gives Q) : (p >>= f).Gives Q := by
  intro s b t h
  obtain ⟨a, r, hread, hrest⟩ := h.of_bind
  exact hf a (hp s a r hread) r b t hrest

/-- What a part gives does not matter. -/
theorem Gives.after {Q : β → Prop} (hf : ∀ a, (f a).Gives Q) : (p >>= f).Gives Q := by
  intro s b t h
  obtain ⟨a, r, -, hrest⟩ := h.of_bind
  exact hf a r b t hrest

theorem Gives.pure {P : α → Prop} (ha : P a) : Gives (Pure.pure a) P := by
  intro s a' r h
  cases h
  exact ha

theorem Gives.map {P : α → Prop} {Q : β → Prop} {g : α → β} (hp : p.Gives P)
    (hg : ∀ a, P a → Q (g a)) : (g <$> p).Gives Q :=
  hp.bind fun a ha => .pure (hg a ha)

theorem Gives.imp {P Q : α → Prop} (hp : p.Gives P) (himp : ∀ a, P a → Q a) : p.Gives Q :=
  fun s a r h => himp a (hp s a r h)

theorem Gives.commit {P : α → Prop} (hp : p.Gives P) : p.commit.Gives P :=
  fun s a r h => hp s a r h.of_commit

theorem Gives.expecting {P : α → Prop} (what : Expectation) (hp : p.Gives P) :
    (p.expecting what).Gives P :=
  fun s a r h => hp s a r h.of_expecting

theorem Gives.orElse {P : α → Prop} (hp : p.Gives P) (hq : q.Gives P) : (p <|> q).Gives P := by
  intro s a r h
  rcases h.of_orElse with h | ⟨-, h⟩
  · exact hp s a r h
  · exact hq s a r h

theorem Gives.optional {P : α → Prop} (hp : p.Gives P) :
    p.optional.Gives fun o => ∀ a, o = some a → P a := by
  rintro s o r h a rfl
  rcases h.of_optional with ⟨a', ha, h⟩ | ⟨ha, -⟩
  · cases ha
    exact hp s a r h
  · cases ha

theorem Gives.many {P : α → Prop} (hp : p.Gives P) :
    Gives (many p) fun as => ∀ a ∈ as, P a := by
  intro s as t h
  induction as generalizing s with
  | nil => simp
  | cons a as ih =>
      obtain ⟨r, hread, hrest⟩ := h.of_many_cons
      exact List.forall_mem_cons.mpr ⟨hp s a r hread, ih r hrest⟩

theorem Gives.many1 {P : α → Prop} (hp : p.Gives P) :
    p.many1.Gives fun as => as ≠ [] ∧ ∀ a ∈ as, P a :=
  hp.bind fun _ ha => hp.many.bind fun _ has =>
    .pure ⟨by simp, List.forall_mem_cons.mpr ⟨ha, has⟩⟩

end

end Rulebook.Source.Reader
