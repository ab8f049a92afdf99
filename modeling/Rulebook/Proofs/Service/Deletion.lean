/-
  Proofs/Service/Deletion.lean --- deletion is for good.

  Once a deletion has returned with success, the store never has the rule again: identifiers
  are not given twice, and an update needs the rule to be there.  What the cache holds and
  what lookups and saves find was read after the deletion had written, so the cache holds
  nothing of the rule, lookups do not find it and saves are refused.

  This is shown of operations that are under way at the same time, where a lookup may still
  carry the text of the deleted rule (`System.gone_after`), and of commands that callers
  give one after the other (`Facade.gone_performAll`).
-/
import Rulebook.Proofs.Service.Admission
import Rulebook.Proofs.Service.Exclusion
import Rulebook.Proofs.Service.Freshness

set_option autoImplicit false

namespace Rulebook

/-- Neither the store nor the cache has anything under an identifier. -/
structure Shared.Gone {π : Type} (w : Shared MemoryStore π) (id : RuleId) : Prop where
  store : w.store.findById id = none
  programs : w.cache.program? id = none
  names : ∀ name, w.cache.idOf? name ≠ some id

/-- What a save of a rule that is not there is refused for: what is wrong with the draft, or
else that there is no such rule. -/
def Uncached.refusal {π τ : Type} (d : Deployment π τ) (draft : Definition) (id : RuleId) :
    RuleError :=
  match draft.normalize with
  | .error e => e
  | .ok r =>
    match verify d r.source with
    | .error e => e
    | .ok _ => .notFound (.id id)

/-- An execution whose lookup does not find the rule answers so, whatever is not exposed. -/
theorem Execution.respond_notFound {π τ : Type} (d : Deployment π τ) (key : RuleKey)
    (params : Json.Members) :
    respond d.config (runFound d key params (.error (.notFound key))).answer =
      .failure (RuleError.notFound key).message := rfl

/-! ## Saves of a rule that is not there -/

namespace Saving

variable {π τ : Type} {d : Deployment π τ} {w w' : Shared MemoryStore π} {now : Timestamp}
  {draft : Definition} {id : RuleId} {s s' : Saving}

/-- A save that is about to be refused, or has been. -/
def Refused (d : Deployment π τ) (draft : Definition) (id : RuleId) : Saving → Prop
  | .normalize given => given = draft
  | .verify r => draft.normalize = .ok r ∧ d.config.verifyBeforeSave = true
  | .lock r => r.id = some id ∧ Uncached.refusal d draft id = .notFound (.id id)
  | .find _ other => other = id ∧ Uncached.refusal d draft id = .notFound (.id id)
  | .unlock answer | .done answer => answer = .error (Uncached.refusal d draft id)
  | _ => False

/-- While the rule is not there, a save of it goes on to be refused. -/
theorem Refused.step (hid : draft.id = some id) (hnone : w.store.findById id = none)
    (h : s.Refused d draft id) (hstep : s.step d now w = some (w', s')) :
    s'.Refused d draft id := by
  cases s with
  | normalize given =>
      obtain rfl : given = draft := h
      simp only [Saving.step] at hstep
      cases hnormalize : given.normalize with
      | error e =>
          rw [hnormalize] at hstep
          obtain ⟨-, rfl⟩ := Prod.mk.inj (Option.some.inj hstep)
          rw [Refused, Uncached.refusal, hnormalize]
      | ok r =>
          rw [hnormalize] at hstep
          obtain ⟨-, rfl⟩ := Prod.mk.inj (Option.some.inj hstep)
          split
          · rename_i hverify
            exact ⟨hnormalize, hverify⟩
          · rename_i hverify
            refine ⟨(Definition.id_of_normalize hnormalize).trans hid, ?_⟩
            rw [Uncached.refusal, hnormalize]
            simp only [Uncached.verify, if_neg hverify]
  | verify r =>
      obtain ⟨hnormalize, hverify⟩ := h
      simp only [Saving.step] at hstep
      cases hcompile : d.engine.compile r.source with
      | error diagnostics =>
          rw [hcompile] at hstep
          obtain ⟨-, rfl⟩ := Prod.mk.inj (Option.some.inj hstep)
          rw [Refused, Uncached.refusal, hnormalize]
          simp only [Uncached.verify, if_pos hverify, hcompile]
          rfl
      | ok program =>
          rw [hcompile] at hstep
          obtain ⟨-, rfl⟩ := Prod.mk.inj (Option.some.inj hstep)
          refine ⟨(Definition.id_of_normalize hnormalize).trans hid, ?_⟩
          rw [Uncached.refusal, hnormalize]
          simp only [Uncached.verify, if_pos hverify, hcompile]
          rfl
  | lock r =>
      obtain ⟨hr, hrefusal⟩ := h
      simp only [Saving.step] at hstep
      split at hstep
      · cases hstep
      · obtain ⟨-, rfl⟩ := Prod.mk.inj (Option.some.inj hstep)
        rw [hr]
        exact ⟨rfl, hrefusal⟩
  | find r other =>
      obtain ⟨rfl, hrefusal⟩ := h
      simp only [Saving.step, RuleStore.findById, hnone] at hstep
      obtain ⟨-, rfl⟩ := Prod.mk.inj (Option.some.inj hstep)
      rw [Refused, hrefusal]
  | unlock answer =>
      obtain ⟨-, rfl⟩ := Prod.mk.inj (Option.some.inj hstep)
      exact h
  | done answer => cases hstep
  | checkName _ _ | write _ _ | invalidate _ => exact h.elim

end Saving

/-! ## Operations under way -/

namespace System

variable {π τ : Type} {d : Deployment π τ} {store : MemoryStore} {before earlier events : List Event}
  {id : RuleId} {P : Option Definition → Prop}

/-- A save of a rule that is not there from the call on follows its refusal. -/
theorem refused_after {draft : Definition} {now : Timestamp} (hid : draft.id = some id)
    (hcall : earlier ++ [.call (.save draft now)] <+: events)
    (hnone : ∀ past, earlier <+: past → past <+: events →
      (after d store past).shared.store.findById id = none) :
    ∃ s : Saving, s.Refused d draft id ∧
      (after d store events).operations[(after d store earlier).operations.length]? =
        some (.save draft now s) := by
  induction events using List.reverseRecOn with
  | nil => simp at hcall
  | append_singleton recent event ih =>
      rcases List.prefix_concat_iff.mp hcall with heq | hrecent
      · obtain ⟨rfl, hevent⟩ := List.append_inj' heq rfl
        obtain rfl := List.singleton_inj.mp hevent
        refine ⟨.normalize draft, rfl, ?_⟩
        rw [after_append_singleton]
        exact List.getElem?_concat_length
      · obtain ⟨s, hs, hop⟩ := ih hrecent fun past hpast hlater =>
          hnone past hpast (hlater.trans (List.prefix_append _ _))
        have hstart : earlier <+: recent := (List.prefix_append _ _).trans hrecent
        rw [after_append_singleton]
        obtain ⟨op', hop', rfl | hstep⟩ := (move_next d (after d store recent) event).getElem? hop
        · exact ⟨s, hs, hop'⟩
        · obtain ⟨⟨w, s'⟩, hs', heq⟩ := Option.map_eq_some_iff.mp hstep
          obtain ⟨-, rfl⟩ := Prod.mk.inj heq
          exact ⟨s', hs.step hid (hnone recent hstart (List.prefix_append _ _)) hs', hop'⟩

/-- A save that was called for can be brought to its end. -/
theorem exists_saved (d : Deployment π τ) {draft : Definition} {now : Timestamp} {n : Nat}
    {s : Saving} (events : List Event)
    (hop : (after d store events).operations[n]? = some (.save draft now s)) :
    ∃ (turns : List Nat) (answer : Except RuleError RuleId),
      (after d store (events ++ turns.map .step)).operations[n]? =
        some (.save draft now (.done answer)) := by
  obtain ⟨turns, op', hop', hrequest, hleft⟩ := exists_returned d events hop
  refine ⟨turns, ?_⟩
  cases op' with
  | save draft' now' s' =>
      obtain ⟨rfl, rfl⟩ := Request.save.inj hrequest
      cases s' with
      | done answer => exact ⟨answer, hop'⟩
      | _ => cases hleft
  | lookup _ _ => cases hrequest
  | delete _ _ => cases hrequest

section

variable {n : Nat} {removed : Definition} (hkeyed : store.Keyed) {first : Nat}
  (hnumbered : store.Numbered first) (hbefore : before <+: events)
  (hroom : first + (after d store events).inserts ≤ UInt64.size)
  (hdelete : (after d store before).operations[n]? = some (.delete id (.done (.ok removed))))

include hkeyed hnumbered hbefore hroom hdelete

/-- From the return of a deletion on the store does not have the rule. -/
theorem findById_of_returned {past : List Event} (hpast : before <+: past)
    (hlater : past <+: events) : (after d store past).shared.store.findById id = none := by
  have hsettled : (after d store before).Settled n id := ⟨_, hdelete, rfl⟩
  exact findById_of_deleted hkeyed hnumbered hlater hbefore hroom hdelete
    (Wrote.later hkeyed hpast hsettled.wrote)

/-- What was read in time was read when the rule was gone. -/
theorem Recalls.gone (h : Recalls d store events id P) : P none := by
  obtain ⟨past, hpast, hP, hwrote⟩ := h
  have hsettled : (after d store before).Settled n id := ⟨_, hdelete, rfl⟩
  rwa [findById_of_deleted hkeyed hnumbered hpast hbefore hroom hdelete
    (hwrote n (hsettled.later hkeyed hbefore))] at hP

/-- Whatever is under way, nothing of a deleted rule is left or comes back. -/
theorem gone_after : (after d store events).shared.Gone id where
  store := findById_of_returned hkeyed hnumbered hbefore hroom hdelete hbefore
    (List.prefix_refl events)
  programs := by
    cases hp : (after d store events).shared.cache.program? id with
    | none => rfl
    | some p =>
        have hrecalls := (consistent_after hkeyed events).programs id p (Table.mem_of_get? hp)
        have hanswer := hrecalls.gone hkeyed hnumbered hbefore hroom hdelete
        rw [Deployment.answer_of_none rfl] at hanswer
        cases hanswer
  names name hname := by
    have hrecalls := (consistent_after hkeyed events).names name id (Table.mem_of_get? hname)
    have hfound := hrecalls.gone hkeyed hnumbered hbefore hroom hdelete
    cases hfound

/-- A lookup that is called for after the return of a deletion does not find the rule. -/
theorem answer_of_returned (hearlier : before <+: earlier)
    (hcall : earlier ++ [.call (.lookup (.id id))] <+: events)
    {answer : Except RuleError (Compiled π)}
    (hdone : (after d store events).operations[(after d store earlier).operations.length]? =
      some (.lookup (.id id) (.done answer))) : answer = .error (.notFound (.id id)) := by
  obtain ⟨l, -, hop, past, hpast, hfollows, hwrote⟩ := readSince_after (d := d) hkeyed hcall
  obtain ⟨-, rfl⟩ := Operation.lookup.inj (Option.some.inj (hop.symm.trans hdone))
  have hsettled : (after d store before).Settled n id := ⟨_, hdelete, rfl⟩
  have hanswer : answer.map (·.program) =
      d.answer id ((after d store past).shared.store.findById id) := hfollows
  rw [findById_of_deleted hkeyed hnumbered hpast hbefore hroom hdelete
    (hwrote n (hsettled.later hkeyed hearlier)), Deployment.answer_of_none rfl] at hanswer
  cases answer with
  | error e => exact congrArg Except.error (Except.error.inj hanswer)
  | ok p => cases hanswer

end

end System

/-! ## One command after the other -/

namespace Uncached

variable {π τ : Type} {d : Deployment π τ} {s : MemoryStore} {n : Nat} {id : RuleId}

theorem save_of_absent (hnone : s.findById id = none) {draft : Definition}
    (hid : draft.id = some id) (now : Timestamp) :
    save d s draft now = .error (refusal d draft id) := by
  unfold save refusal
  cases hnormalize : draft.normalize with
  | error e => rfl
  | ok r =>
      have hr : r.id = some id := (Definition.id_of_normalize hnormalize).trans hid
      cases hverify : verify d r.source with
      | error e => simp [hverify, bind, Except.bind]
      | ok _ => simp [hverify, replaced, hr, hnone, bind, Except.bind]

theorem program_of_absent (hnone : s.findById id = none) :
    program d s (.id id) = .error (.notFound (.id id)) := by
  rw [program, MemoryStore.entry?_id, hnone]
  rfl

/-- Every command has a reply. -/
theorem length_performAll (commands : List Command) :
    (performAll d s commands).2.length = commands.length := by
  induction commands generalizing s with
  | nil => rfl
  | cons command rest ih =>
      simp only [performAll, List.length_cons]
      rw [ih]

/-- What callers are told of a rule that is not there. -/
def Denies (d : Deployment π τ) (id : RuleId) (command : Command) (reply : Reply π) : Prop :=
  (∀ draft now, command = .save draft now → draft.id = some id →
      reply = .saved (.error (refusal d draft id))) ∧
    (command = .delete id → reply = .deleted (.error (.notFound (.id id)))) ∧
    (command = .find (.id id) → reply = .found (.error (.notFound (.id id)))) ∧
    ∀ params, command = .execute (.id id) params →
      reply = .executed (.failure (RuleError.notFound (.id id)).message)

theorem denies_perform (hnone : s.findById id = none) (command : Command) :
    Denies d id command (perform d s command).2 := by
  refine ⟨?_, ?_, ?_, ?_⟩
  · rintro draft now rfl hid
    rw [perform, save_of_absent hnone hid]
    rfl
  · rintro rfl
    rw [perform, delete, hnone]
    rfl
  · rintro rfl
    rw [perform, program_of_absent hnone]
  · rintro params rfl
    rw [perform, outcome, program_of_absent hnone]
    rfl

/-- No command brings a rule back that had been given an identifier and is not there. -/
theorem findById_perform (hs : s.Numbered n) (hid : id.val.toNat < n)
    (hnone : s.findById id = none) (command : Command)
    (hroom : n + (if command.inserted (some (perform d s command).2) then 1 else 0) ≤
      UInt64.size) : (perform d s command).1.findById id = none := by
  rcases perform_cases d s command with ⟨draft, now, given, rfl, hgiven, hsave⟩ | ⟨-, hstore⟩
  · obtain ⟨r, existing, hnormalize, -, -, hwrite⟩ := save_cases hsave
    have hdraft : r.id = draft.id := Definition.id_of_normalize hnormalize
    have hne : id ≠ given := by
      rintro rfl
      obtain ⟨-, -, -, -, -, ⟨-, ⟨rule, hrule⟩, -⟩ | ⟨hinsert, rfl, -⟩⟩ :=
        MemoryStore.save_cases hwrite
      · simp [hnone] at hrule
      · -- the next identifier is none that was given before
        have hinserted : (Command.save draft now).inserted
            (some (perform d s (.save draft now)).2) = true := by
          have hfresh : draft.id = none := hdraft.symm.trans hinsert
          simp [Command.inserted, hgiven, hfresh]
        rw [hinserted, if_pos rfl] at hroom
        have hnext : s.nextId.toNat = n := by
          rw [hs.next_eq, UInt64.toNat_ofNat']
          exact Nat.mod_eq_of_lt hroom
        exact absurd hid (by simp [hnext])
    rw [MemoryStore.findById_save_of_ne hwrite hne, hnone]
  · rcases hstore with hsame | ⟨other, hdelete⟩
    · rw [hsame, hnone]
    · rw [hdelete, MemoryStore.findById_delete, hnone, ite_self]

/-- A rule that had been given its identifier and is not there does not come back, and
callers are told so. -/
theorem gone_performAll (hs : s.Numbered n) (hid : id.val.toNat < n)
    (hnone : s.findById id = none) (commands : List Command)
    (hroom : n + Command.inserts commands ((performAll d s commands).2.map some) ≤ UInt64.size) :
    (performAll d s commands).1.findById id = none ∧
      ∀ (m : Nat) command reply, commands[m]? = some command →
        (performAll d s commands).2[m]? = some reply → Denies d id command reply := by
  induction commands generalizing s n with
  | nil => exact ⟨hnone, fun m command reply hcommand => by simp at hcommand⟩
  | cons command rest ih =>
      simp only [performAll, List.map_cons, Command.inserts_cons] at hroom
      obtain ⟨n', hn', hnumbered, -⟩ := numbered_perform (d := d) hs command (by omega)
      obtain ⟨hstore, hlater⟩ := ih hnumbered (by omega)
        (findById_perform hs hid hnone command (by omega)) (by omega)
      refine ⟨hstore, ?_⟩
      intro m asked reply hasked hreply
      cases m with
      | zero =>
          obtain rfl := Option.some.inj hasked
          obtain rfl := Option.some.inj hreply
          exact denies_perform hnone command
      | succ m => exact hlater m asked reply hasked hreply

/-- From a deletion that succeeds on, the rule is not there, and callers are told so. -/
theorem gone_of_deleted (hs : s.Numbered n) (commands : List Command)
    (hroom : n + Command.inserts commands ((performAll d s commands).2.map some) ≤ UInt64.size)
    {k : Nat} {removed : Definition} (hcommand : commands[k]? = some (.delete id))
    (hreply : (performAll d s commands).2[k]? = some (.deleted (.ok removed))) :
    (performAll d s commands).1.findById id = none ∧
      ∀ (m : Nat) command reply, k < m → commands[m]? = some command →
        (performAll d s commands).2[m]? = some reply → Denies d id command reply := by
  induction commands generalizing s n k with
  | nil => simp at hcommand
  | cons command rest ih =>
      simp only [performAll, List.map_cons, Command.inserts_cons] at hroom
      obtain ⟨n', hn', hnumbered, -⟩ := numbered_perform (d := d) hs command (by omega)
      cases k with
      | zero =>
          obtain rfl := Option.some.inj hcommand
          have hfound : ∃ rule, s.findById id = some rule := by
            cases hfind : s.findById id with
            | some rule => exact ⟨rule, rfl⟩
            | none =>
                have hdenied := (denies_perform (d := d) hfind (.delete id)).2.1 rfl
                cases hdenied.symm.trans (Option.some.inj hreply)
          obtain ⟨rule, hrule⟩ := hfound
          have hid : id.val.toNat < n' :=
            Nat.lt_of_lt_of_le (hs.lt_next _ (MemoryStore.mem_of_findById hrule)) (by omega)
          have hnone : (perform d s (.delete id)).1.findById id = none := by
            have hstore : (perform d s (.delete id)).1 = (s.delete id).1 := by
              rw [perform, delete, hrule]
              rfl
            rw [hstore, MemoryStore.findById_delete, if_pos rfl]
          obtain ⟨hstore, hlater⟩ := gone_performAll (d := d) hnumbered hid hnone rest (by omega)
          refine ⟨hstore, ?_⟩
          intro m asked reply hm hasked hanswered
          obtain ⟨m, rfl⟩ := Nat.exists_eq_succ_of_ne_zero (Nat.ne_of_gt hm)
          exact hlater m asked reply hasked hanswered
      | succ k =>
          obtain ⟨hstore, hlater⟩ := ih hnumbered (by omega) hcommand hreply
          refine ⟨hstore, ?_⟩
          intro m asked reply hm hasked hanswered
          obtain ⟨m, rfl⟩ := Nat.exists_eq_succ_of_ne_zero (Nat.ne_zero_of_lt hm)
          exact hlater m asked reply (Nat.lt_of_succ_lt_succ hm) hasked hanswered

end Uncached

namespace Shared.Coherent

variable {π τ : Type} {d : Deployment π τ} {w : Shared MemoryStore π} {id : RuleId}

/-- Between commands, nothing is left of a rule that the store does not have. -/
theorem gone (hw : w.Coherent d) (hnone : w.store.findById id = none) : w.Gone id where
  store := hnone
  programs := by
    cases hp : w.cache.program? id with
    | none => rfl
    | some p =>
        have hprogram := hw.programs id p (Table.mem_of_get? hp)
        rw [Uncached.program_of_absent hnone] at hprogram
        cases hprogram
  names name hname := by
    obtain ⟨rule, hentry⟩ := hw.names name id (Table.mem_of_get? hname)
    obtain ⟨hfind, -⟩ := (hw.keyed.entry?_name_iff hw.namesDistinct).mp hentry
    simp [hnone] at hfind

end Shared.Coherent

namespace Facade

variable {π τ : Type}

theorem gone_performAll (d : Deployment π τ) {commands : List Command}
    {w : Shared MemoryStore π} {replies : List (Option (Reply π))} {k : Nat} {id : RuleId}
    {removed : Definition} (hrun : performAll d (.start .empty) commands = (w, replies))
    (hroom : Command.inserts commands replies < UInt64.size)
    (hcommand : commands[k]? = some (.delete id))
    (hreply : replies[k]? = some (some (.deleted (.ok removed)))) :
    w.Gone id ∧ ∀ (m : Nat) command, k < m → commands[m]? = some command →
      ∃ reply, replies[m]? = some (some reply) ∧ Uncached.Denies d id command reply := by
  obtain ⟨w', hall, hstore, hw⟩ : ∃ w', performAll d (.start .empty) commands =
        (w', (Uncached.performAll d .empty commands).2.map some) ∧
      w'.store = (Uncached.performAll d .empty commands).1 ∧ w'.Coherent d :=
    performAll_eq (Shared.coherent_start d) commands
  obtain ⟨rfl, rfl⟩ := Prod.mk.inj (hall.symm.trans hrun)
  have hdeleted : (Uncached.performAll d .empty commands).2[k]? = some (.deleted (.ok removed)) := by
    simpa using hreply
  obtain ⟨hnone, hlater⟩ := Uncached.gone_of_deleted MemoryStore.numbered_empty commands
    (Nat.add_comm _ 1 ▸ hroom) hcommand hdeleted
  rw [← hstore] at hnone
  refine ⟨hw.gone hnone, ?_⟩
  intro m command hm hasked
  have hlength : m < (Uncached.performAll d .empty commands).2.length := by
    rw [Uncached.length_performAll]
    exact (List.getElem?_eq_some_iff.mp hasked).1
  refine ⟨_, ?_, hlater m command _ hm hasked (List.getElem?_eq_getElem hlength)⟩
  rw [List.getElem?_map, List.getElem?_eq_getElem hlength, Option.map_some]

end Facade

/-! ## For good -/

section

variable {π τ : Type}

/-- **Deletion is for good.**  Callers start on an empty store and do not use up the
identifiers.

In every run of operations that are under way at the same time, at every moment from the
return of a deletion with success on, neither the store nor the cache has anything of the
rule.  A save of it that is called for from then on can be brought to its end, and is
refused for what is wrong with the draft or because there is no such rule; a lookup of it
can be brought to its end, and does not find it, so that the execution that it is for
answers that there is no such rule.

In particular, callers that give commands one after the other are told so by every later
save, deletion, search and execution. -/
theorem deletion_is_terminal (d : Deployment π τ) (id : RuleId) :
    (∀ (before events : List Event) (n : Nat) (removed : Definition), before <+: events →
      (System.after d .empty events).inserts < UInt64.size →
      (System.after d .empty before).operations[n]? = some (.delete id (.done (.ok removed))) →
      (System.after d .empty events).shared.Gone id ∧
      ∀ earlier : List Event, before <+: earlier →
        (∀ (draft : Definition) (now : Timestamp), draft.id = some id →
          earlier ++ [.call (.save draft now)] <+: events →
          (∃ (turns : List Nat) (answer : Except RuleError RuleId),
            (System.after d .empty (events ++ turns.map .step)).operations[
              (System.after d .empty earlier).operations.length]? =
                some (.save draft now (.done answer))) ∧
          ∀ answer, (System.after d .empty events).operations[
              (System.after d .empty earlier).operations.length]? =
                some (.save draft now (.done answer)) →
            answer = .error (Uncached.refusal d draft id)) ∧
        (earlier ++ [.call (.lookup (.id id))] <+: events →
          (∃ (turns : List Nat) (answer : Except RuleError (Compiled π)),
            (System.after d .empty (events ++ turns.map .step)).operations[
              (System.after d .empty earlier).operations.length]? =
                some (.lookup (.id id) (.done answer))) ∧
          ∀ answer, (System.after d .empty events).operations[
              (System.after d .empty earlier).operations.length]? =
                some (.lookup (.id id) (.done answer)) →
            answer = .error (.notFound (.id id)) ∧
            ∀ params, Execution.respond d.config (Execution.runFound d (.id id) params answer).answer =
              .failure (RuleError.notFound (.id id)).message)) ∧
    ∀ (commands : List Command) (w : Shared MemoryStore π) (replies : List (Option (Reply π)))
      (k : Nat) (removed : Definition),
      Facade.performAll d (.start .empty) commands = (w, replies) →
      Command.inserts commands replies < UInt64.size → commands[k]? = some (.delete id) →
      replies[k]? = some (some (.deleted (.ok removed))) →
      w.Gone id ∧ ∀ (m : Nat) command, k < m → commands[m]? = some command →
        ∃ reply, replies[m]? = some (some reply) ∧ Uncached.Denies d id command reply := by
  refine ⟨?_, fun commands w replies k removed => Facade.gone_performAll d⟩
  intro before events n removed hbefore hinserts hdelete
  have hroom : 1 + (System.after d .empty events).inserts ≤ UInt64.size := by omega
  refine ⟨System.gone_after MemoryStore.keyed_empty MemoryStore.numbered_empty hbefore hroom
    hdelete, ?_⟩
  intro earlier hearlier
  constructor
  · intro draft now hid hcall
    obtain ⟨s, hs, hop⟩ := System.refused_after (d := d) hid hcall fun past hpast hlater =>
      System.findById_of_returned MemoryStore.keyed_empty MemoryStore.numbered_empty hbefore hroom
        hdelete (hearlier.trans hpast) hlater
    refine ⟨System.exists_saved d events hop, ?_⟩
    intro answer hdone
    obtain ⟨-, -, rfl⟩ := Operation.save.inj (Option.some.inj (hop.symm.trans hdone))
    exact hs
  · intro hcall
    obtain ⟨l, -, hop, -⟩ := System.readSince_after (d := d) MemoryStore.keyed_empty hcall
    refine ⟨System.exists_done d MemoryStore.keyed_empty events hop, ?_⟩
    intro answer hdone
    have hanswer := System.answer_of_returned MemoryStore.keyed_empty MemoryStore.numbered_empty
      hbefore hroom hdelete hearlier hcall hdone
    subst hanswer
    exact ⟨rfl, Execution.respond_notFound d (.id id)⟩

/-- A rule is deleted while a lookup compiles its text, and another rule takes over its
name. -/
def renewed : List Event :=
  System.deletedMeanwhile ++ [.call (.save (.new "door" "open") ⟨1, 0⟩)] ++
    List.replicate 6 (.step 3)

/-- An update asks for the deleted rule then, and the lookup comes to its end. -/
def neverAgain : List Event :=
  renewed ++ [.call (.save { Definition.new "door" "ajar" with id := some ⟨1⟩ } ⟨2, 0⟩)] ++
    List.replicate 8 (.step 4) ++ List.replicate 6 (.step 1)

/-- The commands of the same callers one after the other, with an execution at the end. -/
def neverAgainCommands : List Command :=
  [.save (.new "door" "open") ⟨0, 0⟩, .delete ⟨1⟩, .save (.new "door" "open") ⟨1, 0⟩,
    .save { Definition.new "door" "ajar" with id := some ⟨1⟩ } ⟨2, 0⟩, .execute (.id ⟨1⟩) []]

theorem deletion_is_terminal_neverAgain :
    (System.after .unread .empty neverAgain).shared.Gone ⟨1⟩ ∧
      (∃ answer, (System.after .unread .empty neverAgain).operations[4]? = some
          (.save { Definition.new "door" "ajar" with id := some ⟨1⟩ } ⟨2, 0⟩ (.done answer)) ∧
        answer = .error (.notFound (.id ⟨1⟩))) ∧
      ∃ w replies, Facade.performAll .unread (.start .empty) neverAgainCommands = (w, replies) ∧
        w.Gone ⟨1⟩ ∧ replies[4]? =
          some (some (.executed (.failure (RuleError.notFound (.id ⟨1⟩)).message))) := by
  obtain ⟨hrun, hcommands⟩ := deletion_is_terminal .unread ⟨1⟩
  have hrenewed : System.deletedMeanwhile <+: renewed := by
    simp only [renewed, List.append_assoc]
    exact List.prefix_append _ _
  have hcall : renewed ++ [.call (.save { Definition.new "door" "ajar" with id := some ⟨1⟩ } ⟨2, 0⟩)]
      <+: neverAgain := by
    simp only [neverAgain, List.append_assoc]
    exact List.prefix_append_right_inj _ |>.mpr (List.prefix_append _ _)
  have hinserts : (System.after .unread .empty neverAgain).inserts < UInt64.size := by
    decide +kernel
  obtain ⟨hgone, hlater⟩ := hrun System.deletedMeanwhile neverAgain 2 _
    (hrenewed.trans ((List.prefix_append _ _).trans hcall)) hinserts rfl
  have hrefused : (System.after .unread .empty neverAgain).operations[4]? = some
      (.save { Definition.new "door" "ajar" with id := some ⟨1⟩ } ⟨2, 0⟩
        (.done (.error (.notFound (.id ⟨1⟩))))) := rfl
  refine ⟨hgone, ⟨_, hrefused, ?_⟩, ?_⟩
  · exact ((hlater renewed hrenewed).1 _ _ rfl hcall).2 _ hrefused
  · let removed : Definition := ⟨some ⟨1⟩, "door", none, "open", some ⟨0, 0⟩, some ⟨0, 0⟩⟩
    let replies : List (Option (Reply String)) :=
      [some (.saved (.ok ⟨1⟩)), some (.deleted (.ok removed)), some (.saved (.ok ⟨2⟩)),
        some (.saved (.error (.notFound (.id ⟨1⟩)))),
        some (.executed (.failure (RuleError.notFound (.id ⟨1⟩)).message))]
    have hperform : Facade.performAll .unread (.start .empty) neverAgainCommands =
        ((Facade.performAll .unread (.start .empty) neverAgainCommands).1, replies) := rfl
    obtain ⟨hgone, htold⟩ :=
      hcommands neverAgainCommands _ replies 1 removed hperform (by decide) rfl rfl
    obtain ⟨reply, hreply, hdenies⟩ := htold 4 _ (by decide) rfl
    refine ⟨_, replies, hperform, hgone, ?_⟩
    rw [hreply, hdenies.2.2.2 [] rfl]

end

end Rulebook
