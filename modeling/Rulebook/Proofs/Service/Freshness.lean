/-
  Proofs/Service/Freshness.lean --- no lookup answers with what is outdated.

  A lookup answers with what it read from the store itself, or with what the cache held
  when it looked there.  The first was read after the lookup began.  The second was
  read when every mutation of the rule that was settled by the time of the look had
  written (`Consistent.programs`), and so in particular every one that had returned
  before the lookup began.
-/
import Rulebook.Proofs.Service.Coherence
import Rulebook.Proofs.Service.Progress
import Rulebook.Proofs.Service.Retirement

set_option autoImplicit false

namespace Rulebook

namespace System

variable {π τ : Type} {d : Deployment π τ} {store : MemoryStore} {mark events : List Event}
  {event : Event} {id : RuleId} {P Q : Option Definition → Prop}

/-- At some moment of the run the store had under an identifier what is described, and
by then every mutation of the rule had written that was settled at a mark. -/
def ReadSince (d : Deployment π τ) (store : MemoryStore) (mark events : List Event) (id : RuleId)
    (P : Option Definition → Prop) : Prop :=
  ∃ past, past <+: events ∧ P ((after d store past).shared.store.findById id) ∧
    ∀ n, (after d store mark).Settled n id → (after d store past).Wrote n id

theorem Recalls.readSince (hkeyed : store.Keyed) (hmark : mark <+: events)
    (h : Recalls d store events id P) : ReadSince d store mark events id P := by
  obtain ⟨past, hpast, hP, hwrote⟩ := h
  exact ⟨past, hpast, hP, fun n hn => hwrote n (hn.later hkeyed hmark)⟩

theorem ReadSince.now (hkeyed : store.Keyed) (hmark : mark <+: events)
    (h : P ((after d store events).shared.store.findById id)) :
    ReadSince d store mark events id P :=
  (Recalls.now h).readSince hkeyed hmark

theorem ReadSince.imp (h : ReadSince d store mark events id P)
    (himp : ∀ found, P found → Q found) : ReadSince d store mark events id Q := by
  obtain ⟨past, hpast, hP, hwrote⟩ := h
  exact ⟨past, hpast, himp _ hP, hwrote⟩

theorem ReadSince.next (h : ReadSince d store mark events id P) :
    ReadSince d store mark (events ++ [event]) id P := by
  obtain ⟨past, hpast, hP, hwrote⟩ := h
  exact ⟨past, hpast.trans (List.prefix_append events [event]), hP, hwrote⟩

end System

/-! ## Answers -/

namespace Lookup

variable {π τ : Type} {d : Deployment π τ} {store : MemoryStore} {mark events : List Event}
  {event : Event} {id : RuleId} {l l' : Lookup π}

/-- Whether what a lookup is going to answer with is what it answers over what the store
has. -/
def Follows (d : Deployment π τ) (id : RuleId) : Lookup π → Option Definition → Prop
  | .compile _ _ rule, found => compilable? found = some rule
  | .keep _ _ p, found => .ok p.program = d.answer id found
  | .release _ answer, found | .leave _ answer, found | .done answer, found =>
    answer.map (·.program) = d.answer id found
  | _, _ => True

/-- A cached program is an answer that was read in time. -/
theorem readSince_hit (hkeyed : store.Keyed) (hmark : mark <+: events) {p : Compiled π}
    (hp : (System.after d store events).shared.cache.program? id = some p) :
    System.ReadSince d store mark events id ((done (.ok p)).Follows d id) := by
  have hrecalls := (System.consistent_after hkeyed events).programs id p (Table.mem_of_get? hp)
  exact (hrecalls.readSince hkeyed hmark).imp fun found hfound => hfound.symm

/-- A lookup by identifier makes its steps over what was read since it began. -/
theorem readSince_step {w : Shared MemoryStore π} (hkeyed : store.Keyed) (hmark : mark <+: events)
    (hof : l.IsOf id) (h : System.ReadSince d store mark events id (l.Follows d id))
    (hstep : Step d (System.after d store events).shared l w l') :
    System.ReadSince d store mark events id (l'.Follows d id) := by
  cases hstep with
  | @hit other p hp | @hitMeanwhile other p hp =>
      obtain rfl : other = id := hof
      exact readSince_hit hkeyed hmark hp
  | @absent other generation hnone =>
      obtain rfl : other = id := hof
      refine System.ReadSince.now hkeyed hmark ?_
      rw [Follows, Deployment.answer_of_none hnone]
      rfl
  | @found other generation rule hrule =>
      obtain rfl : other = id := hof
      exact System.ReadSince.now hkeyed hmark hrule
  | @refused other generation rule diagnostics hcompile =>
      obtain rfl : other = id := hof
      refine h.imp ?_
      intro found hfound
      rw [Follows, Deployment.answer_of_some hfound, hcompile]
      rfl
  | compiled hcompile =>
      refine h.imp ?_
      intro found hfound
      rw [Follows, Deployment.answer_of_some hfound, hcompile]
      rfl
  | kept | released | left => exact h
  | indexed | unindexed | noted | unnamed | named | recorded => exact hof.elim
  | _ => exact h.imp fun _ _ => trivial

end Lookup

namespace System

variable {π τ : Type} {d : Deployment π τ} {store : MemoryStore}

/-- The lookup that a call begins follows, at every later moment, what was read since. -/
theorem readSince_after (hkeyed : store.Keyed) {before events : List Event} {id : RuleId}
    (hcall : before ++ [.call (.lookup (.id id))] <+: events) :
    ∃ l : Lookup π, l.IsOf id ∧
      (after d store events).operations[(after d store before).operations.length]? =
        some (.lookup (.id id) l) ∧
      ReadSince d store before events id (l.Follows d id) := by
  induction events using List.reverseRecOn with
  | nil => simp at hcall
  | append_singleton recent event ih =>
      rcases List.prefix_concat_iff.mp hcall with heq | hrecent
      · obtain ⟨rfl, hevent⟩ := List.append_inj' heq rfl
        obtain rfl := List.singleton_inj.mp hevent
        refine ⟨.byId id, rfl, ?_, .now hkeyed (List.prefix_append _ _) trivial⟩
        rw [after_append_singleton]
        exact List.getElem?_concat_length
      · obtain ⟨l, hof, hop, hread⟩ := ih hrecent
        have hmark : before <+: recent := (List.prefix_append _ _).trans hrecent
        rw [after_append_singleton]
        obtain ⟨op', hop', rfl | hstep⟩ := (move_next d (after d store recent) event).getElem? hop
        · exact ⟨l, hof, hop', hread.next⟩
        · obtain ⟨⟨w, l'⟩, hl, heq⟩ := Option.map_eq_some_iff.mp hstep
          obtain ⟨-, rfl⟩ := Prod.mk.inj heq
          have hstep' := Lookup.of_step hl
          exact ⟨l', hstep'.isOf hof, hop',
            (Lookup.readSince_step hkeyed hmark hof hread hstep').next⟩

/-- What an operation was called for with is the same at every later moment. -/
theorem request_later {past events : List Event} (hpast : past <+: events) {n : Nat}
    {op : Operation π} (hop : (after d store past).operations[n]? = some op) :
    (events.filterMap Event.request?)[n]? = some op.request := by
  have hrequests : (past.filterMap Event.request?)[n]? = some op.request := by
    rw [← requests_after d store past, List.getElem?_map, hop, Option.map_some]
  obtain ⟨rest, rfl⟩ := hpast
  rw [List.filterMap_append]
  obtain ⟨hlt, -⟩ := List.getElem?_eq_some_iff.mp hrequests
  rw [List.getElem?_append_left hlt, hrequests]

theorem inserts_le {past events : List Event} (hpast : past <+: events) :
    (after d store past).inserts ≤ (after d store events).inserts := by
  have hcount : ∀ events, (after d store events).inserts =
      (events.filterMap Event.request?).countP Request.isInsert := by
    intro events
    rw [← requests_after d store events, List.countP_map]
    rfl
  rw [hcount, hcount]
  exact (hpast.filterMap Event.request?).sublist.countP_le

/-- A deletion that had written at one moment had deleted its rule. -/
theorem findById_of_deleted (hkeyed : store.Keyed) {first : Nat} (hnumbered : store.Numbered first)
    {events past before : List Event} (hpast : past <+: events) (hbefore : before <+: events)
    (hroom : first + (after d store events).inserts ≤ UInt64.size) {n : Nat} {id : RuleId}
    {x : Deleting} (hdelete : (after d store before).operations[n]? = some (.delete id x))
    (hwrote : (after d store past).Wrote n id) :
    (after d store past).shared.store.findById id = none := by
  obtain ⟨op, hop, hwritten⟩ := hwrote
  have hrequest : op.request = .delete id :=
    Option.some.inj ((request_later hpast hop).symm.trans (request_later hbefore hdelete))
  have hroom' : first + (after d store past).inserts ≤ UInt64.size :=
    Nat.le_trans (Nat.add_le_add_left (inserts_le hpast) first) hroom
  cases op with
  | delete other x' =>
      obtain rfl : other = id := Request.delete.inj hrequest
      exact (retired_after hkeyed hnumbered past hroom').gone other x'
        (List.mem_of_getElem? hop) hwritten
  | lookup _ _ => simp [Operation.request] at hrequest
  | save _ _ _ => simp [Operation.request] at hrequest

/-- **No stale answer.**  A lookup by identifier is called for, in any run.  At every later
moment it can be brought to its end, and with the answer with which it is done it answers
what the store had under the identifier at a moment by which every save and every deletion
of the rule had written that had returned before the call; so if there was such a
deletion, it answers that there is no such rule (as long as the numbers for new rules are
not used up). -/
theorem lookup_not_stale (d : Deployment π τ) (hkeyed : store.Keyed) {before events : List Event}
    {id : RuleId} (hcall : before ++ [.call (.lookup (.id id))] <+: events) :
    (∃ (turns : List Nat) (answer : Except RuleError (Compiled π)),
      (after d store (events ++ turns.map .step)).operations[
        (after d store before).operations.length]? = some (.lookup (.id id) (.done answer))) ∧
    ∀ answer : Except RuleError (Compiled π),
      (after d store events).operations[(after d store before).operations.length]? =
        some (.lookup (.id id) (.done answer)) →
      (∃ past, past <+: events ∧
        answer.map (·.program) = d.answer id ((after d store past).shared.store.findById id) ∧
        ∀ n op, (after d store before).operations[n]? = some op → op.HasMutated id →
          (after d store past).Wrote n id) ∧
      (∀ first, store.Numbered first →
        first + (after d store events).inserts ≤ UInt64.size →
        ∀ (n : Nat) (removed : Definition), (after d store before).operations[n]? =
          some (.delete id (.done (.ok removed))) →
        answer = .error (.notFound (.id id))) := by
  obtain ⟨l, -, hop, past, hpast, hfollows, hwrote⟩ := readSince_after (d := d) hkeyed hcall
  refine ⟨exists_done d hkeyed events hop, ?_⟩
  intro answer hdone
  obtain ⟨-, rfl⟩ := Operation.lookup.inj (Option.some.inj (hop.symm.trans hdone))
  have hanswer : answer.map (·.program) =
      d.answer id ((after d store past).shared.store.findById id) := hfollows
  constructor
  · refine ⟨past, hpast, hanswer, ?_⟩
    intro n op hn hmutated
    exact hwrote n ⟨op, hn, Operation.settled?_of_hasMutated hmutated⟩
  · intro first hnumbered hroom n removed hdelete
    have hbefore : before <+: events := (List.prefix_append _ _).trans hcall
    have hdeleted : (after d store past).Wrote n id := hwrote n ⟨_, hdelete, rfl⟩
    rw [findById_of_deleted hkeyed hnumbered hpast hbefore hroom hdelete hdeleted,
      Deployment.answer_of_none rfl] at hanswer
    cases answer with
    | error e => exact congrArg Except.error (Except.error.inj hanswer)
    | ok p => simp [Except.map] at hanswer

/-- A rule is saved, and deleted while a lookup compiles its text. -/
def deletedMeanwhile : List Event :=
  [.call (.save (.new "door" "open") ⟨0, 0⟩)] ++ List.replicate 6 (.step 0) ++
    [.call (.lookup (.id ⟨1⟩))] ++ List.replicate 5 (.step 1) ++
    [.call (.delete ⟨1⟩)] ++ List.replicate 5 (.step 2)

/-- Another lookup begins then.  It has to wait for the first, which starts over. -/
def lookedUpAgain : List Event :=
  deletedMeanwhile ++ [.call (.lookup (.id ⟨1⟩))] ++ List.replicate 3 (.step 3) ++
    List.replicate 6 (.step 1) ++ List.replicate 5 (.step 3)

theorem lookup_not_stale_lookedUpAgain :
    ∃ answer, (after .unread .empty lookedUpAgain).operations[3]? =
      some (.lookup (.id ⟨1⟩) (.done answer)) ∧ answer = .error (.notFound (.id ⟨1⟩)) := by
  have hdone : (after .unread .empty lookedUpAgain).operations[3]? =
      some (.lookup (.id ⟨1⟩) (.done (.error (.notFound (.id ⟨1⟩))))) := rfl
  have hcall : deletedMeanwhile ++ [.call (.lookup (.id ⟨1⟩))] <+: lookedUpAgain := by
    simp [lookedUpAgain]
  have hroom : 1 + (after .unread .empty lookedUpAgain).inserts ≤ UInt64.size := by
    decide +kernel
  have hdelete : ∃ removed, (after .unread .empty deletedMeanwhile).operations[2]? =
      some (.delete ⟨1⟩ (.done (.ok removed))) := ⟨_, rfl⟩
  obtain ⟨removed, hremoved⟩ := hdelete
  obtain ⟨-, hdeleted⟩ := (lookup_not_stale .unread MemoryStore.keyed_empty hcall).2 _ hdone
  exact ⟨_, hdone, hdeleted 1 MemoryStore.numbered_empty hroom 2 removed hremoved⟩

end System

end Rulebook
