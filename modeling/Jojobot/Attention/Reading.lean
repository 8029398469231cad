import Jojobot.Attention
import Jojobot.Library.Fallible

namespace Attention
open Library Std Memory

variable [Calendar] {fields : Fields} {key : Text} {schedule : Schedule} {why : NotSchedulable}


omit [Calendar] in
theorem read_ok {α : Type} {accepts : List Text} {parse : Text → Option α} {value : α} :
    read fields key accepts parse = .ok value ↔ (heldAt fields key).bind parse = some value := by
  unfold read
  cases heldAt fields key with
  | none => simp
  | some text =>
    dsimp only [Option.bind_some]
    cases parse text with
    | none => simp
    | some found => simp

omit [Calendar] in
theorem read_error {α : Type} {accepts : List Text} {parse : Text → Option α} (refused : read fields key accepts parse = .error why) :
    why.key = key ∧ why.held = heldAt fields key := by
  unfold read at refused
  cases found : heldAt fields key with
  | none =>
    rw [found] at refused
    cases refused
    exact ⟨rfl,rfl⟩
  | some text =>
    rw [found] at refused
    dsimp only at refused
    split at refused
    · cases refused
      exact ⟨rfl,rfl⟩
    · cases refused

-- How a cadence reads: a number of days, or a rule from the day it is anchored on.
inductive CadenceReads (fields : Fields) : Cadence → Prop where
  | days {count : Nat} : ruleOf fields = .ok none → (heldAt fields CADENCE_DAYS).bind daysOf = some count →
      CadenceReads fields (.days count)
  | rule {rule : Text} {held : Recurrence} : ruleOf fields = .ok (some rule) → anchored fields rule = .ok held →
      CadenceReads fields (.rule held)

def PolicyReads (fields : Fields) (schedule : Schedule) : Prop :=
  ∃ named, namedPolicy fields = .ok named ∧ schedule.advancesFrom = named.getD schedule.cadence.defaultAdvancesFrom

structure Reads (fields : Fields) (schedule : Schedule) : Prop where
  cadence : CadenceReads fields schedule.cadence
  policy : PolicyReads fields schedule
  basis : (heldAt fields COUNTS_FROM).bind Scalars.parseDate = some schedule.countsFrom
  snooze : snoozedUntilOf fields = .ok schedule.snoozedUntil

-- The schedule's own steps after the cadence's shape is known.
def scheduleFrom (fields : Fields) (cadence : Except NotSchedulable Cadence) : Except NotSchedulable Schedule := do
  let named ← namedPolicy fields
  let countsFrom ← read fields COUNTS_FROM [] Scalars.parseDate
  let cadence ← cadence
  let snoozedUntil ← snoozedUntilOf fields
  .ok { cadence, advancesFrom := named.getD cadence.defaultAdvancesFrom, countsFrom, snoozedUntil }

theorem scheduleOf_shape : scheduleOf fields = (do
    match ← ruleOf fields with
    | none => let count ← read fields CADENCE_DAYS [] daysOf; scheduleFrom fields (.ok (.days count))
    | some rule => scheduleFrom fields ((anchored fields rule).map .rule)) := by
  unfold scheduleOf
  cases ruleOf fields with
  | error why => rfl
  | ok rule =>
    cases rule with
    | some rule => rfl
    | none =>
      cases read fields CADENCE_DAYS [] daysOf with
      | error why => rfl
      | ok count => rfl

theorem scheduleFrom_ok {cadence : Except NotSchedulable Cadence} : scheduleFrom fields cadence = .ok schedule ↔
    cadence = .ok schedule.cadence ∧ PolicyReads fields schedule ∧
      (heldAt fields COUNTS_FROM).bind Scalars.parseDate = some schedule.countsFrom ∧
      snoozedUntilOf fields = .ok schedule.snoozedUntil := by
  unfold scheduleFrom PolicyReads
  simp only [bind_ok,read_ok]
  constructor
  · intro found
    obtain ⟨named,policy,basis,counted,cadence',shaped,until',snoozed,same⟩ := found
    cases Except.ok.inj same
    exact ⟨shaped,⟨named,policy,rfl⟩,counted,snoozed⟩
  · intro parts
    obtain ⟨shaped,⟨named,policy,advances⟩,counted,snoozed⟩ := parts
    refine ⟨named,policy,_,counted,_,shaped,_,snoozed,?_⟩
    rw [←advances]

theorem scheduleOf_reads : scheduleOf fields = .ok schedule ↔ Reads fields schedule := by
  rw [scheduleOf_shape,bind_ok]
  constructor
  · intro found
    obtain ⟨rule,rules,shaped⟩ := found
    cases rule with
    | none =>
      obtain ⟨count,counted,shaped⟩ := bind_ok.mp shaped
      obtain ⟨cadence,policy,basis,snooze⟩ := scheduleFrom_ok.mp shaped
      refine ⟨?_,policy,basis,snooze⟩
      rw [←Except.ok.inj cadence]
      exact .days rules (read_ok.mp counted)
    | some rule =>
      obtain ⟨cadence,policy,basis,snooze⟩ := scheduleFrom_ok.mp shaped
      refine ⟨?_,policy,basis,snooze⟩
      cases ran : anchored fields rule with
      | error why =>
        rw [ran] at cadence
        cases cadence
      | ok held =>
        rw [ran] at cadence
        rw [←Except.ok.inj cadence]
        exact .rule rules ran
  · intro reads
    obtain ⟨cadence,policy,basis,snooze⟩ := reads
    generalize shape : schedule.cadence = shaped at cadence
    cases cadence with
    | days rules counted =>
      refine ⟨none,rules,bind_ok.mpr ⟨_,read_ok.mpr counted,?_⟩⟩
      exact scheduleFrom_ok.mpr ⟨by rw [shape],policy,basis,snooze⟩
    | rule rules ran =>
      refine ⟨some _,rules,?_⟩
      exact scheduleFrom_ok.mpr ⟨by rw [shape,ran]; rfl,policy,basis,snooze⟩

theorem ruleOf_error (refused : ruleOf fields = .error why) : why.key = RRULE := by
  unfold ruleOf at refused
  split at refused
  · cases refused
    rfl
  · split at refused
    · cases refused
    · cases refused
      rfl
  · cases refused

theorem anchored_error {rule : Text} (refused : anchored fields rule = .error why) :
    why.key = RRULE ∨ (why.key = ruleAnchorKey fields ∧ why.held = heldAt fields (ruleAnchorKey fields)) := by
  unfold anchored at refused
  rcases bind_error.mp refused with unread | ⟨anchor,_,later⟩
  · exact Or.inr (read_error unread)
  · split at later
    · cases later
    · cases later
      exact Or.inl rfl

omit [Calendar] in
theorem namedPolicy_error (refused : namedPolicy fields = .error why) : why.key = ADVANCES_FROM := by
  unfold namedPolicy at refused
  split at refused
  · cases refused
  · cases found : read fields ADVANCES_FROM (AdvancesFrom.ALL.map (·.asToken)) AdvancesFrom.ofToken with
    | ok named =>
      rw [found] at refused
      cases refused
    | error refusal =>
      rw [found] at refused
      cases Except.error.inj refused
      exact (read_error found).1

theorem snoozedUntilOf_error (refused : snoozedUntilOf fields = .error why) : why.key = SNOOZED_UNTIL := by
  unfold snoozedUntilOf at refused
  split at refused
  · cases refused
  · rename_i refusal unread
    split at refused
    · cases refused
    · cases refused
      exact (read_error unread).1

theorem scheduleFrom_unopened {cadence : Except NotSchedulable Cadence} (refused : scheduleFrom fields cadence = .error why)
    (key : why.key = COUNTS_FROM) (blank : why.held = none)
    (shaped : cadence = .error why → heldAt fields COUNTS_FROM = none) :
    heldAt fields COUNTS_FROM = none ∧ ∃ named, namedPolicy fields = .ok named := by
  unfold scheduleFrom at refused
  rcases bind_error.mp refused with policy | ⟨named,policy,later⟩
  · rw [namedPolicy_error policy] at key
    cases key
  · refine ⟨?_,named,policy⟩
    rcases bind_error.mp later with basis | ⟨_,_,later⟩
    · exact (read_error basis).2.symm.trans blank
    · rcases bind_error.mp later with cadence | ⟨_,_,later⟩
      · exact shaped cadence
      · rcases bind_error.mp later with snooze | ⟨_,_,later⟩
        · rw [snoozedUntilOf_error snooze] at key
          cases key
        · cases later

-- What a rhythm holds whose basis alone is missing.
theorem scheduleOf_unopened (refused : scheduleOf fields = .error why) (key : why.key = COUNTS_FROM) (blank : why.held = none) :
    heldAt fields COUNTS_FROM = none ∧ (∃ named, namedPolicy fields = .ok named) ∧
      ((ruleOf fields = .ok none ∧ ∃ count, (heldAt fields CADENCE_DAYS).bind daysOf = some count) ∨
        ∃ rule, ruleOf fields = .ok (some rule)) := by
  rw [scheduleOf_shape] at refused
  rcases bind_error.mp refused with rules | ⟨rule,rules,later⟩
  · rw [ruleOf_error rules] at key
    cases key
  · cases rule with
    | none =>
      rcases bind_error.mp later with days | ⟨count,counted,later⟩
      · rw [(read_error days).1] at key
        cases key
      · obtain ⟨basis,policy⟩ := scheduleFrom_unopened later key blank (by intro never; cases never)
        exact ⟨basis,policy,Or.inl ⟨rules,count,read_ok.mp counted⟩⟩
    | some rule =>
      refine (scheduleFrom_unopened later key blank ?_).imp_right fun policy => ⟨policy,Or.inr ⟨rule,rules⟩⟩
      intro refused
      cases ran : anchored fields rule with
      | ok held =>
        rw [ran] at refused
        cases refused
      | error refusal =>
        rw [ran] at refused
        cases Except.error.inj refused
        rcases anchored_error ran with other | ⟨anchor,held⟩
        · rw [other] at key
          cases key
        · rw [←anchor,key,blank] at held
          exact held.symm

end Attention
