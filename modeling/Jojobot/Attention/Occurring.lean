import Jojobot.Attention
import Jojobot.Library.Occurrences
import Mathlib.Tactic.Ring
import Mathlib.Tactic.Linarith

namespace Attention
open Library Std Memory

variable [Calendar]

-- What the calendar and the rule crate are relied on for: a blank names no day, days are
-- numbered one after another, and a rule asked from a day answers the first day it occurs on.
class LawfulCalendar [Calendar] : Prop where
  blank : Scalars.parseDate [] = none
  numbered : ∃ number : Date → Int, (∀ day other, number day < number other ↔ day < other) ∧
    ∀ day, ∀ count ≤ longestSpan, ∀ later, Calendar.addDays day (count : Nat) = some later ↔ number later = number day + count
  latest : ∀ day : Date, day ≤ Calendar.latest
  answers : ∀ rule anchor set, Calendar.expand rule anchor = .ok set → ∀ asked moment day, set asked = some moment →
    Calendar.civil moment = some day → asked ≤ day ∧ ∀ between, asked ≤ between → between ≤ day → set between = some moment

-- The day a cycle counted from a day falls due, while the calendar holds one.
def Cadence.next (cadence : Cadence) (counted : Date) : Option Date :=
  match cadence with
  | .days count => Calendar.addDays counted count
  | .rule held => held.firstAfter counted

-- A number of days occurs each so many days from the first basis, and a rule on the days
-- its own calendar has.
def Cadence.occursOn (cadence : Cadence) (first day : Date) : Prop :=
  match cadence with
  | .days count => ∃ times : Nat, (fun reached : Option Date => reached.bind (Calendar.addDays · count))^[times] (some first) = some day
  | .rule held => ∃ set moment, Calendar.expand held.rule held.anchor = .ok set ∧ set day = some moment ∧
      Calendar.civil moment = some day

def Cadence.Spans (cadence : Cadence) : Prop :=
  match cadence with
  | .days count => 0 < count ∧ count ≤ longestSpan
  | .rule _ => True

-- The basis after so many cycles, each counted from the day the one before fell due.
def Cadence.afterCycles (cadence : Cadence) (first : Date) (count : Nat) : Option Date :=
  (fun reached : Option Date => reached.bind cadence.dueAfter)^[count] (some first)

theorem dueAfter_movedOn {cadence : Cadence} (spans : cadence.Spans) (day : Date) :
    cadence.dueAfter day = some (movedOn cadence.next Calendar.latest day) := by
  cases cadence with
  | days count => exact if_pos spans.2
  | rule held => rfl

theorem afterCycles_movedOn {cadence : Cadence} (spans : cadence.Spans) (first : Date) (count : Nat) :
    cadence.afterCycles first count = some ((movedOn cadence.next Calendar.latest)^[count] first) := by
  induction count with
  | zero => rfl
  | succ count ih =>
    unfold Cadence.afterCycles at ih ⊢
    rw [Function.iterate_succ_apply',Function.iterate_succ_apply',ih]
    exact dueAfter_movedOn spans _

section Lawful

variable [LawfulCalendar] {first day later : Date}

theorem next_latest {cadence : Cadence} (spans : cadence.Spans) : cadence.next Calendar.latest = none := by
  obtain ⟨number,ordered,adds⟩ := LawfulCalendar.numbered
  have ends : ∀ count : Nat, 0 < count → count ≤ longestSpan → Calendar.addDays Calendar.latest count = none := by
    intro count some' fits
    cases found : Calendar.addDays Calendar.latest (count : Int) with
    | none => rfl
    | some later =>
      have past := (adds _ _ fits _).mp found
      have beyond : Calendar.latest < later := (ordered _ _).mp (by omega)
      exact absurd beyond (LawfulCalendar.latest later).not_gt
  cases cadence with
  | days count => exact ends count spans.1 spans.2
  | rule held =>
    have last : Calendar.addDays Calendar.latest 1 = none := ends 1 Nat.one_pos (by decide)
    change held.firstAfter Calendar.latest = none
    unfold Recurrence.firstAfter
    rw [last]
    cases (Calendar.expand held.rule held.anchor).toOption with
    | none => rfl
    | some set => rfl

theorem days_follow {count : Nat} (spans : (Cadence.days count).Spans)
    (reached : day = first ∨ (Cadence.days count).occursOn first day) (found : (Cadence.days count).next day = some later) :
    day < later ∧ (Cadence.days count).occursOn first later ∧
      ∀ between, day < between → (Cadence.days count).occursOn first between → later ≤ between := by
  obtain ⟨number,ordered,adds⟩ := LawfulCalendar.numbered
  have counted : ∀ times one, (fun reached : Option Date => reached.bind (Calendar.addDays · count))^[times] (some first) = some one →
      number one = number first + times * count := by
    intro times
    induction times with
    | zero =>
      intro one same
      cases same
      omega
    | succ times ih =>
      intro one moved
      rw [Function.iterate_succ_apply'] at moved
      obtain ⟨before,earlier,added⟩ := Option.bind_eq_some_iff.mp moved
      rw [(adds _ _ spans.2 _).mp added,ih before earlier]
      push_cast
      ring
  have started : ∃ times : Nat, (fun reached : Option Date => reached.bind (Calendar.addDays · count))^[times] (some first) = some day := by
    rcases reached with same | occurs
    · exact ⟨0,congrArg some same.symm⟩
    · exact occurs
  obtain ⟨times,reached⟩ := started
  have here := counted times day reached
  have there := (adds _ _ spans.2 _).mp found
  have positive : 0 < count := spans.1
  refine ⟨(ordered _ _).mp (by omega),⟨times+1,?_⟩,?_⟩
  · rw [Function.iterate_succ_apply',reached]
    exact found
  · intro between after occurs
    obtain ⟨other,reaches⟩ := occurs
    have place := counted other between reaches
    have past := (ordered _ _).mpr after
    apply le_of_not_gt
    intro short
    have less := (ordered _ _).mpr short
    -- A multiple of the count strictly between one multiple and the next.
    have low : (times : Int) * count < other * count := by omega
    have high : (other : Int) * count < (times + 1) * count := by
      have spread : ((times : Int) + 1) * count = times * count + count := by ring
      omega
    have countPositive : (0 : Int) < count := by omega
    have above := lt_of_mul_lt_mul_right low countPositive.le
    have below := lt_of_mul_lt_mul_right high countPositive.le
    omega

theorem rule_follows {held : Recurrence} (found : held.firstAfter day = some later) :
    day < later ∧ (Cadence.rule held).occursOn first later ∧
      ∀ between, day < between → (Cadence.rule held).occursOn first between → later ≤ between := by
  obtain ⟨number,ordered,adds⟩ := LawfulCalendar.numbered
  unfold Recurrence.firstAfter at found
  obtain ⟨set,expands,found⟩ := Option.bind_eq_some_iff.mp found
  obtain ⟨next,added,found⟩ := Option.bind_eq_some_iff.mp found
  obtain ⟨moment,answered,civil⟩ := Option.bind_eq_some_iff.mp found
  have expands : Calendar.expand held.rule held.anchor = .ok set := by
    cases shape : Calendar.expand held.rule held.anchor with
    | error why =>
      rw [shape] at expands
      cases expands
    | ok other =>
      rw [shape] at expands
      exact congrArg _ (Option.some.inj expands)
  have tomorrow := (adds day 1 (by decide) next).mp added
  obtain ⟨asked,steady⟩ := LawfulCalendar.answers _ _ _ expands _ _ _ answered civil
  refine ⟨((ordered _ _).mp (by omega)).trans_le asked,⟨set,moment,expands,steady later asked le_rfl,civil⟩,?_⟩
  intro between after occurs
  obtain ⟨set',moment',expands',answered',civil'⟩ := occurs
  cases Except.ok.inj (expands.symm.trans expands')
  apply le_of_not_gt
  intro short
  have past := (ordered _ _).mpr after
  have from' : next ≤ between := by
    apply le_of_not_gt
    intro less
    have := (ordered _ _).mpr less
    omega
  rw [steady between from' short.le] at answered'
  cases answered'
  rw [civil] at civil'
  exact absurd (Option.some.inj civil') short.ne'

theorem basis_occurs {cadence : Cadence} (spans : cadence.Spans) {count : Nat} (counted : cadence.afterCycles first count = some day) :
    NthAfter (cadence.occursOn first) first count day ∨
      (∃ reached earlier, reached < count ∧ NthAfter (cadence.occursOn first) first reached earlier ∧ cadence.next earlier = none) ∧
        day = Calendar.latest := by
  rw [afterCycles_movedOn spans] at counted
  rw [←Option.some.inj counted]
  apply nth_after_or_run_out _ _ (next_latest spans)
  intro day later reached found
  cases cadence with
  | days count => exact days_follow spans reached found
  | rule held => exact rule_follows found

end Lawful

end Attention
