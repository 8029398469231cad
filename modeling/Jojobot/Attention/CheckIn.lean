import Jojobot.Attention.DueMoment
import Jojobot.Library.Laying

namespace Attention
open Library Std Memory

variable [Calendar]

def Schedule.after (schedule : Schedule) (outcome : Outcome) (on : Date) : Option Schedule :=
  if !outcome.consumesTheCycle then some schedule
  else
    let countsFrom := match schedule.advancesFrom with
      | .dueDate => schedule.cycleDueOn
      | .checkInDate => some on
    countsFrom.map fun countsFrom => { schedule with countsFrom, snoozedUntil := none }

-- Asked only of a write that changes the rule or the day it runs from.
def refusesARule (before after : Fields) : Option (RuleRefused Date) :=
  match heldAt after RRULE with
  | none => none
  | some rule =>
    let runsFrom (fields : Fields) := heldAt fields (ruleAnchorKey fields)
    if before[RRULE]? = after[RRULE]? ∧ runsFrom before = runsFrom after then none
    else
      match (after[ruleAnchorKey after]?).bind fun held => Scalars.parseDate (trim held) with
      | some anchor =>
        match Recurrence.make rule anchor with
        | .ok _ => none
        | .error refused => some refused
      | none =>
        match Recurrence.check rule with
        | .ok _ => none
        | .error refused => some refused

def opensTheLoop (why : NotSchedulable) (outcome : Outcome) : Bool :=
  why.key = COUNTS_FROM ∧ why.held = none ∧ outcome.consumesTheCycle

inductive SnoozeDayRefused (D : Type) where
  | missing (on : D)
  | unreadable (held : Text) (on : D)
  | notAfter (day on : D)
  | notASnooze
deriving DecidableEq

def snoozeDayOf (outcome : Outcome) (sent : Option Text) (on : Date) : Except (SnoozeDayRefused Date) (Option Date) :=
  let sent := (sent.map trim).filter (· ≠ [])
  if outcome.consumesTheCycle then
    match sent with
    | none => .ok none
    | some _ => .error .notASnooze
  else
    match sent with
    | none => .error (.missing on)
    | some held =>
      match Scalars.parseDate held with
      | none => .error (.unreadable held on)
      | some day => if day ≤ on then .error (.notAfter day on) else .ok (some day)

-- What a check-in writes over a schedule, once it is known where the schedule moves to.
def writtenOver (fields : Fields) (outcome : Outcome) (on : Date) (schedule moved : Schedule) : Fields :=
  let written := ((∅ : Fields).insert OUTCOME outcome.asToken).insert LAST_CHECK_IN (Calendar.written on)
  let spendsASnooze := schedule.snoozedUntil.isSome && moved.snoozedUntil.isNone
  let written :=
    if moved.countsFrom ≠ schedule.countsFrom ∨ spendsASnooze then written.insert COUNTS_FROM (Calendar.written moved.countsFrom)
    else written
  match schedule.cadence with
  | .rule rule =>
    if heldAt fields ANCHORED_ON = none then written.insert ANCHORED_ON (Calendar.written rule.anchor) else written
  | .days _ => written

-- What a check-in writes, given what the rhythm holds now.
def checkIn (fields : Fields) (outcome : Outcome) (on : Date) : Option (Except NotSchedulable Fields) :=
  match scheduleOf fields with
  | .ok schedule => (schedule.after outcome on).map fun moved => .ok (writtenOver fields outcome on schedule moved)
  | .error why =>
    let written := ((∅ : Fields).insert OUTCOME outcome.asToken).insert LAST_CHECK_IN (Calendar.written on)
    if opensTheLoop why outcome then
      let written := written.insert COUNTS_FROM (Calendar.written on)
      if heldAt fields RRULE ≠ none ∧ heldAt fields ANCHORED_ON = none then
        some (.ok (written.insert ANCHORED_ON (Calendar.written on)))
      else some (.ok written)
    else some (.error { why with aConsumingOutcomeWouldOpenIt := why.key = COUNTS_FROM && why.held = none })

-- One check-in: its outcome, its day, and the snooze day sent beside it.
structure Turn where
  outcome : Outcome
  on : Date
  sent : Option Text

-- What the call sends is laid on before the schedule is read.
def Turn.sends (turn : Turn) (held : Fields) : Fields :=
  match turn.sent with
  | none => held
  | some text => held.insert SNOOZED_UNTIL text

-- A check-in as it is captured: the snooze day, the arithmetic, and the write's own guard.
-- Nothing is captured of one whose arithmetic panics.
def Turn.land (turn : Turn) (held : Fields) : Option Fields :=
  match snoozeDayOf turn.outcome turn.sent turn.on with
  | .error _ => none
  | .ok _ =>
    match checkIn (turn.sends held) turn.outcome turn.on with
    | none | some (.error _) => none
    | some (.ok written) =>
      let left := laid (turn.sends held) written.toList
      if (refusesARule held left).isNone then some left else none

def Took (held : Fields) (turn : Turn) (left : Fields) : Prop := turn.land held = some left

end Attention
