import Jojobot.Memory.Kinds

namespace Attention
open Library Std Memory

-- The calendar the dates are of, how a day is written, and the crate that expands a
-- recurrence rule: a rule and the day it starts on, read as the first moment the rule
-- occurs at on or after a day. A rule alone is asked about from 3 January 2000.
class Calendar extends Scalars where
  latest : Date
  unanchored : Date
  written : Date → Text
  parse_written : ∀ day, parseDate (trim (written day)) = some day
  addDays : Date → Int → Option Date
  Moment : Type
  civil : Moment → Option Date
  expand : Text → Date → Except Text (Date → Option Moment)

variable [Calendar]

abbrev Date := Scalars.Date

def CADENCE_DAYS : Text := "cadence_days".toList
def RRULE : Text := "rrule".toList
def ANCHORED_ON : Text := "anchored_on".toList
def ADVANCES_FROM : Text := "advances_from".toList
def COUNTS_FROM : Text := "counts_from".toList
def SNOOZED_UNTIL : Text := "snoozed_until".toList
def LAST_CHECK_IN : Text := "last_check_in".toList
def OUTCOME : Text := "outcome".toList
def DUE_ON : Text := "due_on".toList
def RUNS_OUT : Text := "runs_out".toList
def DECIDE_BY : Text := "decide_by".toList
def PROMISED_BY : Text := "promised_by".toList
def ENDED : Text := "ended".toList

inductive Outcome where
  | ran | skipped | snoozed
deriving DecidableEq, Repr

def Outcome.asToken : Outcome → Text
  | .ran => "ran".toList
  | .skipped => "skipped".toList
  | .snoozed => "snoozed".toList

def Outcome.ofToken (token : Text) : Option Outcome := [.ran,.skipped,.snoozed].find? (·.asToken = trim token)

def Outcome.consumesTheCycle : Outcome → Bool
  | .ran | .skipped => true
  | .snoozed => false

inductive AdvancesFrom where
  | dueDate | checkInDate
deriving DecidableEq, Repr

def AdvancesFrom.asToken : AdvancesFrom → Text
  | .dueDate => "due_date".toList
  | .checkInDate => "check_in_date".toList

def AdvancesFrom.ALL : List AdvancesFrom := [.dueDate,.checkInDate]

def AdvancesFrom.ofToken (token : Text) : Option AdvancesFrom := AdvancesFrom.ALL.find? (·.asToken = trim token)

def AdvancesFrom.defaultFor (isCalendarRule : Bool) : AdvancesFrom := if isCalendarRule then .dueDate else .checkInDate

inductive RuleRefused (D : Type) where
  | unparseable (reason : Text)
  | finerThanADay (freq : Text)
  | ends (part : Text)
  | notADate (part : Text)
  | neverOccurs (runsFrom : Option D)
deriving DecidableEq

-- A rule a rhythm can carry, and the day its calendar starts on.
structure Recurrence where
  rule : Text
  anchor : Date

-- What the source refuses of one part of a rule, in the order it asks.
def refusedPart (part : Text) : Option (RuleRefused Date) :=
  let name := trim (part.takeWhile (· ≠ '='))
  let value := trim ((part.dropWhile (· ≠ '=')).drop 1)
  if name = "COUNT".toList then some (.ends name)
  else if name = "UNTIL".toList then some (.ends name)
  else if name = "BYHOUR".toList ∨ name = "BYMINUTE".toList ∨ name = "BYSECOND".toList then some (.notADate name)
  else if name = "FREQ".toList ∧ (value = "HOURLY".toList ∨ value = "MINUTELY".toList ∨ value = "SECONDLY".toList) then
    some (.finerThanADay value)
  else none

def stripLead (rule : Text) : Text :=
  let rule := trim rule
  if "RRULE:".toList.isPrefixOf rule || "rrule:".toList.isPrefixOf rule then trim (rule.drop 6) else rule

def namesACalendarProperty (rule : Text) : Bool :=
  let upper := rule.map Char.toUpper
  rule.contains '\n' || decide ("DTSTART".toList <:+: upper) || decide ("EXDATE".toList <:+: upper) ||
    decide ("RDATE".toList <:+: upper) || decide ("EXRULE".toList <:+: upper)

def Recurrence.make (rule : Text) (anchor : Date) : Except (RuleRefused Date) Recurrence :=
  let rule := stripLead rule
  if namesACalendarProperty rule then .error (.notADate "DTSTART, RDATE, EXDATE or a second line".toList)
  else
    match ((rule.map Char.toUpper).splitOn ';').findSome? refusedPart with
    | some refused => .error refused
    | none =>
      match Calendar.expand rule anchor with
      | .error reason => .error (.unparseable reason)
      | .ok set => if set anchor = none then .error (.neverOccurs (some anchor)) else .ok ⟨rule,anchor⟩

def Recurrence.check (rule : Text) : Except (RuleRefused Date) Unit :=
  match Recurrence.make rule Calendar.unanchored with
  | .ok _ => .ok ()
  | .error (.neverOccurs _) => .error (.neverOccurs none)
  | .error other => .error other

-- The first day the rule occurs on that is strictly after `day`.
def Recurrence.firstAfter (held : Recurrence) (day : Date) : Option Date := do
  let set ← (Calendar.expand held.rule held.anchor).toOption
  let next ← Calendar.addDays day 1
  let moment ← set next
  Calendar.civil moment

inductive Cadence where
  | days (count : Nat)
  | rule (held : Recurrence)

-- The most days a span of the calendar crate holds: asked for more it panics, and here
-- what panics answers nothing.
def longestSpan : Nat := 7304484

def Cadence.dueAfter (cadence : Cadence) (counted : Date) : Option Date :=
  match cadence with
  | .days count => if count ≤ longestSpan then some ((Calendar.addDays counted count).getD Calendar.latest) else none
  | .rule held => some ((held.firstAfter counted).getD Calendar.latest)

def Cadence.defaultAdvancesFrom : Cadence → AdvancesFrom
  | .days _ => .defaultFor false
  | .rule _ => .defaultFor true

structure Schedule where
  cadence : Cadence
  advancesFrom : AdvancesFrom
  countsFrom : Date
  snoozedUntil : Option Date

def Schedule.cycleDueOn (schedule : Schedule) : Option Date := schedule.cadence.dueAfter schedule.countsFrom

def Schedule.dueOn (schedule : Schedule) : Option Date :=
  schedule.cycleDueOn.map fun own => schedule.snoozedUntil.elim own (max own)

-- Why a rhythm takes no check-in: the key, and what it holds when it holds anything.
structure NotSchedulable where
  key : Text
  held : Option Text
  accepts : List Text := []
  aConsumingOutcomeWouldOpenIt : Bool := false
  alsoHolds : Option Text := none
deriving DecidableEq

-- A key's value trimmed, a blank one read as none.
def heldAt (fields : Fields) (key : Text) : Option Text := ((fields[key]?).map trim).filter (· ≠ [])

def read {α : Type} (fields : Fields) (key : Text) (accepts : List Text) (parse : Text → Option α) : Except NotSchedulable α :=
  match heldAt fields key with
  | none => .error { key, held := none, accepts }
  | some held =>
    match parse held with
    | none => .error { key, held := some held, accepts }
    | some value => .ok value

-- A whole number of days above zero, in 32 bits.
def daysOf (held : Text) : Option Nat := (parseUnsigned 31 held).filter (0 < ·)

def ruleAnchorKey (fields : Fields) : Text := if (heldAt fields ANCHORED_ON).isSome then ANCHORED_ON else COUNTS_FROM

def refusedRule (rule : Text) : NotSchedulable := { key := RRULE, held := some rule }

-- The rule, checked for its shape first; a rhythm that holds two cadences has none.
def ruleOf (fields : Fields) : Except NotSchedulable (Option Text) :=
  match heldAt fields CADENCE_DAYS,heldAt fields RRULE with
  | some _,some rule => .error { key := RRULE, held := some rule, alsoHolds := some CADENCE_DAYS }
  | none,some rule =>
    match Recurrence.check rule with
    | .ok _ => .ok (some rule)
    | .error _ => .error (refusedRule rule)
  | _,none => .ok none

def namedPolicy (fields : Fields) : Except NotSchedulable (Option AdvancesFrom) :=
  match heldAt fields ADVANCES_FROM with
  | none => .ok none
  | some _ => (read fields ADVANCES_FROM (AdvancesFrom.ALL.map (·.asToken)) AdvancesFrom.ofToken).map some

-- The rule from its anchor, which can be the basis.
def anchored (fields : Fields) (rule : Text) : Except NotSchedulable Recurrence := do
  let anchor ← read fields (ruleAnchorKey fields) [] Scalars.parseDate
  match Recurrence.make rule anchor with
  | .ok rule => .ok rule
  | .error _ => .error (refusedRule rule)

def isSnoozed (fields : Fields) : Bool := (fields[OUTCOME]?).any fun held => Outcome.ofToken held = some .snoozed

-- The day a snooze holds the loop back until: read only while the last check-in was one.
def snoozedUntilOf (fields : Fields) : Except NotSchedulable (Option Date) :=
  match read fields SNOOZED_UNTIL [] Scalars.parseDate with
  | .ok day => .ok (if isSnoozed fields then some day else none)
  | .error why => if why.held = none ∨ ¬isSnoozed fields then .ok none else .error why

def scheduleOf (fields : Fields) : Except NotSchedulable Schedule := do
  let rule ← ruleOf fields
  let days ← match rule with
    | none => (read fields CADENCE_DAYS [] daysOf).map some
    | some _ => .ok none
  let named ← namedPolicy fields
  let countsFrom ← read fields COUNTS_FROM [] Scalars.parseDate
  let cadence ← match days,rule with
    | some days,_ => .ok (Cadence.days days)
    | none,some rule => (anchored fields rule).map Cadence.rule
    | none,none => .error { key := CADENCE_DAYS, held := none } -- not reached: a rhythm with neither shape returned above
  let snoozedUntil ← snoozedUntilOf fields
  .ok { cadence, advancesFrom := named.getD cadence.defaultAdvancesFrom, countsFrom, snoozedUntil }

inductive Due (D : Type) where
  | never
  | on (day : D)
  | notYetOpened
  | unreadable
deriving DecidableEq

structure Ending where
  key : Text
  words : List Text
  anyWord : Bool

-- How a sort of thing says when one falls due. A thing is a carrier's business when it
-- holds one key of the interface.
structure Carrier where
  interface : List Text
  alsoReads : List Text
  due : Fields → Option (Due Date)
  ending : Option Ending

def rhythms : Carrier where
  interface := [CADENCE_DAYS,RRULE,ADVANCES_FROM,COUNTS_FROM,ANCHORED_ON,SNOOZED_UNTIL]
  alsoReads := [OUTCOME]
  due fields :=
    match scheduleOf fields with
    | .ok schedule => schedule.dueOn.map .on
    | .error why => some (if why.key = COUNTS_FROM ∧ why.held = none then .notYetOpened else .unreadable)
  ending := none

def hasEnded (fields : Fields) : Bool := (fields[ENDED]?).any fun held => trim held ≠ []

-- A carrier of one key that holds the day, which an ending word stops.
def dayCarrier (key : Text) (ending : Ending) : Carrier where
  interface := [key]
  alsoReads := [ENDED]
  due fields :=
    if hasEnded fields then some .never
    else match (fields[key]?).map fun held => Scalars.parseDate (trim held) with
      | some (some day) => some (.on day)
      | some none => some .unreadable
      | none => some .never
  ending := some ending

def openEnding : Ending where
  key := ENDED
  words := ["kept".toList,"renewed".toList,"replaced".toList,"cancelled".toList]
  anyWord := true

def promiseEnding : Ending where
  key := ENDED
  words := ["delivered".toList,"withdrawn".toList,"overtaken".toList]
  anyWord := false

def runsOut : Carrier := dayCarrier RUNS_OUT openEnding
def decideBy : Carrier := dayCarrier DECIDE_BY openEnding
def promises : Carrier := dayCarrier PROMISED_BY promiseEnding

def shipped : List Carrier := [rhythms,runsOut,decideBy,promises]

def carrierAnswering (carriers : List Carrier) (fields : Fields) : Option Carrier :=
  carriers.find? fun carrier => carrier.interface.any (fields.contains ·)

def owed (carriers : List Carrier) (fields : Fields) : Option (Due Date) :=
  match carrierAnswering carriers fields with
  | some carrier => carrier.due fields
  | none => some .never

inductive Owes (D : Type) where
  | finished
  | due (due : Due D)

def owesAs (kind : Text) (carriers : List Carrier) (fields own : Fields) : Option (Owes Date) :=
  if isFinished kind fields own then some .finished
  else if (carrierAnswering carriers fields).any (·.ending.isSome) && hasEnded fields then some .finished
  else (owed carriers fields).map .due

def owedAs (kind : Text) (carriers : List Carrier) (fields own : Fields) : Option (Due Date) :=
  (owesAs kind carriers fields own).map fun
    | .finished => .never
    | .due due => due

end Attention
