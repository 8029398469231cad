import Jojobot.Attention.CheckIn
import Jojobot.Attention.Occurring

namespace Attention
open Library Std Memory

variable [Calendar] [LawfulCalendar] {fields held left after written : Fields} {key : Text} {schedule : Schedule} {turn : Turn}
  {why : NotSchedulable} {on day : Date}

omit [LawfulCalendar] in
theorem heldAt_parses {text : Text} (blank : Scalars.parseDate [] = none) (held : fields[key]? = some text)
    (parses : Scalars.parseDate (trim text) = some day) : heldAt fields key = some (trim text) := by
  unfold heldAt
  rw [held,Option.map_some,Option.filter_some,if_pos]
  apply decide_eq_true
  intro empty
  rw [empty,blank] at parses
  cases parses

theorem heldAt_written (held : fields[key]? = some (Calendar.written day)) :
    (heldAt fields key).bind Scalars.parseDate = some day := by
  rw [heldAt_parses LawfulCalendar.blank held (Calendar.parse_written day)]
  exact Calendar.parse_written day

omit [Calendar] [LawfulCalendar] in
theorem heldAt_congr {other : Fields} (same : fields[key]? = other[key]?) : heldAt fields key = heldAt other key := by
  unfold heldAt
  rw [same]

-- What a check-in writes, by the basis it moves to and the day it anchors the rule on.
def turnWrites (outcome : Outcome) (on : Date) (basis anchor : Option Date) : Fields :=
  let written := ((∅ : Fields).insert OUTCOME outcome.asToken).insert LAST_CHECK_IN (Calendar.written on)
  let written := match basis with
    | some day => written.insert COUNTS_FROM (Calendar.written day)
    | none => written
  match anchor with
  | some day => written.insert ANCHORED_ON (Calendar.written day)
  | none => written

def turned (fields : Fields) (outcome : Outcome) (on : Date) (basis anchor : Option Date) : Fields :=
  laid fields (turnWrites outcome on basis anchor).toList

omit [Calendar] [LawfulCalendar] in
theorem insert_other {other value : Text} (differ : other ≠ key) : (fields.insert other value)[key]? = fields[key]? := by
  simp [ExtTreeMap.getElem?_insert,differ]

omit [LawfulCalendar] in
theorem turnWrites_key (outcome : Outcome) (on : Date) (basis anchor : Option Date) :
    (turnWrites outcome on basis anchor)[OUTCOME]? = some outcome.asToken ∧
      (turnWrites outcome on basis anchor)[COUNTS_FROM]? = basis.map Calendar.written ∧
      (turnWrites outcome on basis anchor)[ANCHORED_ON]? = anchor.map Calendar.written ∧
      ∀ key ∈ [CADENCE_DAYS,RRULE,ADVANCES_FROM,SNOOZED_UNTIL], (turnWrites outcome on basis anchor)[key]? = none := by
  -- The anchor is laid last, over the basis, over what every check-in writes.
  have anchored : ∀ key, ANCHORED_ON ≠ key → (turnWrites outcome on basis anchor)[key]? = (turnWrites outcome on basis none)[key]? := by
    intro key differ
    unfold turnWrites
    cases anchor with
    | none => rfl
    | some day => exact insert_other differ
  have based : ∀ key, ANCHORED_ON ≠ key → COUNTS_FROM ≠ key →
      (turnWrites outcome on basis anchor)[key]? = (turnWrites outcome on none none)[key]? := by
    intro key notAnchor differ
    rw [anchored key notAnchor]
    unfold turnWrites
    cases basis with
    | none => rfl
    | some day => exact insert_other differ
  have plain : ∀ key, LAST_CHECK_IN ≠ key → OUTCOME ≠ key → (turnWrites outcome on none none)[key]? = none := by
    intro key notLast notOutcome
    unfold turnWrites
    dsimp only
    rw [insert_other notLast,insert_other notOutcome]
    exact ExtTreeMap.getElem?_empty
  refine ⟨?_,?_,?_,?_⟩
  · rw [based _ (by decide) (by decide)]
    unfold turnWrites
    dsimp only
    rw [insert_other (by decide)]
    exact ExtTreeMap.getElem?_insert_self
  · rw [anchored _ (by decide)]
    cases basis with
    | none => exact plain _ (by decide) (by decide)
    | some day => exact ExtTreeMap.getElem?_insert_self
  · cases anchor with
    | some day => exact ExtTreeMap.getElem?_insert_self
    | none =>
      unfold turnWrites
      cases basis with
      | none => exact plain _ (by decide) (by decide)
      | some day => exact (insert_other (by decide)).trans (plain _ (by decide) (by decide))
  · intro key member
    simp only [List.mem_cons,List.not_mem_nil,or_false] at member
    rcases member with same | same | same | same
    all_goals
      subst same
      rw [based _ (by decide) (by decide)]
      exact plain _ (by decide) (by decide)

omit [LawfulCalendar] in
theorem turned_key (fields : Fields) (outcome : Outcome) (on : Date) (basis anchor : Option Date) :
    (turned fields outcome on basis anchor)[OUTCOME]? = some outcome.asToken ∧
      (turned fields outcome on basis anchor)[COUNTS_FROM]? = (basis.map Calendar.written).or fields[COUNTS_FROM]? ∧
      (turned fields outcome on basis anchor)[ANCHORED_ON]? = (anchor.map Calendar.written).or fields[ANCHORED_ON]? ∧
      ∀ key ∈ [CADENCE_DAYS,RRULE,ADVANCES_FROM,SNOOZED_UNTIL], (turned fields outcome on basis anchor)[key]? = fields[key]? := by
  obtain ⟨outcomes,bases,anchors,others⟩ := turnWrites_key outcome on basis anchor
  unfold turned
  simp only [laid_toList]
  rw [outcomes,bases,anchors]
  refine ⟨rfl,rfl,rfl,?_⟩
  intro key member
  rw [others key member]
  rfl

-- The day a rule is anchored on by the first check-in that finds it without one.
def anchorKept (fields : Fields) (cadence : Cadence) : Option Date :=
  match cadence with
  | .rule held => if heldAt fields ANCHORED_ON = none then some held.anchor else none
  | .days _ => none

omit [LawfulCalendar] in
theorem checkIn_scheduled {moved : Schedule} {outcome : Outcome} (found : scheduleOf fields = .ok schedule)
    (moves : schedule.after outcome on = some moved) :
    ∃ basis, checkIn fields outcome on = some (.ok (turnWrites outcome on basis (anchorKept fields schedule.cadence))) ∧
      (basis = some moved.countsFrom ∨ basis = none ∧ moved.countsFrom = schedule.countsFrom) := by
  unfold checkIn
  rw [found]
  dsimp only
  rw [moves,Option.map_some]
  unfold writtenOver
  dsimp only
  by_cases shifts : moved.countsFrom ≠ schedule.countsFrom ∨ (schedule.snoozedUntil.isSome && moved.snoozedUntil.isNone) = true
  · refine ⟨some moved.countsFrom,?_,Or.inl rfl⟩
    rw [if_pos shifts]
    unfold anchorKept turnWrites
    cases schedule.cadence with
    | days count => rfl
    | rule held =>
      dsimp only
      split
      · rfl
      · rfl
  · refine ⟨none,?_,Or.inr ⟨rfl,?_⟩⟩
    · rw [if_neg shifts]
      unfold anchorKept turnWrites
      cases schedule.cadence with
      | days count => rfl
      | rule held =>
        dsimp only
        split
        · rfl
        · rfl
    · apply Classical.byContradiction
      intro other
      exact shifts (Or.inl other)

omit [LawfulCalendar] in
theorem checkIn_moved {outcome : Outcome} (found : scheduleOf fields = .ok schedule)
    (checked : checkIn fields outcome on = some (.ok written)) : ∃ moved, schedule.after outcome on = some moved := by
  unfold checkIn at checked
  rw [found] at checked
  obtain ⟨moved,moves,_⟩ := Option.map_eq_some_iff.mp checked
  exact ⟨moved,moves⟩

omit [LawfulCalendar] in
theorem checkIn_opening (refused : scheduleOf fields = .error why) {outcome : Outcome} (opens : opensTheLoop why outcome = true)
    (on : Date) : checkIn fields outcome on = some (.ok (turnWrites outcome on (some on)
      (if heldAt fields RRULE ≠ none ∧ heldAt fields ANCHORED_ON = none then some on else none))) := by
  unfold checkIn
  rw [refused]
  dsimp only
  rw [if_pos opens]
  unfold turnWrites
  dsimp only
  split
  · rfl
  · rfl

omit [LawfulCalendar] in
theorem checkIn_refused (refused : scheduleOf fields = .error why) {outcome : Outcome} (shut : opensTheLoop why outcome = false)
    {on : Date} : checkIn fields outcome on ≠ some (.ok written) := by
  unfold checkIn
  rw [refused]
  dsimp only
  rw [if_neg (by simp [shut])]
  intro never
  cases never

omit [LawfulCalendar] in
theorem make_anchor {rule : Text} {made : Recurrence} (made' : Recurrence.make rule day = .ok made) : made.anchor = day := by
  unfold Recurrence.make at made'
  dsimp only at made'
  split at made'
  · cases made'
  · split at made'
    · cases made'
    · split at made'
      · cases made'
      · split at made'
        · cases made'
        · cases made'
          rfl

omit [LawfulCalendar] in
theorem anchored_ok {rule : Text} {made : Recurrence} : anchored fields rule = .ok made ↔
    ∃ day, (heldAt fields (ruleAnchorKey fields)).bind Scalars.parseDate = some day ∧ Recurrence.make rule day = .ok made := by
  unfold anchored
  rw [bind_ok]
  apply exists_congr
  intro day
  rw [read_ok]
  apply and_congr_right
  intro _
  cases Recurrence.make rule day with
  | error why => simp
  | ok other => simp

omit [LawfulCalendar] in
theorem ruleOf_congr {other : Fields} (days : heldAt fields CADENCE_DAYS = heldAt other CADENCE_DAYS)
    (rule : heldAt fields RRULE = heldAt other RRULE) : ruleOf fields = ruleOf other := by
  unfold ruleOf
  rw [days,rule]

omit [Calendar] [LawfulCalendar] in
theorem namedPolicy_congr {other : Fields} (policy : heldAt fields ADVANCES_FROM = heldAt other ADVANCES_FROM) :
    namedPolicy fields = namedPolicy other := by
  unfold namedPolicy
  rw [policy,read_congr policy]

-- The snooze day is in force while the last outcome is the snooze.
omit [LawfulCalendar] in
theorem snoozedUntilOf_outcome {outcome : Outcome} (last : fields[OUTCOME]? = some outcome.asToken)
    (reads : outcome.consumesTheCycle = false → ∃ day, (heldAt fields SNOOZED_UNTIL).bind Scalars.parseDate = some day) :
    snoozedUntilOf fields =
      .ok (if outcome.consumesTheCycle then none else (heldAt fields SNOOZED_UNTIL).bind Scalars.parseDate) := by
  have inForce : isSnoozed fields = !outcome.consumesTheCycle := by
    unfold isSnoozed
    rw [last]
    cases outcome <;> decide
  unfold snoozedUntilOf
  cases consumes : outcome.consumesTheCycle with
  | true =>
    rw [inForce,consumes]
    cases read fields SNOOZED_UNTIL [] Scalars.parseDate with
    | ok day => rfl
    | error why => exact if_pos (Or.inr Bool.false_ne_true)
  | false =>
    obtain ⟨day,held⟩ := reads consumes
    rw [inForce,consumes,read_ok.mpr held,held]
    rfl

theorem anchored_turned {rule : Text} {made : Recurrence} (ran : anchored fields rule = .ok made) (outcome : Outcome)
    (basis : Option Date) : anchored (turned fields outcome on basis (anchorKept fields (.rule made))) rule = .ok made := by
  obtain ⟨_,_,anchors,_⟩ := turned_key fields outcome on basis (anchorKept fields (.rule made))
  obtain ⟨day,runsFrom,makes⟩ := anchored_ok.mp ran
  refine anchored_ok.mpr ⟨day,?_,makes⟩
  cases found : heldAt fields ANCHORED_ON with
  | none =>
    have kept : anchorKept fields (.rule made) = some made.anchor := if_pos found
    rw [kept] at anchors ⊢
    have reads := heldAt_written anchors
    have key : ruleAnchorKey (turned fields outcome on basis (some made.anchor)) = ANCHORED_ON := by
      obtain ⟨text,held,_⟩ := Option.bind_eq_some_iff.mp reads
      unfold ruleAnchorKey
      rw [held]
      rfl
    rw [key,reads,make_anchor makes]
  | some text =>
    have kept : anchorKept fields (.rule made) = none := if_neg (by simp [found])
    rw [kept] at anchors ⊢
    have same := heldAt_congr anchors
    have key : ∀ other, heldAt other ANCHORED_ON = some text → ruleAnchorKey other = ANCHORED_ON := by
      intro other held
      unfold ruleAnchorKey
      rw [held]
      rfl
    rw [key _ found] at runsFrom
    rw [key _ (same.trans found),same]
    exact runsFrom

theorem reads_turned (reads : Reads fields schedule) (outcome : Outcome) (on : Date) {basis : Option Date} {counts : Date}
    (moved : basis = some counts ∨ (basis = none ∧ counts = schedule.countsFrom))
    (snoozes : outcome.consumesTheCycle = false → ∃ day, (heldAt fields SNOOZED_UNTIL).bind Scalars.parseDate = some day) :
    Reads (turned fields outcome on basis (anchorKept fields schedule.cadence)) { schedule with
      countsFrom := counts
      snoozedUntil := if outcome.consumesTheCycle then none else (heldAt fields SNOOZED_UNTIL).bind Scalars.parseDate } := by
  obtain ⟨last,bases,anchors,others⟩ := turned_key fields outcome on basis (anchorKept fields schedule.cadence)
  have same : ∀ key ∈ [CADENCE_DAYS,RRULE,ADVANCES_FROM,SNOOZED_UNTIL],
      heldAt (turned fields outcome on basis (anchorKept fields schedule.cadence)) key = heldAt fields key := by
    intro key member
    exact heldAt_congr (others key member)
  have days := same CADENCE_DAYS (by simp)
  have rules := ruleOf_congr days (same RRULE (by simp))
  have until' := same SNOOZED_UNTIL (by simp)
  refine ⟨?_,?_,?_,?_⟩
  · dsimp only
    have cadence := reads.cadence
    generalize schedule.cadence = shape at cadence days rules ⊢
    cases cadence with
    | days none' counted => exact .days (rules.trans none') (by rw [days]; exact counted)
    | rule named ran => exact .rule (rules.trans named) (anchored_turned ran outcome basis)
  · obtain ⟨named,policy,advances⟩ := reads.policy
    exact ⟨named,(namedPolicy_congr (same ADVANCES_FROM (by simp))).trans policy,advances⟩
  · rcases moved with written | ⟨unmoved,stays⟩
    · rw [written] at bases ⊢
      exact heldAt_written bases
    · rw [unmoved] at bases ⊢
      rw [heldAt_congr bases,stays]
      exact reads.basis
  · rw [←until'] at snoozes
    rw [snoozedUntilOf_outcome last snoozes,until']

omit [LawfulCalendar] in
theorem ruleOf_names {rule : Option Text} (rules : ruleOf fields = .ok rule) : heldAt fields RRULE = rule := by
  unfold ruleOf at rules
  split at rules
  · cases rules
  · rename_i found
    split at rules
    · cases rules
      exact found
    · cases rules
  · rename_i found
    cases rules
    exact found

omit [LawfulCalendar] in
theorem rule_day (day' : (heldAt fields key).bind Scalars.parseDate = some day) :
    ((fields[key]?).bind fun held => Scalars.parseDate (trim held)) = some day := by
  unfold heldAt at day'
  cases held : fields[key]? with
  | none =>
    rw [held] at day'
    cases day'
  | some text =>
    rw [held,Option.map_some,Option.filter_some] at day'
    split at day'
    · exact day'
    · cases day'

-- A rule whose day the write changes is one that occurs from that day.
omit [LawfulCalendar] in
theorem rule_makes {before : Fields} {rule : Text} (accepted : refusesARule before after = none)
    (named : heldAt after RRULE = some rule)
    (changed : ¬(before[RRULE]? = after[RRULE]? ∧ heldAt before (ruleAnchorKey before) = heldAt after (ruleAnchorKey after)))
    (runsFrom : (heldAt after (ruleAnchorKey after)).bind Scalars.parseDate = some day) :
    ∃ made, Recurrence.make rule day = .ok made := by
  unfold refusesARule at accepted
  rw [named] at accepted
  dsimp only at accepted
  rw [if_neg changed,rule_day runsFrom] at accepted
  dsimp only at accepted
  cases makes : Recurrence.make rule day with
  | ok made => exact ⟨made,rfl⟩
  | error refused =>
    rw [makes] at accepted
    cases accepted

omit [LawfulCalendar] in
theorem rule_accepted {before : Fields}
    (runs : ∀ rule, heldAt after RRULE = some rule → ∃ made, anchored after rule = .ok made) :
    refusesARule before after = none := by
  unfold refusesARule
  cases named : heldAt after RRULE with
  | none => rfl
  | some rule =>
    dsimp only
    split
    · rfl
    · obtain ⟨made,ran⟩ := runs rule named
      obtain ⟨day,runsFrom,makes⟩ := anchored_ok.mp ran
      rw [rule_day runsFrom]
      dsimp only
      rw [makes]

-- What a check-in leaves alone on a loop, and the day a rule's loop is anchored on.
structure Framed (held left : Fields) : Prop where
  declared : ∀ key ∈ [CADENCE_DAYS,RRULE,ADVANCES_FROM], left[key]? = held[key]?
  anchor : heldAt held ANCHORED_ON ≠ none → left[ANCHORED_ON]? = held[ANCHORED_ON]?
  anchored : heldAt held RRULE ≠ none → heldAt left ANCHORED_ON ≠ none

omit [LawfulCalendar] in
theorem sends_key (turn : Turn) (held : Fields) (other : SNOOZED_UNTIL ≠ key) : (turn.sends held)[key]? = held[key]? := by
  unfold Turn.sends
  cases turn.sent with
  | none => rfl
  | some text => exact insert_other other

-- The day a check-in's snooze lasts until: read from what was sent, and from nothing else.
omit [LawfulCalendar] in
theorem snoozeDayOf_sent {until' : Option Date} (taken : snoozeDayOf turn.outcome turn.sent turn.on = .ok until') :
    (turn.outcome.consumesTheCycle = true ∧ until' = none ∧ ∀ text, turn.sent = some text → trim text = []) ∨
      (turn.outcome.consumesTheCycle = false ∧ ∃ text day, turn.sent = some text ∧ trim text ≠ [] ∧
        Scalars.parseDate (trim text) = some day ∧ turn.on < day ∧ until' = some day) := by
  unfold snoozeDayOf at taken
  dsimp only at taken
  split at taken
  · rename_i consumes
    left
    split at taken
    · rename_i blank
      cases taken
      refine ⟨consumes,rfl,?_⟩
      intro text sent
      rw [sent,Option.map_some,Option.filter_some] at blank
      split at blank
      · cases blank
      · rename_i empty
        simpa using empty
    · cases taken
  · rename_i snoozes
    right
    refine ⟨by simpa using snoozes,?_⟩
    split at taken
    · cases taken
    · rename_i held nonblank
      obtain ⟨trimmed,some'⟩ := Option.filter_eq_some_iff.mp nonblank
      obtain ⟨text,sent,same⟩ := Option.map_eq_some_iff.mp trimmed
      split at taken
      · cases taken
      · rename_i day parses
        split at taken
        · cases taken
        · rename_i later
          cases taken
          subst same
          exact ⟨text,day,sent,of_decide_eq_true some',parses,lt_of_not_ge later,rfl⟩

theorem sends_reads {until' : Option Date} (reads : Reads held schedule)
    (taken : snoozeDayOf turn.outcome turn.sent turn.on = .ok until') :
    ∃ before, Reads (turn.sends held) { schedule with snoozedUntil := before } := by
  have same : ∀ key, SNOOZED_UNTIL ≠ key → heldAt (turn.sends held) key = heldAt held key := by
    intro key other
    exact heldAt_congr (sends_key turn held other)
  have days := same CADENCE_DAYS (by decide)
  have rules := ruleOf_congr days (same RRULE (by decide))
  have runsFrom : ruleAnchorKey (turn.sends held) = ruleAnchorKey held := by
    unfold ruleAnchorKey
    rw [same ANCHORED_ON (by decide)]
  have snoozes : ∃ before, snoozedUntilOf (turn.sends held) = .ok before := by
    unfold Turn.sends
    rcases snoozeDayOf_sent taken with ⟨_,_,blank⟩ | ⟨_,text,day,sent,_,parses,_,_⟩
    · cases sent : turn.sent with
      | none => exact ⟨_,reads.snooze⟩
      | some text =>
        have empty : heldAt (held.insert SNOOZED_UNTIL text) SNOOZED_UNTIL = none := by
          unfold heldAt
          rw [ExtTreeMap.getElem?_insert_self,Option.map_some,blank text sent]
          rfl
        refine ⟨none,?_⟩
        unfold snoozedUntilOf read
        rw [empty]
        exact if_pos (Or.inl rfl)
    · rw [sent]
      have found : heldAt (held.insert SNOOZED_UNTIL text) SNOOZED_UNTIL = some (trim text) :=
        heldAt_parses LawfulCalendar.blank ExtTreeMap.getElem?_insert_self parses
      refine ⟨if isSnoozed (held.insert SNOOZED_UNTIL text) then some day else none,?_⟩
      unfold snoozedUntilOf
      rw [read_ok.mpr (by rw [found]; exact parses)]
  obtain ⟨before,snooze⟩ := snoozes
  refine ⟨before,?_,?_,?_,snooze⟩
  · dsimp only
    have cadence := reads.cadence
    generalize schedule.cadence = shape at cadence ⊢
    cases cadence with
    | days none' counted => exact .days (rules.trans none') (by rw [days]; exact counted)
    | rule named ran =>
      refine .rule (rules.trans named) (anchored_ok.mpr ?_)
      rw [runsFrom,same]
      · exact anchored_ok.mp ran
      · unfold ruleAnchorKey
        split
        · decide
        · decide
  · obtain ⟨named,policy,advances⟩ := reads.policy
    exact ⟨named,(namedPolicy_congr (same ADVANCES_FROM (by decide))).trans policy,advances⟩
  · rw [same COUNTS_FROM (by decide)]
    exact reads.basis

-- How a schedule stands after a check-in, but for its snooze.
omit [LawfulCalendar] in
theorem after_shape {moved : Schedule} {outcome : Outcome} (moves : schedule.after outcome on = some moved) :
    if outcome.consumesTheCycle then ∃ counts, moved = { schedule with countsFrom := counts,snoozedUntil := none }
    else moved = schedule := by
  unfold Schedule.after at moves
  cases consumes : outcome.consumesTheCycle with
  | false =>
    rw [consumes] at moves
    exact (Option.some.inj moves).symm
  | true =>
    rw [consumes] at moves
    obtain ⟨counts,_,same⟩ := Option.map_eq_some_iff.mp moves
    exact ⟨counts,same.symm⟩

-- Where the cycle counts from does not turn on the day the loop was put off until.
omit [LawfulCalendar] in
theorem after_putOff {moved : Schedule} {outcome : Outcome} (before : Option Date) (moves : schedule.after outcome on = some moved) :
    ∃ put, { schedule with snoozedUntil := before }.after outcome on = some put ∧
      ∀ until' : Option Date, { put with snoozedUntil := until' } = { moved with snoozedUntil := until' } := by
  unfold Schedule.after at moves ⊢
  cases consumes : outcome.consumesTheCycle with
  | false =>
    rw [consumes] at moves
    cases Option.some.inj moves
    exact ⟨_,rfl,fun _ => rfl⟩
  | true =>
    rw [consumes] at moves
    obtain ⟨counts,counted,same⟩ := Option.map_eq_some_iff.mp moves
    subst same
    exact ⟨{ schedule with countsFrom := counts,snoozedUntil := none },Option.map_eq_some_iff.mpr ⟨counts,counted,rfl⟩,fun _ => rfl⟩

theorem turn_snooze (held : Fields) {until' : Option Date} (taken : snoozeDayOf turn.outcome turn.sent turn.on = .ok until') :
    (if turn.outcome.consumesTheCycle then none else (heldAt (turn.sends held) SNOOZED_UNTIL).bind Scalars.parseDate) = until' := by
  rcases snoozeDayOf_sent taken with ⟨consumes,none',_⟩ | ⟨snoozes,text,day,sent,_,parses,_,some'⟩
  · rw [if_pos consumes,none']
  · rw [if_neg (by simp [snoozes]),some']
    unfold Turn.sends
    rw [sent]
    dsimp only
    rw [heldAt_parses LawfulCalendar.blank ExtTreeMap.getElem?_insert_self parses]
    exact parses

theorem turned_framed {basis : Option Date} {cadence : Cadence} (outcome : Outcome) (on : Date)
    (rules : heldAt fields RRULE ≠ none → ∃ made, cadence = .rule made) :
    Framed fields (turned fields outcome on basis (anchorKept fields cadence)) := by
  obtain ⟨_,_,anchors,others⟩ := turned_key fields outcome on basis (anchorKept fields cadence)
  have kept : heldAt fields ANCHORED_ON ≠ none → anchorKept fields cadence = none := by
    intro held
    unfold anchorKept
    cases cadence with
    | days count => rfl
    | rule made => exact if_neg held
  refine ⟨?_,?_,?_⟩
  · intro key member
    apply others
    simp only [List.mem_cons,List.not_mem_nil,or_false] at member ⊢
    rcases member with same | same | same
    · exact Or.inl same
    · exact Or.inr (Or.inl same)
    · exact Or.inr (Or.inr (Or.inl same))
  · intro held
    rw [anchors,kept held]
    rfl
  · intro named
    obtain ⟨made,shape⟩ := rules named
    subst shape
    by_cases held : heldAt fields ANCHORED_ON = none
    · have anchor : anchorKept fields (.rule made) = some made.anchor := if_pos held
      rw [anchor] at anchors ⊢
      obtain ⟨text,found,_⟩ := Option.bind_eq_some_iff.mp (heldAt_written anchors)
      rw [found]
      exact Option.some_ne_none text
    · rw [kept held] at anchors ⊢
      rw [heldAt_congr anchors]
      exact held

omit [LawfulCalendar] in
theorem Framed.of_sends (framed : Framed (turn.sends held) left) : Framed held left := by
  have same : ∀ key, SNOOZED_UNTIL ≠ key → (turn.sends held)[key]? = held[key]? := fun _ other => sends_key turn held other
  refine ⟨?_,?_,?_⟩
  · intro key member
    rw [framed.declared key member]
    simp only [List.mem_cons,List.not_mem_nil,or_false] at member
    rcases member with equal | equal | equal
    all_goals
      subst equal
      exact same _ (by decide)
  · intro anchored
    rw [framed.anchor (by rw [heldAt_congr (same _ (by decide))]; exact anchored)]
    exact same _ (by decide)
  · intro named
    exact framed.anchored (by rw [heldAt_congr (same _ (by decide))]; exact named)

omit [LawfulCalendar] in
theorem Reads.rule_made (reads : Reads fields schedule) (named : heldAt fields RRULE ≠ none) :
    ∃ made, schedule.cadence = .rule made := by
  have cadence := reads.cadence
  generalize schedule.cadence = shape at cadence ⊢
  cases cadence with
  | days none' _ => exact absurd (ruleOf_names none') named
  | rule _ _ => exact ⟨_,rfl⟩

omit [LawfulCalendar] in
theorem Reads.rule_anchored {rule : Text} (reads : Reads fields schedule) (named : heldAt fields RRULE = some rule) :
    ∃ made, anchored fields rule = .ok made := by
  have cadence := reads.cadence
  generalize schedule.cadence = shape at cadence
  cases cadence with
  | days none' _ => cases named.symm.trans (ruleOf_names none')
  | rule names ran =>
    cases Option.some.inj (named.symm.trans (ruleOf_names names))
    exact ⟨_,ran⟩

-- A check-in whose arithmetic answers is taken on a loop that reads, and the loop it leaves reads.
theorem land_sent {until' : Option Date} {moved : Schedule} (sent : Reads (turn.sends held) schedule)
    (taken : snoozeDayOf turn.outcome turn.sent turn.on = .ok until') (moves : schedule.after turn.outcome turn.on = some moved) :
    ∃ left, turn.land held = some left ∧ Framed held left ∧ Reads left { moved with snoozedUntil := until' } := by
  obtain ⟨basis,checked,based⟩ := checkIn_scheduled (scheduleOf_reads.mpr sent) moves
  have leaves : Reads (turned (turn.sends held) turn.outcome turn.on basis (anchorKept (turn.sends held) schedule.cadence))
      { moved with snoozedUntil := until' } := by
    have read := reads_turned sent turn.outcome turn.on based ?_
    · rw [turn_snooze held taken] at read
      have shape := after_shape moves
      split at shape
      · obtain ⟨counts,same⟩ := shape
        subst same
        exact read
      · subst shape
        exact read
    · intro snoozes
      have lasts := turn_snooze held taken
      rw [if_neg (by simp [snoozes])] at lasts
      rcases snoozeDayOf_sent taken with ⟨consumes,_,_⟩ | ⟨_,_,day,_,_,_,_,some'⟩
      · rw [consumes] at snoozes
        cases snoozes
      · exact ⟨day,lasts.trans some'⟩
  refine ⟨_,?_,(turned_framed turn.outcome turn.on fun named => sent.rule_made named).of_sends,leaves⟩
  unfold Turn.land
  rw [taken]
  dsimp only
  rw [checked]
  dsimp only
  rw [if_pos]
  · rfl
  · rw [Option.isNone_iff_eq_none]
    apply rule_accepted
    intro rule named
    exact leaves.rule_anchored named

theorem land_reads {until' : Option Date} {moved : Schedule} (reads : Reads held schedule)
    (taken : snoozeDayOf turn.outcome turn.sent turn.on = .ok until') (moves : schedule.after turn.outcome turn.on = some moved) :
    ∃ left, turn.land held = some left ∧ Framed held left ∧ Reads left { moved with snoozedUntil := until' } := by
  obtain ⟨before,sent⟩ := sends_reads reads taken
  obtain ⟨put,putOff,same⟩ := after_putOff before moves
  obtain ⟨left,landed,framed,leaves⟩ := land_sent sent taken putOff
  rw [same until'] at leaves
  exact ⟨left,landed,framed,leaves⟩

theorem opened_reads {outcome : Outcome} {anchor : Option Date} {cadence : Cadence} (consumes : outcome.consumesTheCycle = true)
    (policy : ∃ named, namedPolicy fields = .ok named)
    (shape : CadenceReads (turned fields outcome on (some on) anchor) cadence) :
    ∃ schedule, Reads (turned fields outcome on (some on) anchor) schedule ∧ schedule.countsFrom = on ∧
      schedule.snoozedUntil = none := by
  obtain ⟨last,bases,_,others⟩ := turned_key fields outcome on (some on) anchor
  obtain ⟨named,policy⟩ := policy
  refine ⟨⟨cadence,named.getD cadence.defaultAdvancesFrom,on,none⟩,⟨shape,⟨named,?_,rfl⟩,heldAt_written bases,?_⟩,rfl,rfl⟩
  · rw [namedPolicy_congr (heldAt_congr (others ADVANCES_FROM (by simp)))]
    exact policy
  · rw [snoozedUntilOf_outcome last,if_pos consumes]
    intro snoozes
    rw [consumes] at snoozes
    cases snoozes

-- The day an opened rule runs from: its own, or the one the check-in anchors it on.
theorem opened_anchored {rule : Text} {outcome : Outcome} {before : Fields} (named : heldAt fields RRULE = some rule)
    (same : ∀ key, SNOOZED_UNTIL ≠ key → fields[key]? = before[key]?) (basis : heldAt fields COUNTS_FROM = none)
    (guarded : refusesARule before (turned fields outcome on (some on) (anchorKept fields (.rule ⟨rule,on⟩))) = none)
    (sound : ∀ text, heldAt before ANCHORED_ON = some text →
      ∃ day made, Scalars.parseDate text = some day ∧ Recurrence.make rule day = .ok made) :
    ∃ made, anchored (turned fields outcome on (some on) (anchorKept fields (.rule ⟨rule,on⟩))) rule = .ok made := by
  obtain ⟨_,_,anchors,others⟩ := turned_key fields outcome on (some on) (anchorKept fields (.rule ⟨rule,on⟩))
  have held := heldAt_congr (same ANCHORED_ON (by decide))
  have keyed : ∀ (other : Fields) (text : Text), heldAt other ANCHORED_ON = some text → ruleAnchorKey other = ANCHORED_ON := by
    intro other text found
    unfold ruleAnchorKey
    rw [found]
    rfl
  cases found : heldAt fields ANCHORED_ON with
  | none =>
    have anchor : anchorKept fields (.rule ⟨rule,on⟩) = some on := if_pos found
    rw [anchor] at anchors guarded ⊢
    have reads := heldAt_written anchors
    obtain ⟨text,stored,_⟩ := Option.bind_eq_some_iff.mp reads
    have runsFrom := keyed _ _ stored
    have named' := (heldAt_congr (others RRULE (by simp))).trans named
    rw [anchor] at named'
    obtain ⟨made,makes⟩ := rule_makes guarded named' (by
      intro both
      have unset : heldAt before (ruleAnchorKey before) = none := by
        unfold ruleAnchorKey
        rw [←held,found]
        exact (heldAt_congr (same COUNTS_FROM (by decide))).symm.trans basis
      rw [runsFrom,stored,unset] at both
      cases both.2) (by rw [runsFrom]; exact reads)
    exact ⟨made,anchored_ok.mpr ⟨on,by rw [runsFrom]; exact reads,makes⟩⟩
  | some text =>
    have anchor : anchorKept fields (.rule ⟨rule,on⟩) = none := if_neg (by simp [found])
    rw [anchor] at anchors ⊢
    have stored := (heldAt_congr anchors).trans found
    obtain ⟨day,made,parses,makes⟩ := sound text (held.symm.trans found)
    refine ⟨made,anchored_ok.mpr ⟨day,?_,makes⟩⟩
    rw [keyed _ _ stored,stored]
    exact parses

omit [LawfulCalendar] in
theorem land_parts (landed : turn.land held = some left) : ∃ until' written,
    snoozeDayOf turn.outcome turn.sent turn.on = .ok until' ∧
      checkIn (turn.sends held) turn.outcome turn.on = some (.ok written) ∧ left = laid (turn.sends held) written.toList ∧
      refusesARule held left = none := by
  unfold Turn.land at landed
  split at landed
  · cases landed
  · rename_i until' taken
    split at landed
    · cases landed
    · cases landed
    · rename_i written checked
      dsimp only at landed
      split at landed
      · rename_i guarded
        cases Option.some.inj landed
        exact ⟨until',written,taken,checked,rfl,Option.isNone_iff_eq_none.mp guarded⟩
      · cases landed

-- A check-in on a loop without a basis opens it, from the day it is made.
theorem land_opens (landed : turn.land held = some left) (refused : scheduleOf (turn.sends held) = .error why)
    (sound : ∀ rule text, heldAt held RRULE = some rule → heldAt held ANCHORED_ON = some text →
      ∃ day made, Scalars.parseDate text = some day ∧ Recurrence.make rule day = .ok made) :
    heldAt held COUNTS_FROM = none ∧ turn.outcome.consumesTheCycle = true ∧ Framed held left ∧
      ∃ schedule, Reads left schedule ∧ schedule.countsFrom = turn.on ∧ schedule.snoozedUntil = none := by
  have same : ∀ key, SNOOZED_UNTIL ≠ key → (turn.sends held)[key]? = held[key]? := fun _ other => sends_key turn held other
  obtain ⟨until',written,taken,checked,shape,guarded⟩ := land_parts landed
  have opens : opensTheLoop why turn.outcome = true := by
    cases opening : opensTheLoop why turn.outcome with
    | false => exact absurd checked (checkIn_refused refused opening)
    | true => rfl
  have means : why.key = COUNTS_FROM ∧ why.held = none ∧ turn.outcome.consumesTheCycle = true := of_decide_eq_true opens
  obtain ⟨key,blank,consumes⟩ := means
  obtain ⟨basis,policy,declared⟩ := scheduleOf_unopened refused key blank
  rw [checkIn_opening refused opens] at checked
  have unset : heldAt held COUNTS_FROM = none := (heldAt_congr (same COUNTS_FROM (by decide))).symm.trans basis
  rcases declared with ⟨unnamed,count,counted⟩ | ⟨rule,named⟩
  · have absent := ruleOf_names unnamed
    have anchor : (if heldAt (turn.sends held) RRULE ≠ none ∧ heldAt (turn.sends held) ANCHORED_ON = none then
        some turn.on else none) = anchorKept (turn.sends held) (.days count) := if_neg (by simp [absent])
    rw [anchor] at checked
    have stays : left = turned (turn.sends held) turn.outcome turn.on (some turn.on) (anchorKept (turn.sends held) (.days count)) := by
      rw [shape,←Except.ok.inj (Option.some.inj checked)]
      rfl
    subst stays
    obtain ⟨_,_,_,others⟩ := turned_key (turn.sends held) turn.outcome turn.on (some turn.on)
      (anchorKept (turn.sends held) (.days count))
    have days := heldAt_congr (others CADENCE_DAYS (by simp))
    have rules := ruleOf_congr days (heldAt_congr (others RRULE (by simp)))
    exact ⟨unset,consumes,(turned_framed _ _ fun named => absurd absent named).of_sends,
      opened_reads consumes policy (.days (rules.trans unnamed) (by rw [days]; exact counted))⟩
  · have present := ruleOf_names named
    have anchor : (if heldAt (turn.sends held) RRULE ≠ none ∧ heldAt (turn.sends held) ANCHORED_ON = none then
        some turn.on else none) = anchorKept (turn.sends held) (.rule ⟨rule,turn.on⟩) := by
      unfold anchorKept
      simp [present]
    rw [anchor] at checked
    have stays : left =
        turned (turn.sends held) turn.outcome turn.on (some turn.on) (anchorKept (turn.sends held) (.rule ⟨rule,turn.on⟩)) := by
      rw [shape,←Except.ok.inj (Option.some.inj checked)]
      rfl
    subst stays
    have held' := (heldAt_congr (same RRULE (by decide))).symm.trans present
    obtain ⟨made,ran⟩ := opened_anchored present same basis guarded fun text => sound rule text held'
    obtain ⟨_,_,_,others⟩ := turned_key (turn.sends held) turn.outcome turn.on (some turn.on)
      (anchorKept (turn.sends held) (.rule ⟨rule,turn.on⟩))
    have rules := ruleOf_congr (heldAt_congr (others CADENCE_DAYS (by simp))) (heldAt_congr (others RRULE (by simp)))
    exact ⟨unset,consumes,(turned_framed _ _ fun _ => ⟨_,rfl⟩).of_sends,
      opened_reads consumes policy (.rule (rules.trans named) ran)⟩

end Attention
