import Jojobot.Attention.CheckIn.Turns
import Jojobot.Library.Runs

namespace Attention
open Library Std Memory

variable [Calendar] {start now held left : Fields} {taken : List (Fields × Turn)} {turn : Turn} {schedule : Schedule}

-- The check-ins of a run that took a cycle.
def consuming (taken : List (Fields × Turn)) : List Turn := (taken.map (·.2)).filter (·.outcome.consumesTheCycle)

-- The basis a run counts from first, and the cycles it took after that: the basis the loop
-- held, or the day of the check-in that opened it.
inductive FirstBasis (start : Fields) (taken : List (Fields × Turn)) : Date → List Turn → Prop where
  | held {first : Date} : (heldAt start COUNTS_FROM).bind Scalars.parseDate = some first →
      FirstBasis start taken first (consuming taken)
  | opened {opening : Turn} {spent : List Turn} : heldAt start COUNTS_FROM = none → consuming taken = opening :: spent →
      FirstBasis start taken opening.on spent

-- What the basis is after the cycles `spent`, under either policy.
def CountsAfter (schedule : Schedule) (first : Date) (spent : List Turn) : Prop :=
  (schedule.advancesFrom = .dueDate → schedule.cadence.afterCycles first spent.length = some schedule.countsFrom) ∧
    (schedule.advancesFrom = .checkInDate → schedule.countsFrom = (spent.getLast?.map (·.on)).getD first)

-- The day a check-in puts the loop off until.
def Turn.putsOffUntil (turn : Turn) : Option Date :=
  if turn.outcome.consumesTheCycle then none else turn.sent.bind fun text => Scalars.parseDate (trim text)

-- What holds of a loop all along a run of check-ins.
structure Kept (start : Fields) (taken : List (Fields × Turn)) (now : Fields) (schedule : Schedule) : Prop where
  reads : Reads now schedule
  declared : ∀ key ∈ [CADENCE_DAYS,RRULE,ADVANCES_FROM], now[key]? = start[key]?
  basis : ∃ first spent, FirstBasis start taken first spent ∧ CountsAfter schedule first spent
  snooze : ∀ last ∈ taken.getLast?, schedule.snoozedUntil = last.2.putsOffUntil
  anchor : ∀ one ∈ taken, heldAt one.1 ANCHORED_ON ≠ none → now[ANCHORED_ON]? = one.1[ANCHORED_ON]?
  anchored : taken ≠ [] → heldAt now RRULE ≠ none → heldAt now ANCHORED_ON ≠ none
  phase : ∀ one ∈ taken, ∀ earlier, scheduleOf one.1 = .ok earlier →
    earlier.cadence = schedule.cadence ∧ earlier.advancesFrom = schedule.advancesFrom

theorem kept_start (reads : Reads start schedule) : Kept start [] start schedule := by
  refine ⟨reads,fun _ _ => rfl,⟨_,_,.held reads.basis,fun _ => rfl,fun _ => rfl⟩,?_,?_,?_,?_⟩
  · intro last member
    cases member
  · intro one member
    cases member
  · intro some'
    exact absurd rfl some'
  · intro one member
    cases member

theorem consuming_more (held : Fields) (turn : Turn) : consuming (taken ++ [(held,turn)]) =
    consuming taken ++ if turn.outcome.consumesTheCycle then [turn] else [] := by
  unfold consuming
  rw [List.map_append,List.filter_append]
  congr 1
  cases consumes : turn.outcome.consumesTheCycle with
  | true => simp [consumes]
  | false => simp [consumes]

theorem first_more {first : Date} {spent : List Turn} (counted : FirstBasis start taken first spent) (held : Fields) (turn : Turn) :
    FirstBasis start (taken ++ [(held,turn)]) first (spent ++ if turn.outcome.consumesTheCycle then [turn] else []) := by
  cases counted with
  | held basis =>
    rw [←consuming_more held turn]
    exact .held basis
  | opened unset parts =>
    refine .opened unset ?_
    rw [consuming_more,parts]
    rfl

theorem counts_more {first : Date} {spent : List Turn} {moved : Schedule} (counted : CountsAfter schedule first spent)
    (moves : schedule.after turn.outcome turn.on = some moved) (until' : Option Date) :
    CountsAfter { moved with snoozedUntil := until' } first (spent ++ if turn.outcome.consumesTheCycle then [turn] else []) := by
  obtain ⟨due,day⟩ := counted
  unfold Schedule.after at moves
  cases consumes : turn.outcome.consumesTheCycle with
  | false =>
    rw [consumes] at moves
    cases Option.some.inj moves
    simp only [List.append_nil,Bool.false_eq_true,if_false]
    exact ⟨due,day⟩
  | true =>
    rw [consumes] at moves
    obtain ⟨counts,counted,same⟩ := Option.map_eq_some_iff.mp moves
    subst same
    unfold CountsAfter
    simp only [if_true,List.length_append,List.length_singleton,List.getLast?_concat]
    refine ⟨?_,?_⟩
    · intro policy
      rw [policy] at counted
      have due := due policy
      unfold Cadence.afterCycles at due ⊢
      rw [Function.iterate_succ_apply',due]
      exact counted
    · intro policy
      rw [policy] at counted
      exact (Option.some.inj counted).symm

theorem putsOffUntil_sent {until' : Option Date} (sent : snoozeDayOf turn.outcome turn.sent turn.on = .ok until') :
    until' = turn.putsOffUntil := by
  unfold Turn.putsOffUntil
  rcases snoozeDayOf_sent sent with ⟨consumes,none',_⟩ | ⟨snoozes,text,day,sent,_,parses,_,some'⟩
  · rw [if_pos consumes,none']
  · rw [if_neg (by simp [snoozes]),sent,some']
    exact parses.symm

theorem after_cadence {moved : Schedule} (moves : schedule.after turn.outcome turn.on = some moved) :
    moved.cadence = schedule.cadence ∧ moved.advancesFrom = schedule.advancesFrom := by
  have shape := after_shape moves
  split at shape
  · obtain ⟨counts,same⟩ := shape
    subst same
    exact ⟨rfl,rfl⟩
  · subst shape
    exact ⟨rfl,rfl⟩

variable [LawfulCalendar]

theorem kept_sent {before : Schedule} (sent : Reads (turn.sends held) before) (landed : turn.land held = some left)
    (declared : ∀ key ∈ [CADENCE_DAYS,RRULE,ADVANCES_FROM], held[key]? = start[key]?)
    (basis : ∃ first spent, FirstBasis start taken first spent ∧ CountsAfter before first spent)
    (anchor : ∀ one ∈ taken, heldAt one.1 ANCHORED_ON ≠ none → held[ANCHORED_ON]? = one.1[ANCHORED_ON]?)
    (phase : ∀ one ∈ taken ++ [(held,turn)], ∀ earlier, scheduleOf one.1 = .ok earlier →
      earlier.cadence = before.cadence ∧ earlier.advancesFrom = before.advancesFrom) :
    ∃ next, Kept start (taken ++ [(held,turn)]) left next := by
  obtain ⟨until',_,accepted,checked,_,_⟩ := land_parts landed
  obtain ⟨moved,moves⟩ := checkIn_moved (scheduleOf_reads.mpr sent) checked
  obtain ⟨left',landed',framed,reads⟩ := land_sent sent accepted moves
  cases Option.some.inj (landed'.symm.trans landed)
  rw [putsOffUntil_sent accepted] at reads
  obtain ⟨first,spent,counted,counts⟩ := basis
  refine ⟨_,reads,?_,⟨first,_,first_more counted held turn,counts_more counts moves _⟩,?_,?_,fun _ => ?_,?_⟩
  · intro key member
    exact (framed.declared key member).trans (declared key member)
  · intro last member
    rw [List.getLast?_concat] at member
    cases member
    rfl
  · intro one member held'
    rcases List.mem_append.mp member with earlier | last
    · have same := anchor one earlier held'
      rw [framed.anchor (by rw [heldAt_congr same]; exact held'),same]
    · cases List.mem_singleton.mp last
      exact framed.anchor held'
  · intro named
    apply framed.anchored
    rw [←heldAt_congr (framed.declared RRULE (by simp))]
    exact named
  · intro one member earlier found
    obtain ⟨cadence,advances⟩ := phase one member earlier found
    obtain ⟨cadence',advances'⟩ := after_cadence moves
    exact ⟨cadence.trans cadence'.symm,advances.trans advances'.symm⟩

theorem kept_step (kept : Kept start taken held schedule) (landed : turn.land held = some left) :
    ∃ next, Kept start (taken ++ [(held,turn)]) left next := by
  obtain ⟨until',_,accepted,_,_,_⟩ := land_parts landed
  obtain ⟨before,sent⟩ := sends_reads kept.reads accepted
  refine kept_sent sent landed kept.declared kept.basis kept.anchor ?_
  intro one member earlier found
  rcases List.mem_append.mp member with already | last
  · exact kept.phase one already earlier found
  · cases List.mem_singleton.mp last
    rw [scheduleOf_reads.mpr kept.reads] at found
    cases Except.ok.inj found
    exact ⟨rfl,rfl⟩

-- The first check-in of a loop that does not read: it opens the loop, or it puts off anew
-- one that was put off until no day.
theorem kept_first (unread : ∀ schedule, scheduleOf start ≠ .ok schedule) (landed : turn.land start = some left)
    (sound : ∀ rule text, heldAt start RRULE = some rule → heldAt start ANCHORED_ON = some text →
      ∃ day made, Scalars.parseDate text = some day ∧ Recurrence.make rule day = .ok made) :
    ∃ next, Kept start [(start,turn)] left next := by
  have none' : ∀ one ∈ [(start,turn)], ∀ earlier, scheduleOf one.1 ≠ .ok earlier := by
    intro one member earlier
    cases List.mem_singleton.mp member
    exact unread earlier
  cases sent : scheduleOf (turn.sends start) with
  | ok before =>
    have sent := scheduleOf_reads.mp sent
    have stored : (turn.sends start)[COUNTS_FROM]? = start[COUNTS_FROM]? := sends_key turn start (by decide)
    have basis : ∃ first spent, FirstBasis start [] first spent ∧ CountsAfter before first spent := by
      refine ⟨before.countsFrom,_,.held ?_,fun _ => rfl,fun _ => rfl⟩
      rw [←heldAt_congr stored]
      exact sent.basis
    exact kept_sent sent landed (fun _ _ => rfl) basis (by simp) fun one member earlier found =>
      absurd found (none' one member earlier)
  | error why =>
    obtain ⟨unset,consumes,framed,schedule,reads,counts,ended⟩ := land_opens landed sent sound
    have spent : consuming [(start,turn)] = [turn] := by simp [consuming,consumes]
    refine ⟨schedule,reads,framed.declared,⟨turn.on,[],.opened unset spent,fun _ => congrArg some counts.symm,fun _ => counts⟩,
      ?_,?_,fun _ => ?_,?_⟩
    · intro last member
      have same : (start,turn) = last := Option.some.inj member
      rw [←same]
      exact ended.trans (if_pos consumes).symm
    · intro one member held
      cases List.mem_singleton.mp member
      exact framed.anchor held
    · intro named
      apply framed.anchored
      rw [←heldAt_congr (framed.declared RRULE (by simp))]
      exact named
    · intro one member earlier found
      exact absurd found (none' one member earlier)

theorem run_kept (run : Run Took start taken now) (begun : taken ≠ [] ∨ ∃ schedule, scheduleOf start = .ok schedule)
    (sound : ∀ rule text, heldAt start RRULE = some rule → heldAt start ANCHORED_ON = some text →
      ∃ day made, Scalars.parseDate text = some day ∧ Recurrence.make rule day = .ok made) :
    ∃ schedule, Kept start taken now schedule := by
  induction run with
  | start =>
    rcases begun with some' | ⟨schedule,found⟩
    · exact absurd rfl some'
    · exact ⟨schedule,kept_start (scheduleOf_reads.mp found)⟩
  | @step earlier before after turn run took ih =>
    by_cases opened : earlier ≠ [] ∨ ∃ schedule, scheduleOf start = .ok schedule
    · obtain ⟨schedule,kept⟩ := ih opened
      exact kept_step kept took
    · simp only [not_or,not_not,not_exists] at opened
      obtain ⟨none',unread⟩ := opened
      cases run.unstarted none'
      subst none'
      exact kept_first unread took sound

-- A rule a loop holds with its own anchor, as the guard of its write left it.
omit [LawfulCalendar] in
theorem anchored_sound (accepted : refusesARule ∅ start = none)
    (anchorReads : ∀ text, heldAt start ANCHORED_ON = some text → ∃ day, Scalars.parseDate text = some day)
    (rule text : Text) (named : heldAt start RRULE = some rule) (held : heldAt start ANCHORED_ON = some text) :
    ∃ day made, Scalars.parseDate text = some day ∧ Recurrence.make rule day = .ok made := by
  obtain ⟨day,parses⟩ := anchorReads text held
  have key : ruleAnchorKey start = ANCHORED_ON := by
    unfold ruleAnchorKey
    rw [held]
    rfl
  have changed : (∅ : Fields)[RRULE]? ≠ start[RRULE]? := by
    intro same
    rw [←heldAt_congr same] at named
    simp [heldAt] at named
  obtain ⟨made,makes⟩ := rule_makes accepted named (fun both => changed both.1) (by rw [key,held]; exact parses)
  exact ⟨day,made,parses,makes⟩

omit [LawfulCalendar] in
theorem Kept.spans (kept : Kept start taken now schedule)
    (fits : ∀ count, (heldAt start CADENCE_DAYS).bind daysOf = some count → count ≤ longestSpan) : schedule.cadence.Spans := by
  have cadence := kept.reads.cadence
  generalize schedule.cadence = shape at cadence
  cases cadence with
  | rule _ _ => trivial
  | days _ counted =>
    rw [heldAt_congr (kept.declared CADENCE_DAYS (by simp))] at counted
    obtain ⟨text,_,parses⟩ := Option.bind_eq_some_iff.mp counted
    exact ⟨of_decide_eq_true (Option.filter_eq_some_iff.mp parses).2,fits _ counted⟩

omit [LawfulCalendar] in
theorem cycle_answers (spans : schedule.cadence.Spans) : ∃ own, schedule.cycleDueOn = some own :=
  ⟨_,dueAfter_movedOn spans schedule.countsFrom⟩

omit [LawfulCalendar] in
theorem after_answers (spans : schedule.cadence.Spans) (outcome : Outcome) (on : Date) : ∃ moved, schedule.after outcome on = some moved := by
  obtain ⟨own,due⟩ := cycle_answers spans
  unfold Schedule.after
  split
  · exact ⟨_,rfl⟩
  · cases schedule.advancesFrom with
    | dueDate => exact ⟨_,Option.map_eq_some_iff.mpr ⟨own,due,rfl⟩⟩
    | checkInDate => exact ⟨_,rfl⟩

omit [LawfulCalendar] in
theorem dueOn_answers {own : Date} (due : schedule.cycleDueOn = some own) :
    schedule.dueOn = some (schedule.snoozedUntil.elim own (max own)) := by
  unfold Schedule.dueOn
  rw [due]
  rfl

-- A snooze holds a loop back, and one put off no earlier than the last never brings it forward.
omit [LawfulCalendar] in
theorem put_off_later {own : Date} (day : Date) (due : schedule.cycleDueOn = some own) :
    ∃ before after, schedule.dueOn = some before ∧ { schedule with snoozedUntil := some day }.dueOn = some after ∧ own ≤ after ∧
      ((∀ earlier ∈ schedule.snoozedUntil, earlier ≤ day) → before ≤ after) := by
  refine ⟨_,max own day,dueOn_answers due,?_,le_max_left own day,?_⟩
  · exact dueOn_answers (show { schedule with snoozedUntil := some day }.cycleDueOn = some own from due)
  intro later
  cases held : schedule.snoozedUntil with
  | none => exact le_max_left own day
  | some earlier => exact max_le_max_left own (later earlier held)

theorem loop_keeps_its_schedule (start now : Fields) (taken : List (Fields × Turn)) (accepted : refusesARule ∅ start = none)
    (anchorReads : ∀ text, heldAt start ANCHORED_ON = some text → ∃ day, Scalars.parseDate text = some day)
    (fits : ∀ count, (heldAt start CADENCE_DAYS).bind daysOf = some count → count ≤ longestSpan)
    (run : Run Took start taken now) (begun : taken ≠ [] ∨ ∃ schedule, scheduleOf start = .ok schedule) :
    ∃ schedule, scheduleOf now = .ok schedule ∧
      (∀ (turn : Turn) (until' : Option Date), snoozeDayOf turn.outcome turn.sent turn.on = .ok until' →
        ∃ left moved next, turn.land now = some left ∧ schedule.after turn.outcome turn.on = some moved ∧
          scheduleOf left = .ok next ∧ next = { moved with snoozedUntil := until' } ∧
          (turn.outcome = .snoozed → next.countsFrom = schedule.countsFrom ∧ next.cadence = schedule.cadence ∧
            ∃ own due later, schedule.cycleDueOn = some own ∧ schedule.dueOn = some due ∧ next.dueOn = some later ∧ own ≤ later ∧
              ((∀ before ∈ schedule.snoozedUntil, ∀ day ∈ until', before ≤ day) → due ≤ later))) ∧
      ((∀ one ∈ taken, heldAt one.1 ANCHORED_ON ≠ none → now[ANCHORED_ON]? = one.1[ANCHORED_ON]?) ∧
        (taken ≠ [] → heldAt now RRULE ≠ none → heldAt now ANCHORED_ON ≠ none) ∧
        ∀ one ∈ taken, ∀ earlier, scheduleOf one.1 = .ok earlier →
          earlier.cadence = schedule.cadence ∧ earlier.advancesFrom = schedule.advancesFrom) ∧
      (∃ first spent, FirstBasis start taken first spent ∧
        (schedule.advancesFrom = .dueDate → schedule.cadence.afterCycles first spent.length = some schedule.countsFrom ∧
          (NthAfter (schedule.cadence.occursOn first) first spent.length schedule.countsFrom ∨
            (∃ reached day, reached < spent.length ∧ NthAfter (schedule.cadence.occursOn first) first reached day ∧
              schedule.cadence.next day = none) ∧ schedule.countsFrom = Calendar.latest)) ∧
        (schedule.advancesFrom = .checkInDate → schedule.countsFrom = (spent.getLast?.map (·.on)).getD first)) ∧
      ∀ last ∈ taken.getLast?, schedule.snoozedUntil = last.2.putsOffUntil := by
  obtain ⟨schedule,kept⟩ := run_kept run begun (anchored_sound accepted anchorReads)
  have spans := kept.spans fits
  refine ⟨schedule,scheduleOf_reads.mpr kept.reads,?_,⟨kept.anchor,kept.anchored,kept.phase⟩,?_,kept.snooze⟩
  · intro turn until' sent
    obtain ⟨moved,moves⟩ := after_answers spans turn.outcome turn.on
    obtain ⟨left,landed,_,reads⟩ := land_reads kept.reads sent moves
    refine ⟨left,moved,_,landed,moves,scheduleOf_reads.mpr reads,rfl,?_⟩
    intro snoozes
    rw [snoozes] at moves
    cases Option.some.inj moves
    have some' : ∃ day, until' = some day := by
      rcases snoozeDayOf_sent sent with ⟨consumes,_,_⟩ | ⟨_,_,day,_,_,_,_,same⟩
      · rw [snoozes] at consumes
        cases consumes
      · exact ⟨day,same⟩
    obtain ⟨day,same⟩ := some'
    subst same
    obtain ⟨own,due⟩ := cycle_answers spans
    obtain ⟨before,after,held,put,above,later⟩ := put_off_later day due
    exact ⟨rfl,rfl,own,before,after,due,held,put,above,fun earlier => later fun one member => earlier one member day rfl⟩
  · obtain ⟨first,spent,counted,due,day⟩ := kept.basis
    refine ⟨first,spent,counted,?_,day⟩
    intro policy
    exact ⟨due policy,basis_occurs spans (due policy)⟩

omit [Calendar] [LawfulCalendar]

-- Every other day from the anchor, of the same four days.
def alternate (anchor asked : Fin 4) : Option (Fin 4) :=
  (List.finRange 4).find? fun day => asked ≤ day ∧ anchor ≤ day ∧ (day.val-anchor.val) % 2 = 0

theorem alternate_answers : ∀ anchor asked day, alternate anchor asked = some day →
    asked ≤ day ∧ ∀ between, asked ≤ between → between ≤ day → alternate anchor between = some day := by decide +kernel

@[reducible] def everyOther : Calendar :=
  { fourDays with
    expand := fun rule anchor => if rule = "FREQ=DAILY;INTERVAL=2".toList then .ok (alternate anchor) else .error [] }

theorem everyOther_lawful : @LawfulCalendar everyOther := by
  refine @LawfulCalendar.mk everyOther rfl ⟨fun day : Fin 4 => (day.val : Int),?_,?_⟩ ?_ ?_
  · intro day other
    exact Int.ofNat_lt
  · intro day count _ later
    have bound := day.isLt
    have bound' := later.isLt
    change (if 0 ≤ (day.val : Int)+count ∧ (day.val : Int)+count < 4 then
      some (Fin.ofNat 4 ((day.val : Int)+count).toNat) else none) = some later ↔ (later.val : Int) = day.val + count
    constructor
    · intro added
      split at added
      · have same := congrArg Fin.val (Option.some.inj added)
        simp only [Fin.val_ofNat] at same
        omega
      · cases added
    · intro same
      rw [if_pos (by omega)]
      apply congrArg some
      apply Fin.ext
      simp only [Fin.val_ofNat]
      omega
  · intro day
    exact Fin.le_last day
  · intro rule anchor set expands asked moment day answered civil
    change (if rule = "FREQ=DAILY;INTERVAL=2".toList then Except.ok (alternate anchor) else .error []) = _ at expands
    split at expands
    · cases Except.ok.inj expands
      cases Option.some.inj civil
      exact alternate_answers anchor asked moment answered
    · cases expands

def everyOtherDay : Fields := (∅ : Fields).insert RRULE "FREQ=DAILY;INTERVAL=2".toList

-- Opened on the first day and checked in late, on the last: it counts from the day between.
def opened : Fields := (@Turn.land everyOther (@Turn.mk everyOther .ran (@Calendar.unanchored everyOther) none) everyOtherDay).getD ∅

def lateTurn : Fields := (@Turn.land everyOther (@Turn.mk everyOther .ran (@Calendar.latest everyOther) none) opened).getD ∅

theorem stands (landed : Option Fields) (some' : landed.isSome = true) : landed = some (landed.getD ∅) := by
  cases landed with
  | none => cases some'
  | some left => rfl

theorem a_late_turn_keeps_the_phase :
    @Turn.land everyOther (@Turn.mk everyOther .ran (3 : Fin 4) none) opened = some lateTurn ∧
      (∃ schedule, @scheduleOf everyOther lateTurn = .ok schedule ∧
        ∃ left next, @Turn.land everyOther (@Turn.mk everyOther .ran (3 : Fin 4) none) lateTurn = some left ∧
          @scheduleOf everyOther left = .ok next) ∧
      (@scheduleOf everyOther lateTurn).toOption.map (@Schedule.countsFrom everyOther) = some (2 : Fin 4) := by
  have opens : @Took everyOther everyOtherDay (@Turn.mk everyOther .ran (0 : Fin 4) none) opened :=
    stands _ (by decide +kernel)
  have turns : @Took everyOther opened (@Turn.mk everyOther .ran (3 : Fin 4) none) lateTurn :=
    stands _ (by decide +kernel)
  have unanchored : heldAt everyOtherDay ANCHORED_ON = none := by decide +kernel
  have uncounted : heldAt everyOtherDay CADENCE_DAYS = none := by decide +kernel
  have accepted : @refusesARule everyOther ∅ everyOtherDay = none := by decide +kernel
  have run : @Run Fields (@Turn everyOther) (@Took everyOther) everyOtherDay
      [(everyOtherDay,@Turn.mk everyOther .ran (0 : Fin 4) none),(opened,@Turn.mk everyOther .ran (3 : Fin 4) none)] lateTurn :=
    .step (.step .start opens) turns
  obtain ⟨schedule,reads,takes,_⟩ := @loop_keeps_its_schedule everyOther everyOther_lawful everyOtherDay lateTurn _ accepted
    (by rw [unanchored]; simp) (by rw [uncounted]; simp) run (Or.inl (by simp))
  obtain ⟨left,_,next,landed,_,found,_⟩ := takes (@Turn.mk everyOther .ran (3 : Fin 4) none) none rfl
  exact ⟨turns,⟨schedule,reads,left,next,landed,found⟩,by decide +kernel⟩

-- The first day rules are asked about, a leap day after it, and a day of an odd year.
@[reducible] def leapDays : Calendar where
  Date := Fin 3
  Number := Nat
  dates := inferInstance
  numbers := inferInstance
  parseDate text := (["2000-01-03".toList,"2000-02-29".toList,"2027-03-01".toList].finIdxOf? text)
  parseNumber := digits
  isFinite _ := true
  latest := 2
  unanchored := 0
  written day := ["2000-01-03".toList,"2000-02-29".toList,"2027-03-01".toList].get day
  parse_written := by decide
  addDays _ _ := none
  Moment := Fin 3
  civil := some
  expand rule anchor :=
    if rule = "FREQ=YEARLY;INTERVAL=2;BYMONTH=2;BYMONTHDAY=29".toList then
      .ok fun asked => if anchor < 2 ∧ asked < 2 then some 1 else none
    else .error []

def leapDay : Fields := (∅ : Fields).insert RRULE "FREQ=YEARLY;INTERVAL=2;BYMONTH=2;BYMONTHDAY=29".toList

def daily : Fields := ((∅ : Fields).insert CADENCE_DAYS "1".toList).insert ADVANCES_FROM "due_date".toList

def taking (outcome : Outcome) (on : Fin 4) (sent : Option String) (held : Fields) : Option Fields :=
  @Turn.land everyOther (@Turn.mk everyOther outcome on (sent.map (·.toList))) held

def basisOf (held : Fields) : Option (Fin 4) := (@scheduleOf everyOther held).toOption.map (@Schedule.countsFrom everyOther)

def dueOf (held : Fields) : Option (Fin 4) := (@scheduleOf everyOther held).toOption.bind (@Schedule.dueOn everyOther)

-- A second snooze to an earlier day, a basis on the last day there is, a rule opened from
-- an anchor nobody can read, and one opened from a day it never occurs after.
theorem a_second_snooze_brings_the_loop_forward :
    (∃ first second, taking .snoozed 0 "2026-01-08" (daily.insert COUNTS_FROM "2026-01-05".toList) = some first ∧
      taking .snoozed 0 "2026-01-07" first = some second ∧ dueOf first = some 3 ∧ dueOf second = some 2) ∧
    (∃ first second, taking .ran 0 none (daily.insert COUNTS_FROM "2026-01-07".toList) = some first ∧
      taking .ran 0 none first = some second ∧ basisOf first = some 3 ∧ basisOf second = some 3) ∧
    (∃ first, taking .ran 0 none (everyOtherDay.insert ANCHORED_ON "soon".toList) = some first ∧
      basisOf first = none ∧ taking .ran 0 none first = none) ∧
    ∃ first, (@checkIn leapDays leapDay .ran (2 : Fin 3)).bind (·.toOption.map fun written => laid leapDay written.toList) = some first ∧
      @refusesARule leapDays ∅ leapDay = none ∧ (@scheduleOf leapDays first).toOption.isNone = true ∧
      (@refusesARule leapDays leapDay first).isSome = true :=
  ⟨⟨_,_,stands _ (by decide +kernel),stands _ (by decide +kernel),by decide +kernel,by decide +kernel⟩,
    ⟨_,_,stands _ (by decide +kernel),stands _ (by decide +kernel),by decide +kernel,by decide +kernel⟩,
    ⟨_,stands _ (by decide +kernel),by decide +kernel,Option.isNone_iff_eq_none.mp (by decide +kernel)⟩,
    _,stands _ (by decide +kernel),by decide +kernel,by decide +kernel,by decide +kernel⟩

end Attention
